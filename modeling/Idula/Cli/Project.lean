import Idula.Zig.FsCalls
import Idula.Zig.Walks

/-! Project: its detection in a directory, its creation there, and how far the two agree. -/
namespace Idula.Cli.Project
open Zig Library

def idleToml : EntryName := ⟨lit "Idle.toml", by decide, by decide⟩
def gitignore : EntryName := ⟨lit ".gitignore", by decide, by decide⟩
def readme : EntryName := ⟨lit "README.md", by decide, by decide⟩
def buildIs : EntryName := ⟨lit "build.is", by decide, by decide⟩
def src : EntryName := ⟨lit "src", by decide, by decide⟩
def out : EntryName := ⟨lit "out", by decide, by decide⟩
def mainIs : EntryName := ⟨lit "main.is", by decide, by decide⟩
def libIs : EntryName := ⟨lit "lib.is", by decide, by decide⟩

/-- Project.Type. -/
inductive ProjectType where
  | lib
  | bin
  | hybrid
  | exelib
  deriving DecidableEq

/-- The body of the loop of isProjectDir: it prints the name of the entry, and breaks with true
at the project file. -/
def rdir (projectFile : Str) (printed : List Str) (p : WalkerEntry) : List Str × Option Bool :=
  (printed ++ [p.name], if p.path = projectFile then some true else none)

/-- isProjectDir, with what it prints; dirPath is the path of dir. -/
def isProjectDir (fs : WalkOrder) (dirPath : Str) (dir : Root) : List Str × Bool :=
  let projectFile := join dirPath (lit "idle.toml")
  let printed := whileLabelledBody (rdir projectFile) [] (fs.order dir)
  (printed, false)

/-- What Project.init returns. -/
inductive Init where
  | fromConfig
  | project (title : Str) (projectType : ProjectType)
  deriving DecidableEq

/-- Project.init, from the current directory; promptLn is the title that a prompt gets. -/
def init (fs : WalkOrder) (cwdPath promptLn : Str) (cwd : Root) (name : Option EntryName)
    (ty : Option ProjectType) : Except FsError Init := do
  let (path, dir) ← match name with
    | some n => do
      let _ ← makeDir n cwd
      pure (join cwdPath n.bytes, ArrayMap.empty)
    | none => pure (cwdPath, cwd)
  if (isProjectDir fs path dir).2 then return .fromConfig
  return .project (name.elim promptLn EntryName.bytes) (ty.getD .hybrid)

/-- The embedded templates, the texts of the default functions, and what a write to an
element of files that was never set comes to. -/
structure Env where
  template : EntryName → Str
  gignoreDft : Str
  buildDft : Str
  mainDefault : Str
  libDefault : Str
  unset : Nat → Str → Except FsError Unit

/-- The loop over base_files: every pass assigns files[0]. -/
def baseFilesLoop (env : Env) (di : Root) : Except FsError Root :=
  [idleToml, gitignore, readme, buildIs].foldlM
    (fun di fname => writeFile fname (env.template fname) di) di

def createInDir (env : Env) (di : Root) : Except FsError Root := do
  let di ← baseFilesLoop env di
  -- files[0] is by now the handle of build.is
  let di := writeAll buildIs (env.template idleToml) di
  env.unset 1 (env.template gitignore)
  env.unset 2 (env.template readme)
  env.unset 3 (env.template buildIs)
  let di ← makeDir src di
  let di ← makeDir out di
  let di ← writeFile gitignore env.gignoreDft di
  let di ← writeFile buildIs env.buildDft di
  openDir src di
  let di ← writeFile mainIs env.mainDefault di
  writeFile libIs env.libDefault di

/-- The directory holds the configuration file that createInDir writes. -/
def HoldsConfig (di : Root) : Prop := IsFile di idleToml

/-- Nothing in the directory or in the environment stops createInDir. -/
structure Creatable (env : Env) (di : Root) : Prop where
  files : ∀ n ∈ [idleToml, gitignore, readme, buildIs, mainIs, libIs], ¬ IsDir di n
  dirs : ∀ n ∈ [src, out], di.get n = none
  unset : env.unset 1 (env.template gitignore) = .ok () ∧ env.unset 2 (env.template readme) = .ok () ∧
    env.unset 3 (env.template buildIs) = .ok ()

variable {fs : WalkOrder} {env : Env} {dirPath : Str} {di di' : Root}

/-- What createInDir leaves behind. -/
def created (env : Env) (di : Root) : Root :=
  let di := written idleToml (env.template idleToml) di
  let di := written gitignore (env.template gitignore) di
  let di := written readme (env.template readme) di
  let di := written buildIs (env.template buildIs) di
  let di := writeAll buildIs (env.template idleToml) di
  let di := (di.put src (.dir [])).put out (.dir [])
  let di := written gitignore env.gignoreDft di
  let di := written buildIs env.buildDft di
  let di := written mainIs env.mainDefault di
  written libIs env.libDefault di

/-- Creatable in the order in which createInDir comes upon its parts. -/
private theorem creatable_iff : Creatable env di ↔
    (¬ IsDir di idleToml ∧ ¬ IsDir di gitignore ∧ ¬ IsDir di readme ∧ ¬ IsDir di buildIs) ∧
      (env.unset 1 (env.template gitignore) = .ok () ∧
        env.unset 2 (env.template readme) = .ok () ∧
        env.unset 3 (env.template buildIs) = .ok ()) ∧
      (di.get src = none ∧ di.get out = none) ∧ ¬ IsDir di mainIs ∧ ¬ IsDir di libIs := by
  constructor
  · rintro ⟨hf, hd, hu⟩
    simp only [List.forall_mem_cons] at hf hd
    obtain ⟨h1, h2, h3, h4, h5, h6, _⟩ := hf
    exact ⟨⟨h1, h2, h3, h4⟩, hu, ⟨hd.1, hd.2.1⟩, h5, h6⟩
  · rintro ⟨⟨h1, h2, h3, h4⟩, hu, ⟨h7, h8⟩, h5, h6⟩
    refine ⟨?_, ?_, hu⟩
    · simp [h1, h2, h3, h4, h5, h6]
    · simp [h7, h8]

/-- The calls of createInDir meet each other only in the names that they share. -/
theorem createInDir_eq_ok :
    createInDir env di = .ok di' ↔ Creatable env di ∧ created env di = di' := by
  have hunit (p : Unit → Prop) : (∃ u, p u) ↔ p () := ⟨fun ⟨_, hp⟩ => hp, fun hp => ⟨(), hp⟩⟩
  rw [creatable_iff]
  unfold createInDir baseFilesLoop created
  simp +decide [bind_eq_ok, writeFile_eq_ok, makeDir_eq_ok, openDir_eq_ok, hunit, and_assoc]

/-- createInDir leaves its configuration file at the root. -/
theorem holdsConfig_created : HoldsConfig (created env di) := by
  unfold HoldsConfig created
  simp +decide

/-- The value of the labelled break is lost, so nothing is ever detected. -/
theorem isProjectDir_false (fs : WalkOrder) (dirPath : Str) (dir : Root) :
    (isProjectDir fs dirPath dir).2 = false := rfl

/-- The names of the whole walk are printed, in its order. -/
theorem isProjectDir_prints (fs : WalkOrder) (dirPath : Str) (dir : Root) :
    (isProjectDir fs dirPath dir).1 = (fs.order dir).map WalkerEntry.name := by
  rw [List.map_eq_flatMap]
  exact whileLabelledBody_log (rdir (join dirPath (lit "idle.toml"))) (fun p => [p.name])
    (fun _ _ => rfl) [] (fs.order dir)

/-- A project that is there is among the files that are printed and passed over. -/
theorem config_printed (fs : WalkOrder) (dirPath : Str) (h : HoldsConfig di) :
    idleToml.bytes ∈ (isProjectDir fs dirPath di).1 := by
  rw [isProjectDir_prints]
  exact List.mem_map.mpr
    ⟨_, (isFile_iff_walked fs di idleToml).mp h, WalkerEntry.name_entryName .file idleToml⟩

/-- Project.init never comes to its branch for an existing project. -/
theorem init_ne_fromConfig (fs : WalkOrder) (cwdPath promptLn : Str) (cwd : Root)
    (name : Option EntryName) (ty : Option ProjectType) :
    init fs cwdPath promptLn cwd name ty ≠ .ok .fromConfig := by
  cases name with
  | none => exact fun h => nomatch h
  | some n =>
    unfold init
    intro h
    obtain ⟨⟨path, dir⟩, _, hi⟩ := bind_eq_ok.mp h
    cases hi

/-- In every order of the walk, detection finds the configuration file at the root and only
there, and finds it after a creation, which Project.init then respects. -/
structure Agrees (env : Env) (dirPath : Str) (di : Root) : Prop where
  detects : ∀ fs : WalkOrder, (isProjectDir fs dirPath di).2 = true ↔ HoldsConfig di
  created : ∀ di', createInDir env di = .ok di' → ∀ fs : WalkOrder,
    (isProjectDir fs dirPath di').2 = true ∧
      ∀ promptLn ty, init fs dirPath promptLn di' none ty = .ok .fromConfig

/-- Detection agrees with creation exactly where there is no project and none can be made. -/
theorem agrees_iff (env : Env) (dirPath : Str) (di : Root) :
    Agrees env dirPath di ↔ ¬ HoldsConfig di ∧ ¬ Creatable env di := by
  let walk : WalkOrder := ⟨listing, IsWalk.refl⟩
  constructor
  · intro h
    constructor
    · intro hc
      have hd := (h.detects walk).mpr hc
      rw [isProjectDir_false] at hd
      cases hd
    · intro hc
      have hd := (h.created (created env di) (createInDir_eq_ok.mpr ⟨hc, rfl⟩) walk).1
      rw [isProjectDir_false] at hd
      cases hd
  · rintro ⟨hn, hc⟩
    refine ⟨fun fs => ?_, fun di' hok => absurd (createInDir_eq_ok.mp hok).1 hc⟩
    rw [isProjectDir_false]
    exact iff_of_false Bool.false_ne_true hn

/-- A directory with nothing but its configuration file is taken for an empty one. -/
theorem config_overlooked : ¬ Agrees ⟨fun _ => [], [], [], [], [], fun _ _ => .ok ()⟩ (lit ".")
    (ArrayMap.empty.put idleToml (.file [])) := by
  intro h
  have hd := (h.detects ⟨listing, IsWalk.refl⟩).mpr ⟨[], rfl⟩
  rw [isProjectDir_false] at hd
  cases hd

end Idula.Cli.Project
