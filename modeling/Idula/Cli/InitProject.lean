import Idula.Cli.Project

/-! init_project: the set-up of a project while the entries of a directory go by. -/
namespace Idula.Cli.InitProject
open Zig Library Project

/-- What init_project does on the way. -/
inductive Effect where
  | print (name : EntryName)
  | writeErr (text : Str)
  | projectInit (proj : Except FsError Init)

/-- A call of init_project: its effects and the value with which it returns. -/
structure Run where
  effects : List Effect
  result : Option Str

/-- The current directory, which Project.init looks at, and what its prompt gets. -/
structure Cwd where
  path : Str
  root : Root
  fs : WalkOrder
  promptLn : Str

def alreadySetUp : Str :=
  lit "\x1b;33;1mYou've already set up a project in this directory!\x1b[0m"

/-- The body of the loop: only the project file leaves it by a break, and both branches
write the same. -/
def rdir (cwd : Cwd) (projectFile : Str) (effects : List Effect) (p : DirEntry) :
    List Effect × Option Str :=
  let effects := effects ++ [.print p.name]
  if p.name.bytes = projectFile then (effects ++ [.writeErr alreadySetUp], some projectFile)
  else
    let proj := init cwd.fs cwd.path cwd.promptLn cwd.root none none
    (effects ++ [.projectInit proj, .writeErr alreadySetUp], none)

/-- The path that init_workspace beside it declares: the given directory, or ".". -/
def dirPath (dir : Option Str) : Str := dir.getD (lit ".")

def projectFile (dir : Option Str) : Str := join (dirPath dir) (lit "idle.toml")

/-- init_project over the entries of the opened directory; behind the loop it returns nothing. -/
def initProject (cwd : Cwd) (dir : Option Str) (entries : List DirEntry) : Run where
  effects := whileLabelledBody (rdir cwd (projectFile dir)) [] entries
  result := none

def Effect.isInit : Effect → Bool
  | .projectInit _ => true
  | _ => false

/-- The number of calls of Project.init. -/
def Run.inits (run : Run) : Nat := run.effects.countP Effect.isInit

variable {cwd : Cwd} {dir : Option Str} {entries order : List DirEntry}

/-- idle.toml, as an entry. -/
def projectFileName : EntryName := ⟨lit "idle.toml", by decide, by decide⟩

/-- What a run should come to: the project file reported, or one set-up. -/
structure SetUp (dir : Option Str) (entries : List DirEntry) (run : Run) : Prop where
  existing : projectFileName ∈ entries.map DirEntry.name →
    run.inits = 0 ∧ run.result = some (projectFile dir)
  fresh : projectFileName ∉ entries.map DirEntry.name → run.inits = 1

/-- In every order of the entries the directory is set up at most once, and alike. -/
structure SetsUpOnce (cwd : Cwd) (dir : Option Str) (entries : List DirEntry) : Prop where
  setUp : ∀ order, order.Perm entries → SetUp dir entries (initProject cwd dir order)
  alike : ∀ order order', order.Perm entries → order'.Perm entries →
    (initProject cwd dir order).inits = (initProject cwd dir order').inits ∧
      (initProject cwd dir order).result = (initProject cwd dir order').result

/-- The effects of one entry. -/
def effectsOf (cwd : Cwd) (dir : Option Str) (p : DirEntry) : List Effect :=
  (rdir cwd (projectFile dir) [] p).1

theorem effects_eq :
    (initProject cwd dir entries).effects = entries.flatMap (effectsOf cwd dir) := by
  apply whileLabelledBody_log
  intro log p
  unfold effectsOf rdir
  split <;> simp

/-- Every entry but the project file is a set-up. -/
theorem inits_eq : (initProject cwd dir entries).inits =
    entries.countP fun p => p.name.bytes ≠ projectFile dir := by
  rw [Run.inits, effects_eq]
  induction entries with
  | nil => rfl
  | cons p entries ih =>
    have hp : (effectsOf cwd dir p).countP Effect.isInit =
        if p.name.bytes ≠ projectFile dir then 1 else 0 := by
      unfold effectsOf rdir
      by_cases h : p.name.bytes = projectFile dir
      · simp [h, Effect.isInit]
      · simp [h, Effect.isInit, List.countP_cons]
    rw [List.flatMap_cons, List.countP_append, ih, hp, List.countP_cons, Nat.add_comm]
    simp

/-- The path of the project file is never the name of another entry. -/
theorem name_ne_projectFile {n : EntryName} (h : n ≠ projectFileName) : n.bytes ≠ projectFile dir := by
  intro hb
  by_cases hd : dirPath dir = []
  · apply h
    have hn : n.bytes = projectFileName.bytes := by rw [hb, projectFile, hd, join, if_pos rfl, projectFileName]
    cases n
    cases hn
    rfl
  · exact join_ne_name hd (by decide) n hb

/-- Without the project file there are as many set-ups as entries. -/
theorem inits_of_fresh (h : projectFileName ∉ entries.map DirEntry.name) :
    (initProject cwd dir entries).inits = entries.length := by
  rw [inits_eq, List.countP_eq_length]
  intro p hp
  apply decide_eq_true
  apply name_ne_projectFile
  exact fun hn => h (List.mem_map.mpr ⟨p, hp, hn⟩)

/-- A directory is set up as it should be exactly when it has one entry, and that is not
the project file. -/
theorem setsUpOnce_iff (cwd : Cwd) (dir : Option Str) (entries : List DirEntry) :
    SetsUpOnce cwd dir entries ↔
      projectFileName ∉ entries.map DirEntry.name ∧ entries.length = 1 := by
  constructor
  · intro h
    have hs := h.setUp entries (List.Perm.refl entries)
    have hn : projectFileName ∉ entries.map DirEntry.name := fun hm => nomatch (hs.existing hm).2
    exact ⟨hn, (inits_of_fresh hn).symm.trans (hs.fresh hn)⟩
  · rintro ⟨hn, hl⟩
    have hone (order : List DirEntry) (hp : order.Perm entries) :
        (initProject cwd dir order).inits = 1 := by
      rw [inits_of_fresh fun hm => hn ((hp.map DirEntry.name).mem_iff.mp hm), hp.length_eq, hl]
    refine ⟨fun order hp => ⟨fun hm => absurd hm hn, fun _ => hone order hp⟩, ?_⟩
    exact fun order order' hp hp' => ⟨(hone order hp).trans (hone order' hp').symm, rfl⟩

/-- Two entries: two set-ups. -/
theorem two_set_ups : ¬ SetsUpOnce ⟨lit ".", .empty, ⟨listing, fun _ => .refl _⟩, lit "demo"⟩ none
    [⟨readme, .file⟩, ⟨src, .directory⟩] := by
  intro h
  have hs := (h.setUp _ (.refl _)).fresh (by decide)
  rw [inits_of_fresh (by decide)] at hs
  exact absurd hs (by decide)

end Idula.Cli.InitProject
