import Mathlib.Data.List.Find
import Idula.Zig.Scripts
import Idula.Cli.Project

/-! The creation of a project file by file: createBaseFiles, which makes src twice, and
createInDir a second time in the directory that it has filled. -/
namespace Idula.Cli.CreateFiles
open Zig Library Library.Attempts Project

/-- The texts that the three functions embed, for each pass of their loops: their paths are made
with files[0], not with the name of the file. -/
structure Templates where
  base : Nat → Str
  srcFile : Nat → Str
  outFile : Nat → Str

/-- Type.srcFiles. -/
def srcFiles : ProjectType → List EntryName
  | .hybrid => [mainIs, libIs]
  | .bin => [mainIs]
  | .lib | .exelib => [libIs]

def baseFiles : List EntryName := [idleToml, gitignore, readme, buildIs]

/-- The body that createSrcFiles and createOutFiles share: the files go to dir, not to the src
that it opens. -/
def srcCalls (text : Nat → Str) (ty : ProjectType) : List Call :=
  [.makeDir src, .openDir src] ++ writeFiles text (srcFiles ty)

def createSrcFiles (tmpl : Templates) (ty : ProjectType) : List Call := srcCalls tmpl.srcFile ty

/-- createOutFiles makes src, too. -/
def createOutFiles (tmpl : Templates) (ty : ProjectType) : List Call := srcCalls tmpl.outFile ty

def baseFilesCalls (tmpl : Templates) : List Call := writeFiles tmpl.base baseFiles

/-- createBaseFiles, with what it leaves when it fails. Its base_files and di, which are declared
nowhere, are read as filenames and the current directory. -/
def createBaseFiles (tmpl : Templates) (ty : ProjectType) (cwd : Root) : Root × Option FsError :=
  script (baseFilesCalls tmpl ++ createSrcFiles tmpl ty ++ createOutFiles tmpl ty) cwd

variable {tmpl : Templates} {ty : ProjectType} {d d' : Root} {n : EntryName} {data : Str}

/-- The part of createBaseFiles before createOutFiles undoes nothing of its own. -/
theorem keeps_calls : (baseFilesCalls tmpl ++ createSrcFiles tmpl ty).Pairwise Call.Keeps := by
  have hopen : (baseFilesCalls tmpl ++ createSrcFiles tmpl ty).Pairwise
      fun c c' => c.target ≠ c'.target ∨ c' = .openDir src := by
    cases ty <;> simp +decide [baseFilesCalls, baseFiles, createSrcFiles, srcCalls, srcFiles, writeFiles,
      Call.target]
  refine hopen.imp ?_
  rintro c c' (h | rfl)
  · exact keeps_of_ne h
  · exact keeps_openDir

private theorem src_not_mem : src ∉ baseFiles ++ srcFiles ty := by
  cases ty <;> decide

private theorem base_not_mem (h : n ∈ srcFiles ty) : n ∉ baseFiles := by
  revert n
  cases ty <;> decide

private theorem srcCalls_fresh (text : Nat → Str) (hs : d.get src = none) :
    script (srcCalls text ty) d = script (writeFiles text (srcFiles ty)) (d.put src (.dir [])) := by
  have hmake : (Call.makeDir src).exec d = .ok (d.put src (.dir [])) := makeDir_eq_ok.mpr ⟨hs, rfl⟩
  have hopen : (Call.openDir src).exec (d.put src (.dir [])) = .ok (d.put src (.dir [])) := by
    refine exec_eq_ok.mpr ⟨.dir [], ?_, ArrayMap.put_put d src (.dir []) (.dir [])⟩
    rw [Call.target, ArrayMap.get_put, if_pos rfl]
    rfl
  exact script_append_of_done ((attempt_ok hmake).trans (attempt_ok hopen))

private theorem srcCalls_again (text : Nat → Str) (hs : d.get src ≠ none) :
    script (srcCalls text ty) d = (d, some (.pathAlreadyExists src)) := by
  obtain ⟨node, hg⟩ := Option.ne_none_iff_exists'.mp hs
  have hfail : (Call.makeDir src).exec d = .error (.pathAlreadyExists src) :=
    exec_eq_error.mpr (by simp [Call.target, Call.act, hg])
  exact attempt_error hfail

/-- The calls on src fail where it is there, and else where a file is to take the place of a
directory. -/
theorem srcCalls_error (text : Nat → Str) : (script (srcCalls text ty) d).2 =
    if d.get src = none then ((srcFiles ty).find? fun fname => IsDir d fname).map .isDir
    else some (.pathAlreadyExists src) := by
  by_cases hs : d.get src = none
  · rw [if_pos hs, srcCalls_fresh text hs, writeFiles_error]
    congr 1
    refine List.find?_congr fun fname hf => ?_
    have hne : fname ≠ src := fun he => src_not_mem (List.mem_append_right _ (he ▸ hf))
    exact decide_eq_decide.mpr (isDir_of_get_eq (by rw [ArrayMap.get_put, if_neg hne]))
  · rw [if_neg hs, srcCalls_again text hs]

/-- Whether or not they fail, src is there after them. -/
theorem srcCalls_src (ty : ProjectType) (text : Nat → Str) (d : Root) :
    (script (srcCalls text ty) d).1.get src ≠ none := by
  by_cases hs : d.get src = none
  · have hn : src ∉ srcFiles ty := fun hf => src_not_mem (List.mem_append_right baseFiles hf)
    rw [srcCalls_fresh text hs, get_writeFiles text _ hn, ArrayMap.get_put, if_pos rfl]
    exact Option.some_ne_none _
  · rw [srcCalls_again text hs]
    exact hs

/-- Where the base files can be written, src is there before createOutFiles. -/
private theorem calls_src {d₁ : Root} (hb : script (baseFilesCalls tmpl) d = (d₁, none)) :
    (script (baseFilesCalls tmpl ++ createSrcFiles tmpl ty) d).1.get src ≠ none := by
  rw [script_append_of_done hb]
  exact srcCalls_src ty tmpl.srcFile d₁

/-- createOutFiles never gets past its first call, and undoes nothing. -/
theorem createBaseFiles_eq : createBaseFiles tmpl ty d =
    let r := script (baseFilesCalls tmpl ++ createSrcFiles tmpl ty) d
    (r.1, some (r.2.getD (.pathAlreadyExists src))) := by
  unfold createBaseFiles
  rcases hr : script (baseFilesCalls tmpl ++ createSrcFiles tmpl ty) d with ⟨d', none | e⟩
  · rw [script_append_of_done hr]
    refine srcCalls_again tmpl.outFile ?_
    obtain ⟨d₁, hb, -⟩ := script_append_eq_done.mp hr
    have hs : (script (baseFilesCalls tmpl ++ createSrcFiles tmpl ty) d).1.get src ≠ none := calls_src hb
    rwa [hr] at hs
  · exact script_append_of_failed hr

/-- Up to createOutFiles the first of the files that is a directory stops the calls, and src. -/
theorem calls_error : (script (baseFilesCalls tmpl ++ createSrcFiles tmpl ty) d).2 =
    ((baseFiles.find? fun fname => IsDir d fname).map .isDir).or
      (if d.get src = none then ((srcFiles ty).find? fun fname => IsDir d fname).map .isDir
        else some (.pathAlreadyExists src)) := by
  have he := writeFiles_error tmpl.base baseFiles d
  rw [← baseFilesCalls] at he
  rcases hb : script (baseFilesCalls tmpl) d with ⟨d₁, none | e⟩
  · rw [hb] at he
    have hget : ∀ n, n ∉ baseFiles → d₁.get n = d.get n := fun n hn => by
      have hg := get_writeFiles tmpl.base d hn
      rwa [← baseFilesCalls, hb] at hg
    have hsrc := hget src fun h => src_not_mem (List.mem_append_left (srcFiles ty) h)
    have hfind : (srcFiles ty).find? (fun fname => IsDir d₁ fname) =
        (srcFiles ty).find? fun fname => IsDir d fname :=
      List.find?_congr fun fname hf =>
        decide_eq_decide.mpr (isDir_of_get_eq (hget fname (base_not_mem hf)))
    rw [script_append_of_done hb, createSrcFiles, srcCalls_error, ← he, Option.none_or, hsrc, hfind]
  · rw [hb] at he
    rw [script_append_of_failed hb, ← he, Option.some_or]

theorem get_calls (hn : n ∉ src :: (baseFiles ++ srcFiles ty)) :
    (script (baseFilesCalls tmpl ++ createSrcFiles tmpl ty) d).1.get n = d.get n := by
  refine get_script _ _ fun c hc he => hn ?_
  have ht := List.mem_map_of_mem (f := Call.target) hc
  rw [he, List.map_append, baseFilesCalls, createSrcFiles, srcCalls, List.map_append,
    targets_writeFiles, targets_writeFiles] at ht
  simp only [List.map_cons, List.map_nil, Call.target, List.mem_append, List.mem_cons] at ht ⊢
  tauto

/-- Whatever the directory, createBaseFiles fails: at the first base file that is a directory,
else at src if that is there, else at the first source file that is a directory, and else at src
again. A second call changes nothing more, and no other entry is touched. -/
theorem createBaseFiles_fails (tmpl : Templates) (ty : ProjectType) (d : Root) :
    (createBaseFiles tmpl ty d).2 =
      some (((baseFiles ++ if d.get src = none then srcFiles ty else []).find?
        fun fname => IsDir d fname).elim (.pathAlreadyExists src) .isDir) ∧
    ((∀ n ∈ baseFiles, ¬ IsDir d n) → (createBaseFiles tmpl ty d).1.get src ≠ none) ∧
    (createBaseFiles tmpl ty (createBaseFiles tmpl ty d).1).1 = (createBaseFiles tmpl ty d).1 ∧
    ∀ n, n ∉ src :: (baseFiles ++ srcFiles ty) → (createBaseFiles tmpl ty d).1.get n = d.get n := by
  simp only [createBaseFiles_eq]
  refine ⟨?_, fun hf => ?_, script_script keeps_calls, fun n hn => get_calls hn⟩
  · rw [calls_error, List.find?_append]
    cases baseFiles.find? fun fname => IsDir d fname with
    | some n => rfl
    | none =>
      by_cases hs : d.get src = none
      · rw [if_pos hs, if_pos hs]
        cases (srcFiles ty).find? fun fname => IsDir d fname <;> rfl
      · rw [if_neg hs, if_neg hs]
        rfl
  · exact calls_src (writeFiles_eq_done.mpr ⟨hf, rfl⟩)

/-- The calls of createInDir, one by one. -/
def createInDirCalls (env : Env) : List (Root → Except FsError Root) :=
  (baseFiles.map fun fname => writeFile fname (env.template fname)) ++
  [fun di => .ok (writeAll buildIs (env.template idleToml) di),
    fun di => (env.unset 1 (env.template gitignore)).map fun _ => di,
    fun di => (env.unset 2 (env.template readme)).map fun _ => di,
    fun di => (env.unset 3 (env.template buildIs)).map fun _ => di,
    makeDir src, makeDir out,
    writeFile gitignore env.gignoreDft, writeFile buildIs env.buildDft,
    fun di => (openDir src di).map fun _ => di,
    writeFile mainIs env.mainDefault, writeFile libIs env.libDefault]

variable {env : Env}

theorem createInDir_eq_attempt :
    createInDir env d = .ok d' ↔ attempt (createInDirCalls env) d = (d', none) := by
  rw [← foldlM_eq_ok_iff]
  have hmap : ∀ (x : Except FsError Unit) (d : Root) (f : Root → Except FsError Root),
      (x.map (fun _ => d) >>= f) = x >>= fun _ => f d := by
    intro x d f
    cases x <;> rfl
  have heq : (createInDirCalls env).foldlM (fun d f => f d) d = createInDir env d := by
    simp only [createInDirCalls, baseFiles, List.map_cons, List.map_nil, List.cons_append,
      List.nil_append, List.foldlM_cons, List.foldlM_nil, createInDir, baseFilesLoop, bind_assoc,
      bind_pure, hmap]
    rfl
  rw [heq]

private theorem attempt_written {fs : List (Root → Except FsError Root)} (h : ¬ IsDir d n) :
    attempt (writeFile n data :: fs) d = attempt fs (d.put n (.file data)) :=
  attempt_ok (writeFile_eq_ok.mpr ⟨h, written_eq⟩)

private theorem writeAll_put {content : Str} :
    writeAll n data (d.put n (.file content)) = d.put n (.file (content ++ data)) := by
  rw [writeAll, ArrayMap.get_put, if_pos rfl]
  exact ArrayMap.put_put d n _ _

private theorem attempt_writeAll {fs : List (Root → Except FsError Root)} :
    attempt ((fun di => .ok (writeAll n data di)) :: fs) d = attempt fs (writeAll n data d) :=
  attempt_ok rfl

/-- The error of a call, if it fails. -/
def errorOf {α : Type} : Except FsError α → Option FsError
  | .ok _ => none
  | .error e => some e

/-- The first error of the writes to the elements of files that were never set. -/
def strayError (env : Env) : Option FsError :=
  (errorOf (env.unset 1 (env.template gitignore))).or <|
    (errorOf (env.unset 2 (env.template readme))).or (errorOf (env.unset 3 (env.template buildIs)))

private theorem attempt_unset {fs : List (Root → Except FsError Root)} (r : Except FsError Unit) :
    attempt ((fun di => r.map fun _ => di) :: fs) d =
      (errorOf r).elim (attempt fs d) fun e => (d, some e) := by
  cases r with
  | ok u => exact attempt_ok rfl
  | error e => exact attempt_error rfl

private theorem not_isDir_put {m : EntryName} (h : ¬ IsDir d m) : ¬ IsDir (d.put n (.file data)) m := by
  rintro ⟨entries, hg⟩
  rw [ArrayMap.get_put] at hg
  by_cases hm : m = n
  · simp [hm] at hg
  · rw [if_neg hm] at hg
    exact h ⟨entries, hg⟩

/-- Where src is there, createInDir fails, and has by then replaced the four files. -/
theorem createInDir_refused (hf : ∀ n ∈ baseFiles, ¬ IsDir d n) (hs : d.get src ≠ none) :
    attempt (createInDirCalls env) d =
      ((((d.put idleToml (.file (env.template idleToml))).put gitignore
        (.file (env.template gitignore))).put readme (.file (env.template readme))).put buildIs
        (.file (env.template buildIs ++ env.template idleToml)),
        some ((strayError env).getD (.pathAlreadyExists src))) := by
  have h1 : ¬ IsDir d idleToml := hf idleToml (by decide)
  have h2 : ¬ IsDir (d.put idleToml (.file (env.template idleToml))) gitignore :=
    not_isDir_put (hf gitignore (by decide))
  have h3 : ¬ IsDir ((d.put idleToml (.file (env.template idleToml))).put gitignore
      (.file (env.template gitignore))) readme :=
    not_isDir_put (not_isDir_put (hf readme (by decide)))
  have h4 : ¬ IsDir (((d.put idleToml (.file (env.template idleToml))).put gitignore
      (.file (env.template gitignore))).put readme (.file (env.template readme))) buildIs :=
    not_isDir_put (not_isDir_put (not_isDir_put (hf buildIs (by decide))))
  unfold createInDirCalls baseFiles
  simp only [List.map_cons, List.map_nil, List.cons_append, List.nil_append]
  rw [attempt_written h1, attempt_written h2, attempt_written h3, attempt_written h4]
  -- files[0] is the handle of build.is, so the first template is appended there
  rw [attempt_writeAll, writeAll_put, attempt_unset, attempt_unset, attempt_unset, strayError]
  cases errorOf (env.unset 1 (env.template gitignore)) with
  | some e => rfl
  | none =>
    cases errorOf (env.unset 2 (env.template readme)) with
    | some e => rfl
    | none =>
      cases errorOf (env.unset 3 (env.template buildIs)) with
      | some e => rfl
      | none =>
        refine attempt_error (?_ : makeDir src _ = _)
        obtain ⟨node, hg⟩ := Option.ne_none_iff_exists'.mp hs
        have hne : src ≠ idleToml ∧ src ≠ gitignore ∧ src ≠ readme ∧ src ≠ buildIs := by decide
        rw [makeDir, ArrayMap.get_put, if_neg hne.2.2.2, ArrayMap.get_put, if_neg hne.2.2.1,
          ArrayMap.get_put, if_neg hne.2.1, ArrayMap.get_put, if_neg hne.1, hg]
        rfl

/-- What the entries of a created project hold that createInDir writes. -/
theorem get_created (env : Env) (d : Root) :
    (created env d).get idleToml = some (.file (env.template idleToml)) ∧
    (created env d).get gitignore = some (.file env.gignoreDft) ∧
    (created env d).get readme = some (.file (env.template readme)) ∧
    (created env d).get buildIs = some (.file env.buildDft) ∧
    (created env d).get src = some (.dir []) := by
  simp only [created, written_eq, writeAll_put]
  simp +decide [ArrayMap.get_put]

/-- A second createInDir in the directory that the first has filled fails, by a stray write or
because of src, but by then it has put other texts into .gitignore and build.is. -/
theorem createInDir_twice (unset : Nat → Str → Except FsError Unit) (h : createInDir env d = .ok d') :
    (d'.get gitignore = some (.file env.gignoreDft) ∧ d'.get buildIs = some (.file env.buildDft)) ∧
    ∃ again, attempt (createInDirCalls { env with unset := unset }) d' =
        (again, some ((strayError { env with unset := unset }).getD (.pathAlreadyExists src))) ∧
      again.get gitignore = some (.file (env.template gitignore)) ∧
      again.get buildIs = some (.file (env.template buildIs ++ env.template idleToml)) ∧
      ∀ n, n ≠ gitignore → n ≠ buildIs → again.get n = d'.get n := by
  obtain ⟨-, rfl⟩ := createInDir_eq_ok.mp h
  obtain ⟨htoml, hgit, hreadme, hbuild, hsrc⟩ := get_created env d
  have hf : ∀ n ∈ baseFiles, ¬ IsDir (created env d) n := by
    simp only [baseFiles, List.forall_mem_cons, IsDir, htoml, hgit, hreadme, hbuild]
    simp
  refine ⟨⟨hgit, hbuild⟩, _, createInDir_refused hf (by simp [hsrc]), ?_, ?_, ?_⟩
  · simp +decide [ArrayMap.get_put]
  · simp +decide [ArrayMap.get_put]
  · intro n hn hn'
    simp only [ArrayMap.get_put, hn, hn', if_false]
    by_cases hr : n = readme
    · rw [hr, if_pos rfl, hreadme]
    · rw [if_neg hr]
      by_cases ht : n = idleToml
      · rw [ht, if_pos rfl, htoml]
      · rw [if_neg ht]

/-- In the empty directory, with the texts of the templates left empty: a second call that the
first of its stray writes stops. -/
theorem createInDir_twice_empty : ∃ again : Root,
    attempt (createInDirCalls ⟨fun _ => [], lit " **out", [], [], [], fun _ _ => .error .badHandle⟩)
      (created ⟨fun _ => [], lit " **out", [], [], [], fun _ _ => .ok ()⟩ ArrayMap.empty) =
        (again, some .badHandle) ∧
    again.get gitignore = some (.file []) ∧ again.get buildIs = some (.file []) ∧
    (created ⟨fun _ => [], lit " **out", [], [], [], fun _ _ => .ok ()⟩ ArrayMap.empty).get gitignore =
      some (.file (lit " **out")) := by
  have hc : createInDir ⟨fun _ => [], lit " **out", [], [], [], fun _ _ => .ok ()⟩ ArrayMap.empty =
      .ok (created ⟨fun _ => [], lit " **out", [], [], [], fun _ _ => .ok ()⟩ ArrayMap.empty) :=
    createInDir_eq_ok.mpr ⟨⟨by decide, by decide, rfl, rfl, rfl⟩, rfl⟩
  obtain ⟨⟨hg, -⟩, again, hr, hg', hb', -⟩ := createInDir_twice (fun _ _ => .error .badHandle) hc
  exact ⟨again, hr, hg', hb', hg⟩

end Idula.Cli.CreateFiles
