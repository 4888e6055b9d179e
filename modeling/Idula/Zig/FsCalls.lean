import Idula.Zig.Fs

/-! The calls of std.fs that create in a directory: when each of them succeeds, and which
names are files and directories after it. -/
namespace Idula.Zig
open Library

inductive FsError where
  | isDir (n : EntryName)
  | notDir (n : EntryName)
  | pathAlreadyExists (n : EntryName)
  | badHandle
  deriving DecidableEq

/-- dir.createFile: an empty file under the name, whose handle is the name. -/
def createFile (n : EntryName) (d : Root) : Except FsError Root :=
  match d.get n with
  | some (.dir _) => .error (.isDir n)
  | _ => .ok (d.put n (.file []))

/-- file.writeAll on a handle of createFile. -/
def writeAll (n : EntryName) (data : Str) (d : Root) : Root :=
  match d.get n with
  | some (.file content) => d.put n (.file (content ++ data))
  | _ => d

def writeFile (n : EntryName) (data : Str) (d : Root) : Except FsError Root := do
  return writeAll n data (← createFile n d)

def makeDir (n : EntryName) (d : Root) : Except FsError Root :=
  match d.get n with
  | some _ => .error (.pathAlreadyExists n)
  | none => .ok (d.put n (.dir []))

def openDir (n : EntryName) (d : Root) : Except FsError Unit :=
  match d.get n with
  | some (.dir _) => .ok ()
  | _ => .error (.notDir n)

theorem bind_eq_ok {ε α β : Type} {x : Except ε α} {f : α → Except ε β} {b : β} :
    x >>= f = .ok b ↔ ∃ a, x = .ok a ∧ f a = .ok b := by
  cases x with
  | ok a => simp [bind, Except.bind]
  | error e => simp [bind, Except.bind]

variable {d d' : Root} {n m : EntryName} {data : Str}

theorem createFile_eq_ok :
    createFile n d = .ok d' ↔ ¬ IsDir d n ∧ d.put n (.file []) = d' := by
  unfold createFile IsDir
  split
  · next entries h => simp [h]
  · next h =>
    constructor
    · intro he
      refine ⟨?_, Except.ok.inj he⟩
      rintro ⟨es, hd⟩
      exact h es hd
    · exact fun he => congrArg _ he.2

theorem makeDir_eq_ok : makeDir n d = .ok d' ↔ d.get n = none ∧ d.put n (.dir []) = d' := by
  unfold makeDir
  split
  · next node h => simp [h]
  · next h => simp [h]

theorem openDir_eq_ok {u : Unit} : openDir n d = .ok u ↔ IsDir d n := by
  unfold openDir IsDir
  split
  · next entries h => simp [h]
  · next h => simpa using fun es => h es

/-- The directory in which a file has been written anew. -/
def written (n : EntryName) (data : Str) (d : Root) : Root := writeAll n data (d.put n (.file []))

theorem writeFile_eq_ok : writeFile n data d = .ok d' ↔ ¬ IsDir d n ∧ written n data d = d' := by
  rw [writeFile, bind_eq_ok]
  simp only [createFile_eq_ok]
  constructor
  · rintro ⟨e, ⟨hd, rfl⟩, he⟩
    exact ⟨hd, Except.ok.inj he⟩
  · rintro ⟨hd, rfl⟩
    exact ⟨_, ⟨hd, rfl⟩, rfl⟩

@[simp] theorem isDir_put_dir : IsDir (d.put n (.dir [])) m ↔ m = n ∨ IsDir d m := by
  unfold IsDir
  rw [ArrayMap.get_put]
  split <;> simp [*]

@[simp] theorem get_put_eq_none {node : Node} :
    (d.put n node).get m = none ↔ m ≠ n ∧ d.get m = none := by
  rw [ArrayMap.get_put]
  split <;> simp [*]

private theorem get_writeAll : (writeAll n data d).get m =
    if m = n then (d.get n).map fun
      | .file content => .file (content ++ data)
      | .dir entries => .dir entries
    else d.get m := by
  unfold writeAll
  split
  · next content h => rw [ArrayMap.get_put, h]; rfl
  · next h =>
    by_cases hm : m = n
    · subst hm
      rw [if_pos rfl]
      cases hg : d.get m with
      | none => rfl
      | some node =>
        cases node with
        | file content => exact absurd hg (h content)
        | dir entries => rfl
    · rw [if_neg hm]

/-- Writing through a handle changes no kind of entry. -/
@[simp] theorem isDir_writeAll : IsDir (writeAll n data d) m ↔ IsDir d m := by
  unfold IsDir
  rw [get_writeAll]
  split
  · next h =>
    subst h
    cases d.get m with
    | none => simp
    | some node => cases node <;> simp
  · rfl

@[simp] theorem isFile_writeAll : IsFile (writeAll n data d) m ↔ IsFile d m := by
  unfold IsFile
  rw [get_writeAll]
  split
  · next h =>
    subst h
    cases d.get m with
    | none => simp
    | some node => cases node <;> simp
  · rfl

@[simp] theorem get_writeAll_eq_none : (writeAll n data d).get m = none ↔ d.get m = none := by
  rw [get_writeAll]
  split
  · next h => simp [h]
  · rfl

@[simp] theorem isDir_written : IsDir (written n data d) m ↔ m ≠ n ∧ IsDir d m := by
  rw [written, isDir_writeAll]
  unfold IsDir
  rw [ArrayMap.get_put]
  split <;> simp [*]

@[simp] theorem isFile_written : IsFile (written n data d) m ↔ m = n ∨ IsFile d m := by
  rw [written, isFile_writeAll]
  unfold IsFile
  rw [ArrayMap.get_put]
  split <;> simp [*]

@[simp] theorem get_written_eq_none :
    (written n data d).get m = none ↔ m ≠ n ∧ d.get m = none := by
  rw [written, get_writeAll_eq_none, get_put_eq_none]

@[simp] theorem isFile_put_dir : IsFile (d.put n (.dir [])) m ↔ m ≠ n ∧ IsFile d m := by
  unfold IsFile
  rw [ArrayMap.get_put]
  split <;> simp [*]

end Idula.Zig
