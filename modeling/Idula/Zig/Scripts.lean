import Idula.Zig.FsCalls
import Idula.Library.Attempts

/-! Scripts of calls that create in a directory: each call looks at one entry and sets it, and
a script stops at the first error and leaves what it has done. -/
namespace Idula.Zig
open Library Library.Attempts

/-- dir.makeOpenPath of one component. -/
def makeOpenPath (n : EntryName) (d : Root) : Except FsError Root :=
  match d.get n with
  | some (.dir _) => .ok d
  | some (.file _) => .error (.notDir n)
  | none => .ok (d.put n (.dir []))

/-- writeFile in the open subdirectory sub. -/
def writeFileIn (sub n : EntryName) (data : Str) (d : Root) : Except FsError Root :=
  match d.get sub with
  | some (.dir entries) =>
    match entries.lookup n with
    | some (.dir _) => .error (.isDir n)
    | _ => .ok (d.put sub (.dir (putEntry n (.file data) entries)))
  | _ => .error (.notDir sub)

inductive Call where
  | writeFile (n : EntryName) (data : Str)
  | makeDir (n : EntryName)
  | openDir (n : EntryName)
  | makeOpenPath (n : EntryName)
  | writeFileIn (sub n : EntryName) (data : Str)

def Call.exec : Call → Root → Except FsError Root
  | .writeFile n data, d => Zig.writeFile n data d
  | .makeDir n, d => Zig.makeDir n d
  | .openDir n, d => do
    Zig.openDir n d
    return d
  | .makeOpenPath n, d => Zig.makeOpenPath n d
  | .writeFileIn sub n data, d => Zig.writeFileIn sub n data d

/-- A script, on a directory. -/
def script (cs : List Call) (d : Root) : Root × Option FsError := attempt (cs.map Call.exec) d

/-- The one entry of the directory that a call looks at. -/
def Call.target : Call → EntryName
  | .writeFile n _ | .makeDir n | .openDir n | .makeOpenPath n => n
  | .writeFileIn sub _ _ => sub

/-- What a call makes of its entry. -/
def Call.act : Call → Option Node → Except FsError Node
  | .writeFile n data, o =>
    match o with
    | some (.dir _) => .error (.isDir n)
    | _ => .ok (.file data)
  | .makeDir n, o =>
    match o with
    | some _ => .error (.pathAlreadyExists n)
    | none => .ok (.dir [])
  | .openDir n, o =>
    match o with
    | some (.dir entries) => .ok (.dir entries)
    | _ => .error (.notDir n)
  | .makeOpenPath n, o =>
    match o with
    | some (.dir entries) => .ok (.dir entries)
    | some (.file _) => .error (.notDir n)
    | none => .ok (.dir [])
  | .writeFileIn sub n data, o =>
    match o with
    | some (.dir entries) =>
      match entries.lookup n with
      | some (.dir _) => .error (.isDir n)
      | _ => .ok (.dir (putEntry n (.file data) entries))
    | _ => .error (.notDir sub)

instance (d : Root) (n : EntryName) : Decidable (IsDir d n) :=
  match h : d.get n with
  | some (.dir entries) => .isTrue ⟨entries, h⟩
  | some (.file _) => .isFalse fun ⟨_, he⟩ => by simp [h] at he
  | none => .isFalse fun ⟨_, he⟩ => by simp [h] at he

variable {c c' : Call} {cs : List Call} {d d' : Root} {n m : EntryName} {data : Str} {e : FsError}
  {node node' : Node} {o : Option Node}

theorem written_eq : written n data d = d.put n (.file data) := by
  have hg : (d.put n (.file [])).get n = some (.file []) := by rw [ArrayMap.get_put, if_pos rfl]
  rw [written, writeAll, hg]
  exact ArrayMap.put_put d n (.file []) (.file data)

/-- A call sees the directory through its target only. -/
theorem exec_eq : c.exec d = (c.act (d.get c.target)).map (d.put c.target) := by
  cases c with
  | writeFile n data =>
    change Zig.writeFile n data d = ((Call.writeFile n data).act (d.get n)).map (d.put n)
    by_cases hd : IsDir d n
    · obtain ⟨entries, hg⟩ := hd
      rw [Zig.writeFile, createFile, hg]
      rfl
    · have hw : Zig.writeFile n data d = .ok (d.put n (.file data)) :=
        writeFile_eq_ok.mpr ⟨hd, written_eq⟩
      rw [hw]
      cases hg : d.get n with
      | none => rfl
      | some node =>
        cases node with
        | file content => rfl
        | dir entries => exact absurd ⟨entries, hg⟩ hd
  | makeDir n =>
    change Zig.makeDir n d = ((Call.makeDir n).act (d.get n)).map (d.put n)
    unfold Zig.makeDir
    cases d.get n with
    | none => rfl
    | some node => rfl
  | openDir n =>
    change (do Zig.openDir n d; return d) = ((Call.openDir n).act (d.get n)).map (d.put n)
    unfold Zig.openDir
    cases hg : d.get n with
    | none => rfl
    | some node =>
      cases node with
      | file content => rfl
      | dir entries => exact congrArg Except.ok (ArrayMap.put_eq_self_iff.mpr hg).symm
  | makeOpenPath n =>
    change Zig.makeOpenPath n d = ((Call.makeOpenPath n).act (d.get n)).map (d.put n)
    unfold Zig.makeOpenPath
    cases hg : d.get n with
    | none => rfl
    | some node =>
      cases node with
      | file content => rfl
      | dir entries => exact congrArg Except.ok (ArrayMap.put_eq_self_iff.mpr hg).symm
  | writeFileIn sub n data =>
    change Zig.writeFileIn sub n data d = ((Call.writeFileIn sub n data).act (d.get sub)).map (d.put sub)
    unfold Zig.writeFileIn Call.act
    cases d.get sub with
    | none => rfl
    | some node =>
      cases node with
      | file content => rfl
      | dir entries =>
        cases hl : entries.lookup n with
        | none => simp only [hl]; rfl
        | some node =>
          cases node with
          | file content => simp only [hl]; rfl
          | dir entries => simp only [hl]; rfl

theorem exec_eq_ok : c.exec d = .ok d' ↔ ∃ node, c.act (d.get c.target) = .ok node ∧
    d.put c.target node = d' := by
  rw [exec_eq]
  cases c.act (d.get c.target) with
  | ok node => simp [Except.map]
  | error e => simp [Except.map]

theorem exec_eq_error : c.exec d = .error e ↔ c.act (d.get c.target) = .error e := by
  rw [exec_eq]
  cases c.act (d.get c.target) with
  | ok node => simp [Except.map]
  | error e => simp [Except.map]

/-- A call changes no entry but its target. -/
theorem get_exec (h : c.exec d = .ok d') (hm : m ≠ c.target) : d'.get m = d.get m := by
  obtain ⟨node, -, rfl⟩ := exec_eq_ok.mp h
  rw [ArrayMap.get_put, if_neg hm]

/-- A call that, from this entry, does not change it. -/
def Call.QuietAt (c : Call) (o : Option Node) : Prop := ∀ node, c.act o = .ok node → o = some node

theorem quiet_exec_iff : Quiet c.exec d ↔ c.QuietAt (d.get c.target) := by
  constructor
  · intro h node ha
    exact ArrayMap.put_eq_self_iff.mp (h _ (exec_eq_ok.mpr ⟨node, ha, rfl⟩))
  · intro h d' he
    obtain ⟨node, ha, rfl⟩ := exec_eq_ok.mp he
    exact ArrayMap.put_eq_self_iff.mpr (h node ha)

/-- A call that was made has nothing more to do. -/
theorem act_quietAt (h : c.act o = .ok node) : c.QuietAt (some node) := by
  intro node' h'
  cases c with
  | writeFile n data =>
    cases o with
    | none =>
      cases h
      cases h'
      rfl
    | some old =>
      cases old with
      | file content =>
        cases h
        cases h'
        rfl
      | dir entries => cases h
  | makeDir n => cases h'
  | openDir n =>
    cases node with
    | file content => cases h'
    | dir entries =>
      cases h'
      rfl
  | makeOpenPath n =>
    cases node with
    | file content => cases h'
    | dir entries =>
      cases h'
      rfl
  | writeFileIn sub n data =>
    -- the entry that was put is found and put again
    have hput : ∀ entries,
        (Call.writeFileIn sub n data).act (some (.dir (putEntry n (.file data) entries))) =
        .ok (.dir (putEntry n (.file data) entries)) := by
      intro entries
      have hl : (putEntry n (.file data) entries).lookup n = some (.file data) := by
        rw [ArrayMap.lookup_putEntry, if_pos rfl]
      simp only [Call.act, hl, ArrayMap.putEntry_putEntry]
    have hnode : ∃ entries, node = .dir (putEntry n (.file data) entries) := by
      cases o with
      | none => cases h
      | some old =>
        cases old with
        | file content => cases h
        | dir entries =>
          simp only [Call.act] at h
          split at h
          · cases h
          · exact ⟨entries, (Except.ok.inj h).symm⟩
    obtain ⟨entries, rfl⟩ := hnode
    rw [hput entries] at h'
    exact congrArg some (Except.ok.inj h')

/-- The second call leaves the first without anything to do. -/
def Call.Keeps (c c' : Call) : Prop := c.target ≠ c'.target ∨
  ∀ o node, c.QuietAt o → c'.act o = .ok node → c.QuietAt (some node)

theorem keeps_of_ne (h : c.target ≠ c'.target) : c.Keeps c' := .inl h

theorem keeps_openDir : c.Keeps (.openDir n) := by
  refine .inr fun o node hq ha => ?_
  cases o with
  | none => cases ha
  | some old =>
    cases old with
    | file content => cases ha
    | dir entries =>
      cases ha
      exact hq

/-- A script none of whose calls undoes an earlier one changes nothing when it is run again. -/
theorem script_script (h : cs.Pairwise Call.Keeps) :
    (script cs (script cs d).1).1 = (script cs d).1 := by
  refine attempt_attempt ?_ (List.pairwise_map.mpr (h.imp ?_))
  · intro f hf d d' he
    obtain ⟨c, -, rfl⟩ := List.mem_map.mp hf
    obtain ⟨node, ha, rfl⟩ := exec_eq_ok.mp he
    rw [quiet_exec_iff, ArrayMap.get_put, if_pos rfl]
    exact act_quietAt ha
  · intro c c' hk d d' hq he
    rw [quiet_exec_iff] at hq ⊢
    by_cases ht : c.target = c'.target
    · obtain ⟨node, ha, rfl⟩ := exec_eq_ok.mp he
      rw [ht, ArrayMap.get_put, if_pos rfl]
      rw [ht] at hq
      exact hk.resolve_left (fun hn => hn ht) _ node hq ha
    · rw [get_exec he ht]
      exact hq

/-- A script changes only the targets of its calls. -/
theorem get_script (cs : List Call) (d : Root) (h : ∀ c ∈ cs, c.target ≠ m) :
    (script cs d).1.get m = d.get m := by
  refine attempt_invariant (P := fun d' : Root => d'.get m = d.get m) ?_ rfl
  intro f hf d₁ d₂ hd he
  obtain ⟨c, hc, rfl⟩ := List.mem_map.mp hf
  exact (get_exec he (h c hc).symm).trans hd

theorem script_append_of_done {cs' : List Call} (h : script cs d = (d', none)) :
    script (cs ++ cs') d = script cs' d' := by
  rw [script, List.map_append]
  exact attempt_append_of_done h

theorem script_append_of_failed {cs' : List Call} (h : script cs d = (d', some e)) :
    script (cs ++ cs') d = (d', some e) := by
  rw [script, List.map_append]
  exact attempt_append_of_failed h

theorem script_append_eq_done {cs' : List Call} :
    script (cs ++ cs') d = (d', none) ↔ ∃ d₁, script cs d = (d₁, none) ∧ script cs' d₁ = (d', none) := by
  rcases h : script cs d with ⟨d₁, none | e⟩
  · simp [script_append_of_done h]
  · simp [script_append_of_failed h]

theorem isDir_of_get_eq (h : d'.get n = d.get n) : IsDir d' n ↔ IsDir d n := by
  rw [IsDir, IsDir, h]

/-- The calls of a loop that writes a file under each name; text is that of each pass. -/
def writeFiles (text : Nat → Str) (ns : List EntryName) : List Call :=
  ns.mapIdx fun i fname => .writeFile fname (text i)

/-- The entries that the loop writes. -/
def filesWritten (text : Nat → Str) (ns : List EntryName) : List (EntryName × Node) :=
  ns.mapIdx fun i fname => (fname, .file (text i))

variable {text : Nat → Str} {ns : List EntryName}

theorem writeFiles_cons : writeFiles text (n :: ns) =
    .writeFile n (text 0) :: writeFiles (fun i => text (i + 1)) ns := List.mapIdx_cons

theorem filesWritten_cons : filesWritten text (n :: ns) =
    (n, .file (text 0)) :: filesWritten (fun i => text (i + 1)) ns := List.mapIdx_cons

theorem targets_writeFiles : (writeFiles text ns).map Call.target = ns := by
  induction ns generalizing text with
  | nil => rfl
  | cons n ns ih => rw [writeFiles_cons, List.map_cons, ih, Call.target]

theorem script_writeFiles_cons : script (writeFiles text (n :: ns)) d =
    if IsDir d n then (d, some (.isDir n))
    else script (writeFiles (fun i => text (i + 1)) ns) (d.put n (.file (text 0))) := by
  rw [writeFiles_cons]
  by_cases h : IsDir d n
  · rw [if_pos h]
    obtain ⟨entries, hg⟩ := h
    exact attempt_error (exec_eq_error.mpr (by simp [Call.target, Call.act, hg]))
  · rw [if_neg h]
    exact attempt_ok (writeFile_eq_ok.mpr ⟨h, written_eq⟩)

private theorem isDir_put_file (h : ¬ IsDir d n) : IsDir (d.put n (.file data)) m ↔ IsDir d m := by
  unfold IsDir at h ⊢
  rw [ArrayMap.get_put]
  by_cases hm : m = n
  · subst hm
    simpa using h
  · rw [if_neg hm]

/-- The loop stops at the first of its names that is a directory. -/
theorem writeFiles_error (text : Nat → Str) (ns : List EntryName) (d : Root) :
    (script (writeFiles text ns) d).2 = (ns.find? fun fname => IsDir d fname).map .isDir := by
  induction ns generalizing text d with
  | nil => rfl
  | cons n ns ih =>
    rw [script_writeFiles_cons, List.find?_cons]
    by_cases h : IsDir d n
    · simp [h]
    · rw [if_neg h, ih]
      simp [h, isDir_put_file h]

/-- The loop changes nothing but its files. -/
theorem get_writeFiles (text : Nat → Str) (d : Root) (hn : n ∉ ns) :
    (script (writeFiles text ns) d).1.get n = d.get n := by
  have ht : (writeFiles text ns).map Call.target = ns := targets_writeFiles
  refine get_script _ _ fun c hc he => hn ?_
  rw [← ht, ← he]
  exact List.mem_map_of_mem hc

theorem writeFiles_eq_done : script (writeFiles text ns) d = (d', none) ↔
    (∀ n ∈ ns, ¬ IsDir d n) ∧ d.putAll (filesWritten text ns) = d' := by
  induction ns generalizing text d with
  | nil => simp [writeFiles, filesWritten, script, ArrayMap.putAll]
  | cons n ns ih =>
    rw [script_writeFiles_cons, filesWritten_cons, List.forall_mem_cons]
    by_cases h : IsDir d n
    · simp [h]
    · rw [if_neg h, ih]
      simp [h, isDir_put_file h, ArrayMap.putAll]

end Idula.Zig
