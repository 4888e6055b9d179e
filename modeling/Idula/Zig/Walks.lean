import Idula.Zig.Fs

/-! The runs of a Walker: a directory comes before what is in it, and that comes next, in any
order; which entries can come last. -/
namespace Idula.Zig
open Library

/-- The entries of a directory, with the paths under which a walker comes to them. -/
def children (path : Str) (entries : List (EntryName × Node)) : List (Str × Node) :=
  entries.map fun e => (join path e.1.bytes, e.2)

/-- What a walker can yield that has these nodes still before it, those of the innermost open
directory first. Opened, a directory shows its entries in any order. -/
inductive Walks : List (Str × Node) → List WalkerEntry → Prop
  | nil : Walks [] []
  | file {path : Str} {content : Str} {stack : List (Str × Node)} {es : List WalkerEntry}
      (h : Walks stack es) : Walks ((path, .file content) :: stack) (⟨.file, path⟩ :: es)
  | dir {path : Str} {entries order : List (EntryName × Node)} {stack : List (Str × Node)}
      {es : List WalkerEntry} (ho : order.Perm entries) (h : Walks (children path order ++ stack) es) :
      Walks ((path, .dir entries) :: stack) (⟨.directory, path⟩ :: es)

/-- What walk can yield of an open directory. -/
def IsWalk (d : Root) (es : List WalkerEntry) : Prop :=
  ∃ order : List (EntryName × Node), order.Perm d.entries ∧ Walks (children [] order) es

/-- The order in which a file system yields the entries of a walk. -/
structure WalkOrder where
  order : Root → List WalkerEntry
  walks : ∀ d, IsWalk d (order d)

mutual
/-- The entries of a walk with nothing below them: files and empty directories. -/
def Node.leaves (path : Str) : Node → List WalkerEntry
  | .file _ => [⟨.file, path⟩]
  | .dir [] => [⟨.directory, path⟩]
  | .dir (e :: entries) => leavesOf path (e :: entries)

def leavesOf (path : Str) : List (EntryName × Node) → List WalkerEntry
  | [] => []
  | (n, node) :: entries => node.leaves (join path n.bytes) ++ leavesOf path entries
end

def leaves (d : Root) : List WalkerEntry := leavesOf [] d.entries

example : leaves ⟨[(⟨lit "a", by decide, by decide⟩, .dir []),
    (⟨lit "c", by decide, by decide⟩, .dir [(⟨lit "x.png", by decide, by decide⟩, .file [])])], by decide⟩ =
    [⟨.directory, lit "a"⟩, ⟨.file, lit "c/x.png"⟩] := rfl

variable {stack stack' : List (Str × Node)} {es es' : List WalkerEntry} {d : Root} {e : WalkerEntry}
  {path : Str} {node : Node} {entries : List (EntryName × Node)}

theorem listingOf_eq (path : Str) (entries : List (EntryName × Node)) :
    listingOf path entries = (children path entries).flatMap fun x => x.2.listing x.1 := by
  induction entries with
  | nil => rfl
  | cons e entries ih =>
    obtain ⟨n, node⟩ := e
    rw [listingOf, ih]
    rfl

/-- Every walk yields the same entries. -/
theorem Walks.perm (h : Walks stack es) : es.Perm (stack.flatMap fun x => x.2.listing x.1) := by
  induction h with
  | nil => exact .refl _
  | file h ih => exact ih.cons _
  | @dir path entries order stack es ho h ih =>
    have hc : ((children path order).flatMap fun x => x.2.listing x.1).Perm (listingOf path entries) := by
      rw [listingOf_eq]
      exact (ho.map _).flatMap_right _
    rw [List.flatMap_append] at ih
    exact (ih.trans (hc.append_right _)).cons _

theorem IsWalk.perm (h : IsWalk d es) : es.Perm (listing d) := by
  obtain ⟨order, ho, hw⟩ := h
  rw [listing, listingOf_eq]
  exact hw.perm.trans ((ho.map _).flatMap_right _)

theorem WalkOrder.perm (fs : WalkOrder) (d : Root) : (fs.order d).Perm (listing d) := (fs.walks d).perm

/-- What is left of one directory can be followed by the rest of those around it. -/
theorem Walks.append (h : Walks stack es) (h' : Walks stack' es') : Walks (stack ++ stack') (es ++ es') := by
  induction h with
  | nil => exact h'
  | file h ih => exact .file ih
  | dir ho h ih =>
    refine .dir ho ?_
    rw [List.append_assoc] at ih
    exact ih

mutual
theorem Node.walks_listing (path : Str) : ∀ node : Node, Walks [(path, node)] (node.listing path)
  | .file _ => .file .nil
  | .dir entries => .dir (.refl entries) (by
    rw [List.append_nil]
    exact walks_listingOf path entries)

theorem walks_listingOf (path : Str) :
    ∀ entries : List (EntryName × Node), Walks (children path entries) (listingOf path entries)
  | [] => .nil
  | (n, node) :: entries =>
    (Node.walks_listing (join path n.bytes) node).append (walks_listingOf path entries)
end

/-- The directories can show their entries as they list them. -/
theorem IsWalk.refl (d : Root) : IsWalk d (listing d) :=
  ⟨d.entries, .refl _, walks_listingOf [] d.entries⟩

mutual
private theorem Node.exists_walk_last {path : Str} : ∀ (node : Node) (e : WalkerEntry),
    e ∈ node.leaves path → ∃ es, Walks [(path, node)] (es ++ [e])
  | .file _, e, he => by
    obtain rfl := List.mem_singleton.mp he
    exact ⟨[], .file .nil⟩
  | .dir [], e, he => by
    obtain rfl := List.mem_singleton.mp he
    exact ⟨[], .dir (.refl []) .nil⟩
  | .dir (x :: entries), e, he => by
    have he : e ∈ leavesOf path (x :: entries) := he
    obtain ⟨order, ho, es, hw⟩ := exists_walk_last_of (x :: entries) e he
    refine ⟨⟨.directory, path⟩ :: es, .dir ho ?_⟩
    rw [List.append_nil]
    exact hw

private theorem exists_walk_last_of {path : Str} : ∀ (entries : List (EntryName × Node)) (e : WalkerEntry),
    e ∈ leavesOf path entries →
      ∃ order : List (EntryName × Node), order.Perm entries ∧ ∃ es, Walks (children path order) (es ++ [e])
  | [], _, he => nomatch he
  | (n, node) :: entries, e, he => by
    rw [leavesOf, List.mem_append] at he
    obtain he | he := he
    · -- the entry above it is taken up last
      obtain ⟨es, hw⟩ := Node.exists_walk_last node e he
      refine ⟨entries ++ [(n, node)], List.perm_append_singleton _ _, listingOf path entries ++ es, ?_⟩
      rw [children, List.map_append, List.append_assoc]
      exact (walks_listingOf path entries).append hw
    · obtain ⟨order, ho, es, hw⟩ := exists_walk_last_of entries e he
      refine ⟨(n, node) :: order, ho.cons _, node.listing (join path n.bytes) ++ es, ?_⟩
      rw [List.append_assoc]
      exact (Node.walks_listing (join path n.bytes) node).append hw
end

/-- Every leaf is the last entry of some walk. -/
theorem exists_walk_last (h : e ∈ leaves d) : ∃ es, IsWalk d (es ++ [e]) := by
  obtain ⟨order, ho, es, hw⟩ := exists_walk_last_of d.entries e h
  exact ⟨es, order, ho, hw⟩

private theorem Walks.head {x : Str × Node} (h : Walks (x :: stack) es) :
    ∃ es', es = ⟨x.2.kind, x.1⟩ :: es' := by
  cases h with
  | file h => exact ⟨_, rfl⟩
  | dir ho h => exact ⟨_, rfl⟩

mutual
private theorem Node.file_mem_leaves {path : Str} : ∀ (node : Node) (e : WalkerEntry),
    e ∈ node.listing path → e.kind = .file → e ∈ node.leaves path
  | .file _, _, he, _ => he
  | .dir [], e, he, hk => by
    obtain rfl := List.mem_singleton.mp he
    cases hk
  | .dir (x :: entries), e, he, hk => by
    obtain rfl | he := List.mem_cons.mp he
    · cases hk
    · exact file_mem_leavesOf (x :: entries) e he hk

private theorem file_mem_leavesOf {path : Str} : ∀ (entries : List (EntryName × Node)) (e : WalkerEntry),
    e ∈ listingOf path entries → e.kind = .file → e ∈ leavesOf path entries
  | [], _, he, _ => nomatch he
  | (n, node) :: entries, e, he, hk => by
    rw [listingOf, List.mem_append] at he
    rw [leavesOf, List.mem_append]
    exact he.imp (fun he => Node.file_mem_leaves node e he hk) fun he => file_mem_leavesOf entries e he hk
end

theorem file_mem_leaves (h : e ∈ listing d) (hk : e.kind = .file) : e ∈ leaves d :=
  file_mem_leavesOf d.entries e h hk

/-- A file of the directory itself is one that a walk shows by its bare name. -/
theorem isFile_iff_walked (fs : WalkOrder) (d : Root) (n : EntryName) :
    IsFile d n ↔ ⟨.file, n.bytes⟩ ∈ fs.order d := by
  rw [(fs.perm d).mem_iff, listing, mem_listingOf_name]
  constructor
  · rintro ⟨content, h⟩
    exact ⟨.file content, ArrayMap.get_eq_some_iff.mp h, rfl⟩
  · rintro ⟨node, h, hk⟩
    cases node with
    | file content => exact ⟨content, ArrayMap.get_eq_some_iff.mpr h⟩
    | dir entries => cases hk

end Idula.Zig
