import Mathlib.Data.List.DropRight
import Idula.Zig.Bytes
import Idula.Library.ArrayMap

/-! Directories as std.fs shows them: names, paths and entries, the loop over an iterator,
and the walk through a tree. -/
namespace Idula.Zig
open Library

/-- Dir.Entry.Kind. -/
inductive Kind where
  | blockDevice
  | characterDevice
  | directory
  | namedPipe
  | symLink
  | file
  | unixDomainSocket
  | whiteout
  | door
  | eventPort
  | unknown
  deriving DecidableEq

/-- The path separator. -/
def sep : UInt8 := 47

/-- A name of a directory entry. -/
structure EntryName where
  bytes : Str
  nonempty : bytes ≠ []
  noSep : sep ∉ bytes
  deriving DecidableEq

/-- What Dir.iterate yields. -/
structure DirEntry where
  name : EntryName
  kind : Kind
  deriving DecidableEq

/-- What a Dir.Walker yields: a kind and the path from the walked directory. -/
structure WalkerEntry where
  kind : Kind
  path : Str
  deriving DecidableEq

/-- The name of an entry: what its path has behind the last separator. -/
def WalkerEntry.name (e : WalkerEntry) : Str := e.path.rtakeWhile (· ≠ sep)

/-- An entry of the walked directory itself has its name for a path. -/
theorem WalkerEntry.name_entryName (k : Kind) (n : EntryName) : (⟨k, n.bytes⟩ : WalkerEntry).name = n.bytes :=
  List.rtakeWhile_eq_self_iff.mpr fun _ hx => decide_eq_true (ne_of_mem_of_not_mem hx n.noSep)

example : (⟨.file, lit "c/x.png"⟩ : WalkerEntry).name = lit "x.png" := by decide

/-- std.fs.path.join of two paths. -/
def join (a b : Str) : Str :=
  if a = [] then b
  else if b = [] then a
  else
    let prevSep := a.getLast? = some sep
    let thisSep := b.head? = some sep
    a ++ (if ¬ prevSep ∧ ¬ thisSep then [sep] else []) ++ (if prevSep ∧ thisSep then b.tail else b)

theorem sep_mem_join {a b : Str} (ha : a ≠ []) (hb : b ≠ []) : sep ∈ join a b := by
  unfold join
  rw [if_neg ha, if_neg hb]
  dsimp only
  by_cases hp : a.getLast? = some sep
  · exact List.mem_append_left _ (List.mem_append_left _ (List.mem_of_getLast? hp))
  · by_cases ht : b.head? = some sep
    · have hb : (if a.getLast? = some sep ∧ b.head? = some sep then b.tail else b) = b :=
        if_neg fun h => hp h.1
      rw [hb]
      exact List.mem_append_right _ (List.mem_of_mem_head? ht)
    · rw [if_pos ⟨hp, ht⟩]
      exact List.mem_append_left _ (List.mem_append_right _ (List.mem_singleton.mpr rfl))

/-- A joined path is the name of an entry only when nothing stands before it. -/
theorem join_ne_name {a b : Str} (ha : a ≠ []) (hb : b ≠ []) (n : EntryName) : n.bytes ≠ join a b :=
  fun h => n.noSep (h ▸ sep_mem_join ha hb)

example : join (lit ".") (lit "idle.toml") = lit "./idle.toml" := by decide

/-- while (next) |p| label: { body }. The label is on the body: a break with a value ends one
iteration, the value is dropped, and the loop goes on. -/
def whileLabelledBody {σ α β : Type} (body : σ → α → σ × Option β) (s : σ) (ps : List α) : σ :=
  ps.foldl (fun s p => (body s p).1) s

/-- A body that only adds to a log is run on every element, wherever it breaks. -/
theorem whileLabelledBody_log {α β γ : Type} (body : List γ → α → List γ × Option β)
    (f : α → List γ) (h : ∀ log p, (body log p).1 = log ++ f p) (log : List γ) (ps : List α) :
    whileLabelledBody body log ps = log ++ ps.flatMap f := by
  induction ps generalizing log with
  | nil => exact (List.append_nil log).symm
  | cons p ps ih =>
    rw [List.flatMap_cons, ← List.append_assoc, ← h log p]
    exact ih _

inductive Node where
  | file (content : Str)
  | dir (entries : List (EntryName × Node))

mutual
/-- The entries of a walk through a node, from its path on. -/
def Node.listing (path : Str) : Node → List WalkerEntry
  | .file _ => [⟨.file, path⟩]
  | .dir entries => ⟨.directory, path⟩ :: listingOf path entries

def listingOf (path : Str) : List (EntryName × Node) → List WalkerEntry
  | [] => []
  | (n, node) :: entries => node.listing (join path n.bytes) ++ listingOf path entries
end

/-- A directory that is open, with everything below it. -/
abbrev Root := ArrayMap EntryName Node

/-- The entries that walk yields, in the order in which the directories list theirs. -/
def listing (d : Root) : List WalkerEntry := listingOf [] d.entries

def Node.kind : Node → Kind
  | .file _ => .file
  | .dir _ => .directory

mutual
private theorem Node.path_of_listing {path : Str} (h : path ≠ []) :
    ∀ (node : Node) (e : WalkerEntry), e ∈ node.listing path →
      e = ⟨node.kind, path⟩ ∨ sep ∈ e.path
  | .file _, e, he => Or.inl (List.mem_singleton.mp he)
  | .dir entries, e, he => by
    rw [Node.listing, List.mem_cons] at he
    rcases he with he | he
    · exact Or.inl he
    · exact Or.inr (path_of_listingOf h entries e he)

private theorem path_of_listingOf {path : Str} (h : path ≠ []) :
    ∀ (entries : List (EntryName × Node)) (e : WalkerEntry), e ∈ listingOf path entries → sep ∈ e.path
  | [], _, he => by
    rw [listingOf] at he
    cases he
  | (n, node) :: entries, e, he => by
    rw [listingOf, List.mem_append] at he
    have hsep := sep_mem_join h n.nonempty
    rcases he with he | he
    · rcases Node.path_of_listing (List.ne_nil_of_mem hsep) node e he with rfl | he
      · exact hsep
      · exact he
    · exact path_of_listingOf h entries e he
end

/-- A walk shows a bare name exactly for the entries of the directory itself. -/
theorem mem_listingOf_name {entries : List (EntryName × Node)} {k : Kind} {n : EntryName} :
    ⟨k, n.bytes⟩ ∈ listingOf [] entries ↔ ∃ node, (n, node) ∈ entries ∧ node.kind = k := by
  induction entries with
  | nil => simp [listingOf]
  | cons entry entries ih =>
    obtain ⟨m, node⟩ := entry
    have hnode : ⟨k, n.bytes⟩ ∈ node.listing (join [] m.bytes) ↔ n = m ∧ node.kind = k := by
      have hpath : join [] m.bytes = m.bytes := if_pos rfl
      rw [hpath]
      constructor
      · intro he
        rcases Node.path_of_listing m.nonempty node _ he with he | he
        · obtain ⟨hk, hb⟩ := WalkerEntry.mk.inj he
          refine ⟨?_, hk.symm⟩
          cases n
          cases m
          cases hb
          rfl
        · exact absurd he n.noSep
      · rintro ⟨rfl, rfl⟩
        cases node with
        | file content => exact List.mem_singleton.mpr rfl
        | dir entries =>
          rw [Node.listing]
          exact List.mem_cons_self
    rw [listingOf, List.mem_append, hnode, ih]
    constructor
    · rintro (⟨rfl, hk⟩ | ⟨node', hm, hk⟩)
      · exact ⟨node, List.mem_cons_self, hk⟩
      · exact ⟨node', List.mem_cons_of_mem _ hm, hk⟩
    · rintro ⟨node', hm, hk⟩
      rcases List.mem_cons.mp hm with he | hm
      · cases he
        exact Or.inl ⟨rfl, hk⟩
      · exact Or.inr ⟨node', hm, hk⟩

def IsDir (d : Root) (n : EntryName) : Prop := ∃ entries, d.get n = some (.dir entries)

def IsFile (d : Root) (n : EntryName) : Prop := ∃ content, d.get n = some (.file content)

end Idula.Zig
