import Idula.Cmp.If

/-! WalkExt of the ispec component, and on which walks it collects what its sibling in
the if component does. -/
namespace Idula.Cmp.Ispec
open Zig Library

/-- The fields of WalkExt that walk reads or sets. -/
structure WalkExt where
  secExt : Option (List Str)
  map : Option (List Str)
  secMap : Option (ArrayMap Str Str)

def WalkExt.init (secExt : Option (List Str)) : WalkExt := ⟨secExt, none, none⟩

/-- One iteration of the loop: the arguments of endsWith stand the other way round. -/
def visit (secExt : Option (List Str)) (found : If.Found) (ent : WalkerEntry) : If.Found :=
  let p := ent.path
  let kind := ent.kind
  if kind = .file ∧ endsWith (lit ".md") p then { found with paths := found.paths ++ [p] }
  else
    match secExt with
    | some se => { found with secPaths := se.foldl (fun m s => m.put s p) found.secPaths }
    | none => found

def collect (secExt : Option (List Str)) (entries : List WalkerEntry) : If.Found :=
  entries.foldl (visit secExt) ⟨[], .empty⟩

def WalkExt.walk (self : WalkExt) (entries : List WalkerEntry) : WalkExt :=
  let found := collect self.secExt entries
  { self with map := some found.paths, secMap := some found.secPaths }

variable {secExt : Option (List Str)} {entries : List WalkerEntry} {e : WalkerEntry} {s p : Str}

/-- The entries that this walk takes for markdown files. -/
def Taken (e : WalkerEntry) : Prop := e.kind = .file ∧ e.path <:+ lit ".md"

instance (e : WalkerEntry) : Decidable (Taken e) := inferInstanceAs (Decidable (_ ∧ _))

/-- The keys under which an entry is put into the secondary map. -/
def keysOf (secExt : Option (List Str)) (e : WalkerEntry) : List Str :=
  if Taken e then [] else secExt.getD []

theorem mem_keysOf : s ∈ keysOf secExt e ↔ s ∈ secExt.getD [] ∧ ¬ Taken e := by
  unfold keysOf
  split <;> simp [*]

theorem visit_eq (found : If.Found) : visit secExt found e =
    ⟨found.paths ++ if Taken e then [e.path] else [],
      found.secPaths.putKeys (keysOf secExt e) e.path⟩ := by
  by_cases h : Taken e
  · simp [visit, keysOf, h, h.1, h.2, ArrayMap.putKeys]
  · have hc : ¬ (e.kind = .file ∧ endsWith (lit ".md") e.path = true) := by
      rwa [endsWith_iff]
    unfold visit
    dsimp only
    rw [if_neg hc, keysOf, if_neg h, if_neg h, List.append_nil]
    cases secExt <;> rfl

theorem collect_eq : collect secExt entries =
    ⟨(entries.filter (Taken ·)).map WalkerEntry.path,
      .ofWrites (entries.map fun e => (keysOf secExt e, e.path))⟩ :=
  If.foldl_visit (fun found _ => visit_eq found) entries

/-- Under every listed extension the map keeps the last entry that is not taken. -/
theorem get_collect (s : Str) : (collect secExt entries).secPaths.get s =
    if s ∈ secExt.getD [] then ((entries.filter (¬ Taken ·)).map WalkerEntry.path).getLast?
    else none := by
  rw [collect_eq]
  exact If.get_of_keys (fun _ => mem_keysOf) entries

/-- Markdown files only, each put where it belongs, and associated with an extension only
the regular files that have it. -/
structure Sound (secExt : Option (List Str)) (entries : List WalkerEntry) (found : If.Found) :
    Prop where
  markdown : found.paths =
    (entries.filter fun e => e.kind = .file ∧ lit ".md" <:+ e.path).map WalkerEntry.path
  associated : ∀ s p, found.secPaths.get s = some p →
    s ∈ secExt.getD [] ∧ s <:+ p ∧ ∃ e ∈ entries, e.kind = .file ∧ e.path = p

/-- The walk of the sibling, with the primary extension ".md". -/
def sibling (secExt : Option (List Str)) (entries : List WalkerEntry) : If.Found :=
  (If.WalkExt.initAbs (lit ".md") secExt).collect entries

/-- The two walks collect the same, and both soundly. -/
structure SameFound (secExt : Option (List Str)) (entries : List WalkerEntry)
    (found found' : If.Found) : Prop where
  paths : found.paths = found'.paths
  secPaths : ∀ s, found.secPaths.get s = found'.secPaths.get s
  sound : Sound secExt entries found
  sound' : Sound secExt entries found'

/-- The two copies of walk agree. -/
def Agree (secExt : Option (List Str)) (entries : List WalkerEntry) : Prop :=
  ∃ found found' : If.Found,
    ((WalkExt.init secExt).walk entries).map = some found.paths ∧
    ((WalkExt.init secExt).walk entries).secMap = some found.secPaths ∧
    ((If.WalkExt.initAbs (lit ".md") secExt).walk entries).map = some found'.paths ∧
    ((If.WalkExt.initAbs (lit ".md") secExt).walk entries).secMap = some found'.secPaths ∧
    SameFound secExt entries found found'

theorem agree_iff_collect :
    Agree secExt entries ↔
      SameFound secExt entries (collect secExt entries) (sibling secExt entries) := by
  constructor
  · rintro ⟨⟨_, _⟩, ⟨_, _⟩, hp, hs, hp', hs', h⟩
    cases hp
    cases hs
    cases hp'
    cases hs'
    exact h
  · exact fun h => ⟨_, _, rfl, rfl, rfl, rfl, h⟩

/-- No regular file tells the two readings of endsWith apart. -/
def ReadingsAgree (entries : List WalkerEntry) : Prop :=
  ∀ e ∈ entries, e.kind = .file → lit ".md" <:+ e.path ∨ e.path <:+ lit ".md" → e.path = lit ".md"

/-- The last regular file with the extension s and without ".md". -/
def lastWith (entries : List WalkerEntry) (s : Str) : Option Str :=
  ((entries.filter fun e => (e.kind = .file ∧ ¬ lit ".md" <:+ e.path) ∧ s <:+ e.path).map
    WalkerEntry.path).getLast?

/-- The last entry that is not the regular file ".md". -/
def lastOther (entries : List WalkerEntry) : Option Str :=
  ((entries.filter fun e => ¬ (e.kind = .file ∧ e.path = lit ".md")).map WalkerEntry.path).getLast?

theorem sibling_sound : Sound secExt entries (sibling secExt entries) where
  markdown := by
    rw [sibling, If.collect_eq]
    rfl
  associated s p h := by
    obtain ⟨hs, hp⟩ := If.get_iff_lastWith.mp h
    obtain ⟨e, he, ⟨ho, hse⟩, rfl⟩ := If.mem_others.mp (List.mem_of_getLast? hp)
    exact ⟨hs, hse, e, he, ho.1, rfl⟩

theorem sibling_get (s : Str) : (sibling secExt entries).secPaths.get s =
    if s ∈ secExt.getD [] then lastWith entries s else none :=
  If.get_collect s

private theorem taken_iff (h : ReadingsAgree entries) (he : e ∈ entries) :
    (Taken e ↔ e.kind = .file ∧ e.path = lit ".md") ∧
      (Taken e ↔ e.kind = .file ∧ lit ".md" <:+ e.path) := by
  constructor
  · constructor
    · exact fun ht => ⟨ht.1, h e he ht.1 (Or.inr ht.2)⟩
    · exact fun ⟨hf, hp⟩ => ⟨hf, hp ▸ List.suffix_refl _⟩
  · constructor
    · exact fun ht => ⟨ht.1, h e he ht.1 (Or.inr ht.2) ▸ List.suffix_refl _⟩
    · exact fun ⟨hf, hp⟩ => ⟨hf, h e he hf (Or.inl hp) ▸ List.suffix_refl _⟩

private theorem mem_files {f : Str → Prop} [DecidablePred f] (he : e ∈ entries)
    (hf : e.kind = .file) :
    e.path ∈ (entries.filter fun e => e.kind = .file ∧ f e.path).map WalkerEntry.path ↔ f e.path := by
  constructor
  · intro hm
    obtain ⟨e', he', hp⟩ := List.mem_map.mp hm
    have hd := of_decide_eq_true (List.mem_filter.mp he').2
    exact hp ▸ hd.2
  · exact fun h => List.mem_map.mpr ⟨e, List.mem_filter.mpr ⟨he, decide_eq_true ⟨hf, h⟩⟩, rfl⟩

/-- Both walks list the same paths exactly when no file tells the readings apart. -/
theorem paths_eq_iff (secExt : Option (List Str)) :
    (collect secExt entries).paths = (sibling secExt entries).paths ↔ ReadingsAgree entries := by
  have htaken : (collect secExt entries).paths =
      (entries.filter fun e => e.kind = .file ∧ e.path <:+ lit ".md").map WalkerEntry.path := by
    rw [collect_eq]
    rfl
  rw [sibling_sound.markdown, htaken]
  constructor
  · intro h e he hf hor
    have hboth : e.path <:+ lit ".md" ↔ lit ".md" <:+ e.path := by
      rw [← mem_files (f := (· <:+ lit ".md")) he hf, ← mem_files (f := (lit ".md" <:+ ·)) he hf, h]
    rcases hor with hs | hs
    · exact (hboth.mpr hs).eq_of_length_le hs.length_le
    · exact hs.eq_of_length_le (hboth.mp hs).length_le
  · intro h
    congr 1
    exact List.filter_congr fun e he => decide_eq_decide.mpr (taken_iff h he).2

/-- The copies agree exactly when no regular file tells the two readings of endsWith apart
and, for each listed extension, the last file with it is the last thing the walk yields. -/
theorem agree_iff (secExt : Option (List Str)) (entries : List WalkerEntry) :
    Agree secExt entries ↔
      ReadingsAgree entries ∧ ∀ s ∈ secExt.getD [], lastWith entries s = lastOther entries := by
  have hother (h : ReadingsAgree entries) (s : Str) : (collect secExt entries).secPaths.get s =
      if s ∈ secExt.getD [] then lastOther entries else none := by
    rw [get_collect, lastOther,
      List.filter_congr fun e he => decide_eq_decide.mpr (not_congr (taken_iff h he).1)]
  rw [agree_iff_collect]
  constructor
  · intro h
    have hr := (paths_eq_iff secExt).mp h.paths
    refine ⟨hr, fun s hs => ?_⟩
    have hg := h.secPaths s
    rw [hother hr, sibling_get, if_pos hs, if_pos hs] at hg
    exact hg.symm
  · rintro ⟨hr, hl⟩
    have hp := (paths_eq_iff secExt).mpr hr
    have hg (s : Str) :
        (collect secExt entries).secPaths.get s = (sibling secExt entries).secPaths.get s := by
      rw [hother hr, sibling_get]
      split
      · next hs => exact (hl s hs).symm
      · rfl
    refine ⟨hp, hg, ⟨hp.trans sibling_sound.markdown, fun s p h => ?_⟩, sibling_sound⟩
    exact sibling_sound.associated s p ((hg s).symm.trans h)

/-- A page, a picture and a directory: one copy lists the page and maps the picture, the
other lists nothing and maps the directory. -/
theorem page_overlooked :
    ¬ Agree (some [lit ".png"])
      [⟨.file, lit "a.md"⟩, ⟨.file, lit "b.png"⟩, ⟨.directory, lit "c"⟩] := by
  rw [agree_iff_collect]
  intro h
  exact absurd h.paths (by decide)

end Idula.Cmp.Ispec
