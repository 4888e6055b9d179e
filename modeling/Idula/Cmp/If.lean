import Idula.Zig.Fs
import Idula.Library.ArrayMap

/-! WalkExt of the if component: the files of a walk sorted by their extensions, and
which of them its secondary map keeps. -/
namespace Idula.Cmp.If
open Zig Library

structure WalkExt where
  ext : Str
  secondaryExts : List Str
  map : Option (List Str)
  secMap : Option (ArrayMap Str Str)

def WalkExt.initAbs (ext : Str) (secExt : Option (List Str)) : WalkExt where
  ext := ext
  secondaryExts := secExt.getD []
  map := none
  secMap := none

/-- initRel opens its directory by a relative path and is initAbs otherwise. -/
def WalkExt.initRel (ext : Str) (secExt : Option (List Str)) : WalkExt := initAbs ext secExt

def hasExt (p1 p2 : Str) : Bool := endsWith p1 p2

/-- The two collections that walk fills. -/
structure Found where
  paths : List Str
  secPaths : ArrayMap Str Str

/-- One iteration of the loop over the walker. -/
def WalkExt.visit (self : WalkExt) (found : Found) (ent : WalkerEntry) : Found :=
  if ent.kind ≠ .file then found
  else
    let p := ent.path
    if hasExt p self.ext then { found with paths := found.paths ++ [p] }
    else
      { found with
        secPaths := self.secondaryExts.foldl
          (fun m se => if hasExt p se then m.put se p else m) found.secPaths }

def WalkExt.collect (self : WalkExt) (entries : List WalkerEntry) : Found :=
  entries.foldl self.visit ⟨[], .empty⟩

def WalkExt.walk (self : WalkExt) (entries : List WalkerEntry) : WalkExt :=
  let found := self.collect entries
  { self with map := some found.paths, secMap := some found.secPaths }

variable {self : WalkExt} {found : Found} {e : WalkerEntry} {entries : List WalkerEntry} {p se : Str}

/-- A loop whose iterations list the entries of one kind and put every entry under its keys. -/
theorem foldl_visit {visit : Found → WalkerEntry → Found} {P : WalkerEntry → Prop}
    [DecidablePred P] {keys : WalkerEntry → List Str}
    (h : ∀ found e, visit found e = ⟨found.paths ++ if P e then [e.path] else [],
      found.secPaths.putKeys (keys e) e.path⟩) (entries : List WalkerEntry) :
    entries.foldl visit ⟨[], .empty⟩ = ⟨(entries.filter (P ·)).map WalkerEntry.path,
      .ofWrites (entries.map fun e => (keys e, e.path))⟩ := by
  induction entries using List.reverseRecOn with
  | nil => rfl
  | append_singleton entries e ih =>
    rw [List.foldl_append, ih, List.foldl_cons, List.foldl_nil, h, List.filter_append,
      List.map_append, List.map_append, List.map_singleton, ArrayMap.ofWrites_concat]
    by_cases hp : P e <;> simp [hp]

/-- After such a loop a key has the path of the last entry that it was listed for. -/
theorem get_of_keys {keys : WalkerEntry → List Str} {exts : List Str} {Q : WalkerEntry → Prop}
    [DecidablePred Q] {se : Str} (h : ∀ e, se ∈ keys e ↔ se ∈ exts ∧ Q e)
    (entries : List WalkerEntry) :
    (ArrayMap.ofWrites (entries.map fun e => (keys e, e.path))).get se =
      if se ∈ exts then ((entries.filter (Q ·)).map WalkerEntry.path).getLast? else none := by
  rw [ArrayMap.get_ofWrites, List.filter_map, List.getLast?_map, Option.map_map]
  by_cases hs : se ∈ exts
  · rw [if_pos hs, List.getLast?_map]
    simp [Function.comp_def, h, hs]
  · simp [Function.comp_def, h, hs]

/-- A regular file with the primary extension. -/
def WalkExt.Primary (self : WalkExt) (e : WalkerEntry) : Prop := e.kind = .file ∧ self.ext <:+ e.path

/-- A regular file without the primary extension. -/
def WalkExt.Other (self : WalkExt) (e : WalkerEntry) : Prop :=
  e.kind = .file ∧ ¬ self.ext <:+ e.path

instance (self : WalkExt) (e : WalkerEntry) : Decidable (self.Primary e) :=
  inferInstanceAs (Decidable (_ ∧ _))

instance (self : WalkExt) (e : WalkerEntry) : Decidable (self.Other e) :=
  inferInstanceAs (Decidable (_ ∧ _))

/-- The extensions under which an entry is put into the secondary map. -/
def WalkExt.extsOf (self : WalkExt) (e : WalkerEntry) : List Str :=
  if self.Other e then self.secondaryExts.filter (hasExt e.path) else []

theorem mem_extsOf : se ∈ self.extsOf e ↔
    se ∈ self.secondaryExts ∧ self.Other e ∧ se <:+ e.path := by
  unfold WalkExt.extsOf
  split
  · next h => simp [h, hasExt]
  · next h => simp [h]

/-- What an iteration adds to the two collections. -/
theorem visit_eq : self.visit found e =
    ⟨found.paths ++ if self.Primary e then [e.path] else [],
      found.secPaths.putKeys (self.extsOf e) e.path⟩ := by
  by_cases hf : e.kind = .file
  · by_cases hp : self.ext <:+ e.path
    · have hprim : self.Primary e := ⟨hf, hp⟩
      have hoth : ¬ self.Other e := fun h => h.2 hp
      simp [WalkExt.visit, WalkExt.extsOf, hasExt, hf, hp, hprim, hoth, ArrayMap.putKeys]
    · have hprim : ¬ self.Primary e := fun h => hp h.2
      have hoth : self.Other e := ⟨hf, hp⟩
      simp [WalkExt.visit, WalkExt.extsOf, hasExt, hf, hp, hprim, hoth, ArrayMap.putKeys,
        List.foldl_filter]
  · have hprim : ¬ self.Primary e := fun h => hf h.1
    have hoth : ¬ self.Other e := fun h => hf h.1
    simp [WalkExt.visit, WalkExt.extsOf, hf, hprim, hoth, ArrayMap.putKeys]

/-- The whole walk: the primary paths in order, and a run of writes to the map. -/
theorem collect_eq : self.collect entries =
    ⟨(entries.filter (self.Primary ·)).map WalkerEntry.path,
      .ofWrites (entries.map fun e => (self.extsOf e, e.path))⟩ :=
  foldl_visit (fun _ _ => visit_eq) entries

/-- The other files with a given extension, in walk order. -/
def WalkExt.others (self : WalkExt) (entries : List WalkerEntry) (se : Str) : List Str :=
  (entries.filter fun e => self.Other e ∧ se <:+ e.path).map WalkerEntry.path

theorem mem_others : p ∈ self.others entries se ↔
    ∃ e ∈ entries, (self.Other e ∧ se <:+ e.path) ∧ e.path = p := by
  simp [WalkExt.others, and_assoc]

/-- Under each listed extension the map keeps the last file of the walk that has it. -/
theorem get_collect (se : Str) : (self.collect entries).secPaths.get se =
    if se ∈ self.secondaryExts then (self.others entries se).getLast? else none := by
  rw [collect_eq]
  exact get_of_keys (fun e => mem_extsOf) entries

/-- p belongs into the secondary map: another file with a listed extension. -/
def WalkExt.Secondary (self : WalkExt) (entries : List WalkerEntry) (p : Str) : Prop :=
  ∃ se ∈ self.secondaryExts, p ∈ self.others entries se

/-- What walk is to return: the primary files in walk order and once each, the
secondary files once each, and nothing twice. -/
structure Classified (w : WalkExt) (entries : List WalkerEntry) (found : Found) : Prop where
  primary : found.paths = (entries.filter (w.Primary ·)).map WalkerEntry.path
  once : found.paths.Nodup
  secondary : ∀ p, p ∈ found.secPaths.values ↔ w.Secondary entries p
  secondaryOnce : found.secPaths.values.Nodup
  disjoint : ∀ p ∈ found.paths, p ∉ found.secPaths.values

/-- walk fills its two collections as it should. -/
def Classifies (self : WalkExt) (entries : List WalkerEntry) : Prop :=
  ∃ found, (self.walk entries).map = some found.paths ∧
    (self.walk entries).secMap = some found.secPaths ∧ Classified self entries found

theorem classifies_iff_collect :
    Classifies self entries ↔ Classified self entries (self.collect entries) := by
  constructor
  · rintro ⟨⟨paths, secPaths⟩, hp, hs, h⟩
    cases hp
    cases hs
    exact h
  · exact fun h => ⟨_, rfl, rfl, h⟩

/-- The map never holds anything but secondary files. -/
theorem secondary_of_get (h : (self.collect entries).secPaths.get se = some p) :
    self.Secondary entries p := by
  rw [get_collect] at h
  split at h
  · next hse => exact ⟨se, hse, List.mem_of_getLast? h⟩
  · cases h

/-- se is a listed extension, and p the last other file of the walk that has it. -/
def WalkExt.LastWith (self : WalkExt) (entries : List WalkerEntry) (p se : Str) : Prop :=
  se ∈ self.secondaryExts ∧ (self.others entries se).getLast? = some p

theorem get_iff_lastWith :
    (self.collect entries).secPaths.get se = some p ↔ self.LastWith entries p se := by
  rw [get_collect, WalkExt.LastWith]
  split <;> simp [*]

theorem primary_ends (h : p ∈ (self.collect entries).paths) : self.ext <:+ p := by
  rw [collect_eq] at h
  obtain ⟨e, he, rfl⟩ := List.mem_map.mp h
  exact (of_decide_eq_true (List.mem_filter.mp he).2 : self.Primary e).2

theorem secondary_not_ends (h : self.Secondary entries p) : ¬ self.ext <:+ p := by
  obtain ⟨se, _, hp⟩ := h
  obtain ⟨e, _, ⟨ho, _⟩, rfl⟩ := mem_others.mp hp
  exact ho.2

/-- Over distinct paths walk classifies exactly when every secondary file is the last of
the walk with precisely one of the listed extensions. -/
theorem classifies_iff (hd : (entries.map WalkerEntry.path).Nodup) :
    Classifies self entries ↔
      ∀ p, self.Secondary entries p → ∃! se, self.LastWith entries p se := by
  rw [classifies_iff_collect]
  constructor
  · intro h p hp
    obtain ⟨se, hse⟩ := ArrayMap.mem_values_iff.mp ((h.secondary p).mpr hp)
    refine ⟨se, get_iff_lastWith.mp hse, fun se' hse' => ?_⟩
    exact ArrayMap.values_nodup_iff.mp h.secondaryOnce _ _ p (get_iff_lastWith.mpr hse') hse
  · intro h
    have hsec (p : Str) : p ∈ (self.collect entries).secPaths.values ↔ self.Secondary entries p := by
      rw [ArrayMap.mem_values_iff]
      constructor
      · rintro ⟨se, hse⟩
        exact secondary_of_get hse
      · intro hp
        obtain ⟨se, hse, _⟩ := h p hp
        exact ⟨se, get_iff_lastWith.mpr hse⟩
    refine ⟨?_, ?_, hsec, ?_, ?_⟩
    · rw [collect_eq]
    · rw [collect_eq]
      exact hd.sublist (List.filter_sublist.map _)
    · rw [ArrayMap.values_nodup_iff]
      intro se se' p hse hse'
      exact (h p (secondary_of_get hse)).unique (get_iff_lastWith.mp hse) (get_iff_lastWith.mp hse')
    · exact fun p hp hs => secondary_not_ends ((hsec p).mp hs) (primary_ends hp)

/-- One page and one picture among directories: everything is kept. -/
theorem one_picture_kept :
    Classifies (.initAbs (lit ".md") (some [lit ".png", lit ".jpg"]))
      [⟨.file, lit "a.md"⟩, ⟨.directory, lit "c.png"⟩, ⟨.file, lit "b.png"⟩] := by
  refine (classifies_iff (by decide)).mpr fun p hp => ?_
  obtain ⟨se, hse, hp⟩ := hp
  obtain ⟨e, he, ⟨ho, hs⟩, rfl⟩ := mem_others.mp hp
  have hb : ∀ e ∈ [(⟨.file, lit "a.md"⟩ : WalkerEntry), ⟨.directory, lit "c.png"⟩,
      ⟨.file, lit "b.png"⟩], (WalkExt.initAbs (lit ".md") none).Other e → e.path = lit "b.png" := by
    decide
  rw [hb e he ho]
  refine ⟨lit ".png", ⟨by decide, by decide⟩, fun se' h => ?_⟩
  have hu : ∀ se' ∈ [lit ".png", lit ".jpg"], se' <:+ lit "b.png" → se' = lit ".png" := by decide
  obtain ⟨e', _, ⟨_, hs'⟩, hp'⟩ := mem_others.mp (List.mem_of_getLast? h.2)
  exact hu se' h.1 (hp' ▸ hs')

/-- Two pictures: the second takes the place of the first. -/
theorem first_picture_lost :
    ¬ Classifies (.initAbs (lit ".md") (some [lit ".png"]))
      [⟨.file, lit "a.png"⟩, ⟨.file, lit "b.png"⟩] := by
  rw [classifies_iff_collect]
  intro h
  have ha : lit "a.png" ∈ (WalkExt.collect (.initAbs (lit ".md") (some [lit ".png"]))
      [⟨.file, lit "a.png"⟩, ⟨.file, lit "b.png"⟩]).secPaths.values :=
    (h.secondary _).mpr ⟨lit ".png", by decide, by decide⟩
  exact absurd ha (by decide)

end Idula.Cmp.If
