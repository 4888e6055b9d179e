import Mathlib.Data.List.Infix
import Mathlib.Data.List.Nodup

/-! Insertion-ordered maps: a put overwrites the value of a known key in its place and
appends a new key at the end. -/
namespace Idula.Library
variable {κ ν : Type*} [DecidableEq κ] {es : List (κ × ν)} {k k' : κ} {v v' : ν}

def putEntry (k : κ) (v : ν) : List (κ × ν) → List (κ × ν)
  | [] => [(k, v)]
  | e :: es => if e.1 = k then (k, v) :: es else e :: putEntry k v es

private theorem keys_putEntry (k : κ) (v : ν) (es : List (κ × ν)) :
    (putEntry k v es).map Prod.fst =
      if k ∈ es.map Prod.fst then es.map Prod.fst else es.map Prod.fst ++ [k] := by
  induction es with
  | nil => rfl
  | cons e es ih =>
    by_cases he : e.1 = k
    · simp [putEntry, he]
    · have hk : k ∈ (e :: es).map Prod.fst ↔ k ∈ es.map Prod.fst := by
        simp [Ne.symm he]
      rw [putEntry, if_neg he, List.map_cons, ih]
      simp only [hk]
      split <;> rfl

omit [DecidableEq κ] in
/-- A map from keys to values that remembers the order in which its keys came. -/
structure ArrayMap (κ ν : Type*) where
  entries : List (κ × ν)
  nodup : (entries.map Prod.fst).Nodup

omit [DecidableEq κ] in
def ArrayMap.empty : ArrayMap κ ν := ⟨[], List.nodup_nil⟩

def ArrayMap.put (m : ArrayMap κ ν) (k : κ) (v : ν) : ArrayMap κ ν where
  entries := putEntry k v m.entries
  nodup := by
    rw [keys_putEntry]
    split
    · exact m.nodup
    · next hk =>
      rw [← List.concat_eq_append]
      exact m.nodup.concat hk

def ArrayMap.get (m : ArrayMap κ ν) (k : κ) : Option ν := m.entries.lookup k

def ArrayMap.values (m : ArrayMap κ ν) : List ν := m.entries.map Prod.snd

namespace ArrayMap
variable {m : ArrayMap κ ν}

private theorem lookup_cons_if (e : κ × ν) (es : List (κ × ν)) :
    (e :: es).lookup k = if k = e.1 then some e.2 else es.lookup k := by
  by_cases h : k = e.1
  · rw [List.lookup_cons, beq_iff_eq.mpr h, if_pos h]
  · rw [List.lookup_cons, beq_false_of_ne h, if_neg h]

theorem lookup_putEntry (k k' : κ) (v : ν) (es : List (κ × ν)) :
    (putEntry k v es).lookup k' = if k' = k then some v else es.lookup k' := by
  induction es with
  | nil => exact lookup_cons_if (k, v) []
  | cons e es ih =>
    by_cases he : e.1 = k
    · subst he
      rw [putEntry, if_pos rfl, lookup_cons_if, lookup_cons_if]
      split <;> rfl
    · rw [putEntry, if_neg he, lookup_cons_if, lookup_cons_if, ih]
      by_cases hk : k' = e.1
      · rw [if_pos hk, if_pos hk, if_neg (hk ▸ he)]
      · rw [if_neg hk, if_neg hk]

/-- A put is seen under its own key and nowhere else. -/
theorem get_put (m : ArrayMap κ ν) (k k' : κ) (v : ν) :
    (m.put k v).get k' = if k' = k then some v else m.get k' :=
  lookup_putEntry k k' v m.entries

private theorem lookup_eq_some_iff (h : (es.map Prod.fst).Nodup) :
    es.lookup k = some v ↔ (k, v) ∈ es := by
  induction es with
  | nil => simp
  | cons e es ih =>
    obtain ⟨j, u⟩ := e
    obtain ⟨hj, hn⟩ := List.nodup_cons.mp h
    by_cases hk : k = j
    · subst hk
      have hout : (k, v) ∉ es := fun hm => hj (List.mem_map.mpr ⟨_, hm, rfl⟩)
      simp [hout, eq_comm]
    · rw [lookup_cons_if, if_neg hk, ih hn]
      simp [hk]

theorem get_eq_some_iff : m.get k = some v ↔ (k, v) ∈ m.entries := lookup_eq_some_iff m.nodup

private theorem putEntry_of_lookup (h : es.lookup k = some v) : putEntry k v es = es := by
  induction es with
  | nil => cases h
  | cons e es ih =>
    obtain ⟨j, u⟩ := e
    rw [lookup_cons_if] at h
    by_cases hj : j = k
    · subst hj
      rw [if_pos rfl] at h
      cases h
      rw [putEntry, if_pos rfl]
    · rw [if_neg (Ne.symm hj)] at h
      rw [putEntry, if_neg hj, ih h]

theorem putEntry_putEntry (k : κ) (u v : ν) (es : List (κ × ν)) :
    putEntry k v (putEntry k u es) = putEntry k v es := by
  induction es with
  | nil => simp [putEntry]
  | cons e es ih =>
    by_cases he : e.1 = k
    · simp [putEntry, he]
    · simp only [putEntry, he, if_false, ih]

/-- Of two puts under one key the second stays. -/
theorem put_put (m : ArrayMap κ ν) (k : κ) (u v : ν) : (m.put k u).put k v = m.put k v :=
  (ArrayMap.mk.injEq _ _ _ _).mpr (putEntry_putEntry k u v m.entries)

/-- A put of the value that is there changes nothing. -/
theorem put_eq_self_iff : m.put k v = m ↔ m.get k = some v := by
  constructor
  · intro h
    have hg := get_put m k k v
    rw [h, if_pos rfl] at hg
    exact hg
  · intro h
    obtain ⟨es, hn⟩ := m
    exact (ArrayMap.mk.injEq _ _ _ _).mpr (putEntry_of_lookup h)

/-- A run of puts. -/
def putAll (m : ArrayMap κ ν) (ws : List (κ × ν)) : ArrayMap κ ν := ws.foldl (fun m w => m.put w.1 w.2) m

theorem mem_values_iff : v ∈ m.values ↔ ∃ k, m.get k = some v := by
  rw [values, List.mem_map]
  constructor
  · rintro ⟨⟨k, u⟩, hm, rfl⟩
    exact ⟨k, get_eq_some_iff.mpr hm⟩
  · rintro ⟨k, hk⟩
    exact ⟨(k, v), get_eq_some_iff.mp hk, rfl⟩

/-- Every value is there once exactly when no value has two keys. -/
theorem values_nodup_iff :
    m.values.Nodup ↔ ∀ k k' v, m.get k = some v → m.get k' = some v → k = k' := by
  have hentries : m.entries.Nodup := List.Nodup.of_map Prod.fst m.nodup
  rw [values, List.nodup_map_iff_inj_on hentries]
  constructor
  · intro h k k' v hk hk'
    exact congrArg Prod.fst (h _ (get_eq_some_iff.mp hk) _ (get_eq_some_iff.mp hk') rfl)
  · rintro h ⟨k, v⟩ he ⟨k', v'⟩ he' rfl
    rw [h k k' v (get_eq_some_iff.mpr he) (get_eq_some_iff.mpr he')]

/-- One value put under several keys. -/
def putKeys (m : ArrayMap κ ν) (ks : List κ) (v : ν) : ArrayMap κ ν :=
  ks.foldl (fun m k => m.put k v) m

theorem get_putKeys (m : ArrayMap κ ν) (ks : List κ) (v : ν) (k : κ) :
    (m.putKeys ks v).get k = if k ∈ ks then some v else m.get k := by
  induction ks generalizing m with
  | nil => simp [putKeys]
  | cons j ks ih =>
    have hput : m.putKeys (j :: ks) v = (m.put j v).putKeys ks v := rfl
    rw [hput, ih, get_put]
    by_cases hk : k ∈ ks
    · rw [if_pos hk, if_pos (List.mem_cons_of_mem j hk)]
    · simp [hk]

/-- A run of writes to an empty map, each of one value under several keys. -/
def ofWrites (ws : List (List κ × ν)) : ArrayMap κ ν :=
  ws.foldl (fun m w => m.putKeys w.1 w.2) empty

@[simp] theorem ofWrites_concat (ws : List (List κ × ν)) (w : List κ × ν) :
    ofWrites (ws ++ [w]) = (ofWrites ws).putKeys w.1 w.2 := by
  simp [ofWrites]

/-- After a run of writes a key has the value of the last write that names it. -/
theorem get_ofWrites (ws : List (List κ × ν)) (k : κ) :
    (ofWrites ws).get k = ((ws.filter (k ∈ ·.1)).getLast?).map Prod.snd := by
  induction ws using List.reverseRecOn with
  | nil => rfl
  | append_singleton ws w ih =>
    rw [ofWrites_concat, get_putKeys, ih, List.filter_append]
    by_cases h : k ∈ w.1 <;> simp [h]

end ArrayMap
end Idula.Library
