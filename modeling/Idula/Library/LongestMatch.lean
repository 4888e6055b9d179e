import Mathlib.Data.List.Infix

/-! Longest match of a finite word list at the front of an input. The executable
search follows the input letter by letter through the residual word lists. -/
namespace Idula.Library.LongestMatch
variable {α : Type*} [DecidableEq α] {d : List (List α)} {s p q : List α}

omit [DecidableEq α] in
/-- p is a word of d that begins s, and no word of d that begins s is longer. -/
structure Longest (d : List (List α)) (s p : List α) : Prop where
  word : p ∈ d
  begins : p <+: s
  greatest : ∀ q ∈ d, q <+: s → q.length ≤ p.length

/-- No word of d begins s. -/
def Unmatched (d : List (List α)) (s : List α) : Prop := ∀ q ∈ d, ¬ q <+: s

/-- What is left of the words of d after the letter a. -/
def residual (a : α) (d : List (List α)) : List (List α) :=
  d.filterMap fun
    | [] => none
    | b :: w => if b = a then some w else none

/-- The longest word of d at the front of the input. -/
def longest : List (List α) → List α → Option (List α)
  | d, [] => if [] ∈ d then some [] else none
  | d, a :: s =>
    match longest (residual a d) s with
    | some w => some (a :: w)
    | none => if [] ∈ d then some [] else none

omit [DecidableEq α] in
/-- Two words that begin one input with the same greatest length are one word. -/
theorem Longest.unique (hp : Longest d s p) (hq : Longest d s q) : p = q := by
  have hl := Nat.le_antisymm (hq.greatest p hp.word hp.begins) (hp.greatest q hq.word hq.begins)
  exact (List.prefix_of_prefix_length_le hp.begins hq.begins hl.le).eq_of_length hl

omit [DecidableEq α] in
theorem Longest.not_unmatched (h : Longest d s p) : ¬ Unmatched d s :=
  fun hn => hn p h.word h.begins

@[simp] theorem mem_residual {a : α} {w : List α} : w ∈ residual a d ↔ a :: w ∈ d := by
  constructor
  · intro h
    obtain ⟨v, hv, he⟩ := List.mem_filterMap.mp h
    cases v with
    | nil => cases he
    | cons b v =>
      dsimp only at he
      split at he
      · next hb => cases he; exact hb ▸ hv
      · cases he
  · exact fun h => List.mem_filterMap.mpr ⟨a :: w, h, by simp⟩

@[simp] theorem residual_nil (a : α) : residual a [] = [] := rfl

@[simp] theorem residual_cons_nil (a : α) : residual a ([] :: d) = residual a d := rfl

@[simp] theorem residual_cons_cons (a b : α) (w : List α) :
    residual a ((b :: w) :: d) = if b = a then w :: residual a d else residual a d := by
  unfold residual
  by_cases h : b = a <;> simp [h]

private theorem Longest.cons {a : α} (h : Longest (residual a d) s p) : Longest d (a :: s) (a :: p) where
  word := mem_residual.mp h.word
  begins := (List.prefix_cons_inj a).mpr h.begins
  greatest q hq hs := by
    cases q with
    | nil => simp
    | cons b q =>
      obtain ⟨rfl, ht⟩ := List.cons_prefix_cons.mp hs
      simpa using h.greatest q (mem_residual.mpr hq) ht

private theorem unmatched_tail {a : α} (h : Unmatched (residual a d) s) (hq : q ∈ d)
    (hs : q <+: a :: s) : q = [] := by
  cases q with
  | nil => rfl
  | cons b q =>
    obtain ⟨rfl, ht⟩ := List.cons_prefix_cons.mp hs
    exact absurd ht (h q (mem_residual.mpr hq))

/-- When every word that begins the input is empty, the empty word decides. -/
private theorem only_empty (h : ∀ q ∈ d, q <+: s → q = []) :
    match (if [] ∈ d then some ([] : List α) else none) with
    | some p => Longest d s p
    | none => Unmatched d s := by
  split
  · next p hp =>
    split at hp
    · next hd =>
      cases hp
      exact ⟨hd, List.nil_prefix, fun q hq hs => by simp [h q hq hs]⟩
    · cases hp
  · next hp =>
    split at hp
    · cases hp
    · next hd => exact fun q hq hs => hd (h q hq hs ▸ hq)

/-- The search returns the longest word, or nothing when no word matches. -/
theorem longest_spec (d : List (List α)) (s : List α) :
    match longest d s with
    | some p => Longest d s p
    | none => Unmatched d s := by
  induction s generalizing d with
  | nil => exact only_empty (s := []) fun q _ hs => List.prefix_nil.mp hs
  | cons a s ih =>
    have hr := ih (residual a d)
    rw [longest]
    cases hl : longest (residual a d) s with
    | some w =>
      rw [hl] at hr
      exact hr.cons
    | none =>
      rw [hl] at hr
      exact only_empty fun q hq hs => unmatched_tail hr hq hs

theorem longest_eq_some_iff : longest d s = some p ↔ Longest d s p := by
  have hs := longest_spec d s
  constructor
  · intro h
    rwa [h] at hs
  · intro h
    cases hl : longest d s with
    | some q =>
      rw [hl] at hs
      rw [Longest.unique hs h]
    | none =>
      rw [hl] at hs
      exact absurd hs h.not_unmatched

theorem longest_eq_none_iff : longest d s = none ↔ Unmatched d s := by
  have hs := longest_spec d s
  constructor
  · intro h
    rwa [h] at hs
  · intro h
    cases hl : longest d s with
    | some q =>
      rw [hl] at hs
      exact absurd h (Longest.not_unmatched hs)
    | none => rfl

/-- Without the empty word the first letter belongs to the match. -/
theorem longest_cons {a : α} (hd : [] ∉ d) :
    longest d (a :: s) = (longest (residual a d) s).map (a :: ·) := by
  rw [longest]
  cases longest (residual a d) s with
  | some w => rfl
  | none => exact if_neg hd

/-- Past the last word the search is over: only the empty word can be left. -/
@[simp] theorem longest_nil_words (s : List α) : longest [] s = none :=
  longest_eq_none_iff.mpr fun _ h => absurd h List.not_mem_nil

@[simp] theorem longest_empty_word (s : List α) : longest [[]] s = some [] :=
  longest_eq_some_iff.mpr
    ⟨List.mem_singleton.mpr rfl, List.nil_prefix, fun q hq _ => by rw [List.mem_singleton.mp hq]⟩

end Idula.Library.LongestMatch
