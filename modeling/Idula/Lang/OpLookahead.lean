import Mathlib.Data.Bool.AllAny
import Idula.Lang.Op

/-! How far Op.fromStr reads into its input, and what text after an operator changes. -/
namespace Idula.Lang.OpLookahead
open Zig Op
variable {amp : AmpArm}

/-- The first bytes whose arm goes on to read s[1]. -/
def lookahead : Str := lit "-@#%^&*+=|\\/\n\t`~.,><!:?"

/-- s holds every byte that the arms taken on it read. -/
def Complete : Str → Prop
  | [] => False
  | [a] => a ∉ lookahead
  | [a, b] => [a, b] ≠ lit ".." ∧ [a, b] ≠ lit "::"
  | _ => True

theorem arm_plain {a : UInt8} (ha : a ∉ lookahead) (s : Str) :
    arm amp s (chr a) = .ok (if a = 59 then .ret (some .semicolon) else .done) := by
  have hsemi : a = 59 ↔ chr a = ';' := (chr_injective.eq_iff (b := 59)).symm
  have hno : ∀ c ∈ "-@#%^&*+=|\\/\n\t`~.,><!:?".toList, chr a ≠ c := fun c hc he =>
    ha (mem_lit_of_chr he hc)
  simp only [hsemi]
  generalize chr a = c at hno ⊢
  unfold arm
  split
  case h_1 => rfl
  case h_25 h _ _ _ _ _ _ _ _ _ _ _ _ _ _ _ _ _ _ _ _ _ _ _ => rw [if_neg h]; rfl
  all_goals exact absurd rfl (hno _ (by decide))

theorem arm_alone {a : UInt8} (ha : a ∈ lookahead) (f : Flow) : arm amp [a] (chr a) ≠ .ok f := by
  have hfail : ∀ x, ∀ b ∈ lookahead, (arm x [b] (chr b)).toBool = false := by
    intro x
    refine List.all_iff_forall_prop.mp ?_
    cases x <;> decide
  intro hok
  have h := hfail amp a ha
  rw [hok] at h
  cases h

private theorem dotArm_local {c : Char} (hc : c ≠ '.') (s t : Str) :
    dotArm s c = dotArm t c ∧ ∃ f, dotArm s c = .ok f := by
  unfold dotArm
  split
  case h_1 => exact absurd rfl hc
  all_goals exact ⟨rfl, _, rfl⟩

private theorem colonArm_local {c : Char} (hc : c ≠ ':') (s t : Str) :
    colonArm s c = colonArm t c ∧ ∃ f, colonArm s c = .ok f := by
  unfold colonArm
  split
  case h_3 => exact absurd rfl hc
  all_goals exact ⟨rfl, _, rfl⟩

private theorem pair_distinct {a b : UInt8} (h : Complete [a, b]) :
    (chr a = '.' → chr b ≠ '.') ∧ (chr a = ':' → chr b ≠ ':') := by
  constructor
  · intro ha hb
    have ha : a = 46 := chr_injective ha
    have hb : b = 46 := chr_injective hb
    exact h.1 (by rw [ha, hb]; rfl)
  · intro ha hb
    have ha : a = 58 := chr_injective ha
    have hb : b = 58 := chr_injective hb
    exact h.2 (by rw [ha, hb]; rfl)

/-- Apart from ".." and "::", two bytes settle the arm. -/
theorem arm_pair {a b : UInt8} (h : Complete [a, b]) (s : Str) :
    arm amp (a :: b :: s) (chr a) = arm amp [a, b] (chr a) ∧
      ∃ f, arm amp (a :: b :: s) (chr a) = .ok f := by
  obtain ⟨hdot, hcolon⟩ := pair_distinct h
  have hb (t : Str) : charAt (a :: b :: t) 1 = .ok (chr b) := rfl
  unfold arm
  simp only [hb]
  generalize chr a = c at hdot hcolon ⊢
  split
  case h_19 => exact dotArm_local (hdot rfl) _ _
  case h_23 => exact colonArm_local (hcolon rfl) _ _
  all_goals exact ⟨rfl, _, rfl⟩

/-- A third byte settles ".." and "::" too; nothing reads past it. -/
theorem arm_triple (a b c : UInt8) (s : Str) :
    ∃ f, arm amp (a :: b :: c :: s) (chr a) = .ok f := by
  have hb : charAt (a :: b :: c :: s) 1 = .ok (chr b) := rfl
  unfold arm
  simp only [hb]
  generalize chr a = x
  split
  case h_19 =>
    change ∃ f, dotArm (a :: b :: c :: s) (chr b) = .ok f
    by_cases hd : chr b = '.'
    · rw [hd]
      exact ⟨_, rfl⟩
    · exact (dotArm_local hd _ []).2
  case h_23 =>
    change ∃ f, colonArm (a :: b :: c :: s) (chr b) = .ok f
    by_cases hd : chr b = ':'
    · rw [hd]
      exact ⟨_, rfl⟩
    · exact (colonArm_local hd _ []).2
  all_goals exact ⟨_, rfl⟩

theorem not_complete_pair {a b : UInt8} (h : ¬ Complete [a, b]) (f : Flow) :
    arm amp [a, b] (chr a) ≠ .ok f := by
  have hpair : [a, b] = lit ".." ∨ [a, b] = lit "::" := by
    by_contra hn
    exact h (not_or.mp hn)
  rcases hpair with hp | hp
  · obtain ⟨rfl, rfl⟩ : a = 46 ∧ b = 46 := by simpa [lit] using hp
    intro hok
    cases hok
  · obtain ⟨rfl, rfl⟩ : a = 58 ∧ b = 58 := by simpa [lit] using hp
    intro hok
    cases hok

/-- Every index the arms evaluate is in bounds exactly when the input is complete. -/
theorem arm_ok_iff (amp : AmpArm) (a : UInt8) (s : Str) :
    (∃ f, arm amp (a :: s) (chr a) = .ok f) ↔ Complete (a :: s) := by
  match s with
  | [] =>
    by_cases ha : a ∈ lookahead
    · exact ⟨fun ⟨f, hf⟩ => absurd hf (arm_alone ha f), fun h => absurd ha h⟩
    · exact ⟨fun _ => ha, fun _ => ⟨_, arm_plain ha _⟩⟩
  | [b] =>
    constructor
    · rintro ⟨f, hf⟩
      by_contra hn
      exact not_complete_pair hn f hf
    · exact fun h => (arm_pair h []).2
  | b :: c :: t => exact ⟨fun _ => trivial, fun _ => arm_triple a b c t⟩

/-- Text after a complete input does not change how its arm is left. -/
theorem arm_append (amp : AmpArm) {a : UInt8} {s : Str} (h : Complete (a :: s)) (t : Str) :
    arm amp (a :: s ++ t) (chr a) = arm amp (a :: s) (chr a) := by
  match s with
  | [] => rw [arm_plain h, arm_plain h]
  | [_] => exact (arm_pair h t).1
  | _ :: _ :: _ => rfl

/-- No index that Op.fromStr evaluates on s is past the end of s. -/
def InBounds (amp : AmpArm) (s : Str) : Prop := ∀ e, fromStr amp s ≠ .error e

theorem inBounds_iff (amp : AmpArm) (s : Str) : InBounds amp s ↔ Complete s := by
  cases s with
  | nil => exact ⟨fun h => absurd rfl (h ⟨0, 0, le_rfl⟩), False.elim⟩
  | cons a s =>
    rw [← arm_ok_iff amp]
    unfold InBounds
    rw [fromStr_cons]
    cases arm amp (a :: s) (chr a) with
    | error e => exact ⟨fun h => absurd rfl (h e), fun ⟨_, hf⟩ => nomatch hf⟩
    | ok f => exact ⟨fun _ => ⟨f, rfl⟩, fun _ _ he => nomatch he⟩

private theorem arrows_before_space (s : Str) {t : Str} (ht : t.head? = some 32) :
    arrows (s ++ t) = none := by
  have hmem : (32 : UInt8) ∈ s ++ t := List.mem_append_right s (List.mem_of_head? ht)
  apply arrows_eq_none
  · exact fun he => absurd (he ▸ hmem) (by decide)
  · exact fun he => absurd (he ▸ hmem) (by decide)

/-- Of the two arrows only "->" is left to the comparisons after the switch. -/
theorem arrows_of_done {a : UInt8} {s : Str} (hs : a :: s ≠ lit "->")
    (hd : arm amp (a :: s) (chr a) = .ok .done) : arrows (a :: s) = none := by
  apply arrows_eq_none hs
  intro he
  obtain ⟨rfl, rfl⟩ : a = 60 ∧ s = [45] := by simpa [lit] using he
  cases hd

theorem fromStr_append_space {s t : Str} (hc : Complete s) (hs : s ≠ lit "->")
    (ht : t.head? = some 32) : fromStr amp (s ++ t) = fromStr amp s := by
  cases s with
  | nil => exact hc.elim
  | cons a s =>
    obtain ⟨f, hf⟩ := (arm_ok_iff amp a s).mpr hc
    have happend := arm_append amp hc t
    rw [List.cons_append] at happend ⊢
    rw [fromStr_cons, fromStr_cons, happend, hf]
    cases f with
    | ret r => rfl
    | done =>
      rw [arrows_of_done hs hf, ← List.cons_append, arrows_before_space _ ht]

/-- A byte of the operator language. -/
def OperatorByte (b : UInt8) : Prop := ∃ p ∈ spellings, b ∈ p

/-- Reads stay inside s, and an operator that ends s reads as it does before a space. -/
def EndOfInputLaw (amp : AmpArm) (s : Str) : Prop :=
  InBounds amp s ∧
    (s ≠ [] → (∀ b ∈ s, OperatorByte b) →
      ∀ t : Str, t.head? = some 32 → fromStr amp s = fromStr amp (s ++ t))

private theorem farrow_needs_end : ¬ EndOfInputLaw amp (lit "->") := by
  intro h
  have hbytes : ∀ b ∈ lit "->", OperatorByte b := fun b hb => ⟨lit "->", by decide, hb⟩
  have hspace := h.2 (by decide) hbytes (lit " ") (by decide)
  cases amp <;> exact absurd hspace (by decide)

/-- The end of the input is a separator exactly on complete inputs other than "->":
elsewhere the look-ahead runs past the end, or the whole-string comparison fails
once more text follows. -/
theorem endOfInputLaw_iff (amp : AmpArm) (s : Str) :
    EndOfInputLaw amp s ↔ Complete s ∧ s ≠ lit "->" := by
  constructor
  · intro h
    refine ⟨(inBounds_iff amp s).mp h.1, ?_⟩
    rintro rfl
    exact farrow_needs_end h
  · rintro ⟨hc, hs⟩
    exact ⟨(inBounds_iff amp s).mpr hc, fun _ _ t ht => (fromStr_append_space hc hs ht).symm⟩

/-- A lone "<" is read past its end. -/
theorem lt_read_past_end :
    ¬ EndOfInputLaw .first (lit "<") ∧ ¬ EndOfInputLaw .second (lit "<") :=
  ⟨fun h => h.1 ⟨1, 1, le_rfl⟩ rfl, fun h => h.1 ⟨1, 1, le_rfl⟩ rfl⟩

end Idula.Lang.OpLookahead
