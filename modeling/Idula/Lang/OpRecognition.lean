import Mathlib.Data.Bool.AllAny
import Idula.Lang.OpLookahead
import Idula.Library.LongestMatch

/-! Op.fromStr against the documented operator language: the law, the inputs on which the
switch follows it, and the ways in which the two meet on one input. -/
namespace Idula.Lang.OpRecognition
open Zig Op OpLookahead Library.LongestMatch
variable {amp : AmpArm} {s p : Str}

/-- Op.fromStr returns an operator documented with the longest spelling that begins s,
and null when no spelling does. -/
def LongestMatchLaw (amp : AmpArm) (s : Str) : Prop :=
  (∀ p, Longest spellings s p → ∃ o, fromStr amp s = .ok (some o) ∧ (p, o) ∈ documented) ∧
    (Unmatched spellings s → fromStr amp s = .ok none)

/-- The spellings that are recognised whatever follows them. -/
def sure : List Str :=
  [lit ";", lit "<>", lit "<=", lit "<<", lit "<-", lit ">=", lit ">>", lit "!?", lit "!=", lit "!:",
   lit "::#", lit ":@", lit ":#", lit "?:", lit "...", lit "..:", lit "..=", lit "..!"]

/-- The identifier characters of the arms. -/
def ident (c : Char) : Bool := alnum c || c = '_'

/-- The second byte of s satisfies f. -/
def secondIs (f : Char → Bool) (s : Str) : Prop := ∃ b ∈ s[1]?, f (chr b)

/-- When the longest spelling p that begins s is one that its arm recognises. -/
def Handled (amp : AmpArm) (s p : Str) : Prop :=
  p ∈ sure ∨ (p = lit "&&" ∧ amp = .second) ∨
    ((p = lit "<" ∨ p = lit ">") ∧ secondIs (fun c => c = ' ' || ident c) s) ∨
    (p = lit ":" ∧ secondIs ident s) ∨ (p = lit ".." ∧ Complete s) ∨ (p = lit "->" ∧ s = p)

/-- When an input without a documented spelling is left alone. -/
def LeftAlone (s : Str) : Prop := Complete s ∧ ¬ lit "//" <+: s ∧ ¬ lit ". " <+: s

/-- The inputs on which the switch follows the comments. -/
def Recognised (amp : AmpArm) (s : Str) : Prop :=
  (∃ p, Longest spellings s p ∧ Handled amp s p) ∨ (Unmatched spellings s ∧ LeftAlone s)

theorem law_of_longest (h : longest spellings s = some p) :
    LongestMatchLaw amp s ↔ ∃ o, fromStr amp s = .ok (some o) ∧ (p, o) ∈ documented := by
  have hp := longest_eq_some_iff.mp h
  constructor
  · exact fun hl => hl.1 p hp
  · intro ho
    refine ⟨fun q hq => ?_, fun hn => absurd hn hp.not_unmatched⟩
    rwa [hq.unique hp]

theorem law_of_unmatched (h : longest spellings s = none) :
    LongestMatchLaw amp s ↔ fromStr amp s = .ok none := by
  have hn := longest_eq_none_iff.mp h
  exact ⟨fun hl => hl.2 hn, fun hr => ⟨fun _ hq => absurd hn hq.not_unmatched, fun _ => hr⟩⟩

theorem recognised_of_longest (h : longest spellings s = some p) :
    Recognised amp s ↔ Handled amp s p := by
  have hp := longest_eq_some_iff.mp h
  constructor
  · rintro (⟨q, hq, hh⟩ | ⟨hn, _⟩)
    · rwa [hp.unique hq]
    · exact absurd hn hp.not_unmatched
  · exact fun hh => Or.inl ⟨p, hp, hh⟩

theorem recognised_of_unmatched (h : longest spellings s = none) :
    Recognised amp s ↔ LeftAlone s := by
  have hn := longest_eq_none_iff.mp h
  constructor
  · rintro (⟨q, hq, _⟩ | ⟨_, hl⟩)
    · exact absurd hn hq.not_unmatched
    · exact hl
  · exact fun hl => Or.inr ⟨hn, hl⟩

/-- The four ways in which the switch and the comments meet. -/
theorem recognise {o : Op} (hl : longest spellings s = some p)
    (hf : fromStr amp s = .ok (some o)) (hd : (p, o) ∈ documented) (hh : Handled amp s p) :
    LongestMatchLaw amp s ↔ Recognised amp s := by
  rw [law_of_longest hl, recognised_of_longest hl]
  exact iff_of_true ⟨o, hf, hd⟩ hh

theorem misread {r : Option Op} (hl : longest spellings s = some p)
    (hf : fromStr amp s = .ok r) (hd : ∀ o ∈ r, (p, o) ∉ documented) (hh : ¬ Handled amp s p) :
    LongestMatchLaw amp s ↔ Recognised amp s := by
  rw [law_of_longest hl, recognised_of_longest hl, hf]
  refine iff_of_false ?_ hh
  rintro ⟨o, ho, hm⟩
  exact hd o (Except.ok.inj ho) hm

theorem misread_none (hl : longest spellings s = some p) (hf : fromStr amp s = .ok none)
    (hh : ¬ Handled amp s p) : LongestMatchLaw amp s ↔ Recognised amp s :=
  misread hl hf (fun _ ho => nomatch ho) hh

theorem leave (hl : longest spellings s = none) (hf : fromStr amp s = .ok none)
    (ha : LeftAlone s) : LongestMatchLaw amp s ↔ Recognised amp s := by
  rw [law_of_unmatched hl, recognised_of_unmatched hl]
  exact iff_of_true hf ha

theorem invent {o : Op} (hl : longest spellings s = none)
    (hf : fromStr amp s = .ok (some o)) (ha : ¬ LeftAlone s) :
    LongestMatchLaw amp s ↔ Recognised amp s := by
  rw [law_of_unmatched hl, recognised_of_unmatched hl, hf]
  exact iff_of_false (fun h => nomatch h) ha

theorem handled_angle (hp : p = lit "<" ∨ p = lit ">") :
    Handled amp s p ↔ secondIs (fun c => c = ' ' || ident c) s := by
  rcases hp with rfl | rfl <;> simp [Handled, sure, lit]

theorem handled_dbl_amp : Handled amp s (lit "&&") ↔ amp = .second := by
  simp [Handled, sure, lit]

theorem handled_colon : Handled amp s (lit ":") ↔ secondIs ident s := by
  simp [Handled, sure, lit]

theorem handled_dot_dot : Handled amp s (lit "..") ↔ Complete s := by
  simp [Handled, sure, lit]

theorem handled_farrow : Handled amp s (lit "->") ↔ s = lit "->" := by
  simp [Handled, sure, lit]

/-- Spellings that are recognised in some contexts only. -/
def contextual : List Str := [lit "&&", lit "<", lit ">", lit ":", lit "..", lit "->"]

private theorem handled_cases (h : Handled amp s p) : p ∈ sure ++ contextual := by
  rw [List.mem_append]
  rcases h with h | ⟨rfl, _⟩ | ⟨rfl | rfl, _⟩ | ⟨rfl, _⟩ | ⟨rfl, _⟩ | ⟨rfl, _⟩
  · exact Or.inl h
  all_goals exact Or.inr (by decide)

theorem not_handled (h : p ∉ sure ++ contextual) : ¬ Handled amp s p :=
  fun hh => h (handled_cases hh)

theorem nil_not_spelling : [] ∉ spellings := by decide

/-- A spelling that begins the input begins with its first byte. -/
theorem longest_head {a : UInt8} (h : Longest spellings (a :: s) p) :
    ∃ q, p = a :: q := by
  cases p with
  | nil => exact absurd h.word nil_not_spelling
  | cons b q =>
    obtain ⟨rfl, _⟩ := List.cons_prefix_cons.mp h.begins
    exact ⟨q, rfl⟩

/-- The first bytes of the spellings that some arm recognises, with '/' and '&'. -/
def active : Str := lit ";<>!:?.&-/"

private theorem handled_active {a : UInt8} {q : Str} (h : Handled amp s (a :: q)) : a ∈ active := by
  have hall : ∀ w ∈ sure ++ contextual, w.headD 59 ∈ active := by decide
  exact hall _ (handled_cases h)

theorem quiet {a : UInt8} (ha : a ∉ active) (hc : Complete (a :: s))
    (hf : fromStr amp (a :: s) = .ok none) :
    LongestMatchLaw amp (a :: s) ↔ Recognised amp (a :: s) := by
  cases hl : longest spellings (a :: s) with
  | some p =>
    obtain ⟨q, rfl⟩ := longest_head (longest_eq_some_iff.mp hl)
    exact misread_none hl hf fun hh => ha (handled_active hh)
  | none =>
    refine leave hl hf ⟨hc, fun hp => ?_, fun hp => ?_⟩
    · exact ha ((List.cons_prefix_cons.mp hp).1 ▸ by decide)
    · exact ha ((List.cons_prefix_cons.mp hp).1 ▸ by decide)

theorem fromStr_of_arm_ne {a : UInt8} {f : Flow}
    (ha : arm amp (a :: s) (chr a) = .ok f) (hf : a :: s ≠ lit "->") (hb : a :: s ≠ lit "<-") :
    fromStr amp (a :: s) = .ok (f.result none) := by
  rw [fromStr_cons, arrows_eq_none hf hb, ha]
  rfl

/-- Only '-' and '<' begin an arrow; for the others the arm decides. -/
theorem fromStr_of_arm {a : UInt8} {f : Flow} (ha : arm amp (a :: s) (chr a) = .ok f)
    (hn : a ∉ lit "-<") : fromStr amp (a :: s) = .ok (f.result none) := by
  apply fromStr_of_arm_ne ha
  · exact fun he => hn ((List.cons.inj he).1 ▸ by decide)
  · exact fun he => hn ((List.cons.inj he).1 ▸ by decide)

theorem fromStr_done {a : UInt8} (ha : arm amp (a :: s) (chr a) = .ok .done)
    (hn : a ∉ lit "-<") : fromStr amp (a :: s) = .ok none :=
  fromStr_of_arm ha hn

theorem fromStr_quiet {a : UInt8} (ha : a ∉ active) (hc : Complete (a :: s)) :
    fromStr amp (a :: s) = .ok none := by
  have hn : a ∉ lit "-<" := by
    have hsub : ∀ b ∈ lit "-<", b ∈ active := List.all_iff_forall_prop.mp (by decide)
    exact fun h => ha (hsub a h)
  apply fromStr_done _ hn
  by_cases hl : a ∈ lookahead
  · have hsilent : a ∈ lit "@#%^*+=|\\\n\t`~," := by
      have hsplit : ∀ b ∈ lookahead, b ∈ active ∨ b ∈ lit "@#%^*+=|\\\n\t`~," :=
        List.all_iff_forall_prop.mp (by decide)
      exact (hsplit a hl).resolve_left ha
    cases s with
    | nil => exact absurd hl hc
    | cons b s =>
      simp [lit] at hsilent
      rcases hsilent with rfl | rfl | rfl | rfl | rfl | rfl | rfl | rfl | rfl | rfl | rfl | rfl |
        rfl | rfl <;> rfl
  · have hsemi : a ≠ 59 := fun he => ha (he ▸ by decide)
    rw [arm_plain hl, if_neg hsemi]

theorem longest_at {a : UInt8} {r : List Str} {q : Str} (hr : residual a spellings = r)
    (hl : longest r s = some q) : longest spellings (a :: s) = some (a :: q) := by
  rw [longest_cons nil_not_spelling, hr, hl]
  rfl

theorem longest_none_at {a : UInt8} {r : List Str} (hr : residual a spellings = r)
    (hl : longest r s = none) : longest spellings (a :: s) = none := by
  rw [longest_cons nil_not_spelling, hr, hl]
  rfl

theorem recognise_at {a : UInt8} {r : List Str} {q : Str} {o : Op}
    (hr : residual a spellings = r) (hl : longest r s = some q)
    (hf : fromStr amp (a :: s) = .ok (some o)) (hd : (a :: q, o) ∈ documented ∧ a :: q ∈ sure) :
    LongestMatchLaw amp (a :: s) ↔ Recognised amp (a :: s) :=
  recognise (longest_at hr hl) hf hd.1 (Or.inl hd.2)

theorem misread_at {a : UInt8} {r : List Str} {q : Str} {o : Option Op}
    (hr : residual a spellings = r) (hl : longest r s = some q) (hf : fromStr amp (a :: s) = .ok o)
    (hd : (∀ x ∈ o, (a :: q, x) ∉ documented) ∧ a :: q ∉ sure ++ contextual) :
    LongestMatchLaw amp (a :: s) ↔ Recognised amp (a :: s) :=
  misread (longest_at hr hl) hf hd.1 (not_handled hd.2)

theorem chr_ne {a b : UInt8} (h : a ≠ b) : chr a ≠ chr b := fun he => h (chr_injective he)

end Idula.Lang.OpRecognition
