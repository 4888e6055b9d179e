import Idula.Lang.OpArms

/-! Where the nested switch of Op.fromStr recognises the longest documented spelling. -/
namespace Idula.Lang.OpLongestMatch
open Zig Op OpLookahead OpRecognition OpArms Library.LongestMatch
variable {amp : AmpArm} {s p : Str}

private theorem law_active {a : UInt8} (ha : a ∈ active) (hc : Complete (a :: s)) :
    LongestMatchLaw amp (a :: s) ↔ Recognised amp (a :: s) := by
  cases s with
  | nil =>
    have hsplit : ∀ b ∈ active, b = 59 ∨ b ∈ lookahead := List.all_iff_forall_prop.mp (by decide)
    obtain rfl := (hsplit a ha).resolve_right hc
    exact law_semicolon []
  | cons b t =>
    simp [active, lit] at ha
    rcases ha with rfl | rfl | rfl | rfl | rfl | rfl | rfl | rfl | rfl | rfl
    · exact law_semicolon _
    · exact law_lt b t
    · exact law_gt b t
    · exact law_exclm b t
    · exact law_colon b t hc
    · exact law_query b t
    · exact law_dot b t hc
    · exact law_amp b t
    · exact law_dash b t
    · exact law_fslash b t

private theorem not_law_of_incomplete (hc : ¬ Complete s) : ¬ LongestMatchLaw amp s := by
  intro h
  apply hc
  apply (inBounds_iff amp s).mp
  intro e he
  cases hl : longest spellings s with
  | some p =>
    obtain ⟨o, ho, _⟩ := (law_of_longest hl).mp h
    cases he.symm.trans ho
  | none => cases he.symm.trans ((law_of_unmatched hl).mp h)

/-- No spelling is recognised in a single byte that its arm looks past. -/
private theorem not_handled_alone {a : UInt8} (ha : a ∈ lookahead) : ¬ Handled amp [a] [a] := by
  have hsure : ∀ b ∈ lookahead, [b] ∉ sure := List.all_iff_forall_prop.mp (by decide)
  have hsecond (f : Char → Bool) : ¬ secondIs f [a] := fun ⟨_, hb, _⟩ => nomatch hb
  rintro (h | ⟨h, _⟩ | ⟨_, h⟩ | ⟨_, h⟩ | ⟨h, _⟩ | ⟨h, _⟩)
  · exact hsure a ha h
  · simp [lit] at h
  · exact hsecond _ h
  · exact hsecond _ h
  · simp [lit] at h
  · simp [lit] at h

private theorem not_recognised_of_incomplete (hc : ¬ Complete s) : ¬ Recognised amp s := by
  rintro (⟨p, hp, hh⟩ | ⟨_, hl⟩)
  · match s with
    | [] => exact nil_not_spelling (List.prefix_nil.mp hp.begins ▸ hp.word)
    | [a] =>
      obtain ⟨q, rfl⟩ := longest_head hp
      obtain rfl := List.prefix_nil.mp (List.cons_prefix_cons.mp hp.begins).2
      exact not_handled_alone (not_not.mp hc) hh
    | [a, b] =>
      rcases Classical.not_and_iff_not_or_not.mp hc with h | h
      · rw [not_not.mp h] at hp hh
        obtain rfl := hp.unique (longest_eq_some_iff.mp (show longest _ _ = some (lit "..") by decide))
        exact (handled_dot_dot.mp hh).1 rfl
      · rw [not_not.mp h] at hp hh
        obtain rfl := hp.unique (longest_eq_some_iff.mp (show longest _ _ = some (lit "::") by decide))
        exact not_handled (by decide) hh
    | _ :: _ :: _ :: _ => exact hc trivial
  · exact hc hl.1

/-- Exact agreement with the comments: the switch recognises the longest documented
spelling precisely on the inputs described by Recognised. -/
theorem longestMatchLaw_iff (amp : AmpArm) (s : Str) :
    LongestMatchLaw amp s ↔ Recognised amp s := by
  by_cases hc : Complete s
  · cases s with
    | nil => exact hc.elim
    | cons a s =>
      by_cases ha : a ∈ active
      · exact law_active ha hc
      · exact quiet ha hc (fromStr_quiet ha hc)
  · exact iff_of_false (not_law_of_incomplete hc) (not_recognised_of_incomplete hc)

/-- "/=" is documented as divAssign and read as dblFslash. -/
theorem div_assign_misread :
    ¬ LongestMatchLaw .first (lit "/=") ∧ ¬ LongestMatchLaw .second (lit "/=") := by
  have hl : longest spellings (lit "/=") = some (lit "/=") := by decide
  rw [law_of_longest hl, law_of_longest hl]
  constructor <;>
  · rintro ⟨o, ho, hd⟩
    cases ho
    exact absurd hd (by decide)

end Idula.Lang.OpLongestMatch
