import Idula.Lang.OpLookahead

/-! What Op.fromStr can come to: the operators that it returns at all, and the texts whose
outcome no further text changes. -/
namespace Idula.Lang.OpOutcomes
open Zig Op OpLookahead
variable {amp : AmpArm} {s : Str} {o : Op}

/-- The operators that some text gives, beside the one of the second arm for '&'. -/
def returned : List Op :=
  [.semicolon, .dblFslash, .range, .rangeCol, .rangeInc, .rangeExc, .rangePre, .envData, .ge, .dblGt,
    .gt, .abs, .le, .barrow, .dblLt, .lt, .neverQuery, .dblExclm, .ne, .selfTag, .tagged, .defn, .env,
    .metaPair, .dblColon, .metaDev, .metaTag, .metaQuery, .dblQuery, .farrow]

/-- The returned operators of either reading of the two arms for '&'. -/
def returnedBy : AmpArm → List Op
  | .first => returned
  | .second => .and :: returned

/-- An arm is left with one of the operators, or with none. -/
def Within (ops : List Op) : Flow → Prop
  | .ret (some o) => o ∈ ops
  | .ret none | .done => True

private theorem within_amp {f : Flow} (h : Within returned f) : Within (returnedBy amp) f := by
  cases amp with
  | first => exact h
  | second =>
    cases f with
    | done => trivial
    | ret r =>
      cases r with
      | none => trivial
      | some o => exact List.mem_cons_of_mem _ h

private theorem within_dashArm (c : Char) : Within returned (dashArm c) := by
  unfold dashArm
  split <;> trivial

private theorem within_fslashArm (c : Char) : Within returned (fslashArm c) := by
  unfold fslashArm
  split <;> simp [Within, returned]

private theorem within_dotDotArm (c : Char) : Within returned (dotDotArm c) := by
  unfold dotDotArm
  split <;> simp [Within, returned]

private theorem within_gtArm (c : Char) : Within returned (gtArm c) := by
  unfold gtArm
  split
  · simp [Within, returned]
  · simp [Within, returned]
  · split <;> simp [Within, returned]

private theorem within_ltArm (c : Char) : Within returned (ltArm c) := by
  unfold ltArm
  split
  case h_5 => split <;> simp [Within, returned]
  all_goals simp [Within, returned]

private theorem within_exclmArm (c : Char) : Within returned (exclmArm c) := by
  unfold exclmArm
  split <;> simp [Within, returned]

private theorem within_colonColonArm (c : Char) : Within returned (colonColonArm c) := by
  unfold colonColonArm
  split
  · simp [Within, returned]
  · split <;> simp [Within, returned]

private theorem within_queryArm (c : Char) : Within returned (queryArm c) := by
  unfold queryArm
  split <;> simp [Within, returned]

private theorem within_dotArm {c : Char} {f : Flow} (h : dotArm s c = .ok f) : Within returned f := by
  unfold dotArm at h
  split at h
  · cases hd : charAt s 2 with
    | error e =>
      rw [hd] at h
      cases h
    | ok d =>
      rw [hd] at h
      cases h
      exact within_dotDotArm d
  · cases h
    simp [Within, returned]
  · cases h
    trivial

private theorem within_colonArm {c : Char} {f : Flow} (h : colonArm s c = .ok f) : Within returned f := by
  unfold colonArm at h
  split at h
  case h_3 =>
    cases hd : charAt s 2 with
    | error e =>
      rw [hd] at h
      cases h
    | ok d =>
      rw [hd] at h
      cases h
      exact within_colonColonArm d
  case h_6 =>
    cases h
    split <;> simp [Within, returned]
  all_goals
    cases h
    simp [Within, returned]

private theorem within_ampArm (c : Char) : Within (returnedBy amp) (ampArm amp c) := by
  unfold ampArm
  split
  · simp [Within, returnedBy]
  · trivial

/-- Whatever it reads, no arm is left with another operator. -/
theorem within_arm {c : Char} {f : Flow} (h : arm amp s c = .ok f) : Within (returnedBy amp) f := by
  cases hd : charAt s 1 with
  | error e =>
    unfold arm at h
    rw [hd] at h
    split at h <;> cases h
    · exact within_amp (by simp [Within, returned])
    · trivial
  | ok d =>
    unfold arm at h
    rw [hd] at h
    split at h
    case h_19 => exact within_amp (within_dotArm h)
    case h_23 => exact within_amp (within_colonArm h)
    all_goals cases h
    case h_1 => exact within_amp (by simp [Within, returned])
    case h_2 => exact within_amp (within_dashArm d)
    case h_17 => exact within_ampArm d
    case h_18 => exact within_amp (within_fslashArm d)
    case h_20 => exact within_amp (within_gtArm d)
    case h_21 => exact within_amp (within_ltArm d)
    case h_22 => exact within_amp (within_exclmArm d)
    case h_24 => exact within_amp (within_queryArm d)
    all_goals trivial

/-- Texts that give all of the operators. -/
def texts : List Str :=
  [lit ";", lit "//", lit "...", lit "..:", lit "..=", lit "..!", lit ".. ", lit ". ", lit ">=", lit ">>",
    lit "> ", lit "<>", lit "<=", lit "<-", lit "<<", lit "< ", lit "!?", lit "!!", lit "!=", lit "!:",
    lit ":a", lit ":=", lit ": ", lit "::#", lit "::a", lit ":@", lit ":#", lit "?:", lit "??", lit "->",
    lit "&&"]

private theorem given_of_returned (amp : AmpArm) :
    ∀ o ∈ returnedBy amp, ∃ s ∈ texts, fromStr amp s = .ok (some o) := by
  cases amp <;> decide

/-- The operators that Op.fromStr returns for some text are these and no others. -/
theorem returned_iff (amp : AmpArm) (o : Op) :
    (∃ s, fromStr amp s = .ok (some o)) ↔ o ∈ returnedBy amp := by
  constructor
  · rintro ⟨s, hs⟩
    cases s with
    | nil => cases hs
    | cons a s =>
      rw [fromStr_cons] at hs
      cases hf : arm amp (a :: s) (chr a) with
      | error e =>
        rw [hf] at hs
        cases hs
      | ok f =>
        have hw := within_arm hf
        rw [hf] at hs
        cases f with
        | ret r =>
          cases hs
          exact hw
        | done =>
          have ha : arrows (a :: s) = some o := Except.ok.inj hs
          unfold arrows at ha
          split at ha
          · cases ha
            exact within_amp (f := .ret (some .farrow)) (by simp [Within, returned])
          · split at ha
            · cases ha
              exact within_amp (f := .ret (some .barrow)) (by simp [Within, returned])
            · cases ha
  · intro h
    obtain ⟨s, _, hs⟩ := given_of_returned amp o h
    exact ⟨s, hs⟩

/-- Text behind s does not change its outcome. -/
def Settled (amp : AmpArm) (s : Str) : Prop := ∀ t : Str, fromStr amp (s ++ t) = fromStr amp s

private theorem arrows_append {a : UInt8} {t : Str} (hc : Complete (a :: s)) (ht : t ≠ []) :
    arrows (a :: s ++ t) = none := by
  have hne (c : UInt8) (hc' : c ∈ lookahead) (b : UInt8) : a :: s ++ t ≠ [c, b] := by
    intro he
    have hlt : 0 < t.length := List.length_pos_iff.mpr ht
    cases s with
    | nil => exact hc ((List.cons.inj he).1 ▸ hc')
    | cons d s =>
      have hl := congrArg List.length he
      simp only [List.cons_append, List.length_cons, List.length_append, List.length_nil] at hl
      omega
  exact arrows_eq_none (hne 45 (by decide) 62) (hne 60 (by decide) 45)

/-- The outcome is settled exactly for the texts that hold all that their arms read, but for
the arrow "->", which is no longer one when more text follows. -/
theorem settled_iff (amp : AmpArm) (s : Str) : Settled amp s ↔ Complete s ∧ s ≠ lit "->" := by
  constructor
  · intro h
    constructor
    · rw [← inBounds_iff amp]
      intro e he
      have hlong : Complete (s ++ [32, 32, 32]) := by
        match s with
        | [] | [_] | [_, _] | _ :: _ :: _ :: _ => trivial
      exact (inBounds_iff amp _).mpr hlong e ((h _).trans he)
    · rintro rfl
      have hspace := h (lit " ")
      cases amp <;> exact absurd hspace (by decide)
  · rintro ⟨hc, hs⟩ t
    cases s with
    | nil => exact hc.elim
    | cons a s =>
      by_cases ht : t = []
      · rw [ht, List.append_nil]
      · obtain ⟨f, hf⟩ := (arm_ok_iff amp a s).mpr hc
        have happend := arm_append amp hc t
        rw [List.cons_append] at happend ⊢
        rw [fromStr_cons, fromStr_cons, happend, hf]
        cases f with
        | ret r => rfl
        | done =>
          rw [arrows_of_done hs hf, ← List.cons_append, arrows_append hc ht]

end Idula.Lang.OpOutcomes
