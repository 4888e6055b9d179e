import Idula.Lang.OpRecognition

/-! The arms of Op.fromStr one by one: after each first byte, the longest documented
spelling and what the arm makes of it. -/
namespace Idula.Lang.OpArms
open Zig Op OpLookahead OpRecognition Library.LongestMatch
variable {amp : AmpArm}

/-- After '<' or '>' alone, the arm and the condition test the same character. -/
private theorem law_angle {a b : UInt8} {t : Str} {o : Op} (ha : [a] = lit "<" ∨ [a] = lit ">")
    (hl : longest spellings (a :: b :: t) = some [a]) (hd : ([a], o) ∈ documented)
    (hf : fromStr amp (a :: b :: t) =
      .ok (if chr b = ' ' || alnum (chr b) || chr b = '_' then some o else none)) :
    LongestMatchLaw amp (a :: b :: t) ↔ Recognised amp (a :: b :: t) := by
  have hsecond : secondIs (fun c => c = ' ' || ident c) (a :: b :: t) ↔
      (chr b = ' ' || alnum (chr b) || chr b = '_') = true := by
    simp [secondIs, ident, Bool.or_assoc]
  by_cases hb : (chr b = ' ' || alnum (chr b) || chr b = '_') = true
  · rw [if_pos hb] at hf
    exact recognise hl hf hd ((handled_angle ha).mpr (hsecond.mpr hb))
  · rw [if_neg hb] at hf
    exact misread_none hl hf fun hh => hb (hsecond.mp ((handled_angle ha).mp hh))

private theorem residual_lt :
    residual 60 spellings = [[62], [], [61], [60], [45], [60, 45], [45, 62]] := by decide

theorem law_lt (b : UInt8) (t : Str) :
    LongestMatchLaw amp (60 :: b :: t) ↔ Recognised amp (60 :: b :: t) := by
  by_cases hgt : b = 62
  · subst hgt
    exact recognise_at (q := [62]) residual_lt (by simp [longest]) rfl (by decide)
  by_cases heq : b = 61
  · subst heq
    exact recognise_at (q := [61]) residual_lt (by simp [longest]) rfl (by decide)
  by_cases hdash : b = 45
  · subst hdash
    cases t with
    | nil => exact recognise_at (q := [45]) residual_lt (by simp [longest]) rfl (by decide)
    | cons c t =>
      by_cases hc : c = 62
      · subst hc
        exact misread_at (q := [45, 62]) residual_lt (by simp [longest]) rfl (by decide)
      · exact recognise_at (q := [45]) residual_lt (by simp [longest, Ne.symm hc]) rfl (by decide)
  by_cases hlt : b = 60
  · subst hlt
    cases t with
    | nil => exact recognise_at (q := [60]) residual_lt (by simp [longest]) rfl (by decide)
    | cons c t =>
      by_cases hc : c = 45
      · subst hc
        exact misread_at (q := [60, 45]) residual_lt (by simp [longest]) rfl (by decide)
      · exact recognise_at (q := [60]) residual_lt (by simp [longest, Ne.symm hc]) rfl (by decide)
  have harm : ltArm (chr b) =
      if chr b = ' ' || alnum (chr b) || chr b = '_' then .ret (some .lt) else .done := by
    unfold ltArm
    split
    · next he => exact absurd he (chr_ne hgt)
    · next he => exact absurd he (chr_ne heq)
    · next he => exact absurd he (chr_ne hdash)
    · next he => exact absurd he (chr_ne hlt)
    · rfl
  refine law_angle (o := .lt) (Or.inl rfl) ?_ (by decide) ?_
  · exact longest_at residual_lt
      (by simp [longest, Ne.symm hgt, Ne.symm heq, Ne.symm hdash, Ne.symm hlt])
  · rw [fromStr_of_arm_ne (a := 60) (s := b :: t) (congrArg Except.ok harm) (by simp [lit])
      (by simp [lit, hdash])]
    split <;> rfl

private theorem residual_gt : residual 62 spellings = [[], [61], [62]] := by decide

theorem law_gt (b : UInt8) (t : Str) :
    LongestMatchLaw amp (62 :: b :: t) ↔ Recognised amp (62 :: b :: t) := by
  by_cases heq : b = 61
  · subst heq
    exact recognise_at (q := [61]) residual_gt (by simp [longest]) rfl (by decide)
  by_cases hgt : b = 62
  · subst hgt
    exact recognise_at (q := [62]) residual_gt (by simp [longest]) rfl (by decide)
  have harm : gtArm (chr b) =
      if chr b = ' ' || alnum (chr b) || chr b = '_' then .ret (some .gt) else .done := by
    unfold gtArm
    split
    · next he => exact absurd he (chr_ne heq)
    · next he => exact absurd he (chr_ne hgt)
    · rfl
  refine law_angle (o := .gt) (Or.inr rfl) ?_ (by decide) ?_
  · exact longest_at residual_gt (by simp [longest, Ne.symm heq, Ne.symm hgt])
  · rw [fromStr_of_arm (a := 62) (s := b :: t) (congrArg Except.ok harm) (by decide)]
    split <;> rfl

private theorem residual_exclm : residual 33 spellings = [[], [61], [63], [58]] := by decide

theorem law_exclm (b : UInt8) (t : Str) :
    LongestMatchLaw amp (33 :: b :: t) ↔ Recognised amp (33 :: b :: t) := by
  by_cases hquery : b = 63
  · subst hquery
    exact recognise_at (q := [63]) residual_exclm (by simp [longest]) rfl (by decide)
  by_cases hexclm : b = 33
  · subst hexclm
    exact misread_at (q := []) residual_exclm (by simp [longest]) rfl (by decide)
  by_cases heq : b = 61
  · subst heq
    exact recognise_at (q := [61]) residual_exclm (by simp [longest]) rfl (by decide)
  by_cases hcolon : b = 58
  · subst hcolon
    exact recognise_at (q := [58]) residual_exclm (by simp [longest]) rfl (by decide)
  have harm : exclmArm (chr b) = .done := by
    unfold exclmArm
    split
    · next he => exact absurd he (chr_ne hquery)
    · next he => exact absurd he (chr_ne hexclm)
    · next he => exact absurd he (chr_ne heq)
    · next he => exact absurd he (chr_ne hcolon)
    · rfl
  refine misread_at (q := []) (o := none) residual_exclm ?_ ?_ (by decide)
  · simp [longest, Ne.symm hquery, Ne.symm heq, Ne.symm hcolon]
  · exact fromStr_done (congrArg Except.ok harm) (by decide)

private theorem residual_query : residual 63 spellings = [[], [61], [58], [33]] := by decide

theorem law_query (b : UInt8) (t : Str) :
    LongestMatchLaw amp (63 :: b :: t) ↔ Recognised amp (63 :: b :: t) := by
  by_cases hcolon : b = 58
  · subst hcolon
    exact recognise_at (q := [58]) residual_query (by simp [longest]) rfl (by decide)
  by_cases hquery : b = 63
  · subst hquery
    exact misread_at (q := []) residual_query (by simp [longest]) rfl (by decide)
  have harm : queryArm (chr b) = .done := by
    unfold queryArm
    split
    · next he => exact absurd he (chr_ne hcolon)
    · next he => exact absurd he (chr_ne hquery)
    · rfl
    · rfl
  have hf : fromStr amp (63 :: b :: t) = .ok none :=
    fromStr_done (congrArg Except.ok harm) (by decide)
  by_cases hexclm : b = 33
  · subst hexclm
    exact misread_at (q := [33]) residual_query (by simp [longest]) hf (by decide)
  by_cases heq : b = 61
  · subst heq
    exact misread_at (q := [61]) residual_query (by simp [longest]) hf (by decide)
  refine misread_at (q := []) residual_query ?_ hf (by decide)
  simp [longest, Ne.symm hcolon, Ne.symm hexclm, Ne.symm heq]

theorem law_semicolon (s : Str) :
    LongestMatchLaw amp (59 :: s) ↔ Recognised amp (59 :: s) :=
  recognise_at (q := []) (show residual 59 spellings = [[]] by decide) (by simp) rfl (by decide)

private theorem residual_fslash : residual 47 spellings = [[61]] := by decide

theorem law_fslash (b : UInt8) (t : Str) :
    LongestMatchLaw amp (47 :: b :: t) ↔ Recognised amp (47 :: b :: t) := by
  by_cases heq : b = 61
  · subst heq
    exact misread_at (q := [61]) residual_fslash (by simp [longest]) rfl (by decide)
  have hl : longest spellings (47 :: b :: t) = none :=
    longest_none_at residual_fslash (by simp [longest, Ne.symm heq])
  by_cases hfslash : b = 47
  · subst hfslash
    exact invent hl rfl fun ha => ha.2.1 ⟨t, rfl⟩
  have harm : fslashArm (chr b) = .done := by
    unfold fslashArm
    split
    · next he => exact absurd he (chr_ne hfslash)
    · next he => exact absurd he (chr_ne heq)
    · rfl
  refine leave hl ?_ ⟨?_, by simp [lit, Ne.symm hfslash], by simp [lit]⟩
  · exact fromStr_done (congrArg Except.ok harm) (by decide)
  · cases t with
    | nil => exact ⟨by simp [lit], by simp [lit]⟩
    | cons c t => trivial

private theorem residual_dash : residual 45 spellings = [[61], [62], [62, 62]] := by decide

private theorem fromStr_dash {b : UInt8} (hb : b ≠ 62) (t : Str) :
    fromStr amp (45 :: b :: t) = .ok none := by
  rw [fromStr_of_arm_ne (f := dashArm (chr b)) rfl (by simp [lit, hb]) (by simp [lit])]
  unfold dashArm
  split <;> rfl

/-- "->" is recognised by the comparison of the whole input, so only alone. -/
private theorem law_farrow (t : Str) :
    LongestMatchLaw amp (45 :: 62 :: t) ↔ Recognised amp (45 :: 62 :: t) := by
  cases t with
  | nil =>
    have hl : longest spellings [45, 62] = some [45, 62] := by decide
    exact recognise (o := .farrow) hl rfl (by decide) (handled_farrow.mpr rfl)
  | cons c t =>
    have hf : fromStr amp (45 :: 62 :: c :: t) = .ok none :=
      fromStr_of_arm_ne (f := .done) rfl (by simp [lit]) (by simp [lit])
    by_cases hc : c = 62
    · subst hc
      exact misread_at (q := [62, 62]) residual_dash (by simp [longest]) hf (by decide)
    · have hl := longest_at (q := [62]) (s := 62 :: c :: t) residual_dash
        (by simp [longest, Ne.symm hc])
      refine misread_none hl hf fun hh => ?_
      cases handled_farrow.mp hh

theorem law_dash (b : UInt8) (t : Str) :
    LongestMatchLaw amp (45 :: b :: t) ↔ Recognised amp (45 :: b :: t) := by
  by_cases hgt : b = 62
  · subst hgt
    exact law_farrow t
  have hf : fromStr amp (45 :: b :: t) = .ok none := fromStr_dash hgt t
  by_cases heq : b = 61
  · subst heq
    exact misread_at (q := [61]) residual_dash (by simp [longest]) hf (by decide)
  refine leave (longest_none_at residual_dash ?_) hf ⟨?_, by simp [lit], by simp [lit]⟩
  · simp [longest, Ne.symm heq, Ne.symm hgt]
  · cases t with
    | nil => exact ⟨by simp [lit], by simp [lit]⟩
    | cons c t => trivial

private theorem residual_amp : residual 38 spellings = [[38], [], [], [38]] := by decide

theorem law_amp (b : UInt8) (t : Str) :
    LongestMatchLaw amp (38 :: b :: t) ↔ Recognised amp (38 :: b :: t) := by
  by_cases hamp : b = 38
  · subst hamp
    have hl := longest_at (q := [38]) (s := 38 :: t) residual_amp (by cases t <;> simp [longest])
    cases amp with
    | first =>
      refine misread_none hl (fromStr_done rfl (by decide)) fun hh => ?_
      cases handled_dbl_amp.mp hh
    | second => exact recognise (o := .and) hl rfl (by decide) (handled_dbl_amp.mpr rfl)
  have harm : ampArm amp (chr b) = .done := by
    unfold ampArm
    split
    · next he => exact absurd he (chr_ne hamp)
    · rfl
  refine misread_at (q := []) (o := none) residual_amp ?_ ?_ (by decide)
  · simp [longest, Ne.symm hamp]
  · exact fromStr_done (congrArg Except.ok harm) (by decide)

private theorem residual_dot :
    residual 46 spellings = [[46], [46, 58], [46, 63], [46, 33], [46, 61], [46, 46]] := by decide

/-- After "..", every third byte is answered; only the one for "..?" is answered wrongly. -/
private theorem law_dot_dot (c : UInt8) (t : Str) :
    LongestMatchLaw amp (46 :: 46 :: c :: t) ↔ Recognised amp (46 :: 46 :: c :: t) := by
  by_cases hdot : c = 46
  · subst hdot
    exact recognise_at (q := [46, 46]) residual_dot (by simp [longest]) rfl (by decide)
  by_cases hcolon : c = 58
  · subst hcolon
    exact recognise_at (q := [46, 58]) residual_dot (by simp [longest]) rfl (by decide)
  by_cases heq : c = 61
  · subst heq
    exact recognise_at (q := [46, 61]) residual_dot (by simp [longest]) rfl (by decide)
  by_cases hexclm : c = 33
  · subst hexclm
    exact recognise_at (q := [46, 33]) residual_dot (by simp [longest]) rfl (by decide)
  by_cases hquery : c = 63
  · subst hquery
    exact misread_at (q := [46, 63]) residual_dot (by simp [longest]) rfl (by decide)
  have harm : dotDotArm (chr c) = .ret (some .rangePre) := by
    unfold dotDotArm
    split
    · next he => exact absurd he (chr_ne hdot)
    · next he => exact absurd he (chr_ne hcolon)
    · next he => exact absurd he (chr_ne heq)
    · next he => exact absurd he (chr_ne hexclm)
    · rfl
  have hl := longest_at (q := [46]) (s := 46 :: c :: t) residual_dot
    (by simp [longest, Ne.symm hdot, Ne.symm hcolon, Ne.symm heq, Ne.symm hexclm, Ne.symm hquery])
  refine recognise (o := .rangePre) hl ?_ (by decide) (handled_dot_dot.mpr trivial)
  exact fromStr_of_arm (f := .ret (some .rangePre)) (congrArg Except.ok harm)
    (by decide)

theorem law_dot (b : UInt8) (t : Str) (hc : Complete (46 :: b :: t)) :
    LongestMatchLaw amp (46 :: b :: t) ↔ Recognised amp (46 :: b :: t) := by
  by_cases hdot : b = 46
  · subst hdot
    cases t with
    | nil => exact absurd rfl hc.1
    | cons c t => exact law_dot_dot c t
  have hl : longest spellings (46 :: b :: t) = none :=
    longest_none_at residual_dot (by simp [longest, Ne.symm hdot])
  by_cases hspace : b = 32
  · subst hspace
    exact invent hl rfl fun ha => ha.2.2 ⟨t, rfl⟩
  have harm : dotArm (46 :: b :: t) (chr b) = .ok .done := by
    unfold dotArm
    split
    · next he => exact absurd he (chr_ne hdot)
    · next he => exact absurd he (chr_ne hspace)
    · rfl
  refine leave hl ?_ ⟨hc, by simp [lit], by simp [lit, Ne.symm hspace]⟩
  exact fromStr_done harm (by decide)

private theorem residual_colon :
    residual 58 spellings =
      [[59], [61], [61], [64], [35], [58, 35], [], [58], [], [58]] := by decide

/-- The arm for "::" answers with a tag that no comment spells "::". -/
private theorem law_colon_colon (c : UInt8) (t : Str) :
    LongestMatchLaw amp (58 :: 58 :: c :: t) ↔ Recognised amp (58 :: 58 :: c :: t) := by
  by_cases hhash : c = 35
  · subst hhash
    exact recognise_at (q := [58, 35]) residual_colon (by simp [longest]) rfl (by decide)
  have harm : colonColonArm (chr c) = .ret (some .dblColon) ∨ colonColonArm (chr c) = .done := by
    unfold colonColonArm
    split
    · next he => exact absurd he (chr_ne hhash)
    · split
      · exact Or.inl rfl
      · exact Or.inr rfl
  have hl : longest [[59], [61], [61], [64], [35], [58, 35], [], [58], [], [58]] (58 :: c :: t) =
      some [58] := by simp [longest, Ne.symm hhash]
  rcases harm with harm | harm
  · have hf : fromStr amp (58 :: 58 :: c :: t) = .ok (some .dblColon) :=
      fromStr_of_arm (f := .ret (some .dblColon)) (congrArg Except.ok harm) (by decide)
    exact misread_at residual_colon hl hf (by decide)
  · have hf : fromStr amp (58 :: 58 :: c :: t) = .ok none :=
      fromStr_done (congrArg Except.ok harm) (by decide)
    exact misread_at residual_colon hl hf (by decide)

theorem law_colon (b : UInt8) (t : Str) (hc : Complete (58 :: b :: t)) :
    LongestMatchLaw amp (58 :: b :: t) ↔ Recognised amp (58 :: b :: t) := by
  by_cases heq : b = 61
  · subst heq
    exact misread_at (q := [61]) residual_colon (by cases t <;> simp [longest]) rfl (by decide)
  by_cases hcolon : b = 58
  · subst hcolon
    cases t with
    | nil => exact absurd rfl hc.2
    | cons c t => exact law_colon_colon c t
  by_cases hat : b = 64
  · subst hat
    exact recognise_at (q := [64]) residual_colon (by simp [longest]) rfl (by decide)
  by_cases hhash : b = 35
  · subst hhash
    exact recognise_at (q := [35]) residual_colon (by simp [longest]) rfl (by decide)
  by_cases hsemi : b = 59
  · subst hsemi
    refine misread_at (q := [59]) (o := none) residual_colon (by simp [longest]) ?_ (by decide)
    exact fromStr_done rfl (by decide)
  have hl := longest_at (q := []) (s := b :: t) residual_colon
    (by simp [longest, Ne.symm heq, Ne.symm hcolon, Ne.symm hat, Ne.symm hhash, Ne.symm hsemi])
  by_cases hspace : b = 32
  · subst hspace
    exact misread hl rfl (by decide) fun hh => absurd (handled_colon.mp hh) (by simp [secondIs]; decide)
  have harm : colonArm (58 :: b :: t) (chr b) =
      .ok (if alnum (chr b) || chr b = '_' then .ret (some .tagged) else .done) := by
    unfold colonArm
    split
    · next he => exact absurd he (chr_ne heq)
    · next he => exact absurd he (chr_ne hspace)
    · next he => exact absurd he (chr_ne hcolon)
    · next he => exact absurd he (chr_ne hat)
    · next he => exact absurd he (chr_ne hhash)
    · rfl
  have hsecond : secondIs ident (58 :: b :: t) ↔ (alnum (chr b) || chr b = '_') = true := by
    simp [secondIs, ident]
  have hf : fromStr amp (58 :: b :: t) = .ok _ := fromStr_of_arm harm (by decide)
  by_cases hb : (alnum (chr b) || chr b = '_') = true
  · rw [if_pos hb] at hf
    exact recognise hl hf (by decide) (handled_colon.mpr (hsecond.mpr hb))
  · rw [if_neg hb] at hf
    exact misread_none hl hf fun hh => hb (hsecond.mp (handled_colon.mp hh))

end Idula.Lang.OpArms
