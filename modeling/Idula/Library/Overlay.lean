import Mathlib.Data.List.Infix

/-! Successive writes to the front of one shared block, and which of the written
strings can still be read back there. -/
namespace Idula.Library.Overlay
variable {α : Type*} {keep : List α → Bool} {a b w : List α} {ws : List (List α)}

/-- The block b after w has been written over its front. -/
def overlay (w b : List α) : List α := w ++ b.drop w.length

/-- One of the two strings continues the other. -/
def Nested (a w : List α) : Prop := a <+: w ∨ w <+: a

instance [DecidableEq α] (a w : List α) : Decidable (Nested a w) :=
  inferInstanceAs (Decidable (a <+: w ∨ w <+: a))

theorem overlay_length (h : w.length ≤ b.length) : (overlay w b).length = b.length := by
  simp only [overlay, List.length_append, List.length_drop]
  omega

theorem prefix_overlay (w b : List α) : w <+: overlay w b := List.prefix_append w _

theorem take_overlay (w b : List α) : (overlay w b).take w.length = w := List.take_left

/-- A string read at the front survives a write exactly when the two are nested. -/
theorem prefix_overlay_iff (h : a <+: b) : a <+: overlay w b ↔ Nested a w := by
  constructor
  · exact fun ha => List.prefix_or_prefix_of_prefix ha (prefix_overlay w b)
  · rintro (ha | hw)
    · exact ha.trans (prefix_overlay w b)
    · obtain ⟨t, rfl⟩ := hw
      obtain ⟨u, rfl⟩ := h
      rw [overlay, List.append_assoc, List.drop_left, ← List.append_assoc]
      exact List.prefix_append _ u

/-- The block after a sequence of writes. -/
def overlays (b : List α) (ws : List (List α)) : List α := ws.foldl (fun b w => overlay w b) b

@[simp] theorem overlays_concat (b : List α) (ws : List (List α)) (w : List α) :
    overlays b (ws ++ [w]) = overlay w (overlays b ws) := by
  simp [overlays]

/-- Every kept string can be read at the front of b. -/
def Readable (keep : List α → Bool) (ws : List (List α)) (b : List α) : Prop :=
  ∀ a ∈ ws.filter keep, a <+: b

/-- A kept string is nested with what is written after it. -/
def Survives (keep : List α → Bool) (a w : List α) : Prop := keep a = true → Nested a w

private theorem readable_concat (h : Readable keep ws b) :
    Readable keep (ws ++ [w]) (overlay w b) ↔ ∀ a ∈ ws, Survives keep a w := by
  constructor
  · intro hr a ha hk
    have hm : a ∈ ws.filter keep := List.mem_filter.mpr ⟨ha, hk⟩
    apply (prefix_overlay_iff (h a hm)).mp
    apply hr
    rw [List.filter_append]
    exact List.mem_append_left _ hm
  · intro hs a ha
    rw [List.filter_append, List.mem_append] at ha
    rcases ha with ha | ha
    · obtain ⟨hm, hk⟩ := List.mem_filter.mp ha
      exact (prefix_overlay_iff (h a ha)).mpr (hs a hm hk)
    · rw [List.mem_singleton.mp (List.mem_filter.mp ha).1]
      exact prefix_overlay w b

/-- A statement about every initial part of a run, one step further. -/
theorem forall_take_concat {β : Type*} (P : List β → Prop) (ws : List β) (w : β) :
    (∀ k, P ((ws ++ [w]).take k)) ↔ (∀ k, P (ws.take k)) ∧ P (ws ++ [w]) := by
  have hcut (k : Nat) (hk : k ≤ ws.length) : (ws ++ [w]).take k = ws.take k :=
    List.take_append_of_le_length hk
  constructor
  · intro h
    refine ⟨fun k => ?_, ?_⟩
    · have hk := h (min k ws.length)
      rw [hcut _ (Nat.min_le_right _ _)] at hk
      rwa [List.take_eq_take_min]
    · have hk := h (ws ++ [w]).length
      rwa [List.take_length] at hk
  · rintro ⟨hp, hl⟩ k
    rcases Nat.lt_or_ge ws.length k with hk | hk
    · rwa [List.take_of_length_le (by rw [List.length_append, List.length_singleton]; omega)]
    · rw [hcut k hk]
      exact hp k

/-- At every moment of a run all the kept strings can be read back exactly when each
of them is nested with every later write. -/
theorem readable_iff (keep : List α → Bool) (b : List α) (ws : List (List α)) :
    (∀ k, Readable keep (ws.take k) (overlays b (ws.take k))) ↔ ws.Pairwise (Survives keep) := by
  induction ws using List.reverseRecOn with
  | nil => simp [Readable]
  | append_singleton ws w ih =>
    rw [forall_take_concat fun us => Readable keep us (overlays b us), ih, List.pairwise_append]
    have hlast (hp : ws.Pairwise (Survives keep)) :
        Readable keep (ws ++ [w]) (overlays b (ws ++ [w])) ↔ ∀ a ∈ ws, Survives keep a w := by
      have hr := ih.mpr hp ws.length
      rw [List.take_length] at hr
      rw [overlays_concat]
      exact readable_concat hr
    constructor
    · rintro ⟨hp, hr⟩
      have hs := (hlast hp).mp hr
      exact ⟨hp, List.pairwise_singleton _ _, fun a ha v hv => List.mem_singleton.mp hv ▸ hs a ha⟩
    · rintro ⟨hp, _, hs⟩
      exact ⟨hp, (hlast hp).mpr fun a ha => hs a ha w (List.mem_singleton.mpr rfl)⟩

end Idula.Library.Overlay
