import Mathlib.Data.List.Basic

/-! Sequences of fallible steps without a rollback: what the steps before a failure did stays
done, and when a second attempt changes nothing. -/
namespace Idula.Library.Attempts
variable {σ ε : Type*}

/-- The state that the steps leave up to the first that fails, and its error. -/
def attempt : List (σ → Except ε σ) → σ → σ × Option ε
  | [], s => (s, none)
  | f :: fs, s =>
    match f s with
    | .ok s' => attempt fs s'
    | .error e => (s, some e)

/-- A step that changes nothing, whether it fails or not. -/
def Quiet (f : σ → Except ε σ) (s : σ) : Prop := ∀ s', f s = .ok s' → s' = s

variable {f g : σ → Except ε σ} {fs gs : List (σ → Except ε σ)} {s s' : σ} {e : ε}

@[simp] theorem attempt_nil : attempt ([] : List (σ → Except ε σ)) s = (s, none) := rfl

theorem attempt_ok (h : f s = .ok s') : attempt (f :: fs) s = attempt fs s' := by
  rw [attempt, h]

theorem attempt_error (h : f s = .error e) : attempt (f :: fs) s = (s, some e) := by
  rw [attempt, h]

theorem attempt_append_of_done (h : attempt fs s = (s', none)) :
    attempt (fs ++ gs) s = attempt gs s' := by
  induction fs generalizing s with
  | nil =>
    cases h
    rfl
  | cons f fs ih =>
    cases hf : f s with
    | ok u =>
      rw [attempt_ok hf] at h
      rw [List.cons_append, attempt_ok hf]
      exact ih h
    | error e =>
      rw [attempt_error hf] at h
      cases h

theorem attempt_append_of_failed (h : attempt fs s = (s', some e)) :
    attempt (fs ++ gs) s = (s', some e) := by
  induction fs generalizing s with
  | nil => cases h
  | cons f fs ih =>
    cases hf : f s with
    | ok u =>
      rw [attempt_ok hf] at h
      rw [List.cons_append, attempt_ok hf]
      exact ih h
    | error e =>
      rw [attempt_error hf] at h
      rw [List.cons_append, attempt_error hf, h]

/-- An attempt that goes through is a composition of the steps. -/
theorem foldlM_eq_ok_iff :
    fs.foldlM (fun s f => f s) s = .ok s' ↔ attempt fs s = (s', none) := by
  induction fs generalizing s with
  | nil => simp [pure, Except.pure]
  | cons f fs ih =>
    cases hf : f s with
    | ok u =>
      rw [attempt_ok hf, ← ih, List.foldlM_cons, hf]
      rfl
    | error e =>
      rw [attempt_error hf, List.foldlM_cons, hf]
      simp [bind, Except.bind]

/-- What every step preserves holds of what an attempt leaves. -/
theorem attempt_invariant {P : σ → Prop} (hs : ∀ f ∈ fs, ∀ s s', P s → f s = .ok s' → P s')
    (h : P s) : P (attempt fs s).1 := by
  induction fs generalizing s with
  | nil => exact h
  | cons f fs ih =>
    cases hf : f s with
    | ok u =>
      rw [attempt_ok hf]
      exact ih (fun g hg => hs g (List.mem_cons_of_mem f hg)) (hs f List.mem_cons_self s u h hf)
    | error e =>
      rw [attempt_error hf]
      exact h

/-- Where a step that was done is quiet from then on, a second attempt changes nothing. -/
theorem attempt_attempt (hd : ∀ f ∈ fs, ∀ s s', f s = .ok s' → Quiet f s')
    (hk : fs.Pairwise fun f g => ∀ s s', Quiet f s → g s = .ok s' → Quiet f s') :
    (attempt fs (attempt fs s).1).1 = (attempt fs s).1 := by
  induction fs generalizing s with
  | nil => rfl
  | cons f fs ih =>
    obtain ⟨hf, hk⟩ := List.pairwise_cons.mp hk
    cases hs : f s with
    | ok u =>
      rw [attempt_ok hs]
      have hq : Quiet f (attempt fs u).1 :=
        attempt_invariant (P := Quiet f) (fun g hg => hf g hg) (hd f List.mem_cons_self s u hs)
      cases he : f (attempt fs u).1 with
      | ok v =>
        rw [attempt_ok he, hq v he]
        exact ih (fun g hg => hd g (List.mem_cons_of_mem f hg)) hk
      | error e => rw [attempt_error he]
    | error e => rw [attempt_error hs, attempt_error hs]

end Idula.Library.Attempts
