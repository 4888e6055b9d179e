import Mathlib.Algebra.BigOperators.Fin

/-! Systems whose next step is a scheduler's choice: runs along a schedule, what holds of
all the states that they reach, and how they end. -/
namespace Idula.Library.Schedules
variable {σ τ : Type*}

/-- step s t is the state after the thread t has moved, if it can move. -/
structure System (σ τ : Type*) where
  step : σ → τ → Option σ

/-- The run along a schedule, all of whose moves are possible. -/
def System.run (sys : System σ τ) : σ → List τ → Option σ
  | s, [] => some s
  | s, t :: ts => (sys.step s t).bind fun s' => sys.run s' ts

/-- No thread can move. -/
def System.Stuck (sys : System σ τ) (s : σ) : Prop := ∀ t, sys.step s t = none

variable {sys : System σ τ} {s s' u : σ} {t : τ} {ts us : List τ}

@[simp] theorem run_nil : sys.run s [] = some s := rfl

theorem run_cons : sys.run s (t :: ts) = (sys.step s t).bind fun s' => sys.run s' ts := rfl

theorem run_of_step (h : sys.step s t = some s') : sys.run s (t :: ts) = sys.run s' ts := by
  rw [run_cons, h]
  rfl

theorem run_append_of_eq (h : sys.run s ts = some s') : sys.run s (ts ++ us) = sys.run s' us := by
  induction ts generalizing s with
  | nil =>
    cases h
    rfl
  | cons t ts ih =>
    rw [run_cons] at h
    obtain ⟨u, hu, hr⟩ := Option.bind_eq_some_iff.mp h
    rw [List.cons_append, run_of_step hu]
    exact ih hr

private theorem run_history_from {P : List τ → σ → Prop}
    (hs : ∀ us s t s', P us s → sys.step s t = some s' → P (us ++ [t]) s')
    (h0 : P us s) (h : sys.run s ts = some s') : P (us ++ ts) s' := by
  induction ts generalizing us s with
  | nil =>
    cases h
    rwa [List.append_nil]
  | cons t ts ih =>
    obtain ⟨u, hu, hr⟩ := Option.bind_eq_some_iff.mp h
    rw [← List.singleton_append, ← List.append_assoc]
    exact ih (hs us s t u h0 hu) hr

/-- What every move preserves of a state and of the moves that led to it. -/
theorem run_history {P : List τ → σ → Prop}
    (hs : ∀ us s t s', P us s → sys.step s t = some s' → P (us ++ [t]) s')
    (h0 : P [] s) (h : sys.run s ts = some s') : P ts s' :=
  run_history_from hs h0 h

/-- What every move preserves holds along every run. -/
theorem run_invariant {P : σ → Prop} (hs : ∀ s t s', P s → sys.step s t = some s' → P s')
    (h0 : P s) (h : sys.run s ts = some s') : P s' :=
  run_history (P := fun _ => P) (fun _ => hs) h0 h

/-- A potential that every move lowers bounds the length of a run. -/
theorem run_length_le {P : σ → Prop} {rank : σ → Nat}
    (hs : ∀ s t s', P s → sys.step s t = some s' → P s' ∧ rank s' < rank s)
    (h0 : P s) (h : sys.run s ts = some s') : ts.length + rank s' ≤ rank s := by
  refine (run_history (P := fun us s' => P s' ∧ us.length + rank s' ≤ rank s) ?_
    ⟨h0, Nat.le_of_eq (Nat.zero_add _)⟩ h).2
  rintro us s₁ t s₂ ⟨hp, hle⟩ hst
  obtain ⟨hp', hk⟩ := hs s₁ t s₂ hp hst
  refine ⟨hp', ?_⟩
  rw [List.length_append, List.length_singleton]
  omega

/-- A sum over the threads when the state of one of them changes. -/
theorem sum_update {ι α : Type*} [Fintype ι] [DecidableEq ι] (g : α → Nat) (f : ι → α) (i : ι) (a : α) :
    ∑ j, g (Function.update f i a j) + g (f i) = ∑ j, g (f j) + g a := by
  have hi := Finset.mem_univ i
  have ho : ∀ j ∈ Finset.univ \ {i}, g (Function.update f i a j) = g (f j) := by
    intro j hm
    rw [Function.update_of_ne (by simpa using hm)]
  rw [Finset.sum_eq_add_sum_sdiff_singleton_of_mem hi, Finset.sum_congr rfl ho, Function.update_self,
    Finset.sum_eq_add_sum_sdiff_singleton_of_mem hi fun j => g (f j)]
  omega

end Idula.Library.Schedules
