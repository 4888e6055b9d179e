import Mathlib.Logic.Function.Basic

/-! Machines that answer every input, and many of them side by side: what one of them
answers depends on its own inputs only. -/
namespace Idula.Library.Machines
variable {ι σ ε ο α : Type*}

structure Machine (σ ε ο : Type*) where
  step : σ → ε → σ × ο

/-- The answers along a run. -/
def Machine.outputs (m : Machine σ ε ο) : σ → List ε → List ο
  | _, [] => []
  | s, e :: es => (m.step s e).2 :: m.outputs (m.step s e).1 es

theorem outputs_cons (m : Machine σ ε ο) (s : σ) (e : ε) (es : List ε) :
    m.outputs s (e :: es) = (m.step s e).2 :: m.outputs (m.step s e).1 es := rfl

variable [DecidableEq ι] {i : ι}

/-- The part of a sequence that carries the name i. -/
def own (i : ι) (xs : List (ι × α)) : List α :=
  xs.filterMap fun x => if x.1 = i then some x.2 else none

theorem own_cons_self (i : ι) (x : α) (xs : List (ι × α)) : own i ((i, x) :: xs) = x :: own i xs := by
  simp [own]

theorem own_cons_ne {j : ι} (h : j ≠ i) (x : α) (xs : List (ι × α)) :
    own i ((j, x) :: xs) = own i xs := by
  simp [own, h]

/-- One copy of the machine for every name. -/
def Machine.product (m : Machine σ ε ο) : Machine (ι → σ) (ι × ε) (ι × ο) where
  step s e := (Function.update s e.1 (m.step (s e.1) e.2).1, (e.1, (m.step (s e.1) e.2).2))

/-- What the copy i answers among the others is what it answers alone. -/
theorem own_outputs_product (m : Machine σ ε ο) (i : ι) (s : ι → σ) (es : List (ι × ε)) :
    own i (m.product.outputs s es) = m.outputs (s i) (own i es) := by
  induction es generalizing s with
  | nil => rfl
  | cons e es ih =>
    obtain ⟨j, x⟩ := e
    rw [outputs_cons]
    by_cases h : j = i
    · subst h
      rw [own_cons_self, outputs_cons]
      refine (own_cons_self j _ _).trans ?_
      rw [ih]
      simp [Machine.product]
    · rw [own_cons_ne h]
      refine (own_cons_ne h _ _).trans ?_
      rw [ih]
      simp [Machine.product, Function.update_of_ne (Ne.symm h)]

/-- Copies do not interfere: two runs with the same inputs of i have the same answers of i. -/
theorem product_noninterfering (m : Machine σ ε ο) (s : ι → σ) {es es' : List (ι × ε)}
    (h : own i es = own i es') : own i (m.product.outputs s es) = own i (m.product.outputs s es') := by
  rw [own_outputs_product, own_outputs_product, h]

end Idula.Library.Machines
