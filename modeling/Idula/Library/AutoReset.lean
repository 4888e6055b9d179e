import Idula.Library.Schedules

/-! Threads that share a state and wait for one another on events that reset themselves: a
set wakes the thread that waits or is kept for the next wait, and a second thread that waits
is a panic. -/
namespace Idula.Library.AutoReset
open Schedules
variable {τ ε α σ : Type*}

inductive Event (τ : Type*)
  | unset
  | set
  | waiting (t : τ)

inductive Instr (ε α : Type*)
  | act (a : α)
  | set (e : ε)
  | wait (e : ε)
  deriving DecidableEq

structure State (τ ε α σ : Type*) where
  shared : σ
  events : ε → Event τ
  progs : τ → List (Instr ε α)
  panicked : Bool

def Instr.IsWait [DecidableEq ε] (e : ε) : Instr ε α → Bool
  | .wait e' => e' = e
  | .act _ | .set _ => false

/-- The instructions from the first wait for e on. -/
def fromWait [DecidableEq ε] (e : ε) (is : List (Instr ε α)) : List (Instr ε α) :=
  is.dropWhile fun i => !i.IsWait e

variable [DecidableEq τ] [DecidableEq ε]

/-- One instruction of the thread t; perform says what its actions do to the shared state. A
parked thread keeps its wait until it is woken. -/
def step (perform : τ → α → σ → σ) (s : State τ ε α σ) (t : τ) : Option (State τ ε α σ) :=
  if s.panicked then none
  else
    match s.progs t with
    | [] => none
    | .act a :: is =>
      some { s with shared := perform t a s.shared, progs := Function.update s.progs t is }
    | .set e :: is =>
      match s.events e with
      | .unset => some { s with
          events := Function.update s.events e .set, progs := Function.update s.progs t is }
      | .set => some { s with progs := Function.update s.progs t is }
      | .waiting u => some { s with
          events := Function.update s.events e .unset
          progs := Function.update (Function.update s.progs t is) u (s.progs u).tail }
    | .wait e :: is =>
      match s.events e with
      | .unset => some { s with events := Function.update s.events e (.waiting t) }
      | .set => some { s with
          events := Function.update s.events e .unset, progs := Function.update s.progs t is }
      | .waiting u => if u = t then none else some { s with panicked := true }

def threads (perform : τ → α → σ → σ) : System (State τ ε α σ) τ := ⟨step perform⟩

/-- The thread that an event holds is at a wait for it. -/
def Parked (s : State τ ε α σ) : Prop :=
  ∀ e t, s.events e = .waiting t → ∃ is, s.progs t = .wait e :: is

/-- What the thread t can do in a state whose events hold the threads they should: act, set an
event for nobody or for the thread that waits, pass a wait or park at it, or panic. -/
inductive Move (perform : τ → α → σ → σ) (s : State τ ε α σ) (t : τ) : State τ ε α σ → Prop
  | act {a : α} {is : List (Instr ε α)} (hi : s.progs t = .act a :: is) : Move perform s t
      { s with shared := perform t a s.shared, progs := Function.update s.progs t is }
  | keep {e : ε} {is : List (Instr ε α)} (hi : s.progs t = .set e :: is)
      (he : ∀ u, s.events e ≠ .waiting u) : Move perform s t
      { s with events := Function.update s.events e .set, progs := Function.update s.progs t is }
  | wake {e : ε} {is js : List (Instr ε α)} {u : τ} (hi : s.progs t = .set e :: is)
      (he : s.events e = .waiting u) (hu : u ≠ t) (hj : s.progs u = .wait e :: js) : Move perform s t
      { s with events := Function.update s.events e .unset
               progs := Function.update (Function.update s.progs t is) u js }
  | pass {e : ε} {is : List (Instr ε α)} (hi : s.progs t = .wait e :: is) (he : s.events e = .set) :
      Move perform s t
      { s with events := Function.update s.events e .unset, progs := Function.update s.progs t is }
  | park {e : ε} {is : List (Instr ε α)} (hi : s.progs t = .wait e :: is) (he : s.events e = .unset) :
      Move perform s t { s with events := Function.update s.events e (.waiting t) }
  | panic {e : ε} {is : List (Instr ε α)} {u : τ} (hi : s.progs t = .wait e :: is)
      (he : s.events e = .waiting u) (hu : u ≠ t) : Move perform s t { s with panicked := true }

variable {perform : τ → α → σ → σ} {s s' : State τ ε α σ} {t : τ} {e : ε} {is : List (Instr ε α)}
  {ts : List τ}

theorem move_of_step (h : Parked s) (hs : step perform s t = some s') :
    s.panicked = false ∧ Move perform s t s' := by
  unfold step at hs
  by_cases hp : s.panicked
  · simp [hp] at hs
  rw [if_neg hp] at hs
  refine ⟨by simpa using hp, ?_⟩
  split at hs
  · cases hs
  · cases hs
    exact .act ‹_›
  · rename_i e is hi
    split at hs
    · rename_i he
      cases hs
      exact .keep hi (by simp [he])
    · rename_i he
      have hk : Move perform s t _ := .keep hi (by simp [he])
      rw [Function.update_eq_self_iff.mpr he.symm] at hk
      cases hs
      exact hk
    · rename_i u he
      obtain ⟨js, hu⟩ := h e u he
      have hne : u ≠ t := by
        rintro rfl
        rw [hi] at hu
        cases hu
      rw [hu] at hs
      cases hs
      exact .wake hi he hne hu
  · rename_i e is hi
    split at hs
    · cases hs
      exact .park hi ‹_›
    · cases hs
      exact .pass hi ‹_›
    · rename_i u he
      by_cases hu : u = t
      · simp [hu] at hs
      · rw [if_neg hu] at hs
        cases hs
        exact .panic hi he hu

theorem parked_step (h : Parked s) (hs : step perform s t = some s') : Parked s' := by
  have hmoves : ∀ {e u is}, s.progs t = is → s.events e = .waiting u → (∀ js, is ≠ .wait e :: js) →
      u ≠ t := by
    rintro e u is hi he hn rfl
    obtain ⟨js, hu⟩ := h e u he
    exact hn js (hi.symm.trans hu)
  obtain ⟨-, hm⟩ := move_of_step h hs
  intro e' u he'
  cases hm with
  | act hi =>
    obtain ⟨js, hu⟩ := h e' u he'
    exact ⟨js, by simpa [hmoves hi he' (by simp)] using hu⟩
  | @keep e is hi he =>
    by_cases hee : e' = e
    · simp [hee] at he'
    · have he' : s.events e' = .waiting u := by simpa [hee] using he'
      obtain ⟨js, hu⟩ := h e' u he'
      exact ⟨js, by simpa [hmoves hi he' (by simp)] using hu⟩
  | @wake e is js v hi he hv hj =>
    by_cases hee : e' = e
    · simp [hee] at he'
    · have he' : s.events e' = .waiting u := by simpa [hee] using he'
      obtain ⟨ks, hu⟩ := h e' u he'
      have huv : u ≠ v := by
        rintro rfl
        rw [hj] at hu
        cases hu
        exact hee rfl
      exact ⟨ks, by simpa [huv, hmoves hi he' (by simp)] using hu⟩
  | @pass e is hi he =>
    by_cases hee : e' = e
    · simp [hee] at he'
    · have he' : s.events e' = .waiting u := by simpa [hee] using he'
      obtain ⟨js, hu⟩ := h e' u he'
      have hut := hmoves hi he' fun js hj => hee (by cases hj; rfl)
      exact ⟨js, by simpa [hut] using hu⟩
  | @park e is hi he =>
    by_cases hee : e' = e
    · subst hee
      obtain rfl : t = u := by simpa using he'
      exact ⟨is, hi⟩
    · exact h e' u (by simpa [hee] using he')
  | panic hi he hu => exact h e' u he'

/-- Programs are only consumed, an instruction at a time: the mover's own, and the wait of the
thread that it wakes. -/
theorem progs_step (h : Parked s) (hs : step perform s t = some s') (u : τ) :
    s'.progs u = s.progs u ∨ ∃ i, s.progs u = i :: s'.progs u ∧
      ∀ e, i.IsWait e → s.events e = .set ∨ ∃ v, .set e ∈ s.progs v := by
  obtain ⟨-, hm⟩ := move_of_step h hs
  have hown : ∀ {i is}, s.progs t = i :: is → s'.progs = Function.update s.progs t is →
      (∀ e, i.IsWait e → s.events e = .set ∨ ∃ v, .set e ∈ s.progs v) →
      s'.progs u = s.progs u ∨ ∃ i, s.progs u = i :: s'.progs u ∧
        ∀ e, i.IsWait e → s.events e = .set ∨ ∃ v, .set e ∈ s.progs v := by
    intro i is hi hp hw
    by_cases hu : u = t
    · subst hu
      exact .inr ⟨i, by simpa [hp] using hi, hw⟩
    · exact .inl (by simp [hp, hu])
  cases hm with
  | act hi => exact hown hi rfl fun e he => nomatch he
  | keep hi he => exact hown hi rfl fun e he => nomatch he
  | pass hi he =>
    refine hown hi rfl fun e' hw => .inl ?_
    obtain rfl : _ = e' := of_decide_eq_true hw
    exact he
  | @wake e is js v hi he hv hj =>
    by_cases huv : u = v
    · subst huv
      refine .inr ⟨_, by simpa using hj, fun e' hw => .inr ⟨t, ?_⟩⟩
      obtain rfl : _ = e' := of_decide_eq_true hw
      exact hi ▸ List.mem_cons_self
    · by_cases hu : u = t
      · subst hu
        exact .inr ⟨.set e, by simpa [huv] using hi, fun e he => nomatch he⟩
      · exact .inl (by simp [hu, huv])
  | park hi he => exact .inl rfl
  | panic hi he hu => exact .inl rfl

theorem suffix_step (h : Parked s) (hs : step perform s t = some s') (u : τ) :
    s'.progs u <:+ s.progs u := by
  obtain he | ⟨i, he, -⟩ := progs_step h hs u
  · rw [he]
  · rw [he]
    exact List.suffix_cons i _

/-- A move that is no action leaves the shared state, and the actions that are still to come. -/
theorem acts_step (h : Parked s) (hs : step perform s t = some s') :
    (s'.shared = s.shared ∧ ∀ u a, .act a ∈ s'.progs u ↔ .act a ∈ s.progs u) ∨
    ∃ a is, s.progs t = .act a :: is ∧
      s' = { s with shared := perform t a s.shared, progs := Function.update s.progs t is } := by
  obtain ⟨-, hm⟩ := move_of_step h hs
  have hown : ∀ {i : Instr ε α} {is u a}, s.progs t = i :: is → .act a ≠ i →
      (.act a ∈ Function.update s.progs t is u ↔ .act a ∈ s.progs u) := by
    intro i is u a hi ha
    by_cases hu : u = t
    · subst hu
      simp [hi, ha]
    · simp [hu]
  cases hm with
  | act hi => exact .inr ⟨_, _, hi, rfl⟩
  | keep hi he => exact .inl ⟨rfl, fun u a => hown hi (by simp)⟩
  | pass hi he => exact .inl ⟨rfl, fun u a => hown hi (by simp)⟩
  | @wake e is js v hi he hv hj =>
    refine .inl ⟨rfl, fun u a => ?_⟩
    by_cases huv : u = v
    · subst huv
      simp [hj]
    · simpa [huv] using hown hi (by simp)
  | park hi he => exact .inl ⟨rfl, fun u a => Iff.rfl⟩
  | panic hi he hu => exact .inl ⟨rfl, fun u a => Iff.rfl⟩

/-- The event e is not set, and nobody will set it. -/
structure Unset (e : ε) (s : State τ ε α σ) : Prop where
  parked : Parked s
  not_set : s.events e ≠ .set
  no_set : ∀ t, .set e ∉ s.progs t

theorem not_set_step (h : Unset e s) (hs : step perform s t = some s') : s'.events e ≠ .set := by
  obtain ⟨-, hm⟩ := move_of_step h.parked hs
  have hne := h.not_set
  cases hm with
  | act hi => exact hne
  | @keep e' is hi he =>
    have hee : e ≠ e' := by
      rintro rfl
      exact h.no_set t (hi ▸ List.mem_cons_self)
    simpa [hee] using hne
  | @wake e' is js v hi he hv hj =>
    by_cases hee : e = e'
    · simp [hee]
    · simpa [hee] using hne
  | @pass e' is hi he =>
    by_cases hee : e = e'
    · simp [hee]
    · simpa [hee] using hne
  | @park e' is hi he =>
    by_cases hee : e = e'
    · simp [hee]
    · simpa [hee] using hne
  | panic hi he hu => exact hne

theorem fromWait_cons {i : Instr ε α} (h : i.IsWait e = false) : fromWait e (i :: is) = fromWait e is :=
  List.dropWhile_cons_of_pos (by simp [h])

/-- A program that has come to its first wait for e still has it. -/
theorem ne_nil_of_fromWait {js : List (Instr ε α)} (h : fromWait e is = .wait e :: js) : is ≠ [] := by
  rintro rfl
  cases h

/-- An event that nobody sets lets nobody past: each thread keeps its first wait for e, and all that
comes after it. -/
theorem Unset.step (h : Unset e s) (hs : step perform s t = some s') :
    Unset e s' ∧ ∀ u, fromWait e (s'.progs u) = fromWait e (s.progs u) := by
  refine ⟨⟨parked_step h.parked hs, not_set_step h hs, fun u hm => ?_⟩, fun u => ?_⟩
  · exact h.no_set u ((suffix_step h.parked hs u).subset hm)
  · obtain he | ⟨i, he, hw⟩ := progs_step h.parked hs u
    · rw [he]
    · have hi : i.IsWait e = false := by
        by_contra hi
        obtain hse | ⟨v, hv⟩ := hw e (by simpa using hi)
        · exact h.not_set hse
        · exact h.no_set v hv
      rw [he, fromWait_cons hi]

/-- Where nobody can move there was a panic, or every thread has ended or is parked. -/
theorem stuck_iff : (threads perform).Stuck s ↔ s.panicked = true ∨ ∀ t, s.progs t = [] ∨
    ∃ e is, s.progs t = .wait e :: is ∧ s.events e = .waiting t := by
  constructor
  · intro hst
    refine or_iff_not_imp_left.mpr fun hp t => ?_
    have ht : Library.AutoReset.step perform s t = none := hst t
    unfold Library.AutoReset.step at ht
    rw [if_neg hp] at ht
    split at ht
    · exact .inl ‹_›
    · cases ht
    · split at ht <;> cases ht
    · split at ht
      · cases ht
      · cases ht
      · split at ht
        · rename_i e is hi _ u he hu
          exact .inr ⟨e, is, hi, hu ▸ he⟩
        · cases ht
  · rintro (hp | hall) t
    · exact if_pos hp
    · change Library.AutoReset.step perform s t = none
      unfold Library.AutoReset.step
      obtain hn | ⟨e, is, hi, he⟩ := hall t
      · simp [hn]
      · simp [hi, he]

/-- A panic takes two threads. -/
theorem not_panicked_run [Subsingleton τ] (h : Parked s) (hp : s.panicked = false)
    (hr : (threads perform).run s ts = some s') : s'.panicked = false := by
  refine (run_invariant (P := fun s' => Parked s' ∧ s'.panicked = false) ?_ ⟨h, hp⟩ hr).2
  rintro s₁ t s₂ ⟨h₁, hp₁⟩ hs
  refine ⟨parked_step h₁ hs, ?_⟩
  cases (move_of_step h₁ hs).2 with
  | panic hi he hu => exact absurd (Subsingleton.elim _ t) hu
  | _ => exact hp₁

/-- What an event that holds no thread can still do: hold one. -/
def Event.rank : Event τ → Nat
  | .unset | .set => 1
  | .waiting _ => 0

/-- A bound on the moves that are left. -/
def State.rank [Fintype τ] [Fintype ε] (s : State τ ε α σ) : Nat :=
  (if s.panicked then 0 else 1) + 2 * ∑ t, (s.progs t).length + ∑ e, (s.events e).rank

variable [Fintype τ] [Fintype ε]

theorem rank_step (h : Parked s) (hs : step perform s t = some s') : s'.rank < s.rank := by
  obtain ⟨hp, hm⟩ := move_of_step h hs
  cases hm with
  | @act a is hi =>
    have hl := sum_update List.length s.progs t is
    simp only [hi, List.length_cons] at hl
    simp only [State.rank]
    omega
  | @keep e is hi hu =>
    have hl := sum_update List.length s.progs t is
    have hv := sum_update Event.rank s.events e .set
    have hr : (s.events e).rank = 1 := by
      cases he : s.events e with
      | unset => rfl
      | set => rfl
      | waiting u => exact absurd he (hu u)
    simp only [hi, List.length_cons] at hl
    rw [hr, show Event.rank (.set : Event τ) = 1 from rfl] at hv
    simp only [State.rank]
    omega
  | @wake e is js v hi hv hvt hj =>
    have hl := sum_update List.length s.progs t is
    have hl' := sum_update List.length (Function.update s.progs t is) v js
    have hv' := sum_update Event.rank s.events e .unset
    simp only [hi, List.length_cons] at hl
    rw [Function.update_of_ne hvt, hj, List.length_cons] at hl'
    rw [hv, show Event.rank (.unset : Event τ) = 1 from rfl,
      show (Event.waiting v).rank = 0 from rfl] at hv'
    simp only [State.rank]
    omega
  | @pass e is hi he =>
    have hl := sum_update List.length s.progs t is
    have hv := sum_update Event.rank s.events e .unset
    simp only [hi, List.length_cons] at hl
    rw [he, show Event.rank (.unset : Event τ) = 1 from rfl,
      show Event.rank (.set : Event τ) = 1 from rfl] at hv
    simp only [State.rank]
    omega
  | @park e is hi he =>
    have hv := sum_update Event.rank s.events e (.waiting t)
    rw [he, show Event.rank (.unset : Event τ) = 1 from rfl,
      show (Event.waiting t).rank = 0 from rfl] at hv
    simp only [State.rank]
    omega
  | panic hi he hu => simp [State.rank, hp]

/-- Every run ends: waiting threads only wait. -/
theorem run_bounded (h : Parked s) (hr : (threads perform).run s ts = some s') :
    ts.length + s'.rank ≤ s.rank :=
  run_length_le (fun _ _ _ hp hs => ⟨parked_step hp hs, rank_step hp hs⟩) h hr

end Idula.Library.AutoReset
