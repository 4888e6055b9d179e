import Mathlib.Algebra.Order.BigOperators.Group.Finset
import Idula.Library.AutoReset

/-! The Context that a sender and a receiver are to share: both wait for recv, which neither
of them sets. -/
namespace Idula.Cli.Context
open Library Library.Schedules Library.AutoReset

/-- The two events of a Context. -/
inductive Ev
  | recv | send
  deriving DecidableEq

instance : Fintype Ev := ⟨{.recv, .send}, fun e => by cases e <;> simp⟩

/-- What a call does with step: std.debug.print gets the value that was read as an argument, and
prints it when it has its turn. -/
inductive Act
  | load
  | print (k : Nat)
  | store (v : Nat)
  deriving DecidableEq

/-- What the calls on one Context share, what each has read of it last, and what they print. -/
structure Shared (τ : Type*) where
  step : Nat
  seen : τ → Nat
  out : List String

def valueLine (k v : Nat) : String :=
  "Context value (" ++ toString k ++ "): " ++ toString v

variable {τ : Type*}

def perform [DecidableEq τ] (t : τ) : Act → Shared τ → Shared τ
  | .load, x => { x with seen := Function.update x.seen t x.step }
  | .print k, x => { x with out := x.out ++ [valueLine k (x.seen t)] }
  | .store v, x => { x with step := v }

def sender : List (Instr Ev Act) :=
  [.act .load, .act (.print 0), .act (.store 1), .set .send, .wait .recv,
    .act .load, .act (.print 2), .act (.store 3), .set .send, .wait .recv,
    .act .load, .act (.print 4)]

def receiver : List (Instr Ev Act) := [.wait .recv]

def run : List (Instr Ev Act) := sender

/-- What a thread calls on the Context. -/
inductive Call
  | sender | receiver | run
  deriving DecidableEq

def Call.body : Call → List (Instr Ev Act)
  | .sender => Context.sender
  | .receiver => Context.receiver
  | .run => Context.run

/-- A fresh Context and the threads that call its functions. -/
def start (calls : τ → Call) : State τ Ev Act (Shared τ) :=
  ⟨⟨0, fun _ => 0, []⟩, fun _ => .unset, fun t => (calls t).body, false⟩

/-- How far the lines have come that the threads ps have printed, in this order. -/
structure Printed (calls : τ → Call) (s : State τ Ev Act (Shared τ)) (ps : List τ) : Prop where
  nodup : ps.Nodup
  mem : ∀ t, t ∈ ps ↔ calls t ≠ .receiver ∧ .act (.print 0) ∉ s.progs t
  out : s.shared.out = ps.map fun t => valueLine 0 (s.shared.seen t)
  seen : ∀ t, s.shared.seen t = 0 ∨ s.shared.seen t = 1
  stored : s.shared.step = 0 ∨ s.shared.step = 1
  early : ps = [] → s.shared.step = 0 ∧ ∀ t, s.shared.seen t = 0
  first : ∀ t ∈ ps.head?, s.shared.seen t = 0

variable {calls : τ → Call} {s s' : State τ Ev Act (Shared τ)} {ts : List τ} {t : τ} {c : Call} {e : Ev}
  {a : Act} {is : List (Instr Ev Act)} {ps : List τ}

theorem wait_mem (h : .wait e ∈ c.body) : e = .recv := by
  cases c <;> simpa [Call.body, sender, receiver, run] using h

/-- Every call comes to a wait for recv. -/
theorem fromWait_body : ∃ is, fromWait .recv c.body = .wait .recv :: is := by
  cases c with
  | sender => exact ⟨_, rfl⟩
  | receiver => exact ⟨_, rfl⟩
  | run => exact ⟨_, rfl⟩

/-- What a call does before its first wait for recv. -/
theorem act_of_suffix (h : .act a :: is <:+ c.body)
    (hf : fromWait .recv (.act a :: is) = fromWait .recv c.body) : c ≠ .receiver ∧
    (a = .load ∧ .act (.print 0) ∈ is ∨ a = .print 0 ∧ .act (.print 0) ∉ is ∨
      a = .store 1 ∧ .act (.print 0) ∉ is) := by
  have hall : ∀ js ∈ sender.tails, fromWait .recv js = fromWait .recv sender →
      js.head? = some (.act .load) ∧ .act (.print 0) ∈ js.tail ∨
      js.head? = some (.act (.print 0)) ∧ .act (.print 0) ∉ js.tail ∨
      js.head? = some (.act (.store 1)) ∧ .act (.print 0) ∉ js.tail ∨
      js.head? = some (.set .send) ∨ js.head? = some (.wait .recv) := by decide
  have hsender (h : .act a :: is <:+ sender)
      (hf : fromWait .recv (.act a :: is) = fromWait .recv sender) :
      a = .load ∧ .act (.print 0) ∈ is ∨ a = .print 0 ∧ .act (.print 0) ∉ is ∨
        a = .store 1 ∧ .act (.print 0) ∉ is := by
    simpa using hall _ ((List.mem_tails _ _).mpr h) hf
  cases c with
  | sender => exact ⟨by simp, hsender h hf⟩
  | run => exact ⟨by simp, hsender h hf⟩
  | receiver =>
    have hm := h.subset List.mem_cons_self
    simp [Call.body, receiver] at hm

theorem unset_start (calls : τ → Call) : Unset .recv (start calls) where
  parked := by
    intro e t h
    cases h
  not_set h := by cases h
  no_set t := by
    change .set .recv ∉ (calls t).body
    cases calls t <;> simp [Call.body, sender, receiver, run]

theorem printed_start (calls : τ → Call) : Printed calls (start calls) [] where
  nodup := List.nodup_nil
  mem t := by
    change t ∈ [] ↔ calls t ≠ .receiver ∧ .act (.print 0) ∉ (calls t).body
    cases calls t <;> simp [Call.body, sender, run]
  out := rfl
  seen _ := .inl rfl
  stored := .inl rfl
  early _ := ⟨rfl, fun _ => rfl⟩
  first t h := by cases h

/-- The programs that are left are ends of the calls' bodies, from before the first wait for recv. -/
structure Running (calls : τ → Call) (s : State τ Ev Act (Shared τ)) : Prop where
  unset : Unset .recv s
  suffix : ∀ t, s.progs t <:+ (calls t).body
  fromWait : ∀ t, fromWait .recv (s.progs t) = fromWait .recv (calls t).body

/-- No call has returned: each has its wait for recv still before it. -/
theorem Running.ne_nil (h : Running calls s) (t : τ) : s.progs t ≠ [] := by
  obtain ⟨is, hb⟩ := fromWait_body (c := calls t)
  exact ne_nil_of_fromWait ((h.fromWait t).trans hb)

theorem running_start (calls : τ → Call) : Running calls (start calls) :=
  ⟨unset_start calls, fun _ => List.suffix_rfl, fun _ => rfl⟩

theorem rank_start_le [Fintype τ] (calls : τ → Call) : (start calls).rank ≤ 24 * Fintype.card τ + 3 := by
  have hl : ∀ t ∈ Finset.univ, ((calls t).body).length ≤ 12 := by
    intro t _
    cases calls t <;> simp [Call.body, sender, receiver, run]
  have hsum := Finset.sum_le_card_nsmul Finset.univ _ 12 hl
  have he : ∑ e : Ev, ((start calls).events e).rank = 2 := rfl
  rw [State.rank, he]
  simp only [start, Finset.card_univ, smul_eq_mul, Bool.false_eq_true, if_false] at hsum ⊢
  omega

variable [DecidableEq τ]

/-- A thread that has its line still to print reads step. -/
theorem Printed.load (h : Printed calls s ps) (hi : s.progs t = .act .load :: is)
    (hp : .act (.print 0) ∈ is) : Printed calls { s with
      shared := perform t .load s.shared, progs := Function.update s.progs t is } ps := by
  have ht : t ∉ ps := fun hm => ((h.mem t).mp hm).2 (hi ▸ List.mem_cons_of_mem _ hp)
  have hne : ∀ u ∈ ps, u ≠ t := fun u hu he => ht (he ▸ hu)
  have hseen : ∀ u ∈ ps, Function.update s.shared.seen t s.shared.step u = s.shared.seen u :=
    fun u hu => Function.update_of_ne (hne u hu) ..
  exact
  { nodup := h.nodup
    mem := fun u => by
      rw [h.mem]
      by_cases hu : u = t
      · subst hu
        simp [hi, hp]
      · simp [hu]
    out := h.out.trans (List.map_congr_left fun u hu => congrArg (valueLine 0) (hseen u hu).symm)
    seen := fun u => by
      by_cases hu : u = t
      · subst hu
        simpa [perform] using h.stored
      · simpa [perform, hu] using h.seen u
    stored := h.stored
    early := fun hn => by
      obtain ⟨hs, h0⟩ := h.early hn
      refine ⟨hs, fun u => ?_⟩
      by_cases hu : u = t
      · subst hu
        simpa [perform] using hs
      · simpa [perform, hu] using h0 u
    first := fun u hu => (hseen u (List.mem_of_mem_head? hu)).trans (h.first u hu) }

/-- It prints what it has read. -/
theorem Printed.print (h : Printed calls s ps) (hi : s.progs t = .act (.print 0) :: is)
    (hp : .act (.print 0) ∉ is) (hc : calls t ≠ .receiver) : Printed calls { s with
      shared := perform t (.print 0) s.shared, progs := Function.update s.progs t is } (ps ++ [t]) where
  nodup := by
    have ht : t ∉ ps := fun hm => ((h.mem t).mp hm).2 (hi ▸ List.mem_cons_self)
    simpa [List.nodup_append] using ⟨h.nodup, fun u hu he => ht (he ▸ hu)⟩
  mem u := by
    by_cases hu : u = t
    · subst hu
      simp [hc, hp]
    · simp [hu, h.mem]
  out := by simp [perform, h.out]
  seen := h.seen
  stored := h.stored
  early hn := by simp at hn
  first u hu := by
    cases ps with
    | nil => exact (h.early rfl).2 u
    | cons v ps => exact h.first u hu

/-- It sets step when its line is out. -/
theorem Printed.store (h : Printed calls s ps) (hi : s.progs t = .act (.store 1) :: is)
    (hp : .act (.print 0) ∉ is) (hc : calls t ≠ .receiver) : Printed calls { s with
      shared := perform t (.store 1) s.shared, progs := Function.update s.progs t is } ps where
  nodup := h.nodup
  mem u := by
    rw [h.mem]
    by_cases hu : u = t
    · subst hu
      simp [hi]
    · simp [hu]
  out := h.out
  seen := h.seen
  stored := .inr rfl
  early hn := by
    have ht : t ∈ ps := (h.mem t).mpr ⟨hc, by simp [hi, hp]⟩
    rw [hn] at ht
    cases ht
  first := h.first

theorem Running.step (h : Running calls s) (hs : step perform s t = some s') : Running calls s' := by
  obtain ⟨hu, hf⟩ := h.unset.step hs
  exact ⟨hu, fun u => (suffix_step h.unset.parked hs u).trans (h.suffix u),
    fun u => (hf u).trans (h.fromWait u)⟩

theorem Printed.step (h : Printed calls s ps) (hr : Running calls s) (hs : step perform s t = some s') :
    ∃ ps', Printed calls s' ps' := by
  obtain ⟨hsh, hacts⟩ | ⟨a, is, hi, rfl⟩ := acts_step hr.unset.parked hs
  · refine ⟨ps, ⟨h.nodup, fun u => ?_, ?_, ?_, ?_, ?_, ?_⟩⟩
    · rw [h.mem, hacts]
    all_goals rw [hsh]
    · exact h.out
    · exact h.seen
    · exact h.stored
    · exact h.early
    · exact h.first
  · obtain ⟨hc, ⟨rfl, hp⟩ | ⟨rfl, hp⟩ | ⟨rfl, hp⟩⟩ := act_of_suffix (hi ▸ hr.suffix t) (hi ▸ hr.fromWait t)
    · exact ⟨ps, h.load hi hp⟩
    · exact ⟨ps ++ [t], h.print hi hp hc⟩
    · exact ⟨ps, h.store hi hp hc⟩

theorem running_run (hr : (threads perform).run (start calls) ts = some s) :
    Running calls s ∧ ∃ ps, Printed calls s ps := by
  refine run_invariant (P := fun s => Running calls s ∧ ∃ ps, Printed calls s ps) ?_
    ⟨running_start calls, [], printed_start calls⟩ hr
  rintro s t s' ⟨h, ps, hp⟩ hs
  exact ⟨h.step hs, hp.step h hs⟩

/-- Whatever the calls and their interleaving, recv is never set and no call returns. The lines
that are printed are the first ones of the senders that have come past them, one each, with the
value that each has read: 0 for the first line, and 0 or 1 for every other. -/
theorem no_call_returns (hr : (threads perform).run (start calls) ts = some s) :
    s.events .recv ≠ .set ∧ (∀ t, s.progs t ≠ []) ∧
    ∃ ps : List τ, ps.Nodup ∧ (∀ t, t ∈ ps ↔ calls t ≠ .receiver ∧ .act (.print 0) ∉ s.progs t) ∧
      s.shared.out = ps.map (fun t => valueLine 0 (s.shared.seen t)) ∧
      (∀ t ∈ ps, s.shared.seen t = 0 ∨ s.shared.seen t = 1) ∧
      ∀ t ∈ ps.head?, s.shared.seen t = 0 := by
  obtain ⟨h, ps, hp⟩ := running_run hr
  exact ⟨h.unset.not_set, h.ne_nil, ps, hp.nodup, hp.mem, hp.out, fun t _ => hp.seen t, hp.first⟩

/-- A sender and a receiver, the sender first. -/
theorem no_call_returns_pair : ∃ s, (threads perform).run
    (start fun t : Bool => if t then .sender else .receiver) [true, true, true, true, true, false] = some s ∧
    ∀ t, s.progs t ≠ [] := by
  obtain ⟨s, hs⟩ : ∃ s, (threads perform).run (start fun t : Bool => if t then .sender else .receiver)
      [true, true, true, true, true, false] = some s := Option.isSome_iff_exists.mp rfl
  exact ⟨s, hs, (no_call_returns hs).2.1⟩

/-- A value that was read early can be printed late: 0, 1, 0. -/
example : ((threads perform).run (start fun _ : Fin 3 => .sender) [1, 0, 0, 0, 2, 2, 1]).map
    (fun s => s.shared.out) = some [valueLine 0 0, valueLine 0 1, valueLine 0 0] := rfl

variable [Fintype τ]

/-- No interleaving goes on for ever. One call alone ends parked at recv; two or more end in
the panic of the second thread that waits there. -/
theorem panics_iff (hr : (threads perform).run (start calls) ts = some s) :
    ts.length ≤ 24 * Fintype.card τ + 3 ∧
    ((threads perform).Stuck s → (s.panicked = true ↔ 2 ≤ Fintype.card τ) ∧
      (s.panicked = false → ∀ t, s.events .recv = .waiting t)) := by
  have hp := (unset_start calls).parked
  have hb := run_bounded hp hr
  have hl := rank_start_le calls
  obtain ⟨h, -⟩ := running_run hr
  refine ⟨by omega, fun hst => ?_⟩
  have hpark : s.panicked = false → ∀ t, s.events .recv = .waiting t := by
    intro hn t
    obtain hy | hall := stuck_iff.mp hst
    · simp [hn] at hy
    · obtain he | ⟨e, is, hi, he⟩ := hall t
      · exact absurd he (h.ne_nil t)
      · have hm : .wait e ∈ (calls t).body := (h.suffix t).subset (hi ▸ List.mem_cons_self)
        exact wait_mem hm ▸ he
  refine ⟨⟨fun hy => ?_, fun hc => ?_⟩, hpark⟩
  · by_contra hc
    have : Subsingleton τ := Fintype.card_le_one_iff_subsingleton.mp (by omega)
    have hn := not_panicked_run hp rfl hr
    simp [hn] at hy
  · by_contra hy
    have hw := hpark (by simpa using hy)
    obtain ⟨t, u, htu⟩ := Fintype.one_lt_card_iff.mp hc
    have he := (hw t).symm.trans (hw u)
    exact htu (Event.waiting.inj he)

/-- A sender and a receiver: the receiver finds the sender waiting. -/
theorem panics_iff_pair : ∃ s, (threads perform).run
    (start fun t : Bool => if t then .sender else .receiver) [true, true, true, true, true, false] = some s ∧
    s.panicked = true := by
  obtain ⟨s, hs, hst⟩ : ∃ s, (threads perform).run (start fun t : Bool => if t then .sender else .receiver)
      [true, true, true, true, true, false] = some s ∧ (threads perform).Stuck s :=
    ⟨_, rfl, fun t => by cases t <;> rfl⟩
  exact ⟨s, hs, (((panics_iff hs).2 hst).1).mpr (by decide)⟩

end Idula.Cli.Context
