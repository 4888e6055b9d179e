import Idula.Library.Machines

/-! Time.Watch: many watches, each with a timer of its own, and one last_read that they
all share. -/
namespace Idula.Lang.Watch
open Library.Machines

/-- A reading of a timer: what an i64 holds of an unsigned time. -/
abbrev Reading := Fin 0x8000000000000000

inductive Call where
  | start
  | end_
  deriving DecidableEq

/-- A timer of std: its readings come from its own state and the clock. -/
structure Timer (C : Type*) where
  State : Type*
  init : State
  start : State → C → State × Reading
  lap : State → C → State × Reading

variable {C W : Type*} [DecidableEq W] {T : Timer C}

/-- The timers of the watches, and the variable of their container. -/
structure State (T : Timer C) (W : Type*) where
  timers : W → T.State
  lastRead : Reading

/-- last_read is first the largest i64. -/
def initial (T : Timer C) (W : Type*) : State T W := ⟨fun _ => T.init, Fin.last _⟩

def State.start (st : State T W) (w : W) (clock : C) : State T W × Int :=
  let (timer, begin) := T.start (st.timers w) clock
  ({ timers := Function.update st.timers w timer, lastRead := begin }, begin.val)

def State.end_ (st : State T W) (w : W) (clock : C) : State T W × Int :=
  let (timer, end_) := T.lap (st.timers w) clock
  let diff : Int := end_.val - st.lastRead.val
  ({ st with timers := Function.update st.timers w timer }, diff)

/-- A call on a watch, with the clock it finds. -/
abbrev Event (W C : Type*) := W × Call × C

/-- The watches as the code has them; every call is answered by its returned value. -/
def watches (T : Timer C) : Machine (State T W) (Event W C) (W × Call × Int) where
  step st e :=
    match e with
    | (w, .start, clock) => ((st.start w clock).1, (w, .start, (st.start w clock).2))
    | (w, .end_, clock) => ((st.end_ w clock).1, (w, .end_, (st.end_ w clock).2))

/-- What belongs to the calls of end. -/
def atEnd {α : Type*} (xs : List (Call × α)) : List α :=
  xs.filterMap fun x => if x.1 = .end_ then some x.2 else none

/-- The values that end returns on w along a run. -/
def endsFrom (w : W) (st : State T W) (es : List (Event W C)) : List Int :=
  atEnd (own w ((watches T).outputs st es))

def ends (T : Timer C) (w : W) (es : List (Event W C)) : List Int := endsFrom w (initial T W) es

/-- What end returns on a watch depends only on the calls on that watch and their clocks. -/
def NonInterfering (T : Timer C) (W : Type*) [DecidableEq W] : Prop :=
  ∀ (w : W) (es es' : List (Event W C)), own w es = own w es' → ends T w es = ends T w es'

/-- A timer by itself. -/
def Timer.machine (T : Timer C) : Machine T.State (Call × C) (Call × Reading) where
  step s e :=
    match e with
    | (.start, clock) => ((T.start s clock).1, (.start, (T.start s clock).2))
    | (.end_, clock) => ((T.lap s clock).1, (.end_, (T.lap s clock).2))

/-- What the timers read at the calls, each by itself from its own calls. -/
def readings (timers : W → T.State) (es : List (Event W C)) : List (W × Call × Reading) :=
  T.machine.product.outputs timers es

/-- The readings that the calls of end on w take. -/
def laps (w : W) (timers : W → T.State) (es : List (Event W C)) : List Reading :=
  atEnd (own w (readings timers es))

/-- For each end on w, the reading of the most recent start on any watch; before the first start
it is the given one. -/
def lastStarts (w : W) : Reading → List (W × Call × Reading) → List Reading
  | _, [] => []
  | _, (_, .start, reading) :: rs => lastStarts w reading rs
  | last, (v, .end_, _) :: rs =>
    if v = w then last :: lastStarts w last rs else lastStarts w last rs

/-- The start that each end on w comes after, whichever watch it was on, by its reading; the
largest i64 stands for none. -/
def baselines (T : Timer C) (w : W) (es : List (Event W C)) : List Reading :=
  lastStarts w (Fin.last _) (readings (fun _ => T.init) es)

variable {w : W} {es es' : List (Event W C)} {st : State T W}

/-- The timers run like timers that share nothing. -/
theorem step_timers (st : State T W) (e : Event W C) :
    ((watches T).step st e).1.timers = (T.machine.product.step st.timers e).1 := by
  obtain ⟨v, c, clock⟩ := e
  cases c <;> rfl

private theorem atEnd_own_cons {α : Type*} (x : W × Call × α) (xs : List (W × Call × α)) :
    atEnd (own w (x :: xs)) =
      if x.1 = w ∧ x.2.1 = .end_ then x.2.2 :: atEnd (own w xs) else atEnd (own w xs) := by
  obtain ⟨v, c, a⟩ := x
  by_cases hv : v = w
  · subst hv
    rw [own_cons_self]
    cases c with
    | start => exact (if_neg fun h => nomatch h.2).symm
    | end_ => exact (if_pos ⟨rfl, rfl⟩).symm
  · rw [own_cons_ne hv]
    exact (if_neg fun h => hv h.1).symm

theorem endsFrom_cons (w : W) (st : State T W) (e : Event W C) (es : List (Event W C)) :
    endsFrom w st (e :: es) =
      let rest := endsFrom w ((watches T).step st e).1 es
      if e.1 = w ∧ e.2.1 = .end_ then (st.end_ e.1 e.2.2).2 :: rest else rest := by
  rw [endsFrom, outputs_cons, atEnd_own_cons]
  obtain ⟨v, c, clock⟩ := e
  cases c with
  | start =>
    rw [if_neg fun h => nomatch h.2]
    exact (if_neg fun h => nomatch h.2).symm
  | end_ => rfl

theorem readings_cons (st : State T W) (e : Event W C) (es : List (Event W C)) :
    readings st.timers (e :: es) = (T.machine.product.step st.timers e).2 ::
      readings ((watches T).step st e).1.timers es := by
  rw [step_timers]
  rfl

theorem laps_cons (w : W) (st : State T W) (e : Event W C) (es : List (Event W C)) :
    laps w st.timers (e :: es) =
      let rest := laps w ((watches T).step st e).1.timers es
      if e.1 = w ∧ e.2.1 = .end_ then (T.lap (st.timers e.1) e.2.2).2 :: rest else rest := by
  rw [laps, readings_cons, atEnd_own_cons]
  obtain ⟨v, c, clock⟩ := e
  cases c with
  | start =>
    rw [if_neg fun h => nomatch h.2]
    exact (if_neg fun h => nomatch h.2).symm
  | end_ => rfl

theorem lastStarts_end_self {last r : Reading} {rs : List (W × Call × Reading)} :
    lastStarts w last ((w, .end_, r) :: rs) = last :: lastStarts w last rs := if_pos rfl

theorem lastStarts_end_ne {v : W} (h : v ≠ w) {last r : Reading} {rs : List (W × Call × Reading)} :
    lastStarts w last ((v, .end_, r) :: rs) = lastStarts w last rs := if_neg h

/-- Every end returns its own lap less the reading of the last start, which is what last_read
then is. -/
theorem endsFrom_eq (w : W) (st : State T W) (es : List (Event W C)) :
    (laps w st.timers es).length = (lastStarts w st.lastRead (readings st.timers es)).length ∧
      endsFrom w st es = List.zipWith (fun l b : Reading => (l.val : Int) - b.val)
        (laps w st.timers es) (lastStarts w st.lastRead (readings st.timers es)) := by
  induction es generalizing st with
  | nil => exact ⟨rfl, rfl⟩
  | cons e es ih =>
    obtain ⟨hn, hz⟩ := ih ((watches T).step st e).1
    rw [endsFrom_cons, laps_cons, readings_cons]
    obtain ⟨v, c, clock⟩ := e
    cases c with
    | start =>
      have hno : ¬ (v = w ∧ Call.start = Call.end_) := fun h => nomatch h.2
      rw [if_neg hno, if_neg hno]
      exact ⟨hn, hz⟩
    | end_ =>
      have hread : (T.machine.product.step st.timers (v, .end_, clock)).2 =
          (v, .end_, (T.lap (st.timers v) clock).2) := rfl
      rw [hread]
      by_cases hv : v = w
      · subst hv
        have hyes : v = v ∧ Call.end_ = Call.end_ := ⟨rfl, rfl⟩
        rw [if_pos hyes, if_pos hyes, lastStarts_end_self, List.length_cons, List.length_cons]
        exact ⟨congrArg (· + 1) hn, congrArg _ hz⟩
      · have hno : ¬ (v = w ∧ Call.end_ = Call.end_) := fun h => hv h.1
        rw [if_neg hno, if_neg hno, lastStarts_end_ne hv]
        exact ⟨hn, hz⟩

/-- The laps of a watch do depend on its own calls only. -/
theorem laps_congr (timers : W → T.State) (h : own w es = own w es') :
    laps w timers es = laps w timers es' :=
  congrArg atEnd (product_noninterfering T.machine timers h)

private theorem zipWith_sub_inj {ls bs bs' : List Reading} (h : ls.length = bs.length)
    (h' : ls.length = bs'.length) :
    List.zipWith (fun l b : Reading => (l.val : Int) - b.val) ls bs =
      List.zipWith (fun l b : Reading => (l.val : Int) - b.val) ls bs' ↔ bs = bs' := by
  induction ls generalizing bs bs' with
  | nil =>
    rw [List.eq_nil_of_length_eq_zero h.symm, List.eq_nil_of_length_eq_zero h'.symm]
    simp
  | cons l ls ih =>
    cases bs with
    | nil => cases h
    | cons b bs =>
      cases bs' with
      | nil => cases h'
      | cons b' bs' =>
        have ht := ih (Nat.succ.inj h) (Nat.succ.inj h')
        rw [List.zipWith_cons_cons, List.zipWith_cons_cons, List.cons_eq_cons, List.cons_eq_cons, ht,
          Fin.ext_iff]
        refine and_congr_left fun _ => ?_
        omega

/-- Two runs that agree on the calls on w and their clocks return the same values of end
exactly when, in both, the calls of end on w come after starts with the same readings. -/
theorem ends_eq_iff (h : own w es = own w es') :
    ends T w es = ends T w es' ↔ baselines T w es = baselines T w es' := by
  obtain ⟨hn, he⟩ := endsFrom_eq w (initial T W) es
  obtain ⟨hn', he'⟩ := endsFrom_eq w (initial T W) es'
  rw [ends, ends, he, he', ← laps_congr (initial T W).timers h]
  rw [← laps_congr (initial T W).timers h] at hn'
  exact zipWith_sub_inj hn hn'

/-- A timer whose laps are the time since its last call, for clocks that only go forward. -/
def stopwatch : Timer Reading where
  State := Reading
  init := 0
  start _ clock := (clock, clock)
  lap last clock := (clock, ⟨clock.val - last.val, by omega⟩)

/-- A second watch that is started and read after the first leaves it alone. -/
theorem later_watch_harmless :
    ends stopwatch true [(true, .start, 10), (true, .end_, 30), (false, .start, 40), (false, .end_, 50)] =
      ends stopwatch true [(true, .start, 10), (true, .end_, 30)] :=
  (ends_eq_iff rfl).mpr rfl

/-- A second watch that is started in between changes what the first returns. -/
theorem start_in_between_shows : ¬ NonInterfering stopwatch Bool := by
  intro h
  have he := h true [(true, .start, 10), (false, .start, 20), (true, .end_, 30)]
    [(true, .start, 10), (true, .end_, 30)] rfl
  exact absurd he (by decide)

/-- No end overflows its i64. -/
theorem ends_fit {x : Int} (h : x ∈ ends T w es) :
    -0x8000000000000000 ≤ x ∧ x ≤ 0x7fffffffffffffff := by
  rw [ends, (endsFrom_eq w (initial T W) es).2, ← List.map_uncurry_zip_eq_zipWith] at h
  obtain ⟨⟨l, b⟩, _, rfl⟩ := List.mem_map.mp h
  have hl := l.isLt
  have hb := b.isLt
  change _ ≤ (l.val : Int) - b.val ∧ (l.val : Int) - b.val ≤ _
  omega

/-- Whenever end is called on w, the last start was on w, or there was none yet; mine says
that this is so at the beginning. -/
def Exclusive {α : Type*} (w : W) : Bool → List (W × Call × α) → Prop
  | _, [] => True
  | _, (v, .start, _) :: xs => Exclusive w (v = w) xs
  | mine, (v, .end_, _) :: xs => (v = w → mine = true) ∧ Exclusive w mine xs

theorem exclusive_readings {mine : Bool} {timers : W → T.State} :
    Exclusive w mine (readings timers es) ↔ Exclusive w mine es := by
  induction es generalizing mine timers with
  | nil => exact Iff.rfl
  | cons e es ih =>
    obtain ⟨v, c, clock⟩ := e
    cases c with
    | start => exact ih
    | end_ => exact and_congr_right fun _ => ih

/-- The starts on other watches are then none that an end on w comes after. -/
theorem lastStarts_of_exclusive {mine : Bool} {last last' : Reading} {rs : List (W × Call × Reading)}
    (h : Exclusive w mine rs) (hl : mine = true → last = last') :
    lastStarts w last rs = lastStarts w last' ((own w rs).map fun r => (w, r)) := by
  induction rs generalizing mine last last' with
  | nil => rfl
  | cons r rs ih =>
    obtain ⟨v, c, reading⟩ := r
    by_cases hv : v = w
    · subst hv
      rw [own_cons_self, List.map_cons]
      cases c with
      | start => exact ih h fun _ => rfl
      | end_ =>
        rw [lastStarts_end_self, lastStarts_end_self, hl (h.1 rfl)]
        exact congrArg _ (ih h.2 fun _ => rfl)
    · rw [own_cons_ne hv]
      cases c with
      | start => exact ih h fun hm => absurd (of_decide_eq_true hm) hv
      | end_ =>
        rw [lastStarts_end_ne hv]
        exact ih h.2 hl

/-- Watches that are used one after the other do not interfere. -/
theorem ends_eq_of_exclusive (h : Exclusive w true es) (h' : Exclusive w true es')
    (ho : own w es = own w es') : ends T w es = ends T w es' := by
  have hr : own w (readings (fun _ => T.init) es) = own w (readings (fun _ => T.init) es') :=
    product_noninterfering T.machine _ ho
  rw [ends_eq_iff ho, baselines, baselines,
    lastStarts_of_exclusive (exclusive_readings.mpr h) fun _ => rfl,
    lastStarts_of_exclusive (exclusive_readings.mpr h') fun _ => rfl, hr]

end Idula.Lang.Watch
