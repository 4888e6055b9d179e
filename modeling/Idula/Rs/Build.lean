import Mathlib.Data.List.FinRange
import Mathlib.Logic.Function.Basic
import Idula.Library.Schedules

/-! The build script: main spawns a thread for every id, receives as many messages as it
spawned, joins the threads, prints what it received and runs one more thread. Every println!
can fail, which is a panic of its thread; the system is taken to give all threads asked for. -/
namespace Idula.Rs.Build
open Library.Schedules

/-- How far a spawned closure has come. -/
inductive Worker
  | unspawned | sending | printing | finished | sendPanicked | printPanicked
  deriving DecidableEq

/-- Where main stands, with the iterations that its loop still has to do. -/
inductive Main (n : Nat)
  | spawning (ids : List (Fin n))
  | receiving (left : Nat)
  | joining (children : List (Fin n))
  | reporting
  | spawningHandler
  | joiningHandler
  | returned
  | panicked
  deriving DecidableEq

inductive Handler
  | unspawned | running | finished
  deriving DecidableEq

/-- The threads, the channel, what main has received, and the lines whose println! went well. -/
structure State (n : Nat) where
  main : Main n
  workers : Fin n → Worker
  handler : Handler
  queue : List String
  threadIds : List String
  out : List String

inductive Thread (n : Nat)
  | main
  | worker (id : Fin n)
  | handler

/-- A thread goes on, or the println! that it has come to fails. -/
inductive Event (n : Nat)
  | goesOn (t : Thread n)
  | printFails (t : Thread n)

variable {n : Nat}

/-- What the thread sends: (id as i32).to_string(). -/
def message (id : Fin n) : String := toString id.val

def finishedLine (id : Fin n) : String := "thread " ++ toString id.val ++ " finished"

/-- The form {:#?} of a vector of strings without characters to escape. -/
def debugPretty (ids : List String) : String :=
  if ids = [] then "[]"
  else "[\n" ++ String.join (ids.map fun st => "    \"" ++ st ++ "\",\n") ++ "]"

def State.setWorker (s : State n) (id : Fin n) (w : Worker) : State n :=
  { s with workers := Function.update s.workers id w }

def start (n : Nat) : State n :=
  ⟨.spawning (List.finRange n), fun _ => .unspawned, .unspawned, [], [], []⟩

/-- The receiver goes when main ends. -/
def Main.Ended (m : Main n) : Prop := m = .returned ∨ m = .panicked

instance (m : Main n) : Decidable m.Ended := inferInstanceAs (Decidable (_ ∨ _))

/-- One move of a worker: thread_tx.send(st).unwrap(), then println!. -/
def State.workerStep (s : State n) (id : Fin n) : Option (State n) :=
  match s.workers id with
  | .sending =>
    if s.main.Ended then some (s.setWorker id .sendPanicked)
    else some { s.setWorker id .printing with queue := s.queue ++ [message id] }
  | .printing => some { s.setWorker id .finished with out := s.out ++ [finishedLine id] }
  | .unspawned | .finished | .sendPanicked | .printPanicked => none

/-- One move of main. Its own tx lives as long as it does, so recv waits and never fails. -/
def State.mainStep (s : State n) : Option (State n) :=
  match s.main with
  | .spawning [] => some { s with main := .receiving n }
  | .spawning (id :: ids) => some { s.setWorker id .sending with main := .spawning ids }
  | .receiving 0 => some { s with main := .joining (List.finRange n) }
  | .receiving (left + 1) =>
    match s.queue with
    | [] => none
    | st :: queue =>
      some { s with main := .receiving left, queue, threadIds := s.threadIds ++ [st] }
  | .joining [] => some { s with main := .reporting }
  | .joining (id :: ids) =>
    match s.workers id with
    | .finished => some { s with main := .joining ids }
    | .sendPanicked | .printPanicked => some { s with main := .panicked }
    | .unspawned | .sending | .printing => none
  | .reporting => some { s with main := .spawningHandler, out := s.out ++ [debugPretty s.threadIds] }
  | .spawningHandler => some { s with main := .joiningHandler, handler := .running }
  | .joiningHandler =>
    match s.handler with
    | .finished => some { s with main := .returned }
    | .unspawned | .running => none
  | .returned | .panicked => none

/-- The closure of handler does nothing. -/
def State.handlerStep (s : State n) : Option (State n) :=
  match s.handler with
  | .running => some { s with handler := .finished }
  | .unspawned | .finished => none

/-- The println! of a thread fails; the handler has none. -/
def State.printFails (s : State n) : Thread n → Option (State n)
  | .main =>
    match s.main with
    | .reporting => some { s with main := .panicked }
    | _ => none
  | .worker id =>
    match s.workers id with
    | .printing => some (s.setWorker id .printPanicked)
    | _ => none
  | .handler => none

/-- All the threads, scheduled in any order. -/
def build (n : Nat) : System (State n) (Event n) where
  step s
    | .goesOn .main => s.mainStep
    | .goesOn (.worker id) => s.workerStep id
    | .goesOn .handler => s.handlerStep
    | .printFails t => s.printFails t

/-- The workers that main has still to spawn. -/
def Main.toSpawn : Main n → List (Fin n)
  | .spawning ids => ids
  | _ => []

/-- The messages that main has still to receive. -/
def Main.toReceive : Main n → Nat
  | .spawning _ => n
  | .receiving left => left
  | _ => 0

/-- The workers that main has still to join; of one that has panicked nothing is known. -/
def Main.toJoin : Main n → List (Fin n)
  | .spawning _ | .receiving _ | .panicked => List.finRange n
  | .joining ids => ids
  | _ => []

def Main.Reported (m : Main n) : Prop :=
  m = .spawningHandler ∨ m = .joiningHandler ∨ m = .returned

instance (m : Main n) : Decidable m.Reported := inferInstanceAs (Decidable (_ ∨ _))

/-- The worker is past its send. -/
def Worker.Sent (w : Worker) : Prop := w = .printing ∨ w = .finished ∨ w = .printPanicked

/-- What holds at every moment: sent and printed are the workers in the order in which they
sent and printed. -/
structure Holds (s : State n) (sent printed : List (Fin n)) : Prop where
  ids : s.threadIds ++ s.queue = sent.map message
  sent_nodup : sent.Nodup
  mem_sent : ∀ i, i ∈ sent ↔ (s.workers i).Sent
  printed_nodup : printed.Nodup
  mem_printed : ∀ i, i ∈ printed ↔ s.workers i = .finished
  out : s.out = printed.map finishedLine ++ if s.main.Reported then [debugPretty s.threadIds] else []
  toSpawn_nodup : s.main.toSpawn.Nodup
  mem_toSpawn : ∀ i, i ∈ s.main.toSpawn ↔ s.workers i = .unspawned
  received : s.threadIds.length + s.main.toReceive = n
  joined : ∀ i, i ∈ s.main.toJoin ∨ s.workers i = .finished
  handler_unspawned : s.handler = .unspawned ↔ ¬ (s.main = .joiningHandler ∨ s.main = .returned)
  handler_finished : s.main = .returned → s.handler = .finished
  send_ok : ∀ i, s.workers i ≠ .sendPanicked

@[simp] theorem setWorker_main (s : State n) (id : Fin n) (w : Worker) :
    (s.setWorker id w).main = s.main := rfl

@[simp] theorem setWorker_handler (s : State n) (id : Fin n) (w : Worker) :
    (s.setWorker id w).handler = s.handler := rfl

@[simp] theorem setWorker_queue (s : State n) (id : Fin n) (w : Worker) :
    (s.setWorker id w).queue = s.queue := rfl

@[simp] theorem setWorker_threadIds (s : State n) (id : Fin n) (w : Worker) :
    (s.setWorker id w).threadIds = s.threadIds := rfl

@[simp] theorem setWorker_out (s : State n) (id : Fin n) (w : Worker) :
    (s.setWorker id w).out = s.out := rfl

@[simp] theorem setWorker_self (s : State n) (id : Fin n) (w : Worker) :
    (s.setWorker id w).workers id = w := by
  simp [State.setWorker]

theorem setWorker_of_ne (s : State n) {i id : Fin n} (h : i ≠ id) (w : Worker) :
    (s.setWorker id w).workers i = s.workers i := by
  simp [State.setWorker, h]

variable {s s' : State n} {sent printed : List (Fin n)} {id : Fin n} {t : Thread n}
  {ev : Event n} {ts : List (Event n)}

/-- What holds of the worker that has moved and of the others holds of all. -/
theorem forall_setWorker {P : Fin n → Worker → Prop} {w : Worker} (h : P id w)
    (hs : ∀ i, i ≠ id → P i (s.workers i)) : ∀ i, P i ((s.setWorker id w).workers i) := by
  intro i
  by_cases hi : i = id
  · subst hi
    rw [setWorker_self]
    exact h
  · rw [setWorker_of_ne s hi]
    exact hs i hi

/-- The moves of main. -/
inductive MainMove (s : State n) : State n → Prop
  | spawn {id : Fin n} {ids : List (Fin n)} (hm : s.main = .spawning (id :: ids)) :
      MainMove s { s.setWorker id .sending with main := .spawning ids }
  | allSpawned (hm : s.main = .spawning []) : MainMove s { s with main := .receiving n }
  | receive {left : Nat} {st : String} {queue : List String} (hm : s.main = .receiving (left + 1))
      (hq : s.queue = st :: queue) :
      MainMove s { s with main := .receiving left, queue, threadIds := s.threadIds ++ [st] }
  | allReceived (hm : s.main = .receiving 0) : MainMove s { s with main := .joining (List.finRange n) }
  | join {id : Fin n} {ids : List (Fin n)} (hm : s.main = .joining (id :: ids))
      (hw : s.workers id = .finished) : MainMove s { s with main := .joining ids }
  | joinPanicked {id : Fin n} {ids : List (Fin n)} (hm : s.main = .joining (id :: ids))
      (hw : s.workers id = .sendPanicked ∨ s.workers id = .printPanicked) :
      MainMove s { s with main := .panicked }
  | allJoined (hm : s.main = .joining []) : MainMove s { s with main := .reporting }
  | report (hm : s.main = .reporting) :
      MainMove s { s with main := .spawningHandler, out := s.out ++ [debugPretty s.threadIds] }
  | spawnHandler (hm : s.main = .spawningHandler) :
      MainMove s { s with main := .joiningHandler, handler := .running }
  | joinHandler (hm : s.main = .joiningHandler) (hh : s.handler = .finished) :
      MainMove s { s with main := .returned }

theorem mainMove_of_step (hs : s.mainStep = some s') : MainMove s s' := by
  unfold State.mainStep at hs
  split at hs
  · cases hs
    exact .allSpawned ‹_›
  · cases hs
    exact .spawn ‹_›
  · cases hs
    exact .allReceived ‹_›
  · split at hs
    · cases hs
    · cases hs
      exact .receive ‹_› ‹_›
  · cases hs
    exact .allJoined ‹_›
  · split at hs
    · cases hs
      exact .join ‹_› ‹_›
    · cases hs
      exact .joinPanicked ‹_› (.inl ‹_›)
    · cases hs
      exact .joinPanicked ‹_› (.inr ‹_›)
    · cases hs
    · cases hs
    · cases hs
  · cases hs
    exact .report ‹_›
  · cases hs
    exact .spawnHandler ‹_›
  · split at hs
    · cases hs
      exact .joinHandler ‹_› ‹_›
    · cases hs
    · cases hs
  · cases hs
  · cases hs

theorem holds_start : Holds (start n) [] [] where
  ids := rfl
  sent_nodup := List.nodup_nil
  mem_sent i := by simp [start, Worker.Sent]
  printed_nodup := List.nodup_nil
  mem_printed i := by simp [start]
  out := by simp [start, Main.Reported]
  toSpawn_nodup := List.nodup_finRange n
  mem_toSpawn i := by simp [start, Main.toSpawn]
  received := by simp [start, Main.toReceive]
  joined i := .inl (List.mem_finRange i)
  handler_unspawned := by simp [start]
  handler_finished h := by simp [start] at h
  send_ok i := by simp [start]

/-- A main that has nothing more to receive has received from every worker. -/
theorem Holds.mem_sent_of_received (h : Holds s sent printed) (hr : s.main.toReceive = 0) (i : Fin n) :
    i ∈ sent := by
  have hlen : n ≤ sent.length := by
    have hids := congrArg List.length h.ids
    have hrec := h.received
    simp only [List.length_append, List.length_map] at hids
    omega
  have hcard : sent.toFinset.card = Fintype.card (Fin n) := by
    refine Nat.le_antisymm sent.toFinset.card_le_univ ?_
    rw [List.toFinset_card_of_nodup h.sent_nodup, Fintype.card_fin]
    exact hlen
  have hall := (Finset.card_eq_iff_eq_univ _).mp hcard
  exact List.mem_toFinset.mp (hall ▸ Finset.mem_univ i)

/-- As long as a worker has not sent, the receiver is there. -/
theorem Holds.not_ended (h : Holds s sent printed) (hw : ¬ (s.workers id).Sent) : ¬ s.main.Ended := by
  intro he
  refine hw ((h.mem_sent id).mp (h.mem_sent_of_received ?_ id))
  obtain hm | hm := he
  · rw [hm]
    rfl
  · rw [hm]
    rfl

/-- What one move of a worker does. -/
theorem Holds.worker_cases (h : Holds s sent printed) (hs : s.workerStep id = some s') :
    (s.workers id = .sending ∧
      s' = { s.setWorker id .printing with queue := s.queue ++ [message id] }) ∨
    (s.workers id = .printing ∧
      s' = { s.setWorker id .finished with out := s.out ++ [finishedLine id] }) := by
  unfold State.workerStep at hs
  split at hs
  · rename_i hw
    have hf : ¬ (s.workers id).Sent := by simp [hw, Worker.Sent]
    rw [if_neg (h.not_ended hf)] at hs
    exact .inl ⟨hw, (Option.some.inj hs).symm⟩
  · exact .inr ⟨‹_›, (Option.some.inj hs).symm⟩
  · cases hs
  · cases hs
  · cases hs
  · cases hs

/-- A send adds the worker to those that have sent. -/
theorem Holds.send (h : Holds s sent printed) (hw : s.workers id = .sending) :
    Holds { s.setWorker id .printing with queue := s.queue ++ [message id] } (sent ++ [id]) printed where
  ids := by
    rw [List.map_append, ← h.ids, List.append_assoc]
    rfl
  sent_nodup := by
    have hn : id ∉ sent := fun hm => by simpa [hw, Worker.Sent] using (h.mem_sent id).mp hm
    simpa [List.nodup_append] using ⟨h.sent_nodup, fun a ha e => hn (e ▸ ha)⟩
  mem_sent := forall_setWorker (P := fun i w => i ∈ sent ++ [id] ↔ w.Sent)
    (by simp [Worker.Sent]) fun i hi => by simp [hi, h.mem_sent]
  printed_nodup := h.printed_nodup
  mem_printed := forall_setWorker (P := fun i w => i ∈ printed ↔ w = .finished)
    (by simp [h.mem_printed, hw]) fun i _ => h.mem_printed i
  out := h.out
  toSpawn_nodup := h.toSpawn_nodup
  mem_toSpawn := forall_setWorker (P := fun i w => i ∈ s.main.toSpawn ↔ w = .unspawned)
    (by simp [h.mem_toSpawn, hw]) fun i _ => h.mem_toSpawn i
  received := h.received
  joined := forall_setWorker (P := fun i w => i ∈ s.main.toJoin ∨ w = .finished)
    (.inl ((h.joined id).resolve_right (by simp [hw]))) fun i _ => h.joined i
  handler_unspawned := h.handler_unspawned
  handler_finished := h.handler_finished
  send_ok := forall_setWorker (P := fun _ w => w ≠ .sendPanicked) (by simp) fun i _ => h.send_ok i

/-- Its line ends a worker. -/
theorem Holds.print (h : Holds s sent printed) (hw : s.workers id = .printing) :
    Holds { s.setWorker id .finished with out := s.out ++ [finishedLine id] } sent (printed ++ [id]) where
  ids := h.ids
  sent_nodup := h.sent_nodup
  mem_sent := forall_setWorker (P := fun i w => i ∈ sent ↔ w.Sent)
    (by simp [Worker.Sent, h.mem_sent, hw]) fun i _ => h.mem_sent i
  printed_nodup := by
    have hn : id ∉ printed := fun hm => by simpa [hw] using (h.mem_printed id).mp hm
    simpa [List.nodup_append] using ⟨h.printed_nodup, fun a ha e => hn (e ▸ ha)⟩
  mem_printed := forall_setWorker (P := fun i w => i ∈ printed ++ [id] ↔ w = .finished)
    (by simp) fun i hi => by simp [hi, h.mem_printed]
  out := by
    -- main reports after it has joined every worker, this one among them
    have hr : ¬ s.main.Reported := by
      have hj := (h.joined id).resolve_right (by simp [hw])
      rintro (hm | hm | hm) <;> simp [hm, Main.toJoin] at hj
    have ho := h.out
    rw [if_neg hr] at ho
    simp [ho, hr]
  toSpawn_nodup := h.toSpawn_nodup
  mem_toSpawn := forall_setWorker (P := fun i w => i ∈ s.main.toSpawn ↔ w = .unspawned)
    (by simp [h.mem_toSpawn, hw]) fun i _ => h.mem_toSpawn i
  received := h.received
  joined := forall_setWorker (P := fun i w => i ∈ s.main.toJoin ∨ w = .finished)
    (.inr rfl) fun i _ => h.joined i
  handler_unspawned := h.handler_unspawned
  handler_finished := h.handler_finished
  send_ok := forall_setWorker (P := fun _ w => w ≠ .sendPanicked) (by simp) fun i _ => h.send_ok i

/-- The line that it cannot print ends a worker as well. -/
theorem Holds.printPanics (h : Holds s sent printed) (hw : s.workers id = .printing) :
    Holds (s.setWorker id .printPanicked) sent printed where
  ids := h.ids
  sent_nodup := h.sent_nodup
  mem_sent := forall_setWorker (P := fun i w => i ∈ sent ↔ w.Sent)
    (by simp [Worker.Sent, h.mem_sent, hw]) fun i _ => h.mem_sent i
  printed_nodup := h.printed_nodup
  mem_printed := forall_setWorker (P := fun i w => i ∈ printed ↔ w = .finished)
    (by simp [h.mem_printed, hw]) fun i _ => h.mem_printed i
  out := h.out
  toSpawn_nodup := h.toSpawn_nodup
  mem_toSpawn := forall_setWorker (P := fun i w => i ∈ s.main.toSpawn ↔ w = .unspawned)
    (by simp [h.mem_toSpawn, hw]) fun i _ => h.mem_toSpawn i
  received := h.received
  joined := forall_setWorker (P := fun i w => i ∈ s.main.toJoin ∨ w = .finished)
    (.inl ((h.joined id).resolve_right (by simp [hw]))) fun i _ => h.joined i
  handler_unspawned := h.handler_unspawned
  handler_finished := h.handler_finished
  send_ok := forall_setWorker (P := fun _ w => w ≠ .sendPanicked) (by simp) fun i _ => h.send_ok i

/-- The next worker is spawned. -/
theorem Holds.spawn {ids : List (Fin n)} (h : Holds s sent printed) (hm : s.main = .spawning (id :: ids)) :
    Holds { s.setWorker id .sending with main := .spawning ids } sent printed := by
  have hu : s.workers id = .unspawned := (h.mem_toSpawn id).mp (by simp [hm, Main.toSpawn])
  have hd : id ∉ ids ∧ ids.Nodup := by simpa [hm, Main.toSpawn] using h.toSpawn_nodup
  exact
  { ids := h.ids
    sent_nodup := h.sent_nodup
    mem_sent := forall_setWorker (P := fun i w => i ∈ sent ↔ w.Sent)
      (by simp [Worker.Sent, h.mem_sent, hu]) fun i _ => h.mem_sent i
    printed_nodup := h.printed_nodup
    mem_printed := forall_setWorker (P := fun i w => i ∈ printed ↔ w = .finished)
      (by simp [h.mem_printed, hu]) fun i _ => h.mem_printed i
    out := by simpa [hm, Main.Reported] using h.out
    toSpawn_nodup := hd.2
    mem_toSpawn := forall_setWorker (P := fun i w => i ∈ ids ↔ w = .unspawned)
      (by simp [hd.1]) fun i hi => by simpa [hm, hi, Main.toSpawn] using h.mem_toSpawn i
    received := by simpa [hm, Main.toReceive] using h.received
    joined := fun i => .inl (List.mem_finRange i)
    handler_unspawned := by simpa [hm] using h.handler_unspawned
    handler_finished := fun he => by cases he
    send_ok := forall_setWorker (P := fun _ w => w ≠ .sendPanicked) (by simp) fun i _ => h.send_ok i }

/-- Main moves on from m to m' and changes nothing but handler and its own queue. -/
theorem Holds.advance {m : Main n} (h : Holds s sent printed)
    (hsp : m.toSpawn = s.main.toSpawn) (hr : m.toReceive = s.main.toReceive)
    (hj : ∀ i, i ∈ m.toJoin ∨ s.workers i = .finished) (ho : m.Reported ↔ s.main.Reported)
    (hh : s.handler = .unspawned ↔ ¬ (m = .joiningHandler ∨ m = .returned))
    (hf : m = .returned → s.handler = .finished) :
    Holds { s with main := m } sent printed where
  ids := h.ids
  sent_nodup := h.sent_nodup
  mem_sent := h.mem_sent
  printed_nodup := h.printed_nodup
  mem_printed := h.mem_printed
  out := by
    simp only [ho]
    exact h.out
  toSpawn_nodup := hsp ▸ h.toSpawn_nodup
  mem_toSpawn i := by
    rw [hsp]
    exact h.mem_toSpawn i
  received := by
    rw [hr]
    exact h.received
  joined := hj
  handler_unspawned := hh
  handler_finished := hf
  send_ok := h.send_ok

/-- The first message of the queue is received. -/
theorem Holds.receive {left : Nat} {st : String} {queue : List String} (h : Holds s sent printed)
    (hm : s.main = .receiving (left + 1)) (hq : s.queue = st :: queue) :
    Holds { s with main := .receiving left, queue, threadIds := s.threadIds ++ [st] } sent printed where
  ids := by
    rw [List.append_assoc, List.singleton_append, ← hq]
    exact h.ids
  sent_nodup := h.sent_nodup
  mem_sent := h.mem_sent
  printed_nodup := h.printed_nodup
  mem_printed := h.mem_printed
  out := by simpa [hm, Main.Reported] using h.out
  toSpawn_nodup := List.nodup_nil
  mem_toSpawn i := by simpa [hm, Main.toSpawn] using h.mem_toSpawn i
  received := by
    have hr := h.received
    rw [hm] at hr
    simp only [Main.toReceive, List.length_append, List.length_singleton] at hr ⊢
    omega
  joined i := .inl (List.mem_finRange i)
  handler_unspawned := by simpa [hm] using h.handler_unspawned
  handler_finished he := by cases he
  send_ok := h.send_ok

/-- Main prints what it received. -/
theorem Holds.report (h : Holds s sent printed) (hm : s.main = .reporting) :
    Holds { s with main := .spawningHandler, out := s.out ++ [debugPretty s.threadIds] }
      sent printed where
  ids := h.ids
  sent_nodup := h.sent_nodup
  mem_sent := h.mem_sent
  printed_nodup := h.printed_nodup
  mem_printed := h.mem_printed
  out := by simpa [hm, Main.Reported] using h.out
  toSpawn_nodup := List.nodup_nil
  mem_toSpawn i := by simpa [hm, Main.toSpawn] using h.mem_toSpawn i
  received := by simpa [hm, Main.toReceive] using h.received
  joined i := by simpa [hm, Main.toJoin] using h.joined i
  handler_unspawned := by simpa [hm] using h.handler_unspawned
  handler_finished he := by cases he
  send_ok := h.send_ok

theorem Holds.spawnHandler (h : Holds s sent printed) (hm : s.main = .spawningHandler) :
    Holds { s with main := .joiningHandler, handler := .running } sent printed where
  ids := h.ids
  sent_nodup := h.sent_nodup
  mem_sent := h.mem_sent
  printed_nodup := h.printed_nodup
  mem_printed := h.mem_printed
  out := by simpa [hm, Main.Reported] using h.out
  toSpawn_nodup := List.nodup_nil
  mem_toSpawn i := by simpa [hm, Main.toSpawn] using h.mem_toSpawn i
  received := by simpa [hm, Main.toReceive] using h.received
  joined i := by simpa [hm, Main.toJoin] using h.joined i
  handler_unspawned := by simp
  handler_finished he := by cases he
  send_ok := h.send_ok

theorem Holds.handlerStep (h : Holds s sent printed) (hs : s.handlerStep = some s') :
    Holds s' sent printed := by
  unfold State.handlerStep at hs
  split at hs
  · rename_i hh
    cases hs
    exact { h with
      handler_unspawned := by simpa [hh] using h.handler_unspawned
      handler_finished := fun _ => rfl }
  · cases hs
  · cases hs

/-- Main panics while it joins, or where it cannot print. -/
theorem Holds.panics (h : Holds s sent printed)
    (hm : (∃ ids, s.main = .joining ids) ∨ s.main = .reporting) :
    Holds { s with main := .panicked } sent printed := by
  have hmain : s.main.toSpawn = [] ∧ s.main.toReceive = 0 ∧ ¬ s.main.Reported ∧
      ¬ (s.main = .joiningHandler ∨ s.main = .returned) := by
    obtain ⟨ids, hm⟩ | hm := hm <;> simp [hm, Main.toSpawn, Main.toReceive, Main.Reported]
  obtain ⟨hsp, hr, ho, hh⟩ := hmain
  refine h.advance hsp.symm hr.symm (fun i => .inl (List.mem_finRange i)) ?_ ?_ (by simp)
  · exact iff_of_false (by simp [Main.Reported]) ho
  · simpa [hh] using h.handler_unspawned

theorem Holds.workerStep (h : Holds s sent printed) (hs : s.workerStep id = some s') :
    Holds s' (sent ++ [id]) printed ∨ Holds s' sent (printed ++ [id]) := by
  obtain ⟨hw, rfl⟩ | ⟨hw, rfl⟩ := h.worker_cases hs
  · exact .inl (h.send hw)
  · exact .inr (h.print hw)

theorem Holds.mainStep (h : Holds s sent printed) (hs : s.mainStep = some s') :
    Holds s' sent printed := by
  cases mainMove_of_step hs with
  | spawn hm => exact h.spawn hm
  | allSpawned hm =>
    refine h.advance ?_ ?_ (fun i => .inl (List.mem_finRange i)) ?_ ?_ (by simp)
    · simp [hm, Main.toSpawn]
    · simp [hm, Main.toReceive]
    · simp [hm, Main.Reported]
    · simpa [hm] using h.handler_unspawned
  | receive hm hq => exact h.receive hm hq
  | allReceived hm =>
    refine h.advance ?_ ?_ (fun i => .inl (List.mem_finRange i)) ?_ ?_ (by simp)
    · simp [hm, Main.toSpawn]
    · simp [hm, Main.toReceive]
    · simp [hm, Main.Reported]
    · simpa [hm] using h.handler_unspawned
  | join hm hw =>
    refine h.advance ?_ ?_ (fun i => ?_) ?_ ?_ (by simp)
    · simp [hm, Main.toSpawn]
    · simp [hm, Main.toReceive]
    · obtain hi | hi := h.joined i
      · rw [hm] at hi
        obtain rfl | hi := List.mem_cons.mp hi
        · exact .inr hw
        · exact .inl hi
      · exact .inr hi
    · simp [hm, Main.Reported]
    · simpa [hm] using h.handler_unspawned
  | joinPanicked hm hw => exact h.panics (.inl ⟨_, hm⟩)
  | allJoined hm =>
    refine h.advance ?_ ?_ (fun i => ?_) ?_ ?_ (by simp)
    · simp [hm, Main.toSpawn]
    · simp [hm, Main.toReceive]
    · simpa [hm, Main.toJoin] using h.joined i
    · simp [hm, Main.Reported]
    · simpa [hm] using h.handler_unspawned
  | report hm => exact h.report hm
  | spawnHandler hm => exact h.spawnHandler hm
  | joinHandler hm hh =>
    refine h.advance ?_ ?_ (fun i => ?_) ?_ ?_ fun _ => hh
    · simp [hm, Main.toSpawn]
    · simp [hm, Main.toReceive]
    · simpa [hm, Main.toJoin] using h.joined i
    · simp [hm, Main.Reported]
    · simp [hh]

/-- A println! that fails ends its thread and leaves what was sent and printed. -/
theorem Holds.printFails (h : Holds s sent printed) (hs : s.printFails t = some s') :
    Holds s' sent printed := by
  cases t with
  | main =>
    simp only [State.printFails] at hs
    split at hs
    · cases hs
      exact h.panics (.inr ‹_›)
    · cases hs
  | worker id =>
    simp only [State.printFails] at hs
    split at hs
    · cases hs
      exact h.printPanics ‹_›
    · cases hs
  | handler => cases hs

/-- What a run has sent and printed only grows at its end. -/
theorem Holds.step (h : Holds s sent printed) (hs : (build n).step s ev = some s') :
    ∃ sent' printed', Holds s' sent' printed' ∧ sent <+: sent' := by
  cases ev with
  | goesOn t =>
    cases t with
    | main => exact ⟨sent, printed, h.mainStep hs, List.prefix_rfl⟩
    | worker id =>
      obtain h' | h' := h.workerStep hs
      · exact ⟨_, _, h', List.prefix_append _ _⟩
      · exact ⟨_, _, h', List.prefix_rfl⟩
    | handler => exact ⟨sent, printed, h.handlerStep hs, List.prefix_rfl⟩
  | printFails t => exact ⟨sent, printed, h.printFails hs, List.prefix_rfl⟩

theorem Holds.run (h : Holds s sent printed) (hr : (build n).run s ts = some s') :
    ∃ sent' printed', Holds s' sent' printed' ∧ sent <+: sent' := by
  refine run_invariant (P := fun s => ∃ sent' printed', Holds s sent' printed' ∧ sent <+: sent')
    ?_ ⟨sent, printed, h, List.prefix_rfl⟩ hr
  rintro s t s' ⟨sent', printed', hh, hp⟩ hs
  obtain ⟨sent'', printed'', hh', hp'⟩ := hh.step hs
  exact ⟨sent'', printed'', hh', hp.trans hp'⟩

end Idula.Rs.Build
