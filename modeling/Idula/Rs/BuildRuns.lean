import Idula.Rs.Build

/-! The runs of the build script: how they end, how long they are, and what they keep of the
messages. -/
namespace Idula.Rs.Build
open Library.Schedules
variable {n : Nat}

/-- The moves that a thread has still to make. -/
def Worker.rank : Worker → Nat
  | .unspawned | .sending => 2
  | .printing => 1
  | .finished | .sendPanicked | .printPanicked => 0

def Main.rank : Main n → Nat
  | .spawning ids => ids.length + 2 * n + 6
  | .receiving left => left + n + 5
  | .joining ids => ids.length + 4
  | .reporting => 3
  | .spawningHandler => 2
  | .joiningHandler => 1
  | .returned | .panicked => 0

def Handler.rank : Handler → Nat
  | .unspawned | .running => 1
  | .finished => 0

def State.rank (s : State n) : Nat :=
  s.main.rank + ∑ i, (s.workers i).rank + s.handler.rank

/-- Some thread has panicked, other than in a send. -/
def State.Failed (s : State n) : Prop := s.main = .panicked ∨ ∃ i, s.workers i = .printPanicked

variable {s s' : State n} {sent printed : List (Fin n)} {id : Fin n} {ev : Event n}
  {ts : List (Event n)}

/-- As long as main has not ended, some thread can go on. -/
theorem Holds.not_stuck (h : Holds s sent printed) (hm : ¬ s.main.Ended) : ¬ (build n).Stuck s := by
  intro hst
  have hmain : s.mainStep = none := hst (.goesOn .main)
  have hworker : ∀ i, s.workers i = .unspawned ∨ s.workers i = .finished ∨
      s.workers i = .printPanicked := by
    intro i
    have hi : s.workerStep i = none := hst (.goesOn (.worker i))
    have ho := h.send_ok i
    unfold State.workerStep at hi
    cases hw : s.workers i with
    | unspawned => exact .inl rfl
    | sending => simp [hw, hm] at hi
    | printing => simp [hw] at hi
    | finished => exact .inr (.inl rfl)
    | sendPanicked => exact absurd hw ho
    | printPanicked => exact .inr (.inr rfl)
  unfold State.mainStep at hmain
  split at hmain
  · cases hmain
  · cases hmain
  · cases hmain
  · -- main waits for a message, and every worker has sent its own
    rename_i left hrec
    split at hmain
    · rename_i hq
      have hall : ∀ i, i ∈ sent := by
        intro i
        refine (h.mem_sent i).mpr (.inr ((hworker i).resolve_left fun hu => ?_))
        have hs := (h.mem_toSpawn i).mpr hu
        rw [hrec] at hs
        cases hs
      have hlen : sent.length = n := by
        rw [((List.perm_ext_iff_of_nodup h.sent_nodup (List.nodup_finRange n)).mpr
          fun i => ⟨fun _ => List.mem_finRange i, fun _ => hall i⟩).length_eq, List.length_finRange]
      have hids := congrArg List.length h.ids
      have hr := h.received
      rw [hrec] at hr
      simp only [hq, List.append_nil, List.length_map, Main.toReceive] at hids hr
      omega
    · cases hmain
  · cases hmain
  · -- main waits for a worker, which was spawned
    rename_i id ids hj
    have hs : s.workers id ≠ .unspawned := fun hu => by
      have hs := (h.mem_toSpawn id).mpr hu
      rw [hj] at hs
      cases hs
    obtain hf | hp := (hworker id).resolve_left hs
    · rw [hf] at hmain
      cases hmain
    · rw [hp] at hmain
      cases hmain
  · cases hmain
  · cases hmain
  · -- main waits for the handler, which was spawned
    rename_i hj
    have hh : s.handlerStep = none := hst (.goesOn .handler)
    have hu : s.handler ≠ .unspawned := fun hu => h.handler_unspawned.mp hu (.inl hj)
    unfold State.handlerStep at hh
    cases hf : s.handler with
    | unspawned => exact hu hf
    | running => simp [hf] at hh
    | finished => simp [hf] at hmain
  · exact hm (.inl ‹_›)
  · exact hm (.inr ‹_›)

/-- A main that has returned has joined everybody, and nobody can go on. -/
theorem Holds.of_returned (h : Holds s sent printed) (hm : s.main = .returned) :
    (∀ i, s.workers i = .finished) ∧ s.handler = .finished ∧ (build n).Stuck s := by
  have hw : ∀ i, s.workers i = .finished := fun i => by simpa [hm, Main.toJoin] using h.joined i
  have hh := h.handler_finished hm
  refine ⟨hw, hh, fun ev => ?_⟩
  cases ev with
  | goesOn t => cases t <;> simp [build, State.mainStep, State.workerStep, State.handlerStep, hm, hw, hh]
  | printFails t => cases t <;> simp [build, State.printFails, hm, hw]

theorem failed_setWorker {w : Worker} (hw : w ≠ .printPanicked) (hid : s.workers id ≠ .printPanicked) :
    (s.setWorker id w).Failed ↔ s.Failed := by
  refine or_congr_right (exists_congr fun i => ?_)
  by_cases hi : i = id
  · subst hi
    rw [setWorker_self]
    exact iff_of_false hw hid
  · rw [setWorker_of_ne s hi]

/-- A thread has panicked exactly when a println! has failed, whoever's it was. -/
theorem Holds.failed_step (h : Holds s sent printed) (hs : (build n).step s ev = some s') :
    s'.Failed ↔ s.Failed ∨ ∃ t, ev = .printFails t := by
  cases ev with
  | goesOn t =>
    have hev : ¬ ∃ t', Event.goesOn t = .printFails t' := by simp
    rw [or_iff_left hev]
    cases t with
    | main =>
      cases mainMove_of_step hs with
      | spawn hm =>
        rename_i id ids
        have hu : s.workers id = .unspawned := (h.mem_toSpawn id).mp (by simp [hm, Main.toSpawn])
        have hf : (s.setWorker id .sending).Failed ↔ s.Failed := failed_setWorker (by simp) (by simp [hu])
        rw [← hf]
        simp [State.Failed, hm]
      | joinPanicked hm hw =>
        exact iff_of_true (.inl rfl) (.inr ⟨_, hw.resolve_left (h.send_ok _)⟩)
      | allSpawned hm | receive hm | allReceived hm | join hm | allJoined hm | report hm
      | spawnHandler hm | joinHandler hm => simp [State.Failed, hm]
    | worker id =>
      obtain ⟨hw, rfl⟩ | ⟨hw, rfl⟩ := h.worker_cases hs
      · have hf : (s.setWorker id .printing).Failed ↔ s.Failed := failed_setWorker (by simp) (by simp [hw])
        exact hf
      · have hf : (s.setWorker id .finished).Failed ↔ s.Failed := failed_setWorker (by simp) (by simp [hw])
        exact hf
    | handler =>
      change s.handlerStep = some s' at hs
      unfold State.handlerStep at hs
      split at hs
      · cases hs
        exact Iff.rfl
      · cases hs
      · cases hs
  | printFails t =>
    refine iff_of_true ?_ (.inr ⟨t, rfl⟩)
    change s.printFails t = some s' at hs
    cases t with
    | main =>
      simp only [State.printFails] at hs
      split at hs
      · cases hs
        exact .inl rfl
      · cases hs
    | worker id =>
      simp only [State.printFails] at hs
      split at hs
      · cases hs
        exact .inr ⟨id, setWorker_self s id _⟩
      · cases hs
    | handler => cases hs

theorem rank_start : (start n).rank = 5 * n + 7 := by
  simp only [start, State.rank, Main.rank, Worker.rank, Handler.rank, List.length_finRange,
    Finset.sum_const, Finset.card_univ, Fintype.card_fin, smul_eq_mul]
  omega

private theorem sum_setWorker {w v : Worker} (hv : s.workers id = v) :
    ∑ i, ((s.setWorker id w).workers i).rank + v.rank = ∑ i, (s.workers i).rank + w.rank := by
  rw [← hv]
  exact sum_update Worker.rank s.workers id w

/-- Every move lowers the rank, and by no more than one where nobody has panicked. -/
theorem Holds.rank_step (h : Holds s sent printed) (hs : (build n).step s ev = some s') :
    s'.rank < s.rank ∧ (¬ s'.Failed → s'.rank + 1 = s.rank) := by
  have hone : s'.rank + 1 = s.rank → s'.rank < s.rank ∧ (¬ s'.Failed → s'.rank + 1 = s.rank) :=
    fun hr => ⟨by omega, fun _ => hr⟩
  cases ev with
  | goesOn t =>
    cases t with
    | main =>
      cases mainMove_of_step hs with
      | spawn hm =>
        rename_i id ids
        have hu : s.workers id = .unspawned := (h.mem_toSpawn id).mp (by simp [hm, Main.toSpawn])
        have hsum : _ + 2 = _ + 2 := sum_setWorker (w := .sending) hu
        refine hone ?_
        simp only [State.rank, hm, Main.rank, List.length_cons, setWorker_handler]
        omega
      | spawnHandler hm =>
        have hu := h.handler_unspawned.mpr (by simp [hm])
        refine hone ?_
        simp only [State.rank, hm, hu, Main.rank, Handler.rank]
        omega
      | joinPanicked hm hw =>
        refine ⟨?_, fun hf => absurd (.inl rfl) hf⟩
        simp only [State.rank, hm, Main.rank, List.length_cons]
        omega
      | allSpawned hm | receive hm | allReceived hm | join hm | allJoined hm | report hm
      | joinHandler hm =>
        refine hone ?_
        simp only [State.rank, hm, Main.rank, List.length_cons, List.length_nil, List.length_finRange]
        omega
    | worker id =>
      refine hone ?_
      unfold State.rank
      obtain ⟨hw, rfl⟩ | ⟨hw, rfl⟩ := h.worker_cases hs
      · have hsum : _ + 2 = _ + 1 := sum_setWorker (w := .printing) hw
        simp only [setWorker_main, setWorker_handler]
        omega
      · have hsum : _ + 1 = _ + 0 := sum_setWorker (w := .finished) hw
        simp only [setWorker_main, setWorker_handler]
        omega
    | handler =>
      change s.handlerStep = some s' at hs
      unfold State.handlerStep at hs
      split at hs
      · rename_i hh
        cases hs
        refine hone ?_
        simp only [State.rank, hh, Handler.rank]
      · cases hs
      · cases hs
  | printFails t =>
    refine ⟨?_, fun hf => absurd ((h.failed_step hs).mpr (.inr ⟨t, rfl⟩)) hf⟩
    change s.printFails t = some s' at hs
    cases t with
    | main =>
      simp only [State.printFails] at hs
      split at hs
      · rename_i hm
        cases hs
        simp only [State.rank, hm, Main.rank]
        omega
      · cases hs
    | worker id =>
      simp only [State.printFails] at hs
      split at hs
      · rename_i hw
        cases hs
        have hsum : _ + 1 = _ + 0 := sum_setWorker (w := .printPanicked) hw
        simp only [State.rank, setWorker_main, setWorker_handler]
        omega
      · cases hs
    | handler => cases hs

theorem Holds.rank_eq_zero_iff (h : Holds s sent printed) (hf : ¬ s.Failed) :
    s.rank = 0 ↔ s.main = .returned := by
  constructor
  · intro hz
    have hm : s.main.rank = 0 := by
      rw [State.rank] at hz
      omega
    cases hp : s.main with
    | returned => rfl
    | panicked => exact absurd (.inl hp) hf
    | _ => simp [hp, Main.rank] at hm
  · intro hm
    obtain ⟨hw, hh, -⟩ := h.of_returned hm
    simp [State.rank, hm, hw, hh, Main.rank, Worker.rank, Handler.rank]

/-- What a run from the start has come to: its panics and its length. -/
structure Ran (ts : List (Event n)) (s : State n) : Prop where
  holds : ∃ sent printed, Holds s sent printed
  failed : s.Failed ↔ ∃ t, .printFails t ∈ ts
  length_le : ts.length + s.rank ≤ 5 * n + 7
  length_eq : ¬ s.Failed → ts.length + s.rank = 5 * n + 7

theorem ran (hr : (build n).run (start n) ts = some s) : Ran ts s := by
  refine run_history (P := Ran) ?_ ⟨⟨_, _, holds_start⟩, ?_, ?_, ?_⟩ hr
  · rintro us s ev s' ⟨⟨sent, printed, h⟩, hf, hle, heq⟩ hs
    obtain ⟨sent', printed', h', -⟩ := h.step hs
    have hfs := h.failed_step hs
    obtain ⟨hlt, hone⟩ := h.rank_step hs
    refine ⟨⟨sent', printed', h'⟩, ?_, ?_, fun hn => ?_⟩
    · rw [hfs, hf]
      simp only [List.mem_append, List.mem_singleton, exists_or, eq_comm]
    · rw [List.length_append, List.length_singleton]
      omega
    · have hs' := hone hn
      have hu := heq fun hfu => hn (hfs.mpr (.inl hfu))
      rw [List.length_append, List.length_singleton]
      omega
  · simp [State.Failed, start]
  · simp [rank_start]
  · simp [rank_start]

/-- No send and no receive fails, and nobody panics before a println! has failed. No message is
lost, doubled or overtaken: what main has received and what waits in the channel are the ids of
the workers that have sent, once each, and whatever comes next only appends to them. -/
theorem messages_kept {us : List (Event n)} (hr : (build n).run (start n) ts = some s)
    (hr' : (build n).run s us = some s') :
    ((s.main = .panicked ∨ ∃ i, s.workers i = .printPanicked) ↔ ∃ t, .printFails t ∈ ts) ∧
    (∀ i, s.workers i ≠ .sendPanicked) ∧
    (∃ sent : List (Fin n), sent.Nodup ∧ (∀ i, i ∈ sent ↔ (s.workers i).Sent) ∧
      s.threadIds ++ s.queue = sent.map message) ∧
    s.threadIds ++ s.queue <+: s'.threadIds ++ s'.queue := by
  obtain ⟨⟨sent, printed, h⟩, hf, -, -⟩ := ran hr
  obtain ⟨sent', printed', h', hp⟩ := h.run hr'
  refine ⟨hf, h.send_ok, ⟨sent, h.sent_nodup, h.mem_sent, h.ids⟩, ?_⟩
  rw [h.ids, h'.ids]
  exact hp.map message

/-- The second worker sends first and cannot print; main receives its id before the first has
sent. -/
theorem messages_kept_second_first : ∃ s s',
    (build 2).run (start 2) [.goesOn .main, .goesOn .main, .goesOn .main, .goesOn (.worker 1),
      .goesOn .main, .printFails (.worker 1)] = some s ∧
    (build 2).run s [.goesOn (.worker 0)] = some s' ∧
    s.threadIds ++ s.queue <+: s'.threadIds ++ s'.queue := by
  obtain ⟨s, s', hr, hr'⟩ : ∃ s s',
      (build 2).run (start 2) [.goesOn .main, .goesOn .main, .goesOn .main, .goesOn (.worker 1),
        .goesOn .main, .printFails (.worker 1)] = some s ∧
      (build 2).run s [.goesOn (.worker 0)] = some s' := ⟨_, _, rfl, rfl⟩
  exact ⟨s, s', hr, hr', (messages_kept hr hr').2.2.2⟩

/-- No deadlock: every schedule comes to an end. While every println! goes well it has one
length, and ends where main has returned; after one has failed main never returns, and at the
end it has panicked. -/
theorem every_run_ends (hr : (build n).run (start n) ts = some s) :
    ts.length ≤ 5 * n + 7 ∧
    ((∀ t, .printFails t ∉ ts) →
      ((build n).Stuck s ↔ ts.length = 5 * n + 7) ∧ ((build n).Stuck s ↔ s.main = .returned)) ∧
    ((∃ t, .printFails t ∈ ts) → s.main ≠ .returned ∧ ((build n).Stuck s → s.main = .panicked)) := by
  obtain ⟨⟨sent, printed, h⟩, hf, hle, heq⟩ := ran hr
  have hended : (build n).Stuck s → s.main.Ended := fun hst => of_not_not fun he => h.not_stuck he hst
  refine ⟨by omega, fun hno => ?_, fun hex => ?_⟩
  · have hn : ¬ s.Failed := fun hs => by
      obtain ⟨t, ht⟩ := hf.mp hs
      exact hno t ht
    have hlen := heq hn
    have hst : (build n).Stuck s ↔ s.main = .returned :=
      ⟨fun hst => (hended hst).resolve_right fun hp => hn (.inl hp), fun hm => (h.of_returned hm).2.2⟩
    refine ⟨?_, hst⟩
    rw [hst, ← h.rank_eq_zero_iff hn]
    omega
  · have hne : s.main ≠ .returned := fun hm => by
      obtain hp | ⟨i, hi⟩ := hf.mpr hex
      · rw [hm] at hp
        cases hp
      · rw [(h.of_returned hm).1 i] at hi
        cases hi
    exact ⟨hne, fun hst => (hended hst).resolve_left hne⟩

/-- One worker, which prints its line after main has received its id. -/
theorem every_run_ends_one : ∃ s, (build 1).run (start 1) ([.main, .main, .worker 0, .main, .main,
    .worker 0, .main, .main, .main, .main, .handler, .main].map .goesOn) = some s ∧ (build 1).Stuck s := by
  obtain ⟨s, hr⟩ : ∃ s, (build 1).run (start 1) ([.main, .main, .worker 0, .main, .main,
      .worker 0, .main, .main, .main, .main, .handler, .main].map .goesOn) = some s := ⟨_, rfl⟩
  have hno : ∀ t, Event.printFails t ∉ [Thread.main, .main, .worker (0 : Fin 1), .main, .main,
      .worker 0, .main, .main, .main, .main, .handler, .main].map .goesOn := by simp
  exact ⟨s, hr, (((every_run_ends hr).2.1 hno).1).mpr rfl⟩

end Idula.Rs.Build
