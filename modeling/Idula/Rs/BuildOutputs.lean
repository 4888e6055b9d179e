import Idula.Rs.BuildRuns

/-! All that the build script can print: the workers' lines in any order, then the list of
the ids in any other. -/
namespace Idula.Rs.Build
open Library.Schedules
variable {n : Nat}

private theorem update_all {w : Fin n → Worker} {v : Worker} {id : Fin n} {ids : List (Fin n)} :
    (fun i => if i ∈ ids then v else Function.update w id v i) =
      fun i => if i ∈ id :: ids then v else w i := by
  funext i
  by_cases hi : i = id
  · simp [hi]
  · simp [hi]

/-- Main spawns all the workers before any of them moves. -/
private theorem run_spawn (ids : List (Fin n)) (w : Fin n → Worker) (h : Handler)
    (queue threadIds out : List String) :
    (build n).run ⟨.spawning ids, w, h, queue, threadIds, out⟩ (List.replicate (ids.length + 1) (.goesOn .main)) =
    some ⟨.receiving n, fun i => if i ∈ ids then .sending else w i, h, queue, threadIds, out⟩ := by
  induction ids generalizing w with
  | nil => simp [List.replicate, run_cons, build, State.mainStep]
  | cons id ids ih =>
    have hs : (build n).step ⟨.spawning (id :: ids), w, h, queue, threadIds, out⟩ (.goesOn .main) =
        some ⟨.spawning ids, Function.update w id .sending, h, queue, threadIds, out⟩ := rfl
    rw [List.length_cons, List.replicate_succ, run_of_step hs, ih, update_all]

/-- The workers p send one after the other, while main waits. -/
private theorem run_sends (left : Nat) {p : List (Fin n)} (hp : p.Nodup) (w : Fin n → Worker)
    (hw : ∀ i ∈ p, w i = .sending) (h : Handler) (queue threadIds out : List String) :
    (build n).run ⟨.receiving left, w, h, queue, threadIds, out⟩ (p.map fun i => .goesOn (.worker i)) =
    some ⟨.receiving left, fun i => if i ∈ p then .printing else w i, h,
      queue ++ p.map message, threadIds, out⟩ := by
  induction p generalizing w queue with
  | nil => simp
  | cons id p ih =>
    obtain ⟨hid, hp⟩ := List.nodup_cons.mp hp
    have hs : (build n).step ⟨.receiving left, w, h, queue, threadIds, out⟩ (.goesOn (.worker id)) =
        some ⟨.receiving left, Function.update w id .printing, h, queue ++ [message id],
          threadIds, out⟩ := by
      simp [build, State.workerStep, hw id List.mem_cons_self, Main.Ended, State.setWorker]
    have hw' : ∀ i ∈ p, Function.update w id .printing i = .sending := by
      intro i hi
      have hne : i ≠ id := fun e => hid (e ▸ hi)
      simpa [hne] using hw i (List.mem_cons_of_mem id hi)
    rw [List.map_cons, run_of_step hs, ih hp _ hw', update_all, List.append_assoc]
    rfl

/-- The workers q print their lines one after the other. -/
private theorem run_prints (m : Main n) {q : List (Fin n)} (hq : q.Nodup) (w : Fin n → Worker)
    (hw : ∀ i ∈ q, w i = .printing) (h : Handler) (queue threadIds out : List String) :
    (build n).run ⟨m, w, h, queue, threadIds, out⟩ (q.map fun i => .goesOn (.worker i)) =
    some ⟨m, fun i => if i ∈ q then .finished else w i, h, queue, threadIds,
      out ++ q.map finishedLine⟩ := by
  induction q generalizing w out with
  | nil => simp
  | cons id q ih =>
    obtain ⟨hid, hq⟩ := List.nodup_cons.mp hq
    have hs : (build n).step ⟨m, w, h, queue, threadIds, out⟩ (.goesOn (.worker id)) =
        some ⟨m, Function.update w id .finished, h, queue, threadIds, out ++ [finishedLine id]⟩ := by
      simp [build, State.workerStep, hw id List.mem_cons_self, State.setWorker]
    have hw' : ∀ i ∈ q, Function.update w id .finished i = .printing := by
      intro i hi
      have hne : i ≠ id := fun e => hid (e ▸ hi)
      simpa [hne] using hw i (List.mem_cons_of_mem id hi)
    rw [List.map_cons, run_of_step hs, ih hq _ hw', update_all, List.append_assoc]
    rfl

/-- Main receives all that waits. -/
private theorem run_receives (w : Fin n → Worker) (h : Handler) (queue threadIds out : List String) :
    (build n).run ⟨.receiving queue.length, w, h, queue, threadIds, out⟩
      (List.replicate (queue.length + 1) (.goesOn .main)) =
    some ⟨.joining (List.finRange n), w, h, [], threadIds ++ queue, out⟩ := by
  induction queue generalizing threadIds with
  | nil => simp [List.replicate, run_cons, build, State.mainStep]
  | cons st queue ih =>
    have hs : (build n).step ⟨.receiving (queue.length + 1), w, h, st :: queue, threadIds, out⟩ (.goesOn .main) =
        some ⟨.receiving queue.length, w, h, queue, threadIds ++ [st], out⟩ := rfl
    rw [List.length_cons, List.replicate_succ, run_of_step hs, ih, List.append_assoc]
    rfl

/-- Main joins workers that have all finished. -/
private theorem run_joins (ids : List (Fin n)) {w : Fin n → Worker} (hw : ∀ i, w i = .finished)
    (h : Handler) (queue threadIds out : List String) :
    (build n).run ⟨.joining ids, w, h, queue, threadIds, out⟩ (List.replicate (ids.length + 1) (.goesOn .main)) =
    some ⟨.reporting, w, h, queue, threadIds, out⟩ := by
  induction ids with
  | nil => rfl
  | cons id ids ih =>
    have hs : (build n).step ⟨.joining (id :: ids), w, h, queue, threadIds, out⟩ (.goesOn .main) =
        some ⟨.joining ids, w, h, queue, threadIds, out⟩ := by
      simp [build, State.mainStep, hw id]
    rw [List.length_cons, List.replicate_succ, run_of_step hs, ih]

/-- The last moves: the report and the handler. -/
private theorem run_report (w : Fin n → Worker) (queue threadIds out : List String) :
    (build n).run ⟨.reporting, w, .unspawned, queue, threadIds, out⟩ [.goesOn .main, .goesOn .main, .goesOn .handler,
      .goesOn .main] =
    some ⟨.returned, w, .finished, queue, threadIds, out ++ [debugPretty threadIds]⟩ := rfl

/-- A schedule in which the workers send in the order p and print in the order q. -/
def schedule (p q : List (Fin n)) : List (Event n) :=
  List.replicate (n + 1) (.goesOn .main) ++ (p.map (fun i => .goesOn (.worker i)) ++
    (q.map (fun i => .goesOn (.worker i)) ++ (List.replicate (n + 1) (.goesOn .main) ++
      (List.replicate (n + 1) (.goesOn .main) ++
        [.goesOn .main, .goesOn .main, .goesOn .handler, .goesOn .main]))))

theorem run_schedule {p q : List (Fin n)} (hp : p.Perm (List.finRange n))
    (hq : q.Perm (List.finRange n)) :
    (build n).run (start n) (schedule p q) = some ⟨.returned, fun _ => .finished, .finished, [],
      p.map message, q.map finishedLine ++ [debugPretty (p.map message)]⟩ := by
  have hip : ∀ i, i ∈ p := fun i => hp.mem_iff.mpr (List.mem_finRange i)
  have hiq : ∀ i, i ∈ q := fun i => hq.mem_iff.mpr (List.mem_finRange i)
  have hlen : (p.map message).length = n := by
    rw [List.length_map, hp.length_eq, List.length_finRange]
  have hspawn := run_spawn (List.finRange n) (fun _ => .unspawned) .unspawned [] [] []
  have hsend := run_sends n (hp.nodup_iff.mpr (List.nodup_finRange n)) (fun _ => .sending)
    (fun _ _ => rfl) .unspawned [] [] []
  have hprint := run_prints (.receiving n) (hq.nodup_iff.mpr (List.nodup_finRange n))
    (fun _ => .printing) (fun _ _ => rfl) .unspawned (p.map message) [] []
  have hreceive := run_receives (fun _ : Fin n => .finished) .unspawned (p.map message) []
    (q.map finishedLine)
  have hjoin := run_joins (List.finRange n) (fun _ => rfl) .unspawned [] (p.map message)
    (q.map finishedLine)
  rw [List.length_finRange] at hspawn hjoin
  rw [hlen] at hreceive
  simp only [List.mem_finRange, hip, hiq, if_true, List.nil_append] at hspawn hsend hprint hreceive
  rw [schedule, start, run_append_of_eq hspawn, run_append_of_eq hsend, run_append_of_eq hprint,
    run_append_of_eq hreceive, run_append_of_eq hjoin, run_report]

/-- What a run prints that main completes is a line of every worker, in any order, and then the
ids as main received them, in any order whatever the lines' is. -/
theorem outputs_iff (n : Nat) (out : List String) :
    (∃ ts s, (build n).run (start n) ts = some s ∧ s.main = .returned ∧ s.out = out) ↔
    ∃ p q : List (Fin n), p.Perm (List.finRange n) ∧ q.Perm (List.finRange n) ∧
      out = q.map finishedLine ++ [debugPretty (p.map message)] := by
  constructor
  · rintro ⟨ts, s, hr, hm, rfl⟩
    obtain ⟨sent, printed, h, -⟩ := holds_start.run hr
    obtain ⟨hw, -, -⟩ := h.of_returned hm
    have hsent : sent.Perm (List.finRange n) := (List.perm_ext_iff_of_nodup h.sent_nodup
      (List.nodup_finRange n)).mpr fun i => by simp [h.mem_sent, Worker.Sent, hw]
    have hprinted : printed.Perm (List.finRange n) := (List.perm_ext_iff_of_nodup h.printed_nodup
      (List.nodup_finRange n)).mpr fun i => by simp [h.mem_printed, hw]
    have hids := h.ids
    have hqueue : s.queue = [] := by
      have hlen := congrArg List.length hids
      have hrec := h.received
      rw [hm] at hrec
      rw [List.length_append, List.length_map, hsent.length_eq, List.length_finRange] at hlen
      exact List.eq_nil_of_length_eq_zero (by simp only [Main.toReceive] at hrec; omega)
    rw [hqueue, List.append_nil] at hids
    refine ⟨sent, printed, hsent, hprinted, ?_⟩
    rw [h.out, ← hids, if_pos (.inr (.inr hm))]
  · rintro ⟨p, q, hp, hq, rfl⟩
    exact ⟨schedule p q, _, run_schedule hp hq, rfl, rfl⟩

end Idula.Rs.Build
