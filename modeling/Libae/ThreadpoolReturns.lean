import Libae.Progress
import Libae.ThreadpoolStart

/-! # `ae_threadpool_join` returns

The caller of `ae_threadpool_join` sends a stop message for each worker, to a queue that may
be full, and then waits for the workers one by one.  It is never stuck.  While it sends,
fewer workers have exited than there are, and one of the others makes room: a running job
returns, and a waiting worker receives.  While it waits for a worker, the stop message that
this worker needs is in the queue, since the others took at most one each.

So, if all workers were started, jobs return, the calls of the kernel do not fail and
nobody enqueues any more, `ae_threadpool_join` returns `true` within `work` steps
(`join_returns`).
-/
namespace Libae
open Runs

/-- The steps a worker takes before it receives again. -/
def Worker.work {J : Type} : Worker J → Nat
  | .running _ => 1
  | .waiting | .exited => 0

@[simp] theorem Worker.work_running {J : Type} (job : J) : (Worker.running job).work = 1 := rfl

@[simp] theorem Worker.work_waiting {J : Type} : (Worker.waiting : Worker J).work = 0 := rfl

@[simp] theorem Worker.work_exited {J : Type} : (Worker.exited : Worker J).work = 0 := rfl

namespace Threadpool
variable {J : Type} {w n : Nat}

/-- The steps of the caller.  A stop message is sent in one and received in another. -/
def Join.work (n : Nat) : Join → Nat
  | .idle => 3 * n + (n + 3)
  | .sending i => 3 * (n - i) + (n + 2)
  | .joining i => n - i + 1
  | .returned _ => 0

/-- The steps a pool that is joined still takes.  A message is received, and its job
returns. -/
def Joining.work (n : Nat) (s : Joining J w) : Nat :=
  2 * s.pool.queue.entries.length + ∑ i, (s.pool.worker i).work + s.caller.work n

/-- The steps of the workers and of the caller, with calls of the kernel that do not fail. -/
def JoinAction.goesOn : JoinAction J w → Prop
  | .pool (.receive _ _) | .pool (.ran _ _) | .call | .stop | .stopped | .join | .joined => True
  | _ => False

/-- A pool that is joined and that nobody enqueues to. -/
def ending (J : Type) (n : Nat) : System (Joining J n) (JoinAction J n) :=
  (joining J n n).restrict (fun _ a => a.goesOn)

section Facts
variable {s t : Joining J n} {a : JoinAction J n}

/-- The caller is in one of its loops, or behind them. -/
theorem caller_le (hs : (joining J n n).Reachable s) {i : Nat}
    (hc : s.caller = .sending i ∨ s.caller = .joining i) : i ≤ n := by
  have hle : ∀ i, s.caller = .sending i ∨ s.caller = .joining i → i ≤ n := by
    refine hs.invariant
      (I := fun s => ∀ i, s.caller = .sending i ∨ s.caller = .joining i → i ≤ n) ?_ ?_
    · rintro s rfl i (h | h) <;> cases h
    · intro s a t ih h i hi
      cases h with
      | pool _ _ => exact ih i hi
      | call _ | stopped _ =>
        rcases hi with hi | hi <;> cases hi
        exact Nat.zero_le n
      | stop _ hlt _ | join _ _ hlt _ =>
        rcases hi with hi | hi <;> cases hi
        exact hlt
      | stopFailed _ _ _ | joinFailed _ _ | joined _ => rcases hi with hi | hi <;> cases hi
  exact hle i hc

/-- The stop messages that the caller has sent are in the queue, or were taken by workers
that have exited. -/
theorem sent_account (hs : (joining J n n).Reachable s) {k : Nat}
    (hk : s.caller.sentStops n = some k) : k = s.pool.stopsQueued + s.pool.exitedWorkers.card := by
  obtain ⟨s₀, τs, rfl, hr⟩ := hs
  rw [← stops_run rfl (ofPool_run hr)]
  exact (sentStops_run rfl hr k hk).symm

end Facts

/-! ## Every step is one fewer -/

section Measure
variable {s t : Joining J n} {a : JoinAction J n}

/-- One worker's steps. -/
theorem worker_work {p : Threadpool J n} (i : Fin n) (v : Worker J) :
    ∑ k, (Function.update p.worker i v k).work + (p.worker i).work =
      ∑ k, (p.worker k).work + v.work :=
  System.sum_update Worker.work p.worker i v

theorem ending_decreases (h : (ending J n).step s a t) :
    t.work n < s.work n := by
  obtain ⟨hgo, hst⟩ := h
  cases hst with
  | @pool b p hothers h =>
    cases h with
    | @receive i msg queue hw hreceive =>
      obtain ⟨_, hentries⟩ := PriorityQueue.receive_entries hreceive
      have hsum := worker_work (p := s.pool) i (run (.ok msg))
      have hnext : (run (.ok msg) : Worker J).work ≤ 1 := by cases msg <;> simp [run]
      rw [hw, Worker.work_waiting] at hsum
      simp only [Joining.work, hentries, List.length_cons]
      omega
    | @ran i job hw =>
      have hsum := worker_work (p := s.pool) i .waiting
      rw [hw, Worker.work_running, Worker.work_waiting] at hsum
      simp only [Joining.work]
      omega
    | enque _ | enqueFailed _ | stop _ | stopFailed _ => exact hgo.elim
  | call hc | stopped hc | joined hc =>
    simp only [Joining.work, hc, Join.work]
    omega
  | @stop i p hc hlt h =>
    cases h with
    | stop hsend =>
      obtain ⟨-, hlen⟩ := PriorityQueue.send_length (send_ok hsend)
      simp only [Joining.work, hc, Join.work, hlen]
      omega
  | join _ hc hlt _ =>
    simp only [Joining.work, hc, Join.work]
    omega
  | stopFailed _ _ _ | joinFailed _ _ => exact hgo.elim

end Measure

/-! ## There is always a step -/

section Moves
variable {s : Joining J n}

/-- A worker that has not exited goes on, unless it waits at an empty queue. -/
theorem worker_moves {i : Fin n} (hi : s.pool.worker i ≠ .exited)
    (hq : s.pool.worker i = .waiting → s.pool.queue.entries ≠ []) :
    ∃ a t, (ending J n).step s a t := by
  cases hw : s.pool.worker i with
  | exited => exact absurd hw hi
  | running job => exact ⟨.pool (.ran i job), _, trivial, .pool trivial (.ran hw)⟩
  | waiting =>
    obtain ⟨msg, queue, hreceive⟩ := PriorityQueue.receive_of_ne_nil (hq hw)
    exact ⟨.pool (.receive i msg), _, trivial, .pool trivial (.receive hw hreceive)⟩

/-- **While the caller sends**, the queue has room, or a worker goes on. -/
theorem sending_moves (hs : (joining J n n).Reachable s) {i : Nat} (hc : s.caller = .sending i)
    (hi : i < n) : ∃ a t, (ending J n).step s a t := by
  by_cases hroom : s.pool.queue.entries.length < maxmsg
  · obtain ⟨queue, hsend⟩ := PriorityQueue.send_room
      (p := ThreadpoolPriority.stop.value) (a := .stop) hroom
    have hstop : sendStop s.pool.queue (.ok ()) = some (.ok queue) := by
      rw [sendStop, send, hsend]
      rfl
    exact ⟨.stop, _, trivial, .stop hc hi (.stop hstop)⟩
  · -- so many stop messages were sent that some worker has had none
    have hsent : i = s.pool.stopsQueued + s.pool.exitedWorkers.card :=
      sent_account hs (by rw [hc]; rfl)
    have hfew : s.pool.exitedWorkers.card < Fintype.card (Fin n) := by
      rw [Fintype.card_fin]
      omega
    obtain ⟨k, hk⟩ : ∃ k, k ∉ s.pool.exitedWorkers := by
      by_contra hall
      rw [not_exists_not] at hall
      rw [Finset.eq_univ_of_forall hall, Finset.card_univ] at hfew
      exact Nat.lt_irrefl _ hfew
    refine worker_moves (fun hexit => hk (mem_exitedWorkers.mpr hexit)) fun _ hnil => ?_
    rw [hnil] at hroom
    exact hroom (Nat.zero_lt_succ 9)

/-- **While the caller waits for a worker**, that worker has exited, or its stop message is in
the queue. -/
theorem joining_moves (hs : (joining J n n).Reachable s) {i : Nat} (hc : s.caller = .joining i)
    (hi : i < n) : ∃ a t, (ending J n).step s a t := by
  by_cases hexit : s.pool.worker ⟨i, hi⟩ = .exited
  · exact ⟨.join, _, trivial, .join hi hc hi hexit⟩
  · have hsent : n = s.pool.stopsQueued + s.pool.exitedWorkers.card :=
      sent_account hs (by rw [hc]; rfl)
    have hfew : s.pool.exitedWorkers.card < Fintype.card (Fin n) :=
      Finset.card_lt_univ_of_notMem fun hmem => hexit (mem_exitedWorkers.mp hmem)
    rw [Fintype.card_fin] at hfew
    refine worker_moves hexit fun _ hnil => ?_
    have hnone : s.pool.stopsQueued = 0 := by rw [stopsQueued, hnil, List.countP_nil]
    omega

end Moves

/-! ## Returning -/

/-- What holds while no call of the kernel has failed. -/
def Sound (s : Joining J n) : Prop :=
  (joining J n n).Reachable s ∧ ∀ text, s.caller ≠ .returned (.error text)

theorem ending_progress : (ending J n).Progress Sound (Joining.work n)
    (fun s => s.caller = .returned (.ok ())) where
  keep s a t hs h := by
    refine ⟨hs.1.step h.2, fun text => ?_⟩
    obtain ⟨hgo, hst⟩ := h
    cases hst with
    | pool _ _ => exact hs.2 text
    | stopFailed _ _ _ | joinFailed _ _ => exact hgo.elim
    | call _ | stop _ _ _ | stopped _ | join _ _ _ _ | joined _ => simp
  decreases _ _ _ _ h := ending_decreases h
  moves s hs hno := by
    cases hc : s.caller with
    | idle => exact ⟨.call, _, trivial, .call hc⟩
    | sending i =>
      rcases Nat.lt_or_eq_of_le (caller_le hs.1 (.inl hc)) with hlt | rfl
      · exact sending_moves hs.1 hc hlt
      · exact ⟨.stopped, _, trivial, .stopped hc⟩
    | joining i =>
      rcases Nat.lt_or_eq_of_le (caller_le hs.1 (.inr hc)) with hlt | rfl
      · exact joining_moves hs.1 hc hlt
      · exact ⟨.joined, _, trivial, .joined hc⟩
    | returned r =>
      cases r with
      | ok _ => exact absurd hc hno
      | error text => exact absurd hc (hs.2 text)

/-- **Joining returns.**  Take a pool whose `n` workers were all started, in any state that it
can reach before `ae_threadpool_join` has failed.  If nobody enqueues any more and the kernel
answers without an error, the workers and the caller take at most `work` steps from there,
in whatever order, and where they stop the call has returned `true` and all workers have
exited. -/
theorem join_returns {s : Joining J n} (hs : (joining J n n).Reachable s)
    (hok : ∀ text, s.caller ≠ .returned (.error text))
    {τs : List (Transition (Joining J n) (JoinAction J n))} {t : Joining J n}
    (hr : (ending J n).Run s τs t) :
    τs.length ≤ s.work n ∧ ((∀ a u, ¬ (ending J n).step t a u) →
      t.caller = .returned (.ok ()) ∧ ∀ i, t.pool.worker i = .exited) := by
  have hlen := ending_progress.length_le hr ⟨hs, hok⟩
  refine ⟨by omega, fun hstuck => ?_⟩
  have hret := ending_progress.ends hr ⟨hs, hok⟩ hstuck
  obtain ⟨s₀, ρs, rfl, hρ⟩ := hs
  exact ⟨hret, exited_of_returned (hρ.append hr.of_restrict) hret⟩

/-- Joining two workers. -/
theorem join_returns_two : ∃ τs t, (ending Nat 2).Run ⟨started, .idle⟩ τs t ∧
    τs.length ≤ 11 ∧ t.caller = .returned (.ok ()) := by
  have hs : (joining Nat 2 2).Reachable ⟨started, .idle⟩ := .of_init rfl
  have hok : ∀ text, (⟨started, .idle⟩ : Joining Nat 2).caller ≠ .returned (.error text) := by simp
  obtain ⟨τs, t, hr, hret⟩ := ending_progress.finishes ⟨hs, hok⟩
  exact ⟨τs, t, hr, (join_returns hs hok hr).1, hret⟩

end Threadpool
end Libae
