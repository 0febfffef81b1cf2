import Libae.ThreadpoolHistory
import Mathlib.Data.Fintype.Card

/-! # What becomes of a stop message

Stop messages do not say whom they stop.  But a worker that takes one exits, so that it
takes no other, and exits on nothing else.  So the stop messages sent are those in the
queue and one for each worker that has exited (`stops_step`).  `ae_threadpool_join`
sends one for each worker: when it has returned `true`, every worker has exited, and no
stop message is left for threads that are started later (`stops_account`).
-/
namespace Libae
open Runs

/-! ## Counting -/

/-- The message is a stop message. -/
def ThreadpoolMsg.isStop {J : Type} : ThreadpoolMsg J → Bool
  | .stop => true
  | .job _ => false

/-- The thread has left `ae_threadpool_run`. -/
def Worker.hasExited {J : Type} : Worker J → Bool
  | .exited => true
  | _ => false

namespace Threadpool
variable {J : Type} {w n : Nat}

/-- The step sends a stop message. -/
def Action.sendsStop : Action J w → Bool
  | .stop => true
  | _ => false

/-- The worker took a stop message. -/
def Deed.takesStop : Deed J → Bool
  | .received msg => msg.isStop
  | .ran _ => false

/-- The stop messages that were sent. -/
def stopsSent (τs : List (Transition (Threadpool J w) (Action J w))) : Nat :=
  τs.countP (fun τ => τ.action.sendsStop)

/-- The stop messages in the queue. -/
def stopsQueued (s : Threadpool J w) : Nat := s.queue.entries.countP (fun x => x.2.isStop)

/-- The workers that have exited. -/
def exitedWorkers (s : Threadpool J w) : Finset (Fin w) :=
  Finset.univ.filter (fun i => (s.worker i).hasExited)

section Workers
variable {s : Threadpool J w} {i : Fin w} {queue : PriorityQueue (ThreadpoolMsg J)} {v : Worker J}

theorem mem_exitedWorkers : i ∈ s.exitedWorkers ↔ s.worker i = .exited := by
  simp only [exitedWorkers, Finset.mem_filter, Finset.mem_univ, true_and]
  cases s.worker i <;> simp [Worker.hasExited]

/-- A worker that had not exited exits. -/
theorem exitedWorkers_exit (h : s.worker i ≠ .exited) :
    (exitedWorkers ⟨queue, Function.update s.worker i .exited⟩).card =
      s.exitedWorkers.card + 1 := by
  have hnot : i ∉ s.exitedWorkers := fun hmem => h (mem_exitedWorkers.mp hmem)
  rw [← Finset.card_insert_of_notMem hnot]
  congr 1
  ext k
  rw [Finset.mem_insert, mem_exitedWorkers, mem_exitedWorkers]
  by_cases hk : k = i
  · simp [hk]
  · simp [hk]

/-- A worker that had not exited goes on. -/
theorem exitedWorkers_goOn (h : s.worker i ≠ .exited) (hv : v ≠ .exited) :
    exitedWorkers ⟨queue, Function.update s.worker i v⟩ = s.exitedWorkers := by
  ext k
  rw [mem_exitedWorkers, mem_exitedWorkers]
  by_cases hk : k = i
  · subst hk
    simp [h, hv]
  · simp [hk]

end Workers

/-! ## One step -/

/-- Sending adds the message to those in the queue. -/
theorem send_stops {s : Threadpool J w} {queue : PriorityQueue (ThreadpoolMsg J)}
    {msg : ThreadpoolMsg J} {priority : ThreadpoolPriority}
    (h : send s.queue msg priority (.ok ()) = some (.ok queue)) :
    stopsQueued { s with queue := queue } = s.stopsQueued + if msg.isStop then 1 else 0 := by
  show queue.entries.countP _ = _
  rw [PriorityQueue.send_entries (send_ok h), (PriorityQueue.insertEntry_perm _ _ _).countP_eq,
    List.countP_cons]
  rfl

/-- **A stop message** is sent, and stays in the queue until a worker exits on it. -/
theorem stops_step {s t : Threadpool J w} {a : Action J w} (h : Step s a t) :
    t.stopsQueued + t.exitedWorkers.card =
      s.stopsQueued + s.exitedWorkers.card + if a.sendsStop then 1 else 0 := by
  cases h with
  | enque h =>
    rw [send_stops h]
    rfl
  | stop h =>
    rw [send_stops h, Nat.add_right_comm]
    rfl
  | enqueFailed _ | stopFailed _ => rfl
  | @receive i msg queue hw h =>
    have hwaiting : s.worker i ≠ .exited := by simp [hw]
    obtain ⟨p, he⟩ := PriorityQueue.receive_entries h
    have hqueued : s.stopsQueued = queue.entries.countP (fun x => x.2.isStop) +
        if msg.isStop then 1 else 0 := by
      rw [stopsQueued, he, List.countP_cons]
    cases msg with
    | stop =>
      rw [hqueued, show run (.ok .stop) = (.exited : Worker J) from rfl,
        exitedWorkers_exit hwaiting]
      simp only [stopsQueued, ThreadpoolMsg.isStop, Action.sendsStop, if_true, Bool.false_eq_true,
        if_false]
      omega
    | job job =>
      rw [hqueued, exitedWorkers_goOn hwaiting (by simp [run])]
      rfl
  | @ran i job hw =>
    have hrunning : s.worker i ≠ .exited := by simp [hw]
    rw [exitedWorkers_goOn hrunning (by simp)]
    rfl

/-! ## A run -/

/-- The stop messages of a run. -/
theorem stops_run {s t : Threadpool J w} {τs : List (Transition (Threadpool J w) (Action J w))}
    (hs : (threadpool J w).init s) (hr : (threadpool J w).Run s τs t) :
    stopsSent τs = t.stopsQueued + t.exitedWorkers.card := by
  induction hr with
  | nil =>
    cases hs
    have hnone : (started : Threadpool J w).exitedWorkers = ∅ := by
      simp [exitedWorkers, started, Worker.hasExited]
    rw [hnone]
    rfl
  | @snoc τs t u a _ hst ih =>
    rw [stops_step hst, ← ih, stopsSent, List.countP_append, List.countP_singleton]
    rfl

/-- A worker takes at most one stop message. -/
theorem takes_one_stop {s t : Threadpool J w}
    {τs : List (Transition (Threadpool J w) (Action J w))} (hs : (threadpool J w).init s)
    (hr : (threadpool J w).Run s τs t) (i : Fin w) : (deeds τs i).countP Deed.takesStop ≤ 1 := by
  obtain ⟨jobs, hd⟩ := (accounting hs hr).2 i
  have hserved : (served jobs).countP Deed.takesStop = 0 := by
    rw [List.countP_eq_zero]
    intro d hmem
    obtain ⟨job, -, hmem⟩ := List.mem_flatMap.mp hmem
    rcases List.mem_pair.mp hmem with rfl | rfl <;> simp [Deed.takesStop, ThreadpoolMsg.isStop]
  rw [hd, List.countP_append, hserved, Nat.zero_add]
  exact Nat.le_trans List.countP_le_length (by cases t.worker i <;> simp [holding])

/-! ## Joining -/

/-- How many stop messages the caller has sent, if no send failed. -/
def Join.sentStops (n : Nat) : Join → Option Nat
  | .idle => some 0
  | .sending i => some i
  | .joining _ | .returned (.ok ()) => some n
  | .returned (.error _) => none

/-- **The caller's loop** sends one stop message in each round, and nobody else sends any. -/
theorem sentStops_run {s t : Joining J w} {τs : List (Transition (Joining J w) (JoinAction J w))}
    (hs : (joining J w n).init s) (hr : (joining J w n).Run s τs t) :
    ∀ k ∈ t.caller.sentStops n, stopsSent (ofPool τs) = k := by
  induction hr with
  | nil =>
    cases hs
    intro k hk
    cases hk
    rfl
  | @snoc τs t u a _ hst ih =>
    have hsent : stopsSent (ofPool (τs ++ [⟨t, a, u⟩])) = stopsSent (ofPool τs) +
        if (a.action.map Action.sendsStop).getD false then 1 else 0 := by
      simp only [ofPool, stopsSent, List.filterMap_append, List.countP_append]
      cases h : a.action <;> simp [h, List.countP_cons]
    rw [hsent]
    cases hst with
    | @pool b p hothers _ =>
      have hno : b.sendsStop = false := by
        cases b with
        | stop => exact hothers.elim
        | _ => rfl
      simpa [JoinAction.action, hno] using ih
    | call hc =>
      rw [hc] at ih
      exact ih
    | stop hc _ _ =>
      rw [hc] at ih
      intro k hk
      cases hk
      exact congrArg (· + 1) (ih _ rfl)
    | stopFailed _ _ _ | joinFailed _ _ =>
      intro k hk
      cases hk
    | stopped hc | join _ hc _ _ | joined hc =>
      rw [hc] at ih
      exact ih

/-- **Join accounts for every worker.**  In every state that the pool and the caller of
`ae_threadpool_join` can reach, the stop messages sent are those in the queue and one for
each worker that has exited, and each worker has taken at most one.  When the call has
returned `true`, every worker has exited and none is running a job, and no stop message
is left in the queue. -/
theorem stops_account {t : Joining J n} {τs : List (Transition (Joining J n) (JoinAction J n))}
    (hr : (joining J n n).Run ⟨started, .idle⟩ τs t) :
    stopsSent (ofPool τs) = t.pool.stopsQueued + t.pool.exitedWorkers.card ∧
      (∀ i, (deeds (ofPool τs) i).countP Deed.takesStop ≤ 1) ∧
      (t.caller = .returned (.ok ()) → (∀ i, t.pool.worker i = .exited) ∧
        ∀ x ∈ t.pool.queue.entries, x.2 ≠ .stop) := by
  have hstops := stops_run rfl (ofPool_run hr)
  refine ⟨hstops, takes_one_stop rfl (ofPool_run hr), fun hret => ?_⟩
  have hexited := exited_of_returned hr hret
  refine ⟨hexited, ?_⟩
  have hall : t.pool.exitedWorkers = Finset.univ :=
    Finset.eq_univ_of_forall (fun i => mem_exitedWorkers.mpr (hexited i))
  have hsent : stopsSent (ofPool τs) = n := by
    apply sentStops_run rfl hr n
    rw [hret]
    rfl
  -- `n` were sent and `n` were taken
  rw [hsent, hall, Finset.card_univ, Fintype.card_fin] at hstops
  have hzero : t.pool.stopsQueued = 0 := by omega
  intro x hx hstop
  have hno := List.countP_eq_zero.mp hzero x hx
  rw [hstop] at hno
  exact hno rfl

/-- One worker is joined while a job waits. -/
theorem stops_account_overtaken :
    stopsSent (ofPool overtaken) = leftBehind.stopsQueued + leftBehind.exitedWorkers.card ∧
      (∀ i, (deeds (ofPool overtaken) i).countP Deed.takesStop ≤ 1) ∧
      ((.returned (.ok ()) : Join) = .returned (.ok ()) → (∀ i, leftBehind.worker i = .exited) ∧
        ∀ x ∈ leftBehind.queue.entries, x.2 ≠ .stop) :=
  stops_account overtaken_run

end Threadpool
end Libae
