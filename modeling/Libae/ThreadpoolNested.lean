import Libae.ThreadpoolHistory

/-! # Jobs that enqueue jobs

A job may call `ae_threadpool_enque` for the pool it runs in.  The queue holds 10 messages,
and only the workers take them out.  So workers that all run such jobs can fill it and wait
for one another: nobody receives, nobody has room, `ae_threadpool_enque` does not return in
any thread, and `ae_threadpool_join` cannot even send its stop messages (`halted_iff`).  It
takes no more than one job that enqueues another, whatever the number of workers
(`halts_iff`).
-/
namespace Libae
open Runs

namespace Threadpool
variable {J : Type} {w : Nat}

/-- A pool, and the jobs that the job of each worker still has to enqueue. -/
structure Nested (J : Type) (w : Nat) where
  pool : Threadpool J w
  todo : Fin w → List J

/-- The steps of a pool, and of a job that enqueues another. -/
inductive NestedAction (J : Type) (w : Nat)
  | pool (a : Action J w)
  | enque (i : Fin w) (job : J)

/-- One step; a job enqueues what `spawns` says, and then returns.  The calls of the kernel
do not fail. -/
inductive NestedStep (spawns : J → List J) : Nested J w → NestedAction J w → Nested J w → Prop
  | outside {s : Nested J w} {job : J} {p : Threadpool J w} : Step s.pool (.enque job) p →
      NestedStep spawns s (.pool (.enque job)) { s with pool := p }
  | stop {s : Nested J w} {p : Threadpool J w} : Step s.pool .stop p →
      NestedStep spawns s (.pool .stop) { s with pool := p }
  | receive {s : Nested J w} {i : Fin w} {msg : ThreadpoolMsg J} {p : Threadpool J w} :
      Step s.pool (.receive i msg) p →
      NestedStep spawns s (.pool (.receive i msg))
        ⟨p, Function.update s.todo i ((msg.job?.map spawns).getD [])⟩
  | enque {s : Nested J w} {i : Fin w} {job : J} {jobs : List J}
      {queue : PriorityQueue (ThreadpoolMsg J)} : s.todo i = job :: jobs →
      Threadpool.enque s.pool.queue job (.ok ()) = some (.ok queue) →
      NestedStep spawns s (.enque i job)
        ⟨{ s.pool with queue := queue }, Function.update s.todo i jobs⟩
  | ran {s : Nested J w} {i : Fin w} {job : J} {p : Threadpool J w} : s.todo i = [] →
      Step s.pool (.ran i job) p → NestedStep spawns s (.pool (.ran i job)) { s with pool := p }

/-- A pool whose jobs enqueue jobs. -/
def nested (J : Type) (w : Nat) (spawns : J → List J) : System (Nested J w) (NestedAction J w) where
  init s := s = ⟨started, fun _ => []⟩
  step := NestedStep spawns

/-- Jobs are running, and no thread has a step. -/
def Halted (spawns : J → List J) (s : Nested J w) : Prop :=
  (∃ i job, s.pool.worker i = .running job) ∧ ∀ a t, ¬ NestedStep spawns s a t

section Halting
variable {spawns : J → List J} {s : Nested J w} {i : Fin w} {job : J}

/-- Where there is room a message can be sent. -/
theorem send_of_room (queue : PriorityQueue (ThreadpoolMsg J))
    (hroom : queue.entries.length < maxmsg) (msg : ThreadpoolMsg J)
    (priority : ThreadpoolPriority) :
    ∃ queue', send queue msg priority (.ok ()) = some (.ok queue') ∧
      queue'.entries.length = queue.entries.length + 1 := by
  obtain ⟨queue', hsend⟩ := PriorityQueue.send_room (p := priority.value) (a := msg) hroom
  refine ⟨queue', ?_, (PriorityQueue.send_length hsend).2⟩
  rw [send, hsend]
  rfl

/-- Where there is none, none can. -/
theorem not_send_of_full {queue queue' : PriorityQueue (ThreadpoolMsg J)}
    (hfull : maxmsg ≤ queue.entries.length) {msg : ThreadpoolMsg J} {priority : ThreadpoolPriority}
    (h : send queue msg priority (.ok ()) = some (.ok queue')) : False := by
  have hroom := (PriorityQueue.send_length (send_ok h)).1
  omega

/-- **Halted pools**: the queue is full, and every worker that has not exited runs a job that has
a job to enqueue. -/
theorem halted_iff : Halted spawns s ↔ maxmsg ≤ s.pool.queue.entries.length ∧
    (∀ i, s.pool.worker i = .exited ∨
      (∃ job, s.pool.worker i = .running job) ∧ s.todo i ≠ []) ∧
    ∃ i job, s.pool.worker i = .running job := by
  constructor
  · rintro ⟨⟨i, job, hrunning⟩, hno⟩
    have hfull : maxmsg ≤ s.pool.queue.entries.length := by
      by_contra hroom
      obtain ⟨queue, hsend, -⟩ := send_of_room _ (Nat.lt_of_not_le hroom) (.job job) .job
      exact hno _ _ (.outside (.enque hsend))
    refine ⟨hfull, fun k => ?_, i, job, hrunning⟩
    cases hw : s.pool.worker k with
    | exited => exact .inl rfl
    | running job' =>
      exact .inr ⟨⟨job', rfl⟩, fun hnil => hno _ _ (.ran hnil (.ran hw))⟩
    | waiting =>
      have hsome : s.pool.queue.entries ≠ [] := by
        intro hnil
        rw [hnil] at hfull
        exact absurd hfull (Nat.not_succ_le_zero 9)
      obtain ⟨msg, queue, hreceive⟩ := PriorityQueue.receive_of_ne_nil hsome
      exact (hno _ _ (.receive (.receive hw hreceive))).elim
  · rintro ⟨hfull, hall, hrunning⟩
    refine ⟨hrunning, fun a t h => ?_⟩
    cases h with
    | outside h =>
      cases h with
      | enque h => exact not_send_of_full hfull h
    | stop h =>
      cases h with
      | stop h => exact not_send_of_full hfull h
    | enque _ h => exact not_send_of_full hfull h
    | @receive i _ _ h =>
      cases h with
      | receive hw _ => rcases hall i with he | ⟨⟨job, hr⟩, -⟩ <;> simp_all
    | @ran i _ _ hnil h =>
      cases h with
      | ran hw => rcases hall i with he | ⟨-, hsome⟩ <;> simp_all

/-! ## How a pool halts -/

/-- `v` for the first `k` workers, `v'` for the others. -/
def firstWorkers {V : Type} (k : Nat) (v v' : V) (i : Fin w) : V := if i.val < k then v else v'

theorem firstWorkers_zero {V : Type} (v v' : V) :
    (firstWorkers 0 v v' : Fin w → V) = fun _ => v' := by
  funext i
  rw [firstWorkers, if_neg (Nat.not_lt_zero _)]

theorem firstWorkers_succ {V : Type} {k : Nat} (hk : k < w) (v v' : V) :
    (firstWorkers (k + 1) v v' : Fin w → V) =
      Function.update (firstWorkers k v v') ⟨k, hk⟩ v := by
  funext i
  by_cases hi : i = ⟨k, hk⟩
  · subst hi
    simp [firstWorkers]
  · have hne : i.val ≠ k := fun h => hi (Fin.ext h)
    have hiff : i.val < k + 1 ↔ i.val < k := by omega
    rw [Function.update_of_ne hi]
    simp only [firstWorkers, hiff]

/-- The first `k` workers run a job, and the queue is as it is. -/
def busy (spawns : J → List J) (job : J) (k : Nat) (queue : PriorityQueue (ThreadpoolMsg J)) :
    Nested J w :=
  ⟨⟨queue, firstWorkers k (.running job) .waiting⟩, firstWorkers k (spawns job) []⟩

/-- One worker after the other takes the job. -/
theorem busy_reachable {k : Nat} (hk : k ≤ w) :
    (nested J w spawns).Reachable (busy spawns job k .empty) := by
  induction k with
  | zero =>
    rw [busy, firstWorkers_zero, firstWorkers_zero]
    exact .of_init rfl
  | succ k ih =>
    have hsent : (nested J w spawns).Reachable
        (busy spawns job k ⟨[(1, .job job)], List.pairwise_singleton _ _⟩) :=
      (ih (Nat.le_of_succ_le hk)).step (NestedStep.outside (.enque rfl))
    have hreceive : Step (busy spawns job k ⟨[(1, .job job)], List.pairwise_singleton _ _⟩).pool
        (.receive ⟨k, hk⟩ (.job job)) ⟨.empty, Function.update _ ⟨k, hk⟩ (run (.ok (.job job)))⟩ :=
      .receive (by simp [busy, firstWorkers]) rfl
    rw [busy, firstWorkers_succ hk, firstWorkers_succ hk]
    exact hsent.step (NestedStep.receive hreceive)

/-- Then the queue fills up. -/
theorem full_reachable (w : Nat) (spawns : J → List J) (job : J) {m : Nat} (hm : m ≤ maxmsg) :
    ∃ queue, queue.entries.length = m ∧
      (nested J w spawns).Reachable (busy spawns job w queue) := by
  induction m with
  | zero => exact ⟨.empty, rfl, busy_reachable (Nat.le_refl w)⟩
  | succ m ih =>
    obtain ⟨queue, hlen, hr⟩ := ih (Nat.le_of_succ_le hm)
    obtain ⟨queue', hsend, hlen'⟩ := send_of_room queue (by omega) (.job job) .job
    exact ⟨queue', by omega, hr.step (.outside (.enque hsend))⟩

/-- Where no job enqueues another, no thread has a job to enqueue. -/
theorem todo_nil {w : Nat} {spawns : J → List J} (hnone : ∀ job, spawns job = [])
    {s : Nested J w} (hs : (nested J w spawns).Reachable s) (i : Fin w) : s.todo i = [] := by
  revert i
  refine hs.invariant (I := fun s => ∀ i, s.todo i = []) ?_ ?_
  · rintro s rfl i
    rfl
  · intro s a t ih h i
    cases h with
    | outside _ | stop _ | ran _ _ => exact ih i
    | enque htodo _ =>
      rw [ih] at htodo
      cases htodo
    | @receive k msg _ _ =>
      by_cases hi : i = k
      · subst hi
        cases msg with
        | job job => simp [ThreadpoolMsg.job?, hnone]
        | stop => simp [ThreadpoolMsg.job?]
      · simp [Function.update_of_ne hi, ih i]

/-- **Which jobs can halt their pool.**  Whatever the number of workers, a pool can get into a
state in which jobs are running and no thread has a step exactly if some job enqueues
another. -/
theorem halts_iff (J : Type) {w : Nat} (hw : 0 < w) (spawns : J → List J) :
    (∃ s, (nested J w spawns).Reachable s ∧ Halted spawns s) ↔ ∃ job, spawns job ≠ [] := by
  constructor
  · rintro ⟨s, hs, hhalted⟩
    by_contra hnone
    rw [not_exists_not] at hnone
    have htodo := todo_nil hnone hs
    obtain ⟨-, hall, i, job, hrunning⟩ := halted_iff.mp hhalted
    rcases hall i with he | ⟨-, hsome⟩
    · rw [hrunning] at he
      cases he
    · exact hsome (htodo i)
  · rintro ⟨job, hjob⟩
    obtain ⟨queue, hlen, hr⟩ := full_reachable w spawns job
      (Nat.le_refl maxmsg)
    have hrunning : ∀ i, (busy spawns job w queue : Nested J w).pool.worker i = .running job :=
      fun i => if_pos i.isLt
    have htodo : ∀ i, (busy spawns job w queue : Nested J w).todo i = spawns job :=
      fun i => if_pos i.isLt
    refine ⟨_, hr, halted_iff.mpr ⟨Nat.le_of_eq hlen.symm, fun i => ?_, ⟨0, hw⟩, job, hrunning _⟩⟩
    rw [htodo]
    exact .inr ⟨⟨job, hrunning i⟩, hjob⟩

/-- A job that enqueues itself. -/
theorem halts_iff_three : ∃ s, (nested Nat 3 (fun job => [job])).Reachable s ∧
    Halted (fun job => [job]) s :=
  (halts_iff Nat (w := 3) (by decide) (fun job => [job])).mpr ⟨0, by simp⟩

end Halting

end Threadpool
end Libae
