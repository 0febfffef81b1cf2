import Libae.Threadpool

/-! # What becomes of a job

The history of a pool is read off the transitions of a run: the jobs whose
`ae_threadpool_enque` returned `true`, the jobs received, and what each worker did.

**Accounting** (`accounting`).  The jobs received, in order of receipt, and behind
them the jobs still queued are the jobs enqueued, in order: stop messages overtake
jobs, but a job never overtakes another.  A worker runs each job it receives before
it receives again, and receives nothing after a stop message.

**Joining** (`join_accounts`).  When `ae_threadpool_join` returns `true` all workers
have exited, and the jobs still queued have not been run.  There can be such jobs
(`stop_overtakes`): the stop messages have the higher priority.
-/
namespace Libae
open Runs

namespace Threadpool
variable {J : Type} {w n : Nat}

/-! ## Histories -/

/-- The job a step enqueues. -/
def Action.enqueued : Action J w → Option J
  | .enque job => some job
  | _ => none

/-- The job a worker receives in a step. -/
def Action.received : Action J w → Option J
  | .receive _ msg => msg.job?
  | _ => none

/-- What a worker does. -/
inductive Deed (J : Type)
  | received (msg : ThreadpoolMsg J)
  | ran (job : J)

/-- What the worker `i` does in a step. -/
def Action.deed (i : Fin w) : Action J w → Option (Deed J)
  | .receive k msg => if k = i then some (.received msg) else none
  | .ran k job => if k = i then some (.ran job) else none
  | _ => none

section Histories
variable (τs : List (Transition (Threadpool J w) (Action J w)))

/-- The jobs whose enqueue succeeded, in order. -/
def enqueued : List J := τs.filterMap (fun τ => τ.action.enqueued)

/-- The jobs received by workers, in order of receipt. -/
def received : List J := τs.filterMap (fun τ => τ.action.received)

/-- What the worker `i` did, in order. -/
def deeds (i : Fin w) : List (Deed J) := τs.filterMap (fun τ => τ.action.deed i)

end Histories

/-- The jobs in the queue, in the order in which they are handed out. -/
def queued (s : Threadpool J w) : List J := s.queue.select ThreadpoolMsg.job?

/-- Receiving jobs, and running each before the next. -/
def served (jobs : List J) : List (Deed J) :=
  jobs.flatMap (fun job => [.received (.job job), .ran job])

/-- What a worker has received and is not done with. -/
def holding : Worker J → List (Deed J)
  | .waiting => []
  | .running job => [.received (.job job)]
  | .exited => [.received .stop]

/-! ## Accounting -/

/-- No message has a lower priority than a job. -/
def Ranked (s : Threadpool J w) : Prop :=
  ∀ x ∈ s.queue.entries, ThreadpoolPriority.job.value ≤ x.1

theorem send_ok {queue queue' : PriorityQueue (ThreadpoolMsg J)} {msg : ThreadpoolMsg J}
    {priority : ThreadpoolPriority} (h : send queue msg priority (.ok ()) = some (.ok queue')) :
    queue.send maxmsg priority.value msg = some queue' := by
  obtain ⟨q, hq, he⟩ := Option.map_eq_some_iff.mp h
  cases he
  exact hq

/-- Sending with either priority keeps the queue ranked; a job is appended to the
jobs queued, a stop message is invisible among them. -/
theorem send_queued {s : Threadpool J w} {queue : PriorityQueue (ThreadpoolMsg J)}
    {msg : ThreadpoolMsg J} {priority : ThreadpoolPriority} (hs : s.Ranked)
    (h : send s.queue msg priority (.ok ()) = some (.ok queue))
    (hp : msg.job?.isSome → priority = .job) :
    Ranked { s with queue := queue } ∧
      queued { s with queue := queue } = s.queued ++ msg.job?.toList := by
  have hsend := send_ok h
  constructor
  · intro x hx
    rw [PriorityQueue.send_entries hsend, PriorityQueue.mem_insertEntry] at hx
    rcases hx with rfl | hx
    · cases priority <;> simp [ThreadpoolPriority.value]
    · exact hs x hx
  · exact PriorityQueue.select_send hsend (fun x hx hjob _ => hp hjob ▸ hs x hx)

/-- **One step** moves jobs from the producers into the queue, and from its front
to the workers. -/
theorem queued_step {s t : Threadpool J w} {a : Action J w} (hs : s.Ranked) (h : Step s a t) :
    t.Ranked ∧ a.received.toList ++ t.queued = s.queued ++ a.enqueued.toList := by
  cases h with
  | enque h => exact send_queued hs h (fun _ => rfl)
  | stop h =>
    obtain ⟨hr, hq⟩ := send_queued hs h (fun hjob => by cases hjob)
    exact ⟨hr, hq⟩
  | receive _ h =>
    obtain ⟨p, he⟩ := PriorityQueue.receive_entries h
    refine ⟨fun x hx => hs x (he ▸ List.mem_cons_of_mem _ hx), ?_⟩
    exact (PriorityQueue.select_receive (f := ThreadpoolMsg.job?) h).symm.trans
      (List.append_nil _).symm
  | ran _ => exact ⟨hs, (List.append_nil _).symm⟩
  | enqueFailed _ | stopFailed _ => exact ⟨hs, (List.append_nil _).symm⟩

/-- **One step of a worker** finishes the job it holds, or takes a message when it
holds none. -/
theorem deed_step {s t : Threadpool J w} {a : Action J w} (h : Step s a t) (i : Fin w) :
    ∃ jobs, holding (s.worker i) ++ (a.deed i).toList = served jobs ++ holding (t.worker i) := by
  cases h with
  | @receive k msg queue hw _ =>
    by_cases hk : k = i
    · subst hk
      refine ⟨[], ?_⟩
      cases msg <;> simp [Action.deed, hw, holding, served, run]
    · exact ⟨[], by simp [Action.deed, hk, served, Function.update_of_ne (Ne.symm hk)]⟩
  | @ran k job hw =>
    by_cases hk : k = i
    · subst hk
      exact ⟨[job], by simp [Action.deed, hw, holding, served]⟩
    · exact ⟨[], by simp [Action.deed, hk, served, Function.update_of_ne (Ne.symm hk)]⟩
  | _ => exact ⟨[], List.append_nil _⟩

/-- **Accounting.**  In every run from the start of the threads, the jobs received
so far followed by those still queued are the jobs enqueued, in order; and each
worker has run the jobs it received, each before it received again, but for one it
may be running, and received nothing after a stop message. -/
theorem accounting {s t : Threadpool J w} {τs : List (Transition (Threadpool J w) (Action J w))}
    (hs : (threadpool J w).init s) (hr : (threadpool J w).Run s τs t) :
    received τs ++ t.queued = enqueued τs ∧
      ∀ i, ∃ jobs, deeds τs i = served jobs ++ holding (t.worker i) := by
  -- that no job passes another needs the ranks, so they are carried along
  suffices h : t.Ranked ∧ received τs ++ t.queued = enqueued τs ∧
      ∀ i, ∃ jobs, deeds τs i = served jobs ++ holding (t.worker i) from h.2
  induction hr with
  | nil =>
    cases hs
    refine ⟨?_, rfl, fun i => ⟨[], rfl⟩⟩
    intro x hx
    cases hx
  | @snoc τs t u a _ hst ih =>
    obtain ⟨hrank, hjobs, hdeeds⟩ := ih
    obtain ⟨hrank', hqueued⟩ := queued_step hrank hst
    refine ⟨hrank', ?_, fun i => ?_⟩
    · calc received (τs ++ [⟨t, a, u⟩]) ++ u.queued
          = received τs ++ (a.received.toList ++ u.queued) := by
            cases h : a.received <;> simp [received, h]
        _ = enqueued τs ++ a.enqueued.toList := by rw [hqueued, ← List.append_assoc, hjobs]
        _ = enqueued (τs ++ [⟨t, a, u⟩]) := by cases h : a.enqueued <;> simp [enqueued, h]
    · obtain ⟨jobs, hd⟩ := hdeeds i
      obtain ⟨more, hm⟩ := deed_step hst i
      refine ⟨jobs ++ more, ?_⟩
      calc deeds (τs ++ [⟨t, a, u⟩]) i
          = deeds τs i ++ (a.deed i).toList := by cases h : a.deed i <;> simp [deeds, h]
        _ = served jobs ++ (served more ++ holding (u.worker i)) := by
            rw [hd, List.append_assoc, hm]
        _ = served (jobs ++ more) ++ holding (u.worker i) := by
            rw [← List.append_assoc, served, served, served, List.flatMap_append]

/-- One job queued, in a pool of one worker. -/
def oneQueued : Threadpool Nat 1 := ⟨⟨[(1, .job 7)], by simp⟩, fun _ => .waiting⟩

theorem oneQueued_step : (threadpool Nat 1).step started (.enque 7) oneQueued := Step.enque rfl

/-- The job is enqueued, and received. -/
theorem accounting_received :
    received [(⟨started, .enque 7, oneQueued⟩ : Transition (Threadpool Nat 1) (Action Nat 1)),
          ⟨oneQueued, .receive 0 (.job 7),
            ⟨.empty, Function.update oneQueued.worker 0 (.running 7)⟩⟩] ++
        queued ⟨.empty, Function.update oneQueued.worker 0 (.running 7)⟩ =
      enqueued [(⟨started, .enque 7, oneQueued⟩ : Transition (Threadpool Nat 1) (Action Nat 1)),
          ⟨oneQueued, .receive 0 (.job 7),
            ⟨.empty, Function.update oneQueued.worker 0 (.running 7)⟩⟩] := by
  have hreceive : (threadpool Nat 1).step oneQueued (.receive 0 (.job 7)) _ :=
    Step.receive (i := 0) rfl rfl
  exact (accounting rfl ((System.Run.single oneQueued_step).snoc hreceive)).1

/-! ## Joining -/

/-- What a step of a joined pool is for the pool. -/
def JoinAction.action : JoinAction J w → Option (Action J w)
  | .pool a => some a
  | .stop => some .stop
  | _ => none

/-- The steps of the pool in a run of a joined pool. -/
def ofPool (τs : List (Transition (Joining J w) (JoinAction J w))) :
    List (Transition (Threadpool J w) (Action J w)) :=
  τs.filterMap (fun τ => τ.action.action.map (fun a => ⟨τ.before.pool, a, τ.after.pool⟩))

/-- A pool that is joined runs like any other. -/
theorem ofPool_run {s t : Joining J w} {τs : List (Transition (Joining J w) (JoinAction J w))}
    (hr : (joining J w n).Run s τs t) : (threadpool J w).Run s.pool (ofPool τs) t.pool := by
  apply hr.project (f := Joining.pool)
  · intro s a t h hnone
    cases h with
    | pool _ _ | stop _ _ _ => cases hnone
    | _ => rfl
  · intro s a t b h hsome
    cases h with
    | pool _ h =>
      cases hsome
      exact h
    | stop _ _ h =>
      cases hsome
      exact h
    | _ => cases hsome

/-- A worker that has exited stays so. -/
theorem exited_step {s t : Threadpool J w} {a : Action J w} (h : Step s a t) {i : Fin w}
    (hi : s.worker i = .exited) : t.worker i = .exited := by
  cases h with
  | @receive k _ _ hw _ | @ran k _ hw =>
    have hne : i ≠ k := by
      rintro rfl
      rw [hw] at hi
      cases hi
    simpa [Function.update_of_ne hne] using hi
  | _ => exact hi

/-- How many workers the caller knows to have exited. -/
def Join.joined (n : Nat) : Join → Nat
  | .joining i => i
  | .returned (.ok ()) => n
  | _ => 0

/-- The workers whose `pthread_join` returned have exited. -/
def Joined (n : Nat) (s : Joining J w) : Prop :=
  ∀ i : Fin w, i < s.caller.joined n → s.pool.worker i = .exited

theorem joined_step {s t : Joining J w} {a : JoinAction J w} (hs : Joined n s)
    (h : JoinStep n s a t) : Joined n t := by
  cases h with
  | pool _ h => exact fun i hi => exited_step h (hs i hi)
  | joined hc =>
    intro i hi
    apply hs i
    rw [hc]
    exact hi
  | @join k hw hc _ hexit =>
    intro i hi
    by_cases hk : i.val = k
    · -- the thread that was just joined
      cases hk
      exact hexit
    · apply hs i
      have hlt : i.val < k + 1 := hi
      rw [hc]
      show i.val < k
      omega
  | _ =>
    -- elsewhere the caller has joined nobody
    intro i hi
    cases hi

/-- When `ae_threadpool_join` has returned `true`, it has joined every worker. -/
theorem exited_of_returned {t : Joining J n}
    {τs : List (Transition (Joining J n) (JoinAction J n))}
    (hr : (joining J n n).Run ⟨started, .idle⟩ τs t) (hret : t.caller = .returned (.ok ()))
    (i : Fin n) : t.pool.worker i = .exited := by
  have hjoined : Joined n t :=
    hr.invariant (I := Joined n) (fun _ _ _ hs h => joined_step hs h)
      (fun _ hi => absurd hi (Nat.not_lt_zero _))
  apply hjoined i
  rw [hret]
  exact i.isLt

/-- **Joining.**  When `ae_threadpool_join` has returned `true`, all workers have
exited; the jobs received, each of which was run by its worker, followed by those
left in the queue, which no worker has received, are the jobs enqueued, in order. -/
theorem join_accounts {t : Joining J n} {τs : List (Transition (Joining J n) (JoinAction J n))}
    (hr : (joining J n n).Run ⟨started, .idle⟩ τs t) (hret : t.caller = .returned (.ok ())) :
    (∀ i, t.pool.worker i = .exited) ∧
      received (ofPool τs) ++ t.pool.queued = enqueued (ofPool τs) ∧
      ∀ i, ∃ jobs, deeds (ofPool τs) i = served jobs ++ [.received .stop] := by
  have hexited := exited_of_returned hr hret
  obtain ⟨hjobs, hdeeds⟩ := accounting rfl (ofPool_run hr)
  refine ⟨hexited, hjobs, fun i => ?_⟩
  obtain ⟨jobs, hd⟩ := hdeeds i
  rw [hexited i] at hd
  exact ⟨jobs, hd⟩

/-! ### A job that is never run -/

/-- The stop message before a job that was sent earlier. -/
def overtaking : Threadpool Nat 1 := ⟨⟨[(10, .stop), (1, .job 7)], by simp⟩, fun _ => .waiting⟩

/-- The only worker has stopped; the job is left. -/
def leftBehind : Threadpool Nat 1 :=
  ⟨oneQueued.queue, Function.update (fun _ => .waiting) 0 .exited⟩

/-- A job is enqueued, and then the pool is joined, the worker being slow. -/
def overtaken : List (Transition (Joining Nat 1) (JoinAction Nat 1)) :=
  [⟨⟨started, .idle⟩, .pool (.enque 7), ⟨oneQueued, .idle⟩⟩,
    ⟨⟨oneQueued, .idle⟩, .call, ⟨oneQueued, .sending 0⟩⟩,
    ⟨⟨oneQueued, .sending 0⟩, .stop, ⟨overtaking, .sending 1⟩⟩,
    ⟨⟨overtaking, .sending 1⟩, .pool (.receive 0 .stop), ⟨leftBehind, .sending 1⟩⟩,
    ⟨⟨leftBehind, .sending 1⟩, .stopped, ⟨leftBehind, .joining 0⟩⟩,
    ⟨⟨leftBehind, .joining 0⟩, .join, ⟨leftBehind, .joining 1⟩⟩,
    ⟨⟨leftBehind, .joining 1⟩, .joined, ⟨leftBehind, .returned (.ok ())⟩⟩]

theorem overtaken_run : (joining Nat 1 1).Run ⟨started, .idle⟩ overtaken
    ⟨leftBehind, .returned (.ok ())⟩ := by
  have henque : Step started (.enque 7) oneQueued := Step.enque rfl
  have hstop : Step oneQueued .stop overtaking := Step.stop rfl
  have hreceive : Step overtaking (.receive 0 .stop) leftBehind := Step.receive (i := 0) rfl rfl
  have h₁ : JoinStep 1 ⟨started, .idle⟩ (.pool (.enque 7)) ⟨oneQueued, .idle⟩ :=
    .pool trivial henque
  have h₂ : JoinStep 1 ⟨oneQueued, .idle⟩ .call ⟨oneQueued, .sending 0⟩ := .call rfl
  have h₃ : JoinStep 1 ⟨oneQueued, .sending 0⟩ .stop ⟨overtaking, .sending 1⟩ :=
    .stop rfl (by decide) hstop
  have h₄ : JoinStep 1 ⟨overtaking, .sending 1⟩ (.pool (.receive 0 .stop))
      ⟨leftBehind, .sending 1⟩ := .pool trivial hreceive
  have h₅ : JoinStep 1 ⟨leftBehind, .sending 1⟩ .stopped ⟨leftBehind, .joining 0⟩ := .stopped rfl
  have h₆ : JoinStep 1 ⟨leftBehind, .joining 0⟩ .join ⟨leftBehind, .joining 1⟩ :=
    .join (by decide) rfl (by decide) rfl
  have h₇ : JoinStep 1 ⟨leftBehind, .joining 1⟩ .joined ⟨leftBehind, .returned (.ok ())⟩ :=
    .joined rfl
  exact ((((((System.Run.single h₁).snoc h₂).snoc h₃).snoc h₄).snoc h₅).snoc h₆).snoc h₇

/-- What remains after it. -/
theorem join_accounts_overtaken :
    (∀ i, leftBehind.worker i = .exited) ∧
      received (ofPool overtaken) ++ leftBehind.queued = enqueued (ofPool overtaken) ∧
      ∀ i, ∃ jobs, deeds (ofPool overtaken) i = served jobs ++ [.received .stop] :=
  join_accounts overtaken_run rfl

/-- **Stop messages overtake jobs.**  The job was enqueued before
`ae_threadpool_join` was called, the call returned `true`, and no worker ran it. -/
theorem stop_overtakes : ∃ τs t, (joining Nat 1 1).Run ⟨started, .idle⟩ τs t ∧
    t.caller = .returned (.ok ()) ∧
    (∃ rest, τs.map Transition.action = .pool (.enque 7) :: .call :: rest) ∧
    ∀ i, .pool (.ran i 7) ∉ τs.map Transition.action :=
  ⟨overtaken, _, overtaken_run, rfl, ⟨_, rfl⟩, by simp [overtaken]⟩

end Threadpool
end Libae
