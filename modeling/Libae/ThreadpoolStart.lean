import Libae.ThreadpoolStops

/-! # A start that fails

`ae_threadpool_start` creates `n_threads` threads one after another and returns false when
`pthread_create` fails.  The threads created before are running then, and `n_threads` is what it
was.  So `ae_threadpool_join` sends a stop message for every thread there should be, and joins
every one of them (`partly_started_iff`): with at most 10 threads missing it joins one that was
never created, and with more it blocks, as nobody takes the stop messages that are too many.
-/
namespace Libae
open Runs

namespace Threadpool
variable {J : Type} {n k : Nat}

/-- Where the caller stands: in the loop of `ae_threadpool_start`, behind it, with `true` or with
the text added to `e`, or in `ae_threadpool_join`. -/
inductive StartCaller
  | creating (i : Nat)
  | returned (r : Except Text Unit)
  | join (j : Join)

/-- A pool, how many of its threads have been created, and the caller. -/
structure Starting (J : Type) (n : Nat) where
  pool : Threadpool J n
  created : Nat
  caller : StartCaller

/-- The steps from `ae_threadpool_start` on. -/
inductive StartAction (J : Type) (n : Nat)
  | pool (a : Action J n)
  | create
  | createFailed (errno : Text)
  | created
  | join (a : JoinAction J n)

/-- The worker that takes the step. -/
def Action.worker : Action J n → Option (Fin n)
  | .receive i _ | .ran i _ => some i
  | _ => none

/-- The caller's place in `ae_threadpool_join`, which may be called when `ae_threadpool_start` has
returned. -/
def StartCaller.joins : StartCaller → Option Join
  | .creating _ => none
  | .returned _ => some .idle
  | .join j => some j

/-- A step of the caller of `ae_threadpool_join`. -/
def JoinAction.ofCaller : JoinAction J n → Prop
  | .pool _ => False
  | _ => True

/-- One step.  Only threads that were created do something; `creates i` is the answer of
`pthread_create` for the thread `i`. -/
inductive StartStep (creates : Nat → Except Text Unit) :
    Starting J n → StartAction J n → Starting J n → Prop
  | pool {s : Starting J n} {a : Action J n} {p : Threadpool J n} : a.others →
      (∀ i ∈ a.worker, i.val < s.created) → Step s.pool a p →
      StartStep creates s (.pool a) { s with pool := p }
  | create {s : Starting J n} {i : Nat} : s.caller = .creating i → i < n → creates i = .ok () →
      StartStep creates s .create { s with created := i + 1, caller := .creating (i + 1) }
  | createFailed {s : Starting J n} {i : Nat} {errno : Text} : s.caller = .creating i → i < n →
      creates i = .error errno → StartStep creates s (.createFailed errno)
        { s with caller := .returned (.error (ascii "thread: " ++ errno)) }
  | created {s : Starting J n} : s.caller = .creating n →
      StartStep creates s .created { s with caller := .returned (.ok ()) }
  | join {s : Starting J n} {j : Join} {a : JoinAction J n} {t : Joining J n} :
      s.caller.joins = some j → a.ofCaller → JoinStep n ⟨s.pool, j⟩ a t →
      StartStep creates s (.join a) { s with pool := t.pool, caller := .join t.caller }

/-- Neither `mq_send` of a stop message nor `pthread_join` fails in the step. -/
def StartAction.Succeeds : StartAction J n → Prop
  | .join (.stopFailed _) | .join (.joinFailed _) => False
  | _ => True

/-- A pool that is started and joined, if no call fails but `pthread_create`. -/
def starting (J : Type) (n : Nat) (creates : Nat → Except Text Unit) :
    System (Starting J n) (StartAction J n) where
  init s := s = ⟨started, 0, .creating 0⟩
  step s a t := StartStep creates s a t ∧ a.Succeeds

/-- `pthread_create` fails for the thread `k`. -/
structure FailsAt (creates : Nat → Except Text Unit) (k : Nat) : Prop where
  before : ∀ i < k, creates i = .ok ()
  fails : ∃ errno, creates k = .error errno

/-- `ae_threadpool_join` joins none but the `k` threads that were created, and when it has
returned they have exited and no stop message is left. -/
structure JoinsCreated (J : Type) (n : Nat) (creates : Nat → Except Text Unit) (k : Nat) :
    Prop where
  joins : ∀ s, (starting J n creates).Reachable s →
    ∀ i, s.caller = .join (.joining i) → i < n → i < k
  finished : ∀ s, (starting J n creates).Reachable s → ∀ r, s.caller = .join (.returned r) →
    (∀ i : Fin n, i < k → s.pool.worker i = .exited) ∧ ∀ x ∈ s.pool.queue.entries, x.2 ≠ .stop

/-! ## Blocking -/

/-- The stop messages sent, until `ae_threadpool_join` gets to its second loop. -/
def StartCaller.sent : StartCaller → Option Nat
  | .creating _ | .returned _ | .join .idle => some 0
  | .join (.sending i) => some i
  | .join (.joining _) | .join (.returned _) => none

/-- A caller that has not got to the second loop of `ae_threadpool_join`, in a pool of at most `k`
threads. -/
structure Stuck (k : Nat) (s : Starting J n) : Prop where
  bounded : s.pool.queue.entries.length ≤ maxmsg
  looped : ∀ i, s.caller = .creating i → i = s.created
  created : s.created ≤ k
  exited : ∀ i : Fin n, s.pool.worker i = .exited → i < s.created
  sent : s.caller.sent = some (s.pool.stopsQueued + s.pool.exitedWorkers.card)

variable {creates : Nat → Except Text Unit} {s t : Starting J n}

/-- No more stop messages were sent than are in the queue or have been taken. -/
theorem Stuck.sent_le (h : Stuck k s) {i : Nat} (hi : s.caller.sent = some i) :
    i ≤ k + maxmsg := by
  have hsent : i = s.pool.stopsQueued + s.pool.exitedWorkers.card :=
    Option.some.inj (hi.symm.trans h.sent)
  have hqueued : s.pool.stopsQueued ≤ maxmsg := Nat.le_trans List.countP_le_length h.bounded
  have hexited : s.pool.exitedWorkers.card ≤ s.created := by
    have hcard := Finset.card_le_card_of_injOn (s := s.pool.exitedWorkers)
      (t := Finset.range s.created) Fin.val
      (fun i hi => Finset.mem_coe.mpr (Finset.mem_range.mpr (h.exited i (mem_exitedWorkers.mp hi))))
      (fun i _ j _ hij => Fin.ext hij)
    rwa [Finset.card_range] at hcard
  have hcreated := h.created
  omega

/-- A message is sent only where there is room. -/
theorem send_bounded {queue queue' : PriorityQueue (ThreadpoolMsg J)} {msg : ThreadpoolMsg J}
    {priority : ThreadpoolPriority} (h : send queue msg priority (.ok ()) = some (.ok queue')) :
    queue'.entries.length ≤ maxmsg := by
  obtain ⟨hroom, hlen⟩ := PriorityQueue.send_length (send_ok h)
  omega

/-- The queue never holds more than it may. -/
theorem bounded_step {p q : Threadpool J n} {a : Action J n}
    (hp : p.queue.entries.length ≤ maxmsg) (h : Step p a q) :
    q.queue.entries.length ≤ maxmsg := by
  cases h with
  | enque h => exact send_bounded h
  | stop h => exact send_bounded h
  | @receive i msg queue _ h =>
    obtain ⟨_, hentries⟩ := PriorityQueue.receive_entries h
    rw [hentries, List.length_cons] at hp
    show queue.entries.length ≤ maxmsg
    omega
  | enqueFailed _ | stopFailed _ | ran _ => exact hp

/-- A worker that has exited after a step had exited before, or took the step. -/
theorem exited_cases {p q : Threadpool J n} {a : Action J n} (h : Step p a q) {i : Fin n}
    (hi : q.worker i = .exited) : p.worker i = .exited ∨ a.worker = some i := by
  cases h with
  | @receive k _ _ _ _ | @ran k _ _ =>
    by_cases hk : i = k
    · exact .inr (by rw [hk]; rfl)
    · refine .inl ?_
      simpa [Function.update_of_ne hk] using hi
  | _ => exact .inl hi

/-- A step that is none of the caller's sends no stop message. -/
theorem Action.others_sends {a : Action J n} (h : a.others) : a.sendsStop = false := by
  cases a with
  | stop => exact h.elim
  | _ => rfl

/-- What was sent is told by the place in `ae_threadpool_join`. -/
theorem StartCaller.sent_of_joins {c : StartCaller} {j : Join} (h : c.joins = some j) :
    c.sent = (StartCaller.join j).sent := by
  cases c with
  | creating i => cases h
  | returned r =>
    cases h
    rfl
  | join j' =>
    cases h
    rfl

/-- The threads do something, or a job is enqueued. -/
theorem Stuck.pool_step {a : Action J n} {p : Threadpool J n} (hs : Stuck k s)
    (hothers : a.others) (hcreated : ∀ i ∈ a.worker, i.val < s.created) (h : Step s.pool a p) :
    Stuck k { s with pool := p } := by
  have hstops := stops_step h
  rw [Action.others_sends hothers] at hstops
  refine ⟨bounded_step hs.bounded h, hs.looped, hs.created, ?_, ?_⟩
  · intro i hi
    rcases exited_cases h hi with hbefore | htook
    · exact hs.exited i hbefore
    · exact hcreated i htook
  · have hsent := hs.sent
    dsimp only
    rw [hsent, hstops]
    rfl

/-- A thread is created. -/
theorem Stuck.create {i : Nat} (hs : Stuck k s) (hfail : FailsAt creates k)
    (hc : s.caller = .creating i) (hok : creates i = .ok ()) :
    Stuck k { s with created := i + 1, caller := .creating (i + 1) } := by
  have hi := hs.looped i hc
  have hcreated := hs.created
  have hne : i ≠ k := by
    rintro rfl
    obtain ⟨errno, herror⟩ := hfail.fails
    rw [hok] at herror
    cases herror
  refine ⟨hs.bounded, ?_, ?_, ?_, ?_⟩
  · intro i' hi'
    cases hi'
    rfl
  · show i + 1 ≤ k
    omega
  · intro j hj
    have hbefore := hs.exited j hj
    show j.val < i + 1
    omega
  · have hsent := hs.sent
    rw [hc] at hsent
    exact hsent

/-- A step of `ae_threadpool_join` leads nowhere but to the next stop message. -/
theorem Stuck.join_step {j : Join} {a : JoinAction J n} {q : Joining J n} (hs : Stuck k s)
    (hmany : k + maxmsg < n) (hjoins : s.caller.joins = some j) (hcaller : a.ofCaller)
    (hsucceeds : StartAction.Succeeds (.join a)) (h : JoinStep n ⟨s.pool, j⟩ a q) :
    Stuck k { s with pool := q.pool, caller := .join q.caller } := by
  have hsent := hs.sent
  have hplace := StartCaller.sent_of_joins hjoins
  cases h with
  | pool => exact hcaller.elim
  | call hc =>
    dsimp only at hc
    subst hc
    refine ⟨hs.bounded, by simp, hs.created, hs.exited, ?_⟩
    rw [hplace] at hsent
    exact hsent
  | @stop i p hc hlt hstop =>
    dsimp only at hc hstop
    subst hc
    refine ⟨bounded_step hs.bounded hstop, by simp, hs.created, ?_, ?_⟩
    · intro i hi
      rcases exited_cases hstop hi with hbefore | htook
      · exact hs.exited i hbefore
      · cases htook
    · rw [hplace] at hsent
      have hcount := Option.some.inj hsent
      show some (i + 1) = some (p.stopsQueued + p.exitedWorkers.card)
      rw [stops_step hstop, ← hcount]
      rfl
  | stopFailed => exact hsucceeds.elim
  | stopped hc =>
    dsimp only at hc
    subst hc
    -- it has not sent so many
    have hle := hs.sent_le hplace
    omega
  | join _ hc _ _ | joinFailed hc _ | joined hc =>
    dsimp only at hc
    subst hc
    rw [hplace] at hsent
    cases hsent

/-- **With more than 10 threads missing the caller does not get past the stop messages.** -/
theorem Stuck.step {a : StartAction J n} (hs : Stuck k s) (hmany : k + maxmsg < n)
    (hfail : FailsAt creates k) (h : (starting J n creates).step s a t) : Stuck k t := by
  obtain ⟨h, hsucceeds⟩ := h
  cases h with
  | pool hothers hcreated hstep => exact hs.pool_step hothers hcreated hstep
  | create hc _ hok => exact hs.create hfail hc hok
  | createFailed hc _ _ | created hc =>
    refine ⟨hs.bounded, by simp, hs.created, hs.exited, ?_⟩
    have hsent := hs.sent
    rw [hc] at hsent
    exact hsent
  | join hjoins hcaller hstep => exact hs.join_step hmany hjoins hcaller hsucceeds hstep

/-! ## Joining a thread that does not exist -/

/-- The threads below `j` have exited. -/
def exitedBelow (j : Nat) : Fin n → Worker J := fun i => if i < j then .exited else .waiting

section Run
variable (hk : k < n) (hfail : FailsAt creates k)
include hk hfail

/-- The threads are created up to the one that fails. -/
theorem creating_reachable {i : Nat} (hi : i ≤ k) :
    (starting J n creates).Reachable ⟨started, i, .creating i⟩ := by
  induction i with
  | zero => exact .of_init rfl
  | succ i ih =>
    exact (ih (by omega)).step ⟨.create rfl (by omega) (hfail.before i (by omega)), trivial⟩

/-- `ae_threadpool_join` is called. -/
theorem called_reachable :
    (starting J n creates).Reachable ⟨started, k, .join (.sending 0)⟩ := by
  obtain ⟨errno, herror⟩ := hfail.fails
  have hfailed := (creating_reachable (J := J) hk hfail (le_refl k)).step
    ⟨.createFailed rfl hk herror, trivial⟩
  exact hfailed.step ⟨.join (j := .idle) (a := .call) rfl trivial (.call rfl), trivial⟩

/-- Each of the threads takes a stop message. -/
theorem stopping_reachable {j : Nat} (hj : j ≤ k) : (starting J n creates).Reachable
    ⟨⟨.empty, exitedBelow j⟩, k, .join (.sending j)⟩ := by
  induction j with
  | zero =>
    have hnone : (exitedBelow 0 : Fin n → Worker J) = fun _ => .waiting := by
      funext i
      simp [exitedBelow]
    rw [hnone]
    exact called_reachable hk hfail
  | succ j ih =>
    have hstop : Step (⟨.empty, exitedBelow j⟩ : Threadpool J n) .stop
        ⟨⟨[(10, .stop)], List.pairwise_singleton _ _⟩, exitedBelow j⟩ := .stop rfl
    have hreceive : Step
        (⟨⟨[(10, .stop)], List.pairwise_singleton _ _⟩, exitedBelow j⟩ : Threadpool J n)
        (.receive ⟨j, by omega⟩ .stop)
        ⟨.empty, Function.update (exitedBelow j) ⟨j, by omega⟩ .exited⟩ :=
      .receive (by simp [exitedBelow]) rfl
    have hnext : Function.update (exitedBelow j) ⟨j, by omega⟩ .exited =
        (exitedBelow (j + 1) : Fin n → Worker J) := by
      funext i
      by_cases hi : i = ⟨j, by omega⟩
      · simp [hi, exitedBelow]
      · have hne : i.val ≠ j := fun h => hi (Fin.ext h)
        rw [Function.update_of_ne hi]
        simp only [exitedBelow]
        congr 1
        simp only [eq_iff_iff]
        omega
    rw [← hnext]
    have hsent := (ih (by omega)).step
      ⟨.join (a := .stop) rfl trivial (.stop rfl (by omega) hstop), trivial⟩
    refine hsent.step ⟨.pool (a := .receive ⟨j, by omega⟩ .stop) trivial ?_ hreceive, trivial⟩
    intro i hi
    cases hi
    show j < k
    omega

/-- The other stop messages stay in the queue. -/
theorem filling_reachable {m : Nat} (hm : m ≤ maxmsg) (hmn : k + m ≤ n) :
    ∃ queue, queue.entries.length = m ∧ (starting J n creates).Reachable
      ⟨⟨queue, exitedBelow k⟩, k, .join (.sending (k + m))⟩ := by
  induction m with
  | zero => exact ⟨.empty, rfl, stopping_reachable hk hfail (le_refl k)⟩
  | succ m ih =>
    obtain ⟨queue, hlen, hreach⟩ := ih (by omega) (by omega)
    obtain ⟨queue', hsend⟩ : ∃ queue', PriorityQueue.send maxmsg ThreadpoolPriority.stop.value
        .stop queue = some queue' := PriorityQueue.send_room (by omega)
    have hstop : Step (⟨queue, exitedBelow k⟩ : Threadpool J n) .stop ⟨queue', exitedBelow k⟩ :=
      .stop (by rw [sendStop, send, hsend]; rfl)
    have hlen' := (PriorityQueue.send_length hsend).2
    have hlt : k + m < n := hmn
    exact ⟨queue', by omega, hreach.step
      ⟨.join (a := .stop) rfl trivial (.stop rfl hlt hstop), trivial⟩⟩

/-- The threads that were created are joined, and then the next one. -/
theorem joining_reachable (hfew : n ≤ k + maxmsg) {i : Nat} (hi : i ≤ k) :
    ∃ queue, (starting J n creates).Reachable
      ⟨⟨queue, exitedBelow k⟩, k, .join (.joining i)⟩ := by
  induction i with
  | zero =>
    obtain ⟨queue, -, hreach⟩ := filling_reachable (J := J) hk hfail
      (m := n - k) (by omega) (by omega)
    rw [Nat.add_sub_of_le (Nat.le_of_lt hk)] at hreach
    exact ⟨queue, hreach.step ⟨.join (a := .stopped) rfl trivial (.stopped rfl), trivial⟩⟩
  | succ i ih =>
    obtain ⟨queue, hreach⟩ := ih (by omega)
    refine ⟨queue, hreach.step
      ⟨.join (a := .join) rfl trivial (.join (by omega) rfl (by omega) ?_), trivial⟩⟩
    show exitedBelow k _ = .exited
    simp only [exitedBelow]
    rw [if_pos (by omega)]

end Run

/-- With more than 10 threads missing the caller is stuck in every state. -/
theorem stuck_reachable (hmany : k + maxmsg < n) (hfail : FailsAt creates k)
    (h : (starting J n creates).Reachable s) : Stuck k s := by
  refine h.invariant (I := Stuck k) ?_ (fun s a t hs hstep => hs.step hmany hfail hstep)
  rintro s rfl
  have hnone : (started : Threadpool J n).exitedWorkers = ∅ := by
    simp [exitedWorkers, started, Worker.hasExited]
  refine ⟨Nat.zero_le _, ?_, Nat.zero_le _, ?_, ?_⟩
  · intro i hi
    cases hi
    rfl
  · intro i hi
    cases hi
  · rw [hnone]
    rfl

/-- **A start that fails and the join after it.**  For all numbers of threads and every thread
whose creation fails, over all interleavings of the threads before it, the caller, and anyone
who enqueues jobs, if nothing else fails: `ae_threadpool_join` joins the threads that were
created and no other, and leaves nothing behind when it has returned, exactly if more than 10
threads are missing; and in that case it never returns, nor joins any thread. -/
theorem partly_started_iff (J : Type) (n k : Nat) (creates : Nat → Except Text Unit) (hk : k < n)
    (hfail : FailsAt creates k) :
    (JoinsCreated J n creates k ↔ k + maxmsg < n) ∧
      (k + maxmsg < n → ∀ s, (starting J n creates).Reachable s →
        ∀ r i, s.caller ≠ .join (.returned r) ∧ s.caller ≠ .join (.joining i)) := by
  have hblocked : k + maxmsg < n → ∀ s, (starting J n creates).Reachable s →
      ∀ r i, s.caller ≠ .join (.returned r) ∧ s.caller ≠ .join (.joining i) := by
    intro hmany s hs r i
    have hsent := (stuck_reachable hmany hfail hs).sent
    constructor
    · intro hc
      rw [hc] at hsent
      cases hsent
    · intro hc
      rw [hc] at hsent
      cases hsent
  refine ⟨⟨fun h => ?_, fun hmany => ⟨?_, ?_⟩⟩, hblocked⟩
  · by_contra hfew
    obtain ⟨queue, hreach⟩ := joining_reachable (J := J) hk hfail (by omega) (le_refl k)
    exact Nat.lt_irrefl k (h.joins _ hreach k rfl hk)
  · intro s hs i hc
    exact absurd hc (hblocked hmany s hs (.ok ()) i).2
  · intro s hs r hc
    exact absurd hc (hblocked hmany s hs r 0).1

/-- There is no thread to be had. -/
def noThreads : Nat → Except Text Unit := fun _ => .error (ascii "Resource temporarily unavailable")

theorem noThreads_fails : FailsAt noThreads 0 := ⟨fun _ h => absurd h (Nat.not_lt_zero _), _, rfl⟩

/-- Eleven threads are wanted. -/
theorem partly_started_eleven :
    (JoinsCreated Nat 11 noThreads 0 ↔ 0 + maxmsg < 11) ∧
      (0 + maxmsg < 11 → ∀ s, (starting Nat 11 noThreads).Reachable s →
        ∀ r i, s.caller ≠ .join (.returned r) ∧ s.caller ≠ .join (.joining i)) :=
  partly_started_iff Nat 11 0 noThreads (by decide) noThreads_fails

/-- One thread is wanted, and there is none.  It is joined nevertheless. -/
theorem joins_missing_thread : ¬ JoinsCreated Nat 1 noThreads 0 := by
  intro h
  obtain ⟨queue, hreach⟩ :=
    joining_reachable (J := Nat) (n := 1) (by decide) noThreads_fails (by decide) (le_refl 0)
  exact absurd (h.joins _ hreach 0 rfl (by decide)) (by decide)

end Threadpool
end Libae
