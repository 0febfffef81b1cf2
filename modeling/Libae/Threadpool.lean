import Libae.PriorityQueue
import Libae.Res
import Libae.Runs
import Mathlib.Logic.Function.Basic

/-! # The thread pool

`ae_threadpool_t` (`threadpool.h`, `threadpool.c`): workers that take messages from
one POSIX message queue.  A message carries a job, of an arbitrary type `J`, or
tells a worker to stop.  The queue holds 10 messages; a send to a full queue
blocks, so that it is a step only once there is room.

`threadpool w` are the steps of `w` workers and of anyone who sends, in any
interleaving.  `joining w n` adds the caller of `ae_threadpool_join` on a pool whose
`n_threads` is `n`.
-/
namespace Libae
open Runs

/-- `ae_threadpool_priority_t`. -/
inductive ThreadpoolPriority
  | stop
  | job

/-- The values of the enumeration. -/
def ThreadpoolPriority.value : ThreadpoolPriority → Nat
  | .stop => 10
  | .job => 1

/-- `ae_threadpool_msg_t`: its type, with the job that the union holds for a
`AE_THREADPOOL_TYPE_JOB`. -/
inductive ThreadpoolMsg (J : Type)
  | job (job : J)
  | stop

/-- The job a message carries. -/
def ThreadpoolMsg.job? {J : Type} : ThreadpoolMsg J → Option J
  | .job j => some j
  | .stop => none

/-- Where a thread stands in `ae_threadpool_run`. -/
inductive Worker (J : Type)
  | waiting
  | running (job : J)
  | exited

/-- The workers of a pool and their queue. -/
structure Threadpool (J : Type) (w : Nat) where
  queue : PriorityQueue (ThreadpoolMsg J)
  worker : Fin w → Worker J

namespace Threadpool
variable {J : Type} {w : Nat}

/-- `mq_maxmsg`. -/
def maxmsg : Nat := 10

/-- `ae_threadpool_send`, with the kernel's answer to `mq_send`; the result is the
queue, or the text added to `e`.  There is none while the call blocks. -/
def send (queue : PriorityQueue (ThreadpoolMsg J)) (msg : ThreadpoolMsg J)
    (priority : ThreadpoolPriority) :
    Except Text Unit → Option (Except Text (PriorityQueue (ThreadpoolMsg J)))
  | .error errno => some (.error (ascii "mq_send: " ++ errno))
  | .ok () => (queue.send maxmsg priority.value msg).map .ok

/-- `ae_threadpool_send_job`. -/
def sendJob (queue : PriorityQueue (ThreadpoolMsg J)) (job : J) (answer : Except Text Unit) :
    Option (Except Text (PriorityQueue (ThreadpoolMsg J))) :=
  send queue (.job job) .job answer

/-- `ae_threadpool_send_stop`. -/
def sendStop (queue : PriorityQueue (ThreadpoolMsg J)) (answer : Except Text Unit) :
    Option (Except Text (PriorityQueue (ThreadpoolMsg J))) :=
  send queue .stop .stop answer

/-- `ae_threadpool_enque`. -/
def enque (queue : PriorityQueue (ThreadpoolMsg J)) (job : J) (answer : Except Text Unit) :
    Option (Except Text (PriorityQueue (ThreadpoolMsg J))) :=
  sendJob queue job answer

/-- `ae_threadpool_run`: what a worker does next with the outcome of
`mq_receive`. -/
def run : Except Text (ThreadpoolMsg J) → Worker J
  | .error _ => .exited
  | .ok (.job job) => .running job
  | .ok .stop => .exited

/-- The steps of a pool: `ae_threadpool_enque` returns, a worker receives, the job
it runs returns, a stop message is sent. -/
inductive Action (J : Type) (w : Nat)
  | enque (job : J)
  | enqueFailed (job : J) (errno : Text)
  | receive (i : Fin w) (msg : ThreadpoolMsg J)
  | ran (i : Fin w) (job : J)
  | stop
  | stopFailed (errno : Text)

/-- One step. -/
inductive Step : Threadpool J w → Action J w → Threadpool J w → Prop
  | enque {s : Threadpool J w} {job : J} {queue : PriorityQueue (ThreadpoolMsg J)} :
      Threadpool.enque s.queue job (.ok ()) = some (.ok queue) →
      Step s (.enque job) { s with queue := queue }
  | enqueFailed {s : Threadpool J w} {job : J} {errno text : Text} :
      Threadpool.enque s.queue job (.error errno) = some (.error text) →
      Step s (.enqueFailed job errno) s
  | receive {s : Threadpool J w} {i : Fin w} {msg : ThreadpoolMsg J}
      {queue : PriorityQueue (ThreadpoolMsg J)} :
      s.worker i = .waiting → s.queue.receive = some (msg, queue) →
      Step s (.receive i msg) ⟨queue, Function.update s.worker i (run (.ok msg))⟩
  | ran {s : Threadpool J w} {i : Fin w} {job : J} : s.worker i = .running job →
      Step s (.ran i job) { s with worker := Function.update s.worker i .waiting }
  | stop {s : Threadpool J w} {queue : PriorityQueue (ThreadpoolMsg J)} :
      sendStop s.queue (.ok ()) = some (.ok queue) → Step s .stop { s with queue := queue }
  | stopFailed {s : Threadpool J w} {errno text : Text} :
      sendStop s.queue (.error errno) = some (.error text) → Step s (.stopFailed errno) s

/-- A pool whose threads were just started: nothing is queued. -/
def started : Threadpool J w := ⟨.empty, fun _ => .waiting⟩

/-- The pool in use. -/
def threadpool (J : Type) (w : Nat) : System (Threadpool J w) (Action J w) where
  init s := s = started
  step := Step

/-! ## Joining -/

/-- Where the caller stands in `ae_threadpool_join`: before the call, in one of its
two loops, or behind it with `true` or with the text added to `e`. -/
inductive Join
  | idle
  | sending (i : Nat)
  | joining (i : Nat)
  | returned (r : Except Text Unit)

/-- A pool and the caller of `ae_threadpool_join`. -/
structure Joining (J : Type) (w : Nat) where
  pool : Threadpool J w
  caller : Join

/-- The steps of a pool that is joined: those of the workers and producers, and
those of the caller. -/
inductive JoinAction (J : Type) (w : Nat)
  | pool (a : Action J w)
  | call
  | stop
  | stopFailed (errno : Text)
  | stopped
  | join
  | joinFailed (errno : Text)
  | joined

/-- A step that is not the caller's. -/
def Action.others : Action J w → Prop
  | .stop | .stopFailed _ => False
  | _ => True

/-- One step of a pool that is joined.  `pthread_join` returns once the thread has
exited. -/
inductive JoinStep (n : Nat) : Joining J w → JoinAction J w → Joining J w → Prop
  | pool {s : Joining J w} {a : Action J w} {p : Threadpool J w} : a.others → Step s.pool a p →
      JoinStep n s (.pool a) { s with pool := p }
  | call {s : Joining J w} : s.caller = .idle →
      JoinStep n s .call { s with caller := .sending 0 }
  | stop {s : Joining J w} {i : Nat} {p : Threadpool J w} : s.caller = .sending i → i < n →
      Step s.pool .stop p → JoinStep n s .stop ⟨p, .sending (i + 1)⟩
  | stopFailed {s : Joining J w} {i : Nat} {errno text : Text} : s.caller = .sending i → i < n →
      sendStop s.pool.queue (.error errno) = some (.error text) →
      JoinStep n s (.stopFailed errno) { s with caller := .returned (.error text) }
  | stopped {s : Joining J w} : s.caller = .sending n →
      JoinStep n s .stopped { s with caller := .joining 0 }
  | join {s : Joining J w} {i : Nat} (h : i < w) : s.caller = .joining i → i < n →
      s.pool.worker ⟨i, h⟩ = .exited → JoinStep n s .join { s with caller := .joining (i + 1) }
  | joinFailed {s : Joining J w} {i : Nat} {errno : Text} : s.caller = .joining i → i < n →
      JoinStep n s (.joinFailed errno)
        { s with caller := .returned (.error (ascii "join: " ++ errno)) }
  | joined {s : Joining J w} : s.caller = .joining n →
      JoinStep n s .joined { s with caller := .returned (.ok ()) }

/-- A pool of `w` workers whose `n_threads` is `n`, until `ae_threadpool_join` has
returned and beyond. -/
def joining (J : Type) (w n : Nat) : System (Joining J w) (JoinAction J w) where
  init s := s = ⟨started, .idle⟩
  step := JoinStep n

end Threadpool
end Libae
