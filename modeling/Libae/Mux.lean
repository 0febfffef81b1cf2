import Libae.Epoll
import Libae.Fallible
import Libae.Res
import Libae.Runs
import Libae.Words

/-! # The mux

`ae_mux_t` (`mux.h`, `mux.c`): an epoll instance and a counter of what is
registered in it.  An event record (`ae_mux_event_t`) is handed to the kernel by its
address, of a type `δ`, and comes back with a report.

The functions that change the registrations run on a `Mux`: the counter, the
kernel's side, and the messages added to `e`.  `faults` says which `epoll_ctl`
operations fail for a reason of their own, and with which text.  `ae_mux_wait` is a
function of the counter and of what the kernel and the clock answer; an `epoll_wait`
whose answer is still missing blocks.
-/
namespace Libae
open Fallible

/-- `strerror`. -/
def strerror : Errno → Text
  | .badf => ascii "Bad file descriptor"
  | .exist => ascii "File exists"
  | .fault => ascii "Bad address"
  | .noent => ascii "No such file or directory"
  | .other text => text

/-- `ae_mux_handlers_t`, with callbacks in `C`. -/
structure MuxHandlers (C : Type) where
  read : Option C
  write : Option C
  hangup : Option C
  priority : Option C
  error : Option C

/-- `ae_mux_event_t`, with contexts in `X`. -/
structure MuxEvent (C X : Type) where
  fd : Int
  ctx : X
  handlers : Option (MuxHandlers C)

/-- `struct epoll_event`: flags, and the address of an event record. -/
structure EpollEvent (δ : Type) where
  events : EpollFlags
  data : δ

/-- `ae_mux_t`, the epoll instance it names, and the messages added to `e`. -/
structure Mux (δ : Type) where
  count : Nat
  epoll : Epoll (EpollEvent δ)
  e : List Msg

namespace Mux
variable {C X δ : Type}

/-- `ae_res_err(e, …)`. -/
def resErr (text : Text) : Fallible (Mux δ) Unit :=
  modify (fun self => { self with e := self.e ++ [⟨.err, text⟩] })

/-- The kernel's side has changed. -/
def setEpoll (epoll : Epoll (EpollEvent δ)) : Fallible (Mux δ) Unit :=
  modify (fun self => { self with epoll := epoll })

/-- `ae_mux_event_to_flags`. -/
def eventToFlags (d : MuxEvent C X) : EpollFlags :=
  match d.handlers with
  | none => ⟨false, false, false, false, false, false⟩
  | some handlers =>
    { inp := handlers.read.isSome
      out := handlers.write.isSome
      rdhup := handlers.hangup.isSome
      hup := false
      pri := handlers.priority.isSome
      err := false }

/-- `ae_mux_ctl`, for the event record `d` at the address `ptr`. -/
def ctl (ptr : δ) (d : MuxEvent C X) (op : EpollOp) (faults : EpollOp → Option Text) :
    Fallible (Mux δ) Unit := do
  let event : EpollEvent δ := ⟨eventToFlags d, ptr⟩
  match (← get).epoll.ctl op d.fd (some event) (faults op) with
  | .ok epoll => setEpoll epoll
  | .error errno =>
    if op = .add ∧ errno = .exist then
      match (← get).epoll.ctl .mod d.fd (some event) (faults .mod) with
      | .ok epoll => setEpoll epoll
      | .error errno =>
        resErr (ascii "epoll: " ++ strerror errno)
        fail
    else
      resErr (ascii "epoll: " ++ strerror errno)
      fail
  modify (fun self => { self with count := Word.add self.count 1 })

/-- `ae_mux_add`. -/
def add (ptr : δ) (d : MuxEvent C X) (faults : EpollOp → Option Text) : Fallible (Mux δ) Unit :=
  ctl ptr d .add faults

/-- `ae_mux_mod`, which does not look at its descriptor. -/
def mod (_fd : Int) (ptr : δ) (d : MuxEvent C X) (faults : EpollOp → Option Text) :
    Fallible (Mux δ) Unit :=
  ctl ptr d .mod faults

/-- `ae_mux_rm`; `fcntl` fails on a descriptor that is not open. -/
def rm (fd : Int) (faults : EpollOp → Option Text) : Fallible (Mux δ) Unit := do
  let self ← get
  if fd ∈ self.epoll.opened then
    match self.epoll.ctl .del fd none (faults .del) with
    | .ok epoll => setEpoll epoll
    | .error errno =>
      resErr (ascii "epoll del fd=" ++ ascii (toString fd) ++ ascii ": " ++ strerror errno)
      fail
    modify (fun self => { self with count := Word.sub self.count 1 })

/-! ## Dispatching -/

/-- A callback about to be called. -/
structure Call (C X : Type) where
  cb : C
  fd : Int
  ctx : X

/-- `ae_mux_singlethread_handler`: the callbacks called for a report on the event
record `info`, in order. -/
def singlethreadHandler (events : EpollFlags) (info : MuxEvent C X) : List (Call C X) :=
  match info.handlers with
  | none => []
  | some handlers =>
    let call (flag : Bool) (cb : Option C) : List (Call C X) :=
      if flag then (cb.map (fun cb => ⟨cb, info.fd, info.ctx⟩)).toList else []
    call events.inp handlers.read ++ call events.out handlers.write ++
      call (events.rdhup || events.hup) handlers.hangup ++ call events.pri handlers.priority ++
      call events.err handlers.error

/-! ## Waiting -/

/-- What `clock_gettime` reads. -/
structure Timespec where
  sec : Nat
  nsec : Nat

/-- `ae_mux_now_get`: milliseconds, or the text added to `e`. -/
def nowGet : Except Text Timespec → Except Text Nat
  | .error errno => .error (ascii "clock_gettime: " ++ errno)
  | .ok tp => .ok (Word.add (Word.mul tp.sec 1000) (tp.nsec / 1000000))

/-- A word, or an `int`, converted to an `int`. -/
def toInt (v : Int) : Int := v.bmod (2 ^ 32)

/-- An answer of `epoll_wait`: `EINTR`, and what the clock reads then; another
error; or reports, none if the time is up. -/
inductive EpollAnswer (δ : Type)
  | interrupted (clock : Except Text Timespec)
  | failed (errno : Text)
  | reports (events : List (EpollEvent δ))

/-- How a call of `ae_mux_wait` ended, if it did. -/
inductive WaitOutcome
  | blocked
  | crashed
  | returned (ok : Bool)
  deriving DecidableEq

/-- A call of `ae_mux_wait`: the `maxevents` and `timeout` of each `epoll_wait`, the
microseconds slept, the reports stored in `events` from its start on, the indices
read from `events`, the texts added to `e`, and what `out_was_timeout` points to. -/
structure Waited (δ : Type) where
  calls : List (Int × Int) := []
  slept : Option Int := none
  stored : List (EpollEvent δ) := []
  read : List Nat := []
  e : List Text := []
  wasTimeout : Option Bool
  outcome : WaitOutcome

/-- The loop around `epoll_wait`: its calls, and the answer the loop was left with.
`due` is `then`. -/
def waitLoop (maxevents : Int) (due : Nat) :
    Int → List (EpollAnswer δ) → List (Int × Int) × Option (Except Text (List (EpollEvent δ)))
  | timeoutMs, [] => ([(maxevents, timeoutMs)], none)
  | timeoutMs, .interrupted clock :: answers =>
    match nowGet clock with
    | .error text => ([(maxevents, timeoutMs)], some (.error text))
    | .ok now =>
      let timeoutMs' := if now < due then toInt (Word.sub due now) else timeoutMs
      let r := waitLoop maxevents due timeoutMs' answers
      ((maxevents, timeoutMs) :: r.1, r.2)
  | timeoutMs, .failed errno :: _ =>
    ([(maxevents, timeoutMs)], some (.error (ascii "epoll: " ++ errno)))
  | timeoutMs, .reports events :: _ => ([(maxevents, timeoutMs)], some (.ok events))

/-- The value of `then` after the timeout was added to it. -/
def dueTime (now : Nat) (timeoutMs : Int) : Nat := ((now + timeoutMs) % 2 ^ 64).toNat

/-- `ae_mux_wait` behind its loop, which was left with the answer `r` after `calls`.
`threadpool` is what `pthread_barrier_init` answers if there is a thread pool, and
`out` whether `out_was_timeout` is not `NULL`. -/
def waitEnd (threadpool : Option (Except Text Unit)) (out : Bool) (calls : List (Int × Int)) :
    Option (Except Text (List (EpollEvent δ))) → Waited δ
  | none => { calls := calls, wasTimeout := if out then some false else none, outcome := .blocked }
  | some (.error text) =>
    { calls := calls, e := [text], wasTimeout := if out then some false else none,
      outcome := .returned false }
  | some (.ok []) =>
    { calls := calls, wasTimeout := if out then some true else none, outcome := .returned true }
  | some (.ok (event :: events)) =>
    let base : Waited δ :=
      { calls := calls, stored := event :: events,
        wasTimeout := if out then some false else none, outcome := .returned true }
    match threadpool with
    | none => { base with read := List.range (events.length + 1) }
    | some (.error text) =>
      { base with e := [ascii "pthread barrier init: " ++ text], outcome := .returned false }
    | some (.ok ()) =>
      -- a barrier for as many as there are reports, which only this thread reaches
      { base with outcome := if events = [] then .returned true else .blocked }

/-- `ae_mux_wait`. -/
def wait (count : Nat) (threadpool : Option (Except Text Unit)) (_nEvents : Nat) (timeoutMs : Int)
    (out : Bool) (clock : Except Text Timespec) (answers : List (EpollAnswer δ)) : Waited δ :=
  if count = 0 then
    if timeoutMs ≠ 0 then
      -- `*out_was_timeout` is set without a check here
      { slept := some (timeoutMs * 1000), wasTimeout := if out then some true else none,
        outcome := if out then .returned true else .crashed }
    else { wasTimeout := if out then some false else none, outcome := .returned true }
  else
    match nowGet clock with
    | .error text =>
      { e := [text], wasTimeout := if out then some false else none, outcome := .returned false }
    | .ok now =>
      let r := waitLoop (toInt count) (dueTime now timeoutMs) timeoutMs answers
      waitEnd threadpool out r.1 r.2

/-- `ae_mux_wait_st`. -/
def waitSt (count nEvents : Nat) (timeoutMs : Int) (out : Bool) (clock : Except Text Timespec)
    (answers : List (EpollAnswer δ)) : Waited δ :=
  wait count none nEvents timeoutMs out clock answers

end Mux
end Libae
