import Libae.Mux
import Mathlib.Logic.Function.Basic

/-! # The server

`ae_server_t` (`server.h`, `server.c`): connections accepted from a listening socket
are handed to a mux, each with an event record and a pair that holds the server and
the user's context.  The record is never freed, so its number, the number of its
`accept4`, tells connections apart; the pair is freed when the client is torn down,
and its address may be used again.

The user's callbacks, the kernel and `malloc` are the environment of a dispatch
(`Env`).  What happens to the connections is written to a log.  The reports of one
`epoll_wait` are pending until they are dispatched, one at a time.

A callback of a client looks at its pair before anything else.  What a freed pair holds is up
to `free`, and the process crashes when it follows `x[0]`: nothing happens after such a read
(`running`).
-/
namespace Libae
open Runs

/-- Which callbacks of an `ae_server_handler_t` are not `NULL`. -/
structure ServerHandler where
  onClientAdd : Bool
  onClientRm : Bool
  onClientRead : Bool
  onClientWrite : Bool

/-- The callbacks the server gives the mux. -/
inductive ServerCallback
  | onServerRead
  | onServerWrite
  | onServerHangup
  | onServerPriority
  | onServerError
  | onClientRead
  | onClientWrite
  | onClientHangup
  | onClientError

/-- A context: the server, or the pair of a connection, at an address. -/
inductive ServerCtx
  | server
  | pair (conn addr : Nat)

/-- What `malloc` gave for a pair: the connection it was for, whether it is still
allocated, and the user's context (`pair[1]`; `pair[0]` is the server, until the pair is
freed). -/
structure Pair (X : Type) where
  conn : Nat
  live : Bool
  clientCtx : Option X

/-- What happens to a connection. -/
inductive Act (X : Type)
  | accepted (conn : Nat) (fd : Int)
  | pairRead (conn : Nat) (valid : Bool)
  | onClientRead (conn : Nat) (ctx : Option X) (fd : Int)
  | onClientWrite (conn : Nat) (ctx : Option X) (fd : Int)
  | onClientRm (conn : Nat) (ctx : Option X) (fd : Int)
  | closed (conn : Nat) (fd : Int)
  | freed (conn addr : Nat)

/-- A freed pair is read. -/
def Act.dangling {X : Type} : Act X → Bool
  | .pairRead _ valid => !valid
  | _ => false

/-- What the environment does during a dispatch: the answer of `accept4`, what
`on_client_add` returns and sets, the address `malloc` returns for the pair, and the
faults of the kernel. -/
structure Env (X : Type) where
  accept : Except Text { fd : Int // 0 ≤ fd ∧ fd < 2 ^ 31 }
  wanted : Bool
  clientCtx : Option X
  pair : Nat
  faults : EpollOp → Option Text

/-- A server in use.  `data` of a registration is the number of a client's record, or
`none` for `server_event` and for what other parts of the program register. -/
structure Server (X : Type) where
  handlers : ServerHandler
  clientHandlers : MuxHandlers ServerCallback
  fd : Int
  mux : Mux (Option Nat)
  records : List (Option (MuxEvent ServerCallback ServerCtx))
  pairs : Nat → Option (Pair X)
  log : List (Act X)
  pending : List (Option Nat × EpollFlags)

namespace Server
variable {X : Type}

/-- `s_server_handlers`. -/
def serverHandlers : MuxHandlers ServerCallback where
  read := some .onServerRead
  write := some .onServerWrite
  hangup := some .onServerHangup
  priority := some .onServerPriority
  error := some .onServerError

/-- `ae_server_cfg`: what becomes of `client_handlers`. -/
def cfg (handlers : ServerHandler) (clientHandlers : MuxHandlers ServerCallback) :
    MuxHandlers ServerCallback :=
  { clientHandlers with
    read := if handlers.onClientRead then some .onClientRead else clientHandlers.read
    write := if handlers.onClientWrite then some .onClientWrite else clientHandlers.write
    hangup := some .onClientHangup
    error := some .onClientError }

/-- Handlers that are all `NULL`. -/
def noHandlers : MuxHandlers ServerCallback := ⟨none, none, none, none, none⟩

/-- Write to the log. -/
def note (s : Server X) (acts : List (Act X)) : Server X := { s with log := s.log ++ acts }

/-- `close(fd)`. -/
def closeFd (s : Server X) (fd : Int) : Server X :=
  { s with mux := { s.mux with epoll := s.mux.epoll.close fd } }

/-- No freed pair has been read. -/
def running (s : Server X) : Bool := s.log.all (fun act => !act.dangling)

/-- The pair at an address is that of `conn`, and not freed. -/
def validPair (s : Server X) (conn addr : Nat) : Bool :=
  match s.pairs addr with
  | some pair => pair.live && pair.conn == conn
  | none => false

/-- `x[1]` of the pair at an address. -/
def clientCtx (s : Server X) (addr : Nat) : Option X := (s.pairs addr).bind Pair.clientCtx

/-- `free`. -/
def free (s : Server X) (addr : Nat) : Server X :=
  let freed := (s.pairs addr).map (fun pair => { pair with live := false })
  { s with pairs := Function.update s.pairs addr freed }

/-- `ae_server_on_server_read`. -/
def onServerRead (env : Env X) (s : Server X) : Server X :=
  match env.accept with
  | .error _ => s
  | .ok ⟨fd, h⟩ =>
    let conn := s.records.length
    let s := { s with mux := { s.mux with epoll := s.mux.epoll.openFd fd h } }.note
      [.accepted conn fd]
    if s.handlers.onClientAdd ∧ ¬ env.wanted then
      { (s.closeFd fd).note [.closed conn fd] with records := s.records ++ [none] }
    else
      let clientCtx := if s.handlers.onClientAdd then env.clientCtx else none
      let clientEvent : MuxEvent ServerCallback ServerCtx :=
        ⟨fd, .pair conn env.pair, some s.clientHandlers⟩
      { s with
        pairs := Function.update s.pairs env.pair (some ⟨conn, true, clientCtx⟩)
        records := s.records ++ [some clientEvent]
        mux := ((Mux.add (some conn) clientEvent env.faults).run s.mux).2 }

/-- `ae_server_on_client_read`. -/
def onClientRead (s : Server X) (fd : Int) (conn addr : Nat) : Server X :=
  let valid := s.validPair conn addr
  let s' := s.note [.pairRead conn valid]
  if valid && s.handlers.onClientRead then
    s'.note [.onClientRead conn (s.clientCtx addr) fd]
  else s'

/-- `ae_server_on_client_write`. -/
def onClientWrite (s : Server X) (fd : Int) (conn addr : Nat) : Server X :=
  let valid := s.validPair conn addr
  let s' := s.note [.pairRead conn valid]
  if valid && s.handlers.onClientWrite then
    s'.note [.onClientWrite conn (s.clientCtx addr) fd]
  else s'

/-- `ae_server_client_rm`. -/
def clientRm (env : Env X) (s : Server X) (fd : Int) (conn addr : Nat) : Server X :=
  let clientCtx := s.clientCtx addr
  let valid := s.validPair conn addr
  let s := s.note [.pairRead conn valid]
  -- a freed pair has no server in `x[0]` any more
  if ¬ valid then s
  else if ¬ s.handlers.onClientRm then s
  else
    let s := s.note [.onClientRm conn clientCtx fd]
    let s := { s with mux := ((Mux.rm fd env.faults).run s.mux).2 }
    let s := (s.closeFd fd).note [.closed conn fd]
    (s.free addr).note [.freed conn addr]

/-- A callback is called, if the process has not crashed. -/
def invoke (env : Env X) (s : Server X) (call : Mux.Call ServerCallback ServerCtx) : Server X :=
  if ¬ s.running then s
  else match call.cb, call.ctx with
  | .onServerRead, _ => onServerRead env s
  | .onClientRead, .pair conn addr => s.onClientRead call.fd conn addr
  | .onClientWrite, .pair conn addr => s.onClientWrite call.fd conn addr
  | .onClientHangup, .pair conn addr => clientRm env s call.fd conn addr
  | .onClientError, .pair conn addr => clientRm env s call.fd conn addr
  | _, _ => s

/-- The event record a report points to. -/
def info (s : Server X) : Option Nat → Option (MuxEvent ServerCallback ServerCtx)
  | none => some ⟨s.fd, .server, some serverHandlers⟩
  | some conn => (s.records[conn]?).join

/-- A report is dispatched. -/
def handle (env : Env X) (s : Server X) (report : Option Nat × EpollFlags) : Server X :=
  match s.info report.1 with
  | none => s
  | some info => (Mux.singlethreadHandler report.2 info).foldl (invoke env) s

/-! ## Runs -/

/-- The client is registered. -/
def Registered (s : Server X) (conn : Nat) : Prop :=
  ∃ fd entry, s.mux.epoll.interest.lookup fd = some entry ∧ entry.data = some conn

/-- `epoll_wait` reports; the first pending report is dispatched; another part of the
program, or a callback, opens, registers and closes descriptors of its own. -/
inductive Action (X : Type)
  | wait (reports : List (Option Nat × EpollFlags))
  | dispatch (env : Env X)
  | others (mux : Mux (Option Nat))

/-- The kernel returns a descriptor that is not open, and `malloc` an address that is
not in use. -/
def Env.Fresh (env : Env X) (s : Server X) : Prop :=
  (∀ fd h, env.accept = .ok ⟨fd, h⟩ → fd ∉ s.mux.epoll.opened) ∧
    ∀ pair, s.pairs env.pair = some pair → pair.live = false

/-- One step of a process that has not crashed.  Only registered clients are reported, each at
most once; the other parts of the program leave the registrations of the clients alone. -/
inductive Step : Server X → Action X → Server X → Prop
  | wait {s : Server X} {reports : List (Option Nat × EpollFlags)} : s.running → s.pending = [] →
      (∀ conn flags, (some conn, flags) ∈ reports → s.Registered conn) →
      (reports.map Prod.fst).Nodup → Step s (.wait reports) { s with pending := reports }
  | dispatch {s : Server X} {env : Env X} {report : Option Nat × EpollFlags}
      {rest : List (Option Nat × EpollFlags)} : s.running → s.pending = report :: rest →
      Env.Fresh env s → Step s (.dispatch env) { handle env s report with pending := rest }
  | others {s : Server X} {mux : Mux (Option Nat)} : s.running →
      (∀ fd entry conn, entry.data = some conn →
        (mux.epoll.interest.lookup fd = some entry ↔
          s.mux.epoll.interest.lookup fd = some entry)) →
      Step s (.others mux) { s with mux := mux }

/-- A configured server that has accepted nothing yet.  Its `client_handlers` were all `NULL`
before `ae_server_cfg`, which leaves those alone that it does not set. -/
def serving (X : Type) : System (Server X) (Action X) where
  init s := s.clientHandlers = cfg s.handlers noHandlers ∧ s.records = [] ∧ s.log = [] ∧
    s.pending = [] ∧ ∀ conn, ¬ s.Registered conn
  step := Step

end Server
end Libae
