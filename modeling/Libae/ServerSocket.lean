import Libae.MuxCount
import Libae.Server

/-! # The socket of the server

`ae_server_init`, `ae_server_open`, `ae_server_bind_unix`, `ae_server_bind_seqpacket`,
`ae_server_listen` and `ae_server_uninit` (`server.c`).  The descriptor of the socket is in
`server_event.fd`, and -1 there means that there is no socket: the descriptor is closed
if the field is something else, and a new socket is refused then.

The descriptors a server owns are read off the calls: those that were opened by one, and
are still open (`ServerOwner.after`).  Other parts of the program open and close descriptors of
their own.  `ae_server_uninit` closes the socket and leaves the field as it is, so the field
tells whether there is a socket as long as there is none to close (`owned_iff`).
-/
namespace Libae
open Fallible Runs

/-- The answers of the kernel to a call: of `socket` to a type, of `bind` to a descriptor
and a path, of `listen` and `close`, and the faults of `epoll_ctl`. -/
structure SocketEnv where
  socket : Nat → Except Text { fd : Int // 0 ≤ fd ∧ fd < 2 ^ 31 }
  bind : Int → Text → Option Text
  listen : Option Text
  close : Option Text
  faults : EpollOp → Option Text

namespace Server
variable {X : Type}

/-- `SOCK_STREAM`. -/
def sockStream : Nat := 0x1

/-- `SOCK_SEQPACKET`. -/
def sockSeqpacket : Nat := 0x5

/-- `SOCK_CLOEXEC`. -/
def sockCloexec : Nat := 0x80000

/-- `sizeof(addr.sun_path)`. -/
def sunPathSize : Nat := 108

/-- A call that is given the mux. -/
def onMux {α : Type} (x : Fallible (Mux (Option Nat)) α) : Fallible (Server X) α :=
  ⟨fun s => ((x.run s.mux).1, { s with mux := (x.run s.mux).2 })⟩

/-- `ae_res_err(e, …)`. -/
def resErr (text : Text) : Fallible (Server X) Unit := onMux (Mux.resErr text)

/-- `ae_server_init`, of what the model has of an `ae_server_t`. -/
def init (self : Server X) : Server X := { self with fd := -1 }

/-- `ae_server_open`. -/
def openSocket (env : SocketEnv) (flags : Nat) : Fallible (Server X) Unit := do
  if (← get).fd ≠ -1 then
    resErr (ascii "socket already open!")
    fail
  else
    match env.socket (flags ||| sockCloexec ||| sockStream) with
    | .error errno =>
      modify (fun s => { s with fd := -1 })
      resErr (ascii "socket: " ++ errno)
      fail
    | .ok ⟨fd, h⟩ =>
      modify (fun s => { s with fd := fd, mux := { s.mux with epoll := s.mux.epoll.openFd fd h } })

/-- `ae_server_bind_unix` and `ae_server_bind_seqpacket`, which differ in the flags. -/
def bindSocket (env : SocketEnv) (flags : Nat) (path : Text) : Fallible (Server X) Unit := do
  openSocket env flags
  match env.bind (← get).fd (path.take sunPathSize) with
  | some errno =>
    resErr (ascii "bind " ++ path ++ ascii ": " ++ errno)
    fail
  | none => pure ()

/-- `ae_server_bind_seqpacket`. -/
def bindSeqpacket (env : SocketEnv) (path : Text) : Fallible (Server X) Unit :=
  bindSocket env (sockSeqpacket ||| sockCloexec) path

/-- `ae_server_bind_unix`. -/
def bindUnix (env : SocketEnv) (path : Text) : Fallible (Server X) Unit := bindSocket env 0 path

/-- `server_event`. -/
def serverEvent (s : Server X) : MuxEvent ServerCallback ServerCtx :=
  ⟨s.fd, .server, some serverHandlers⟩

/-- `ae_server_listen`; `listen` fails on a descriptor that is not open. -/
def listen (env : SocketEnv) : Fallible (Server X) Unit := do
  let self ← get
  match if self.fd ∈ self.mux.epoll.opened then env.listen else some (strerror .badf) with
  | some errno =>
    resErr (ascii "listen: " ++ errno)
    fail
  | none => onMux (Mux.add none self.serverEvent env.faults)

/-- `ae_server_uninit`; `close` fails on a descriptor that is not open, and releases one that
is also when it reports an error. -/
def uninit (env : SocketEnv) : Fallible (Server X) Unit := do
  let self ← get
  if self.fd ≠ -1 then
    let answer := if self.fd ∈ self.mux.epoll.opened then env.close else some (strerror .badf)
    modify (fun s => s.closeFd self.fd)
    match answer with
    | some errno => resErr (ascii "close: " ++ errno)
    | none => pure ()

/-! ## Ownership -/

/-- A call of one of these functions. -/
inductive SocketCall
  | bindUnix (path : Text)
  | bindSeqpacket (path : Text)
  | listen
  | uninit

/-- The call. -/
def SocketCall.body (env : SocketEnv) : SocketCall → Fallible (Server X) Unit
  | .bindUnix path => Server.bindUnix env path
  | .bindSeqpacket path => Server.bindSeqpacket env path
  | .listen => Server.listen env
  | .uninit => Server.uninit env

/-- The open descriptors. -/
def opened (s : Server X) : Finset Int := s.mux.epoll.opened

end Server

/-- A server, and the open descriptors that it has opened. -/
structure ServerOwner (X : Type) where
  server : Server X
  owned : Finset Int

namespace ServerOwner
open Server
variable {X : Type}

/-- After a call that has left the server so: what the call opened is the server's, and what
it closed is nobody's. -/
def after (s : ServerOwner X) (server : Server X) : ServerOwner X where
  server := server
  owned := s.owned ∩ server.opened ∪ (server.opened \ s.server.opened)

@[simp] theorem after_server (s : ServerOwner X) (server : Server X) :
    (s.after server).server = server := rfl

/-- A call on the server; another part of the program opens a descriptor, or closes one. -/
inductive Action
  | call (c : SocketCall) (env : SocketEnv)
  | opened (fd : Int) (h : 0 ≤ fd ∧ fd < 2 ^ 31)
  | closed (fd : Int)

/-- One step.  New descriptors have numbers that are not in use, and the other parts leave the
server's descriptors alone. -/
inductive Step : ServerOwner X → Action → ServerOwner X → Prop
  | call {s : ServerOwner X} {c : SocketCall} {env : SocketEnv} :
      (∀ type fd h, env.socket type = .ok ⟨fd, h⟩ → fd ∉ s.server.opened) →
      Step s (.call c env) (s.after ((c.body env).run s.server).2)
  | opened {s : ServerOwner X} {fd : Int} {h : 0 ≤ fd ∧ fd < 2 ^ 31} : fd ∉ s.server.opened →
      Step s (.opened fd h) { s with server := { s.server with
        mux := { s.server.mux with epoll := s.server.mux.epoll.openFd fd h } } }
  | closed {s : ServerOwner X} {fd : Int} : fd ∉ s.owned →
      Step s (.closed fd) { s with server := s.server.closeFd fd }

/-- A server from `ae_server_init` on. -/
def sockets (X : Type) : System (ServerOwner X) Action where
  init s := s.owned = ∅ ∧ ∃ server : Server X, s.server = server.init
  step := Step

/-- The action is a call of `ae_server_uninit`. -/
def Action.Uninits : Action → Prop
  | .call .uninit _ => True
  | _ => False

/-- The field is -1 exactly if the server owns no open socket. -/
def Truthful (s : ServerOwner X) : Prop := s.server.fd = -1 ↔ s.owned = ∅

/-- The field is right after the step; and after `ae_server_uninit` what others had opened is
open still, and a new socket is not refused. -/
structure ClosesOnce (s : ServerOwner X) (a : Action) (t : ServerOwner X) : Prop where
  truthful : t.Truthful
  spares : a.Uninits → ∀ fd ∈ s.server.opened, fd ∉ s.owned → fd ∈ t.server.opened
  reopens : a.Uninits → t.server.fd = -1

/-- The field names what the server owns. -/
structure Inv (s : ServerOwner X) : Prop where
  owned : s.owned = if s.server.fd = -1 then ∅ else {s.server.fd}
  sub : s.owned ⊆ s.server.opened

section Steps
variable {s : ServerOwner X} {env : SocketEnv}

theorem Inv.truthful (hs : s.Inv) : s.Truthful := by
  rw [Truthful, hs.owned]
  split <;> simp_all

/-- A call that opens and closes nothing, and leaves the field alone. -/
theorem Inv.same (hs : s.Inv) {server : Server X} (hfd : server.fd = s.server.fd)
    (hopened : server.opened = s.server.opened) : (s.after server).Inv := by
  have howned : (s.after server).owned = s.owned := by
    rw [after, hopened, Finset.sdiff_self, Finset.union_empty]
    exact Finset.inter_eq_left.mpr hs.sub
  refine ⟨?_, ?_⟩ <;> rw [howned, after_server]
  · rw [hs.owned, hfd]
  · rw [hopened]
    exact hs.sub

/-- A call without a socket that opens one. -/
theorem Inv.opens (hs : s.Inv) (hnone : s.server.fd = -1) {server : Server X} {fd : Int}
    (hfd : server.fd = fd) (hrange : 0 ≤ fd) (hnew : fd ∉ s.server.opened)
    (hopened : server.opened = insert fd s.server.opened) : (s.after server).Inv := by
  have hempty : s.owned = ∅ := by rw [hs.owned, if_pos hnone]
  have hdiff : insert fd s.server.opened \ s.server.opened = {fd} := by
    rw [Finset.insert_sdiff_of_notMem _ hnew, Finset.sdiff_self, insert_empty_eq]
  have howned : (s.after server).owned = {fd} := by
    rw [after, hempty, hopened, hdiff, Finset.empty_inter, Finset.empty_union]
  have hne : fd ≠ -1 := by omega
  refine ⟨?_, ?_⟩ <;> rw [howned, after_server]
  · rw [hfd, if_neg hne]
  · rw [hopened]
    simp

/-! ### The calls -/

/-- The field and the open descriptors. -/
def socketView (s : Server X) : Int × Finset Int := (s.fd, s.opened)

theorem frame_resErr (text : Text) :
    Frame socketView (Server.resErr text : Fallible (Server X) Unit) :=
  fun _ => rfl

theorem frame_failed (text : Text) :
    Frame socketView (do Server.resErr text; fail : Fallible (Server X) Unit) :=
  .bind (frame_resErr text) (fun _ => .fail)

theorem frame_listen (env : SocketEnv) :
    Frame socketView (Server.listen env : Fallible (Server X) Unit) := by
  refine .bind .get (fun self => ?_)
  split
  · exact frame_failed _
  · intro s
    obtain ⟨-, h, hok⟩ | ⟨-, -, -, h, hok⟩ | ⟨-, e, herr⟩ :=
      Mux.add_cases none self.serverEvent s.mux env.faults
    · simp [onMux, hok, socketView, Server.opened, Epoll.enter]
    · simp [onMux, hok, socketView, Server.opened, Epoll.enter]
    · simp [onMux, herr, socketView, Server.opened]

/-- **What a bind does to the socket**: nothing, or it opens one where there was none. -/
theorem bindSocket_cases (env : SocketEnv) (flags : Nat) (path : Text) (s : Server X) :
    socketView ((bindSocket env flags path).run s).2 = socketView s ∨
      s.fd = -1 ∧ ∃ type fd h, env.socket type = .ok ⟨fd, h⟩ ∧
        socketView ((bindSocket env flags path).run s).2 = (fd, insert fd s.opened) := by
  have htail : socketView ((bindSocket env flags path).run s).2 =
      socketView ((openSocket env flags).run s).2 := by
    refine Frame.tail (fun _ => .bind .get (fun self => ?_)) s
    split
    · exact frame_failed _
    · exact .pure _
  rw [htail]
  by_cases hfd : s.fd = -1
  · cases hsocket : env.socket (flags ||| sockCloexec ||| sockStream) with
    | error errno =>
      refine .inl ?_
      simp [openSocket, bind_run, hfd, hsocket, socketView, Server.resErr, onMux, Mux.resErr,
        Server.opened]
    | ok answer =>
      obtain ⟨fd, h⟩ := answer
      refine .inr ⟨hfd, _, fd, h, hsocket, ?_⟩
      simp [openSocket, bind_run, hfd, hsocket, socketView, Server.opened, Epoll.openFd]
  · refine .inl ?_
    simp [openSocket, bind_run, hfd, socketView, Server.resErr, onMux, Mux.resErr, Server.opened]

theorem uninit_none (env : SocketEnv) {s : Server X} (hfd : s.fd = -1) :
    (Server.uninit env).run s = (some (), s) := by
  simp [Server.uninit, bind_run, hfd]

/-- A socket is closed, and the field is left. -/
theorem uninit_some (env : SocketEnv) {s : Server X} (hfd : s.fd ≠ -1) :
    socketView ((Server.uninit env).run s).2 = (s.fd, s.opened.erase s.fd) := by
  have hclose : ∀ (answer : Option Text) (t : Server X), socketView ((match answer with
      | some errno => Server.resErr (ascii "close: " ++ errno)
      | none => pure () : Fallible (Server X) Unit).run t).2 = socketView t := by
    intro answer t
    cases answer <;> rfl
  simp only [Server.uninit, bind_run, get_run, hfd, ne_eq, not_false_eq_true, if_true, modify_run]
  rw [hclose]
  rfl

/-! ### One step -/

theorem Inv.bound (hs : s.Inv) {flags : Nat} {path : Text}
    (hnew : ∀ type fd h, env.socket type = .ok ⟨fd, h⟩ → fd ∉ s.server.opened) :
    (s.after ((bindSocket env flags path).run s.server).2).Inv := by
  obtain hsame | ⟨hnone, type, fd, h, hsocket, hopen⟩ := bindSocket_cases env flags path s.server
  · exact hs.same (congrArg Prod.fst hsame) (congrArg Prod.snd hsame)
  · exact hs.opens hnone (congrArg Prod.fst hopen) h.1 (hnew type fd h hsocket)
      (congrArg Prod.snd hopen)

/-- **Every step keeps the field right**, but for `ae_server_uninit` with a socket. -/
theorem Inv.step {a : Action} {t : ServerOwner X} (hs : s.Inv) (h : Step s a t)
    (hgood : a.Uninits → s.server.fd = -1) : t.Inv := by
  cases h with
  | @call c env hnew =>
    cases c with
    | bindUnix path => exact hs.bound hnew
    | bindSeqpacket path => exact hs.bound hnew
    | listen =>
      have hview := frame_listen env s.server
      exact hs.same (congrArg Prod.fst hview) (congrArg Prod.snd hview)
    | uninit =>
      rw [SocketCall.body, uninit_none env (hgood trivial)]
      exact hs.same rfl rfl
  | opened hnew => exact ⟨hs.owned, hs.sub.trans (Finset.subset_insert _ _)⟩
  | closed hother =>
    refine ⟨hs.owned, fun fd hfd => Finset.mem_erase.mpr ⟨?_, hs.sub hfd⟩⟩
    rintro rfl
    exact hother hfd

/-- **When a step does what the field says.** -/
theorem Inv.closesOnce_iff {a : Action} {t : ServerOwner X} (hs : s.Inv) (h : Step s a t) :
    ClosesOnce s a t ↔ (a.Uninits → s.server.fd = -1) := by
  constructor
  · intro honce huninits
    have hreopens := honce.reopens huninits
    -- `ae_server_uninit` does not write to the field
    cases h with
    | @call c env _ =>
      cases c with
      | uninit =>
        by_contra hfd
        have hview := congrArg Prod.fst (uninit_some env hfd)
        exact hfd (hview.symm.trans hreopens)
      | _ => exact huninits.elim
    | _ => exact huninits.elim
  · intro hgood
    refine ⟨(hs.step h hgood).truthful, fun huninits fd hfd _ => ?_, fun huninits => ?_⟩ <;>
      cases h with
      | @call c env _ =>
        cases c with
        | uninit =>
          rw [SocketCall.body, uninit_none env (hgood trivial)]
          first | exact hfd | exact hgood trivial
        | _ => exact huninits.elim
      | _ => exact huninits.elim

end Steps

/-- **When the field tells whether there is a socket.**  In every run, in any order, of calls of
the bind functions, `ae_server_listen` and `ae_server_uninit`, with all outcomes, and of other
parts that open and close descriptors: after every step the field is -1 exactly if the server
owns no open socket, and `ae_server_uninit` closes nothing else and allows a new socket, if
and only if `ae_server_uninit` is called only while the field is -1. -/
theorem owned_iff {s t : ServerOwner X} {τs : List (Transition (ServerOwner X) Action)}
    (hs : (sockets X).init s) (hr : (sockets X).Run s τs t) :
    (∀ τ ∈ τs, ClosesOnce τ.before τ.action τ.after) ↔
      ∀ τ ∈ τs, τ.action.Uninits → τ.before.server.fd = -1 := by
  have hinit : s.Inv := by
    obtain ⟨server, owned⟩ := s
    obtain ⟨rfl, prev, rfl⟩ := hs
    exact ⟨rfl, Finset.empty_subset _⟩
  exact hr.forall_iff (I := Inv) (G := fun s a => a.Uninits → s.server.fd = -1)
    (fun s a t hs h hgood => hs.step h hgood) (fun s a t hs h => hs.closesOnce_iff h) hinit

/-! ### A descriptor of somebody else -/

/-- A server after `ae_server_init`, when nothing is open. -/
def idle : ServerOwner Unit :=
  ⟨init ⟨⟨true, true, true, true⟩, noHandlers, 0, ⟨0, .empty, []⟩, [], fun _ => none, [], []⟩, ∅⟩

/-- A socket gets the number 3. -/
def three : SocketEnv :=
  ⟨fun _ => .ok ⟨3, Mux.three_range⟩, fun _ _ => none, none, none, fun _ => none⟩

/-- There are no more sockets. -/
def exhausted : SocketEnv := { three with socket := fun _ => .error (ascii "Too many open files") }

/-- A server is bound. -/
def bound : ServerOwner Unit := idle.after ((bindUnix three (ascii "/tmp/s")).run idle.server).2

/-- `ae_server_uninit`. -/
def uninitialised (s : ServerOwner Unit) : ServerOwner Unit :=
  s.after ((Server.uninit exhausted).run s.server).2

/-- Another part of the program opens a descriptor with the number of the socket. -/
def taken : ServerOwner Unit :=
  { bound.uninitialised with server := { bound.uninitialised.server with
    mux := { bound.uninitialised.server.mux with
      epoll := bound.uninitialised.server.mux.epoll.openFd 3 Mux.three_range } } }

theorem bound_step : Step idle (.call (.bindUnix (ascii "/tmp/s")) three) bound := by
  refine .call ?_
  rintro type fd h ⟨⟩
  decide

theorem uninitialised_step (s : ServerOwner Unit) :
    Step s (.call .uninit exhausted) s.uninitialised := by
  refine .call ?_
  rintro type fd h ⟨⟩

/-- A server is bound after an `ae_server_uninit` that has found no socket. -/
def boundLater : ServerOwner Unit :=
  idle.uninitialised.after ((bindUnix three (ascii "/tmp/s")).run idle.uninitialised.server).2

theorem boundLater_step :
    Step idle.uninitialised (.call (.bindUnix (ascii "/tmp/s")) three) boundLater := by
  refine .call ?_
  rintro type fd h ⟨⟩
  decide

/-- The field is right after both calls. -/
theorem owned_iff_boundLater :
    ClosesOnce idle (.call .uninit exhausted) idle.uninitialised ∧
      ClosesOnce idle.uninitialised (.call (.bindUnix (ascii "/tmp/s")) three) boundLater := by
  have hfirst : (sockets Unit).step idle (.call .uninit exhausted) idle.uninitialised :=
    uninitialised_step idle
  have hiff := owned_iff ⟨rfl, _, rfl⟩ ((System.Run.single hfirst).snoc boundLater_step)
  rw [List.forall_mem_append, List.forall_mem_append] at hiff
  simp only [List.forall_mem_singleton] at hiff
  exact hiff.mpr ⟨fun _ => rfl, fun huninits => huninits.elim⟩

/-- After an `ae_server_uninit` the field names a descriptor that the server does not own, and the
next one closes it. -/
theorem closes_foreign : (sockets Unit).Reachable taken ∧ ¬ taken.Truthful ∧
    Step taken (.call .uninit exhausted) taken.uninitialised ∧
    (3 : Int) ∈ taken.server.opened ∧ 3 ∉ taken.owned ∧
    3 ∉ taken.uninitialised.server.opened := by
  have hbound : (sockets Unit).Reachable bound :=
    .step (.of_init (s := idle) ⟨rfl, _, rfl⟩) bound_step
  have hclosed : (sockets Unit).Reachable bound.uninitialised := hbound.step (uninitialised_step _)
  have htaken : Step bound.uninitialised (.opened 3 Mux.three_range) taken := .opened (by decide)
  have hstale : ¬ taken.Truthful := fun h => absurd (h.mpr (by decide)) (by decide)
  exact ⟨hclosed.step htaken, hstale, uninitialised_step _, by decide, by decide, by decide⟩

end ServerOwner
end Libae
