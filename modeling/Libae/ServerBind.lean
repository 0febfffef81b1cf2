import Libae.ServerSocket

/-! # Binding that fails

`ae_server_bind_unix` and `ae_server_bind_seqpacket` open a socket and bind it.  If it is
`socket` that fails, nothing has changed.  If it is `bind`, the socket stays open and the
field keeps its number, and `ae_server_open` refuses every later attempt
(`failed_bind_kept_iff`).
-/
namespace Libae
open Fallible

namespace Server
variable {X : Type} {env : SocketEnv} {s t : Server X} {flags : Nat} {path : Text}

/-- The flags for `socket` and the path, if the call is a bind. -/
def SocketCall.binds : SocketCall → Option (Nat × Text)
  | .bindUnix path => some (0, path)
  | .bindSeqpacket path => some (sockSeqpacket ||| sockCloexec, path)
  | .listen | .uninit => none

theorem SocketCall.body_of_binds {c : SocketCall} (h : c.binds = some (flags, path))
    (env : SocketEnv) : c.body env = (bindSocket env flags path : Fallible (Server X) Unit) := by
  cases c with
  | bindUnix path => cases h; rfl
  | bindSeqpacket path => cases h; rfl
  | listen => cases h
  | uninit => cases h

/-- There is a socket, and the kernel binds it. -/
def Granted (env : SocketEnv) (flags : Nat) (path : Text) : Prop :=
  ∃ fd, env.socket (flags ||| sockCloexec ||| sockStream) = .ok fd ∧
    env.bind fd (path.take sunPathSize) = none

/-- There is a socket, and the kernel does not bind it. -/
def BindRefused (env : SocketEnv) (flags : Nat) (path : Text) : Prop :=
  ∃ fd errno, env.socket (flags ||| sockCloexec ||| sockStream) = .ok fd ∧
    env.bind fd (path.take sunPathSize) = some errno

/-- A call on `s` has left `t` without a socket and nothing open, so that a later bind succeeds
if the kernel lets it. -/
structure Unbound (s t : Server X) : Prop where
  fd : t.fd = -1
  opened : t.opened = s.opened
  rebinds : ∀ (c : SocketCall) (env : SocketEnv) (flags : Nat) (path : Text),
    c.binds = some (flags, path) → Granted env flags path → ((c.body env).run t).1 = some ()

/-- `ae_res_err` adds a message. -/
theorem resErr_run (text : Text) (s : Server X) : (resErr text).run s =
    (some (), { s with mux := { s.mux with e := s.mux.e ++ [⟨.err, text⟩] } }) := rfl

/-- **A bind where there is no socket**: `socket` fails and nothing has changed, or the field
names the new socket, and the result is what `bind` says. -/
theorem bindSocket_closed (env : SocketEnv) (flags : Nat) (path : Text) (hfd : s.fd = -1) :
    (∃ errno, env.socket (flags ||| sockCloexec ||| sockStream) = .error errno ∧
      ((bindSocket env flags path).run s).1 = none ∧
      ((bindSocket env flags path).run s).2.fd = -1 ∧
      ((bindSocket env flags path).run s).2.opened = s.opened) ∨
    (∃ fd, env.socket (flags ||| sockCloexec ||| sockStream) = .ok fd ∧
      ((bindSocket env flags path).run s).1 =
        (if env.bind fd (path.take sunPathSize) = none then some () else none) ∧
      ((bindSocket env flags path).run s).2.fd = fd) := by
  cases hsocket : env.socket (flags ||| sockCloexec ||| sockStream) with
  | error errno =>
    refine .inl ⟨errno, rfl, ?_⟩
    simp [bindSocket, openSocket, bind_run, hfd, hsocket, resErr_run, opened]
  | ok fd =>
    obtain ⟨fd, h⟩ := fd
    refine .inr ⟨⟨fd, h⟩, rfl, ?_⟩
    cases hbind : env.bind fd (path.take sunPathSize) <;>
      simp [bindSocket, openSocket, bind_run, hfd, hsocket, hbind, resErr_run]

/-- Without a socket a bind succeeds if the kernel lets it. -/
theorem bindSocket_granted (hfd : s.fd = -1) (h : Granted env flags path) :
    ((bindSocket env flags path).run s).1 = some () := by
  obtain ⟨fd, hsocket, hbind⟩ := h
  obtain ⟨errno, herror, -⟩ | ⟨fd', hok, hresult, -⟩ := bindSocket_closed env flags path hfd
  · rw [hsocket] at herror
    cases herror
  · rw [hsocket] at hok
    cases hok
    rw [hresult, if_pos hbind]

/-- **When a failed bind changes nothing.**  For every server without a socket, every path and
all outcomes of `socket` and `bind`: if `ae_server_bind_unix` or `ae_server_bind_seqpacket`
returns false, the field is -1, what is open is what was open, and a later bind succeeds if the
kernel lets it, exactly if it is not `bind` that has failed. -/
theorem failed_bind_kept_iff (s : Server X) (hfd : s.fd = -1) (env : SocketEnv)
    (c : SocketCall) (flags : Nat) (path : Text) (hc : c.binds = some (flags, path)) :
    (((c.body env).run s).1 = none → Unbound s ((c.body env).run s).2) ↔
      ¬ BindRefused env flags path := by
  rw [SocketCall.body_of_binds hc]
  obtain ⟨errno, hsocket, -, hkept, hopened⟩ | ⟨fd, hsocket, hresult, hnew⟩ :=
    bindSocket_closed env flags path hfd
  · refine iff_of_true (fun _ => ⟨hkept, hopened, ?_⟩) ?_
    · intro c' env' flags' path' hc' hgranted
      rw [SocketCall.body_of_binds hc']
      exact bindSocket_granted hkept hgranted
    · rintro ⟨fd, errno', hok, -⟩
      rw [hsocket] at hok
      cases hok
  · cases hbind : env.bind fd (path.take sunPathSize) with
    | none =>
      rw [hbind, if_pos rfl] at hresult
      refine iff_of_true (fun hnone => ?_) ?_
      · rw [hresult] at hnone
        cases hnone
      · rintro ⟨fd', errno', hok, hrefused⟩
        rw [hsocket] at hok
        cases hok
        rw [hbind] at hrefused
        cases hrefused
    | some errno =>
      rw [hbind, if_neg (by simp)] at hresult
      refine iff_of_false (fun h => ?_) (not_not_intro ⟨fd, errno, hsocket, hbind⟩)
      -- the number of the socket stands in the field
      have hminus := (h hresult).fd
      have hrange := fd.2.1
      omega

/-- An address in use. -/
def inUse : SocketEnv :=
  { ServerOwner.three with bind := fun _ _ => some (ascii "Address already in use") }

/-- There are no sockets left. -/
theorem failed_bind_kept_exhausted :
    Unbound ServerOwner.idle.server (((SocketCall.bindUnix (ascii "/tmp/s")).body
      ServerOwner.exhausted).run ServerOwner.idle.server).2 := by
  apply (failed_bind_kept_iff ServerOwner.idle.server rfl ServerOwner.exhausted
    (.bindUnix (ascii "/tmp/s")) 0 (ascii "/tmp/s") rfl).mpr
  · rintro ⟨fd, errno, hsocket, -⟩
    cases hsocket
  · rfl

/-- A server whose path was in use. -/
def refused : Server Unit :=
  (((SocketCall.bindUnix (ascii "/tmp/s")).body inUse).run ServerOwner.idle.server).2

theorem four_range : (0 : Int) ≤ 4 ∧ (4 : Int) < 2 ^ 31 := by decide

/-- The next socket gets the number 4, and may be bound. -/
def four : SocketEnv := { ServerOwner.three with socket := fun _ => .ok ⟨4, four_range⟩ }

/-- The bind has failed, its socket is open, and the next attempt does not succeed although
the kernel would let it. -/
theorem bind_in_use :
    (((SocketCall.bindUnix (ascii "/tmp/s")).body inUse).run ServerOwner.idle.server).1 = none ∧
      ¬ Unbound ServerOwner.idle.server refused ∧ (3 : Int) ∈ refused.opened ∧
      Granted four 0 (ascii "/tmp/t") ∧
      (((SocketCall.bindUnix (ascii "/tmp/t")).body four).run refused).1 = none := by
  refine ⟨rfl, fun h => ?_, by decide, ⟨_, rfl, rfl⟩, rfl⟩
  exact absurd h.fd (by decide)

end Server
end Libae
