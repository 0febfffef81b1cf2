import Libae.MuxCount
import Libae.Server

/-! # What a dispatch does to the clients

A report of the listening socket makes the server accept at most one connection, which it
closes at once (`Rejected`) or makes a client (`Welcomed`).  A report of a client makes it
talk to the user about the client and, if the client is gone and `on_client_rm` is not
`NULL`, takes it out of the mux (`Departed`).  There is nothing else (`handle_server`,
`onServerRead_cases`, `handle_client_cases`).

It follows that in every run each registered client has an event record and a live pair of
its own (`Sound`), and that the clients with a pending report are registered (`Watched`).
This is so for every table of handlers, and up to the read of a freed pair.
-/
namespace Libae
open Runs Fallible

/-- The connection of an act. -/
def Act.conn {X : Type} : Act X → Nat
  | .accepted conn _ => conn
  | .pairRead conn _ => conn
  | .onClientRead conn _ _ => conn
  | .onClientWrite conn _ _ => conn
  | .onClientRm conn _ _ => conn
  | .closed conn _ => conn
  | .freed conn _ => conn

namespace Server
variable {X : Type}

/-! ## The callbacks of a client -/

section Callbacks
variable {s t : Server X} {fd : Int} {conn addr : Nat}

/-- The pair at an address is live and belongs to the connection. -/
def Owns (s : Server X) (conn addr : Nat) : Prop :=
  ∃ ctx, s.pairs addr = some ⟨conn, true, ctx⟩

theorem Owns.valid (h : s.Owns conn addr) : s.validPair conn addr = true := by
  obtain ⟨ctx, hp⟩ := h
  simp [validPair, hp]

/-- A pair that is not live has no owner any more. -/
theorem validPair_freed {pair : Pair X} (conn : Nat) (hp : s.pairs addr = some pair)
    (hlive : pair.live = false) : s.validPair conn addr = false := by
  simp [validPair, hp, hlive]

theorem running_note (acts : List (Act X)) :
    (s.note acts).running = (s.running && acts.all (fun act => !act.dangling)) :=
  List.all_append

theorem running_iff : s.running = true ↔ ∀ conn, .pairRead conn false ∉ s.log := by
  unfold running
  rw [List.all_eq_true]
  constructor
  · exact fun h conn hmem => Bool.false_ne_true (h _ hmem)
  · intro h act hmem
    cases act with
    | pairRead conn valid =>
      cases valid with
      | true => rfl
      | false => exact absurd hmem (h conn)
    | _ => rfl

theorem note_note (acts acts' : List (Act X)) :
    (s.note acts).note acts' = s.note (acts ++ acts') := by
  simp [note]

@[simp] theorem note_nil (s : Server X) : s.note [] = s := by
  simp [note]

/-- What the read and the write callback of a client, where they are called, write to the
log; its pair is live. -/
def exchange (s : Server X) (flags : EpollFlags) (fd : Int) (conn addr : Nat) : List (Act X) :=
  (if flags.inp && s.handlers.onClientRead then
      [.pairRead conn true, .onClientRead conn (s.clientCtx addr) fd] else []) ++
    (if flags.out && s.handlers.onClientWrite then
      [.pairRead conn true, .onClientWrite conn (s.clientCtx addr) fd] else [])

/-- What a teardown writes to the log. -/
def teardown (conn : Nat) (ctx : Option X) (fd : Int) (addr : Nat) : List (Act X) :=
  [.pairRead conn true, .onClientRm conn ctx fd, .closed conn fd, .freed conn addr]

theorem running_exchange (hrun : s.running = true) (flags : EpollFlags) (fd : Int)
    (conn addr : Nat) : (s.note (s.exchange flags fd conn addr)).running = true := by
  rw [running_note, hrun, Bool.true_and, exchange, List.all_append, Bool.and_eq_true]
  constructor <;> split <;> rfl

/-- Acts of a client that was accepted before. -/
def Of (conn : Nat) (acts : List (Act X)) : Prop :=
  ∀ act ∈ acts, act.conn = conn ∧ ∀ fd, act ≠ .accepted conn fd

theorem of_exchange (s : Server X) (flags : EpollFlags) (fd : Int) (conn addr : Nat) :
    Of conn (s.exchange flags fd conn addr) := by
  intro act hact
  unfold exchange at hact
  rcases List.mem_append.mp hact with h | h <;> split at h <;>
    simp only [List.mem_cons, List.not_mem_nil, or_false] at h
  · rcases h with rfl | rfl <;> exact ⟨rfl, nofun⟩
  · rcases h with rfl | rfl <;> exact ⟨rfl, nofun⟩

theorem of_teardown (ctx : Option X) (fd : Int) (addr : Nat) :
    Of conn (teardown conn ctx fd addr) := by
  intro act hact
  simp only [teardown, List.mem_cons, List.not_mem_nil, or_false] at hact
  rcases hact with rfl | rfl | rfl | rfl <;> exact ⟨rfl, nofun⟩

theorem Of.append {acts acts' : List (Act X)} (h : Of conn acts) (h' : Of conn acts') :
    Of conn (acts ++ acts') := List.forall_mem_append.mpr ⟨h, h'⟩

/-- `ae_mux_rm` followed by `close` takes the descriptor out of the interest list, also
if the kernel refuses to delete it. -/
theorem rm_close_lookup {m : Mux (Option Nat)} (faults : EpollOp → Option Text) (fd x : Int) :
    (((Mux.rm fd faults).run m).2.epoll.close fd).interest.lookup x =
      if x = fd then none else m.epoll.interest.lookup x := by
  obtain ⟨-, -, hok⟩ | ⟨-, r, e, herr⟩ := Mux.rm_cases m fd faults
  · rw [hok, Epoll.lookup_close]
    by_cases hx : x = fd
    · simp only [hx, ite_true]
    · simp only [hx, ite_false]
      exact AList.lookup_erase_ne hx
  · rw [herr, Epoll.lookup_close]

/-- **A teardown.** -/
structure TornDown (s : Server X) (fd : Int) (conn addr : Nat) (t : Server X) : Prop where
  log : t.log = s.log ++ teardown conn (s.clientCtx addr) fd addr
  handlers : t.handlers = s.handlers
  clientHandlers : t.clientHandlers = s.clientHandlers
  records : t.records = s.records
  lookup : ∀ x, t.mux.epoll.interest.lookup x =
    if x = fd then none else s.mux.epoll.interest.lookup x
  closed : fd ∉ t.mux.epoll.opened
  pairs : ∀ a, a ≠ addr → t.pairs a = s.pairs a
  freed : t.pairs addr = (s.pairs addr).map (fun pair => { pair with live := false })

/-- With `on_client_rm`, and a pair that is live, a client is torn down. -/
theorem clientRm_tornDown (env : Env X) (hvalid : s.validPair conn addr = true)
    (hrm : s.handlers.onClientRm = true) :
    TornDown s fd conn addr (clientRm env s fd conn addr) := by
  have hnot : ¬ (¬ s.handlers.onClientRm = true) := fun h => h hrm
  have hlive : ¬ (¬ s.validPair conn addr = true) := fun h => h hvalid
  refine ⟨?_, ?_, ?_, ?_, ?_, ?_, ?_, ?_⟩ <;>
    simp only [clientRm, note, closeFd, free, hnot, hlive, if_false]
  · simp [teardown, hvalid]
  · exact fun x => rm_close_lookup env.faults fd x
  · exact Finset.notMem_erase fd _
  · exact fun a ha => Function.update_of_ne ha _ _
  · exact Function.update_self _ _ _

/-- Without one of the two, its pair is read and that is all. -/
theorem clientRm_kept (env : Env X)
    (hnot : ¬ (s.validPair conn addr = true ∧ s.handlers.onClientRm = true)) :
    clientRm env s fd conn addr = s.note [.pairRead conn (s.validPair conn addr)] := by
  rw [clientRm]
  by_cases hvalid : s.validPair conn addr = true
  · have hrm : ¬ s.handlers.onClientRm = true := fun h => hnot ⟨hvalid, h⟩
    simp only [hvalid, not_true_eq_false, if_false]
    exact if_pos hrm
  · exact if_pos hvalid

/-- **A client is gone**; the rest of the server is as it was. -/
structure Departed (s : Server X) (fd : Int) (conn addr : Nat) (t : Server X) : Prop where
  handlers : t.handlers = s.handlers
  clientHandlers : t.clientHandlers = s.clientHandlers
  records : t.records = s.records
  lookup : ∀ x, t.mux.epoll.interest.lookup x =
    if x = fd then none else s.mux.epoll.interest.lookup x
  closed : fd ∉ t.mux.epoll.opened
  pairs : ∀ a, a ≠ addr → t.pairs a = s.pairs a
  freed : ∃ pair, t.pairs addr = some pair ∧ pair.conn = conn ∧ pair.live = false
  log : ∃ acts, t.log = s.log ++ acts ∧ Of conn acts ∧ .closed conn fd ∈ acts ∧
    ∃ ctx, .onClientRm conn ctx fd ∈ acts

theorem departed_clientRm (env : Env X) (hown : s.Owns conn addr)
    (hrm : s.handlers.onClientRm = true) :
    Departed s fd conn addr (clientRm env s fd conn addr) := by
  have ht : TornDown s fd conn addr (clientRm env s fd conn addr) :=
    clientRm_tornDown env hown.valid hrm
  obtain ⟨ctx, hp⟩ := hown
  refine ⟨ht.handlers, ht.clientHandlers, ht.records, ht.lookup, ht.closed, ht.pairs, ?_, ?_⟩
  · rw [ht.freed, hp]
    exact ⟨_, rfl, rfl, rfl⟩
  · exact ⟨_, ht.log, of_teardown _ _ _, by simp [teardown], s.clientCtx addr, by simp [teardown]⟩

/-- What is written about a client that is gone does not bring it back. -/
theorem Departed.note {acts : List (Act X)} (h : Departed s fd conn addr t) (hof : Of conn acts) :
    Departed s fd conn addr (t.note acts) := by
  obtain ⟨acts', hlog, hof', hclosed, ctx, hrm⟩ := h.log
  refine ⟨h.handlers, h.clientHandlers, h.records, h.lookup, h.closed, h.pairs, h.freed,
    acts' ++ acts, ?_, hof'.append hof, List.mem_append_left _ hclosed, ctx,
    List.mem_append_left _ hrm⟩
  rw [Server.note, hlog, List.append_assoc]

/-- What happens before a client is gone. -/
theorem Departed.of_note {acts : List (Act X)} (h : Departed (s.note acts) fd conn addr t)
    (hof : Of conn acts) : Departed s fd conn addr t := by
  obtain ⟨acts', hlog, hof', hclosed, ctx, hrm⟩ := h.log
  refine ⟨h.handlers, h.clientHandlers, h.records, h.lookup, h.closed, h.pairs, h.freed,
    acts ++ acts', ?_, hof.append hof', List.mem_append_right _ hclosed, ctx,
    List.mem_append_right _ hrm⟩
  rw [hlog, Server.note, List.append_assoc]

end Callbacks

/-! ## A report of a client -/

section Clients
variable {s : Server X} {fd : Int} {conn addr : Nat} (env : Env X) (flags : EpollFlags)

/-- The callbacks called for a report of a client, in order. -/
theorem client_calls (handlers : ServerHandler) (ctx : ServerCtx) :
    Mux.singlethreadHandler flags ⟨fd, ctx, some (cfg handlers noHandlers)⟩ =
      ((if flags.inp && handlers.onClientRead then [⟨.onClientRead, fd, ctx⟩] else []) ++
        (if flags.out && handlers.onClientWrite then [⟨.onClientWrite, fd, ctx⟩] else [])) ++
      ((if flags.rdhup || flags.hup then [⟨.onClientHangup, fd, ctx⟩] else []) ++
        (if flags.err then [⟨.onClientError, fd, ctx⟩] else [])) := by
  obtain ⟨inp, out, rdhup, hup, pri, err⟩ := flags
  obtain ⟨-, -, onRead, onWrite⟩ := handlers
  cases inp <;> cases out <;> cases onRead <;> cases onWrite <;>
    simp [Mux.singlethreadHandler, cfg, noHandlers]

/-- Before it may be torn down, a client is only read and written. -/
theorem handle_client (hrun : s.running = true)
    (hclient : s.clientHandlers = cfg s.handlers noHandlers)
    (hrec : s.records[conn]? = some (some ⟨fd, .pair conn addr, some s.clientHandlers⟩))
    (hown : s.Owns conn addr) :
    handle env s (some conn, flags) =
      ((if flags.rdhup || flags.hup then
          [(⟨.onClientHangup, fd, .pair conn addr⟩ : Mux.Call ServerCallback ServerCtx)] else []) ++
        (if flags.err then
          [(⟨.onClientError, fd, .pair conn addr⟩ : Mux.Call ServerCallback ServerCtx)]
          else [])).foldl (invoke env) (s.note (s.exchange flags fd conn addr)) := by
  have hinfo : s.info (some conn) = some ⟨fd, .pair conn addr, some s.clientHandlers⟩ := by
    simp [info, hrec]
  have hvalid := hown.valid
  have hread : (if flags.inp && s.handlers.onClientRead then
      [(⟨.onClientRead, fd, .pair conn addr⟩ : Mux.Call ServerCallback ServerCtx)] else []).foldl
      (invoke env) s = s.note (if flags.inp && s.handlers.onClientRead then
        [.pairRead conn true, .onClientRead conn (s.clientCtx addr) fd] else []) := by
    split
    next h =>
      have hon : s.handlers.onClientRead = true := (Bool.and_eq_true_iff.mp h).2
      simp [invoke, hrun, onClientRead, note, hon, hvalid]
    next => simp
  have hwrite : ∀ acts, (s.note acts).running = true →
      (if flags.out && s.handlers.onClientWrite then
        [(⟨.onClientWrite, fd, .pair conn addr⟩ : Mux.Call ServerCallback ServerCtx)]
        else []).foldl (invoke env) (s.note acts) =
      s.note (acts ++ if flags.out && s.handlers.onClientWrite then
        [.pairRead conn true, .onClientWrite conn (s.clientCtx addr) fd] else []) := by
    intro acts hacts
    split
    next h =>
      have hon : s.handlers.onClientWrite = true := (Bool.and_eq_true_iff.mp h).2
      have hlive : (s.note acts).validPair conn addr = true := hvalid
      simp only [List.foldl_cons, List.foldl_nil, invoke, hacts, not_true_eq_false, if_false,
        onClientWrite, hlive, Bool.true_and]
      simp [note, hon, clientCtx]
    next => simp
  simp only [handle, hinfo, hclient, client_calls, List.foldl_append]
  rw [hread, hwrite _ ?_]
  · rfl
  · rw [running_note, hrun]
    split <;> rfl

/-- The client hung up, or there is an error. -/
def Gone (flags : EpollFlags) : Prop := flags.rdhup ∨ flags.hup ∨ flags.err

/-- How often a report calls `ae_server_client_rm`. -/
def removals (flags : EpollFlags) : Nat :=
  (if flags.rdhup || flags.hup then 1 else 0) + if flags.err then 1 else 0

theorem removals_pos : 0 < removals flags ↔ Gone flags := by
  unfold removals Gone
  by_cases hhang : (flags.rdhup || flags.hup) = true <;> by_cases herr : flags.err = true <;>
    simp_all

/-- A hangup and an error, reported at once. -/
def Doubled (flags : EpollFlags) : Prop := (flags.rdhup ∨ flags.hup) ∧ flags.err

theorem removals_le : removals flags ≤ 2 := by
  unfold removals
  split <;> split <;> omega

theorem removals_doubled : removals flags = 2 ↔ Doubled flags := by
  unfold removals Doubled
  by_cases hhang : (flags.rdhup || flags.hup) = true <;> by_cases herr : flags.err = true <;>
    simp_all

/-- A callback that removes a client is called while the process runs. -/
theorem invoke_clientRm {call : Mux.Call ServerCallback ServerCtx} (hrun : s.running = true)
    (hcb : call.cb = .onClientHangup ∨ call.cb = .onClientError)
    (hctx : call.ctx = .pair conn addr) :
    invoke env s call = clientRm env s call.fd conn addr := by
  obtain ⟨cb, fd, ctx⟩ := call
  subst hctx
  rcases hcb with rfl | rfl <;> simp [invoke, hrun]

/-- The first removal reads a pair that is live. -/
theorem running_clientRm (hrun : s.running = true) (hown : s.Owns conn addr) :
    (clientRm env s fd conn addr).running = true := by
  by_cases hrm : s.handlers.onClientRm = true
  · have hlog : (clientRm env s fd conn addr).log =
        (s.note (teardown conn (s.clientCtx addr) fd addr)).log :=
      (clientRm_tornDown env hown.valid hrm).log
    rw [running, hlog]
    exact (running_note _).trans (by rw [hrun]; rfl)
  · rw [clientRm_kept env (fun h => hrm h.2), running_note, hrun, hown.valid]
    rfl

/-- **What a report of a client does**: the client is read and written, and then removed. -/
theorem handle_client_rm (hrun : s.running = true)
    (hclient : s.clientHandlers = cfg s.handlers noHandlers)
    (hrec : s.records[conn]? = some (some ⟨fd, .pair conn addr, some s.clientHandlers⟩))
    (hown : s.Owns conn addr) :
    handle env s (some conn, flags) =
      (fun s' => clientRm env s' fd conn addr)^[removals flags]
        (s.note (s.exchange flags fd conn addr)) := by
  have hexchange := running_exchange hrun flags fd conn addr
  have hsecond : (clientRm env (s.note (s.exchange flags fd conn addr)) fd conn addr).running =
      true := running_clientRm env hexchange hown
  have hhup : ∀ s' : Server X, s'.running = true →
      invoke env s' ⟨.onClientHangup, fd, .pair conn addr⟩ = clientRm env s' fd conn addr :=
    fun _ h => invoke_clientRm env h (.inl rfl) rfl
  have herror : ∀ s' : Server X, s'.running = true →
      invoke env s' ⟨.onClientError, fd, .pair conn addr⟩ = clientRm env s' fd conn addr :=
    fun _ h => invoke_clientRm env h (.inr rfl) rfl
  rw [handle_client env flags hrun hclient hrec hown, removals]
  -- the hangup handler, the error handler, both or none
  by_cases hhang : (flags.rdhup || flags.hup) = true <;> by_cases herr : flags.err = true <;>
    simp only [hhang, herr, if_true, if_false, Bool.false_eq_true, List.foldl_append,
      List.foldl_cons, List.foldl_nil, hhup _ hexchange, herror _ hexchange, herror _ hsecond] <;>
    rfl

/-- Without `on_client_rm`, the pair is read and that is all. -/
theorem iterate_clientRm_kept (fd : Int) (conn addr : Nat)
    (hrm : ¬ s.handlers.onClientRm = true) (n : Nat) :
    ∃ acts, (∀ act ∈ acts, act = .pairRead conn (s.validPair conn addr)) ∧
      (fun s' => clientRm env s' fd conn addr)^[n] s = s.note acts := by
  induction n with
  | zero => exact ⟨[], by simp, by simp⟩
  | succ n ih =>
    obtain ⟨acts, hacts, hr⟩ := ih
    have hvalid : (s.note acts).validPair conn addr = s.validPair conn addr := rfl
    refine ⟨acts ++ [.pairRead conn (s.validPair conn addr)], ?_, ?_⟩
    · exact List.forall_mem_append.mpr ⟨hacts, by simp⟩
    · rw [Function.iterate_succ_apply', hr,
        clientRm_kept (s := s.note acts) env (fun h => hrm h.2), hvalid, note_note]

/-- With it, the client is gone after the first time, and its freed pair is read after that. -/
theorem departed_iterate (fd : Int) (hown : s.Owns conn addr)
    (hrm : s.handlers.onClientRm = true) (n : Nat) :
    Departed s fd conn addr ((fun s' => clientRm env s' fd conn addr)^[n + 1] s) := by
  induction n with
  | zero => exact departed_clientRm env hown hrm
  | succ n ih =>
    obtain ⟨pair, hp, -, hlive⟩ := ih.freed
    have hfreed := validPair_freed conn hp hlive
    rw [Function.iterate_succ_apply',
      clientRm_kept env (fun h => Bool.false_ne_true (hfreed.symm.trans h.1))]
    refine ih.note (fun act hact => ?_)
    rw [List.mem_singleton.mp hact]
    exact ⟨rfl, by simp⟩

/-- **What a report of a client can do**: the client is talked about, or it is gone. -/
theorem handle_client_cases (hrun : s.running = true)
    (hclient : s.clientHandlers = cfg s.handlers noHandlers)
    (hrec : s.records[conn]? = some (some ⟨fd, .pair conn addr, some s.clientHandlers⟩))
    (hown : s.Owns conn addr) :
    (¬ (s.handlers.onClientRm = true ∧ Gone flags) ∧ ∃ acts, Of conn acts ∧
        handle env s (some conn, flags) = s.note acts) ∨
      (s.handlers.onClientRm = true ∧ Gone flags ∧
        Departed s fd conn addr (handle env s (some conn, flags))) := by
  have hof := s.of_exchange flags fd conn addr
  rw [handle_client_rm env flags hrun hclient hrec hown, ← removals_pos]
  by_cases hrm : s.handlers.onClientRm = true
  · cases hn : removals flags with
    | zero => exact .inl ⟨by simp, _, hof, rfl⟩
    | succ n =>
      have hgone := departed_iterate env fd (s := s.note (s.exchange flags fd conn addr)) hown hrm n
      exact .inr ⟨hrm, Nat.succ_pos n, hgone.of_note hof⟩
  · have hkept : ¬ (s.note (s.exchange flags fd conn addr)).handlers.onClientRm = true := hrm
    obtain ⟨acts, hacts, hr⟩ := iterate_clientRm_kept env fd conn addr hkept (removals flags)
    refine .inl ⟨fun h => hrm h.1, _, hof.append (fun act hact => ?_), hr.trans (note_note _ _)⟩
    rw [hacts act hact]
    exact ⟨rfl, by simp⟩

end Clients

/-! ## The report that is dispatched -/

section Pending
variable {s : Server X} {conn : Nat} {flags : EpollFlags} {rest : List (Option Nat × EpollFlags)}
  {P : Nat → EpollFlags → Prop}

/-- What is asked of a report of a client is asked of this one. -/
theorem pending_client_iff (hp : s.pending = (some conn, flags) :: rest) :
    (∀ conn' flags' rest', s.pending = (some conn', flags') :: rest' → P conn' flags') ↔
      P conn flags := by
  constructor
  · exact fun h => h conn flags rest hp
  · intro h conn' flags' rest' heq
    rw [hp] at heq
    cases heq
    exact h

/-- Of a report of the listening socket it is not. -/
theorem pending_server (hp : s.pending = (none, flags) :: rest) :
    ∀ conn' flags' rest', s.pending = (some conn', flags') :: rest' → P conn' flags' := by
  intro conn' flags' rest' heq
  rw [hp] at heq
  cases heq

end Pending

/-! ## A report of the listening socket -/

section Accepting
variable {s t : Server X} {env : Env X}

/-- A report of the listening socket makes the server accept at most one connection. -/
theorem handle_server (env : Env X) (flags : EpollFlags) (hrun : s.running = true) :
    handle env s (none, flags) = if flags.inp then onServerRead env s else s := by
  obtain ⟨inp, out, rdhup, hup, pri, err⟩ := flags
  cases inp <;> cases out <;> cases rdhup <;> cases hup <;> cases pri <;> cases err <;>
    simp [handle, info, serverHandlers, Mux.singlethreadHandler, invoke, hrun]

/-- `ae_mux_add` registers an open descriptor that is not registered, unless the kernel
refuses. -/
theorem add_lookup {m : Mux (Option Nat)} (ptr : Option Nat)
    (d : MuxEvent ServerCallback ServerCtx) (faults : EpollOp → Option Text)
    (hopen : d.fd ∈ m.epoll.opened) (hnew : d.fd ∉ m.epoll.interest.keys) (x : Int) :
    ((Mux.add ptr d faults).run m).2.epoll.interest.lookup x =
      if x = d.fd ∧ faults .add = none then some ⟨Mux.eventToFlags d, ptr⟩
      else m.epoll.interest.lookup x := by
  cases hfault : faults .add with
  | some text => simp [Mux.add, Mux.ctl, bind_run, Epoll.ctl, hfault, Mux.resErr]
  | none =>
    have hrun : ((Mux.add ptr d faults).run m).2.epoll.interest =
        m.epoll.interest.insert d.fd ⟨Mux.eventToFlags d, ptr⟩ := by
      simp [Mux.add, Mux.ctl, bind_run, Epoll.ctl, hfault, hopen, hnew, Mux.setEpoll, Epoll.enter]
    rw [hrun]
    by_cases hx : x = d.fd
    · rw [if_pos ⟨hx, rfl⟩, hx, AList.lookup_insert]
    · rw [if_neg (fun h => hx h.1), AList.lookup_insert_ne hx]

/-- **A rejected connection** is closed, and nothing else happens. -/
structure Rejected (s : Server X) (fd : Int) (t : Server X) : Prop where
  handlers : t.handlers = s.handlers
  clientHandlers : t.clientHandlers = s.clientHandlers
  records : t.records = s.records ++ [none]
  lookup : ∀ x, t.mux.epoll.interest.lookup x = s.mux.epoll.interest.lookup x
  pairs : t.pairs = s.pairs
  log : t.log = s.log ++ [.accepted s.records.length fd, .closed s.records.length fd]

/-- **A new client** gets a record and a pair of its own, and is registered unless the kernel
refuses. -/
structure Welcomed (env : Env X) (s : Server X) (fd : Int) (t : Server X) : Prop where
  new : s.mux.epoll.interest.lookup fd = none
  handlers : t.handlers = s.handlers
  clientHandlers : t.clientHandlers = s.clientHandlers
  records : t.records =
    s.records ++ [some ⟨fd, .pair s.records.length env.pair, some s.clientHandlers⟩]
  lookup : ∃ flags, ∀ x, t.mux.epoll.interest.lookup x =
    if x = fd ∧ env.faults .add = none then some ⟨flags, some s.records.length⟩
    else s.mux.epoll.interest.lookup x
  pairs : ∃ ctx, t.pairs = Function.update s.pairs env.pair (some ⟨s.records.length, true, ctx⟩)
  log : t.log = s.log ++ [.accepted s.records.length fd]

/-- The connection that the server accepts becomes a client. -/
def Wanted (env : Env X) (s : Server X) : Prop :=
  s.handlers.onClientAdd = true → env.wanted = true

/-- **What a report of the listening socket can do.** -/
theorem onServerRead_cases (hf : Env.Fresh env s) :
    ((∀ fd, env.accept ≠ .ok fd) ∧ onServerRead env s = s) ∨
      (∃ fd, env.accept = .ok fd ∧ ¬ Wanted env s ∧ Rejected s fd (onServerRead env s)) ∨
      ∃ fd, env.accept = .ok fd ∧ Wanted env s ∧ Welcomed env s fd (onServerRead env s) := by
  unfold onServerRead
  cases ha : env.accept with
  | error text => exact .inl ⟨by simp, rfl⟩
  | ok fd =>
    obtain ⟨fd, h⟩ := fd
    have hclosed : fd ∉ s.mux.epoll.opened := hf.1 fd h ha
    have hkey : fd ∉ s.mux.epoll.interest.keys :=
      fun hmem => hclosed (s.mux.epoll.registered fd hmem)
    have hnone : s.mux.epoll.interest.lookup fd = none := AList.lookup_eq_none.mpr hkey
    have hwanted : Wanted env s ↔ ¬ (s.handlers.onClientAdd = true ∧ ¬ env.wanted = true) := by
      rw [Wanted, not_and_not_right]
    right
    dsimp only
    split
    next hreject =>
      refine .inl ⟨_, rfl, fun hw => hwanted.mp hw hreject, ?_⟩
      refine ⟨rfl, rfl, rfl, fun x => ?_, rfl, by simp [note, closeFd]⟩
      apply (Epoll.lookup_close x).trans
      by_cases hx : x = fd
      · rw [if_pos hx, hx, hnone]
      · rw [if_neg hx]
        rfl
    next hreject =>
      refine .inr ⟨_, rfl, hwanted.mpr hreject, ?_⟩
      have hadd := add_lookup (m := { s.mux with epoll := s.mux.epoll.openFd fd h })
        (some s.records.length) ⟨fd, .pair s.records.length env.pair, some s.clientHandlers⟩
        env.faults (Finset.mem_insert_self fd _) hkey
      exact ⟨hnone, rfl, rfl, rfl, ⟨_, hadd⟩, ⟨_, rfl⟩, rfl⟩

end Accepting

/-! ## Registered clients own what their record says -/

/-- Every registered client has a record of its descriptor, and a live pair of its own. -/
structure Sound (s : Server X) : Prop where
  clientHandlers : s.clientHandlers = cfg s.handlers noHandlers
  owned : ∀ fd entry conn, s.mux.epoll.interest.lookup fd = some entry →
    entry.data = some conn → ∃ addr,
      s.records[conn]? = some (some ⟨fd, .pair conn addr, some s.clientHandlers⟩) ∧
        s.Owns conn addr

section Sound
variable {s t : Server X} {fd : Int} {conn addr : Nat} {entry : EpollEvent (Option Nat)}

/-- Only what the clients have of the server matters. -/
theorem Sound.of_eq (hs : s.Sound) (hhandlers : t.handlers = s.handlers)
    (hclient : t.clientHandlers = s.clientHandlers) (hrecords : t.records = s.records)
    (hpairs : t.pairs = s.pairs)
    (hint : ∀ fd entry conn, entry.data = some conn →
      t.mux.epoll.interest.lookup fd = some entry → s.mux.epoll.interest.lookup fd = some entry) :
    t.Sound := by
  refine ⟨?_, ?_⟩
  · rw [hclient, hhandlers]
    exact hs.clientHandlers
  · intro fd entry conn hl hd
    obtain ⟨addr, hr, ctx, hp⟩ := hs.owned fd entry conn (hint fd entry conn hd hl) hd
    refine ⟨addr, ?_, ctx, ?_⟩
    · rw [hrecords, hclient, hr]
    · rw [hpairs, hp]

/-- A client is registered with one descriptor. -/
theorem Sound.fd_eq (hs : s.Sound) {x : Int} {handlers : Option (MuxHandlers ServerCallback)}
    (hrec : s.records[conn]? = some (some ⟨fd, .pair conn addr, handlers⟩))
    (hl : s.mux.epoll.interest.lookup x = some entry) (hd : entry.data = some conn) : x = fd := by
  obtain ⟨a, hr, -⟩ := hs.owned x entry conn hl hd
  rw [hrec] at hr
  cases hr
  rfl

theorem Sound.conn_lt (hs : s.Sound) (hl : s.mux.epoll.interest.lookup fd = some entry)
    (hd : entry.data = some conn) : conn < s.records.length := by
  obtain ⟨addr, hr, -⟩ := hs.owned fd entry conn hl hd
  exact (List.getElem?_eq_some_iff.mp hr).1

/-- Who is registered when a client is gone was registered before, with another descriptor. -/
theorem Departed.lookup_cases (ht : Departed s fd conn addr t) {x : Int}
    (hl : t.mux.epoll.interest.lookup x = some entry) :
    x ≠ fd ∧ s.mux.epoll.interest.lookup x = some entry := by
  rw [ht.lookup] at hl
  split at hl
  · cases hl
  · next hx => exact ⟨hx, hl⟩

/-- **A client that is gone** leaves the others what they own. -/
theorem Sound.departed (hs : s.Sound)
    (hrec : s.records[conn]? = some (some ⟨fd, .pair conn addr, some s.clientHandlers⟩))
    (hown : s.Owns conn addr) (ht : Departed s fd conn addr t) : t.Sound := by
  refine ⟨?_, ?_⟩
  · rw [ht.clientHandlers, ht.handlers]
    exact hs.clientHandlers
  · intro x entry other hl hd
    obtain ⟨hx, hl'⟩ := ht.lookup_cases hl
    obtain ⟨a, hr, ctx, hp⟩ := hs.owned x entry other hl' hd
    refine ⟨a, by rw [ht.records, ht.clientHandlers]; exact hr, ctx, ?_⟩
    -- the freed pair is another one
    rw [ht.pairs a ?_, hp]
    rintro rfl
    obtain ⟨ctx', hp'⟩ := hown
    rw [hp] at hp'
    cases hp'
    exact hx (hs.fd_eq hrec hl' hd)

/-- **A doubled teardown** reads the pair that it has freed. -/
theorem Sound.handle_doubled (hs : s.Sound) (env : Env X) (flags : EpollFlags)
    (hrun : s.running = true) (hrm : s.handlers.onClientRm = true) (hreg : s.Registered conn)
    (hbad : Doubled flags) : .pairRead conn false ∈ (handle env s (some conn, flags)).log := by
  obtain ⟨fd, entry, hl, hd⟩ := hreg
  obtain ⟨addr, hrec, hown⟩ := hs.owned fd entry conn hl hd
  have htwice := handle_client_rm env flags hrun hs.clientHandlers hrec hown
  rw [(removals_doubled flags).mpr hbad] at htwice
  generalize s.exchange flags fd conn addr = acts at htwice
  have hfirst : Departed (s.note acts) fd conn addr (clientRm env (s.note acts) fd conn addr) :=
    departed_clientRm env hown hrm
  obtain ⟨pair, hp, -, hlive⟩ := hfirst.freed
  have hfreed : (clientRm env (s.note acts) fd conn addr).validPair conn addr = false :=
    validPair_freed conn hp hlive
  have hsecond : clientRm env (clientRm env (s.note acts) fd conn addr) fd conn addr = _ :=
    clientRm_kept env (fun h => Bool.false_ne_true (hfreed.symm.trans h.1))
  rw [hfreed] at hsecond
  have hlog : (handle env s (some conn, flags)).log =
      (clientRm env (clientRm env (s.note acts) fd conn addr) fd conn addr).log :=
    congrArg Server.log htwice
  rw [hlog, hsecond]
  exact List.mem_append_right _ (List.mem_singleton_self _)

theorem Sound.rejected (hs : s.Sound) (ht : Rejected s fd t) : t.Sound := by
  refine ⟨?_, ?_⟩
  · rw [ht.clientHandlers, ht.handlers]
    exact hs.clientHandlers
  · intro x entry other hl hd
    rw [ht.lookup] at hl
    obtain ⟨a, hr, ctx, hp⟩ := hs.owned x entry other hl hd
    refine ⟨a, ?_, ctx, by rw [ht.pairs, hp]⟩
    rw [ht.records, ht.clientHandlers]
    exact (List.getElem?_append_left (hs.conn_lt hl hd)).trans hr

/-- Who is registered after a client was added is the client, or was registered before. -/
theorem Welcomed.lookup_cases {env : Env X} (ht : Welcomed env s fd t) {x : Int}
    (hl : t.mux.epoll.interest.lookup x = some entry) (hd : entry.data = some conn) :
    x = fd ∧ conn = s.records.length ∧ env.faults .add = none ∨
      s.mux.epoll.interest.lookup x = some entry := by
  obtain ⟨flags, hlookup⟩ := ht.lookup
  rw [hlookup] at hl
  split at hl
  next hx =>
    cases hl
    exact .inl ⟨hx.1, (Option.some.inj hd).symm, hx.2⟩
  next => exact .inr hl

/-- The new descriptor was not open, so nobody was registered with it. -/
theorem Welcomed.lookup_old {env : Env X} (ht : Welcomed env s fd t) {x : Int}
    (hl : s.mux.epoll.interest.lookup x = some entry) :
    t.mux.epoll.interest.lookup x = some entry := by
  obtain ⟨flags, hlookup⟩ := ht.lookup
  rw [hlookup, if_neg, hl]
  rintro ⟨rfl, -⟩
  rw [ht.new] at hl
  cases hl

theorem Welcomed.lookup_new {env : Env X} (ht : Welcomed env s fd t)
    (hadd : env.faults .add = none) :
    ∃ flags, t.mux.epoll.interest.lookup fd = some ⟨flags, some s.records.length⟩ := by
  obtain ⟨flags, hlookup⟩ := ht.lookup
  exact ⟨flags, by rw [hlookup, if_pos ⟨rfl, hadd⟩]⟩

theorem Welcomed.record_new {env : Env X} (ht : Welcomed env s fd t) :
    t.records[s.records.length]? =
      some (some ⟨fd, .pair s.records.length env.pair, some s.clientHandlers⟩) := by
  rw [ht.records]
  exact List.getElem?_concat_length

theorem Welcomed.record_old {env : Env X} (ht : Welcomed env s fd t)
    (hlt : conn < s.records.length) : t.records[conn]? = s.records[conn]? := by
  rw [ht.records, List.getElem?_append_left hlt]

theorem Sound.welcomed {env : Env X} (hs : s.Sound) (hf : Env.Fresh env s)
    (ht : Welcomed env s fd t) : t.Sound := by
  obtain ⟨ctx, hpairs⟩ := ht.pairs
  refine ⟨?_, ?_⟩
  · rw [ht.clientHandlers, ht.handlers]
    exact hs.clientHandlers
  · intro x entry other hl hd
    rw [ht.clientHandlers]
    obtain ⟨rfl, rfl, -⟩ | hl' := ht.lookup_cases hl hd
    · refine ⟨env.pair, ht.record_new, ctx, ?_⟩
      rw [hpairs, Function.update_self]
    · obtain ⟨a, hr, c, hp⟩ := hs.owned x entry other hl' hd
      refine ⟨a, (ht.record_old (hs.conn_lt hl' hd)).trans hr, c, ?_⟩
      -- `malloc` does not return the address of a live pair
      rw [hpairs, Function.update_of_ne, hp]
      rintro rfl
      exact Bool.noConfusion (hf.2 _ hp)

/-- A client that is gone is not registered. -/
theorem Departed.not_registered (ht : Departed s fd conn addr t) (hs : s.Sound)
    (hrec : s.records[conn]? = some (some ⟨fd, .pair conn addr, some s.clientHandlers⟩)) :
    ¬ t.Registered conn := by
  rintro ⟨x, entry, hl, hd⟩
  obtain ⟨hx, hl'⟩ := ht.lookup_cases hl
  exact hx (hs.fd_eq hrec hl' hd)

/-- Another client stays registered when a client is gone. -/
theorem Departed.registered (ht : Departed s fd conn addr t)
    (hl : s.mux.epoll.interest.lookup fd = some entry) (hd : entry.data = some conn) {other : Nat}
    (hne : other ≠ conn) (hreg : s.Registered other) : t.Registered other := by
  obtain ⟨x, entry', hl', hd'⟩ := hreg
  refine ⟨x, entry', ?_, hd'⟩
  rw [ht.lookup, if_neg, hl']
  rintro rfl
  rw [hl] at hl'
  cases hl'
  rw [hd] at hd'
  exact hne (Option.some.inj hd').symm

theorem Welcomed.registered {env : Env X} (ht : Welcomed env s fd t) {other : Nat}
    (hreg : s.Registered other) : t.Registered other := by
  obtain ⟨x, entry', hl', hd'⟩ := hreg
  exact ⟨x, entry', ht.lookup_old hl', hd'⟩

end Sound

/-! ## Runs -/

/-- The clients that are reported are registered, and different. -/
structure Watched (s : Server X) : Prop where
  sound : s.Sound
  pending : ∀ conn flags, (some conn, flags) ∈ s.pending → s.Registered conn
  nodup : (s.pending.map Prod.fst).Nodup

section Runs
variable {s t : Server X}

theorem watched_init (h : (serving X).init s) : s.Watched := by
  obtain ⟨hclient, -, -, hpending, hnone⟩ := h
  refine ⟨⟨hclient, fun fd entry conn hl hd => absurd ⟨fd, entry, hl, hd⟩ (hnone conn)⟩, ?_, ?_⟩
  · simp [hpending]
  · simp [hpending]

/-- A dispatch leaves the rest of the reports pending. -/
theorem Watched.dispatched {report : Option Nat × EpollFlags}
    {rest : List (Option Nat × EpollFlags)} (hs : s.Watched) (hp : s.pending = report :: rest)
    (ht : t.Sound)
    (hreg : ∀ conn, report.1 ≠ some conn → s.Registered conn → t.Registered conn) :
    ({ t with pending := rest } : Server X).Watched := by
  have hnodup := hs.nodup
  rw [hp, List.map_cons, List.nodup_cons] at hnodup
  refine ⟨ht.of_eq rfl rfl rfl rfl (fun _ _ _ _ h => h), fun conn flags hmem => ?_, hnodup.2⟩
  refine hreg conn (fun heq => ?_) (hs.pending conn flags (hp ▸ List.mem_cons_of_mem _ hmem))
  exact hnodup.1 (heq ▸ List.mem_map_of_mem (f := Prod.fst) hmem)

/-- What is known of a client with a pending report. -/
theorem Watched.client {conn : Nat} {flags : EpollFlags} {rest : List (Option Nat × EpollFlags)}
    (hs : s.Watched) (hp : s.pending = (some conn, flags) :: rest) :
    ∃ fd entry addr, s.mux.epoll.interest.lookup fd = some entry ∧ entry.data = some conn ∧
      s.records[conn]? = some (some ⟨fd, .pair conn addr, some s.clientHandlers⟩) ∧
      s.Owns conn addr := by
  obtain ⟨fd, entry, hl, hd⟩ := hs.pending conn flags (hp ▸ List.mem_cons_self)
  obtain ⟨addr, hrec, hown⟩ := hs.sound.owned fd entry conn hl hd
  exact ⟨fd, entry, addr, hl, hd, hrec, hown⟩

/-- **Every step**, whatever the handlers and the reports are, keeps what the registered
clients own. -/
theorem Watched.step (hs : s.Watched) {a : Action X} (hst : Step s a t) : t.Watched := by
  cases hst with
  | wait _ hempty hreg hnodup =>
    exact ⟨hs.sound.of_eq rfl rfl rfl rfl (fun _ _ _ _ h => h), hreg, hnodup⟩
  | others _ hsame =>
    refine ⟨?_, fun conn flags hmem => ?_, hs.nodup⟩
    · exact hs.sound.of_eq rfl rfl rfl rfl (fun fd entry conn hd h => (hsame fd entry conn hd).mp h)
    · obtain ⟨fd, entry, hl, hd⟩ := hs.pending conn flags hmem
      exact ⟨fd, entry, (hsame fd entry conn hd).mpr hl, hd⟩
  | @dispatch env report rest hrun hp hf =>
    obtain ⟨ptr, flags⟩ := report
    cases ptr with
    | none =>
      rw [handle_server env flags hrun]
      split
      · obtain ⟨-, hr⟩ | ⟨fd, -, -, hr⟩ | ⟨fd, -, -, hr⟩ := onServerRead_cases hf
        · rw [hr]
          exact hs.dispatched hp hs.sound (fun _ _ h => h)
        · refine hs.dispatched hp (hs.sound.rejected hr) (fun conn _ ⟨x, entry, hl, hd⟩ => ?_)
          exact ⟨x, entry, (hr.lookup x).trans hl, hd⟩
        · exact hs.dispatched hp (hs.sound.welcomed hf hr) (fun _ _ => hr.registered)
      · exact hs.dispatched hp hs.sound (fun _ _ h => h)
    | some conn =>
      obtain ⟨fd, entry, addr, hl, hd, hrec, hown⟩ := hs.client hp
      obtain ⟨-, acts, -, hr⟩ | ⟨-, -, hr⟩ :=
        handle_client_cases env flags hrun hs.sound.clientHandlers hrec hown
      · rw [hr]
        exact hs.dispatched hp (hs.sound.of_eq rfl rfl rfl rfl (fun _ _ _ _ h => h))
          (fun _ _ h => h)
      · refine hs.dispatched hp (hs.sound.departed hrec hown hr) (fun other hne => ?_)
        exact hr.registered hl hd (fun heq => hne (heq ▸ rfl))

theorem watched (hs : (serving X).Reachable s) : s.Watched :=
  hs.invariant (fun _ => watched_init) (fun _ _ _ h hst => h.step hst)

end Runs

/-! ### A client that goes away -/

/-- A server that listens on descriptor 3. -/
def listening : Server Unit where
  handlers := ⟨true, true, true, false⟩
  clientHandlers := cfg ⟨true, true, true, false⟩ noHandlers
  fd := 3
  mux :=
    { count := 1
      epoll := ((Epoll.empty.openFd 3 Mux.three_range).enter 3
        ⟨⟨true, true, true, false, true, false⟩, none⟩ (by decide))
      e := [] }
  records := []
  pairs := fun _ => none
  log := []
  pending := []

/-- `EPOLLIN`. -/
def readable : EpollFlags := ⟨true, false, false, false, false, false⟩

/-- A client connects with descriptor 5, and its pair is at address 64. -/
def connecting : Env Unit := ⟨.ok ⟨5, by decide⟩, true, some (), 64, fun _ => none⟩

/-- Nobody connects. -/
def quiet : Env Unit := ⟨.error (ascii "Resource temporarily unavailable"), true, none, 96,
  fun _ => none⟩

def knocked : Server Unit := { listening with pending := [(none, readable)] }

def connected : Server Unit := { handle connecting knocked (none, readable) with pending := [] }

def leaving (flags : EpollFlags) : Server Unit :=
  { connected with pending := [(some 0, flags)] }

def left (flags : EpollFlags) : Server Unit :=
  { handle quiet (leaving flags) (some 0, flags) with pending := [] }

/-- A client connects, and then the kernel reports `flags` for it. -/
def visit (flags : EpollFlags) : List (Transition (Server Unit) (Action Unit)) :=
  [⟨listening, .wait [(none, readable)], knocked⟩, ⟨knocked, .dispatch connecting, connected⟩,
    ⟨connected, .wait [(some 0, flags)], leaving flags⟩,
    ⟨leaving flags, .dispatch quiet, left flags⟩]

theorem listening_init : (serving Unit).init listening := by
  refine ⟨rfl, rfl, rfl, rfl, ?_⟩
  rintro conn ⟨fd, entry, hl, hd⟩
  by_cases hfd : fd = 3
  · rw [hfd] at hl
    cases hl
    cases hd
  · have hnone : listening.mux.epoll.interest.lookup fd = none := by
      apply (AList.lookup_insert_ne hfd).trans
      rfl
    rw [hnone] at hl
    cases hl

theorem knocked_step : (serving Unit).step listening (.wait [(none, readable)]) knocked :=
  .wait rfl rfl (by simp) (by simp)

theorem connected_step : (serving Unit).step knocked (.dispatch connecting) connected := by
  refine .dispatch rfl rfl ⟨?_, nofun⟩
  rintro fd h ⟨⟩
  decide

theorem leaving_step (flags : EpollFlags) :
    (serving Unit).step connected (.wait [(some 0, flags)]) (leaving flags) := by
  have hreg : connected.Registered 0 := ⟨5, _, rfl, rfl⟩
  exact .wait rfl rfl (by simpa using hreg) (by simp)

theorem left_step (flags : EpollFlags) :
    (serving Unit).step (leaving flags) (.dispatch quiet) (left flags) :=
  .dispatch rfl rfl ⟨by simp [quiet], nofun⟩

theorem leaving_reachable (flags : EpollFlags) : (serving Unit).Reachable (leaving flags) :=
  (((System.Reachable.of_init listening_init).step knocked_step).step connected_step).step
    (leaving_step flags)

theorem visit_run (flags : EpollFlags) :
    (serving Unit).Run listening (visit flags) (left flags) :=
  (((System.Run.single knocked_step).snoc connected_step).snoc (leaving_step flags)).snoc
    (left_step flags)

end Server
end Libae
