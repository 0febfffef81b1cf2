import Libae.MuxWait
import Libae.ServerClients
import Libae.ServerSocket

/-! # The loop of a server

A program that serves configures a server on a fresh mux, binds its socket, listens, and
calls `ae_mux_wait` again and again without a thread pool.  A round of this loop is one call:
`epoll_wait` stores reports in the program's array, and `ae_mux_wait` dispatches what it reads
there, one report after the other, before it returns.

`looping` takes the rounds together from the model of `ae_mux_wait` and from that of the
dispatch.  The kernel knows descriptors only: it reports some that are registered, each once.
A round comes to its end if it stays within the array and no freed pair is read in it; the others
are no steps of the loop, as nothing is known of a program behind them.
Every run of the loop is one of `serving`, in which the reports that were stored are dispatched,
all of them, once, and in order (`loop_refines`).  So a round does to the clients what its
reports say (`round_clients`): it takes exactly those that hung up out of the mux.
-/
namespace Libae
open Fallible Runs

/-- What happens around a call of `ae_mux_wait`: the descriptors that are ready, what the clock
and `epoll_wait` answer, and what the environment does during each dispatch. -/
structure Waiting (X : Type) where
  ready : List (Int × EpollFlags)
  clock : Except Text Mux.Timespec
  answers : List (Mux.EpollAnswer (Option Nat))
  envs : List (Env X)

/-- A round of the loop, or another part of the program opens or closes a descriptor of its
own. -/
inductive LoopAction (X : Type)
  | round (w : Waiting X)
  | opened (fd : Int) (h : 0 ≤ fd ∧ fd < 2 ^ 31)
  | closed (fd : Int)

/-- The reports that the wait reads from the array. -/
def Mux.Waited.batch (r : Mux.Waited (Option Nat)) : List (Option Nat × EpollFlags) :=
  (r.read.filterMap (r.stored[·]?)).map (fun event => (event.data, event.events))

namespace Server
variable {X : Type}

/-! ## The program -/

/-- A mux after `ae_mux_init`, and a server after `ae_server_init` and `ae_server_cfg`. -/
structure Configured (s : Server X) : Prop where
  clientHandlers : s.clientHandlers = cfg s.handlers noHandlers
  fd : s.fd = -1
  count : s.mux.count = 0
  interest : s.mux.epoll.interest = ∅
  records : s.records = []
  log : s.log = []
  pending : s.pending = []

/-- `ae_server_bind_unix` and `ae_server_listen`. -/
def startUp (env : SocketEnv) (path : Text) : Fallible (Server X) Unit := do
  bindUnix env path
  listen env

/-- What `epoll_wait` has to report of descriptors that are ready. -/
def reports (s : Server X) (ready : List (Int × EpollFlags)) : List (EpollEvent (Option Nat)) :=
  ready.filterMap (fun r => (s.mux.epoll.interest.lookup r.1).map (fun entry => ⟨r.2, entry.data⟩))

/-- The call of `ae_mux_wait`, with an array of `n` reports. -/
def wait (n : Nat) (timeoutMs : Int) (out : Bool) (s : Server X) (w : Waiting X) :
    Mux.Waited (Option Nat) :=
  Mux.wait s.mux.count none n timeoutMs out w.clock w.answers

/-- The kernel reports what is ready, each descriptor once. -/
structure Polled (s : Server X) (w : Waiting X) : Prop where
  nodup : (w.ready.map Prod.fst).Nodup
  permitted : ∀ a ∈ w.answers, a.Permitted (Mux.toInt s.mux.count) (s.reports w.ready)

/-- The pending reports are dispatched, in order, and the process has not crashed. -/
inductive Dispatches : Server X → List (Env X) → Server X → Prop
  | done {s : Server X} : s.running → s.pending = [] → Dispatches s [] s
  | next {s t : Server X} {env : Env X} {envs : List (Env X)} {report : Option Nat × EpollFlags}
      {rest : List (Option Nat × EpollFlags)} : s.running → s.pending = report :: rest →
      Env.Fresh env s → Dispatches { handle env s report with pending := rest } envs t →
      Dispatches s (env :: envs) t

/-- One step.  A round stores and reads within the array and comes to its end; the other parts of
the program do not touch what is registered. -/
inductive LoopStep (n : Nat) (timeoutMs : Int) (out : Bool) :
    Server X → LoopAction X → Server X → Prop
  | round {s t : Server X} {w : Waiting X} : s.Polled w →
      (s.wait n timeoutMs out w).Within n → (s.wait n timeoutMs out w).outcome = .returned true →
      Dispatches { s with pending := (s.wait n timeoutMs out w).batch } w.envs t →
      LoopStep n timeoutMs out s (.round w) t
  | opened {s : Server X} {fd : Int} {h : 0 ≤ fd ∧ fd < 2 ^ 31} : fd ∉ s.opened →
      LoopStep n timeoutMs out s (.opened fd h)
        { s with mux := { s.mux with epoll := s.mux.epoll.openFd fd h } }
  | closed {s : Server X} {fd : Int} : fd ∉ s.mux.epoll.interest.keys →
      LoopStep n timeoutMs out s (.closed fd) (s.closeFd fd)

/-- The loop, from `ae_server_listen` on. -/
def looping (X : Type) (n : Nat) (timeoutMs : Int) (out : Bool) :
    System (Server X) (LoopAction X) where
  init s := ∃ (s₀ : Server X) (env : SocketEnv) (path : Text), s₀.Configured ∧
    (∀ type fd h, env.socket type = .ok ⟨fd, h⟩ → fd ∉ s₀.opened) ∧
    (startUp env path).run s₀ = (some (), s)
  step := LoopStep n timeoutMs out

/-! ## The start -/

section Start
variable {env : SocketEnv} {s t : Server X}

/-- A call that reports an error does not return `true`. -/
theorem failed_run (text : Text) :
    (do resErr text; fail : Fallible (Server X) Unit).run s ≠ (some (), t) :=
  fun h => Option.some_ne_none () (Prod.mk.inj h).1.symm

/-- A socket that is opened is a new one. -/
theorem openSocket_ok {flags : Nat} (h : (openSocket env flags).run s = (some (), t)) :
    s.fd = -1 ∧ ∃ type fd hrange, env.socket type = .ok ⟨fd, hrange⟩ ∧
      t = { s with fd := fd, mux := { s.mux with epoll := s.mux.epoll.openFd fd hrange } } := by
  rw [openSocket, bind_run, get_run] at h
  by_cases hfd : s.fd = -1
  · cases hsocket : env.socket (flags ||| sockCloexec ||| sockStream) with
    | error errno =>
      simp only [hfd, hsocket, ne_eq, not_true_eq_false, if_false, bind_run, modify_run] at h
      exact absurd h (failed_run _)
    | ok answer =>
      obtain ⟨fd, hrange⟩ := answer
      refine ⟨hfd, _, fd, hrange, hsocket, ?_⟩
      simp only [hfd, hsocket, ne_eq, not_true_eq_false, if_false, modify_run] at h
      exact (Prod.mk.inj h).2.symm
  · simp only [hfd, ne_eq, not_false_eq_true, if_true] at h
    exact absurd h (failed_run _)

theorem bindSocket_ok {flags : Nat} {path : Text}
    (h : (bindSocket env flags path).run s = (some (), t)) :
    (openSocket env flags).run s = (some (), t) := by
  obtain ⟨⟨⟩, u, hopen, h⟩ := bind_eq_some h
  rw [bind_run, get_run] at h
  cases hbind : env.bind u.fd (path.take sunPathSize) with
  | some errno =>
    simp only [hbind] at h
    exact absurd h (failed_run _)
  | none =>
    simp only [hbind, pure_run, Prod.mk.injEq, true_and] at h
    rw [← h]
    exact hopen

theorem listen_ok (h : (listen env).run s = (some (), t)) :
    (Mux.add none s.serverEvent env.faults).run s.mux = (some (), t.mux) ∧
      t = { s with mux := t.mux } := by
  rw [listen, bind_run, get_run] at h
  dsimp only at h
  split at h
  · exact absurd h (failed_run _)
  · obtain ⟨hok, rfl⟩ := Prod.mk.inj h
    exact ⟨Prod.ext hok rfl, rfl⟩

/-- **What the start leaves**: a listening socket, the only descriptor that is registered. -/
theorem startUp_ok {path : Text} (hs : s.Configured)
    (h : (startUp env path).run s = (some (), t)) :
    ∃ fd hrange hopen, t = { s with fd := fd, mux := { s.mux with
      epoll := (s.mux.epoll.openFd fd hrange).enter fd
        ⟨⟨true, true, true, false, true, false⟩, none⟩ hopen, count := 1 } } := by
  obtain ⟨⟨⟩, u, hbind, hlisten⟩ := bind_eq_some h
  obtain ⟨-, type, fd, hrange, -, rfl⟩ := openSocket_ok (bindSocket_ok hbind)
  obtain ⟨hadd, ht⟩ := listen_ok hlisten
  obtain ⟨-, hopen, hok⟩ | ⟨hold, -⟩ | ⟨-, e, herr⟩ := Mux.add_cases none _ _ env.faults
  · rw [hok] at hadd
    refine ⟨fd, hrange, hopen, ?_⟩
    rw [ht, ← (Prod.mk.inj hadd).2]
    simp only [hs.count]
    rfl
  · have hnone : fd ∈ s.mux.epoll.interest.keys := hold
    rw [hs.interest] at hnone
    exact absurd hnone List.not_mem_nil
  · rw [herr] at hadd
    exact (Option.some_ne_none () (Prod.mk.inj hadd).1.symm).elim

end Start

/-! ## Between the rounds -/

/-- The listening socket is registered, and is the only descriptor that is no client's. -/
structure Listens (s : Server X) : Prop where
  registered : ∃ entry, s.mux.epoll.interest.lookup s.fd = some entry ∧ entry.data = none
  only : ∀ fd entry, s.mux.epoll.interest.lookup fd = some entry → entry.data = none → fd = s.fd

section Listening
variable {s t : Server X} {env : Env X} {report : Option Nat × EpollFlags}
  {rest : List (Option Nat × EpollFlags)}

/-- Only the registrations matter that are no client's. -/
theorem Listens.of_lookup (hs : s.Listens) (hfd : t.fd = s.fd)
    (hlookup : ∀ fd entry, entry.data = none →
      (t.mux.epoll.interest.lookup fd = some entry ↔ s.mux.epoll.interest.lookup fd = some entry)) :
    t.Listens := by
  obtain ⟨entry, hl, hd⟩ := hs.registered
  refine ⟨⟨entry, ?_, hd⟩, fun fd entry hl hd => ?_⟩ <;> rw [hfd]
  · exact (hlookup s.fd entry hd).mpr hl
  · exact hs.only fd entry ((hlookup fd entry hd).mp hl) hd

theorem onServerRead_fd (env : Env X) (s : Server X) : (onServerRead env s).fd = s.fd := by
  unfold onServerRead
  split
  · rfl
  · dsimp only
    split <;> rfl

theorem clientRm_fd (env : Env X) (s : Server X) (fd : Int) (conn addr : Nat) :
    (clientRm env s fd conn addr).fd = s.fd := by
  unfold clientRm
  dsimp only
  split
  · rfl
  · split <;> rfl

/-- A dispatch does not write to the field of the socket. -/
theorem handle_fd (env : Env X) (s : Server X) (report : Option Nat × EpollFlags) :
    (handle env s report).fd = s.fd := by
  have hinvoke : ∀ (s : Server X) call, (invoke env s call).fd = s.fd := by
    intro s call
    unfold invoke
    split
    · rfl
    · split
      · exact onServerRead_fd env s
      · unfold onClientRead
        dsimp only
        split <;> rfl
      · unfold onClientWrite
        dsimp only
        split <;> rfl
      · exact clientRm_fd env s _ _ _
      · exact clientRm_fd env s _ _ _
      · rfl
  have hcalls : ∀ (calls : List (Mux.Call ServerCallback ServerCtx)) (s : Server X),
      (calls.foldl (invoke env) s).fd = s.fd := by
    intro calls
    induction calls with
    | nil => exact fun _ => rfl
    | cons call calls ih => exact fun s => (ih _).trans (hinvoke s call)
  unfold handle
  split
  · rfl
  · exact hcalls _ s

/-- **A dispatch** leaves the listening socket alone. -/
theorem Listens.dispatched (hs : s.Listens) (hrun : s.running = true) (hw : s.Watched)
    (hp : s.pending = report :: rest) (hf : Env.Fresh env s) : (handle env s report).Listens := by
  refine hs.of_lookup (handle_fd env s report) (fun x entry' hnone => ?_)
  obtain ⟨ptr, flags⟩ := report
  cases ptr with
  | none =>
    rw [handle_server env flags hrun]
    split
    · obtain ⟨-, hr⟩ | ⟨fd, -, -, hr⟩ | ⟨fd, -, -, hr⟩ := onServerRead_cases hf
      · rw [hr]
      · rw [hr.lookup]
      · refine ⟨fun hl => ?_, hr.lookup_old⟩
        obtain ⟨flags, hlookup⟩ := hr.lookup
        rw [hlookup] at hl
        split at hl
        · rw [← Option.some.inj hl] at hnone
          exact absurd hnone (Option.some_ne_none _)
        · exact hl
    · rfl
  | some conn =>
    obtain ⟨fd, entry, addr, hl, hd, hrec, hown⟩ := hw.client hp
    obtain ⟨-, acts, -, hr⟩ | ⟨-, -, hr⟩ :=
      handle_client_cases env flags hrun hw.sound.clientHandlers hrec hown
    · rw [hr]
      rfl
    · rw [hr.lookup]
      split
      next hx =>
        -- the descriptor is a client's
        subst hx
        rw [hl]
        refine iff_of_false (Option.some_ne_none _).symm (fun heq => ?_)
        rw [← Option.some.inj heq, hd] at hnone
        exact Option.some_ne_none _ hnone
      next => rfl

end Listening

/-! ## What is stored -/

section Stored
variable {s t : Server X} {n : Nat} {timeoutMs : Int} {out : Bool} {w : Waiting X}

/-- The elements of a list, read one after the other. -/
theorem filterMap_range {α : Type} (l : List α) : (List.range l.length).filterMap (l[·]?) = l := by
  induction l with
  | nil => rfl
  | cons a l ih =>
    rw [List.length_cons, List.range_succ_eq_map, List.filterMap_cons, List.filterMap_map]
    exact congrArg (a :: ·) ih

/-- Without a thread pool, the wait reads all that is stored. -/
theorem waitEnd_read {δ : Type} (out : Bool) (calls : List (Int × Int))
    (r : Option (Except Text (List (EpollEvent δ)))) :
    (Mux.waitEnd none out calls r).read =
      List.range (Mux.waitEnd none out calls r).stored.length := by
  rcases r with _ | _ | _ | _ <;> rfl

theorem batch_eq (s : Server X) (n : Nat) (timeoutMs : Int) (out : Bool) (w : Waiting X) :
    (s.wait n timeoutMs out w).batch =
      (s.wait n timeoutMs out w).stored.map (fun event => (event.data, event.events)) := by
  have hread : (s.wait n timeoutMs out w).read =
      List.range (s.wait n timeoutMs out w).stored.length := by
    unfold wait Mux.wait
    split
    · split <;> rfl
    · split
      · rfl
      · exact waitEnd_read out _ _
  rw [Mux.Waited.batch, hread, filterMap_range]

/-- Different descriptors are registered with different records. -/
theorem Listens.fd_inj (hs : s.Listens) (hsound : s.Sound) {fd fd' : Int}
    {entry entry' : EpollEvent (Option Nat)}
    (hl : s.mux.epoll.interest.lookup fd = some entry)
    (hl' : s.mux.epoll.interest.lookup fd' = some entry') (hd : entry.data = entry'.data) :
    fd = fd' := by
  cases hconn : entry.data with
  | none => exact (hs.only fd entry hl hconn).trans (hs.only fd' entry' hl' (hd ▸ hconn)).symm
  | some conn =>
    obtain ⟨addr, hrec, -⟩ := hsound.owned fd' entry' conn hl' (hd ▸ hconn)
    exact hsound.fd_eq hrec hl hconn

/-- What can be reported is registered, and each record is reported once. -/
theorem reports_data (hs : s.Listens) (hsound : s.Sound) {ready : List (Int × EpollFlags)}
    (hnodup : (ready.map Prod.fst).Nodup) :
    (∀ event ∈ s.reports ready, ∃ fd entry, s.mux.epoll.interest.lookup fd = some entry ∧
        entry.data = event.data) ∧
      ((s.reports ready).map EpollEvent.data).Nodup := by
  constructor
  · intro event hmem
    obtain ⟨⟨fd, flags⟩, -, hevent⟩ := List.mem_filterMap.mp hmem
    obtain ⟨entry, hl, rfl⟩ := Option.map_eq_some_iff.mp hevent
    exact ⟨fd, entry, hl, rfl⟩
  · have hdata : (s.reports ready).map EpollEvent.data = (ready.map Prod.fst).filterMap
        (fun fd => (s.mux.epoll.interest.lookup fd).map EpollEvent.data) := by
      rw [reports, List.map_filterMap, List.filterMap_map]
      congr 1
      funext r
      rw [Option.map_map]
      rfl
    rw [hdata]
    refine hnodup.filterMap (fun fd fd' data hfd hfd' => ?_)
    obtain ⟨entry, hl, rfl⟩ := Option.map_eq_some_iff.mp hfd
    obtain ⟨entry', hl', hd⟩ := Option.map_eq_some_iff.mp hfd'
    exact hs.fd_inj hsound hl hl' hd.symm

/-- **What a wait hands on**: reports of registered clients, each client once. -/
theorem batch_reports (hs : s.Listens) (hsound : s.Sound) (hp : s.Polled w) :
    (∀ conn flags, (some conn, flags) ∈ (s.wait n timeoutMs out w).batch → s.Registered conn) ∧
      ((s.wait n timeoutMs out w).batch.map Prod.fst).Nodup := by
  obtain ⟨hreg, hnodup⟩ := reports_data hs hsound hp.nodup
  have hsub : (s.wait n timeoutMs out w).stored.Subperm (s.reports w.ready) := by
    obtain hnil | hmem :=
      (Mux.wait_stored s.mux.count none n timeoutMs out w.clock w.answers).1
    · rw [wait, hnil]
      exact List.nil_subperm
    · exact (hp.permitted _ hmem).2.2.1
  rw [batch_eq]
  constructor
  · intro conn flags hmem
    obtain ⟨event, hevent, heq⟩ := List.mem_map.mp hmem
    obtain ⟨fd, entry, hl, hd⟩ := hreg event (hsub.subset hevent)
    exact ⟨fd, entry, hl, hd.trans (congrArg Prod.fst heq)⟩
  · rw [List.map_map]
    obtain ⟨l, hperm, hsublist⟩ := hsub
    have hl : (l.map EpollEvent.data).Nodup := hnodup.sublist (hsublist.map _)
    exact (hperm.map EpollEvent.data).nodup hl

end Stored

/-! ## Rounds are runs of the server -/

/-- Between two rounds. -/
structure Between (s : Server X) : Prop where
  running : s.running = true
  watched : s.Watched
  listens : s.Listens
  idle : s.pending = []

/-- The reports that are dispatched along a run. -/
def dispatched (τs : List (Transition (Server X) (Action X))) : List (Option Nat × EpollFlags) :=
  τs.flatMap (fun τ =>
    match τ.action with
    | .dispatch _ => τ.before.pending.head?.toList
    | .wait _ | .others _ => [])

/-- The reports that the kernel stores along a run of the loop. -/
def stored (n : Nat) (timeoutMs : Int) (out : Bool)
    (τs : List (Transition (Server X) (LoopAction X))) : List (EpollEvent (Option Nat)) :=
  τs.flatMap (fun τ =>
    match τ.action with
    | .round w => (τ.before.wait n timeoutMs out w).stored
    | .opened .. | .closed _ => [])

theorem dispatched_append (τs ρs : List (Transition (Server X) (Action X))) :
    dispatched (τs ++ ρs) = dispatched τs ++ dispatched ρs := List.flatMap_append

section Refinement
variable {s t : Server X} {envs : List (Env X)} {n : Nat} {timeoutMs : Int} {out : Bool}
  {w : Waiting X}

/-- What every dispatch keeps, a batch of them keeps. -/
theorem Dispatches.keeps {I : Server X → Prop}
    (hstep : ∀ s env report rest, I s → s.running = true → s.pending = report :: rest →
      Env.Fresh env s → I { handle env s report with pending := rest })
    (h : Dispatches s envs t) (hs : I s) : I t ∧ t.running = true ∧ t.pending = [] := by
  induction h with
  | done hrun hp => exact ⟨hs, hrun, hp⟩
  | next hrun hp hf _ ih => exact ih (hstep _ _ _ _ hs hrun hp hf)

/-- A batch of dispatches is a run that dispatches all that is pending. -/
theorem Dispatches.run (h : Dispatches s envs t) :
    ∃ ρs, (serving X).Run s ρs t ∧ dispatched ρs = s.pending := by
  induction h with
  | done _ hp => exact ⟨[], .nil, hp.symm⟩
  | @next s t env envs report rest hrun hp hf _ ih =>
    obtain ⟨ρs, hr, hd⟩ := ih
    have hst : (serving X).step s (.dispatch env) { handle env s report with pending := rest } :=
      .dispatch hrun hp hf
    refine ⟨_, (System.Run.single hst).append hr, ?_⟩
    rw [dispatched_append, hd, hp]
    simp [dispatched, hp]

/-- `epoll_wait` has stored its reports. -/
theorem Between.stored (hs : s.Between) (n : Nat) (timeoutMs : Int) (out : Bool)
    (hp : s.Polled w) :
    (serving X).step s (.wait (s.wait n timeoutMs out w).batch)
      { s with pending := (s.wait n timeoutMs out w).batch } := by
  obtain ⟨hreg, hnodup⟩ := batch_reports hs.listens hs.watched.sound hp
  exact .wait hs.running hs.idle hreg hnodup

/-- **A round** leaves the server between two rounds. -/
theorem Between.round (hs : s.Between) (hp : s.Polled w)
    (hd : Dispatches { s with pending := (s.wait n timeoutMs out w).batch } w.envs t) :
    t.Between := by
  have hpolled : ({ s with pending := (s.wait n timeoutMs out w).batch } : Server X).Watched :=
    hs.watched.step (hs.stored n timeoutMs out hp)
  obtain ⟨⟨hw, hl⟩, hrun, hidle⟩ := hd.keeps (I := fun s => s.Watched ∧ s.Listens)
    (fun s env report rest ⟨hw, hl⟩ hrun hp hf => ⟨hw.step (.dispatch hrun hp hf),
      (hl.dispatched hrun hw hp hf).of_lookup rfl (fun _ _ _ => Iff.rfl)⟩)
    ⟨hpolled, hs.listens.of_lookup rfl (fun _ _ _ => Iff.rfl)⟩
  exact ⟨hrun, hw, hl, hidle⟩

/-- Somebody else's descriptors are opened and closed. -/
theorem Between.others (hs : s.Between) (mux : Mux (Option Nat))
    (hsame : ∀ fd, mux.epoll.interest.lookup fd = s.mux.epoll.interest.lookup fd) :
    (serving X).step s (.others mux) { s with mux := mux } ∧
      ({ s with mux := mux } : Server X).Between := by
  have hst : (serving X).step s (.others mux) { s with mux := mux } :=
    .others hs.running (fun fd entry conn _ => by rw [hsame])
  exact ⟨hst, hs.running, hs.watched.step hst,
    hs.listens.of_lookup rfl (fun fd entry _ => by rw [← hsame]), hs.idle⟩

/-- **One step of the loop** is a run of the server, which dispatches what the step stores. -/
theorem Between.step (hs : s.Between) {a : LoopAction X} (hst : LoopStep n timeoutMs out s a t) :
    t.Between ∧ ∃ ρs, (serving X).Run s ρs t ∧
      dispatched ρs = (Server.stored n timeoutMs out [⟨s, a, t⟩]).map
        (fun event => (event.data, event.events)) := by
  cases hst with
  | round hp _ _ hd =>
    obtain ⟨ρs, hr, hdisp⟩ := hd.run
    have hwait := hs.stored n timeoutMs out hp
    refine ⟨hs.round hp hd, _, (System.Run.single hwait).append hr, ?_⟩
    rw [dispatched_append, hdisp]
    simp [dispatched, Server.stored, batch_eq]
  | opened hnew =>
    obtain ⟨hst, ht⟩ := hs.others { s.mux with epoll := s.mux.epoll.openFd _ _ } (fun _ => rfl)
    exact ⟨ht, _, .single hst, rfl⟩
  | @closed fd hnot =>
    have hsame : ∀ x, (s.mux.epoll.close fd).interest.lookup x = s.mux.epoll.interest.lookup x := by
      intro x
      rw [Epoll.lookup_close]
      split
      next hx => rw [hx, AList.lookup_eq_none.mpr hnot]
      next => rfl
    obtain ⟨hst, ht⟩ := hs.others { s.mux with epoll := s.mux.epoll.close fd } hsame
    exact ⟨ht, _, .single hst, rfl⟩

/-- The server has been started. -/
theorem between_init (h : (looping X n timeoutMs out).init s) :
    (serving X).init s ∧ s.Between := by
  obtain ⟨s₀, env, path, hconf, -, hrun⟩ := h
  obtain ⟨fd, hrange, hopen, rfl⟩ := startUp_ok hconf hrun
  have hlookup : ∀ x entry, ((s₀.mux.epoll.openFd fd hrange).enter fd
      ⟨⟨true, true, true, false, true, false⟩, none⟩ hopen).interest.lookup x = some entry →
      x = fd ∧ entry.data = none := by
    intro x entry hl
    by_cases hx : x = fd
    · rw [hx] at hl
      exact ⟨hx, (Option.some.inj ((AList.lookup_insert _).symm.trans hl)) ▸ rfl⟩
    · have hold : s₀.mux.epoll.interest.lookup x = some entry :=
        (AList.lookup_insert_ne hx).symm.trans hl
      rw [hconf.interest, AList.lookup_empty] at hold
      exact (Option.some_ne_none entry hold.symm).elim
  have hnone : ∀ conn, ¬ Registered ({ s₀ with fd := fd, mux := { s₀.mux with
      epoll := (s₀.mux.epoll.openFd fd hrange).enter fd
        ⟨⟨true, true, true, false, true, false⟩, none⟩ hopen, count := 1 } }) conn := by
    rintro conn ⟨x, entry, hl, hd⟩
    rw [(hlookup x entry hl).2] at hd
    exact Option.some_ne_none conn hd.symm
  have hinit : (serving X).init { s₀ with fd := fd, mux := { s₀.mux with
      epoll := (s₀.mux.epoll.openFd fd hrange).enter fd
        ⟨⟨true, true, true, false, true, false⟩, none⟩ hopen, count := 1 } } :=
    ⟨hconf.clientHandlers, hconf.records, hconf.log, hconf.pending, hnone⟩
  have hrun : s₀.running = true := by
    rw [Server.running, hconf.log]
    rfl
  refine ⟨hinit, hrun, watched_init hinit, ⟨⟨_, AList.lookup_insert _, rfl⟩, ?_⟩, hconf.pending⟩
  exact fun x entry hl _ => (hlookup x entry hl).1

theorem between (hs : (looping X n timeoutMs out).Reachable s) : s.Between :=
  hs.invariant (fun _ h => (between_init h).2) (fun _ _ _ h hst => (h.step hst).1)

/-- **The loop refines the server.**  Every run of the loop, each round of which comes to its end,
is a run of the server, with the same states at both ends, that dispatches the reports that the
kernel stored: all of them, once, and in order. -/
theorem loop_refines {τs : List (Transition (Server X) (LoopAction X))}
    (hs : (looping X n timeoutMs out).init s) (hr : (looping X n timeoutMs out).Run s τs t) :
    (serving X).init s ∧ ∃ ρs, (serving X).Run s ρs t ∧ dispatched ρs =
      (Server.stored n timeoutMs out τs).map (fun event => (event.data, event.events)) := by
  obtain ⟨hinit, hbetween⟩ := between_init hs
  suffices h : t.Between ∧ ∃ ρs, (serving X).Run s ρs t ∧ dispatched ρs =
      (Server.stored n timeoutMs out τs).map (fun event => (event.data, event.events)) from
    ⟨hinit, h.2⟩
  induction hr with
  | nil => exact ⟨hbetween, [], .nil, rfl⟩
  | snoc _ hst ih =>
    obtain ⟨ht, ρs, hρ, hd⟩ := ih
    obtain ⟨hu, ρs', hρ', hd'⟩ := ht.step hst
    refine ⟨hu, _, hρ.append hρ', ?_⟩
    rw [dispatched_append, hd, hd', ← List.map_append]
    exact congrArg _ List.flatMap_append.symm

end Refinement

/-! ## The clients after a round -/

section Rounds
variable {s t : Server X} {env : Env X} {envs : List (Env X)} {ptr : Option Nat}
  {flags : EpollFlags} {rest : List (Option Nat × EpollFlags)} {conn : Nat}

/-- The report makes the server accept. -/
def knocks (report : Option Nat × EpollFlags) : Bool := report.1.isNone && report.2.inp

/-- A report takes the client out of the mux. -/
def Expelled (s : Server X) (conn : Nat) (report : Option Nat × EpollFlags) : Prop :=
  s.handlers.onClientRm = true ∧ report.1 = some conn ∧ Gone report.2

/-- What a dispatch leaves of the clients that there were, and how many there can be. -/
structure Moved (s : Server X) (report : Option Nat × EpollFlags) (t : Server X) : Prop where
  handlers : t.handlers = s.handlers
  le : s.records.length ≤ t.records.length
  new : t.records.length ≤ s.records.length + if knocks report then 1 else 0
  registered : ∀ conn < s.records.length,
    (t.Registered conn ↔ s.Registered conn ∧ ¬ s.Expelled conn report)

/-- A report on the listening socket. -/
theorem moved_server (env : Env X) (flags : EpollFlags) (hrun : s.running = true)
    (hf : Env.Fresh env s) :
    s.Moved (none, flags) (handle env s (none, flags)) := by
  have hkeep : ∀ conn, ¬ s.Expelled conn (none, flags) :=
    fun conn h => Option.some_ne_none conn h.2.1.symm
  have hsame : s.Moved (none, flags) s :=
    ⟨rfl, le_refl _, Nat.le_add_right _ _, fun conn _ => by simp [hkeep conn]⟩
  rw [handle_server env flags hrun]
  split
  next hinp =>
    have hknocks : knocks (none, flags) = true := hinp
    obtain ⟨-, hr⟩ | ⟨fd, -, -, hr⟩ | ⟨fd, -, -, hr⟩ := onServerRead_cases hf
    · rw [hr]
      exact hsame
    · have hrecords := congrArg List.length hr.records
      rw [List.length_append, List.length_singleton] at hrecords
      refine ⟨hr.handlers, by omega, by simp [hknocks, hrecords], fun conn _ => ?_⟩
      simp only [Registered, hr.lookup, hkeep conn, not_false_eq_true, and_true]
    · have hrecords := congrArg List.length hr.records
      rw [List.length_append, List.length_singleton] at hrecords
      refine ⟨hr.handlers, by omega, by simp [hknocks, hrecords], fun conn hlt => ?_⟩
      rw [and_iff_left (hkeep conn)]
      refine ⟨fun ⟨x, entry, hl, hd⟩ => ?_, hr.registered⟩
      obtain ⟨-, hconn, -⟩ | hl := hr.lookup_cases hl hd
      · exact absurd hconn (Nat.ne_of_lt hlt)
      · exact ⟨x, entry, hl, hd⟩
  next => exact hsame

/-- A report on a client. -/
theorem moved_client (env : Env X) {c : Nat} (hrun : s.running = true) (hw : s.Watched)
    (hp : s.pending = (some c, flags) :: rest) :
    s.Moved (some c, flags) (handle env s (some c, flags)) := by
  obtain ⟨fd, entry, addr, hl, hd, hrec, hown⟩ := hw.client hp
  obtain ⟨hnot, acts, -, hr⟩ | ⟨hrm, hgone, hr⟩ :=
    handle_client_cases env flags hrun hw.sound.clientHandlers hrec hown
  · rw [hr]
    refine ⟨rfl, le_refl _, Nat.le_add_right _ _, fun conn _ => ?_⟩
    exact ⟨fun h => ⟨h, fun hout => hnot ⟨hout.1, hout.2.2⟩⟩, And.left⟩
  · refine ⟨hr.handlers, by rw [hr.records], by rw [hr.records]; exact Nat.le_add_right _ _,
      fun conn _ => ?_⟩
    by_cases hconn : conn = c
    · rw [hconn]
      exact iff_of_false (hr.not_registered hw.sound hrec) (fun h => h.2 ⟨hrm, rfl, hgone⟩)
    · refine ⟨fun ⟨x, entry', hl', hd'⟩ => ⟨⟨x, entry', (hr.lookup_cases hl').2, hd'⟩, ?_⟩,
        fun h => hr.registered hl hd hconn h.1⟩
      exact fun hout => hconn (Option.some.inj hout.2.1).symm

theorem moved (hrun : s.running = true) (hw : s.Watched) (hp : s.pending = (ptr, flags) :: rest)
    (hf : Env.Fresh env s) : s.Moved (ptr, flags) (handle env s (ptr, flags)) := by
  cases ptr with
  | none => exact moved_server env flags hrun hf
  | some c => exact moved_client env hrun hw hp

/-- **A batch of dispatches** takes the clients out of the mux that its reports expel. -/
theorem Dispatches.moved (h : Dispatches s envs t) (hw : s.Watched) :
    s.records.length ≤ t.records.length ∧
      t.records.length ≤ s.records.length + s.pending.countP knocks ∧
      ∀ conn < s.records.length, (t.Registered conn ↔
        s.Registered conn ∧ ∀ report ∈ s.pending, ¬ s.Expelled conn report) := by
  induction h with
  | done _ hp => simp [hp]
  | @next s t env envs report rest hrun hp hf _ ih =>
    have hm : s.Moved report (handle env s report) := Server.moved hrun hw hp hf
    obtain ⟨hle, hnew, hreg⟩ := ih (hw.step (.dispatch hrun hp hf))
    rw [hp, List.countP_cons]
    refine ⟨hm.le.trans hle, ?_, fun conn hlt => ?_⟩
    · have hfirst := hm.new
      dsimp only at hnew
      omega
    · have hrest : ∀ report', Expelled { handle env s report with pending := rest } conn report' ↔
          s.Expelled conn report' := by
        intro report'
        unfold Expelled
        rw [hm.handlers]
      rw [hreg conn (Nat.lt_of_lt_of_le hlt hm.le), List.forall_mem_cons, ← and_assoc,
        ← hm.registered conn hlt]
      simp only [hrest]
      exact Iff.rfl

theorem Dispatches.running (h : Dispatches s envs t) : s.running = true := by
  cases h with
  | done hrun => exact hrun
  | next hrun => exact hrun

/-- **A batch that comes to its end** has no client with both a hangup and an error in it, if there
is an `on_client_rm`. -/
theorem Dispatches.single (h : Dispatches s envs t) (hw : s.Watched)
    (hrm : s.handlers.onClientRm = true) :
    ∀ conn flags, (some conn, flags) ∈ s.pending → ¬ Doubled flags := by
  induction h with
  | done _ hp => simp [hp]
  | @next s t env envs report rest hrun hp hf hd ih =>
    have hm : s.Moved report (handle env s report) := Server.moved hrun hw hp hf
    intro conn flags hmem hbad
    rw [hp] at hmem
    rcases List.mem_cons.mp hmem with hfirst | hmem
    · subst hfirst
      have hreg := hw.pending conn flags (hp ▸ List.mem_cons_self)
      have hfreed := hw.sound.handle_doubled env flags hrun hrm hreg hbad
      exact running_iff.mp hd.running conn hfreed
    · exact ih (hw.step (.dispatch hrun hp hf)) (hm.handlers ▸ hrm) conn flags hmem hbad

/-- The listening socket is reported once. -/
theorem countP_knocks_le {l : List (Option Nat × EpollFlags)} (h : (l.map Prod.fst).Nodup) :
    l.countP knocks ≤ 1 := by
  calc l.countP knocks ≤ l.countP ((· == none) ∘ Prod.fst) := by
        refine List.countP_mono_left (fun report _ hknocks => ?_)
        have hnone := Option.isNone_iff_eq_none.mp (Bool.and_eq_true_iff.mp hknocks).1
        exact beq_iff_eq.mpr hnone
    _ = (l.map Prod.fst).count none := by rw [← List.countP_map, List.count]
    _ ≤ 1 := List.nodup_iff_count_le_one.mp h none

/-- **The clients after a round.**  In every state between two rounds that the loop reaches, a
round that comes to its end leaves exactly those of the clients registered that were not reported
to have hung up, or to have an error, or all of them if there is no `on_client_rm`.  It adds at
most one client, and that only if the listening socket was reported.  If there is an
`on_client_rm`, no client was reported with both a hangup and an error. -/
theorem round_clients {n : Nat} {timeoutMs : Int} {out : Bool} {w : Waiting X}
    (hs : (looping X n timeoutMs out).Reachable s)
    (hst : (looping X n timeoutMs out).step s (.round w) t) :
    (∀ conn < s.records.length, (t.Registered conn ↔ s.Registered conn ∧
      ¬ (s.handlers.onClientRm = true ∧ ∃ event ∈ (s.wait n timeoutMs out w).stored,
        event.data = some conn ∧ Gone event.events))) ∧
    (∀ conn, s.records.length ≤ conn → t.Registered conn → conn = s.records.length ∧
      ∃ event ∈ (s.wait n timeoutMs out w).stored, event.data = none ∧ event.events.inp) ∧
    (s.handlers.onClientRm = true → ∀ event ∈ (s.wait n timeoutMs out w).stored,
      event.data ≠ none → ¬ Doubled event.events) := by
  have hbetween := between hs
  have ht := (hbetween.step hst).1
  rcases hst with ⟨hp, -, -, hd⟩
  have hwait := hbetween.stored n timeoutMs out hp
  have hw := hbetween.watched.step hwait
  obtain ⟨hle, hnew, hreg⟩ := hd.moved hw
  have hbatch := batch_eq s n timeoutMs out w
  refine ⟨fun conn hlt => ?_, ?_, fun hrm event hmem hclient => ?_⟩
  · refine (hreg conn hlt).trans (and_congr_right fun _ => ?_)
    show (∀ report ∈ (s.wait n timeoutMs out w).batch, ¬ s.Expelled conn report) ↔ _
    rw [hbatch, List.forall_mem_map]
    constructor
    · rintro h ⟨hrm, event, hmem, hdata, hgone⟩
      exact h event hmem ⟨hrm, hdata, hgone⟩
    · exact fun h event hmem hout => h ⟨hout.1, event, hmem, hout.2⟩
  · rintro conn hge ⟨fd, entry, hl, hdata⟩
    have hlt := ht.watched.sound.conn_lt hl hdata
    have hfew := countP_knocks_le hw.nodup
    dsimp only at hnew hfew
    have hpos : 0 < (s.wait n timeoutMs out w).batch.countP knocks := by omega
    obtain ⟨report, hmem, hknocks⟩ := List.countP_pos_iff.mp hpos
    rw [hbatch] at hmem
    obtain ⟨event, hevent, rfl⟩ := List.mem_map.mp hmem
    obtain ⟨hnone, hinp⟩ := Bool.and_eq_true_iff.mp hknocks
    exact ⟨by omega, event, hevent, Option.isNone_iff_eq_none.mp hnone, hinp⟩
  · obtain ⟨conn, hconn⟩ := Option.ne_none_iff_exists'.mp hclient
    refine hd.single hw hrm conn event.events ?_
    show (some conn, event.events) ∈ (s.wait n timeoutMs out w).batch
    rw [hbatch, ← hconn]
    exact List.mem_map_of_mem hmem

end Rounds

/-! ### A client that comes and goes -/

/-- A server after `ae_server_cfg`, when nothing is open. -/
def configured : Server Unit where
  handlers := ⟨true, true, true, false⟩
  clientHandlers := cfg ⟨true, true, true, false⟩ noHandlers
  fd := -1
  mux := ⟨0, .empty, []⟩
  records := []
  pairs := fun _ => none
  log := []
  pending := []

/-- It listens on descriptor 3. -/
def started : Server Unit := ((startUp ServerOwner.three (ascii "/tmp/s")).run configured).2

theorem started_init (n : Nat) (timeoutMs : Int) (out : Bool) :
    (looping Unit n timeoutMs out).init started := by
  refine ⟨configured, ServerOwner.three, ascii "/tmp/s", ⟨rfl, rfl, rfl, rfl, rfl, rfl, rfl⟩, ?_,
    rfl⟩
  exact fun _ fd _ _ => Finset.notMem_empty fd

/-- One descriptor is ready. -/
def readied (fd : Int) (event : EpollEvent (Option Nat)) (env : Env Unit) : Waiting Unit :=
  ⟨[(fd, event.events)], .ok ⟨0, 0⟩, [.reports [event]], [env]⟩

/-- Its report is dispatched. -/
def after (s : Server Unit) (event : EpollEvent (Option Nat)) (env : Env Unit) : Server Unit :=
  { handle env { s with pending := [(event.data, event.events)] } (event.data, event.events) with
    pending := [] }

theorem readied_step {s : Server Unit} {fd : Int} {event entry : EpollEvent (Option Nat)}
    {env : Env Unit} (hpos : 0 < s.mux.count) (hsmall : s.mux.count < 2 ^ 31)
    (hl : s.mux.epoll.interest.lookup fd = some entry) (hd : entry.data = event.data)
    (hf : Env.Fresh env s) (hrun : s.running = true) (hafter : (s.after event env).running = true) :
    (looping Unit 1 (-1) false).step s (.round (readied fd event env)) (s.after event env) := by
  have hint : Mux.toInt s.mux.count = s.mux.count := Int.bmod_eq_of_le (by omega) (by omega)
  have hreports : s.reports (readied fd event env).ready = [event] := by
    simp [reports, readied, hl, hd]
  have hwait : s.wait 1 (-1) false (readied fd event env) =
      Mux.waitEnd none false [(Mux.toInt s.mux.count, -1)] (some (.ok [event])) := by
    rw [wait, Mux.wait, if_neg (by omega)]
    rfl
  refine .round ⟨List.nodup_singleton _, fun a ha => ?_⟩ ?_ (by rw [hwait]; rfl) ?_
  · rw [List.mem_singleton.mp ha, hreports, hint]
    exact ⟨by simp; omega, by omega, .refl _, fun h => h⟩
  · rw [hwait]
    exact ⟨Nat.le_refl 1, fun i hi => List.mem_range.mp hi⟩
  · rw [hwait]
    exact .next hrun rfl hf (.done hafter rfl)

/-- A client connects. -/
def welcomed : Server Unit := started.after ⟨readable, none⟩ connecting

/-- `EPOLLIN` and `EPOLLRDHUP`. -/
def readableHangup : EpollFlags := ⟨true, false, true, false, false, false⟩

theorem welcomed_step : (looping Unit 1 (-1) false).step started
    (.round (readied 3 ⟨readable, none⟩ connecting)) welcomed := by
  refine readied_step (by decide) (by decide) rfl rfl ⟨?_, nofun⟩ rfl rfl
  rintro fd h ⟨⟩
  decide

/-- The report of the listening socket is dispatched. -/
theorem loop_refines_welcomed : ∃ ρs, (serving Unit).Run started ρs welcomed ∧
    dispatched ρs = [(none, readable)] := by
  obtain ⟨-, ρs, hr, hd⟩ := loop_refines (started_init 1 (-1) false) (.single welcomed_step)
  exact ⟨ρs, hr, hd⟩

theorem departing_step : (looping Unit 1 (-1) false).step welcomed
    (.round (readied 5 ⟨readableHangup, some 0⟩ quiet))
    (welcomed.after ⟨readableHangup, some 0⟩ quiet) := by
  refine readied_step (by decide) (by decide) rfl rfl ⟨?_, nofun⟩ rfl rfl
  rintro fd h ⟨⟩

/-- A client that hangs up is taken out. -/
theorem round_clients_departing :
    ¬ (welcomed.after ⟨readableHangup, some 0⟩ quiet).Registered 0 := by
  have hreach : (looping Unit 1 (-1) false).Reachable welcomed :=
    .step (.of_init (started_init 1 (-1) false)) welcomed_step
  obtain ⟨hold, -⟩ := round_clients hreach departing_step
  rw [hold 0 (by decide)]
  exact fun h => h.2 ⟨rfl, ⟨readableHangup, some 0⟩, List.mem_singleton_self _, rfl, .inl rfl⟩

end Server
end Libae
