import Libae.ServerClients

/-! # Where the connections go

Each connection that the server accepts is in one of two places, in every state between two
dispatches: closed, or registered (`Accounted`).  The one exit that forgets a descriptor is
the last one of `ae_server_on_server_read`, where `ae_mux_add` fails: its message is logged,
and nobody closes the descriptor or tells the user (`accounted_iff`).

A client that hangs up leaves the mux if `on_client_rm` is not `NULL`, and otherwise never
(`hung_up_leaves_iff`): `ae_server_client_rm` returns before it has removed anything.
-/
namespace Libae
open Runs Fallible

namespace Server
variable {X : Type}

/-! ## Registered or closed -/

/-- Every descriptor that was accepted is closed or registered, and the user was told of
every client that is no longer registered. -/
structure Accounted (s : Server X) : Prop where
  kept : ∀ conn fd, .accepted conn fd ∈ s.log → .closed conn fd ∈ s.log ∨
    ∃ entry, s.mux.epoll.interest.lookup fd = some entry ∧ entry.data = some conn
  told : ∀ conn record, s.records[conn]? = some (some record) → ¬ s.Registered conn →
    ∃ ctx fd, .onClientRm conn ctx fd ∈ s.log

/-- If the step accepts a connection that becomes a client, the kernel registers it. -/
def Registers (s : Server X) : Action X → Prop
  | .dispatch env => ∀ flags rest, s.pending = (none, flags) :: rest → flags.inp = true →
    ∀ fd, env.accept = .ok fd → Wanted env s → env.faults .add = none
  | .wait _ | .others _ => True

section Accounts
variable {s t : Server X} {fd : Int} {conn addr : Nat}

/-- A report of the listening socket. -/
theorem registers_iff {flags : EpollFlags} {rest : List (Option Nat × EpollFlags)} {env : Env X}
    (hp : s.pending = (none, flags) :: rest) :
    Registers s (.dispatch env) ↔ (flags.inp = true →
      ∀ fd, env.accept = .ok fd → Wanted env s → env.faults .add = none) := by
  constructor
  · exact fun h => h flags rest hp
  · rintro h flags' rest' heq
    rw [hp] at heq
    cases heq
    exact h

/-- A report of a client accepts nobody. -/
theorem registers_client {flags : EpollFlags} {rest : List (Option Nat × EpollFlags)}
    {env : Env X} (hp : s.pending = (some conn, flags) :: rest) :
    Registers s (.dispatch env) := by
  intro flags' rest' heq
  rw [hp] at heq
  cases heq

/-- What is accounted for does not depend on what is pending, nor on what other parts of the
program register. -/
theorem Accounted.of_eq (hs : s.Accounted) (hlog : t.log = s.log) (hrecords : t.records = s.records)
    (hint : ∀ fd entry conn, entry.data = some conn →
      (t.mux.epoll.interest.lookup fd = some entry ↔
        s.mux.epoll.interest.lookup fd = some entry)) : t.Accounted := by
  refine ⟨fun conn fd hmem => ?_, fun conn record hrec hnot => ?_⟩
  · rw [hlog] at hmem ⊢
    apply (hs.kept conn fd hmem).imp_right
    rintro ⟨entry, hl, hd⟩
    exact ⟨entry, (hint fd entry conn hd).mpr hl, hd⟩
  · rw [hlog]
    rw [hrecords] at hrec
    apply hs.told conn record hrec
    rintro ⟨fd, entry, hl, hd⟩
    exact hnot ⟨fd, entry, (hint fd entry conn hd).mpr hl, hd⟩

/-- Talking about a client changes no account. -/
theorem Accounted.note (hs : s.Accounted) {acts : List (Act X)} (hof : Of conn acts) :
    (s.note acts).Accounted := by
  refine ⟨fun c fd hmem => ?_, fun c record hrec hnot => ?_⟩
  · rcases List.mem_append.mp hmem with hmem | hmem
    · exact (hs.kept c fd hmem).imp_left (List.mem_append_left _)
    · obtain ⟨hconn, hne⟩ := hof _ hmem
      exact absurd (congrArg (Act.accepted · fd) hconn) (hne fd)
  · obtain ⟨ctx, fd, hmem⟩ := hs.told c record hrec hnot
    exact ⟨ctx, fd, List.mem_append_left _ hmem⟩

/-- **A client that is gone** was closed, and the user was told. -/
theorem Accounted.departed (hs : s.Accounted) {entry : EpollEvent (Option Nat)}
    (hl : s.mux.epoll.interest.lookup fd = some entry) (hd : entry.data = some conn)
    (ht : Departed s fd conn addr t) : t.Accounted := by
  obtain ⟨acts, hlog, hof, hclosed, ctx, hrm⟩ := ht.log
  -- nobody else was registered with the descriptor
  have hsame : ∀ {x entry' c}, s.mux.epoll.interest.lookup x = some entry' →
      entry'.data = some c → x = fd → c = conn := by
    rintro x entry' c hl' hd' rfl
    rw [hl] at hl'
    cases hl'
    exact Option.some.inj (hd'.symm.trans hd)
  refine ⟨fun c x hmem => ?_, fun c record hr hnot => ?_⟩ <;> rw [hlog] at *
  · rcases List.mem_append.mp hmem with hmem | hmem
    · obtain hc | ⟨entry', hl', hd'⟩ := hs.kept c x hmem
      · exact .inl (List.mem_append_left _ hc)
      · by_cases hx : x = fd
        · rw [hsame hl' hd' hx, hx]
          exact .inl (List.mem_append_right _ hclosed)
        · exact .inr ⟨entry', by rw [ht.lookup, if_neg hx, hl'], hd'⟩
    · obtain ⟨hconn, hne⟩ := hof _ hmem
      exact absurd (congrArg (Act.accepted · x) hconn) (hne x)
  · by_cases hc : c = conn
    · rw [hc]
      exact ⟨ctx, fd, List.mem_append_right _ hrm⟩
    · have hbefore : ¬ s.Registered c := fun hreg => hnot (ht.registered hl hd hc hreg)
      rw [ht.records] at hr
      obtain ⟨ctx', fd', hmem⟩ := hs.told c record hr hbefore
      exact ⟨ctx', fd', List.mem_append_left _ hmem⟩

/-- A record of a client is an old one, or that of the last connection. -/
theorem records_append {records : List (Option (MuxEvent ServerCallback ServerCtx))}
    {r : Option (MuxEvent ServerCallback ServerCtx)} {c : Nat}
    {record : MuxEvent ServerCallback ServerCtx} (h : (records ++ [r])[c]? = some (some record)) :
    records[c]? = some (some record) ∨ c = records.length ∧ r = some record := by
  rcases Nat.lt_or_ge c records.length with hlt | hge
  · rw [List.getElem?_append_left hlt] at h
    exact .inl h
  · rw [List.getElem?_append_right hge] at h
    obtain ⟨hlt, heq⟩ := List.getElem?_eq_some_iff.mp h
    rw [List.length_singleton] at hlt
    have hc : c = records.length := by omega
    subst hc
    exact .inr ⟨rfl, by simpa using heq⟩

theorem Accounted.rejected (hs : s.Accounted) (ht : Rejected s fd t) : t.Accounted := by
  refine ⟨fun c x hmem => ?_, fun c record hr hnot => ?_⟩ <;> rw [ht.log] at *
  · rcases List.mem_append.mp hmem with hmem | hmem
    · apply (hs.kept c x hmem).imp (List.mem_append_left _)
      rintro ⟨entry, hl, hd⟩
      exact ⟨entry, (ht.lookup x).trans hl, hd⟩
    · simp only [List.mem_cons, List.not_mem_nil, or_false, reduceCtorEq] at hmem
      cases hmem
      exact .inl (by simp)
  · rw [ht.records] at hr
    obtain hold | ⟨-, hnone⟩ := records_append hr
    · have hbefore : ¬ s.Registered c := by
        rintro ⟨x, entry, hl, hd⟩
        exact hnot ⟨x, entry, (ht.lookup x).trans hl, hd⟩
      obtain ⟨ctx, fd', hmem⟩ := hs.told c record hold hbefore
      exact ⟨ctx, fd', List.mem_append_left _ hmem⟩
    · cases hnone

/-- **A new client** is accounted for exactly if the kernel registers it. -/
theorem Accounted.welcomed_iff {env : Env X} (hs : s.Accounted) (hsound : s.Sound)
    (hfuture : ∀ act ∈ s.log, act.conn < s.records.length) (ht : Welcomed env s fd t) :
    t.Accounted ↔ env.faults .add = none := by
  constructor
  · intro h
    by_contra hfault
    have hnot : ¬ t.Registered s.records.length := by
      rintro ⟨x, entry, hl, hd⟩
      obtain ⟨-, -, hadd⟩ | hl' := ht.lookup_cases hl hd
      · exact hfault hadd
      · exact absurd (hsound.conn_lt hl' hd) (Nat.lt_irrefl _)
    obtain ⟨ctx, fd', hmem⟩ := h.told s.records.length _ ht.record_new hnot
    -- nothing has been said about the new connection
    rw [ht.log] at hmem
    rcases List.mem_append.mp hmem with hmem | hmem
    · exact absurd (hfuture _ hmem) (Nat.lt_irrefl _)
    · simp at hmem
  · intro hadd
    obtain ⟨flags, hnew⟩ := ht.lookup_new hadd
    refine ⟨fun c x hmem => ?_, fun c record hr hnot => ?_⟩
    · rw [ht.log] at hmem ⊢
      rcases List.mem_append.mp hmem with hmem | hmem
      · apply (hs.kept c x hmem).imp (List.mem_append_left _)
        exact fun ⟨entry, hl, hd⟩ => ⟨entry, ht.lookup_old hl, hd⟩
      · cases List.mem_singleton.mp hmem
        exact .inr ⟨_, hnew, rfl⟩
    · rw [ht.records] at hr
      rw [ht.log]
      obtain hold | ⟨rfl, -⟩ := records_append hr
      · obtain ⟨ctx, fd', hmem⟩ := hs.told c record hold (fun hreg => hnot (ht.registered hreg))
        exact ⟨ctx, fd', List.mem_append_left _ hmem⟩
      · exact absurd ⟨fd, _, hnew, rfl⟩ hnot

end Accounts

/-! ## Runs -/

section Runs
variable {s t : Server X}

/-- The connections are accounted for, and nothing was said about those to come. -/
structure Booked (s : Server X) : Prop where
  watched : s.Watched
  accounted : s.Accounted
  future : ∀ act ∈ s.log, act.conn < s.records.length

theorem booked_init (h : (serving X).init s) : s.Booked := by
  have hwatched := watched_init h
  obtain ⟨-, hrecords, hlog, -⟩ := h
  refine ⟨hwatched, ⟨?_, ?_⟩, ?_⟩
  · simp [hlog]
  · simp [hrecords]
  · simp [hlog]

/-- What is said of connections that there are. -/
theorem conn_lt_append {log acts : List (Act X)} {n n' : Nat} (hlog : ∀ act ∈ log, act.conn < n)
    (hle : n ≤ n') (hacts : ∀ act ∈ acts, act.conn < n') : ∀ act ∈ log ++ acts, act.conn < n' :=
  List.forall_mem_append.mpr ⟨fun act h => Nat.lt_of_lt_of_le (hlog act h) hle, hacts⟩

/-- What a dispatch is to the connections. -/
theorem Booked.dispatched {report : Option Nat × EpollFlags}
    {rest : List (Option Nat × EpollFlags)} {env : Env X} (hs : s.Booked)
    (hrun : s.running = true) (hp : s.pending = report :: rest) (hf : Env.Fresh env s) :
    ((handle env s report).Accounted ↔ Registers s (.dispatch env)) ∧
      ∀ act ∈ (handle env s report).log, act.conn < (handle env s report).records.length := by
  obtain ⟨ptr, flags⟩ := report
  have hfuture := hs.future
  cases ptr with
  | none =>
    rw [handle_server env flags hrun, registers_iff hp]
    by_cases hinp : flags.inp = true
    · simp only [hinp, if_true, true_imp_iff]
      obtain ⟨hnone, hr⟩ | ⟨fd, haccept, hreject, hr⟩ | ⟨fd, haccept, hwanted, hr⟩ :=
        onServerRead_cases hf
      · rw [hr]
        exact ⟨iff_of_true hs.accounted (fun fd h => absurd h (hnone fd)), hfuture⟩
      · refine ⟨iff_of_true (hs.accounted.rejected hr) (fun _ _ h => absurd h hreject), ?_⟩
        rw [hr.log, hr.records, List.length_append, List.length_singleton]
        exact conn_lt_append hfuture (Nat.le_succ _) (by simp [Act.conn])
      · refine ⟨(hs.accounted.welcomed_iff hs.watched.sound hfuture hr).trans ?_, ?_⟩
        · exact ⟨fun h _ _ _ => h, fun h => h fd haccept hwanted⟩
        · rw [hr.log, hr.records, List.length_append, List.length_singleton]
          exact conn_lt_append hfuture (Nat.le_succ _) (by simp [Act.conn])
    · simp only [hinp, if_false, Bool.false_eq_true, false_imp_iff, iff_true]
      exact ⟨hs.accounted, hfuture⟩
  | some conn =>
    have hregisters : Registers s (.dispatch env) := registers_client hp
    obtain ⟨fd, entry, addr, hl, hd, hrec, hown⟩ := hs.watched.client hp
    have hlt := hs.watched.sound.conn_lt hl hd
    obtain ⟨-, acts, hof, hr⟩ | ⟨-, -, hr⟩ :=
      handle_client_cases env flags hrun hs.watched.sound.clientHandlers hrec hown
    · rw [hr]
      refine ⟨iff_of_true (hs.accounted.note hof) hregisters, ?_⟩
      exact conn_lt_append hfuture (Nat.le_refl _) (fun act h => (hof act h).1 ▸ hlt)
    · refine ⟨iff_of_true (hs.accounted.departed hl hd hr) hregisters, ?_⟩
      obtain ⟨acts, hlog, hof, -⟩ := hr.log
      rw [hlog, hr.records]
      exact conn_lt_append hfuture (Nat.le_refl _) (fun act h => (hof act h).1 ▸ hlt)

/-- **One step** from a booked state accounts for all connections exactly if it registers the
one it accepts, and leaves a booked state if so. -/
theorem Booked.step (hs : s.Booked) {a : Action X} (hst : Step s a t) :
    (t.Accounted ↔ Registers s a) ∧ (Registers s a → t.Booked) := by
  have hw := hs.watched.step hst
  cases hst with
  | @wait reports _ hempty hreg hnodup =>
    have ha : Accounted { s with pending := reports } :=
      hs.accounted.of_eq rfl rfl (fun _ _ _ _ => Iff.rfl)
    exact ⟨iff_of_true ha trivial, fun _ => ⟨hw, ha, hs.future⟩⟩
  | @others mux _ hsame =>
    have ha : Accounted { s with mux := mux } := hs.accounted.of_eq rfl rfl hsame
    exact ⟨iff_of_true ha trivial, fun _ => ⟨hw, ha, hs.future⟩⟩
  | @dispatch env report rest hrun hp hf =>
    obtain ⟨hiff, hfuture⟩ := hs.dispatched hrun hp hf
    have hpending : Accounted { handle env s report with pending := rest } ↔
        (handle env s report).Accounted :=
      ⟨fun h => h.of_eq rfl rfl (fun _ _ _ _ => Iff.rfl),
        fun h => h.of_eq rfl rfl (fun _ _ _ _ => Iff.rfl)⟩
    rw [hpending]
    exact ⟨hiff, fun hgood => ⟨hw, hpending.mpr (hiff.mpr hgood), hfuture⟩⟩

/-- **When the connections are accounted for.**  Along a run, every connection that was
accepted is closed or registered in every state, and the user was told of every client that is
no longer registered, exactly if the kernel registers every connection that becomes a
client. -/
theorem accounted_iff {τs : List (Transition (Server X) (Action X))}
    (hinit : (serving X).init s) (hr : (serving X).Run s τs t) :
    (∀ τ ∈ τs, τ.after.Accounted) ↔ ∀ τ ∈ τs, Registers τ.before τ.action :=
  hr.forall_iff (I := Booked) (Q := fun _ _ t => t.Accounted)
    (fun _ _ _ hs hst hg => (hs.step hst).2 hg) (fun _ _ _ hs hst => (hs.step hst).1)
    (booked_init hinit)

end Runs

/-! ## A client that hangs up -/

section Leaving
variable {s t : Server X}

/-- The client's descriptor is no longer registered and closed, its pair is freed, and all
other registrations are what they were. -/
structure Leaves (s : Server X) (conn : Nat) (t : Server X) : Prop where
  gone : ¬ t.Registered conn
  torn : ∃ fd addr, s.records[conn]? = some (some ⟨fd, .pair conn addr, some s.clientHandlers⟩) ∧
    fd ∉ t.mux.epoll.opened ∧
    ∃ pair, t.pairs addr = some pair ∧ pair.conn = conn ∧ pair.live = false
  others : ∀ fd entry, entry.data ≠ some conn →
    (t.mux.epoll.interest.lookup fd = some entry ↔ s.mux.epoll.interest.lookup fd = some entry)

theorem Departed.leaves {fd : Int} {conn addr : Nat} {entry : EpollEvent (Option Nat)}
    (hsound : s.Sound) (hl : s.mux.epoll.interest.lookup fd = some entry)
    (hd : entry.data = some conn)
    (hrec : s.records[conn]? = some (some ⟨fd, .pair conn addr, some s.clientHandlers⟩))
    (ht : Departed s fd conn addr t) : Leaves s conn t := by
  refine ⟨ht.not_registered hsound hrec, ⟨fd, addr, hrec, ht.closed, ht.freed⟩,
    fun x entry' hne => ?_⟩
  rw [ht.lookup]
  by_cases hx : x = fd
  · subst hx
    rw [if_pos rfl, hl]
    refine iff_of_false nofun ?_
    rintro ⟨⟩
    exact hne hd
  · rw [if_neg hx]

/-- **When a client that hangs up leaves the mux.**  The dispatch of a report with a hangup or
an error, but not both, takes the client out of the mux exactly if `on_client_rm` is not
`NULL`. -/
theorem hung_up_leaves_iff {conn : Nat} {flags : EpollFlags}
    {rest : List (Option Nat × EpollFlags)} {env : Env X} (hs : (serving X).Reachable s)
    (hp : s.pending = (some conn, flags) :: rest)
    (hone : (flags.rdhup || flags.hup) ≠ flags.err) (hst : (serving X).step s (.dispatch env) t) :
    Leaves s conn t ↔ s.handlers.onClientRm = true := by
  have hw := watched hs
  obtain ⟨fd, entry, addr, hl, hd, hrec, hown⟩ := hw.client hp
  have hgone : Gone flags := by
    unfold Gone
    by_contra hnone
    simp only [not_or, Bool.not_eq_true] at hnone
    exact hone (by simp [hnone.1, hnone.2.1, hnone.2.2])
  cases hst with
  | @dispatch _ report rest' hrun hp' hf =>
    rw [hp] at hp'
    cases hp'
    obtain ⟨hnot, acts, -, hr⟩ | ⟨hrm, -, hr⟩ :=
      handle_client_cases env flags hrun hw.sound.clientHandlers hrec hown
    · refine iff_of_false (fun hleaves => hleaves.gone ?_) (fun hrm => hnot ⟨hrm, hgone⟩)
      rw [hr]
      exact ⟨fd, entry, hl, hd⟩
    · have hleaves := hr.leaves hw.sound hl hd hrec
      exact iff_of_true ⟨hleaves.gone, hleaves.torn, hleaves.others⟩ hrm

end Leaving

/-! ### Clients that are forgotten -/

/-- A connection that the kernel registers is accounted for. -/
theorem accounted_iff_visit :
    (∀ τ ∈ visit ⟨true, false, true, true, false, false⟩, τ.after.Accounted) ↔
      ∀ τ ∈ visit ⟨true, false, true, true, false, false⟩, Registers τ.before τ.action :=
  accounted_iff listening_init (visit_run _)

/-- A client connects, and the kernel refuses to register it. -/
def refusing : Env Unit := { connecting with
  faults := fun op => if op = .add then some (ascii "No space left on device") else none }

def unregistered : Server Unit := { handle refusing knocked (none, readable) with pending := [] }

theorem unregistered_step : (serving Unit).step knocked (.dispatch refusing) unregistered := by
  refine .dispatch rfl rfl ⟨?_, nofun⟩
  rintro fd h ⟨⟩
  decide

/-- A connection that the kernel refuses to register is neither closed nor registered. -/
theorem refused_forgotten : ¬ ∀ s : Server Unit, (serving Unit).Reachable s → s.Accounted := by
  intro h
  have hlog : unregistered.log = [.accepted 0 5] := rfl
  have hreach := ((System.Reachable.of_init listening_init).step knocked_step).step
    unregistered_step
  obtain hclosed | ⟨entry, hl, -⟩ := (h _ hreach).kept 0 5 (by simp [hlog])
  · simp [hlog] at hclosed
  · have hnone : unregistered.mux.epoll.interest.lookup 5 = none := rfl
    rw [hnone] at hl
    cases hl

/-- A client that hangs up leaves a server with `on_client_rm`. -/
theorem hung_up_leaves_iff_visit :
    Leaves (leaving ⟨true, false, true, true, false, false⟩) 0
        (left ⟨true, false, true, true, false, false⟩) ↔
      (leaving ⟨true, false, true, true, false, false⟩).handlers.onClientRm = true :=
  hung_up_leaves_iff (leaving_reachable _) rfl (by decide) (left_step _)

/-- A server without `on_client_rm`, whose client hung up. -/
def mute : Server Unit := { listening with
  handlers := ⟨true, false, true, false⟩
  clientHandlers := cfg ⟨true, false, true, false⟩ noHandlers }

def muteKnocked : Server Unit := { mute with pending := [(none, readable)] }

def muteConnected : Server Unit :=
  { handle connecting muteKnocked (none, readable) with pending := [] }

def muteLeaving : Server Unit :=
  { muteConnected with pending := [(some 0, ⟨false, false, true, true, false, false⟩)] }

theorem muteLeaving_reachable : (serving Unit).Reachable muteLeaving := by
  have hinit : (serving Unit).init mute := ⟨rfl, rfl, rfl, rfl, listening_init.2.2.2.2⟩
  have hknocked : (serving Unit).step mute (.wait [(none, readable)]) muteKnocked :=
    .wait rfl rfl (by simp) (by simp)
  have hconnected : (serving Unit).step muteKnocked (.dispatch connecting) muteConnected := by
    refine .dispatch rfl rfl ⟨?_, nofun⟩
    rintro fd h ⟨⟩
    decide
  have hreg : muteConnected.Registered 0 := ⟨5, _, rfl, rfl⟩
  have hleaving : (serving Unit).step muteConnected
      (.wait [(some 0, ⟨false, false, true, true, false, false⟩)]) muteLeaving :=
    .wait rfl rfl (by simpa using hreg) (by simp)
  exact (((System.Reachable.of_init hinit).step hknocked).step hconnected).step hleaving

/-- Without `on_client_rm`, a client that hangs up stays registered. -/
theorem hung_up_stays : ¬ ∀ (s t : Server Unit) (env : Env Unit) (conn : Nat)
    (flags : EpollFlags) (rest : List (Option Nat × EpollFlags)), (serving Unit).Reachable s →
    s.pending = (some conn, flags) :: rest → (flags.rdhup || flags.hup) ≠ flags.err →
    (serving Unit).step s (.dispatch env) t → Leaves s conn t := by
  intro h
  have hstep : (serving Unit).step muteLeaving (.dispatch quiet) _ :=
    .dispatch rfl rfl ⟨by simp [quiet], nofun⟩
  have hleaves := h _ _ _ 0 _ _ muteLeaving_reachable rfl (by decide) hstep
  exact hleaves.gone ⟨5, _, rfl, rfl⟩

end Server
end Libae
