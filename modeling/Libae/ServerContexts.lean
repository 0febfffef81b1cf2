import Libae.ServerTeardown

/-! # Whose context a callback gets

`ae_server_on_client_read` and `ae_server_on_client_write` know their client by a pointer
that the kernel keeps.  The descriptor comes from the record that it points to and the
user's context from the pair that the record points to, whose address may have been that of
an earlier pair.

The history of a run is the list of its clients (`clients`), each with the descriptor of its
connection and the context that `on_client_add` stored for it.  The invariant (`Knows`) is that
the record and the pair of a registered client are those of its entry in the list, and that
nothing was torn down of it.  It follows that a call is for the client that is ready, and is
made before its teardown (`calls_addressed`), for every table of handlers.
-/
namespace Libae
open Runs Fallible

/-- A client: its connection, and what `on_client_add` stored for it. -/
structure Client (X : Type) where
  conn : Nat
  fd : Int
  ctx : Option X

namespace Server
variable {X : Type}

/-! ## The clients of a run -/

/-- The client that `ae_server_on_server_read` adds; its context is `NULL` without an
`on_client_add`. -/
def Env.client (env : Env X) (s : Server X) : Option (Client X) :=
  match env.accept with
  | .error _ => none
  | .ok fd =>
    if s.handlers.onClientAdd ∧ ¬ env.wanted then none
    else some ⟨s.records.length, fd, if s.handlers.onClientAdd then env.clientCtx else none⟩

/-- The client that a step adds. -/
def added (s : Server X) : Action X → Option (Client X)
  | .dispatch env =>
    match s.pending with
    | (none, flags) :: _ => if flags.inp then Env.client env s else none
    | _ => none
  | .wait _ | .others _ => none

/-- The clients that were added along a run, in order. -/
def clients (τs : List (Transition (Server X) (Action X))) : List (Client X) :=
  τs.filterMap (fun τ => added τ.before τ.action)

/-- The client that `on_client_read` or `on_client_write` is called with. -/
def called : Act X → Option (Client X)
  | .onClientRead conn ctx fd => some ⟨conn, fd, ctx⟩
  | .onClientWrite conn ctx fd => some ⟨conn, fd, ctx⟩
  | _ => none

/-- The report has the readiness that a call is made for. -/
def Causes (flags : EpollFlags) : Act X → Prop
  | .onClientRead _ _ _ => flags.inp
  | .onClientWrite _ _ _ => flags.out
  | _ => False

/-- **A call is for its own client.**  After `earlier`, the step `τ` writes `said` to the log and
then calls the user about `c`: a client added before, which is the one that was reported ready
and is registered with its descriptor, and of which nothing has been torn down. -/
structure Addressed (earlier : List (Transition (Server X) (Action X)))
    (τ : Transition (Server X) (Action X)) (said : List (Act X)) (act : Act X) (c : Client X) :
    Prop where
  caused : ∃ env flags rest, τ.action = .dispatch env ∧
    τ.before.pending = (some c.conn, flags) :: rest ∧ Causes flags act
  registered : ∃ entry, τ.before.mux.epoll.interest.lookup c.fd = some entry ∧
    entry.data = some c.conn
  added : c ∈ clients earlier
  untouched : Untouched c.conn (τ.before.log ++ said)

/-- The log of a step grows, and each call that is new is for its own client. -/
structure Attentive (earlier : List (Transition (Server X) (Action X)))
    (τ : Transition (Server X) (Action X)) : Prop where
  grows : τ.before.log <+: τ.after.log
  addressed : ∀ said act rest c, τ.after.log = τ.before.log ++ (said ++ act :: rest) →
    called act = some c → Addressed earlier τ said act c

theorem clients_snoc (τs : List (Transition (Server X) (Action X)))
    (τ : Transition (Server X) (Action X)) :
    clients (τs ++ [τ]) = clients τs ++ (added τ.before τ.action).toList := by
  rw [clients, List.filterMap_append]
  cases h : added τ.before τ.action <;> simp [clients, h]

/-! ## The invariant -/

/-- What is known of the clients `cs` that were added before. -/
structure Knows (cs : List (Client X)) (s : Server X) : Prop where
  contexts : ∀ fd entry conn addr handlers ctx, s.mux.epoll.interest.lookup fd = some entry →
    entry.data = some conn → s.records[conn]? = some (some ⟨fd, .pair conn addr, handlers⟩) →
    s.pairs addr = some ⟨conn, true, ctx⟩ → ⟨conn, fd, ctx⟩ ∈ cs
  untouched : ∀ conn, s.Registered conn → Untouched conn s.log
  future : ∀ conn, s.records.length ≤ conn → Untouched conn s.log
  numbered : ∀ c ∈ cs, c.conn < s.records.length
  nodup : (cs.map Client.conn).Nodup

theorem conn_of_removes {act : Act X} {conn : Nat} (h : removes act = some conn) :
    act.conn = conn := by
  cases act with
  | onClientRm => exact Option.some.inj h
  | _ => cases h

theorem conn_of_closes {act : Act X} {conn : Nat} (h : closes act = some conn) :
    act.conn = conn := by
  cases act with
  | closed => exact Option.some.inj h
  | _ => cases h

theorem conn_of_frees {act : Act X} {conn : Nat} (h : frees act = some conn) :
    act.conn = conn := by
  cases act with
  | freed => exact Option.some.inj h
  | _ => cases h

/-- Acts of other connections. -/
theorem Untouched.others {log acts : List (Act X)} {conn : Nat} (hu : Untouched conn log)
    (hacts : ∀ act ∈ acts, act.conn ≠ conn) : Untouched conn (log ++ acts) := by
  have hnot : ∀ f : Act X → Option Nat, (∀ act c, f act = some c → act.conn = c) →
      conn ∉ acts.filterMap f := by
    intro f hf hmem
    obtain ⟨act, hact, heq⟩ := List.mem_filterMap.mp hmem
    exact hacts act hact (hf act conn heq)
  refine ⟨?_, ?_, ?_⟩ <;> rw [List.filterMap_append, List.mem_append, not_or]
  · exact ⟨hu.removed, hnot removes (fun _ _ => conn_of_removes)⟩
  · exact ⟨hu.closed, hnot closes (fun _ _ => conn_of_closes)⟩
  · exact ⟨hu.freed, hnot frees (fun _ _ => conn_of_frees)⟩

section Knows
variable {cs : List (Client X)} {s t : Server X} {fd : Int} {conn addr : Nat}

theorem knows_init (h : (serving X).init s) : Knows [] s := by
  obtain ⟨-, -, hlog, -, hnone⟩ := h
  have hu : ∀ conn, Untouched conn s.log := by
    intro conn
    constructor <;> simp [hlog]
  exact ⟨fun fd entry conn _ _ _ hl hd => absurd ⟨fd, entry, hl, hd⟩ (hnone conn),
    fun conn _ => hu conn, fun conn _ => hu conn, by simp, by simp⟩

/-- What is known of the clients does not depend on what is pending, nor on what other parts of
the program register. -/
theorem Knows.of_eq (hs : Knows cs s) (hlog : t.log = s.log) (hrecords : t.records = s.records)
    (hpairs : t.pairs = s.pairs)
    (hint : ∀ fd entry conn, entry.data = some conn →
      t.mux.epoll.interest.lookup fd = some entry → s.mux.epoll.interest.lookup fd = some entry) :
    Knows cs t := by
  refine ⟨?_, ?_, ?_, ?_, hs.nodup⟩
  · intro fd entry conn addr handlers ctx hl hd hrec hp
    rw [hrecords] at hrec
    rw [hpairs] at hp
    exact hs.contexts fd entry conn addr handlers ctx (hint fd entry conn hd hl) hd hrec hp
  · rintro conn ⟨fd, entry, hl, hd⟩
    rw [hlog]
    exact hs.untouched conn ⟨fd, entry, hint fd entry conn hd hl, hd⟩
  · rw [hlog, hrecords]
    exact hs.future
  · rw [hrecords]
    exact hs.numbered

/-- **A client is talked about.** -/
theorem Knows.note (hs : Knows cs s) {acts : List (Act X)} (hq : ∀ act ∈ acts, Quiet act) :
    Knows cs (s.note acts) :=
  ⟨hs.contexts, fun conn hreg => (hs.untouched conn hreg).quiet hq,
    fun conn hle => (hs.future conn hle).quiet hq, hs.numbered, hs.nodup⟩

/-- **A client is gone.** -/
theorem Knows.departed (hs : Knows cs s) (hsound : s.Sound) {entry : EpollEvent (Option Nat)}
    (hl : s.mux.epoll.interest.lookup fd = some entry) (hd : entry.data = some conn)
    (hrec : s.records[conn]? = some (some ⟨fd, .pair conn addr, some s.clientHandlers⟩))
    (ht : Departed s fd conn addr t) : Knows cs t := by
  obtain ⟨acts, hlog, hof, -⟩ := ht.log
  -- who is still registered was registered before, and is another client
  have hbefore : ∀ {x entry' other}, t.mux.epoll.interest.lookup x = some entry' →
      entry'.data = some other →
      s.mux.epoll.interest.lookup x = some entry' ∧ other ≠ conn := by
    intro x entry' other hl' hd'
    obtain ⟨hx, hold⟩ := ht.lookup_cases hl'
    refine ⟨hold, ?_⟩
    rintro rfl
    exact hx (hsound.fd_eq hrec hold hd')
  have hother : ∀ {other}, other ≠ conn → Untouched other s.log → Untouched other t.log := by
    intro other hne hu
    rw [hlog]
    exact hu.others (fun act h => (hof act h).1 ▸ hne.symm)
  refine ⟨?_, ?_, ?_, ?_, hs.nodup⟩
  · intro x entry' other a handlers ctx hl' hd' hrec' hp
    rw [ht.records] at hrec'
    -- the pair that was freed is not live
    rw [ht.pairs a ?_] at hp
    · exact hs.contexts x entry' other a handlers ctx (hbefore hl' hd').1 hd' hrec' hp
    · rintro rfl
      obtain ⟨pair, hfreed, -, hlive⟩ := ht.freed
      rw [hfreed] at hp
      cases hp
      cases hlive
  · rintro other ⟨x, entry', hl', hd'⟩
    obtain ⟨hl'', hne⟩ := hbefore hl' hd'
    exact hother hne (hs.untouched other ⟨x, entry', hl'', hd'⟩)
  · intro other hle
    rw [ht.records] at hle
    have hlt := hsound.conn_lt hl hd
    exact hother (by omega) (hs.future other hle)
  · rw [ht.records]
    exact hs.numbered

/-- **A connection is rejected.** -/
theorem Knows.rejected (hs : Knows cs s) (hsound : s.Sound) (ht : Rejected s fd t) :
    Knows cs t := by
  have hother : ∀ {c}, c ≠ s.records.length → Untouched c s.log → Untouched c t.log := by
    intro c hne hu
    rw [ht.log]
    exact hu.append hne (once_rejected fd)
  refine ⟨?_, ?_, ?_, ?_, hs.nodup⟩
  · intro x entry c a handlers ctx hl hd hrec hp
    rw [ht.lookup] at hl
    rw [ht.records, List.getElem?_append_left (hsound.conn_lt hl hd)] at hrec
    rw [ht.pairs] at hp
    exact hs.contexts x entry c a handlers ctx hl hd hrec hp
  · rintro c ⟨x, entry, hl, hd⟩
    rw [ht.lookup] at hl
    exact hother (hsound.conn_lt hl hd).ne (hs.untouched c ⟨x, entry, hl, hd⟩)
  · intro c hle
    rw [ht.records, List.length_append, List.length_singleton] at hle
    exact hother (by omega) (hs.future c (by omega))
  · intro c hc
    rw [ht.records, List.length_append]
    exact Nat.lt_add_right _ (hs.numbered c hc)

/-- **A client is added**, and its pair holds the context stored for it. -/
theorem Knows.welcomed (hs : Knows cs s) (hsound : s.Sound) {env : Env X} {ctx : Option X}
    (ht : Welcomed env s fd t)
    (hpairs : t.pairs = Function.update s.pairs env.pair (some ⟨s.records.length, true, ctx⟩)) :
    Knows (cs ++ [⟨s.records.length, fd, ctx⟩]) t := by
  have hq : ∀ act ∈ ([.accepted s.records.length fd] : List (Act X)), Quiet act := by
    simp [Quiet, removes, closes, frees]
  refine ⟨?_, ?_, ?_, ?_, ?_⟩
  · intro x entry c a handlers ctx' hl hd hrec hp
    rw [hpairs] at hp
    obtain ⟨rfl, rfl, -⟩ | hl' := ht.lookup_cases hl hd
    · rw [ht.record_new] at hrec
      cases hrec
      rw [Function.update_self] at hp
      cases hp
      exact List.mem_append_right _ List.mem_cons_self
    · have hlt := hsound.conn_lt hl' hd
      rw [ht.record_old hlt] at hrec
      rw [Function.update_of_ne ?_] at hp
      · exact List.mem_append_left _ (hs.contexts x entry c a handlers ctx' hl' hd hrec hp)
      · -- the pair of the new client is not that of an old one
        rintro rfl
        rw [Function.update_self] at hp
        cases hp
        exact Nat.lt_irrefl _ hlt
  · rintro c ⟨x, entry, hl, hd⟩
    rw [ht.log]
    obtain ⟨-, rfl, -⟩ | hl' := ht.lookup_cases hl hd
    · exact (hs.future _ (le_refl _)).quiet hq
    · exact (hs.untouched c ⟨x, entry, hl', hd⟩).quiet hq
  · intro c hle
    rw [ht.records, List.length_append, List.length_singleton] at hle
    rw [ht.log]
    exact (hs.future c (by omega)).quiet hq
  · intro c hc
    rw [ht.records, List.length_append, List.length_singleton]
    rcases List.mem_append.mp hc with hc | hc
    · exact Nat.lt_succ_of_lt (hs.numbered c hc)
    · rw [List.mem_singleton.mp hc]
      exact Nat.lt_succ_self _
  · rw [List.map_append, List.map_singleton]
    refine nodup_append_singleton hs.nodup (fun hmem => ?_) (.refl _)
    obtain ⟨c, hc, heq⟩ := List.mem_map.mp hmem
    exact (hs.numbered c hc).ne heq

end Knows

/-! ## A report is dispatched -/

section Dispatch
variable {cs : List (Client X)} {s t : Server X} {fd : Int} {conn addr : Nat} {env : Env X}
  {flags : EpollFlags}

/-- What a report of the listening socket adds is known. -/
theorem Knows.server (hs : Knows cs s) (hsound : s.Sound) (hf : Env.Fresh env s) :
    Knows (cs ++ (Env.client env s).toList) (onServerRead env s) := by
  obtain ⟨hnone, hr⟩ | ⟨fd, haccept, hreject, hr⟩ | ⟨fd, haccept, hwanted, hr⟩ :=
    onServerRead_cases hf
  · have hclient : Env.client env s = none := by
      cases ha : env.accept with
      | error text => simp [Env.client, ha]
      | ok fd => exact absurd ha (hnone fd)
    rw [hr, hclient, Option.toList_none, List.append_nil]
    exact hs
  · have hclient : Env.client env s = none := by
      rw [Wanted, Classical.not_imp] at hreject
      simp [Env.client, haccept, hreject.1, hreject.2]
    rw [hclient, Option.toList_none, List.append_nil]
    exact hs.rejected hsound hr
  · have hnot : ¬ (s.handlers.onClientAdd = true ∧ ¬ env.wanted = true) :=
      fun h => h.2 (hwanted h.1)
    have hclient : Env.client env s = some ⟨s.records.length, fd,
        if s.handlers.onClientAdd then env.clientCtx else none⟩ := by
      simp only [Env.client, haccept, hnot, if_false]
    have hpairs : (onServerRead env s).pairs = Function.update s.pairs env.pair
        (some ⟨s.records.length, true,
          if s.handlers.onClientAdd then env.clientCtx else none⟩) := by
      unfold onServerRead
      rw [haccept]
      exact congrArg Server.pairs (if_neg hnot)
    rw [hclient, Option.toList_some]
    exact hs.welcomed hsound hr hpairs

/-- Acts that are no calls of the user about a ready client. -/
def Silent (acts : List (Act X)) : Prop := ∀ act ∈ acts, called act = none

theorem onServerRead_log (hf : Env.Fresh env s) :
    ∃ acts, (onServerRead env s).log = s.log ++ acts ∧ Silent acts := by
  obtain ⟨-, hr⟩ | ⟨fd, -, -, hr⟩ | ⟨fd, -, -, hr⟩ := onServerRead_cases hf
  · exact ⟨[], by simp [hr], by simp [Silent]⟩
  · exact ⟨_, hr.log, by simp [Silent, called]⟩
  · exact ⟨_, hr.log, by simp [Silent, called]⟩

theorem clientRm_log (env : Env X) (s : Server X) (fd : Int) (conn addr : Nat) :
    ∃ acts, (clientRm env s fd conn addr).log = s.log ++ acts ∧ Silent acts := by
  by_cases h : s.validPair conn addr = true ∧ s.handlers.onClientRm = true
  · exact ⟨_, (clientRm_tornDown env h.1 h.2).log, by simp [Silent, teardown, called]⟩
  · exact ⟨_, congrArg Server.log (clientRm_kept env h), by simp [Silent, called]⟩

theorem iterate_clientRm_log (env : Env X) (s : Server X) (fd : Int) (conn addr n : Nat) :
    ∃ acts, ((fun s' => clientRm env s' fd conn addr)^[n] s).log = s.log ++ acts ∧
      Silent acts := by
  induction n with
  | zero => exact ⟨[], by simp, by simp [Silent]⟩
  | succ n ih =>
    obtain ⟨acts, hlog, hsilent⟩ := ih
    rw [Function.iterate_succ_apply']
    obtain ⟨acts', hlog', hsilent'⟩ :=
      clientRm_log env ((fun s' => clientRm env s' fd conn addr)^[n] s) fd conn addr
    refine ⟨acts ++ acts', ?_, List.forall_mem_append.mpr ⟨hsilent, hsilent'⟩⟩
    rw [hlog', hlog, List.append_assoc]

/-- The user is called with the descriptor of the record and the context of the pair, for the
readiness reported. -/
theorem called_exchange {act : Act X} {c : Client X} (hact : act ∈ s.exchange flags fd conn addr)
    (hcall : called act = some c) : c = ⟨conn, fd, s.clientCtx addr⟩ ∧ Causes flags act := by
  unfold exchange at hact
  rcases List.mem_append.mp hact with h | h <;> split at h <;>
    simp only [List.mem_cons, List.not_mem_nil, or_false] at h
  next hflag =>
    rcases h with rfl | rfl
    · cases hcall
    · exact ⟨(Option.some.inj hcall).symm, (Bool.and_eq_true_iff.mp hflag).1⟩
  next hflag =>
    rcases h with rfl | rfl
    · cases hcall
    · exact ⟨(Option.some.inj hcall).symm, (Bool.and_eq_true_iff.mp hflag).1⟩

/-- What a report of a client leaves is known. -/
theorem Knows.client (hs : Knows cs s) (hrun : s.running = true) (hsound : s.Sound)
    {entry : EpollEvent (Option Nat)} (hl : s.mux.epoll.interest.lookup fd = some entry)
    (hd : entry.data = some conn)
    (hrec : s.records[conn]? = some (some ⟨fd, .pair conn addr, some s.clientHandlers⟩))
    (hown : s.Owns conn addr) : Knows cs (handle env s (some conn, flags)) := by
  have hq := quiet_exchange flags s fd conn addr
  obtain ⟨hnot, -⟩ | ⟨-, -, hr⟩ :=
    handle_client_cases env flags hrun hsound.clientHandlers hrec hown
  · rw [handle_client_rm env flags hrun hsound.clientHandlers hrec hown]
    by_cases hrm : s.handlers.onClientRm = true
    · have hzero : removals flags = 0 := by
        have hgone : ¬ Gone flags := fun h => hnot ⟨hrm, h⟩
        rw [← removals_pos] at hgone
        omega
      rw [hzero]
      exact hs.note hq
    · have hkept : ¬ (s.note (s.exchange flags fd conn addr)).handlers.onClientRm = true := hrm
      obtain ⟨acts, hacts, hr⟩ := iterate_clientRm_kept env fd conn addr hkept (removals flags)
      rw [hr, note_note]
      refine hs.note (List.forall_mem_append.mpr ⟨hq, fun act hact => ?_⟩)
      have hvalid : (s.note (s.exchange flags fd conn addr)).validPair conn addr = true :=
        hown.valid
      rw [hacts act hact, hvalid]
      simp [Quiet, removes, closes, frees]
  · exact hs.departed hsound hl hd hrec hr

end Dispatch

/-! ## Runs -/

section Runs
variable {s t : Server X} {earlier : List (Transition (Server X) (Action X))}
  {τ : Transition (Server X) (Action X)}

/-- A step that calls nobody. -/
theorem attentive_silent {acts : List (Act X)} (hlog : τ.after.log = τ.before.log ++ acts)
    (hsilent : Silent acts) : Attentive earlier τ := by
  refine ⟨⟨acts, hlog.symm⟩, fun said act rest c heq hcall => ?_⟩
  rw [hlog, List.append_cancel_left_eq] at heq
  have hnone := hsilent act (heq ▸ List.mem_append_right _ List.mem_cons_self)
  rw [hnone] at hcall
  cases hcall

/-- **A report of a client** calls the user for that client. -/
theorem attentive_client {conn : Nat} {flags : EpollFlags}
    {rest : List (Option Nat × EpollFlags)} {env : Env X} (hrun : s.running = true) (hw : s.Watched)
    (hk : Knows (clients earlier) s) (hp : s.pending = (some conn, flags) :: rest)
    (hlog : t.log = (handle env s (some conn, flags)).log) :
    Attentive earlier ⟨s, .dispatch env, t⟩ := by
  obtain ⟨fd, entry, addr, hl, hd, hrec, hown⟩ := hw.client hp
  rw [handle_client_rm env flags hrun hw.sound.clientHandlers hrec hown] at hlog
  obtain ⟨acts, hacts, hsilent⟩ :=
    iterate_clientRm_log env (s.note (s.exchange flags fd conn addr)) fd conn addr (removals flags)
  have hwrites : t.log = s.log ++ (s.exchange flags fd conn addr ++ acts) := by
    rw [hlog, hacts, note, List.append_assoc]
  refine ⟨⟨_, hwrites.symm⟩, fun said act more c heq hcall => ?_⟩
  rw [hwrites, List.append_cancel_left_eq] at heq
  -- the call is one of the exchange, and what was said before it is a part of it
  obtain ⟨later, hexchange⟩ : ∃ later, s.exchange flags fd conn addr = said ++ act :: later := by
    have hnot : act ∉ acts := by
      intro hmem
      rw [hsilent act hmem] at hcall
      cases hcall
    obtain ⟨mid, hsaid, hmid⟩ | ⟨mid, hmid, hrest⟩ := List.append_eq_append_iff.mp heq
    · exact absurd (hmid ▸ List.mem_append_right _ List.mem_cons_self) hnot
    · cases mid with
      | nil =>
        rw [List.nil_append] at hrest
        exact absurd (hrest ▸ List.mem_cons_self) hnot
      | cons first later =>
        cases hrest
        exact ⟨later, hmid⟩
  have hact : act ∈ s.exchange flags fd conn addr :=
    hexchange ▸ List.mem_append_right _ List.mem_cons_self
  obtain ⟨rfl, hcauses⟩ := called_exchange hact hcall
  obtain ⟨ctx, hpair⟩ := hown
  have hctx : s.clientCtx addr = ctx := by simp [clientCtx, hpair]
  refine ⟨⟨env, flags, rest, rfl, hp, hcauses⟩, ⟨entry, hl, hd⟩, ?_, ?_⟩
  · rw [hctx]
    exact hk.contexts fd entry conn addr _ ctx hl hd hrec hpair
  · refine (hk.untouched conn ⟨fd, entry, hl, hd⟩).quiet (fun a ha => ?_)
    apply quiet_exchange flags s fd conn addr a
    rw [hexchange]
    exact List.mem_append_left _ ha

/-- **One step** keeps what is known. -/
theorem Knows.step (hw : s.Watched) (hk : Knows (clients earlier) s) {a : Action X}
    (hst : Step s a t) : Knows (clients (earlier ++ [⟨s, a, t⟩])) t := by
  rw [clients_snoc]
  cases hst with
  | wait _ hempty hreg hnodup =>
    rw [added, Option.toList_none, List.append_nil]
    exact hk.of_eq rfl rfl rfl (fun _ _ _ _ h => h)
  | others _ hsame =>
    rw [added, Option.toList_none, List.append_nil]
    exact hk.of_eq rfl rfl rfl (fun fd entry conn hd h => (hsame fd entry conn hd).mp h)
  | @dispatch env report rest hrun hp hf =>
    obtain ⟨ptr, flags⟩ := report
    suffices h : Knows (clients earlier ++ (added s (.dispatch env)).toList)
        (handle env s (ptr, flags)) from h.of_eq rfl rfl rfl (fun _ _ _ _ h => h)
    cases ptr with
    | none =>
      have hadded : added s (.dispatch env) = if flags.inp then Env.client env s else none := by
        simp only [added, hp]
      rw [handle_server env flags hrun, hadded]
      by_cases hinp : flags.inp = true
      · rw [if_pos hinp, if_pos hinp]
        exact hk.server hw.sound hf
      · rw [if_neg hinp, if_neg hinp, Option.toList_none, List.append_nil]
        exact hk
    | some conn =>
      have hadded : added s (.dispatch env) = none := by
        simp only [added, hp]
      obtain ⟨fd, entry, addr, hl, hd, hrec, hown⟩ := hw.client hp
      rw [hadded, Option.toList_none, List.append_nil]
      exact hk.client hrun hw.sound hl hd hrec hown

/-- **One step** calls the user about the clients that are ready. -/
theorem Knows.attentive (hw : s.Watched) (hk : Knows (clients earlier) s) {a : Action X}
    (hst : Step s a t) : Attentive earlier ⟨s, a, t⟩ := by
  cases hst with
  | wait | others => exact attentive_silent (List.append_nil _).symm (by simp [Silent])
  | @dispatch env report rest hrun hp hf =>
    obtain ⟨ptr, flags⟩ := report
    cases ptr with
    | none =>
      have hr := handle_server env flags hrun
      by_cases hinp : flags.inp = true
      · obtain ⟨acts, hlog, hsilent⟩ := onServerRead_log hf
        rw [if_pos hinp] at hr
        exact attentive_silent ((congrArg Server.log hr).trans hlog) hsilent
      · rw [if_neg hinp] at hr
        exact attentive_silent ((congrArg Server.log hr).trans (List.append_nil _).symm)
          (by simp [Silent])
    | some conn => exact attentive_client hrun hw hk hp rfl

/-- **Client callbacks get their own client's context.**  Along every run, the clients are
different connections, and each call of `on_client_read` and `on_client_write` gets the
descriptor and the context of the client whose readiness caused it, before the client is torn
down. -/
theorem calls_addressed {τs : List (Transition (Server X) (Action X))}
    (hinit : (serving X).init s) (hr : (serving X).Run s τs t) :
    ((clients τs).map Client.conn).Nodup ∧
      ∀ earlier τ later, τs = earlier ++ τ :: later → Attentive earlier τ := by
  obtain ⟨⟨-, hk⟩, hattentive⟩ := hr.history
    (I := fun τs s => s.Watched ∧ Knows (clients τs) s) (Q := Attentive)
    (fun _ _ _ _ ⟨hw, hk⟩ hst => ⟨hw.step hst, hk.step hw hst⟩)
    (fun _ _ _ _ ⟨hw, hk⟩ hst => hk.attentive hw hst) ⟨watched_init hinit, knows_init hinit⟩
  exact ⟨hk.nodup, hattentive⟩

end Runs

/-! ### A client in the place of another -/

/-- `epoll_wait` reports one client, or the listening socket. -/
def told (s : Server Unit) (report : Option Nat × EpollFlags) : Server Unit :=
  { s with pending := [report] }

/-- The report is dispatched. -/
def hears (s : Server Unit) (report : Option Nat × EpollFlags) (env : Env Unit) : Server Unit :=
  { handle env (s.told report) report with pending := [] }

def turn (s : Server Unit) (report : Option Nat × EpollFlags) (env : Env Unit) :
    List (Transition (Server Unit) (Action Unit)) :=
  [⟨s, .wait [report], s.told report⟩, ⟨s.told report, .dispatch env, s.hears report env⟩]

theorem turn_run {s : Server Unit} {report : Option Nat × EpollFlags} {env : Env Unit}
    (hrun : s.running = true) (hidle : s.pending = [])
    (hreg : ∀ conn, report.1 = some conn → s.Registered conn) (hf : Env.Fresh env s) :
    (serving Unit).Run s (turn s report env) (s.hears report env) := by
  have hwait : (serving Unit).step s (.wait [report]) (s.told report) := by
    refine .wait hrun hidle (fun conn flags hmem => hreg conn ?_) (List.nodup_singleton _)
    exact (congrArg Prod.fst (List.mem_singleton.mp hmem)).symm
  have hdispatch : (serving Unit).step (s.told report) (.dispatch env) (s.hears report env) :=
    .dispatch hrun rfl hf
  exact (System.Run.single hwait).snoc hdispatch

/-- A client connects with descriptor 5, and gets no context. -/
def nameless : Env Unit := { connecting with clientCtx := none }

def hosting : Server Unit := listening.hears (none, readable) nameless

/-- It hangs up, -/
def vacated : Server Unit := hosting.hears (some 0, ⟨false, false, true, true, false, false⟩) quiet

/-- and another client gets its descriptor and the address of its pair. -/
def rehosting : Server Unit := vacated.hears (none, readable) connecting

/-- What the kernel keeps for a client. -/
def kept (conn : Nat) : EpollEvent (Option Nat) :=
  ⟨⟨true, false, true, false, false, false⟩, some conn⟩

theorem hosting_registered : hosting.Registered 0 := ⟨5, kept 0, rfl, rfl⟩

theorem rehosting_registered : rehosting.Registered 1 := ⟨5, kept 1, rfl, rfl⟩

theorem quiet_fresh {s : Server Unit} (h : s.pairs 96 = none) : Env.Fresh quiet s :=
  ⟨by simp [quiet],
    fun _ hp => absurd (h.symm.trans hp) (Option.some_ne_none _).symm⟩

theorem rehosting_run : (serving Unit).Run listening
    (turn listening (none, readable) nameless ++
      turn hosting (some 0, ⟨false, false, true, true, false, false⟩) quiet ++
      turn vacated (none, readable) connecting) rehosting := by
  have hfirst : Env.Fresh nameless listening := by
    refine ⟨?_, fun pair hp => absurd hp (Option.some_ne_none pair).symm⟩
    rintro fd h ⟨⟩
    decide
  have hsecond : Env.Fresh connecting vacated := by
    have hfreed : vacated.pairs 64 = some ⟨0, false, none⟩ := rfl
    refine ⟨?_, fun pair hp => ?_⟩
    · rintro fd h ⟨⟩
      decide
    · rw [← Option.some.inj (hfreed.symm.trans hp)]
  refine ((turn_run rfl rfl ?_ hfirst).append (turn_run rfl rfl ?_ (quiet_fresh rfl))).append
    (turn_run rfl rfl ?_ hsecond)
  · exact fun conn h => absurd h (Option.some_ne_none conn).symm
  · exact fun conn h => Option.some.inj h ▸ hosting_registered
  · exact fun conn h => absurd h (Option.some_ne_none conn).symm

/-- The second client is read with what was stored for it. -/
theorem calls_addressed_visit :
    Addressed (turn listening (none, readable) nameless ++
        turn hosting (some 0, ⟨false, false, true, true, false, false⟩) quiet ++
        turn vacated (none, readable) connecting ++
        [⟨rehosting, .wait [(some 1, readable)], rehosting.told (some 1, readable)⟩])
      ⟨rehosting.told (some 1, readable), .dispatch quiet,
        rehosting.hears (some 1, readable) quiet⟩
      [.pairRead 1 true] (.onClientRead 1 (some ()) 5) ⟨1, 5, some ()⟩ := by
  have hturn : (serving Unit).Run rehosting (turn rehosting (some 1, readable) quiet) _ :=
    turn_run rfl rfl (fun conn h => Option.some.inj h ▸ rehosting_registered) (quiet_fresh rfl)
  exact ((calls_addressed listening_init (rehosting_run.append hturn)).2 _ _ [] rfl).addressed
    [.pairRead 1 true] _ [] _ rfl rfl

end Server
end Libae
