import Libae.ServerClients

/-! # A client is torn down once

The hangup handler and the error handler of a client both tear it down, and
`ae_mux_singlethread_handler` calls both for a report with both flags.  The second
call reads the pair that the first one has freed, and the process goes no further.

This is the only way (`torn_down_once_iff`): along a run, no connection is removed,
closed or freed twice and no freed pair is read, exactly if no report of a client
combines a hangup with `EPOLLERR`.  The invariant says of every registered client that
nothing of this has happened to it and that its pair is allocated and its own; as a
teardown takes the client out of the mux, it is not reported again.
-/
namespace Libae
open Runs Fallible

namespace Server
variable {X : Type}

/-! ## What must happen once -/

/-- The connection of a call of `on_client_rm`. -/
def removes : Act X → Option Nat
  | .onClientRm conn _ _ => some conn
  | _ => none

/-- The connection whose descriptor is closed. -/
def closes : Act X → Option Nat
  | .closed conn _ => some conn
  | _ => none

/-- The connection whose pair is freed. -/
def frees : Act X → Option Nat
  | .freed conn _ => some conn
  | _ => none

/-- No connection is removed, closed or freed twice, and no freed pair is read. -/
structure Tidy (log : List (Act X)) : Prop where
  removed : (log.filterMap removes).Nodup
  closed : (log.filterMap closes).Nodup
  freed : (log.filterMap frees).Nodup
  reads : ∀ conn, .pairRead conn false ∉ log

/-- The connection is neither removed, closed nor freed. -/
structure Untouched (conn : Nat) (log : List (Act X)) : Prop where
  removed : conn ∉ log.filterMap removes
  closed : conn ∉ log.filterMap closes
  freed : conn ∉ log.filterMap frees

/-- An act that is neither a part of a teardown nor a read of a freed pair. -/
def Quiet (act : Act X) : Prop :=
  removes act = none ∧ closes act = none ∧ frees act = none ∧ ∀ conn, act ≠ .pairRead conn false

section Log
variable {log acts : List (Act X)} {conn : Nat}

theorem filterMap_quiet {f : Act X → Option Nat} (h : ∀ act ∈ acts, f act = none) :
    (log ++ acts).filterMap f = log.filterMap f := by
  rw [List.filterMap_append, List.filterMap_eq_nil_iff.mpr h, List.append_nil]

theorem Tidy.quiet (ht : Tidy log) (hq : ∀ act ∈ acts, Quiet act) : Tidy (log ++ acts) := by
  refine ⟨?_, ?_, ?_, ?_⟩
  · rw [filterMap_quiet (fun act h => (hq act h).1)]
    exact ht.removed
  · rw [filterMap_quiet (fun act h => (hq act h).2.1)]
    exact ht.closed
  · rw [filterMap_quiet (fun act h => (hq act h).2.2.1)]
    exact ht.freed
  · intro conn hmem
    rcases List.mem_append.mp hmem with hmem | hmem
    · exact ht.reads conn hmem
    · exact (hq _ hmem).2.2.2 conn rfl

theorem Untouched.quiet (hu : Untouched conn log) (hq : ∀ act ∈ acts, Quiet act) :
    Untouched conn (log ++ acts) := by
  refine ⟨?_, ?_, ?_⟩
  · rw [filterMap_quiet (fun act h => (hq act h).1)]
    exact hu.removed
  · rw [filterMap_quiet (fun act h => (hq act h).2.1)]
    exact hu.closed
  · rw [filterMap_quiet (fun act h => (hq act h).2.2.1)]
    exact hu.freed

/-- Acts that tear a connection down at most once, and nothing else. -/
structure Once (conn : Nat) (acts : List (Act X)) : Prop where
  removed : (acts.filterMap removes).Sublist [conn]
  closed : (acts.filterMap closes).Sublist [conn]
  freed : (acts.filterMap frees).Sublist [conn]
  reads : ∀ c, .pairRead c false ∉ acts

theorem nodup_append_singleton {l l' : List Nat} (hl : l.Nodup) (hc : conn ∉ l)
    (h : l'.Sublist [conn]) : (l ++ l').Nodup := by
  refine List.nodup_append.mpr ⟨hl, h.nodup (List.nodup_singleton conn), ?_⟩
  intro a ha b hb hab
  rw [hab, List.mem_singleton.mp (h.subset hb)] at ha
  exact hc ha

theorem Tidy.append (ht : Tidy log) (hu : Untouched conn log) (ho : Once conn acts) :
    Tidy (log ++ acts) := by
  refine ⟨?_, ?_, ?_, ?_⟩
  · rw [List.filterMap_append]
    exact nodup_append_singleton ht.removed hu.removed ho.removed
  · rw [List.filterMap_append]
    exact nodup_append_singleton ht.closed hu.closed ho.closed
  · rw [List.filterMap_append]
    exact nodup_append_singleton ht.freed hu.freed ho.freed
  · intro c hmem
    rcases List.mem_append.mp hmem with hmem | hmem
    · exact ht.reads c hmem
    · exact ho.reads c hmem

theorem Untouched.append {other : Nat} (hu : Untouched other log) (hne : other ≠ conn)
    (ho : Once conn acts) : Untouched other (log ++ acts) := by
  have hnot : ∀ {l : List Nat}, l.Sublist [conn] → other ∉ l :=
    fun h hmem => hne (List.mem_singleton.mp (h.subset hmem))
  refine ⟨?_, ?_, ?_⟩ <;> rw [List.filterMap_append, List.mem_append, not_or]
  · exact ⟨hu.removed, hnot ho.removed⟩
  · exact ⟨hu.closed, hnot ho.closed⟩
  · exact ⟨hu.freed, hnot ho.freed⟩

theorem once_teardown (ctx : Option X) (fd : Int) (addr : Nat) :
    Once conn (teardown conn ctx fd addr) :=
  ⟨.refl _, .refl _, .refl _, by simp [teardown]⟩

theorem once_rejected (fd : Int) :
    Once conn ([.accepted conn fd, .closed conn fd] : List (Act X)) :=
  ⟨List.nil_sublist _, .refl _, List.nil_sublist _, by simp⟩

end Log

/-! ## The invariant -/

/-- A registered client: its record is that of its descriptor, its pair is live and its
own, and it was not torn down. -/
structure Alive (s : Server X) (conn : Nat) (fd : Int) : Prop where
  record : ∃ addr, s.records[conn]? = some (some ⟨fd, .pair conn addr, some s.clientHandlers⟩) ∧
    s.Owns conn addr
  untouched : Untouched conn s.log

/-- **The invariant of a server.** -/
structure Inv (s : Server X) : Prop where
  clientHandlers : s.clientHandlers = cfg s.handlers noHandlers
  tidy : Tidy s.log
  alive : ∀ fd entry conn, s.mux.epoll.interest.lookup fd = some entry →
    entry.data = some conn → s.Alive conn fd
  future : ∀ conn, s.records.length ≤ conn → Untouched conn s.log

/-- The invariant is kept, and so are the registrations of the clients in `P`. -/
structure Keeps (s t : Server X) (P : Nat → Prop) : Prop where
  inv : t.Inv
  handlers : t.handlers = s.handlers
  registered : ∀ conn, P conn → s.Registered conn → t.Registered conn

section Keep
variable {s t : Server X} {fd : Int} {conn addr : Nat} {entry : EpollEvent (Option Nat)}

theorem Inv.sound (hs : s.Inv) : s.Sound :=
  ⟨hs.clientHandlers, fun fd entry conn hl hd => (hs.alive fd entry conn hl hd).record⟩

/-- Beside what the clients own, the invariant is about the log. -/
theorem Inv.of_sound (ht : t.Sound) (htidy : Tidy t.log)
    (hregistered : ∀ conn, t.Registered conn → Untouched conn t.log)
    (hfuture : ∀ conn, t.records.length ≤ conn → Untouched conn t.log) : t.Inv :=
  ⟨ht.clientHandlers, htidy,
    fun fd entry conn hl hd => ⟨ht.owned fd entry conn hl hd, hregistered conn ⟨fd, entry, hl, hd⟩⟩,
    hfuture⟩

theorem Inv.untouched (hs : s.Inv) (hreg : s.Registered conn) : Untouched conn s.log := by
  obtain ⟨fd, entry, hl, hd⟩ := hreg
  exact (hs.alive fd entry conn hl hd).untouched

theorem Inv.note (hs : s.Inv) {acts : List (Act X)} (hq : ∀ act ∈ acts, Quiet act) :
    (s.note acts).Inv :=
  .of_sound (hs.sound.of_eq rfl rfl rfl rfl (fun _ _ _ _ h => h)) (hs.tidy.quiet hq)
    (fun _ hreg => (hs.untouched hreg).quiet hq) (fun conn h => (hs.future conn h).quiet hq)

/-- The invariant does not look at the pending reports, nor at what other parts of the
program register. -/
theorem Inv.of_eq (hs : s.Inv) (hhandlers : t.handlers = s.handlers)
    (hclient : t.clientHandlers = s.clientHandlers) (hlog : t.log = s.log)
    (hrecords : t.records = s.records) (hpairs : t.pairs = s.pairs)
    (hint : ∀ fd entry conn, entry.data = some conn →
      t.mux.epoll.interest.lookup fd = some entry → s.mux.epoll.interest.lookup fd = some entry) :
    t.Inv := by
  refine .of_sound (hs.sound.of_eq hhandlers hclient hrecords hpairs hint) ?_ ?_ ?_
  · rw [hlog]
    exact hs.tidy
  · rintro conn ⟨fd, entry, hl, hd⟩
    rw [hlog]
    exact hs.untouched ⟨fd, entry, hint fd entry conn hd hl, hd⟩
  · intro conn hle
    rw [hrecords] at hle
    rw [hlog]
    exact hs.future conn hle

/-- **A teardown of a registered client keeps the invariant.** -/
theorem Inv.tornDown (hs : s.Inv) (hl : s.mux.epoll.interest.lookup fd = some entry)
    (hd : entry.data = some conn)
    (hrec : s.records[conn]? = some (some ⟨fd, .pair conn addr, some s.clientHandlers⟩))
    (hown : s.Owns conn addr) (ht : TornDown s fd conn addr t)
    (hgone : Departed s fd conn addr t) : t.Inv := by
  have hlog := ht.log
  refine .of_sound (hs.sound.departed hrec hown hgone) ?_ ?_ ?_ <;> rw [hlog]
  · exact hs.tidy.append (hs.untouched ⟨fd, entry, hl, hd⟩) (once_teardown _ _ _)
  · rintro other ⟨x, entry', hl', hd'⟩
    obtain ⟨hx, hold⟩ := hgone.lookup_cases hl'
    -- the client at another descriptor is another one
    have hne : other ≠ conn := by
      rintro rfl
      exact hx (hs.sound.fd_eq hrec hold hd')
    exact (hs.untouched ⟨x, entry', hold, hd'⟩).append hne (once_teardown _ _ _)
  · intro other hle
    rw [ht.records] at hle
    have hlt := hs.sound.conn_lt hl hd
    exact (hs.future other hle).append (by omega) (once_teardown _ _ _)

end Keep

/-! ## A report is dispatched -/

section Clients
variable {s : Server X} {fd : Int} {conn addr : Nat} (env : Env X) (flags : EpollFlags)

/-- Talking about a client whose pair is live is no part of a teardown. -/
theorem quiet_exchange (s : Server X) (fd : Int) (conn addr : Nat) :
    ∀ act ∈ s.exchange flags fd conn addr, Quiet act := by
  intro act hact
  unfold exchange at hact
  rcases List.mem_append.mp hact with h | h <;> split at h <;>
    simp only [List.mem_cons, List.not_mem_nil, or_false] at h
  · rcases h with rfl | rfl <;> simp [Quiet, removes, closes, frees]
  · rcases h with rfl | rfl <;> simp [Quiet, removes, closes, frees]

/-- **A report without a doubled teardown** keeps the invariant. -/
theorem handle_client_keeps (hs : s.Inv) (hrun : s.running = true)
    (hrm : s.handlers.onClientRm = true) (hreg : s.Registered conn) (hgood : ¬ Doubled flags) :
    Keeps s (handle env s (some conn, flags)) (fun other => other ≠ conn) := by
  obtain ⟨fd, entry, hl, hd⟩ := hreg
  obtain ⟨addr, hrec, hown⟩ := (hs.alive fd entry conn hl hd).record
  have hq := quiet_exchange flags s fd conn addr
  have hh := handle_client_rm env flags hrun hs.clientHandlers hrec hown
  generalize s.exchange flags fd conn addr = acts at hq hh
  have hn : (s.note acts).Inv := hs.note hq
  have hdown : TornDown (s.note acts) fd conn addr (clientRm env (s.note acts) fd conn addr) :=
    clientRm_tornDown env hown.valid hrm
  have hgone : Departed (s.note acts) fd conn addr (clientRm env (s.note acts) fd conn addr) :=
    departed_clientRm env hown hrm
  have htorn : Keeps s (clientRm env (s.note acts) fd conn addr) (fun other => other ≠ conn) :=
    ⟨hn.tornDown hl hd hrec hown hdown hgone, hdown.handlers,
      fun other hne hr => hgone.registered hl hd hne hr⟩
  rw [hh]
  -- one of the two handlers is called, or none
  have hle := removals_le flags
  have hne : removals flags ≠ 2 := fun h => hgood ((removals_doubled flags).mp h)
  obtain hnone | hone : removals flags = 0 ∨ removals flags = 1 := by omega
  · rw [hnone]
    exact ⟨hn, rfl, fun _ _ hr => hr⟩
  · rw [hone]
    exact htorn

end Clients

/-! ## A connection is accepted -/

section Accepting
variable {s t : Server X} {env : Env X} {fd : Int}

theorem keeps_rejected (hs : s.Inv) (ht : Rejected s fd t) : Keeps s t (fun _ => True) := by
  refine ⟨.of_sound (hs.sound.rejected ht) ?_ ?_ ?_, ht.handlers, ?_⟩
  · rw [ht.log]
    exact hs.tidy.append (hs.future _ (le_refl _)) (once_rejected fd)
  · rintro conn ⟨x, entry, hl, hd⟩
    rw [ht.lookup] at hl
    have hlt := hs.sound.conn_lt hl hd
    rw [ht.log]
    exact (hs.untouched ⟨x, entry, hl, hd⟩).append (by omega) (once_rejected fd)
  · intro conn hle
    rw [ht.records, List.length_append, List.length_singleton] at hle
    rw [ht.log]
    exact (hs.future conn (by omega)).append (by omega) (once_rejected fd)
  · rintro conn - ⟨x, entry, hl, hd⟩
    exact ⟨x, entry, (ht.lookup x).trans hl, hd⟩

theorem keeps_welcomed (hs : s.Inv) (hf : Env.Fresh env s) (ht : Welcomed env s fd t) :
    Keeps s t (fun _ => True) := by
  have hq : ∀ act ∈ ([.accepted s.records.length fd] : List (Act X)), Quiet act := by
    simp [Quiet, removes, closes, frees]
  refine ⟨.of_sound (hs.sound.welcomed hf ht) ?_ ?_ ?_, ht.handlers, fun _ _ => ht.registered⟩
  · rw [ht.log]
    exact hs.tidy.quiet hq
  · rintro conn ⟨x, entry, hl, hd⟩
    rw [ht.log]
    obtain ⟨-, rfl, -⟩ | hl' := ht.lookup_cases hl hd
    · -- nothing has happened to the new client
      exact (hs.future _ (le_refl _)).quiet hq
    · exact (hs.untouched ⟨x, entry, hl', hd⟩).quiet hq
  · intro conn hle
    rw [ht.records, List.length_append, List.length_singleton] at hle
    rw [ht.log]
    exact (hs.future conn (by omega)).quiet hq

theorem onServerRead_keeps (hs : s.Inv) (hf : Env.Fresh env s) :
    Keeps s (onServerRead env s) (fun _ => True) := by
  obtain ⟨-, hr⟩ | ⟨fd, -, -, hr⟩ | ⟨fd, -, -, hr⟩ := onServerRead_cases hf
  · rw [hr]
    exact ⟨hs, rfl, fun _ _ h => h⟩
  · exact keeps_rejected hs hr
  · exact keeps_welcomed hs hf hr

end Accepting

/-! ## Runs -/

section Runs
variable {s t : Server X}

/-- Between two steps: the pending clients are registered, and different. -/
structure Served (s : Server X) : Prop where
  inv : s.Inv
  onClientRm : s.handlers.onClientRm = true
  pending : ∀ conn flags, (some conn, flags) ∈ s.pending → s.Registered conn
  nodup : (s.pending.map Prod.fst).Nodup

/-- The step dispatches no report of a client with both a hangup and an error. -/
def Single (s : Server X) : Action X → Prop
  | .dispatch _ => ∀ conn flags rest, s.pending = (some conn, flags) :: rest → ¬ Doubled flags
  | .wait _ | .others _ => True

/-- The rest of the reports stays pending. -/
theorem Served.dispatched {report : Option Nat × EpollFlags} {rest : List (Option Nat × EpollFlags)}
    (hs : s.Served) (hp : s.pending = report :: rest)
    (hk : Keeps s t (fun other => report.1 ≠ some other)) :
    ({ t with pending := rest } : Server X).Served := by
  have hnodup := hs.nodup
  rw [hp, List.map_cons, List.nodup_cons] at hnodup
  refine ⟨hk.inv.of_eq rfl rfl rfl rfl rfl (fun _ _ _ _ h => h), ?_, ?_, hnodup.2⟩
  · show t.handlers.onClientRm = true
    rw [hk.handlers]
    exact hs.onClientRm
  · intro conn flags hmem
    have hreg := hs.pending conn flags (hp ▸ List.mem_cons_of_mem _ hmem)
    refine hk.registered conn ?_ hreg
    intro heq
    exact hnodup.1 (heq ▸ List.mem_map_of_mem (f := Prod.fst) hmem)

theorem served_init (h : (serving X).init s) (hrm : s.handlers.onClientRm = true) : s.Served := by
  obtain ⟨hclient, hrecords, hlog, hpending, hnone⟩ := h
  have hu : ∀ conn, Untouched conn s.log := by
    intro conn
    constructor <;> simp [hlog]
  refine ⟨⟨hclient, ?_, ?_, fun conn _ => hu conn⟩, hrm, ?_, ?_⟩
  · constructor <;> simp [hlog]
  · exact fun fd entry conn hl hd => absurd ⟨fd, entry, hl, hd⟩ (hnone conn)
  · simp [hpending]
  · simp [hpending]

/-- **One step** from a served state leaves the log tidy exactly if it is single, and
a served state if so. -/
theorem Served.step (hs : s.Served) {a : Action X} (hst : Step s a t) :
    (Tidy t.log ↔ Single s a) ∧ (Single s a → t.Served) := by
  cases hst with
  | wait _ hempty hreg hnodup =>
    exact ⟨iff_of_true hs.inv.tidy trivial,
      fun _ => ⟨hs.inv.of_eq rfl rfl rfl rfl rfl (fun _ _ _ _ h => h), hs.onClientRm, hreg,
        hnodup⟩⟩
  | others _ hsame =>
    refine ⟨iff_of_true hs.inv.tidy trivial, fun _ => ⟨?_, hs.onClientRm, ?_, hs.nodup⟩⟩
    · exact hs.inv.of_eq rfl rfl rfl rfl rfl
        (fun fd entry conn hd h => (hsame fd entry conn hd).mp h)
    · intro conn flags hmem
      obtain ⟨fd, entry, hl, hd⟩ := hs.pending conn flags hmem
      exact ⟨fd, entry, (hsame fd entry conn hd).mpr hl, hd⟩
  | @dispatch env report rest hrun hp hf =>
    obtain ⟨ptr, flags⟩ := report
    cases ptr with
    | none =>
      have hk : Keeps s (handle env s (none, flags)) (fun _ => True) := by
        rw [handle_server env flags hrun]
        split
        · exact onServerRead_keeps hs.inv hf
        · exact ⟨hs.inv, rfl, fun _ _ h => h⟩
      refine ⟨iff_of_true hk.inv.tidy (pending_server hp), fun _ => hs.dispatched hp ?_⟩
      exact ⟨hk.inv, hk.handlers, fun conn _ => hk.registered conn trivial⟩
    | some conn =>
      have hreg := hs.pending conn flags (hp ▸ List.mem_cons_self)
      have hsingle : Single s (.dispatch env) ↔ ¬ Doubled flags := pending_client_iff hp
      rw [hsingle]
      by_cases hd : Doubled flags
      · have hbad := hs.inv.sound.handle_doubled env flags hrun hs.onClientRm hreg hd
        exact ⟨iff_of_false (fun ht => ht.reads conn hbad) (fun h => h hd), fun h => absurd hd h⟩
      · have hk := handle_client_keeps env flags hs.inv hrun hs.onClientRm hreg hd
        refine ⟨iff_of_true hk.inv.tidy hd, fun _ => hs.dispatched hp ?_⟩
        exact ⟨hk.inv, hk.handlers, fun other hne =>
          hk.registered other (fun heq => hne (heq ▸ rfl))⟩

/-- **Every client is torn down at most once, along a whole run, exactly if no
dispatched report of a client has both a hangup and an error.** -/
theorem torn_down_once_iff {τs : List (Transition (Server X) (Action X))}
    (hinit : (serving X).init s) (hrm : s.handlers.onClientRm = true)
    (hr : (serving X).Run s τs t) :
    (∀ τ ∈ τs, Tidy τ.after.log) ↔ ∀ τ ∈ τs, Single τ.before τ.action :=
  hr.forall_iff (I := Served) (Q := fun _ _ t => Tidy t.log)
    (fun _ _ _ hs hst hg => (hs.step hst).2 hg) (fun _ _ _ hs hst => (hs.step hst).1)
    (served_init hinit hrm)

end Runs
/-- A client that hangs up is torn down once. -/
theorem torn_down_once_iff_hangup : Tidy (left ⟨true, false, true, true, false, false⟩).log := by
  have hruns : ∀ τ ∈ visit ⟨true, false, true, true, false, false⟩, Tidy τ.after.log := by
    apply (torn_down_once_iff listening_init rfl (visit_run _)).mpr
    simp only [visit, List.forall_mem_cons, List.not_mem_nil, false_imp_iff, implies_true,
      and_true]
    refine ⟨trivial, nofun, trivial, ?_⟩
    rintro conn flags rest ⟨⟩
    simp [Doubled]
  exact hruns _ (List.mem_of_getLast? rfl)

/-- A client whose report has a hangup and an error is torn down, and its freed pair is read. -/
theorem torn_down_twice :
    ∃ s τs t, (serving Unit).init s ∧ s.handlers.onClientRm = true ∧
      (serving Unit).Run s τs t ∧
      t.log = [.accepted 0 5, .pairRead 0 true, .onClientRead 0 (some ()) 5, .pairRead 0 true,
        .onClientRm 0 (some ()) 5, .closed 0 5, .freed 0 64, .pairRead 0 false] ∧
      ¬ Tidy t.log := by
  have hlog : (left ⟨true, false, true, true, false, true⟩).log =
      [.accepted 0 5, .pairRead 0 true, .onClientRead 0 (some ()) 5, .pairRead 0 true,
        .onClientRm 0 (some ()) 5, .closed 0 5, .freed 0 64, .pairRead 0 false] := rfl
  refine ⟨listening, _, _, listening_init, rfl, visit_run _, hlog, fun h => h.reads 0 ?_⟩
  simp [hlog]

end Server
end Libae
