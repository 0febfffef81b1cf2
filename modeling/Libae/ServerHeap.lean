import Libae.ServerAccounts
import Libae.ServerTeardown

/-! # The heap blocks of the clients

`ae_server_on_server_read` allocates two blocks for a client, the pair and the event record.
`ae_server_client_rm` gets the pair as its context and frees it.  The record is known to the
kernel only, which forgets it in `ae_mux_rm`, and nobody frees it.

So the blocks that are allocated are those of the registered clients (`Balanced`) until a
client leaves, and never again (`balanced_iff`).
-/
namespace Libae
open Runs Fallible

/-- A block that `ae_server_on_server_read` allocates: a pair, by its address, or the record of
a connection. -/
inductive Block
  | pair (addr : Nat)
  | record (conn : Nat)

namespace Server
variable {X : Type}

/-- The block was allocated, and not freed. -/
def Allocated (s : Server X) : Block → Prop
  | .pair addr => ∃ pair, s.pairs addr = some pair ∧ pair.live = true
  | .record conn => ∃ record, s.records[conn]? = some (some record)

/-- The block is the record of a registered client, or the pair that the record points to. -/
def Needed (s : Server X) : Block → Prop
  | .pair addr => ∃ conn fd handlers, s.Registered conn ∧
      s.records[conn]? = some (some ⟨fd, .pair conn addr, handlers⟩) ∧ s.Owns conn addr
  | .record conn => s.Registered conn

/-- The allocated blocks are exactly those of the registered clients. -/
def Balanced (s : Server X) : Prop := ∀ block, s.Allocated block ↔ s.Needed block

/-- The step dispatches no report of a client that hung up or has an error. -/
def Stays (s : Server X) : Action X → Prop
  | .dispatch _ => ∀ conn flags rest, s.pending = (some conn, flags) :: rest → ¬ Gone flags
  | .wait _ | .others _ => True

section Balanced
variable {s t : Server X} {fd : Int} {conn addr : Nat}

/-- The balance is about the records, the pairs and who is registered. -/
theorem Balanced.of_eq (hs : s.Balanced)
    (hrecords : ∀ (c : Nat) (record : MuxEvent ServerCallback ServerCtx),
      t.records[c]? = some (some record) ↔ s.records[c]? = some (some record))
    (hpairs : t.pairs = s.pairs) (hreg : ∀ c, t.Registered c ↔ s.Registered c) :
    t.Balanced := by
  intro block
  have h := hs block
  cases block with
  | pair addr => simpa only [Allocated, Needed, Owns, hrecords, hpairs, hreg] using h
  | record conn => simpa only [Allocated, Needed, hrecords, hreg] using h

/-- **A client that is gone** leaves its record behind. -/
theorem Departed.not_balanced (ht : Departed s fd conn addr t) (hs : s.Sound)
    (hrec : s.records[conn]? = some (some ⟨fd, .pair conn addr, some s.clientHandlers⟩)) :
    ¬ t.Balanced := by
  intro h
  rw [← ht.records] at hrec
  exact ht.not_registered hs (ht.records ▸ hrec) ((h (.record conn)).mp ⟨_, hrec⟩)

/-- A connection that is rejected gets no blocks. -/
theorem Balanced.rejected (hs : s.Balanced) (ht : Rejected s fd t) : t.Balanced := by
  refine hs.of_eq (fun c record => ⟨fun h => ?_, fun h => ?_⟩) ht.pairs (fun c => ?_)
  · rw [ht.records] at h
    obtain h | ⟨-, hnone⟩ := records_append h
    · exact h
    · cases hnone
  · rw [ht.records, List.getElem?_append_left (List.getElem?_eq_some_iff.mp h).1]
    exact h
  · simp only [Registered, ht.lookup]

/-- The record of a new client is that of a registered client. -/
theorem Balanced.welcomed_record {env : Env X} (hs : s.Balanced) (ht : Welcomed env s fd t)
    (hadd : env.faults .add = none) (c : Nat) :
    t.Allocated (.record c) ↔ t.Needed (.record c) := by
  have h := hs (.record c)
  constructor
  · rintro ⟨record, hrec⟩
    rw [ht.records] at hrec
    obtain hold | ⟨rfl, -⟩ := records_append hrec
    · exact ht.registered (h.mp ⟨record, hold⟩)
    · obtain ⟨flags, hnew⟩ := ht.lookup_new hadd
      exact ⟨fd, _, hnew, rfl⟩
  · rintro ⟨x, entry, hl, hd⟩
    obtain ⟨-, rfl, -⟩ | hl' := ht.lookup_cases hl hd
    · exact ⟨_, ht.record_new⟩
    · obtain ⟨record, hrec⟩ := h.mpr ⟨x, entry, hl', hd⟩
      refine ⟨record, ?_⟩
      rw [ht.record_old (List.getElem?_eq_some_iff.mp hrec).1]
      exact hrec

/-- So is its pair. -/
theorem Balanced.welcomed_pair {env : Env X} (hs : s.Balanced) (ht : Welcomed env s fd t)
    (hadd : env.faults .add = none) (addr : Nat) :
    t.Allocated (.pair addr) ↔ t.Needed (.pair addr) := by
  obtain ⟨ctx, hpairs⟩ := ht.pairs
  constructor
  · rintro ⟨pair, hp, hlive⟩
    by_cases haddr : addr = env.pair
    · obtain ⟨flags, hnew⟩ := ht.lookup_new hadd
      have hself : t.pairs env.pair = some ⟨s.records.length, true, ctx⟩ := by
        rw [hpairs, Function.update_self]
      rw [haddr]
      exact ⟨_, _, _, ⟨fd, _, hnew, rfl⟩, ht.record_new, ctx, hself⟩
    · have hold : t.pairs addr = s.pairs addr := by
        rw [hpairs, Function.update_of_ne haddr]
      rw [hold] at hp
      obtain ⟨c, x, handlers, hr, hrec, ctx', hown⟩ := (hs (.pair addr)).mp ⟨pair, hp, hlive⟩
      refine ⟨c, x, handlers, ht.registered hr, ?_, ctx', hold.trans hown⟩
      rw [ht.record_old (List.getElem?_eq_some_iff.mp hrec).1]
      exact hrec
  · rintro ⟨c, x, handlers, -, -, ctx', hown⟩
    exact ⟨_, hown, rfl⟩

/-- **A new client** gets two blocks, which are its own if the kernel registers it. -/
theorem Balanced.welcomed_iff {env : Env X} (hs : s.Balanced) (hsound : s.Sound)
    (ht : Welcomed env s fd t) : t.Balanced ↔ env.faults .add = none := by
  constructor
  · intro h
    obtain ⟨x, entry, hl, hd⟩ := (h (.record _)).mp ⟨_, ht.record_new⟩
    obtain ⟨-, -, hadd⟩ | hl' := ht.lookup_cases hl hd
    · exact hadd
    · exact absurd (hsound.conn_lt hl' hd) (Nat.lt_irrefl _)
  · intro hadd block
    cases block with
    | pair addr => exact hs.welcomed_pair ht hadd addr
    | record c => exact hs.welcomed_record ht hadd c

end Balanced

/-! ## Runs -/

section Runs
variable {s t : Server X}

/-- Between two steps of a run in which no client left. -/
structure Housed (s : Server X) : Prop where
  watched : s.Watched
  balanced : s.Balanced
  onClientRm : s.handlers.onClientRm = true

/-- A server that has accepted nothing has allocated nothing. -/
theorem housed_init (h : (serving X).init s)
    (hpairs : ∀ addr pair, s.pairs addr = some pair → pair.live = false)
    (hrm : s.handlers.onClientRm = true) : s.Housed := by
  have hwatched := watched_init h
  obtain ⟨-, hrecords, -, -, hnone⟩ := h
  refine ⟨hwatched, fun block => ?_, hrm⟩
  cases block with
  | pair addr =>
    apply iff_of_false
    · rintro ⟨pair, hp, hlive⟩
      rw [hpairs addr pair hp] at hlive
      cases hlive
    · rintro ⟨conn, -, -, hreg, -⟩
      exact hnone conn hreg
  | record conn =>
    refine iff_of_false ?_ (hnone conn)
    rintro ⟨record, hrec⟩
    simp [hrecords] at hrec

/-- What a dispatch is to the heap. -/
theorem Housed.dispatched {report : Option Nat × EpollFlags}
    {rest : List (Option Nat × EpollFlags)} {env : Env X} (hs : s.Housed)
    (hrun : s.running = true) (hp : s.pending = report :: rest) (hf : Env.Fresh env s) :
    ((handle env s report).Balanced ↔
        Registers s (.dispatch env) ∧ Stays s (.dispatch env)) ∧
      (handle env s report).handlers = s.handlers := by
  obtain ⟨ptr, flags⟩ := report
  cases ptr with
  | none =>
    have hstays : Stays s (.dispatch env) := pending_server hp
    rw [handle_server env flags hrun, registers_iff hp, and_iff_left hstays]
    by_cases hinp : flags.inp = true
    · simp only [hinp, if_true, true_imp_iff]
      obtain ⟨hnone, hr⟩ | ⟨fd, -, hreject, hr⟩ | ⟨fd, haccept, hwanted, hr⟩ :=
        onServerRead_cases hf
      · rw [hr]
        exact ⟨iff_of_true hs.balanced (fun fd h => absurd h (hnone fd)), rfl⟩
      · exact ⟨iff_of_true (hs.balanced.rejected hr) (fun _ _ h => absurd h hreject),
          hr.handlers⟩
      · refine ⟨(hs.balanced.welcomed_iff hs.watched.sound hr).trans ?_, hr.handlers⟩
        exact ⟨fun h _ _ _ => h, fun h => h fd haccept hwanted⟩
    · simp only [hinp, if_false, Bool.false_eq_true, false_imp_iff, iff_true]
      exact ⟨hs.balanced, trivial⟩
  | some conn =>
    have hstays : Stays s (.dispatch env) ↔ ¬ Gone flags := pending_client_iff hp
    obtain ⟨fd, entry, addr, hl, hd, hrec, hown⟩ := hs.watched.client hp
    rw [and_iff_right (registers_client hp), hstays]
    obtain ⟨hnot, acts, -, hr⟩ | ⟨-, hgone, hr⟩ :=
      handle_client_cases env flags hrun hs.watched.sound.clientHandlers hrec hown
    · have hkept : (s.note acts).Balanced :=
        hs.balanced.of_eq (fun _ _ => Iff.rfl) rfl (fun _ => Iff.rfl)
      rw [hr]
      exact ⟨iff_of_true hkept (fun hgone => hnot ⟨hs.onClientRm, hgone⟩), rfl⟩
    · exact ⟨iff_of_false (hr.not_balanced hs.watched.sound hrec) (fun h => h hgone),
        hr.handlers⟩

/-- **One step** keeps the balance exactly if it registers the client it adds and no client
leaves. -/
theorem Housed.step (hs : s.Housed) {a : Action X} (hst : Step s a t) :
    (t.Balanced ↔ Registers s a ∧ Stays s a) ∧ (Registers s a ∧ Stays s a → t.Housed) := by
  have hw := hs.watched.step hst
  cases hst with
  | @wait reports _ hempty hreg hnodup =>
    have hb : Balanced { s with pending := reports } :=
      hs.balanced.of_eq (fun _ _ => Iff.rfl) rfl (fun _ => Iff.rfl)
    exact ⟨iff_of_true hb ⟨trivial, trivial⟩, fun _ => ⟨hw, hb, hs.onClientRm⟩⟩
  | @others mux _ hsame =>
    have hb : Balanced { s with mux := mux } := by
      refine hs.balanced.of_eq (fun _ _ => Iff.rfl) rfl (fun conn => ?_)
      constructor
      · exact fun ⟨fd, entry, hl, hd⟩ => ⟨fd, entry, (hsame fd entry conn hd).mp hl, hd⟩
      · exact fun ⟨fd, entry, hl, hd⟩ => ⟨fd, entry, (hsame fd entry conn hd).mpr hl, hd⟩
    exact ⟨iff_of_true hb ⟨trivial, trivial⟩, fun _ => ⟨hw, hb, hs.onClientRm⟩⟩
  | @dispatch env report rest hrun hp hf =>
    obtain ⟨hiff, hhandlers⟩ := hs.dispatched hrun hp hf
    have hpending : Balanced { handle env s report with pending := rest } ↔
        (handle env s report).Balanced :=
      ⟨fun h => h.of_eq (fun _ _ => Iff.rfl) rfl (fun _ => Iff.rfl),
        fun h => h.of_eq (fun _ _ => Iff.rfl) rfl (fun _ => Iff.rfl)⟩
    refine ⟨hpending.trans hiff, fun hgood => ⟨hw, hpending.mpr (hiff.mpr hgood), ?_⟩⟩
    rw [← hs.onClientRm, ← hhandlers]

/-- **When the heap blocks of the clients balance.**  Along a run whose registrations succeed,
with an `on_client_rm`, the allocated blocks are those of the registered clients in every state
exactly if no client hangs up or has an error. -/
theorem balanced_iff {τs : List (Transition (Server X) (Action X))}
    (hinit : (serving X).init s)
    (hpairs : ∀ addr pair, s.pairs addr = some pair → pair.live = false)
    (hrm : s.handlers.onClientRm = true) (hr : (serving X).Run s τs t)
    (hregisters : ∀ τ ∈ τs, Registers τ.before τ.action) :
    (∀ τ ∈ τs, τ.after.Balanced) ↔ ∀ τ ∈ τs, Stays τ.before τ.action := by
  have hiff := hr.forall_iff (I := Housed) (Q := fun _ _ t => t.Balanced)
    (G := fun s a => Registers s a ∧ Stays s a)
    (fun _ _ _ hs hst hg => (hs.step hst).2 hg) (fun _ _ _ hs hst => (hs.step hst).1)
    (housed_init hinit hpairs hrm)
  rw [hiff]
  exact ⟨fun h τ hτ => (h τ hτ).2, fun h τ hτ => ⟨hregisters τ hτ, h τ hτ⟩⟩

end Runs

/-! ### A record that is left behind -/

theorem visit_registers (flags : EpollFlags) :
    ∀ τ ∈ visit flags, Registers τ.before τ.action := by
  simp only [visit, List.forall_mem_cons, List.not_mem_nil, false_imp_iff, implies_true, and_true]
  exact ⟨trivial, fun _ _ _ _ _ _ _ => rfl, trivial, registers_client rfl⟩

/-- A client that stays has its two blocks. -/
theorem balanced_iff_stays :
    (∀ τ ∈ visit readable, τ.after.Balanced) ↔
      ∀ τ ∈ visit readable, Stays τ.before τ.action :=
  balanced_iff listening_init (fun _ _ h => absurd h (Option.some_ne_none _).symm) rfl
    (visit_run readable) (visit_registers readable)

/-- `EPOLLRDHUP` and `EPOLLHUP`. -/
def hungUp : EpollFlags := ⟨false, false, true, true, false, false⟩

/-- The record of a client that hung up stays allocated. -/
theorem record_forgotten : ¬ ∀ (s t : Server Unit)
    (τs : List (Transition (Server Unit) (Action Unit))), (serving Unit).init s →
    (∀ addr pair, s.pairs addr = some pair → pair.live = false) →
    s.handlers.onClientRm = true → (serving Unit).Run s τs t →
    (∀ τ ∈ τs, Registers τ.before τ.action) → (∀ τ ∈ τs, Single τ.before τ.action) →
    ∀ τ ∈ τs, τ.after.Balanced := by
  intro h
  have hsingle : ∀ τ ∈ visit hungUp, Single τ.before τ.action := by
    simp only [visit, List.forall_mem_cons, List.not_mem_nil, false_imp_iff, implies_true,
      and_true]
    refine ⟨trivial, ?_, trivial, ?_⟩
    · rintro conn flags rest ⟨⟩
    · rintro conn flags rest ⟨⟩
      simp [Doubled, hungUp]
  have hleft : (left hungUp).Balanced :=
    h listening _ _ listening_init (fun _ _ h => absurd h (Option.some_ne_none _).symm) rfl
      (visit_run hungUp) (visit_registers hungUp) hsingle _ (List.mem_of_getLast? rfl)
  have hw := watched (leaving_reachable hungUp)
  obtain ⟨fd, entry, addr, -, -, hrec, hown⟩ := hw.client rfl
  obtain ⟨hnot, -⟩ | ⟨-, -, hr⟩ :=
    handle_client_cases quiet hungUp rfl hw.sound.clientHandlers hrec hown
  · exact hnot ⟨rfl, .inl rfl⟩
  · exact hr.not_balanced hw.sound hrec (hleft.of_eq (fun _ _ => Iff.rfl) rfl (fun _ => Iff.rfl))

end Server
end Libae
