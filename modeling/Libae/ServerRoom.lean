import Libae.MuxCover
import Libae.ServerLoop

/-! # The counter and the array of a loop

The kernel is told the counter of the mux as the number of reports it may store, and not the
length of the program's array.  In the loop of a server the counter is the number of registered
descriptors and of deletions that the kernel refused (`count_drift`): the socket and the clients,
as long as nothing is refused, and never less.  So no report is cut off, and the socket is polled
in every round (`loop_attends`); and a round stays within the array, whatever the kernel reports,
exactly if there are fewer clients than the array has elements (`loop_room_iff`).

The counter has to be an `int` for the kernel.  It is one as long as fewer than 2^31 - 1
connections were accepted.
-/
namespace Libae
open Fallible Runs

namespace Server
variable {X : Type}

/-- The descriptors that are registered beside that of the socket. -/
def clientFds (s : Server X) : List Int := s.mux.epoll.interest.keys.erase s.fd

/-! ## How large the counter can be -/

/-- As long as the counter is an `int`, no registered descriptor is missing in it, and it counts
the socket and each connection once at most. -/
def Counted (s : Server X) : Prop :=
  s.records.length + 1 < 2 ^ 31 → s.mux.Covers ∧ s.mux.count ≤ s.records.length + 1

section Counted
variable {s t : Server X} (env : Env X)

/-- The records are kept, and what changes the counter makes up for it. -/
theorem Counted.of_kept (hs : s.Counted) (registers : Bool)
    (hle : s.records.length + (if registers then 1 else 0) ≤ t.records.length)
    (hkept : s.mux.Covers → s.mux.count < 2 ^ 31 → s.mux.Kept t.mux registers) : t.Counted := by
  intro hsmall
  obtain ⟨hcover, hcount⟩ := hs (by omega)
  have hk := hkept hcover (by omega)
  have hmore := hk.le
  exact ⟨hk.covers, by omega⟩

/-- The counter and the registrations are as before, or fewer are registered. -/
theorem Counted.of_le (hs : s.Counted) (hrecords : s.records.length ≤ t.records.length)
    (hcount : t.mux.count = s.mux.count) (hsize : t.mux.epoll.size ≤ s.mux.epoll.size) :
    t.Counted := by
  intro hsmall
  obtain ⟨hcover, hle⟩ := hs (by omega)
  refine ⟨?_, by omega⟩
  show t.mux.epoll.size ≤ t.mux.count
  rw [hcount]
  exact hsize.trans hcover

theorem onServerRead_counted (hs : s.Counted) : (onServerRead env s).Counted := by
  unfold onServerRead
  split
  · exact hs
  next fd h haccept =>
    dsimp only
    split
    · refine hs.of_le (List.length_append ▸ Nat.le_add_right _ _) rfl ?_
      exact Mux.closeFd_size { s.mux with epoll := s.mux.epoll.openFd fd h } fd
    · refine hs.of_kept true (by simp [note]) (fun hcover hbound => ?_)
      have hadd := Mux.add_kept (some s.records.length)
        (⟨fd, .pair s.records.length env.pair, some s.clientHandlers⟩ :
          MuxEvent ServerCallback ServerCtx) env.faults
        (s := { s.mux with epoll := s.mux.epoll.openFd fd h }) hcover hbound
      exact ⟨hadd.covers, hadd.steady, hadd.le⟩

/-- The mux after a teardown. -/
theorem clientRm_mux {fd : Int} {conn addr : Nat} (hvalid : s.validPair conn addr = true)
    (hrm : s.handlers.onClientRm = true) :
    (clientRm env s fd conn addr).mux =
      (((Mux.rm fd env.faults).run s.mux).2).closeFd fd := by
  have hnot : ¬ (¬ s.handlers.onClientRm = true) := fun h => h hrm
  have hlive : ¬ (¬ s.validPair conn addr = true) := fun h => h hvalid
  simp only [clientRm, note, closeFd, free, hnot, hlive, if_false, Mux.closeFd]

theorem clientRm_counted (hs : s.Counted) (fd : Int) (conn addr : Nat) :
    (clientRm env s fd conn addr).Counted := by
  by_cases h : s.validPair conn addr = true ∧ s.handlers.onClientRm = true
  · have hrecords : (clientRm env s fd conn addr).records = s.records :=
      (clientRm_tornDown env h.1 h.2).records
    refine hs.of_kept false (by simp [hrecords]) (fun hcover hbound => ?_)
    have hkept := Mux.rm_kept fd env.faults hcover hbound
    rw [clientRm_mux env h.1 h.2]
    exact ⟨(Mux.closeFd_size _ fd).trans hkept.covers, hkept.steady, hkept.le⟩
  · rw [clientRm_kept env h]
    exact hs

theorem invoke_counted (hs : s.Counted) (call : Mux.Call ServerCallback ServerCtx) :
    (invoke env s call).Counted := by
  unfold invoke
  split
  · exact hs
  · split
    · exact onServerRead_counted env hs
    · unfold onClientRead
      dsimp only
      split <;> exact hs
    · unfold onClientWrite
      dsimp only
      split <;> exact hs
    · exact clientRm_counted env hs _ _ _
    · exact clientRm_counted env hs _ _ _
    · exact hs

theorem handle_counted (hs : s.Counted) (report : Option Nat × EpollFlags) :
    (handle env s report).Counted := by
  unfold handle
  split
  · exact hs
  next info hinfo =>
    clear hinfo
    induction Mux.singlethreadHandler report.2 info generalizing s with
    | nil => exact hs
    | cons call calls ih => exact ih (invoke_counted env hs call)

variable {n : Nat} {timeoutMs : Int} {out : Bool}

/-- At the start the socket is counted. -/
theorem count_init (h : (looping X n timeoutMs out).init s) :
    s.mux.count = 1 ∧ s.mux.epoll.size = 1 := by
  obtain ⟨s₀, env, path, hconf, -, hrun⟩ := h
  obtain ⟨fd, hrange, hopen, rfl⟩ := startUp_ok hconf hrun
  have hnew : fd ∉ (s₀.mux.epoll.openFd fd hrange).interest.keys := by
    show fd ∉ s₀.mux.epoll.interest.keys
    rw [hconf.interest]
    exact List.not_mem_nil
  have hsize := Epoll.size_enter_new
    (⟨⟨true, true, true, false, true, false⟩, none⟩ : EpollEvent (Option Nat)) hopen hnew
  have hzero : (s₀.mux.epoll.openFd fd hrange).size = 0 := by
    show s₀.mux.epoll.interest.keys.length = 0
    rw [hconf.interest]
    rfl
  exact ⟨rfl, hsize.trans (by rw [hzero])⟩

theorem counted_init (h : (looping X n timeoutMs out).init s) : s.Counted := by
  obtain ⟨hcount, hsize⟩ := count_init h
  refine fun _ => ⟨?_, hcount.trans_le (Nat.le_add_left 1 _)⟩
  rw [Mux.Covers, hcount, hsize]

theorem Counted.step (hs : s.Counted) {a : LoopAction X}
    (hst : LoopStep n timeoutMs out s a t) : t.Counted := by
  cases hst with
  | round _ _ _ hd =>
    have hpolled : ({ s with pending := _ } : Server X).Counted := hs
    exact (hd.keeps (I := Counted) (fun s env report _ hs _ _ _ =>
      (handle_counted env hs report : (handle env s report).Counted)) hpolled).1
  | opened => exact hs
  | closed => exact hs.of_le (le_refl _) rfl (Mux.closeFd_size s.mux _)

theorem counted (hs : (looping X n timeoutMs out).Reachable s) : s.Counted :=
  hs.invariant (fun _ => counted_init) (fun _ _ _ h hst => h.step hst)

end Counted

/-! ## What can be reported -/

section Room
variable {s : Server X} {ready : List (Int × EpollFlags)} {n : Nat} {timeoutMs : Int} {out : Bool}

/-- The socket and the clients are what is registered. -/
theorem Listens.size_eq (hs : s.Listens) : s.mux.epoll.size = s.clientFds.length + 1 := by
  obtain ⟨entry, hl, -⟩ := hs.registered
  have hmem : s.fd ∈ s.mux.epoll.interest.keys :=
    AList.mem_keys.mp (AList.lookup_isSome.mp (hl ▸ rfl))
  have hpos := List.length_pos_of_mem hmem
  rw [clientFds, List.length_erase_of_mem hmem, Epoll.size]
  omega

/-- As many reports as ready descriptors that are registered. -/
theorem reports_length (s : Server X) (ready : List (Int × EpollFlags)) :
    (s.reports ready).length =
      ((ready.map Prod.fst).filter (· ∈ s.mux.epoll.interest.keys)).length := by
  rw [reports, List.length_filterMap_eq_countP, ← List.countP_eq_length_filter, List.countP_map]
  congr 1
  funext r
  rw [Option.isSome_map]
  exact Bool.eq_iff_iff.mpr
    ((AList.lookup_isSome.trans AList.mem_keys).trans decide_eq_true_iff.symm)

theorem reports_length_le (hnodup : (ready.map Prod.fst).Nodup) :
    (s.reports ready).length ≤ s.mux.epoll.size := by
  rw [reports_length]
  refine ((hnodup.filter _).subperm fun fd hfd => ?_).length_le
  exact of_decide_eq_true (List.mem_filter.mp hfd).2

/-- Everything is ready. -/
def allReady (s : Server X) : List (Int × EpollFlags) :=
  s.mux.epoll.interest.keys.map (fun fd => (fd, readable))

theorem allReady_fst (s : Server X) : s.allReady.map Prod.fst = s.mux.epoll.interest.keys := by
  rw [allReady, List.map_map]
  exact List.map_id _

theorem allReady_length (s : Server X) : (s.reports s.allReady).length = s.mux.epoll.size := by
  rw [reports_length, allReady_fst, List.filter_eq_self.mpr (fun fd hfd => decide_eq_true hfd),
    Epoll.size]

/-- **The loop attends to everybody.**  In every state that the loop reaches, by rounds that come
to their end, with fewer than 2^31 - 1 connections: the socket is registered, the wait polls before
it returns, if the clock can be read, and the kernel may report all that is ready. -/
theorem loop_attends (hs : (looping X n timeoutMs out).Reachable s)
    (hfew : s.records.length + 1 < 2 ^ 31) :
    (∃ entry, s.mux.epoll.interest.lookup s.fd = some entry ∧ entry.data = none) ∧
      (∀ w, (s.wait n timeoutMs out w).Polls w.clock) ∧
      ∀ ready, (ready.map Prod.fst).Nodup → s.reports ready ≠ [] →
        (Mux.EpollAnswer.reports (s.reports ready)).Permitted (Mux.toInt s.mux.count)
          (s.reports ready) := by
  have hlistens := (between hs).listens
  obtain ⟨hcover, hle⟩ := counted hs hfew
  have hsize := hlistens.size_eq
  have hcount : s.mux.epoll.size ≤ s.mux.count := hcover
  have hint : Mux.toInt s.mux.count = s.mux.count := Int.bmod_eq_of_le (by omega) (by omega)
  refine ⟨hlistens.registered, fun w => ?_, fun ready hnodup hne => ?_⟩
  · exact Mux.wait_polls (by omega) (by omega) none n timeoutMs out w.clock w.answers
  · have hready := reports_length_le (s := s) hnodup
    rw [hint]
    exact ⟨by omega, by omega, .refl _, fun h => absurd h hne⟩

/-- **When a round stays within the array.**  In every state that the loop reaches with fewer than
2^31 - 1 connections, the next wait stores and reads in the `n` elements of the array only,
whatever is ready and whatever the kernel and the clock answer, exactly if fewer than `n` clients
are registered. -/
theorem loop_room_iff (hs : (looping X n timeoutMs out).Reachable s)
    (hfew : s.records.length + 1 < 2 ^ 31) :
    (∀ w, s.Polled w → (s.wait n timeoutMs out w).Within n) ↔ s.clientFds.length < n := by
  have hsize := (between hs).listens.size_eq
  obtain ⟨hcover, hle⟩ := counted hs hfew
  have hcount : s.mux.epoll.size ≤ s.mux.count := hcover
  have hint : Mux.toInt s.mux.count = s.mux.count := Int.bmod_eq_of_le (by omega) (by omega)
  constructor
  · intro h
    have hall := allReady_length s
    have hpolled : s.Polled ⟨s.allReady, .ok ⟨0, 0⟩, [.reports (s.reports s.allReady)], []⟩ := by
      refine ⟨allReady_fst s ▸ s.mux.epoll.interest.keys_nodup, fun a ha => ?_⟩
      rw [List.mem_singleton.mp ha, hint]
      exact ⟨by omega, by omega, .refl _, fun h => h⟩
    obtain ⟨hstored, -⟩ := h _ hpolled
    rw [wait, Mux.wait_reports _ _ _ _ _ _ (by omega), hall] at hstored
    omega
  · intro hroom w hp
    obtain ⟨hstored, hread⟩ :=
      Mux.wait_stored s.mux.count none n timeoutMs out w.clock w.answers
    have hlen : (s.wait n timeoutMs out w).stored.length ≤ n := by
      obtain hnil | hmem := hstored
      · rw [wait, hnil]
        exact Nat.zero_le n
      · have hsub := (hp.permitted _ hmem).2.2.1.length_le
        have hready := reports_length_le (s := s) hp.nodup
        rw [wait]
        omega
    exact ⟨hlen, fun i hi => Nat.lt_of_lt_of_le (hread i hi) hlen⟩

end Room

/-! ## What the counter counts -/

/-- A client is taken out, and the kernel refuses to delete its descriptor. -/
def delRefused (s : Server X) (report : Option Nat × EpollFlags) (env : Env X) : Bool :=
  s.handlers.onClientRm && report.1.isSome && removals report.2 != 0 && (env.faults .del).isSome

/-- The refusals along a run of the loop. -/
def refusals (n : Nat) (timeoutMs : Int) (out : Bool)
    (τs : List (Transition (Server X) (LoopAction X))) : Nat :=
  (τs.map (fun τ =>
    match τ.action with
    | .round w => ((τ.before.wait n timeoutMs out w).batch.zip w.envs).countP
        (fun p => τ.before.delRefused p.1 p.2)
    | .opened .. | .closed _ => 0)).sum

/-- The counter is too large by `k`. -/
def Drifted (s : Server X) (k : Nat) : Prop := s.mux.count = s.mux.epoll.size + k

section Drift
variable {s t : Server X} {env : Env X} {k : Nat}

theorem onServerRead_drifted (hf : Env.Fresh env s) (hs : s.Drifted k)
    (hbound : s.mux.count < 2 ^ 31) : (onServerRead env s).Drifted k := by
  have hcount : s.mux.count = s.mux.epoll.size + k := hs
  unfold onServerRead
  split
  · exact hs
  next fd h haccept =>
    have hnew : fd ∉ (s.mux.epoll.openFd fd h).interest.keys :=
      fun hmem => hf.1 fd h haccept (s.mux.epoll.registered fd hmem)
    dsimp only
    split
    · exact hs.trans (congrArg (· + k) (Epoll.size_close hnew).symm)
    · obtain ⟨-, hopen, hok⟩ | ⟨hold, -⟩ | ⟨-, e, herr⟩ :=
        Mux.add_cases (some s.records.length)
          (⟨fd, .pair s.records.length env.pair, some s.clientHandlers⟩ :
            MuxEvent ServerCallback ServerCtx)
          { s.mux with epoll := s.mux.epoll.openFd fd h } env.faults
      · have hsize := Epoll.size_enter_new
          (⟨Mux.eventToFlags (⟨fd, .pair s.records.length env.pair, some s.clientHandlers⟩ :
            MuxEvent ServerCallback ServerCtx), some s.records.length⟩ :
              EpollEvent (Option Nat)) hopen hnew
        have hsame : (s.mux.epoll.openFd fd h).size = s.mux.epoll.size := rfl
        have hadd : Word.add s.mux.count 1 = s.mux.count + 1 := Word.add_eq (by omega)
        unfold Drifted
        simp only [note, hok]
        rw [hadd, hsize, hsame]
        omega
      · exact absurd hold hnew
      · unfold Drifted
        simp only [note, herr]
        exact hs

/-- **A teardown** of a registered client counts it off, unless the kernel refuses. -/
theorem clientRm_drifted {fd : Int} {conn addr : Nat} (hvalid : s.validPair conn addr = true)
    (hrm : s.handlers.onClientRm = true) (hreg : fd ∈ s.mux.epoll.interest.keys)
    (hs : s.Drifted k) (hbound : s.mux.count < 2 ^ 31) :
    (clientRm env s fd conn addr).Drifted (k + if (env.faults .del).isSome then 1 else 0) := by
  have hcount : s.mux.count = s.mux.epoll.size + k := hs
  have hpos : 0 < s.mux.epoll.size := List.length_pos_of_mem hreg
  unfold Drifted
  rw [clientRm_mux env hvalid hrm]
  obtain ⟨-, hfault, hok⟩ | ⟨hnot, r, e, herr⟩ := Mux.rm_cases s.mux fd env.faults
  · have hsub : Word.sub s.mux.count 1 = s.mux.count - 1 := Word.sub_eq (by omega) (by omega)
    have hdelete := Epoll.size_delete hreg
    have hgone : fd ∉ (s.mux.epoll.delete fd).interest.keys := by
      simp [Epoll.delete, s.mux.epoll.interest.keys_nodup.mem_erase_iff]
    rw [hok]
    show Word.sub s.mux.count 1 = ((s.mux.epoll.delete fd).close fd).size + _
    rw [hsub, Epoll.size_close hgone, hfault]
    simp only [Option.isSome_none, Bool.false_eq_true, if_false]
    omega
  · have hfault : (env.faults .del).isSome = true :=
      Option.isSome_iff_ne_none.mpr (fun h => hnot ⟨hreg, h⟩)
    have hclose := Epoll.size_close_old hreg
    rw [herr, hfault]
    show s.mux.count = (s.mux.epoll.close fd).size + (k + 1)
    omega

/-- What follows reads the freed pair and counts nothing. -/
theorem iterate_drifted {fd : Int} {conn addr : Nat} (hown : s.Owns conn addr)
    (hrm : s.handlers.onClientRm = true) (hreg : fd ∈ s.mux.epoll.interest.keys)
    (hs : s.Drifted k) (hbound : s.mux.count < 2 ^ 31) (n : Nat) :
    ((fun s' => clientRm env s' fd conn addr)^[n + 1] s).Drifted
        (k + if (env.faults .del).isSome then 1 else 0) := by
  induction n with
  | zero => exact clientRm_drifted hown.valid hrm hreg hs hbound
  | succ n ih =>
    obtain ⟨pair, hp, -, hlive⟩ := (departed_iterate env fd hown hrm n).freed
    have hfreed := validPair_freed conn hp hlive
    rw [Function.iterate_succ_apply',
      clientRm_kept env (fun h => Bool.false_ne_true (hfreed.symm.trans h.1))]
    exact ih

/-- **A dispatch** makes the counter too large by one more if the deletion is refused. -/
theorem handle_drifted {report : Option Nat × EpollFlags} {rest : List (Option Nat × EpollFlags)}
    (hrun : s.running = true) (hw : s.Watched) (hp : s.pending = report :: rest)
    (hf : Env.Fresh env s) (hs : s.Drifted k) (hbound : s.mux.count < 2 ^ 31) :
    (handle env s report).Drifted (k + if s.delRefused report env then 1 else 0) := by
  obtain ⟨ptr, flags⟩ := report
  cases ptr with
  | none =>
    have hno : s.delRefused (none, flags) env = false := by simp [delRefused]
    rw [hno, handle_server env flags hrun]
    split
    · exact onServerRead_drifted hf hs hbound
    · exact hs
  | some conn =>
    obtain ⟨fd, entry, addr, hl, hd, hrec, hown⟩ := hw.client hp
    have hreg : fd ∈ s.mux.epoll.interest.keys :=
      AList.mem_keys.mp (AList.lookup_isSome.mp (hl ▸ rfl))
    rw [handle_client_rm env flags hrun hw.sound.clientHandlers hrec hown]
    by_cases hrm : s.handlers.onClientRm = true
    · cases hn : removals flags with
      | zero =>
        have hno : s.delRefused (some conn, flags) env = false := by simp [delRefused, hn]
        rw [hno]
        exact hs
      | succ n =>
        have heq : s.delRefused (some conn, flags) env = (env.faults .del).isSome := by
          simp [delRefused, hn, hrm]
        rw [heq]
        exact iterate_drifted (s := s.note (s.exchange flags fd conn addr)) hown hrm hreg hs
          hbound n
    · have hno : s.delRefused (some conn, flags) env = false := by simp [delRefused, hrm]
      obtain ⟨acts, -, hr⟩ := iterate_clientRm_kept env fd conn addr
        (s := s.note (s.exchange flags fd conn addr)) hrm (removals flags)
      rw [hno, hr]
      exact hs

/-- **A batch** adds its refusals. -/
theorem Dispatches.drifted {envs : List (Env X)} (h : Dispatches s envs t) (hw : s.Watched)
    (hc : s.Counted) (hsmall : t.records.length + 1 < 2 ^ 31) (hs : s.Drifted k) :
    t.Drifted (k + (s.pending.zip envs).countP (fun p => s.delRefused p.1 p.2)) := by
  induction h generalizing k with
  | done _ hp =>
    rw [hp]
    exact hs
  | @next s t env envs report rest hrun hp hf hd ih =>
    have hw' : ({ handle env s report with pending := rest } : Server X).Watched :=
      hw.step (.dispatch hrun hp hf)
    have hm : s.Moved report (handle env s report) := Server.moved hrun hw hp hf
    have hlen : s.records.length ≤ t.records.length := hm.le.trans (hd.moved hw').1
    obtain ⟨-, hcount⟩ := hc (by omega)
    have hone := handle_drifted hrun hw hp hf hs (by omega)
    have hsame : ∀ p : (Option Nat × EpollFlags) × Env X,
        delRefused { handle env s report with pending := rest } p.1 p.2 = s.delRefused p.1 p.2 := by
      intro p
      unfold delRefused
      rw [hm.handlers]
    have hrest := ih hw' (handle_counted env hc report) hsmall hone
    simp only [hsame] at hrest
    rw [hp, List.zip_cons_cons, List.countP_cons, Nat.add_comm (List.countP _ _), ← Nat.add_assoc]
    exact hrest

end Drift

section Counting
variable {s t : Server X} {n : Nat} {timeoutMs : Int} {out : Bool}

theorem refusals_snoc (τs : List (Transition (Server X) (LoopAction X)))
    (τ : Transition (Server X) (LoopAction X)) :
    refusals n timeoutMs out (τs ++ [τ]) =
      refusals n timeoutMs out τs + refusals n timeoutMs out [τ] := by
  simp [refusals]

/-- No record is taken back. -/
theorem Between.records_le (hs : s.Between) {a : LoopAction X}
    (hst : LoopStep n timeoutMs out s a t) : s.records.length ≤ t.records.length := by
  rcases hst with ⟨hp, -, -, hd⟩ | - | -
  · exact (hd.moved (hs.watched.step (hs.stored n timeoutMs out hp))).1
  · exact le_refl _
  · exact le_refl _

/-- **What the counter counts.**  Along every run of the loop, each round of which comes to its
end, with fewer than 2^31 - 1 connections, the counter is one for the socket, and one for each
registered client and for each deletion that the kernel has refused. -/
theorem count_drift {τs : List (Transition (Server X) (LoopAction X))}
    (hs : (looping X n timeoutMs out).init s) (hr : (looping X n timeoutMs out).Run s τs t)
    (hfew : t.records.length + 1 < 2 ^ 31) :
    t.mux.count = t.clientFds.length + 1 + refusals n timeoutMs out τs := by
  suffices h : t.Between ∧ t.Counted ∧ t.Drifted (refusals n timeoutMs out τs) by
    obtain ⟨hb, -, hd⟩ := h
    rw [← hb.listens.size_eq]
    exact hd
  induction hr with
  | nil =>
    obtain ⟨hcount, hsize⟩ := count_init hs
    exact ⟨(between_init hs).2, counted_init hs, hcount.trans (by rw [hsize]; rfl)⟩
  | @snoc τs t u a hr hst ih =>
    have hlen := (between ⟨_, _, hs, hr⟩).records_le hst
    obtain ⟨hb, hc, hd⟩ := ih (by omega)
    refine ⟨(hb.step hst).1, hc.step hst, ?_⟩
    rw [refusals_snoc]
    rcases hst with ⟨hp, -, -, hdisp⟩ | hnew | hnot
    · have hw := hb.watched.step (hb.stored n timeoutMs out hp)
      exact hdisp.drifted hw hc hfew hd
    · exact hd
    · exact hd.trans (congrArg (· + _) (Epoll.size_close hnot).symm)

end Counting

/-! ### One client, and an array of one element -/

theorem welcomed_reachable : (looping Unit 1 (-1) false).Reachable welcomed :=
  .step (.of_init (started_init 1 (-1) false)) welcomed_step

/-- The new client can be reported beside the socket. -/
theorem loop_attends_welcomed :
    (Mux.EpollAnswer.reports [⟨readable, none⟩, ⟨readable, some 0⟩]).Permitted
      (Mux.toInt welcomed.mux.count) (welcomed.reports [(3, readable), (5, readable)]) :=
  (loop_attends welcomed_reachable (by decide)).2.2 [(3, readable), (5, readable)] (by decide)
    (List.cons_ne_nil _ _)

/-- With it the array of one element is too small. -/
theorem loop_room_iff_welcomed :
    ¬ ∀ w, welcomed.Polled w → (welcomed.wait 1 (-1) false w).Within 1 := by
  rw [loop_room_iff welcomed_reachable (by decide)]
  exact Nat.lt_irrefl 1

/-- The kernel refuses to delete a descriptor. -/
def stubborn : Env Unit := { quiet with faults := fun _ => some (ascii "Cannot allocate memory") }

/-- A client that has hung up, and was not deleted. -/
def refusedLeave : Server Unit := welcomed.after ⟨readableHangup, some 0⟩ stubborn

theorem refusedLeave_step : (looping Unit 1 (-1) false).step welcomed
    (.round (readied 5 ⟨readableHangup, some 0⟩ stubborn)) refusedLeave := by
  refine readied_step (by decide) (by decide) rfl rfl ⟨?_, nofun⟩ rfl rfl
  rintro fd h ⟨⟩

/-- Only the socket is left, and the client is counted for good. -/
theorem count_drift_refused : refusedLeave.clientFds = [] ∧ refusedLeave.mux.count = 2 := by
  have hgone : refusedLeave.clientFds = [] := rfl
  have hcount := count_drift (started_init 1 (-1) false)
    ((System.Run.single welcomed_step).snoc refusedLeave_step) (by decide)
  rw [hgone] at hcount
  exact ⟨hgone, hcount⟩

end Server
end Libae
