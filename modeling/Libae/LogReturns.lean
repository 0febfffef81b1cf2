import Libae.LogLock

/-! # When the calls of `ae_log` return

The lock of the log is not recursive.  A handler that logs a record to its own log takes the
lock that its thread already holds, and waits for itself, unless the mask drops the record
(`SelfLocked`).  From then on nothing is logged any more, by no thread (`silent_run`).  There is
no other way to be stuck: without such a record all calls return, after at most as many
steps as there are bytes to store and calls to end (`returns_iff`).
-/
namespace Libae
open ByteMemory Runs

/-- The steps a call still takes. -/
def LogCall.work (c : LogCall) : Nat :=
  match c.pc with
  | .checking => (Log.stores c.lvl c.text).length + 5
  | .locking => (Log.stores c.lvl c.text).length + 4
  | .writing todo => todo.length + 3
  | .handling => 2
  | .returning => 1

namespace LogThreads
variable {τ : Type} [DecidableEq τ] {log : Log} {s u : LogThreads τ} {a : LogAction τ} {t : τ}

/-- A handler has logged a record that the mask lets through. -/
def SelfLocked (s : LogThreads τ) : Prop :=
  ∃ t c' c, s.calls t = [c', c] ∧ s.log.Passes c'.lvl

/-- No thread is in `ae_log`. -/
def Quiet (s : LogThreads τ) : Prop := ∀ t, s.calls t = []

/-- The step goes on with a call that was made before. -/
def goesOn : LogAction τ → Prop
  | .call _ _ _ => False
  | _ => True

/-- The threads end their calls, and make no new ones. -/
def ending (τ : Type) [DecidableEq τ] (log : Log) : System (LogThreads τ) (LogAction τ) :=
  (threads τ log).restrict (fun _ a => goesOn a)

/-! ## A call takes so many steps -/

/-- The steps a thread still takes. -/
def workOf (calls : List LogCall) : Nat := (calls.map LogCall.work).sum

theorem workOf_cons (c : LogCall) (rest : List LogCall) :
    workOf (c :: rest) = c.work + workOf rest := by
  rw [workOf, List.map_cons, List.sum_cons]
  rfl

/-- The thread of a step has fewer steps to take. -/
theorem work_step (h : Step s a u) (ha : goesOn a) :
    ∃ t calls, u.calls = Function.update s.calls t calls ∧ workOf calls < workOf (s.calls t) := by
  cases h with
  | call _ => exact ha.elim
  | drop hc _ | pass hc _ | lock hc _ | store hc | deliver hc | unlock hc =>
    refine ⟨_, _, rfl, ?_⟩
    rw [hc, workOf_cons, workOf_cons]
    simp [LogCall.work]
  | ret hc =>
    refine ⟨_, _, rfl, ?_⟩
    rw [hc, workOf_cons]
    simp [LogCall.work]

section Threads
variable [Fintype τ]

/-- The steps the threads still take, if they make no new calls. -/
def work (s : LogThreads τ) : Nat := ∑ t, workOf (s.calls t)

theorem work_decreases (h : (ending τ log).step s a u) : u.work < s.work := by
  obtain ⟨t, calls, hcalls, hless⟩ := work_step h.2 h.1
  rw [work, hcalls]
  exact System.sum_update_lt workOf s.calls hless

end Threads

/-! ## Who goes on -/

/-- A thread whose innermost call is not waiting for the lock has a step. -/
theorem step_of_cons (log : Log) {c : LogCall} {rest : List LogCall} (hc : s.calls t = c :: rest)
    (hlock : c.pc = .locking → s.owner = none) : ∃ a u, (ending τ log).step s a u := by
  suffices h : ∃ a u, goesOn a ∧ Step s a u from h
  obtain ⟨lvl, text, pc⟩ := c
  cases pc with
  | checking =>
    by_cases hp : s.log.Passes lvl
    · exact ⟨.pass t, _, trivial, .pass hc hp⟩
    · exact ⟨.drop t, _, trivial, .drop hc hp⟩
  | locking => exact ⟨.lock t, _, trivial, .lock hc (hlock rfl)⟩
  | writing todo =>
    cases todo with
    | nil => exact ⟨.deliver t, _, trivial, .deliver hc⟩
    | cons w todo => exact ⟨.store t, _, trivial, .store hc⟩
  | handling => exact ⟨.unlock t, _, trivial, .unlock hc⟩
  | returning => exact ⟨.ret t, _, trivial, .ret hc⟩

/-- **Who waits for whom.**  If no thread has a step, then none is in a call, or the owner of
the lock waits for it in its handler. -/
theorem quiet_or_selfLocked (hs : s.Inv log) (hstuck : ∀ a u, ¬ (ending τ log).step s a u) :
    s.Quiet ∨ s.SelfLocked := by
  -- every thread that is in a call waits for a lock that is taken
  have hwaits : ∀ t c rest, s.calls t = c :: rest → c.pc = .locking ∧ s.owner ≠ none := by
    intro t c rest hc
    by_contra hno
    rw [not_and_not_right] at hno
    obtain ⟨a, u, hst⟩ := step_of_cons log hc hno
    exact hstuck a u hst
  by_cases hquiet : s.Quiet
  · exact .inl hquiet
  · right
    obtain ⟨t, ht⟩ := not_forall.mp hquiet
    obtain ⟨c, rest, hc⟩ := List.exists_cons_of_ne_nil ht
    obtain ⟨o, ho⟩ := Option.ne_none_iff_exists'.mp (hwaits t c rest hc).2
    have hshape := hs.shape o
    cases hcalls : s.calls o with
    | nil =>
      rw [hcalls] at hshape
      cases hshape with
      | none hno => exact absurd ho hno
    | cons d rest =>
      obtain ⟨hpc, -⟩ := hwaits o d rest hcalls
      rw [hcalls] at hshape
      cases hshape with
      | single hiff _ =>
        have hholds := hiff.mpr ho
        rw [hpc] at hholds
        cases hholds
      | nested _ _ _ hlock _ => exact ⟨o, d, _, hcalls, hlock hpc⟩

/-! ## A thread that waits for itself -/

/-- **A thread that waits for itself** still does after every step, and nothing is handed
over. -/
theorem selfLocked_step (hs : s.Inv log) (hlocked : s.SelfLocked) (h : Step s a u) :
    u.SelfLocked ∧ u.records = s.records ∧ u.log = s.log := by
  obtain ⟨t, c', c, hc, hp⟩ := hlocked
  have hshape := hs.shape t
  rw [hc] at hshape
  cases hshape with
  | nested hown hpc hno hlock hret =>
    have hreturning : c'.pc ≠ .returning := fun h => hret h hp
    -- a step of another thread leaves the thread as it is
    have hother : ∀ {t' : τ} {calls : List LogCall}, t' ≠ t →
        Function.update s.calls t' calls t = [c', c] := by
      intro t' calls ht
      rw [Function.update_of_ne ht.symm, hc]
    have halone : ∀ {t' : τ} {d : LogCall} {rest : List LogCall}, s.calls t' = d :: rest →
        d.pc.holds = true → False := by
      intro t' d rest hd hholds
      obtain ⟨ho, -⟩ := (hd ▸ hs.shape t').head hholds
      obtain rfl : t = t' := Option.some.inj (hown.symm.trans ho)
      rw [hc] at hd
      obtain rfl := (List.cons.inj hd).1
      rw [hno] at hholds
      cases hholds
    cases h with
    | @call t' lvl text hmay =>
      refine ⟨⟨t, c', c, hother ?_, hp⟩, rfl, rfl⟩
      rintro rfl
      rcases hmay with hnil | ⟨-, d, rest, hd, hpcd⟩
      · rw [hc] at hnil
        cases hnil
      · exact halone hd (by rw [hpcd]; rfl)
    | @drop t' lvl text rest hd hnp =>
      refine ⟨⟨t, c', c, hother ?_, hp⟩, rfl, rfl⟩
      rintro rfl
      rw [hc] at hd
      obtain rfl := (List.cons.inj hd).1
      exact hnp hp
    | @pass t' lvl text rest hd hpd =>
      refine ⟨?_, rfl, rfl⟩
      by_cases ht : t' = t
      · subst ht
        rw [hc] at hd
        obtain ⟨rfl, rfl⟩ := List.cons.inj hd
        exact ⟨t', _, c, Function.update_self .., hpd⟩
      · exact ⟨t, c', c, hother ht, hp⟩
    | lock _ hfree =>
      rw [hfree] at hown
      cases hown
    | store hd | deliver hd | unlock hd => exact (halone hd rfl).elim
    | @ret t' lvl text rest hd =>
      refine ⟨⟨t, c', c, hother ?_, hp⟩, rfl, rfl⟩
      rintro rfl
      rw [hc] at hd
      obtain rfl := (List.cons.inj hd).1
      exact hreturning rfl

theorem selfLocked_run {τs : List (Transition (LogThreads τ) (LogAction τ))} (hs : s.Inv log)
    (hlocked : s.SelfLocked) (hr : (threads τ log).Run s τs u) :
    u.SelfLocked ∧ u.records = s.records ∧ u.log = s.log := by
  induction hr with
  | nil => exact ⟨hlocked, rfl, rfl⟩
  | snoc hr hst ih =>
    obtain ⟨hl, hrec, hlog⟩ := ih
    obtain ⟨hl', hrec', hlog'⟩ := selfLocked_step (hr.invariant (fun _ _ _ => Inv.step) hs) hl hst
    exact ⟨hl', hrec'.trans hrec, hlog'.trans hlog⟩

/-! ## Returning -/

/-- **A handler that has logged a record** did so by a call. -/
theorem selfLocked_of_step (hs : s.Inv log) (h : (ending τ log).step s a u)
    (hlocked : u.SelfLocked) : s.SelfLocked := by
  obtain ⟨ha, hst⟩ := h
  obtain ⟨t, c', c, hc, hp⟩ := hlocked
  have hmask : u.log.mask = s.log.mask := (hs.step hst).mask.trans hs.mask.symm
  have hpasses : s.log.Passes c'.lvl := by
    rw [Log.Passes, ← hmask]
    exact hp
  -- the thread of the step goes on with a call of the same level
  have hsame : ∀ {t' : τ} {d d' : LogCall} {rest : List LogCall}, s.calls t' = d :: rest →
      u.calls = Function.update s.calls t' (d' :: rest) → d'.lvl = d.lvl → s.SelfLocked := by
    intro t' d d' rest hd hcalls hlvl
    rw [hcalls] at hc
    by_cases ht : t = t'
    · subst ht
      rw [Function.update_self] at hc
      obtain ⟨rfl, rfl⟩ := List.cons.inj hc
      exact ⟨t, d, c, hd, hlvl ▸ hpasses⟩
    · rw [Function.update_of_ne ht] at hc
      exact ⟨t, c', c, hc, hpasses⟩
  cases hst with
  | call _ => exact ha.elim
  | drop hd _ | pass hd _ | lock hd _ | store hd | deliver hd | unlock hd => exact hsame hd rfl rfl
  | @ret t' lvl text rest hd =>
    rw [put_calls] at hc
    by_cases ht : t = t'
    · subst ht
      rw [Function.update_self] at hc
      have hshape := hs.shape t
      rw [hd, hc] at hshape
      cases hshape
    · rw [Function.update_of_ne ht] at hc
      exact ⟨t, c', c, hc, hpasses⟩

/-- **When the calls return.**  Threads that make no new calls take at most `work` steps from
any state they can reach.  Where they stop, all calls have returned, exactly if no handler
has logged a record that the mask lets through. -/
theorem returns_iff [Fintype τ] (hs : (threads τ log).Reachable s) :
    (∀ τs u, (ending τ log).Run s τs u → τs.length ≤ s.work) ∧
      ((∀ τs u, (ending τ log).Run s τs u → (∀ a v, ¬ (ending τ log).step u a v) → u.Quiet) ↔
        ¬ s.SelfLocked) := by
  have hinv := inv_reachable hs
  have hkeep : ∀ s a u, Inv log s → (ending τ log).step s a u → Inv log u :=
    fun _ _ _ hs h => hs.step h.2
  have hmoves : ∀ s, Inv log s → ¬ (s.Quiet ∨ s.SelfLocked) →
      ∃ a v, (ending τ log).step s a v := by
    intro s hs hno
    by_contra hstuck
    exact hno (quiet_or_selfLocked hs fun a v hst => hstuck ⟨a, v, hst⟩)
  have hprogress : (ending τ log).Progress (Inv log) work (fun s => s.Quiet ∨ s.SelfLocked) :=
    ⟨hkeep, fun _ _ _ _ => work_decreases, hmoves⟩
  refine ⟨fun τs u hr => ?_, fun hall hlocked => ?_, fun hnot τs u hr hstuck => ?_⟩
  · have hle := hprogress.length_le hr hinv
    omega
  · obtain ⟨τs, u, hr, hstuck⟩ := hprogress.stops hinv
    obtain ⟨⟨t, c', c, hc, -⟩, -, -⟩ := selfLocked_run hinv hlocked hr.of_restrict
    rw [hall τs u hr hstuck t] at hc
    cases hc
  · have hback : ∀ s a u, (Inv log s ∧ ¬ s.SelfLocked) → (ending τ log).step s a u →
        Inv log u ∧ ¬ u.SelfLocked := fun _ _ _ h hst =>
      ⟨h.1.step hst.2, fun hlocked => h.2 (selfLocked_of_step h.1 hst hlocked)⟩
    have hfree := (hr.invariant hback ⟨hinv, hnot⟩).2
    exact (hprogress.ends hr hinv hstuck).resolve_right hfree

/-- A thread in its handler. -/
theorem returns_iff_hello : ∃ s : LogThreads Unit, (threads Unit Log.all).Reachable s ∧
    ∀ τs u, (ending Unit Log.all).Run s τs u → (∀ a v, ¬ (ending Unit Log.all).step u a v) →
      u.Quiet := by
  obtain ⟨log, records, -, -, hr⟩ :=
    handling_reachable (Log.all_open.passes .info) () (ascii "hello")
  refine ⟨_, hr, (returns_iff hr).2.mpr ?_⟩
  rintro ⟨⟨⟩, c', c, hc, -⟩
  rw [alone_calls] at hc
  cases hc

/-- **Behind a record of a handler** nothing is logged any more.  From a state in which a
handler has logged a record that the mask lets through, no run of the threads, with whatever
new calls, hands a record over or stores a byte, and that call never returns. -/
theorem silent_run {τs : List (Transition (LogThreads τ) (LogAction τ))}
    (hs : (threads τ log).Reachable s) (hlocked : s.SelfLocked)
    (hr : (threads τ log).Run s τs u) : u.records = s.records ∧ u.log = s.log ∧ u.SelfLocked := by
  obtain ⟨hl, hrec, hlog⟩ := selfLocked_run (inv_reachable hs) hlocked hr
  exact ⟨hrec, hlog, hl⟩

/-- A handler that logs a record. -/
theorem selfLocked_reachable {lvl : LogLevel} (hhandler : log.handler = true)
    (hp : log.Passes lvl) (t : τ) : ∃ s, (threads τ log).Reachable s ∧ s.SelfLocked := by
  obtain ⟨log', records, hhandler', hmask, hr⟩ := handling_reachable hp t []
  have hcalls := alone_calls log' t ⟨lvl, [], .handling⟩ (some t) records
  have hst : Step (alone log' t ⟨lvl, [], .handling⟩ (some t) records) (.call t lvl []) _ :=
    .call (.inr ⟨hhandler'.trans hhandler, _, _, hcalls, rfl⟩)
  refine ⟨_, hr.step hst, t, ⟨lvl, [], .checking⟩, ⟨lvl, [], .handling⟩, ?_, ?_⟩
  · rw [put_calls, Function.update_self, hcalls]
  · show log'.Passes lvl
    rw [Log.Passes, hmask]
    exact hp

/-- A handler that has logged a record, and what comes then. -/
theorem silent_run_hello : ∃ s, (threads Unit Log.all).Reachable s ∧
    ∀ τs u, (threads Unit Log.all).Run s τs u → u.records = s.records := by
  obtain ⟨s, hs, hlocked⟩ := selfLocked_reachable rfl (Log.all_open.passes .info) ()
  exact ⟨s, hs, fun τs u hr => (silent_run hs hlocked hr).1⟩

end LogThreads
end Libae
