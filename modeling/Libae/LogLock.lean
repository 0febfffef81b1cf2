import Libae.Log
import Libae.Progress

/-! # The lock of the log

Any number of threads log to one `ae_log_t` (`log.c`).  `ae_logv` looks at the mask, takes
the lock, prints to the buffer byte by byte, hands the buffer to the handler or to `syslog`,
and unlocks.  While the handler runs it may itself call `ae_log`: `threads` are the steps of
all these calls in any interleaving.  `AE_LOG`, `ae_log` and `ae_logv` each look at the mask,
which nobody changes here, so that one look stands for all of them.

* Whatever the interleaving, the log behaves as if every call took place at one instant
  between its start and its return (`linearizes`).
* The text a handler is given does not change while it runs (`handled_text`).
* The lock is not recursive.  The calls all return exactly if no handler has logged a record
  that the mask lets through (`returns_iff`), and behind such a record nothing is logged any
  more (`silent_run`).
-/
namespace Libae
open ByteMemory Runs

/-! ## The calls -/

namespace Log

/-- What `ae_logv` stores for a record, in order. -/
def stores (lvl : LogLevel) (text : Text) : List Write :=
  let len := size - 1
  let level := Str.vsnprintf 0 len (lvl.toText ++ ascii " ")
  let rest := if 0 < level.1 ∧ level.1 ≤ len then (level.1, len - level.1) else (0, len)
  (len, nul) :: level.2 ++ (Str.vsnprintf rest.1 rest.2 text).2

theorem printed_stores (self : Log) (lvl : LogLevel) (text : Text) :
    self.printed lvl text = commit self.buf (stores lvl text) := rfl

/-- The buffer as it goes to the handler, or to `syslog`. -/
def record (self : Log) (lvl : LogLevel) : LogRecord :=
  let msg := cString self.buf 0 size
  if self.handler then .handler lvl msg else .syslog lvl.toSyslog msg

/-- The record of a text that has been printed. -/
theorem record_printed {self : Log} (h : self.handler = true) (lvl : LogLevel) {text : Text}
    (htext : nul ∉ text) : { self with buf := commit self.buf (stores lvl text) }.record lvl =
      .handler lvl ((lvl.toText ++ ascii " " ++ text).take 3998) := by
  rw [← cString_printed self lvl htext, printed_stores]
  exact if_pos h

/-- A record that the mask lets through. -/
theorem log_passes {self : Log} {lvl : LogLevel} (h : self.Passes lvl) (text : Text) :
    self.log lvl text = ({ self with buf := commit self.buf (stores lvl text) },
      [{ self with buf := commit self.buf (stores lvl text) }.record lvl]) := by
  rw [log, if_pos h, logv, if_pos h, printed_stores]
  rfl

end Log

/-- Where a call of `ae_log` stands.  It is `writing` and `handling` under the lock. -/
inductive LogPc
  | checking
  | locking
  | writing (todo : List Write)
  | handling
  | returning

/-- The call holds the lock. -/
def LogPc.holds : LogPc → Bool
  | .writing _ | .handling => true
  | _ => false

/-- The call has had its effect. -/
def LogPc.performed : LogPc → Bool
  | .checking | .locking => false
  | _ => true

/-- A call of `ae_log` with its formatted text. -/
structure LogCall where
  lvl : LogLevel
  text : Text
  pc : LogPc

/-- A log and the calls of the threads, for each thread the innermost first, and the records
handed over so far. -/
structure LogThreads (τ : Type) where
  log : Log
  owner : Option τ
  calls : τ → List LogCall
  records : List LogRecord

/-- What a thread does next. -/
inductive LogAction (τ : Type)
  | call (t : τ) (lvl : LogLevel) (text : Text)
  | drop (t : τ)
  | pass (t : τ)
  | lock (t : τ)
  | store (t : τ)
  | deliver (t : τ)
  | unlock (t : τ)
  | ret (t : τ)

namespace LogThreads
variable {τ : Type} [DecidableEq τ]

/-- The thread goes on with these calls. -/
def put (s : LogThreads τ) (t : τ) (calls : List LogCall) : LogThreads τ :=
  { s with calls := Function.update s.calls t calls }

@[simp] theorem put_log (s : LogThreads τ) (t : τ) (calls : List LogCall) :
    (s.put t calls).log = s.log := rfl

@[simp] theorem put_owner (s : LogThreads τ) (t : τ) (calls : List LogCall) :
    (s.put t calls).owner = s.owner := rfl

@[simp] theorem put_records (s : LogThreads τ) (t : τ) (calls : List LogCall) :
    (s.put t calls).records = s.records := rfl

@[simp] theorem put_calls (s : LogThreads τ) (t : τ) (calls : List LogCall) :
    (s.put t calls).calls = Function.update s.calls t calls := rfl

/-- The thread is not in `ae_log`, or in a handler that `ae_log` has called. -/
def MayCall (s : LogThreads τ) (t : τ) : Prop :=
  s.calls t = [] ∨ s.log.handler = true ∧ ∃ c rest, s.calls t = c :: rest ∧ c.pc = .handling

/-- One step of one thread.  `pthread_mutex_lock` returns once nobody holds the lock. -/
inductive Step : LogThreads τ → LogAction τ → LogThreads τ → Prop
  | call {s : LogThreads τ} {t : τ} {lvl : LogLevel} {text : Text} : s.MayCall t →
      Step s (.call t lvl text) (s.put t (⟨lvl, text, .checking⟩ :: s.calls t))
  | drop {s : LogThreads τ} {t : τ} {lvl : LogLevel} {text : Text} {rest : List LogCall} :
      s.calls t = ⟨lvl, text, .checking⟩ :: rest → ¬ s.log.Passes lvl →
      Step s (.drop t) (s.put t (⟨lvl, text, .returning⟩ :: rest))
  | pass {s : LogThreads τ} {t : τ} {lvl : LogLevel} {text : Text} {rest : List LogCall} :
      s.calls t = ⟨lvl, text, .checking⟩ :: rest → s.log.Passes lvl →
      Step s (.pass t) (s.put t (⟨lvl, text, .locking⟩ :: rest))
  | lock {s : LogThreads τ} {t : τ} {lvl : LogLevel} {text : Text} {rest : List LogCall} :
      s.calls t = ⟨lvl, text, .locking⟩ :: rest → s.owner = none →
      Step s (.lock t)
        { s.put t (⟨lvl, text, .writing (Log.stores lvl text)⟩ :: rest) with owner := some t }
  | store {s : LogThreads τ} {t : τ} {lvl : LogLevel} {text : Text} {w : Write}
      {todo : List Write} {rest : List LogCall} :
      s.calls t = ⟨lvl, text, .writing (w :: todo)⟩ :: rest →
      Step s (.store t) { s.put t (⟨lvl, text, .writing todo⟩ :: rest) with
        log := { s.log with buf := commit s.log.buf [w] } }
  | deliver {s : LogThreads τ} {t : τ} {lvl : LogLevel} {text : Text} {rest : List LogCall} :
      s.calls t = ⟨lvl, text, .writing []⟩ :: rest →
      Step s (.deliver t) { s.put t (⟨lvl, text, .handling⟩ :: rest) with
        records := s.records ++ [s.log.record lvl] }
  | unlock {s : LogThreads τ} {t : τ} {lvl : LogLevel} {text : Text} {rest : List LogCall} :
      s.calls t = ⟨lvl, text, .handling⟩ :: rest →
      Step s (.unlock t) { s.put t (⟨lvl, text, .returning⟩ :: rest) with owner := none }
  | ret {s : LogThreads τ} {t : τ} {lvl : LogLevel} {text : Text} {rest : List LogCall} :
      s.calls t = ⟨lvl, text, .returning⟩ :: rest → Step s (.ret t) (s.put t rest)

/-- Nobody has called yet. -/
def idle (log : Log) : LogThreads τ := ⟨log, none, fun _ => [], []⟩

/-- The threads that share a log. -/
def threads (τ : Type) [DecidableEq τ] (log : Log) : System (LogThreads τ) (LogAction τ) where
  init s := s = idle log
  step := Step

/-! ## Mutual exclusion -/

/-- The calls of one thread, which owns the lock or does not.  A handler can call `ae_log`,
but no call that is made there gets the lock. -/
inductive Shaped (log : Log) (own : Prop) : List LogCall → Prop
  | none : ¬ own → Shaped log own []
  | single {c : LogCall} : (c.pc.holds = true ↔ own) → (c.pc = .locking → log.Passes c.lvl) →
      Shaped log own [c]
  | nested {c c' : LogCall} : own → c.pc = .handling → c'.pc.holds = false →
      (c'.pc = .locking → log.Passes c'.lvl) → (c'.pc = .returning → ¬ log.Passes c'.lvl) →
      Shaped log own [c', c]

/-- What every step keeps: nobody but the owner of the lock writes or handles, and what is in
the buffer and what is still to be stored is one record. -/
structure Inv (log : Log) (s : LogThreads τ) : Prop where
  mask : s.log.mask = log.mask
  handler : s.log.handler = log.handler
  shape : ∀ t, Shaped s.log (s.owner = some t) (s.calls t)
  record : ∀ t, s.owner = some t → ∀ c ∈ s.calls t, ∀ todo,
    (c.pc = .writing todo ∨ c.pc = .handling ∧ todo = []) →
      ∃ buf, commit s.log.buf todo = commit buf (Log.stores c.lvl c.text)

section Invariant
variable {log : Log} {s u : LogThreads τ} {a : LogAction τ} {t : τ}

theorem Shaped.congr {log log' : Log} {own own' : Prop} {calls : List LogCall}
    (h : Shaped log own calls) (hmask : log'.mask = log.mask) (hown : own' ↔ own) :
    Shaped log' own' calls := by
  have hpasses : ∀ lvl, log'.Passes lvl ↔ log.Passes lvl := by
    intro lvl
    rw [Log.Passes, Log.Passes, hmask]
  obtain rfl : own' = own := propext hown
  cases h with
  | none hno => exact .none hno
  | single hholds hlock => exact .single hholds fun hpc => (hpasses _).mpr (hlock hpc)
  | nested ho hc hc' hlock hret =>
    exact .nested ho hc hc' (fun hpc => (hpasses _).mpr (hlock hpc))
      fun hpc hp => hret hpc ((hpasses _).mp hp)

/-- The innermost call tells whether the thread owns the lock, unless it was made by a
handler. -/
theorem Shaped.head {own : Prop} {c : LogCall} {rest : List LogCall}
    (h : Shaped log own (c :: rest)) (hholds : c.pc.holds = true) : own ∧ rest = [] := by
  cases h with
  | single hiff _ => exact ⟨hiff.mp hholds, rfl⟩
  | nested _ _ hno _ _ =>
    rw [hno] at hholds
    cases hholds

/-- The shapes after a step of one thread, from its own. -/
theorem shape_put (hs : s.Inv log) {log' : Log} {owner : Option τ} {calls : List LogCall}
    (hmask : log'.mask = s.log.mask) (hown : Shaped s.log (owner = some t) calls)
    (hother : ∀ t', t' ≠ t → (owner = some t' ↔ s.owner = some t')) (t' : τ) :
    Shaped log' (owner = some t') (Function.update s.calls t calls t') := by
  by_cases ht : t' = t
  · subst ht
    rw [Function.update_self]
    exact hown.congr hmask Iff.rfl
  · rw [Function.update_of_ne ht]
    exact (hs.shape t').congr hmask (hother t' ht)

/-- The owner of the lock, when one thread takes a step that leaves the lock as it is. -/
theorem record_put (hs : s.Inv log) {calls : List LogCall}
    (hcalls : s.owner = some t → ∀ c ∈ calls, c ∈ s.calls t ∨ c.pc.holds = false) (t' : τ)
    (ho : s.owner = some t') (c : LogCall) (hc : c ∈ Function.update s.calls t calls t')
    (todo : List Write) (hpc : c.pc = .writing todo ∨ c.pc = .handling ∧ todo = []) :
    ∃ buf, commit s.log.buf todo = commit buf (Log.stores c.lvl c.text) := by
  by_cases ht : t' = t
  · subst ht
    rw [Function.update_self] at hc
    rcases hcalls ho c hc with hold | hno
    · exact hs.record t' ho c hold todo hpc
    · rcases hpc with hpc | ⟨hpc, -⟩ <;> simp [hpc, LogPc.holds] at hno
  · rw [Function.update_of_ne ht] at hc
    exact hs.record t' ho c hc todo hpc

/-- The owner of the lock, when one thread takes a step that leaves it with the lock and one
call. -/
theorem record_inside {c₀ : LogCall} {owner : Option τ} {buf : Mem} (hown : owner = some t)
    (hstored : ∀ todo, (c₀.pc = .writing todo ∨ c₀.pc = .handling ∧ todo = []) →
      ∃ old, commit buf todo = commit old (Log.stores c₀.lvl c₀.text)) (t' : τ)
    (ho : owner = some t') (c : LogCall) (hc : c ∈ Function.update s.calls t [c₀] t')
    (todo : List Write) (hpc : c.pc = .writing todo ∨ c.pc = .handling ∧ todo = []) :
    ∃ old, commit buf todo = commit old (Log.stores c.lvl c.text) := by
  obtain rfl : t = t' := Option.some.inj (hown.symm.trans ho)
  rw [Function.update_self, List.mem_singleton] at hc
  subst hc
  exact hstored todo hpc

omit [DecidableEq τ] in
/-- The record that a call is storing. -/
theorem Inv.storing (hs : s.Inv log) (hown : s.owner = some t) {lvl : LogLevel} {text : Text}
    {todo : List Write} (hc : s.calls t = [⟨lvl, text, .writing todo⟩]) :
    ∃ old, commit s.log.buf todo = commit old (Log.stores lvl text) := by
  have hmem : ⟨lvl, text, .writing todo⟩ ∈ s.calls t := by
    rw [hc]
    exact List.mem_singleton_self _
  exact hs.record t hown _ hmem todo (.inl rfl)

omit [DecidableEq τ] in
/-- The innermost call is replaced by one that does not hold the lock. -/
theorem mem_replace {c c' : LogCall} {rest : List LogCall} (hc : s.calls t = c :: rest)
    (hno : c'.pc.holds = false) : ∀ d ∈ c' :: rest, d ∈ s.calls t ∨ d.pc.holds = false := by
  intro d hd
  rw [hc]
  rcases List.mem_cons.mp hd with rfl | hold
  · exact .inr hno
  · exact .inl (List.mem_cons_of_mem _ hold)

omit [DecidableEq τ] in
theorem inv_idle : (idle log : LogThreads τ).Inv log where
  mask := rfl
  handler := rfl
  shape := fun _ => .none (by simp [idle])
  record := fun _ ho => by cases ho

/-- **Every step** keeps the invariant. -/
theorem Inv.step (hs : s.Inv log) (h : Step s a u) : u.Inv log := by
  cases h with
  | @call t lvl text hmay =>
    refine ⟨hs.mask, hs.handler, shape_put hs rfl ?_ (fun _ _ => Iff.rfl), record_put hs ?_⟩
    · have hshape := hs.shape t
      rcases hmay with hnil | ⟨-, c, rest, hc, hpc⟩
      · rw [hnil] at hshape ⊢
        cases hshape with
        | none hno => exact .single (by simpa [LogPc.holds] using hno) (fun h => by cases h)
      · rw [hc] at hshape ⊢
        obtain ⟨hown, rfl⟩ := hshape.head (by rw [hpc]; rfl)
        exact .nested hown hpc rfl (fun h => by cases h) (fun h => by cases h)
    · intro _ c hc
      rcases List.mem_cons.mp hc with rfl | hold
      · exact .inr rfl
      · exact .inl hold
  | @drop t lvl text rest hc hno =>
    refine ⟨hs.mask, hs.handler, shape_put hs rfl ?_ (fun _ _ => Iff.rfl), record_put hs ?_⟩
    · have hshape := hs.shape t
      rw [hc] at hshape
      cases hshape with
      | single hiff _ => exact .single hiff (fun h => by cases h)
      | nested ho hpc _ _ _ => exact .nested ho hpc rfl (fun h => by cases h) (fun _ => hno)
    · exact fun _ => mem_replace hc rfl
  | @pass t lvl text rest hc hp =>
    refine ⟨hs.mask, hs.handler, shape_put hs rfl ?_ (fun _ _ => Iff.rfl), record_put hs ?_⟩
    · have hshape := hs.shape t
      rw [hc] at hshape
      cases hshape with
      | single hiff _ => exact .single hiff (fun _ => hp)
      | nested ho hpc _ _ _ => exact .nested ho hpc rfl (fun _ => hp) (fun h => by cases h)
    · exact fun _ => mem_replace hc rfl
  | @lock t lvl text rest hc hfree =>
    have hshape := hs.shape t
    rw [hc] at hshape
    obtain rfl : rest = [] := by
      cases hshape with
      | single _ _ => rfl
      | nested ho _ _ _ _ =>
        rw [hfree] at ho
        cases ho
    refine ⟨hs.mask, hs.handler, shape_put hs rfl (.single (by simp [LogPc.holds])
      (fun h => by cases h)) (fun t' ht => by simp [hfree, Ne.symm ht]),
      record_inside rfl fun todo hpc => ?_⟩
    rcases hpc with hpc | ⟨hpc, -⟩
    · cases hpc
      exact ⟨s.log.buf, rfl⟩
    · cases hpc
  | @store t lvl text w todo rest hc =>
    have hshape := hs.shape t
    rw [hc] at hshape
    obtain ⟨hown, rfl⟩ := hshape.head rfl
    refine ⟨hs.mask, hs.handler, shape_put hs rfl (.single (by simp [LogPc.holds, hown])
      (fun h => by cases h)) (fun _ _ => Iff.rfl), record_inside hown fun todo' hpc => ?_⟩
    rcases hpc with hpc | ⟨hpc, -⟩
    · cases hpc
      obtain ⟨old, hold⟩ := hs.storing hown hc
      exact ⟨old, by rw [← hold, ← commit_append, List.singleton_append]⟩
    · cases hpc
  | @deliver t lvl text rest hc =>
    have hshape := hs.shape t
    rw [hc] at hshape
    obtain ⟨hown, rfl⟩ := hshape.head rfl
    refine ⟨hs.mask, hs.handler, shape_put hs rfl (.single (by simp [LogPc.holds, hown])
      (fun h => by cases h)) (fun _ _ => Iff.rfl), record_inside hown fun todo' hpc => ?_⟩
    rcases hpc with hpc | ⟨-, rfl⟩
    · cases hpc
    · exact hs.storing hown hc
  | @unlock t lvl text rest hc =>
    have hshape := hs.shape t
    rw [hc] at hshape
    obtain ⟨hown, rfl⟩ := hshape.head rfl
    exact ⟨hs.mask, hs.handler, shape_put hs rfl (.single (by simp [LogPc.holds])
      (fun h => by cases h)) (fun t' ht => by simp [hown, Ne.symm ht]), fun _ ho => by cases ho⟩
  | @ret t lvl text rest hc =>
    refine ⟨hs.mask, hs.handler, shape_put hs rfl ?_ (fun _ _ => Iff.rfl), record_put hs ?_⟩
    · have hshape := hs.shape t
      rw [hc] at hshape
      cases hshape with
      | single hiff _ => exact .none (by simpa [LogPc.holds] using hiff)
      | nested ho hpc _ _ _ =>
        exact .single (by simp [hpc, LogPc.holds, ho]) (fun h => by rw [hpc] at h; cases h)
    · intro _ c hmem
      rw [hc]
      exact .inl (List.mem_cons_of_mem _ hmem)

theorem inv_reachable (h : (threads τ log).Reachable s) : s.Inv log :=
  h.invariant (fun _ h => h ▸ inv_idle) fun _ _ _ => Inv.step

end Invariant

/-! ## One instant for each call -/

/-- What a thread does that the program sees. -/
inductive Event (τ : Type)
  | call (t : τ) (lvl : LogLevel) (text : Text)
  | ret (t : τ)

end LogThreads

/-- The calls and returns among the steps. -/
def LogAction.event {τ : Type} : LogAction τ → Option (LogThreads.Event τ)
  | .call t lvl text => some (.call t lvl text)
  | .ret t => some (.ret t)
  | _ => none

/-- A call of `ae_log` that has had its effect or not. -/
structure AtomicCall where
  lvl : LogLevel
  text : Text
  performed : Bool

/-- A call has its effect as it takes the lock, or as the mask drops it. -/
def LogCall.atomic (c : LogCall) : AtomicCall := ⟨c.lvl, c.text, c.pc.performed⟩

/-- A log whose calls have their effect at one instant. -/
structure AtomicLog (τ : Type) where
  log : Log
  calls : τ → List AtomicCall
  records : List LogRecord

/-- What a thread does next with such a log. -/
inductive AtomicAction (τ : Type)
  | call (t : τ) (lvl : LogLevel) (text : Text)
  | perform (t : τ)
  | ret (t : τ)

/-- The calls and returns among the steps. -/
def AtomicAction.event {τ : Type} : AtomicAction τ → Option (LogThreads.Event τ)
  | .call t lvl text => some (.call t lvl text)
  | .ret t => some (.ret t)
  | .perform _ => none

namespace AtomicLog
variable {τ : Type} [DecidableEq τ]

/-- One step: `perform` is one call of `ae_log`, from its start to its end. -/
inductive Step : AtomicLog τ → AtomicAction τ → AtomicLog τ → Prop
  | call {s : AtomicLog τ} {t : τ} {lvl : LogLevel} {text : Text} :
      (∀ c ∈ (s.calls t).head?, c.performed = true) →
      Step s (.call t lvl text)
        { s with calls := Function.update s.calls t (⟨lvl, text, false⟩ :: s.calls t) }
  | perform {s : AtomicLog τ} {t : τ} {lvl : LogLevel} {text : Text} {rest : List AtomicCall} :
      s.calls t = ⟨lvl, text, false⟩ :: rest →
      Step s (.perform t) ⟨(s.log.log lvl text).1,
        Function.update s.calls t (⟨lvl, text, true⟩ :: rest),
        s.records ++ (s.log.log lvl text).2⟩
  | ret {s : AtomicLog τ} {t : τ} {lvl : LogLevel} {text : Text} {rest : List AtomicCall} :
      s.calls t = ⟨lvl, text, true⟩ :: rest →
      Step s (.ret t) { s with calls := Function.update s.calls t rest }

/-- Nobody has called yet. -/
def idle (log : Log) : AtomicLog τ := ⟨log, fun _ => [], []⟩

/-- The threads that share such a log. -/
def threads (τ : Type) [DecidableEq τ] (log : Log) : System (AtomicLog τ) (AtomicAction τ) where
  init s := s = idle log
  step := Step

end AtomicLog

namespace LogThreads
variable {τ : Type} [DecidableEq τ]

/-- The log once the innermost of the calls has stored what it still has to, and the record
that it then hands over. -/
def aheadOf (log : Log) : List LogCall → Log × List LogRecord
  | ⟨lvl, _, .writing todo⟩ :: _ =>
    ({ log with buf := commit log.buf todo },
      [{ log with buf := commit log.buf todo }.record lvl])
  | _ => (log, [])

/-- The log once the owner of the lock has printed its record. -/
def ahead (s : LogThreads τ) : Log × List LogRecord :=
  match s.owner with
  | some t => aheadOf s.log (s.calls t)
  | none => (s.log, [])

/-- The calls as seen from outside. -/
def seen (calls : τ → List LogCall) (t : τ) : List AtomicCall := (calls t).map LogCall.atomic

/-- The log as if calls had their effect at one instant. -/
def atomic (s : LogThreads τ) : AtomicLog τ := ⟨s.ahead.1, seen s.calls, s.records ++ s.ahead.2⟩

/-- The steps at which calls have their effect. -/
def atomicAction : LogAction τ → Option (AtomicAction τ)
  | .call t lvl text => some (.call t lvl text)
  | .drop t | .lock t => some (.perform t)
  | .ret t => some (.ret t)
  | _ => none

section Linearization
variable {log : Log} {s u : LogThreads τ} {a : LogAction τ} {t : τ}

omit [DecidableEq τ] in
theorem aheadOf_mask (log : Log) (calls : List LogCall) :
    (aheadOf log calls).1.mask = log.mask := by
  rcases calls with _ | ⟨⟨lvl, text, pc⟩, rest⟩
  · rfl
  · cases pc <;> rfl

omit [DecidableEq τ] in
theorem ahead_owner {calls : List LogCall} (h : s.owner = some t) (hc : s.calls t = calls) :
    s.ahead = aheadOf s.log calls := by
  rw [ahead, h, ← hc]

omit [DecidableEq τ] in
theorem ahead_free (h : s.owner = none) : s.ahead = (s.log, []) := by rw [ahead, h]

omit [DecidableEq τ] in
theorem ahead_mask (s : LogThreads τ) : s.ahead.1.mask = s.log.mask := by
  cases h : s.owner with
  | none => rw [ahead_free h]
  | some t => rw [ahead_owner h rfl, aheadOf_mask]

/-- Calls that have nothing to print take nothing from what is ahead. -/
theorem ahead_put {calls : List LogCall}
    (h : aheadOf s.log calls = aheadOf s.log (s.calls t)) : (s.put t calls).ahead = s.ahead := by
  cases hown : s.owner with
  | none => rw [ahead_free hown, ahead_free (by exact hown), put_log]
  | some t' =>
    rw [ahead_owner hown rfl]
    by_cases ht : t' = t
    · subst ht
      rw [← h]
      exact ahead_owner hown (Function.update_self ..)
    · exact ahead_owner hown (Function.update_of_ne ht ..)

theorem seen_update (calls : τ → List LogCall) (t : τ) (cs : List LogCall) :
    seen (Function.update calls t cs) = Function.update (seen calls) t (cs.map LogCall.atomic) := by
  funext t'
  by_cases ht : t' = t
  · subst ht
    simp [seen]
  · simp [seen, ht]

omit [DecidableEq τ] in
theorem atomic_calls {c : LogCall} {rest : List LogCall} (hc : s.calls t = c :: rest) :
    s.atomic.calls t = c.atomic :: rest.map LogCall.atomic := by
  show (s.calls t).map LogCall.atomic = _
  rw [hc, List.map_cons]

theorem atomic_put {calls : List LogCall} (h : (s.put t calls).ahead = s.ahead) :
    (s.put t calls).atomic = ⟨s.atomic.log,
      Function.update (seen s.calls) t (calls.map LogCall.atomic), s.atomic.records⟩ := by
  rw [atomic, h, put_calls, seen_update]
  rfl

/-- The innermost call goes on and is seen where it was. -/
theorem atomic_same {c : LogCall} (c' : LogCall) {rest : List LogCall} (hc : s.calls t = c :: rest)
    (hcalls : u.calls = Function.update s.calls t (c' :: rest)) (hsame : c'.atomic = c.atomic)
    {x y : Log × List LogRecord} (hx : s.ahead = x) (hy : u.ahead = y) (hlog : y.1 = x.1)
    (hrecords : u.records ++ y.2 = s.records ++ x.2) : u.atomic = s.atomic := by
  have hseen : seen u.calls = seen s.calls := by
    rw [hcalls, seen_update, List.map_cons, hsame, ← List.map_cons, ← hc]
    exact Function.update_eq_self _ _
  rw [atomic, atomic, hseen, hx, hy, hlog, hrecords]

/-- **A step at which no call has its effect** changes nothing that is seen from outside. -/
theorem atomic_skip (hs : s.Inv log) (h : Step s a u) (ha : atomicAction a = none) :
    u.atomic = s.atomic := by
  cases h with
  | @pass t lvl text rest hc hp =>
    exact atomic_same _ hc rfl rfl rfl (ahead_put (by rw [hc]; rfl)) rfl rfl
  | @store t lvl text w todo rest hc =>
    obtain ⟨hown, rfl⟩ := (hc ▸ hs.shape t).head rfl
    exact atomic_same ⟨lvl, text, .writing todo⟩ hc rfl rfl (ahead_owner hown hc)
      (ahead_owner hown (Function.update_self ..)) rfl rfl
  | @deliver t lvl text rest hc =>
    obtain ⟨hown, rfl⟩ := (hc ▸ hs.shape t).head rfl
    exact atomic_same ⟨lvl, text, .handling⟩ hc rfl rfl (ahead_owner hown hc)
      (ahead_owner hown (Function.update_self ..)) rfl (List.append_nil _)
  | @unlock t lvl text rest hc =>
    obtain ⟨hown, rfl⟩ := (hc ▸ hs.shape t).head rfl
    exact atomic_same ⟨lvl, text, .returning⟩ hc rfl rfl (ahead_owner hown hc)
      (ahead_free rfl) rfl rfl
  | call _ | drop _ _ | lock _ _ | ret _ => cases ha

/-- **A step at which a call has its effect** is a step of the log whose calls take one
instant. -/
theorem atomic_step (hs : s.Inv log) (h : Step s a u) {b : AtomicAction τ}
    (ha : atomicAction a = some b) : AtomicLog.Step s.atomic b u.atomic := by
  cases h with
  | @call t lvl text hmay =>
    cases ha
    have hahead : (s.put t (⟨lvl, text, .checking⟩ :: s.calls t)).ahead = s.ahead := by
      apply ahead_put
      rcases hmay with hnil | ⟨-, ⟨clvl, ctext, pc⟩, rest, hc, hpc⟩
      · rw [hnil]
        rfl
      · cases hpc
        rw [hc]
        rfl
    rw [atomic_put hahead]
    apply AtomicLog.Step.call
    rcases hmay with hnil | ⟨-, c, rest, hc, hpc⟩
    · simp [atomic, seen, hnil]
    · simp [atomic_calls hc, LogCall.atomic, hpc, LogPc.performed]
  | @drop t lvl text rest hc hno =>
    cases ha
    have hahead : (s.put t (⟨lvl, text, .returning⟩ :: rest)).ahead = s.ahead :=
      ahead_put (by rw [hc]; rfl)
    have hlog : s.atomic.log.log lvl text = (s.atomic.log, []) := by
      rw [Log.log, if_neg]
      rw [Log.Passes, show s.atomic.log.mask = s.log.mask from ahead_mask s]
      exact hno
    have hst := AtomicLog.Step.perform (atomic_calls hc)
    rw [hlog, List.append_nil] at hst
    rw [atomic_put hahead]
    exact hst
  | @lock t lvl text rest hc hfree =>
    cases ha
    have hpasses : s.log.Passes lvl := by
      have hshape := hs.shape t
      rw [hc] at hshape
      cases hshape with
      | single _ hlock => exact hlock rfl
      | nested _ _ _ hlock _ => exact hlock rfl
    have hst := AtomicLog.Step.perform (atomic_calls hc)
    have hatomic : s.atomic = ⟨s.log, seen s.calls, s.records⟩ := by
      rw [atomic, ahead_free hfree, List.append_nil]
    rw [hatomic, Log.log_passes hpasses] at hst
    rw [hatomic, atomic, ahead_owner rfl (Function.update_self ..), put_calls, seen_update]
    exact hst
  | @ret t lvl text rest hc =>
    cases ha
    have hahead : (s.put t rest).ahead = s.ahead := by
      apply ahead_put
      have hshape := hs.shape t
      rw [hc] at hshape ⊢
      cases hshape with
      | single _ _ => rfl
      | @nested c _ _ hpc _ _ _ =>
        obtain ⟨clvl, ctext, pc⟩ := c
        cases hpc
        rfl
    rw [atomic_put hahead]
    exact AtomicLog.Step.ret (atomic_calls hc)
  | pass _ _ | store _ | deliver _ | unlock _ => cases ha

omit [DecidableEq τ] in
theorem atomicAction_event (a : LogAction τ) :
    (atomicAction a).bind AtomicAction.event = a.event := by
  cases a <;> rfl

/-- **The log is linearizable.**  Every run of the threads is, as far as calls and returns
show, a run in which each call of `ae_log` has all its effect at one instant between its
start and its return.  The records handed over are those of that run, without the one that
is being printed. -/
theorem linearizes {τs : List (Transition (LogThreads τ) (LogAction τ))}
    (hr : (threads τ log).Run (idle log) τs s) :
    ∃ ρs v, (AtomicLog.threads τ log).Run (AtomicLog.idle log) ρs v ∧
      ρs.filterMap (fun ρ => ρ.action.event) = τs.filterMap (fun ρ => ρ.action.event) ∧
      s.records <+: v.records ∧ (s.owner = none → v.records = s.records ∧ v.log = s.log) := by
  have hskip : ∀ (s : LogThreads τ) a u, Inv log s ∧ Step s a u → atomicAction a = none →
      u.atomic = s.atomic := fun _ _ _ h => atomic_skip h.1 h.2
  have hstep : ∀ (s : LogThreads τ) a u b, Inv log s ∧ Step s a u → atomicAction a = some b →
      (AtomicLog.threads τ log).step s.atomic b u.atomic := fun _ _ _ _ h => atomic_step h.1 h.2
  have hrun := (hr.within (fun _ _ _ => Inv.step) inv_idle).project hskip hstep
  refine ⟨_, _, hrun, ?_, List.prefix_append _ _, fun hfree => ?_⟩
  · rw [List.filterMap_filterMap]
    apply List.filterMap_congr
    intro ρ _
    rw [← atomicAction_event]
    cases atomicAction ρ.action <;> rfl
  · rw [atomic, ahead_free hfree, List.append_nil]
    exact ⟨rfl, rfl⟩

end Linearization

/-! ## The run of one call -/

section Single
variable {log : Log} {s : LogThreads τ} {t : τ} {lvl : LogLevel} {text : Text}

/-- The stores of a record, one by one. -/
theorem stored_run (log : Log) (todo : List Write) (hc : s.calls t = [⟨lvl, text, .writing todo⟩]) :
    ∃ τs, (threads τ log).Run s τs ⟨{ s.log with buf := commit s.log.buf todo }, s.owner,
        Function.update s.calls t [⟨lvl, text, .writing []⟩], s.records⟩ ∧
      τs.filterMap (fun ρ => ρ.action.event) = [] := by
  induction todo generalizing s with
  | nil =>
    refine ⟨[], ?_, rfl⟩
    rw [← hc, Function.update_eq_self]
    exact .nil
  | cons w todo ih =>
    have hst : (threads τ log).step s (.store t)
        ⟨{ s.log with buf := commit s.log.buf [w] }, s.owner,
          Function.update s.calls t [⟨lvl, text, .writing todo⟩], s.records⟩ := Step.store hc
    obtain ⟨τs, hr, hsilent⟩ := ih (s := ⟨{ s.log with buf := commit s.log.buf [w] }, s.owner,
      Function.update s.calls t [⟨lvl, text, .writing todo⟩], s.records⟩) (Function.update_self ..)
    rw [Function.update_idem] at hr
    exact ⟨_, (System.Run.single hst).append hr, hsilent⟩

/-- A call takes the lock and prints its record. -/
theorem printed_run (log : Log) {log' : Log} (hc : s.calls t = [⟨lvl, text, .locking⟩])
    (hfree : s.owner = none)
    (hlog : log' = { s.log with buf := commit s.log.buf (Log.stores lvl text) }) :
    ∃ τs, (threads τ log).Run s τs ⟨log', some t,
        Function.update s.calls t [⟨lvl, text, .handling⟩], s.records ++ [log'.record lvl]⟩ ∧
      τs.filterMap (fun ρ => ρ.action.event) = [] := by
  have hlock : (threads τ log).step s (.lock t) ⟨s.log, some t,
      Function.update s.calls t [⟨lvl, text, .writing (Log.stores lvl text)⟩], s.records⟩ :=
    Step.lock hc hfree
  obtain ⟨τs, hr, hsilent⟩ := stored_run log (s := ⟨s.log, some t,
    Function.update s.calls t [⟨lvl, text, .writing (Log.stores lvl text)⟩], s.records⟩)
    (Log.stores lvl text) (Function.update_self ..)
  rw [Function.update_idem] at hr
  have hdeliver : (threads τ log).step
      ⟨log', some t, Function.update s.calls t [⟨lvl, text, .writing []⟩], s.records⟩ (.deliver t)
      ⟨log', some t, Function.update (Function.update s.calls t [⟨lvl, text, .writing []⟩]) t
        [⟨lvl, text, .handling⟩], s.records ++ [log'.record lvl]⟩ :=
    Step.deliver (Function.update_self ..)
  rw [Function.update_idem] at hdeliver
  subst hlog
  refine ⟨_, ((System.Run.single hlock).append hr).snoc hdeliver, ?_⟩
  rw [List.filterMap_append, List.filterMap_append, hsilent]
  rfl

/-- A call takes the lock, prints its record, and returns. -/
theorem finished_run (log : Log) {log' : Log} (hc : s.calls t = [⟨lvl, text, .locking⟩])
    (hfree : s.owner = none)
    (hlog : log' = { s.log with buf := commit s.log.buf (Log.stores lvl text) }) :
    ∃ τs, (threads τ log).Run s τs
        ⟨log', none, Function.update s.calls t [], s.records ++ [log'.record lvl]⟩ ∧
      τs.filterMap (fun ρ => ρ.action.event) = [.ret t] := by
  obtain ⟨τs, hr, hsilent⟩ := printed_run log hc hfree hlog
  have hunlock : (threads τ log).step ⟨log', some t, Function.update s.calls t
        [⟨lvl, text, .handling⟩], s.records ++ [log'.record lvl]⟩ (.unlock t)
      ⟨log', none, Function.update (Function.update s.calls t [⟨lvl, text, .handling⟩]) t
        [⟨lvl, text, .returning⟩], s.records ++ [log'.record lvl]⟩ :=
    Step.unlock (Function.update_self ..)
  have hret : (threads τ log).step ⟨log', none, Function.update s.calls t
        [⟨lvl, text, .returning⟩], s.records ++ [log'.record lvl]⟩ (.ret t)
      ⟨log', none, Function.update (Function.update s.calls t [⟨lvl, text, .returning⟩]) t [],
        s.records ++ [log'.record lvl]⟩ :=
    Step.ret (Function.update_self ..)
  rw [Function.update_idem] at hunlock hret
  refine ⟨_, (hr.snoc hunlock).snoc hret, ?_⟩
  rw [List.filterMap_append, List.filterMap_append, hsilent]
  rfl

/-- One thread has a record to print, or has printed it. -/
def alone (log : Log) (t : τ) (c : LogCall) (owner : Option τ) (records : List LogRecord) :
    LogThreads τ := ⟨log, owner, Function.update (fun _ => []) t [c], records⟩

theorem alone_calls (log : Log) (t : τ) (c : LogCall) (owner : Option τ)
    (records : List LogRecord) : (alone log t c owner records).calls t = [c] := by
  simp [alone]

/-- A call reaches its handler. -/
theorem handling_reachable (hp : log.Passes lvl) (t : τ) (text : Text) :
    ∃ log' records, log'.handler = log.handler ∧ log'.mask = log.mask ∧
      (threads τ log).Reachable (alone log' t ⟨lvl, text, .handling⟩ (some t) records) := by
  have hidle : (threads τ log).Reachable (idle log) := .of_init rfl
  have hcalled : (threads τ log).Reachable ((idle log).put t [⟨lvl, text, .checking⟩]) :=
    hidle.step (Step.call (.inl rfl))
  have hpassed := hcalled.step (Step.pass (Function.update_self ..) hp)
  have hlocking : (put ((idle log).put t [⟨lvl, text, .checking⟩]) t
      [⟨lvl, text, .locking⟩]).calls t = [⟨lvl, text, .locking⟩] := Function.update_self ..
  obtain ⟨τs, hr, -⟩ := printed_run log hlocking rfl rfl
  have hprinted := hpassed.run hr
  simp only [put, Function.update_idem] at hprinted
  exact ⟨{ log with buf := commit log.buf (Log.stores lvl text) }, _, rfl, rfl, hprinted⟩

/-- Two threads that want the lock. -/
def racing : LogThreads Bool :=
  ((((idle Log.all).put true [⟨.info, ascii "a", .checking⟩]).put false
    [⟨.err, ascii "b", .checking⟩]).put true [⟨.info, ascii "a", .locking⟩]).put false
    [⟨.err, ascii "b", .locking⟩]

theorem racing_run : ∃ τs, (threads Bool Log.all).Run (idle Log.all) τs racing ∧
    τs.filterMap (fun ρ => ρ.action.event) =
      [.call true .info (ascii "a"), .call false .err (ascii "b")] :=
  ⟨_, (((System.Run.nil.snoc (Step.call (.inl rfl))).snoc (Step.call (.inl rfl))).snoc
    (Step.pass rfl (Log.all_open.passes .info))).snoc
    (Step.pass rfl (Log.all_open.passes .err)), rfl⟩

/-- They get it one after the other, and their calls return. -/
theorem linearizes_racing : ∃ ρs v, (AtomicLog.threads Bool Log.all).Run
      (AtomicLog.idle Log.all) ρs v ∧
    ρs.filterMap (fun ρ => ρ.action.event) =
      [.call true .info (ascii "a"), .call false .err (ascii "b"), .ret true, .ret false] ∧
    v.records = [.handler .info (ascii "INFO  a"), .handler .err (ascii "ERROR b")] := by
  obtain ⟨τs, hrun, hcalls⟩ := racing_run
  obtain ⟨τs₁, hrun₁, hret₁⟩ :=
    finished_run Log.all (s := racing) (t := true) rfl rfl rfl
  obtain ⟨τs₂, hrun₂, hret₂⟩ := finished_run Log.all
    (s := ⟨_, none, Function.update racing.calls true [], _⟩) (t := false) rfl rfl rfl
  obtain ⟨ρs, v, hr, hevents, -, hfree⟩ := linearizes ((hrun.append hrun₁).append hrun₂)
  refine ⟨ρs, v, hr, ?_, ?_⟩
  · rw [hevents, List.filterMap_append, List.filterMap_append, hcalls, hret₁, hret₂]
    rfl
  · rw [(hfree rfl).1, Log.record_printed rfl .err (by decide)]
    exact congrArg (fun r => [r, _]) (Log.record_printed rfl .info (by decide))

end Single

/-! ## What a handler reads -/

section Handler
variable {log : Log} {s : LogThreads τ} {t : τ} {c : LogCall}

/-- A call that holds the lock is the only one of its thread that does. -/
theorem Shaped.holder {own : Prop} {calls : List LogCall} (h : Shaped log own calls)
    (hc : c ∈ calls) (hholds : c.pc.holds = true) :
    own ∧ ∀ c' ∈ calls, c'.pc.holds = true → c' = c := by
  cases h with
  | none _ => cases hc
  | @single d hiff _ =>
    obtain rfl := List.mem_singleton.mp hc
    exact ⟨hiff.mp hholds, fun c' hc' _ => List.mem_singleton.mp hc'⟩
  | @nested d d' hown _ hno _ _ =>
    have hnot : ∀ e : LogCall, e.pc.holds = true → e ∈ [d', d] → e = d := by
      intro e he hmem
      rcases List.mem_pair.mp hmem with rfl | rfl
      · rw [hno] at he
        cases he
      · rfl
    exact ⟨hown, fun c' hc' hh => (hnot c' hh hc').trans (hnot c hholds hc).symm⟩

/-- **What a handler reads.**  In every state that the threads can reach, at most one call
holds the lock.  If that call is in the handler, or in `syslog`, then the buffer holds its
own text behind the name of its level, whatever the other threads do meanwhile. -/
theorem handled_text (hs : (threads τ log).Reachable s) (hc : c ∈ s.calls t)
    (hholds : c.pc.holds = true) :
    (∀ t' c', c' ∈ s.calls t' → c'.pc.holds = true → t' = t ∧ c' = c) ∧
      (c.pc = .handling → nul ∉ c.text → cString s.log.buf 0 Log.size =
        (c.lvl.toText ++ ascii " " ++ c.text).take 3998) := by
  have hinv := inv_reachable hs
  obtain ⟨hown, honly⟩ := (hinv.shape t).holder hc hholds
  refine ⟨fun t' c' hc' hholds' => ?_, fun hpc htext => ?_⟩
  · obtain ⟨hown', -⟩ := (hinv.shape t').holder hc' hholds'
    obtain rfl : t = t' := Option.some.inj (hown.symm.trans hown')
    exact ⟨rfl, honly c' hc' hholds'⟩
  · obtain ⟨buf, hbuf⟩ := hinv.record t hown c hc [] (.inr ⟨hpc, rfl⟩)
    rw [commit_nil] at hbuf
    rw [hbuf, ← Log.cString_printed { s.log with buf := buf } c.lvl htext, Log.printed_stores]

/-- A thread in its handler. -/
theorem handled_text_hello : ∃ s : LogThreads Unit, (threads Unit Log.all).Reachable s ∧
    cString s.log.buf 0 Log.size = (ascii "INFO " ++ ascii " " ++ ascii "hello").take 3998 := by
  obtain ⟨log, records, -, -, hr⟩ :=
    handling_reachable (Log.all_open.passes .info) () (ascii "hello")
  have hmem := (alone_calls log () ⟨.info, ascii "hello", .handling⟩ (some ()) records) ▸
    List.mem_singleton_self _
  exact ⟨_, hr, (handled_text hr hmem rfl).2 rfl (by decide)⟩

end Handler

end LogThreads
end Libae
