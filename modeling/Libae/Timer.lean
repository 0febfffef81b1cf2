import Libae.Fallible
import Libae.Res
import Libae.Runs
import Libae.Timerfd

/-! # The timer

`ae_timer_t` (`timer.h`, `timer.c`): a timer of the kernel behind a descriptor.
`ae_timer_every` and `ae_timer_single_shot` set it, `ae_timer_stop` disarms it, and
`ae_timer_read` waits until it has expired and stores how often.  The functions run on a
`TimerState`; the clock of the timer goes on by itself.

What a program reads is what the last call has asked for, whenever and however often it reads
(`ticks_accounted`): nothing is lost, counted twice, or left over from a call before.  A zero
interval is no error: such a timer never expires, and with `trigger_now` it expires once.
-/
namespace Libae
open Fallible Runs

/-- What the functions work on: the kernel's timer, what `out` points to, and the messages added
to `e`. -/
structure TimerState where
  kernel : Timerfd
  out : Nat
  e : List Msg

namespace Timer

/-- `struct timespec`. -/
structure Timespec where
  sec : Int
  nsec : Int

/-- The kernel takes it. -/
def Timespec.Valid (ts : Timespec) : Prop := 0 ≤ ts.sec ∧ 0 ≤ ts.nsec ∧ ts.nsec < 10 ^ 9

instance (ts : Timespec) : Decidable ts.Valid := by
  unfold Timespec.Valid
  infer_instance

/-- In nanoseconds. -/
def Timespec.ns (ts : Timespec) : Nat := (ts.sec * 10 ^ 9 + ts.nsec).toNat

/-- `ae_res_err(e, …)`. -/
def resErr (text : Text) : Fallible TimerState Unit :=
  modify (fun s => { s with e := s.e ++ [⟨.err, text⟩] })

/-- `timerfd_settime`, which may fail for a reason of its own. -/
def settime (fault : Option Text) (interval value : Timespec) (k : Timerfd) :
    Except Text Timerfd :=
  match fault with
  | some errno => .error errno
  | none =>
    if interval.Valid ∧ value.Valid then .ok (k.set interval.ns value.ns)
    else .error (ascii "Invalid argument")

/-- `ae_timer_set`; every caller passes no flags. -/
def set (fault : Option Text) (interval value : Timespec) : Fallible TimerState Unit := do
  match settime fault interval value (← get).kernel with
  | .error errno =>
    resErr (ascii "timer: " ++ errno)
    fail
  | .ok kernel => modify (fun s => { s with kernel := kernel })

/-- `ae_timer_stop`. -/
def stop (fault : Option Text) : Fallible TimerState Unit := set fault ⟨0, 0⟩ ⟨0, 0⟩

/-- `ae_timer_every`. -/
def every (fault : Option Text) (interval : Timespec) (triggerNow : Bool) :
    Fallible TimerState Unit :=
  set fault interval (if triggerNow then ⟨0, 1⟩ else interval)

/-- `ae_timer_single_shot`. -/
def singleShot (fault : Option Text) (fromNow : Timespec) : Fallible TimerState Unit :=
  set fault ⟨0, 0⟩ fromNow

/-- What `read` answers: the number of ticks, and the timer without them; -1 with an error; or
another length. -/
inductive ReadAnswer
  | ticks (n : Nat) (kernel : Timerfd)
  | failed (errno : Text)
  | short

/-- `ae_timer_read`. -/
def read : ReadAnswer → Fallible TimerState Unit
  | .ticks n kernel => modify (fun s => { s with kernel := kernel, out := n })
  | .failed errno => do
    resErr (ascii "timer read: " ++ errno)
    fail
  | .short => do
    resErr (ascii "timer read: unexpected read return")
    fail

/-! ## Runs -/

/-- The calls that set a timer. -/
inductive Setting
  | stop
  | every (interval : Timespec) (triggerNow : Bool)
  | singleShot (fromNow : Timespec)

/-- The call. -/
def Setting.body (fault : Option Text) : Setting → Fallible TimerState Unit
  | .stop => Timer.stop fault
  | .every interval triggerNow => Timer.every fault interval triggerNow
  | .singleShot fromNow => Timer.singleShot fault fromNow

/-- A program sets its timer and reads it, and time passes. -/
inductive Action
  | set (c : Setting) (fault : Option Text)
  | read (answer : ReadAnswer)
  | elapse (d : Nat)

/-- One step.  A read returns when the timer has expired. -/
inductive Step : TimerState → Action → TimerState → Prop
  | set {s : TimerState} {c : Setting} {fault : Option Text} :
      Step s (.set c fault) ((c.body fault).run s).2
  | read {s : TimerState} {n : Nat} {k : Timerfd} : s.kernel.read = some (n, k) →
      Step s (.read (.ticks n k)) ((Timer.read (.ticks n k)).run s).2
  | failed {s : TimerState} {errno : Text} :
      Step s (.read (.failed errno)) ((Timer.read (.failed errno)).run s).2
  | short {s : TimerState} : Step s (.read .short) ((Timer.read .short).run s).2
  | elapse {s : TimerState} {d : Nat} :
      Step s (.elapse d) { s with kernel := s.kernel.elapse d }

/-- A timer after `ae_timer_init`. -/
def ticking : System TimerState Action where
  init s := s.kernel.due = none ∧ s.kernel.ticks = 0
  step := Step

/-- What the reads of a run have stored, one after the other. -/
def reads (τs : List (Transition TimerState Action)) : List Nat :=
  τs.filterMap (fun τ =>
    match τ.action with
    | .read (.ticks _ _) => some τ.after.out
    | .read (.failed _) | .read .short | .set _ _ | .elapse _ => none)

/-- The call does not return `true`. -/
def Action.Refused (s : TimerState) : Action → Prop
  | .set c fault => ((c.body fault).run s).1 = none
  | .read _ | .elapse _ => True

/-- How often a timer expires in a time after a call. -/
def Setting.expirations (elapsed : Nat) : Setting → Nat
  | .stop => 0
  | .every interval false => elapsed / interval.ns
  | .every interval true => if elapsed = 0 then 0 else (elapsed - 1) / interval.ns + 1
  | .singleShot fromNow => if 0 < fromNow.ns ∧ fromNow.ns ≤ elapsed then 1 else 0

/-! ## What is read -/

section Calls
variable {s t : TimerState} {fault : Option Text}

/-- **`ae_timer_set`** sets the timer, or leaves it as it is. -/
theorem set_cases (fault : Option Text) (interval value : Timespec) (s : TimerState) :
    (set fault interval value).run s =
        (some (), { s with kernel := s.kernel.set interval.ns value.ns }) ∨
      ((set fault interval value).run s).1 = none ∧
        ((set fault interval value).run s).2.kernel = s.kernel := by
  unfold set settime
  rw [bind_run, get_run]
  cases fault with
  | some errno => exact .inr ⟨rfl, rfl⟩
  | none =>
    dsimp only
    split
    next errno h =>
      split at h
      · cases h
      · exact .inr ⟨rfl, rfl⟩
    next k h =>
      split at h
      · cases h
        exact .inl rfl
      · cases h

/-- `it_interval` of a call. -/
def Setting.interval : Setting → Timespec
  | .stop | .singleShot _ => ⟨0, 0⟩
  | .every interval _ => interval

/-- `it_value` of a call. -/
def Setting.value : Setting → Timespec
  | .stop => ⟨0, 0⟩
  | .every interval triggerNow => if triggerNow then ⟨0, 1⟩ else interval
  | .singleShot fromNow => fromNow

theorem Setting.body_eq (c : Setting) (fault : Option Text) :
    c.body fault = Timer.set fault c.interval c.value := by
  cases c <;> rfl

/-- The kernel's timer expires as often as the call has asked for. -/
theorem Setting.expirations_eq (c : Setting) (elapsed : Nat) :
    c.expirations elapsed = Timerfd.expirations c.interval.ns c.value.ns elapsed := by
  cases c with
  | stop => rfl
  | singleShot fromNow =>
    have hone : (elapsed - fromNow.ns) / Timespec.ns ⟨0, 0⟩ + 1 = 1 := by
      rw [show Timespec.ns ⟨0, 0⟩ = 0 from rfl, Nat.div_zero]
    simp only [expirations, Timerfd.expirations, interval, value, hone]
    split <;> split <;> omega
  | every interval triggerNow =>
    cases triggerNow with
    | true =>
      have hone : Timespec.ns ⟨0, 1⟩ = 1 := rfl
      simp only [expirations, Timerfd.expirations, Setting.interval, value, if_true, hone]
      split <;> split <;> omega
    | false =>
      simp only [expirations, Timerfd.expirations, Setting.interval, value, Bool.false_eq_true,
        if_false]
      split
      next h =>
        obtain h | h := h
        · rw [h, Nat.div_zero]
        · exact Nat.div_eq_of_lt h
      next h =>
        rw [not_or, not_lt] at h
        exact Nat.div_eq_sub_div (Nat.pos_of_ne_zero h.1) h.2

end Calls

section Runs
variable {s t u : TimerState} {c : Setting} {fault : Option Text}
  {τs : List (Transition TimerState Action)}

/-- A call that returns `true` has set the timer. -/
theorem accounts_set (hset : (c.body fault).run s = (some (), t)) :
    t.kernel.Accounts c.interval.ns c.value.ns t.kernel.now 0 := by
  rw [c.body_eq] at hset
  obtain hok | ⟨hnone, -⟩ := set_cases fault c.interval c.value s
  · obtain rfl := (Prod.mk.inj (hok.symm.trans hset)).2
    exact Timerfd.accounts_set _ _ s.kernel
  · rw [hset] at hnone
    exact (Option.some_ne_none () hnone).elim

/-- **What is read is what was asked for.**  From a call that sets the timer and returns `true`
on, along every run in which no other such call does, whenever the program reads: what was read
and what can be read are the expirations that the call has asked for, each read stores at least
one, and a read returns exactly if not all was read. -/
theorem ticks_accounted (hset : (c.body fault).run s = (some (), t)) (hr : ticking.Run t τs u)
    (hlast : ∀ τ ∈ τs, τ.action.Refused τ.before) :
    (reads τs).sum + u.kernel.ticks = c.expirations (u.kernel.now - t.kernel.now) ∧
      (∀ n ∈ reads τs, 0 < n) ∧
      ((∃ n k, u.kernel.read = some (n, k)) ↔
        (reads τs).sum < c.expirations (u.kernel.now - t.kernel.now)) := by
  rw [c.expirations_eq]
  suffices h : u.kernel.Accounts c.interval.ns c.value.ns t.kernel.now (reads τs).sum ∧
      ∀ n ∈ reads τs, 0 < n from ⟨h.1.ticks, h.2, h.1.read_iff⟩
  induction hr with
  | nil => exact ⟨accounts_set hset, fun n hn => absurd hn List.not_mem_nil⟩
  | @snoc τs u v a hr hst ih =>
    rw [List.forall_mem_append, List.forall_mem_singleton] at hlast
    obtain ⟨haccounts, hpos⟩ := ih hlast.1
    have hsnoc : reads (τs ++ [⟨u, a, v⟩]) = reads τs ++ reads [⟨u, a, v⟩] :=
      List.filterMap_append
    rw [hsnoc, List.sum_append, List.forall_mem_append]
    cases hst with
    | @set c' fault' =>
      -- the call is refused, and leaves the kernel's timer as it is
      have hrefused : ((c'.body fault').run u).1 = none := hlast.2
      have hkernel : ((c'.body fault').run u).2.kernel = u.kernel := by
        rw [c'.body_eq] at hrefused ⊢
        obtain hok | ⟨-, hsame⟩ := set_cases fault' c'.interval c'.value u
        · rw [hok] at hrefused
          exact (Option.some_ne_none () hrefused).elim
        · exact hsame
      rw [hkernel]
      exact ⟨haccounts, hpos, by simp [reads]⟩
    | read hread =>
      obtain ⟨haccounts, hsome⟩ := haccounts.read hread
      refine ⟨haccounts, hpos, ?_⟩
      simpa [reads, Timer.read] using hsome
    | failed => exact ⟨haccounts, hpos, by simp [reads]⟩
    | short => exact ⟨haccounts, hpos, by simp [reads]⟩
    | elapse => exact ⟨haccounts.elapse _, hpos, by simp [reads]⟩

end Runs

/-! ### A late read -/

/-- A new timer. -/
def idle : TimerState := ⟨⟨0, none, 0, 0⟩, 0, []⟩

/-- It is to expire now, and in every second. -/
def armed : TimerState := ((Timer.every none ⟨1, 0⟩ true).run idle).2

/-- Two and a half seconds later. -/
def late : TimerState := { armed with kernel := armed.kernel.elapse 2500000000 }

/-- The three ticks are read at once. -/
theorem ticks_accounted_late : ∃ u, ticking.Run armed
      [⟨armed, .elapse 2500000000, late⟩,
        ⟨late, .read (.ticks 3 { late.kernel with ticks := 0 }), u⟩]
      u ∧ 3 + u.kernel.ticks = (Setting.every ⟨1, 0⟩ true).expirations (u.kernel.now - 0) := by
  have hset : ((Setting.every ⟨1, 0⟩ true).body none).run idle = (some (), armed) := rfl
  have hrun : ticking.Run armed _ _ :=
    (System.Run.single Step.elapse).snoc (Step.read (n := 3) (s := late) rfl)
  refine ⟨_, hrun, (ticks_accounted hset hrun ?_).1⟩
  rw [List.forall_mem_append, List.forall_mem_singleton, List.forall_mem_singleton]
  exact ⟨trivial, trivial⟩

end Timer
end Libae
