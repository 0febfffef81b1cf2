import Libae.Fallible
import Libae.Mux
import Libae.Res
import Libae.Runs

/-! # Objects with a descriptor

An `ae_event_t`, an `ae_timer_t` and an `ae_mux_t` have a descriptor of the kernel's, which
`ae_event_init`, `ae_timer_init` and `ae_mux_init` open and `ae_event_uninit`, `ae_timer_uninit`
and `ae_mux_uninit` close (`event.c`, `timer.c`, `mux.c`).  Where it could not be opened the field
is -1, which `ae_mux_uninit` does not look for.  None of the three that close writes to the field.

A program has any number of such objects, and other parts of it open and close descriptors of
their own.  The kernel gives a number that was closed to whoever opens the next one.  The
account is right, and every `close` finds its descriptor, exactly as long as the calls on each
object alternate (`alternates_iff`).
-/
namespace Libae
open Fallible Runs

/-- The objects that have a descriptor. -/
inductive HandleKind
  | event
  | timer
  | mux
  deriving DecidableEq

/-- A number that the kernel gives to a descriptor. -/
abbrev FdNumber := { fd : Int // 0 ≤ fd ∧ fd < 2 ^ 31 }

/-- What the functions work on: the field, the open descriptors, and the messages added to `e`. -/
structure HandleState where
  fd : Int
  opened : Finset Int
  e : List Msg

namespace Handle

/-- `ae_res_err(e, …)`, `ae_res_warn(e, …)`. -/
def note (type : ResN) (text : Text) : Fallible HandleState Unit :=
  modify (fun s => { s with e := s.e ++ [⟨type, text⟩] })

/-- The field gets what the kernel answers, or -1. -/
def openFd (name : Text) : Except Text FdNumber → Fallible HandleState Unit
  | .error errno => do
    modify (fun s => { s with fd := -1 })
    note .err (name ++ errno)
    fail
  | .ok fd => modify (fun s => { s with fd := fd.1, opened := insert fd.1 s.opened })

/-- `close` fails on a descriptor that is not open, and releases one that is also when it reports
an error. -/
def closeFd (name : Text) (answer : Option Text) : Fallible HandleState Unit := do
  let self ← get
  modify (fun s => { s with opened := s.opened.erase self.fd })
  match if self.fd ∈ self.opened then answer else some (strerror .badf) with
  | some errno => note .warn (name ++ errno)
  | none => pure ()

/-- The descriptor is closed, if there is one in the field. -/
def closeAny (name : Text) (answer : Option Text) : Fallible HandleState Unit := do
  if (← get).fd ≠ -1 then closeFd name answer

/-- `ae_event_init`. -/
def eventInit (answer : Except Text FdNumber) : Fallible HandleState Unit :=
  openFd (ascii "eventfd create: ") answer

/-- `ae_timer_init`. -/
def timerInit (answer : Except Text FdNumber) : Fallible HandleState Unit :=
  openFd (ascii "timerfd create: ") answer

/-- `ae_mux_init`. -/
def muxInit (answer : Except Text FdNumber) : Fallible HandleState Unit :=
  openFd (ascii "epoll:") answer

/-- `ae_event_uninit`. -/
def eventUninit (answer : Option Text) : Fallible HandleState Unit :=
  closeAny (ascii "eventfd close: ") answer

/-- `ae_timer_uninit`. -/
def timerUninit (answer : Option Text) : Fallible HandleState Unit :=
  closeAny (ascii "timerfd close: ") answer

/-- `ae_mux_uninit`. -/
def muxUninit (answer : Option Text) : Fallible HandleState Unit :=
  closeFd (ascii "close: ") answer

/-- The function that opens. -/
def init : HandleKind → Except Text FdNumber → Fallible HandleState Unit
  | .event => eventInit
  | .timer => timerInit
  | .mux => muxInit

/-- The function that closes. -/
def uninit : HandleKind → Option Text → Fallible HandleState Unit
  | .event => eventUninit
  | .timer => timerUninit
  | .mux => muxUninit

/-- The function passes what is in the field to `close`. -/
def Passes (kind : HandleKind) (fd : Int) : Prop := kind = .mux ∨ fd ≠ -1

instance (kind : HandleKind) (fd : Int) : Decidable (Passes kind fd) :=
  inferInstanceAs (Decidable (_ ∨ _))

/-! ## One call -/

/-- Opening succeeds with the number that the kernel gives. -/
theorem init_ok (kind : HandleKind) (fd : FdNumber) (s : HandleState) :
    (init kind (.ok fd)).run s =
      (some (), { s with fd := fd.1, opened := insert fd.1 s.opened }) := by
  cases kind <;> rfl

theorem init_error (kind : HandleKind) (errno : Text) (s : HandleState) :
    ((init kind (.error errno)).run s).1 = none ∧
      ((init kind (.error errno)).run s).2.fd = -1 ∧
      ((init kind (.error errno)).run s).2.opened = s.opened := by
  cases kind <;> exact ⟨rfl, rfl, rfl⟩

theorem closeFd_frame (name : Text) (answer : Option Text) (s : HandleState) :
    ((closeFd name answer).run s).2.fd = s.fd ∧
      ((closeFd name answer).run s).2.opened = s.opened.erase s.fd := by
  simp only [closeFd, bind_run, get_run, modify_run]
  split <;> exact ⟨rfl, rfl⟩

theorem closeAny_frame (name : Text) (answer : Option Text) (s : HandleState) :
    ((closeAny name answer).run s).2.fd = s.fd ∧
      ((closeAny name answer).run s).2.opened =
        if s.fd ≠ -1 then s.opened.erase s.fd else s.opened := by
  have hframe := closeFd_frame name answer s
  rw [closeAny, bind_run, get_run]
  dsimp only
  by_cases hfd : s.fd ≠ -1
  · rw [if_pos hfd, if_pos hfd]
    exact hframe
  · rw [if_neg hfd, if_neg hfd]
    exact ⟨rfl, rfl⟩

/-- **Closing** leaves the field as it is. -/
theorem uninit_frame (kind : HandleKind) (answer : Option Text) (s : HandleState) :
    ((uninit kind answer).run s).2.fd = s.fd ∧
      ((uninit kind answer).run s).2.opened =
        if Passes kind s.fd then s.opened.erase s.fd else s.opened := by
  cases kind with
  | event => simpa [uninit, eventUninit, Passes] using closeAny_frame _ answer s
  | timer => simpa [uninit, timerUninit, Passes] using closeAny_frame _ answer s
  | mux => simpa [uninit, muxUninit, Passes] using closeFd_frame _ answer s

end Handle

/-! ## A program with such objects -/

/-- The fields of the objects, which of them were initialised and not uninitialised since, the
open descriptors, those that other parts of the program have opened and not closed, and the
messages. -/
structure Handles (ι : Type) where
  fd : ι → Int
  held : ι → Bool
  opened : Finset Int
  others : Finset Int
  e : List Msg

/-- A call on an object, with the answer of the kernel; another part of the program opens a
descriptor, or closes one of its own. -/
inductive HandleAction (ι : Type)
  | init (i : ι) (answer : Except Text FdNumber)
  | uninit (i : ι) (answer : Option Text)
  | opened (fd : FdNumber)
  | closed (fd : Int)

namespace Handles
variable {ι : Type} [DecidableEq ι]

/-- What a call on an object sees. -/
def view (s : Handles ι) (i : ι) : HandleState := ⟨s.fd i, s.opened, s.e⟩

/-- What it leaves. -/
def put (s : Handles ι) (i : ι) (v : HandleState) (held : Bool) : Handles ι :=
  { s with
    fd := Function.update s.fd i v.fd
    held := Function.update s.held i held
    opened := v.opened
    e := v.e }

section Put
variable (s : Handles ι) {i j : ι} (v : HandleState) (held : Bool)

@[simp] theorem put_opened : (s.put i v held).opened = v.opened := rfl

@[simp] theorem put_others : (s.put i v held).others = s.others := rfl

@[simp] theorem put_fd_self : (s.put i v held).fd i = v.fd := Function.update_self ..

@[simp] theorem put_held_self : (s.put i v held).held i = held := Function.update_self ..

theorem put_fd_of_ne (h : j ≠ i) : (s.put i v held).fd j = s.fd j := Function.update_of_ne h ..

theorem put_held_of_ne (h : j ≠ i) : (s.put i v held).held j = s.held j :=
  Function.update_of_ne h ..

end Put

/-- One step.  New descriptors have numbers that are not in use. -/
inductive Step (kind : ι → HandleKind) : Handles ι → HandleAction ι → Handles ι → Prop
  | init {s : Handles ι} {i : ι} {answer : Except Text FdNumber} :
      (∀ fd, answer = .ok fd → fd.1 ∉ s.opened) →
      Step kind s (.init i answer) (s.put i ((Handle.init (kind i) answer).run (s.view i)).2
        ((Handle.init (kind i) answer).run (s.view i)).1.isSome)
  | uninit {s : Handles ι} {i : ι} {answer : Option Text} :
      Step kind s (.uninit i answer)
        (s.put i ((Handle.uninit (kind i) answer).run (s.view i)).2 false)
  | opened {s : Handles ι} {fd : FdNumber} : fd.1 ∉ s.opened →
      Step kind s (.opened fd)
        { s with opened := insert fd.1 s.opened, others := insert fd.1 s.others }
  | closed {s : Handles ι} {fd : Int} : fd ∈ s.others →
      Step kind s (.closed fd) { s with opened := s.opened.erase fd, others := s.others.erase fd }

end Handles

/-- Objects of these kinds, none of them initialised. -/
def handling {ι : Type} [DecidableEq ι] (kind : ι → HandleKind) :
    System (Handles ι) (HandleAction ι) where
  init s := (∀ i, s.held i = false) ∧ s.opened = s.others ∧ ∀ fd ∈ s.opened, 0 ≤ fd
  step := Handles.Step kind

namespace Handles
variable {ι : Type} [DecidableEq ι] {kind : ι → HandleKind} {s t : Handles ι}

/-- The account: what is open was opened by others, or is in the field of just one object that is
initialised. -/
structure Balanced (s : Handles ι) : Prop where
  opened : ∀ x, x ∈ s.opened ↔ x ∈ s.others ∨ ∃ i, s.held i = true ∧ s.fd i = x
  apart : ∀ i, s.held i = true → s.fd i ∉ s.others
  single : ∀ i j, s.held i = true → s.held j = true → s.fd i = s.fd j → i = j

/-- If the action is to close the descriptor of an object, it is open. -/
def Finds (kind : ι → HandleKind) (s : Handles ι) : HandleAction ι → Prop
  | .uninit i _ => Handle.Passes (kind i) (s.fd i) → s.fd i ∈ s.opened
  | .init _ _ | .opened _ | .closed _ => True

/-- The calls on an object alternate: it is initialised when it holds nothing, and uninitialised
when it does, or when there is -1 in its field and the function looks for that. -/
def InOrder (kind : ι → HandleKind) (s : Handles ι) : HandleAction ι → Prop
  | .init i _ => s.held i = false
  | .uninit i _ => s.held i = true ∨ ¬ Handle.Passes (kind i) (s.fd i)
  | .opened _ | .closed _ => True

/-! ### One step -/

section Steps
variable {i : ι}

theorem balanced_init (h : (handling kind).init s) : s.Balanced := by
  obtain ⟨hnone, hopened, -⟩ := h
  have hno : ∀ i, s.held i ≠ true := fun i => by simp [hnone i]
  refine ⟨fun x => ?_, fun i hi => absurd hi (hno i), fun i _ hi => absurd hi (hno i)⟩
  rw [hopened]
  exact ⟨.inl, fun h => h.resolve_right fun ⟨i, hi, _⟩ => hno i hi⟩

/-- An object without a descriptor gets one. -/
theorem Balanced.gives (h : s.Balanced) (hnone : s.held i = false) {x : Int}
    (hnew : x ∉ s.opened) (e : List Msg) :
    (s.put i ⟨x, insert x s.opened, e⟩ true).Balanced := by
  have hold : ∀ j, s.held j = true → j ≠ i ∧ s.fd j ≠ x := by
    intro j hj
    refine ⟨?_, fun hfd => hnew ((h.opened x).mpr (.inr ⟨j, hj, hfd⟩))⟩
    rintro rfl
    rw [hnone] at hj
    cases hj
  have hafter : ∀ j, (s.put i ⟨x, insert x s.opened, e⟩ true).held j = true →
      j = i ∧ (s.put i ⟨x, insert x s.opened, e⟩ true).fd j = x ∨
      s.held j = true ∧ (s.put i ⟨x, insert x s.opened, e⟩ true).fd j = s.fd j := by
    intro j hj
    rcases eq_or_ne j i with rfl | hne
    · exact .inl ⟨rfl, put_fd_self ..⟩
    · exact .inr ⟨(put_held_of_ne _ _ _ hne).symm.trans hj, put_fd_of_ne _ _ _ hne⟩
  refine ⟨fun y => ?_, fun j hj => ?_, fun j k hj hk heq => ?_⟩
  · rw [put_opened, put_others, Finset.mem_insert, h.opened y]
    constructor
    · rintro (rfl | hothers | ⟨j, hj, rfl⟩)
      · exact .inr ⟨i, put_held_self .., put_fd_self ..⟩
      · exact .inl hothers
      · have hne := (hold j hj).1
        exact .inr ⟨j, (put_held_of_ne _ _ _ hne).trans hj, put_fd_of_ne _ _ _ hne⟩
    · rintro (hothers | ⟨j, hj, rfl⟩)
      · exact .inr (.inl hothers)
      · obtain ⟨-, hfd⟩ | ⟨hheld, hfd⟩ := hafter j hj
        · exact .inl hfd
        · exact .inr (.inr ⟨j, hheld, hfd.symm⟩)
  · obtain ⟨-, hfd⟩ | ⟨hheld, hfd⟩ := hafter j hj
    · rw [hfd]
      exact fun hx => hnew ((h.opened x).mpr (.inl hx))
    · rw [hfd]
      exact h.apart j hheld
  · obtain ⟨hji, hfdj⟩ | ⟨hheldj, hfdj⟩ := hafter j hj <;>
      obtain ⟨hki, hfdk⟩ | ⟨hheldk, hfdk⟩ := hafter k hk <;> rw [hfdj, hfdk] at heq
    · exact hji.trans hki.symm
    · exact ((hold k hheldk).2 heq.symm).elim
    · exact ((hold j hheldj).2 heq).elim
    · exact h.single j k hheldj hheldk heq

/-- An object gives up its descriptor, or has none. -/
theorem Balanced.drops (h : s.Balanced) {v : HandleState}
    (hopened : ∀ x, x ∈ v.opened ↔ x ∈ s.opened ∧ ¬ (s.held i = true ∧ s.fd i = x)) :
    (s.put i v false).Balanced := by
  have hother : ∀ j, (s.put i v false).held j = true →
      j ≠ i ∧ s.held j = true ∧ (s.put i v false).fd j = s.fd j := by
    intro j hj
    rcases eq_or_ne j i with rfl | hne
    · rw [put_held_self] at hj
      cases hj
    · exact ⟨hne, (put_held_of_ne _ _ _ hne).symm.trans hj, put_fd_of_ne _ _ _ hne⟩
  refine ⟨fun x => ?_, fun j hj => ?_, fun j k hj hk heq => ?_⟩
  · rw [put_opened, put_others, hopened, h.opened]
    constructor
    · rintro ⟨hothers | ⟨j, hj, rfl⟩, hnot⟩
      · exact .inl hothers
      · have hne : j ≠ i := by
          rintro rfl
          exact hnot ⟨hj, rfl⟩
        exact .inr ⟨j, (put_held_of_ne _ _ _ hne).trans hj, put_fd_of_ne _ _ _ hne⟩
    · rintro (hothers | ⟨j, hj, rfl⟩)
      · refine ⟨.inl hothers, ?_⟩
        rintro ⟨hi, rfl⟩
        exact h.apart i hi hothers
      · obtain ⟨hne, hheld, hfd⟩ := hother j hj
        rw [hfd]
        exact ⟨.inr ⟨j, hheld, rfl⟩, fun hi => hne (h.single j i hheld hi.1 hi.2.symm)⟩
  · obtain ⟨-, hheld, hfd⟩ := hother j hj
    rw [hfd]
    exact h.apart j hheld
  · obtain ⟨-, hj', hfdj⟩ := hother j hj
    obtain ⟨-, hk', hfdk⟩ := hother k hk
    rw [hfdj, hfdk] at heq
    exact h.single j k hj' hk' heq

/-- A descriptor that is still open is still accounted for. -/
theorem Balanced.keeps (h : s.Balanced) (hheld : s.held i = true) {v : HandleState} {held : Bool}
    (ht : (s.put i v held).Balanced) (hopen : s.fd i ∈ v.opened) :
    held = true ∧ v.fd = s.fd i := by
  obtain hothers | ⟨j, hj, hfd⟩ := (ht.opened (s.fd i)).mp hopen
  · exact (h.apart i hheld hothers).elim
  · rcases eq_or_ne j i with rfl | hne
    · rw [put_held_self] at hj
      rw [put_fd_self] at hfd
      exact ⟨hj, hfd⟩
    · rw [put_held_of_ne _ _ _ hne] at hj
      rw [put_fd_of_ne _ _ _ hne] at hfd
      exact (hne (h.single j i hj hheld hfd)).elim

/-- **Initialising** keeps the account exactly if the object holds nothing. -/
theorem Balanced.init_iff (h : s.Balanced) {answer : Except Text FdNumber}
    (hnew : ∀ fd, answer = .ok fd → fd.1 ∉ s.opened) :
    (s.put i ((Handle.init (kind i) answer).run (s.view i)).2
      ((Handle.init (kind i) answer).run (s.view i)).1.isSome).Balanced ↔ s.held i = false := by
  cases answer with
  | ok fd =>
    rw [Handle.init_ok]
    refine ⟨fun ht => ?_, fun hnone => h.gives hnone (hnew fd rfl) s.e⟩
    by_contra hheld
    rw [Bool.not_eq_false] at hheld
    have hopen := (h.opened _).mpr (.inr ⟨i, hheld, rfl⟩)
    have hfd : fd.1 = s.fd i := (h.keeps hheld ht (Finset.mem_insert_of_mem hopen)).2
    exact hnew fd rfl (hfd ▸ hopen)
  | error errno =>
    obtain ⟨hfail, -, hopened⟩ := Handle.init_error (kind i) errno (s.view i)
    rw [hfail]
    refine ⟨fun ht => ?_, fun hnone => h.drops fun x => ?_⟩
    · by_contra hheld
      rw [Bool.not_eq_false] at hheld
      have hopen := (h.opened _).mpr (.inr ⟨i, hheld, rfl⟩)
      obtain ⟨hsome, -⟩ := h.keeps hheld ht (by rw [hopened]; exact hopen)
      cases hsome
    · rw [hopened, hnone]
      exact (and_iff_left fun h => Bool.false_ne_true h.1).symm

/-- **Uninitialising** keeps the account and finds its descriptor exactly if the object holds
one, or the function sees that there is none. -/
theorem Balanced.uninit_iff (h : s.Balanced) (hrange : ∀ x ∈ s.opened, 0 ≤ x)
    (answer : Option Text) :
    (s.put i ((Handle.uninit (kind i) answer).run (s.view i)).2 false).Balanced ∧
        (Handle.Passes (kind i) (s.fd i) → s.fd i ∈ s.opened) ↔
      s.held i = true ∨ ¬ Handle.Passes (kind i) (s.fd i) := by
  have hopened : ((Handle.uninit (kind i) answer).run (s.view i)).2.opened =
      if Handle.Passes (kind i) (s.fd i) then s.opened.erase (s.fd i) else s.opened :=
    (Handle.uninit_frame (kind i) answer (s.view i)).2
  constructor
  · rintro ⟨ht, hfinds⟩
    by_contra hnot
    obtain ⟨hnone, hpasses⟩ := not_or.mp hnot
    rw [not_not] at hpasses
    -- the descriptor of somebody else is closed
    have hclosed : s.fd i ∉ (s.put i ((Handle.uninit (kind i) answer).run (s.view i)).2
        false).opened := by
      rw [put_opened, hopened, if_pos hpasses]
      exact Finset.notMem_erase _ _
    obtain hothers | ⟨j, hj, hfd⟩ := (h.opened _).mp (hfinds hpasses)
    · exact hclosed ((ht.opened _).mpr (.inl hothers))
    · have hne : j ≠ i := by
        rintro rfl
        exact hnone hj
      refine hclosed ((ht.opened _).mpr (.inr ⟨j, ?_, ?_⟩))
      · exact (put_held_of_ne _ _ _ hne).trans hj
      · exact (put_fd_of_ne _ _ _ hne).trans hfd
  · intro horder
    by_cases hheld : s.held i = true
    · have hopen : s.fd i ∈ s.opened := (h.opened _).mpr (.inr ⟨i, hheld, rfl⟩)
      have hpasses : Handle.Passes (kind i) (s.fd i) := by
        have hnonneg := hrange _ hopen
        exact .inr (by omega)
      refine ⟨h.drops fun x => ?_, fun _ => hopen⟩
      rw [hopened, if_pos hpasses, Finset.mem_erase, and_comm, and_iff_right hheld]
      exact and_congr_right fun _ => not_congr eq_comm
    · have hnot := horder.resolve_left hheld
      refine ⟨h.drops fun x => ?_, fun hpasses => absurd hpasses hnot⟩
      rw [hopened, if_neg hnot]
      exact (and_iff_left fun h => hheld h.1).symm

/-- **A step** keeps the account, and finds what it closes, exactly if it is in order. -/
theorem Balanced.step_iff (h : s.Balanced) (hrange : ∀ x ∈ s.opened, 0 ≤ x) {a : HandleAction ι}
    (hst : Step kind s a t) : t.Balanced ∧ Finds kind s a ↔ InOrder kind s a := by
  cases hst with
  | init hnew => exact (and_iff_left trivial).trans (h.init_iff hnew)
  | uninit => exact h.uninit_iff hrange _
  | @opened fd hnew =>
    refine iff_of_true ⟨⟨fun x => ?_, fun i hi => ?_, h.single⟩, trivial⟩ trivial
    · rw [Finset.mem_insert, Finset.mem_insert, h.opened, or_assoc]
    · rw [Finset.mem_insert, not_or]
      exact ⟨fun heq => hnew (heq ▸ (h.opened _).mpr (.inr ⟨i, hi, rfl⟩)), h.apart i hi⟩
  | @closed fd hmem =>
    refine iff_of_true ⟨⟨fun x => ?_, fun i hi hx => ?_, h.single⟩, trivial⟩ trivial
    · rw [Finset.mem_erase, Finset.mem_erase, h.opened, and_or_left]
      refine or_congr_right (and_iff_right_of_imp ?_)
      rintro ⟨i, hi, rfl⟩ rfl
      exact h.apart i hi hmem
    · exact h.apart i hi (Finset.mem_of_mem_erase hx)

/-- Descriptors have numbers that are not negative. -/
theorem range_step (hrange : ∀ x ∈ s.opened, 0 ≤ x) {a : HandleAction ι}
    (hst : Step kind s a t) : ∀ x ∈ t.opened, 0 ≤ x := by
  cases hst with
  | @init i answer hnew =>
    cases answer with
    | ok fd =>
      rw [Handle.init_ok, put_opened]
      intro x hx
      obtain rfl | hx := Finset.mem_insert.mp hx
      · exact fd.2.1
      · exact hrange x hx
    | error errno =>
      rw [put_opened, (Handle.init_error (kind i) errno (s.view i)).2.2]
      exact hrange
  | @uninit i answer =>
    rw [put_opened, (Handle.uninit_frame (kind i) answer (s.view i)).2]
    split
    · exact fun x hx => hrange x (Finset.mem_of_mem_erase hx)
    · exact hrange
  | @opened fd hnew =>
    intro x hx
    obtain rfl | hx := Finset.mem_insert.mp hx
    · exact fd.2.1
    · exact hrange x hx
  | closed hmem => exact fun x hx => hrange x (Finset.mem_of_mem_erase hx)

end Steps

/-- **The descriptors balance.**  In every run of a program with any number of these objects, the
account is right after every step, and every `close` finds its descriptor, if and only if the
calls on each object alternate. -/
theorem alternates_iff {τs : List (Transition (Handles ι) (HandleAction ι))}
    (hs : (handling kind).init s) (hr : (handling kind).Run s τs t) :
    (∀ τ ∈ τs, τ.after.Balanced ∧ Finds kind τ.before τ.action) ↔
      ∀ τ ∈ τs, InOrder kind τ.before τ.action := by
  refine hr.forall_iff (I := fun s => s.Balanced ∧ ∀ x ∈ s.opened, 0 ≤ x)
    (Q := fun s a t => t.Balanced ∧ Finds kind s a) (G := InOrder kind) ?_ ?_
    ⟨balanced_init hs, hs.2.2⟩
  · rintro s a t ⟨h, hrange⟩ hst hgood
    exact ⟨((h.step_iff hrange hst).mpr hgood).1, range_step hrange hst⟩
  · rintro s a t ⟨h, hrange⟩ hst
    exact h.step_iff hrange hst

/-! ### A descriptor that is closed twice -/

/-- The number that the kernel gives. -/
def three : FdNumber := ⟨3, by decide⟩

/-- An event is not initialised yet, and nothing is open. -/
def fresh : Handles Unit := ⟨fun _ => 0, fun _ => false, ∅, ∅, []⟩

/-- The event is initialised and uninitialised. -/
def released : Handles Unit := (fresh.put () ⟨3, insert 3 ∅, []⟩ true).put () ⟨3, ∅, []⟩ false

/-- Another part of the program has the number now. -/
def reused : Handles Unit := { released with opened := insert 3 ∅, others := insert 3 ∅ }

theorem reused_run : ∃ τs, (handling (fun _ : Unit => .event)).Run fresh τs reused := by
  have hinit : Step (fun _ => .event) fresh (.init () (.ok three))
      (fresh.put () ⟨3, insert 3 ∅, []⟩ true) :=
    .init fun fd _ => Finset.notMem_empty _
  have huninit : Step (fun _ => .event) (fresh.put () ⟨3, insert 3 ∅, []⟩ true)
      (.uninit () none) released := .uninit
  have hopened : Step (fun _ => .event) released (.opened three) reused :=
    .opened (Finset.notMem_empty _)
  exact ⟨_, ((System.Run.single hinit).snoc huninit).snoc hopened⟩

/-- A second `ae_event_uninit` closes it there. -/
theorem alternates_iff_twice : ∃ τs t, (handling (fun _ : Unit => .event)).Run fresh τs t ∧
    ¬ ∀ τ ∈ τs, τ.after.Balanced ∧ Finds (fun _ => .event) τ.before τ.action := by
  obtain ⟨τs, hr⟩ := reused_run
  have hagain : Step (fun _ => .event) reused (.uninit () none) _ := .uninit
  refine ⟨_, _, hr.snoc hagain, fun hall => ?_⟩
  have hs : (handling (fun _ : Unit => .event)).init fresh :=
    ⟨fun _ => rfl, rfl, fun x hx => absurd hx (Finset.notMem_empty x)⟩
  obtain hheld | hnot := (alternates_iff hs (hr.snoc hagain)).mp hall _
    (List.mem_append_right _ List.mem_cons_self)
  · cases hheld
  · exact hnot (.inr (by decide))

end Handles
end Libae
