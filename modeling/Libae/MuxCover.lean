import Libae.MuxWait

/-! # The counter covers the registrations

Registrations can vanish behind the mux, when a descriptor is closed, and they can be
counted twice, when one is modified.  Both leave the counter too large, never too small:
`ae_mux_rm` counts only what the kernel deletes.  So in any order of calls the counter
is at least the number of registered descriptors (`Covers`), and `ae_mux_wait` polls
whenever there is one (`polls_registered`).
-/
namespace Libae
open Fallible Runs

namespace Mux
variable {C X δ : Type}

/-- A mux from `ae_mux_init` on, with calls and closed descriptors in any order. -/
def anyOrder (C X δ : Type) : System (Mux δ) (Op C X δ) where
  init s := s.count = 0 ∧ s.epoll.interest = ∅
  step s op t := t = s.call op

/-- The operation is a call that may count a registration. -/
def Op.registers : Op C X δ → Bool
  | .add .. | .mod .. => true
  | _ => false

/-- The calls that may count a registration. -/
def registrations (τs : List (Transition (Mux δ) (Op C X δ))) : Nat :=
  τs.countP (fun τ => τ.action.registers)

/-- No registered descriptor is missing in the counter. -/
def Covers (s : Mux δ) : Prop := s.epoll.size ≤ s.count

/-- The counter moved by one at most, and did not wrap. -/
def Steady (s t : Mux δ) : Prop :=
  t.count = s.count ∨ t.count = s.count + 1 ∨ t.count + 1 = s.count

/-! ## One call -/

/-- What a call does to a counter that covers the registrations. -/
structure Kept (s t : Mux δ) (registers : Bool) : Prop where
  covers : t.Covers
  steady : s.Steady t
  le : t.count ≤ s.count + if registers then 1 else 0

section Calls
variable {s : Mux δ}

/-- The counter is as before, and the set no larger. -/
theorem Kept.of_le (hs : s.Covers) {epoll : Epoll (EpollEvent δ)}
    (hsize : epoll.size ≤ s.epoll.size) (e : List Msg) (registers : Bool) :
    s.Kept ⟨s.count, epoll, e⟩ registers :=
  ⟨Nat.le_trans hsize hs, .inl rfl, Nat.le_add_right _ _⟩

theorem closeFd_size (s : Mux δ) (fd : Int) : (s.closeFd fd).epoll.size ≤ s.epoll.size := by
  by_cases hold : fd ∈ s.epoll.interest.keys
  · exact Nat.le_of_succ_le (Epoll.size_close_old hold).le
  · exact (Epoll.size_close hold).le

/-- Another registration is counted. -/
theorem Kept.of_entered {epoll : Epoll (EpollEvent δ)} (hs : s.Covers) (hbound : s.count < 2 ^ 31)
    (hsize : epoll.size ≤ s.epoll.size + 1) :
    s.Kept { s with epoll := epoll, count := Word.add s.count 1 } true := by
  have hcover : s.epoll.size ≤ s.count := hs
  have hcount : Word.add s.count 1 = s.count + 1 := Word.add_eq (by omega)
  rw [hcount]
  refine ⟨?_, .inr (.inl rfl), le_refl _⟩
  show epoll.size ≤ s.count + 1
  omega

theorem mod_kept (ptr : δ) (d : MuxEvent C X) (faults : EpollOp → Option Text) (hs : s.Covers)
    (hbound : s.count < 2 ^ 31) : s.Kept ((ctl ptr d .mod faults).run s).2 true := by
  obtain ⟨hold, -, h, hok⟩ | ⟨-, e, herr⟩ := mod_cases ptr d s faults
  · rw [hok]
    refine .of_entered hs hbound ?_
    rw [Epoll.size_enter_old _ h hold]
    exact Nat.le_succ _
  · rw [herr]
    exact .of_le hs (le_refl _) e true

theorem add_kept (ptr : δ) (d : MuxEvent C X) (faults : EpollOp → Option Text) (hs : s.Covers)
    (hbound : s.count < 2 ^ 31) : s.Kept ((add ptr d faults).run s).2 true := by
  obtain ⟨hnew, h, hok⟩ | ⟨hold, -, -, h, hok⟩ | ⟨-, e, herr⟩ := add_cases ptr d s faults
  · rw [hok]
    refine .of_entered hs hbound ?_
    rw [Epoll.size_enter_new _ h hnew]
  · rw [hok]
    refine .of_entered hs hbound ?_
    rw [Epoll.size_enter_old _ h hold]
    exact Nat.le_succ _
  · rw [herr]
    exact .of_le hs (le_refl _) e true

/-- **`ae_mux_rm`** counts a descriptor off only if one is registered. -/
theorem rm_kept (fd : Int) (faults : EpollOp → Option Text) (hs : s.Covers)
    (hbound : s.count < 2 ^ 31) : s.Kept ((rm fd faults).run s).2 false := by
  obtain ⟨hold, -, hok⟩ | ⟨-, r, e, herr⟩ := rm_cases s fd faults
  · have hcover : s.epoll.size ≤ s.count := hs
    have hsize := Epoll.size_delete hold
    have hcount : Word.sub s.count 1 = s.count - 1 := Word.sub_eq (by omega) (by omega)
    rw [hok, hcount]
    refine ⟨?_, .inr (.inr ?_), ?_⟩
    · show (s.epoll.delete fd).size ≤ s.count - 1
      omega
    · show s.count - 1 + 1 = s.count
      omega
    · show s.count - 1 ≤ s.count + 0
      omega
  · rw [herr]
    exact .of_le hs (le_refl _) e false

/-- **Every operation** keeps the registrations covered. -/
theorem call_kept (op : Op C X δ) (hs : s.Covers) (hbound : s.count < 2 ^ 31) :
    s.Kept (s.call op) op.registers := by
  cases op with
  | opened fd h => exact ⟨hs, .inl rfl, le_refl _⟩
  | closed fd => exact .of_le hs (closeFd_size s fd) s.e false
  | add ptr d faults => exact add_kept ptr d faults hs hbound
  | mod fd ptr d faults => exact mod_kept ptr d faults hs hbound
  | rm fd faults => exact rm_kept fd faults hs hbound
  | rmClose fd faults =>
    have hrm := rm_kept fd faults hs hbound
    have hclose : Kept ((rm fd faults).run s).2 (((rm fd faults).run s).2.closeFd fd) false :=
      .of_le hrm.covers (closeFd_size _ fd) _ false
    exact ⟨hclose.covers, hrm.steady, hrm.le⟩
  | closeRm fd faults =>
    have hclosed : fd ∉ (s.closeFd fd).epoll.opened := by simp [closeFd, Epoll.close]
    rw [call, rm_closed hclosed]
    exact .of_le hs (closeFd_size s fd) s.e false

end Calls

/-! ## A run -/

/-- As long as the counter cannot wrap, the registrations are covered. -/
theorem covers_run {s t : Mux δ} {τs : List (Transition (Mux δ) (Op C X δ))}
    (hs : (anyOrder C X δ).init s) (hr : (anyOrder C X δ).Run s τs t)
    (hfew : registrations τs < 2 ^ 31) :
    t.Covers ∧ t.count ≤ registrations τs ∧ ∀ τ ∈ τs, τ.before.Steady τ.after := by
  induction hr with
  | nil =>
    obtain ⟨hcount, hnone⟩ := hs
    refine ⟨?_, by omega, by simp⟩
    simp [Covers, Epoll.size, hnone]
  | @snoc τs t u op _ hst ih =>
    have hmore : registrations (τs ++ [⟨t, op, u⟩]) = registrations τs +
        if op.registers then 1 else 0 := by
      rw [registrations, List.countP_append, List.countP_singleton]
      rfl
    rw [hmore] at hfew ⊢
    obtain ⟨hcover, hle, hsteady⟩ := ih (by omega)
    obtain rfl : u = t.call op := hst
    have hkept := call_kept op hcover (by omega)
    refine ⟨hkept.covers, ?_, ?_⟩
    · exact Nat.le_trans hkept.le (Nat.add_le_add_right hle _)
    · rw [List.forall_mem_append, List.forall_mem_singleton]
      exact ⟨hsteady, hkept.steady⟩

/-! ## Waiting -/

/-- The wait does not return before it has polled, if the clock can be read, and the kernel
may store a report in every poll. -/
structure Waited.Polls (clock : Except Text Timespec) (r : Waited δ) : Prop where
  slept : r.slept = none
  polled : ∀ now, nowGet clock = .ok now → r.calls ≠ []
  maxevents : ∀ c ∈ r.calls, 0 < c.1

/-- The loop polls first of all. -/
theorem waitLoop_head (maxevents : Int) (due : Nat) (timeoutMs : Int)
    (answers : List (EpollAnswer δ)) :
    ∃ calls, (waitLoop maxevents due timeoutMs answers).1 = (maxevents, timeoutMs) :: calls := by
  cases answers with
  | nil => exact ⟨[], rfl⟩
  | cons a answers =>
    cases a with
    | interrupted clock =>
      rw [waitLoop]
      cases nowGet clock <;> exact ⟨_, rfl⟩
    | _ => exact ⟨[], rfl⟩

/-- Every poll of the loop has the same `maxevents`. -/
theorem waitLoop_maxevents {maxevents : Int} {due : Nat} {timeoutMs : Int}
    {answers : List (EpollAnswer δ)} :
    ∀ c ∈ (waitLoop maxevents due timeoutMs answers).1, c.1 = maxevents := by
  induction answers generalizing timeoutMs with
  | nil => simp [waitLoop]
  | cons a answers ih =>
    cases a with
    | interrupted clock =>
      rw [waitLoop]
      cases nowGet clock with
      | error text => simp
      | ok now => simpa using ih
    | _ => simp [waitLoop]

theorem waitEnd_calls (threadpool : Option (Except Text Unit)) (out : Bool)
    (calls : List (Int × Int)) (r : Option (Except Text (List (EpollEvent δ)))) :
    (waitEnd threadpool out calls r).calls = calls ∧
      (waitEnd threadpool out calls r).slept = none := by
  rcases r with _ | text | _ | ⟨event, events⟩
  · exact ⟨rfl, rfl⟩
  · exact ⟨rfl, rfl⟩
  · exact ⟨rfl, rfl⟩
  · rcases threadpool with _ | text | _ <;> exact ⟨rfl, rfl⟩

/-- A counter that is a positive `int` makes the wait poll. -/
theorem wait_polls {count : Nat} (hpos : 0 < count) (hbound : count < 2 ^ 31)
    (threadpool : Option (Except Text Unit)) (nEvents : Nat) (timeoutMs : Int) (out : Bool)
    (clock : Except Text Timespec) (answers : List (EpollAnswer δ)) :
    (wait count threadpool nEvents timeoutMs out clock answers).Polls clock := by
  have hint : toInt count = count := Int.bmod_eq_of_le (by omega) (by omega)
  rw [wait, if_neg (by omega)]
  cases hclock : nowGet clock with
  | error text =>
    refine ⟨rfl, ?_, by simp⟩
    intro now hnow
    rw [hclock] at hnow
    cases hnow
  | ok now =>
    obtain ⟨hcalls, hslept⟩ := waitEnd_calls threadpool out
      (waitLoop (toInt count) (dueTime now timeoutMs) timeoutMs answers).1
      (waitLoop (toInt count) (dueTime now timeoutMs) timeoutMs answers).2
    refine ⟨hslept, fun _ _ => ?_, ?_⟩
    · obtain ⟨calls, hhead⟩ :=
        waitLoop_head (toInt count) (dueTime now timeoutMs) timeoutMs answers
      rw [hcalls, hhead]
      exact List.cons_ne_nil _ _
    · rw [hcalls]
      intro c hc
      rw [waitLoop_maxevents c hc, hint]
      omega

/-- **No registered descriptor is starved.**  In every run, in any order, of calls of the mux,
of opened descriptors and of closed ones, with fewer than 2^31 calls of `ae_mux_add` and
`ae_mux_mod`: the counter never wraps, and whenever a descriptor is registered,
`ae_mux_wait` polls, with a positive `maxevents`. -/
theorem polls_registered {s t : Mux δ} {τs : List (Transition (Mux δ) (Op C X δ))}
    (hs : (anyOrder C X δ).init s) (hr : (anyOrder C X δ).Run s τs t)
    (hfew : registrations τs < 2 ^ 31) :
    (∀ τ ∈ τs, τ.before.Steady τ.after) ∧ ((∃ fd, t.Registered fd) →
      t.count ≠ 0 ∧ ∀ threadpool nEvents timeoutMs out clock (answers : List (EpollAnswer δ)),
        (wait t.count threadpool nEvents timeoutMs out clock answers).Polls clock) := by
  obtain ⟨hcover, hle, hsteady⟩ := covers_run hs hr hfew
  refine ⟨hsteady, fun hreg => ?_⟩
  obtain ⟨fd, hreg⟩ := hreg
  have hpos : 0 < t.count := Nat.lt_of_lt_of_le (List.length_pos_of_mem hreg) hcover
  refine ⟨by omega, fun threadpool nEvents timeoutMs out clock answers => ?_⟩
  exact wait_polls hpos (by omega) threadpool nEvents timeoutMs out clock answers

/-- The descriptor 3 is closed without a call of `ae_mux_rm`, and its number is reused. -/
def reused : List (Transition (Mux Unit) (Op Unit Unit Unit)) :=
  let opened := fresh.call (.opened 3 three_range : Op Unit Unit Unit)
  let added := opened.call (.add () record noFaults)
  let closed := added.call (.closed 3 : Op Unit Unit Unit)
  let reopened := closed.call (.opened 3 three_range : Op Unit Unit Unit)
  [⟨fresh, .opened 3 three_range, opened⟩, ⟨opened, .add () record noFaults, added⟩,
    ⟨added, .closed 3, closed⟩, ⟨closed, .opened 3 three_range, reopened⟩,
    ⟨reopened, .add () record noFaults, reopened.call (.add () record noFaults)⟩]

/-- The new descriptor is polled. -/
theorem polls_registered_reused : ∃ t, (anyOrder Unit Unit Unit).Run fresh reused t ∧
    (wait t.count none 1 0 false (.ok ⟨0, 0⟩) [.reports [⟨readable, ()⟩]]).Polls (.ok ⟨0, 0⟩) := by
  have hrun : ∃ t, (anyOrder Unit Unit Unit).Run fresh reused t ∧ t.Registered 3 := by
    refine ⟨_, ((((System.Run.single rfl).snoc rfl).snoc rfl).snoc rfl).snoc rfl, ?_⟩
    show (3 : Int) ∈ [3]
    exact List.mem_singleton_self 3
  obtain ⟨t, hr, hreg⟩ := hrun
  obtain ⟨-, hpolls⟩ := polls_registered ⟨rfl, rfl⟩ hr (by decide)
  exact ⟨t, hr, (hpolls ⟨3, hreg⟩).2 none 1 0 false (.ok ⟨0, 0⟩) _⟩

end Mux
end Libae
