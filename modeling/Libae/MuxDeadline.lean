import Libae.MuxCover

/-! # Waiting again after an interruption

An `epoll_wait` that a signal has interrupted is called again, with the time that is left
until `then`.  That time is computed only while `now < then`.  Later the loop passes the
timeout of the call before, so a signal that comes at the deadline starts the wait anew
(`deadline_kept_iff`).
-/
namespace Libae
namespace Mux
variable {δ : Type}

/-- What the clock reads after the interruptions: up to the first answer that ends the
loop. -/
def readings : List (EpollAnswer δ) → List Nat
  | .interrupted clock :: answers =>
    match nowGet clock with
    | .ok now => now :: readings answers
    | .error _ => []
  | _ => []

/-- Each `epoll_wait` but the first one, with the reading before it: it is given at most the
time that is left until the deadline. -/
def KeepsDeadline (deadline : Int) (readings : List Nat) (calls : List (Int × Int)) : Prop :=
  ∀ p ∈ readings.zip calls.tail, p.2.2 ≤ max 0 (deadline - p.1)

/-- The timeout behind an interruption at `now`. -/
def nextTimeout (due : Nat) (timeoutMs : Int) (now : Nat) : Int :=
  if now < due then toInt (Word.sub due now) else timeoutMs

/-- The readings, each with the timeout that is passed then. -/
def resumed (due : Nat) : Int → List Nat → List (Nat × Int)
  | _, [] => []
  | timeoutMs, now :: nows =>
    (now, nextTimeout due timeoutMs now) :: resumed due (nextTimeout due timeoutMs now) nows

/-- **What the loop passes**, by induction on the answers. -/
theorem waitLoop_resumed (maxevents : Int) (due : Nat) (timeoutMs : Int)
    (answers : List (EpollAnswer δ)) :
    (readings answers).zip (waitLoop maxevents due timeoutMs answers).1.tail =
      (resumed due timeoutMs (readings answers)).map (fun p => (p.1, maxevents, p.2)) := by
  induction answers generalizing timeoutMs with
  | nil => rfl
  | cons a answers ih =>
    cases a with
    | interrupted clock =>
      rw [readings, waitLoop]
      cases nowGet clock with
      | error text => rfl
      | ok now =>
        obtain ⟨calls, hcalls⟩ :=
          waitLoop_head maxevents due (nextTimeout due timeoutMs now) answers
        have hrest := ih (nextTimeout due timeoutMs now)
        rw [hcalls, List.tail_cons] at hrest
        simp only [List.tail_cons, resumed, List.map_cons, ← hrest]
        rw [← List.zip_cons_cons, ← hcalls]
        rfl
    | failed errno => rfl
    | reports events => rfl

/-- A call with a descriptor in the mux. -/
theorem wait_calls {count : Nat} {threadpool : Option (Except Text Unit)} {nEvents : Nat}
    {timeoutMs : Int} {out : Bool} {clock : Except Text Timespec} {first : Nat}
    {answers : List (EpollAnswer δ)} (hcount : count ≠ 0) (hfirst : nowGet clock = .ok first) :
    (wait count threadpool nEvents timeoutMs out clock answers).calls =
      (waitLoop (toInt count) (dueTime first timeoutMs) timeoutMs answers).1 := by
  rw [wait, if_neg hcount, hfirst]
  exact (waitEnd_calls threadpool out _ _).1

/-- What the wait passes, in terms of the loop's timeouts. -/
theorem keepsDeadline_iff {count : Nat} {threadpool : Option (Except Text Unit)} {nEvents : Nat}
    {timeoutMs deadline : Int} {out : Bool} {clock : Except Text Timespec} {first : Nat}
    {answers : List (EpollAnswer δ)} (hcount : count ≠ 0) (hfirst : nowGet clock = .ok first) :
    KeepsDeadline deadline (readings answers)
        (wait count threadpool nEvents timeoutMs out clock answers).calls ↔
      ∀ p ∈ resumed (dueTime first timeoutMs) timeoutMs (readings answers),
        p.2 ≤ max 0 (deadline - p.1) := by
  rw [KeepsDeadline, wait_calls hcount hfirst, waitLoop_resumed, List.forall_mem_map]

/-- The clock is read as a word. -/
theorem nowGet_lt {clock : Except Text Timespec} {now : Nat} (h : nowGet clock = .ok now) :
    now < 2 ^ 64 := by
  cases clock with
  | error errno => cases h
  | ok tp =>
    cases h
    exact Word.add_lt _ _

/-! ## Before the deadline and behind it -/

variable {due first : Nat} {timeoutMs : Int} {nows : List Nat}

/-- Behind `then` the timeout stays what it was. -/
theorem resumed_late (h : ∀ now ∈ nows, due ≤ now) :
    resumed due timeoutMs nows = nows.map (fun now => (now, timeoutMs)) := by
  induction nows with
  | nil => rfl
  | cons now nows ih =>
    rw [List.forall_mem_cons] at h
    have hkept : nextTimeout due timeoutMs now = timeoutMs := if_neg (Nat.not_lt.mpr h.1)
    rw [resumed, hkept, List.map_cons, ih h.2]

/-- So all depends on the timeout itself. -/
theorem resumed_late_iff {deadline : Int} (h : ∀ now ∈ nows, due ≤ now) :
    (∀ p ∈ resumed due timeoutMs nows, p.2 ≤ max 0 (deadline - p.1)) ↔
      ∀ now ∈ nows, timeoutMs ≤ max 0 (deadline - now) := by
  rw [resumed_late h, List.forall_mem_map]

/-- Before `then` it is the time that is left. -/
theorem nextTimeout_early (timeoutMs : Int) {now : Nat} (hdue : due < 2 ^ 64) (hnow : now < due)
    (hleft : due - now < 2 ^ 31) : nextTimeout due timeoutMs now = due - now := by
  rw [nextTimeout, if_pos hnow, Word.sub_eq hdue (Nat.le_of_lt hnow), toInt,
    Int.bmod_eq_of_le (by omega) (by omega)]
  omega

/-- **A positive timeout keeps to a deadline that is no wrapped sum exactly as long as no
signal comes at it or later**, by induction on the readings: before the deadline the next
timeout is positive again. -/
theorem resumed_within_iff (hdue : due < 2 ^ 64) (hpos : 0 < timeoutMs)
    (hnows : ∀ now ∈ nows, due < now + 2 ^ 31) :
    (∀ p ∈ resumed due timeoutMs nows, p.2 ≤ max 0 ((due : Int) - p.1)) ↔
      ∀ now ∈ nows, now < due := by
  induction nows generalizing timeoutMs with
  | nil => simp [resumed]
  | cons now nows ih =>
    rw [List.forall_mem_cons] at hnows
    rw [resumed, List.forall_mem_cons, List.forall_mem_cons]
    by_cases hnow : now < due
    · have hleft : (0 : Int) < due - now := by omega
      rw [nextTimeout_early timeoutMs hdue hnow (by omega)]
      exact and_congr (by simp [hnow]) (ih hleft hnows.2)
    · have hkept : nextTimeout due timeoutMs now = timeoutMs := if_neg hnow
      rw [hkept]
      have hlate : ¬ timeoutMs ≤ max 0 ((due : Int) - now) := by omega
      exact iff_of_false (fun h => hlate h.1) (fun h => hnow h.1)

/-- **An interrupted wait and its deadline.**  For every mux that counts a registered
descriptor, every timeout that is not negative and all interruptions, with a clock that does
not go back: each `epoll_wait` after an interruption gets at most the time that is left,
exactly if the timeout is 0, or no signal comes at the deadline or after it.  Where the sum
`then` wraps, the loop takes every reading for a late one, and only those that are the first
one again do no harm. -/
theorem deadline_kept_iff (s : Mux δ) (threadpool : Option (Except Text Unit)) (nEvents : Nat)
    (timeoutMs : Int) (out : Bool) (clock : Except Text Timespec)
    (answers : List (EpollAnswer δ)) (first : Nat) (hcount : s.count ≠ 0)
    (hnonneg : 0 ≤ timeoutMs) (hint : timeoutMs < 2 ^ 31) (hfirst : nowGet clock = .ok first)
    (hclock : (first :: readings answers).Pairwise (· ≤ ·)) :
    KeepsDeadline (first + timeoutMs) (readings answers)
        (wait s.count threadpool nEvents timeoutMs out clock answers).calls ↔
      timeoutMs = 0 ∨ ∀ now ∈ readings answers,
        now = first ∨ (now < first + timeoutMs ∧ first + timeoutMs < 2 ^ 64) := by
  have hword := nowGet_lt hfirst
  have hlater : ∀ now ∈ readings answers, first ≤ now := (List.pairwise_cons.mp hclock).1
  rw [keepsDeadline_iff hcount hfirst]
  by_cases hzero : timeoutMs = 0
  · -- every reading is a late one, and the timeout stays 0
    have hdue : dueTime first timeoutMs = first := by
      rw [dueTime]
      omega
    rw [hdue, resumed_late_iff hlater]
    exact iff_of_true (fun now _ => by omega) (.inl hzero)
  · by_cases hwrap : first + timeoutMs < 2 ^ 64
    · have hdue : (dueTime first timeoutMs : Int) = first + timeoutMs := by
        rw [dueTime]
        omega
      have hnear : ∀ now ∈ readings answers, dueTime first timeoutMs < now + 2 ^ 31 := by
        intro now hnow
        have hge := hlater now hnow
        omega
      rw [← hdue, resumed_within_iff (by omega) (by omega) hnear]
      constructor
      · intro h
        refine .inr (fun now hnow => .inr ⟨?_, by omega⟩)
        have hearly := h now hnow
        omega
      · rintro (h | h) now hnow
        · exact absurd h hzero
        · have hcases := h now hnow
          omega
    · have hdue : ∀ now ∈ readings answers, dueTime first timeoutMs ≤ now := by
        intro now hnow
        have hge := hlater now hnow
        rw [dueTime]
        omega
      rw [resumed_late_iff hdue]
      constructor
      · intro h
        refine .inr (fun now hnow => .inl ?_)
        have hge := hlater now hnow
        have hkept := h now hnow
        omega
      · rintro (h | h) now hnow
        · exact absurd h hzero
        · have hcases := h now hnow
          omega

/-- A signal after 4 ms and one after 9 ms, and then nothing. -/
def signals : List (EpollAnswer Int) :=
  [.interrupted (.ok ⟨0, 4000000⟩), .interrupted (.ok ⟨0, 9000000⟩), .reports []]

/-- The wait was for 10 ms. -/
theorem deadline_kept_twice :
    KeepsDeadline ((0 : Nat) + 10) (readings signals)
      (wait twoAdded.count none 2 10 false (.ok ⟨0, 0⟩) signals).calls := by
  refine (deadline_kept_iff twoAdded none 2 10 false (.ok ⟨0, 0⟩) signals 0 (by decide)
    (by decide) (by decide) rfl (by decide)).mpr (.inr ?_)
  have hreadings : readings signals = [4, 9] := rfl
  rw [hreadings]
  simp

/-- A signal after 10 ms. -/
def lateSignal : List (EpollAnswer Int) := [.interrupted (.ok ⟨0, 10000000⟩)]

/-- The wait was for 10 ms, and begins again. -/
theorem late_signal_restarts : twoAdded.Registered 3 ∧
    ¬ KeepsDeadline ((0 : Nat) + 10) (readings lateSignal)
      (wait twoAdded.count none 2 10 false (.ok ⟨0, 0⟩) lateSignal).calls := by
  constructor
  · show (3 : Int) ∈ twoAdded.epoll.interest.keys
    decide
  · intro h
    exact absurd (h (10, 2, 10) (by decide)) (by decide)

end Mux
end Libae
