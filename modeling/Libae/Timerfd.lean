import Mathlib.Order.Basic
import Mathlib.Tactic.Ring

/-! # Timers that are read: the kernel's side

A timer is set to expire once, or again and again, and a read takes the number of times that it
has expired since it was read last, or set.  Times are numbers of nanoseconds of the timer's
clock.

Time passes in steps of any size, and reads come late.  `expirations` says how often a timer is
to expire in the time since it was set, and `Accounts` that what was read and what can be read
are that many: a setting establishes it, and the passing time and the reads keep it.
-/

/-- What the clock reads, when the timer expires next, its period or zero, and how often it has
expired since it was set or read. -/
structure Timerfd where
  now : Nat
  due : Option Nat
  interval : Nat
  ticks : Nat

namespace Timerfd

/-- Time passes. -/
def elapse (d : Nat) (k : Timerfd) : Timerfd :=
  match k.due with
  | none => { k with now := k.now + d }
  | some due =>
    if k.now + d < due then { k with now := k.now + d }
    else if k.interval = 0 then { k with now := k.now + d, due := none, ticks := k.ticks + 1 }
    else
      let n := (k.now + d - due) / k.interval + 1
      { k with now := k.now + d, due := some (due + n * k.interval), ticks := k.ticks + n }

/-- The timer is set to expire after `value`, and then in every `interval`; zero disarms it. -/
def set (interval value : Nat) (k : Timerfd) : Timerfd where
  now := k.now
  due := if value = 0 then none else some (k.now + value)
  interval := interval
  ticks := 0

/-- A read, unless it would block. -/
def read (k : Timerfd) : Option (Nat × Timerfd) :=
  if k.ticks = 0 then none else some (k.ticks, { k with ticks := 0 })

/-- How often a timer expires in the time since it was set.  Without a period that is once, as
`n / 0 = 0`. -/
def expirations (interval value elapsed : Nat) : Nat :=
  if value = 0 ∨ elapsed < value then 0 else (elapsed - value) / interval + 1

/-- When it expires next, if it was set `elapsed` ago. -/
def next (interval value elapsed : Nat) : Option Nat :=
  if value = 0 then none
  else if elapsed < value then some value
  else if interval = 0 then none
  else some (value + ((elapsed - value) / interval + 1) * interval)

/-- The timer was set at the time `start`, and `taken` of the times that it has expired were
read. -/
structure Accounts (interval value start taken : Nat) (k : Timerfd) : Prop where
  period : k.interval = interval
  since : start ≤ k.now
  ticks : taken + k.ticks = expirations interval value (k.now - start)
  due : k.due = (next interval value (k.now - start)).map (start + ·)

variable {interval value start taken : Nat} {k : Timerfd}

/-- **A setting** starts the account. -/
theorem accounts_set (interval value : Nat) (k : Timerfd) :
    Accounts interval value k.now 0 (k.set interval value) := by
  refine ⟨rfl, le_refl _, ?_, ?_⟩
  · show 0 + 0 = expirations interval value (k.now - k.now)
    rw [Nat.sub_self, expirations, if_pos (by omega)]
  · show (if value = 0 then none else some (k.now + value)) =
      (next interval value (k.now - k.now)).map (k.now + ·)
    by_cases hv : value = 0
    · rw [next, if_pos hv, if_pos hv]
      rfl
    · rw [Nat.sub_self, next, if_neg hv, if_neg hv, if_pos (Nat.pos_of_ne_zero hv)]
      rfl

/-- Within a period nothing is added to a quotient. -/
theorem div_within {n d i : Nat} (hlt : n + d < (n / i + 1) * i) : (n + d) / i = n / i :=
  Nat.div_eq_of_lt_le (Nat.le_trans (Nat.div_mul_le_self n i) (Nat.le_add_right n d)) hlt

/-- Beyond it the periods that have passed are. -/
theorem div_beyond {n d i : Nat} (hi : 0 < i) (hle : (n / i + 1) * i ≤ n + d) :
    (n + d) / i = (n + d - (n / i + 1) * i) / i + (n / i + 1) := by
  conv_lhs => rw [← Nat.sub_add_cancel hle]
  exact Nat.add_mul_div_right _ _ hi

/-- A timer whose expirations are all ahead expires, or not. -/
theorem elapse_early {e ticks : Nat} (hvalue : value ≠ 0)
    (hticks : taken + ticks = 0) (d : Nat) : Accounts interval value start taken
      (elapse d ⟨start + e, some (start + value), interval, ticks⟩) := by
  have helapsed : start + e + d - start = e + d := by omega
  have hsince : start ≤ start + e + d := by omega
  by_cases hstill : e + d < value
  · have hlt : start + e + d < start + value := by omega
    simp only [elapse, if_pos hlt]
    refine ⟨rfl, hsince, ?_, ?_⟩ <;> simp [helapsed, expirations, next, hvalue, hstill, hticks]
  · have hge : ¬ start + e + d < start + value := by omega
    by_cases hi : interval = 0
    · simp only [elapse, if_neg hge, if_pos hi]
      refine ⟨rfl, hsince, ?_, ?_⟩ <;> simp [helapsed, expirations, next, hvalue, hstill, hi]
      omega
    · have hsub : start + e + d - (start + value) = e + d - value := by omega
      simp only [elapse, if_neg hge, if_neg hi, hsub]
      refine ⟨rfl, hsince, ?_, ?_⟩ <;> simp [helapsed, expirations, next, hvalue, hstill, hi]
      · omega
      · omega

/-- A timer with a period, `n` after it has expired first, expires again, or not. -/
theorem elapse_late {n ticks : Nat} (hvalue : value ≠ 0) (hi : interval ≠ 0)
    (hticks : taken + ticks = n / interval + 1) (d : Nat) : Accounts interval value start taken
      (elapse d ⟨start + (value + n), some (start + (value + (n / interval + 1) * interval)),
        interval, ticks⟩) := by
  have helapsed : start + (value + n) + d - start = value + n + d := by omega
  have hsince : start ≤ start + (value + n) + d := by omega
  have hlater : ¬ value + n + d < value := by omega
  have hsub : value + n + d - value = n + d := by omega
  by_cases hwithin : n + d < (n / interval + 1) * interval
  · have hlt : start + (value + n) + d < start + (value + (n / interval + 1) * interval) := by omega
    simp only [elapse, if_pos hlt]
    refine ⟨rfl, hsince, ?_, ?_⟩ <;>
      simp [helapsed, expirations, next, hvalue, hlater, hi, hsub, div_within hwithin, hticks]
  · have hge : ¬ start + (value + n) + d < start + (value + (n / interval + 1) * interval) := by
      omega
    have hbeyond := div_beyond (Nat.pos_of_ne_zero hi) (Nat.le_of_not_lt hwithin)
    have hrest : start + (value + n) + d - (start + (value + (n / interval + 1) * interval)) =
        n + d - (n / interval + 1) * interval := by omega
    simp only [elapse, if_neg hge, if_neg hi, hrest]
    refine ⟨rfl, hsince, ?_, ?_⟩ <;>
      simp only [helapsed, expirations, next, hvalue, hlater, hi, hsub, hbeyond, or_self,
        if_false, Option.map_some]
    · omega
    · congr 1
      ring

/-- **Passing time** is accounted for. -/
theorem Accounts.elapse (h : Accounts interval value start taken k) (d : Nat) :
    Accounts interval value start taken (k.elapse d) := by
  obtain ⟨now, due, i, ticks⟩ := k
  obtain ⟨rfl, hsince, hticks, hdue⟩ := h
  obtain ⟨e, rfl⟩ := Nat.exists_eq_add_of_le hsince
  simp only [Nat.add_sub_cancel_left] at hticks hdue
  have helapsed : start + e + d - start = e + d := by omega
  have hsince' : start ≤ start + e + d := by omega
  by_cases hvalue : value = 0
  · -- the timer is disarmed
    simp only [next, hvalue, if_true, Option.map_none] at hdue
    subst hdue
    refine ⟨rfl, hsince', ?_, by simp [Timerfd.elapse, next, hvalue]⟩
    simpa [Timerfd.elapse, expirations, hvalue] using hticks
  by_cases hearly : e < value
  · simp only [next, hvalue, hearly, if_false, if_true, Option.map_some] at hdue
    subst hdue
    exact elapse_early hvalue (by simpa [expirations, hearly] using hticks) d
  obtain ⟨n, rfl⟩ := Nat.exists_eq_add_of_le (Nat.le_of_not_lt hearly)
  simp only [expirations, next, hvalue, hearly, or_self, if_false, Nat.add_sub_cancel_left]
    at hticks hdue
  by_cases hi : i = 0
  · -- it has expired once, and is disarmed
    subst hi
    simp only [if_true, Option.map_none] at hdue
    subst hdue
    have hlater : ¬ value + n + d < value := by omega
    refine ⟨rfl, hsince', ?_, ?_⟩ <;>
      simp [Timerfd.elapse, helapsed, expirations, next, hvalue, hlater]
    simpa using hticks
  · simp only [hi, if_false, Option.map_some] at hdue
    subst hdue
    exact elapse_late hvalue hi hticks d

/-- **A read** takes all there is, and something. -/
theorem Accounts.read (h : Accounts interval value start taken k) {n : Nat} {k' : Timerfd}
    (hr : k.read = some (n, k')) : Accounts interval value start (taken + n) k' ∧ 0 < n := by
  unfold Timerfd.read at hr
  split at hr
  · cases hr
  · cases hr
    exact ⟨⟨h.period, h.since, h.ticks, h.due⟩, Nat.pos_of_ne_zero ‹_›⟩

/-- There is something to read exactly if not all was read. -/
theorem Accounts.read_iff (h : Accounts interval value start taken k) :
    (∃ n k', k.read = some (n, k')) ↔
      taken < expirations interval value (k.now - start) := by
  have hticks := h.ticks
  unfold Timerfd.read
  split
  next hzero =>
    refine iff_of_false ?_ (by omega)
    rintro ⟨n, k', ⟨⟩⟩
  next hpos => exact iff_of_true ⟨_, _, rfl⟩ (by omega)

end Timerfd
