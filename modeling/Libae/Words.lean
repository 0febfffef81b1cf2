import Mathlib.Data.Nat.Bitwise
import Mathlib.Tactic.Ring

/-! # Machine words and rounding

Sums, differences and products of 64-bit words are taken modulo `2 ^ 64`
(`Word.add`, `Word.sub`, `Word.mul`); `add_eq`, `sub_eq` and `mul_eq` say when
they are the exact ones.  `roundUp m x` is the least multiple of `m` that is not
below `x`; masking with the complement of `2 ^ k - 1` computes it on words
(`and_not_pow`).
-/
namespace Word

/-- The word sum. -/
def add (a b : Nat) : Nat := (a + b) % 2 ^ 64

/-- The word difference. -/
def sub (a b : Nat) : Nat := (a + (2 ^ 64 - b % 2 ^ 64)) % 2 ^ 64

/-- The word product. -/
def mul (a b : Nat) : Nat := (a * b) % 2 ^ 64

/-- The word complement. -/
def not (a : Nat) : Nat := 2 ^ 64 - 1 - a

theorem add_lt (a b : Nat) : add a b < 2 ^ 64 := Nat.mod_lt _ (by decide)

theorem sub_lt (a b : Nat) : sub a b < 2 ^ 64 := Nat.mod_lt _ (by decide)

theorem add_eq {a b : Nat} (h : a + b < 2 ^ 64) : add a b = a + b := Nat.mod_eq_of_lt h

theorem sub_eq {a b : Nat} (ha : a < 2 ^ 64) (h : b ≤ a) : sub a b = a - b := by
  unfold sub
  omega

/-- The sum takes back the difference. -/
theorem add_sub {a : Nat} (b : Nat) (ha : a < 2 ^ 64) : add b (sub a b) = a := by
  unfold sub add
  omega

theorem mul_eq {a b : Nat} (h : a * b < 2 ^ 64) : mul a b = a * b := Nat.mod_eq_of_lt h

/-- Clearing the low `k` bits of a word rounds it down to a multiple of `2 ^ k`. -/
theorem and_not_pow {x k : Nat} (hx : x < 2 ^ 64) (hk : k ≤ 64) :
    x &&& not (2 ^ k - 1) = x / 2 ^ k * 2 ^ k := by
  have hpos : 0 < 2 ^ k := Nat.two_pow_pos k
  have hsplit : 2 ^ 64 = 2 ^ (64 - k) * 2 ^ k := by
    rw [← Nat.pow_add]
    congr 1
    omega
  have hmask : not (2 ^ k - 1) = (2 ^ (64 - k) - 1) * 2 ^ k := by
    rw [not, Nat.sub_mul, ← hsplit]
    omega
  rw [hmask]
  apply Nat.eq_of_testBit_eq
  intro i
  rw [Nat.testBit_and, Nat.testBit_mul_two_pow, Nat.testBit_two_pow_sub_one,
    Nat.testBit_mul_two_pow, Nat.testBit_div_two_pow]
  by_cases hi : k ≤ i
  · rw [Nat.sub_add_cancel hi]
    by_cases hlt : i < 64
    · simp [hi, show i - k < 64 - k by omega]
    · have hxi : x < 2 ^ i := Nat.lt_of_lt_of_le hx (Nat.pow_le_pow_right (by decide) (by omega))
      simp [Nat.testBit_lt_two_pow hxi]
  · simp [hi]

/-! ### Rounding up -/

/-- The least multiple of `m` that is at least `x`. -/
def roundUp (m x : Nat) : Nat := (x + (m - 1)) / m * m

theorem dvd_roundUp (m x : Nat) : m ∣ roundUp m x := Nat.dvd_mul_left m _

theorem le_roundUp {m : Nat} (hm : 0 < m) (x : Nat) : x ≤ roundUp m x := by
  have h := Nat.lt_div_mul_add (a := x + (m - 1)) hm
  unfold roundUp
  omega

/-- Rounding up to a multiple of `m` never passes a multiple of `m`. -/
theorem roundUp_le {m x y : Nat} (hm : 0 < m) (hxy : x ≤ y) (hy : m ∣ y) :
    roundUp m x ≤ y := by
  obtain ⟨c, rfl⟩ := hy
  have h : (x + (m - 1)) / m ≤ c := by
    apply Nat.le_of_lt_succ
    rw [Nat.div_lt_iff_lt_mul hm]
    calc x + (m - 1) < m * c + m := by omega
      _ = (c + 1) * m := by ring
  calc roundUp m x ≤ c * m := Nat.mul_le_mul_right m h
    _ = m * c := Nat.mul_comm c m

end Word
