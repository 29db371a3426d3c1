import Mathlib.Data.Nat.Basic
import Mathlib.Algebra.Ring.Nat

namespace DurableDav.Library

/-- The nearest number of no more than `p` significant bits, and the even one of two that are as near. -/
def roundBits (p n : ℕ) : ℕ :=
  let unit := 2 ^ (n.log2 + 1 - p)
  let q := n / unit
  if 2 * (n % unit) < unit ∨ 2 * (n % unit) = unit ∧ q % 2 = 0 then q * unit else (q + 1) * unit

section Rounding

variable {p n : ℕ}

theorem roundBits_of_lt (hp : 0 < p) (hn : n < 2 ^ p) : roundBits p n = n := by
  have hunit : n.log2 + 1 - p = 0 := by
    by_cases hzero : n = 0
    · subst hzero
      rw [Nat.log2_zero]
      omega
    · have hlog := (Nat.log2_lt hzero).mpr hn
      omega
  have hmod : n % 1 = 0 := Nat.mod_one n
  unfold roundBits
  rw [hunit]
  simp [hmod]

theorem le_roundBits (hp : 0 < p) (hn : 2 ^ p ≤ n) : 2 ^ p ≤ roundBits p n := by
  have hzero : n ≠ 0 := by
    have := Nat.two_pow_pos p
    omega
  have hlog : p ≤ n.log2 := (Nat.le_log2 hzero).mpr hn
  have hself : 2 ^ n.log2 ≤ n := Nat.log2_self_le hzero
  have hsplit : 2 ^ n.log2 = 2 ^ (p - 1) * 2 ^ (n.log2 + 1 - p) := by
    rw [← Nat.pow_add]
    congr 1
    omega
  have hq : 2 ^ (p - 1) ≤ n / 2 ^ (n.log2 + 1 - p) := by
    rw [Nat.le_div_iff_mul_le (Nat.two_pow_pos _), ← hsplit]
    exact hself
  have hfloor : 2 ^ p ≤ n / 2 ^ (n.log2 + 1 - p) * 2 ^ (n.log2 + 1 - p) :=
    calc 2 ^ p ≤ 2 ^ n.log2 := Nat.pow_le_pow_right (by omega) hlog
      _ = 2 ^ (p - 1) * 2 ^ (n.log2 + 1 - p) := hsplit
      _ ≤ n / 2 ^ (n.log2 + 1 - p) * 2 ^ (n.log2 + 1 - p) := Nat.mul_le_mul_right _ hq
  unfold roundBits
  dsimp only
  split
  · exact hfloor
  · rw [Nat.add_mul, Nat.one_mul]
    omega

end Rounding

end DurableDav.Library
