import Mathlib.Data.List.Basic

namespace DurableDav.Library

variable {α : Type}

/-- The entries from the `k`-th slice of so many on, the first being the 0th. -/
def sliceAt (limit k : ℕ) (xs : List α) : List α := (xs.drop (k * limit)).take limit

def slicesOf (limit total : ℕ) : ℕ := (total + limit - 1) / limit

section Slices

variable {limit total k n : ℕ} {xs : List α}

theorem flatMap_sliceAt (limit n : ℕ) (xs : List α) :
    (List.range n).flatMap (fun k => sliceAt limit k xs) = xs.take (n * limit) := by
  induction n with
  | zero => simp
  | succ n ih =>
    rw [List.range_succ, List.flatMap_append, ih, Nat.succ_mul, List.take_add]
    simp [sliceAt]

theorem lt_slicesOf_iff (hlimit : 0 < limit) : k < slicesOf limit total ↔ k * limit < total := by
  unfold slicesOf
  rw [Nat.lt_iff_add_one_le, Nat.le_div_iff_mul_le hlimit, Nat.succ_mul]
  omega

/-- The slices one after another are the whole list. -/
theorem slices_cover (hlimit : 0 < limit) (hn : slicesOf limit xs.length ≤ n) :
    (List.range n).flatMap (fun k => sliceAt limit k xs) = xs := by
  rw [flatMap_sliceAt, List.take_of_length_le]
  by_contra hlong
  have hlast : n < slicesOf limit xs.length := (lt_slicesOf_iff hlimit).mpr (by omega)
  omega

theorem sliceAt_ne_nil (hlimit : 0 < limit) (hk : k < slicesOf limit xs.length) : sliceAt limit k xs ≠ [] := by
  have hstart := (lt_slicesOf_iff hlimit).mp hk
  apply List.ne_nil_of_length_pos
  unfold sliceAt
  rw [List.length_take, List.length_drop]
  omega

end Slices

end DurableDav.Library
