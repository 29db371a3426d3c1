import Mathlib.Data.List.Sort

namespace DurableDav.Library

/-! ### Serving the least first -/

section LeastFirst

variable {α β : Type*} [LinearOrder β]

/-- The `n` entries of the least rank, in their order. -/
def leastOf (rank : α → β) (n : ℕ) (xs : List α) : List α :=
  (xs.insertionSort fun a b => rank a ≤ rank b).take n

variable {rank : α → β} {n : ℕ} {xs : List α} {x y : α}

theorem leastOf_subperm : (leastOf rank n xs).Subperm xs :=
  (List.take_sublist _ _).subperm.trans (List.perm_insertionSort _ xs).subperm

theorem leastOf_nodup {γ : Type*} {f : α → γ} (h : (xs.map f).Nodup) : ((leastOf rank n xs).map f).Nodup := by
  obtain ⟨ys, hperm, hsub⟩ := @leastOf_subperm _ _ _ rank n xs
  exact (hperm.map f).nodup_iff.mp (h.sublist (hsub.map f))

theorem mem_of_leastOf (h : x ∈ leastOf rank n xs) : x ∈ xs := leastOf_subperm.subset h

/-- Who is left out is left out for `n` others. -/
theorem leastOf_length (hx : x ∈ xs) (hout : x ∉ leastOf rank n xs) : (leastOf rank n xs).length = n := by
  unfold leastOf at hout ⊢
  rw [List.length_take, Nat.min_eq_left]
  by_contra hshort
  rw [List.take_of_length_le (by omega)] at hout
  exact hout ((List.perm_insertionSort _ xs).mem_iff.mpr hx)

/-- None of these comes after. -/
theorem leastOf_le (hx : x ∈ xs) (hout : x ∉ leastOf rank n xs) (hy : y ∈ leastOf rank n xs) : rank y ≤ rank x := by
  have hsorted : (xs.insertionSort fun a b => rank a ≤ rank b).Pairwise fun a b => rank a ≤ rank b := by
    have : Std.Total fun a b : α => rank a ≤ rank b := ⟨fun a b => le_total (rank a) (rank b)⟩
    have : IsTrans α fun a b => rank a ≤ rank b := ⟨fun _ _ _ => le_trans⟩
    exact List.pairwise_insertionSort _ xs
  unfold leastOf at hout hy
  rw [← List.take_append_drop n (xs.insertionSort fun a b => rank a ≤ rank b)] at hsorted
  have hlater : x ∈ (xs.insertionSort fun a b => rank a ≤ rank b).drop n := by
    have hmem := (List.perm_insertionSort (fun a b => rank a ≤ rank b) xs).mem_iff.mpr hx
    rw [← List.take_append_drop n (xs.insertionSort fun a b => rank a ≤ rank b)] at hmem
    exact (List.mem_append.mp hmem).resolve_left hout
  exact (List.pairwise_append.mp hsorted).2.2 y hy x hlater

end LeastFirst

end DurableDav.Library
