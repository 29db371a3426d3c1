import Mathlib.Data.Multiset.DershowitzManna
import Mathlib.Algebra.BigOperators.Group.List.Basic
import Mathlib.Tactic.Abel

namespace DurableDav.Library

open Multiset

variable {α β : Type} [Preorder β] {M N : Multiset β}

/-! ### Systems that run down

Every part of a system has work left to do, each piece with a weight. A step that takes a piece away, and puts any
number of lighter ones in its place, brings the whole down. -/

theorem exists_around {l : List α} {i : ℕ} {a : α} (h : l[i]? = some a) :
    ∃ before after, l = before ++ a :: after ∧ ∀ b, l.set i b = before ++ b :: after := by
  obtain ⟨hi, rfl⟩ := List.getElem?_eq_some_iff.mp h
  refine ⟨l.take i, l.drop (i + 1), ?_, ?_⟩
  · rw [List.cons_getElem_drop_succ, List.take_append_drop]
  · intro b
    rw [List.set_eq_take_append_cons_drop, if_pos hi]

theorem lighter (hne : N ≠ 0) (h : ∀ y ∈ M, ∃ z ∈ N, y < z) : IsDershowitzMannaLT M N :=
  ⟨0, M, N, hne, (zero_add M).symm, (zero_add N).symm, h⟩

theorem lighter_add (X : Multiset β) (h : IsDershowitzMannaLT M N) : IsDershowitzMannaLT (X + M) (X + N) := by
  obtain ⟨X', Y, Z, hZ, rfl, rfl, hlt⟩ := h
  exact ⟨X + X', Y, Z, hZ, (add_assoc _ _ _).symm, (add_assoc _ _ _).symm, hlt⟩

/-- One part changes and others are added. -/
theorem lighter_set (weight : α → Multiset β) {l : List α} {i : ℕ} {a b : α} (added : List α) (h : l[i]? = some a)
    (hlt : IsDershowitzMannaLT (weight b + (added.map weight).sum) (weight a)) :
    IsDershowitzMannaLT ((l.set i b ++ added).map weight).sum (l.map weight).sum := by
  obtain ⟨before, after, rfl, hset⟩ := exists_around h
  rw [hset]
  simp only [List.map_append, List.map_cons, List.sum_append, List.sum_cons]
  have hframe := lighter_add ((before.map weight).sum + (after.map weight).sum) hlt
  convert hframe using 1 <;> abel

end DurableDav.Library
