import DurableDav.Library.Segments
import Mathlib.Algebra.Order.BigOperators.Group.List
import Mathlib.Algebra.Order.Ring.Nat
import Mathlib.Data.List.DropRight

namespace DurableDav.Library

/-! ### Parts joined by a separator -/

section Joined

variable {α : Type} {sep : α} {xs ys : List (List α)}

theorem join_cons (x : List α) (h : xs ≠ []) : [sep].intercalate (x :: xs) = x ++ sep :: [sep].intercalate xs := by
  obtain ⟨y, ys, rfl⟩ := List.exists_cons_of_ne_nil h
  rw [List.intercalate_cons_cons, List.append_assoc]
  rfl

theorem join_append (hx : xs ≠ []) (hy : ys ≠ []) :
    [sep].intercalate (xs ++ ys) = [sep].intercalate xs ++ sep :: [sep].intercalate ys := by
  induction xs with
  | nil => exact absurd rfl hx
  | cons x xs ih =>
    by_cases hnil : xs = []
    · subst hnil
      rw [List.singleton_append, join_cons x hy, List.intercalate_singleton]
    · rw [List.cons_append, join_cons x (by simp [hnil]), join_cons x hnil, ih hnil, List.append_assoc, List.cons_append]

theorem join_open (xs : List (List α)) (hy : ys ≠ []) :
    [sep].intercalate (xs ++ [[]]) ++ [sep].intercalate ys = [sep].intercalate (xs ++ ys) := by
  by_cases hnil : xs = []
  · subst hnil
    simp
  · rw [join_append hnil (by simp), join_append hnil hy, List.intercalate_singleton, List.append_assoc]
    rfl

/-- What a count that takes the separator along amounts to. -/
theorem join_countP {P : α → Bool} (hP : P sep = true) (h : xs ≠ []) :
    ([sep].intercalate xs).countP P + 1 = (xs.map (fun x => x.countP P + 1)).sum := by
  induction xs with
  | nil => exact absurd rfl h
  | cons x xs ih =>
    by_cases hnil : xs = []
    · subst hnil
      simp
    · rw [join_cons x hnil, List.countP_append, List.countP_cons_of_pos hP, List.map_cons, List.sum_cons, ← ih hnil]
      omega

theorem join_length (h : xs ≠ []) : ([sep].intercalate xs).length + 1 = (xs.map (fun x => x.length + 1)).sum := by
  have hcount := @join_countP _ sep _ (fun _ => true) rfl h
  simpa using hcount

theorem join_eq_nil : [sep].intercalate xs = [] ↔ xs = [] ∨ xs = [[]] := by
  constructor
  · intro h
    rcases xs with _ | ⟨x, xs⟩
    · exact .inl rfl
    · by_cases hnil : xs = []
      · subst hnil
        rw [List.intercalate_singleton] at h
        exact .inr (by rw [h])
      · rw [join_cons x hnil] at h
        simp at h
  · rintro (rfl | rfl) <;> rfl

theorem mem_join {x : List α} {c : α} (hx : x ∈ xs) (hc : c ∈ x) : c ∈ [sep].intercalate xs := by
  induction xs with
  | nil => simp at hx
  | cons y ys ih =>
    by_cases hnil : ys = []
    · subst hnil
      rw [List.intercalate_singleton, ← List.mem_singleton.mp hx]
      exact hc
    · rw [join_cons y hnil]
      rcases List.mem_cons.mp hx with rfl | hx
      · exact List.mem_append_left _ hc
      · exact List.mem_append_right _ (List.mem_cons_of_mem sep (ih hx))

theorem of_mem_join {c : α} (h : c ∈ [sep].intercalate xs) : c = sep ∨ ∃ x ∈ xs, c ∈ x := by
  induction xs with
  | nil => simp at h
  | cons y ys ih =>
    by_cases hnil : ys = []
    · subst hnil
      rw [List.intercalate_singleton] at h
      exact .inr ⟨y, List.mem_cons_self, h⟩
    · rw [join_cons y hnil] at h
      rcases List.mem_append.mp h with h | h
      · exact .inr ⟨y, List.mem_cons_self, h⟩
      · rcases List.mem_cons.mp h with h | h
        · exact .inl h
        · rcases ih h with h | ⟨x, hx, hc⟩
          · exact .inl h
          · exact .inr ⟨x, List.mem_cons_of_mem y hx, hc⟩

theorem join_length_cons (x : List α) (xs : List (List α)) :
    x.length + ([sep].intercalate xs).length ≤ ([sep].intercalate (x :: xs)).length := by
  by_cases hnil : xs = []
  · subst hnil
    simp
  · rw [join_cons x hnil, List.length_append, List.length_cons]
    omega

theorem join_length_suffix (h : xs <:+ ys) : ([sep].intercalate xs).length ≤ ([sep].intercalate ys).length := by
  obtain ⟨zs, rfl⟩ := h
  induction zs with
  | nil => exact le_refl _
  | cons z zs ih =>
    have hcons := @join_length_cons _ sep z (zs ++ xs)
    rw [List.cons_append]
    omega

/-- Parts that do not grow make up a whole that does not, and one that shrinks makes it shorter. -/
theorem join_length_map {f : List α → List α} (h : ∀ x ∈ xs, (f x).length ≤ x.length) :
    ([sep].intercalate (xs.map f)).length ≤ ([sep].intercalate xs).length ∧
      ((∃ x ∈ xs, (f x).length < x.length) →
        ([sep].intercalate (xs.map f)).length < ([sep].intercalate xs).length) := by
  by_cases hnil : xs = []
  · subst hnil
    simp
  · have hmapped := @join_length _ sep (xs.map f) (by simpa using hnil)
    have hplain := @join_length _ sep _ hnil
    rw [List.map_map] at hmapped
    constructor
    · have hsum := List.sum_le_sum (fun x hx => Nat.succ_le_succ (h x hx))
      simp only [Function.comp_def, Nat.succ_eq_add_one] at hmapped hsum
      omega
    · intro hless
      have hsum := List.sum_lt_sum (fun x => (f x).length + 1) (fun x => x.length + 1)
        (fun x hx => Nat.succ_le_succ (h x hx))
        (hless.imp fun x hx => ⟨hx.1, Nat.succ_lt_succ hx.2⟩)
      simp only [Function.comp_def] at hmapped
      omega

theorem rdropWhile_cons (P : α → Bool) (x : α) (xs : List α) :
    (x :: xs).rdropWhile P = if P x = true ∧ xs.rdropWhile P = [] then [] else x :: xs.rdropWhile P := by
  induction xs using List.reverseRecOn with
  | nil =>
    rw [List.rdropWhile_singleton, List.rdropWhile_nil]
    simp
  | append_singleton xs y ih =>
    rw [← List.cons_append]
    by_cases hy : P y = true
    · rw [List.rdropWhile_concat_pos _ _ _ hy, List.rdropWhile_concat_pos _ _ _ hy, ih]
    · rw [List.rdropWhile_concat_neg _ _ _ hy, List.rdropWhile_concat_neg _ _ _ hy]
      simp

theorem dropWhile_rdropWhile (P : α → Bool) (xs : List α) :
    (xs.dropWhile P).rdropWhile P = (xs.rdropWhile P).dropWhile P := by
  induction xs with
  | nil => rfl
  | cons x xs ih =>
    rw [rdropWhile_cons]
    by_cases hx : P x = true
    · rw [List.dropWhile_cons_of_pos hx, ih]
      by_cases hrest : xs.rdropWhile P = []
      · rw [if_pos ⟨hx, hrest⟩, hrest]
      · rw [if_neg (fun h => hrest h.2), List.dropWhile_cons_of_pos hx]
    · rw [List.dropWhile_cons_of_neg hx, if_neg (fun h => hx h.1), List.dropWhile_cons_of_neg hx, rdropWhile_cons,
        if_neg (fun h => hx h.1)]

theorem rdropWhile_getLast (xs : List (List α)) : (xs.rdropWhile (fun x => x = [])).getLast? ≠ some [] := by
  intro h
  have hne : xs.rdropWhile (fun x => x = []) ≠ [] := by
    intro hnil
    rw [hnil] at h
    simp at h
  have hlast := List.rdropWhile_last_not _ xs hne
  rw [List.getLast?_eq_some_getLast hne, Option.some.injEq] at h
  exact hlast (by simpa using h)

/-- The empty parts at both ends are left out. -/
def trimmed (xs : List (List α)) : List (List α) := (xs.dropWhile (fun x => x = [])).rdropWhile (fun x => x = [])

theorem trimmed_trimmed (xs : List (List α)) : trimmed (trimmed xs) = trimmed xs := by
  unfold trimmed
  rw [← dropWhile_rdropWhile, List.dropWhile_idempotent, List.rdropWhile_idempotent]

variable [DecidableEq α]

/-- Separators at the front are the empty parts there. -/
theorem dropWhile_join (h : ∀ x ∈ xs, sep ∉ x) : ([sep].intercalate xs).dropWhile (fun c => c = sep) =
    [sep].intercalate (xs.dropWhile (fun x => x = [])) := by
  induction xs with
  | nil => rfl
  | cons x xs ih =>
    obtain ⟨hx, hxs⟩ := List.forall_mem_cons.mp h
    cases x with
    | nil =>
      rw [List.dropWhile_cons_of_pos (by simp)]
      by_cases hnil : xs = []
      · subst hnil
        rfl
      · rw [join_cons [] hnil, List.nil_append, List.dropWhile_cons_of_pos (by simp)]
        exact ih hxs
    | cons c x =>
      have hc : c ≠ sep := fun he => hx (he ▸ List.mem_cons_self)
      rw [List.dropWhile_cons_of_neg (by simp)]
      by_cases hnil : xs = []
      · subst hnil
        rw [List.intercalate_singleton, List.dropWhile_cons_of_neg (by simp [hc])]
      · rw [join_cons _ hnil, List.cons_append, List.dropWhile_cons_of_neg (by simp [hc])]

theorem rdropWhile_join (h : ∀ x ∈ xs, sep ∉ x) : ([sep].intercalate xs).rdropWhile (fun c => c = sep) =
    [sep].intercalate (xs.rdropWhile (fun x => x = [])) := by
  induction xs using List.reverseRecOn with
  | nil => rfl
  | append_singleton xs x ih =>
    have hx : sep ∉ x := h x (by simp)
    have hxs : ∀ y ∈ xs, sep ∉ y := fun y hy => h y (by simp [hy])
    by_cases hempty : x = []
    · subst hempty
      rw [List.rdropWhile_concat_pos _ _ _ (by simp)]
      by_cases hnil : xs = []
      · subst hnil
        rfl
      · rw [join_append hnil (by simp), List.intercalate_singleton, List.rdropWhile_concat_pos _ _ _ (by simp)]
        exact ih hxs
    · rw [List.rdropWhile_concat_neg _ _ _ (by simpa using hempty)]
      have hlast (u : List α) : (u ++ x).rdropWhile (fun c => decide (c = sep)) = u ++ x := by
        rw [List.rdropWhile_eq_self_iff]
        intro hne
        rw [List.getLast_append_of_ne_nil _ hempty]
        have hmem := List.getLast_mem hempty
        simp only [decide_eq_true_eq]
        exact fun he => hx (he ▸ hmem)
      by_cases hnil : xs = []
      · subst hnil
        simpa using hlast []
      · have hjoin : [sep].intercalate (xs ++ [x]) = ([sep].intercalate xs ++ [sep]) ++ x := by
          rw [join_append hnil (by simp), List.intercalate_singleton, List.append_assoc]
          rfl
        rw [hjoin, hlast]

theorem join_getLast (h : ∀ x ∈ xs, sep ∉ x) (hlast : xs.getLast? ≠ some []) :
    ([sep].intercalate xs).getLast? ≠ some sep := by
  have hself : xs.rdropWhile (fun x => x = []) = xs := by
    rw [List.rdropWhile_eq_self_iff]
    intro hne hempty
    rw [List.getLast?_eq_some_getLast hne] at hlast
    exact hlast (congrArg some (by simpa using hempty))
  have hjoin := rdropWhile_join h
  rw [hself, List.rdropWhile_eq_self_iff] at hjoin
  intro hsep
  have hne : [sep].intercalate xs ≠ [] := by
    intro hnil
    rw [hnil] at hsep
    simp at hsep
  rw [List.getLast?_eq_some_getLast hne, Option.some.injEq] at hsep
  exact hjoin hne (by simpa using hsep)

theorem splitOn_join (h : ∀ x ∈ xs, sep ∉ x) : ([sep].intercalate xs).splitOn sep = if xs = [] then [[]] else xs := by
  by_cases hnil : xs = []
  · subst hnil
    rfl
  · rw [if_neg hnil, List.splitOn_intercalate sep h hnil]

theorem splitOn_join_map {f : List α → List α} (h : xs ≠ []) :
    ([sep].intercalate (xs.map f)).splitOn sep = xs.flatMap (fun x => (f x).splitOn sep) := by
  induction xs with
  | nil => exact absurd rfl h
  | cons x xs ih =>
    by_cases hnil : xs = []
    · subst hnil
      simp
    · rw [List.map_cons, join_cons _ (by simpa using hnil), List.splitOn_append_cons_self, ih hnil]
      rfl

end Joined

end DurableDav.Library
