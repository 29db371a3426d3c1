import Mathlib.Data.List.Basic
import Mathlib.Data.List.Range

namespace DurableDav.Library

/-- A pattern that is matched by trying its alternatives in order. -/
inductive Expression (α : Type)
  | empty
  | unit (accepts : α → Bool)
  | run (accepts : α → Bool) (greedy : Bool)
  | seq (x y : Expression α)
  -- tried first, and skipped if that leads nowhere
  | optional (x : Expression α)
  | group (x : Expression α)

namespace Expression

variable {α β : Type}

/-- The units of a text, told apart as `fold` does. -/
def text [DecidableEq α] (fold : α → α) : List α → Expression α
  | [] => .empty
  | c :: rest => .seq (.unit fun d => fold d = c) (text fold rest)

def tryRun (accepts : α → Bool) (greedy : Bool) (k : List α → Option β) : List α → Option β
  | [] => k []
  | c :: t =>
    if accepts c then
      if greedy then (tryRun accepts greedy k t).or (k (c :: t)) else (k (c :: t)).or (tryRun accepts greedy k t)
    else k (c :: t)

/-- What the continuation makes of the first way to match that it accepts. -/
def attempt : Expression α → (List (List α) → List α → Option β) → List (List α) → List α → Option β
  | empty, k, captures, s => k captures s
  | unit accepts, k, captures, s => match s with
    | [] => none
    | c :: t => if accepts c then k captures t else none
  | run accepts greedy, k, captures, s => tryRun accepts greedy (k captures) s
  | seq x y, k, captures, s => x.attempt (y.attempt k) captures s
  | optional x, k, captures, s => (x.attempt k captures s).or (k captures s)
  | group x, k, captures, s => x.attempt (fun inner t => k (inner ++ [s.take (s.length - t.length)]) t) captures s

/-- The captures of the match that begins first. -/
def exec (e : Expression α) (s : List α) : Option (List (List α)) :=
  (List.range (s.length + 1)).findSome? fun i => e.attempt (fun captures _ => some captures) [] (s.drop i)

example : exec (.seq (.group (.run (fun c => c ≠ 2) true)) (.unit fun c => c = 2)) [1, 1, 2, 1] = some [[1, 1]] := rfl

section Matching

variable {k : List (List α) → List α → Option β} {captures : List (List α)} {s : List α}

theorem attempt_text [DecidableEq α] {fold : α → α} {w : List α} : (text fold w).attempt k captures s =
    if w <+: s.map fold then k captures (s.drop w.length) else none := by
  induction w generalizing s with
  | nil => simp [text, attempt]
  | cons c w ih =>
    cases s with
    | nil => simp [text, attempt]
    | cons d t =>
      simp only [text, attempt, List.map_cons, List.cons_prefix_cons, List.length_cons, List.drop_succ_cons, decide_eq_true_eq]
      by_cases hc : fold d = c
      · rw [if_pos hc, ih]
        simp [hc]
      · rw [if_neg hc, if_neg (fun h => hc h.1.symm)]

variable {accepts : α → Bool} {greedy : Bool} {f : List α → Option β}

/-- Where nothing that is accepted can follow, the run is as long as it can be. -/
theorem tryRun_stops (h : ∀ c t, accepts c = true → f (c :: t) = none) : tryRun accepts greedy f s = f (s.dropWhile accepts) := by
  induction s with
  | nil => rfl
  | cons c t ih =>
    unfold tryRun
    by_cases hc : accepts c = true
    · rw [if_pos hc, List.dropWhile_cons_of_pos hc, ih, h c t hc]
      cases greedy <;> simp
    · rw [if_neg hc, List.dropWhile_cons_of_neg hc]

/-- A run of anything that is as short as it can be. -/
theorem tryRun_anything : tryRun (fun _ => true) false f s = (List.range (s.length + 1)).findSome? fun i => f (s.drop i) := by
  induction s with
  | nil => simp [tryRun]
  | cons c t ih =>
    rw [List.length_cons, List.range_succ_eq_map, List.findSome?_cons, List.findSome?_map]
    simp only [tryRun, ↓reduceIte, Bool.false_eq_true, List.drop_zero]
    rw [ih]
    cases f (c :: t) with
    | some b => rfl
    | none => rfl

end Matching

end Expression

/-! ### The first place -/

section Places

variable {n : ℕ} {P Q : ℕ → Bool} {β : Type}

/-- The first place up to `n` where something holds. -/
def placeOf (n : ℕ) (P : ℕ → Bool) : Option ℕ := (List.range (n + 1)).find? P

theorem placeOf_eq_some {i : ℕ} : placeOf n P = some i ↔ P i = true ∧ i ≤ n ∧ ∀ j < i, P j = false := by
  unfold placeOf
  rw [List.find?_range_eq_some, List.mem_range, Nat.lt_succ_iff]
  simp only [Bool.not_eq_true']

theorem placeOf_eq_none : placeOf n P = none ↔ ∀ i ≤ n, P i = false := by
  unfold placeOf
  rw [List.find?_range_eq_none]
  simp only [Nat.lt_succ_iff, Bool.not_eq_true']

/-- Two conditions have one first place if they agree as long as there was none. -/
theorem placeOf_congr (h : ∀ i, (∀ j < i, P j = false) → P i = Q i) : placeOf n P = placeOf n Q := by
  have hsame (i : ℕ) (hnone : ∀ j < i, P j = false) : ∀ j ≤ i, P j = Q j :=
    fun j hj => h j fun j' hj' => hnone j' (by omega)
  cases hP : placeOf n P with
  | some i =>
    obtain ⟨hi, hle, hnone⟩ := placeOf_eq_some.mp hP
    symm
    refine placeOf_eq_some.mpr ⟨?_, hle, fun j hj => ?_⟩
    · rw [← hsame i hnone i le_rfl, hi]
    · rw [← hsame i hnone j hj.le, hnone j hj]
  | none =>
    have hnone := placeOf_eq_none.mp hP
    symm
    refine placeOf_eq_none.mpr fun i hi => ?_
    rw [← h i fun j hj => hnone j (by omega), hnone i hi]

theorem placeOf_from {m : ℕ} (hm : m ≤ n) :
    placeOf n (fun i => m ≤ i && P i) = (placeOf (n - m) fun j => P (m + j)).map (m + ·) := by
  cases hP : placeOf (n - m) (fun j => P (m + j)) with
  | some j =>
    obtain ⟨hj, hle, hnone⟩ := placeOf_eq_some.mp hP
    change _ = some (m + j)
    refine placeOf_eq_some.mpr ⟨by simpa using hj, by omega, fun i hi => ?_⟩
    by_cases him : m ≤ i
    · have := hnone (i - m) (by omega)
      rw [Nat.add_sub_cancel' him] at this
      simp [this]
    · simp [him]
  | none =>
    have hnone := placeOf_eq_none.mp hP
    refine placeOf_eq_none.mpr fun i hi => ?_
    by_cases him : m ≤ i
    · have := hnone (i - m) (by omega)
      rw [Nat.add_sub_cancel' him] at this
      simp [this]
    · simp [him]

/-- The first that is found counts, if none after it is found where it is not. -/
theorem findSome_eq_bind {f : ℕ → Option β} {l : List ℕ}
    (h : l.Pairwise fun i j => P i = true → P j = true → (f j).isSome → (f i).isSome) :
    (l.findSome? fun i => if P i then f i else none) = (l.find? P).bind f := by
  induction l with
  | nil => rfl
  | cons i l ih =>
    obtain ⟨hfirst, hrest⟩ := List.pairwise_cons.mp h
    rw [List.findSome?_cons, List.find?_cons]
    by_cases hi : P i = true
    · simp only [hi, ↓reduceIte, Option.bind_some]
      cases hf : f i with
      | some b => rfl
      | none =>
        rw [List.findSome?_eq_none_iff]
        intro j hj
        by_cases hPj : P j = true
        · rw [if_pos hPj]
          by_contra hsome
          have := hfirst j hj hi hPj (Option.isSome_iff_ne_none.mpr hsome)
          rw [hf] at this
          cases this
        · exact if_neg hPj
    · simp only [hi, Bool.false_eq_true, ↓reduceIte]
      exact ih hrest

theorem findSome_placeOf {f : ℕ → Option β} (h : ∀ i j, i < j → P i = true → P j = true → (f j).isSome → (f i).isSome) :
    ((List.range (n + 1)).findSome? fun i => if P i then f i else none) = (placeOf n P).bind f :=
  findSome_eq_bind (List.pairwise_lt_range.imp fun hlt => h _ _ hlt)

end Places

end DurableDav.Library
