import Mathlib.Data.List.Basic
import Mathlib.Data.List.Count
import Mathlib.Data.List.Infix

namespace DurableDav.Library

variable {α : Type}

def lastIndexOf [DecidableEq α] (c : α) : List α → Option ℕ
  | [] => none
  | x :: xs => match lastIndexOf c xs with
    | some i => some (i + 1)
    | none => if x = c then some 0 else none

theorem lastIndexOf_eq_none [DecidableEq α] {c : α} {xs : List α} : lastIndexOf c xs = none ↔ c ∉ xs := by
  induction xs with
  | nil => simp [lastIndexOf]
  | cons x xs ih =>
    cases h : lastIndexOf c xs with
    | none =>
      have hc := ih.mp h
      by_cases hx : x = c
      · simp [lastIndexOf, h, hx]
      · simp [lastIndexOf, h, hx, hc, Ne.symm hx]
    | some i =>
      have hc : c ∈ xs := by
        by_contra hc
        simp [ih.mpr hc] at h
      simp [lastIndexOf, h, hc]

theorem lastIndexOf_eq_some [DecidableEq α] {c : α} {xs : List α} {i : ℕ} (h : lastIndexOf c xs = some i) :
    xs = xs.take i ++ c :: xs.drop (i + 1) ∧ c ∉ xs.drop (i + 1) := by
  induction xs generalizing i with
  | nil => simp [lastIndexOf] at h
  | cons x xs ih =>
    cases hx : lastIndexOf c xs with
    | some j =>
      have hi : i = j + 1 := by simpa [lastIndexOf, hx, eq_comm] using h
      subst hi
      obtain ⟨he, hn⟩ := ih hx
      exact ⟨by simpa using he, by simpa using hn⟩
    | none =>
      have hn := lastIndexOf_eq_none.mp hx
      by_cases hc : x = c
      · have hi : i = 0 := by simpa [lastIndexOf, hx, hc, eq_comm] using h
        subst hi
        exact ⟨by simp [hc], by simpa using hn⟩
      · simp [lastIndexOf, hx, hc] at h

theorem lastIndexOf_getElem? [DecidableEq α] {c : α} {xs : List α} {i : ℕ} (h : lastIndexOf c xs = some i) :
    xs[i]? = some c := by
  induction xs generalizing i with
  | nil => simp [lastIndexOf] at h
  | cons x xs ih =>
    cases hx : lastIndexOf c xs with
    | some j =>
      have hi : i = j + 1 := by simpa [lastIndexOf, hx, eq_comm] using h
      rw [hi, List.getElem?_cons_succ]
      exact ih hx
    | none =>
      by_cases hc : x = c
      · have hi : i = 0 := by simpa [lastIndexOf, hx, hc, eq_comm] using h
        rw [hi, List.getElem?_cons_zero, hc]
      · simp [lastIndexOf, hx, hc] at h

def parentSegments [DecidableEq α] (sep : α) (xs : List α) : List α :=
  match lastIndexOf sep xs with
  | none => []
  | some i => xs.take i

/-- `q` names something strictly inside `p`; the empty string is the root of everything. -/
def Below (sep : α) (p q : List α) : Prop :=
  if p = [] then q ≠ [] else p ++ [sep] <+: q

instance [DecidableEq α] (sep : α) (p q : List α) : Decidable (Below sep p q) := by
  unfold Below
  infer_instance

variable {sep : α} {p q r : List α}

theorem below_root : Below sep [] q ↔ q ≠ [] := by simp [Below]

theorem below_of_ne (hp : p ≠ []) : Below sep p q ↔ ∃ rest, q = p ++ sep :: rest := by
  simp only [Below, hp, ↓reduceIte, List.IsPrefix]
  constructor
  · rintro ⟨rest, rfl⟩
    exact ⟨rest, by simp⟩
  · rintro ⟨rest, rfl⟩
    exact ⟨rest, by simp⟩

theorem Below.length_lt (h : Below sep p q) : p.length < q.length := by
  by_cases hp : p = []
  · subst hp
    exact List.length_pos_of_ne_nil (below_root.mp h)
  · obtain ⟨rest, rfl⟩ := (below_of_ne hp).mp h
    simp only [List.length_append, List.length_cons]
    omega

theorem Below.ne_nil (h : Below sep p q) : q ≠ [] := by
  intro hq
  have := h.length_lt
  simp [hq] at this

theorem Below.trans (hpq : Below sep p q) (hqr : Below sep q r) : Below sep p r := by
  by_cases hp : p = []
  · subst hp
    exact below_root.mpr hqr.ne_nil
  · obtain ⟨s, rfl⟩ := (below_of_ne hp).mp hpq
    obtain ⟨t, rfl⟩ := (below_of_ne hpq.ne_nil).mp hqr
    exact (below_of_ne hp).mpr ⟨s ++ sep :: t, by simp⟩

theorem Below.ne (h : Below sep p q) : p ≠ q := fun he => by
  have := h.length_lt
  simp [he] at this

theorem Below.irrefl : ¬ Below sep p p := fun h => h.ne rfl

theorem Below.asymm (h : Below sep p q) : ¬ Below sep q p := fun h' => by
  have := h.length_lt
  have := h'.length_lt
  omega

/-- Two paths above a third lie on one line. -/
theorem Below.comparable (hp : Below sep p r) (hq : Below sep q r) : p = q ∨ Below sep p q ∨ Below sep q p := by
  by_cases hpe : p = []
  · subst hpe
    by_cases hqe : q = []
    · exact .inl hqe.symm
    · exact .inr (.inl (below_root.mpr hqe))
  by_cases hqe : q = []
  · subst hqe
    exact .inr (.inr (below_root.mpr hpe))
  simp only [Below, hpe, hqe, ↓reduceIte] at hp hq ⊢
  rcases Nat.lt_trichotomy p.length q.length with hlt | heq | hgt
  · right; left
    have hpre := List.prefix_of_prefix_length_le hp hq (by simp; omega)
    exact List.prefix_of_prefix_length_le hp ((List.prefix_append q [sep]).trans hq) (by simp; omega)
  · left
    have hpre := List.prefix_of_prefix_length_le hp hq (by simp; omega)
    have he := hpre.eq_of_length (by simp [heq])
    exact List.append_left_injective [sep] he
  · right; right
    exact List.prefix_of_prefix_length_le hq ((List.prefix_append p [sep]).trans hp) (by simp; omega)

theorem parentSegments_spec [DecidableEq α] (h : sep ∈ q) :
    ∃ name, q = parentSegments sep q ++ sep :: name ∧ sep ∉ name := by
  cases hi : lastIndexOf sep q with
  | none => exact absurd h (lastIndexOf_eq_none.mp hi)
  | some i =>
    obtain ⟨he, hn⟩ := lastIndexOf_eq_some hi
    exact ⟨q.drop (i + 1), by simpa [parentSegments, hi] using he, hn⟩

theorem parentSegments_of_notMem [DecidableEq α] (h : sep ∉ q) : parentSegments sep q = [] := by
  simp [parentSegments, lastIndexOf_eq_none.mpr h]

theorem parentSegments_append [DecidableEq α] {name : List α} (h : sep ∉ name) :
    parentSegments sep (p ++ sep :: name) = p := by
  have hs : sep ∈ p ++ sep :: name := by simp
  obtain ⟨name', he, hn⟩ := parentSegments_spec hs
  set p' := parentSegments sep (p ++ sep :: name)
  rcases List.append_eq_append_iff.mp he with ⟨a, ha, hb⟩ | ⟨a, ha, hb⟩
  · cases a with
    | nil => simpa using ha
    | cons x a =>
      simp only [List.cons_append, List.cons.injEq] at hb
      exact absurd (hb.2 ▸ List.mem_append_right a List.mem_cons_self) h
  · cases a with
    | nil => simpa using ha.symm
    | cons x a =>
      simp only [List.cons_append, List.cons.injEq] at hb
      exact absurd (hb.2 ▸ List.mem_append_right a List.mem_cons_self) hn

theorem below_parentSegments [DecidableEq α] (hp : parentSegments sep q ≠ []) : Below sep (parentSegments sep q) q := by
  have hs : sep ∈ q := by
    by_contra hn
    exact hp (parentSegments_of_notMem hn)
  obtain ⟨name, he, _⟩ := parentSegments_spec hs
  exact (below_of_ne hp).mpr ⟨name, he⟩

theorem Below.parent [DecidableEq α] (h : Below sep p q) (hp : p ≠ []) :
    p = parentSegments sep q ∨ Below sep p (parentSegments sep q) := by
  obtain ⟨rest, rfl⟩ := (below_of_ne hp).mp h
  by_cases hr : sep ∈ rest
  · obtain ⟨name, he, hn⟩ := parentSegments_spec hr
    right
    have hq : p ++ sep :: rest = (p ++ sep :: parentSegments sep rest) ++ sep :: name := by
      conv_lhs => rw [he]
      simp
    rw [hq, parentSegments_append hn]
    exact (below_of_ne hp).mpr ⟨_, rfl⟩
  · exact .inl (parentSegments_append hr).symm

/-- What lies above a path lies above those beside it. -/
theorem Below.beside [DecidableEq α] (h : Below sep p q) (hp : p ≠ [])
    (hb : parentSegments sep q = parentSegments sep r) : Below sep p r := by
  have hup : p = parentSegments sep r ∨ Below sep p (parentSegments sep r) := hb ▸ h.parent hp
  rcases hup with rfl | hup
  · exact below_parentSegments hp
  · exact hup.trans (below_parentSegments hup.ne_nil)

theorem parentSegments_length_lt [DecidableEq α] (h : q ≠ []) : (parentSegments sep q).length < q.length := by
  by_cases hp : parentSegments sep q = []
  · rw [hp]
    exact List.length_pos_of_ne_nil h
  · exact (below_parentSegments hp).length_lt

theorem depth_eq_count [DecidableEq α] (xs : List α) : (xs.splitOn sep).length = xs.count sep + 1 := by
  induction xs with
  | nil => rfl
  | cons x xs ih =>
    by_cases hx : x = sep
    · subst hx
      simp only [List.splitOn, List.splitOnP_cons_eq_if_modifyHead] at ih ⊢
      simp [ih]
    · simp only [List.splitOn, List.splitOnP_cons_eq_if_modifyHead] at ih ⊢
      simpa [List.count_cons, hx] using ih

theorem Below.depth_lt [DecidableEq α] (h : Below sep p q) (hp : p ≠ []) :
    (p.splitOn sep).length < (q.splitOn sep).length := by
  obtain ⟨rest, rfl⟩ := (below_of_ne hp).mp h
  simp only [depth_eq_count, List.count_append, List.count_cons_self]
  omega

def prefixes [DecidableEq α] (sep : α) : List α → List (List α)
  | [] => [[]]
  | x :: xs =>
    if x = sep then [] :: (prefixes sep xs).map (x :: ·) else (prefixes sep xs).map (x :: ·)

theorem mem_prefixes [DecidableEq α] : p ∈ prefixes sep q ↔ p = q ∨ ∃ rest, q = p ++ sep :: rest := by
  induction q generalizing p with
  | nil => simp [prefixes]
  | cons x xs ih =>
    by_cases hx : x = sep
    · simp only [prefixes, hx, ↓reduceIte, List.mem_cons, List.mem_map]
      constructor
      · rintro (rfl | ⟨a, ha, rfl⟩)
        · exact .inr ⟨xs, rfl⟩
        · rcases ih.mp ha with rfl | ⟨rest, rfl⟩
          · exact .inl rfl
          · exact .inr ⟨rest, rfl⟩
      · rintro (rfl | ⟨rest, h⟩)
        · exact .inr ⟨xs, ih.mpr (.inl rfl), rfl⟩
        · cases p with
          | nil => exact .inl rfl
          | cons y ys =>
            simp only [List.cons_append, List.cons.injEq] at h
            exact .inr ⟨ys, ih.mpr (.inr ⟨rest, h.2⟩), by rw [h.1]⟩
    · simp only [prefixes, hx, ↓reduceIte, List.mem_map]
      constructor
      · rintro ⟨a, ha, rfl⟩
        rcases ih.mp ha with rfl | ⟨rest, rfl⟩
        · exact .inl rfl
        · exact .inr ⟨rest, rfl⟩
      · rintro (rfl | ⟨rest, h⟩)
        · exact ⟨xs, ih.mpr (.inl rfl), rfl⟩
        · cases p with
          | nil =>
            simp only [List.nil_append, List.cons.injEq] at h
            exact absurd h.1 hx
          | cons y ys =>
            simp only [List.cons_append, List.cons.injEq] at h
            exact ⟨ys, ih.mpr (.inr ⟨rest, h.2⟩), by rw [h.1]⟩

theorem eq_or_below_of_mem_prefixes [DecidableEq α] (h : p ∈ prefixes sep q) : p = q ∨ Below sep p q := by
  rcases mem_prefixes.mp h with rfl | ⟨rest, rfl⟩
  · exact .inl rfl
  · by_cases hp : p = []
    · subst hp
      exact .inr (below_root.mpr (by simp))
    · exact .inr ((below_of_ne hp).mpr ⟨rest, rfl⟩)

end DurableDav.Library
