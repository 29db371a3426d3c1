import DurableDav.Library.Sweep
import DurableDav.Replication.Volume
import Mathlib.Data.List.Sort

namespace DurableDav.Replication

open Library

def compareSegments : List JsString → List JsString → ℤ
  | [], right => -right.length
  | left, [] => left.length
  | a :: left, b :: right => if a = b then compareSegments left right else if a < b then -1 else 1

def sweepOrderCompare (a b : JsString) : ℤ :=
  if a = b then 0 else compareSegments (a.splitOn slash) (b.splitOn slash)

def sweepSort (paths : List JsString) : List JsString :=
  paths.insertionSort (fun a b => sweepOrderCompare a b ≤ 0)

def childPath (current segment : JsString) : JsString :=
  if current = [] then segment else current ++ slash :: segment

def chainFrom (current : JsString) : List JsString → List JsString
  | [] => []
  | segment :: rest => childPath current segment :: chainFrom (childPath current segment) rest

def sweepAncestorChain (path : JsString) : List JsString :=
  [] :: if path = [] then [] else chainFrom [] (path.splitOn slash)

/-- The names on the way from the root to a path. -/
def names (path : JsString) : List JsString := if path = [] then [] else path.splitOn slash

section Names

variable {p q : JsString}

theorem names_of_ne (hp : p ≠ []) : names p = p.splitOn slash := if_neg hp

@[simp] theorem names_nil : names [] = [] := rfl

theorem names_append (hp : p ≠ []) (rest : JsString) : names (p ++ slash :: rest) = names p ++ rest.splitOn slash := by
  rw [names_of_ne hp, names_of_ne (by simp)]
  exact List.splitOn_append_cons_self _ _

theorem names_injective : Function.Injective names := by
  intro p q h
  by_cases hp : p = [] <;> by_cases hq : q = []
  · rw [hp, hq]
  · rw [hp, names_nil, names_of_ne hq] at h
    exact absurd h.symm (List.splitOn_ne_nil slash q)
  · rw [hq, names_nil, names_of_ne hp] at h
    exact absurd h (List.splitOn_ne_nil slash p)
  · rw [names_of_ne hp, names_of_ne hq] at h
    have hj := congrArg (List.intercalate [slash]) h
    rwa [List.intercalate_splitOn, List.intercalate_splitOn] at hj

theorem intercalate_append {xs ys : List JsString} (hx : xs ≠ []) (hy : ys ≠ []) :
    [slash].intercalate (xs ++ ys) = [slash].intercalate xs ++ slash :: [slash].intercalate ys := by
  induction xs with
  | nil => exact absurd rfl hx
  | cons x xs ih =>
    cases xs with
    | nil =>
      obtain ⟨y, ys, rfl⟩ := List.exists_cons_of_ne_nil hy
      simp [List.intercalate_cons_cons]
    | cons z zs =>
      have h := ih (by simp)
      rw [List.cons_append, List.cons_append, List.intercalate_cons_cons, ← List.cons_append, h,
        List.intercalate_cons_cons]
      simp

theorem names_prefix_iff : names p <+: names q ↔ p = q ∨ Below slash p q := by
  constructor
  · rintro ⟨rest, h⟩
    by_cases hr : rest = []
    · left
      apply names_injective
      rw [← h, hr, List.append_nil]
    · right
      by_cases hp : p = []
      · subst hp
        rw [below_root]
        rintro rfl
        simp [hr] at h
      · have hq : q ≠ [] := by
          rintro rfl
          simp [names_of_ne hp] at h
        rw [below_of_ne hp]
        refine ⟨[slash].intercalate rest, ?_⟩
        have hj := congrArg (List.intercalate [slash]) h
        rw [names_of_ne hp, names_of_ne hq, intercalate_append (by simp) hr, List.intercalate_splitOn,
          List.intercalate_splitOn] at hj
        exact hj.symm
  · rintro (rfl | hb)
    · exact List.prefix_refl _
    · by_cases hp : p = []
      · subst hp
        exact List.nil_prefix
      · obtain ⟨rest, rfl⟩ := (below_of_ne hp).mp hb
        rw [names_append hp]
        exact List.prefix_append _ _

theorem valid_segments (hv : isValidInnerPath p = true) (hp : p ≠ []) : ∀ s ∈ p.splitOn slash, s ≠ [] := by
  have h : (p.splitOn slash).length ≤ maxPathDepth ∧
      ∀ s ∈ p.splitOn slash, s ≠ [] ∧ s ≠ js "." ∧ s ≠ js ".." := by
    simpa [isValidInnerPath, hp] using hv
  exact fun s hs => (h.2 s hs).1

/-- A usable path is the path of its parent with one name more. -/
theorem names_child (hv : isValidInnerPath p = true) (hp : p ≠ []) : ∃ name, names p = names (parentOf p) ++ [name] := by
  by_cases hs : slash ∈ p
  · obtain ⟨name, he, hn⟩ := parentSegments_spec hs
    have hpar : parentSegments slash p = parentOf p := rfl
    rw [hpar] at he
    have hne : parentOf p ≠ [] := by
      intro hnil
      rw [hnil] at he
      have hsplit := valid_segments hv hp []
      rw [he, show ([] : JsString) ++ slash :: name = [] ++ slash :: name from rfl,
        List.splitOn_append_cons_self] at hsplit
      simp at hsplit
    refine ⟨name, ?_⟩
    have h := names_append hne name
    rw [List.splitOn_eq_singleton hn, ← he] at h
    exact h
  · refine ⟨p, ?_⟩
    rw [show parentOf p = [] from parentSegments_of_notMem hs, names_of_ne hp, List.splitOn_eq_singleton hs]
    rfl

end Names

/-! ### The order of the sweep -/

theorem compareSegments_neg_iff (a b : List JsString) : compareSegments a b < 0 ↔ a < b := by
  induction a generalizing b with
  | nil =>
    cases b with
    | nil => simp [compareSegments]
    | cons y b => simp [compareSegments]; omega
  | cons x a ih =>
    cases b with
    | nil => simp [compareSegments]; omega
    | cons y b =>
      unfold compareSegments
      by_cases hxy : x = y
      · simp [hxy, ih]
      · by_cases hlt : x < y
        · simp [hxy, hlt, List.cons_lt_cons_iff]
        · simp [hxy, hlt, List.cons_lt_cons_iff]

theorem names_lt_iff (p q : JsString) : p.splitOn slash < q.splitOn slash ↔ names p < names q := by
  by_cases hp : p = [] <;> by_cases hq : q = []
  · simp [hp, hq]
  · obtain ⟨x, xs, hx⟩ := List.exists_cons_of_ne_nil (List.splitOn_ne_nil slash q)
    subst hp
    rw [names_of_ne hq, hx, names_nil, List.splitOn_nil, List.cons_lt_cons_iff]
    simp only [List.nil_lt_cons, iff_true]
    cases x with
    | cons c x => exact .inl (List.nil_lt_cons c x)
    | nil =>
      right
      refine ⟨rfl, ?_⟩
      cases xs with
      | nil =>
        have hj := congrArg (List.intercalate [slash]) hx
        rw [List.intercalate_splitOn] at hj
        exact absurd hj (by simpa using hq)
      | cons y xs => exact List.nil_lt_cons y xs
  · obtain ⟨x, xs, hx⟩ := List.exists_cons_of_ne_nil (List.splitOn_ne_nil slash p)
    subst hq
    rw [names_of_ne hp, hx, names_nil, List.splitOn_nil, List.cons_lt_cons_iff]
    simp
  · rw [names_of_ne hp, names_of_ne hq]

theorem sweepOrderCompare_neg_iff (p q : JsString) : sweepOrderCompare p q < 0 ↔ names p < names q := by
  unfold sweepOrderCompare
  by_cases h : p = q
  · simp [h]
  · rw [if_neg h, compareSegments_neg_iff, names_lt_iff]

theorem compareSegments_swap (a b : List JsString) : compareSegments a b = -compareSegments b a := by
  induction a generalizing b with
  | nil => cases b <;> simp [compareSegments]
  | cons x a ih =>
    cases b with
    | nil => simp [compareSegments]
    | cons y b =>
      unfold compareSegments
      by_cases hxy : x = y
      · simp [hxy, ih b]
      · rcases lt_or_gt_of_ne hxy with hlt | hlt
        · simp [hxy, Ne.symm hxy, hlt, hlt.not_gt]
        · simp [hxy, Ne.symm hxy, hlt, hlt.not_gt]

theorem sweepOrderCompare_nonneg_iff (p q : JsString) : 0 ≤ sweepOrderCompare p q ↔ names q ≤ names p := by
  rw [← not_lt, sweepOrderCompare_neg_iff, not_lt]

theorem sweepOrderCompare_swap (p q : JsString) : sweepOrderCompare p q = -sweepOrderCompare q p := by
  unfold sweepOrderCompare
  by_cases h : p = q
  · simp [h]
  · rw [if_neg h, if_neg (Ne.symm h), compareSegments_swap]

theorem sweepOrderCompare_nonpos_iff (p q : JsString) : sweepOrderCompare p q ≤ 0 ↔ names p ≤ names q := by
  rw [sweepOrderCompare_swap, neg_nonpos, sweepOrderCompare_nonneg_iff]

theorem mem_sweepSort {paths : List JsString} {p : JsString} : p ∈ sweepSort paths ↔ p ∈ paths :=
  List.mem_insertionSort _

theorem sweepSort_pairwise {paths : List JsString} (h : paths.Nodup) :
    (sweepSort paths).Pairwise (fun a b => names a < names b) := by
  have hperm := List.perm_insertionSort (fun a b => sweepOrderCompare a b ≤ 0) paths
  have hnodup : (sweepSort paths).Nodup := hperm.nodup_iff.mpr h
  have : Std.Total (fun a b => sweepOrderCompare a b ≤ 0) := ⟨fun a b => by
    simp only [sweepOrderCompare_nonpos_iff]
    exact le_total _ _⟩
  have : IsTrans JsString (fun a b => sweepOrderCompare a b ≤ 0) := ⟨fun a b c => by
    simp only [sweepOrderCompare_nonpos_iff]
    exact le_trans⟩
  have hsorted := List.pairwise_insertionSort (fun a b => sweepOrderCompare a b ≤ 0) paths
  refine (hsorted.and hnodup).imp (fun h => ?_)
  have hle := (sweepOrderCompare_nonpos_iff _ _).mp (by simpa using h.1)
  exact lt_of_le_of_ne hle (fun he => h.2 (names_injective he))

/-! ### The way down to a cursor -/

theorem names_childPath {current segment : JsString} (hs : segment ≠ []) (hslash : slash ∉ segment) :
    names (childPath current segment) = names current ++ [segment] := by
  unfold childPath
  split
  · rename_i hc
    rw [hc, names_of_ne hs, List.splitOn_eq_singleton hslash]
    rfl
  · rename_i hc
    rw [names_append hc, List.splitOn_eq_singleton hslash]

theorem parentOf_childPath {current segment : JsString} (hslash : slash ∉ segment) :
    parentOf (childPath current segment) = current := by
  unfold childPath
  split
  · rename_i hc
    rw [hc]
    exact parentSegments_of_notMem hslash
  · exact parentSegments_append hslash

theorem slash_notMem_segments (p : JsString) : ∀ s ∈ p.splitOn slash, slash ∉ s := by
  induction p with
  | nil => simp
  | cons c p ih =>
    rw [List.splitOn_cons_eq_if_modifyHead]
    split
    · intro s hs
      rcases List.mem_cons.mp hs with rfl | hs
      · simp
      · exact ih s hs
    · rename_i hc
      obtain ⟨x, xs, hx⟩ := List.exists_cons_of_ne_nil (List.splitOn_ne_nil slash p)
      rw [hx] at ih ⊢
      intro s hs
      rw [List.modifyHead_cons, List.mem_cons] at hs
      rcases hs with rfl | hs
      · have hx' := ih x List.mem_cons_self
        have hne : slash ≠ c := fun he => hc (by simp [he])
        simp [hne, hx']
      · exact ih s (List.mem_cons_of_mem _ hs)

theorem sweepAncestorChain_eq (path : JsString) : sweepAncestorChain path = [] :: chainFrom [] (names path) := by
  unfold sweepAncestorChain names
  split <;> rfl

theorem usable_segments {p : JsString} (hv : isValidInnerPath p = true) : ∀ s ∈ names p, s ≠ [] ∧ slash ∉ s := by
  intro s hs
  by_cases hp : p = []
  · simp [hp] at hs
  · rw [names_of_ne hp] at hs
    exact ⟨valid_segments hv hp s hs, slash_notMem_segments p s hs⟩

end DurableDav.Replication
