import Mathlib.Data.List.Lex
import Mathlib.Data.List.Pairwise
import Mathlib.Data.List.Infix
import Mathlib.Order.Lattice

namespace DurableDav.Library

variable {α : Type} [LinearOrder α] {x y z x' y' k : List α}

/-! ### A tree of names in pre-order

A node is the list of names on the way to it, so its subtree is what it is a prefix of, and the
lexicographic order visits a node before its subtree and a subtree before its next sibling. -/

/-- The two nodes part at some name, the first to the left. -/
def Diverges : List α → List α → Prop
  | a :: x, b :: y => a < b ∨ a = b ∧ Diverges x y
  | _, _ => False

theorem Diverges.lt (h : Diverges x y) : x < y := by
  induction x generalizing y with
  | nil => simp [Diverges] at h
  | cons a x ih =>
    cases y with
    | nil => simp [Diverges] at h
    | cons b y =>
      rw [List.cons_lt_cons_iff]
      rcases h with h | ⟨rfl, h⟩
      · exact .inl h
      · exact .inr ⟨rfl, ih h⟩

/-- Subtrees that part stay apart. -/
theorem Diverges.extend (h : Diverges x y) (hx : x <+: x') (hy : y <+: y') : Diverges x' y' := by
  obtain ⟨s, rfl⟩ := hx
  obtain ⟨t, rfl⟩ := hy
  induction x generalizing y with
  | nil => simp [Diverges] at h
  | cons a x ih =>
    cases y with
    | nil => simp [Diverges] at h
    | cons b y =>
      rcases h with h | ⟨rfl, h⟩
      · exact .inl h
      · exact .inr ⟨rfl, ih h⟩

theorem diverges_append {a b : α} (h : a < b) (x : List α) : Diverges (x ++ [a]) (x ++ [b]) := by
  induction x with
  | nil => exact .inl h
  | cons c x ih => exact .inr ⟨rfl, ih⟩

theorem lt_of_append_lt {a b : α} {x : List α} (h : x ++ [a] < x ++ [b]) : a < b := by
  induction x with
  | nil =>
    rcases List.cons_lt_cons_iff.mp h with hab | ⟨_, hnil⟩
    · exact hab
    · simp at hnil
  | cons c x ih =>
    rcases List.cons_lt_cons_iff.mp h with hcc | ⟨_, hx⟩
    · exact absurd hcc (lt_irrefl c)
    · exact ih hx

theorem prefix_or_diverges (h : x < y) : x <+: y ∨ Diverges x y := by
  induction x generalizing y with
  | nil => exact .inl List.nil_prefix
  | cons a x ih =>
    cases y with
    | nil => simp at h
    | cons b y =>
      rcases List.cons_lt_cons_iff.mp h with hab | ⟨rfl, hxy⟩
      · exact .inr (.inl hab)
      · rcases ih hxy with hp | hd
        · exact .inl ((List.prefix_cons_inj a).mpr hp)
        · exact .inr (.inr ⟨rfl, hd⟩)

theorem lt_of_above (h : x <+: y) (hne : x ≠ y) : x < y := by
  obtain ⟨s, rfl⟩ := h
  induction x with
  | nil =>
    cases s with
    | nil => simp at hne
    | cons a s => simp
  | cons a x ih => exact List.cons_lt_cons_iff.mpr (.inr ⟨rfl, ih (fun he => hne (by simpa using he))⟩)

theorem le_of_above (h : x <+: y) : x ≤ y := by
  by_cases he : x = y
  · exact he.le
  · exact (lt_of_above h he).le

/-- Where two nodes part, a sibling of one on the way leads to the other. -/
theorem Diverges.sibling (h : Diverges x y) :
    ∃ p a b, p ++ [a] <+: x ∧ p ++ [b] <+: y ∧ a < b := by
  induction x generalizing y with
  | nil => simp [Diverges] at h
  | cons a x ih =>
    cases y with
    | nil => simp [Diverges] at h
    | cons b y =>
      rcases h with h | ⟨rfl, h⟩
      · exact ⟨[], a, b, by simp, by simp, h⟩
      · obtain ⟨p, c, d, hx, hy, hcd⟩ := ih h
        exact ⟨a :: p, c, d, by simpa using hx, by simpa using hy, hcd⟩

/-! ### The walk -/

/-- The nodes a walk has still to visit, each with its subtree, from left to right. -/
def Ahead (todo : List (List α)) : Prop := todo.Pairwise Diverges

/-- Everything in scope has been seen or lies in a subtree still to be visited. -/
def Covers (scope seen : List α → Prop) (todo : List (List α)) : Prop :=
  ∀ c, scope c → seen c ∨ ∃ x ∈ todo, x <+: c

/-- A walk parked at a node has seen all the scope up to it. -/
def Parked (scope seen : List α → Prop) (k : Option (List α)) : Prop :=
  ∀ c, scope c → seen c ∨ ∀ k' ∈ k, k' < c

section Walk

variable {scope seen seen' : List α → Prop} {todo children : List (List α)}

theorem Ahead.visit (h : Ahead (x :: todo)) (hchildren : Ahead children) (hx : ∀ y ∈ children, x <+: y) :
    Ahead (children ++ todo) := by
  obtain ⟨hhead, htail⟩ := List.pairwise_cons.mp h
  refine List.pairwise_append.mpr ⟨hchildren, htail, fun y hy z hz => ?_⟩
  exact (hhead z hz).extend (hx y hy) (List.prefix_refl z)

theorem Covers.visit (h : Covers scope seen (x :: todo)) (hseen : ∀ c, seen c → seen' c) (hx : seen' x)
    (hnext : ∀ c, scope c → x <+: c → c ≠ x → ∃ y ∈ children, y <+: c) : Covers scope seen' (children ++ todo) := by
  intro c hc
  rcases h c hc with hs | ⟨y, hy, hyc⟩
  · exact .inl (hseen c hs)
  · rcases List.mem_cons.mp hy with rfl | hy
    · by_cases hcy : c = y
      · exact .inl (hcy ▸ hx)
      · obtain ⟨z, hz, hzc⟩ := hnext c hc hyc hcy
        exact .inr ⟨z, List.mem_append_left _ hz, hzc⟩
    · exact .inr ⟨y, List.mem_append_right _ hy, hyc⟩

/-- After a visit everything still ahead comes later in the order. -/
theorem Ahead.later (h : Ahead (x :: todo)) (hx : ∀ y ∈ children, x <+: y ∧ y ≠ x) :
    ∀ y ∈ children ++ todo, x < y := by
  intro y hy
  rcases List.mem_append.mp hy with hy | hy
  · exact lt_of_above (hx y hy).1 (hx y hy).2.symm
  · exact ((List.pairwise_cons.mp h).1 y hy).lt

theorem Covers.parked (h : Covers scope seen todo) (hlater : ∀ y ∈ todo, k < y) : Parked scope seen (some k) := by
  intro c hc
  rcases h c hc with hs | ⟨x, hx, hxc⟩
  · exact .inl hs
  · right
    rintro _ ⟨⟩
    exact lt_of_lt_of_le (hlater x hx) (le_of_above hxc)

/-- A parked walk goes on from the node and the siblings to the right on the way down to it. -/
theorem Parked.resume (h : Parked scope seen (some k))
    (hright : ∀ c, scope c → ∀ p a b, p ++ [a] <+: k → p ++ [b] <+: c → a < b → p ++ [b] ∈ todo) :
    Covers scope seen (k :: todo) := by
  intro c hc
  rcases h c hc with hs | hlt
  · exact .inl hs
  · right
    rcases prefix_or_diverges (hlt k rfl) with hp | hd
    · exact ⟨k, List.mem_cons_self, hp⟩
    · obtain ⟨p, a, b, hk, hc', hab⟩ := hd.sibling
      exact ⟨p ++ [b], List.mem_cons_of_mem _ (hright c hc p a b hk hc' hab), hc'⟩

omit [LinearOrder α] in
theorem covers_root : Covers scope seen [[]] := fun _ _ => .inr ⟨[], by simp, List.nil_prefix⟩

omit [LinearOrder α] in
theorem Covers.all (h : Covers scope seen []) {c : List α} (hc : scope c) : seen c := by
  rcases h c hc with hs | ⟨x, hx, _⟩
  · exact hs
  · simp at hx

end Walk

end DurableDav.Library
