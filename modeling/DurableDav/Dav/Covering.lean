import DurableDav.Dav.Locking
import DurableDav.Dav.Course

namespace DurableDav.Dav

open Library
open Replication (Bytes isValidInnerPath parentOf maxPathDepth)

/-! ### What a lock covers -/

/-- A lock covers its own path and, when it is infinitely deep, all below. -/
def LockRow.Covers (row : LockRow) (q : JsString) : Prop :=
  row.path = q ∨ row.depth = js "infinity" ∧ Below slash row.path q

instance (row : LockRow) (q : JsString) : Decidable (row.Covers q) := by
  unfold LockRow.Covers
  infer_instance

/-- Every name in a path has letters. -/
def Named (path : JsString) : Prop := path = [] ∨ ∀ name ∈ path.splitOn slash, name ≠ []

section Ancestors

variable {path q a : JsString}

theorem named_of_valid (h : isValidInnerPath path = true) : Named path := by
  by_cases hp : path = []
  · exact .inl hp
  · exact .inr (Replication.valid_segments h hp)

theorem Named.parent_eq (h : Named path) : getParentPath path = parentOf path := by
  unfold getParentPath
  rw [if_neg]
  intro hlast
  obtain ⟨init, rfl⟩ : ∃ init, path = init ++ slash :: [] := ⟨path.dropLast, (List.dropLast_append_getLast? _ hlast).symm⟩
  rcases h with hnil | h
  · simp at hnil
  · refine absurd rfl (h [] ?_)
    rw [List.splitOn_append_cons_self]
    simp

theorem Named.above (h : Named path) (hb : Below slash a path) : Named a := by
  by_cases ha : a = []
  · exact .inl ha
  · refine .inr fun name hname => ?_
    rcases h with rfl | h
    · exact absurd rfl hb.ne_nil
    · obtain ⟨rest, rfl⟩ := (below_of_ne ha).mp hb
      apply h name
      rw [List.splitOn_append_cons_self]
      exact List.mem_append_left _ hname

theorem below_parent (hp : path ≠ []) : Below slash (parentOf path) path := by
  by_cases hroot : parentOf path = []
  · rw [hroot]
    exact below_root.mpr hp
  · exact below_parentSegments hroot

theorem above_iff (hp : path ≠ []) : Below slash a path ↔ a = parentOf path ∨ Below slash a (parentOf path) := by
  constructor
  · intro h
    by_cases ha : a = []
    · by_cases hroot : parentOf path = []
      · exact .inl (ha.trans hroot.symm)
      · exact .inr (ha ▸ below_root.mpr hroot)
    · exact h.parent ha
  · rintro (rfl | h)
    · exact below_parent hp
    · exact h.trans (below_parent hp)

theorem mem_ancestorsFrom {fuel : ℕ} (h : Named path) (hfuel : path ≠ [] → (path.splitOn slash).length < fuel)
    (hroot : 0 < fuel) : a ∈ ancestorsFrom fuel path ↔ a = path ∨ Below slash a path := by
  induction fuel generalizing path with
  | zero => omega
  | succ fuel ih =>
    by_cases hp : path = []
    · subst hp
      simp only [ancestorsFrom, ↓reduceIte, List.mem_singleton]
      exact ⟨.inl, fun h => h.elim id (fun hb => absurd rfl hb.ne_nil)⟩
    · have hdeep := hfuel hp
      have hparent : parentOf path ≠ [] → ((parentOf path).splitOn slash).length < (path.splitOn slash).length :=
        fun hne => (below_parent hp).depth_lt hne
      have hsize : 0 < (path.splitOn slash).length := List.length_pos_of_ne_nil (List.splitOn_ne_nil _ _)
      simp only [ancestorsFrom, hp, ↓reduceIte, List.mem_cons, h.parent_eq]
      rw [ih (h.above (below_parent hp)) (fun hne => by have := hparent hne; omega) (by omega), ← above_iff hp]

/-- The guard looks at a path and all above it. -/
theorem mem_ancestorsOf (h : isValidInnerPath path = true) : a ∈ ancestorsOf path ↔ a = path ∨ Below slash a path := by
  refine mem_ancestorsFrom (named_of_valid h) (fun hp => ?_) (by decide)
  simp only [isValidInnerPath, hp, false_or, Bool.decide_and, Bool.and_eq_true, decide_eq_true_eq] at h
  omega

end Ancestors

section Guard

variable {v : Volume} {now : ℕ} {path : JsString} {tokens : List JsString} {e : JsString × LockRow}

/-- What keeps a request off a path: every lock that covers it, unless its token is submitted. -/
theorem mem_blocking (h : isValidInnerPath path = true) : e ∈ v.blocking now tokens path ↔
    e ∈ v.locks ∧ now < e.2.expiresAt ∧ e.2.Covers path ∧ normalizeLockToken e.1 ∉ tokens.map normalizeLockToken := by
  unfold Volume.blocking Volume.locksAffecting LockRow.Covers
  simp only [List.mem_filter, Bool.decide_and, Bool.decide_or, Bool.and_eq_true, Bool.or_eq_true, decide_eq_true_eq,
    mem_ancestorsOf h]
  constructor
  · rintro ⟨⟨hmem, habove, hlive⟩, hdepth, htoken⟩
    refine ⟨hmem, hlive, ?_, htoken⟩
    rcases habove with heq | hb
    · exact .inl heq
    · rcases hdepth with hinf | heq
      · exact .inr ⟨hinf, hb⟩
      · exact .inl heq
  · rintro ⟨hmem, hlive, hcovers, htoken⟩
    refine ⟨⟨hmem, ?_, hlive⟩, ?_, htoken⟩
    · exact hcovers.imp id And.right
    · exact hcovers.symm.imp And.left id

/-- What is in force is read as it is recorded. -/
theorem lockDetails_live {token root : JsString} {row : LockRow} (h : now < row.expiresAt) :
    lockDetailsFromRow now token row root = some (rowDetails token row root) := by
  have hnew : ¬ row.expiresAt = 0 := by omega
  simp only [lockDetailsFromRow, normalizeLockDetails, rowDetails, hnew, ↓reduceIte, not_le.mpr h]

end Guard

end DurableDav.Dav
