import DurableDav.Replication.Types

namespace DurableDav.Replication

open Library

structure Observation where
  etag : Option JsString
  mtime : Option ℤ
  size : Option ℕ
  isCollection : Bool
  deriving DecidableEq

def PlanSide.observation (s : PlanSide) : Observation := ⟨s.etag, s.mtime, s.size, s.isCollection⟩

def PlanBase.localObservation (b : PlanBase) : Observation :=
  ⟨b.localEtag, b.localMtime, b.localSize, b.isCollection⟩

def PlanBase.remoteObservation (b : PlanBase) : Observation :=
  ⟨b.remoteEtag, b.remoteMtime, b.remoteSize, b.isCollection⟩

def sideChanged (current base : Observation) : Bool :=
  if current.isCollection ≠ base.isCollection then true
  else if current.etag ≠ none ∧ base.etag ≠ none then
    current.etag ≠ base.etag ∨ current.size ≠ base.size
  else if current.mtime ≠ none ∧ base.mtime ≠ none then
    current.mtime ≠ base.mtime ∨ current.size ≠ base.size
  -- no validator on both sides: only an equal known size reads as unchanged
  else current.size = none ∨ base.size = none ∨ current.size ≠ base.size

def sameSizeAndTime (a b : PlanSide) : Bool :=
  a.size ≠ none ∧ b.size ≠ none ∧ a.mtime ≠ none ∧ b.mtime ≠ none ∧ a.size = b.size ∧ a.mtime = b.mtime

def provablyIdentical (a b : PlanSide) : Bool :=
  if a.isCollection ≠ b.isCollection then false
  else if a.isCollection then true
  else if a.etag = none ∨ b.etag = none then sameSizeAndTime a b
  else a.etag = b.etag ∧ a.size = b.size

def couldBeIdentical (a b : PlanSide) : Bool :=
  if a.isCollection ≠ b.isCollection then false
  else if a.isCollection then true
  else a.size ≠ none ∧ b.size ≠ none ∧ a.size = b.size

def maxConflictStemLength : ℕ := 180

def freeSuffix (base : JsString) (taken : List JsString) : ℕ → ℕ → Option JsString
  | 0, _ => none
  | left + 1, suffix =>
    let candidate := base ++ dash :: decimal suffix
    if candidate ∈ taken then freeSuffix base taken left (suffix + 1) else some candidate

def conflictBase (path : JsString) (nowSeconds : ℕ) : JsString :=
  let parent := match lastIndexOf slash path with
    | none => []
    | some i => path.take (i + 1)
  let name := match lastIndexOf slash path with
    | none => path
    | some i => path.drop (i + 1)
  parent ++ name.take maxConflictStemLength ++ js ".conflict-" ++ decimal nowSeconds

def conflictPathFor (path : JsString) (taken : List JsString) (nowSeconds : ℕ)
    (random : JsString) : JsString :=
  let base := conflictBase path nowSeconds
  if base ∈ taken then
    match freeSuffix base taken 998 2 with
    | some candidate => candidate
    | none => base ++ dash :: random
  else base

def conflictWinner (localSide remoteSide : PlanSide) (mode : ReplicationMode) : Option Side :=
  match mode with
  | .copyOnly => some .localSide
  | .pullOnly => some .remoteSide
  | .keepBoth => none
  | .sync => match localSide.mtime, remoteSide.mtime with
    | some a, some b =>
      if a = b then none else if b < a then some .localSide else some .remoteSide
    | _, _ => none

theorem freeSuffix_notMem {base : JsString} {taken : List JsString} {left suffix : ℕ}
    {c : JsString} (h : freeSuffix base taken left suffix = some c) : c ∉ taken := by
  induction left generalizing suffix with
  | zero => simp [freeSuffix] at h
  | succ left ih =>
    by_cases hc : base ++ dash :: decimal suffix ∈ taken
    · exact ih (by simpa [freeSuffix, hc] using h)
    · have he : base ++ dash :: decimal suffix = c := by simpa [freeSuffix, hc] using h
      exact he ▸ hc

theorem sideChanged_of_kind {current base : Observation}
    (h : current.isCollection ≠ base.isCollection) : sideChanged current base = true := by
  simp [sideChanged, h]

theorem provablyIdentical_kind {a b : PlanSide} (h : provablyIdentical a b = true) :
    a.isCollection = b.isCollection := by
  by_contra hk
  simp [provablyIdentical, hk] at h

theorem couldBeIdentical_kind {a b : PlanSide} (h : couldBeIdentical a b = true) :
    a.isCollection = b.isCollection := by
  by_contra hk
  simp [couldBeIdentical, hk] at h

theorem freeSuffix_eq {base : JsString} {taken : List JsString} {left suffix : ℕ} {c : JsString}
    (h : freeSuffix base taken left suffix = some c) : ∃ n, c = base ++ dash :: decimal n := by
  induction left generalizing suffix with
  | zero => simp [freeSuffix] at h
  | succ left ih =>
    by_cases hc : base ++ dash :: decimal suffix ∈ taken
    · exact ih (by simpa [freeSuffix, hc] using h)
    · exact ⟨suffix, by simpa [freeSuffix, hc, eq_comm] using h⟩

/-! ### The name of a conflict copy -/

theorem conflictBase_name (path : JsString) (now : ℕ) : ∃ name, slash ∉ name ∧
    (slash ∉ path ∧ conflictBase path now = name ∨
      conflictBase path now = parentSegments slash path ++ slash :: name) := by
  have hsuffix : slash ∉ js ".conflict-" ++ decimal now := by
    rw [List.mem_append]
    rintro (h | h)
    · exact absurd h (by decide)
    · exact slash_notMem_decimal now h
  cases hi : lastIndexOf slash path with
  | none =>
    have hp : slash ∉ path := lastIndexOf_eq_none.mp hi
    refine ⟨path.take maxConflictStemLength ++ (js ".conflict-" ++ decimal now), ?_, .inl ⟨hp, ?_⟩⟩
    · rw [List.mem_append]
      rintro (h | h)
      · exact hp (List.mem_of_mem_take h)
      · exact hsuffix h
    · simp [conflictBase, hi]
  | some i =>
    obtain ⟨he, hn⟩ := lastIndexOf_eq_some hi
    refine ⟨(path.drop (i + 1)).take maxConflictStemLength ++ (js ".conflict-" ++ decimal now), ?_, .inr ?_⟩
    · rw [List.mem_append]
      rintro (h | h)
      · exact hn (List.mem_of_mem_take h)
      · exact hsuffix h
    · have htake : path.take (i + 1) = path.take i ++ [slash] := by
        rw [List.take_add_one, lastIndexOf_getElem? hi]
        rfl
      simp [conflictBase, hi, parentSegments, htake]

/-- A conflict copy is a sibling of what it preserves. -/
theorem parentSegments_conflictPathFor {random : JsString} (hr : slash ∉ random) (path : JsString)
    (taken : List JsString) (now : ℕ) :
    parentSegments slash (conflictPathFor path taken now random) = parentSegments slash path := by
  have extend : ∀ tail, slash ∉ tail →
      parentSegments slash (conflictBase path now ++ tail) = parentSegments slash path := by
    intro tail ht
    obtain ⟨name, hn, ⟨hp, hb⟩ | hb⟩ := conflictBase_name path now
    · have hall : slash ∉ conflictBase path now ++ tail := by
        rw [hb, List.mem_append]
        exact fun h => h.elim hn ht
      rw [parentSegments_of_notMem hall, parentSegments_of_notMem hp]
    · have hall : slash ∉ name ++ tail := by
        rw [List.mem_append]
        exact fun h => h.elim hn ht
      rw [hb, List.append_assoc, List.cons_append]
      exact parentSegments_append hall
  have dashed : ∀ tail, slash ∉ tail → slash ∉ dash :: tail := by
    intro tail ht
    rw [List.mem_cons]
    exact fun h => h.elim (by decide) ht
  unfold conflictPathFor
  dsimp only
  split
  · cases hs : freeSuffix (conflictBase path now) taken 998 2 with
    | none => exact extend _ (dashed _ hr)
    | some c =>
      obtain ⟨n, hc⟩ := freeSuffix_eq hs
      dsimp only
      rw [hc]
      exact extend _ (dashed _ (slash_notMem_decimal n))
  · simpa using extend [] (by simp)

end DurableDav.Replication
