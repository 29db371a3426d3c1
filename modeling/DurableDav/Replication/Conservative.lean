import DurableDav.Replication.Evidence

namespace DurableDav.Replication

open Library

/-! ### What the comparisons may rest on -/

/-- A validator that both sides have is the same on both. -/
def Observation.Confirms (current base : Observation) : Prop :=
  current.isCollection = base.isCollection ∧
    ((∃ e, current.etag = some e ∧ base.etag = some e) ∨ ∃ t, current.mtime = some t ∧ base.mtime = some t)

/-- The sides have no validator in common, and known sizes that are equal. -/
def Observation.OnlySizes (current base : Observation) : Prop :=
  current.isCollection = base.isCollection ∧ (current.etag = none ∨ base.etag = none) ∧
    (current.mtime = none ∨ base.mtime = none) ∧ ∃ n, current.size = some n ∧ base.size = some n

/-- The mark that a validator keeps when it is weak. -/
def IsWeak (etag : JsString) : Prop := js "W/" <+: etag

instance (etag : JsString) : Decidable (IsWeak etag) := inferInstanceAs (Decidable (_ <+: _))

/-- The evidence for equal bytes: a strong validator with the size, or the size and the time where a side has no
validator. -/
def PlanSide.SameBytes (a b : PlanSide) : Prop :=
  (∃ e n, a.etag = some e ∧ b.etag = some e ∧ ¬ IsWeak e ∧ a.size = some n ∧ b.size = some n) ∨
    (a.etag = none ∨ b.etag = none) ∧ ∃ n t, a.size = some n ∧ b.size = some n ∧ a.mtime = some t ∧ b.mtime = some t

/-- Two files with one validator that is weak, or that stands without a size. -/
def PlanSide.Overtrusted (a b : PlanSide) : Prop :=
  a.isCollection = false ∧ b.isCollection = false ∧ a.size = b.size ∧
    ∃ e, a.etag = some e ∧ b.etag = some e ∧ (IsWeak e ∨ a.size = none)

section Evidence

variable {current base : Observation} {a b : PlanSide}

/-- Nothing is said to be unchanged but by a validator in common, or by the sizes alone. -/
theorem unchanged_cases (h : sideChanged current base = false) : current.Confirms base ∨ current.OnlySizes base := by
  unfold sideChanged at h
  by_cases hkind : current.isCollection = base.isCollection
  · rw [if_neg (by simpa using hkind)] at h
    split at h
    · rename_i hetag
      obtain ⟨e, he⟩ := Option.ne_none_iff_exists'.mp hetag.1
      have hsame : current.etag = base.etag := by
        simp only [decide_eq_false_iff_not, not_or, not_not] at h
        exact h.1
      exact .inl ⟨hkind, .inl ⟨e, he, hsame ▸ he⟩⟩
    · rename_i hetag
      split at h
      · rename_i htime
        obtain ⟨t, ht⟩ := Option.ne_none_iff_exists'.mp htime.1
        have hsame : current.mtime = base.mtime := by
          simp only [decide_eq_false_iff_not, not_or, not_not] at h
          exact h.1
        exact .inl ⟨hkind, .inr ⟨t, ht, hsame ▸ ht⟩⟩
      · rename_i htime
        simp only [decide_eq_false_iff_not, not_or, not_not] at h
        obtain ⟨hsize, -, hsame⟩ := h
        obtain ⟨n, hn⟩ := Option.ne_none_iff_exists'.mp hsize
        exact .inr ⟨hkind, by tauto, by tauto, n, hn, hsame ▸ hn⟩
  · rw [if_pos (by simpa using hkind)] at h
    cases h

theorem Observation.OnlySizes.unchanged (h : current.OnlySizes base) : sideChanged current base = false := by
  obtain ⟨hkind, hetag, htime, n, hn, hm⟩ := h
  unfold sideChanged
  rw [if_neg (by simpa using hkind), if_neg (by tauto), if_neg (by tauto)]
  simp [hn, hm]

theorem Observation.OnlySizes.not_confirms (h : current.OnlySizes base) : ¬ current.Confirms base := by
  obtain ⟨-, hetag, htime, -⟩ := h
  rintro ⟨-, ⟨e, he, he'⟩ | ⟨t, ht, ht'⟩⟩
  · rcases hetag with hnone | hnone
    · rw [hnone] at he
      cases he
    · rw [hnone] at he'
      cases he'
  · rcases htime with hnone | hnone
    · rw [hnone] at ht
      cases ht
    · rw [hnone] at ht'
      cases ht'

/-- Files are said to be identical on the evidence there may be, or on too little. -/
theorem identical_cases (h : provablyIdentical a b = true) (hfile : a.isCollection = false) :
    a.SameBytes b ∨ a.Overtrusted b := by
  have hkind := provablyIdentical_kind h
  unfold provablyIdentical at h
  rw [if_neg (by simpa using hkind), if_neg (by simp [hfile])] at h
  split at h
  · rename_i hetag
    simp only [sameSizeAndTime, decide_eq_true_eq] at h
    obtain ⟨hsize, -, htime, -, hsame, hsame'⟩ := h
    obtain ⟨n, hn⟩ := Option.ne_none_iff_exists'.mp hsize
    obtain ⟨t, ht⟩ := Option.ne_none_iff_exists'.mp htime
    exact .inl (.inr ⟨hetag, n, t, hn, hsame ▸ hn, ht, hsame' ▸ ht⟩)
  · rename_i hetag
    push Not at hetag
    simp only [decide_eq_true_eq] at h
    obtain ⟨e, he⟩ := Option.ne_none_iff_exists'.mp hetag.1
    have he' : b.etag = some e := h.1 ▸ he
    by_cases hweak : IsWeak e
    · exact .inr ⟨hfile, hkind ▸ hfile, h.2, e, he, he', .inl hweak⟩
    · cases hn : a.size with
      | none => exact .inr ⟨hfile, hkind ▸ hfile, h.2, e, he, he', .inr hn⟩
      | some n => exact .inl (.inl ⟨e, n, he, he', hweak, hn, h.2 ▸ hn⟩)

theorem PlanSide.Overtrusted.identical (h : a.Overtrusted b) : provablyIdentical a b = true := by
  obtain ⟨ha, hb, hsize, e, he, he', -⟩ := h
  unfold provablyIdentical
  rw [if_neg (by simp [ha, hb]), if_neg (by simp [ha]), if_neg (by simp [he, he'])]
  simp [he, he', hsize]

theorem PlanSide.Overtrusted.not_sameBytes (h : a.Overtrusted b) : ¬ a.SameBytes b := by
  obtain ⟨-, -, -, e, he, he', hweak⟩ := h
  rintro (⟨f, n, hf, -, hstrong, hn, -⟩ | ⟨hnone, -⟩)
  · obtain rfl : e = f := Option.some.inj (he.symm.trans hf)
    rcases hweak with hweak | hnone
    · exact hstrong hweak
    · rw [hn] at hnone
      cases hnone
  · rcases hnone with hnone | hnone
    · rw [he] at hnone
      cases hnone
    · rw [he'] at hnone
      cases hnone

end Evidence

/-- Exactly where the two comparisons answer on the evidence they are documented to need, and where an observation
without a validator is taken for a change. -/
theorem evidence_iff (current base : Observation) (a b : PlanSide) :
    ((sideChanged current base = false → current.Confirms base) ↔ ¬ current.OnlySizes base) ∧
    ((provablyIdentical a b = true → a.isCollection = false → a.SameBytes b) ↔ ¬ a.Overtrusted b) ∧
    (sideChanged ⟨none, none, current.size, current.isCollection⟩ base = true ↔
      ¬ (⟨none, none, current.size, current.isCollection⟩ : Observation).OnlySizes base) := by
  refine ⟨⟨?_, ?_⟩, ⟨?_, ?_⟩, ⟨?_, ?_⟩⟩
  · exact fun h hsizes => hsizes.not_confirms (h hsizes.unchanged)
  · exact fun h hunchanged => (unchanged_cases hunchanged).resolve_right h
  · exact fun h htrusted => htrusted.not_sameBytes (h htrusted.identical htrusted.1)
  · exact fun h hidentical hfile => (identical_cases hidentical hfile).resolve_right h
  · intro h hsizes
    rw [hsizes.unchanged] at h
    cases h
  · intro h
    by_contra hunchanged
    rcases unchanged_cases (Bool.eq_false_of_not_eq_true hunchanged) with hconfirms | hsizes
    · obtain ⟨-, ⟨e, he, -⟩ | ⟨t, ht, -⟩⟩ := hconfirms
      · cases he
      · cases ht
    · exact h hsizes

/-- An edit of the same size passes for no change, and two versions with one weak validator for one. -/
theorem equal_sizes_trusted :
    sideChanged ⟨none, none, some 5, false⟩ ⟨some (js "v1"), some 1, some 5, false⟩ = false ∧
      ¬ (⟨none, none, some 5, false⟩ : Observation).Confirms ⟨some (js "v1"), some 1, some 5, false⟩ ∧
      provablyIdentical ⟨js "f", false, some (js "W/v1"), none, none, none⟩
        ⟨js "f", false, some (js "W/v1"), none, none, none⟩ = true := by
  refine ⟨by decide, ?_, by decide⟩
  rintro ⟨-, ⟨e, he, -⟩ | ⟨t, ht, -⟩⟩
  · cases he
  · cases ht

end DurableDav.Replication
