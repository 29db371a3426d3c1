import Mathlib.Data.List.Basic

namespace DurableDav.Library

variable {ε σ α β : Type}

/-- A fold is let through if every one of its steps is. -/
theorem foldlM_ok_iff {f : σ → α → Except ε σ} {Q : α → Prop} (hf : ∀ s a, (∃ s', f s a = .ok s') ↔ Q a) (as : List α)
    (s : σ) : (∃ s', as.foldlM f s = .ok s') ↔ ∀ a ∈ as, Q a := by
  induction as generalizing s with
  | nil => exact iff_of_true ⟨s, rfl⟩ (List.forall_mem_nil _)
  | cons a as ih =>
    rw [List.forall_mem_cons, List.foldlM_cons]
    cases hstep : f s a with
    | error e =>
      refine iff_of_false ?_ ?_
      · rintro ⟨s', hs'⟩
        cases hs'
      · rintro ⟨ha, -⟩
        obtain ⟨s', hs'⟩ := (hf s a).mpr ha
        rw [hstep] at hs'
        cases hs'
    | ok s' =>
      have ha : Q a := (hf s a).mp ⟨s', hstep⟩
      exact (ih s').trans ⟨fun h => ⟨ha, h⟩, And.right⟩

theorem foldlM_error {f : σ → α → Except ε σ} {as : List α} {s : σ} {e : ε} (h : as.foldlM f s = .error e) :
    ∃ s' a, f s' a = .error e := by
  induction as generalizing s with
  | nil => cases h
  | cons a as ih =>
    rw [List.foldlM_cons] at h
    cases hstep : f s a with
    | error e' =>
      rw [hstep] at h
      obtain rfl := Except.error.inj h
      exact ⟨s, a, hstep⟩
    | ok s' =>
      rw [hstep] at h
      exact ih h

/-- A mark that a step sets, or leaves as it is, is set at the end if some step sets it. -/
theorem foldlM_mark {f : σ → α → Except ε σ} {mark : σ → Bool} {sets : α → Bool}
    (hf : ∀ s a s', f s a = .ok s' → mark s' = (mark s || sets a)) {as : List α} {s s' : σ}
    (h : as.foldlM f s = .ok s') : mark s' = (mark s || as.any sets) := by
  induction as generalizing s with
  | nil =>
    obtain rfl := Except.ok.inj h
    simp
  | cons a as ih =>
    rw [List.foldlM_cons] at h
    cases hstep : f s a with
    | error e =>
      rw [hstep] at h
      cases h
    | ok s₁ =>
      rw [hstep] at h
      rw [ih h, hf s a s₁ hstep, List.any_cons, Bool.or_assoc]

theorem mapM_ok_iff {f : α → Except ε β} {as : List α} :
    (∃ bs, as.mapM f = .ok bs) ↔ ∀ a ∈ as, ∃ b, f a = .ok b := by
  induction as with
  | nil => exact iff_of_true ⟨[], rfl⟩ (List.forall_mem_nil _)
  | cons a as ih =>
    rw [List.forall_mem_cons, List.mapM_cons, ← ih]
    cases hfirst : f a with
    | error e =>
      refine iff_of_false ?_ ?_
      · rintro ⟨bs, hbs⟩
        cases hbs
      · rintro ⟨⟨b, hb⟩, -⟩
        cases hb
    | ok b =>
      cases hrest : as.mapM f with
      | error e =>
        refine iff_of_false ?_ ?_
        · rintro ⟨bs, hbs⟩
          cases hbs
        · rintro ⟨-, bs, hbs⟩
          cases hbs
      | ok bs => exact iff_of_true ⟨b :: bs, rfl⟩ ⟨⟨b, rfl⟩, bs, rfl⟩

theorem mapM_error {f : α → Except ε β} {as : List α} {e : ε} (h : as.mapM f = .error e) : ∃ a ∈ as, f a = .error e := by
  induction as with
  | nil => cases h
  | cons a as ih =>
    rw [List.mapM_cons] at h
    cases hfirst : f a with
    | error e' =>
      rw [hfirst] at h
      obtain rfl := Except.error.inj h
      exact ⟨a, List.mem_cons_self, hfirst⟩
    | ok b =>
      cases hrest : as.mapM f with
      | error e' =>
        rw [hfirst, hrest] at h
        obtain rfl := Except.error.inj h
        obtain ⟨a', ha', herror⟩ := ih hrest
        exact ⟨a', List.mem_cons_of_mem a ha', herror⟩
      | ok bs =>
        rw [hfirst, hrest] at h
        cases h

theorem mem_mapM {f : α → Except ε β} {as : List α} {bs : List β} (h : as.mapM f = .ok bs) {b : β} :
    b ∈ bs ↔ ∃ a ∈ as, f a = .ok b := by
  induction as generalizing bs with
  | nil =>
    obtain rfl := Except.ok.inj h
    simp
  | cons a as ih =>
    rw [List.mapM_cons] at h
    cases hfirst : f a with
    | error e =>
      rw [hfirst] at h
      cases h
    | ok b' =>
      cases hrest : as.mapM f with
      | error e =>
        rw [hfirst, hrest] at h
        cases h
      | ok bs' =>
        rw [hfirst, hrest] at h
        obtain rfl := Except.ok.inj h
        simp [ih hrest, hfirst, eq_comm]

end DurableDav.Library
