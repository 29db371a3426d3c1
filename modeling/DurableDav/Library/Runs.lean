import Mathlib.Algebra.Order.BigOperators.Group.List
import Mathlib.Algebra.Order.Ring.Nat

namespace DurableDav.Library

/-! ### Runs of a system whose steps can fail to be possible -/

variable {σ ε : Type*} (step : σ → ε → Option σ)

def run (s : σ) (es : List ε) : Option σ := es.foldlM step s

/-- Every event of the run is met by a state that admits it. -/
def Admitted (admits : σ → ε → Prop) : σ → List ε → Prop
  | _, [] => True
  | s, e :: es => admits s e ∧ ∀ s', step s e = some s' → Admitted admits s' es

variable {step} {admits admits' : σ → ε → Prop}

theorem run_cons {s s' : σ} {e : ε} {es : List ε} (h : run step s (e :: es) = some s') :
    ∃ mid, step s e = some mid ∧ run step mid es = some s' := by
  simpa [run, List.foldlM_cons, Option.bind_eq_some_iff] using h

theorem run_append {s s' : σ} {es es' : List ε} (h : run step s (es ++ es') = some s') :
    ∃ mid, run step s es = some mid ∧ run step mid es' = some s' := by
  simpa [run, List.foldlM_append, Option.bind_eq_some_iff] using h

theorem run_trans {s mid s' : σ} {es es' : List ε} (h : run step s es = some mid) (h' : run step mid es' = some s') :
    run step s (es ++ es') = some s' := by
  unfold run at h h' ⊢
  rw [List.foldlM_append, h]
  exact h'

theorem Admitted.weaken {s : σ} {es : List ε} (h : Admitted step admits s es)
    (himp : ∀ s e, admits s e → admits' s e) : Admitted step admits' s es := by
  induction es generalizing s with
  | nil => trivial
  | cons e es ih =>
    obtain ⟨hnow, hlater⟩ := h
    exact ⟨himp s e hnow, fun s' hstep => ih (hlater s' hstep)⟩

theorem admitted_all (h : ∀ s e, admits s e) (s : σ) (es : List ε) : Admitted step admits s es := by
  induction es generalizing s with
  | nil => trivial
  | cons e es ih => exact ⟨h s e, fun s' _ => ih s'⟩

/-- What the admitted steps preserve holds at the end of an admitted run. -/
theorem run_preserves {P : σ → Prop} (hstep : ∀ s e s', P s → admits s e → step s e = some s' → P s')
    {s s' : σ} {es : List ε} (hs : P s) (hadmitted : Admitted step admits s es) (hrun : run step s es = some s') :
    P s' := by
  induction es generalizing s with
  | nil => exact Option.some.inj hrun ▸ hs
  | cons e es ih =>
    obtain ⟨hnow, hlater⟩ := hadmitted
    obtain ⟨mid, hmid, hrest⟩ := run_cons hrun
    exact ih (hstep s e mid hs hnow hmid) (hlater mid hmid) hrest

/-- What the steps gain comes out of what there was and what they cost. -/
theorem run_potential {P : σ → Prop} {L : σ → ℕ} {G C : ε → ℕ}
    (hstep : ∀ s e s', P s → admits s e → step s e = some s' → P s' ∧ L s' + G e ≤ L s + C e)
    {s s' : σ} {es : List ε} (hs : P s) (hadmitted : Admitted step admits s es) (hrun : run step s es = some s') :
    L s' + (es.map G).sum ≤ L s + (es.map C).sum := by
  induction es generalizing s with
  | nil =>
    obtain rfl := Option.some.inj hrun
    simp
  | cons e es ih =>
    obtain ⟨hnow, hlater⟩ := hadmitted
    obtain ⟨mid, hmid, hrest⟩ := run_cons hrun
    obtain ⟨hP, hleft⟩ := hstep s e mid hs hnow hmid
    have hall := ih hP (hlater mid hmid) hrest
    rw [List.map_cons, List.map_cons, List.sum_cons, List.sum_cons]
    omega

/-- Where no order of steps is endless, some admitted run goes on until no admitted step is left. -/
theorem exists_stuck_run (hend : WellFounded fun s' s => ∃ e, step s e = some s') (s : σ) :
    ∃ es s', Admitted step admits s es ∧ run step s es = some s' ∧ ∀ e, admits s' e → step s' e = none := by
  induction s using hend.induction with
  | _ s ih =>
  by_cases hstuck : ∀ e, admits s e → step s e = none
  · exact ⟨[], s, trivial, rfl, hstuck⟩
  · push Not at hstuck
    obtain ⟨e, hnow, hstep⟩ := hstuck
    obtain ⟨mid, hmid⟩ := Option.ne_none_iff_exists'.mp hstep
    obtain ⟨es, s', hlater, hrun, hlast⟩ := ih mid ⟨e, hmid⟩
    refine ⟨e :: es, s', ⟨hnow, ?_⟩, ?_, hlast⟩
    · intro mid' hmid'
      obtain rfl := Option.some.inj (hmid.symm.trans hmid')
      exact hlater
    · change (step s e >>= fun mid => run step mid es) = some s'
      rw [hmid]
      exact hrun

instance decidableAdmitted [∀ s e, Decidable (admits s e)] : ∀ s es, Decidable (Admitted step admits s es)
  | _, [] => inferInstanceAs (Decidable True)
  | s, e :: es =>
    have : Decidable (∀ s', step s e = some s' → Admitted step admits s' es) :=
      match h : step s e with
      | none => isTrue (by simp)
      | some mid =>
        have := decidableAdmitted mid es
        decidable_of_iff (Admitted step admits mid es) (by simp)
    inferInstanceAs (Decidable (_ ∧ _))

end DurableDav.Library
