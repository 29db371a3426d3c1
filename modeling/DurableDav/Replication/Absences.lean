import DurableDav.Replication.KeepBoth

namespace DurableDav.Replication

open Library

/-! ### What an untrusted absence decides -/

namespace BuildPlanInput

variable (input : BuildPlanInput)

def localAt (p : JsString) : Option PlanSide := Store.get input.localIndex p

def remoteAt (p : JsString) : Option PlanSide := Store.get input.remoteIndex p

def baseAt (p : JsString) : Option PlanBase := Store.get input.baseIndex p

/-- Every decision is about a path that both sides were seen to hold. -/
def DecidesOnlySeen : Prop := ∀ d ∈ (buildReplicationPlan input).decisions,
  (input.localAt d.path).isSome ∧ (input.remoteAt d.path).isSome

/-- A path that one side was not seen to hold has a row, or the mode takes nothing from the other side. -/
def OneSidedAreKept : Prop := ∀ p, input.baseAt p = none →
  ((input.localAt p).isSome → input.remoteAt p = none → input.mode = .pullOnly) ∧
    (input.localAt p = none → (input.remoteAt p).isSome → input.mode = .copyOnly)

end BuildPlanInput

section Untrusted

variable {input : BuildPlanInput} {taken : List JsString} {p : JsString} {l r : Option PlanSide} {b : Option PlanBase}

theorem decideAt_eq : decideAt input taken p =
    decidePath input taken p (input.localAt p) (input.remoteAt p) (input.baseAt p) := rfl

theorem decidePath_untrusted (h : input.trustAbsences = false) {e : ReplicationDecision × Bool}
    (he : (decidePath input taken p l r b).decision = some e) : l.isSome ∧ r.isSome ∨ b = none ∧
      (l.isSome ∧ r = none ∧ input.mode ≠ .pullOnly ∨ l = none ∧ r.isSome ∧ input.mode ≠ .copyOnly) := by
  unfold decidePath decideGone decideNewLocal decideNewRemote decideOneSided Verdict.emit Verdict.emitWith
    Verdict.skip Verdict.defer at he
  split at he <;> grind

/-- A path without a row that one side alone is seen to hold is transferred, whatever is known of the absence. -/
theorem decidePath_new (h : l.isSome ∧ r = none ∧ input.mode ≠ .pullOnly ∨ l = none ∧ r.isSome ∧ input.mode ≠ .copyOnly) :
    ∃ d k, (decidePath input taken p l r none).decision = some (d, k) ∧ d.path = p := by
  rcases h with ⟨hl, rfl, hm⟩ | ⟨rfl, hr, hm⟩
  · obtain ⟨ls, rfl⟩ := Option.isSome_iff_exists.mp hl
    exact ⟨.push p ls.contentType, ls.isCollection, by simp [decidePath, decideNewLocal, hm, Verdict.emit], rfl⟩
  · obtain ⟨rs, rfl⟩ := Option.isSome_iff_exists.mp hr
    exact ⟨.pull p rs.contentType, rs.isCollection, by simp [decidePath, decideNewRemote, hm, Verdict.emit], rfl⟩

theorem decides_new (hb : input.baseAt p = none) (h : (input.localAt p).isSome ∧ input.remoteAt p = none ∧
      input.mode ≠ .pullOnly ∨ input.localAt p = none ∧ (input.remoteAt p).isSome ∧ input.mode ≠ .copyOnly) :
    ∃ d ∈ (buildReplicationPlan input).decisions, d.path = p := by
  have hp : p ∈ input.paths := by
    rcases h with ⟨hl, -⟩ | ⟨-, hr, -⟩
    · exact mem_paths.mpr (.inl hl)
    · exact mem_paths.mpr (.inr (.inl hr))
  obtain ⟨taken, -, hv⟩ := verdict_mem hp
  obtain ⟨d, k, hd, hpath⟩ := @decidePath_new input taken p _ _ h
  exact ⟨d, mem_decisions.mpr ⟨_, hv, k, by rw [decideAt_eq, hb, hd]⟩, hpath⟩

theorem decidesOnlySeen_iff (h : input.trustAbsences = false) : input.DecidesOnlySeen ↔ input.OneSidedAreKept := by
  constructor
  · intro hseen p hb
    constructor
    · intro hl hr
      by_contra hm
      obtain ⟨d, hd, rfl⟩ := decides_new hb (.inl ⟨hl, hr, hm⟩)
      simpa [hr] using hseen d hd
    · intro hl hr
      by_contra hm
      obtain ⟨d, hd, rfl⟩ := decides_new hb (.inr ⟨hl, hr, hm⟩)
      simpa [hl] using hseen d hd
  · intro hkept d hd
    obtain ⟨v, hv, k, he⟩ := mem_decisions.mp hd
    obtain ⟨p, hp, taken, -, rfl⟩ := mem_walkPaths hv
    have hpath : d.path = p := (decidePath_grounds he).path
    rw [hpath]
    rcases decidePath_untrusted h he with hboth | ⟨hb, ⟨hl, hr, hm⟩ | ⟨hl, hr, hm⟩⟩
    · exact hboth
    · exact absurd ((hkept p hb).1 hl hr) hm
    · exact absurd ((hkept p hb).2 hl hr) hm

end Untrusted

def seenFile (mtime : ℤ) : PlanSide := ⟨js "f", false, none, some mtime, some 1, none⟩

def agreedRow : PlanBase := ⟨js "f", false, none, some 1, some 1, none, some 1, some 1, none⟩

-- the listing of the remote was cut short
def cutInput : BuildPlanInput where
  mode := .keepBoth
  localSides := [seenFile 1]
  remoteSides := []
  base := []
  trustAbsences := false

theorem untrusted_absence_decides : cutInput.trustAbsences = false ∧
    (buildReplicationPlan cutInput).decisions = [.push (js "f") none] ∧ ¬ cutInput.DecidesOnlySeen := by
  refine ⟨rfl, by decide, fun h => ?_⟩
  have := h (.push (js "f") none) (by decide)
  exact absurd this (by decide)

def cutAgreed : BuildPlanInput := { cutInput with base := [agreedRow] }

theorem cutAgreed_decidesOnlySeen : cutAgreed.DecidesOnlySeen := by
  refine (decidesOnlySeen_iff rfl).mpr fun p hb => ?_
  have hp : p ≠ js "f" := by
    rintro rfl
    exact absurd hb (by decide)
  have hindex : cutAgreed.localIndex = [(js "f", seenFile 1)] := by decide
  have hl : cutAgreed.localAt p = none := by
    rw [BuildPlanInput.localAt, hindex, Store.get_cons, if_neg (Ne.symm hp)]
    rfl
  refine ⟨by simp [hl], fun _ hr => ?_⟩
  simp [BuildPlanInput.remoteAt, BuildPlanInput.remoteIndex, indexByPath, cutAgreed, cutInput] at hr

/-! ### What becomes of an edit where the other side deleted -/

/-- A version that one side alone holds and has changed since the two agreed. -/
def BuildPlanInput.EditedAlone (input : BuildPlanInput) (p : JsString) : Side → Prop
  | .localSide => ∃ l b, input.localAt p = some l ∧ input.remoteAt p = none ∧ input.baseAt p = some b ∧
      sideChanged l.observation b.localObservation = true
  | .remoteSide => ∃ r b, input.localAt p = none ∧ input.remoteAt p = some r ∧ input.baseAt p = some b ∧
      sideChanged r.observation b.remoteObservation = true

def ReplicationDecision.deletes (p : JsString) : Side → ReplicationDecision
  | .localSide => .deleteLocal p
  | .remoteSide => .deleteRemote p

/-- No edit is decided to be deleted, and whatever is done with the plan the edited bytes stay where they are. -/
def BuildPlanInput.EditsSurvive (input : BuildPlanInput) : Prop := ∀ p s, input.EditedAlone p s →
  .deletes p s ∉ (buildReplicationPlan input).decisions ∧
    ∀ (o : ApplyOptions) (w : World), (w.tree s).content p ≠ none →
      (((o.run (buildReplicationPlan input).decisions).run w).2.tree s).content p = (w.tree s).content p

section Edits

variable {input : BuildPlanInput} {p : JsString} {s : Side}

theorem BuildPlanInput.EditedAlone.mem_paths (h : input.EditedAlone p s) : p ∈ input.paths := by
  cases s with
  | localSide =>
    obtain ⟨l, b, hl, -⟩ := h
    exact Replication.mem_paths.mpr (.inl (Option.isSome_of_eq_some hl))
  | remoteSide =>
    obtain ⟨r, b, -, hr, -⟩ := h
    exact Replication.mem_paths.mpr (.inr (.inl (Option.isSome_of_eq_some hr)))

theorem BuildPlanInput.EditedAlone.row (h : input.EditedAlone p s) : (input.baseAt p).isSome ∧
    (input.localAt p = none ∨ input.remoteAt p = none) := by
  cases s with
  | localSide =>
    obtain ⟨l, b, -, hr, hb, -⟩ := h
    exact ⟨Option.isSome_of_eq_some hb, .inr hr⟩
  | remoteSide =>
    obtain ⟨r, b, hl, -, hb, -⟩ := h
    exact ⟨Option.isSome_of_eq_some hb, .inl hl⟩

/-- A trusted absence deletes what the other side holds, edited or not. -/
theorem BuildPlanInput.EditedAlone.deleted (hmode : input.mode = .sync ∨ input.mode = .keepBoth) (htrust : input.trustAbsences = true)
    (h : input.EditedAlone p s) : .deletes p s ∈ (buildReplicationPlan input).decisions := by
  obtain ⟨hb, -⟩ := h.row
  have htwoWay : input.mode ≠ .pullOnly ∧ input.mode ≠ .copyOnly := by
    rcases hmode with hm | hm <;> simp [hm]
  refine decisions_of_decideAt h.mem_paths (k := false) fun taken => ?_
  rw [decideAt_eq]
  cases s with
  | localSide =>
    obtain ⟨l, b, hl, hr, -, -⟩ := h
    exact decidePath_deleteLocal (Option.isSome_of_eq_some hl) hr htrust
      (.inl ⟨hb, htwoWay.2, fun hm => absurd hm htwoWay.1⟩)
  | remoteSide =>
    obtain ⟨r, b, hl, hr, -, -⟩ := h
    exact decidePath_deleteRemote hl (Option.isSome_of_eq_some hr) hb htrust htwoWay.1

/-- An untrusted absence leaves the path alone. -/
theorem BuildPlanInput.EditedAlone.undecided (htrust : input.trustAbsences = false) (h : input.EditedAlone p s)
    {d : ReplicationDecision} (hd : d ∈ (buildReplicationPlan input).decisions) : d.path ≠ p := by
  rintro rfl
  obtain ⟨v, hv, k, he⟩ := mem_decisions.mp hd
  obtain ⟨q, hq, taken, -, rfl⟩ := mem_walkPaths hv
  obtain rfl : d.path = q := (decidePath_grounds he).path
  obtain ⟨hb, hone⟩ := h.row
  rcases decidePath_untrusted htrust he with ⟨hl, hr⟩ | ⟨hnone, -⟩
  · rcases hone with hnone | hnone
    · exact absurd hl (by rw [← BuildPlanInput.localAt, hnone]; simp)
    · exact absurd hr (by rw [← BuildPlanInput.remoteAt, hnone]; simp)
  · exact absurd hb (by rw [BuildPlanInput.baseAt, hnone]; simp)

theorem editsSurvive_iff (hmode : input.mode = .sync ∨ input.mode = .keepBoth) (hf : input.RandomFresh) :
    input.EditsSurvive ↔ input.trustAbsences = false ∨ ∀ p s, ¬ input.EditedAlone p s := by
  constructor
  · intro hsurvive
    cases htrust : input.trustAbsences with
    | false => exact .inl rfl
    | true => exact .inr fun p s h => (hsurvive p s h).1 (h.deleted hmode htrust)
  · rintro (htrust | hnone) p s h
    · refine ⟨fun hd => h.undecided htrust hd (by cases s <;> rfl), fun o w hheld => ?_⟩
      refine (run_moves o _ w).content_eq ?_ hheld
      rintro ⟨d, hd, htarget⟩
      have hother := targets_other hf hd h.mem_paths (h.undecided htrust hd) htarget
        (by rcases hmode with hm | hm <;> simp [hm])
      rw [htrust] at hother
      exact Bool.noConfusion hother.2.1
    · exact absurd h (hnone p s)

end Edits

def editedAloneInput : BuildPlanInput where
  mode := .keepBoth
  localSides := [seenFile 2]
  remoteSides := []
  base := [agreedRow]
  trustAbsences := true

-- the edit is gone from both sides
theorem edit_is_deleted : editedAloneInput.EditedAlone (js "f") .localSide ∧
    (buildReplicationPlan editedAloneInput).decisions = [.deleteLocal (js "f")] ∧ ¬ editedAloneInput.EditsSurvive ∧
      let w := World.ofTrees [(js "f", .file [7] 2)] []
      let w' := (((editedAloneInput.options .calm).run (buildReplicationPlan editedAloneInput).decisions).run w).2
      w'.localTree.content (js "f") = none ∧ w'.remoteTree.content (js "f") = none := by
  have hedited : editedAloneInput.EditedAlone (js "f") .localSide :=
    ⟨seenFile 2, agreedRow, by decide, by decide, by decide, by decide⟩
  refine ⟨hedited, by decide, fun h => ?_, by decide⟩
  exact (h _ _ hedited).1 (by decide)

theorem heldBack_edit_survives :
    ({ editedAloneInput with trustAbsences := false } : BuildPlanInput).EditsSurvive := by
  refine (editsSurvive_iff (.inr rfl) fun p hp stem hm => ?_).mpr (.inl rfl)
  have hpaths : ({ editedAloneInput with trustAbsences := false } : BuildPlanInput).paths = [js "f"] := by decide
  rw [hpaths, List.mem_singleton] at hm
  have hdash : dash ∈ js "f" := hm ▸ by simp
  exact absurd hdash (by decide)

end DurableDav.Replication
