import DurableDav.Replication.CompleteView

namespace DurableDav.Replication

open Library

def ReplicationDecision.isAgree : ReplicationDecision → Bool
  | .agree _ _ _ => true
  | _ => false

/-- Wherever the plan decides anything it finds that the two sides agree. -/
def ReplicationPlan.OnlyAgrees (plan : ReplicationPlan) : Prop := ∀ d ∈ plan.decisions, d.isAgree = true

/-- Nothing is to be done about a path. -/
def BuildPlanInput.Settled (input : BuildPlanInput) (l r : Option PlanSide) (b : Option PlanBase) : Prop :=
  match l, r, b with
  | none, none, none => True
  | some l, some r, none => provablyIdentical l r = true
  | some l, some r, some b => (sideChanged l.observation b.localObservation = sideChanged r.observation b.remoteObservation) ∧
      (sideChanged l.observation b.localObservation = true → provablyIdentical l r = true)
  | some _, none, none => input.mode = .pullOnly ∧ ¬ (input.mirrorDeletions = true ∧ input.trustAbsences = true)
  | none, some _, none => input.mode = .copyOnly
  | some _, none, some _ => input.trustAbsences = false ∨ input.mode = .pullOnly ∧ input.mirrorDeletions = false
  | none, _, some _ => input.trustAbsences = false

section Settled

variable {input : BuildPlanInput} {taken : List JsString} {p : JsString} {l r : Option PlanSide} {b : Option PlanBase}

theorem decidePath_settled_iff :
    (decidePath input taken p l r b).decision.all (fun e => e.1.isAgree) = true ↔ input.Settled l r b := by
  unfold decidePath decideGone decideNewLocal decideNewRemote decideBothNew decideOneSided decideBoth
    preserveBoth preserveLocal applyWinner Verdict.emit Verdict.emitWith Verdict.skip Verdict.defer
  cases l <;> cases r <;> cases b <;> grind [BuildPlanInput.Settled, ReplicationDecision.isAgree, conflictWinner]

theorem onlyAgrees_iff : (buildReplicationPlan input).OnlyAgrees ↔ ∀ p ∈ input.paths,
    input.Settled (Store.get input.localIndex p) (Store.get input.remoteIndex p) (Store.get input.baseIndex p) := by
  constructor
  · intro h p hp
    obtain ⟨taken, -, hmem⟩ := verdict_mem hp
    apply (@decidePath_settled_iff input taken p _ _ _).mp
    cases he : (decideAt input taken p).decision with
    | none => exact congrArg (Option.all _) he
    | some e => exact (congrArg (Option.all _) he).trans (h e.1 (mem_decisions.mpr ⟨_, hmem, e.2, he⟩))
  · intro h d hd
    obtain ⟨v, hv, k, hdecision⟩ := mem_decisions.mp hd
    obtain ⟨p, hp, taken, -, rfl⟩ := mem_walkPaths hv
    have hall := (@decidePath_settled_iff input taken p _ _ _).mpr (h p hp)
    exact (congrArg (Option.all _) hdecision).symm.trans hall

/-- A path that only one of the sides holds stays settled when its row is lost. -/
theorem Settled.unrecorded (h : input.Settled l r b) (ht : input.trustAbsences = true) (hone : l = none ∨ r = none) :
    input.Settled l r none := by
  cases l <;> cases r <;> cases b <;> grind [BuildPlanInput.Settled]

end Settled

end DurableDav.Replication
