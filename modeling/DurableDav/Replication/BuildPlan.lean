import DurableDav.Library.Store
import DurableDav.Replication.Evidence
import Mathlib.Data.List.Sort

namespace DurableDav.Replication

open Library

def indexByPath {ρ : Type} (pathOf : ρ → JsString) (rows : List ρ) : Store JsString ρ :=
  (rows.filter (fun row => pathOf row ≠ [])).map (fun row => (pathOf row, row))

namespace BuildPlanInput

def localIndex (input : BuildPlanInput) : Store JsString PlanSide :=
  indexByPath PlanSide.path input.localSides

def remoteIndex (input : BuildPlanInput) : Store JsString PlanSide :=
  indexByPath PlanSide.path input.remoteSides

def baseIndex (input : BuildPlanInput) : Store JsString PlanBase :=
  indexByPath PlanBase.path input.base

def paths (input : BuildPlanInput) : List JsString :=
  List.insertionSort (fun a b => a ≤ b)
    (Store.keys input.localIndex ++ Store.keys input.remoteIndex ++ Store.keys input.baseIndex).dedup

end BuildPlanInput

structure Verdict where
  decision : Option (ReplicationDecision × Bool)
  conflict : Option PlanConflict
  deferred : Bool
  deriving DecidableEq

namespace Verdict

def skip : Verdict := ⟨none, none, false⟩

def defer : Verdict := ⟨none, none, true⟩

def emit (d : ReplicationDecision) (isCollection : Bool) : Verdict := ⟨some (d, isCollection), none, false⟩

def emitWith (c : PlanConflict) (d : ReplicationDecision) (isCollection : Bool) : Verdict :=
  ⟨some (d, isCollection), some c, false⟩

def reserved (v : Verdict) : List JsString := (v.conflict.bind PlanConflict.conflictPath).toList

end Verdict

section Decide

variable (input : BuildPlanInput) (taken : List JsString) (path : JsString)

def reserveConflictPath : JsString :=
  conflictPathFor path taken (input.now / 1000) (input.random path)

def decideGone : Verdict := if input.trustAbsences then .emit (.forget path) false else .defer

def decideNewLocal (l : PlanSide) : Verdict :=
  if input.mode = .pullOnly then
    if input.mirrorDeletions ∧ input.trustAbsences then
      .emitWith ⟨path, .remoteSide, .deletion, none⟩ (.deleteLocal path) false
    else .skip
  else .emit (.push path l.contentType) l.isCollection

def decideNewRemote (r : PlanSide) : Verdict :=
  if input.mode = .copyOnly then .skip else .emit (.pull path r.contentType) r.isCollection

def preserveLocal (l : PlanSide) (isCollection : Bool) : Verdict :=
  let conflictPath := reserveConflictPath input taken path
  .emitWith ⟨path, .remoteSide, .conflict, some conflictPath⟩
    (.pullAndPreserve path conflictPath l.contentType) isCollection

def preserveBoth (isCollection : Bool) : Verdict :=
  let conflictPath := reserveConflictPath input taken path
  .emitWith ⟨path, .localSide, .conflict, some conflictPath⟩
    (.keepBoth path .localSide conflictPath) isCollection

def applyWinner (winner : Side) (l r : PlanSide) : Verdict :=
  match winner with
  | .localSide => .emitWith ⟨path, .localSide, .conflict, none⟩ (.push path l.contentType) l.isCollection
  | .remoteSide => .emitWith ⟨path, .remoteSide, .conflict, none⟩ (.pull path r.contentType) r.isCollection

def decideBothNew (l r : PlanSide) : Verdict :=
  if provablyIdentical l r then .emit (.agree path l.isCollection l.contentType) l.isCollection
  -- hashing comes before the winner is read, so it fixes the local side in every two-way mode
  else if input.mode ≠ .pullOnly ∧ input.mode ≠ .copyOnly ∧ input.hashOnAmbiguous ∧
      couldBeIdentical l r then
    .emit (.compareContent path .localSide) l.isCollection
  else match conflictWinner l r input.mode with
    | none => preserveBoth input taken path (l.isCollection || r.isCollection)
    | some winner =>
      if winner = .remoteSide ∧ input.mode = .pullOnly then
        preserveLocal input taken path l (l.isCollection || r.isCollection)
      else applyWinner path winner l r

def decideOneSided (l r : Option PlanSide) : Verdict :=
  if !input.trustAbsences then .defer
  else if input.mode = .pullOnly then
    match l with
    | none => .emit (.pull path (r.bind PlanSide.contentType)) ((r.map PlanSide.isCollection).getD false)
    | some _ =>
      if input.mirrorDeletions then
        .emitWith ⟨path, .remoteSide, .deletion, none⟩ (.deleteLocal path) false
      else .skip
  else match l with
    | none => .emitWith ⟨path, .remoteSide, .deletion, none⟩ (.deleteRemote path) false
    | some l =>
      if input.mode = .copyOnly ∧ r = none then .emit (.push path l.contentType) l.isCollection
      else .emitWith ⟨path, .localSide, .deletion, none⟩ (.deleteLocal path) false

def decideBoth (l r : PlanSide) (b : PlanBase) : Verdict :=
  match sideChanged l.observation b.localObservation, sideChanged r.observation b.remoteObservation with
  | false, false => .emit (.agree path l.isCollection (b.contentType.or l.contentType)) l.isCollection
  | true, false =>
    if input.mode = .pullOnly then preserveLocal input taken path l l.isCollection
    else .emit (.push path l.contentType) l.isCollection
  | false, true =>
    if input.mode = .copyOnly then .emit (.push path l.contentType) l.isCollection
    else .emit (.pull path r.contentType) r.isCollection
  | true, true =>
    if provablyIdentical l r then .emit (.agree path l.isCollection l.contentType) l.isCollection
    else match conflictWinner l r input.mode with
      | none => preserveBoth input taken path l.isCollection
      | some winner =>
        if winner = .remoteSide ∧ input.mode = .pullOnly then
          preserveLocal input taken path l l.isCollection
        else if input.hashOnAmbiguous ∧ couldBeIdentical l r ∧ input.mode ≠ .copyOnly then
          .emit (.compareContent path winner) l.isCollection
        else applyWinner path winner l r

def decidePath (l r : Option PlanSide) (b : Option PlanBase) : Verdict :=
  match l, r, b with
  | none, none, none => .skip
  | none, none, some _ => decideGone input path
  | some l, none, none => decideNewLocal input path l
  | none, some r, none => decideNewRemote input path r
  | some l, some r, none => decideBothNew input taken path l r
  | some l, none, some _ => decideOneSided input path (some l) none
  | none, some r, some _ => decideOneSided input path none (some r)
  | some l, some r, some b => decideBoth input taken path l r b

def decideAt : Verdict :=
  decidePath input taken path (Store.get input.localIndex path) (Store.get input.remoteIndex path)
    (Store.get input.baseIndex path)

def walkPaths : List JsString → List JsString → List Verdict
  | [], _ => []
  | p :: ps, taken =>
    let v := decideAt input taken p
    v :: walkPaths ps (taken ++ v.reserved)

end Decide

structure Ordered where
  decision : ReplicationDecision
  isCollection : Bool
  depth : ℕ
  order : ℕ
  deriving DecidableEq

namespace Ordered

def before (a b : Ordered) : Bool :=
  if a.isCollection = b.isCollection then a.depth < b.depth ∨ (a.depth = b.depth ∧ a.order ≤ b.order)
  else a.isCollection

def deeperBefore (a b : Ordered) : Bool := b.depth < a.depth ∨ (a.depth = b.depth ∧ a.order ≤ b.order)

end Ordered

def verdicts (input : BuildPlanInput) : List Verdict := walkPaths input input.paths input.paths

def pending (input : BuildPlanInput) : List Ordered :=
  ((verdicts input).filterMap Verdict.decision).zipIdx.map (fun e =>
    ⟨e.1.1, e.1.2, (e.1.1.path.splitOn slash).length, e.2⟩)

def isDeletion (e : Ordered) : Bool := e.decision.isDeletion

def sortedPending (input : BuildPlanInput) : List Ordered :=
  (pending input).insertionSort (fun a b => a.before b)

def deletions (input : BuildPlanInput) : List Ordered :=
  ((sortedPending input).filter isDeletion).insertionSort (fun a b => a.deeperBefore b)

def deferredPaths (input : BuildPlanInput) : List JsString :=
  ((input.paths.zip (verdicts input)).filter (fun e => e.2.deferred)).map Prod.fst

def buildReplicationPlan (input : BuildPlanInput) : ReplicationPlan where
  decisions := ((sortedPending input).filter (fun e => !isDeletion e) ++ deletions input).map Ordered.decision
  deferredPaths := deferredPaths input
  conflicts := (verdicts input).filterMap Verdict.conflict
  absencesDeferred := !(deferredPaths input).isEmpty

end DurableDav.Replication
