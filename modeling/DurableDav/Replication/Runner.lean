import DurableDav.Replication.CollectSlice
import DurableDav.Replication.PlanExecutor

namespace DurableDav.Replication

open Library

structure ReplicationConfig where
  slicePaths : ℕ
  sliceMs : ℕ
  sliceBytes : ℕ
  passMaxMs : ℕ
  maxFailures : ℕ
  hashOnAmbiguous : Bool
  slicePaths_pos : 0 < slicePaths

structure Runner where
  config : ReplicationConfig
  env : Env
  storedMode : JsString
  mirrorDeletions : Option ℕ
  random : JsString → JsString

structure RunResult where
  status : RunStatus
  error : Option JsString
  remaining : ℕ
  deferredPaths : ℕ

def storedErrorLength : ℕ := 500

def truncatedErrorLength : ℕ := 300

/-! ### The bookkeeping of a pass -/

/-- The collections a pass opened now has to visit. -/
def World.collections (w : World) : List JsString :=
  [] :: (Store.keys w.localTree ++ Store.keys w.remoteTree).dedup.filter (fun p =>
    p ≠ [] ∧ isValidInnerPath p ∧ (w.localTree.isDirectory p ∨ w.remoteTree.isDirectory p))

def PassRow.begun (row : PassRow) (now : ℕ) : PassRow :=
  { row with passStartedAt := some now, cursorPath := none, cursorRemaining := 0 }

def PassRow.recorded (row : PassRow) (status : RunStatus) (error : Option JsString) (now maxFailures : ℕ)
    (cursor : Option JsString) (remaining : ℕ) : PassRow where
  lastRunAt := some now
  lastStatus := some status
  lastError := error.map (fun e => e.take storedErrorLength)
  consecutiveFailures := if status = .ok then 0 else row.consecutiveFailures + 1
  enabled := if status ≠ .ok ∧ maxFailures ≤ row.consecutiveFailures + 1 then false else row.enabled
  passStartedAt := if status ≠ .ok ∨ remaining = 0 then none else row.passStartedAt
  cursorPath := cursor
  cursorRemaining := remaining

namespace Env

variable (env : Env)

def beginPass (now : ℕ) : Run Unit :=
  env.call .beginPass intact fun _ _ => .modify fun w =>
    { w with pass := w.pass.begun now }.note (.opened w.collections)

def recordRun (status : RunStatus) (error : Option JsString) (now maxFailures : ℕ) (cursor : Option JsString)
    (remaining : ℕ) : Run Unit :=
  env.call .recordRun intact fun _ _ => .modify fun w =>
    { w with pass := w.pass.recorded status error now maxFailures cursor remaining }

def buildRemote : Run Unit := env.call .buildRemote intact fun _ _ => pure ()

def probe : Run Unit := env.call .probe intact fun _ _ => pure ()

def recordConflict (now : ℕ) (c : PlanConflict) : Run Unit :=
  env.call .recordConflict intact fun _ _ => .modify fun w =>
    { w with conflicts := ⟨c, now⟩ :: w.conflicts }

def recordConflicts (now : ℕ) (conflicts : List PlanConflict) : Run Unit :=
  Act.each (fun c => do
    -- losing the explanation must not lose the transfer
    let _ ← (env.recordConflict now c).attempt
    pure ()) conflicts

end Env

/-! ### One slice -/

def knownMode (stored : JsString) : ReplicationMode :=
  if stored = js "copy-only" then .copyOnly
  else if stored = js "sync" then .sync
  else if stored = js "pull-only" then .pullOnly
  else .keepBoth

def incompleteListing : JsString :=
  js "a listing was incomplete, so absence-based decisions were held back for this pass"

namespace Runner

variable (r : Runner)

def isStale (openedAt now : ℕ) : Bool := openedAt + r.config.passMaxMs / 1000 < now

def reconcilePassState (now : ℕ) : Run (Option JsString) := do
  let w ← .read
  if w.pass.passStartedAt.any (fun openedAt => !r.isStale openedAt now) then pure w.pass.cursorPath
  else do
    r.env.beginPass now
    pure none

def probeOnce (row : PassRow) : Run Unit := if row.lastRunAt = none then r.env.probe else pure ()

def planInput (slice : Slice) (startedAt : ℕ) : BuildPlanInput where
  mode := knownMode r.storedMode
  localSides := slice.localByPath.map Prod.snd
  remoteSides := slice.remoteByPath.map Prod.snd
  base := slice.base
  trustAbsences := slice.complete
  hashOnAmbiguous := r.config.hashOnAmbiguous
  mirrorDeletions := r.mirrorDeletions = some 1
  now := startedAt
  random := r.random

def options (slice : Slice) (startedAt : ℕ) : ApplyOptions :=
  ⟨⟨r.env, slice⟩, startedAt + r.config.sliceMs, r.config.sliceBytes⟩

def runStatus (slice : Slice) (outcome : ApplyOutcome) : RunStatus :=
  if 0 < outcome.errors ∨ 0 < slice.errors ∨ !slice.complete then
    if 0 < outcome.applied then .partly else .failed
  else .ok

def runError (slice : Slice) (outcome : ApplyOutcome) : Option JsString :=
  if runStatus slice outcome = .ok then none
  else (outcome.firstError.or slice.firstError).or (some incompleteListing)

def syncSlice (slice : Slice) (now startedAt : ℕ) : Run RunResult := do
  let plan := buildReplicationPlan (r.planInput slice startedAt)
  let outcome ← (r.options slice startedAt).run plan.decisions
  r.env.recordConflicts (startedAt / 1000) plan.conflicts
  r.env.recordRun (runStatus slice outcome)
    ((runError slice outcome).map (fun e => e.take truncatedErrorLength)) now r.config.maxFailures slice.cursor
    slice.remaining
  pure ⟨runStatus slice outcome, runError slice outcome, slice.remaining, plan.deferredPaths.length⟩

def trySlice (now startedAt : ℕ) : Run RunResult := do
  let row ← .read
  let resumeFrom ← r.reconcilePassState now
  r.env.buildRemote
  r.probeOnce row.pass
  let slice ← r.env.collectSlice r.config.slicePaths (startedAt + r.config.sliceMs) resumeFrom
  r.syncSlice slice now startedAt

def recordFailure (reason : JsString) : Run RunResult := do
  let message := reason.take storedErrorLength
  let failedAt ← r.env.now
  let _ ← (r.env.recordRun .failed (some message) (failedAt / 1000) r.config.maxFailures none 0).attempt
  pure ⟨.failed, some message, 0, 0⟩

def runSlice : Run RunResult := do
  let now ← r.env.now
  let startedAt ← r.env.now
  match ← (r.trySlice (now / 1000) startedAt).attempt with
  | .ok result => pure result
  | .error reason => r.recordFailure reason

theorem syncSlice_eq (slice : Slice) (now startedAt : ℕ) : r.syncSlice slice now startedAt = (do
    let outcome ← (r.options slice startedAt).run (buildReplicationPlan (r.planInput slice startedAt)).decisions
    r.env.recordConflicts (startedAt / 1000) (buildReplicationPlan (r.planInput slice startedAt)).conflicts
    r.env.recordRun (runStatus slice outcome)
      ((runError slice outcome).map (fun e => e.take truncatedErrorLength)) now r.config.maxFailures slice.cursor
      slice.remaining
    pure ⟨runStatus slice outcome, runError slice outcome, slice.remaining,
      (buildReplicationPlan (r.planInput slice startedAt)).deferredPaths.length⟩) := rfl

theorem recordFailure_eq (reason : JsString) : r.recordFailure reason = (do
    let failedAt ← r.env.now
    let _ ← (r.env.recordRun .failed (some (reason.take storedErrorLength)) (failedAt / 1000) r.config.maxFailures
      none 0).attempt
    pure ⟨.failed, some (reason.take storedErrorLength), 0, 0⟩) := rfl

end Runner

end DurableDav.Replication
