import DurableDav.Replication.BuildPlan
import DurableDav.Replication.Transfers

namespace DurableDav.Replication

open Library

structure ApplyOptions extends TransferContext where
  deadlineMs : ℕ
  maxBytes : ℕ

structure ApplyState where
  movedBytes : ℕ
  applied : ℕ
  errors : ℕ
  firstError : Option JsString
  touched : List JsString

def ApplyState.start : ApplyState := ⟨0, 0, 0, none, []⟩

def ApplyState.succeed (st : ApplyState) (size : ℕ) : ApplyState :=
  { st with movedBytes := st.movedBytes + size, applied := st.applied + 1 }

def ApplyState.fail (st : ApplyState) (message : JsString) : ApplyState :=
  { st with errors := st.errors + 1, firstError := st.firstError.or (some message) }

def ApplyState.touch (st : ApplyState) (path : JsString) : ApplyState :=
  { st with touched := if path ∈ st.touched then st.touched else st.touched ++ [path] }

def ReplicationDecision.kind : ReplicationDecision → JsString
  | push _ _ => js "push"
  | pull _ _ => js "pull"
  | deleteRemote _ => js "delete-remote"
  | deleteLocal _ => js "delete-local"
  | keepBoth _ _ _ => js "keep-both"
  | pullAndPreserve _ _ _ => js "pull-and-preserve"
  | compareContent _ _ => js "compare-content"
  | agree _ _ _ => js "agree"
  | forget _ => js "forget"

namespace TransferContext

variable (ctx : TransferContext)

def transfer : ReplicationDecision → Run ℕ
  | .push path _ => ctx.pushTransfer path
  | .pull path contentType => ctx.pullTransfer path contentType
  | .deleteRemote path => do
    ctx.env.remove path true
    pure 0
  | .deleteLocal path => do
    ctx.env.localUnlink path true
    pure 0
  | .keepBoth path _ conflictPath => do
    ctx.keepBoth path conflictPath
    pure 0
  | .pullAndPreserve path conflictPath contentType => do
    ctx.pullAndPreserve path conflictPath contentType
    pure 0
  | .compareContent path winner => ctx.compareContent path winner
  | .agree _ _ _ | .forget _ => pure 0

def applyDecision (d : ReplicationDecision) : Run (Except JsString ℕ) := do
  noteEvent (.applies d)
  let outcome ← (ctx.transfer d).attempt
  match outcome with
  | .ok size => pure (.ok size)
  | .error message => do
    noteEvent (.failed d)
    pure (.error message)

end TransferContext

def ApplyState.settle (st : ApplyState) (d : ReplicationDecision) (outcome : Except JsString ℕ) : ApplyState :=
  match outcome with
  | .ok size => (st.touch d.path).succeed size
  | .error message => (st.touch d.path).fail (d.kind ++ js " " ++ d.path ++ js ": " ++ message)

namespace ApplyOptions

variable (o : ApplyOptions)

def applyAll : List ReplicationDecision → ApplyState → Run ApplyState
  | [], st => pure st
  | d :: ds, st => do
    let now ← o.env.now
    if o.deadlineMs ≤ now ∨ o.maxBytes ≤ st.movedBytes then pure st
    else do
      let outcome ← o.applyDecision d
      applyAll ds (st.settle d outcome)

theorem applyAll_cons (d : ReplicationDecision) (ds : List ReplicationDecision) (st : ApplyState) :
    o.applyAll (d :: ds) st = (do
      let now ← o.env.now
      if o.deadlineMs ≤ now ∨ o.maxBytes ≤ st.movedBytes then pure st
      else do
        let outcome ← o.applyDecision d
        o.applyAll ds (st.settle d outcome)) := rfl

end ApplyOptions

inductive BaseUpdate
  | record (row : ReplicaStateRow)
  | forget
  | leave

namespace Env

variable (env : Env)

def recordRow (path : JsString) (localEntry remoteEntry : PlanSide) (now : ℕ) : ReplicaStateRow where
  path := path
  isCollection := localEntry.isCollection
  localEtag := localEntry.etag
  localMtime := localEntry.mtime
  localSize := localEntry.size
  remoteEtag := remoteEntry.etag
  remoteMtime := remoteEntry.mtime
  remoteSize := remoteEntry.size
  contentType := localEntry.contentType.or remoteEntry.contentType
  syncedAt := now

def rereadLocal (path : JsString) : Run (Option PlanSide × Bool) := do
  match ← (env.listReplicaChildren (parentOf path)).attempt with
  | .error _ => pure (none, false)
  | .ok listing =>
    if listing.complete then pure (listing.entries.find? (fun e => e.path = path), true)
    else pure (none, false)

def rereadRemote (path : JsString) : Run (Option PlanSide) := do
  match ← (env.stat path).attempt with
  | .error _ => pure none
  | .ok entry => pure entry

def baseUpdate (path : JsString) : Run BaseUpdate := do
  let localRead ← env.rereadLocal path
  let remoteEntry ← env.rereadRemote path
  match localRead, remoteEntry with
  | (none, true), none => pure .forget
  | (some l, _), some r => do
    let now ← env.now
    pure (.record (recordRow path l r now))
  | _, _ => pure .leave

def baseUpdates : List JsString → Run (List ReplicaStateRow × List JsString)
  | [] => pure ([], [])
  | path :: paths => do
    let update ← env.baseUpdate path
    let rest ← baseUpdates paths
    match update with
    | .record row => pure (row :: rest.1, rest.2)
    | .forget => pure (rest.1, path :: rest.2)
    | .leave => pure rest

def recordBase (touched : List JsString) : Run Unit := do
  let (records, forget) ← env.baseUpdates touched
  if records.isEmpty ∧ forget.isEmpty then pure ()
  else env.saveReplicaState records forget

end Env

structure ApplyOutcome where
  applied : ℕ
  errors : ℕ
  firstError : Option JsString
  movedBytes : ℕ

def ApplyOptions.run (o : ApplyOptions) (decisions : List ReplicationDecision) : Run ApplyOutcome := do
  let st ← o.applyAll decisions .start
  o.env.recordBase st.touched
  -- the batched records cannot fail one by one, so only a rejected call adds an error
  pure ⟨st.applied, st.errors, st.firstError, st.movedBytes⟩

/-! ### Concrete runs -/

def Env.calm : Env where
  sibling := true
  answer _ := .performs
  clock _ := 0
  mint _ := ⟨none, none, none⟩
  unlinked _ _ := false
  sha256HexOfBytes data := data.map (fun b => Fin.castLE (by decide) b)

def PassRow.new : PassRow := ⟨none, none, none, 0, true, none, none, 0⟩

def World.ofTrees (localTree remoteTree : Tree) : World := ⟨localTree, remoteTree, [], .new, [], 0, []⟩

def BuildPlanInput.slice (input : BuildPlanInput) : Slice :=
  ⟨input.localIndex, input.remoteIndex, input.base, input.trustAbsences, 0, none, 0, none⟩

def BuildPlanInput.options (input : BuildPlanInput) (env : Env) : ApplyOptions :=
  ⟨⟨env, input.slice⟩, 1, 1⟩

def Resource.file (data : Bytes) (mtime : ℤ) : Resource := ⟨some data, none, some mtime, some data.length, none⟩

def Resource.directory : Resource := ⟨none, none, none, some 0, none⟩

end DurableDav.Replication
