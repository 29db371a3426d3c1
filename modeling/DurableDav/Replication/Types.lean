import DurableDav.Library.JsString

namespace DurableDav.Replication

open Library

inductive ReplicationMode
  | copyOnly
  | sync
  | keepBoth
  | pullOnly
  deriving DecidableEq, Repr

inductive Side
  | localSide
  | remoteSide
  deriving DecidableEq, Repr

@[ext] structure PlanSide where
  path : JsString
  isCollection : Bool
  etag : Option JsString
  mtime : Option ℤ
  size : Option ℕ
  contentType : Option JsString
  deriving DecidableEq

structure PlanBase where
  path : JsString
  isCollection : Bool
  localEtag : Option JsString
  localMtime : Option ℤ
  localSize : Option ℕ
  remoteEtag : Option JsString
  remoteMtime : Option ℤ
  remoteSize : Option ℕ
  contentType : Option JsString
  deriving DecidableEq

inductive ReplicationDecision
  | push (path : JsString) (contentType : Option JsString)
  | pull (path : JsString) (contentType : Option JsString)
  | deleteRemote (path : JsString)
  | deleteLocal (path : JsString)
  | keepBoth (path : JsString) (winner : Side) (conflictPath : JsString)
  | pullAndPreserve (path conflictPath : JsString) (contentType : Option JsString)
  | compareContent (path : JsString) (winner : Side)
  | agree (path : JsString) (isCollection : Bool) (contentType : Option JsString)
  | forget (path : JsString)
  deriving DecidableEq

namespace ReplicationDecision

def path : ReplicationDecision → JsString
  | push p _ | pull p _ | deleteRemote p | deleteLocal p | keepBoth p _ _
  | pullAndPreserve p _ _ | compareContent p _ | agree p _ _ | forget p => p

def conflictPath : ReplicationDecision → Option JsString
  | keepBoth _ _ c | pullAndPreserve _ c _ => some c
  | _ => none

def isDeletion : ReplicationDecision → Bool
  | deleteRemote _ | deleteLocal _ => true
  | _ => false

def actsOnAbsence : ReplicationDecision → Bool
  | deleteRemote _ | deleteLocal _ | forget _ => true
  | _ => false

end ReplicationDecision

inductive ConflictKind
  | conflict
  | deletion
  deriving DecidableEq, Repr

structure PlanConflict where
  path : JsString
  winner : Side
  kind : ConflictKind
  conflictPath : Option JsString
  deriving DecidableEq

structure ReplicationPlan where
  decisions : List ReplicationDecision
  deferredPaths : List JsString
  conflicts : List PlanConflict
  absencesDeferred : Bool
  deriving DecidableEq

structure BuildPlanInput where
  mode : ReplicationMode
  localSides : List PlanSide
  remoteSides : List PlanSide
  base : List PlanBase
  trustAbsences : Bool
  hashOnAmbiguous : Bool := false
  mirrorDeletions : Bool := false
  now : ℕ := 0
  random : JsString → JsString := fun _ => []

end DurableDav.Replication
