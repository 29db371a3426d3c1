import DurableDav.Replication.Replica

namespace DurableDav.Replication

open Library

structure Slice where
  localByPath : Store JsString PlanSide
  remoteByPath : Store JsString PlanSide
  base : List PlanBase
  complete : Bool
  errors : ℕ
  firstError : Option JsString
  remaining : ℕ
  cursor : Option JsString

structure TransferContext where
  env : Env
  slice : Slice

namespace TransferContext

variable (ctx : TransferContext)

def localEntry (path : JsString) : Option PlanSide := Store.get ctx.slice.localByPath path

def remoteEntry (path : JsString) : Option PlanSide := Store.get ctx.slice.remoteByPath path

def remoteEntryOrStat (path : JsString) : Run (Option PlanSide) :=
  match ctx.remoteEntry path with
  | some e => pure (some e)
  | none => ctx.env.stat path

def pushTransfer (path : JsString) : Run ℕ :=
  match ctx.localEntry path with
  | none => .throw (js "the local side has no entry for " ++ path)
  | some entry =>
    if entry.isCollection then do
      ctx.env.makeCollection path
      pure 0
    else do
      match ← ctx.env.readReplicaStream path with
      | none => .throw (js "the local file " ++ path ++ js " could not be read")
      | some stream =>
        ctx.env.remoteWriteFile path entry.contentType stream
        pure (entry.size.getD 0)

def pullTransfer (path : JsString) (contentType : Option JsString) : Run ℕ := do
  match ← ctx.remoteEntryOrStat path with
  | none => .throw (js "the remote has no entry for " ++ path)
  | some entry =>
    if entry.isCollection then
      ctx.env.localMkdir path
      pure 0
    else
      match ← ctx.env.readFile path with
      | none => .throw (js "the remote file " ++ path ++ js " could not be read")
      | some stream =>
        ctx.env.localWrite path contentType stream
        pure (entry.size.getD 0)

def remoteToLocal (path : JsString) (contentType : Option JsString) : Run Unit := do
  match ← ctx.env.readFile path with
  | none => pure ()
  | some stream => ctx.env.localWrite path contentType stream

def preserveConflictingCollection (path conflictPath : JsString) : Run Bool :=
  if (ctx.localEntry path).any PlanSide.isCollection then do
    ctx.env.makeCollection conflictPath
    pure true
  else if !(ctx.remoteEntry path).any PlanSide.isCollection ∨ (ctx.localEntry path).isSome then
    pure false
  else do
    ctx.env.localMkdir conflictPath
    pure true

def remoteFileStream (path : JsString) : Run (Option Bytes) :=
  match ctx.remoteEntry path with
  | none => pure none
  | some entry => if entry.isCollection then pure none else ctx.env.readFile path

def copyDown (path conflictPath : JsString) : Run Unit := do
  match ← ctx.remoteFileStream path with
  | none => pure ()
  | some stream =>
    ctx.env.localWrite conflictPath ((ctx.localEntry path).bind PlanSide.contentType) stream

def copyUp (path conflictPath : JsString) : Run Unit :=
  match ctx.localEntry path with
  | none => pure ()
  | some entry =>
    if entry.isCollection then pure ()
    else do
      match ← ctx.env.readReplicaStream path with
      | none => pure ()
      | some stream => ctx.env.remoteWriteFile conflictPath entry.contentType stream

def keepBoth (path conflictPath : JsString) : Run Unit := do
  if ← ctx.preserveConflictingCollection path conflictPath then pure ()
  else do
    ctx.copyDown path conflictPath
    ctx.copyUp path conflictPath

def replacePreserved (path conflictPath : JsString) (contentType : Option JsString)
    (entry : PlanSide) (remoteIsCollection : Bool) : Run Unit :=
  if remoteIsCollection then do
    ctx.env.localMkdir conflictPath
    ctx.env.localUnlink path false
    ctx.env.localMkdir path
  else do
    match ← ctx.env.readReplicaStream path with
    | none => pure ()
    | some stream =>
      ctx.env.localWrite conflictPath entry.contentType stream
      ctx.remoteToLocal path contentType

def pullAndPreserve (path conflictPath : JsString) (contentType : Option JsString) : Run Unit := do
  let remoteEntry ← ctx.remoteEntryOrStat path
  let remoteIsCollection := remoteEntry.any PlanSide.isCollection
  match ctx.localEntry path with
  | none =>
    if remoteIsCollection then ctx.env.localMkdir path else ctx.remoteToLocal path contentType
  | some entry =>
    if entry.isCollection then
      if remoteIsCollection then ctx.env.localMkdir path else ctx.remoteToLocal path contentType
    else ctx.replacePreserved path conflictPath contentType entry remoteIsCollection

def compareContent (path : JsString) (winner : Side) : Run ℕ := do
  let localBytes ← ctx.env.readReplicaBytes path
  let remoteBytes ← ctx.env.readFile path
  match localBytes, remoteBytes with
  | none, _ => .throw (js "the local file " ++ path ++ js " could not be read")
  | some _, none => .throw (js "the remote file " ++ path ++ js " could not be read")
  | some a, some b =>
    if ctx.env.sha256HexOfBytes a = ctx.env.sha256HexOfBytes b then pure 0
    else match winner with
      | .localSide => ctx.pushTransfer path
      | .remoteSide => ctx.pullTransfer path ((ctx.remoteEntry path).bind PlanSide.contentType)

end TransferContext

end DurableDav.Replication
