import DurableDav.Library.Threads
import DurableDav.Dav.ReplicaStreams

namespace DurableDav.Dav

open Library
open Replication (Bytes isValidInnerPath parentOf)

/-! ### What is worked at between two awaits -/

inductive Work
  -- no file is made or written, and none is marked
  | other
  | creates (path : JsString)
  | marks (path : JsString)
  | writes (path : JsString)
  | appends (path : JsString) (fits : Bool)
  | records (path : JsString) (statements : List Statement)
  | unlocks (r : Request) (path : JsString)
  | moves (source target : JsString)

abbrev Task := Thread Env Session Failure Work

/-! ### PUT, COPY and MOVE -/

def putTask (r : Incoming) (path : JsString) (maxFileBytes : ℕ) : Task :=
  .checked .other (fun env => env.putAdmit r path) fun plan =>
    .checked (.writes plan.path) (fun env => env.putWrite plan maxFileBytes) fun _ =>
      .of (.records plan.path [.upsertNode plan.path]) (fun env => env.putRecord plan) fun _ => .done

structure CopyPlan where
  target : JsString
  isCollection : Bool
  destExists : Bool

namespace Env

variable (env : Env)

/-- All that a COPY does before the first byte is copied. -/
def copyAdmit (r : Request) (source : JsString) (bases : DavBases) : Serve (Except Response CopyPlan) :=
  match resolveDestination env.platform r bases.pathBase source with
  | none => pure (.error .badRequest)
  | some target => do
    match ← env.assertLock r target with
    | some response => pure (.error response)
    | none => do
      let sourceStat ← env.statInner source
      if !sourceStat.found then pure (.error .notFound)
      else if ← env.orphaned target then pure (.error .conflict)
      else do
        let targetStat ← env.statInner target
        if !r.isOverwriteAllowed env.platform ∧ targetStat.found then pure (.error .preconditionFailed)
        else if sourceStat.isDirectory ∧ r.depth.getD (js "infinity") ≠ js "0" ∧
            r.depth.getD (js "infinity") ≠ js "infinity" then pure (.error .badRequest)
        else match ← env.removeExisting r target targetStat.found with
          | some response => pure (.error response)
          | none => pure (.ok ⟨target, sourceStat.isDirectory, targetStat.found⟩)

/-- The collection that is copied into. -/
def copyRoot (source target : JsString) (destExists : Bool) : Serve (Except Response Unit) := do
  let made ← (env.mkdir target).attempt
  if made.toOption.isNone ∧ !destExists then pure (.error .conflict)
  else do
    env.copyMeta source target true
    pure (.ok ())

def copyCollectionAt (child copy : JsString) : Serve Unit := do
  let _ ← (env.mkdir copy).attempt
  env.copyMeta child copy true

def moveInto (r : Request) (target : JsString) (isCollection : Bool) : Serve (Except Response CopyPlan) := do
  if ← env.orphaned target then pure (.error .conflict)
  else do
    let targetStat ← env.statInner target
    if !r.isOverwriteAllowed env.platform ∧ targetStat.found then pure (.error .preconditionFailed)
    else match ← env.removeExisting r target targetStat.found with
      | some response => pure (.error response)
      | none => pure (.ok ⟨target, isCollection, targetStat.found⟩)

/-- All that a MOVE does before the tree is renamed. -/
def moveAdmit (r : Request) (source : JsString) (bases : DavBases) : Serve (Except Response CopyPlan) :=
  match resolveDestination env.platform r bases.pathBase source with
  | none => pure (.error .badRequest)
  | some target => do
    match ← env.assertLock r source with
    | some response => pure (.error response)
    | none =>
      match ← env.assertLock r target with
      | some response => pure (.error response)
      | none => do
        let sourceStat ← env.statInner source
        if !sourceStat.found then pure (.error .notFound)
        else if r.depth.any (fun d => env.platform.toLowerCase (trim d) ≠ js "infinity") then pure (.error .badRequest)
        else if sourceStat.isDirectory then do
          match ← env.refuseSubtree r source with
          | some response => pure (.error response)
          | none => env.moveInto r target true
        else env.moveInto r target false

/-- The tree is renamed, and what is recorded of it. -/
def carry (source target : JsString) : Serve Unit := do
  env.rename source target
  env.renameCascade source target

end Env

def copyFileTask (source target : JsString) (rest : Task) : Task :=
  .next (.writes target) (fun r => r.toOption.isSome) (fun env => env.copyBytes source target) fun
    | .ok _ => .of (.records target [.selectNode source, .upsertNode target]) (fun env => env.copyMeta source target false) fun _ => rest
    -- the failure is reported, and the next one is copied
    | .error _ => rest

def copyChildrenTask (source target : JsString) : List JsString → Task
  | [] => .done
  | name :: rest =>
    let child := Env.childInner source name
    let copy := Env.targetOf source target child
    .of .other (fun env => env.statInner child) fun st =>
      if st.isDirectory then .of .other (fun env => env.copyCollectionAt child copy) fun _ => copyChildrenTask source target rest
      else copyFileTask child copy (copyChildrenTask source target rest)

def copyTask (r : Request) (source : JsString) (bases : DavBases) : Task :=
  .checked .other (fun env => env.copyAdmit r source bases) fun plan =>
    if plan.isCollection then
      .checked .other (fun env => env.copyRoot source plan.target plan.destExists) fun _ =>
        if r.depth.getD (js "infinity") = js "infinity" then
          .of .other (fun env => env.listRecursive source) (copyChildrenTask source plan.target)
        else .done
    else copyFileTask source plan.target .done

def moveTask (r : Request) (source : JsString) (bases : DavBases) : Task :=
  .checked .other (fun env => env.moveAdmit r source bases) fun plan =>
    .of (.moves source plan.target) (fun env => env.carry source plan.target) fun _ => .done

/-! ### LOCK -/

/-- The checks of a LOCK, and the empty file where there is nothing. -/
def Env.lockEnsure (env : Env) (r : Incoming) (path : JsString) : Serve (Except Response (Env.LockPlan × Env.Lockable)) := do
  match ← env.lockAdmit r path with
  | .error response => pure (.error response)
  | .ok plan => do
    let lockable ← env.ensureLockableResource plan
    pure (.ok (plan, lockable))

def hasCreated : Except Failure (Except Response (Env.LockPlan × Env.Lockable)) → Bool
  | .ok (.ok (_, .created)) => true
  | _ => false

def grantTask (uuid : Uuid) (bases : DavBases) (plan : Env.LockPlan) : Task :=
  .of .other (fun env => env.lockGrant uuid bases plan) fun _ => .done

def lockTask (uuid : Uuid) (r : Incoming) (path : JsString) (bases : DavBases) : Task :=
  .next (.creates path) hasCreated (fun env => env.lockEnsure r path) fun
    | .ok (.ok (plan, .there)) => grantTask uuid bases plan
    | .ok (.ok (plan, .created)) => .of (.marks path) (fun env => env.recordLockNull path) fun _ => grantTask uuid bases plan
    | _ => .done

/-! ### The requests -/

def Exchange.task (x : Exchange) : Task :=
  if !isValidInnerPath x.path then .done
  else match x.verb with
    | .put maxFileBytes => putTask x.request x.path maxFileBytes
    | .delete => .of .other (fun env => env.handleDelete x.request.toRequest x.path) fun _ => .done
    | .mkcol => .of .other (fun env => env.handleMkcol x.request x.path) fun _ => .done
    | .proppatch => .of .other (fun env => env.handleProppatch x.request x.path x.bases) fun _ => .done
    | .copy => copyTask x.request.toRequest x.path x.bases
    | .move => moveTask x.request.toRequest x.path x.bases
    | .lock uuid => lockTask uuid x.request x.path x.bases
    | .unlock => .of (.unlocks x.request.toRequest x.path) (fun env => env.handleUnlock x.request.toRequest x.path) fun _ => .done

/-! ### The writes of a replication -/

namespace Env

variable (env : Env) (d : Device)

/-- The old file is gone and an empty one is there; the space that is used beside it. -/
def openData (path : JsString) (data : ReplicaData) : Serve ℕ := do
  let freed ← env.reclaimed path
  let s ← .read
  let spaceUsed := d.spaceUsed s.volume.files - freed
  if data.tooLarge d spaceUsed then .throw (.of "ENOSPC")
  else do
    env.replaceFile path
    pure spaceUsed

def appendPiece (path : JsString) (spaceUsed offset total : ℕ) (bytes : Bytes) : Serve Unit :=
  if d.size < spaceUsed + total + bytes.length then .throw (.of "ENOSPC")
  else env.write path bytes offset

/-- All that the copy of a replica does but the row of a file; what it is to record. -/
def replicaCopyBytes (source target : JsString) : Serve (Option (JsString × ℕ)) :=
  if source = [] ∨ target = [] ∨ !isValidInnerPath source ∨ !isValidInnerPath target then
    .throw (invalidPath "replication copy: invalid paths " source)
  else do
    let st ← env.statInner source
    if !st.found then .throw ⟨none, js "replication copy: " ++ source ++ js " does not exist"⟩
    else do
      let row ← env.readMeta source
      if st.isDirectory then do
        env.replicaMkdir target
        let props ← env.getDeadProperties source
        Act.each (env.copyProp target) props
        pure none
      else do
        let data ← env.read source
        env.replicaMkdir (getParentPath target)
        env.writeFile target data
        pure (some ((row.bind NodeRow.contentType).getD (js "application/octet-stream"), data.length))

end Env

def drainTask (d : Device) (path : JsString) (spaceUsed : ℕ) (rest : Task) : ℕ → ℕ → List Piece → Task
  | _, _, [] => rest
  | offset, total, .nothing :: pieces => drainTask d path spaceUsed rest offset total pieces
  | _, _, .failure e :: _ => .of (.appends path false) (fun _ => (.throw e : Serve Unit)) fun _ => .done
  | offset, total, .value bytes :: pieces => .of (.appends path (spaceUsed + total + bytes.length ≤ d.size))
      (fun env => env.appendPiece d path spaceUsed offset total bytes) fun _ =>
         drainTask d path spaceUsed rest (offset + bytes.length) (total + bytes.length) pieces

def streamTask (d : Device) (path : JsString) (contentType : Option JsString) (data : ReplicaData) : Task :=
  if path = [] ∨ !isValidInnerPath path then .done
  else .of .other (fun env => env.leadingTo path) fun _ =>
    .of (.writes path) (fun env => env.openData d path data) fun spaceUsed =>
      drainTask d path spaceUsed (.of (.records path [.upsertNode path]) (fun env => env.upsertFileNode path
        (contentType.getD (js "application/octet-stream")) (mintEtag data.byteLength env.now) env.now) fun _ => .done) 0 0 data.pieces

inductive ReplicaJob
  | mkdir (path : JsString)
  | write (d : Device) (path : JsString) (contentType : Option JsString) (data : ReplicaData)
  | unlink (path : JsString) (recursive : Bool)
  | copy (source target : JsString)

def ReplicaJob.task : ReplicaJob → Task
  | .mkdir path => .of .other (fun env => env.replicaMkdir path) fun _ => .done
  | .write d path contentType data => streamTask d path contentType data
  | .unlink path recursive => .of .other (fun env => env.replicaUnlink path recursive) fun _ => .done
  | .copy source target => .next (.writes target) (fun r => r.toOption.any Option.isSome) (fun env => env.replicaCopyBytes source target) fun
    | .ok (some (contentType, size)) => .of (.records target [.upsertNode target])
        (fun env => env.upsertFileNode target contentType (mintEtag size env.now) env.now) fun _ => .done
    | _ => .done

end DurableDav.Dav
