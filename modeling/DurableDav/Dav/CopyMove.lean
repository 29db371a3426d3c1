import DurableDav.Dav.Repository

namespace DurableDav.Dav

open Library
open Replication (Bytes isValidInnerPath)

namespace Env

variable (env : Env)

/-- Is a descendant locked by someone else? -/
def anyLocked (path : JsString) (tokens : List JsString) : List JsString → Serve Bool
  | [] => pure false
  | name :: rest => do
    let active ← env.activeTokensForPath (childInner path name) tokens
    if active = [] then anyLocked path tokens rest else pure true

/-- Why a whole collection may not be removed or moved, if there is a reason. -/
def refuseSubtree (r : Request) (path : JsString) : Serve (Option Response) := do
  match ← (env.requireRecursive path).attempt with
  | .error _ => pure (some .internalServerError)
  | .ok names =>
    if ← env.anyLocked path (r.getRequestLockTokens env.platform) names then pure (some .locked) else pure none

def deleteCollection (r : Request) (path : JsString) : Serve Response := do
  match ← env.refuseSubtree r path with
  | some response => pure response
  | none =>
    match ← (env.rmdir path).attempt with
    | .error _ => pure .internalServerError
    | .ok _ => do
      env.deleteCascade path
      pure .noContent

def deleteFile (path : JsString) : Serve Response := do
  match ← (env.unlink path).attempt with
  | .error _ => pure .notFound
  | .ok _ => do
    env.deleteCascade path
    pure .noContent

def handleDelete (r : Request) (path : JsString) : Serve Response :=
  if path = [] then pure .forbidden
  else do
    let st ← env.statInner path
    if !st.found then pure .notFound
    else match ← env.assertLock r path with
      | some response => pure response
      | none => if st.isDirectory then env.deleteCollection r path else env.deleteFile path

def deleteDestination (r : Request) (destination : JsString) : Serve (Option Response) := do
  let response ← env.handleDelete r.forwardLockHeaders destination
  pure (if response.ok then none else some response)

def removeExisting (r : Request) (destination : JsString) (destExists : Bool) : Serve (Option Response) :=
  if destExists then env.deleteDestination r destination else pure none

/-! ### COPY -/

def copyFailure (bases : DavBases) (target : JsString) (e : Failure) : MultiStatusFailure :=
  ⟨hrefOf env.platform bases.hrefBase target false, js "HTTP/1.1 507 Insufficient Storage", some e.message⟩

def copyBytes (source target : JsString) : Serve Unit := do
  let data ← env.read source
  env.writeFile target data

def targetOf (source target child : JsString) : JsString := target ++ slash :: child.drop (source.length + 1)

/-- One descendant of the source, and why it could not be copied. -/
def copyChild (bases : DavBases) (source target name : JsString) : Serve (Option MultiStatusFailure) := do
  let child := childInner source name
  let copy := targetOf source target child
  let st ← env.statInner child
  if st.isDirectory then do
    -- the metadata is copied whether there is a collection or not
    let _ ← (env.mkdir copy).attempt
    env.copyMeta child copy true
    pure none
  else
    match ← (env.copyBytes child copy).attempt with
    | .error e => pure (some (env.copyFailure bases copy e))
    | .ok _ => do
      env.copyMeta child copy false
      pure none

def copyChildren (bases : DavBases) (source target : JsString) : List JsString → Serve (List MultiStatusFailure)
  | [] => pure []
  | name :: rest => do
    let failure ← env.copyChild bases source target name
    let failures ← copyChildren bases source target rest
    pure (failure.toList ++ failures)

def doneResponse (bases : DavBases) (target : JsString) (isCollection destExists : Bool) : Response :=
  if destExists then .noContent else .created (hrefOf env.platform bases.hrefBase target isCollection)

def copyDescendants (bases : DavBases) (source target : JsString) (destExists : Bool) : Serve Response := do
  let names ← env.listRecursive source
  let failures ← env.copyChildren bases source target names
  pure (if failures = [] then env.doneResponse bases target true destExists else .multistatus failures)

def makeTarget (bases : DavBases) (depth source target : JsString) (destExists : Bool) : Serve Response := do
  let made ← (env.mkdir target).attempt
  if made.toOption.isNone ∧ !destExists then pure .conflict
  else do
    env.copyMeta source target true
    if depth = js "infinity" then env.copyDescendants bases source target destExists
    else pure (env.doneResponse bases target true destExists)

def copyCollection (r : Request) (bases : DavBases) (source target : JsString) (destExists : Bool) : Serve Response :=
  let depth := r.depth.getD (js "infinity")
  if depth ≠ js "0" ∧ depth ≠ js "infinity" then pure .badRequest
  else do
    match ← env.removeExisting r target destExists with
    | some response => pure response
    | none => env.makeTarget bases depth source target destExists

def copyFailed (e : Failure) : Response := if e.code = some (js "ENOSPC") then .insufficientStorage else .notFound

def copyFile (r : Request) (bases : DavBases) (source target : JsString) (destExists : Bool) : Serve Response := do
  match ← env.removeExisting r target destExists with
  | some response => pure response
  | none =>
    match ← (env.copyBytes source target).attempt with
    | .error e => pure (copyFailed e)
    | .ok _ => do
      env.copyMeta source target false
      pure (env.doneResponse bases target false destExists)

/-- Where the parent of a destination is no collection. -/
def orphaned (target : JsString) : Serve Bool :=
  if getParentPath target = [] then pure false
  else do
    let st ← env.statInner (getParentPath target)
    pure !st.isDirectory

def handleCopy (r : Request) (source : JsString) (bases : DavBases) : Serve Response :=
  match resolveDestination env.platform r bases.pathBase source with
  | none => pure .badRequest
  | some target => do
    match ← env.assertLock r target with
    | some response => pure response
    | none => do
      let sourceStat ← env.statInner source
      if !sourceStat.found then pure .notFound
      else if ← env.orphaned target then pure .conflict
      else do
        let targetStat ← env.statInner target
        if !r.isOverwriteAllowed env.platform ∧ targetStat.found then pure .preconditionFailed
        else if sourceStat.isDirectory then env.copyCollection r bases source target targetStat.found
        else env.copyFile r bases source target targetStat.found

/-! ### MOVE -/

def moveOver (r : Request) (bases : DavBases) (source target : JsString) (isCollection destExists : Bool) :
    Serve Response := do
  match ← env.removeExisting r target destExists with
  | some response => pure response
  | none =>
    match ← (env.rename source target).attempt with
    | .error _ => pure .internalServerError
    | .ok _ => do
      env.renameCascade source target
      pure (env.doneResponse bases target isCollection destExists)

def moveTo (r : Request) (bases : DavBases) (source target : JsString) (isCollection : Bool) : Serve Response := do
  if ← env.orphaned target then pure .conflict
  else do
    let targetStat ← env.statInner target
    if !r.isOverwriteAllowed env.platform ∧ targetStat.found then pure .preconditionFailed
    else env.moveOver r bases source target isCollection targetStat.found

def handleMove (r : Request) (source : JsString) (bases : DavBases) : Serve Response :=
  match resolveDestination env.platform r bases.pathBase source with
  | none => pure .badRequest
  | some target => do
    match ← env.assertLock r source with
    | some response => pure response
    | none =>
      match ← env.assertLock r target with
      | some response => pure response
      | none => do
        let sourceStat ← env.statInner source
        if !sourceStat.found then pure .notFound
        else if r.depth.any (fun d => env.platform.toLowerCase (trim d) ≠ js "infinity") then pure .badRequest
        else if sourceStat.isDirectory then do
          match ← env.refuseSubtree r source with
          | some response => pure response
          | none => env.moveTo r bases source target true
        else env.moveTo r bases source target false

/-! ### The request -/

inductive Method
  | delete
  | copy
  | move
  deriving DecidableEq

def dispatch (method : Method) (r : Request) (path : JsString) (bases : DavBases) : Serve Response :=
  if !isValidInnerPath path then pure .badRequest
  else match method with
    | .delete => env.handleDelete r path
    | .copy => env.handleCopy r path bases
    | .move => env.handleMove r path bases

def fetch (method : Method) (r : Request) (path : JsString) (bases : DavBases) : Serve Response := do
  match ← (env.dispatch method r path bases).attempt with
  | .ok response => pure response
  | .error _ => pure .internalServerError

end Env

end DurableDav.Dav
