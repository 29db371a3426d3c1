import DurableDav.Dav.Conditional

namespace DurableDav.Dav

open Library
open Replication (Bytes isValidInnerPath parentOf)

namespace Env

variable (env : Env)

/-! ### Metadata of one path -/

/-- A row that is absent and one that cannot be read are answered alike. -/
def readMeta (path : JsString) : Serve (Option NodeRow) := do
  match ← (env.exec (.selectNode path) do
      let s ← .read
      pure (Store.get s.volume.nodes path)).attempt with
  | .ok row => pure row
  | .error _ => pure none

def upsertNode (path : JsString) (row : NodeRow) : Serve Unit := do
  let _ ← (env.exec (.upsertNode path) (modifyVolume (fun v => v.upsertNode path row))).attempt
  pure ()

def upsertFileNode (path contentType etag : JsString) (crtime : ℕ) : Serve Unit :=
  env.upsertNode path ⟨false, some contentType, some etag, env.now, crtime, false⟩

def upsertCollectionNode (path : JsString) : Serve Unit :=
  env.upsertNode path ⟨true, none, none, env.now, env.now, false⟩

/-! ### PUT -/

/-- What a PUT remembers while it waits for its body. -/
structure PutPlan where
  request : Incoming
  path : JsString
  existed : Bool
  previous : Option NodeRow

/-- What a PUT holds its conditions against. -/
def putRepresentation (previous : Option NodeRow) : Representation :=
  ⟨previous.bind NodeRow.etag, previous.map NodeRow.mtime⟩

/-- The checks made before the body is read. -/
def putAdmit (r : Incoming) (path : JsString) : Serve (Except Response PutPlan) :=
  if path = [] ∨ r.toRequest.endsInSlash env.platform then pure (.error .methodNotAllowed)
  else do
    match ← env.assertLock r.toRequest path with
    | some response => pure (.error response)
    | none =>
      if ← env.orphaned path then pure (.error .conflict)
      else do
        let existing ← env.statInner path
        if existing.found ∧ existing.isDirectory then pure (.error .methodNotAllowed)
        else do
          let previous ← env.readMeta path
          match r.check env.platform (putRepresentation previous) false with
          | some verdict => pure (.error verdict.response)
          | none => pure (.ok ⟨r, path, existing.found, previous⟩)

/-- The bytes are written, once the body is there. -/
def putWrite (plan : PutPlan) (maxFileBytes : ℕ) : Serve (Except Response Unit) :=
  match plan.request.readCappedBody maxFileBytes with
  | none => pure (.error .payloadTooLarge)
  | some bytes => do
    match ← (env.writeFile plan.path bytes).attempt with
    | .error _ => pure (.error .insufficientStorage)
    | .ok _ => pure (.ok ())

def putRecord (plan : PutPlan) : Serve Response := do
  let contentType := plan.request.contentType.getD (js "application/octet-stream")
  let crtime := (plan.previous.map NodeRow.crtime).getD env.now
  env.upsertFileNode plan.path contentType (mintEtag plan.request.body.length env.now) crtime
  pure (if plan.existed then .noContent else .createdEmpty)

def handlePut (r : Incoming) (path : JsString) (maxFileBytes : ℕ) : Serve Response := do
  match ← env.putAdmit r path with
  | .error response => pure response
  | .ok plan =>
    match ← env.putWrite plan maxFileBytes with
    | .error response => pure response
    | .ok _ => env.putRecord plan

/-! ### MKCOL -/

def handleMkcol (r : Incoming) (path : JsString) : Serve Response :=
  match r.readCappedBody maxXmlBodyBytes with
  | none => pure .payloadTooLarge
  | some bytes =>
    if bytes ≠ [] then pure .unsupportedMediaType
    else if path = [] then pure .methodNotAllowed
    else do
      match ← env.assertLock r.toRequest path with
      | some response => pure response
      | none => do
        let st ← env.statInner path
        if st.found then pure .methodNotAllowed
        else if ← env.orphaned path then pure .conflict
        else match ← (env.mkdir path).attempt with
          | .error _ => pure .conflict
          | .ok _ => do
            env.upsertCollectionNode path
            pure .createdEmpty

end Env

end DurableDav.Dav
