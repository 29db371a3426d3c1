import DurableDav.Dav.Reading

namespace DurableDav.Dav

open Library
open Replication (Bytes isValidInnerPath parentOf)

/-! ### What a replication writes into a volume -/

namespace Env

variable (env : Env)

def mkdirAll (path : JsString) : Serve Unit := env.call (.mkdirAll path) do
  let s ← .read
  let names := (prefixes slash path).filter (fun q => q ≠ [])
  if names.any (fun q => s.volume.files.found q ∧ !s.volume.files.isDirectory q) then .throw (.of "ENOTDIR")
  else modifyFiles (fun f => (names.filter (fun q => !f.found q)).foldl (fun f q => Store.put f q ⟨none, env.now⟩) f)

/-- Removes a collection; unless all in it is to go as well it has to be empty. -/
def removeCollection (path : JsString) (recursive : Bool) : Serve Unit :=
  if recursive then env.rmdir path
  else env.call (.rmdir path) do
    let s ← .read
    if !s.volume.files.isDirectory path then .throw (.of "ENOTDIR")
    else if s.volume.files.below path ≠ [] then .throw (.of "ENOTEMPTY")
    else modifyFiles (fun f => Store.remove f path)

def invalidPath (what : String) (path : JsString) : Failure := ⟨none, js what ++ jsonStringify path⟩

/-- The rows of the collections that lead to a path. -/
def upsertAncestors (parent : JsString) : Serve Unit :=
  if parent = [] then pure ()
  else do
    let _ ← (env.mkdirAll parent).attempt
    Act.each env.upsertCollectionNode (prefixes slash parent)

def replicaMkdir (path : JsString) : Serve Unit :=
  if path = [] ∨ !isValidInnerPath path then .throw (invalidPath "replication mkdir: invalid path " path)
  else do
    env.upsertAncestors (getParentPath path)
    let _ ← (env.mkdir path).attempt
    env.upsertCollectionNode path

/-- What there is to write: the bytes at once, or a stream whose length is not known. -/
structure Payload where
  bytes : Bytes
  buffered : Bool

def Payload.size (d : Payload) : ℕ := if d.buffered then d.bytes.length else 0

def replicaWrite (path : JsString) (contentType : Option JsString) (data : Payload) : Serve Unit :=
  if path = [] ∨ !isValidInnerPath path then .throw (invalidPath "replication write: invalid path " path)
  else do
    if getParentPath path = [] then pure () else env.replicaMkdir (getParentPath path)
    env.writeFile path data.bytes
    env.upsertFileNode path (contentType.getD (js "application/octet-stream")) (mintEtag data.size env.now) env.now

/-- The names below a collection are taken for paths. -/
def unlinkEach : List JsString → Serve Unit
  | [] => pure ()
  | child :: rest => do
    let st ← env.statInner child
    if st.found ∧ !st.isDirectory then do
      let _ ← (env.unlink child).attempt
      unlinkEach rest
    else unlinkEach rest

def replicaUnlink (path : JsString) (recursive : Bool) : Serve Unit :=
  if path = [] ∨ !isValidInnerPath path then .throw (invalidPath "replication unlink: invalid path " path)
  else do
    let st ← env.statInner path
    if !st.found then env.deleteNodeCascade path
    else if st.isDirectory then do
      if recursive then do
        let names ← env.listRecursive path
        env.unlinkEach names
      else pure ()
      env.removeCollection path recursive
      env.deleteNodeCascade path
    else do
      env.unlink path
      env.deleteNodeCascade path

/-- A dead property follows a collection, and makes a row for it. -/
def copyProp (target : JsString) (p : DeadProperty) : Serve Unit := do
  env.exec (.upsertNode target)
    (modifyVolume (fun v => v.upsertNode target ⟨true, none, none, env.now, env.now, false⟩))
  env.setDeadProperty target p

def replicaCopy (source target : JsString) : Serve Unit :=
  if source = [] ∨ target = [] ∨ !isValidInnerPath source ∨ !isValidInnerPath target then
    .throw (invalidPath "replication copy: invalid paths " source)
  else do
    let st ← env.statInner source
    if !st.found then .throw ⟨none, js "replication copy: " ++ source ++ js " does not exist"⟩
    else do
      let row ← env.readMeta source
      if st.isDirectory then do
        env.replicaMkdir target
        let props ← env.getDeadProperties source
        Act.each (env.copyProp target) props
      else do
        let data ← env.read source
        env.replicaMkdir (getParentPath target)
        env.writeFile target data
        env.upsertFileNode target ((row.bind NodeRow.contentType).getD (js "application/octet-stream"))
          (mintEtag data.length env.now) env.now

end Env

inductive ReplicaOperation
  | mkdir (path : JsString)
  | write (path : JsString) (contentType : Option JsString) (data : Env.Payload)
  | unlink (path : JsString) (recursive : Bool)
  | copy (source target : JsString)

def Env.applyOne (env : Env) : ReplicaOperation → Serve Unit
  | .mkdir path => env.replicaMkdir path
  | .write path contentType data => env.replicaWrite path contentType data
  | .unlink path recursive => env.replicaUnlink path recursive
  | .copy source target => env.replicaCopy source target

/-! ### Copying between volumes -/

structure VolumeEntry where
  path : JsString
  isCollection : Bool
  contentType : Option JsString
  etag : Option JsString
  data : Bytes
  props : List DeadProperty

def Env.writeContent (env : Env) (e : VolumeEntry) : Serve Unit :=
  if e.isCollection then do
    let _ ← (env.mkdir e.path).attempt
    env.upsertCollectionNode e.path
  else do
    env.writeFile e.path e.data
    env.upsertFileNode e.path (e.contentType.getD (js "application/octet-stream"))
      (e.etag.getD (mintEtag e.data.length env.now)) env.now

def Env.writeEntry (env : Env) (e : VolumeEntry) : Serve Unit :=
  if !isValidInnerPath e.path ∨ e.path = [] then .throw (Env.invalidPath "writeVolumeEntry: invalid volume entry path " e.path)
  else do
    env.upsertAncestors (getParentPath e.path)
    env.writeContent e
    Act.each (fun p => do
      let _ ← (env.setDeadProperty e.path p).attempt
      pure ()) e.props

end DurableDav.Dav
