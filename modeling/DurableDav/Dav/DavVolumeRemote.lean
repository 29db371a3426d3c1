import DurableDav.Dav.ReplicaListing
import DurableDav.Dav.ReplicaRemoval
import DurableDav.Replication.DavHttpRemote

namespace DurableDav.Dav

open Library
open Replication (Bytes isValidInnerPath parentOf PlanSide ReplicaListing RemoteError RemoteListing)

/-! ### What a volume answers a sibling -/

structure ReplicaApplyResult where
  applied : ℕ
  failed : ℕ
  error : Option JsString

def truncatedErrorLength : ℕ := 300

def truncateReplicationReason (message : JsString) : JsString := message.take truncatedErrorLength

namespace Env

variable (env : Env)

/-- An operation that fails is counted, and the next one is applied; the first failure is reported. -/
def applyFrom : ReplicaApplyResult → List ReplicaOperation → Serve ReplicaApplyResult
  | result, [] => pure result
  | result, operation :: rest => do
    match ← (env.applyOne operation).attempt with
    | .ok _ => applyFrom { result with applied := result.applied + 1 } rest
    | .error e =>
      applyFrom { result with
        failed := result.failed + 1
        error := result.error.or (some (truncateReplicationReason e.message)) } rest

def applyReplicaOperations (operations : List ReplicaOperation) : Serve ReplicaApplyResult :=
  env.applyFrom ⟨0, 0, none⟩ operations

def readReplicaStream (path : JsString) : Serve (Option Bytes) :=
  if path = [] ∨ !isValidInnerPath path then pure none
  else do
    let st ← env.requireStatInner path
    if !st.found ∨ st.isDirectory then pure none
    else do
      match ← (env.read path).attempt with
      | .ok data => pure (some data)
      | .error _ => pure none

end Env

/-! ### The remote side of a replication between volumes -/

abbrev Sibling := Act Session RemoteError

structure DavVolumeRemote where
  root : JsString

namespace DavVolumeRemote

def of (remotePath : Option JsString) : DavVolumeRemote := ⟨stripSlashes (remotePath.getD [])⟩

variable (c : DavVolumeRemote) (env : Env)

def withRoot (remotePath : JsString) : Except RemoteError JsString :=
  if (remotePath.splitOn slash).any (fun segment => segment = js ".." ∨ segment = js ".") then
    .error (.unavailable (js "refusing to resolve a replication path containing \"..\": " ++ remotePath) none)
  else .ok (if c.root = [] then remotePath else if remotePath = [] then c.root else c.root ++ slash :: remotePath)

/-- What is done with the path in the volume, where there is one. -/
def rooted {α : Type} (path : JsString) (f : JsString → Sibling α) : Sibling α :=
  match c.withRoot path with
  | .ok inner => f inner
  | .error e => .throw e

def listChildren (innerPath : JsString) : Sibling ReplicaListing :=
  (env.listReplicaChildren innerPath).mapError fun e =>
    .unavailable (js "listing " ++ innerPath ++ js " on the sibling volume failed: " ++ e.message) none

def list (path : JsString) : Sibling RemoteListing := c.rooted path fun inner => do
  let listing ← listChildren env inner
  let volumePrefix := if inner = [] then [] else inner ++ [slash]
  let callerPrefix := if path = [] then [] else path ++ [slash]
  pure ⟨(listing.entries.filter (fun entry => entry.path ≠ inner)).map (fun entry =>
    { entry with path := callerPrefix ++ entry.path.drop volumePrefix.length }), listing.complete⟩

/-- A partial listing that did not reach the path says nothing about it. -/
def pick (path inner : JsString) (siblings : ReplicaListing) : Sibling (Option PlanSide) :=
  match siblings.entries.find? (fun entry => entry.path = inner) with
  | none =>
    if !siblings.complete then
      .throw (.unavailable (js "listing " ++ parentOf inner ++ js " on the sibling volume was incomplete") none)
    else pure none
  | some found => pure (some { found with path })

def stat (path : JsString) : Sibling (Option PlanSide) :=
  if path = [] then pure none
  else c.rooted path fun inner => do
    let siblings ← listChildren env (parentOf inner)
    pick path inner siblings

def readFile (path : JsString) : Sibling (Option Bytes) := c.rooted path fun inner =>
  (env.readReplicaStream inner).mapError fun e => .thrown e.message

/-- The one operation, and the error it is to be reported with. -/
def applies (operation : ReplicaOperation) (failure : JsString) : Sibling Unit := do
  let result ← (env.applyReplicaOperations [operation]).mapError fun e => .thrown e.message
  if 0 < result.failed then .throw (.unavailable (failure ++ result.error.getD (js "unknown error")) none)
  else pure ()

def writeFile (path : JsString) (body : Env.Payload) (contentType : Option JsString) : Sibling Unit :=
  if path = [] then .throw (.unavailable (js "cannot write to the replication root itself") none)
  else c.rooted path fun inner =>
    applies env (.write inner contentType body) (js "writing " ++ inner ++ js " to the sibling volume failed: ")

def makeCollection (path : JsString) : Sibling Unit :=
  if path = [] then pure ()
  else c.rooted path fun inner =>
    applies env (.mkdir inner) (js "creating " ++ inner ++ js " on the sibling volume failed: ")

def remove (path : JsString) (recursive : Bool) : Sibling Unit :=
  if path = [] then .throw (.unavailable (js "refusing to delete the replication root") none)
  else c.rooted path fun inner =>
    applies env (.unlink inner recursive) (js "deleting " ++ inner ++ js " from the sibling volume failed: ")

end DavVolumeRemote

end DurableDav.Dav
