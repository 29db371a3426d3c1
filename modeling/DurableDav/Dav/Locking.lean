import DurableDav.Dav.Writing

namespace DurableDav.Dav

open Library
open Replication (Bytes isValidInnerPath parentOf)

/-! ### Rows of the lock table -/

namespace Volume

variable (v : Volume)

def locksAt (now : ℕ) (path : JsString) : List (JsString × LockRow) :=
  v.locks.filter (fun e => e.2.path = path ∧ now < e.2.expiresAt)

/-- The locks that keep a LOCK off a path: a shared one on the path itself may be joined by another. -/
def blockingLock (now : ℕ) (tokens : List JsString) (path : JsString) (ignoreSharedOnTarget : Bool) :
    List (JsString × LockRow) :=
  (v.blocking now tokens path).filter
    (fun e => !(e.2.path = path ∧ ignoreSharedOnTarget ∧ e.2.scope = js "shared"))

def insertLock (token : JsString) (row : LockRow) : Volume := { v with locks := Store.put v.locks token row }

/-- A lock is extended where it is; its path does not change. -/
def updateLock (d : LockDetails) : Volume :=
  { v with locks := v.locks.map (fun e => if e.1 = d.token then
      (e.1, ⟨e.2.path, d.scope.text, d.depth.text, d.owner, d.timeout, d.expiresAt, d.root⟩) else e) }

def deleteLock (token : JsString) : Volume := { v with locks := Store.remove v.locks token }

end Volume

namespace Env

variable (env : Env)

def assertLockSharing (r : Request) (path : JsString) (ignoreSharedOnTarget : Bool) : Serve (Option Response) :=
  if r.hasAlwaysFalseIfCondition env.platform then pure (some .preconditionFailed)
  else env.exec (.selectLocks path) do
    let s ← .read
    if s.volume.blockingLock env.now (r.getRequestLockTokens env.platform) path ignoreSharedOnTarget = [] then pure none
    else pure (some .locked)

/-- The locks on exactly one path; what cannot be read counts as none. -/
def readLocks (path : JsString) : Serve (List LockDetails) := do
  match ← (env.exec (.readLocks path) do
      let s ← .read
      pure ((s.volume.locksAt env.now path).filterMap (fun e => lockDetailsFromRow env.now e.1 e.2 e.2.root))).attempt with
  | .ok locks => pure locks
  | .error _ => pure []

structure Refreshable where
  path : JsString
  details : LockDetails

def refreshableAmong (path : JsString) (tokens : List JsString) : List JsString → Serve (Option Refreshable)
  | [] => pure none
  | cur :: rest => do
    let details ← env.exec (.readLocks cur) do
      let s ← .read
      let hit := (s.volume.locksAt env.now cur).find? (fun e => e.1 ∈ tokens ∧ (cur = path ∨ e.2.depth = js "infinity"))
      pure (hit.bind (fun e => lockDetailsFromRow env.now e.1 e.2 e.2.root))
    match details with
    | some details => pure (some ⟨cur, details⟩)
    | none => refreshableAmong path tokens rest

def findRefreshableLock (path : JsString) (tokens : List JsString) : Serve (Option Refreshable) := do
  match ← (env.refreshableAmong path tokens (ancestorsOf path)).attempt with
  | .ok found => pure found
  | .error _ => pure none

/-- Is a descendant locked in a manner that conflicts with the scope that is asked for? -/
def anyConflicting (path : JsString) (tokens : List JsString) (scope : LockScope) : List JsString → Serve Bool
  | [] => pure false
  | name :: rest => do
    let active ← env.activeTokensForPath (childInner path name) tokens
    if active.all (fun e => scope = .shared ∧ e.2.scope ≠ js "exclusive") then anyConflicting path tokens scope rest
    else pure true

def checkDescendantConflicts (r : Request) (path : JsString) (depthHeader : Option LockDepth) (scope : LockScope) :
    Serve (Option Response) :=
  if depthHeader ≠ some .infinity then pure none
  else do
    let st ← env.statInner path
    if !st.isDirectory then pure none
    else match ← (env.requireRecursive path).attempt with
      | .error _ => pure (some .internalServerError)
      | .ok names =>
        if ← env.anyConflicting path (r.getRequestLockTokens env.platform) scope names then pure (some .locked)
        else pure none

/-- A lock row of a resource that exists only to hold the lock. -/
def recordLockNull (path : JsString) : Serve Unit :=
  env.upsertNode path ⟨false, none, none, env.now, env.now, true⟩

def undoCreation (path : JsString) : Serve Unit := do
  let _ ← (do
    env.unlink path
    env.deleteCascade path).attempt
  pure ()

def rejectsInfinityDepth (path : JsString) (depthHeader : Option LockDepth) : Serve Bool :=
  if depthHeader ≠ some .infinity then pure false
  else do
    let st ← env.statInner path
    pure !st.isDirectory

def checkScopeConflict (path : JsString) (scope : LockScope) (existing : Option LockDetails) : Serve (Option Response) :=
  if existing.isSome then pure none
  else do
    let current ← env.readLocks path
    if scope = .exclusive ∧ current ≠ [] ∨ scope = .shared ∧ current.any (fun d => d.scope = .exclusive) then
      pure (some .locked)
    else pure none

def resolveDepth (existing : Option LockDetails) (targetIsCollection : Bool) (depthHeader : Option LockDepth) : LockDepth :=
  (existing.map LockDetails.depth).getD (determineLockDepth targetIsCollection depthHeader)

/-! ### LOCK -/

/-- What a LOCK remembers between its checks and the writing of its row. -/
structure LockPlan where
  request : Incoming
  path : JsString
  parsed : LockRequest
  wasPresent : Bool
  existing : Option LockDetails
  activePath : JsString

/-- A lock is refreshed where its resource is there, and taken otherwise. -/
def refreshTarget (r : Incoming) (path : JsString) (parsed : LockRequest) (wasPresent : Bool) : Serve LockPlan :=
  if parsed.body ≠ [] then pure ⟨r, path, parsed, wasPresent, none, path⟩
  else do
    match ← env.findRefreshableLock path parsed.depthTokens with
    | some found => pure (if wasPresent then ⟨r, path, parsed, wasPresent, some found.details, found.path⟩
        else ⟨r, path, parsed, wasPresent, none, path⟩)
    | none => pure ⟨r, path, parsed, wasPresent, none, path⟩

/-- The checks of a LOCK, made at once when its body is there. -/
def lockAdmit (r : Incoming) (path : JsString) : Serve (Except Response LockPlan) :=
  match parseLockRequest env.platform env.now r with
  | .error response => pure (.error response)
  | .ok parsed => do
    match ← env.assertLockSharing r.toRequest path (parsed.body ≠ [] ∧ parsed.requestedScope = .shared) with
    | some response => pure (.error response)
    | none =>
      match ← env.checkDescendantConflicts r.toRequest path parsed.depthHeader parsed.requestedScope with
      | some response => pure (.error response)
      | none => do
        let st ← env.statInner path
        let plan ← env.refreshTarget r path parsed st.found
        pure (.ok plan)

inductive Lockable
  | there
  | created
  | refused (response : Response)

/-- There has to be something to take a lock on; where there is nothing an empty file is written. -/
def ensureLockableResource (plan : LockPlan) : Serve Lockable := do
  let st ← env.statInner plan.path
  if st.found then pure .there
  else if plan.parsed.body = [] then pure (.refused .badRequest)
  else if ← env.orphaned plan.path then pure (.refused .conflict)
  else if plan.request.toRequest.endsInSlash env.platform then pure (.refused .conflict)
  else match ← (env.writeFile plan.path []).attempt with
    | .error _ => pure (.refused .conflict)
    | .ok _ => pure .created

def writeLock (uuid : Uuid) (existing : Option LockDetails) (path : JsString) (d : LockDetails) : Serve Unit :=
  match existing with
  | some _ => env.exec (.updateLock d.token) (modifyVolume (fun v => v.updateLock d))
  | none => env.exec (.insertLock uuid.val) do
    let s ← .read
    if (Store.get s.volume.locks uuid.val).isSome then .throw (.of "UNIQUE constraint failed")
    else modifyVolume (fun v => v.insertLock uuid.val
      ⟨path, d.scope.text, d.depth.text, d.owner, d.timeout, d.expiresAt, d.root⟩)

def lockResponse (d : LockDetails) (refreshed : Bool) : Response :=
  ⟨if refreshed then 200 else 201, .text (js "<?xml version=\"1.0\" encoding=\"utf-8\"?>\n<prop xmlns=\"DAV:\"><lockdiscovery>" ++
    getLockDiscovery [d] ++ js "</lockdiscovery></prop>"), none⟩

/-- The row is written at last, when the resource is there. -/
def lockGrant (uuid : Uuid) (bases : DavBases) (plan : LockPlan) : Serve Response := do
  match ← env.checkScopeConflict plan.activePath plan.parsed.requestedScope plan.existing with
  | some response => pure response
  | none => do
    let st ← env.statInner plan.activePath
    if ← env.rejectsInfinityDepth plan.activePath plan.parsed.depthHeader then do
      if plan.wasPresent then pure ()
      else env.undoCreation plan.path
      pure .badRequest
    else do
      let rootStat ← env.statInner plan.activePath
      let d : LockDetails := {
        token := (plan.existing.map LockDetails.token).getD uuid.val
        owner := plan.parsed.owner.or (plan.existing.bind LockDetails.owner)
        scope := (plan.existing.map LockDetails.scope).getD plan.parsed.requestedScope
        depth := resolveDepth plan.existing st.isDirectory plan.parsed.depthHeader
        timeout := plan.parsed.timeout.timeout
        expiresAt := plan.parsed.timeout.expiresAt
        root := hrefOf env.platform bases.hrefBase plan.activePath rootStat.isDirectory }
      match ← (env.writeLock uuid plan.existing plan.activePath d).attempt with
      | .error _ => pure .internalServerError
      | .ok _ => pure (lockResponse d plan.existing.isSome)

def handleLock (uuid : Uuid) (r : Incoming) (path : JsString) (bases : DavBases) : Serve Response := do
  match ← env.lockAdmit r path with
  | .error response => pure response
  | .ok plan =>
    match ← env.ensureLockableResource plan with
    | .refused response => pure response
    | .there => env.lockGrant uuid bases plan
    | .created => do
      env.recordLockNull path
      env.lockGrant uuid bases plan

/-! ### UNLOCK -/

def isLockNull (path : JsString) : Serve Bool := do
  let row ← env.readMeta path
  pure (row.any NodeRow.lockNull)

/-- The lock is looked up among those on the path, and removed. -/
def releaseLock (path normalized : JsString) : Serve Bool := do
  let tokens ← env.exec (.selectTokens path) do
    let s ← .read
    pure ((s.volume.locks.filter (fun e => e.2.path = path)).map Prod.fst)
  match tokens.find? (fun t => t ≠ [] ∧ (t = normalized ∨ normalizeLockToken t = normalized)) with
  | none => pure false
  | some token => do
    env.exec (.deleteLock token) (modifyVolume (fun v => v.deleteLock token))
    pure true

/-- A file that was made to hold the lock goes with the last of its locks. -/
def dropLockNull (path : JsString) : Serve Unit := do
  let remaining ← env.readLocks path
  if remaining = [] then
    if ← env.isLockNull path then env.undoCreation path
    else pure ()
  else pure ()

def handleUnlock (r : Request) (path : JsString) : Serve Response := do
  let st ← env.statInner path
  if path ≠ [] ∧ !st.found then pure .notFound
  else match r.lockToken.filter (fun t => t ≠ []) with
    | none => pure .badRequest
    | some token =>
      match ← (env.releaseLock path (normalizeLockToken token)).attempt with
      | .ok true => do
        if path ≠ [] ∧ !st.isDirectory ∧ st.size = 0 then env.dropLockNull path
        else pure ()
        pure .noContent
      | _ => pure .conflict

end Env

end DurableDav.Dav
