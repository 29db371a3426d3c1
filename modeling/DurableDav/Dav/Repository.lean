import DurableDav.Dav.Volume

namespace DurableDav.Dav

open Library
open Replication (isValidInnerPath parentOf maxPathDepth ReplicaStateRow)

/-! ### The metadata tables -/

/-- A path and all below it, as the statements of the cascades select it. -/
def subtreePredicate (path q : JsString) : Bool := q = path ∨ substr q 1 (path.length + 1) = path ++ [slash]

/-- The statements that delete the root's rows have no clause. -/
def deletePredicate (path q : JsString) : Bool := path = [] ∨ subtreePredicate path q

theorem deletePredicate_of_ne {path : JsString} (hp : path ≠ []) (q : JsString) :
    deletePredicate path q = subtreePredicate path q := by
  simp [deletePredicate, hp]

theorem deletePredicate_of_subtree {path q : JsString} (h : subtreePredicate path q = true) : deletePredicate path q = true := by
  simp [deletePredicate, h]

/-- The new path of a row that moves with the subtree of `source`. -/
def repath (source target q : JsString) : JsString :=
  if subtreePredicate source q then target ++ substrFrom q (source.length + 1) else q

namespace Volume

variable (v : Volume)

def deleteRows (path : JsString) : Table → Volume
  | .davNodes => { v with nodes := Store.removeWhere v.nodes (deletePredicate path) }
  | .davProps => { v with props := Store.removeWhere v.props (fun k => deletePredicate path k.path) }
  | .davLocks => { v with locks := v.locks.filter (fun e => !deletePredicate path e.2.path) }
  | .davReplicaState => { v with replicaState := Store.removeWhere v.replicaState (fun k => deletePredicate path k.path) }

def updatePaths (source target : JsString) : Table → Option Volume
  | .davNodes => (rekey v.nodes (repath source target)).map (fun nodes => { v with nodes := nodes })
  | .davProps => (rekey v.props (fun k => { k with path := repath source target k.path })).map
      (fun props => { v with props := props })
  | .davLocks => some { v with locks := v.locks.map (fun e => (e.1, { e.2 with path := repath source target e.2.path })) }
  | .davReplicaState => (rekey v.replicaState (fun k => { k with path := repath source target k.path })).map
      (fun rows => { v with replicaState := rows })

def upsertNode (path : JsString) (row : NodeRow) : Volume :=
  -- the creation time of a row that is there stays
  { v with nodes := Store.put v.nodes path { row with crtime := ((Store.get v.nodes path).map NodeRow.crtime).getD row.crtime } }

def deadProperties (path : JsString) : List (PropKey × PropRow) :=
  ((Store.keys v.props).filter (fun k => k.path = path)).filterMap (fun k => (Store.get v.props k).map (fun row => (k, row)))

end Volume

def cascadeTables : List Table := [.davNodes, .davProps, .davLocks]

def renameCascadeTables : List Table := [.davNodes, .davProps, .davReplicaState]

namespace Env

variable (env : Env)

def exec {α : Type} (statement : Statement) (body : Serve α) : Serve α := env.call (.exec statement) body

def modifyVolume (f : Volume → Volume) : Serve Unit := .modify (fun s => { s with volume := f s.volume })

def deleteNodeCascade (path : JsString) : Serve Unit :=
  Act.each (fun t => env.exec (.deleteRows t path) (modifyVolume (fun v => v.deleteRows path t))) cascadeTables

def updateTable (source target : JsString) (t : Table) : Serve Unit := env.exec (.updatePaths t source target) do
  let s ← .read
  match s.volume.updatePaths source target t with
  | some v => modifyVolume (fun _ => v)
  | none => .throw (.of "UNIQUE constraint failed")

def renameNodeCascade (source target : JsString) : Serve Unit :=
  Act.each (env.updateTable source target) renameCascadeTables

def upsertDeadProperty (key : PropKey) (row : PropRow) : Serve Unit :=
  env.exec (.upsertProp key) (modifyVolume (fun v => { v with props := Store.put v.props key row }))

/-! ### The repository -/

/-- What is absent and what could not be looked up are answered alike. -/
def statInner (path : JsString) : Serve StatResult := do
  match ← (env.stat path).attempt with
  | .ok st => pure st
  | .error _ => pure missingStat

def isMissingPath (e : Failure) : Bool :=
  js "ENOENT" <:+: e.message ∨ js "no such file" <:+: e.message.map asciiLower

def listRecursive (path : JsString) : Serve (List JsString) := do
  match ← (env.listDir path true).attempt with
  | .ok names => pure names
  | .error _ => pure []

def requireRecursive (path : JsString) : Serve (List JsString) := do
  match ← (env.listDir path true).attempt with
  | .ok names => pure names
  | .error e => if isMissingPath e then pure [] else .throw e

def childInner (parent name : JsString) : JsString :=
  if name.head? = some slash then name.drop 1 else if parent = [] then name else parent ++ slash :: name

def copyRows (source target : JsString) (isCollection : Bool) : Serve Unit := do
  let row ← env.exec (.selectNode source) do
    let s ← .read
    pure (Store.get s.volume.nodes source)
  env.exec (.upsertNode target) (modifyVolume (fun v => v.upsertNode target
    ⟨isCollection, row.bind NodeRow.contentType, row.bind NodeRow.etag, env.now, env.now, false⟩))
  let props ← env.exec (.selectProps source) do
    let s ← .read
    pure (s.volume.deadProperties source)
  Act.each (fun e => env.upsertDeadProperty { e.1 with path := target } e.2) props

def copyMeta (source target : JsString) (isCollection : Bool) : Serve Unit := do
  let _ ← (env.copyRows source target isCollection).attempt
  pure ()

def deleteCascade (path : JsString) : Serve Unit := do
  let _ ← (env.deleteNodeCascade path).attempt
  pure ()

def renameCascade (source target : JsString) : Serve Unit := do
  let _ ← (env.renameNodeCascade source target).attempt
  pure ()

end Env

/-! ### The lock guard -/

def ancestorsFrom : ℕ → JsString → List JsString
  | 0, _ => []
  | fuel + 1, path => path :: if path = [] then [] else ancestorsFrom fuel (getParentPath path)

def ancestorsOf (path : JsString) : List JsString := ancestorsFrom (maxPathDepth + 1) path

def Volume.locksAffecting (v : Volume) (now : ℕ) (path : JsString) : List (JsString × LockRow) :=
  v.locks.filter (fun e => e.2.path ∈ ancestorsOf path ∧ now < e.2.expiresAt)

/-- The locks that keep a request off a path. -/
def Volume.blocking (v : Volume) (now : ℕ) (tokens : List JsString) (path : JsString) : List (JsString × LockRow) :=
  (v.locksAffecting now path).filter (fun e => (e.2.depth = js "infinity" ∨ e.2.path = path) ∧
    normalizeLockToken e.1 ∉ tokens.map normalizeLockToken)

def Volume.activeTokens (v : Volume) (now : ℕ) (tokens : List JsString) (path : JsString) : List (JsString × LockRow) :=
  (v.locksAffecting now path).filter (fun e => e.2.path = path ∧ e.1 ≠ [] ∧
    normalizeLockToken e.1 ∉ tokens.map normalizeLockToken)

/-! ### Responses -/

structure MultiStatusFailure where
  href : JsString
  status : JsString
  description : Option JsString
  deriving DecidableEq

inductive Body
  | none
  | text (s : JsString)
  | multistatus (failures : List MultiStatusFailure)
  deriving DecidableEq

structure Response where
  status : ℕ
  body : Body
  location : Option JsString
  deriving DecidableEq

namespace Response

def text (status : ℕ) (s : String) : Response := ⟨status, .text (js s), none⟩

def badRequest : Response := text 400 "Bad Request"
def forbidden : Response := text 403 "Forbidden"
def notFound : Response := text 404 "Not Found"
def conflict : Response := text 409 "Conflict"
def preconditionFailed : Response := text 412 "Precondition Failed"
def locked : Response := text 423 "Locked"
def internalServerError : Response := text 500 "Internal Server Error"
def insufficientStorage : Response := text 507 "Insufficient Storage"
def noContent : Response := ⟨204, .none, none⟩
def created (href : JsString) : Response := ⟨201, .text [], some href⟩
def multistatus (failures : List MultiStatusFailure) : Response := ⟨207, .multistatus failures, none⟩

def ok (r : Response) : Bool := 200 ≤ r.status ∧ r.status < 300

end Response

namespace Env

variable (env : Env)

def assertLock (r : Request) (path : JsString) : Serve (Option Response) :=
  if r.hasAlwaysFalseIfCondition env.platform then pure (some .preconditionFailed)
  else env.exec (.selectLocks path) do
    let s ← .read
    if s.volume.blocking env.now (r.getRequestLockTokens env.platform) path = [] then pure none
    else pure (some .locked)

def activeTokensForPath (path : JsString) (tokens : List JsString) : Serve (List (JsString × LockRow)) :=
  env.exec (.selectLocks path) do
    let s ← .read
    pure (s.volume.activeTokens env.now tokens path)

end Env

end DurableDav.Dav
