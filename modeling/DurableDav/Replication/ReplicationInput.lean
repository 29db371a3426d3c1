import DurableDav.Front.Registry
import DurableDav.Library.TextEncoding
import DurableDav.Replication.DavHttpRemote

namespace DurableDav.Replication

open Library
open Front (Casing Volumes)

/-! ### Request bodies -/

/-- A value of a request body. An object, an array or a number that is not whole is `other`. -/
inductive Unknown
  | undefined
  | null
  | boolean (b : Bool)
  | number (n : ℤ)
  | string (s : JsString)
  | other
  deriving DecidableEq

inductive ServiceError
  | badRequest (message : JsString)
  | notFound (message : JsString)
  | failed (message : JsString)
  deriving DecidableEq

inductive ReplicationAuthKind
  | none
  | basic
  | bearer
  deriving DecidableEq

inductive ReplicationTargetKind
  | dav
  | davVolume
  deriving DecidableEq

def ReplicationAuthKind.name : ReplicationAuthKind → JsString
  | none => js "none"
  | basic => js "basic"
  | bearer => js "bearer"

def ReplicationTargetKind.name : ReplicationTargetKind → JsString
  | dav => js "dav"
  | davVolume => js "dav-volume"

def ReplicationMode.name : ReplicationMode → JsString
  | copyOnly => js "copy-only"
  | sync => js "sync"
  | keepBoth => js "keep-both"
  | pullOnly => js "pull-only"

def replicationIntervals : List ℤ := [15, 60, 360, 720, 1440, 10080]

def replicationModes : List ReplicationMode := [.copyOnly, .sync, .keepBoth, .pullOnly]

def replicationAuthKinds : List ReplicationAuthKind := [.none, .basic, .bearer]

def replicationTargetKinds : List ReplicationTargetKind := [.dav, .davVolume]

def maxRemotePathLength : ℕ := 512

def maxRemoteUrlLength : ℕ := 2048

def maxSecretLength : ℕ := 1024

def maxNameLength : ℕ := 256

structure ReplicationCreateInput where
  targetKind : Unknown := .undefined
  remoteUrl : Unknown := .undefined
  remoteOwner : Unknown := .undefined
  remoteVolume : Unknown := .undefined
  remotePath : Unknown := .undefined
  authKind : Unknown := .undefined
  username : Unknown := .undefined
  secret : Unknown := .undefined
  mode : Unknown := .undefined
  mirrorDeletions : Unknown := .undefined
  intervalMinutes : Unknown := .undefined
  enabled : Unknown := .undefined

/-! ### Reading one field -/

abbrev Checked (α : Type) := Except ServiceError α

def badRequest {α : Type} (message : JsString) : Checked α := .error (.badRequest message)

def commaJoined (names : List JsString) : JsString := (js ", ").intercalate names

def oneOf {κ : Type} (name : κ → JsString) (value : Unknown) (allowed : List κ) (field : JsString)
    (fallback : Option κ) : Checked κ :=
  match value with
  | .undefined | .null =>
    match fallback with
    | some k => .ok k
    | none => badRequest (field ++ js " is required")
  | .string s =>
    match allowed.find? (fun k => name k = s) with
    | some k => .ok k
    | none => badRequest (field ++ js " must be one of: " ++ commaJoined (allowed.map name))
  | _ => badRequest (field ++ js " must be one of: " ++ commaJoined (allowed.map name))

/-- A text of at most so many units, read as `read` has it. -/
def boundedText (value : Unknown) (field : JsString) (limit : ℕ) (read : JsString → JsString) : Checked JsString :=
  match value with
  | .undefined | .null => .ok []
  | .string s =>
    if limit < (read s).length then
      badRequest (field ++ js " must be at most " ++ decimal limit ++ js " characters")
    else .ok (read s)
  | _ => badRequest (field ++ js " must be a string")

def optionalString (value : Unknown) (field : JsString) (limit : ℕ) : Checked JsString :=
  boundedText value field limit trim

def optionalSecret (value : Unknown) (field : JsString) : Checked JsString :=
  boundedText value field maxSecretLength id

def optionalBoolean (value : Unknown) (field : JsString) (fallback : Bool) : Checked Bool :=
  match value with
  | .undefined | .null => .ok fallback
  | .boolean b => .ok b
  | _ => badRequest (field ++ js " must be a boolean")

def readMirrorDeletions (value : Unknown) (mode : ReplicationMode) : Checked Bool := do
  let flag ← optionalBoolean value (js "mirrorDeletions") false
  if flag ∧ mode ≠ .pullOnly then
    badRequest (js "mirrorDeletions may only be enabled when mode is pull-only")
  else .ok flag

def normalizeInterval (value : Unknown) : Checked ℤ :=
  match value with
  | .undefined | .null => .ok 60
  | .number n =>
    if n ∈ replicationIntervals then .ok n
    else badRequest (js "intervalMinutes must be one of: 15, 60, 360, 720, 1440, 10080")
  | _ => badRequest (js "intervalMinutes must be one of: 15, 60, 360, 720, 1440, 10080")

def normalizeRemotePath (value : Unknown) : Checked JsString := do
  let raw ← optionalString value (js "remotePath") maxRemotePathLength
  if raw = [] then .ok []
  else if raw.head? = some slash then badRequest (js "remotePath must not start with \"/\"")
  else
    let segments := (raw.splitOn slash).filter (fun segment => segment ≠ [] ∧ segment ≠ js ".")
    if js ".." ∈ segments then badRequest (js "remotePath must not contain \"..\" segments")
    else .ok (joinNames slash segments)

def requireRemoteUrl (normalizeRemoteUrl : JsString → Except Refusal JsString) (value : Unknown) :
    Checked JsString := do
  let raw ← optionalString value (js "remoteUrl") maxRemoteUrlLength
  if raw = [] then badRequest (js "remoteUrl is required when targetKind is dav")
  else
    match normalizeRemoteUrl raw with
    | .ok url => .ok url
    | .error (.rejected message) => badRequest message
    | .error (.broken message) => .error (.failed message)

/-! ### The credential -/

def sealableSecret (authKind : ReplicationAuthKind) (username secret : JsString) : Checked JsString :=
  if authKind ≠ .basic then .ok secret
  else if Front.colon ∈ username then badRequest (js "username must not contain \":\"")
  else .ok (username ++ Front.colon :: secret)

def credentialValue (authKind : ReplicationAuthKind) (secret : Unknown) : Checked JsString :=
  if authKind = .none then .ok [] else optionalSecret secret (js "secret")

def credentialPlaintext (authKind : ReplicationAuthKind) (username secret : Unknown) : Checked JsString := do
  let name ← optionalString username (js "username") maxNameLength
  let value ← credentialValue authKind secret
  if authKind ≠ .none ∧ value = [] then
    badRequest (js "secret is required when authKind is " ++ authKind.name)
  else if authKind = .basic ∧ name = [] then
    badRequest (js "username is required when authKind is basic")
  else sealableSecret authKind name value

/-! ### The target -/

structure ReplicationTarget where
  targetKind : ReplicationTargetKind
  remoteUrl : JsString
  remoteOwner : JsString
  remoteVolume : JsString
  remotePath : JsString
  deriving DecidableEq

def missingTargetVolume (C : Casing) (volumes : Volumes) (owner volume : JsString) : Option JsString :=
  if (volumes.getByOwnerName C owner volume).isSome then none
  else some (js "the bucket " ++ owner ++ slash :: volume ++ js " does not exist")

def resolveTarget (C : Casing) (volumes : Volumes) (normalizeRemoteUrl : JsString → Except Refusal JsString)
    (localPath : JsString) (input : ReplicationCreateInput) : Checked ReplicationTarget := do
  let targetKind ← oneOf ReplicationTargetKind.name input.targetKind replicationTargetKinds (js "targetKind") none
  let remotePath ← normalizeRemotePath input.remotePath
  match targetKind with
  | .dav =>
    let remoteUrl ← requireRemoteUrl normalizeRemoteUrl input.remoteUrl
    .ok ⟨.dav, remoteUrl, [], [], remotePath⟩
  | .davVolume =>
    let remoteOwner ← optionalString input.remoteOwner (js "remoteOwner") maxNameLength
    let remoteVolume ← optionalString input.remoteVolume (js "remoteVolume") maxNameLength
    if remoteOwner = [] ∨ remoteVolume = [] then
      badRequest (js "remoteOwner and remoteVolume are required when targetKind is dav-volume")
    else if C.toLowerCase (remoteOwner ++ slash :: remoteVolume) = C.toLowerCase localPath then
      badRequest (js "A volume cannot replicate to itself")
    else
      match missingTargetVolume C volumes remoteOwner remoteVolume with
      | some missing =>
        badRequest (js "remoteOwner/remoteVolume: " ++ missing ++ js " — create it before adding this target")
      | none => .ok ⟨.davVolume, [], remoteOwner, remoteVolume, remotePath⟩

end DurableDav.Replication
