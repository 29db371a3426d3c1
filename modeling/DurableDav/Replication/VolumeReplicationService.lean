import DurableDav.Replication.ReplicationInput

namespace DurableDav.Replication

open Library
open Front (Casing Volumes)

/-! ### The table -/

structure Envelope where
  ciphertext : JsString
  iv : JsString
  deriving DecidableEq

structure DavReplicationRow where
  replicationId : JsString
  volumeId : JsString
  target : ReplicationTarget
  authKind : ReplicationAuthKind
  encryptedSecret : Option JsString
  secretIv : Option JsString
  mode : ReplicationMode
  mirrorDeletions : Bool
  intervalMinutes : ℤ
  enabled : Bool
  createdAt : ℕ
  updatedAt : ℕ
  createdBy : JsString
  deriving DecidableEq

abbrev Replications := List DavReplicationRow

namespace Replications

variable (rows : Replications)

def getById (id : JsString) : Option DavReplicationRow := rows.find? (fun r => r.replicationId = id)

def getByVolumeAndTarget (volumeId : JsString) (target : ReplicationTarget) : Option DavReplicationRow :=
  rows.find? (fun r => r.volumeId = volumeId ∧ r.target = target)

def countByVolume (volumeId : JsString) : ℕ := rows.countP (fun r => r.volumeId = volumeId)

/-- `none` where the table's own constraints refuse the row. -/
def create (volumes : Volumes) (row : DavReplicationRow) : Option Replications :=
  if rows.any (fun r => r.replicationId = row.replicationId) ∨
      (rows.getByVolumeAndTarget row.volumeId row.target).isSome ∨ !volumes.any (fun v => v.id = row.volumeId) then
    none
  else some (rows ++ [row])

def setSecret (id : JsString) (encryptedSecret secretIv : Option JsString) (now : ℕ) : Replications :=
  rows.map fun r => if r.replicationId = id then
    { r with encryptedSecret := encryptedSecret, secretIv := secretIv, updatedAt := now } else r

end Replications

/-! ### The service -/

/-- The cipher under the one key, whose nonces are drawn from outside. -/
structure SecretCipher where
  encryptSecret : JsString → ℕ → Envelope
  decryptSecret : Envelope → Option JsString
  decrypt_encrypt : ∀ plaintext nonce, decryptSecret (encryptSecret plaintext nonce) = some plaintext

theorem plain_decrypts (plaintext : JsString) (_ : ℕ) : some (Envelope.mk plaintext []).ciphertext = some plaintext := rfl

def plainCipher : SecretCipher := ⟨fun plaintext _ => ⟨plaintext, []⟩, fun envelope => some envelope.ciphertext, plain_decrypts⟩

structure ReplicationService where
  casing : Casing
  normalizeRemoteUrl : JsString → Except Refusal JsString
  maxReplicationsPerVolume : ℕ
  cipher : SecretCipher

/-- What a call finds around it. -/
structure CallContext where
  volumes : Volumes
  now : ℕ
  nonce : ℕ
  keyAvailable : Bool

structure CreateCall where
  volumeId : JsString
  localPath : JsString
  input : ReplicationCreateInput
  creatorEmail : JsString
  replicationId : JsString

structure RotateCall where
  volumeId : JsString
  replicationId : JsString
  authKind : Unknown
  username : Unknown
  secret : Unknown

namespace ReplicationService

variable (s : ReplicationService) (context : CallContext)

/-- Both columns null for no credential. -/
def sealed (plaintext : JsString) : Checked (Option Envelope) :=
  if plaintext = [] then .ok none
  else if context.keyAvailable then .ok (some (s.cipher.encryptSecret plaintext context.nonce))
  else .error (.failed (js "replication encryption key is not available"))

def createReplication (rows : Replications) (call : CreateCall) : Checked Replications := do
  let input := call.input
  let mode ← oneOf ReplicationMode.name input.mode replicationModes (js "mode") (some .keepBoth)
  let mirrorDeletions ← readMirrorDeletions input.mirrorDeletions mode
  let authKind ← oneOf ReplicationAuthKind.name input.authKind replicationAuthKinds (js "authKind") (some .none)
  let intervalMinutes ← normalizeInterval input.intervalMinutes
  let enabled ← optionalBoolean input.enabled (js "enabled") true
  let target ← resolveTarget s.casing context.volumes s.normalizeRemoteUrl call.localPath input
  let plaintext ← credentialPlaintext authKind input.username input.secret
  if s.maxReplicationsPerVolume ≤ rows.countByVolume call.volumeId then
    badRequest (js "A volume may have at most " ++ decimal s.maxReplicationsPerVolume ++ js " replications")
  else if (rows.getByVolumeAndTarget call.volumeId target).isSome then
    badRequest (js "This target is already configured for this volume")
  else
    let envelope ← s.sealed context plaintext
    let row : DavReplicationRow := ⟨call.replicationId, call.volumeId, target, authKind,
      envelope.map Envelope.ciphertext, envelope.map Envelope.iv, mode, mirrorDeletions, intervalMinutes, enabled,
      context.now, context.now, call.creatorEmail⟩
    match rows.create context.volumes row with
    | some rows => .ok rows
    | none => .error (.failed (js "constraint failed"))

def requireReplication (rows : Replications) (volumeId replicationId : JsString) : Checked DavReplicationRow :=
  match (rows.getById replicationId).filter (fun r => r.volumeId = volumeId) with
  | some row => .ok row
  | none => .error (.notFound (js "Replication not found"))

/-- Only the envelope is written: the row keeps the kind it was created with. -/
def rotateSecret (rows : Replications) (call : RotateCall) : Checked Replications := do
  let existing ← requireReplication rows call.volumeId call.replicationId
  let authKind ← oneOf ReplicationAuthKind.name call.authKind replicationAuthKinds (js "authKind")
    (if existing.authKind = .none then none else some existing.authKind)
  let plaintext ← credentialPlaintext authKind call.username call.secret
  let envelope ← s.sealed context plaintext
  .ok (rows.setSecret call.replicationId (envelope.map Envelope.ciphertext) (envelope.map Envelope.iv) context.now)

end ReplicationService

/-! ### The runner's side -/

def basicAuthValue (username password : JsString) : Except RemoteError JsString :=
  if Front.colon ∈ username then .error (.thrown (js "replication username must not contain a colon"))
  else .ok (bytesToBase64 (textEncode (username ++ Front.colon :: password)))

def authHeader (authKind : ReplicationAuthKind) (secret : JsString) : Except RemoteError RemoteAuth :=
  match authKind with
  | .basic =>
    match cutAt Front.colon secret with
    | none => .error (.unavailable (js ("stored replication credential is in an unreadable format; " ++
        "re-enter the username and password for this target")) none)
    | some (username, password) => (basicAuthValue username password).map RemoteAuth.basic
  | .bearer => .ok (.bearer secret)
  | .none => .ok .none

namespace ReplicationService

variable (s : ReplicationService)

def decryptSecret (row : DavReplicationRow) : Except RemoteError JsString :=
  match row.encryptedSecret, row.secretIv with
  | some ciphertext, some iv =>
    match s.cipher.decryptSecret ⟨ciphertext, iv⟩ with
    | some secret => .ok secret
    | none => .error (.unavailable (js ("stored replication credential could not be decrypted " ++
        "(wrong key or tampered value); re-enter the username and password for this target")) none)
  | _, _ => .ok []

/-- What a run presents to the target of the row. -/
def presented (row : DavReplicationRow) : Except RemoteError RemoteAuth := do
  let secret ← s.decryptSecret row
  authHeader row.authKind secret

end ReplicationService

end DurableDav.Replication
