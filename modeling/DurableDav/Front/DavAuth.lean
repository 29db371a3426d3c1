import DurableDav.Front.CredentialVerifier
import DurableDav.Front.Destination

namespace DurableDav.Front

open Library
open Dav (Platform)

/-! ### Methods -/

def supportMethods : List JsString :=
  [js "OPTIONS", js "PROPFIND", js "PROPPATCH", js "MKCOL", js "GET", js "HEAD", js "PUT", js "DELETE", js "COPY",
    js "MOVE", js "LOCK", js "UNLOCK"]

def readMethods : List JsString := [js "GET", js "HEAD", js "OPTIONS", js "PROPFIND"]

def requiresWrite (method : JsString) : Bool := method ∉ readMethods

/-! ### Basic credentials -/

def base64Value (c : CodeUnit) : Option ℕ :=
  if 65 ≤ c.val ∧ c.val ≤ 90 then some (c.val - 65)
  else if 97 ≤ c.val ∧ c.val ≤ 122 then some (c.val - 71)
  else if 48 ≤ c.val ∧ c.val ≤ 57 then some (c.val + 4)
  else if c.val = 43 then some 62
  else if c.val = 47 then some 63
  else none

/-- The octets of groups of six bits. -/
def octetsOf : List ℕ → JsString
  | a :: b :: c :: d :: rest =>
    Fin.ofNat 65536 (a * 4 + b / 16) :: Fin.ofNat 65536 (b % 16 * 16 + c / 4) :: Fin.ofNat 65536 (c % 4 * 64 + d) ::
      octetsOf rest
  | [a, b, c] => [Fin.ofNat 65536 (a * 4 + b / 16), Fin.ofNat 65536 (b % 16 * 16 + c / 4)]
  | [a, b] => [Fin.ofNat 65536 (a * 4 + b / 16)]
  | _ => []

def stripPadding (s : JsString) : JsString :=
  if s.length % 4 ≠ 0 then s
  else if js "==" <:+ s then s.dropLast.dropLast
  else if s.getLast? = some 61 then s.dropLast
  else s

/-- `none` where the text is no base64, which is an error. -/
def atob (s : JsString) : Option JsString :=
  let bare := stripPadding (s.filter fun c => c.val ∉ [9, 10, 12, 13, 32])
  if bare.length % 4 = 1 then none else (bare.mapM base64Value).map octetsOf

structure BasicCredentials where
  username : JsString
  password : JsString
  deriving DecidableEq

def space : CodeUnit := 32

def getBasicCredentials (C : Casing) (header : Option JsString) : Option BasicCredentials := do
  let (scheme, rest) ← cutAt space (← header)
  if C.toLowerCase scheme ≠ js "basic" then none
  let (before, password) ← cutAt colon (← atob (trim rest))
  let username := trim before
  if username = [] ∨ password = [] then none else some ⟨username, password⟩

/-! ### What the database holds -/

structure DavCredentialRow where
  credentialId : JsString
  volumeId : JsString
  username : JsString
  passwordHash : JsString
  expiresAt : ℕ
  readOnly : Bool
  deriving DecidableEq

inductive DbFault
  | databaseError
  | other
  deriving DecidableEq

/-- The tables, with the reads of them that fail. `ownerEmail` is the owner's address, or the anchor where the
account cannot be read. -/
structure Database where
  volumes : Volumes
  credentials : List DavCredentialRow
  ownerEmail : DavVolumeRow → JsString
  volumesFault : Option DbFault
  credentialsFault : Option DbFault

namespace Database

def getVolume (C : Casing) (db : Database) (owner name : JsString) : Except DbFault (Option DavVolumeRow) :=
  match db.volumesFault with
  | some fault => .error fault
  | none => .ok (db.volumes.getByOwnerName C owner name)

def getActiveByUsername (db : Database) (now : ℕ) (username : JsString) : Except DbFault (Option DavCredentialRow) :=
  match db.credentialsFault with
  | some fault => .error fault
  | none => .ok (db.credentials.find? fun r => r.username = username ∧ now < r.expiresAt)

end Database

/-! ### Who may reach a volume -/

structure DavAuthResult where
  userEmail : Option JsString
  owner : JsString
  volume : JsString
  hrefPrefixMode : HrefPrefixMode
  rehash : Option (JsString × JsString)
  deriving DecidableEq

/-- Why a request goes no further: an answer, an error that is thrown on, or a verification that is not over. -/
inductive Refusal
  | answered (status : ℕ)
  | thrown
  | waiting
  deriving DecidableEq

def Refusal.ofFault : DbFault → Refusal
  | .databaseError => .answered 503
  | .other => .thrown

/-- What the call `n` of `verifyCredential` has come to, if it is about this. -/
def Deployment.verdictOf (w : Deployment) (n : ℕ) (body : VerifyRequestBody) : Option VerifyOutcome :=
  (w.calls n).bind fun call =>
    if call.body = body then match call.phase with
      | .done o => some o
      | _ => none
    else none

def admitted (db : Database) (volume : DavVolumeRow) (rehash : Option (JsString × JsString))
    (attributed : Bool) : DavAuthResult :=
  ⟨if attributed then some (db.ownerEmail volume) else none, volume.owner, volume.name, volume.hrefPrefixMode, rehash⟩

/-- The branch of `davAuthForVolume` for a request that carries a credential. -/
def authByCredential (w : Deployment) (n : ℕ) (db : Database) (now : ℕ) (volume : DavVolumeRow)
    (basic : BasicCredentials) (needWrite : Bool) : Except Refusal DavAuthResult :=
  match db.getActiveByUsername now basic.username with
  | .error fault => .error (.ofFault fault)
  | .ok none => .error (.answered 401)
  | .ok (some credential) =>
    match w.verdictOf n ⟨basic.username, basic.password, credential.passwordHash⟩ with
    | none => .error .waiting
    | some o =>
      if !o.ok then .error (.answered 401)
      else if credential.volumeId ≠ volume.id then .error (.answered 401)
      else if needWrite && credential.readOnly then .error (.answered 403)
      else .ok (admitted db volume
        (if o.needsRehash then o.upgradedHash.map (credential.credentialId, ·) else none) true)

def davAuthForVolume (C : Casing) (w : Deployment) (n : ℕ) (db : Database) (now : ℕ) (owner volumeName : JsString)
    (authorization : Option JsString) (needWrite : Bool) : Except Refusal DavAuthResult :=
  match db.getVolume C owner volumeName with
  | .error fault => .error (.ofFault fault)
  | .ok none => .error (.answered 404)
  | .ok (some volume) =>
    match getBasicCredentials C authorization with
    | some basic => authByCredential w n db now volume basic needWrite
    | none =>
      if !needWrite && !volume.isPrivate then .ok (admitted db volume none false) else .error (.answered 401)

/-! ### What is handed to a volume's object -/

abbrev Headers := Store JsString JsString

def HrefPrefixMode.text : HrefPrefixMode → JsString
  | base => js "base"
  | root => js "root"

/-- Names of headers are in lower case. -/
def applyDavForwardHeaders (source : Headers) (base inner : JsString) (mode : HrefPrefixMode)
    (userEmail destination : Option JsString) : Headers :=
  let h := source.set (js "x-dav-base") base
  let h := h.set (js "x-dav-path") inner
  let h := h.set (js "x-dav-href-prefix-mode") mode.text
  let h := h.set (js "x-dav-user") (userEmail.getD [])
  let h := (h.remove (js "x-dav-page")).remove (js "x-dav-page-limit")
  let h := (h.remove (js "authorization")).remove (js "destination")
  match destination with
  | some d => h.set (js "destination") d
  | none => h

structure DavRequest where
  method : JsString
  owner : JsString
  volume : JsString
  inner : JsString
  url : JsString
  headers : Headers

structure Forwarded where
  key : JsString
  method : JsString
  url : JsString
  headers : Headers
  deriving DecidableEq

/-- A read is answered by the volume's object or from the read cache, which never holds anything of another kind. -/
inductive Handled
  | refused (r : Refusal)
  | read (f : Forwarded)
  | forward (f : Forwarded)
  deriving DecidableEq

def Handled.reaches : Handled → Option Forwarded
  | refused _ => none
  | read f => some f
  | forward f => some f

def handleDav (p : Platform) (C : Casing) (w : Deployment) (n : ℕ) (db : Database) (now : ℕ) (r : DavRequest) :
    Handled :=
  if r.method = js "OPTIONS" then .refused (.answered 200)
  else match davAuthForVolume C w n db now r.owner r.volume (r.headers.get (js "authorization"))
      (requiresWrite r.method) with
  | .error refusal => .refused refusal
  | .ok auth =>
    let base := pathBaseOf auth.owner auth.volume
    let handOn (destination : Option JsString) : Forwarded :=
      ⟨normalizeVolumeKey C auth.owner auth.volume, r.method, r.url,
        applyDavForwardHeaders r.headers base r.inner auth.hrefPrefixMode auth.userEmail destination⟩
    if r.method = js "GET" ∨ r.method = js "HEAD" ∨ r.method = js "PROPFIND" then .read (handOn none)
    else if r.method = js "COPY" ∨ r.method = js "MOVE" then
      match resolveDestination p (r.headers.get (js "destination")) r.url base auth.hrefPrefixMode with
      | .error _ => .refused (.answered 400)
      | .ok destination => .forward (handOn (some destination))
    else .forward (handOn none)

/-- The routes of the volume's plane: a method that is not supported goes to the catch-all. -/
def route (p : Platform) (C : Casing) (w : Deployment) (n : ℕ) (db : Database) (now : ℕ) (r : DavRequest) : Handled :=
  if r.method ∈ supportMethods then handleDav p C w n db now r else .refused (.answered 405)

/-- The objects after one of them has handled what it was given, with no storage but its own. -/
def deliver {V : Type} (object : Forwarded → V → V) (f : Forwarded) (objects : JsString → V) : JsString → V :=
  Function.update objects f.key (object f (objects f.key))

end DurableDav.Front
