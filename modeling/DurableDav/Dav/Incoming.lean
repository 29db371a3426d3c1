import DurableDav.Library.JsSearch
import DurableDav.Dav.CopyMove

namespace DurableDav.Dav

open Library
open Replication (Bytes isValidInnerPath parentOf)

/-! ### Requests with a body -/

structure Incoming extends Request where
  ifMatch : Option JsString
  ifNoneMatch : Option JsString
  ifModifiedSince : Option JsString
  ifUnmodifiedSince : Option JsString
  contentType : Option JsString
  timeout : Option JsString
  range : Option JsString
  -- the declared length, where it is a number
  contentLength : Option ℕ
  body : Bytes
  -- the body read as UTF-8
  text : JsString

/-- A request with neither conditions nor a body. -/
def plainIncoming (url : JsString) : Incoming where
  url := url
  destination := none
  depth := none
  overwrite := none
  ifHeader := none
  lockToken := none
  ifMatch := none
  ifNoneMatch := none
  ifModifiedSince := none
  ifUnmodifiedSince := none
  contentType := none
  timeout := none
  range := none
  contentLength := none
  body := []
  text := []

def maxXmlBodyBytes : ℕ := 64 * 1024

def Incoming.exceedsDeclaredLength (r : Incoming) (maxBytes : ℕ) : Bool := r.contentLength.any (fun n => maxBytes < n)

def Incoming.readCappedBody (r : Incoming) (maxBytes : ℕ) : Option Bytes :=
  if r.exceedsDeclaredLength maxBytes ∨ maxBytes < r.body.length then none else some r.body

def Incoming.readCappedText (r : Incoming) (maxBytes : ℕ) : Option JsString :=
  (r.readCappedBody maxBytes).map (fun _ => r.text)

/-- The request names a collection. -/
def Request.endsInSlash (p : Platform) (r : Request) : Bool :=
  (p.url r.url none).any (fun u => u.pathname.getLast? = some slash)

namespace Response

def methodNotAllowed : Response := text 405 "Method Not Allowed"
def payloadTooLarge : Response := text 413 "Payload Too Large"
def unsupportedMediaType : Response := text 415 "Unsupported Media Type"
def createdEmpty : Response := text 201 ""

end Response

/-! ### Locks -/

inductive LockScope
  | exclusive
  | shared
  deriving DecidableEq

inductive LockDepth
  | zero
  | infinity
  deriving DecidableEq

def LockScope.text : LockScope → JsString
  | exclusive => js "exclusive"
  | shared => js "shared"

def LockDepth.text : LockDepth → JsString
  | zero => js "0"
  | infinity => js "infinity"

structure LockDetails where
  token : JsString
  owner : Option JsString
  scope : LockScope
  depth : LockDepth
  timeout : JsString
  expiresAt : ℕ
  root : JsString
  deriving DecidableEq

def defaultLockTimeout : ℕ := 3600

def maxLockTimeout : ℕ := 365 * 24 * 60 * 60

def secondsText (n : ℕ) : JsString := js "Second-" ++ decimal n

def determineLockDepth (resourceIsCollection : Bool) (depthHeader : Option LockDepth) : LockDepth :=
  if resourceIsCollection then depthHeader.getD .infinity
  else if depthHeader = some .infinity then .infinity else .zero

def normalizeLockDetails (now : ℕ) (d : LockDetails) : Option LockDetails :=
  let expiresAt := if d.expiresAt = 0 then now + defaultLockTimeout * 1000 else d.expiresAt
  if expiresAt ≤ now then none else some { d with expiresAt := expiresAt }

/-- What a row of the lock table says, with an address for the resource. -/
def rowDetails (token : JsString) (row : LockRow) (root : JsString) : LockDetails where
  token := token
  owner := row.owner
  scope := if row.scope = js "shared" then .shared else .exclusive
  depth := if row.depth = js "infinity" then .infinity else .zero
  timeout := row.timeout
  expiresAt := row.expiresAt
  root := root

def lockDetailsFromRow (now : ℕ) (token : JsString) (row : LockRow) (root : JsString) : Option LockDetails :=
  normalizeLockDetails now (rowDetails token row root)

def activeLock (d : LockDetails) : JsString :=
  js "<activelock><locktype><write /></locktype><lockscope><" ++ d.scope.text ++ js " /></lockscope><depth>" ++
    d.depth.text ++ js "</depth>" ++
    ((d.owner.filter (fun o => o ≠ [])).map (fun o => js "<owner>" ++ escapeXml o ++ js "</owner>")).getD [] ++
    js "<timeout>" ++ escapeXml d.timeout ++ js "</timeout><locktoken><href>urn:uuid:" ++ escapeXml d.token ++
    js "</href></locktoken><lockroot><href>" ++ escapeXml d.root ++ js "</href></lockroot></activelock>"

def getLockDiscovery (ds : List LockDetails) : JsString := ds.flatMap activeLock

def supportedLock : JsString :=
  js "<lockentry><lockscope><exclusive /></lockscope><locktype><write /></locktype></lockentry>" ++
    js "<lockentry><lockscope><shared /></lockscope><locktype><write /></locktype></lockentry>"

/-! ### What a LOCK asks for -/

structure Timeout where
  timeout : JsString
  expiresAt : ℕ

def parseTimeoutItem (p : Platform) (now : ℕ) (item : JsString) : Option Timeout :=
  if p.toLowerCase item = js "infinite" then some ⟨js "Infinite", now + maxLockTimeout * 1000⟩
  else
    let digits := item.drop 7
    let seconds := digitsValue digits
    if (item.take 7).map asciiLower = js "second-" ∧ digits ≠ [] ∧ digits.all isDigitUnit ∧ seconds < numberLimit ∧
      0 < seconds then some ⟨secondsText (min seconds maxLockTimeout), now + min seconds maxLockTimeout * 1000⟩
    else none

def parseTimeout (p : Platform) (now : ℕ) (header : Option JsString) : Timeout :=
  let usual : Timeout := ⟨secondsText defaultLockTimeout, now + defaultLockTimeout * 1000⟩
  match header with
  | none => usual
  | some items => ((items.splitOn 44).findSome? (fun item => parseTimeoutItem p now (trim item))).getD usual

-- the positions of the lowered text are used in the text itself
def ownerFrom (lowerBody body : JsString) : ℕ → ℕ → Option JsString
  | 0, _ => none
  | fuel + 1, start => do
    let hit ← indexOf (js "<owner") lowerBody start
    let after := hit + 6
    if (body.drop after).head?.any (fun c => c = 62 ∨ isIfWhitespace c) then do
      let opening ← indexOf [62] body after
      let closing ← indexOf (js "</owner>") lowerBody (opening + 1)
      let trimmed := trim (slice body (opening + 1) closing)
      if trimmed = [] then none else some trimmed
    else ownerFrom lowerBody body fuel (hit + 1)

def extractLockOwner (p : Platform) (body : JsString) : Option JsString :=
  ownerFrom (p.toLowerCase body) body body.length 0

structure LockRequest where
  depthHeader : Option LockDepth
  -- an empty body asks for a refresh
  body : JsString
  requestedScope : LockScope
  owner : Option JsString
  depthTokens : List JsString
  timeout : Timeout

def parseLockRequest (p : Platform) (now : ℕ) (r : Incoming) : Except Response LockRequest :=
  if r.depth.any (fun d => d ≠ js "0" ∧ d ≠ js "infinity") then .error .badRequest
  else match r.readCappedText maxXmlBodyBytes with
    | none => .error .payloadTooLarge
    | some body =>
      if body ≠ [] ∧ !mentionsWord (js "<write") body then .error .badRequest
      else .ok {
        depthHeader := r.depth.map (fun d => if d = js "infinity" then .infinity else .zero)
        body := body
        requestedScope := if mentionsWord (js "<shared") body then .shared else .exclusive
        owner := extractLockOwner p body
        depthTokens := r.toRequest.getRequestLockTokens p
        timeout := parseTimeout p now r.timeout }

/-- What a fresh lock is called: hexadecimal digits and dashes. -/
def isUuid (s : JsString) : Bool :=
  s.length = 36 ∧ s.all (fun c => isDigitUnit c ∨ (97 ≤ c.val ∧ c.val ≤ 102) ∨ c = dash)

abbrev Uuid := { s : JsString // isUuid s = true }

end DurableDav.Dav
