import DurableDav.Front.Registry
import DurableDav.Library.Runs
import DurableDav.Library.Store

namespace DurableDav.Front

open Library

/-! ### The rules of a handle -/

def reservedNamespaceNames : List JsString :=
  [js "health", js "docs", js "repos", js "users", js "user", js "api", js "settings", js "new", js "search",
    js "notifications", js "login", js "logout", js "signin", js "signup", js "sso", js "oauth", js "admin", js "root",
    js "system", js "support", js "help", js "about", js "status", js "security", js "contact", js "orgs",
    js "organizations", js "explore", js "trending", js "stars", js "topics", js "collections", js "features",
    js "pricing", js "marketplace", js "gist", js "gists", js "git", js "ssh", js "assets", js "static", js "public",
    js "realtime", js "dashboard", js "home", js "profile", js "profiles", js "account", js "accounts", js "billing",
    js "invitations", js "enterprise"]

def isReservedNamespaceName (C : Casing) (name : JsString) : Bool :=
  C.toLowerCase (trim name) ∈ reservedNamespaceNames

def isLowerAlphanumeric (c : CodeUnit) : Bool := (97 ≤ c.val ∧ c.val ≤ 122) ∨ (48 ≤ c.val ∧ c.val ≤ 57)

def atSign : CodeUnit := 64

def collapseDashes : JsString → JsString
  | [] => []
  | c :: rest => if c = dash ∧ rest.head? = some dash then collapseDashes rest else c :: collapseDashes rest

def trimDashes (s : JsString) : JsString :=
  ((s.dropWhile (fun c => c = dash)).reverse.dropWhile (fun c => c = dash)).reverse

-- what is no lower-case letter or digit becomes a dash, be it one code unit or two
def sanitize (C : Casing) (email : JsString) : JsString :=
  trimDashes (collapseDashes ((C.toLowerCase (email.takeWhile (fun c => c ≠ atSign))).map
    (fun c => if isLowerAlphanumeric c then c else dash)))

def deriveUsernameCandidate (C : Casing) (email : JsString) : JsString :=
  if isValidUsername (sanitize C email) then sanitize C email
  else if (sanitize C email).filter isLowerAlphanumeric ≠ [] then
    ((sanitize C email).filter isLowerAlphanumeric).take usernameMaxLength
  else js "user"

/-! ### The two registries -/

structure Account where
  id : JsString
  anchorEmail : JsString
  id_ne : id ≠ []
  deriving DecidableEq

structure NamespaceRow where
  userEmail : Option JsString
  userId : Option JsString
  deriving DecidableEq

structure UserRow where
  email : JsString
  username : Option JsString
  deriving DecidableEq

structure Registries where
  users : Store JsString UserRow
  namespaces : Store JsString NamespaceRow
  deriving DecidableEq

def Account.claimRow (a : Account) : NamespaceRow := ⟨some a.anchorEmail, some a.id⟩

def namespaceBelongsTo (C : Casing) (row : NamespaceRow) (account : Account) : Bool :=
  if row.userId.any (fun id => id ≠ []) then row.userId = some account.id
  else row.userEmail.map C.toLowerCase = some (C.toLowerCase account.anchorEmail)

def userBelongsTo (C : Casing) (id : JsString) (row : UserRow) (account : Account) : Bool :=
  if id ≠ [] then id = account.id else C.toLowerCase row.email = C.toLowerCase account.anchorEmail

namespace Registries

variable (C : Casing) (d : Registries)

def username (id : JsString) : Option JsString := (Store.get d.users id).bind UserRow.username

def registerAccount (a : Account) : Registries :=
  if (Store.get d.users a.id).isSome then d else { d with users := Store.put d.users a.id ⟨a.anchorEmail, none⟩ }

def getByUsernameCi (usernameCi : JsString) : Option (JsString × UserRow) :=
  d.users.find? fun e => e.2.username.map C.toLowerCase = some usernameCi

def setUsername (a : Account) (handle : JsString) : Registries :=
  match Store.get d.users a.id with
  | some row => { d with users := Store.put d.users a.id { row with username := some handle } }
  | none => d

/-- Only where no handle stands yet. -/
def ensureUsername (a : Account) (handle : JsString) : Registries :=
  if d.username a.id = none then d.setUsername a handle else d

def claimIgnore (a : Account) (usernameCi : JsString) : Registries :=
  if (Store.get d.namespaces usernameCi).isSome then d
  else { d with namespaces := Store.put d.namespaces usernameCi a.claimRow }

def release (usernameCi : JsString) : Registries := { d with namespaces := Store.remove d.namespaces usernameCi }

end Registries

/-! ### The calls, cut where they wait for a registry -/

inductive HandleCall
  | resolve (a : Account)
  | register (a : Account)
  | probe (a : Account) (base : JsString) (left : ℕ) (candidate : JsString)
  | lookup (a : Account) (base : JsString) (left : ℕ) (candidate : JsString)
  | ensure (a : Account) (handle : JsString)
  | claimIgnore (a : Account) (handle : JsString)
  | resolveRename (a : Account) (handleCi : JsString)
  | inspect (a : Account) (handleCi : JsString)
  | inspectTaken (a : Account) (handleCi : JsString)
  | inspectUser (a : Account) (handleCi : JsString)
  | claim (a : Account) (handleCi : JsString)
  | reget (a : Account) (handleCi : JsString)
  | retaken (a : Account) (handleCi : JsString)
  | set (a : Account) (handleCi : JsString) (claimedFresh : Bool)
  | release (a : Account) (handleCi : JsString)
  | ended
  deriving DecidableEq

/-- What becomes of a statement; that of a lost reply has taken effect. -/
inductive Reply
  | done
  | failed
  | lost
  deriving DecidableEq

def Reply.perform (reply : Reply) (d d' : Registries) : Registries := if reply = .failed then d else d'

def usernameAttempts : ℕ := 50

def nextCandidate (base : JsString) (left : ℕ) : JsString := base ++ dash :: decimal (usernameAttempts - left)

section Calls

variable (C : Casing)

/-- A reserved candidate is passed over without a read; after the last attempt the time is appended, unread. -/
def findFreeUsername (now : ℕ) (a : Account) (base : JsString) : ℕ → JsString → HandleCall
  | 0, _ => .ensure a (base ++ dash :: inBase 36 now)
  | left + 1, candidate =>
    if isReservedNamespaceName C (C.toLowerCase candidate) then findFreeUsername now a base left (nextCandidate base left)
    else .probe a base left candidate

def bootstrapUsername (now : ℕ) (a : Account) (username : Option JsString) : HandleCall :=
  if username.any (fun u => u ≠ []) then .ended
  else
    let base := deriveUsernameCandidate C a.anchorEmail
    findFreeUsername C now a base usernameAttempts base

def HandleCall.advance (reply : Reply) (now : ℕ) (d : Registries) : HandleCall → Registries × HandleCall
  | .resolve a =>
    if reply ≠ .done then (d, .ended)
    else match Store.get d.users a.id with
      | some row => (d, bootstrapUsername C now a row.username)
      | none => (d, .register a)
  | .register a =>
    (reply.perform d (d.registerAccount a), if reply = .done then bootstrapUsername C now a none else .ended)
  | .probe a base left candidate =>
    if reply = .done ∧ (Store.get d.namespaces (C.toLowerCase candidate)).isSome then
      (d, findFreeUsername C now a base left (nextCandidate base left))
    else (d, .lookup a base left candidate)
  | .lookup a base left candidate =>
    if reply = .done ∧ (d.getByUsernameCi C (C.toLowerCase candidate)).isSome then
      (d, findFreeUsername C now a base left (nextCandidate base left))
    else (d, .ensure a candidate)
  | .ensure a handle =>
    (reply.perform d (d.ensureUsername a handle), if reply = .done then .claimIgnore a handle else .ended)
  -- never fail authentication because of profile bootstrap
  | .claimIgnore a handle => (reply.perform d (d.claimIgnore a (C.toLowerCase handle)), .ended)
  | .resolveRename a handleCi =>
    if reply ≠ .done then (d, .ended)
    else match Store.get d.users a.id with
      | some row => (d, if row.username.map C.toLowerCase = some handleCi then .ended else .inspect a handleCi)
      | none => (d, .ended)
  | .inspect a handleCi =>
    -- an unverifiable registry counts as taken
    if reply ≠ .done then (d, .ended)
    else match Store.get d.namespaces handleCi with
      | some row => (d, if namespaceBelongsTo C row a then .inspectUser a handleCi else .ended)
      | none => (d, .inspectTaken a handleCi)
  | .inspectTaken a handleCi =>
    if reply = .done ∧ (Store.get d.namespaces handleCi).isSome then (d, .ended) else (d, .inspectUser a handleCi)
  | .inspectUser a handleCi =>
    if reply ≠ .done then (d, .claim a handleCi)
    else match d.getByUsernameCi C handleCi with
      | some found => (d, if userBelongsTo C found.1 found.2 a then .claim a handleCi else .ended)
      | none => (d, .claim a handleCi)
  | .claim a handleCi =>
    if reply = .done ∧ (Store.get d.namespaces handleCi).isNone then (d.claimIgnore a handleCi, .set a handleCi true)
    else (reply.perform d (d.claimIgnore a handleCi), .reget a handleCi)
  | .reget a handleCi =>
    if reply ≠ .done then (d, .ended)
    else if (Store.get d.namespaces handleCi).any (fun row => namespaceBelongsTo C row a) then (d, .set a handleCi false)
    else (d, .retaken a handleCi)
  | .retaken _ _ => (d, .ended)
  | .set a handleCi claimedFresh =>
    (reply.perform d (d.setUsername a handleCi),
      if reply ≠ .done ∧ claimedFresh then .release a handleCi else .ended)
  | .release _ handleCi => (reply.perform d (d.release handleCi), .ended)
  | .ended => (d, .ended)

end Calls

/-! ### Calls beside each other -/

/-- The calls in progress, and every handle that an account has ever had. -/
structure HandleSystem extends Registries where
  calls : List HandleCall
  held : List (JsString × JsString)
  deriving DecidableEq

inductive Move
  | upsertUser (a : Account)
  | renameUsername (a : Account) (newUsername : JsString)
  | turn (i : ℕ) (reply : Reply) (now : ℕ)

section Moves

variable (C : Casing)

def Registries.handles (d : Registries) : List (JsString × JsString) :=
  (Store.keys d.users).filterMap fun id => (d.username id).map fun u => (id, C.toLowerCase u)

def HandleSystem.turned (s : HandleSystem) (i : ℕ) (d : Registries) (c : HandleCall) : HandleSystem :=
  ⟨d, s.calls.set i c, d.handles C ++ s.held⟩

def HandleSystem.step (s : HandleSystem) : Move → Option HandleSystem
  | .upsertUser a => some { s with calls := s.calls ++ [.resolve a] }
  | .renameUsername a newUsername =>
    let handle := trim newUsername
    if isValidUsername handle ∧ !isReservedNamespaceName C handle then
      some { s with calls := s.calls ++ [.resolveRename a (C.toLowerCase handle)] }
    else some s
  | .turn i reply now => do
    let c ← s.calls[i]?
    let next := c.advance C reply now s.toRegistries
    some (s.turned C i next.1 next.2)

end Moves

def HandleSystem.start : HandleSystem := ⟨⟨[], []⟩, [], []⟩

end DurableDav.Front
