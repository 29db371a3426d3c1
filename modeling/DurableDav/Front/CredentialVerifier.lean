import DurableDav.Front.Registry
import DurableDav.Library.Store
import Mathlib.Logic.Function.Basic

namespace DurableDav.Front

open Library

/-! ### Stored hashes -/

structure Verdict where
  ok : Bool
  needsRehash : Bool
  deriving DecidableEq

/-- The digests the verification rests on. -/
structure Digests where
  passwordFingerprint : JsString → JsString
  sha256Hex : JsString → JsString
  verifyPbkdf2 : JsString → JsString → Bool

def isHexDigit (c : CodeUnit) : Bool :=
  (48 ≤ c.val ∧ c.val ≤ 57) ∨ (97 ≤ c.val ∧ c.val ≤ 102) ∨ (65 ≤ c.val ∧ c.val ≤ 70)

def lowerHexDigit (c : CodeUnit) : CodeUnit :=
  if 65 ≤ c.val ∧ c.val ≤ 70 then c + 32 else c

namespace Digests

/-- `none` where the source throws: a stored value of neither format. -/
def verifyPassword (D : Digests) (password stored : JsString) : Option Verdict :=
  if (js "pbkdf2-sha256").isPrefixOf stored then some ⟨D.verifyPbkdf2 password stored, false⟩
  else if stored.length = 64 ∧ stored.all isHexDigit then
    let same : Bool := D.sha256Hex password = stored.map lowerHexDigit
    some ⟨same, same⟩
  else none

/-- The verdict where a throw is caught. -/
def verdict (D : Digests) (password stored : JsString) : Verdict :=
  (D.verifyPassword password stored).getD ⟨false, false⟩

def accepts (D : Digests) (password stored : JsString) : Bool := (D.verdict password stored).ok

def key (D : Digests) (username password : JsString) : JsString :=
  username ++ colon :: D.passwordFingerprint password

end Digests

/-! ### Caches of successful verifications -/

structure CacheEntry where
  passwordHash : JsString
  expiresAt : ℕ
  deriving DecidableEq

abbrev Verified := Store JsString CacheEntry

/-- Bounded by count, the oldest entry goes first. -/
def remember (ttlMs maxEntries : ℕ) (entries : Verified) (key passwordHash : JsString) (now : ℕ) : Verified :=
  let kept : Verified := if (entries.get key).isNone ∧ maxEntries ≤ entries.length then entries.tail else entries
  kept.set key ⟨passwordHash, now + ttlMs⟩

def deletePrefix (entries : Verified) (start : JsString) : Verified := entries.removeWhere start.isPrefixOf

namespace VerificationCache

def maxCacheEntries : ℕ := 200

def get (entries : Verified) (key passwordHash : JsString) (now : ℕ) : Bool × Verified :=
  match entries.get key with
  | none => (false, entries)
  | some hit =>
    if hit.expiresAt ≤ now then (false, entries.remove key)
    else (hit.passwordHash = passwordHash, entries)

def set (ttlMs : ℕ) (entries : Verified) (key passwordHash : JsString) (now : ℕ) : Verified :=
  remember ttlMs maxCacheEntries entries key passwordHash now

end VerificationCache

def defaultTtlMs : ℕ := 60000

def maxEntries : ℕ := 256

/-- Unlike the verifier's cache, the memo also drops an entry of another stored hash. -/
def lookupCredentialMemo (entries : Verified) (key passwordHash : JsString) (now : ℕ) : Bool × Verified :=
  match entries.get key with
  | none => (false, entries)
  | some hit =>
    if hit.expiresAt ≤ now then (false, entries.remove key)
    else if hit.passwordHash ≠ passwordHash then (false, entries.remove key)
    else (true, entries)

def rememberCredential (entries : Verified) (key passwordHash : JsString) (now : ℕ) : Verified :=
  remember defaultTtlMs maxEntries entries key passwordHash now

/-! ### Shards -/

def credentialShardCount : ℕ := 32

/-- The code point at the start of a text. -/
def codePointAt : JsString → ℕ
  | [] => 0
  | [c] => c.val
  | c :: d :: _ =>
    if isHighSurrogate c && isLowSurrogate d then 65536 + (c.val - 55296) * 1024 + (d.val - 56320) else c.val

def fnv (hash : BitVec 32) : JsString → BitVec 32
  | [] => hash
  | c :: rest => fnv ((hash ^^^ BitVec.ofNat 32 (codePointAt (c :: rest))) * 0x01000193#32) rest

def credentialShardOf (username : JsString) : ℕ := (fnv 0x811c9dc5#32 username).toNat % credentialShardCount

/-! ### Requests in flight -/

structure VerifyRequestBody where
  username : JsString
  password : JsString
  passwordHash : JsString
  deriving DecidableEq

structure VerifyOutcome where
  ok : Bool
  needsRehash : Bool
  upgradedHash : Option JsString
  deriving DecidableEq

namespace VerifyOutcome

def rejected : VerifyOutcome := ⟨false, false, none⟩

def known : VerifyOutcome := ⟨true, false, none⟩

end VerifyOutcome

/-- Where a request to the verifier object waits. `joined` waits for the derivation of another request,
`settled` has its own derivation's value and has not yet left the table of pending derivations. -/
inductive AskPhase
  | refused
  | fingerprinting
  | joined (pending : ℕ)
  | verifying
  | rehashing
  | settled (r : VerifyOutcome)
  | answered (r : VerifyOutcome)
  deriving DecidableEq

/-- An instance of a verifier object: its shard, and which of the object's lives. -/
structure Instance where
  shard : ℕ
  life : ℕ
  deriving DecidableEq

structure Ask where
  body : VerifyRequestBody
  home : Instance
  phase : AskPhase
  deriving DecidableEq

/-- Where a call of `verifyCredential` waits. -/
inductive CallPhase
  | fingerprinting
  | asking (request : ℕ)
  | verifying
  | rehashing
  | done (o : VerifyOutcome)
  deriving DecidableEq

structure Call where
  body : VerifyRequestBody
  isolate : ℕ
  phase : CallPhase
  deriving DecidableEq

structure Verifier where
  cache : Verified
  inflight : Store JsString ℕ

structure Deployment where
  now : ℕ
  memos : ℕ → Verified
  verifiers : Instance → Verifier
  asks : ℕ → Option Ask
  calls : ℕ → Option Call

namespace Deployment

def start : Deployment := ⟨0, fun _ => [], fun _ => ⟨[], []⟩, fun _ => none, fun _ => none⟩

def putMemo (w : Deployment) (isolate : ℕ) (memo : Verified) : Deployment :=
  { w with memos := Function.update w.memos isolate memo }

def putVerifier (w : Deployment) (home : Instance) (v : Verifier) : Deployment :=
  { w with verifiers := Function.update w.verifiers home v }

def putCache (w : Deployment) (home : Instance) (cache : Verified) : Deployment :=
  w.putVerifier home ⟨cache, (w.verifiers home).inflight⟩

def putInflight (w : Deployment) (home : Instance) (inflight : Store JsString ℕ) : Deployment :=
  w.putVerifier home ⟨(w.verifiers home).cache, inflight⟩

def putAsk (w : Deployment) (a : ℕ) (ask : Ask) : Deployment :=
  { w with asks := Function.update w.asks a (some ask) }

def putCall (w : Deployment) (n : ℕ) (call : Call) : Deployment :=
  { w with calls := Function.update w.calls n (some call) }

/-! ### The verifier object -/

/-- `fetch`: an empty field is a bad request, anything else starts `verify`. -/
def fetch (w : Deployment) (a : ℕ) (home : Instance) (body : VerifyRequestBody) : Deployment :=
  w.putAsk a ⟨body, home, if body.username = [] ∨ body.password = [] ∨ body.passwordHash = [] then .refused
    else .fingerprinting⟩

/-- `derive` starts, under the key of its request. -/
def derive (D : Digests) (w : Deployment) (a : ℕ) (ask : Ask) : Deployment :=
  let inflight := (w.verifiers ask.home).inflight
  (w.putInflight ask.home (inflight.set (D.key ask.body.username ask.body.password) a)).putAsk a
    { ask with phase := .verifying }

/-- `verify` from the fingerprint to its next wait. -/
def consult (D : Digests) (w : Deployment) (a : ℕ) (ask : Ask) : Deployment :=
  let v := w.verifiers ask.home
  let key := D.key ask.body.username ask.body.password
  let hit := VerificationCache.get v.cache key ask.body.passwordHash w.now
  let w := w.putCache ask.home hit.2
  if hit.1 then w.putAsk a { ask with phase := .answered .known }
  else match v.inflight.get key with
    | some pending => w.putAsk a { ask with phase := .joined pending }
    | none => w.derive D a ask

def settle (D : Digests) (ttlMs : ℕ) (w : Deployment) (a : ℕ) (ask : Ask) (needsRehash : Bool)
    (upgradedHash : Option JsString) : Deployment :=
  let cache := (w.verifiers ask.home).cache
  let key := D.key ask.body.username ask.body.password
  (w.putCache ask.home (VerificationCache.set ttlMs cache key ask.body.passwordHash w.now)).putAsk a
    { ask with phase := .settled ⟨true, needsRehash, upgradedHash⟩ }

/-- `derive` from the answer of `verifyPassword`. -/
def derived (D : Digests) (ttlMs : ℕ) (w : Deployment) (a : ℕ) (ask : Ask) : Deployment :=
  let found := D.verdict ask.body.password ask.body.passwordHash
  if !found.ok then w.putAsk a { ask with phase := .settled .rejected }
  else if found.needsRehash then w.putAsk a { ask with phase := .rehashing }
  else w.settle D ttlMs a ask false none

/-- The promise of a request's own derivation. -/
def promised (w : Deployment) (a : ℕ) : Option VerifyOutcome :=
  match (w.asks a).map Ask.phase with
  | some (.settled r) => some r
  | some (.answered r) => some r
  | _ => none

/-- `verify` after the derivation of another request: its verdict is trusted when it is `ok`. -/
def heard (D : Digests) (w : Deployment) (a : ℕ) (ask : Ask) (r : VerifyOutcome) : Deployment :=
  if r.ok then w.putAsk a { ask with phase := .answered .known } else w.derive D a ask

/-- `verify` after its own derivation. -/
def finish (D : Digests) (w : Deployment) (a : ℕ) (ask : Ask) (r : VerifyOutcome) : Deployment :=
  let inflight := (w.verifiers ask.home).inflight
  (w.putInflight ask.home (inflight.remove (D.key ask.body.username ask.body.password))).putAsk a
    { ask with phase := .answered r }

/-! ### The front door -/

def conclude (D : Digests) (w : Deployment) (n : ℕ) (call : Call) (o : VerifyOutcome) : Deployment :=
  let w := if o.ok then
      w.putMemo call.isolate (rememberCredential (w.memos call.isolate)
        (D.key call.body.username call.body.password) call.body.passwordHash w.now)
    else w
  w.putCall n { call with phase := .done o }

/-- `verifyCredential` from the fingerprint on. Without a verifier object it derives here. -/
def lookUp (D : Digests) (w : Deployment) (n : ℕ) (call : Call) (stub : Option (ℕ × ℕ)) : Deployment :=
  let hit := lookupCredentialMemo (w.memos call.isolate) (D.key call.body.username call.body.password)
    call.body.passwordHash w.now
  let w := w.putMemo call.isolate hit.2
  if hit.1 then w.putCall n { call with phase := .done .known }
  else match stub with
    | none => w.putCall n { call with phase := .verifying }
    | some (life, a) =>
      (w.fetch a ⟨credentialShardOf call.body.username, life⟩ call.body).putCall n { call with phase := .asking a }

/-- `verifyViaDo` has come back, with nothing where the hop failed or the reply was not readable. -/
def replied (D : Digests) (w : Deployment) (n : ℕ) (call : Call) (reply : Option VerifyOutcome) : Deployment :=
  match reply with
  | some o => w.conclude D n call o
  | none => w.putCall n { call with phase := .verifying }

/-- `verifyLocally` from the answer of `verifyPassword`. -/
def verifiedLocally (D : Digests) (w : Deployment) (n : ℕ) (call : Call) : Deployment :=
  let found := D.verdict call.body.password call.body.passwordHash
  if !found.ok then w.conclude D n call .rejected
  else if found.needsRehash then w.putCall n { call with phase := .rehashing }
  else w.conclude D n call .known

end Deployment

/-! ### Steps -/

/-- What happens next. New requests bring the name they go by. -/
inductive Happening
  | clock (now : ℕ)
  | present (n isolate : ℕ) (body : VerifyRequestBody)
  | lookUp (n : ℕ) (stub : Option (ℕ × ℕ))
  | reply (n : ℕ)
  | lost (n : ℕ)
  | verified (n : ℕ)
  | rehashed (n : ℕ) (upgradedHash : Option JsString)
  | forgetCredential (isolate : ℕ) (username : JsString)
  | fetch (a : ℕ) (home : Instance) (body : VerifyRequestBody)
  | consult (a : ℕ)
  | derived (a : ℕ)
  | upgraded (a : ℕ) (upgradedHash : Option JsString)
  | resume (a : ℕ)
  | invalidate (home : Instance) (username : JsString)

namespace Deployment

def atCall (w : Deployment) (n : ℕ) (f : Call → Option Deployment) : Option Deployment := (w.calls n).bind f

def atAsk (w : Deployment) (a : ℕ) (f : Ask → Option Deployment) : Option Deployment := (w.asks a).bind f

/-- One step, `none` where it cannot be taken. -/
def step (D : Digests) (ttlMs : ℕ) (w : Deployment) : Happening → Option Deployment
  | .clock now => some { w with now }
  | .present n isolate body =>
    if (w.calls n).isSome then none else some (w.putCall n ⟨body, isolate, .fingerprinting⟩)
  | .lookUp n stub =>
    if stub.any (fun s => (w.asks s.2).isSome) then none
    else w.atCall n fun call => if call.phase = .fingerprinting then some (w.lookUp D n call stub) else none
  | .reply n => w.atCall n fun call => match call.phase with
    | .asking a => w.atAsk a fun ask => match ask.phase with
      | .refused => some (w.replied D n call none)
      | .answered r => some (w.replied D n call (some r))
      | _ => none
    | _ => none
  | .lost n => w.atCall n fun call => match call.phase with
    | .asking _ => some (w.replied D n call none)
    | _ => none
  | .verified n => w.atCall n fun call =>
    if call.phase = .verifying then some (w.verifiedLocally D n call) else none
  | .rehashed n upgradedHash => w.atCall n fun call =>
    if call.phase = .rehashing then some (w.conclude D n call ⟨true, true, upgradedHash⟩) else none
  | .forgetCredential isolate username =>
    some (w.putMemo isolate (deletePrefix (w.memos isolate) (username ++ [colon])))
  | .fetch a home body => if (w.asks a).isSome then none else some (w.fetch a home body)
  | .consult a => w.atAsk a fun ask =>
    if ask.phase = .fingerprinting then some (w.consult D a ask) else none
  | .derived a => w.atAsk a fun ask =>
    if ask.phase = .verifying then some (w.derived D ttlMs a ask) else none
  | .upgraded a upgradedHash => w.atAsk a fun ask =>
    if ask.phase = .rehashing then some (w.settle D ttlMs a ask true upgradedHash) else none
  | .resume a => w.atAsk a fun ask => match ask.phase with
    | .joined pending => (w.promised pending).map (w.heard D a ask)
    | .settled r => some (w.finish D a ask r)
    | _ => none
  | .invalidate home username =>
    some (w.putCache home (deletePrefix (w.verifiers home).cache (username ++ [colon])))

end Deployment

end DurableDav.Front
