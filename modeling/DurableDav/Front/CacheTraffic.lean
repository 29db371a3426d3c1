import DurableDav.Library.Runs
import DurableDav.Dav.Serving
import DurableDav.Front.ReadServing

namespace DurableDav.Front

open Library Dav

/-! ### What is kept, and where -/

inductive Domain
  | metadata
  | asset
  deriving DecidableEq

def contentDomains : List Domain := [.metadata, .asset]

inductive CacheKey
  | asset (inner : JsString)
  | metadata (inner depth bodyHash : JsString)
  deriving DecidableEq

def CacheKey.domain : CacheKey → Domain
  | .asset _ => .asset
  | .metadata _ _ _ => .metadata

inductive Kept
  | file (e : CachedFile)
  | propfind (e : CachedPropfind)
  deriving DecidableEq

/-- An entry, with the number of writes that the volume had seen when it answered. -/
structure Stamped where
  kept : Kept
  built : ℕ
  deriving DecidableEq

abbrev Cache := Store CacheKey Stamped

def purge (cache : Cache) (d : Domain) : Cache := cache.removeWhere fun key => key.domain = d

def contentInvalidatingMethods : List JsString :=
  [js "PUT", js "DELETE", js "MKCOL", js "COPY", js "MOVE", js "PROPPATCH"]

def invalidatesReadCache (method : JsString) : Bool := contentInvalidatingMethods.contains method

def methodOf : Verb → JsString
  | .put _ => js "PUT"
  | .delete => js "DELETE"
  | .mkcol => js "MKCOL"
  | .proppatch => js "PROPPATCH"
  | .copy => js "COPY"
  | .move => js "MOVE"
  | .lock _ => js "LOCK"
  | .unlock => js "UNLOCK"

/-! ### Reads -/

inductive Reading
  | get (headOnly : Bool)
  | propfind (bases : DavBases)

/-- A read; the browser plane hands it on and keeps nothing. -/
structure Query where
  browser : Bool
  reading : Reading
  request : Incoming
  inner : JsString
  path : JsString

namespace Query

variable (K : KeyDigest) (volumeKey : JsString) (q : Query)

def key : CacheKey := match q.reading with
  | .get _ => .asset q.inner
  | .propfind _ => .metadata q.inner (depthOf q.request) (K.digest128 q.request.text)

/-- The answer from an entry, where the request may have it and it is one. -/
def fromCache (kept : Kept) : Option ReadResponse := match q.reading, kept with
  | .get headOnly, .file e =>
    if q.request.range.isNone ∧ e.etag ≠ [] then some (respondFromCachedFile e q.request.ifNoneMatch headOnly) else none
  | .propfind _, .propfind e =>
    if isCacheableDepth (depthOf q.request) ∧ e.etag ≠ [] then
      some (respondFromCachedPropfind e q.request.ifNoneMatch) else none
  | _, _ => none

def object (env : Env) (v : Volume) : ReadResponse := match q.reading with
  | .get headOnly => objectGet env v q.request q.path headOnly
  | .propfind bases => objectPropfind env v q.request q.path bases

/-- The answer made of the object's, and what there is to keep. -/
def fromObject (response : ReadResponse) : ReadResponse × Option Kept :=
  if q.browser then (response, none)
  else match q.reading with
    | .get headOnly =>
      let served := serveGet q.inner q.request headOnly none response
      (served.1, served.2.map .file)
    | .propfind _ =>
      let served := servePropfind K volumeKey q.inner q.request none response
      (served.1, served.2.map .propfind)

end Query

inductive ReaderPhase
  | looking
  | asking
  | storing (kept : Kept) (built : ℕ) (answer : ReadResponse)
  | answered (answer : ReadResponse) (fromEntry : Option ℕ)
  deriving DecidableEq

structure Reader where
  query : Query
  -- the writes of the requests that had completed when this one came
  settled : List ℕ
  phase : ReaderPhase

/-! ### Writes -/

/-- A request that writes, on either plane, or a slice of a replication. -/
inductive Work
  | request (x : Exchange)
  | slice

inductive WriterPhase
  | asking
  | purging (rest purged : List Domain)
  | done
  deriving DecidableEq

structure Writer where
  work : Work
  phase : WriterPhase

structure WriteRecord where
  writer : ℕ
  before : Volume
  after : Volume

structure Traffic where
  volume : Volume
  writes : List WriteRecord
  cache : Cache
  readers : ℕ → Option Reader
  writers : ℕ → Option Writer

/-- What happens next. `ok` is false where the cache cannot be reached, `replied` where the object's answer is lost. -/
inductive Event
  | read (n : ℕ) (q : Query)
  | lookUp (n : ℕ) (ok : Bool)
  | ask (n : ℕ) (env : Env)
  | store (n : ℕ) (ok : Bool)
  | write (n : ℕ) (work : Work)
  | apply (n : ℕ) (env : Env) (replied : Bool)
  | sliceWrite (n : ℕ) (env : Env) (operation : ReplicaOperation)
  | sliceEnd (n : ℕ) (ok : Bool)
  | purge (n : ℕ) (ok : Bool)
  | finish (n : ℕ)
  | expire (key : CacheKey)

namespace Traffic

def start (v : Volume) : Traffic := ⟨v, [], [], fun _ => none, fun _ => none⟩

def putReader (s : Traffic) (n : ℕ) (r : Reader) : Traffic :=
  { s with readers := Function.update s.readers n (some r) }

def putWriter (s : Traffic) (n : ℕ) (w : Writer) : Traffic :=
  { s with writers := Function.update s.writers n (some w) }

def putCache (s : Traffic) (cache : Cache) : Traffic := { s with cache }

/-- The volume's object has written. -/
def wrote (s : Traffic) (n : ℕ) (after : Volume) : Traffic :=
  { s with volume := after, writes := s.writes ++ [⟨n, s.volume, after⟩] }

def isDone (s : Traffic) (n : ℕ) : Bool := (s.writers n).any fun w => w.phase = .done

/-- The writes whose requests have completed. -/
def settled (s : Traffic) : List ℕ :=
  (List.range s.writes.length).filter fun k => s.writes[k]?.any fun w => s.isDone w.writer

/-! ### Steps -/

variable (K : KeyDigest) (volumeKey : JsString)

def read (s : Traffic) (n : ℕ) (q : Query) : Traffic :=
  s.putReader n ⟨q, s.settled, if q.browser then .asking else .looking⟩

/-- `getCachedFile` and `getCachedPropfind`. -/
def found (s : Traffic) (q : Query) : Option Stamped :=
  if isCacheablePath q.inner then s.cache.get (q.key K) else none

def lookUp (s : Traffic) (n : ℕ) (r : Reader) (ok : Bool) : Traffic :=
  let hit := (s.found K r.query).bind fun e => (r.query.fromCache e.kept).map (·, e.built)
  match if ok then hit else none with
  | some (answer, built) => s.putReader n { r with phase := .answered answer (some built) }
  | none => s.putReader n { r with phase := .asking }

def ask (s : Traffic) (n : ℕ) (r : Reader) (env : Env) : Traffic :=
  match r.query.fromObject K volumeKey (r.query.object env s.volume) with
  | (answer, some kept) => s.putReader n { r with phase := .storing kept s.writes.length answer }
  | (answer, none) => s.putReader n { r with phase := .answered answer none }

def store (s : Traffic) (n : ℕ) (r : Reader) (kept : Kept) (built : ℕ) (answer : ReadResponse) (ok : Bool) : Traffic :=
  let s := s.putReader n { r with phase := .answered answer none }
  if ok then s.putCache (s.cache.put (r.query.key K) ⟨kept, built⟩) else s

def apply (s : Traffic) (n : ℕ) (x : Exchange) (env : Env) (replied : Bool) : Traffic :=
  (s.wrote n (Env.after (env.serve x) s.volume)).putWriter n ⟨.request x,
    .purging (if replied ∧ invalidatesReadCache (methodOf x.verb) then contentDomains else []) []⟩

/-- Where a slice fails it is not followed by a purge. -/
def sliceEnd (s : Traffic) (n : ℕ) (ok : Bool) : Traffic :=
  s.putWriter n ⟨.slice, .purging (if ok then contentDomains else []) []⟩

def purge (s : Traffic) (n : ℕ) (work : Work) (d : Domain) (rest purged : List Domain) (ok : Bool) : Traffic :=
  if ok then (s.putCache (Front.purge s.cache d)).putWriter n ⟨work, .purging rest (d :: purged)⟩
  else s.putWriter n ⟨work, .purging rest purged⟩

/-- One step, `none` where it cannot be taken. -/
def step (s : Traffic) : Event → Option Traffic
  | .read n q => if (s.readers n).isSome then none else some (s.read n q)
  | .lookUp n ok => (s.readers n).bind fun r => match r.phase with
    | .looking => some (s.lookUp K n r ok)
    | _ => none
  | .ask n env => (s.readers n).bind fun r => match r.phase with
    | .asking => some (s.ask K volumeKey n r env)
    | _ => none
  | .store n ok => (s.readers n).bind fun r => match r.phase with
    | .storing kept built answer => some (s.store K n r kept built answer ok)
    | _ => none
  | .write n work => if (s.writers n).isSome then none else some (s.putWriter n ⟨work, .asking⟩)
  | .apply n env replied => (s.writers n).bind fun w => match w.work, w.phase with
    | .request x, .asking => some (s.apply n x env replied)
    | _, _ => none
  | .sliceWrite n env operation => (s.writers n).bind fun w => match w.work, w.phase with
    | .slice, .asking => some (s.wrote n (Env.after (env.applyOne operation) s.volume))
    | _, _ => none
  | .sliceEnd n ok => (s.writers n).bind fun w => match w.work, w.phase with
    | .slice, .asking => some (s.sliceEnd n ok)
    | _, _ => none
  | .purge n ok => (s.writers n).bind fun w => match w.phase with
    | .purging (d :: rest) purged => some (s.purge n w.work d rest purged ok)
    | _ => none
  | .finish n => (s.writers n).bind fun w => match w.phase with
    | .purging [] _ => some (s.putWriter n { w with phase := .done })
    | _ => none
  | .expire key => some (s.putCache (s.cache.remove key))

end Traffic

end DurableDav.Front
