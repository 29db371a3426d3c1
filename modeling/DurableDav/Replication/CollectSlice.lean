import DurableDav.Replication.SweepWindow
import DurableDav.Replication.Transfers

namespace DurableDav.Replication

open Library

/-! ### One collection, seen from both sides -/

structure CollectionListing where
  localEntries : List PlanSide
  remoteEntries : List PlanSide
  complete : Bool
  errors : ℕ
  firstError : Option JsString

namespace CollectionListing

def empty : CollectionListing := ⟨[], [], true, 0, none⟩

def sideText : Side → JsString
  | .localSide => js " locally: "
  | .remoteSide => js " remotely: "

def message (path : JsString) (side : Side) (reason : JsString) : JsString :=
  js "listing " ++ path ++ sideText side ++ reason

def unusable (path : JsString) (side : Side) (entries : List PlanSide) : Option JsString :=
  (entries.find? (fun e => !isValidInnerPath e.path)).map (fun e =>
    message path side (js "entry " ++ jsonStringify e.path ++ js " is not a usable path"))

def usable (entries : List PlanSide) : List PlanSide := entries.filter (fun e => isValidInnerPath e.path)

def fail (l : CollectionListing) (path : JsString) (side : Side) (reason : JsString) : CollectionListing :=
  -- only the local side clears the flag here, the walk does it for both by the number of errors
  { l with
    complete := l.complete && side = .remoteSide
    errors := l.errors + 1
    firstError := l.firstError.or (some (message path side reason)) }

def take (l : CollectionListing) (path : JsString) (side : Side) (listing : ReplicaListing) : CollectionListing where
  localEntries := if side = .localSide then usable listing.entries else l.localEntries
  remoteEntries := if side = .remoteSide then usable listing.entries else l.remoteEntries
  complete := l.complete && listing.complete && (unusable path side listing.entries).isNone
  errors := l.errors
  firstError := l.firstError.or (unusable path side listing.entries)

def receive (l : CollectionListing) (path : JsString) (side : Side) :
    Except JsString ReplicaListing → CollectionListing
  | .ok listing => l.take path side listing
  | .error reason => l.fail path side reason

def entries (l : CollectionListing) : List PlanSide := l.localEntries ++ l.remoteEntries

def children (l : CollectionListing) (path : JsString) (visited : List JsString) : List JsString :=
  sweepSort ((l.entries.filter (fun e => e.isCollection ∧ e.path ≠ path ∧ e.path ∉ visited)).map PlanSide.path).dedup

end CollectionListing

def Env.listCollection (env : Env) (path : JsString) : Run CollectionListing := do
  let localListing ← (env.listReplicaChildren path).attempt
  let remoteListing ← (env.list path).attempt
  pure ((CollectionListing.empty.receive path .localSide localListing).receive path .remoteSide remoteListing)

/-! ### The walk -/

structure FrontierLevel where
  children : List JsString
  next : ℕ
  deriving DecidableEq

/-- How deep a cursor may be. -/
def maxResumeDepth : ℕ := 256

structure Walk where
  localByPath : Store JsString PlanSide
  remoteByPath : Store JsString PlanSide
  visited : List JsString
  frontier : List FrontierLevel
  complete : Bool
  errors : ℕ
  firstError : Option JsString
  cursor : Option JsString

def setAll (index : Store JsString PlanSide) (entries : List PlanSide) : Store JsString PlanSide :=
  entries.foldl (fun index e => Store.put index e.path e) index

def nextSibling : List FrontierLevel → Option JsString × List FrontierLevel
  | [] => (none, [])
  | level :: above => match level.children[level.next]? with
    | some path => (some path, { level with next := level.next + 1 } :: above)
    | none => nextSibling above

namespace Walk

def start (cursor : Option JsString) : Walk := ⟨[], [], [], [], true, 0, none, cursor⟩

def mark (w : Walk) (path : JsString) : Walk :=
  { w with visited := if path ∈ w.visited then w.visited else path :: w.visited }

def see (w : Walk) (l : CollectionListing) : Walk :=
  { w with
    localByPath := setAll w.localByPath l.localEntries
    remoteByPath := setAll w.remoteByPath l.remoteEntries
    complete := w.complete && l.complete
    errors := w.errors + l.errors
    firstError := w.firstError.or l.firstError }

def push (w : Walk) (level : FrontierLevel) : Walk := { w with frontier := level :: w.frontier }

def abandon (w : Walk) : Walk := { w with frontier := [] }

def reach (w : Walk) (path : JsString) : Walk :=
  { w with cursor := match w.cursor with
    | none => some path
    | some cursor => if 0 ≤ sweepOrderCompare path cursor then some path else some cursor }

def advance (w : Walk) (children : List JsString) : Walk × Option JsString :=
  match children with
  | child :: _ => (w.push ⟨children, 1⟩, some child)
  | [] => ({ w with frontier := (nextSibling w.frontier).2 }, (nextSibling w.frontier).1)

def remaining (w : Walk) : ℕ := (w.frontier.map (fun level => level.children.length - level.next)).sum

end Walk

namespace Env

variable (env : Env)

def visit (w : Walk) (path : JsString) : Run (Walk × List JsString) := do
  let listing ← env.listCollection path
  pure (w.see listing, listing.children path w.visited)

def resumeLevels : List JsString → Walk → Run (Walk × Bool)
  | parent :: child :: rest, w => do
    let (w, children) ← env.visit (w.mark parent) parent
    if child ∈ children then
      resumeLevels (child :: rest) (w.push ⟨children, children.idxOf child + 1⟩)
    else pure (w.abandon, false)
  | _, w => pure (w, true)

def resumeFrontier (w : Walk) (path : JsString) : Run (Walk × Bool) :=
  if maxResumeDepth < (sweepAncestorChain path).length then pure (w.abandon, false)
  else env.resumeLevels (sweepAncestorChain path) w

/-- The walk, where it stands and whether it goes on from a cursor. -/
def openWalk : Option JsString → Run (Walk × JsString × Bool)
  | none => pure (.start none, [], false)
  | some path => do
    let (w, resumed) ← env.resumeFrontier (.start (some path)) path
    if resumed then pure (w, path, true) else pure ({ w with cursor := none }, [], false)

def step (w : Walk) (path : JsString) : Run (Walk × Option JsString) := do
  let (w, children) ← env.visit (w.mark path) path
  pure ((w.reach path).advance children)

def sweep (deadlineMs : ℕ) : ℕ → Walk → Option JsString → Run (Walk × Option JsString)
  | 0, w, current => pure (w, current)
  | _ + 1, w, none => pure (w, none)
  | budget + 1, w, some path => do
    let now ← env.now
    if deadlineMs ≤ now then pure (w, some path)
    else do
      let (w, next) ← env.step w path
      sweep deadlineMs budget w next

def baseForVisited (visited : List JsString) : Run (List PlanBase) := do
  let recorded ← env.loadReplicaStateRows
  pure ((recorded.filter (fun row => row.path ≠ [] ∧ parentOf row.path ∈ visited)).map
    ReplicaStateRow.toPlanBase)

end Env

def Walk.toSlice (w : Walk) (current : Option JsString) (base : List PlanBase) : Slice where
  localByPath := w.localByPath
  remoteByPath := w.remoteByPath
  base := base
  complete := w.complete && w.errors = 0
  errors := w.errors
  firstError := w.firstError
  remaining := if current.isSome ∧ w.remaining = 0 then 1 else w.remaining
  cursor := if current.isNone then none else w.cursor

-- the first step of a resumed walk reads the cursor again and spends nothing
def walkBudget (maxCollections : ℕ) (resumed : Bool) : ℕ :=
  if resumed ∧ 0 < maxCollections then maxCollections + 1 else maxCollections

def Env.collectSlice (env : Env) (maxCollections deadlineMs : ℕ) (resumeFrom : Option JsString) : Run Slice := do
  let (w, current, resumed) ← env.openWalk resumeFrom
  let (w, current) ← env.sweep deadlineMs (walkBudget maxCollections resumed) w (some current)
  let base ← env.baseForVisited w.visited
  pure (w.toSlice current base)

end DurableDav.Replication
