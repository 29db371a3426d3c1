import DurableDav.Replication.Volume

namespace DurableDav.Replication

open Library

inductive Call
  | beginPass
  | buildRemote
  | recordRun
  | recordConflict
  | probe
  | loadState
  | list (side : Side) (path : JsString)
  | read (side : Side) (path : JsString)
  | write (side : Side) (path : JsString)
  | mkdir (side : Side) (path : JsString)
  | unlink (side : Side) (path : JsString)
  | stat (path : JsString)
  | saveState
  deriving DecidableEq

inductive Answer
  | performs
  | rejects (reason : JsString)
  | blank
  | cut (keep : JsString → Bool)

structure Validators where
  etag : Option JsString
  mtime : Option ℤ
  size : Option ℕ
  deriving DecidableEq

structure Env where
  sibling : Bool
  answer : ℕ → Answer
  clock : ℕ → ℕ
  mint : ℕ → Validators
  unlinked : ℕ → JsString → Bool
  sha256HexOfBytes : Bytes → JsString

structure ReplicaStateRow extends PlanBase where
  syncedAt : ℕ
  deriving DecidableEq

inductive RunStatus
  | ok
  | partly
  | failed
  deriving DecidableEq, Repr

structure PassRow where
  lastRunAt : Option ℕ
  lastStatus : Option RunStatus
  lastError : Option JsString
  consecutiveFailures : ℕ
  enabled : Bool
  passStartedAt : Option ℕ
  cursorPath : Option JsString
  cursorRemaining : ℕ
  deriving DecidableEq

structure ConflictRow extends PlanConflict where
  createdAt : ℕ
  deriving DecidableEq

inductive Event
  | opened (collections : List JsString)
  | answered (call : Call)
  | rejected (call : Call)
  | blank (call : Call)
  | cut (call : Call)
  | applies (d : ReplicationDecision)
  | failed (d : ReplicationDecision)
  | removed (side : Side) (path : JsString) (files : List JsString)
  deriving DecidableEq

structure World where
  localTree : Tree
  remoteTree : Tree
  rows : Store JsString ReplicaStateRow
  pass : PassRow
  conflicts : List ConflictRow
  calls : ℕ
  log : List Event

namespace World

def tree (w : World) : Side → Tree
  | .localSide => w.localTree
  | .remoteSide => w.remoteTree

def setTree (w : World) (side : Side) (t : Tree) : World :=
  match side with
  | .localSide => { w with localTree := t }
  | .remoteSide => { w with remoteTree := t }

def tick (w : World) : World := { w with calls := w.calls + 1 }

def note (w : World) (e : Event) : World := { w with log := e :: w.log }

end World

abbrev Run (α : Type) := Act World JsString α

def noteEvent (e : Event) : Run Unit := .modify (fun w => w.note e)

def onSide {α : Type} (side : Side) (x : Act Tree JsString α) : Run α :=
  ⟨fun w => ((x.run (w.tree side)).1, w.setTree side (x.run (w.tree side)).2)⟩

def Call.outcome (c : Call) : Answer → Event
  | .blank => match c with
    | .read _ _ => .blank c
    | _ => .answered c
  | .cut _ => match c with
    | .list _ _ | .stat _ => .cut c
    | _ => .answered c
  | _ => .answered c

def carryOut {α : Type} (c : Call) (a : Answer) (x : Run α) : Run α :=
  ⟨fun w => match x.run w with
    | (.ok v, w') => (.ok v, w'.note (c.outcome a))
    | (.error e, w') => (.error e, w'.note (.rejected c))⟩

theorem run_carryOut {α : Type} (c : Call) (a : Answer) (x : Run α) (w : World) :
    (carryOut c a x).run w = match x.run w with
      | (.ok v, w') => (.ok v, w'.note (c.outcome a))
      | (.error e, w') => (.error e, w'.note (.rejected c)) := rfl

def Env.call {α : Type} (env : Env) (c : Call) (spoil : ℕ → World → World) (body : ℕ → Answer → Run α) :
    Run α :=
  ⟨fun w => match env.answer w.calls with
    | .rejects reason => (.error reason, (spoil w.calls w.tick).note (.rejected c))
    | a => (carryOut c a (body w.calls a)).run w.tick⟩

def intact : ℕ → World → World := fun _ w => w

def Env.now (env : Env) : Run ℕ := ⟨fun w => (.ok (env.clock w.calls), w.tick)⟩

end DurableDav.Replication
