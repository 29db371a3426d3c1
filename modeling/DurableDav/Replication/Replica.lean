import DurableDav.Replication.World

namespace DurableDav.Replication

open Library

structure ReplicaListing where
  entries : List PlanSide
  complete : Bool
  deriving DecidableEq

def Answer.trim (a : Answer) (entries : List PlanSide) : ReplicaListing :=
  match a with
  | .cut keep => ⟨entries.filter (fun e => keep e.path), false⟩
  | _ => ⟨entries, true⟩

namespace Tree

def childEntries (t : Tree) (path : JsString) : List PlanSide := (t.childPaths path).filterMap t.describe

def selfEntry (t : Tree) (path : JsString) : List PlanSide :=
  if path = [] then [] else (t.describe path).toList

def vanished (before after : Tree) (path : JsString) : List JsString :=
  (before.filesBelow path).filter (fun f => (Store.get after f).isNone)

end Tree

namespace Env

variable (env : Env)

/-! ### The volume object holding the local side -/

def listReplicaChildren (path : JsString) : Run ReplicaListing :=
  env.call (.list .localSide path) intact fun _ a => do
    let w ← .read
    if !isValidInnerPath path then pure ⟨[], false⟩
    else pure (a.trim (w.localTree.selfEntry path ++
      (w.localTree.childEntries path).filter (fun e => isValidInnerPath e.path)))

def readReplicaStream (path : JsString) : Run (Option Bytes) :=
  env.call (.read .localSide path) intact fun _ a => do
    let w ← .read
    match a with
    | .blank => pure none
    | _ =>
      if path = [] ∨ !isValidInnerPath path then pure none
      else pure (w.localTree.content path).join

def readReplicaBytes (path : JsString) : Run (Option Bytes) := env.readReplicaStream path

def localMkdir (path : JsString) : Run Unit :=
  env.call (.mkdir .localSide path) intact fun n _ => onSide .localSide (mkdir path (env.clock n))

def localWrite (path : JsString) (contentType : Option JsString) (data : Bytes) : Run Unit :=
  env.call (.write .localSide path) intact fun n _ =>
    onSide .localSide (write path contentType data (env.clock n))

def removal (side : Side) (path : JsString) (x : Act Tree JsString Unit) : Run Unit := do
  let w ← .read
  onSide side x
  let w' ← .read
  noteEvent (.removed side path ((w.tree side).vanished (w'.tree side) path))

def partialRemoval (side : Side) (path : JsString) (recursive : Bool) (n : ℕ) (w : World) : World :=
  if recursive then
    let t := w.tree side
    let t' := Store.removeWhere t (fun k => k ∈ t.filesBelow path ∧ env.unlinked n k)
    (w.setTree side t').note (.removed side path (t.vanished t' path))
  else w

def localUnlink (path : JsString) (recursive : Bool) : Run Unit :=
  env.call (.unlink .localSide path) (env.partialRemoval .localSide path recursive) fun _ _ =>
    removal .localSide path (unlink path recursive)

def loadReplicaStateRows : Run (List ReplicaStateRow) :=
  env.call .loadState intact fun _ _ => do
    let w ← .read
    pure (w.rows.map Prod.snd)

def saveReplicaState (records : List ReplicaStateRow) (forget : List JsString) : Run Unit :=
  env.call .saveState intact fun _ _ => .modify fun w =>
    let recorded := records.foldl (fun s row => Store.put s row.path row) w.rows
    { w with rows := Store.removeWhere recorded (fun p => p ∈ forget) }

/-! ### The remote volume -/

def list (path : JsString) : Run ReplicaListing :=
  env.call (.list .remoteSide path) intact fun _ a => do
    let w ← .read
    let children := w.remoteTree.childEntries path
    -- a server answers for the requested collection too; the sibling adapter drops that entry
    if env.sibling then pure (a.trim (children.filter (fun e => isValidInnerPath e.path)))
    else pure (a.trim (w.remoteTree.selfEntry path ++ children))

def stat (path : JsString) : Run (Option PlanSide) :=
  env.call (.stat path) intact fun _ a => do
    let w ← .read
    match a with
    | .cut keep =>
      if keep path then pure (w.remoteTree.describe path)
      else if env.sibling then .throw (js "listing on the sibling volume was incomplete")
      else pure none
    | _ => pure (w.remoteTree.describe path)

def readFile (path : JsString) : Run (Option Bytes) :=
  env.call (.read .remoteSide path) intact fun _ a => do
    let w ← .read
    match a with
    | .blank => pure none
    | _ => match w.remoteTree.content path with
      | some none => if env.sibling then pure none else .throw (js "GET")
      | some (some data) => pure (some data)
      | none => pure none

def remoteWriteFile (path : JsString) (contentType : Option JsString) (data : Bytes) : Run Unit :=
  env.call (.write .remoteSide path) intact fun n _ =>
    onSide .remoteSide (if env.sibling then write path contentType data (env.clock n)
      else writeFile path ⟨some data, (env.mint n).etag, (env.mint n).mtime, (env.mint n).size,
        some (contentType.getD octetStream)⟩)

def makeCollection (path : JsString) : Run Unit :=
  env.call (.mkdir .remoteSide path) intact fun n _ =>
    onSide .remoteSide (if env.sibling then mkdir path (env.clock n)
      else mkcol path ⟨none, (env.mint n).etag, (env.mint n).mtime, (env.mint n).size, none⟩)

def remove (path : JsString) (recursive : Bool) : Run Unit :=
  env.call (.unlink .remoteSide path) (env.partialRemoval .remoteSide path recursive) fun _ _ =>
    removal .remoteSide path (if env.sibling then unlink path recursive else delete path)

end Env

end DurableDav.Replication
