import DurableDav.Library.Fallible
import DurableDav.Library.Store
import DurableDav.Replication.Types

namespace DurableDav.Replication

open Library

abbrev Bytes := List (Fin 256)

instance neZero_octets : NeZero 256 := ⟨by decide⟩

structure Resource where
  bytes : Option Bytes
  etag : Option JsString
  mtime : Option ℤ
  size : Option ℕ
  contentType : Option JsString
  deriving DecidableEq

namespace Resource

def isCollection (r : Resource) : Bool := r.bytes.isNone

def entry (r : Resource) (path : JsString) : PlanSide :=
  ⟨path, r.isCollection, r.etag, r.mtime, r.size, r.contentType⟩

end Resource

abbrev Tree := Store JsString Resource

def maxPathDepth : ℕ := 256

def isValidInnerPath (path : JsString) : Bool :=
  path = [] ∨ ((path.splitOn slash).length ≤ maxPathDepth ∧
    ∀ s ∈ path.splitOn slash, s ≠ [] ∧ s ≠ js "." ∧ s ≠ js "..")

def parentOf (path : JsString) : JsString := parentSegments slash path

def octetStream : JsString := js "application/octet-stream"

namespace Tree

def isDirectory (t : Tree) (path : JsString) : Bool :=
  path = [] ∨ (Store.get t path).any Resource.isCollection

def content (t : Tree) (path : JsString) : Option (Option Bytes) := (Store.get t path).map Resource.bytes

def describe (t : Tree) (path : JsString) : Option PlanSide := (Store.get t path).map (fun r => r.entry path)

def childPaths (t : Tree) (path : JsString) : List JsString :=
  (Store.keys t).filter (fun k => k ≠ [] ∧ parentOf k = path)

def mkdirOne (t : Tree) (path : JsString) : Tree :=
  if path ≠ [] ∧ Store.get t path = none ∧ t.isDirectory (parentOf path) then
    Store.put t path ⟨none, none, none, some 0, none⟩
  else t

def upsertCollectionNode (t : Tree) (path : JsString) (now : ℕ) : Tree :=
  match Store.get t path with
  | none => t
  | some r => Store.put t path { r with etag := none, mtime := some now, contentType := none }

def mkdirAll (t : Tree) (path : JsString) (now : ℕ) : Tree :=
  (prefixes slash path).foldl (fun t q => (t.mkdirOne q).upsertCollectionNode q now) t

def removeSubtree (t : Tree) (path : JsString) : Tree :=
  Store.removeWhere t (fun k => k = path ∨ Below slash path k)

def filesBelow (t : Tree) (path : JsString) : List JsString :=
  (Store.keys t).filter (fun k => Below slash path k ∧ !t.isDirectory k)

end Tree

/-! ### What a volume object does with one replication operation -/

def mkdir (path : JsString) (now : ℕ) : Act Tree JsString Unit :=
  if path = [] ∨ !isValidInnerPath path then .throw (js "replication mkdir: invalid path")
  else .modify (fun t => t.mkdirAll path now)

def writeFile (path : JsString) (r : Resource) : Act Tree JsString Unit := do
  let t ← .read
  if t.isDirectory (parentOf path) ∧ !t.isDirectory path then .modify (fun t => Store.put t path r)
  else .throw (js "EISDIR or ENOENT")

def writtenResource (contentType : Option JsString) (data : Bytes) (now : ℕ) : Resource where
  bytes := some data
  etag := some (js "\"" ++ hexadecimal 0 ++ dash :: hexadecimal now ++ js "\"")
  mtime := some now
  size := some data.length
  contentType := some (contentType.getD octetStream)

def mkdirParent (path : JsString) (now : ℕ) : Act Tree JsString Unit :=
  if parentOf path = [] then pure () else mkdir (parentOf path) now

def write (path : JsString) (contentType : Option JsString) (data : Bytes) (now : ℕ) :
    Act Tree JsString Unit :=
  if path = [] ∨ !isValidInnerPath path then .throw (js "replication write: invalid path")
  else do
    mkdirParent path now
    writeFile path (writtenResource contentType data now)

def unlink (path : JsString) (recursive : Bool) : Act Tree JsString Unit :=
  if path = [] ∨ !isValidInnerPath path then .throw (js "replication unlink: invalid path")
  else do
    let t ← .read
    if !t.isDirectory path then .modify (fun t => Store.remove t path)
    else if recursive then .modify (fun t => t.removeSubtree path)
    else if (t.childPaths path).isEmpty then .modify (fun t => Store.remove t path)
    else .throw (js "ENOTEMPTY")

/-! ### What a third-party server does with one request -/

def mkcol (path : JsString) (r : Resource) : Act Tree JsString Unit := do
  let t ← .read
  if path = [] ∨ (Store.get t path).isSome then pure ()
  else if t.isDirectory (parentOf path) then .modify (fun t => Store.put t path { r with bytes := none })
  else .throw (js "MKCOL")

def delete (path : JsString) : Act Tree JsString Unit := do
  let t ← .read
  if t.isDirectory path then .modify (fun t => t.removeSubtree path)
  else .modify (fun t => Store.remove t path)

end DurableDav.Replication
