import DurableDav.Dav.Request
import DurableDav.Replication.SweepWindow
import DurableDav.Replication.World

namespace DurableDav.Dav

open Library
open Replication (Bytes isValidInnerPath parentOf maxPathDepth sweepSort ReplicaStateRow)

/-! ### What a volume object stores -/

structure Inode where
  bytes : Option Bytes
  mtime : ℕ
  deriving DecidableEq

abbrev Files := Store JsString Inode

structure NodeRow where
  isCollection : Bool
  contentType : Option JsString
  etag : Option JsString
  mtime : ℕ
  crtime : ℕ
  lockNull : Bool
  deriving DecidableEq

structure PropKey where
  path : JsString
  namespaceURI : JsString
  localName : JsString
  deriving DecidableEq

structure PropRow where
  nsPrefix : Option JsString
  valueXml : JsString
  deriving DecidableEq

structure LockRow where
  path : JsString
  scope : JsString
  depth : JsString
  owner : Option JsString
  timeout : JsString
  expiresAt : ℕ
  root : JsString
  deriving DecidableEq

structure ReplicaKey where
  replicationId : JsString
  path : JsString
  deriving DecidableEq

structure Volume where
  files : Files
  nodes : Store JsString NodeRow
  props : Store PropKey PropRow
  locks : Store JsString LockRow
  replicaState : Store ReplicaKey ReplicaStateRow

/-! ### The calls a request makes, each of which may fail -/

inductive Table
  | davNodes
  | davProps
  | davLocks
  | davReplicaState
  deriving DecidableEq

inductive Statement
  | selectLocks (path : JsString)
  | discoverLocks (path : JsString)
  | readLocks (path : JsString)
  | selectTokens (path : JsString)
  | insertLock (token : JsString)
  | updateLock (token : JsString)
  | deleteLock (token : JsString)
  | selectNode (path : JsString)
  | selectProps (path : JsString)
  | upsertNode (path : JsString)
  | upsertProp (key : PropKey)
  | deleteProp (key : PropKey)
  | deleteRows (table : Table) (path : JsString)
  | updatePaths (table : Table) (source target : JsString)
  deriving DecidableEq

inductive Op
  | stat (path : JsString)
  | listDir (path : JsString) (recursive : Bool)
  | mkdir (path : JsString)
  | mkdirAll (path : JsString)
  | rmdir (path : JsString)
  | unlink (path : JsString)
  | read (path : JsString)
  | writeFile (path : JsString)
  | rename (source target : JsString)
  | exec (statement : Statement)
  deriving DecidableEq

structure Failure where
  code : Option JsString
  message : JsString
  deriving DecidableEq

def Failure.of (code : String) : Failure := ⟨some (js code), js code⟩

structure Env where
  platform : Platform
  -- the clock stands still while a request is served
  now : ℕ
  -- which of the attempts at a call fails, and how
  fails : Op → ℕ → Option Failure

structure Session where
  volume : Volume
  calls : List Op

abbrev Serve (α : Type) := Act Session Failure α

def Session.record (s : Session) (op : Op) : Session := { s with calls := op :: s.calls }

def Env.call {α : Type} (env : Env) (op : Op) (body : Serve α) : Serve α :=
  ⟨fun s => match env.fails op (s.calls.count op) with
    | some e => (.error e, s.record op)
    | none => body.run (s.record op)⟩

/-! ### The file system -/

structure StatResult where
  found : Bool
  isDirectory : Bool
  size : ℕ
  mtime : ℕ
  deriving DecidableEq

def missingStat : StatResult := ⟨false, false, 0, 0⟩

namespace Files

def isDirectory (f : Files) (path : JsString) : Bool := path = [] ∨ (Store.get f path).any (fun i => i.bytes.isNone)

def found (f : Files) (path : JsString) : Bool := path = [] ∨ (Store.get f path).isSome

def stat (f : Files) (path : JsString) : Option StatResult :=
  if path = [] then some ⟨true, true, 0, 0⟩
  else (Store.get f path).map (fun i => ⟨true, i.bytes.isNone, (i.bytes.getD []).length, i.mtime⟩)

/-- What lies below a path, every collection before what is in it. -/
def below (f : Files) (path : JsString) : List JsString := sweepSort ((Store.keys f).filter (fun q => Below slash path q))

def relative (path q : JsString) : JsString := if path = [] then q else q.drop (path.length + 1)

def isChild (path q : JsString) : Bool := q ≠ [] ∧ parentOf q = path

end Files

def rebase (source target q : JsString) : JsString := target ++ q.drop source.length

/-- Every key is replaced; two entries of one key are an error. -/
def rekey {κ α : Type} [DecidableEq κ] (s : Store κ α) (f : κ → κ) : Option (Store κ α) :=
  if ((Store.keys s).map f).Nodup then some (s.map (fun e => (f e.1, e.2))) else none

def modifyFiles (f : Files → Files) : Serve Unit :=
  .modify (fun s => { s with volume := { s.volume with files := f s.volume.files } })

namespace Env

variable (env : Env)

def stat (path : JsString) : Serve StatResult := env.call (.stat path) do
  let s ← .read
  match s.volume.files.stat path with
  | some st => pure st
  | none => .throw (.of "ENOENT")

def listDir (path : JsString) (recursive : Bool) : Serve (List JsString) := env.call (.listDir path recursive) do
  let s ← .read
  if !s.volume.files.found path then .throw (.of "ENOENT")
  else if recursive then pure ((s.volume.files.below path).map (Files.relative path))
  else pure (((s.volume.files.below path).filter (Files.isChild path)).map (Files.relative path))

def mkdir (path : JsString) : Serve Unit := env.call (.mkdir path) do
  let s ← .read
  if s.volume.files.found path then .throw (.of "EEXIST")
  else if !s.volume.files.isDirectory (parentOf path) then .throw (.of "ENOENT")
  else modifyFiles (fun f => Store.put f path ⟨none, env.now⟩)

def rmdir (path : JsString) : Serve Unit := env.call (.rmdir path) do
  let s ← .read
  if !s.volume.files.isDirectory path then .throw (.of "ENOTDIR")
  else modifyFiles (fun f => Store.removeWhere f (fun q => q = path ∨ Below slash path q))

def unlink (path : JsString) : Serve Unit := env.call (.unlink path) do
  let s ← .read
  if s.volume.files.isDirectory path then .throw (.of "EISDIR")
  else if !s.volume.files.found path then .throw (.of "ENOENT")
  else modifyFiles (fun f => Store.remove f path)

def read (path : JsString) : Serve Bytes := env.call (.read path) do
  let s ← .read
  match Store.get s.volume.files path with
  | some ⟨some data, _⟩ => pure data
  | some ⟨none, _⟩ => .throw (.of "EISDIR")
  | none => .throw (.of "ENOENT")

def writeFile (path : JsString) (data : Bytes) : Serve Unit := env.call (.writeFile path) do
  let s ← .read
  if s.volume.files.isDirectory path then .throw (.of "EISDIR")
  else if !s.volume.files.isDirectory (parentOf path) then .throw (.of "ENOENT")
  else modifyFiles (fun f => Store.put f path ⟨some data, env.now⟩)

def rename (source target : JsString) : Serve Unit := env.call (.rename source target) do
  let s ← .read
  if !s.volume.files.found source then .throw (.of "ENOENT")
  else if s.volume.files.found target then .throw (.of "EEXIST")
  else if !s.volume.files.isDirectory (parentOf target) then .throw (.of "ENOENT")
  else match rekey s.volume.files (fun q =>
      if q = source ∨ Below slash source q then rebase source target q else q) with
    | some files => modifyFiles (fun _ => files)
    | none => .throw (.of "EEXIST")

end Env

end DurableDav.Dav
