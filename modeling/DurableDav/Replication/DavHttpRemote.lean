import DurableDav.Dav.Request
import DurableDav.Library.Fallible
import DurableDav.Library.Segments
import DurableDav.Library.UriComponent
import DurableDav.Replication.Types

namespace DurableDav.Replication

open Library
open Dav (Url)

/-! ### What is asked and what is answered -/

inductive RemoteAuth
  | none
  | basic (value : JsString)
  | bearer (token : JsString)
  deriving DecidableEq

def RemoteAuth.authorization : RemoteAuth → Option JsString
  | .none => Option.none
  | .basic value => some (js "Basic " ++ value)
  | .bearer token => some (js "Bearer " ++ token)

inductive Method
  | propfind
  | get
  | put
  | mkcol
  | delete
  | options
  deriving DecidableEq

def Method.name : Method → JsString
  | propfind => js "PROPFIND"
  | get => js "GET"
  | put => js "PUT"
  | mkcol => js "MKCOL"
  | delete => js "DELETE"
  | options => js "OPTIONS"

inductive RequestBody
  | text (value : JsString)
  | bytes (data : Bytes)
  | stream (data : Bytes)
  deriving DecidableEq

structure RequestInit where
  method : Method
  headers : List (JsString × JsString) := []
  body : Option RequestBody := none
  deriving DecidableEq

/-- A stream that was sent once cannot be sent again. -/
def RequestInit.spent (init : RequestInit) : Bool :=
  match init.body with
  | some (.stream _) => true
  | _ => false

/-- A request as it leaves for the network. -/
structure Sent extends RequestInit where
  url : Url
  authorization : Option JsString

structure Response where
  status : ℕ
  location : Option JsString := none
  etag : Option JsString := none
  dav : Option JsString := none
  body : Option Bytes := none
  text : JsString := []

def Response.ok (r : Response) : Bool := 200 ≤ r.status ∧ r.status ≤ 299

/-- The target of a redirect; an empty `Location` is none. -/
def Response.redirect (r : Response) : Option JsString :=
  if r.status < 300 ∨ 400 ≤ r.status then none else r.location.filter (· ≠ [])

inductive RemoteError
  | unavailable (message : JsString) (status : Option ℕ)
  | thrown (message : JsString)

/-- How the egress policy refuses a redirect, or why it could not be read at all. -/
inductive Refusal
  | rejected (message : JsString)
  | broken (message : JsString)

structure DavResource where
  pathname : JsString
  isCollection : Bool
  propsComplete : Bool
  etag : Option JsString
  lastModified : Option ℤ
  size : Option ℕ
  contentType : Option JsString

structure RemoteListing where
  entries : List PlanSide
  complete : Bool

/-- The configured target, with the server behind it: an answer for every history of requests,
`none` where the connection fails. -/
structure DavHttpRemote where
  base : Url
  rootPathname : JsString
  rootInner : JsString
  authHeader : RemoteAuth
  maxRedirects : ℕ
  resolveRedirectUrl : Url → JsString → Except Refusal Url
  parseMultiStatus : JsString → Option (List DavResource)
  answer : List Sent → Option Response

abbrev Exchange := Act (List Sent) RemoteError

/-! ### The protocol's own functions -/

def joinNames (sep : CodeUnit) (names : List JsString) : JsString := [sep].intercalate names

def joinUrl (base : Url) (segments : List JsString) : Option Url := do
  let encoded ← ((segments.map stripSlashes).filter (· ≠ [])).mapM
    fun segment => ((segment.splitOn slash).mapM encodeURIComponent).map (joinNames slash)
  let baseTrimmed := if base.pathname.getLast? = some slash then base.pathname else base.pathname ++ [slash]
  some ⟨base.origin, baseTrimmed ++ joinNames slash encoded⟩

def toInnerEntry (pathname rootPathname : JsString) : Option JsString :=
  if !(rootPathname.isPrefixOf pathname) then none
  else
    let remainder := stripSlashes (pathname.drop rootPathname.length)
    if remainder = [] then none
    else if (remainder.splitOn slash).any (fun segment => segment = js ".." ∨ segment = js ".") then none
    else some remainder

def propfindBody : JsString := js ("<?xml version=\"1.0\" encoding=\"utf-8\"?>\n" ++
  "<d:propfind xmlns:d=\"DAV:\"><d:prop><d:resourcetype/><d:getetag/><d:getlastmodified/>" ++
  "<d:getcontentlength/><d:getcontenttype/></d:prop></d:propfind>")

def classifyStatus (status : ℕ) (method : Method) (path : JsString) : JsString :=
  method.name ++ js " " ++ path ++ js " failed with " ++ decimal status

def refusedBy {α : Type} (method : Method) (path : JsString) (r : Response) : Exchange α :=
  .throw (.unavailable (classifyStatus r.status method path) (some r.status))

def deleteSuccess : List ℕ := [200, 204, 404]

def maxRemoveDepth : ℕ := 64

namespace DavHttpRemote

variable (c : DavHttpRemote)

/-! ### One request -/

def fetch (init : RequestInit) (target : Url) (hop : ℕ) : Exchange Response := do
  if 0 < hop ∧ init.spent then .throw (.thrown (js "body already used"))
  else
    .modify (· ++ [⟨init, target, c.authHeader.authorization⟩])
    let log ← .read
    match c.answer log with
    | some response => pure response
    | none => .throw (.thrown (js "network failure"))

/-- The loop over the hops, with so many redirects left. -/
def hops (init : RequestInit) (path : JsString) : ℕ → Url → List Url → Exchange Response
  | 0, target, _ => do
    let response ← c.fetch init target c.maxRedirects
    match response.redirect with
    | none => pure response
    | some _ => .throw (.unavailable (js "redirect budget of " ++ decimal c.maxRedirects ++ js " exhausted for " ++
        init.method.name ++ js " " ++ path) (some response.status))
  | budget + 1, target, visited => do
    let response ← c.fetch init target (c.maxRedirects - (budget + 1))
    match response.redirect with
    | none => pure response
    | some location =>
      match c.resolveRedirectUrl target location with
      | .error (.rejected message) =>
        .throw (.unavailable (js "redirect from " ++ init.method.name ++ js " " ++ path ++
          js " was refused by the egress policy: " ++ message) (some response.status))
      | .error (.broken message) => .throw (.thrown message)
      | .ok next =>
        if visited.any (fun url => url.origin = next.origin ∧ url.pathname = next.pathname) then
          .throw (.unavailable (js "redirect cycle detected for " ++ init.method.name ++ js " " ++ path)
            (some response.status))
        else hops init path budget next (next :: visited)

def request (path : JsString) (init : RequestInit) : Exchange Response :=
  match joinUrl c.base [c.rootInner, path] with
  | none => .throw (.thrown (js "URI malformed"))
  | some target => c.hops init path c.maxRedirects target [target]

/-! ### The operations -/

def toEntry (resource : DavResource) : Option PlanSide :=
  (toInnerEntry resource.pathname c.rootPathname).map fun inner =>
    ⟨inner, resource.isCollection, resource.etag, resource.lastModified, resource.size, resource.contentType⟩

def propfind (path : JsString) : Exchange RemoteListing := do
  let response ← c.request path ⟨.propfind, [(js "Depth", js "1"),
    (js "Content-Type", js "application/xml; charset=utf-8")], some (.text propfindBody)⟩
  if response.status = 404 then pure ⟨[], true⟩
  else if response.status = 207 then
    match c.parseMultiStatus response.text with
    | none => .throw (.unavailable (js "PROPFIND " ++ path ++
        js " returned a body that is not a usable multistatus") (some 207))
    | some parsed => pure ⟨parsed.filterMap c.toEntry,
        parsed.all (fun resource => (c.toEntry resource).isNone ∨ resource.propsComplete)⟩
  else refusedBy .propfind path response

def list (path : JsString) : Exchange RemoteListing := c.propfind path

def stat (path : JsString) : Exchange (Option PlanSide) := do
  let listing ← c.propfind (parentSegments slash path)
  pure (listing.entries.find? (fun entry => entry.path = path))

def readFile (path : JsString) : Exchange (Option Bytes) := do
  let response ← c.request path ⟨.get, [], none⟩
  if response.status = 404 then pure none
  else if !response.ok ∨ response.body.isNone then refusedBy .get path response
  else pure response.body

def ifMatchHeader (ifMatch : Option JsString) : List (JsString × JsString) :=
  (ifMatch.map (fun etag => (js "If-Match", etag))).toList

def writeFile (path : JsString) (body : RequestBody) (contentType ifMatch : Option JsString) :
    Exchange (Option JsString) := do
  let response ← c.request path ⟨.put,
    (js "Content-Type", contentType.getD (js "application/octet-stream")) :: ifMatchHeader ifMatch, some body⟩
  if response.status = 412 then
    .throw (.unavailable (js "PUT " ++ path ++
      js " was rejected by If-Match; the remote changed underneath the sync") (some 412))
  else if response.status ≠ 201 ∧ response.status ≠ 204 then refusedBy .put path response
  else pure response.etag

def makeCollection (path : JsString) : Exchange Unit := do
  let response ← c.request path ⟨.mkcol, [], none⟩
  if response.status = 201 ∨ response.status = 405 then pure ()
  else refusedBy .mkcol path response

def deleteOne (path : JsString) (ifMatch : Option JsString) : Exchange Unit := do
  let response ← c.request path ⟨.delete, ifMatchHeader ifMatch, none⟩
  if response.status ∈ deleteSuccess then pure () else refusedBy .delete path response

/-- `levels` of the tree may still be descended into. The children are taken one after another,
and what was descended into is handed on. -/
def removeRecursive (ifMatch : Option JsString) (recursive : Bool) :
    ℕ → JsString → List JsString → Exchange (List JsString)
  | levels, path, visited => do
    if path ∈ visited then
      .throw (.unavailable (js "refusing to descend into " ++ path ++ js " again; the target reported a cycle") none)
    else
      match levels with
      | 0 => .throw (.unavailable (js "recursive delete exceeded " ++ decimal maxRemoveDepth ++ js " levels at " ++ path)
          none)
      | levels + 1 =>
        if !recursive then
          c.deleteOne path ifMatch
          pure (path :: visited)
        else
          let listing ← c.propfind path
          let visited ← listing.entries.foldlM
            (fun visited child => removeRecursive ifMatch recursive levels child.path visited) (path :: visited)
          c.deleteOne path ifMatch
          pure visited

def remove (path : JsString) (ifMatch : Option JsString) (recursive : Bool) : Exchange Unit := do
  let _ ← c.removeRecursive ifMatch recursive (maxRemoveDepth + 1) path []
  pure ()

def probe : Exchange (List JsString) := do
  let response ← c.request [] ⟨.options, [], none⟩
  if !response.ok then refusedBy .options (js "/") response
  else
    match response.dav with
    | none => .throw (.unavailable
        (js "target answered OPTIONS without a DAV header; the URL does not appear to be a WebDAV server") none)
    | some dav => pure (((dav.splitOn 44).map trim).filter (· ≠ []))

end DavHttpRemote

end DurableDav.Replication
