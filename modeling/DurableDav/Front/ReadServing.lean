import DurableDav.Dav.OneEtag

namespace DurableDav.Front

open Library Dav
open Replication (Bytes isValidInnerPath)

/-! ### What is cached of a read -/

structure CachedFile where
  bytes : Bytes
  contentType : Option JsString
  etag : JsString
  deriving DecidableEq

structure CachedPropfind where
  body : JsString
  etag : JsString
  deriving DecidableEq

def maxCachedFileBytes : ℕ := 10485760

def maxCacheablePathLength : ℕ := 200

def isCacheablePath (inner : JsString) : Bool := inner.length ≤ maxCacheablePathLength

def isFresh (ifNoneMatch : Option JsString) (etag : JsString) : Bool :=
  match ifNoneMatch with
  | none => false
  | some incoming => etag ≠ [] ∧ incoming ≠ [] ∧ (incoming.splitOn 44).any fun part =>
      trim part = js "*" ∨ weakEtagValue (trim part) = weakEtagValue etag

/-- The digests of the cache's keys. -/
structure KeyDigest where
  digest128 : JsString → JsString

def quoted (s : JsString) : JsString := js "W/\"prop-" ++ s ++ [34]

/-- The validator of a multistatus, where the volume's object sends none. -/
def etagForPropfind (K : KeyDigest) (volumeKey inner depth bodyHash : JsString) : JsString :=
  quoted (K.digest128 (volumeKey ++ 58 :: inner ++ 58 :: depth ++ 58 :: bodyHash))

/-! ### Answers -/

inductive Content
  | empty
  | bytes (data : Bytes)
  | text (s : JsString)
  | page (children : List (JsString × JsString × Bool))
  deriving DecidableEq

structure ReadResponse where
  status : ℕ
  content : Content
  contentType : Option JsString
  etag : Option JsString
  lastModified : Option JsString
  contentLength : Option ℕ
  cacheControl : Option JsString
  deriving DecidableEq

def octetStreamType : JsString := js "application/octet-stream"

def xmlType : JsString := js "application/xml; charset=utf-8"

def textType : JsString := js "text/plain;charset=UTF-8"

def htmlType : JsString := js "text/html; charset=utf-8"

inductive CachedShape
  | file
  | propfind

def cacheControlFor : CachedShape → JsString
  | .file => js "private, max-age=300, must-revalidate"
  | .propfind => js "private, max-age=60, must-revalidate"

def notModified (kind : CachedShape) (etag : JsString) : ReadResponse :=
  ⟨304, .empty, none, some etag, none, none, some (cacheControlFor kind)⟩

def respondFromCachedFile (entry : CachedFile) (ifNoneMatch : Option JsString) (headOnly : Bool) : ReadResponse :=
  if isFresh ifNoneMatch entry.etag then notModified .file entry.etag
  else ⟨200, if headOnly then .empty else .bytes entry.bytes, some (entry.contentType.getD octetStreamType),
    some entry.etag, none, some entry.bytes.length, some (cacheControlFor .file)⟩

def respondFromCachedPropfind (entry : CachedPropfind) (ifNoneMatch : Option JsString) : ReadResponse :=
  if isFresh ifNoneMatch entry.etag then notModified .propfind entry.etag
  else ⟨207, .text entry.body, some xmlType, some entry.etag, none, none, some (cacheControlFor .propfind)⟩

/-! ### The answers of a volume's object -/

def textResponse (status : ℕ) (s : JsString) : ReadResponse :=
  ⟨status, .text s, some textType, none, none, none, none⟩

def bodyContent : Body → Content
  | .none => .empty
  | .text s => .text s
  | .multistatus _ => .empty

/-- A refusal is a plain text, where it has one. -/
def refusedResponse (r : Response) : ReadResponse :=
  match r.body with
  | .text s => textResponse r.status s
  | _ => ⟨r.status, .empty, none, none, none, none, none⟩

def verdictResponse : Dav.Verdict → ReadResponse
  | .preconditionFailed header => textResponse 412 (js "Precondition Failed: " ++ header)
  | .notModified etag => ⟨304, .empty, none, etag, none, none, none⟩

def getResponse : GetAnswer → ReadResponse
  | .refused response => refusedResponse response
  | .conditional verdict => verdictResponse verdict
  | .unsatisfiable _ => ⟨416, .empty, none, none, none, none, none⟩
  | .listing children => ⟨200, .page children, some htmlType, none, none, none, none⟩
  | .headOfListing => ⟨200, .empty, some htmlType, none, none, none, none⟩
  | .file f => ⟨f.status, (f.body.map Content.bytes).getD .empty, some f.contentType, f.etag, f.lastModified,
      some f.contentLength, none⟩

/-- What the object of a volume answers to a GET or a HEAD. -/
def objectGet (env : Env) (v : Volume) (r : Incoming) (path : JsString) (headOnly : Bool) : ReadResponse :=
  if !isValidInnerPath path then refusedResponse .badRequest
  else match ((env.handleGet r path headOnly).run ⟨v, []⟩).1 with
    | .ok answer => getResponse answer
    | .error _ => refusedResponse .internalServerError

def propfindResponse : Env.PropfindAnswer → ReadResponse
  | .refused response => refusedResponse response
  | .multistatus entries => ⟨207, .text (renderMultistatus entries), some xmlType, none, none, none, none⟩

def objectPropfind (env : Env) (v : Volume) (r : Incoming) (path : JsString) (bases : DavBases) : ReadResponse :=
  if !isValidInnerPath path then refusedResponse .badRequest
  else match ((env.handlePropfind r path bases).run ⟨v, []⟩).1 with
    | .ok answer => propfindResponse answer
    | .error _ => refusedResponse .internalServerError

/-! ### Serving a read -/

def mentionsHtml (contentType : JsString) : Bool := js "text/html" <:+: contentType

/-- What is kept of an answer to a GET. -/
def fileEntry (inner : JsString) (response : ReadResponse) : Option CachedFile :=
  match response.content with
  | .bytes data =>
    let contentType := response.contentType.getD octetStreamType
    let etag := response.etag.getD []
    if response.status = 200 ∧ etag ≠ [] ∧ !mentionsHtml contentType ∧ data.length ≤ maxCachedFileBytes ∧
      isCacheablePath inner then some ⟨data, some contentType, etag⟩ else none
  | _ => none

/-- What a GET or a HEAD is answered with, and what is put into the cache. -/
def serveGet (inner : JsString) (r : Incoming) (headOnly : Bool) (cached : Option CachedFile)
    (response : ReadResponse) : ReadResponse × Option CachedFile :=
  if r.range.isNone ∧ cached.any (fun e => e.etag ≠ []) then
    (respondFromCachedFile (cached.getD ⟨[], none, []⟩) r.ifNoneMatch headOnly, none)
  else if headOnly ∨ r.range.isSome ∨ response.status ≠ 200 then (response, none)
  else match response.etag, response.content with
    | some etag, .bytes data =>
      let contentType := response.contentType.getD octetStreamType
      if etag = [] ∨ mentionsHtml contentType then (response, none)
      else
        (if isFresh r.ifNoneMatch etag then notModified .file etag
          else ⟨200, .bytes data, some contentType, some etag, none, some data.length, some (cacheControlFor .file)⟩,
          fileEntry inner response)
    | _, _ => (response, none)

def depthOf (r : Incoming) : JsString := r.depth.getD (js "infinity")

def isCacheableDepth (depth : JsString) : Bool := depth = js "0" ∨ depth = js "1"

/-- The same for a PROPFIND. -/
def servePropfind (K : KeyDigest) (volumeKey inner : JsString) (r : Incoming) (cached : Option CachedPropfind)
    (response : ReadResponse) : ReadResponse × Option CachedPropfind :=
  if isCacheableDepth (depthOf r) ∧ cached.any (fun e => e.etag ≠ []) then
    (respondFromCachedPropfind (cached.getD ⟨[], []⟩) r.ifNoneMatch, none)
  else if !isCacheableDepth (depthOf r) ∨ response.status ≠ 207 then (response, none)
  else match response.content with
    | .text text =>
      let etag := response.etag.getD (etagForPropfind K volumeKey inner (depthOf r) (K.digest128 r.text))
      (if isFresh r.ifNoneMatch etag then notModified .propfind etag
        else ⟨207, .text text, some xmlType, some etag, none, none, some (cacheControlFor .propfind)⟩,
        if isCacheablePath inner then some ⟨text, etag⟩ else none)
    | _ => (response, none)

end DurableDav.Front
