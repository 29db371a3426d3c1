import DurableDav.Dav.Request
import DurableDav.Front.Registry
import DurableDav.Library.JsSearch
import DurableDav.Library.UriComponent

namespace DurableDav.Front

open Library
open Dav (Platform Url hrefOf parseDestinationPath stripBase DavBases)
open Replication (isValidInnerPath)

/-! ### Resolving a Destination at the front door -/

inductive DestinationFailure
  | absent
  | invalid
  | crossOrigin
  deriving DecidableEq

/-- The path of the header as it was sent, which a relative reference does not have. -/
def rawPathOf (header : JsString) : Option JsString :=
  match indexOf (js "://") header 0 with
  | none => if header.head? = some slash then some header else none
  | some schemeEnd =>
    match indexOf [slash] header (schemeEnd + 3) with
    | none => some [slash]
    | some afterScheme => some (header.drop afterScheme)

section Resolve

variable (p : Platform)

def decodeName (name : JsString) : JsString := (p.decodeURIComponent name).getD name

def hasDotSegment (pathname : JsString) : Bool :=
  (pathname.splitOn slash).any fun name => decodeName p name = js "." ∨ decodeName p name = js ".."

/-- What a path of the browser plane is about, whichever volume it names. -/
def browserInnerFrom (pathname : JsString) : Option JsString :=
  match (stripSlashes pathname).splitOn slash with
  | user :: volumes :: _ :: _ :: files :: rest =>
    if user = js "user" ∧ volumes = js "volumes" ∧ files = js "files" then some ([slash].intercalate rest) else none
  | _ => none

def innerFromPathname (pathname pathBase : JsString) (mode : HrefPrefixMode) : Option JsString :=
  let base := stripSlashes pathBase
  let clean := stripSlashes pathname
  if base = [] then some clean
  else if p.toLowerCase clean = p.toLowerCase base then some []
  else if p.toLowerCase base ++ [slash] <+: p.toLowerCase clean then some (clean.drop (base.length + 1))
  else if mode = .root then some clean
  else none

def resolveDestination (header : Option JsString) (requestUrl pathBase : JsString) (mode : HrefPrefixMode) :
    Except DestinationFailure JsString :=
  match header with
  | none => .error .absent
  | some header =>
    if header = [] then .error .absent
    else if (rawPathOf header).any (hasDotSegment p) then .error .invalid
    else match p.url header (some requestUrl), p.url requestUrl none with
      | some destUrl, some request =>
        if destUrl.origin ≠ request.origin then .error .crossOrigin
        else if hasDotSegment p destUrl.pathname then .error .invalid
        else match (browserInnerFrom destUrl.pathname).or (innerFromPathname p destUrl.pathname pathBase mode) with
          | some inner => .ok (request.origin ++ pathBase ++ slash :: inner)
          | none => .error .invalid
      | _, _ => .error .invalid

/-- What the front door takes the URL of a request to be about, which it sends on with the request. -/
def innerPathOf (requestUrl : JsString) : Option JsString :=
  (p.url requestUrl none).map fun url => stripSlashes ([slash].intercalate ((url.pathname.splitOn slash).drop 3))

/-! ### The addresses a volume shows, and where they arrive -/

def pathBaseOf (owner name : JsString) : JsString := slash :: (owner ++ slash :: name)

def resolveDavBases (pathBase : JsString) (mode : HrefPrefixMode) : DavBases :=
  ⟨pathBase, if mode = .root then [] else pathBase⟩

/-- The address of a path, which a name with a lone surrogate does not have. -/
def advertised (mode : HrefPrefixMode) (owner name path : JsString) (isCollection : Bool) : Option JsString :=
  if (path.splitOn slash).all (fun s => (encodeURIComponent s).isSome) then
    some (hrefOf p (resolveDavBases (pathBaseOf owner name) mode).hrefBase path isCollection)
  else none

/-- The path of the volume that a Destination reaches: what the front door makes of it at the request's URL
is taken apart again at the URL that is forwarded. -/
def reaches (mode : HrefPrefixMode) (owner name : JsString) (header requestUrl forwardUrl : JsString) :
    Option JsString :=
  match resolveDestination p (some header) requestUrl (pathBaseOf owner name) mode with
  | .error _ => none
  | .ok destination =>
    (parseDestinationPath p destination forwardUrl).bind (fun full => stripBase p full (pathBaseOf owner name))

/-- The volume that a path names, in the shape of the browser plane or of the WebDAV plane. -/
def namedVolume (pathname : JsString) : Option (JsString × JsString) :=
  match (stripSlashes pathname).splitOn slash with
  | user :: volumes :: owner :: name :: files :: _ =>
    if user = js "user" ∧ volumes = js "volumes" ∧ files = js "files" then some (owner, name)
    else some (user, volumes)
  | owner :: name :: _ => some (owner, name)
  | _ => none

def NamesOther (owner name pathname : JsString) : Prop :=
  ∃ o n, namedVolume pathname = some (o, n) ∧
    ¬ (p.toLowerCase (decodeName p o) = p.toLowerCase owner ∧ p.toLowerCase (decodeName p n) = p.toLowerCase name)

/-- What is documented of the platform's URLs, of its coding of URI components and of its lower case. -/
structure Standard : Prop where
  encode : ∀ s t, encodeURIComponent s = some t → p.encodeURIComponent s = t
  decode : ∀ s, p.decodeURIComponent s = decodeURIComponent s
  lower : ∀ s, s.all isAscii → p.toLowerCase s = s.map asciiLower
  lowerPrefix : ∀ s t, s.all isAscii → s.map asciiLower <+: p.toLowerCase (s ++ t)
  asciiPath : ∀ s base u, p.url s base = some u → u.pathname.all isAscii

/-- A path that a URL takes over as it is. -/
structure PlainPath (path : JsString) : Prop where
  absolute : path.head? = some slash
  hostless : path.tail.head? ≠ some slash
  units : ∀ c ∈ path, isUriUnit c ∨ c = slash
  undotted : hasDotSegment p path = false

/-- What is documented of references against the URL of a request. -/
structure Requests (requestUrl : JsString) (request : Url) : Prop where
  self : p.url requestUrl none = some request
  origin : ∃ host, slash ∉ host ∧ host ≠ [] ∧
    (request.origin = js "http://" ++ host ∨ request.origin = js "https://" ++ host)
  reference : ∀ path, PlainPath p path → p.url path (some requestUrl) = some ⟨request.origin, path⟩
  full : ∀ path, PlainPath p path → p.url (request.origin ++ path) (some requestUrl) = some ⟨request.origin, path⟩

end Resolve

end DurableDav.Front
