import DurableDav.Library.JsText
import DurableDav.Replication.Volume

namespace DurableDav.Dav

open Library
open Replication (Bytes isValidInnerPath parentOf maxPathDepth)

/-! ### What the platform does for the program -/

structure Url where
  origin : JsString
  pathname : JsString

/-- An element of a parsed document, with what its children are serialised to. -/
inductive XmlElement
  | node (namespaceURI nsPrefix localName : Option JsString) (children : List XmlElement) (content : JsString)

structure Platform where
  toLowerCase : JsString → JsString
  toUpperCase : JsString → JsString
  encodeURIComponent : JsString → JsString
  decodeURIComponent : JsString → Option JsString
  url : JsString → Option JsString → Option Url
  parseXmlDocument : JsString → Option XmlElement := fun _ => none
  toUTCString : ℕ → JsString := decimal
  -- milliseconds, where a text is a date
  parseDate : JsString → Option ℤ := fun _ => none

/-- A platform on which every path is plain ASCII and every host is one. -/
def plainPlatform : Platform where
  toLowerCase := fun s => s.map asciiLower
  toUpperCase := fun s => s.map (fun c => if 97 ≤ c.val ∧ c.val ≤ 122 then c - 32 else c)
  encodeURIComponent := fun s => s
  decodeURIComponent := some
  url := fun s base =>
    if js "http://h" <+: s then some ⟨js "http://h", s.drop 8⟩ else base.map (fun _ => ⟨js "http://h", s⟩)

structure Request where
  url : JsString
  destination : Option JsString
  depth : Option JsString
  overwrite : Option JsString
  ifHeader : Option JsString
  lockToken : Option JsString

/-! ### The lock tokens a request submits -/

inductive IfCondition
  | token (value : JsString) (negated : Bool)
  | etag (value : JsString) (negated : Bool)
  | noLock (negated : Bool)
  | unknown
  deriving DecidableEq

def isIfWhitespace (c : CodeUnit) : Bool := c.val ∈ [32, 9, 10, 13, 12, 11]

def isNegationAt : JsString → Bool
  | n :: o :: t :: _ => n.val ||| 32 = 110 ∧ o.val ||| 32 = 111 ∧ t.val ||| 32 = 116
  | _ => false

def isNegated (s : JsString) : Bool := isNegationAt s && (s.drop 3).head?.any isIfWhitespace

/-- One group of the header, from behind its opening parenthesis on. -/
inductive IfGroup
  | condition (c : IfCondition) (rest : JsString)
  | unreadable
  | unterminated

def readGroup (p : Platform) (afterOpen : JsString) : IfGroup :=
  let start := afterOpen.dropWhile isIfWhitespace
  let negated := isNegated start
  match if negated then (start.drop 3).dropWhile isIfWhitespace else start with
  | [] => .unreadable
  | opener :: rest =>
    if opener = 60 then match cutAt 62 rest with
      | none => .unterminated
      | some (value, after) =>
        .condition (if p.toLowerCase value = js "dav:no-lock" then .noLock negated else .token value negated) after
    else if opener = 91 then match cutAt 93 rest with
      | none => .unterminated
      | some (value, after) => .condition (.etag (trim value) negated) after
    else .unreadable

def scanIf (p : Platform) : ℕ → JsString → List IfCondition × Bool
  | 0, _ => ([], false)
  | fuel + 1, header => match cutAt 40 header with
    | none => ([], false)
    | some (_, afterOpen) => match readGroup p afterOpen with
      | .condition c rest => (c :: (scanIf p fuel rest).1, (scanIf p fuel rest).2)
      | .unreadable => ((scanIf p fuel afterOpen).1, true)
      | .unterminated => ([], true)

-- every turn of the scan passes an opening parenthesis
def parseIfHeader (p : Platform) : Option JsString → List IfCondition
  | none => []
  | some header => (scanIf p (header.length + 1) header).1 ++
    if (scanIf p (header.length + 1) header).2 then [.unknown] else []

def stripStart (text s : JsString) : JsString := if text <+: s then s.drop text.length else s

def normalizeLockToken (token : JsString) : JsString :=
  let opened := stripStart [60] (trim token)
  let bare := if opened.getLast? = some 62 then opened.dropLast else opened
  if js "urn:uuid:" <+: bare then stripStart (js "urn:uuid:") bare else stripStart (js "opaquelocktoken:") bare

def IfCondition.tokens : IfCondition → List JsString
  | token value _ => [normalizeLockToken value]
  | _ => []

namespace Request

variable (p : Platform) (r : Request)

def getRequestLockTokens : List JsString :=
  let direct := (r.lockToken.filter (fun t => t ≠ [])).toList.map normalizeLockToken
  let conditional := (parseIfHeader p r.ifHeader).flatMap IfCondition.tokens
  ((direct ++ conditional).filter (fun t => t ≠ [] ∧ ¬ js "dav:" <+: p.toLowerCase t)).eraseDups

def hasAlwaysFalseIfCondition : Bool := match r.ifHeader with
  | none => false
  | some header => header ≠ [] ∧ (parseIfHeader p (some header) = [] ∨ .unknown ∈ parseIfHeader p (some header))

def isOverwriteAllowed : Bool := match r.overwrite with
  | none => true
  | some raw => p.toUpperCase (trim raw) = js "T"

/-- The request a destination is removed with. -/
def forwardLockHeaders : Request where
  url := r.url
  destination := none
  depth := none
  overwrite := none
  ifHeader := r.ifHeader.filter (fun h => h ≠ [])
  lockToken := r.lockToken.filter (fun h => h ≠ [])

end Request

/-! ### Paths of a volume -/

def getParentPath (path : JsString) : JsString :=
  parentOf (if path.getLast? = some slash then path.dropLast else path)

def isSameOrDescendantPath (resource destination : JsString) : Bool :=
  destination = resource ∨ if resource = [] then destination ≠ [] else resource ++ [slash] <+: destination

def decodeResourcePath (p : Platform) (pathname : JsString) : JsString :=
  let path := pathname.drop 1
  let bare := if path.getLast? = some slash then path.dropLast else path
  if bare = [] then []
  else [slash].intercalate ((bare.splitOn slash).map (fun s => (p.decodeURIComponent s).getD s))

def parseDestinationPath (p : Platform) (header requestUrl : JsString) : Option JsString := do
  let destination ← p.url header (some requestUrl)
  let request ← p.url requestUrl none
  if destination.origin = request.origin then some (decodeResourcePath p destination.pathname) else none

def stripBase (p : Platform) (full base : JsString) : Option JsString :=
  let bare := stripSlashes base
  if p.toLowerCase full = p.toLowerCase bare then some []
  else if bare = [] then some full
  else if p.toLowerCase bare ++ [slash] <+: p.toLowerCase full then some (full.drop (bare.length + 1))
  else match full.splitOn slash with
    | owner :: volume :: rest =>
      if p.toLowerCase (owner ++ slash :: volume) = p.toLowerCase bare then some ([slash].intercalate rest) else none
    | _ => none

def decodeSegments (p : Platform) (path : JsString) : JsString :=
  ((path.splitOn slash).mapM p.decodeURIComponent).elim path [slash].intercalate

/-- The path a request is about; `none` is answered with 400. -/
def resolveInnerPath (p : Platform) (header : Option JsString) (pathname base : JsString) : Option JsString :=
  match header with
  | some header => some (decodeSegments p (stripSlashes header))
  | none =>
    if base ≠ [] ∧ base <+: pathname then some (decodeSegments p (stripSlashes (pathname.drop base.length)))
    else
      let parts := (stripSlashes pathname).splitOn slash
      if 2 < parts.length then some (decodeSegments p ([slash].intercalate (parts.drop 2))) else none

def hrefOf (p : Platform) (base path : JsString) (isCollection : Bool) : JsString :=
  let start := if base.getLast? = some slash then base.dropLast else base
  if path = [] then start ++ [slash]
  else start ++ slash :: [slash].intercalate ((path.splitOn slash).map p.encodeURIComponent) ++
    if isCollection then [slash] else []

structure DavBases where
  pathBase : JsString
  hrefBase : JsString

def resolveDestination (p : Platform) (r : Request) (pathBase source : JsString) : Option JsString := do
  let header ← r.destination.filter (fun h => h ≠ [])
  let full ← parseDestinationPath p header r.url
  let destination ← stripBase p full pathBase
  if isValidInnerPath destination ∧ (destination.splitOn slash).length ≤ maxPathDepth ∧
    !isSameOrDescendantPath source destination then some destination else none

end DurableDav.Dav
