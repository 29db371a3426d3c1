import DurableDav.Library.ExceptLists
import DurableDav.Library.JsSearch
import DurableDav.Replication.RemotePaths

namespace DurableDav.Replication

open Library
open Dav (Url)

/-! ### The body of a multistatus -/

/-- An element: its name without its prefix, the text directly in it, and its elements. -/
inductive XmlNode
  | element (localName : Option JsString) (text : JsString) (children : List XmlNode)

namespace XmlNode

def localName : XmlNode → Option JsString
  | element name _ _ => name

def children : XmlNode → List XmlNode
  | element _ _ children => children

def textOf : XmlNode → JsString
  | element _ text _ => trim text

end XmlNode

/-- What the parser takes from the platform: an XML parser that answers with the root of a document it can read, the
parser of URLs, which resolves a text against a base, and the one of dates. -/
structure MultistatusPlatform where
  toLowerCase : JsString → JsString
  parseXmlDocument : JsString → Option XmlNode
  url : JsString → Url → Option Url
  parseDate : JsString → Option ℤ

structure ParsedProps where
  isCollection : Bool := false
  sawResourcetype : Bool := false
  etag : Option JsString := none
  lastModified : Option ℤ := none
  size : Option ℕ := none
  contentType : Option JsString := none
  propsComplete : Bool := false

/-- The first three digits behind white space that no letter or digit follows. -/
def statusCode : JsString → Option ℕ
  | [] => none
  | c :: rest =>
    if isWhiteSpace c ∧ (rest.take 3).length = 3 ∧ (rest.take 3).all isDigitUnit ∧ !(rest.drop 3).head?.any isWordUnit then
      some (digitsValue (rest.take 3))
    else statusCode rest

def isSuccessStatus (text : JsString) : Bool := trim text = [] ∨ (statusCode (trim text)).any (fun n => 200 ≤ n ∧ n < 300)

def parseSize (raw : JsString) : Option ℕ :=
  if trim raw ≠ [] ∧ (trim raw).all isDigitUnit ∧ digitsValue (trim raw) < 2 ^ 53 then some (digitsValue (trim raw))
  else none

def unquoted (body : JsString) : JsString :=
  if 2 ≤ body.length ∧ body.head? = some 34 ∧ body.getLast? = some 34 then (body.drop 1).dropLast else body

def etagBody (raw : JsString) : Option JsString :=
  let trimmed := trim raw
  if trimmed = [] then none
  else
    let weak := (trimmed.take 2).map asciiLower = js "w/"
    let value := trim (unquoted (if weak then trimmed.drop 2 else trimmed))
    if value = [] then none else some (if weak then js "W/" ++ value else value)

/-- What every object has beside its own properties and cannot be called with an element. -/
def uncallable : List JsString := [js "__proto__", js "__defineGetter__", js "__defineSetter__"]

namespace MultistatusPlatform

variable (m : MultistatusPlatform)

def nameOf (e : XmlNode) : JsString := m.toLowerCase (e.localName.getD [])

def childText (e : XmlNode) (name : JsString) : Option JsString :=
  (e.children.find? (fun child => m.nameOf child = name)).map XmlNode.textOf

/-- The reader that the table has under the name, if it has one. A name that the table does not have itself may be
one that every object has. -/
def readProperty (into : ParsedProps) (property : XmlNode) : Except RemoteError ParsedProps :=
  let name := m.nameOf property
  if name = js "resourcetype" then
    .ok { into with
      sawResourcetype := true
      isCollection := property.children.any (fun child => m.nameOf child = js "collection") }
  else if name = js "getetag" then .ok { into with etag := etagBody property.textOf }
  else if name = js "getlastmodified" then .ok { into with lastModified := m.parseDate (trim property.textOf) }
  else if name = js "getcontentlength" then .ok { into with size := parseSize property.textOf }
  else if name = js "getcontenttype" then
    .ok { into with contentType := (some property.textOf).filter (· ≠ []) }
  else if name ∈ uncallable then .error (.thrown (js "PROPERTY_READERS[...] is not a function"))
  else .ok into

/-- The `prop` of a `propstat` with a status of success. -/
def usableProp (propstat : XmlNode) : Option XmlNode :=
  if m.nameOf propstat ≠ js "propstat" ∨ !isSuccessStatus ((m.childText propstat (js "status")).getD []) then none
  else propstat.children.find? (fun child => m.nameOf child = js "prop")

def readPropstat (into : ParsedProps) (propstat : XmlNode) : Except RemoteError ParsedProps :=
  match m.usableProp propstat with
  | none => .ok into
  | some prop => prop.children.foldlM m.readProperty { into with propsComplete := true }

def readProps (response : XmlNode) : Except RemoteError ParsedProps := response.children.foldlM m.readPropstat {}

/-- The path that a response is about, where it has a usable address. -/
def pathnameOf (baseUrl : Url) (response : XmlNode) : Option JsString :=
  (((m.childText response (js "href")).filter (· ≠ [])).bind fun href => m.url href baseUrl).map fun resolved =>
    decodePathname resolved.pathname

def readResource (baseUrl : Url) (response : XmlNode) : Except RemoteError (Option DavResource) :=
  match m.pathnameOf baseUrl response with
  | none => .ok none
  | some pathname => (m.readProps response).map fun props =>
    some ⟨pathname, props.sawResourcetype && props.isCollection, props.propsComplete, props.etag, props.lastModified,
      props.size, props.contentType⟩

/-- The responses of a body, if it is a multistatus. -/
def responsesOf (body : JsString) : Option (List XmlNode) :=
  ((m.parseXmlDocument body).filter (fun root => m.nameOf root = js "multistatus")).map fun root =>
    root.children.filter (fun child => m.nameOf child = js "response")

def parseMultiStatus (body : JsString) (baseUrl : Url) : Except RemoteError (Option (List DavResource)) :=
  match m.responsesOf body with
  | none => .ok none
  | some responses => (responses.mapM (m.readResource baseUrl)).map fun resources => some resources.reduceOption

end MultistatusPlatform

/-! ### Listing with the parser -/

namespace DavHttpRemote

variable (c : DavHttpRemote) (m : MultistatusPlatform)

def listingOf (parsed : List DavResource) : RemoteListing :=
  ⟨parsed.filterMap c.toEntry, parsed.all (fun resource => (c.toEntry resource).isNone ∨ resource.propsComplete)⟩

def readListing (path : JsString) (baseUrl : Url) (body : JsString) : Except RemoteError RemoteListing :=
  match m.parseMultiStatus body baseUrl with
  | .error e => .error e
  | .ok none => .error (.unavailable (js "PROPFIND " ++ path ++
      js " returned a body that is not a usable multistatus") (some 207))
  | .ok (some parsed) => .ok (c.listingOf parsed)

def listRequest : RequestInit := ⟨.propfind, [(js "Depth", js "1"),
  (js "Content-Type", js "application/xml; charset=utf-8")], some (.text propfindBody)⟩

/-- The listing of a collection, from the text of the answer on. -/
def listParsed (path : JsString) : Exchange RemoteListing := do
  let response ← c.request path listRequest
  if response.status = 404 then pure ⟨[], true⟩
  else if response.status = 207 then
    match joinUrl c.base [c.rootInner, path] with
    | none => .throw (.thrown (js "URI malformed"))
    | some baseUrl =>
      match c.readListing m path baseUrl response.text with
      | .ok listing => pure listing
      | .error e => .throw e
  else refusedBy .propfind path response

/-- Where the parser does not throw, this is the listing of a target with the parser's results. -/
theorem listParsed_eq (path : JsString) {baseUrl : Url} (hbase : joinUrl c.base [c.rootInner, path] = some baseUrl)
    (hparse : ∀ body, m.parseMultiStatus body baseUrl = .ok (c.parseMultiStatus body)) :
    c.listParsed m path = c.propfind path := by
  unfold listParsed propfind
  refine bind_congr fun response => ?_
  rw [hbase]
  unfold readListing
  dsimp only
  rw [hparse]
  cases c.parseMultiStatus response.text <;> rfl

end DavHttpRemote

/-! ### What reading a response does -/

namespace MultistatusPlatform

variable (m : MultistatusPlatform)

/-- A property that the table cannot be asked for. -/
def Uncallable (property : XmlNode) : Prop :=
  m.nameOf property ∈ uncallable

instance (property : XmlNode) : Decidable (m.Uncallable property) := inferInstanceAs (Decidable (_ ∈ _))

/-- Somewhere in what is read of the response there is such a property. -/
def Throws (response : XmlNode) : Prop :=
  ∃ propstat ∈ response.children, ∃ prop, m.usableProp propstat = some prop ∧
    ∃ property ∈ prop.children, m.Uncallable property

/-- The response has properties with a status of success. -/
def described (response : XmlNode) : Bool := response.children.any fun propstat => (m.usableProp propstat).isSome

end MultistatusPlatform

section Reading

variable {m : MultistatusPlatform} {into into' : ParsedProps}

theorem readProperty_ok_iff (into : ParsedProps) (property : XmlNode) :
    (∃ into', m.readProperty into property = .ok into') ↔ ¬ m.Uncallable property := by
  unfold MultistatusPlatform.readProperty MultistatusPlatform.Uncallable
  dsimp only
  split_ifs with h₁ h₂ h₃ h₄ h₅ h₆
  · exact iff_of_true ⟨_, rfl⟩ (h₁ ▸ by decide)
  · exact iff_of_true ⟨_, rfl⟩ (h₂ ▸ by decide)
  · exact iff_of_true ⟨_, rfl⟩ (h₃ ▸ by decide)
  · exact iff_of_true ⟨_, rfl⟩ (h₄ ▸ by decide)
  · exact iff_of_true ⟨_, rfl⟩ (h₅ ▸ by decide)
  · refine iff_of_false ?_ (not_not.mpr h₆)
    rintro ⟨into', h⟩
    cases h
  · exact iff_of_true ⟨_, rfl⟩ h₆

theorem readProperty_error {property : XmlNode} {e : RemoteError} (h : m.readProperty into property = .error e) :
    ∃ message, e = .thrown message := by
  unfold MultistatusPlatform.readProperty at h
  dsimp only at h
  split_ifs at h
  exact ⟨_, (Except.error.inj h).symm⟩

theorem readProperty_propsComplete {property : XmlNode} (h : m.readProperty into property = .ok into') :
    into'.propsComplete = into.propsComplete := by
  unfold MultistatusPlatform.readProperty at h
  dsimp only at h
  split_ifs at h
  all_goals
    obtain rfl := Except.ok.inj h
    rfl

theorem readPropstat_ok_iff (into : ParsedProps) (propstat : XmlNode) :
    (∃ into', m.readPropstat into propstat = .ok into') ↔
      ∀ prop, m.usableProp propstat = some prop → ∀ property ∈ prop.children, ¬ m.Uncallable property := by
  unfold MultistatusPlatform.readPropstat
  cases m.usableProp propstat with
  | none => exact iff_of_true ⟨_, rfl⟩ nofun
  | some prop =>
    rw [foldlM_ok_iff readProperty_ok_iff]
    simp

theorem readPropstat_propsComplete {propstat : XmlNode} (h : m.readPropstat into propstat = .ok into') :
    into'.propsComplete = (into.propsComplete || (m.usableProp propstat).isSome) := by
  unfold MultistatusPlatform.readPropstat at h
  cases hprop : m.usableProp propstat with
  | none =>
    rw [hprop] at h
    obtain rfl := Except.ok.inj h
    simp
  | some prop =>
    rw [hprop] at h
    have hmark := @foldlM_mark _ _ _ _ ParsedProps.propsComplete (fun _ => false)
      (fun s a s' hs => by simpa using readProperty_propsComplete hs) _ _ _ h
    simpa using hmark

theorem readPropstat_error {propstat : XmlNode} {e : RemoteError} (h : m.readPropstat into propstat = .error e) :
    ∃ message, e = .thrown message := by
  unfold MultistatusPlatform.readPropstat at h
  cases hprop : m.usableProp propstat with
  | none =>
    rw [hprop] at h
    cases h
  | some prop =>
    rw [hprop] at h
    obtain ⟨into₁, property, hproperty⟩ := foldlM_error h
    exact readProperty_error hproperty

theorem readProps_ok_iff (response : XmlNode) : (∃ props, m.readProps response = .ok props) ↔ ¬ m.Throws response := by
  unfold MultistatusPlatform.readProps MultistatusPlatform.Throws
  rw [foldlM_ok_iff readPropstat_ok_iff]
  push Not
  rfl

theorem readProps_propsComplete {response : XmlNode} {props : ParsedProps} (h : m.readProps response = .ok props) :
    props.propsComplete = m.described response := by
  have hmark := @foldlM_mark _ _ _ _ ParsedProps.propsComplete _ (fun s a s' hs => readPropstat_propsComplete hs) _ _ _ h
  rw [hmark]
  rfl

theorem readResource_ok_iff (baseUrl : Url) (response : XmlNode) :
    (∃ resource, m.readResource baseUrl response = .ok resource) ↔
      ((m.pathnameOf baseUrl response).isSome → ¬ m.Throws response) := by
  unfold MultistatusPlatform.readResource
  cases m.pathnameOf baseUrl response with
  | none => exact iff_of_true ⟨_, rfl⟩ nofun
  | some pathname =>
    rw [← readProps_ok_iff]
    cases m.readProps response with
    | error e => simp [Except.map]
    | ok props => simp [Except.map]

theorem readResource_error {baseUrl : Url} {response : XmlNode} {e : RemoteError}
    (h : m.readResource baseUrl response = .error e) : ∃ message, e = .thrown message := by
  unfold MultistatusPlatform.readResource at h
  cases hpathname : m.pathnameOf baseUrl response with
  | none =>
    rw [hpathname] at h
    cases h
  | some pathname =>
    rw [hpathname] at h
    cases hprops : m.readProps response with
    | ok props =>
      rw [hprops] at h
      cases h
    | error e' =>
      rw [hprops] at h
      obtain rfl := Except.error.inj h
      obtain ⟨into, propstat, hpropstat⟩ := foldlM_error hprops
      exact readPropstat_error hpropstat

theorem readResource_some {baseUrl : Url} {response : XmlNode} {resource : DavResource}
    (h : m.readResource baseUrl response = .ok (some resource)) :
    m.pathnameOf baseUrl response = some resource.pathname ∧ resource.propsComplete = m.described response := by
  unfold MultistatusPlatform.readResource at h
  cases hpathname : m.pathnameOf baseUrl response with
  | none =>
    rw [hpathname] at h
    cases h
  | some pathname =>
    rw [hpathname] at h
    cases hprops : m.readProps response with
    | error e =>
      rw [hprops] at h
      cases h
    | ok props =>
      rw [hprops] at h
      obtain rfl := Option.some.inj (Except.ok.inj h)
      exact ⟨rfl, readProps_propsComplete hprops⟩

theorem readResource_of_pathname {baseUrl : Url} {response : XmlNode} {pathname : JsString}
    {result : Option DavResource} (hpathname : m.pathnameOf baseUrl response = some pathname)
    (h : m.readResource baseUrl response = .ok result) :
    ∃ resource, result = some resource ∧ resource.pathname = pathname ∧
      resource.propsComplete = m.described response := by
  cases result with
  | none =>
    unfold MultistatusPlatform.readResource at h
    rw [hpathname] at h
    cases hprops : m.readProps response with
    | error e =>
      rw [hprops] at h
      cases h
    | ok props =>
      rw [hprops] at h
      cases h
  | some resource =>
    obtain ⟨hsame, hcomplete⟩ := readResource_some h
    exact ⟨resource, rfl, Option.some.inj (hsame.symm.trans hpathname), hcomplete⟩

end Reading

end DurableDav.Replication
