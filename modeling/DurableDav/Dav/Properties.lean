import DurableDav.Dav.Locking

namespace DurableDav.Dav

open Library
open Replication (Bytes isValidInnerPath parentOf)

/-! ### Properties -/

structure DeadProperty where
  namespaceURI : JsString
  localName : JsString
  nsPrefix : Option JsString
  valueXml : JsString
  deriving DecidableEq

def davNamespace : JsString := js "DAV:"

def rawXmlDavProperties : List JsString := [js "resourcetype", js "supportedlock", js "lockdiscovery"]

def lockProtectedNames : List JsString :=
  [js "lock_token", js "lock_owner", js "lock_scope", js "lock_depth", js "lock_timeout", js "lock_expires_at",
    js "lock_root", js "lock_records", js "supportedlock", js "lockdiscovery"]

def isProtectedProperty (p : DeadProperty) : Bool :=
  p.localName ∈ lockProtectedNames ∨
    p.namespaceURI = davNamespace ∧ p.localName ∈ [js "supportedlock", js "lockdiscovery", js "resourcetype"]

/-- What a response says of one property. -/
inductive Element
  | live (name value : JsString)
  | property (p : DeadProperty)
  | empty (p : DeadProperty)
  deriving DecidableEq

def DeadProperty.qualifiedName (p : DeadProperty) : JsString :=
  ((p.nsPrefix.filter (fun t => t ≠ [])).map (fun t => t ++ js ":" ++ p.localName)).getD p.localName

def DeadProperty.declaration (p : DeadProperty) : JsString :=
  if p.namespaceURI = [] then js " xmlns=\"\""
  else match p.nsPrefix.filter (fun t => t ≠ []) with
    | some t => js " xmlns:" ++ t ++ js "=\"" ++ escapeXml p.namespaceURI ++ js "\""
    | none => js " xmlns=\"" ++ escapeXml p.namespaceURI ++ js "\""

def Element.render : Element → JsString
  | live name value => js "<" ++ name ++ js ">" ++ (if name ∈ rawXmlDavProperties then value else escapeXml value) ++
      js "</" ++ name ++ js ">"
  | property p => js "<" ++ p.qualifiedName ++ p.declaration ++ js ">" ++ p.valueXml ++ js "</" ++ p.qualifiedName ++ js ">"
  | empty p => js "<" ++ p.qualifiedName ++ p.declaration ++ js " />"

def renderPropstat (status : JsString) (properties : List Element) : JsString :=
  if properties = [] then []
  else js "\n<propstat>\n<prop>\n" ++ (js "\n").intercalate (properties.map Element.render) ++
    js "\n</prop>\n<status>" ++ status ++ js "</status>\n</propstat>"

/-! ### A resource as PROPFIND sees it -/

structure DavNodeInfo where
  key : JsString
  isCollection : Bool
  size : ℕ
  etag : Option JsString
  mtime : ℕ
  crtime : ℕ
  contentType : Option JsString
  displayname : Option JsString
  locks : List LockDetails
  deadProperties : List DeadProperty

def encodeHrefPath (p : Platform) (href : JsString) : JsString :=
  if href = [slash] then href
  else match href.splitOn slash with
    | [] => []
    | first :: rest => [slash].intercalate (first :: rest.map p.encodeURIComponent)

def getResourceHref (p : Platform) (key : JsString) (isCollection : Bool) (base : JsString) : JsString :=
  let start := stripSlashes base
  if key = [] then if start = [] then [slash] else slash :: start ++ [slash]
  else
    let suffix := key ++ if isCollection then [slash] else []
    encodeHrefPath p (if start = [] then slash :: suffix else slash :: start ++ slash :: suffix)

/-- The locks as they are shown: each with the address of the node itself. -/
def DavNodeInfo.shownLocks (p : Platform) (node : DavNodeInfo) (base : JsString) : List LockDetails :=
  node.locks.map (fun d => { d with root := getResourceHref p node.key node.isCollection base })

def toLiveProperties (p : Platform) (node : DavNodeInfo) (base : JsString) : List (JsString × Option JsString) :=
  [(js "creationdate", some (p.toUTCString node.crtime)),
    (js "displayname", node.displayname),
    (js "getcontentlength", if node.isCollection then none else some (decimal node.size)),
    (js "getcontenttype", if node.isCollection then none else node.contentType),
    (js "getetag", if node.isCollection then none else node.etag),
    (js "getlastmodified", some (p.toUTCString node.mtime)),
    (js "resourcetype", some (if node.isCollection then js "<collection />" else [])),
    (js "supportedlock", some supportedLock),
    (js "lockdiscovery", some (getLockDiscovery (node.shownLocks p base)))]

def getLivePropertyValue (p : Platform) (node : DavNodeInfo) (property : DeadProperty) (base : JsString) : Option JsString :=
  if property.namespaceURI ≠ davNamespace then none
  else ((toLiveProperties p node base).lookup property.localName).join

inductive PropfindRequest
  | allprop
  | propname
  | prop (properties : List DeadProperty)

structure PropfindEntry where
  href : JsString
  ok : List Element
  missing : List Element
  deriving DecidableEq

def emptied (p : DeadProperty) : Element := .empty { p with valueXml := [] }

/-- What is said of a property that is asked for by its name. -/
def namedProperty (p : Platform) (node : DavNodeInfo) (base : JsString) (property : DeadProperty) : Option Element :=
  match getLivePropertyValue p node property base with
  | some value => some (.live property.localName value)
  | none => (node.deadProperties.find? (fun d =>
      d.namespaceURI = property.namespaceURI ∧ d.localName = property.localName)).map .property

def propfindEntry (p : Platform) (node : DavNodeInfo) (mode : PropfindRequest) (base : JsString) : PropfindEntry :=
  let href := getResourceHref p node.key node.isCollection base
  match mode with
  | .allprop => ⟨href, (toLiveProperties p node base).filterMap (fun l => l.2.map (.live l.1)) ++
      node.deadProperties.map .property, []⟩
  | .propname => ⟨href, (toLiveProperties p node []).filterMap (fun l => l.2.map (fun _ => .live l.1 [])) ++
      node.deadProperties.map emptied, []⟩
  | .prop requested => ⟨href, requested.filterMap (namedProperty p node base),
      (requested.filter (fun d => (namedProperty p node base d).isNone)).map emptied⟩

def PropfindEntry.render (e : PropfindEntry) : JsString :=
  js "\n<response>\n<href>" ++ escapeXml e.href ++ js "</href>" ++ renderPropstat (js "HTTP/1.1 200 OK") e.ok ++
    renderPropstat (js "HTTP/1.1 404 Not Found") e.missing ++ js "\n</response>"

def renderMultistatus (es : List PropfindEntry) : JsString :=
  js "<?xml version=\"1.0\" encoding=\"utf-8\"?>\n<multistatus xmlns=\"DAV:\">" ++ es.flatMap PropfindEntry.render ++
    js "\n</multistatus>\n"

/-! ### The bodies of PROPFIND and PROPPATCH -/

namespace XmlElement

def namespaceURI : XmlElement → Option JsString
  | node ns _ _ _ _ => ns

def nsPrefix : XmlElement → Option JsString
  | node _ t _ _ _ => t

def localName : XmlElement → Option JsString
  | node _ _ name _ _ => name

def children : XmlElement → List XmlElement
  | node _ _ _ cs _ => cs

def content : XmlElement → JsString
  | node _ _ _ _ xml => xml

def isCalled (p : Platform) (name : String) (e : XmlElement) : Bool := p.toLowerCase (e.localName.getD []) = js name

end XmlElement

def isNameStart (c : CodeUnit) : Bool := isWordUnit c && !isDigitUnit c

def isValidXmlTagName (s : JsString) : Bool :=
  s.head?.any isNameStart ∧ s.tail.all (fun c => isWordUnit c ∨ c.val ∈ [46, 58, 45])

def isValidXmlPrefix (s : JsString) : Bool :=
  s.head?.any isNameStart ∧ s.tail.all (fun c => isWordUnit c ∨ c.val ∈ [46, 45])

def getElementProperty (e : XmlElement) : Option DeadProperty := do
  let name ← e.localName
  if e.nsPrefix.any (fun t => t ≠ []) ∧ e.namespaceURI.getD [] = [] then none
  else if !isValidXmlTagName name then none
  else if e.nsPrefix.any (fun t => !isValidXmlPrefix t) then none
  else some ⟨e.namespaceURI.getD [], name, e.nsPrefix, e.content⟩

def parsePropfindRequest (p : Platform) (body : JsString) : Option PropfindRequest :=
  if trim body = [] then some .allprop
  else do
    let root ← p.parseXmlDocument body
    if !root.isCalled p "propfind" then none
    else if root.children.any (XmlElement.isCalled p "propname") then some .propname
    else match root.children.find? (XmlElement.isCalled p "prop") with
      | some prop => (prop.children.mapM getElementProperty).map .prop
      | none => if root.children.any (XmlElement.isCalled p "allprop") then some .allprop else none

inductive PropAction
  | set
  | remove
  deriving DecidableEq

structure ProppatchOperation where
  action : PropAction
  property : DeadProperty

def actionOf (p : Platform) (e : XmlElement) : Option PropAction :=
  if e.isCalled p "set" then some .set else if e.isCalled p "remove" then some .remove else none

/-- The operations of one part of the update. -/
def partOperations (p : Platform) (e : XmlElement) : Option (List ProppatchOperation) :=
  match actionOf p e, e.children.find? (XmlElement.isCalled p "prop") with
  | some action, some prop => (prop.children.mapM getElementProperty).map (fun ds => ds.map (fun d => ⟨action, d⟩))
  | _, _ => some []

def parseProppatchRequest (p : Platform) (body : JsString) : Option (List ProppatchOperation) := do
  let root ← p.parseXmlDocument body
  if !root.isCalled p "propertyupdate" then none
  else (root.children.mapM (partOperations p)).map List.flatten

/-! ### The handlers -/

def PropKey.of (path : JsString) (p : DeadProperty) : PropKey := ⟨path, p.namespaceURI, p.localName⟩

def deadProperty (e : PropKey × PropRow) : DeadProperty := ⟨e.1.namespaceURI, e.1.localName, e.2.nsPrefix, e.2.valueXml⟩

def baseName (path : JsString) : JsString := ((path.splitOn slash).getLast?).getD []

/-- The locks that apply to a path, each with the address it was taken on. -/
def Volume.applicableLocks (v : Volume) (p : Platform) (now : ℕ) (path hrefBase : JsString) : List LockDetails :=
  ((v.locksAffecting now path).filter (fun e => e.1 ≠ [] ∧ (e.2.path = path ∨ e.2.depth = js "infinity"))).filterMap
    (fun e => lockDetailsFromRow now e.1 e.2 (hrefOf p hrefBase e.2.path true))

/-- What is put together of a resource; where no validator is recorded one is made up. -/
def nodeOf (path : JsString) (st : StatResult) (row : Option NodeRow) (locks : List LockDetails)
    (dead : List DeadProperty) : DavNodeInfo :=
  let mtime := (row.map NodeRow.mtime).getD st.mtime
  { key := path
    isCollection := st.isDirectory
    size := st.size
    etag := some ((row.bind NodeRow.etag).getD (mintEtag st.size mtime))
    mtime := mtime
    crtime := (row.map NodeRow.crtime).getD mtime
    contentType := row.bind NodeRow.contentType
    displayname := if path = [] then none else some (baseName path)
    locks := locks
    deadProperties := dead }

namespace Env

variable (env : Env)

def applicableLocks (path hrefBase : JsString) : Serve (List LockDetails) := env.exec (.discoverLocks path) do
  let s ← .read
  pure (s.volume.applicableLocks env.platform env.now path hrefBase)

/-- A failure propagates. -/
def getDeadProperties (path : JsString) : Serve (List DeadProperty) := env.exec (.selectProps path) do
  let s ← .read
  pure ((s.volume.deadProperties path).map deadProperty)

def nodeInfo (path hrefBase : JsString) : Serve (Option DavNodeInfo) := do
  let st ← env.statInner path
  if !st.found then pure none
  else do
    let row ← env.readMeta path
    let locks ← env.applicableLocks path hrefBase
    let dead ← env.getDeadProperties path
    pure (some (nodeOf path st row locks dead))

def rootNode : DavNodeInfo where
  key := []
  isCollection := true
  size := 0
  etag := none
  mtime := env.now
  crtime := env.now
  contentType := none
  displayname := none
  locks := []
  deadProperties := []

def nodeAt (path hrefBase : JsString) : Serve (Option DavNodeInfo) :=
  if path = [] then pure (some env.rootNode) else env.nodeInfo path hrefBase

def listChildren (path : JsString) : Serve (List JsString) := do
  match ← (env.listDir path false).attempt with
  | .ok names => pure names
  | .error _ => pure []

/-- One entry for each path at which there is something. -/
def entriesOf (mode : PropfindRequest) (hrefBase : JsString) : List JsString → Serve (List PropfindEntry)
  | [] => pure []
  | path :: rest => do
    let node ← env.nodeInfo path hrefBase
    let entries ← entriesOf mode hrefBase rest
    pure ((node.map (fun n => propfindEntry env.platform n mode hrefBase)).toList ++ entries)

/-- The members of a collection that a depth covers, the direct ones first. -/
def memberEntries (mode : PropfindRequest) (path depth hrefBase : JsString) : Serve (List PropfindEntry) :=
  if depth = js "0" then pure []
  else do
    let names ← env.listChildren path
    let children := names.map (childInner path)
    let entries ← env.entriesOf mode hrefBase children
    if depth ≠ js "infinity" then pure entries
    else do
      let all ← env.listRecursive path
      let deeper ← env.entriesOf mode hrefBase ((all.map (childInner path)).filter (fun q => q ∉ children))
      pure (entries ++ deeper)

inductive PropfindAnswer
  | refused (response : Response)
  | multistatus (entries : List PropfindEntry)

def handlePropfind (r : Incoming) (path : JsString) (bases : DavBases) : Serve PropfindAnswer :=
  match r.readCappedText maxXmlBodyBytes with
  | none => pure (.refused .payloadTooLarge)
  | some xml => match parsePropfindRequest env.platform xml with
    | none => pure (.refused .badRequest)
    | some mode => do
      match ← env.nodeAt path bases.hrefBase with
      | none => pure (.refused .notFound)
      | some node =>
        let own := propfindEntry env.platform node mode bases.hrefBase
        let depth := r.depth.getD (js "infinity")
        if !node.isCollection then pure (.multistatus [own])
        else if depth ≠ js "0" ∧ depth ≠ js "1" ∧ depth ≠ js "infinity" then pure (.refused .badRequest)
        else do
          let entries ← env.memberEntries mode path depth bases.hrefBase
          pure (.multistatus (own :: entries))

def PropfindAnswer.response : PropfindAnswer → Response
  | refused response => response
  | multistatus entries => ⟨207, .text (renderMultistatus entries), none⟩

/-! ### PROPPATCH -/

/-- What became of the properties an update names. -/
structure PropOutcome where
  applied : List DeadProperty
  forbidden : List DeadProperty
  dependent : List DeadProperty

def removeDeadProperty (path : JsString) (p : DeadProperty) : Serve Unit :=
  env.exec (.deleteProp (.of path p))
    (modifyVolume (fun v => { v with props := Store.remove v.props (.of path p) }))

def setDeadProperty (path : JsString) (p : DeadProperty) : Serve Unit :=
  env.upsertDeadProperty (.of path p) ⟨p.nsPrefix, p.valueXml⟩

/-- Each of the properties is written on its own; those that cannot be are told apart. -/
def writeEach (write : DeadProperty → Serve Unit) : List DeadProperty → Serve (List DeadProperty × List DeadProperty)
  | [] => pure ([], [])
  | p :: rest => do
    let outcome ← (write p).attempt
    let (done, failed) ← writeEach write rest
    pure (if outcome.toOption.isSome then (p :: done, failed) else (done, p :: failed))

def propertiesOf (action : PropAction) (ops : List ProppatchOperation) : List DeadProperty :=
  (ops.filter (fun op => op.action = action)).map ProppatchOperation.property

/-- All that is set comes before all that is removed. -/
def applyOperations (path : JsString) (ops : List ProppatchOperation) : Serve PropOutcome := do
  let sets := propertiesOf .set ops
  let removes := propertiesOf .remove ops
  if (ops.map ProppatchOperation.property).any isProtectedProperty then
    pure ⟨[], sets.filter isProtectedProperty ++ removes.filter isProtectedProperty,
      sets.filter (fun p => !isProtectedProperty p) ++ removes.filter (fun p => !isProtectedProperty p)⟩
  else do
    let (set, unset) ← writeEach (env.setDeadProperty path) sets
    let (removed, kept) ← writeEach (env.removeDeadProperty path) removes
    pure ⟨set ++ removed, [], unset ++ kept⟩

inductive ProppatchAnswer
  | refused (response : Response)
  | multistatus (href : JsString) (outcome : PropOutcome)

def handleProppatch (r : Incoming) (path : JsString) (bases : DavBases) : Serve ProppatchAnswer := do
  match ← env.assertLock r.toRequest path with
  | some response => pure (.refused response)
  | none =>
    match ← env.nodeAt path bases.hrefBase with
    | none => pure (.refused .notFound)
    | some node => match r.readCappedText maxXmlBodyBytes with
      | none => pure (.refused .payloadTooLarge)
      | some xml => match parseProppatchRequest env.platform xml with
        | none => pure (.refused .badRequest)
        | some ops => do
          let outcome ← env.applyOperations path ops
          pure (.multistatus (hrefOf env.platform bases.hrefBase path node.isCollection) outcome)

/-- The statuses in the order in which they are first used. -/
def PropOutcome.propstats (o : PropOutcome) : List (JsString × List DeadProperty) :=
  [(js "HTTP/1.1 200 OK", o.applied), (js "HTTP/1.1 403 Forbidden", o.forbidden),
    (js "HTTP/1.1 424 Failed Dependency", o.dependent)]

def ProppatchAnswer.response : ProppatchAnswer → Response
  | refused response => response
  | multistatus href outcome => ⟨207, .text (
      js "<?xml version=\"1.0\" encoding=\"utf-8\"?>\n<multistatus xmlns=\"DAV:\">\n<response>\n<href>" ++ escapeXml href ++
        js "</href>" ++ outcome.propstats.flatMap (fun e => renderPropstat e.1 (e.2.map emptied)) ++
        js "\n</response>\n</multistatus>"), none⟩

end Env

end DurableDav.Dav
