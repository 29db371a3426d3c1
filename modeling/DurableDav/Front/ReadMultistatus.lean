import DurableDav.Dav.PropfindWellFormed
import DurableDav.Front.Registry
import DurableDav.Replication.Multistatus

namespace DurableDav.Library

open Replication (XmlNode)

/-! ### What a parser hands out -/

/-- The text between the elements. -/
def XmlContent.directText : XmlContent → JsString
  | nil => []
  | text s rest => s ++ rest.directText
  | closed _ rest => rest.directText
  | element _ _ rest => rest.directText

def XmlContent.nodes : XmlContent → List XmlNode
  | nil => []
  | text _ rest => rest.nodes
  | closed tag rest => .element (some tag.name.localName) [] [] :: rest.nodes
  | element tag content rest => .element (some tag.name.localName) content.directText content.nodes :: rest.nodes

def XmlDocument.node (d : XmlDocument) : XmlNode :=
  .element (some d.tag.name.localName) d.content.directText d.content.nodes

end DurableDav.Library

namespace DurableDav.Front

open Library Dav
open Replication (XmlNode MultistatusPlatform ParsedProps RemoteError etagBody parseSize isSuccessStatus)

/-! ### The nodes of a multistatus -/

def elementNode : Element → XmlNode
  | .live name value => .element (some name) (if name ∈ rawXmlDavProperties then (readFragment value).directText else value)
      (if name ∈ rawXmlDavProperties then (readFragment value).nodes else [])
  | .property p => .element (some p.localName) (readFragment p.valueXml).directText (readFragment p.valueXml).nodes
  | .empty p => .element (some p.localName) [] []

def propNode (es : List Element) : XmlNode :=
  .element (some (js "prop")) (lineBreak (propContent es)).directText (es.map elementNode)

def propstatNodes (status : String) (es : List Element) : List XmlNode :=
  if es = [] then []
  else [.element (some (js "propstat")) (js "\n\n\n") [propNode es, .element (some (js "status")) (js status) []]]

def responseNode (e : PropfindEntry) : XmlNode :=
  .element (some (js "response")) e.content.directText
    (.element (some (js "href")) e.href [] ::
      (propstatNodes "HTTP/1.1 200 OK" e.ok ++ propstatNodes "HTTP/1.1 404 Not Found" e.missing))

section Nodes

theorem value_nodes (value : JsString) : (valueContent value).directText = value ∧ (valueContent value).nodes = [] := by
  unfold valueContent
  split
  · rename_i h
    rw [h]
    exact ⟨rfl, rfl⟩
  · exact ⟨List.append_nil value, rfl⟩

theorem piece_nodes (e : Element) (rest : XmlContent) : (e.piece rest).nodes = elementNode e :: rest.nodes := by
  cases e with
  | live name value =>
    by_cases hraw : name ∈ rawXmlDavProperties
    · simp [Element.piece, elementNode, XmlContent.nodes, hraw]
    · simp [Element.piece, elementNode, XmlContent.nodes, hraw, value_nodes value]
  | property p => rfl
  | empty p => rfl

theorem propContent_nodes (es : List Element) : (propContent es).nodes = es.map elementNode := by
  induction es with
  | nil => rfl
  | cons e es ih =>
    change (e.piece (lineBreak (propContent es))).nodes = _
    rw [piece_nodes, List.map_cons, ← ih]
    rfl

theorem propstat_nodes (status : String) (es : List Element) (rest : XmlContent) :
    (propstatContent status es rest).nodes = propstatNodes status es ++ rest.nodes := by
  unfold propstatContent propstatNodes
  split
  · rfl
  · have hprop : (lineBreak (propContent es)).nodes = es.map elementNode := propContent_nodes es
    change XmlNode.element _ _ [XmlNode.element _ _ (lineBreak (propContent es)).nodes,
      XmlNode.element _ (js status ++ []) []] :: rest.nodes = _
    rw [hprop, List.append_nil]
    rfl

theorem document_node (entries : List PropfindEntry) : (multistatusDocument entries).node =
    .element (some (js "multistatus")) (multistatusContent entries).directText (entries.map responseNode) := by
  have hnodes : (multistatusContent entries).nodes = entries.map responseNode := by
    induction entries with
    | nil => rfl
    | cons e entries ih =>
      have hcontent : e.content.nodes = .element (some (js "href")) e.href [] ::
          (propstatNodes "HTTP/1.1 200 OK" e.ok ++ propstatNodes "HTTP/1.1 404 Not Found" e.missing) := by
        change XmlNode.element _ (valueContent e.href).directText (valueContent e.href).nodes ::
          (propstatContent _ e.ok (propstatContent _ e.missing (lineBreak .nil))).nodes = _
        rw [(value_nodes e.href).1, (value_nodes e.href).2, propstat_nodes, propstat_nodes]
        exact congrArg _ (congrArg _ (List.append_nil _))
      rw [List.map_cons, ← ih, responseNode, ← hcontent]
      rfl
  unfold XmlDocument.node
  rw [← hnodes]
  rfl

end Nodes

/-! ### What is asked for, and what is read of it -/

/-- The parser's own parser takes apart what is well formed, and names are compared without their case. -/
structure ReadsXml (m : MultistatusPlatform) : Prop where
  lower : ∀ s, s.all isAscii → m.toLowerCase s = s.map asciiLower
  parse : ∀ d : XmlDocument, d.WellFormed → m.parseXmlDocument d.write = some d.node

def askedNames : List JsString :=
  [js "resourcetype", js "getetag", js "getlastmodified", js "getcontentlength", js "getcontenttype"]

def askedProperty (name : JsString) : DeadProperty := ⟨davNamespace, name, some (js "d"), []⟩

def askedProps : PropfindRequest := .prop (askedNames.map askedProperty)

/-- What a client writes takes no place of what the volume says of a file. -/
def Unshadowed (d : DeadProperty) : Prop :=
  d.namespaceURI = davNamespace → d.localName ∉ [js "getetag", js "getcontentlength", js "getcontenttype"]

/-- What the properties of a node are read as. -/
def propsOf (p : Platform) (m : MultistatusPlatform) (node : DavNodeInfo) : ParsedProps where
  isCollection := node.isCollection
  sawResourcetype := true
  etag := if node.isCollection then none else node.etag.bind fun t => etagBody (trim t)
  lastModified := m.parseDate (trim (trim (p.toUTCString node.mtime)))
  size := if node.isCollection then none else parseSize (trim (decimal node.size))
  contentType := if node.isCollection then none else node.contentType.bind fun t => (some (trim t)).filter (· ≠ [])
  propsComplete := true

section Reading

variable {p : Platform} {m : MultistatusPlatform} {node : DavNodeInfo} {base : JsString} {into : ParsedProps}

theorem named_asked {name : JsString} {shown : Option JsString} (h : ∀ d ∈ node.deadProperties, Unshadowed d)
    (hlookup : (toLiveProperties p node base).lookup name = some shown)
    (hname : shown = none → name ∈ [js "getetag", js "getcontentlength", js "getcontenttype"]) :
    namedProperty p node base (askedProperty name) = shown.map (.live name) := by
  have hvalue : getLivePropertyValue p node (askedProperty name) base = shown := by
    unfold getLivePropertyValue
    rw [if_neg (by simp [askedProperty])]
    exact congrArg Option.join hlookup
  unfold namedProperty
  rw [hvalue]
  cases shown with
  | some value => rfl
  | none =>
    rw [Option.map_none, Option.map_eq_none_iff, List.find?_eq_none]
    intro d hd hsame
    obtain ⟨hns, hlocal⟩ := of_decide_eq_true hsame
    exact h d hd hns (hlocal ▸ hname rfl)

theorem name_of (hm : ReadsXml m) {name t : JsString} {cs : List XmlNode}
    (h : name.all isAscii = true ∧ name.map asciiLower = name) : m.nameOf (.element (some name) t cs) = name := by
  unfold MultistatusPlatform.nameOf
  exact (hm.lower name h.1).trans h.2

theorem read_resourcetype (hm : ReadsXml m) (into : ParsedProps) (isCollection : Bool) :
    m.readProperty into (elementNode (.live (js "resourcetype") (if isCollection then js "<collection />" else []))) =
      .ok { into with isCollection := isCollection, sawResourcetype := true } := by
  have hname : m.nameOf (elementNode (.live (js "resourcetype") (if isCollection then js "<collection />" else []))) =
      js "resourcetype" := name_of hm (by decide)
  have hraw : js "resourcetype" ∈ rawXmlDavProperties := by decide
  have hchild : m.nameOf (.element (some (js "collection")) [] []) = js "collection" := name_of hm (by decide)
  unfold MultistatusPlatform.readProperty
  rw [hname]
  dsimp only
  rw [if_pos rfl]
  unfold elementNode
  dsimp only
  rw [if_pos hraw, if_pos hraw]
  cases isCollection with
  | false => rfl
  | true =>
    have hread : readFragment (js "<collection />") = .closed (plainTag "collection") .nil :=
      @readFragment_write [] (.closed (plainTag "collection") .nil) ⟨plainTag_wellFormed (by decide), trivial⟩
    rw [if_pos rfl, hread]
    simp [XmlNode.children, XmlContent.nodes, plainTag, hchild]

theorem read_getetag (hm : ReadsXml m) (into : ParsedProps) (t : JsString) :
    m.readProperty into (elementNode (.live (js "getetag") t)) = .ok { into with etag := etagBody (trim t) } := by
  have hname : m.nameOf (elementNode (.live (js "getetag") t)) = js "getetag" := name_of hm (by decide)
  unfold MultistatusPlatform.readProperty
  rw [hname]
  rfl

theorem read_getlastmodified (hm : ReadsXml m) (into : ParsedProps) (t : JsString) :
    m.readProperty into (elementNode (.live (js "getlastmodified") t)) =
      .ok { into with lastModified := m.parseDate (trim (trim t)) } := by
  have hname : m.nameOf (elementNode (.live (js "getlastmodified") t)) = js "getlastmodified" := name_of hm (by decide)
  unfold MultistatusPlatform.readProperty
  rw [hname]
  rfl

theorem read_getcontentlength (hm : ReadsXml m) (into : ParsedProps) (t : JsString) :
    m.readProperty into (elementNode (.live (js "getcontentlength") t)) =
      .ok { into with size := parseSize (trim t) } := by
  have hname : m.nameOf (elementNode (.live (js "getcontentlength") t)) = js "getcontentlength" := name_of hm (by decide)
  unfold MultistatusPlatform.readProperty
  rw [hname]
  rfl

theorem read_getcontenttype (hm : ReadsXml m) (into : ParsedProps) (t : JsString) :
    m.readProperty into (elementNode (.live (js "getcontenttype") t)) =
      .ok { into with contentType := (some (trim t)).filter (· ≠ []) } := by
  have hname : m.nameOf (elementNode (.live (js "getcontenttype") t)) = js "getcontenttype" := name_of hm (by decide)
  unfold MultistatusPlatform.readProperty
  rw [hname]
  rfl

/-- What is shown of the five properties; a collection shows its kind and its time. -/
def shownElements (p : Platform) (node : DavNodeInfo) : List Element :=
  if node.isCollection then
    [.live (js "resourcetype") (js "<collection />"), .live (js "getlastmodified") (p.toUTCString node.mtime)]
  else
    .live (js "resourcetype") [] :: ((node.etag.map (.live (js "getetag"))).toList ++
      .live (js "getlastmodified") (p.toUTCString node.mtime) :: .live (js "getcontentlength") (decimal node.size) ::
        (node.contentType.map (.live (js "getcontenttype"))).toList)

theorem asked_elements (h : ∀ d ∈ node.deadProperties, Unshadowed d) :
    (propfindEntry p node askedProps base).ok = shownElements p node := by
  have htype := @named_asked p node base (js "resourcetype") _ h rfl (by simp)
  have hetag := @named_asked p node base (js "getetag") _ h rfl (fun _ => by simp)
  have htime := @named_asked p node base (js "getlastmodified") _ h rfl (by simp)
  have hsize := @named_asked p node base (js "getcontentlength") _ h rfl (fun _ => by simp)
  have hcontent := @named_asked p node base (js "getcontenttype") _ h rfl (fun _ => by simp)
  change (askedNames.map askedProperty).filterMap (namedProperty p node base) = _
  unfold askedNames shownElements
  simp only [List.map_cons, List.map_nil, List.filterMap_cons, List.filterMap_nil, htype, hetag, htime, hsize, hcontent]
  cases node.isCollection with
  | true => rfl
  | false =>
    cases node.etag with
    | none => cases node.contentType <;> rfl
    | some t => cases node.contentType <;> rfl

theorem read_elements (hm : ReadsXml m) :
    ((shownElements p node).map elementNode).foldlM m.readProperty { propsComplete := true } = .ok (propsOf p m node) := by
  have hcollection (into : ParsedProps) := read_resourcetype hm into true
  have hfile (into : ParsedProps) := read_resourcetype hm into false
  have hstep (into : ParsedProps) (f : ParsedProps → Except RemoteError ParsedProps) : (Except.ok into >>= f) = f into := rfl
  simp only [if_true, Bool.false_eq_true, if_false] at hcollection hfile
  -- a property that is not there leaves what was not read before
  have hetag (into : ParsedProps) (hnone : into.etag = none) :
      ((node.etag.map (.live (js "getetag"))).toList.map elementNode).foldlM m.readProperty into =
        .ok { into with etag := node.etag.bind fun t => etagBody (trim t) } := by
    cases node.etag with
    | none =>
      cases into
      obtain rfl : _ = none := hnone
      rfl
    | some t =>
      rw [Option.map_some, Option.toList_some, List.map_singleton, List.foldlM_cons, read_getetag hm]
      rfl
  have htype (into : ParsedProps) (hnone : into.contentType = none) :
      ((node.contentType.map (.live (js "getcontenttype"))).toList.map elementNode).foldlM m.readProperty into =
        .ok { into with contentType := node.contentType.bind fun t => (some (trim t)).filter (· ≠ []) } := by
    cases node.contentType with
    | none =>
      cases into
      obtain rfl : _ = none := hnone
      rfl
    | some t =>
      rw [Option.map_some, Option.toList_some, List.map_singleton, List.foldlM_cons, read_getcontenttype hm]
      rfl
  unfold shownElements propsOf
  cases node.isCollection with
  | true =>
    simp only [if_true, List.map_cons, List.map_nil, List.foldlM_cons, List.foldlM_nil, hcollection,
      read_getlastmodified hm, hstep]
    rfl
  | false =>
    simp only [Bool.false_eq_true, if_false, List.map_cons, List.map_append, List.foldlM_cons, List.foldlM_append, hfile,
      hstep]
    rw [hetag _ rfl]
    simp only [read_getlastmodified hm, read_getcontentlength hm, hstep]
    exact htype _ rfl

theorem usable_other (hm : ReadsXml m) {name t : JsString} {cs : List XmlNode}
    (hname : name.all isAscii = true ∧ name.map asciiLower = name) (h : name ≠ js "propstat") :
    m.usableProp (.element (some name) t cs) = none := by
  unfold MultistatusPlatform.usableProp
  rw [name_of hm hname, if_pos (.inl h)]

theorem usable_propstat (hm : ReadsXml m) (status : String) (es : List Element) :
    m.usableProp (.element (some (js "propstat")) (js "\n\n\n") [propNode es, .element (some (js "status")) (js status) []]) =
      if isSuccessStatus (trim (js status)) then some (propNode es) else none := by
  have hname : m.nameOf (.element (some (js "propstat")) (js "\n\n\n")
      [propNode es, .element (some (js "status")) (js status) []]) = js "propstat" := name_of hm (by decide)
  have hprop : m.nameOf (propNode es) = js "prop" := name_of hm (by decide)
  have hstatus : m.nameOf (.element (some (js "status")) (js status) []) = js "status" := name_of hm (by decide)
  have hfirst : decide (js "prop" = js "status") = false := by decide
  unfold MultistatusPlatform.usableProp MultistatusPlatform.childText
  simp only [hname, XmlNode.children, List.find?_cons, hprop, hstatus, hfirst]
  simp only [not_true_eq_false, ne_eq, false_or, decide_true, Option.map_some, Option.getD_some, XmlNode.textOf]
  cases isSuccessStatus (trim (js status)) <;> rfl

/-- The parser reads of a response what the volume says of the resource. -/
theorem read_response (hm : ReadsXml m) (h : ∀ d ∈ node.deadProperties, Unshadowed d) :
    m.readProps (responseNode (propfindEntry p node askedProps base)) = .ok (propsOf p m node) := by
  have hstep (into : ParsedProps) (f : ParsedProps → Except RemoteError ParsedProps) : (Except.ok into >>= f) = f into := rfl
  have hhref (into : ParsedProps) (t : JsString) : m.readPropstat into (.element (some (js "href")) t []) = .ok into := by
    unfold MultistatusPlatform.readPropstat
    rw [usable_other hm (by decide) (by decide)]
  have hok : isSuccessStatus (trim (js "HTTP/1.1 200 OK")) = true := by decide
  have hmissing : isSuccessStatus (trim (js "HTTP/1.1 404 Not Found")) = false := by decide
  have hne : shownElements p node ≠ [] := by
    unfold shownElements
    split <;> simp
  have hfound : (propstatNodes "HTTP/1.1 200 OK" (shownElements p node)).foldlM m.readPropstat {} = .ok (propsOf p m node) := by
    unfold propstatNodes
    rw [if_neg hne, List.foldlM_cons]
    unfold MultistatusPlatform.readPropstat
    rw [usable_propstat hm, if_pos hok]
    exact congrArg (· >>= fun into => List.foldlM m.readPropstat into []) (read_elements hm)
  have hnone (into : ParsedProps) (es : List Element) :
      (propstatNodes "HTTP/1.1 404 Not Found" es).foldlM m.readPropstat into = .ok into := by
    unfold propstatNodes
    split
    · rfl
    · rw [List.foldlM_cons]
      unfold MultistatusPlatform.readPropstat
      rw [usable_propstat hm, if_neg (by simp [hmissing])]
      rfl
  change List.foldlM m.readPropstat {} (_ :: (propstatNodes _ (propfindEntry p node askedProps base).ok ++ _)) = _
  rw [List.foldlM_cons, hhref, hstep, List.foldlM_append, asked_elements h, hfound, hstep, hnone]

/-- The responses of a body are those of the entries. -/
theorem responses_of (hm : ReadsXml m) {entries : List PropfindEntry} (h : ∀ e ∈ entries, e.Fit) :
    m.responsesOf (renderMultistatus entries) = some (entries.map responseNode) := by
  obtain ⟨hformed, hwrite⟩ := fit_document h
  have hroot : m.nameOf (multistatusDocument entries).node = js "multistatus" := by
    rw [document_node]
    exact name_of hm (by decide)
  have hresponse : ∀ e ∈ entries.map responseNode, decide (m.nameOf e = js "response") = true := by
    intro e he
    obtain ⟨entry, -, rfl⟩ := List.mem_map.mp he
    exact decide_eq_true (name_of hm (by decide))
  unfold MultistatusPlatform.responsesOf
  rw [← hwrite, hm.parse _ hformed, Option.filter_some, if_pos (decide_eq_true hroot), Option.map_some, document_node]
  exact congrArg some (List.filter_eq_self.mpr hresponse)

end Reading

end DurableDav.Front
