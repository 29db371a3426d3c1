import DurableDav.Dav.Properties
import DurableDav.Library.Xml

namespace DurableDav.Dav

open Library

/-! ### A multistatus as a document -/

def plainTag (name : String) : XmlTag := ⟨⟨none, js name⟩, []⟩

def lineBreak (rest : XmlContent) : XmlContent := .text (js "\n") rest

def valueContent (value : JsString) : XmlContent := if value = [] then .nil else .text value .nil

def DeadProperty.shownPrefix (p : DeadProperty) : Option JsString := p.nsPrefix.filter fun t => t ≠ []

def DeadProperty.tag (p : DeadProperty) : XmlTag where
  name := ⟨p.shownPrefix, p.localName⟩
  attributes :=
    if p.namespaceURI = [] then [(⟨none, js "xmlns"⟩, [])]
    else match p.shownPrefix with
      | some t => [(⟨some (js "xmlns"), t⟩, p.namespaceURI)]
      | none => [(⟨none, js "xmlns"⟩, p.namespaceURI)]

def Element.piece (rest : XmlContent) : Element → XmlContent
  | live name value => .element ⟨⟨none, name⟩, []⟩ (if name ∈ rawXmlDavProperties then readFragment value else valueContent value) rest
  | property p => .element p.tag (readFragment p.valueXml) rest
  | empty p => .closed p.tag rest

def propContent (es : List Element) : XmlContent := es.foldr (fun e rest => e.piece (lineBreak rest)) .nil

def propstatContent (status : String) (es : List Element) (rest : XmlContent) : XmlContent :=
  if es = [] then rest
  else lineBreak (.element (plainTag "propstat")
    (lineBreak (.element (plainTag "prop") (lineBreak (propContent es))
      (lineBreak (.element (plainTag "status") (.text (js status) .nil) (lineBreak .nil)))))
    rest)

def PropfindEntry.content (e : PropfindEntry) : XmlContent :=
  lineBreak (.element (plainTag "href") (valueContent e.href)
    (propstatContent "HTTP/1.1 200 OK" e.ok
      (propstatContent "HTTP/1.1 404 Not Found" e.missing (lineBreak .nil))))

def multistatusContent (es : List PropfindEntry) : XmlContent :=
  es.foldr (fun e rest => lineBreak (.element (plainTag "response") e.content rest)) (lineBreak .nil)

def multistatusDocument (es : List PropfindEntry) : XmlDocument :=
  ⟨⟨⟨none, js "multistatus"⟩, [(⟨none, js "xmlns"⟩, davNamespace)]⟩, multistatusContent es⟩

/-! ### It is what is put out -/

/-- What a parser of XML with namespaces says of an element's name. -/
structure DeadProperty.Named (p : DeadProperty) : Prop where
  localName : IsNcName p.localName
  shown : ∀ t ∈ p.shownPrefix, IsNcName t ∧ p.namespaceURI ≠ []
  text : IsXmlText p.namespaceURI ∧ ∀ c ∈ p.namespaceURI, 32 ≤ c.val
  reserved : p.namespaceURI ≠ xmlnsNamespace ∧ p.shownPrefix ≠ some (js "xmlns")
  xml : p.shownPrefix = some (js "xml") ↔ p.namespaceURI = xmlNamespace

/-- It can stand in a document. -/
def Element.Fit : Element → Prop
  | live name value => IsNcName name ∧ if name ∈ rawXmlDavProperties then IsFragment [] value else IsXmlText value
  | property p => p.Named ∧ IsFragment p.tag.declared p.valueXml
  | empty p => p.Named

section Written

variable {e : Element} {es : List Element} {rest : XmlContent}

theorem write_value (value : JsString) : (valueContent value).write = escapeXml value := by
  unfold valueContent
  split
  · rename_i h
    rw [h]
    rfl
  · simp [XmlContent.write]

theorem write_lineBreak (rest : XmlContent) : (lineBreak rest).write = 10 :: rest.write := rfl

theorem write_deadName (p : DeadProperty) : p.tag.name.write = p.qualifiedName := by
  change (XmlName.mk p.shownPrefix p.localName).write = p.qualifiedName
  unfold XmlName.write DeadProperty.qualifiedName DeadProperty.shownPrefix
  cases p.nsPrefix.filter fun t => t ≠ [] with
  | none => rfl
  | some t =>
    change t ++ 58 :: p.localName = t ++ js ":" ++ p.localName
    rw [List.append_assoc]
    rfl

theorem write_deadTag (p : DeadProperty) : p.tag.write = p.qualifiedName ++ p.declaration := by
  rw [XmlTag.write, write_deadName, List.append_cancel_left_eq]
  unfold DeadProperty.tag DeadProperty.declaration DeadProperty.shownPrefix
  by_cases hns : p.namespaceURI = []
  · rw [if_pos hns, if_pos hns]
    rfl
  · rw [if_neg hns, if_neg hns]
    cases p.nsPrefix.filter fun t => t ≠ [] with
    | none => simp [writeAttribute, XmlName.write, js]
    | some t => simp [writeAttribute, XmlName.write, js]

theorem write_piece (h : e.Fit) (rest : XmlContent) : (e.piece rest).write = e.render ++ rest.write := by
  cases e with
  | live name value =>
    have hvalue : (if name ∈ rawXmlDavProperties then readFragment value else valueContent value).write =
        if name ∈ rawXmlDavProperties then value else escapeXml value := by
      split
      · rename_i hraw
        have hfragment := h.2
        rw [if_pos hraw] at hfragment
        exact hfragment.read.2
      · exact write_value value
    simp only [Element.piece, Element.render, XmlContent.write, hvalue, XmlTag.write, XmlName.write]
    simp [js]
  | property p =>
    have hvalue : (readFragment p.valueXml).write = p.valueXml := h.2.read.2
    simp only [Element.piece, Element.render, XmlContent.write, hvalue, write_deadTag, write_deadName]
    simp [js]
  | empty p =>
    simp only [Element.piece, Element.render, XmlContent.write, write_deadTag]
    simp [js]

theorem write_propContent (h : ∀ e ∈ es, e.Fit) :
    (propContent es).write = es.flatMap fun e => e.render ++ [10] := by
  induction es with
  | nil => rfl
  | cons e es ih =>
    obtain ⟨he, hes⟩ := List.forall_mem_cons.mp h
    change (e.piece (lineBreak (propContent es))).write = _
    rw [write_piece he, write_lineBreak, ih hes, List.flatMap_cons, List.append_assoc]
    rfl

theorem joined_lines (xs : List JsString) (hne : xs ≠ []) :
    (js "\n").intercalate xs ++ [10] = xs.flatMap fun x => x ++ [10] := by
  induction xs with
  | nil => exact absurd rfl hne
  | cons x xs ih =>
    cases xs with
    | nil => simp
    | cons y xs =>
      have hrest := ih (by simp)
      rw [List.intercalate_cons_cons, List.flatMap_cons, ← hrest]
      simp [js]

theorem write_propstat {status : String} (hstatus : escapeXml (js status) = js status) (h : ∀ e ∈ es, e.Fit)
    (rest : XmlContent) : (propstatContent status es rest).write = renderPropstat (js status) es ++ rest.write := by
  unfold propstatContent renderPropstat
  split
  · rfl
  · rename_i hes
    have hlines := joined_lines (es.map Element.render) (by simpa using hes)
    rw [List.flatMap_map] at hlines
    simp only [write_lineBreak, XmlContent.write, write_propContent h, ← hlines, hstatus, plainTag, XmlTag.write,
      XmlName.write, List.flatMap_nil, List.append_nil]
    simp [js]

theorem write_entry {e : PropfindEntry} (hok : ∀ d ∈ e.ok, d.Fit) (hmissing : ∀ d ∈ e.missing, d.Fit)
    (rest : XmlContent) :
    (lineBreak (.element (plainTag "response") e.content rest)).write = e.render ++ rest.write := by
  unfold PropfindEntry.content PropfindEntry.render
  simp only [write_lineBreak, XmlContent.write, write_propstat (by decide : escapeXml (js "HTTP/1.1 200 OK") = _) hok,
    write_propstat (by decide : escapeXml (js "HTTP/1.1 404 Not Found") = _) hmissing, write_value, plainTag, XmlTag.write,
    XmlName.write, List.flatMap_nil, List.append_nil]
  simp [js]

theorem write_multistatus {entries : List PropfindEntry}
    (h : ∀ e ∈ entries, (∀ d ∈ e.ok, d.Fit) ∧ ∀ d ∈ e.missing, d.Fit) :
    (multistatusDocument entries).write = renderMultistatus entries := by
  have hcontent : (multistatusContent entries).write = entries.flatMap PropfindEntry.render ++ [10] := by
    induction entries with
    | nil => rfl
    | cons e entries ih =>
      obtain ⟨he, hentries⟩ := List.forall_mem_cons.mp h
      change (lineBreak (.element (plainTag "response") e.content (multistatusContent entries))).write = _
      rw [write_entry he.1 he.2, ih hentries, List.flatMap_cons, List.append_assoc]
  unfold XmlDocument.write multistatusDocument renderMultistatus
  rw [XmlContent.write]
  dsimp only
  rw [hcontent]
  have htag : (XmlTag.mk ⟨none, js "multistatus"⟩ [(⟨none, js "xmlns"⟩, davNamespace)]).write =
      js "multistatus xmlns=\"DAV:\"" := by decide
  have hname : (XmlName.mk none (js "multistatus")).write = js "multistatus" := rfl
  rw [htag, hname]
  have hdeclaration : xmlDeclaration ++ (60 :: js "multistatus xmlns=\"DAV:\"" ++ [62]) =
      js "<?xml version=\"1.0\" encoding=\"utf-8\"?>\n<multistatus xmlns=\"DAV:\">" := by decide
  have hend : ([10] : JsString) ++ (js "</" ++ js "multistatus" ++ [62]) ++ js "\n" = js "\n</multistatus>\n" := by decide
  rw [← hdeclaration, ← hend]
  simp [XmlContent.write]

end Written

/-! ### It is well formed -/

section WellFormed

variable {e : Element} {es : List Element} {rest : XmlContent} {scope : List JsString}

theorem plainTag_wellFormed {name : JsString} (h : IsNcName name) : (XmlTag.mk ⟨none, name⟩ []).WellFormed scope where
  name := ⟨by simp, h⟩
  bound := by simp
  attributes := by simp
  attributesBound := by simp
  nodup := by simp
  namespaces := by simp

theorem tag_wellFormed {name a : XmlName} {value : JsString} (hname : name.WellFormed) (ha : a.WellFormed)
    (hvalue : IsXmlText value ∧ ∀ c ∈ value, 32 ≤ c.val) (hdeclares : Declares a value)
    (hkind : ∀ t ∈ a.nsPrefix, t = js "xmlns") (hbound : ∀ t ∈ name.nsPrefix, a = ⟨some (js "xmlns"), t⟩) :
    (XmlTag.mk name [(a, value)]).WellFormed scope where
  name := hname
  bound := by
    intro t ht
    apply List.mem_append_left
    simp [XmlTag.declared, hbound t ht]
  attributes := List.forall_mem_singleton.mpr ⟨ha, hvalue⟩
  attributesBound := List.forall_mem_singleton.mpr fun t ht => .inl (hkind t ht)
  nodup := by simp
  namespaces := List.forall_mem_singleton.mpr hdeclares

theorem deadTag_wellFormed {p : DeadProperty} (h : p.Named) : p.tag.WellFormed scope := by
  have hname : p.tag.name.WellFormed := ⟨fun t ht => (h.shown t ht).1, h.localName⟩
  have hxmlns : IsNcName (js "xmlns") := by decide
  have hplain : (XmlName.mk none (js "xmlns")).WellFormed := ⟨by simp, hxmlns⟩
  unfold DeadProperty.tag at hname ⊢
  by_cases hns : p.namespaceURI = []
  · have hnone : p.shownPrefix = none := by
      rw [Option.eq_none_iff_forall_not_mem]
      exact fun t ht => (h.shown t ht).2 hns
    rw [if_pos hns]
    apply tag_wellFormed hname hplain ⟨by decide, by simp⟩ ⟨by simp, fun _ => by decide⟩ (by simp)
    simp [hnone]
  · rw [if_neg hns]
    cases hshown : p.shownPrefix with
    | none =>
      have hxml : p.namespaceURI ≠ xmlNamespace := fun he => by simpa [hshown] using h.xml.mpr he
      rw [hshown] at hname
      exact tag_wellFormed hname hplain h.text ⟨by simp, fun _ => ⟨h.reserved.1, hxml⟩⟩ (by simp) (by simp)
    | some t =>
      have hnot : t ≠ js "xmlns" := fun he => h.reserved.2 (he ▸ hshown)
      have hxml : t = js "xml" ↔ p.namespaceURI = xmlNamespace := by rw [← h.xml, hshown, Option.some.injEq]
      rw [hshown] at hname
      apply tag_wellFormed hname ⟨by simpa using hxmlns, (h.shown t hshown).1⟩ h.text
        ⟨fun _ => ⟨hns, h.reserved.1, hnot, hxml⟩, by simp⟩
      · simp
      · simp

theorem value_wellFormed {value : JsString} (h : IsXmlText value) : (valueContent value).WellFormed scope := by
  unfold valueContent
  split
  · trivial
  · rename_i hne
    exact ⟨hne, h, id, trivial⟩

/-- A line break, and what is no text behind it. -/
theorem lineBreak_wellFormed (h : rest.WellFormed scope) (hrest : ¬ rest.startsText) : (lineBreak rest).WellFormed scope :=
  ⟨by decide, by decide, hrest, h⟩

theorem piece_wellFormed (h : e.Fit) (hrest : rest.WellFormed []) : (e.piece rest).WellFormed [] := by
  cases e with
  | live name value =>
    obtain ⟨hname, hvalue⟩ := h
    refine ⟨plainTag_wellFormed hname, ?_, hrest⟩
    by_cases hraw : name ∈ rawXmlDavProperties
    · rw [if_pos hraw] at hvalue ⊢
      exact hvalue.read.1
    · rw [if_neg hraw] at hvalue ⊢
      exact value_wellFormed hvalue
  | property p =>
    obtain ⟨hnamed, hvalue⟩ := h
    refine ⟨deadTag_wellFormed hnamed, ?_, hrest⟩
    rw [List.append_nil]
    exact hvalue.read.1
  | empty p => exact ⟨deadTag_wellFormed h, hrest⟩

theorem piece_startsText (e : Element) : ¬ (e.piece rest).startsText := by cases e <;> exact id

theorem propContent_wellFormed (h : ∀ e ∈ es, e.Fit) :
    (propContent es).WellFormed [] ∧ ¬ (propContent es).startsText := by
  induction es with
  | nil => exact ⟨trivial, id⟩
  | cons e es ih =>
    obtain ⟨he, hes⟩ := List.forall_mem_cons.mp h
    obtain ⟨hrest, hstart⟩ := ih hes
    exact ⟨piece_wellFormed he (lineBreak_wellFormed hrest hstart), piece_startsText e⟩

theorem propstat_wellFormed {status : String} (hstatus : js status ≠ [] ∧ (js status).all isPrintable) (h : ∀ e ∈ es, e.Fit)
    (hrest : rest.WellFormed []) : (propstatContent status es rest).WellFormed [] := by
  obtain ⟨hcontent, hstart⟩ := propContent_wellFormed h
  have hline : (lineBreak .nil).WellFormed [] := lineBreak_wellFormed trivial id
  have htext : (XmlContent.text (js status) .nil).WellFormed [] := ⟨hstatus.1, isXmlText_printable hstatus.2, id, trivial⟩
  unfold propstatContent
  split
  · exact hrest
  · refine lineBreak_wellFormed ⟨plainTag_wellFormed (by decide), ?_, hrest⟩ id
    refine lineBreak_wellFormed ⟨plainTag_wellFormed (by decide), lineBreak_wellFormed hcontent hstart, ?_⟩ id
    exact lineBreak_wellFormed ⟨plainTag_wellFormed (by decide), htext, hline⟩ id

theorem multistatus_wellFormed {entries : List PropfindEntry}
    (h : ∀ e ∈ entries, IsXmlText e.href ∧ (∀ d ∈ e.ok, d.Fit) ∧ ∀ d ∈ e.missing, d.Fit) :
    (multistatusDocument entries).WellFormed := by
  have hline : (lineBreak .nil).WellFormed [] := lineBreak_wellFormed trivial id
  refine ⟨tag_wellFormed ⟨by simp, by decide⟩ ⟨by simp, by decide⟩ ⟨by decide, by simp [davNamespace, js]⟩
    ⟨by simp, fun _ => by decide⟩
    (by simp) (by simp), ?_⟩
  change (multistatusContent entries).WellFormed []
  induction entries with
  | nil => exact hline
  | cons e entries ih =>
    obtain ⟨⟨hhref, hok, hmissing⟩, hentries⟩ := List.forall_mem_cons.mp h
    refine lineBreak_wellFormed ⟨plainTag_wellFormed (by decide), ?_, ih hentries⟩ id
    refine lineBreak_wellFormed ⟨plainTag_wellFormed (by decide), value_wellFormed hhref, ?_⟩ id
    exact propstat_wellFormed ⟨by simp [js], rfl⟩ hok (propstat_wellFormed ⟨by simp [js], rfl⟩ hmissing hline)

end WellFormed

end DurableDav.Dav
