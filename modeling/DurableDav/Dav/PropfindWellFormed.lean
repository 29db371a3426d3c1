import DurableDav.Dav.PropfindPaging
import DurableDav.Dav.MultistatusDocument

namespace DurableDav.Dav

open Library
open Replication (isValidInnerPath)

/-! ### What may be shown -/

/-- What the platform puts out can be printed. -/
structure Platform.Prints (p : Platform) : Prop where
  encoded : ∀ s, (p.encodeURIComponent s).all isPrintable
  dates : ∀ t, (p.toUTCString t).all isPrintable

structure LockDetails.Printable (d : LockDetails) : Prop where
  owner : ∀ o ∈ d.owner, IsXmlText o
  timeout : IsXmlText d.timeout
  token : IsXmlText d.token

structure DavNodeInfo.Printable (node : DavNodeInfo) : Prop where
  etag : ∀ t ∈ node.etag, IsXmlText t
  contentType : ∀ t ∈ node.contentType, IsXmlText t
  displayname : ∀ t ∈ node.displayname, IsXmlText t
  locks : ∀ d ∈ node.locks, d.Printable
  dead : ∀ d ∈ node.deadProperties, (Element.property d).Fit

structure PropfindEntry.Fit (e : PropfindEntry) : Prop where
  href : IsXmlText e.href
  ok : ∀ d ∈ e.ok, d.Fit
  missing : ∀ d ∈ e.missing, d.Fit

theorem fit_document {entries : List PropfindEntry} (h : ∀ e ∈ entries, e.Fit) :
    (multistatusDocument entries).WellFormed ∧ (multistatusDocument entries).write = renderMultistatus entries :=
  ⟨multistatus_wellFormed fun e he => ⟨(h e he).href, (h e he).ok, (h e he).missing⟩,
    write_multistatus fun e he => ⟨(h e he).ok, (h e he).missing⟩⟩

/-! ### The values of the live properties -/

section Values

variable {p : Platform} {node : DavNodeInfo} {base : JsString}

theorem printable_append {s t : JsString} (hs : s.all isPrintable) (ht : t.all isPrintable) : (s ++ t).all isPrintable := by
  rw [List.all_append, hs, ht]
  rfl

theorem printable_join {ss : List JsString} (h : ∀ s ∈ ss, s.all isPrintable) :
    ([slash].intercalate ss).all isPrintable := by
  rw [List.all_eq_true]
  intro c hc
  induction ss with
  | nil => simp at hc
  | cons s ss ih =>
    obtain ⟨hs, hss⟩ := List.forall_mem_cons.mp h
    cases ss with
    | nil =>
      rw [List.intercalate_singleton] at hc
      exact List.all_eq_true.mp hs c hc
    | cons t ss =>
      rw [List.intercalate_cons_cons] at hc
      rcases List.mem_append.mp hc with hc | hc
      · rcases List.mem_append.mp hc with hc | hc
        · exact List.all_eq_true.mp hs c hc
        · rw [List.mem_singleton.mp hc]
          decide
      · exact ih hss hc

theorem printable_strip {s : JsString} (h : s.all isPrintable) : (stripSlashes s).all isPrintable := by
  rw [List.all_eq_true] at h ⊢
  intro c hc
  apply h
  unfold stripSlashes at hc
  exact List.dropWhile_subset _ (List.mem_reverse.mp (List.dropWhile_subset _ (List.mem_reverse.mp hc)))

/-- The address of the root is the base as it is, and any other is encoded. -/
theorem href_printable (hp : p.Prints) (hbase : base.all isPrintable) (key : JsString) (isCollection : Bool) :
    (getResourceHref p key isCollection base).all isPrintable := by
  have hslash : [slash].all isPrintable := by decide
  unfold getResourceHref
  dsimp only
  split
  · split
    · exact hslash
    · exact printable_append (s := [slash] ++ stripSlashes base) (printable_append hslash (printable_strip hbase)) hslash
  · have hhref {s : JsString} (hs : s.head? = some slash) : (encodeHrefPath p s).all isPrintable := by
      unfold encodeHrefPath
      split
      · rename_i h
        rw [h]
        exact hslash
      · obtain ⟨t, rfl⟩ := List.head?_eq_some_iff.mp hs
        rw [show slash :: t = [] ++ slash :: t from rfl, List.splitOn_append_cons_self, List.splitOn_nil, List.singleton_append]
        apply printable_join
        rintro s hs
        rcases List.mem_cons.mp hs with rfl | hs
        · rfl
        · obtain ⟨name, -, rfl⟩ := List.mem_map.mp hs
          exact hp.encoded name
    apply hhref
    split <;> rfl

theorem decimal_printable (n : ℕ) : (decimal n).all isPrintable :=
  List.all_eq_true.mpr (inBase_units (by omega) (by decide) n)

theorem hexadecimal_printable (n : ℕ) : (hexadecimal n).all isPrintable :=
  List.all_eq_true.mpr (inBase_units (by omega) (by decide) n)

end Values

/-! ### The values that are XML -/

def lockEntry (scope : String) (rest : XmlContent) : XmlContent :=
  .element (plainTag "lockentry") (.element (plainTag "lockscope") (.closed (plainTag scope) .nil)
    (.element (plainTag "locktype") (.closed (plainTag "write") .nil) .nil)) rest

def ownerContent (owner : Option JsString) (rest : XmlContent) : XmlContent :=
  match owner.filter fun o => o ≠ [] with
  | some o => .element (plainTag "owner") (.text o .nil) rest
  | none => rest

def activeLockContent (d : LockDetails) (rest : XmlContent) : XmlContent :=
  .element (plainTag "activelock")
    (.element (plainTag "locktype") (.closed (plainTag "write") .nil)
      (.element (plainTag "lockscope") (.closed ⟨⟨none, d.scope.text⟩, []⟩ .nil)
        (.element (plainTag "depth") (.text d.depth.text .nil)
          (ownerContent d.owner
            (.element (plainTag "timeout") (valueContent d.timeout)
              (.element (plainTag "locktoken") (.element (plainTag "href") (.text (js "urn:uuid:" ++ d.token) .nil) .nil)
                (.element (plainTag "lockroot") (.element (plainTag "href") (valueContent d.root) .nil) .nil))))))) rest

section Fragments

variable {d : LockDetails} {rest : XmlContent} {scope : List JsString}

set_option maxRecDepth 4000 in
theorem write_activeLock (d : LockDetails) (rest : XmlContent) :
    (activeLockContent d rest).write = activeLock d ++ rest.write := by
  have howner (rest : XmlContent) : (ownerContent d.owner rest).write =
      ((d.owner.filter (fun o => o ≠ [])).map (fun o => js "<owner>" ++ escapeXml o ++ js "</owner>")).getD [] ++
        rest.write := by
    unfold ownerContent
    cases d.owner.filter fun o => o ≠ [] with
    | none => rfl
    | some o =>
      simp only [XmlContent.write, plainTag, XmlTag.write, XmlName.write, List.flatMap_nil, List.append_nil, Option.map_some,
        Option.getD_some]
      simp [js]
  have hdepth : escapeXml d.depth.text = d.depth.text := by cases d.depth <;> decide
  have htoken : escapeXml (js "urn:uuid:" ++ d.token) = js "urn:uuid:" ++ escapeXml d.token := by
    rw [escapeXml, List.flatMap_append]
    rfl
  unfold activeLockContent activeLock
  simp only [XmlContent.write, howner, write_value, hdepth, htoken, plainTag, XmlTag.write, XmlName.write, List.flatMap_nil,
    List.append_nil]
  simp [js]

theorem activeLock_wellFormed (h : d.Printable) (hroot : d.root.all isPrintable) (hrest : rest.WellFormed scope) :
    (activeLockContent d rest).WellFormed scope := by
  have htag {name : JsString} (hname : IsNcName name) {scope : List JsString} :
      (XmlTag.mk ⟨none, name⟩ []).WellFormed scope := plainTag_wellFormed hname
  have hscope : IsNcName d.scope.text := by cases d.scope <;> decide
  have hdepth : (XmlContent.text d.depth.text .nil).WellFormed scope := by
    cases d.depth
    · exact ⟨by decide, by decide, id, trivial⟩
    · exact ⟨by decide, by decide, id, trivial⟩
  have htoken : (XmlContent.text (js "urn:uuid:" ++ d.token) .nil).WellFormed scope :=
    ⟨by simp [js], (isXmlText_append (by decide)).mpr h.token, id, trivial⟩
  have howner {rest : XmlContent} (hrest : rest.WellFormed scope) : (ownerContent d.owner rest).WellFormed scope := by
    unfold ownerContent
    cases ho : d.owner.filter fun o => o ≠ [] with
    | none => exact hrest
    | some o =>
      obtain ⟨hmem, hne⟩ := Option.filter_eq_some_iff.mp ho
      exact ⟨htag (by decide), ⟨by simpa using hne, h.owner o hmem, id, trivial⟩, hrest⟩
  refine ⟨htag (by decide), ?_, hrest⟩
  refine ⟨htag (by decide), ⟨htag (by decide), trivial⟩, htag (by decide), ⟨htag hscope, trivial⟩, htag (by decide), hdepth, ?_⟩
  refine howner ⟨htag (by decide), value_wellFormed h.timeout, htag (by decide), ⟨htag (by decide), htoken, trivial⟩, ?_⟩
  exact ⟨htag (by decide), ⟨htag (by decide), value_wellFormed (isXmlText_printable hroot), trivial⟩, trivial⟩

theorem lockDiscovery_fragment {ds : List LockDetails} (h : ∀ d ∈ ds, d.Printable ∧ d.root.all isPrintable) :
    IsFragment [] (getLockDiscovery ds) := by
  refine ⟨ds.foldr activeLockContent .nil, ?_, ?_⟩
  · induction ds with
    | nil => trivial
    | cons d ds ih =>
      obtain ⟨⟨hd, hroot⟩, hds⟩ := List.forall_mem_cons.mp h
      exact activeLock_wellFormed hd hroot (ih hds)
  · unfold getLockDiscovery
    induction ds with
    | nil => rfl
    | cons d ds ih => rw [List.foldr_cons, write_activeLock, ih fun d' hd' => h d' (by simp [hd']), List.flatMap_cons]

set_option maxRecDepth 4000 in
theorem supportedLock_fragment : IsFragment [] supportedLock := by
  have hentry {scope : String} (hscope : IsNcName (js scope)) {rest : XmlContent} (hrest : rest.WellFormed []) :
      (lockEntry scope rest).WellFormed [] :=
    ⟨plainTag_wellFormed (by decide), ⟨plainTag_wellFormed (by decide), ⟨plainTag_wellFormed hscope, trivial⟩,
      plainTag_wellFormed (by decide), ⟨plainTag_wellFormed (by decide), trivial⟩, trivial⟩, hrest⟩
  exact ⟨lockEntry "exclusive" (lockEntry "shared" .nil), hentry (by decide) (hentry (by decide) trivial), rfl⟩

theorem collection_fragment : IsFragment [] (js "<collection />") :=
  ⟨.closed (plainTag "collection") .nil, ⟨plainTag_wellFormed (by decide), trivial⟩, rfl⟩

theorem empty_fragment : IsFragment scope [] := ⟨.nil, trivial, rfl⟩

end Fragments

/-! ### The entries -/

section Entries

variable {p : Platform} {node : DavNodeInfo} {base : JsString}

theorem live_fit (hp : p.Prints) (hbase : base.all isPrintable) (hnode : node.Printable) {name value : JsString}
    (h : (name, some value) ∈ toLiveProperties p node base) :
    (Element.live name value).Fit ∧ (Element.live name []).Fit := by
  have hlocks : ∀ d ∈ node.shownLocks p base, d.Printable ∧ d.root.all isPrintable := by
    rintro d hd
    obtain ⟨d', hd', rfl⟩ := List.mem_map.mp hd
    have hd'' := hnode.locks d' hd'
    exact ⟨⟨hd''.owner, hd''.timeout, hd''.token⟩, href_printable hp hbase _ _⟩
  have hempty : IsXmlText [] := ⟨rfl, rfl⟩
  have hraw {name : JsString} (hname : IsNcName name) (hin : name ∈ rawXmlDavProperties) (hvalue : IsFragment [] value) :
      (Element.live name value).Fit ∧ (Element.live name []).Fit :=
    ⟨⟨hname, by rw [if_pos hin]; exact hvalue⟩, ⟨hname, by rw [if_pos hin]; exact empty_fragment⟩⟩
  have htext {name : JsString} (hname : IsNcName name) (hout : name ∉ rawXmlDavProperties) (hvalue : IsXmlText value) :
      (Element.live name value).Fit ∧ (Element.live name []).Fit :=
    ⟨⟨hname, by rw [if_neg hout]; exact hvalue⟩, ⟨hname, by rw [if_neg hout]; exact hempty⟩⟩
  simp only [toLiveProperties, List.mem_cons, Prod.mk.injEq, List.not_mem_nil, or_false] at h
  rcases h with ⟨rfl, h⟩ | ⟨rfl, h⟩ | ⟨rfl, h⟩ | ⟨rfl, h⟩ | ⟨rfl, h⟩ | ⟨rfl, h⟩ | ⟨rfl, h⟩ | ⟨rfl, h⟩ | ⟨rfl, h⟩
  · obtain rfl := Option.some.inj h
    exact htext (by decide) (by decide) (isXmlText_printable (hp.dates _))
  · exact htext (by decide) (by decide) (hnode.displayname value h.symm)
  · split at h
    · cases h
    · obtain rfl := Option.some.inj h
      exact htext (by decide) (by decide) (isXmlText_printable (decimal_printable _))
  · split at h
    · cases h
    · exact htext (by decide) (by decide) (hnode.contentType value h.symm)
  · split at h
    · cases h
    · exact htext (by decide) (by decide) (hnode.etag value h.symm)
  · obtain rfl := Option.some.inj h
    exact htext (by decide) (by decide) (isXmlText_printable (hp.dates _))
  · obtain rfl := Option.some.inj h
    refine hraw (by decide) (by decide) ?_
    split
    · exact collection_fragment
    · exact empty_fragment
  · obtain rfl := Option.some.inj h
    exact hraw (by decide) (by decide) supportedLock_fragment
  · obtain rfl := Option.some.inj h
    exact hraw (by decide) (by decide) (lockDiscovery_fragment hlocks)

theorem namedProperty_fit (hp : p.Prints) (hbase : base.all isPrintable) (hnode : node.Printable) {d : DeadProperty}
    {e : Element} (h : namedProperty p node base d = some e) : e.Fit := by
  unfold namedProperty at h
  split at h
  · rename_i value hvalue
    obtain rfl := Option.some.inj h
    unfold getLivePropertyValue at hvalue
    split at hvalue
    · cases hvalue
    · have hmem : (d.localName, some value) ∈ toLiveProperties p node base := by
        obtain ⟨before, after, hsplit, -⟩ := List.lookup_eq_some_iff.mp (Option.join_eq_some_iff.mp hvalue)
        simp [hsplit]
      exact (live_fit hp hbase hnode hmem).1
  · obtain ⟨found, hfound, rfl⟩ := Option.map_eq_some_iff.mp h
    exact hnode.dead found (List.mem_of_find?_eq_some hfound)

theorem named_emptied {d : DeadProperty} (h : d.Named) : (emptied d).Fit :=
  ⟨h.localName, h.shown, h.text, h.reserved, h.xml⟩

/-- What a body asks for can stand in a document again. -/
def PropfindRequest.Named : PropfindRequest → Prop
  | .prop requested => ∀ d ∈ requested, d.Named
  | _ => True

theorem entry_fit (hp : p.Prints) (hbase : base.all isPrintable) (hnode : node.Printable) {mode : PropfindRequest}
    (hmode : mode.Named) : (propfindEntry p node mode base).Fit := by
  have hhref : IsXmlText (getResourceHref p node.key node.isCollection base) :=
    isXmlText_printable (href_printable hp hbase _ _)
  cases mode with
  | allprop =>
    refine ⟨hhref, fun e he => ?_, fun e he => absurd he List.not_mem_nil⟩
    rcases List.mem_append.mp he with he | he
    · obtain ⟨⟨name, shown⟩, hmem, he⟩ := List.mem_filterMap.mp he
      obtain ⟨value, rfl, rfl⟩ := Option.map_eq_some_iff.mp he
      exact (live_fit hp hbase hnode hmem).1
    · obtain ⟨d, hd, rfl⟩ := List.mem_map.mp he
      exact hnode.dead d hd
  | propname =>
    refine ⟨hhref, fun e he => ?_, fun e he => absurd he List.not_mem_nil⟩
    rcases List.mem_append.mp he with he | he
    · obtain ⟨⟨name, shown⟩, hmem, he⟩ := List.mem_filterMap.mp he
      obtain ⟨value, rfl, rfl⟩ := Option.map_eq_some_iff.mp he
      exact (live_fit hp (by rfl) hnode hmem).2
    · obtain ⟨d, hd, rfl⟩ := List.mem_map.mp he
      exact named_emptied (hnode.dead d hd).1
  | prop requested =>
    refine ⟨hhref, fun e he => ?_, fun e he => ?_⟩
    · obtain ⟨d, -, he⟩ := List.mem_filterMap.mp he
      exact namedProperty_fit hp hbase hnode he
    · obtain ⟨d, hd, rfl⟩ := List.mem_map.mp he
      exact named_emptied (hmode d (List.mem_of_mem_filter hd))

end Entries

/-! ### The whole answer -/

/-- What is stored and what is found can be printed, and a property's value is a piece of XML. -/
structure Volume.Printable (v : Volume) : Prop where
  nodes : ∀ path row, Store.get v.nodes path = some row → (∀ t ∈ row.etag, IsXmlText t) ∧ ∀ t ∈ row.contentType, IsXmlText t
  props : ∀ e ∈ v.props, (Element.property (deadProperty e)).Fit
  locks : ∀ e ∈ v.locks, IsXmlText e.1 ∧ (∀ o ∈ e.2.owner, IsXmlText o) ∧ IsXmlText e.2.timeout
  names : ∀ path, v.files.found path = true → IsXmlText (baseName path)

section Answers

variable {env : Env} {v : Volume} {path base : JsString} {mode : PropfindRequest} {s s' : Session}

theorem mintEtag_text (size now : ℕ) : IsXmlText (mintEtag size now) := by
  have hquote : ([34] : JsString).all isPrintable := by decide
  have hdash : [dash].all isPrintable := by decide
  have hparts : mintEtag size now = [34] ++ (hexadecimal size ++ ([dash] ++ (hexadecimal now ++ [34]))) := by
    simp [mintEtag]
  rw [hparts]
  apply isXmlText_printable
  apply printable_append hquote
  apply printable_append (hexadecimal_printable size)
  apply printable_append hdash
  exact printable_append (hexadecimal_printable now) hquote

theorem nodeOf_printable (hv : v.Printable) (hfound : v.files.found path = true) {st : StatResult} {row : Option NodeRow}
    (hrow : ∀ r ∈ row, Store.get v.nodes path = some r) :
    (nodeOf path st row (v.applicableLocks env.platform env.now path base) ((v.deadProperties path).map deadProperty)).Printable := by
  refine ⟨?_, ?_, ?_, ?_, ?_⟩
  · intro t ht
    obtain rfl := Option.mem_some_iff.mp ht
    cases hetag : row.bind NodeRow.etag with
    | none => exact mintEtag_text _ _
    | some t =>
      obtain ⟨r, hr, hetag⟩ := Option.bind_eq_some_iff.mp hetag
      exact (hv.nodes path r (hrow r hr)).1 t hetag
  · intro t ht
    obtain ⟨r, hr, htype⟩ := Option.bind_eq_some_iff.mp ht
    exact (hv.nodes path r (hrow r hr)).2 t htype
  · intro t ht
    change t ∈ (if path = [] then none else some (baseName path)) at ht
    split at ht
    · cases ht
    · obtain rfl := Option.mem_some_iff.mp ht
      exact hv.names path hfound
  · intro d hd
    obtain ⟨e, he, hd⟩ := List.mem_filterMap.mp hd
    have hmem : e ∈ v.locks := List.mem_of_mem_filter (List.mem_of_mem_filter he)
    obtain ⟨htoken, howner, htimeout⟩ := hv.locks e hmem
    unfold lockDetailsFromRow normalizeLockDetails at hd
    obtain ⟨-, hd⟩ := Option.ite_none_left_eq_some.mp hd
    obtain rfl := Option.some.inj hd
    exact ⟨howner, htimeout, htoken⟩
  · intro d hd
    obtain ⟨e, he, rfl⟩ := List.mem_map.mp hd
    exact hv.props e (Store.mem_of_get (mem_deadProperties.mp he).2)

/-- Whatever fails, the volume stays as it is, and what is answered is one of these. -/
def Volume.Gives {α : Type} (v : Volume) (x : Serve α) (Q : α → Prop) : Prop :=
  Act.Meets (fun s => s.volume = v) x (fun a s => s.volume = v ∧ Q a) (fun s => s.volume = v)

section Gives

variable {α β : Type} {Q : α → Prop}

theorem gives_pure {a : α} (h : Q a) : v.Gives (pure a) Q := Act.meets_pure fun _ hs => ⟨hs, h⟩

theorem gives_bind {x : Serve α} {f : α → Serve β} {R : β → Prop} (hx : v.Gives x Q)
    (hf : ∀ a, Q a → v.Gives (f a) R) : v.Gives (x >>= f) R :=
  Act.meets_bind hx fun a _ hs => hf a hs.2 _ hs.1

theorem gives_reading {op : Op} {body : Serve α} (h : v.Gives body Q) : v.Gives (env.call op body) Q := by
  intro s hs
  rw [run_call]
  cases env.fails op (s.calls.count op) with
  | some e => exact hs
  | none => exact h _ hs

theorem gives_read {f : Session → Serve α} (h : ∀ s, s.volume = v → v.Gives (f s) Q) : v.Gives (.read >>= f) Q :=
  Act.meets_read_bind fun r hr s hs => h r hr s (hs ▸ hr)

theorem gives_attempt {x : Serve α} (h : v.Gives x Q) : v.Gives x.attempt (fun r => ∀ a, r = .ok a → Q a) := by
  intro s hs
  have h' := h s hs
  rw [Act.run_attempt]
  cases hrun : x.run s with
  | mk r s' =>
    rw [hrun] at h'
    cases r with
    | error e => exact ⟨h', by simp⟩
    | ok a => exact ⟨h'.1, fun b hb => Except.ok.inj hb ▸ h'.2⟩

end Gives

theorem gives_readMeta : v.Gives (env.readMeta path) (fun row => ∀ r ∈ row, Store.get v.nodes path = some r) := by
  have hread : v.Gives (env.exec (.selectNode path) do
      let s ← .read
      pure (Store.get s.volume.nodes path)) (fun row => row = Store.get v.nodes path) :=
    gives_reading (gives_read fun s hs => gives_pure (by rw [hs]))
  refine gives_bind (gives_attempt hread) fun r hr => ?_
  cases r with
  | error e => exact gives_pure (by simp)
  | ok row => exact gives_pure fun r' hr' => (hr row rfl).symm.trans hr'

theorem gives_nodeInfo (hv : v.Printable) :
    v.Gives (env.nodeInfo path base) (fun node => ∀ n ∈ node, n.Printable) := by
  have hstat : v.Gives (env.statInner path) (fun st => st.found = true → v.files.found path = true) := by
    intro s hs
    rw [statInner_run]
    refine ⟨hs, fun hfound => ?_⟩
    unfold Env.sees at hfound
    split at hfound
    · rwa [stat_found, hs] at hfound
    · cases hfound
  have hlocks : v.Gives (env.applicableLocks path base)
      (fun ds => ds = v.applicableLocks env.platform env.now path base) :=
    gives_reading (gives_read fun s hs => gives_pure (by rw [hs]))
  have hdead : v.Gives (env.getDeadProperties path) (fun ds => ds = (v.deadProperties path).map deadProperty) :=
    gives_reading (gives_read fun s hs => gives_pure (by rw [hs]))
  refine gives_bind hstat fun st hst => ?_
  split
  · exact gives_pure (by simp)
  · rename_i hfound
    refine gives_bind gives_readMeta fun row hrow => gives_bind hlocks fun ds hds => gives_bind hdead fun es hes => ?_
    apply gives_pure
    rw [hds, hes]
    intro n hn
    obtain rfl := Option.mem_some_iff.mp hn
    exact nodeOf_printable hv (hst (by simpa using hfound)) hrow

theorem rootNode_printable : env.rootNode.Printable :=
  ⟨by simp [Env.rootNode], by simp [Env.rootNode], by simp [Env.rootNode], by simp [Env.rootNode], by simp [Env.rootNode]⟩

theorem gives_nodeAt (hv : v.Printable) : v.Gives (env.nodeAt path base) (fun node => ∀ n ∈ node, n.Printable) := by
  unfold Env.nodeAt
  split
  · exact gives_pure fun n hn => Option.mem_some_iff.mp hn ▸ rootNode_printable
  · exact gives_nodeInfo hv

theorem gives_entriesOf (hp : env.platform.Prints) (hv : v.Printable) (hbase : base.all isPrintable) (hmode : mode.Named)
    (paths : List JsString) : v.Gives (env.entriesOf mode base paths) (fun es => ∀ e ∈ es, e.Fit) := by
  induction paths with
  | nil => exact gives_pure (by simp)
  | cons path paths ih =>
    refine gives_bind (gives_nodeInfo hv) fun node hnode => gives_bind ih fun es hes => ?_
    apply gives_pure
    intro e he
    rcases List.mem_append.mp he with he | he
    · obtain ⟨n, hn, rfl⟩ := Option.map_eq_some_iff.mp (Option.mem_toList.mp he)
      exact entry_fit hp hbase (hnode n hn) hmode
    · exact hes e he

theorem gives_names (recursive : Bool) : v.Gives (env.listDir path recursive) (fun _ => True) := by
  refine gives_reading (gives_read fun s hs => ?_)
  split
  · exact fun t ht => ht
  · split <;> exact gives_pure trivial

theorem gives_listChildren : v.Gives (env.listChildren path) (fun _ => True) := by
  refine gives_bind (gives_attempt (gives_names false)) fun r _ => ?_
  cases r <;> exact gives_pure trivial

theorem gives_listRecursive : v.Gives (env.listRecursive path) (fun _ => True) := by
  refine gives_bind (gives_attempt (gives_names true)) fun r _ => ?_
  cases r <;> exact gives_pure trivial

theorem gives_memberEntries (hp : env.platform.Prints) (hv : v.Printable) (hbase : base.all isPrintable)
    (hmode : mode.Named) (depth : JsString) :
    v.Gives (env.memberEntries mode path depth base) (fun es => ∀ e ∈ es, e.Fit) := by
  unfold Env.memberEntries
  split
  · exact gives_pure (by simp)
  · refine gives_bind gives_listChildren fun names _ => gives_bind (gives_entriesOf hp hv hbase hmode _) fun es hes => ?_
    split
    · exact gives_pure hes
    · refine gives_bind gives_listRecursive fun all _ => gives_bind (gives_entriesOf hp hv hbase hmode _) fun ds hds => ?_
      exact gives_pure fun e he => (List.mem_append.mp he).elim (hes e) (hds e)

/-- What the bodies of such requests are read as can be named. -/
def Platform.Names (p : Platform) (r : Incoming) : Prop :=
  ∀ xml mode, r.readCappedText maxXmlBodyBytes = some xml → parsePropfindRequest p xml = some mode → mode.Named

theorem gives_handlePropfind {r : Incoming} {bases : DavBases} (hp : env.platform.Prints) (hr : env.platform.Names r)
    (hv : v.Printable) (hbase : bases.hrefBase.all isPrintable) :
    v.Gives (env.handlePropfind r path bases) (fun answer => ∀ entries, answer = .multistatus entries → ∀ e ∈ entries, e.Fit) := by
  unfold Env.handlePropfind
  cases hxml : r.readCappedText maxXmlBodyBytes with
  | none => exact gives_pure (by simp)
  | some xml =>
    dsimp only
    cases hread : parsePropfindRequest env.platform xml with
    | none => exact gives_pure (by simp)
    | some mode =>
      have hmode := hr xml mode hxml hread
      refine gives_bind (gives_nodeAt hv) fun node hnode => ?_
      cases node with
      | none => exact gives_pure (by simp)
      | some n =>
        have hown := entry_fit hp hbase (hnode n rfl) hmode
        dsimp only
        split
        · exact gives_pure fun es hes => by
            obtain rfl := Env.PropfindAnswer.multistatus.inj hes
            exact List.forall_mem_singleton.mpr hown
        · split
          · exact gives_pure (by simp)
          · refine gives_bind (gives_memberEntries hp hv hbase hmode _) fun es hes => ?_
            exact gives_pure fun ds hds => by
              obtain rfl := Env.PropfindAnswer.multistatus.inj hds
              exact List.forall_mem_cons.mpr ⟨hown, hes⟩

end Answers

/-! ### A locked file with a property -/


theorem uriUnit_printable {c : CodeUnit} (hc : Library.isUriUnit c = true) : isPrintable c = true := by
  simp only [Library.isUriUnit, isUnescaped, percent, List.mem_cons, List.not_mem_nil, or_false, Bool.or_eq_true, decide_eq_true_eq,
    Fin.ext_iff] at hc
  simp only [isPrintable, decide_eq_true_eq]
  omega

/-- A date in the first minute that there are dates for. -/
def earlyDate (t : ℕ) : JsString :=
  js "Thu, 01 Jan 1970 00:00:" ++ ((if t / 1000 < 10 then js "0" else []) ++ (decimal (t / 1000) ++ js " GMT"))

def uriPlatform : Platform := { plainPlatform with
  encodeURIComponent := fun s => (Library.encodeURIComponent s).getD []
  toUTCString := earlyDate }

theorem earlyDate_printable (t : ℕ) : (earlyDate t).all isPrintable := by
  have hstart : (js "Thu, 01 Jan 1970 00:00:").all isPrintable := by decide
  have hzero : (if t / 1000 < 10 then js "0" else []).all isPrintable := by
    split <;> decide
  have hend : (js " GMT").all isPrintable := by decide
  exact printable_append hstart (printable_append hzero (printable_append (decimal_printable _) hend))

theorem uriPlatform_prints : uriPlatform.Prints := by
  refine ⟨fun s => ?_, earlyDate_printable⟩
  change ((Library.encodeURIComponent s).getD []).all isPrintable
  cases h : Library.encodeURIComponent s with
  | none => rfl
  | some t => exact List.all_eq_true.mpr fun c hc => uriUnit_printable (encoded_units h c hc)

def shelvedVolume : Volume where
  files := [(js "d", ⟨none, 1⟩), (js "d/a & b", ⟨some [1], 2⟩)]
  nodes := [(js "d/a & b", ⟨false, some (js "text/plain"), some (js "\"1-2\""), 2, 2, false⟩)]
  props := [(⟨js "d/a & b", js "urn:shelf", js "colour"⟩, ⟨some (js "Z"), js "red"⟩)]
  locks := [(js "1f", ⟨js "d/a & b", js "exclusive", js "0", some (js "<me>"), js "Second-600", 600, js "d/a & b"⟩)]
  replicaState := []

theorem shelvedVolume_wellFormed : shelvedVolume.files.WellFormed := wellFormed_of_keys (by decide)

theorem shelvedVolume_printable : shelvedVolume.Printable where
  nodes := by
    intro path row h
    obtain ⟨rfl, rfl⟩ := Prod.mk.inj (List.mem_singleton.mp (Store.mem_of_get h))
    exact ⟨by simpa using (by decide : IsXmlText (js "\"1-2\"")), by simpa using (by decide : IsXmlText (js "text/plain"))⟩
  props := by
    refine List.forall_mem_singleton.mpr ⟨⟨by decide, ?_, ⟨by decide, by simp [deadProperty, js]⟩, by decide, by decide⟩, ?_⟩
    · intro t ht
      have hshown : js "Z" = t := Option.some.inj ht
      rw [← hshown]
      exact ⟨by decide, by decide⟩
    · exact ⟨.text (js "red") .nil, ⟨by decide, by decide, id, trivial⟩, by decide⟩
  locks := List.forall_mem_singleton.mpr ⟨by decide, by simpa using (by decide : IsXmlText (js "<me>")), by decide⟩
  names := by
    intro path h
    rcases found_iff.mp h with rfl | h
    · decide
    · obtain ⟨i, hi⟩ := Option.isSome_iff_exists.mp h
      have hmem : path ∈ [js "d", js "d/a & b"] := List.mem_map_of_mem (f := Prod.fst) (Store.mem_of_get hi)
      rcases List.mem_pair.mp hmem with rfl | rfl <;> decide

def shelfEnv : Env where
  platform := uriPlatform
  now := 9
  fails := fun _ _ => none

def listShelf : Incoming := { plainIncoming [] with depth := some (js "1") }

end DurableDav.Dav
