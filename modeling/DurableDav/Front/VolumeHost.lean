import DurableDav.Dav.LockDiscovery
import DurableDav.Dav.SiblingPaths
import DurableDav.Front.OneResource
import DurableDav.Front.ReadMultistatus
import DurableDav.Front.ReadServing
import DurableDav.Library.TextEncoding
import DurableDav.Replication.ConformantServer

namespace DurableDav.Front

open Library Dav
open Replication (DavHttpRemote MultistatusPlatform Parses Sent Undotted XmlNode closed
  decodePathname decodeSegment encodedNames isValidInnerPath joinUrl names rootPathnameOf toInnerEntry)

/-! ### A volume behind its address -/

structure VolumeHost where
  env : Env
  volume : Volume
  owner : JsString
  name : JsString
  mode : HrefPrefixMode

def sentText (sent : Sent) : JsString :=
  match sent.body with
  | some (.text value) => value
  | _ => []

/-- The request as the volume's object gets it. -/
def incomingOf (sent : Sent) : Incoming :=
  { plainIncoming (sent.url.origin ++ sent.url.pathname) with
    depth := sent.headers.lookup (js "Depth")
    contentType := sent.headers.lookup (js "Content-Type")
    body := (textEncode (sentText sent)).map (Fin.ofNat 256)
    text := sentText sent }

def contentText : Content → JsString
  | .text s => s
  | _ => []

/-- What a reader who is let in is answered to a PROPFIND, if it is not answered of the cache. -/
def VolumeHost.propfind (h : VolumeHost) (sent : Sent) : Replication.Response :=
  match requested h.env.platform h.owner h.name (sent.url.origin ++ sent.url.pathname) with
  | none => { status := 400 }
  | some inner =>
    let answer := objectPropfind h.env h.volume (incomingOf sent) inner
      (resolveDavBases (pathBaseOf h.owner h.name) h.mode)
    { status := answer.status, text := contentText answer.content }

/-- What the addresses in an answer start with. -/
def hrefBaseOf (owner name : JsString) (mode : HrefPrefixMode) : JsString :=
  (resolveDavBases (pathBaseOf owner name) mode).hrefBase

/-! ### Addresses -/

def baseNames (owner name : JsString) : HrefPrefixMode → List JsString
  | .base => [owner, name]
  | .root => []

/-- The segments of the address of a path in the volume. -/
def segmentsOf (owner name : JsString) (es : List JsString) : List JsString :=
  owner :: name :: if es = [] then [[]] else es

section Addresses

variable {p : Platform} {owner name q : JsString} {es ss : List JsString} {base : Url} {d : DavVolumeRemote}

theorem encodedNames_eq (q : JsString) : encodedNames q = (names q).mapM encodeURIComponent := by
  unfold encodedNames names
  split <;> rfl

theorem names_inner (d : DavVolumeRemote) (q : JsString) : names (d.inner q) = names d.root ++ names q := by
  unfold DavVolumeRemote.inner
  by_cases hroot : d.root = []
  · rw [if_pos hroot, hroot]
    rfl
  · rw [if_neg hroot]
    by_cases hq : q = []
    · rw [if_pos hq, hq, Replication.names_nil, List.append_nil]
    · rw [if_neg hq, Replication.names_append hroot, Replication.names_of_ne hq]

theorem encodedNames_inner (d : DavVolumeRemote) (q : JsString) :
    encodedNames (d.inner q) = (encodedNames d.root).bind fun es => (encodedNames q).map (es ++ ·) := by
  rw [encodedNames_eq, names_inner, List.mapM_append, ← encodedNames_eq, ← encodedNames_eq]
  cases encodedNames d.root <;> cases encodedNames q <;> rfl

theorem segments_join (owner name : JsString) (es : List JsString) :
    slash :: [slash].intercalate (segmentsOf owner name es) = pathBaseOf owner name ++ slash :: [slash].intercalate es := by
  unfold segmentsOf pathBaseOf
  by_cases hes : es = []
  · simp [hes, List.intercalate_cons_cons]
  · rw [if_neg hes, join_cons _ (by simp), join_cons _ hes]
    simp

/-- The parser leaves an address of plain units as it is, where no segment stands for a dot. -/
theorem url_segments (hparse : Parses (fun text => p.url text none) base) (hne : ss ≠ [])
    (h : ∀ s ∈ ss, (∀ c ∈ s, Library.isUriUnit c = true) ∧ Undotted s) :
    p.url (base.origin ++ slash :: [slash].intercalate ss) none = some ⟨base.origin, slash :: [slash].intercalate ss⟩ := by
  have hresolved := Replication.resolved_append (fun s hs => (h s hs).2) hne []
  rw [List.nil_append, List.foldl_nil, List.nil_append] at hresolved
  have hurl := hparse.resolve ss hne fun s hs => .inl (h s hs).1
  rw [hresolved] at hurl
  exact hurl

theorem uriUnit_clean {c : CodeUnit} (h : Library.isUriUnit c = true) : isWhiteSpace c = false := by
  have hunit : isUnescaped c.val = true ∨ c = percent := by simpa [Library.isUriUnit] using h
  rcases hunit with hunit | rfl
  · simp only [isUnescaped, List.mem_cons, List.not_mem_nil, or_false, decide_eq_true_eq] at hunit
    simp only [isWhiteSpace, List.mem_cons, List.not_mem_nil, or_false, decide_eq_false_iff_not]
    omega
  · decide

theorem plain_segment {s : JsString} (hs : Plain s) (hdots : s ≠ js "." ∧ s ≠ js "..") :
    (∀ c ∈ s, Library.isUriUnit c = true) ∧ Undotted s := by
  have hdecode : decodeSegment s = s := Replication.decodeSegment_encoded (encode_plain hs)
  refine ⟨fun c hc => Bool.or_eq_true_iff.mpr (.inl (hs c hc)), ?_⟩
  unfold Undotted
  rw [hdecode]
  exact hdots

theorem segments_kept (ho : isValidUsername owner = true) (hn : isValidVolumeName name = true)
    (hes : encodedNames q = some es) (hq : isValidInnerPath q = true) (mode : HrefPrefixMode) (tail : List JsString)
    (htail : ∀ s ∈ tail, s = []) :
    ∀ s ∈ baseNames owner name mode ++ (es ++ tail), (∀ c ∈ s, Library.isUriUnit c = true) ∧ Undotted s := by
  have howner := plain_segment (username_plain ho) (username_segment ho).2
  have hname := plain_segment (volumeName_plain hn) (volumeName_segment hn).2
  have hbase : ∀ s ∈ baseNames owner name mode, (∀ c ∈ s, Library.isUriUnit c = true) ∧ Undotted s := by
    cases mode with
    | base => exact List.forall_mem_cons.mpr ⟨howner, List.forall_mem_singleton.mpr hname⟩
    | root => exact List.forall_mem_nil _
  obtain ⟨hundotted, -⟩ := Replication.names_kept hes hq
  intro s hs
  rcases List.mem_append.mp hs with hs | hs
  · exact hbase s hs
  · rcases List.mem_append.mp hs with hs | hs
    · exact ⟨(Replication.encodedNames_spec hes).2 s hs, hundotted s hs⟩
    · rw [htail s hs]
      exact ⟨by simp, by decide⟩

theorem segmentsOf_kept (ho : isValidUsername owner = true) (hn : isValidVolumeName name = true)
    (hes : encodedNames q = some es) (hq : isValidInnerPath q = true) :
    ∀ s ∈ segmentsOf owner name es, (∀ c ∈ s, Library.isUriUnit c = true) ∧ Undotted s := by
  unfold segmentsOf
  split
  · rename_i hnil
    subst hnil
    exact segments_kept ho hn hes hq .base [[]] (by simp)
  · have hall := segments_kept ho hn hes hq .base [] (by simp)
    rwa [List.append_nil] at hall

theorem encoded_ne_nil (hes : encodedNames q = some es) (hq : isValidInnerPath q = true) : ∀ e ∈ es, e ≠ [] := by
  have hmap := (Replication.encodedNames_spec hes).1
  rintro e he rfl
  have hmem : decodeSegment [] ∈ es.map decodeSegment := List.mem_map_of_mem he
  rw [hmap] at hmem
  split at hmem
  · simp at hmem
  · rename_i hne
    exact ((Replication.valid_iff.mp hq).2 [] (Replication.names_of_ne hne ▸ hmem)).1 rfl

theorem encoded_of_mem (hes : encodedNames q = some es) : ∀ e ∈ es, ∃ s, encodeURIComponent s = some e := by
  rw [encodedNames_eq] at hes
  generalize names q = ns at hes
  induction ns generalizing es with
  | nil =>
    obtain rfl := Option.some.inj hes
    simp
  | cons s ns ih =>
    rw [List.mapM_cons] at hes
    obtain ⟨e, he, hes⟩ := Option.bind_eq_some_iff.mp hes
    obtain ⟨fs, hfs, hes⟩ := Option.bind_eq_some_iff.mp hes
    obtain rfl := Option.some.inj hes
    exact List.forall_mem_cons.mpr ⟨⟨s, he⟩, ih hfs⟩

theorem encoded_map (hp : Standard p) (hes : encodedNames q = some es) : (names q).map p.encodeURIComponent = es := by
  rw [encodedNames_eq] at hes
  generalize names q = ns at hes
  induction ns generalizing es with
  | nil => exact Option.some.inj hes
  | cons s ns ih =>
    rw [List.mapM_cons] at hes
    obtain ⟨e, he, hes⟩ := Option.bind_eq_some_iff.mp hes
    obtain ⟨fs, hfs, hes⟩ := Option.bind_eq_some_iff.mp hes
    obtain rfl := Option.some.inj hes
    rw [List.map_cons, hp.encode s e he, ih hfs]

theorem decodeName_eq (hp : Standard p) : decodeName p = decodeSegment := by
  funext s
  unfold decodeName decodeSegment
  rw [hp.decode]

/-- The target of a request is the address of the path in the volume. -/
theorem target_address (hbase : closed base.pathname = pathBaseOf owner name ++ [slash])
    (hroot : stripSlashes d.root = d.root) (hq : stripSlashes q = q) (hes : encodedNames (d.inner q) = some es) :
    joinUrl base [d.root, q] = some ⟨base.origin, slash :: [slash].intercalate (segmentsOf owner name es)⟩ := by
  rw [encodedNames_inner] at hes
  obtain ⟨rs, hrs, hes⟩ := Option.bind_eq_some_iff.mp hes
  obtain ⟨qs, hqs, rfl⟩ := Option.map_eq_some_iff.mp hes
  rw [Replication.joinUrl_eq hroot hq, hrs, Option.bind_some, hqs, Option.map_some, hbase, segments_join]
  simp

/-- The front door and the volume's object take the path from its address. -/
theorem requested_address (hp : Standard p) (hparse : Parses (fun text => p.url text none) base)
    (ho : isValidUsername owner = true) (hn : isValidVolumeName name = true) (hes : encodedNames q = some es)
    (hq : isValidInnerPath q = true) :
    requested p owner name (base.origin ++ slash :: [slash].intercalate (segmentsOf owner name es)) = some q := by
  have hunits := (Replication.encodedNames_spec hes).2
  have hnonempty := encoded_ne_nil hes hq
  obtain ⟨-, hjoin⟩ := Replication.names_kept hes hq
  let rest := if es = [] then [[]] else es
  have hkept := segmentsOf_kept ho hn hes hq
  have hurl := url_segments hparse (by simp [segmentsOf]) hkept
  have hsplit : (slash :: [slash].intercalate (segmentsOf owner name es)).splitOn slash = [] :: owner :: name :: rest := by
    rw [← List.nil_append (slash :: _), splitOn_slash List.not_mem_nil,
      splitOn_join fun s hs => Replication.uriUnit_slash (hkept s hs).1, if_neg (by simp [segmentsOf])]
    rfl
  have hrest : rest.rdropWhile (fun s => s = []) = es := by
    by_cases hnil : es = []
    · simp [rest, hnil, List.rdropWhile]
    · simp only [rest, if_neg hnil]
      rw [List.rdropWhile_eq_self_iff]
      intro hne hlast
      exact hnonempty _ (List.getLast_mem hne) (by simpa using hlast)
  have hdrop : es.dropWhile (fun s => s = []) = es := by
    rw [List.dropWhile_eq_self_iff]
    intro hlength hfirst
    exact hnonempty _ (List.getElem_mem hlength) (by simpa using hfirst)
  have hdecode := decodeName_eq hp
  have hread : Readable p es := by
    intro e he
    obtain ⟨s, hs⟩ := encoded_of_mem hes e he
    rw [hp.decode, decode_encode hs]
    rfl
  have hpath : requestPath p es = q := by
    unfold requestPath
    rw [hdrop, if_pos hread, hdecode, hjoin]
  have hlast : es.getLast? ≠ some [] := fun hlast => hnonempty [] (List.mem_of_getLast? hlast) rfl
  have hstored : Storable (requestNames p es) :=
    (requestPath_valid hp (fun s hs => Replication.uriUnit_slash (hunits s hs)) hlast).mp (hpath ▸ hq)
  rw [requested_eq hp hurl hsplit, hrest, if_pos hstored, hpath]

/-- The segments of the address that the volume shows: a collection's ends in a slash. -/
theorem href_segments (hp : Standard p) (ho : isValidUsername owner = true) (hn : isValidVolumeName name = true)
    (hes : encodedNames q = some es) (mode : HrefPrefixMode) {isCollection : Bool} (hroot : q = [] → isCollection = true) :
    getResourceHref p q isCollection (hrefBaseOf owner name mode) =
      slash :: [slash].intercalate (baseNames owner name mode ++ (es ++ if isCollection then [[]] else [])) := by
  have hstart : (if stripSlashes (hrefBaseOf owner name mode) = [] then []
      else (stripSlashes (hrefBaseOf owner name mode)).splitOn slash) = baseNames owner name mode := by
    cases mode with
    | base =>
      have hsplit : (owner ++ slash :: name).splitOn slash = [owner, name] := by
        rw [splitOn_slash (plain_slash (username_plain ho)), List.splitOn_eq_singleton (plain_slash (volumeName_plain hn))]
      change (if stripSlashes (pathBaseOf owner name) = [] then [] else (stripSlashes (pathBaseOf owner name)).splitOn slash) = _
      rw [base_stripped ho hn, if_neg (by simp), hsplit]
      rfl
    | root => rfl
  have hencoded : (baseNames owner name mode).map p.encodeURIComponent = baseNames owner name mode := by
    cases mode with
    | base =>
      unfold baseNames
      rw [List.map_cons, List.map_singleton, plain_encoded hp (username_plain ho), plain_encoded hp (volumeName_plain hn)]
    | root => rfl
  by_cases hq : q = []
  · have hnil : es = [] := by
      rw [hq] at hes
      exact (Option.some.inj hes).symm
    rw [hroot hq, hnil, hq]
    cases mode with
    | base =>
      change getResourceHref p [] true (pathBaseOf owner name) = _
      unfold getResourceHref
      rw [base_stripped ho hn]
      simp [baseNames, List.intercalate_cons_cons]
    | root => rfl
  · have hnames := encoded_map hp hes
    rw [Replication.names_of_ne hq] at hnames
    have hempty : p.encodeURIComponent [] = [] := hp.encode [] [] rfl
    have hsplit := hrefNames_eq (hrefBaseOf owner name mode) q isCollection
    have hall : (hrefNames (hrefBaseOf owner name mode) q isCollection).map p.encodeURIComponent =
        baseNames owner name mode ++ (es ++ if isCollection then [[]] else []) := by
      unfold hrefNames
      rw [hstart, List.map_append, List.map_append, hencoded, hnames, List.append_assoc]
      cases isCollection <;> simp [hempty]
    have hne : baseNames owner name mode ++ (es ++ if isCollection then [[]] else []) ≠ [] := by
      simp [Replication.encodedNames_ne_nil hq hes]
    unfold getResourceHref
    rw [if_neg hq]
    dsimp only
    unfold encodeHrefPath
    rw [if_neg (by split <;> simp [hq]), hsplit]
    dsimp only
    rw [hall, join_cons _ hne]
    rfl

/-- The root that a target in the volume is constructed with. -/
theorem root_pathname (hparse : Parses (fun text => p.url text none) base)
    (ho : isValidUsername owner = true) (hn : isValidVolumeName name = true)
    (hbase : closed base.pathname = pathBaseOf owner name ++ [slash]) {remotePath R : JsString}
    (hroot : isValidInnerPath (stripSlashes remotePath) = true)
    (hR : rootPathnameOf (fun text => p.url text none) base remotePath = some R) :
    (encodedNames (stripSlashes remotePath)).isSome ∧ R = pathBaseOf owner name ++ slash :: stripSlashes remotePath := by
  rw [Replication.rootPathnameOf_eq] at hR
  obtain ⟨es, hes, hR⟩ := Option.bind_eq_some_iff.mp hR
  obtain ⟨rootUrl, hurl, hdecode⟩ := Option.bind_eq_some_iff.mp hR
  obtain ⟨-, hjoin⟩ := Replication.names_kept hes hroot
  have haddress : closed base.pathname ++ [slash].intercalate es = slash :: [slash].intercalate (segmentsOf owner name es) := by
    rw [hbase, segments_join]
    simp
  rw [haddress, url_segments hparse (by simp [segmentsOf]) (segmentsOf_kept ho hn hes hroot)] at hurl
  obtain rfl := Option.some.inj hurl
  have hcons : slash :: [slash].intercalate (segmentsOf owner name es) =
      [slash].intercalate ([] :: segmentsOf owner name es) := (join_cons [] (by simp [segmentsOf])).symm
  rw [hcons] at hdecode
  have hdecoded := Replication.decode_join (by simp) hdecode
  have hplain {s : JsString} (hs : Plain s) : decodeSegment s = s := Replication.decodeSegment_encoded (encode_plain hs)
  have hmap : ([] :: segmentsOf owner name es).map decodeSegment =
      [] :: segmentsOf owner name (es.map decodeSegment) := by
    unfold segmentsOf
    by_cases hnil : es = []
    · simp [hnil, hplain (username_plain ho), hplain (volumeName_plain hn), Replication.decodeSegment_nil]
    · simp [hnil, hplain (username_plain ho), hplain (volumeName_plain hn), Replication.decodeSegment_nil]
  rw [hmap, join_cons [] (by simp [segmentsOf]), List.nil_append, segments_join, hjoin] at hdecoded
  exact ⟨by rw [hes]; rfl, hdecoded⟩

end Addresses

/-! ### What both sides know of the platform -/

/-- The elements of the request's body; what their contents are serialised to is not read. -/
def askedTree (outer inner : JsString) : XmlElement :=
  .node (some davNamespace) (some (js "d")) (some (js "propfind"))
    [.node (some davNamespace) (some (js "d")) (some (js "prop"))
      (askedNames.map fun name => .node (some davNamespace) (some (js "d")) (some name) [] []) inner] outer

/-- The last millisecond that there is a date for. -/
def maxTime : ℕ := 8640000000000000

/-- What is documented of the platform that a volume is served on, and of the one of the replication that reads it. -/
structure Connects (p : Platform) (m : MultistatusPlatform) (base : Url) : Prop where
  standard : Standard p
  prints : p.Prints
  parses : Parses (fun text => p.url text none) base
  reference : ∀ path u, PlainPath p path → u.origin = base.origin → m.url path u = some ⟨base.origin, path⟩
  xml : ReadsXml m
  asked : ∃ outer inner, p.parseXmlDocument Replication.propfindBody = some (askedTree outer inner)
  dates : ∀ t ≤ maxTime, trim (p.toUTCString t) = p.toUTCString t ∧
    m.parseDate (p.toUTCString t) = some ((t : ℤ) - t % 1000)

section Answers

variable {p : Platform} {m : MultistatusPlatform} {base baseUrl : Url} {owner name q path : JsString} {es : List JsString}
  {node : DavNodeInfo} {d : DavVolumeRemote} {mode : PropfindRequest}

/-- The address of a resource, as the parser hands it out. -/
def shownPathname (hrefBase q : JsString) (isCollection : Bool) : JsString :=
  hrefBase ++ slash :: (q ++ if isCollection ∧ q ≠ [] then [slash] else [])

theorem join_head {s : JsString} (hs : s ≠ []) (ss : List JsString) : ([slash].intercalate (s :: ss)).head? = s.head? := by
  by_cases hnil : ss = []
  · simp [hnil]
  · rw [join_cons _ hnil, List.head?_append_of_ne_nil _ hs]

theorem join_shown (hes : encodedNames q = some es) (hq : isValidInnerPath q = true) {isCollection : Bool}
    (hroot : q = [] → isCollection = true) :
    es.map decodeSegment ++ (if isCollection then [[]] else []) ≠ [] ∧
      [slash].intercalate (es.map decodeSegment ++ if isCollection then [[]] else []) =
        q ++ if isCollection ∧ q ≠ [] then [slash] else [] := by
  obtain ⟨-, hjoin⟩ := Replication.names_kept hes hq
  by_cases hnil : q = []
  · have hes' : es = [] := by
      rw [hnil] at hes
      exact (Option.some.inj hes).symm
    simp [hnil, hes', hroot hnil]
  · have hne : es.map decodeSegment ≠ [] := by simpa using Replication.encodedNames_ne_nil hnil hes
    cases isCollection with
    | false => simp [hne, hjoin]
    | true =>
      rw [if_pos rfl, join_append hne (by simp), hjoin]
      simp [hnil]

theorem response_pathname (hc : Connects p m base) (ho : isValidUsername owner = true) (hn : isValidVolumeName name = true)
    (horigin : baseUrl.origin = base.origin) (hes : encodedNames node.key = some es) (hq : isValidInnerPath node.key = true)
    (hroot : node.key = [] → node.isCollection = true) (anchor : HrefPrefixMode) :
    m.pathnameOf baseUrl (responseNode (propfindEntry p node mode (hrefBaseOf owner name anchor))) =
      some (shownPathname (hrefBaseOf owner name anchor) node.key node.isCollection) := by
  let segments := baseNames owner name anchor ++ (es ++ if node.isCollection then [[]] else [])
  have hkept : ∀ s ∈ segments, (∀ c ∈ s, Library.isUriUnit c = true) ∧ Undotted s :=
    segments_kept ho hn hes hq anchor _ (by cases node.isCollection <;> simp)
  obtain ⟨hshown, hjoin⟩ := join_shown hes hq hroot
  have hne : segments ≠ [] := by
    intro hnil
    apply hshown
    obtain ⟨-, hrest⟩ := List.append_eq_nil_iff.mp hnil
    obtain ⟨hes, htail⟩ := List.append_eq_nil_iff.mp hrest
    rw [hes, htail]
    rfl
  have hhref : (propfindEntry p node mode (hrefBaseOf owner name anchor)).href = slash :: [slash].intercalate segments := by
    have hsegments := href_segments hc.standard ho hn hes anchor hroot
    cases mode <;> exact hsegments
  have htrim : trim (slash :: [slash].intercalate segments) = slash :: [slash].intercalate segments := by
    apply trim_clean
    intro c hc
    rcases List.mem_cons.mp hc with rfl | hc
    · decide
    · rcases of_mem_join hc with rfl | ⟨s, hs, hc⟩
      · decide
      · exact uriUnit_clean ((hkept s hs).1 c hc)
  have htext : m.childText (responseNode (propfindEntry p node mode (hrefBaseOf owner name anchor))) (js "href") =
      some (slash :: [slash].intercalate segments) := by
    have hname : m.nameOf (.element (some (js "href")) (propfindEntry p node mode (hrefBaseOf owner name anchor)).href []) =
        js "href" := name_of hc.xml (by decide)
    unfold MultistatusPlatform.childText responseNode
    simp only [XmlNode.children, List.find?_cons, hname, decide_true, Option.map_some]
    rw [XmlNode.textOf, hhref, htrim]
  have hhead : ([slash].intercalate segments).head? ≠ some slash := by
    have hstarts {s : JsString} {ss : List JsString} (hsegments : segments = s :: ss) (hs : s ≠ []) :
        ([slash].intercalate segments).head? ≠ some slash := by
      rw [hsegments, join_head hs]
      intro hslash
      exact Replication.uriUnit_slash (hkept s (by simp [hsegments])).1 (List.mem_of_mem_head? hslash)
    cases anchor with
    | base => exact hstarts rfl (username_segment ho).1
    | root =>
      cases es with
      | nil =>
        change ([slash].intercalate (if node.isCollection then [[]] else [])).head? ≠ some slash
        cases node.isCollection <;> simp
      | cons e es => exact hstarts rfl (encoded_ne_nil hes hq e (by simp))
  have hresolved : m.url (slash :: [slash].intercalate segments) baseUrl = some ⟨base.origin, slash :: [slash].intercalate segments⟩ := by
    refine hc.reference _ _ ⟨rfl, hhead, ?_, ?_⟩ horigin
    · intro u hu
      rcases List.mem_cons.mp hu with rfl | hu
      · exact .inr rfl
      · rcases of_mem_join hu with rfl | ⟨s, hs, hu⟩
        · exact .inr rfl
        · exact .inl ((hkept s hs).1 u hu)
    · rw [hasDotSegment_address, decodeName_eq hc.standard, splitOn_join fun s hs => Replication.uriUnit_slash (hkept s hs).1,
        if_neg hne, Replication.decodeSegment_nil]
      exact ⟨by decide, by decide, fun s hs => (hkept s hs).2⟩
  unfold MultistatusPlatform.pathnameOf
  rw [htext, Option.filter_some, if_pos (by simp), Option.bind_some, hresolved, Option.map_some]
  apply congrArg some
  dsimp only
  rw [Replication.decodePathname_address hne fun s hs => Replication.uriUnit_slash (hkept s hs).1]
  have hplain {s : JsString} (hs : Plain s) : decodeSegment s = s := Replication.decodeSegment_encoded (encode_plain hs)
  have hmap : segments.map decodeSegment =
      baseNames owner name anchor ++ (es.map decodeSegment ++ if node.isCollection then [[]] else []) := by
    have hbase : (baseNames owner name anchor).map decodeSegment = baseNames owner name anchor := by
      cases anchor with
      | base =>
        unfold baseNames
        rw [List.map_cons, List.map_singleton, hplain (username_plain ho), hplain (volumeName_plain hn)]
      | root => rfl
    simp only [segments, List.map_append, hbase]
    cases node.isCollection <;> rfl
  rw [hmap]
  unfold shownPathname
  rw [← hjoin]
  cases anchor with
  | base =>
    unfold baseNames
    rw [List.cons_append, List.cons_append, List.nil_append, join_cons _ (by simp), join_cons _ hshown]
    simp [hrefBaseOf, resolveDavBases, pathBaseOf]
  | root => rfl

/-- What is listed of it is the path below the target's root, if it is not the root. -/
theorem shown_entry (hroot : isValidInnerPath (d.inner path) = true) (isCollection : Bool) :
    toInnerEntry (shownPathname (pathBaseOf owner name) (d.inner path) isCollection) (pathBaseOf owner name ++ slash :: d.root) =
      if path = [] then none else some path := by
  have hslashes {s : JsString} (hs : s = [] ∨ s = [slash]) : Replication.Slashes s := by
    rcases hs with rfl | rfl
    · exact List.forall_mem_nil _
    · exact List.forall_mem_singleton.mpr rfl
  have hpath := valid_of_inner hroot
  let before : JsString := if d.root = [] ∨ path = [] then [] else [slash]
  let after : JsString := if isCollection ∧ d.inner path ≠ [] then [slash] else []
  have hshown : shownPathname (pathBaseOf owner name) (d.inner path) isCollection =
      pathBaseOf owner name ++ slash :: d.root ++ before ++ path ++ after := by
    have hinner : d.inner path = d.root ++ before ++ path := by
      unfold DavVolumeRemote.inner
      by_cases hroot : d.root = []
      · simp [before, hroot]
      · by_cases hnil : path = []
        · simp [before, hroot, hnil]
        · simp [before, hroot, hnil]
    change pathBaseOf owner name ++ slash :: (d.inner path ++ after) = _
    rw [hinner]
    simp
  apply Replication.address_entry
  · intro hne s hs
    exact (Replication.valid_iff.mp hpath).2 s (Replication.names_of_ne hne ▸ hs)
  · left
    refine ⟨before, after, hslashes ?_, hslashes ?_, hshown, ?_⟩
    · by_cases h : d.root = [] ∨ path = []
      · exact .inl (if_pos h)
      · exact .inr (if_neg h)
    · by_cases h : isCollection ∧ d.inner path ≠ []
      · exact .inr (if_pos h)
      · exact .inl (if_neg h)
    · by_cases hnil : path = []
      · exact .inl hnil
      · right
        by_cases hroot : d.root = []
        · right
          rw [hroot, List.getLast?_concat]
        · left
          simp [before, hroot, hnil]

end Answers

/-! ### What the volume answers -/

/-- What is stored can be shown: the paths are those that requests are let in with, the times are dates, and no
property that a client wrote stands for what is read of a file. -/
structure Presentable (v : Volume) : Prop where
  printable : v.Printable
  unshadowed : ∀ e ∈ v.props, Unshadowed (deadProperty e)
  paths : ∀ q, (Store.get v.files q).isSome → isValidInnerPath q = true ∧ (encodedNames q).isSome
  times : ∀ q i, Store.get v.files q = some i → i.mtime ≤ maxTime
  rowTimes : ∀ q row, Store.get v.nodes q = some row → row.mtime ≤ maxTime
  sizes : ∀ q i, Store.get v.files q = some i → (i.bytes.getD []).length < 2 ^ 53

section Served

variable {env : Env} {v : Volume} {q base : JsString} {mode : PropfindRequest} {r : Incoming} {bases : DavBases}

/-- The nodes of a listing: the resource itself, and the members that it has if it is a collection. -/
def listedNodes (env : Env) (v : Volume) (q base : JsString) : List DavNodeInfo :=
  env.describedAt v q base :: (v.files.members q).map fun q' => env.described v q' base

theorem members_of_file (htree : v.files.WellFormed) (hfile : v.files.isDirectory q = false) : v.files.members q = [] := by
  unfold Files.members
  rw [List.filter_eq_nil_iff]
  intro q' hq'
  obtain ⟨hget, hbelow⟩ := mem_below.mp hq'
  rw [htree.nothing_below hfile hbelow] at hget
  cases hget

/-- A request of depth one for what is there is answered by its nodes. -/
theorem serves_found (hcalm : env.Calm) (htree : v.files.WellFormed) (hfound : v.files.found q = true)
    (hasks : r.AsksMembers env.platform mode) : Runs (env.handlePropfind r q bases) v
      (.ok (.multistatus ((listedNodes env v q bases.hrefBase).map fun node =>
        propfindEntry env.platform node mode bases.hrefBase))) v := by
  cases hdir : v.files.isDirectory q with
  | true => exact runs_handlePropfind hcalm htree hdir hasks
  | false =>
    obtain ⟨xml, hxml, hmode⟩ := hasks.body
    have hfile : (env.describedAt v q bases.hrefBase).isCollection = false := by
      unfold Env.describedAt
      split
      · rename_i hroot
        rw [hroot] at hdir
        cases hdir
      · unfold Env.described nodeOf Env.sees
        rw [if_pos (hcalm _ _)]
        exact (stat_isDirectory _ _).trans hdir
    unfold Env.handlePropfind listedNodes
    rw [hxml]
    dsimp only
    rw [hmode, members_of_file htree hdir]
    refine runs_bind (runs_nodeAt hcalm hfound) ?_
    dsimp only
    rw [if_pos (by simp [hfile])]
    exact runs_pure _

theorem serves_missing (hcalm : env.Calm) (hfound : v.files.found q = false) (hasks : r.AsksMembers env.platform mode) :
    Runs (env.handlePropfind r q bases) v (.ok (.refused .notFound)) v := by
  obtain ⟨xml, hxml, hmode⟩ := hasks.body
  have hroot : q ≠ [] := by
    rintro rfl
    cases hfound
  have hnode : Runs (env.nodeAt q bases.hrefBase) v (.ok none) v := by
    unfold Env.nodeAt
    rw [if_neg hroot]
    refine runs_bind (runs_statInner hcalm) ?_
    rw [stat_found, hfound, if_pos (by rfl)]
    exact runs_pure _
  unfold Env.handlePropfind
  rw [hxml]
  dsimp only
  rw [hmode]
  exact runs_bind hnode (runs_pure _)

theorem textEncode_length (s : JsString) : (textEncode s).length ≤ 4 * s.length := by
  have hunit (n : ℕ) : (utf8 n).length ≤ 4 := by
    unfold utf8
    split_ifs <;> simp
  have hscalars : (scalars s).length ≤ s.length := by
    induction s using scalars.induct with
    | case1 => exact le_rfl
    | case2 a ha => simp [scalars, ha]
    | case3 a ha => simp [scalars, ha]
    | case4 a b rest hpair ih =>
      simp only [scalars, hpair, if_true, List.length_cons]
      omega
    | case5 a b rest hpair ha ih =>
      simp only [scalars, hpair, ha, Bool.false_eq_true, if_false, if_true, List.length_cons] at ih ⊢
      omega
    | case6 a b rest hpair ha ih =>
      simp only [scalars, hpair, ha, Bool.false_eq_true, if_false, List.length_cons] at ih ⊢
      omega
  have hflat (ns : List ℕ) : (ns.flatMap utf8).length ≤ 4 * ns.length := by
    induction ns with
    | nil => exact le_rfl
    | cons n ns ih =>
      have hn := hunit n
      rw [List.flatMap_cons, List.length_append, List.length_cons]
      omega
  have hall := hflat (scalars s)
  unfold textEncode
  omega

theorem readCappedText_short {n : ℕ} (hlength : r.contentLength = none) (hbody : r.body.length ≤ n) :
    r.readCappedText n = some r.text := by
  unfold Incoming.readCappedText Incoming.readCappedBody Incoming.exceedsDeclaredLength
  rw [hlength, if_neg (by simpa using hbody)]
  rfl

/-- A text that is short enough arrives as it was sent. -/
theorem incoming_text {sent : Sent} {value : JsString} (hbody : sent.body = some (.text value))
    (hshort : 4 * value.length ≤ maxXmlBodyBytes) : (incomingOf sent).readCappedText maxXmlBodyBytes = some value := by
  have htext : sentText sent = value := by
    unfold sentText
    rw [hbody]
  have hlength := textEncode_length value
  have hbytes : (incomingOf sent).body.length ≤ maxXmlBodyBytes := by
    change ((textEncode (sentText sent)).map _).length ≤ _
    rw [htext, List.length_map]
    omega
  rw [readCappedText_short rfl hbytes]
  exact congrArg some htext

set_option maxRecDepth 4000 in
theorem propfindBody_short : Replication.propfindBody.length ≤ 300 ∧ Replication.propfindBody.head? = some 60 := by decide

/-- The request of the replication asks for the members, and for the five properties. -/
theorem listRequest_asks {p : Platform} {m : MultistatusPlatform} {url : Url} (hc : Connects p m url) (target : Url)
    (authorization : Option JsString) :
    (incomingOf ⟨DavHttpRemote.listRequest, target, authorization⟩).AsksMembers p askedProps := by
  obtain ⟨outer, inner, htree⟩ := hc.asked
  have hlower {name : JsString} (h : name.all isAscii = true ∧ name.map asciiLower = name) : p.toLowerCase name = name :=
    (hc.standard.lower name h.1).trans h.2
  have hshort : 4 * Replication.propfindBody.length ≤ maxXmlBodyBytes := by
    have hlength := propfindBody_short.1
    unfold maxXmlBodyBytes
    omega
  refine ⟨rfl, Replication.propfindBody, incoming_text rfl hshort, ?_⟩
  have hroot : (askedTree outer inner).isCalled p "propfind" = true := by
    have hname := hlower (by decide : (js "propfind").all isAscii = true ∧ (js "propfind").map asciiLower = js "propfind")
    exact decide_eq_true hname
  have hnot : (askedTree outer inner).children.any (XmlElement.isCalled p "propname") = false := by
    have hname : p.toLowerCase (js "prop") ≠ js "propname" := by
      rw [hlower (by decide)]
      decide
    change (decide (p.toLowerCase (js "prop") = js "propname") || false) = false
    rw [decide_eq_false hname]
    rfl
  let prop : XmlElement := .node (some davNamespace) (some (js "d")) (some (js "prop"))
    (askedNames.map fun name => .node (some davNamespace) (some (js "d")) (some name) [] []) inner
  have hprop : prop.isCalled p "prop" = true := by
    have hname := hlower (by decide : (js "prop").all isAscii = true ∧ (js "prop").map asciiLower = js "prop")
    exact decide_eq_true hname
  have hfind : (askedTree outer inner).children.find? (XmlElement.isCalled p "prop") = some prop :=
    List.find?_cons_of_pos hprop
  have hread : prop.children.mapM getElementProperty = some (askedNames.map askedProperty) := rfl
  have hmem : (60 : CodeUnit) ∈ trim Replication.propfindBody := mem_trim (List.mem_of_mem_head? propfindBody_short.2) (by decide)
  unfold parsePropfindRequest
  rw [if_neg (List.ne_nil_of_mem hmem), htree]
  simp only [Option.bind_eq_bind, Option.bind_some, hroot, hnot, hfind, hread]
  rfl

end Served

end DurableDav.Front
