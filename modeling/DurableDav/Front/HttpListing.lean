import DurableDav.Front.VolumeHost

namespace DurableDav.Front

open Library Dav
open Replication (DavHttpRemote DavResource MultistatusPlatform PlanSide Sent childPath closed encodedNames etagBody
  isValidInnerPath joinUrl parseSize rootPathnameOf toInnerEntry)

/-! ### The same volume, seen over HTTP and as a sibling -/

/-- An entry as it is seen over HTTP: a collection has neither a validator nor a size, a time has no milliseconds,
and where no validator is recorded one is made up. -/
def seenOverHttp (e : PlanSide) : PlanSide where
  path := e.path
  isCollection := e.isCollection
  etag := if e.isCollection then none
    else etagBody (e.etag.getD (mintEtag (e.size.getD 0) (e.mtime.getD 0).toNat))
  mtime := e.mtime.map fun t => t - t % 1000
  size := if e.isCollection then none else e.size
  contentType := if e.isCollection then none else (e.contentType.map trim).filter (· ≠ [])

section Reading

variable {p : Platform} {m : MultistatusPlatform} {base baseUrl : Url} {owner name q path : JsString} {env : Env} {v : Volume}
  {node : DavNodeInfo} {d : DavVolumeRemote} {e : PlanSide} {c : DavHttpRemote}

/-- What the parser makes of the response about a node. -/
def resourceOf (p : Platform) (m : MultistatusPlatform) (hrefBase : JsString) (node : DavNodeInfo) : DavResource where
  pathname := shownPathname hrefBase node.key node.isCollection
  isCollection := node.isCollection
  propsComplete := true
  etag := (propsOf p m node).etag
  lastModified := (propsOf p m node).lastModified
  size := (propsOf p m node).size
  contentType := (propsOf p m node).contentType

/-- A node that is read as it is shown. -/
structure ReadableNode (node : DavNodeInfo) : Prop where
  unshadowed : ∀ d ∈ node.deadProperties, Unshadowed d
  encoded : (encodedNames node.key).isSome
  valid : isValidInnerPath node.key = true
  root : node.key = [] → node.isCollection = true

theorem read_node (hc : Connects p m base) (ho : isValidUsername owner = true) (hn : isValidVolumeName name = true)
    (horigin : baseUrl.origin = base.origin) (h : ReadableNode node) (anchor : HrefPrefixMode) :
    m.readResource baseUrl (responseNode (propfindEntry p node askedProps (hrefBaseOf owner name anchor))) =
      .ok (some (resourceOf p m (hrefBaseOf owner name anchor) node)) := by
  obtain ⟨es, hes⟩ := Option.isSome_iff_exists.mp h.encoded
  unfold MultistatusPlatform.readResource
  rw [response_pathname hc ho hn horigin hes h.valid h.root anchor]
  dsimp only
  rw [read_response hc.xml h.unshadowed]
  rfl

theorem mapM_pure {α β γ ε : Type} {f : α → β} {g : β → Except ε γ} {k : α → γ} {as : List α}
    (h : ∀ a ∈ as, g (f a) = .ok (k a)) : (as.map f).mapM g = .ok (as.map k) := by
  induction as with
  | nil => rfl
  | cons a as ih =>
    obtain ⟨ha, has⟩ := List.forall_mem_cons.mp h
    rw [List.map_cons, List.mapM_cons, ha, ih has]
    rfl

/-- The listing of the responses about some nodes. -/
theorem read_nodes (hc : Connects p m base) (ho : isValidUsername owner = true) (hn : isValidVolumeName name = true)
    (horigin : baseUrl.origin = base.origin) (anchor : HrefPrefixMode) {nodes : List DavNodeInfo} (h : ∀ node ∈ nodes, ReadableNode node)
    (hfit : ∀ node ∈ nodes, (propfindEntry p node askedProps (hrefBaseOf owner name anchor)).Fit) :
    c.readListing m path baseUrl (renderMultistatus (nodes.map fun node =>
      propfindEntry p node askedProps (hrefBaseOf owner name anchor))) =
      .ok ⟨nodes.filterMap fun node => c.toEntry (resourceOf p m (hrefBaseOf owner name anchor) node), true⟩ := by
  have hresponses := @responses_of m hc.xml (nodes.map fun node => propfindEntry p node askedProps (hrefBaseOf owner name anchor))
    (List.forall_mem_map.mpr hfit)
  have hresources := @mapM_pure _ _ _ _ (fun node => responseNode (propfindEntry p node askedProps (hrefBaseOf owner name anchor)))
    (m.readResource baseUrl) (fun node => some (resourceOf p m (hrefBaseOf owner name anchor) node)) nodes
    fun node hnode => read_node hc ho hn horigin (h node hnode) anchor
  have hreduce : (nodes.map fun node => some (resourceOf p m (hrefBaseOf owner name anchor) node)).reduceOption =
      nodes.map (resourceOf p m (hrefBaseOf owner name anchor)) := by
    unfold List.reduceOption
    rw [List.filterMap_map, ← List.filterMap_eq_map]
    rfl
  rw [List.map_map] at hresponses
  rw [Replication.readListing_ok hresponses hresources, hreduce]
  unfold DavHttpRemote.listingOf
  rw [List.filterMap_map]
  have hcomplete : ((nodes.map (resourceOf p m (hrefBaseOf owner name anchor))).all fun r => (c.toEntry r).isNone ∨ r.propsComplete) = true := by
    rw [List.all_eq_true]
    intro r hr
    obtain ⟨node, -, rfl⟩ := List.mem_map.mp hr
    exact decide_eq_true (.inr rfl)
  rw [hcomplete]
  rfl

/-! ### What is read of a resource -/

theorem digit_clean {u : CodeUnit} (h : isDigitUnit u = true) : isWhiteSpace u = false := by
  simp only [isDigitUnit, decide_eq_true_eq] at h
  simp only [isWhiteSpace, List.mem_cons, List.not_mem_nil, or_false, decide_eq_false_iff_not]
  omega

/-- A size is read as it was written. -/
theorem parseSize_decimal {n : ℕ} (h : n < 2 ^ 53) : parseSize (trim (decimal n)) = some n := by
  have hclean : trim (decimal n) = decimal n := trim_clean fun u hu => digit_clean (decimal_digits n u hu)
  have hdigits : (decimal n).all isDigitUnit = true := List.all_eq_true.mpr (decimal_digits n)
  unfold parseSize
  rw [hclean, hclean, digitsValue_decimal, if_pos ⟨decimal_ne_nil n, hdigits, h⟩]

theorem etagBody_trim (t : JsString) : etagBody (trim t) = etagBody t := by
  unfold etagBody
  rw [trim_trim]

end Reading

section Seen

variable {env : Env} {m : MultistatusPlatform} {v : Volume} {base : Url} {owner name hrefBase q path : JsString} {i : Inode}
  {e : PlanSide}

theorem described_file (hcalm : env.Calm) (hq : q ≠ []) (hget : Store.get v.files q = some i) :
    env.described v q hrefBase = nodeOf q ⟨true, i.bytes.isNone, (i.bytes.getD []).length, i.mtime⟩ (Store.get v.nodes q)
      (v.applicableLocks env.platform env.now q hrefBase) ((v.deadProperties q).map deadProperty) := by
  have hstat : v.files.stat q = some ⟨true, i.bytes.isNone, (i.bytes.getD []).length, i.mtime⟩ := by
    simp [Files.stat, hq, hget]
  unfold Env.described Env.sees Env.rowRead
  rw [if_pos (hcalm _ _), if_pos (hcalm _ _), hstat]
  rfl

theorem described_readable (hcalm : env.Calm) (hv : Presentable v) (hq : q ≠ []) (hget : Store.get v.files q = some i) :
    ReadableNode (env.described v q hrefBase) := by
  obtain ⟨hvalid, hencoded⟩ := hv.paths q (by rw [hget]; rfl)
  rw [described_file hcalm hq hget]
  refine ⟨?_, hencoded, hvalid, fun hnil => absurd hnil hq⟩
  intro d hd
  obtain ⟨e, he, rfl⟩ := List.mem_map.mp hd
  exact hv.unshadowed e (Store.mem_of_get (mem_deadProperties.mp he).2)

/-- What the response about a resource says of it is what a replication next door is told, as it is seen over HTTP. -/
theorem seen_resource (hc : Connects env.platform m base) (hcalm : env.Calm) (hv : Presentable v) (hq : q ≠ [])
    (hget : Store.get v.files q = some i) (he : v.tree.describe q = some e) {c : DavHttpRemote}
    (hpath : toInnerEntry (shownPathname hrefBase q i.bytes.isNone) c.rootPathname = some path) :
    c.toEntry (resourceOf env.platform m hrefBase (env.described v q hrefBase)) = some { seenOverHttp e with path := path } := by
  have hvalid := (hv.paths q (by rw [hget]; rfl)).1
  rw [v.describe_tree hq hvalid, Volume.resource, hget] at he
  obtain rfl := Option.some.inj he
  let mtime := ((Store.get v.nodes q).map NodeRow.mtime).getD i.mtime
  have htime : mtime ≤ maxTime := by
    cases hrow : Store.get v.nodes q with
    | none => exact (congrArg (fun row => (Option.map NodeRow.mtime row).getD i.mtime) hrow).trans_le (hv.times q i hget)
    | some row => exact (congrArg (fun row => (Option.map NodeRow.mtime row).getD i.mtime) hrow).trans_le (hv.rowTimes q row hrow)
  obtain ⟨hclean, hdate⟩ := hc.dates mtime htime
  have hsize := parseSize_decimal (hv.sizes q i hget)
  have hentry {r : DavResource} (h : toInnerEntry r.pathname c.rootPathname = some path) :
      c.toEntry r = some ⟨path, r.isCollection, r.etag, r.lastModified, r.size, r.contentType⟩ := by
    unfold DavHttpRemote.toEntry
    rw [h]
    rfl
  have htype (t : Option JsString) : (t.bind fun t => (some (trim t)).filter (· ≠ [])) = (t.map trim).filter (· ≠ []) := by
    cases t <;> rfl
  rw [described_file hcalm hq hget]
  apply (hentry hpath).trans
  rw [Option.some.injEq, PlanSide.mk.injEq]
  refine ⟨rfl, rfl, ?_, ?_, ?_, ?_⟩
  · change (if i.bytes.isNone then none else etagBody (trim _)) = _
    rw [etagBody_trim]
    rfl
  · change m.parseDate (trim (trim (env.platform.toUTCString mtime))) = _
    rw [hclean, hclean, hdate]
    rfl
  · change (if i.bytes.isNone then none else parseSize (trim (decimal (i.bytes.getD []).length))) = _
    rw [hsize]
    rfl
  · exact congrArg (fun t => if i.bytes.isNone then none else t) (htype _)

theorem childPath_ne {s : JsString} (hs : s ≠ []) : childPath path s ≠ [] := by
  unfold childPath
  split
  · exact hs
  · simp

theorem describe_file (h : v.tree.describe q = some e) : q ≠ [] ∧ ∃ i, Store.get v.files q = some i := by
  obtain ⟨r, hr, -⟩ := Option.map_eq_some_iff.mp h
  rw [v.get_tree] at hr
  obtain ⟨hq, hr⟩ := Option.ite_none_right_eq_some.mp hr
  obtain ⟨i, hi, -⟩ := Option.map_eq_some_iff.mp hr
  exact ⟨hq.1, i, hi⟩

/-- The members of a collection are what it holds. -/
theorem mem_members (hv : Presentable v) :
    q ∈ v.files.members path ↔ ∃ name e, v.Holds path name e ∧ q = childPath path name := by
  unfold Files.members
  rw [List.mem_filter, mem_below]
  constructor
  · rintro ⟨⟨hget, -⟩, hchild⟩
    obtain ⟨hne, hparent⟩ : q ≠ [] ∧ Replication.parentOf q = path := by simpa [Files.isChild] using hchild
    have hvalid := (hv.paths q hget).1
    obtain ⟨name, hname, heq⟩ := exists_name hvalid hne
    obtain ⟨i, hi⟩ := Option.isSome_iff_exists.mp hget
    have hdescribe := v.describe_tree hne hvalid
    rw [Volume.resource, hi] at hdescribe
    rw [hparent] at heq
    exact ⟨name, _, ⟨hname, heq ▸ hdescribe⟩, heq⟩
  · rintro ⟨name, e, h, rfl⟩
    obtain ⟨hpath, hparent, hother⟩ := holds_path h
    obtain ⟨hne, i, hi⟩ := describe_file h.2
    rw [hpath] at hparent
    refine ⟨⟨by rw [hi]; rfl, ?_⟩, by simpa [Files.isChild] using ⟨hne, hparent⟩⟩
    by_cases hroot : path = []
    · rw [hroot] at hne ⊢
      exact below_root.mpr hne
    · have hbelow : Below slash (Replication.parentOf (childPath path name)) (childPath path name) :=
        below_parentSegments (hparent.trans_ne hroot)
      rwa [hparent] at hbelow

end Seen

/-! ### A listing over HTTP -/

/-- The volume is what the target's address leads to, and it can be shown. -/
structure Mounted (c : DavHttpRemote) (m : MultistatusPlatform) (h : VolumeHost) (remotePath : JsString) : Prop where
  connects : Connects h.env.platform m c.base
  calm : h.env.Calm
  tree : h.volume.files.WellFormed
  shown : Presentable h.volume
  owner : isValidUsername h.owner = true
  name : isValidVolumeName h.name = true
  base : closed c.base.pathname = pathBaseOf h.owner h.name ++ [slash]
  inner : c.rootInner = stripSlashes remotePath
  root : rootPathnameOf (fun text => h.env.platform.url text none) c.base remotePath = some c.rootPathname

section Mounted

variable {c : DavHttpRemote} {m : MultistatusPlatform} {h : VolumeHost} {remotePath path : JsString} {e : PlanSide}

theorem valid_root {d : DavVolumeRemote} (h : isValidInnerPath (d.inner path) = true) : isValidInnerPath d.root = true := by
  apply Replication.valid_of_above h
  rw [names_inner]
  exact List.prefix_append _ _

/-- The entries of a listing over HTTP: the members, and the collection itself unless it is the target's root. -/
theorem mem_listed (hm : Mounted c m h remotePath) {d : DavVolumeRemote} (hd : d.root = stripSlashes remotePath)
    (hpath : isValidInnerPath (d.inner path) = true) (hfound : h.volume.files.found (d.inner path) = true) :
    e ∈ (listedNodes h.env h.volume (d.inner path) (pathBaseOf h.owner h.name)).filterMap
        (fun node => c.toEntry (resourceOf h.env.platform m (pathBaseOf h.owner h.name) node)) ↔
      (∃ name entry, h.volume.Holds (d.inner path) name entry ∧ e = { seenOverHttp entry with path := childPath path name }) ∨
        path ≠ [] ∧ ∃ own, h.volume.tree.describe (d.inner path) = some own ∧ e = { seenOverHttp own with path := path } := by
  have hroot := valid_root hpath
  obtain ⟨-, hR⟩ := root_pathname hm.connects.parses hm.owner hm.name hm.base (hd ▸ hroot) hm.root
  rw [← hd] at hR
  have hmember {name : JsString} {entry : PlanSide} (hentry : h.volume.Holds (d.inner path) name entry) :
      c.toEntry (resourceOf h.env.platform m (pathBaseOf h.owner h.name)
        (h.env.described h.volume (childPath (d.inner path) name) (pathBaseOf h.owner h.name))) =
          some { seenOverHttp entry with path := childPath path name } := by
    obtain ⟨hne, i, hi⟩ := describe_file hentry.2
    have hinner : d.inner (childPath path name) = childPath (d.inner path) name := inner_childPath hentry.1.1
    have hvalid := (hm.shown.paths (childPath (d.inner path) name) (by rw [hi]; rfl)).1
    have hshown := @shown_entry h.owner h.name (childPath path name) d (hinner.symm ▸ hvalid) i.bytes.isNone
    rw [if_neg (childPath_ne hentry.1.1), hinner, ← hR] at hshown
    exact seen_resource hm.connects hm.calm hm.shown hne hi hentry.2 hshown
  have hown : c.toEntry (resourceOf h.env.platform m (pathBaseOf h.owner h.name)
      (h.env.describedAt h.volume (d.inner path) (pathBaseOf h.owner h.name))) = some e ↔
        path ≠ [] ∧ ∃ own, h.volume.tree.describe (d.inner path) = some own ∧ e = { seenOverHttp own with path := path } := by
    have hshown (isCollection : Bool) := @shown_entry h.owner h.name path d hpath isCollection
    rw [← hR] at hshown
    have hnone {node : DavNodeInfo} (hnil : path = []) (hkey : node.key = d.inner path) :
        c.toEntry (resourceOf h.env.platform m (pathBaseOf h.owner h.name) node) = none := by
      unfold DavHttpRemote.toEntry resourceOf
      rw [hkey, hshown, if_pos hnil]
      rfl
    unfold Env.describedAt
    by_cases hinner : d.inner path = []
    · have hnil : path = [] := by
        by_contra hne
        exact inner_ne_nil hne hinner
      rw [if_pos hinner, hnone hnil hinner.symm]
      exact iff_of_false nofun fun h => h.1 hnil
    · obtain ⟨i, hi⟩ := Option.isSome_iff_exists.mp ((found_iff.mp hfound).resolve_left hinner)
      rw [if_neg hinner]
      by_cases hnil : path = []
      · rw [hnone hnil rfl]
        exact iff_of_false nofun fun h => h.1 hnil
      · have hdescribe := h.volume.describe_tree hinner hpath
        rw [Volume.resource, hi] at hdescribe
        have hpathname := hshown i.bytes.isNone
        rw [if_neg hnil] at hpathname
        rw [seen_resource hm.connects hm.calm hm.shown hinner hi hdescribe hpathname]
        constructor
        · intro he
          exact ⟨hnil, _, hdescribe, (Option.some.inj he).symm⟩
        · rintro ⟨-, own, hsome, rfl⟩
          obtain rfl := Option.some.inj (hdescribe.symm.trans hsome)
          rfl
  rw [List.mem_filterMap]
  unfold listedNodes
  simp only [List.mem_cons, List.mem_map]
  constructor
  · rintro ⟨node, rfl | ⟨q, hq, rfl⟩, hentry⟩
    · exact .inr (hown.mp hentry)
    · obtain ⟨name, entry, hholds, rfl⟩ := (mem_members hm.shown).mp hq
      rw [hmember hholds] at hentry
      exact .inl ⟨name, entry, hholds, (Option.some.inj hentry).symm⟩
  · rintro (⟨name, entry, hholds, rfl⟩ | hown')
    · exact ⟨_, .inr ⟨_, (mem_members hm.shown).mpr ⟨name, entry, hholds, rfl⟩, rfl⟩, hmember hholds⟩
    · exact ⟨_, .inl rfl, hown.mpr hown'⟩

theorem askedProps_named : askedProps.Named := by
  have hpre : ∀ t ∈ some (js "d"), IsNcName t ∧ davNamespace ≠ [] := by
    intro t ht
    obtain rfl := Option.some.inj ht
    decide
  have hunits : davNamespace.all (fun c => decide (32 ≤ c.val)) = true := by decide
  have hspace : IsXmlText davNamespace ∧ ∀ c ∈ davNamespace, 32 ≤ c.val :=
    ⟨by decide, fun c hc => of_decide_eq_true (List.all_eq_true.mp hunits c hc)⟩
  have hreserved : davNamespace ≠ xmlnsNamespace ∧ some (js "d") ≠ some (js "xmlns") := by decide
  have hxml : some (js "d") = some (js "xml") ↔ davNamespace = xmlNamespace := by decide
  have hnames : ∀ name ∈ askedNames, IsNcName name := by decide
  exact List.forall_mem_map.mpr fun name hname => ⟨hnames name hname, hpre, hspace, hreserved, hxml⟩

theorem hrefBase_printable (ho : isValidUsername h.owner = true) (hn : isValidVolumeName h.name = true) :
    (hrefBaseOf h.owner h.name h.mode).all isPrintable := by
  have hplain {s : JsString} (hs : Plain s) : s.all isPrintable = true :=
    List.all_eq_true.mpr fun u hu => uriUnit_printable (Bool.or_eq_true_iff.mpr (.inl (hs u hu)))
  have hslash : isPrintable slash = true := by decide
  unfold hrefBaseOf resolveDavBases
  cases h.mode with
  | base =>
    change (slash :: (h.owner ++ slash :: h.name)).all isPrintable = true
    rw [List.all_cons, List.all_append, List.all_cons, hplain (username_plain ho), hplain (volumeName_plain hn), hslash]
    rfl
  | root => rfl

theorem listed_nodes (hm : Mounted c m h remotePath) {q : JsString} (hfound : h.volume.files.found q = true) :
    ∀ node ∈ listedNodes h.env h.volume q (hrefBaseOf h.owner h.name h.mode), ReadableNode node ∧
      (propfindEntry h.env.platform node askedProps (hrefBaseOf h.owner h.name h.mode)).Fit := by
  have hbase := hrefBase_printable hm.owner hm.name
  have hfile {q : JsString} (hne : q ≠ []) (hget : (Store.get h.volume.files q).isSome) :
      ReadableNode (h.env.described h.volume q (hrefBaseOf h.owner h.name h.mode)) ∧
        (propfindEntry h.env.platform (h.env.described h.volume q (hrefBaseOf h.owner h.name h.mode)) askedProps
          (hrefBaseOf h.owner h.name h.mode)).Fit := by
    obtain ⟨i, hi⟩ := Option.isSome_iff_exists.mp hget
    refine ⟨described_readable hm.calm hm.shown hne hi, entry_fit hm.connects.prints hbase ?_ askedProps_named⟩
    apply nodeOf_printable hm.shown.printable (found_iff.mpr (.inr hget))
    intro row hrow
    unfold Env.rowRead at hrow
    rwa [if_pos (hm.calm _ _)] at hrow
  intro node hnode
  rcases List.mem_cons.mp hnode with rfl | hnode
  · unfold Env.describedAt
    by_cases hroot : q = []
    · rw [if_pos hroot]
      exact ⟨⟨nofun, rfl, rfl, fun _ => rfl⟩, entry_fit hm.connects.prints hbase rootNode_printable askedProps_named⟩
    · rw [if_neg hroot]
      exact hfile hroot ((found_iff.mp hfound).resolve_left hroot)
  · obtain ⟨q', hq', rfl⟩ := List.mem_map.mp hnode
    obtain ⟨name, e, hholds, rfl⟩ := (mem_members hm.shown).mp hq'
    obtain ⟨hne, i, hi⟩ := describe_file hholds.2
    exact hfile hne (by rw [hi]; rfl)

/-- The nodes that are shown for a path, none where nothing is found. -/
def shownNodes (h : VolumeHost) (q : JsString) : List DavNodeInfo :=
  if h.volume.files.found q then listedNodes h.env h.volume q (hrefBaseOf h.owner h.name h.mode) else []

/-- The request arrives, the answer is read, and what is listed are the nodes that the volume shows. -/
theorem listed_over_http (hm : Mounted c m h remotePath) {log : List Sent} {d : DavVolumeRemote}
    (hd : d.root = stripSlashes remotePath) (hpath : isValidInnerPath (d.inner path) = true)
    (hencoded : (encodedNames (d.inner path)).isSome)
    (hanswer : ∀ target, c.answer (log ++ [⟨DavHttpRemote.listRequest, target, c.authHeader.authorization⟩]) =
      some (h.propfind ⟨DavHttpRemote.listRequest, target, c.authHeader.authorization⟩)) :
    ((c.listParsed m path).run log).1 = .ok ⟨(shownNodes h (d.inner path)).filterMap fun node =>
      c.toEntry (resourceOf h.env.platform m (hrefBaseOf h.owner h.name h.mode) node), true⟩ := by
  obtain ⟨es, hes⟩ := Option.isSome_iff_exists.mp hencoded
  have hstripped : stripSlashes d.root = d.root := hd ▸ Replication.strip_strip _
  have htarget : joinUrl c.base [c.rootInner, path] =
      some ⟨c.base.origin, slash :: [slash].intercalate (segmentsOf h.owner h.name es)⟩ := by
    rw [hm.inner, ← hd]
    exact target_address hm.base hstripped (Replication.strip_valid (valid_of_inner hpath)) hes
  have hrequested := requested_address hm.connects.standard hm.connects.parses hm.owner hm.name hes hpath
  let sent : Sent := ⟨DavHttpRemote.listRequest,
    ⟨c.base.origin, slash :: [slash].intercalate (segmentsOf h.owner h.name es)⟩, c.authHeader.authorization⟩
  have hasks := listRequest_asks hm.connects sent.url c.authHeader.authorization
  -- the exchange ends with the volume's answer
  have hresponse {answer : Env.PropfindAnswer} (hrun : Runs (h.env.handlePropfind (incomingOf sent) (d.inner path)
      (resolveDavBases (pathBaseOf h.owner h.name) h.mode)) h.volume (.ok answer) h.volume)
      (hredirect : (propfindResponse answer).status < 300 ∨ 400 ≤ (propfindResponse answer).status) :
      (c.request path DavHttpRemote.listRequest).run log =
        (.ok { status := (propfindResponse answer).status, text := contentText (propfindResponse answer).content },
          log ++ [sent]) := by
    obtain ⟨s, hrun, -⟩ := hrun ⟨h.volume, []⟩ rfl
    have hsent : h.propfind sent =
        { status := (propfindResponse answer).status, text := contentText (propfindResponse answer).content } := by
      unfold VolumeHost.propfind
      rw [hrequested]
      dsimp only
      unfold objectPropfind
      rw [if_neg (by simp [hpath]), hrun]
    have hlog := hanswer sent.url
    rw [hsent] at hlog
    exact Replication.request_run c htarget hlog (Replication.redirect_none hredirect)
  unfold shownNodes
  cases hfound : h.volume.files.found (d.inner path) with
  | true =>
    have hok : (207 : ℕ) < 300 := by decide
    have hlisting := Replication.listParsed_run (m := m) (hresponse (serves_found hm.calm hm.tree hfound hasks) (.inl hok))
      rfl htarget
    have hnodes := listed_nodes hm hfound
    have hread := @read_nodes _ m c.base sent.url h.owner h.name path c hm.connects hm.owner hm.name rfl h.mode _
      (fun node hnode => (hnodes node hnode).1) (fun node hnode => (hnodes node hnode).2)
    exact hlisting.trans hread
  | false =>
    have hmissing : (404 : ℕ) ≥ 400 := by decide
    have hrequest := hresponse (serves_missing hm.calm hfound hasks) (.inr hmissing)
    unfold DavHttpRemote.listParsed
    rw [Act.run_bind_ok hrequest]
    rfl

end Mounted

end DurableDav.Front
