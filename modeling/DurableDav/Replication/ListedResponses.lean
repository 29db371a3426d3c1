import Mathlib.Data.List.DropRight
import Mathlib.Data.List.ReduceOption
import DurableDav.Replication.Multistatus

namespace DurableDav.Replication

open Library
open Dav (Url)

/-! ### Paths up to slashes -/

def Slashes (s : JsString) : Prop := ∀ c ∈ s, c = slash

section Slashes

variable {before after s : JsString}

theorem stripSlashes_eq (s : JsString) :
    stripSlashes s = (s.dropWhile (fun c => c = slash)).rdropWhile (fun c => c = slash) := rfl

theorem dropWhile_slashes (h : Slashes before) (s : JsString) :
    (before ++ s).dropWhile (fun c => c = slash) = s.dropWhile (fun c => c = slash) :=
  List.dropWhile_append_of_pos fun c hc => decide_eq_true (h c hc)

theorem rdropWhile_slashes (h : Slashes after) (s : JsString) :
    (s ++ after).rdropWhile (fun c => c = slash) = s.rdropWhile (fun c => c = slash) := by
  unfold List.rdropWhile
  rw [List.reverse_append, dropWhile_slashes fun c hc => h c (List.mem_reverse.mp hc)]

theorem strip_around (hbefore : Slashes before) (hafter : Slashes after) (s : JsString) :
    stripSlashes (before ++ s ++ after) = stripSlashes s := by
  rw [List.append_assoc, stripSlashes_eq, dropWhile_slashes hbefore, stripSlashes_eq]
  by_cases hall : Slashes s
  · have hnil : s.dropWhile (fun c => c = slash) = [] := List.dropWhile_eq_nil_iff.mpr fun c hc => decide_eq_true (hall c hc)
    rw [dropWhile_slashes hall, hnil, List.dropWhile_eq_nil_iff.mpr fun c hc => decide_eq_true (hafter c hc)]
  · have hsome : s.dropWhile (fun c => c = slash) ≠ [] := by
      intro hnil
      exact hall fun c hc => of_decide_eq_true (List.dropWhile_eq_nil_iff.mp hnil c hc)
    rw [List.dropWhile_append, if_neg (by simpa using hsome), rdropWhile_slashes hafter]

theorem strip_parts (s : JsString) : ∃ before after, Slashes before ∧ Slashes after ∧ s = before ++ stripSlashes s ++ after := by
  refine ⟨s.takeWhile fun c => c = slash, (s.dropWhile fun c => c = slash).rtakeWhile fun c => c = slash, ?_, ?_, ?_⟩
  · intro c hc
    simpa using List.mem_takeWhile_imp hc
  · intro c hc
    simpa using List.mem_rtakeWhile_imp hc
  · rw [stripSlashes_eq, List.append_assoc, List.rdropWhile_append_rtakeWhile, List.takeWhile_append_dropWhile]

theorem strip_head (s : JsString) : (stripSlashes s).head? ≠ some slash := by
  intro h
  obtain ⟨rest, hrest⟩ : ∃ rest, stripSlashes s = slash :: rest := by
    cases hs : stripSlashes s with
    | nil =>
      rw [hs] at h
      cases h
    | cons c rest =>
      rw [hs] at h
      obtain rfl := Option.some.inj h
      exact ⟨rest, rfl⟩
  have hstrip := strip_strip s
  rw [hrest, stripSlashes_cons] at hstrip
  have hlength : (stripSlashes rest).length ≤ rest.length := by
    rw [stripSlashes_eq]
    exact (List.rdropWhile_prefix _ _).length_le.trans (List.dropWhile_suffix _).length_le
  rw [hstrip, List.length_cons] at hlength
  omega

end Slashes

/-! ### What a listing says of a body -/

/-- The address is that of a path under the root, up to slashes around it. -/
def Addresses (root path pathname : JsString) : Prop :=
  ∃ before after, Slashes before ∧ Slashes after ∧ pathname = root ++ before ++ path ++ after ∧
    (path = [] ∨ before ≠ [] ∨ root.getLast? = some slash)

/-- The address maps to a path, and what is cut off from it is the root and not a part of a longer name. -/
def Located (root pathname : JsString) : Prop :=
  (toInnerEntry pathname root).isSome ∧
    ((pathname.drop root.length).head? = some slash ∨ root.getLast? = some slash)

/-- The response is the requested collection's own, or there is an entry for it. -/
def AccountedFor (root path : JsString) (entries : List PlanSide) (pathname : Option JsString) : Prop :=
  ∃ address, pathname = some address ∧
    (Addresses root path address ∨ ∃ e ∈ entries, Addresses root e.path address)

/-- The listing is rejected as unavailable, or incomplete, or it accounts for every response of the body. -/
def Honest (m : MultistatusPlatform) (root path : JsString) (baseUrl : Url) (body : JsString) :
    Except RemoteError RemoteListing → Prop
  | .error (.unavailable _ _) => True
  | .error (.thrown _) => False
  | .ok listing => listing.complete = true → ∀ responses, m.responsesOf body = some responses →
    ∀ r ∈ responses, AccountedFor root path listing.entries (m.pathnameOf baseUrl r)

/-- No property that is read has the name of one that every object has and cannot be called; and some response that
maps to a path has no properties, or every response has an address, the collection's own or one that maps to a path. -/
def ReadsWhole (m : MultistatusPlatform) (root path : JsString) (baseUrl : Url) (body : JsString) : Prop :=
  ∀ responses, m.responsesOf body = some responses →
    (∀ r ∈ responses, (m.pathnameOf baseUrl r).isSome → ¬ m.Throws r) ∧
    ((∃ r ∈ responses, ∃ pathname, m.pathnameOf baseUrl r = some pathname ∧
        (toInnerEntry pathname root).isSome ∧ m.described r = false) ∨
      ∀ r ∈ responses, ∃ pathname, m.pathnameOf baseUrl r = some pathname ∧
        (Addresses root path pathname ∨ Located root pathname))

section Entries

variable {root inner pathname pathname' : JsString}

theorem entry_spec (h : toInnerEntry pathname root = some inner) :
    ∃ t, pathname = root ++ t ∧ inner = stripSlashes t ∧ inner ≠ [] ∧
      ((inner.splitOn slash).any fun segment => segment = js ".." ∨ segment = js ".") = false := by
  have hfront : root <+: pathname := by
    by_contra hno
    rw [entry_outside (.inl hno)] at h
    cases h
  obtain ⟨t, rfl⟩ := hfront
  rw [toInnerEntry_append] at h
  split_ifs at h with hempty hdots
  obtain rfl := Option.some.inj h
  exact ⟨t, rfl, rfl, hempty, by simpa using hdots⟩

theorem head_of_parts {before after : JsString} (hbefore : Slashes before) (hne : before ≠ []) :
    (before ++ inner ++ after).head? = some slash := by
  cases before with
  | nil => exact absurd rfl hne
  | cons c before =>
    rw [hbefore c List.mem_cons_self]
    rfl

theorem entry_addresses (h : toInnerEntry pathname root = some inner) :
    Addresses root inner pathname ↔
      (pathname.drop root.length).head? = some slash ∨ root.getLast? = some slash := by
  obtain ⟨t, rfl, hinner, hne, -⟩ := entry_spec h
  rw [List.drop_left]
  constructor
  · rintro ⟨before, after, hbefore, -, heq, hnil | hsome | hroot⟩
    · exact absurd hnil hne
    · left
      rw [List.append_assoc, List.append_assoc, List.append_cancel_left_eq, ← List.append_assoc] at heq
      rw [heq]
      exact head_of_parts hbefore hsome
    · exact .inr hroot
  · intro hbound
    obtain ⟨before, after, hbefore, hafter, ht⟩ := strip_parts t
    rw [← hinner] at ht
    refine ⟨before, after, hbefore, hafter, by rw [List.append_assoc, List.append_assoc, ← List.append_assoc before, ← ht], ?_⟩
    refine .inr (hbound.imp ?_ id)
    rintro hhead rfl
    rw [ht, List.nil_append, List.head?_append_of_ne_nil _ hne, hinner] at hhead
    exact strip_head t hhead

/-- An address of a path that some other address maps to maps to it as well. -/
theorem addresses_entry (h : toInnerEntry pathname' root = some inner) (haddress : Addresses root inner pathname) :
    Located root pathname := by
  obtain ⟨t, -, hinner, hne, hdots⟩ := entry_spec h
  obtain ⟨before, after, hbefore, hafter, rfl, hnil | hsome⟩ := haddress
  · exact absurd hnil hne
  · rw [List.append_assoc, List.append_assoc, ← List.append_assoc before]
    have hstrip : stripSlashes (before ++ inner ++ after) = inner := by
      rw [strip_around hbefore hafter, hinner, strip_strip]
    refine ⟨?_, ?_⟩
    · rw [toInnerEntry_append, hstrip, if_neg hne, hdots]
      rfl
    · rw [List.drop_left]
      exact hsome.imp (head_of_parts hbefore) id

end Entries

/-! ### The listing of a body -/

section Bodies

variable {c : DavHttpRemote} {m : MultistatusPlatform} {baseUrl : Url} {path body : JsString}
variable {responses : List XmlNode} {resources : List (Option DavResource)}

theorem toEntry_path {resource : DavResource} {e : PlanSide} (h : c.toEntry resource = some e) :
    toInnerEntry resource.pathname c.rootPathname = some e.path := by
  obtain ⟨inner, hinner, rfl⟩ := Option.map_eq_some_iff.mp h
  exact hinner

theorem toEntry_isSome {resource : DavResource} :
    (c.toEntry resource).isSome = (toInnerEntry resource.pathname c.rootPathname).isSome := by
  unfold DavHttpRemote.toEntry
  rw [Option.isSome_map]

/-- The resources of a body are those of its responses that have an address. -/
theorem mem_resources (h : responses.mapM (m.readResource baseUrl) = .ok resources) {resource : DavResource} :
    resource ∈ resources.reduceOption ↔ ∃ r ∈ responses, m.readResource baseUrl r = .ok (some resource) := by
  rw [List.reduceOption_mem_iff, mem_mapM h]

theorem listing_complete_iff (h : responses.mapM (m.readResource baseUrl) = .ok resources) :
    (c.listingOf resources.reduceOption).complete = true ↔
      ∀ r ∈ responses, ∀ pathname, m.pathnameOf baseUrl r = some pathname →
        (toInnerEntry pathname c.rootPathname).isSome → m.described r = true := by
  have hread : (c.listingOf resources.reduceOption).complete = true ↔ ∀ resource ∈ resources.reduceOption,
      (c.toEntry resource).isNone ∨ resource.propsComplete = true := by
    simp [DavHttpRemote.listingOf]
  rw [hread]
  constructor
  · intro hall r hr pathname hpathname hentry
    obtain ⟨result, hresult⟩ := mapM_ok_iff.mp ⟨resources, h⟩ r hr
    obtain ⟨resource, rfl, rfl, hcomplete⟩ := readResource_of_pathname hpathname hresult
    rcases hall resource ((mem_resources h).mpr ⟨r, hr, hresult⟩) with hnone | hprops
    · rw [← toEntry_isSome, Option.isSome_iff_ne_none] at hentry
      exact absurd (Option.isNone_iff_eq_none.mp hnone) hentry
    · exact hcomplete ▸ hprops
  · intro hall resource hresource
    obtain ⟨r, hr, hresult⟩ := (mem_resources h).mp hresource
    obtain ⟨hpathname, hcomplete⟩ := readResource_some hresult
    cases hentry : c.toEntry resource with
    | none => exact .inl rfl
    | some e =>
      right
      rw [hcomplete]
      exact hall r hr _ hpathname (by rw [toEntry_path hentry]; rfl)

theorem accounted_iff (h : responses.mapM (m.readResource baseUrl) = .ok resources) {r : XmlNode} (hr : r ∈ responses) :
    AccountedFor c.rootPathname path (c.listingOf resources.reduceOption).entries (m.pathnameOf baseUrl r) ↔
      ∃ pathname, m.pathnameOf baseUrl r = some pathname ∧
        (Addresses c.rootPathname path pathname ∨ Located c.rootPathname pathname) := by
  constructor
  · rintro ⟨address, hpathname, hown | ⟨e, he, haddress⟩⟩
    · exact ⟨address, hpathname, .inl hown⟩
    · obtain ⟨resource, -, hentry⟩ := List.mem_filterMap.mp he
      exact ⟨address, hpathname, .inr (addresses_entry (toEntry_path hentry) haddress)⟩
  · rintro ⟨pathname, hpathname, hown | ⟨hentry, hbound⟩⟩
    · exact ⟨pathname, hpathname, .inl hown⟩
    · refine ⟨pathname, hpathname, .inr ?_⟩
      obtain ⟨result, hresult⟩ := mapM_ok_iff.mp ⟨resources, h⟩ r hr
      obtain ⟨resource, rfl, rfl, -⟩ := readResource_of_pathname hpathname hresult
      rw [← toEntry_isSome] at hentry
      obtain ⟨e, he⟩ := Option.isSome_iff_exists.mp hentry
      have hmem := (mem_resources h).mpr ⟨r, hr, hresult⟩
      exact ⟨e, List.mem_filterMap.mpr ⟨resource, hmem, he⟩, (entry_addresses (toEntry_path he)).mpr hbound⟩

theorem readListing_ok (hresponses : m.responsesOf body = some responses)
    (hresources : responses.mapM (m.readResource baseUrl) = .ok resources) :
    c.readListing m path baseUrl body = .ok (c.listingOf resources.reduceOption) := by
  unfold DavHttpRemote.readListing MultistatusPlatform.parseMultiStatus
  rw [hresponses]
  dsimp only
  rw [hresources]
  rfl

theorem readListing_error {e : RemoteError} (hresponses : m.responsesOf body = some responses)
    (hresources : responses.mapM (m.readResource baseUrl) = .error e) :
    c.readListing m path baseUrl body = .error e := by
  unfold DavHttpRemote.readListing MultistatusPlatform.parseMultiStatus
  rw [hresponses]
  dsimp only
  rw [hresources]
  rfl

/-- A listing that says it is complete accounts for every response, where the body is one that is read whole. -/
theorem readListing_honest_iff :
    Honest m c.rootPathname path baseUrl body (c.readListing m path baseUrl body) ↔
      ReadsWhole m c.rootPathname path baseUrl body := by
  cases hresponses : m.responsesOf body with
  | none =>
    refine iff_of_true ?_ ?_
    · unfold DavHttpRemote.readListing MultistatusPlatform.parseMultiStatus
      rw [hresponses]
      trivial
    · intro responses hsome
      rw [hresponses] at hsome
      cases hsome
  | some responses =>
    have hcallable : (∃ resources, responses.mapM (m.readResource baseUrl) = .ok resources) ↔
        ∀ r ∈ responses, (m.pathnameOf baseUrl r).isSome → ¬ m.Throws r := by
      rw [mapM_ok_iff]
      exact forall₂_congr fun r _ => readResource_ok_iff baseUrl r
    cases hresources : responses.mapM (m.readResource baseUrl) with
    | error e =>
      obtain ⟨r, -, hr⟩ := mapM_error hresources
      obtain ⟨message, rfl⟩ := readResource_error hr
      rw [readListing_error hresponses hresources]
      refine iff_of_false id ?_
      intro hreads
      obtain ⟨resources, hok⟩ := hcallable.mpr (hreads responses hresponses).1
      rw [hresources] at hok
      cases hok
    | ok resources =>
      have hfine := hcallable.mp ⟨resources, hresources⟩
      have hcomplete := listing_complete_iff (c := c) hresources
      rw [readListing_ok hresponses hresources]
      constructor
      · intro hhonest responses' hsame
        obtain rfl := Option.some.inj (hresponses.symm.trans hsame)
        refine ⟨hfine, or_iff_not_imp_left.mpr ?_⟩
        intro hno r hr
        refine (accounted_iff hresources hr).mp (hhonest (hcomplete.mpr ?_) responses hresponses r hr)
        intro r' hr' pathname hpathname hentry
        by_contra hprops
        exact hno ⟨r', hr', pathname, hpathname, hentry, by simpa using hprops⟩
      · intro hreads hlisted responses' hsame r hr
        obtain rfl := Option.some.inj (hresponses.symm.trans hsame)
        obtain ⟨-, ⟨r', hr', pathname, hpathname, hentry, hprops⟩ | hall⟩ := hreads responses hresponses
        · have hdescribed := hcomplete.mp hlisted r' hr' pathname hpathname hentry
          rw [hprops] at hdescribed
          cases hdescribed
        · exact (accounted_iff hresources hr).mpr (hall r hr)

/-- What the operation makes of a multistatus is what reading its body makes of it. -/
theorem listParsed_run {log log' : List Sent} {response : Response}
    (hrequest : (c.request path DavHttpRemote.listRequest).run log = (.ok response, log')) (hstatus : response.status = 207)
    (hbase : joinUrl c.base [c.rootInner, path] = some baseUrl) :
    ((c.listParsed m path).run log).1 = c.readListing m path baseUrl response.text := by
  unfold DavHttpRemote.listParsed
  rw [Act.run_bind_ok hrequest, hstatus, if_neg (by decide), if_pos rfl, hbase]
  dsimp only
  cases c.readListing m path baseUrl response.text <;> rfl

end Bodies

/-- The listing of a multistatus is honest if and only if its body is one that is read whole. -/
theorem listed_honestly_iff (c : DavHttpRemote) (m : MultistatusPlatform) (path : JsString) {log log' : List Sent}
    {response : Response} (hrequest : (c.request path DavHttpRemote.listRequest).run log = (.ok response, log'))
    (hstatus : response.status = 207) :
    ∃ baseUrl, joinUrl c.base [c.rootInner, path] = some baseUrl ∧
      (Honest m c.rootPathname path baseUrl response.text ((c.listParsed m path).run log).1 ↔
        ReadsWhole m c.rootPathname path baseUrl response.text) := by
  cases hbase : joinUrl c.base [c.rootInner, path] with
  | none =>
    unfold DavHttpRemote.request at hrequest
    rw [hbase] at hrequest
    cases hrequest
  | some baseUrl =>
    rw [listParsed_run hrequest hstatus hbase]
    exact ⟨baseUrl, rfl, readListing_honest_iff⟩

/-! ### Three bodies -/

def found (href : JsString) (properties : List XmlNode) : XmlNode :=
  .element (some (js "response")) [] [.element (some (js "href")) href [],
    .element (some (js "propstat")) [] [.element (some (js "status")) (js "HTTP/1.1 200 OK") [],
      .element (some (js "prop")) [] properties]]

/-- A parser that reads one body, and addresses from the host on. -/
def oneBody (responses : List XmlNode) : MultistatusPlatform where
  toLowerCase := id
  parseXmlDocument := fun _ => some (.element (some (js "multistatus")) [] responses)
  url := fun href base => if href.head? = some slash then some ⟨base.origin, href⟩ else none
  parseDate := fun _ => none

/-- A server that answers every request with a multistatus. -/
def answering : DavHttpRemote where
  base := ⟨js "https://h", js "/d/"⟩
  rootPathname := js "/d/"
  rootInner := []
  authHeader := .none
  maxRedirects := 0
  resolveRedirectUrl := fun _ _ => .error (.rejected [])
  parseMultiStatus := fun _ => none
  answer := fun _ => some { status := 207 }

theorem answering_asked : (answering.request [] DavHttpRemote.listRequest).run [] =
    (.ok { status := 207 }, [⟨DavHttpRemote.listRequest, ⟨js "https://h", js "/d/"⟩, none⟩]) := rfl

theorem answering_base : joinUrl answering.base [answering.rootInner, []] = some ⟨js "https://h", js "/d/"⟩ := rfl

theorem child_listed :
    Honest (oneBody [found (js "/d/") [], found (js "/d/a") []]) (js "/d/") [] ⟨js "https://h", js "/d/"⟩ []
      ((answering.listParsed (oneBody [found (js "/d/") [], found (js "/d/a") []]) []).run []).1 := by
  obtain ⟨baseUrl, hbase, hiff⟩ := listed_honestly_iff answering
    (oneBody [found (js "/d/") [], found (js "/d/a") []]) [] answering_asked rfl
  obtain rfl := Option.some.inj (answering_base.symm.trans hbase)
  refine hiff.mpr ?_
  intro responses hresponses
  have hread : (oneBody [found (js "/d/") [], found (js "/d/a") []]).responsesOf [] =
      some [found (js "/d/") [], found (js "/d/a") []] := rfl
  obtain rfl := Option.some.inj (hread.symm.trans hresponses)
  refine ⟨?_, .inr ?_⟩
  · refine List.forall_mem_cons.mpr ⟨?_, List.forall_mem_singleton.mpr ?_⟩
    · exact (readResource_ok_iff _ _).mp ⟨_, rfl⟩
    · exact (readResource_ok_iff _ _).mp ⟨_, rfl⟩
  · refine List.forall_mem_cons.mpr ⟨?_, List.forall_mem_singleton.mpr ?_⟩
    · exact ⟨js "/d/", rfl, .inl ⟨[], [], List.forall_mem_nil _, List.forall_mem_nil _, rfl, .inl rfl⟩⟩
    · exact ⟨js "/d/a", rfl, .inr ⟨by decide, .inr (by decide)⟩⟩

/-- A response without an address is left out of a listing that says it is complete, and a property with the name of
what every object has stops the listing altogether. -/
theorem nameless_response_dropped :
    (((answering.listParsed (oneBody [.element (some (js "response")) [] []]) []).run []).1 = .ok ⟨[], true⟩ ∧
      ¬ Honest (oneBody [.element (some (js "response")) [] []]) (js "/d/") [] ⟨js "https://h", js "/d/"⟩ []
        ((answering.listParsed (oneBody [.element (some (js "response")) [] []]) []).run []).1) ∧
    ¬ Honest (oneBody [found (js "/d/a") [.element (some (js "__proto__")) [] []]]) (js "/d/") []
      ⟨js "https://h", js "/d/"⟩ []
      ((answering.listParsed (oneBody [found (js "/d/a") [.element (some (js "__proto__")) [] []]]) []).run []).1 := by
  have hlisted : ((answering.listParsed (oneBody [.element (some (js "response")) [] []]) []).run []).1 =
      .ok ⟨[], true⟩ := by
    rw [listParsed_run answering_asked rfl answering_base]
    rfl
  refine ⟨⟨hlisted, ?_⟩, ?_⟩
  · intro hhonest
    rw [hlisted] at hhonest
    obtain ⟨address, hnone, -⟩ := hhonest rfl _ rfl _ List.mem_cons_self
    cases hnone
  · rw [listParsed_run answering_asked rfl answering_base]
    exact id

end DurableDav.Replication
