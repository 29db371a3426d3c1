import DurableDav.Front.Shapes

namespace DurableDav.Front

open Library
open Dav (Platform Url hrefOf parseDestinationPath stripBase decodeResourcePath)
open Replication (isValidInnerPath names names_of_ne names_nil slash_notMem_segments)

/-! ### The names an address shows -/

def shownNames (mode : HrefPrefixMode) (owner name path : JsString) : List JsString :=
  match mode with
  | .base => owner :: name :: names path
  | .root => names path

/-- What is left of the names after the front door has taken the address apart. -/
def arrivedNames (mode : HrefPrefixMode) (owner name path : JsString) : List JsString :=
  if BrowserShaped (shownNames mode owner name path) then (shownNames mode owner name path).drop 5
  else if BaseShaped owner name (shownNames mode owner name path) then (shownNames mode owner name path).drop 2
  else shownNames mode owner name path

/-- The address of the path has a shape that the front door prefers to the one it was written in. -/
def Mistaken (mode : HrefPrefixMode) (owner name path : JsString) : Prop :=
  BrowserShaped (shownNames mode owner name path) ∨
    mode = .root ∧ BaseShaped owner name (shownNames mode owner name path)

instance (mode : HrefPrefixMode) (owner name path : JsString) : Decidable (Mistaken mode owner name path) :=
  inferInstanceAs (Decidable (_ ∨ _))

section Shapes

variable {mode : HrefPrefixMode} {owner name path : JsString}

theorem browserShaped_length {ns : List JsString} (h : BrowserShaped ns) : 5 ≤ ns.length := by
  obtain ⟨hlt, -⟩ := List.getElem?_eq_some_iff.mp h.2.2
  omega

theorem baseShaped_length {ns : List JsString} (h : BaseShaped owner name ns) : 2 ≤ ns.length := by
  obtain ⟨o, n, rest, rfl, -⟩ := baseShaped_names h
  simp

theorem arrived_iff : arrivedNames mode owner name path = names path ↔ ¬ Mistaken mode owner name path := by
  unfold arrivedNames Mistaken
  by_cases hbrowser : BrowserShaped (shownNames mode owner name path)
  · have hlength := browserShaped_length hbrowser
    rw [if_pos hbrowser]
    refine ⟨fun heq => ?_, fun h => absurd (.inl hbrowser) h⟩
    have hnames := congrArg List.length heq
    rw [List.length_drop] at hnames
    cases mode with
    | base =>
      simp only [shownNames, List.length_cons] at hlength hnames
      omega
    | root =>
      simp only [shownNames] at hlength hnames
      omega
  · rw [if_neg hbrowser]
    cases mode with
    | base =>
      have hbase : BaseShaped owner name (shownNames .base owner name path) := ⟨rfl, rfl⟩
      rw [if_pos hbase]
      simpa [shownNames] using hbrowser
    | root =>
      by_cases hbase : BaseShaped owner name (shownNames .root owner name path)
      · have hlength := baseShaped_length hbase
        rw [if_pos hbase]
        refine ⟨fun heq => ?_, fun h => absurd (.inr ⟨rfl, hbase⟩) h⟩
        have hnames := congrArg List.length heq
        rw [List.length_drop] at hnames
        simp only [shownNames] at hlength hnames
        omega
      · rw [if_neg hbase]
        simpa [shownNames] using And.intro hbrowser hbase

end Shapes

/-! ### Names that can be encoded -/

def Encodable (p : Platform) (ns : List JsString) : Prop :=
  ∀ s ∈ ns, encodeURIComponent s = some (p.encodeURIComponent s) ∧ s ≠ [] ∧ s ≠ js "." ∧ s ≠ js ".."

section Encodable

variable {p : Platform} {ns : List JsString}

theorem decodeName_encoded (hp : Standard p) {s : JsString} (h : encodeURIComponent s = some (p.encodeURIComponent s)) :
    decodeName p (p.encodeURIComponent s) = s := by
  unfold decodeName
  rw [hp.decode, decode_encode h]
  rfl

theorem encodable_coded (hp : Standard p) (h : Encodable p ns) : Coded p (ns.map p.encodeURIComponent) := by
  intro e he
  obtain ⟨s, hs, rfl⟩ := List.mem_map.mp he
  obtain ⟨hencode, hne, hdot, hdots⟩ := h s hs
  rw [decodeName_encoded hp hencode]
  refine ⟨?_, encoded_units hencode, hdot, hdots⟩
  intro hnil
  have hdecode := decodeName_encoded hp hencode
  rw [hnil, decodeName_nil hp] at hdecode
  exact hne hdecode.symm

theorem encodable_decoded (hp : Standard p) (h : Encodable p ns) :
    (ns.map p.encodeURIComponent).map (decodeName p) = ns := by
  rw [List.map_map]
  conv_rhs => rw [← List.map_id ns]
  exact List.map_congr_left fun s hs => decodeName_encoded hp (h s hs).1

theorem encodable_browserShaped (h : Encodable p ns) :
    BrowserShaped (ns.map p.encodeURIComponent) ↔ BrowserShaped ns := by
  have hat (i : ℕ) {t : JsString} (ht : Plain t) : (ns.map p.encodeURIComponent)[i]? = some t ↔ ns[i]? = some t := by
    rw [List.getElem?_map]
    cases hi : ns[i]? with
    | none => simp
    | some s => simpa using coding_eq (h s (List.mem_of_getElem? hi)).1 ht
  unfold BrowserShaped
  rw [hat 0 (plain_of_all (by decide)), hat 1 (plain_of_all (by decide)), hat 4 (plain_of_all (by decide))]

theorem encodable_baseShaped {owner name : JsString} (h : Encodable p ns) (ho : Plain owner) (hn : Plain name) :
    BaseShaped owner name (ns.map p.encodeURIComponent) ↔ BaseShaped owner name ns := by
  have hat (i : ℕ) {t : JsString} (ht : Plain t) :
      (ns.map p.encodeURIComponent)[i]?.map (List.map asciiLower) = some (t.map asciiLower) ↔
        ns[i]?.map (List.map asciiLower) = some (t.map asciiLower) := by
    rw [List.getElem?_map]
    cases hi : ns[i]? with
    | none => simp
    | some s => simpa using coding_lower (h s (List.mem_of_getElem? hi)).1 ht
  unfold BaseShaped
  rw [hat 0 ho, hat 1 hn]

end Encodable

/-! ### From the address to the path -/

section Trip

variable {p : Platform} {mode : HrefPrefixMode} {owner name path requestUrl forwardUrl : JsString}
  {request forward : Url}

theorem encode_total (hp : Standard p) {s t : JsString} (h : encodeURIComponent s = some t) :
    encodeURIComponent s = some (p.encodeURIComponent s) := by
  rw [hp.encode s t h]
  exact h

theorem base_encodable (hp : Standard p) (ho : isValidUsername owner = true) (hn : isValidVolumeName name = true)
    {ns : List JsString} (hns : Encodable p ns) : Encodable p (owner :: name :: ns) :=
  List.forall_mem_cons.mpr ⟨⟨encode_total hp (encode_plain (username_plain ho)), username_segment ho⟩,
    List.forall_mem_cons.mpr ⟨⟨encode_total hp (encode_plain (volumeName_plain hn)), volumeName_segment hn⟩, hns⟩⟩

theorem names_encodable (hp : Standard p) (hpath : isValidInnerPath path = true)
    (hall : (path.splitOn slash).all (fun s => (encodeURIComponent s).isSome) = true) : Encodable p (names path) := by
  by_cases hne : path = []
  · rw [hne]
    simp [Encodable]
  · rw [names_of_ne hne]
    intro s hs
    have hvalid : ∀ s ∈ path.splitOn slash, s ≠ [] ∧ s ≠ js "." ∧ s ≠ js ".." := by
      simp only [isValidInnerPath, hne, false_or, decide_eq_true_eq] at hpath
      exact hpath.2
    obtain ⟨t, ht⟩ := Option.isSome_iff_exists.mp (List.all_eq_true.mp hall s hs)
    exact ⟨encode_total hp ht, hvalid s hs⟩

theorem shown_encodable (mode : HrefPrefixMode) (hp : Standard p) (ho : isValidUsername owner = true) (hn : isValidVolumeName name = true)
    (hpath : isValidInnerPath path = true)
    (hall : (path.splitOn slash).all (fun s => (encodeURIComponent s).isSome) = true) :
    Encodable p (shownNames mode owner name path) := by
  cases mode with
  | base => exact base_encodable hp ho hn (names_encodable hp hpath hall)
  | root => exact names_encodable hp hpath hall

theorem plain_encoded (hp : Standard p) {s : JsString} (h : Plain s) : p.encodeURIComponent s = s :=
  hp.encode s s (encode_plain h)

/-- The address of a path is made of the names it shows. -/
theorem advertised_eq (hp : Standard p) (ho : isValidUsername owner = true) (hn : isValidVolumeName name = true)
    {isCollection : Bool} {href : JsString} (h : advertised p mode owner name path isCollection = some href) :
    (path.splitOn slash).all (fun s => (encodeURIComponent s).isSome) = true ∧
      ∃ trailing : Bool, (shownNames mode owner name path = [] → trailing = false) ∧
        href = slash :: ([slash].intercalate ((shownNames mode owner name path).map p.encodeURIComponent) ++
          if trailing then [slash] else []) := by
  obtain ⟨hall, hsome⟩ := Option.ite_none_right_eq_some.mp h
  have hhref := Option.some.inj hsome
  refine ⟨hall, ?_⟩
  have hlast : (slash :: (owner ++ slash :: name)).getLast? ≠ some slash := by
    have hne := (volumeName_segment hn).1
    rw [show slash :: (owner ++ slash :: name) = (slash :: owner ++ [slash]) ++ name by simp,
      List.getLast?_append_of_ne_nil _ hne]
    exact fun he => plain_slash (volumeName_plain hn) (List.mem_of_getLast? he)
  have hoc := plain_encoded hp (username_plain ho)
  have hnc := plain_encoded hp (volumeName_plain hn)
  by_cases hne : path = []
  · subst hne
    cases mode with
    | base =>
      refine ⟨true, by simp [shownNames], ?_⟩
      rw [← hhref]
      simp [Dav.hrefOf, resolveDavBases, hlast, shownNames, pathBaseOf, List.intercalate_cons_cons, hoc, hnc]
    | root =>
      refine ⟨false, by simp, ?_⟩
      rw [← hhref]
      simp [Dav.hrefOf, resolveDavBases, shownNames]
  · refine ⟨isCollection, ?_, ?_⟩
    · cases mode with
      | base => simp [shownNames]
      | root => simp [shownNames, names_of_ne hne, List.splitOn_ne_nil]
    · rw [← hhref]
      cases mode with
      | base =>
        have hcons := List.exists_cons_of_ne_nil (List.splitOn_ne_nil slash path)
        obtain ⟨s, rest, hsplit⟩ := hcons
        simp [Dav.hrefOf, resolveDavBases, hlast, hne, shownNames, names_of_ne hne, pathBaseOf, hsplit,
          List.intercalate_cons_cons, hoc, hnc]
      | root => simp [Dav.hrefOf, resolveDavBases, hne, shownNames, names_of_ne hne]

theorem root_plain (hp : Standard p) : PlainPath p [slash] where
  absolute := rfl
  hostless := by simp
  units := by simp
  undotted := by
    have hsplit : [slash].splitOn slash = [[], []] := by decide
    unfold hasDotSegment
    rw [hsplit]
    simp only [List.any_cons, List.any_nil, decodeName_nil hp]
    decide

theorem plain_all (h : PlainPath p path) : path.all isAscii = true := by
  rw [List.all_eq_true]
  intro c hc
  rcases h.units c hc with hunit | rfl
  · rcases Bool.or_eq_true_iff.mp hunit with hunit | hunit
    · exact List.all_eq_true.mp (plain_ascii fun d (hd : d ∈ [c]) => List.mem_singleton.mp hd ▸ hunit) c (by simp)
    · rw [of_decide_eq_true hunit]
      decide
  · decide

theorem arrived_subset : ∀ s ∈ arrivedNames mode owner name path, s ∈ shownNames mode owner name path := by
  unfold arrivedNames
  split
  · exact fun s hs => List.mem_of_mem_drop hs
  · split
    · exact fun s hs => List.mem_of_mem_drop hs
    · exact fun s hs => hs

theorem arrived_coded (hp : Standard p) (ho : isValidUsername owner = true) (hn : isValidVolumeName name = true)
    (h : Encodable p (shownNames mode owner name path)) {pathname : JsString} (hascii : pathname.all isAscii = true)
    (hns : (stripSlashes pathname).splitOn slash = (shownNames mode owner name path).map p.encodeURIComponent) :
    (browserInnerFrom pathname).or (innerFromPathname p pathname (pathBaseOf owner name) mode) =
      some ([slash].intercalate ((arrivedNames mode owner name path).map p.encodeURIComponent)) := by
  rw [front_inner hp ho hn hascii mode hns]
  unfold arrivedNames
  simp only [encodable_browserShaped h, encodable_baseShaped h (username_plain ho) (volumeName_plain hn)]
  split
  · rw [List.map_drop]
  · split
    · rw [List.map_drop]
    · rename_i hbase
      cases mode with
      | base => exact absurd ⟨rfl, rfl⟩ hbase
      | root => rw [if_pos rfl]

/-- An address that a path shows passes the front door, with the names that are left of it. -/
theorem resolve_advertised (hp : Standard p) (ho : isValidUsername owner = true) (hn : isValidVolumeName name = true)
    (hpath : isValidInnerPath path = true) (hreq : Requests p requestUrl request) {isCollection : Bool}
    {href : JsString} (h : advertised p mode owner name path isCollection = some href) :
    resolveDestination p (some href) requestUrl (pathBaseOf owner name) mode =
      .ok (request.origin ++ pathBaseOf owner name ++
        slash :: [slash].intercalate ((arrivedNames mode owner name path).map p.encodeURIComponent)) := by
  obtain ⟨hall, trailing, htrailing, hhref⟩ := advertised_eq hp ho hn h
  have hshown := shown_encodable mode hp ho hn hpath hall
  by_cases hnil : shownNames mode owner name path = []
  · obtain rfl : href = [slash] := by
      rw [hhref, hnil, htrailing hnil]
      rfl
    have hmode : mode = .root := by
      cases mode with
      | base => simp [shownNames] at hnil
      | root => rfl
    subst hmode
    have harrived : arrivedNames .root owner name path = [] := by
      unfold arrivedNames
      rw [hnil]
      simp [BrowserShaped, BaseShaped]
    have hplain := root_plain hp
    have hns : (stripSlashes [slash]).splitOn slash = [[]] := by decide
    have hobase : ¬ BaseShaped owner name [[]] := by simp [BaseShaped]
    rw [resolve_address hreq hplain, front_inner hp ho hn (plain_all hplain) _ hns, harrived,
      if_neg (by decide), if_neg hobase, if_pos rfl]
    rfl
  · have hcoded := encodable_coded hp hshown
    have hne : (shownNames mode owner name path).map p.encodeURIComponent ≠ [] := by simpa using hnil
    have hplain : PlainPath p href := by
      rw [hhref]
      exact address_plain hp hcoded hne trailing
    have hns : (stripSlashes href).splitOn slash = (shownNames mode owner name path).map p.encodeURIComponent := by
      rw [hhref, strip_join (coded_named hcoded) hne, split_join (coded_named hcoded) hne]
    rw [resolve_address hreq hplain, arrived_coded hp ho hn hshown (plain_all hplain) hns]

/-! ### The volume's own half -/

theorem stripBase_join (hp : Standard p) (ho : isValidUsername owner = true) (hn : isValidVolumeName name = true)
    (ms : List JsString) :
    stripBase p ([slash].intercalate (owner :: name :: ms)) (pathBaseOf owner name) = some ([slash].intercalate ms) := by
  have hascii : (owner ++ slash :: name ++ [slash]).all isAscii = true := by
    have hslash : isAscii slash = true := by decide
    simp only [List.all_append, List.all_cons, List.all_nil, plain_ascii (username_plain ho),
      plain_ascii (volumeName_plain hn), hslash, Bool.and_self]
  have hbase : (owner ++ slash :: name).all isAscii = true := by
    rw [List.all_append, Bool.and_eq_true] at hascii
    exact hascii.1
  unfold stripBase
  simp only [base_stripped ho hn]
  cases ms with
  | nil =>
    have hjoin : [slash].intercalate [owner, name] = owner ++ slash :: name := by simp [List.intercalate_cons_cons]
    rw [hjoin, if_pos rfl]
    rfl
  | cons m ms =>
    have hjoin : [slash].intercalate (owner :: name :: m :: ms) =
        (owner ++ slash :: name ++ [slash]) ++ [slash].intercalate (m :: ms) := by
      simp [List.intercalate_cons_cons]
    have hfront := hp.lowerPrefix _ ([slash].intercalate (m :: ms)) hascii
    have hlower : (owner ++ slash :: name ++ [slash]).map asciiLower = p.toLowerCase (owner ++ slash :: name) ++ [slash] := by
      rw [hp.lower _ hbase, List.map_append, List.map_singleton, asciiLower_slash.mpr rfl]
    rw [hlower] at hfront
    rw [hjoin, if_neg, if_neg (by simp), if_pos hfront, List.drop_left' (by rw [List.length_append]; rfl)]
    intro heq
    have hlength := hfront.length_le
    rw [heq] at hlength
    simp at hlength

theorem forwarded_arrives (hp : Standard p) (ho : isValidUsername owner = true) (hn : isValidVolumeName name = true)
    (hforward : Requests p forwardUrl forward) {ms : List JsString} (hms : Encodable p ms) :
    (parseDestinationPath p (forward.origin ++ pathBaseOf owner name ++
        slash :: [slash].intercalate (ms.map p.encodeURIComponent)) forwardUrl).bind
      (fun full => stripBase p full (pathBaseOf owner name)) = some ([slash].intercalate ms) := by
  have hshown := base_encodable hp ho hn hms
  have hcoded := encodable_coded hp hshown
  have hpath : pathBaseOf owner name ++ slash :: [slash].intercalate (ms.map p.encodeURIComponent) =
      slash :: ([slash].intercalate ((owner :: name :: ms).map p.encodeURIComponent) ++
        if decide (ms = []) then [slash] else []) := by
    have hoc := plain_encoded hp (username_plain ho)
    have hnc := plain_encoded hp (volumeName_plain hn)
    cases ms with
    | nil => simp [pathBaseOf, List.intercalate_cons_cons, hoc, hnc]
    | cons m ms => simp [pathBaseOf, List.intercalate_cons_cons, hoc, hnc]
  have hplain := address_plain hp hcoded (by simp) (decide (ms = []))
  rw [List.append_assoc, hpath]
  unfold parseDestinationPath
  simp only [hforward.full _ hplain, hforward.self, Option.bind_eq_bind, Option.bind_some, if_true]
  rw [decode_address hcoded (by simp), encodable_decoded hp hshown, stripBase_join hp ho hn]

/-! ### Destinations of another volume -/

theorem other_not_base (hp : Standard p) (ho : isValidUsername owner = true) (hn : isValidVolumeName name = true)
    {pathname : JsString} (h : NamesOther p owner name pathname)
    (hbrowser : ¬ BrowserShaped ((stripSlashes pathname).splitOn slash)) :
    ¬ BaseShaped owner name ((stripSlashes pathname).splitOn slash) := by
  intro hbase
  obtain ⟨o, n, rest, hns, hoeq, hneq⟩ := baseShaped_names hbase
  have hnamed : namedVolume pathname = some (o, n) := by
    unfold namedVolume
    rw [hns] at hbrowser ⊢
    rcases rest with _ | ⟨c, _ | ⟨d, _ | ⟨e, rest⟩⟩⟩
    · rfl
    · rfl
    · rfl
    · have hno : ¬ (o = js "user" ∧ n = js "volumes" ∧ e = js "files") := by simpa [BrowserShaped] using hbrowser
      simp only [if_neg hno]
  have hsame {s t : JsString} (ht : Plain t) (heq : s.map asciiLower = t.map asciiLower) :
      p.toLowerCase (decodeName p s) = p.toLowerCase t := by
    have hs := plain_of_lower heq ht
    unfold decodeName
    rw [hp.decode, plain_decode hs, Option.getD_some, hp.lower s (plain_ascii hs), hp.lower t (plain_ascii ht), heq]
  obtain ⟨o', n', hnamed', hdiffers⟩ := h
  rw [hnamed] at hnamed'
  obtain ⟨rfl, rfl⟩ := Prod.mk.inj (Option.some.inj hnamed')
  exact hdiffers ⟨hsame (username_plain ho) hoeq, hsame (volumeName_plain hn) hneq⟩

/-- What the front door rejects of the destinations that name another volume. -/
theorem other_rejected (hp : Standard p) (ho : isValidUsername owner = true) (hn : isValidVolumeName name = true)
    (hself : p.url requestUrl none = some request) {header : JsString} {d : Url} (hheader : header ≠ [])
    (hd : p.url header (some requestUrl) = some d) (hother : NamesOther p owner name d.pathname) :
    (∃ failure, resolveDestination p (some header) requestUrl (pathBaseOf owner name) mode = .error failure) ↔
      (rawPathOf header).any (hasDotSegment p) = true ∨ hasDotSegment p d.pathname = true ∨ d.origin ≠ request.origin ∨
        mode = .base ∧ ¬ BrowserShaped ((stripSlashes d.pathname).splitOn slash) := by
  have hinner := front_inner hp ho hn (hp.asciiPath _ _ _ hd) mode rfl
  have hbase := other_not_base hp ho hn hother
  simp only [resolveDestination, if_neg hheader, hd, hself]
  by_cases hraw : (rawPathOf header).any (hasDotSegment p) = true
  · simp [hraw]
  · by_cases horigin : d.origin = request.origin
    · by_cases hdot : hasDotSegment p d.pathname = true
      · simp [hraw, hdot, horigin]
      · simp only [hraw, hdot, horigin, hinner]
        by_cases hbrowser : BrowserShaped ((stripSlashes d.pathname).splitOn slash)
        · simp [hbrowser]
        · cases mode with
          | base => simp [hbrowser, hbase hbrowser]
          | root => simp [hbrowser, hbase hbrowser]
    · simp [hraw, horigin]

theorem reaches_advertised (hp : Standard p) (ho : isValidUsername owner = true) (hn : isValidVolumeName name = true)
    (hpath : isValidInnerPath path = true) (hreq : Requests p requestUrl request)
    (hforward : Requests p forwardUrl forward) (horigin : forward.origin = request.origin) {isCollection : Bool}
    {href : JsString} (h : advertised p mode owner name path isCollection = some href) :
    reaches p mode owner name href requestUrl forwardUrl =
      some ([slash].intercalate (arrivedNames mode owner name path)) := by
  have hshown := shown_encodable mode hp ho hn hpath (Option.ite_none_right_eq_some.mp h).1
  unfold reaches
  rw [resolve_advertised hp ho hn hpath hreq h, ← horigin]
  exact forwarded_arrives hp ho hn hforward fun s hs => hshown s (arrived_subset s hs)

/-- An address of the browser plane arrives in this volume, whichever volume it names. -/
theorem browser_address_arrives (hp : Standard p) (ho : isValidUsername owner = true) (hn : isValidVolumeName name = true)
    (hreq : Requests p requestUrl request) (hforward : Requests p forwardUrl forward)
    (horigin : forward.origin = request.origin) {o n : JsString} {ms : List JsString}
    (hms : Encodable p (js "user" :: js "volumes" :: o :: n :: js "files" :: ms)) :
    reaches p mode owner name
        (slash :: [slash].intercalate ((js "user" :: js "volumes" :: o :: n :: js "files" :: ms).map p.encodeURIComponent))
        requestUrl forwardUrl = some ([slash].intercalate ms) := by
  have hcoded := encodable_coded hp hms
  have hplain := address_plain hp hcoded (by simp) false
  have hstrip := strip_join (coded_named hcoded) (by simp) false
  rw [if_neg (by decide), List.append_nil] at hplain hstrip
  have hns := congrArg (List.splitOn slash) hstrip
  rw [split_join (coded_named hcoded) (by simp)] at hns
  have hshaped := (encodable_browserShaped hms).mpr ⟨rfl, rfl, rfl⟩
  unfold reaches
  rw [resolve_address hreq hplain, front_inner hp ho hn (plain_all hplain) mode hns, if_pos hshaped, ← horigin]
  have hencodable : Encodable p ms := fun s hs => hms s (by simp only [List.mem_cons, hs, or_true])
  exact forwarded_arrives hp ho hn hforward hencodable

theorem reaches_iff (hp : Standard p) (ho : isValidUsername owner = true) (hn : isValidVolumeName name = true)
    (hpath : isValidInnerPath path = true) (hreq : Requests p requestUrl request)
    (hforward : Requests p forwardUrl forward) (horigin : forward.origin = request.origin) {isCollection : Bool}
    {href : JsString} (h : advertised p mode owner name path isCollection = some href) :
    reaches p mode owner name href requestUrl forwardUrl = some path ↔ ¬ Mistaken mode owner name path := by
  have hall := (Option.ite_none_right_eq_some.mp h).1
  have hshown := shown_encodable mode hp ho hn hpath hall
  have hjoin : [slash].intercalate (names path) = path := by
    by_cases hne : path = []
    · rw [hne]
      rfl
    · rw [names_of_ne hne, List.intercalate_splitOn]
  have hnamed : Named (names path) := by
    by_cases hne : path = []
    · rw [hne]
      simp [Named]
    · intro s hs
      have hslash := slash_notMem_segments path s (by rwa [names_of_ne hne] at hs)
      exact ⟨(names_encodable hp hpath hall s hs).2.1, hslash⟩
  have hnamed' : Named (arrivedNames mode owner name path) := by
    intro s hs
    have hmem := arrived_subset s hs
    refine ⟨(hshown s hmem).2.1, ?_⟩
    cases mode with
    | root => exact (hnamed s hmem).2
    | base =>
      simp only [shownNames, List.mem_cons] at hmem
      rcases hmem with rfl | rfl | hmem
      · exact plain_slash (username_plain ho)
      · exact plain_slash (volumeName_plain hn)
      · exact (hnamed s hmem).2
  rw [reaches_advertised hp ho hn hpath hreq hforward horigin h, Option.some.injEq, ← arrived_iff]
  constructor
  · intro heq
    exact join_injective hnamed' hnamed (heq.trans hjoin.symm)
  · intro heq
    rw [heq, hjoin]

end Trip

/-- Which addresses lead back to their path, and which destinations of another volume are turned away. -/
theorem destinations_arrive {p : Platform} (hp : Standard p) {requestUrl forwardUrl : JsString} {request forward : Url}
    (hreq : Requests p requestUrl request) (hforward : Requests p forwardUrl forward)
    (horigin : forward.origin = request.origin) (mode : HrefPrefixMode) {owner name : JsString}
    (ho : isValidUsername owner = true) (hn : isValidVolumeName name = true) :
    (∀ path isCollection href, isValidInnerPath path = true → advertised p mode owner name path isCollection = some href →
      (reaches p mode owner name href requestUrl forwardUrl = some path ↔ ¬ Mistaken mode owner name path)) ∧
    (∀ header d, header ≠ [] → p.url header (some requestUrl) = some d → NamesOther p owner name d.pathname →
      ((∃ failure, resolveDestination p (some header) requestUrl (pathBaseOf owner name) mode = .error failure) ↔
        (rawPathOf header).any (hasDotSegment p) = true ∨ hasDotSegment p d.pathname = true ∨ d.origin ≠ request.origin ∨
          mode = .base ∧ ¬ BrowserShaped ((stripSlashes d.pathname).splitOn slash))) :=
  ⟨fun _ _ _ hpath h => reaches_iff hp ho hn hpath hreq hforward horigin h,
    fun _ _ hheader hd hother => other_rejected hp ho hn hreq.self hheader hd hother⟩

/-! ### A platform that keeps what is documented -/

/-- A platform with one host, whose URLs are plain ASCII. -/
def asciiPlatform : Platform where
  toLowerCase := fun s => s.map asciiLower
  toUpperCase := fun s => s
  encodeURIComponent := fun s => (encodeURIComponent s).getD s
  decodeURIComponent := decodeURIComponent
  url := fun s base =>
    if s.all isAscii then
      if js "http://h" <+: s then some ⟨js "http://h", s.drop 8⟩ else base.map (fun _ => ⟨js "http://h", s⟩)
    else none

theorem ascii_standard : Standard asciiPlatform where
  encode := fun s t h => by simp [asciiPlatform, h]
  decode := fun _ => rfl
  lower := fun _ _ => rfl
  lowerPrefix := fun s t _ => by
    change s.map asciiLower <+: (s ++ t).map asciiLower
    rw [List.map_append]
    exact List.prefix_append _ _
  asciiPath := fun s base u h => by
    simp only [asciiPlatform] at h
    obtain ⟨hall, h⟩ := Option.ite_none_right_eq_some.mp h
    split at h
    · rw [← Option.some.inj h]
      rw [List.all_eq_true] at hall ⊢
      exact fun c hc => hall c (List.mem_of_mem_drop hc)
    · obtain ⟨b, -, rfl⟩ := Option.map_eq_some_iff.mp h
      exact hall

theorem ascii_requests {path : JsString} (hpath : PlainPath asciiPlatform path) :
    Requests asciiPlatform (js "http://h" ++ path) ⟨js "http://h", path⟩ := by
  have hhost : (js "http://h").all isAscii = true := by decide
  have hno {t : JsString} (ht : PlainPath asciiPlatform t) : ¬ js "http://h" <+: t := by
    rintro ⟨u, rfl⟩
    have habsolute := ht.absolute
    rw [List.head?_append_of_ne_nil _ (by decide)] at habsolute
    exact absurd habsolute (by decide)
  have hfull {t : JsString} (ht : PlainPath asciiPlatform t) (base : Option JsString) :
      asciiPlatform.url (js "http://h" ++ t) base = some ⟨js "http://h", t⟩ := by
    simp only [asciiPlatform, List.all_append, hhost, plain_all ht, Bool.and_self, if_true]
    rw [if_pos (List.prefix_append _ _)]
    rfl
  refine ⟨hfull hpath none, ⟨js "h", by decide, by decide, .inl rfl⟩, ?_, fun t ht => hfull ht _⟩
  intro t ht
  simp only [asciiPlatform, plain_all ht, if_true, if_neg (hno ht)]
  rfl

def fileUrl : JsString := js "http://h/alice/v/s"

theorem file_requests : Requests asciiPlatform fileUrl ⟨js "http://h", js "/alice/v/s"⟩ := by
  have hnames : Encodable asciiPlatform [js "s"] :=
    List.forall_mem_singleton.mpr ⟨by decide, by decide, by decide, by decide⟩
  have hshown : Encodable asciiPlatform [js "alice", js "v", js "s"] :=
    base_encodable ascii_standard (by decide) (by decide) hnames
  have hplain := address_plain ascii_standard (encodable_coded ascii_standard hshown) (by decide) false
  have haddress : (slash :: ([slash].intercalate ([js "alice", js "v", js "s"].map asciiPlatform.encodeURIComponent) ++
      if false then [slash] else [])) = js "/alice/v/s" := by decide
  rw [haddress] at hplain
  exact ascii_requests hplain

theorem root_address_arrives :
    reaches asciiPlatform .root (js "alice") (js "v") (js "/docs/a") fileUrl fileUrl = some (js "docs/a") ∧
    ∃ failure, resolveDestination asciiPlatform (some (js "/bob/w/a")) fileUrl (pathBaseOf (js "alice") (js "v")) .base =
      .error failure := by
  have ho : isValidUsername (js "alice") = true := by decide
  have hn : isValidVolumeName (js "v") = true := by decide
  have hadvertised : advertised asciiPlatform .root (js "alice") (js "v") (js "docs/a") false = some (js "/docs/a") := by
    decide
  have hother : NamesOther asciiPlatform (js "alice") (js "v") (js "/bob/w/a") :=
    ⟨js "bob", js "w", by decide, by decide⟩
  have hurl : asciiPlatform.url (js "/bob/w/a") (some fileUrl) = some ⟨js "http://h", js "/bob/w/a"⟩ := by
    simp only [asciiPlatform]
    rw [if_pos (by decide), if_neg (by decide)]
    rfl
  have hroot := destinations_arrive ascii_standard file_requests file_requests rfl .root ho hn
  have hbase := destinations_arrive ascii_standard file_requests file_requests rfl .base ho hn
  constructor
  · exact (hroot.1 _ _ _ (by decide) hadvertised).mpr (by decide)
  · exact (hbase.2 _ _ (by decide) hurl hother).mpr (.inr (.inr (.inr ⟨rfl, by decide⟩)))

/-- The address of `alice/v/x` in a volume shown at the root leads to `x`, and one of the browser plane leads into
this volume though it names another one. -/
theorem shapes_are_confused :
    (advertised asciiPlatform .root (js "alice") (js "v") (js "alice/v/x") false = some (js "/alice/v/x") ∧
      reaches asciiPlatform .root (js "alice") (js "v") (js "/alice/v/x") fileUrl fileUrl = some (js "x")) ∧
    NamesOther asciiPlatform (js "alice") (js "v") (js "/user/volumes/bob/w/files/x") ∧
      reaches asciiPlatform .base (js "alice") (js "v") (js "/user/volumes/bob/w/files/x") fileUrl fileUrl =
        some (js "x") := by
  have hadvertised : advertised asciiPlatform .root (js "alice") (js "v") (js "alice/v/x") false =
      some (js "/alice/v/x") := by decide
  have hnames : Encodable asciiPlatform [js "user", js "volumes", js "bob", js "w", js "files", js "x"] := by
    simp only [Encodable, List.forall_mem_cons]
    decide
  refine ⟨⟨hadvertised, ?_⟩, ⟨js "bob", js "w", by decide, by decide⟩, ?_⟩
  · have harrived : [slash].intercalate (arrivedNames .root (js "alice") (js "v") (js "alice/v/x")) = js "x" := by decide
    rw [← harrived]
    exact reaches_advertised ascii_standard (by decide) (by decide) (by decide) file_requests file_requests rfl hadvertised
  · have haddress : slash :: [slash].intercalate
        ([js "user", js "volumes", js "bob", js "w", js "files", js "x"].map asciiPlatform.encodeURIComponent) =
          js "/user/volumes/bob/w/files/x" := by decide
    rw [← haddress]
    exact browser_address_arrives ascii_standard (by decide) (by decide) file_requests file_requests rfl hnames

end DurableDav.Front
