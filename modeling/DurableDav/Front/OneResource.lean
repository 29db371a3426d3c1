import DurableDav.Front.RoundTrip
import DurableDav.Library.Joined
import Mathlib.Data.List.Flatten

namespace DurableDav.Front

open Library
open Dav (Platform Url decodeSegments resolveInnerPath parseDestinationPath stripBase decodeResourcePath)
open Replication (isValidInnerPath maxPathDepth slash_notMem_segments)

/-! ### Names that are stored -/

/-- Names of a path that the volume accepts. -/
def Storable (ns : List JsString) : Prop := ns.length ≤ maxPathDepth ∧ ∀ s ∈ ns, s ≠ [] ∧ s ≠ js "." ∧ s ≠ js ".."

instance (ns : List JsString) : Decidable (Storable ns) := inferInstanceAs (Decidable (_ ∧ _))

section Storable

variable {f : JsString → JsString} {ns ms : List JsString}

theorem Storable.of_sublist (h : Storable ns) (hsub : ms.Sublist ns) : Storable ms :=
  ⟨hsub.length_le.trans h.1, fun s hs => h.2 s (hsub.subset hs)⟩

theorem storable_join (hempty : [slash].intercalate (ns.map f) = [] → ns = []) :
    isValidInnerPath ([slash].intercalate (ns.map f)) = true ↔ Storable (ns.flatMap fun s => (f s).splitOn slash) := by
  by_cases hns : ns = []
  · subst hns
    simp [isValidInnerPath, Storable]
  · have hne : [slash].intercalate (ns.map f) ≠ [] := fun h => hns (hempty h)
    simp only [isValidInnerPath, Storable, splitOn_join_map hns, hne, false_or, decide_eq_true_eq]

theorem split_length (f : JsString → JsString) (ns : List JsString) :
    ns.length ≤ (ns.flatMap fun s => (f s).splitOn slash).length := by
  induction ns with
  | nil => exact le_refl 0
  | cons s ns ih =>
    have hpos : 0 < ((f s).splitOn slash).length := List.length_pos_of_ne_nil (List.splitOn_ne_nil slash (f s))
    simp only [List.flatMap_cons, List.length_cons, List.length_append]
    omega

theorem split_plain (h : ∀ s ∈ ns, f s = s ∧ slash ∉ s) : (ns.flatMap fun s => (f s).splitOn slash) = ns := by
  induction ns with
  | nil => rfl
  | cons s ns ih =>
    obtain ⟨⟨hs, hslash⟩, hns⟩ := List.forall_mem_cons.mp h
    rw [List.flatMap_cons, ih hns, hs, List.splitOn_eq_singleton hslash]
    rfl

end Storable

/-! ### Two ways of reading an address -/

section Reading

variable (p : Platform)

/-- No escape of the names is malformed. -/
def Readable (ns : List JsString) : Prop := ∀ s ∈ ns, (p.decodeURIComponent s).isSome = true

instance (ns : List JsString) : Decidable (Readable p ns) := inferInstanceAs (Decidable (∀ s ∈ ns, _))

/-- The names of a destination, each of them read for itself. -/
def readNames (ns : List JsString) : List JsString := ns.flatMap fun s => (decodeName p s).splitOn slash

/-- The names of a request: nothing empty stands in front, and one malformed escape keeps all of them as they are. -/
def requestNames (ns : List JsString) : List JsString :=
  if Readable p (ns.dropWhile (fun s => s = [])) then readNames p (ns.dropWhile (fun s => s = []))
  else ns.dropWhile (fun s => s = [])

def requestPath (ns : List JsString) : JsString :=
  if Readable p (ns.dropWhile (fun s => s = [])) then
    [slash].intercalate ((ns.dropWhile (fun s => s = [])).map (decodeName p))
  else [slash].intercalate (ns.dropWhile (fun s => s = []))

/-- The path the volume works on when the URL is requested. -/
def requested (owner name url : JsString) : Option JsString := do
  let inner ← innerPathOf p url
  let address ← p.url url none
  (resolveInnerPath p (some inner) address.pathname (pathBaseOf owner name)).filter (isValidInnerPath ·)

/-- The path the volume works on when the text is the `Destination` of a request. -/
def destined (mode : HrefPrefixMode) (owner name header requestUrl : JsString) : Option JsString :=
  (reaches p mode owner name header requestUrl requestUrl).filter (isValidInnerPath ·)

/-- The path of a URL has the shape of one below a volume. -/
def BelowVolume (pathname : JsString) : Prop :=
  ∃ o n rest, pathname.splitOn slash = [] :: o :: n :: rest ∧ o ≠ [] ∧ n ≠ []

/-- What stands between two slashes of some URL's path. -/
def Taken (origin s : JsString) : Prop :=
  ∃ text base path, p.url text base = some ⟨origin, slash :: path⟩ ∧ s ∈ path.splitOn slash

/-- What is documented of the URLs of one origin: the parser takes a path by its segments, leaves those alone that
it has put out itself, and puts out none that stands for a dot segment. -/
structure Parsing (requestUrl : JsString) (request : Url) : Prop where
  self : p.url requestUrl none = some request
  kept : ∀ ns, ns ≠ [] → (∀ s ∈ ns, Taken p request.origin s) → ∀ base,
    p.url (request.origin ++ slash :: [slash].intercalate ns) base = some ⟨request.origin, slash :: [slash].intercalate ns⟩
  plain : ∀ s, Plain s → s ≠ js "." → s ≠ js ".." → Taken p request.origin s
  undotted : ∀ s, Taken p request.origin s → decodeName p s ≠ js "." ∧ decodeName p s ≠ js ".."

/-- The names of an address say the same in a request and in a `Destination`. -/
def OneResource (owner name : JsString) (dotted : Bool) (ns : List JsString) : Prop :=
  (dotted = false ∧ BaseShaped owner name ns ∧ ¬ BrowserShaped ns ∧ (ns.drop 2).head? ≠ some [] ∧
    (Readable p (ns.drop 2) ∨ ∀ s ∈ ns.drop 2, decodeName p s = s)) ∨
  (¬ Storable (requestNames p (ns.drop 2)) ∧
    (dotted = false → BrowserShaped ns → ¬ Storable (readNames p (ns.drop 5))))

instance (owner name : JsString) (dotted : Bool) (ns : List JsString) : Decidable (OneResource p owner name dotted ns) :=
  inferInstanceAs (Decidable (_ ∨ _))

/-- The names that the front door leaves of a destination's. -/
def destinationNames (mode : HrefPrefixMode) (owner name : JsString) (ns : List JsString) : Option (List JsString) :=
  if BrowserShaped ns then some (ns.drop 5)
  else if BaseShaped owner name ns then some (ns.drop 2)
  else if mode = .root then some ns else none

end Reading

section Names

variable {p : Platform} {ns ms : List JsString}

theorem decodeName_length (hp : Standard p) (s : JsString) :
    decodeName p s = s ∨ (decodeName p s).length < s.length := by
  unfold decodeName
  rw [hp.decode]
  cases h : decodeURIComponent s with
  | none => exact .inl rfl
  | some t => exact decode_length h

theorem decodeName_le (hp : Standard p) (s : JsString) : (decodeName p s).length ≤ s.length := by
  rcases decodeName_length hp s with h | h
  · rw [h]
  · exact h.le

theorem decodeName_eq_nil (hp : Standard p) {s : JsString} (h : decodeName p s = []) : s = [] := by
  unfold decodeName at h
  rw [hp.decode] at h
  cases hs : decodeURIComponent s with
  | none =>
    rw [hs] at h
    exact h
  | some t =>
    rw [hs] at h
    exact decode_eq_nil (hs.trans (congrArg some h))

theorem mapM_decode (ns : List JsString) :
    ns.mapM p.decodeURIComponent = if Readable p ns then some (ns.map (decodeName p)) else none := by
  induction ns with
  | nil => rfl
  | cons s ns ih =>
    rw [List.mapM_cons, ih]
    cases hs : p.decodeURIComponent s with
    | none =>
      have hno : ¬ Readable p (s :: ns) := fun h => absurd (h s List.mem_cons_self) (by simp [hs])
      rw [if_neg hno]
      rfl
    | some t =>
      have hiff : Readable p (s :: ns) ↔ Readable p ns := by simp [Readable, hs]
      by_cases hns : Readable p ns
      · rw [if_pos hns, if_pos (hiff.mpr hns)]
        simp [decodeName, hs]
      · rw [if_neg hns, if_neg (fun h => hns (hiff.mp h))]
        rfl

theorem decodeSegments_join (hp : Standard p) (hslash : ∀ s ∈ ns, slash ∉ s) :
    decodeSegments p ([slash].intercalate ns) =
      if Readable p ns then [slash].intercalate (ns.map (decodeName p)) else [slash].intercalate ns := by
  unfold decodeSegments
  rw [splitOn_join hslash]
  by_cases hns : ns = []
  · subst hns
    have hnil : p.decodeURIComponent [] = some [] := by
      rw [hp.decode]
      rfl
    have hread : Readable p ([] : List JsString) := by simp [Readable]
    rw [if_pos rfl, if_pos hread, List.mapM_cons, hnil]
    rfl
  · rw [if_neg hns, mapM_decode]
    by_cases hread : Readable p ns
    · rw [if_pos hread, if_pos hread]
      rfl
    · rw [if_neg hread, if_neg hread]
      rfl

/-- A path is empty only if no name is left of it. -/
theorem decoded_empty (hp : Standard p) (hlast : ns.getLast? ≠ some [])
    (h : [slash].intercalate (ns.map (decodeName p)) = []) : ns = [] := by
  rcases join_eq_nil.mp h with h | h
  · exact List.map_eq_nil_iff.mp h
  · obtain ⟨s, rfl, hs⟩ := List.map_eq_singleton_iff.mp h
    rw [decodeName_eq_nil hp hs] at hlast
    exact absurd rfl hlast

end Names

/-! ### The names of an address -/

section Address

variable {p : Platform} {mode : HrefPrefixMode} {owner name o n requestUrl : JsString} {rest : List JsString}
  {request : Url}

theorem closed_cons (hn : n ≠ []) {ns : List JsString} (h : ns.getLast? ≠ some []) : (o :: n :: ns).getLast? ≠ some [] := by
  cases ns with
  | nil => simpa using hn
  | cons s ns => simpa using h

theorem closed_drop {ns : List JsString} (h : ns.getLast? ≠ some []) (k : ℕ) : (ns.drop k).getLast? ≠ some [] := by
  rw [List.getLast?_drop]
  split
  · simp
  · exact h

/-- The names of an address: only what is empty at its end is left out. -/
theorem strip_address (ho : o ≠ []) (hn : n ≠ []) (h : ∀ s ∈ o :: n :: rest, slash ∉ s) :
    (stripSlashes (slash :: [slash].intercalate (o :: n :: rest))).splitOn slash =
      o :: n :: rest.rdropWhile (fun s => s = []) := by
  have hjoin : slash :: [slash].intercalate (o :: n :: rest) = [slash].intercalate ([] :: o :: n :: rest) :=
    (join_cons [] (by simp)).symm
  have hnil : ∀ s ∈ [] :: o :: n :: rest, slash ∉ s := List.forall_mem_cons.mpr ⟨by simp, h⟩
  have htrimmed : trimmed ([] :: o :: n :: rest) = o :: n :: rest.rdropWhile (fun s => s = []) := by
    have hinner : (n :: rest).rdropWhile (fun s => s = []) = n :: rest.rdropWhile (fun s => s = []) := by
      rw [rdropWhile_cons, if_neg (by simp [hn])]
    unfold trimmed
    rw [List.dropWhile_cons_of_pos (by simp), List.dropWhile_cons_of_neg (by simpa using ho), rdropWhile_cons,
      if_neg (by simp [ho]), hinner]
  have hsub : ∀ s ∈ o :: n :: rest.rdropWhile (fun s => s = []), slash ∉ s := by
    intro s hs
    apply h s
    simp only [List.mem_cons] at hs ⊢
    exact hs.imp id (Or.imp id fun hs => (List.rdropWhile_prefix _ _).subset hs)
  rw [hjoin, stripSlashes_join hnil, htrimmed, splitOn_join hsub, if_neg (by simp)]

theorem closed_dropWhile {ns : List JsString} (h : ns.getLast? ≠ some []) :
    (ns.dropWhile (fun s => s = [])).getLast? ≠ some [] := by
  obtain ⟨t, ht⟩ := List.dropWhile_suffix (l := ns) (fun s => decide (s = []))
  intro hlast
  apply h
  rw [← ht, List.getLast?_append_of_ne_nil]
  · exact hlast
  · intro hnil
    rw [hnil] at hlast
    simp at hlast

theorem requestPath_valid (hp : Standard p) {ns : List JsString} (hslash : ∀ s ∈ ns, slash ∉ s)
    (hlast : ns.getLast? ≠ some []) : isValidInnerPath (requestPath p ns) = true ↔ Storable (requestNames p ns) := by
  have hclosed := closed_dropWhile hlast
  have hrest : ∀ s ∈ ns.dropWhile (fun s => s = []), slash ∉ s := fun s hs => hslash s ((List.dropWhile_suffix _).subset hs)
  unfold requestPath requestNames
  generalize ns.dropWhile (fun s => s = []) = ms at *
  split
  · exact storable_join (decoded_empty hp hclosed)
  · have hempty : [slash].intercalate (ms.map id) = [] → ms = [] := by
      intro h
      rw [List.map_id] at h
      rcases join_eq_nil.mp h with h | h
      · exact h
      · rw [h] at hclosed
        exact absurd rfl hclosed
    have hjoin := storable_join hempty
    rw [List.map_id, split_plain (f := id) fun s hs => ⟨rfl, hrest s hs⟩] at hjoin
    exact hjoin

theorem requested_eq (hp : Standard p) {url origin pathname : JsString} (hurl : p.url url none = some ⟨origin, pathname⟩)
    (hsplit : pathname.splitOn slash = [] :: o :: n :: rest) :
    requested p owner name url = if Storable (requestNames p (rest.rdropWhile (fun s => s = []))) then
      some (requestPath p (rest.rdropWhile (fun s => s = []))) else none := by
  have hslash : ∀ s ∈ rest, slash ∉ s := by
    intro s hs
    apply slash_notMem_segments pathname s
    rw [hsplit]
    simp [hs]
  have htrimmed : trimmed rest = (rest.rdropWhile (fun s => s = [])).dropWhile (fun s => s = []) :=
    dropWhile_rdropWhile _ rest
  have hsub : ∀ s ∈ trimmed rest, slash ∉ s := fun s hs =>
    hslash s ((List.dropWhile_suffix _).subset ((List.rdropWhile_prefix _ _).subset hs))
  have hinner : innerPathOf p url = some ([slash].intercalate (trimmed rest)) := by
    unfold innerPathOf
    rw [hurl, Option.map_some, hsplit]
    exact congrArg some (stripSlashes_join hslash)
  have hdecode : decodeSegments p (stripSlashes ([slash].intercalate (trimmed rest))) =
      requestPath p (rest.rdropWhile (fun s => s = [])) := by
    rw [stripSlashes_join hsub, trimmed_trimmed, decodeSegments_join hp hsub, htrimmed]
    rfl
  have hvalid := requestPath_valid hp (fun s hs => hslash s ((List.rdropWhile_prefix _ _).subset hs)) (rdropWhile_getLast rest)
  unfold requested
  rw [hinner, hurl]
  simp only [Option.bind_eq_bind, Option.bind_some, resolveInnerPath, hdecode, Option.filter_some, hvalid]

/-! ### The names of a destination -/

theorem decode_names {ns : List JsString} (hne : ns ≠ []) (hslash : ∀ s ∈ ns, slash ∉ s) (hlast : ns.getLast? ≠ some [])
    (trailing : Bool) :
    decodeResourcePath p (slash :: ([slash].intercalate ns ++ if trailing then [slash] else [])) =
      [slash].intercalate (ns.map (decodeName p)) := by
  have hjoin : [slash].intercalate ns ≠ [] := by
    intro h
    rcases join_eq_nil.mp h with h | h
    · exact hne h
    · rw [h] at hlast
      exact hlast rfl
  have hbare : (if ([slash].intercalate ns ++ if trailing then [slash] else []).getLast? = some slash then
      ([slash].intercalate ns ++ if trailing then [slash] else []).dropLast
      else [slash].intercalate ns ++ if trailing then [slash] else []) = [slash].intercalate ns := by
    cases trailing with
    | false => simp [join_getLast hslash hlast]
    | true => simp
  unfold decodeResourcePath
  simp only [List.drop_succ_cons, List.drop_zero, hbare, if_neg hjoin, splitOn_join hslash, if_neg hne]
  rfl

theorem taken_slash {origin s : JsString} (h : Taken p origin s) : slash ∉ s := by
  obtain ⟨text, base, path, -, hs⟩ := h
  exact slash_notMem_segments path s hs

theorem forwarded_names (hp : Standard p) (ho : isValidUsername owner = true) (hn : isValidVolumeName name = true)
    (hparse : Parsing p requestUrl request) {ns : List JsString} (htaken : ∀ s ∈ ns, Taken p request.origin s)
    (hlast : ns.getLast? ≠ some []) :
    (parseDestinationPath p (request.origin ++ pathBaseOf owner name ++ slash :: [slash].intercalate ns) requestUrl).bind
      (fun full => stripBase p full (pathBaseOf owner name)) = some ([slash].intercalate (ns.map (decodeName p))) := by
  have hotaken := hparse.plain owner (username_plain ho) (username_segment ho).2.1 (username_segment ho).2.2
  have hntaken := hparse.plain name (volumeName_plain hn) (volumeName_segment hn).2.1 (volumeName_segment hn).2.2
  have hall : ∀ s ∈ owner :: name :: ns, Taken p request.origin s :=
    List.forall_mem_cons.mpr ⟨hotaken, List.forall_mem_cons.mpr ⟨hntaken, htaken⟩⟩
  have hpath : pathBaseOf owner name ++ slash :: [slash].intercalate ns =
      slash :: ([slash].intercalate (owner :: name :: ns) ++ if decide (ns = []) then [slash] else []) := by
    cases ns with
    | nil => simp [pathBaseOf, List.intercalate_cons_cons]
    | cons s ns => simp [pathBaseOf, List.intercalate_cons_cons]
  have hkept : p.url (request.origin ++ (slash :: ([slash].intercalate (owner :: name :: ns) ++
      if decide (ns = []) then [slash] else []))) (some requestUrl) =
        some ⟨request.origin, slash :: ([slash].intercalate (owner :: name :: ns) ++
          if decide (ns = []) then [slash] else [])⟩ := by
    by_cases hnil : ns = []
    · subst hnil
      have hempty := hparse.plain [] (by simp [Plain]) (by decide) (by decide)
      have hkept := hparse.kept [owner, name, []] (by simp)
        (by simpa using ⟨hotaken, hntaken, hempty⟩) (some requestUrl)
      simpa [List.intercalate_cons_cons] using hkept
    · simpa [hnil] using hparse.kept _ (by simp) hall (some requestUrl)
  have hdecoded (s : JsString) (hs : Plain s) : decodeName p s = s := by
    unfold decodeName
    rw [hp.decode, plain_decode hs]
    rfl
  rw [List.append_assoc, hpath]
  unfold parseDestinationPath
  simp only [hkept, hparse.self, Option.bind_eq_bind, Option.bind_some, if_true]
  rw [decode_names (by simp) (fun s hs => taken_slash (hall s hs)) (closed_cons (volumeName_segment hn).1 hlast),
    List.map_cons, List.map_cons, hdecoded owner (username_plain ho), hdecoded name (volumeName_plain hn),
    stripBase_join hp ho hn]

theorem destinationNames_drop {ns ms : List JsString} (h : destinationNames mode owner name ns = some ms) :
    ∃ k, ms = ns.drop k := by
  unfold destinationNames at h
  split at h
  · exact ⟨5, (Option.some.inj h).symm⟩
  · split at h
    · exact ⟨2, (Option.some.inj h).symm⟩
    · exact ⟨0, (Option.some.inj (Option.ite_none_right_eq_some.mp h).2).symm⟩

theorem destined_eq (hp : Standard p) (ho : isValidUsername owner = true) (hn : isValidVolumeName name = true)
    (hparse : Parsing p requestUrl request) {header pathname : JsString} {ns : List JsString} (hheader : header ≠ [])
    (hurl : p.url header (some requestUrl) = some ⟨request.origin, slash :: pathname⟩)
    (hns : (stripSlashes (slash :: pathname)).splitOn slash = ns) (hsub : ∀ s ∈ ns, s ∈ pathname.splitOn slash)
    (hlast : ns.getLast? ≠ some []) :
    destined p mode owner name header requestUrl =
      if (rawPathOf header).any (hasDotSegment p) = true then none
      else (destinationNames mode owner name ns).bind fun ms =>
        if Storable (readNames p ms) then some ([slash].intercalate (ms.map (decodeName p))) else none := by
  have htaken : ∀ s ∈ pathname.splitOn slash, Taken p request.origin s := fun s hs => ⟨header, _, pathname, hurl, hs⟩
  have hdot : hasDotSegment p (slash :: pathname) = false := by
    have hsplit : (slash :: pathname).splitOn slash = [] :: pathname.splitOn slash := splitOn_slash List.not_mem_nil pathname
    unfold hasDotSegment
    rw [hsplit, List.any_cons, decodeName_nil hp, Bool.or_eq_false_iff, List.any_eq_false]
    refine ⟨by decide, ?_⟩
    intro s hs
    obtain ⟨hone, htwo⟩ := hparse.undotted s (htaken s hs)
    simp [hone, htwo]
  have hinner := front_inner hp ho hn (hp.asciiPath _ _ _ hurl) mode hns
  unfold destined reaches
  simp only [resolveDestination, if_neg hheader, hurl, hparse.self, hdot, hinner]
  by_cases hraw : (rawPathOf header).any (hasDotSegment p) = true
  · simp [hraw]
  · have hreached {ms : List JsString} (hms : destinationNames mode owner name ns = some ms) :
        (parseDestinationPath p (request.origin ++ pathBaseOf owner name ++ slash :: [slash].intercalate ms) requestUrl).bind
          (fun full => stripBase p full (pathBaseOf owner name)) = some ([slash].intercalate (ms.map (decodeName p))) ∧
        (isValidInnerPath ([slash].intercalate (ms.map (decodeName p))) = true ↔ Storable (readNames p ms)) := by
      obtain ⟨k, rfl⟩ := destinationNames_drop hms
      have hclosed := closed_drop hlast k
      exact ⟨forwarded_names hp ho hn hparse (fun s hs => htaken s (hsub s (List.mem_of_mem_drop hs))) hclosed,
        storable_join (decoded_empty hp hclosed)⟩
    unfold destinationNames at hreached ⊢
    simp only [hraw, ne_eq, not_true_eq_false, Bool.false_eq_true, ↓reduceIte]
    by_cases hbrowser : BrowserShaped ns
    · obtain ⟨hpath, hvalid⟩ := hreached (if_pos hbrowser)
      simp only [hbrowser, ↓reduceIte, hpath, hvalid, Option.filter_some, Option.bind_some]
    · rw [if_neg hbrowser] at hreached
      by_cases hbase : BaseShaped owner name ns
      · obtain ⟨hpath, hvalid⟩ := hreached (if_pos hbase)
        simp only [hbrowser, hbase, ↓reduceIte, hpath, hvalid, Option.filter_some, Option.bind_some]
      · rw [if_neg hbase] at hreached
        by_cases hroot : mode = .root
        · obtain ⟨hpath, hvalid⟩ := hreached (if_pos hroot)
          subst hroot
          simp only [hbrowser, hbase, ↓reduceIte, hpath, hvalid, Option.filter_some, Option.bind_some]
        · simp [hbrowser, hbase, hroot]

end Address

/-! ### The two readings compared -/

section Compare

variable {p : Platform} {o n : JsString} {ns ms : List JsString}

theorem readNames_sublist (h : ms.Sublist ns) : (readNames p ms).Sublist (readNames p ns) := h.flatMap _

/-- What the volume accepts of a destination it accepts of a request for fewer of the names. -/
theorem requestNames_storable (hp : Standard p) (hundotted : ∀ s ∈ ms, decodeName p s ≠ js "." ∧ decodeName p s ≠ js "..")
    (hsub : ms.Sublist ns) (h : Storable (readNames p ns)) : Storable (requestNames p ms) := by
  have hrest : (ms.dropWhile (fun s => s = [])).Sublist ms := (List.dropWhile_suffix _).sublist
  unfold requestNames
  split
  · exact h.of_sublist (readNames_sublist (hrest.trans hsub))
  · have hread := h.of_sublist (readNames_sublist (hrest.trans hsub))
    refine ⟨(split_length (decodeName p) _).trans hread.1, ?_⟩
    intro s hs
    obtain ⟨hone, htwo⟩ := hundotted s (hrest.subset hs)
    have hdot {t : JsString} (ht : Plain t) : decodeName p t = t := by
      unfold decodeName
      rw [hp.decode, plain_decode ht]
      rfl
    refine ⟨?_, ?_, ?_⟩
    · rintro rfl
      have hmem : [] ∈ readNames p (ms.dropWhile (fun s => s = [])) := by
        refine List.mem_flatMap.mpr ⟨[], hs, ?_⟩
        rw [decodeName_nil hp]
        simp
      exact (hread.2 [] hmem).1 rfl
    · rintro rfl
      exact hone (hdot (plain_of_all (by decide)))
    · rintro rfl
      exact htwo (hdot (plain_of_all (by decide)))

theorem requestPath_length (hp : Standard p) (ns : List JsString) :
    ([slash].intercalate ((ns.dropWhile (fun s => s = [])).map (decodeName p))).length ≤ (requestPath p ns).length := by
  unfold requestPath
  split
  · exact le_refl _
  · exact (join_length_map fun s _ => decodeName_le hp s).1

/-- A path of the browser plane is read from further inside. -/
theorem browser_shorter (hp : Standard p) (h : BrowserShaped (o :: n :: ns)) :
    ([slash].intercalate (((o :: n :: ns).drop 5).map (decodeName p))).length < (requestPath p ns).length := by
  obtain ⟨-, -, hfiles⟩ := h
  rcases ns with _ | ⟨a, _ | ⟨b, _ | ⟨c, ns⟩⟩⟩
  · simp at hfiles
  · simp at hfiles
  · simp at hfiles
  · obtain rfl : c = js "files" := by simpa using hfiles
    have hsuffix : js "files" :: ns <:+ (a :: b :: js "files" :: ns).dropWhile (fun s => s = []) := by
      have hkept : (js "files" :: ns).dropWhile (fun s => s = []) = js "files" :: ns :=
        List.dropWhile_cons_of_neg (by decide)
      by_cases ha : a = []
      · rw [List.dropWhile_cons_of_pos (by simpa using ha)]
        by_cases hb : b = []
        · rw [List.dropWhile_cons_of_pos (by simpa using hb), hkept]
        · rw [List.dropWhile_cons_of_neg (by simpa using hb)]
          exact List.suffix_cons _ _
      · rw [List.dropWhile_cons_of_neg (by simpa using ha)]
        exact ⟨[a, b], rfl⟩
    have hfixed : decodeName p (js "files") = js "files" := by
      unfold decodeName
      rw [hp.decode, plain_decode (plain_of_all (by decide))]
      rfl
    have hlength := @join_length_suffix _ slash _ _ (hsuffix.map (decodeName p))
    have hcons := @join_length_cons _ slash (js "files") (ns.map (decodeName p))
    have hfive : (js "files").length = 5 := by decide
    have hpath := hlength.trans (requestPath_length hp (a :: b :: js "files" :: ns))
    rw [List.map_cons, hfixed] at hpath
    simp only [List.drop_succ_cons, List.drop_zero]
    omega

/-- A destination that keeps the names of the volume has more slashes. -/
theorem root_more_slashes (hslash : ∀ s ∈ ns, slash ∉ s) :
    (requestPath p ns).countP (fun c => c = slash) <
      ([slash].intercalate ((o :: n :: ns).map (decodeName p))).countP (fun c => c = slash) := by
  have hsub : (ns.dropWhile (fun s => s = [])).Sublist ns := (List.dropWhile_suffix _).sublist
  have hcount (xs : List JsString) := @join_countP _ slash xs (fun c => c = slash) (by simp)
  have hall := hcount ((o :: n :: ns).map (decodeName p)) (by simp)
  simp only [List.map_cons, List.map_map, List.sum_cons, Function.comp_def] at hall
  have hsum := (hsub.map (fun s => (decodeName p s).countP (fun c => c = slash) + 1)).sum_le_sum (by simp)
  unfold requestPath
  generalize ns.dropWhile (fun s => s = []) = ms at hsub hsum ⊢
  by_cases hms : ms = []
  · subst hms
    simp only [List.map_nil, ite_self, List.map_cons]
    simp only [List.intercalate_nil, List.countP_nil]
    omega
  · split
    · have hread := hcount (ms.map (decodeName p)) (by simpa using hms)
      simp only [List.map_map, Function.comp_def] at hread
      simp only [List.map_cons]
      omega
    · have hraw := hcount ms hms
      have hle : (ms.map (fun s => s.countP (fun c => c = slash) + 1)).sum ≤
          (ms.map (fun s => (decodeName p s).countP (fun c => c = slash) + 1)).sum := by
        apply List.sum_le_sum
        intro s hs
        have hzero : s.countP (fun c => c = slash) = 0 := by
          rw [List.countP_eq_zero]
          intro c hc
          simpa using fun (he : c = slash) => hslash s (hsub.subset hs) (he ▸ hc)
        omega
      simp only [List.map_cons]
      omega

/-- Below the volume's base the two readings differ in the empty names in front and in the escapes of the others. -/
theorem base_same_iff (hp : Standard p) (hslash : ∀ s ∈ ns, slash ∉ s)
    (hstored : Storable (requestNames p ns)) :
    some (requestPath p ns) =
        (if Storable (readNames p ns) then some ([slash].intercalate (ns.map (decodeName p))) else none) ↔
      ns.head? ≠ some [] ∧ (Readable p ns ∨ ∀ s ∈ ns, decodeName p s = s) := by
  by_cases hhead : ns.head? = some []
  · obtain ⟨ms, rfl⟩ := List.head?_eq_some_iff.mp hhead
    have hmem : [] ∈ readNames p ([] :: ms) := by
      refine List.mem_flatMap.mpr ⟨[], List.mem_cons_self, ?_⟩
      rw [decodeName_nil hp]
      simp
    have hno : ¬ Storable (readNames p ([] :: ms)) := fun h => (h.2 [] hmem).1 rfl
    simp [hno]
  · have hkept : ns.dropWhile (fun s => s = []) = ns := by
      cases ns with
      | nil => rfl
      | cons s ns => exact List.dropWhile_cons_of_neg (by simpa using hhead)
    unfold requestNames at hstored
    unfold requestPath
    rw [hkept] at hstored ⊢
    by_cases hread : Readable p ns
    · rw [if_pos hread] at hstored ⊢
      simp [hstored, hhead, hread]
    · rw [if_neg hread] at hstored ⊢
      constructor
      · intro heq
        obtain ⟨-, hjoin⟩ := Option.ite_none_right_eq_some.mp heq.symm
        refine ⟨hhead, .inr ?_⟩
        by_contra hchanged
        push Not at hchanged
        have hless := (@join_length_map _ slash _ _ fun s (_ : s ∈ ns) => decodeName_le hp s).2
          (hchanged.imp fun s hs => ⟨hs.1, (decodeName_length hp s).resolve_left hs.2⟩)
        rw [Option.some.inj hjoin] at hless
        exact absurd hless (lt_irrefl _)
      · rintro ⟨-, hfixed⟩
        have hfixed := hfixed.resolve_left hread
        have hnames : readNames p ns = ns := split_plain fun s hs => ⟨hfixed s hs, hslash s hs⟩
        have hmap : ns.map (decodeName p) = ns := (List.map_congr_left hfixed).trans (List.map_id ns)
        rw [hnames, if_pos hstored, hmap]

end Compare

section Same

variable {p : Platform} {mode : HrefPrefixMode} {owner name o n : JsString} {ns : List JsString}

theorem same_iff (hp : Standard p) (hslash : ∀ s ∈ ns, slash ∉ s)
    (hundotted : ∀ s ∈ ns, decodeName p s ≠ js "." ∧ decodeName p s ≠ js "..") (dotted : Bool) :
    (if Storable (requestNames p ns) then some (requestPath p ns) else none) =
        (if dotted = true then none
        else (destinationNames mode owner name (o :: n :: ns)).bind fun ms =>
          if Storable (readNames p ms) then some ([slash].intercalate (ms.map (decodeName p))) else none) ↔
      OneResource p owner name dotted (o :: n :: ns) := by
  have hdrop : (o :: n :: ns).drop 2 = ns := rfl
  have hnever {ms : List JsString} (hsub : ns.Sublist ms) (h : ¬ Storable (requestNames p ns)) :
      ¬ Storable (readNames p ms) := fun hread => h (requestNames_storable hp hundotted hsub hread)
  unfold OneResource destinationNames
  rw [hdrop]
  cases dotted with
  | true => simp
  | false =>
    simp only [Bool.false_eq_true, ↓reduceIte, true_and, forall_const]
    by_cases hbrowser : BrowserShaped (o :: n :: ns)
    · have hshorter := browser_shorter hp hbrowser
      simp only [hbrowser, ↓reduceIte, Option.bind_some, not_true_eq_false, false_and, and_false, false_or, forall_const]
      by_cases hstored : Storable (requestNames p ns)
      · rw [if_pos hstored]
        refine ⟨fun heq => ?_, fun h => absurd hstored h.1⟩
        have hpath := Option.some.inj (Option.ite_none_right_eq_some.mp heq.symm).2
        rw [hpath] at hshorter
        exact absurd hshorter (lt_irrefl _)
      · rw [if_neg hstored]
        simp [hstored]
    · simp only [hbrowser, ↓reduceIte, not_false_eq_true, true_and, false_implies, and_true]
      by_cases hbase : BaseShaped owner name (o :: n :: ns)
      · simp only [hbase, ↓reduceIte, Option.bind_some, true_and]
        by_cases hstored : Storable (requestNames p ns)
        · rw [if_pos hstored, base_same_iff hp hslash hstored]
          simp [hstored]
        · rw [if_neg hstored, if_neg (hnever (List.Sublist.refl ns) hstored)]
          simp [hstored]
      · simp only [hbase, ↓reduceIte, false_and, false_or]
        by_cases hstored : Storable (requestNames p ns)
        · rw [if_pos hstored]
          refine ⟨fun heq => ?_, fun h => absurd hstored h⟩
          by_cases hroot : mode = .root
          · rw [if_pos hroot, Option.bind_some] at heq
            have hpath := Option.some.inj (Option.ite_none_right_eq_some.mp heq.symm).2
            have hmore := root_more_slashes (p := p) (o := o) (n := n) hslash
            rw [hpath] at hmore
            exact absurd hmore (lt_irrefl _)
          · rw [if_neg hroot] at heq
            exact absurd heq (by simp)
        · have hsub : ns.Sublist (o :: n :: ns) := (List.sublist_cons_self n ns).trans (List.sublist_cons_self o _)
          rw [if_neg hstored]
          by_cases hroot : mode = .root
          · simp [hroot, hstored, hnever hsub hstored]
          · simp [hroot, hstored]

end Same

/-- Exactly which addresses mean the same resource in a request and in a `Destination`. -/
theorem one_resource_iff {p : Platform} (hp : Standard p) {requestUrl : JsString} {request : Url}
    (hparse : Parsing p requestUrl request) (mode : HrefPrefixMode) {owner name : JsString}
    (ho : isValidUsername owner = true) (hn : isValidVolumeName name = true) {url header pathname : JsString}
    (hbelow : BelowVolume pathname) (hurl : p.url url none = some ⟨request.origin, pathname⟩) (hheader : header ≠ [])
    (hdestination : p.url header (some requestUrl) = some ⟨request.origin, pathname⟩) :
    requested p owner name url = destined p mode owner name header requestUrl ↔
      OneResource p owner name ((rawPathOf header).any (hasDotSegment p)) ((stripSlashes pathname).splitOn slash) := by
  obtain ⟨o, n, rest, hsplit, hone, hnne⟩ := hbelow
  have hsegments : ∀ s ∈ o :: n :: rest, slash ∉ s := fun s hs =>
    slash_notMem_segments pathname s (hsplit ▸ List.mem_cons_of_mem _ hs)
  have hpathname : pathname = slash :: [slash].intercalate (o :: n :: rest) := by
    rw [← @List.intercalate_splitOn _ pathname _ _ slash, hsplit]
    exact join_cons [] (by simp)
  have hsplit' : ([slash].intercalate (o :: n :: rest)).splitOn slash = o :: n :: rest := by
    rw [splitOn_join hsegments, if_neg (by simp)]
  have hnames := strip_address hone hnne hsegments
  have hclosed := rdropWhile_getLast rest
  have hfront : ∀ s ∈ rest.rdropWhile (fun s => s = []), s ∈ rest := fun s hs =>
    (List.rdropWhile_prefix _ _).subset hs
  have hsub : ∀ s ∈ o :: n :: rest.rdropWhile (fun s => s = []), s ∈ o :: n :: rest := by
    intro s hs
    simp only [List.mem_cons] at hs ⊢
    exact hs.imp id (Or.imp id (hfront s))
  rw [requested_eq hp hurl hsplit]
  subst hpathname
  rw [destined_eq hp ho hn hparse hheader hdestination hnames (by rwa [hsplit']) (closed_cons hnne hclosed), hnames]
  apply same_iff hp (fun s hs => hsegments s (by simp [hfront s hs]))
  intro s hs
  refine hparse.undotted s ⟨header, _, _, hdestination, ?_⟩
  rw [hsplit']
  simp [hfront s hs]

/-! ### A parser that refuses dot segments -/

/-- The ASCII platform, which has no URL where a dot segment would be removed. -/
def dotlessPlatform : Platform where
  toLowerCase := asciiPlatform.toLowerCase
  toUpperCase := asciiPlatform.toUpperCase
  encodeURIComponent := asciiPlatform.encodeURIComponent
  decodeURIComponent := asciiPlatform.decodeURIComponent
  url := fun s base => (asciiPlatform.url s base).filter fun u => !hasDotSegment asciiPlatform u.pathname

theorem dotless_standard : Standard dotlessPlatform where
  encode := ascii_standard.encode
  decode := ascii_standard.decode
  lower := ascii_standard.lower
  lowerPrefix := ascii_standard.lowerPrefix
  asciiPath := fun s base u h => ascii_standard.asciiPath s base u (Option.filter_eq_some_iff.mp h).1

theorem hasDotSegment_address {path : JsString} (p : Platform) :
    hasDotSegment p (slash :: path) = false ↔
      decodeName p [] ≠ js "." ∧ decodeName p [] ≠ js ".." ∧
        ∀ s ∈ path.splitOn slash, decodeName p s ≠ js "." ∧ decodeName p s ≠ js ".." := by
  have hsplit : (slash :: path).splitOn slash = [] :: path.splitOn slash := splitOn_slash List.not_mem_nil path
  unfold hasDotSegment
  rw [hsplit]
  simp [List.any_eq_false, and_assoc]

theorem ascii_url {path : JsString} (hpath : path.all isAscii = true) (base : Option JsString) :
    asciiPlatform.url (js "http://h" ++ path) base = some ⟨js "http://h", path⟩ := by
  have hhost : (js "http://h").all isAscii = true := by decide
  simp only [asciiPlatform, List.all_append, hhost, hpath, Bool.and_self, if_true]
  rw [if_pos (List.prefix_append _ _)]
  rfl

theorem taken_dotless {origin s : JsString} (h : Taken dotlessPlatform origin s) :
    s.all isAscii = true ∧ decodeName asciiPlatform s ≠ js "." ∧ decodeName asciiPlatform s ≠ js ".." := by
  obtain ⟨text, base, path, hurl, hs⟩ := h
  obtain ⟨hascii, hdot⟩ := Option.filter_eq_some_iff.mp hurl
  have hall := ascii_standard.asciiPath _ _ _ hascii
  rw [Bool.not_eq_true', hasDotSegment_address] at hdot
  refine ⟨?_, hdot.2.2 s hs⟩
  rw [List.all_eq_true] at hall ⊢
  intro c hc
  apply hall c
  rw [← @List.intercalate_splitOn _ path _ _ slash]
  exact List.mem_cons_of_mem _ (mem_join hs hc)

/-- An address on the host, put together of its segments. -/
def hostUrl (ns : List JsString) : JsString := js "http://h" ++ slash :: [slash].intercalate ns

/-- Segments that the platform takes as they are. -/
def Dotless (ns : List JsString) : Prop :=
  ns ≠ [] ∧ ∀ s ∈ ns, s.all isAscii = true ∧ slash ∉ s ∧ decodeName asciiPlatform s ≠ js "." ∧
    decodeName asciiPlatform s ≠ js ".."

section Dotless

variable {ns : List JsString}

theorem Dotless.undotted (h : Dotless ns) :
    hasDotSegment asciiPlatform (slash :: [slash].intercalate ns) = false := by
  obtain ⟨hne, hall⟩ := h
  rw [hasDotSegment_address, splitOn_join fun s hs => (hall s hs).2.1, if_neg hne, decodeName_nil ascii_standard]
  exact ⟨by decide, by decide, fun s hs => (hall s hs).2.2⟩

theorem Dotless.url (h : Dotless ns) (base : Option JsString) :
    dotlessPlatform.url (hostUrl ns) base = some ⟨js "http://h", slash :: [slash].intercalate ns⟩ := by
  have hall : (slash :: [slash].intercalate ns).all isAscii = true := by
    rw [List.all_eq_true]
    intro c hc
    rcases List.mem_cons.mp hc with rfl | hc
    · decide
    · rcases of_mem_join hc with rfl | ⟨s, hs, hc⟩
      · decide
      · exact List.all_eq_true.mp (h.2 s hs).1 c hc
  simp only [dotlessPlatform, hostUrl]
  rw [ascii_url hall, Option.filter_some, if_pos]
  simp [h.undotted]

end Dotless

theorem dotless_parsing : Parsing dotlessPlatform fileUrl ⟨js "http://h", js "/alice/v/s"⟩ where
  self := by
    have hnames : Dotless [js "alice", js "v", js "s"] := ⟨by decide, by decide⟩
    have hfile : fileUrl = hostUrl [js "alice", js "v", js "s"] := by decide
    have hpath : js "/alice/v/s" = slash :: [slash].intercalate [js "alice", js "v", js "s"] := by decide
    rw [hfile, hpath]
    exact hnames.url none
  kept := by
    intro ns hne htaken base
    have hnames : Dotless ns :=
      ⟨hne, fun s hs => ⟨(taken_dotless (htaken s hs)).1, taken_slash (htaken s hs), (taken_dotless (htaken s hs)).2⟩⟩
    exact hnames.url base
  plain := by
    intro s hs hone htwo
    have hdecode : decodeName asciiPlatform s = s := by
      unfold decodeName
      rw [ascii_standard.decode, plain_decode hs]
      rfl
    have hname : Dotless [s] := by
      refine ⟨by simp, List.forall_mem_singleton.mpr ⟨plain_ascii hs, plain_slash hs, ?_⟩⟩
      rw [hdecode]
      exact ⟨hone, htwo⟩
    have hurl := hname.url none
    rw [List.intercalate_singleton] at hurl
    refine ⟨_, none, s, hurl, ?_⟩
    rw [List.splitOn_eq_singleton (plain_slash hs)]
    exact List.mem_singleton.mpr rfl
  undotted := fun s hs => (taken_dotless hs).2

theorem hostUrl_raw {ns : List JsString} (h : Dotless ns) (hraw : rawPathOf (hostUrl ns) = some (slash :: [slash].intercalate ns)) :
    (rawPathOf (hostUrl ns)).any (hasDotSegment dotlessPlatform) = false := by
  rw [hraw]
  exact h.undotted

theorem escaped_name_agrees :
    requested dotlessPlatform (js "alice") (js "v") (js "http://h/alice/v/a%20b") =
      destined dotlessPlatform .base (js "alice") (js "v") (js "http://h/alice/v/a%20b") fileUrl := by
  have hnames : Dotless [js "alice", js "v", js "a%20b"] := ⟨by decide, by decide⟩
  have hurl : js "http://h/alice/v/a%20b" = hostUrl [js "alice", js "v", js "a%20b"] := by decide
  have hsplit : (slash :: [slash].intercalate [js "alice", js "v", js "a%20b"]).splitOn slash =
      [[], js "alice", js "v", js "a%20b"] := by decide
  have hstrip : (stripSlashes (slash :: [slash].intercalate [js "alice", js "v", js "a%20b"])).splitOn slash =
      [js "alice", js "v", js "a%20b"] := by decide
  rw [hurl]
  apply (one_resource_iff dotless_standard dotless_parsing .base (by decide) (by decide) ⟨_, _, _, hsplit, by decide, by decide⟩
    (hnames.url none) (by decide) (hnames.url _)).mpr
  rw [hostUrl_raw hnames (by decide), hstrip]
  exact .inl ⟨rfl, by decide, by decide, by decide, .inl (by decide)⟩

/-- One malformed escape keeps a request from reading the other names, and a destination reads them all the same. -/
theorem mixed_escapes_disagree :
    requested dotlessPlatform (js "alice") (js "v") (js "http://h/alice/v/a%20b/%zz") = some (js "a%20b/%zz") ∧
      destined dotlessPlatform .base (js "alice") (js "v") (js "http://h/alice/v/a%20b/%zz") fileUrl =
        some (js "a b/%zz") := by
  have hnames : Dotless [js "alice", js "v", js "a%20b", js "%zz"] := ⟨by decide, by decide⟩
  have hurl : js "http://h/alice/v/a%20b/%zz" = hostUrl [js "alice", js "v", js "a%20b", js "%zz"] := by decide
  have hsplit : (slash :: [slash].intercalate [js "alice", js "v", js "a%20b", js "%zz"]).splitOn slash =
      [[], js "alice", js "v", js "a%20b", js "%zz"] := by decide
  have hstrip : (stripSlashes (slash :: [slash].intercalate [js "alice", js "v", js "a%20b", js "%zz"])).splitOn slash =
      [js "alice", js "v", js "a%20b", js "%zz"] := by decide
  have hkept : [js "a%20b", js "%zz"].rdropWhile (fun s => s = []) = [js "a%20b", js "%zz"] := by decide
  have hpath : requestPath dotlessPlatform [js "a%20b", js "%zz"] = js "a%20b/%zz" := by decide
  have hstored : Storable (requestNames dotlessPlatform [js "a%20b", js "%zz"]) := by decide
  have hleft : destinationNames .base (js "alice") (js "v") [js "alice", js "v", js "a%20b", js "%zz"] =
      some [js "a%20b", js "%zz"] := by decide
  have hread : Storable (readNames dotlessPlatform [js "a%20b", js "%zz"]) := by decide
  rw [hurl]
  constructor
  · rw [requested_eq dotless_standard (hnames.url none) hsplit, hkept, if_pos hstored, hpath]
  · rw [destined_eq dotless_standard (by decide) (by decide) dotless_parsing (by decide) (hnames.url _) hstrip (by decide)
      (by decide), hostUrl_raw hnames (by decide), if_neg (by decide), hleft, Option.bind_some, if_pos hread]
    decide

end DurableDav.Front
