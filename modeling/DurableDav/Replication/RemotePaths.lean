import DurableDav.Replication.DavHttpRemote
import DurableDav.Replication.SweepWindow

namespace DurableDav.Replication

open Library
open Dav (Url)

/-! ### The root of a target, and the path of an address -/

def decodeSegment (s : JsString) : JsString := (decodeURIComponent s).getD s

def decodePathname (pathname : JsString) : JsString :=
  [slash].intercalate ((pathname.splitOn slash).map decodeSegment)

/-- The root that a target is constructed with, `none` where the constructor throws. -/
def rootPathnameOf (url : JsString → Option Url) (base : Url) (remotePath : JsString) : Option JsString := do
  let joined ← joinUrl base [stripSlashes remotePath]
  let rootUrl ← url (joined.origin ++ joined.pathname)
  decodeURIComponent rootUrl.pathname

/-- The path that a listing gives to an address. -/
def entryPath (url : JsString → Option Url) (rootPathname text : JsString) : Option JsString :=
  (url text).bind fun address => toInnerEntry (decodePathname address.pathname) rootPathname

/-! ### What is documented of the parser of URLs -/

def Undotted (s : JsString) : Prop := decodeSegment s ≠ js "." ∧ decodeSegment s ≠ js ".."

instance (s : JsString) : Decidable (Undotted s) := inferInstanceAs (Decidable (_ ∧ _))

/-- One segment of a path, on the way down from the host. -/
def walk (stack : List JsString) (s : JsString) : List JsString :=
  if decodeSegment s = js ".." then stack.dropLast
  else if decodeSegment s = js "." then stack else stack ++ [s]

/-- The path without its dot segments; one at the end leaves a slash behind. -/
def resolved (segments : List JsString) : List JsString :=
  segments.foldl walk [] ++ if segments.getLast?.any (fun s => !decide (Undotted s)) then [[]] else []

/-- What stands between two slashes of a path that the parser has put out. -/
def Printed (url : JsString → Option Url) (origin s : JsString) : Prop :=
  ∃ text path, url text = some ⟨origin, slash :: path⟩ ∧ s ∈ path.splitOn slash

/-- The parser takes a path by its segments, removes the dot segments, and leaves those units alone that it has put
out itself or that an encoded name consists of. -/
structure Parses (url : JsString → Option Url) (base : Url) : Prop where
  canonical : ∃ text, url text = some base
  absolute : base.pathname.head? = some slash
  resolve : ∀ segments, segments ≠ [] →
    (∀ s ∈ segments, (∀ c ∈ s, isUriUnit c = true) ∨ Printed url base.origin s) →
    url (base.origin ++ slash :: [slash].intercalate segments) =
      some ⟨base.origin, slash :: [slash].intercalate (resolved segments)⟩
  undotted : ∀ s, Printed url base.origin s → Undotted s

section Resolved

variable {stack ss ps : List JsString} {s : JsString}

theorem walk_undotted (h : Undotted s) (stack : List JsString) : walk stack s = stack ++ [s] := by
  unfold walk
  rw [if_neg h.2, if_neg h.1]

theorem foldl_undotted (h : ∀ s ∈ ps, Undotted s) (stack : List JsString) : ps.foldl walk stack = stack ++ ps := by
  induction ps generalizing stack with
  | nil => simp
  | cons s ps ih =>
    obtain ⟨hs, hps⟩ := List.forall_mem_cons.mp h
    rw [List.foldl_cons, walk_undotted hs, ih hps, List.append_assoc]
    rfl

theorem resolved_append (h : ∀ s ∈ ps, Undotted s) (hne : ps ≠ []) (ss : List JsString) :
    resolved (ss ++ ps) = ss.foldl walk [] ++ ps := by
  have hlast : (ss ++ ps).getLast?.any (fun s => !decide (Undotted s)) = false := by
    rw [List.getLast?_append_of_ne_nil ss hne, List.getLast?_eq_some_getLast hne, Option.any_some]
    simpa using h _ (List.getLast_mem hne)
  unfold resolved
  rw [hlast, List.foldl_append, foldl_undotted h]
  simp

/-- A path is resolved to what leads down to its last segment, with a slash in place of a dot segment. -/
theorem resolved_ends (hlast : ss.getLast? ≠ some []) (hne : ss ≠ []) :
    resolved ss = ss.foldl walk [] ++ [[]] ∨
      resolved ss = ss.foldl walk [] ∧ (ss.foldl walk []).getLast? ≠ some [] ∧ ss.foldl walk [] ≠ [] := by
  by_cases hdot : ss.getLast?.any (fun s => !decide (Undotted s)) = true
  · left
    unfold resolved
    rw [if_pos hdot]
  · right
    obtain ⟨xs, x, rfl⟩ : ∃ xs x, ss = xs ++ [x] := ⟨ss.dropLast, ss.getLast hne, (List.dropLast_append_getLast hne).symm⟩
    rw [List.getLast?_concat] at hlast hdot
    have hx : Undotted x := by simpa using hdot
    have hstack : (xs ++ [x]).foldl walk [] = xs.foldl walk [] ++ [x] := by
      rw [List.foldl_append, List.foldl_cons, List.foldl_nil, walk_undotted hx]
    rw [hstack, List.getLast?_concat]
    refine ⟨?_, hlast, by simp⟩
    unfold resolved
    rw [hstack, List.getLast?_concat, if_neg hdot, List.append_nil]

theorem walk_subset (stack : List JsString) (s : JsString) : ∀ t ∈ walk stack s, t ∈ stack ∨ t = s := by
  intro t ht
  unfold walk at ht
  split at ht
  · exact .inl (List.mem_of_mem_dropLast ht)
  · split at ht
    · exact .inl ht
    · simpa using ht

theorem foldl_subset (ss stack : List JsString) : ∀ t ∈ ss.foldl walk stack, t ∈ stack ∨ t ∈ ss := by
  induction ss generalizing stack with
  | nil => exact fun t ht => .inl ht
  | cons s ss ih =>
    intro t ht
    rcases ih _ t ht with ht | ht
    · rcases walk_subset stack s t ht with ht | rfl
      · exact .inl ht
      · exact .inr List.mem_cons_self
    · exact .inr (List.mem_cons_of_mem s ht)

end Resolved

/-! ### The address of a path -/

/-- The path with a slash at its end. -/
def closed (path : JsString) : JsString := if path.getLast? = some slash then path else path ++ [slash]

/-- The encoded names of a path, `none` where a surrogate stands alone. -/
def encodedNames (path : JsString) : Option (List JsString) :=
  if path = [] then some [] else (path.splitOn slash).mapM encodeURIComponent

section Encoding

variable {path : JsString} {ns es : List JsString}

theorem decodeSegment_encoded {s e : JsString} (h : encodeURIComponent s = some e) : decodeSegment e = s := by
  unfold decodeSegment
  rw [decode_encode h]
  rfl

theorem uriUnit_slash {s : JsString} (h : ∀ c ∈ s, isUriUnit c = true) : slash ∉ s := fun hmem =>
  absurd (h slash hmem) (by decide)

theorem mapM_encode (h : ns.mapM encodeURIComponent = some es) :
    es.map decodeSegment = ns ∧ ∀ e ∈ es, ∀ c ∈ e, isUriUnit c = true := by
  induction ns generalizing es with
  | nil =>
    obtain rfl := Option.some.inj h
    simp
  | cons s ns ih =>
    rw [List.mapM_cons] at h
    obtain ⟨e, he, h⟩ := Option.bind_eq_some_iff.mp h
    obtain ⟨fs, hfs, h⟩ := Option.bind_eq_some_iff.mp h
    obtain rfl := Option.some.inj h
    obtain ⟨hmap, hunits⟩ := ih hfs
    exact ⟨by rw [List.map_cons, decodeSegment_encoded he, hmap], List.forall_mem_cons.mpr ⟨encoded_units he, hunits⟩⟩

theorem encodedNames_spec (h : encodedNames path = some es) :
    es.map decodeSegment = (if path = [] then [] else path.splitOn slash) ∧ ∀ e ∈ es, ∀ c ∈ e, isUriUnit c = true := by
  unfold encodedNames at h
  by_cases hpath : path = []
  · rw [if_pos hpath] at h
    obtain rfl := Option.some.inj h
    simp [hpath]
  · rw [if_neg hpath] at h ⊢
    exact mapM_encode h

theorem encodedNames_ne_nil (hpath : path ≠ []) (h : encodedNames path = some es) : es ≠ [] := by
  rintro rfl
  have hmap := (encodedNames_spec h).1
  rw [if_neg hpath, List.map_nil] at hmap
  exact List.splitOn_ne_nil slash path hmap.symm

theorem joinUrl_eq {base : Url} {root : JsString} (hroot : stripSlashes root = root) (hpath : stripSlashes path = path) :
    joinUrl base [root, path] = (encodedNames root).bind fun es => (encodedNames path).map fun ps =>
      ⟨base.origin, closed base.pathname ++ [slash].intercalate (es ++ ps)⟩ := by
  have hone {s : JsString} (hs : s ≠ []) : (s.splitOn slash).mapM encodeURIComponent = encodedNames s := (if_neg hs).symm
  unfold joinUrl
  simp only [List.map_cons, List.map_nil, hroot, hpath, joinNames, Option.bind_eq_bind]
  by_cases hr : root = []
  · by_cases hp : path = []
    · subst hr hp
      simp [encodedNames, closed]
    · subst hr
      rw [List.filter_cons_of_neg (by simp), List.filter_cons_of_pos (by simpa using hp), List.filter_nil]
      simp only [List.mapM_cons, List.mapM_nil, hone hp]
      cases encodedNames path <;> simp [encodedNames, closed, joinNames]
  · by_cases hp : path = []
    · subst hp
      rw [List.filter_cons_of_pos (by simpa using hr), List.filter_cons_of_neg (by simp), List.filter_nil]
      simp only [List.mapM_cons, List.mapM_nil, hone hr]
      cases encodedNames root <;> simp [encodedNames, closed, joinNames]
    · rw [List.filter_cons_of_pos (by simpa using hr), List.filter_cons_of_pos (by simpa using hp), List.filter_nil]
      simp only [List.mapM_cons, List.mapM_nil, hone hr, hone hp]
      cases hes : encodedNames root with
      | none => simp
      | some es =>
        cases hps : encodedNames path with
        | none => simp
        | some ps =>
          have hjoin := @join_append _ slash _ _ (encodedNames_ne_nil hr hes) (encodedNames_ne_nil hp hps)
          simp [closed, joinNames, hjoin]

end Encoding

/-! ### From a path to its address and back -/

section RoundTrip

variable {url : JsString → Option Url} {base : Url} {remotePath path R : JsString} {ss es ps : List JsString}

theorem decodeSegment_nil : decodeSegment [] = [] := rfl

theorem decode_join {t : JsString} (hne : ss ≠ []) (h : decodeURIComponent ([slash].intercalate ss) = some t) :
    t = [slash].intercalate (ss.map decodeSegment) := by
  induction ss generalizing t with
  | nil => exact absurd rfl hne
  | cons s ss ih =>
    by_cases hnil : ss = []
    · subst hnil
      rw [List.intercalate_singleton] at h
      rw [List.map_singleton, List.intercalate_singleton, decodeSegment, h]
      rfl
    · rw [join_cons s hnil, decode_split (by decide) (by decide)] at h
      obtain ⟨u, hu, h⟩ := Option.bind_eq_some_iff.mp h
      obtain ⟨v, hv, rfl⟩ := Option.map_eq_some_iff.mp h
      rw [List.map_cons, join_cons _ (by simpa using hnil), ← ih hnil hv, decodeSegment, hu]
      rfl

theorem decodePathname_address (hne : ss ≠ []) (hslash : ∀ s ∈ ss, slash ∉ s) :
    decodePathname (slash :: [slash].intercalate ss) = slash :: [slash].intercalate (ss.map decodeSegment) := by
  have hnil : ∀ s ∈ [] :: ss, slash ∉ s := List.forall_mem_cons.mpr ⟨List.not_mem_nil, hslash⟩
  have hjoin : slash :: [slash].intercalate ss = [slash].intercalate ([] :: ss) := (join_cons [] hne).symm
  unfold decodePathname
  rw [hjoin, splitOn_join hnil, if_neg (by simp), List.map_cons, decodeSegment_nil, join_cons _ (by simpa using hne)]
  rfl

/-- The segments of the base, without the empty one behind a slash at the end. -/
def stem (ss : List JsString) : List JsString := if ss.getLast? = some [] then ss.dropLast else ss

theorem stem_subset : ∀ s ∈ stem ss, s ∈ ss := by
  intro s hs
  unfold stem at hs
  split at hs
  · exact List.mem_of_mem_dropLast hs
  · exact hs

theorem closed_join (hne : ss ≠ []) (hslash : ∀ s ∈ ss, slash ∉ s) :
    closed (slash :: [slash].intercalate ss) = slash :: [slash].intercalate (stem ss ++ [[]]) := by
  unfold closed stem
  by_cases hlast : ss.getLast? = some []
  · obtain ⟨xs, rfl⟩ := List.getLast?_eq_some_iff.mp hlast
    rw [if_pos hlast, List.dropLast_concat, if_pos]
    by_cases hnil : xs = []
    · subst hnil
      rfl
    · rw [join_append hnil (by simp), List.intercalate_singleton, ← List.cons_append, List.getLast?_concat]
  · have hjoin : [slash].intercalate ss ≠ [] := by
      intro h
      rcases join_eq_nil.mp h with h | h
      · exact hne h
      · rw [h] at hlast
        exact hlast rfl
    have hend : (slash :: [slash].intercalate ss).getLast? ≠ some slash := by
      rw [← List.singleton_append, List.getLast?_append_of_ne_nil _ hjoin]
      exact join_getLast hslash hlast
    rw [if_neg hlast, if_neg hend, join_append hne (by simp)]
    rfl

/-- The segments of an address: those of the base, and then the encoded names. -/
theorem address_segments (hne : ss ≠ []) (hslash : ∀ s ∈ ss, slash ∉ s) (es : List JsString) :
    closed (slash :: [slash].intercalate ss) ++ [slash].intercalate es =
      slash :: [slash].intercalate (stem ss ++ if es = [] then [[]] else es) := by
  rw [closed_join hne hslash, List.cons_append]
  by_cases hes : es = []
  · subst hes
    simp
  · rw [if_neg hes, join_open _ hes]

theorem names_kept (h : encodedNames path = some es) (hpath : isValidInnerPath path = true) :
    (∀ e ∈ es, Undotted e) ∧ [slash].intercalate (es.map decodeSegment) = path := by
  obtain ⟨hmap, -⟩ := encodedNames_spec h
  by_cases hne : path = []
  · rw [if_pos hne] at hmap
    rw [List.map_eq_nil_iff.mp hmap, hne]
    simp
  · rw [if_neg hne] at hmap
    rw [hmap, List.intercalate_splitOn]
    refine ⟨fun e he => ?_, rfl⟩
    have hmem : decodeSegment e ∈ path.splitOn slash := hmap ▸ List.mem_map_of_mem he
    simp only [isValidInnerPath, hne, false_or, decide_eq_true_eq] at hpath
    exact (hpath.2 _ hmem).2

theorem strip_named (hno : ∀ s ∈ path.splitOn slash, s ≠ []) : stripSlashes path = path := by
  have hkept : (path.splitOn slash).dropWhile (fun s => s = []) = path.splitOn slash := by
    rw [List.dropWhile_eq_self_iff]
    intro hl hnil
    exact hno _ (List.getElem_mem hl) (by simpa using hnil)
  have hends : trimmed (path.splitOn slash) = path.splitOn slash := by
    unfold trimmed
    rw [hkept, List.rdropWhile_eq_self_iff]
    intro hl hnil
    exact hno _ (List.getLast_mem hl) (by simpa using hnil)
  have hstrip := @stripSlashes_join (path.splitOn slash) (slash_notMem_segments path)
  rwa [hends, List.intercalate_splitOn] at hstrip

theorem strip_valid (hpath : isValidInnerPath path = true) : stripSlashes path = path := by
  by_cases hne : path = []
  · rw [hne]
    rfl
  · simp only [isValidInnerPath, hne, false_or, decide_eq_true_eq] at hpath
    exact strip_named fun s hs => (hpath.2 s hs).1

/-- The path that an entry of the listing gets behind the root. -/
theorem toInnerEntry_append (R t : JsString) :
    toInnerEntry (R ++ t) R =
      if stripSlashes t = [] then none
      else if ((stripSlashes t).splitOn slash).any (fun segment => segment = js ".." ∨ segment = js ".") then none
      else some (stripSlashes t) := by
  have hfront : R.isPrefixOf (R ++ t) = true := List.isPrefixOf_iff_prefix.mpr (List.prefix_append R t)
  simp only [toInnerEntry, hfront, Bool.not_true, Bool.false_eq_true, ↓reduceIte, List.drop_left]

theorem toInnerEntry_path (hpath : isValidInnerPath path = true) (hne : path ≠ []) {t : JsString}
    (ht : stripSlashes t = path) : toInnerEntry (R ++ t) R = some path := by
  have hdots : ((path.splitOn slash).any fun segment => segment = js ".." ∨ segment = js ".") = false := by
    simp only [isValidInnerPath, hne, false_or, decide_eq_true_eq] at hpath
    rw [List.any_eq_false]
    intro s hs
    obtain ⟨-, hone, htwo⟩ := hpath.2 s hs
    simp [hone, htwo]
  rw [toInnerEntry_append, ht, if_neg hne, hdots]
  rfl

theorem stripSlashes_cons (s : JsString) : stripSlashes (slash :: s) = stripSlashes s := by
  unfold stripSlashes
  rw [List.dropWhile_cons_of_pos (by simp)]

theorem stripped_names (h : encodedNames (stripSlashes remotePath) = some es) : es.getLast? ≠ some [] := by
  have hmap := (encodedNames_spec h).1
  by_cases hnil : stripSlashes remotePath = []
  · rw [if_pos hnil] at hmap
    rw [List.map_eq_nil_iff.mp hmap]
    simp
  · have hslash := slash_notMem_segments remotePath
    have hstrip := stripSlashes_join hslash
    rw [List.intercalate_splitOn] at hstrip
    have htrimmed : trimmed (remotePath.splitOn slash) ≠ [] := by
      intro h
      rw [h] at hstrip
      exact hnil hstrip
    rw [if_neg hnil, hstrip, splitOn_join fun s hs => hslash s (trimmed_subset s hs), if_neg htrimmed] at hmap
    intro hlast
    have hend : (trimmed (remotePath.splitOn slash)).getLast? = some [] := by
      rw [← hmap, List.getLast?_map, hlast]
      rfl
    exact rdropWhile_getLast _ hend

theorem joinUrl_single {root : JsString} : joinUrl base [root] = joinUrl base [root, []] := by
  have hnil : stripSlashes [] = [] := rfl
  unfold joinUrl
  simp only [List.map_cons, List.map_nil, hnil]
  by_cases hr : stripSlashes root = []
  · simp [hr]
  · simp [hr]

theorem strip_strip (s : JsString) : stripSlashes (stripSlashes s) = stripSlashes s := by
  have hslash := slash_notMem_segments s
  have hstrip := stripSlashes_join hslash
  rw [List.intercalate_splitOn] at hstrip
  rw [hstrip, stripSlashes_join fun t ht => hslash t (trimmed_subset t ht), trimmed_trimmed]

theorem rootPathnameOf_eq : rootPathnameOf url base remotePath = (encodedNames (stripSlashes remotePath)).bind fun es =>
    (url (base.origin ++ (closed base.pathname ++ [slash].intercalate es))).bind fun rootUrl =>
      decodeURIComponent rootUrl.pathname := by
  unfold rootPathnameOf
  rw [joinUrl_single, joinUrl_eq (strip_strip remotePath) rfl]
  cases encodedNames (stripSlashes remotePath) with
  | none => rfl
  | some es => simp [encodedNames]

/-- The address that a path is asked for under is mapped back to the path. -/
theorem entryPath_joinUrl (hparse : Parses url base) (hroot : rootPathnameOf url base remotePath = some R)
    (hpath : isValidInnerPath path = true) (hne : path ≠ []) {target : Url}
    (htarget : joinUrl base [stripSlashes remotePath, path] = some target) :
    entryPath url R (target.origin ++ target.pathname) = some path := by
  obtain ⟨text, hcanonical⟩ := hparse.canonical
  obtain ⟨tail, htail⟩ := List.head?_eq_some_iff.mp hparse.absolute
  have hbase : base.pathname = slash :: [slash].intercalate (tail.splitOn slash) := by
    rw [htail, List.intercalate_splitOn]
  have hprinted : ∀ s ∈ stem (tail.splitOn slash), Printed url base.origin s := by
    intro s hs
    refine ⟨text, tail, ?_, stem_subset s hs⟩
    rw [hcanonical, ← htail]
  have hbslash := slash_notMem_segments tail
  have hbne := List.splitOn_ne_nil slash tail
  -- the two addresses, one segment after the other
  rw [rootPathnameOf_eq] at hroot
  rw [joinUrl_eq (strip_strip remotePath) (strip_valid hpath)] at htarget
  obtain ⟨es, hes, hroot⟩ := Option.bind_eq_some_iff.mp hroot
  obtain ⟨rootUrl, hrootUrl, hdecode⟩ := Option.bind_eq_some_iff.mp hroot
  rw [hes, Option.bind_some] at htarget
  obtain ⟨ps, hps, rfl⟩ := Option.map_eq_some_iff.mp htarget
  have hunits := (encodedNames_spec hes).2
  have hpunits := (encodedNames_spec hps).2
  have hpsne := encodedNames_ne_nil hne hps
  obtain ⟨hundotted, hnames⟩ := names_kept hps hpath
  generalize hst : stem (tail.splitOn slash) = st at *
  have hstack : st.foldl walk [] = st := by
    rw [foldl_undotted fun s hs => hparse.undotted s (hprinted s hs)]
    rfl
  have hroots : resolved (st ++ if es = [] then [[]] else es) = (st ++ es).foldl walk [] ++ [[]] ∨
      resolved (st ++ if es = [] then [[]] else es) = (st ++ es).foldl walk [] ∧ (st ++ es).foldl walk [] ≠ [] := by
    by_cases hnil : es = []
    · left
      have hempty : ∀ s ∈ [([] : JsString)], Undotted s := List.forall_mem_singleton.mpr ⟨by decide, by decide⟩
      rw [if_pos hnil, resolved_append hempty (by simp), hnil, List.append_nil]
    · rw [if_neg hnil]
      have hlast : (st ++ es).getLast? ≠ some [] := by
        rw [List.getLast?_append_of_ne_nil st hnil]
        exact stripped_names hes
      exact (resolved_ends hlast (by simp [hnil])).imp id (fun h => ⟨h.1, h.2.2⟩)
  have hinside : ∀ s ∈ (st ++ es).foldl walk [] ++ ps, slash ∉ s := by
    have hstslash : ∀ s ∈ st, slash ∉ s := fun s hs => hbslash s (stem_subset s (hst ▸ hs))
    intro s hs
    rcases List.mem_append.mp hs with hs | hs
    · rcases foldl_subset (st ++ es) [] s hs with hs | hs
      · simp at hs
      · rcases List.mem_append.mp hs with hs | hs
        · exact hstslash s hs
        · exact uriUnit_slash (hunits s hs)
    · exact uriUnit_slash (hpunits s hs)
  have hrootKept : ∀ s ∈ st ++ (if es = [] then [[]] else es),
      (∀ c ∈ s, isUriUnit c = true) ∨ Printed url base.origin s := by
    intro s hs
    rcases List.mem_append.mp hs with hs | hs
    · exact .inr (hprinted s hs)
    · left
      split at hs
      · rw [List.mem_singleton.mp hs]
        simp
      · exact hunits s hs
  have htargetKept : ∀ s ∈ (st ++ es) ++ ps, (∀ c ∈ s, isUriUnit c = true) ∨ Printed url base.origin s := by
    intro s hs
    rcases List.mem_append.mp hs with hs | hs
    · rcases List.mem_append.mp hs with hs | hs
      · exact .inr (hprinted s hs)
      · exact .inl (hunits s hs)
    · exact .inl (hpunits s hs)
  -- what the parser makes of them, and the decoder
  have haddress (ns : List JsString) : closed base.pathname ++ [slash].intercalate ns =
      slash :: [slash].intercalate (st ++ if ns = [] then [[]] else ns) := by
    rw [hbase, address_segments hbne hbslash, hst]
  have hsegments : st ++ (if es = [] then [[]] else es) ≠ [] := by
    split <;> simp [*]
  rw [haddress, hparse.resolve _ hsegments hrootKept] at hrootUrl
  have htargetUrl := hparse.resolve _ (by simp [hpsne]) htargetKept
  rw [resolved_append hundotted hpsne] at htargetUrl
  obtain rfl := Option.some.inj hrootUrl
  have hdecoded : decodePathname (slash :: [slash].intercalate ((st ++ es).foldl walk [] ++ ps)) =
      slash :: [slash].intercalate (((st ++ es).foldl walk []).map decodeSegment ++ ps.map decodeSegment) := by
    rw [decodePathname_address (by simp [hpsne]) hinside, List.map_append]
  have hrootText {ss : List JsString} (hss : resolved (st ++ if es = [] then [[]] else es) = ss) (hne : ss ≠ []) :
      R = slash :: [slash].intercalate (ss.map decodeSegment) := by
    have hjoin : slash :: [slash].intercalate ss = [slash].intercalate ([] :: ss) := (join_cons [] hne).symm
    rw [hss, hjoin] at hdecode
    rw [decode_join (by simp) hdecode, List.map_cons, decodeSegment_nil, join_cons _ (by simpa using hne)]
    rfl
  have hasked : url (base.origin ++ (closed base.pathname ++ [slash].intercalate (es ++ ps))) =
      some ⟨base.origin, slash :: [slash].intercalate ((st ++ es).foldl walk [] ++ ps)⟩ := by
    rw [haddress, if_neg (by simp [hpsne]), ← List.append_assoc]
    exact htargetUrl
  unfold entryPath
  rw [hasked, Option.bind_some, hdecoded]
  have hpsmap : ps.map decodeSegment ≠ [] := by simpa using hpsne
  rcases hroots with hdot | ⟨hplain, hstackne⟩
  · have hwhole : slash :: [slash].intercalate (((st ++ es).foldl walk []).map decodeSegment ++ ps.map decodeSegment) =
        R ++ path := by
      rw [hrootText hdot (by simp), List.map_append, List.map_singleton, decodeSegment_nil, List.cons_append, ← hnames,
        join_open _ hpsmap]
    rw [hwhole]
    exact toInnerEntry_path hpath hne (strip_valid hpath)
  · have hwhole : slash :: [slash].intercalate (((st ++ es).foldl walk []).map decodeSegment ++ ps.map decodeSegment) =
        R ++ slash :: path := by
      rw [hrootText hplain hstackne, join_append (by simpa using hstackne) hpsmap, hnames]
      rfl
    rw [hwhole]
    exact toInnerEntry_path hpath hne ((stripSlashes_cons path).trans (strip_valid hpath))

end RoundTrip

/-! ### Hrefs below the root -/

/-- The path of an address spells out the root, in whatever escapes, and behind it the names. -/
def Spells (R pathname : JsString) (ns : List JsString) : Prop :=
  ∃ root, pathname = root ++ slash :: [slash].intercalate ns ∧ decodePathname root ++ [slash] = closed R ∧
    ∀ s ∈ ns, slash ∉ s

/-- No name stands for a text with a slash. -/
def Unslashed (ns : List JsString) : Prop := ∀ s ∈ ns, slash ∉ decodeSegment s

/-- The names as they are shown, without the empty ones at the ends. -/
def shown (ns : List JsString) : List JsString := trimmed (ns.map decodeSegment)

section Hrefs

variable {R pathname pathname' : JsString} {ns ns' : List JsString}

theorem decodePathname_split (a b : JsString) :
    decodePathname (a ++ slash :: b) = decodePathname a ++ slash :: decodePathname b := by
  unfold decodePathname
  rw [List.splitOn_append_cons_self, List.map_append, join_append (by simp [List.splitOn_ne_nil])
    (by simp [List.splitOn_ne_nil])]

theorem decodePathname_join (hslash : ∀ s ∈ ns, slash ∉ s) :
    decodePathname ([slash].intercalate ns) = [slash].intercalate (ns.map decodeSegment) := by
  unfold decodePathname
  rw [splitOn_join hslash]
  split
  · rename_i hnil
    subst hnil
    rfl
  · rfl

theorem shown_unslashed (h : Unslashed ns) : ∀ s ∈ shown ns, slash ∉ s := by
  intro s hs
  obtain ⟨t, ht, rfl⟩ := List.mem_map.mp (trimmed_subset s hs)
  exact h t ht

theorem shown_join_eq_nil : [slash].intercalate (shown ns) = [] ↔ shown ns = [] := by
  rw [join_eq_nil]
  refine ⟨fun h => h.resolve_right fun hone => ?_, .inl⟩
  have hlast : (shown ns).getLast? ≠ some [] := rdropWhile_getLast _
  rw [hone] at hlast
  exact hlast rfl

/-- A name of the root's collection is read off as a whole. -/
theorem spells_entry (h : Spells R pathname ns) (hns : Unslashed ns) (path : JsString) :
    toInnerEntry (decodePathname pathname) R = some path ↔
      shown ns ≠ [] ∧ js "." ∉ shown ns ∧ js ".." ∉ shown ns ∧ path = [slash].intercalate (shown ns) := by
  obtain ⟨root, rfl, hroot, hslash⟩ := h
  have hdecoded : decodePathname (root ++ slash :: [slash].intercalate ns) =
      closed R ++ [slash].intercalate (ns.map decodeSegment) := by
    rw [decodePathname_split, decodePathname_join hslash, ← hroot, List.append_assoc]
    rfl
  obtain ⟨t, ht, hstrip⟩ : ∃ t, closed R ++ [slash].intercalate (ns.map decodeSegment) = R ++ t ∧
      stripSlashes t = [slash].intercalate (shown ns) := by
    have hmapped : ∀ s ∈ ns.map decodeSegment, slash ∉ s := by
      intro s hs
      obtain ⟨u, hu, rfl⟩ := List.mem_map.mp hs
      exact hns u hu
    unfold closed
    split
    · exact ⟨_, rfl, stripSlashes_join hmapped⟩
    · refine ⟨slash :: [slash].intercalate (ns.map decodeSegment), by simp, ?_⟩
      rw [stripSlashes_cons]
      exact stripSlashes_join hmapped
  rw [hdecoded, ht, toInnerEntry_append, hstrip]
  by_cases hnil : shown ns = []
  · simp [hnil]
  · rw [if_neg (fun h => hnil (shown_join_eq_nil.mp h)), splitOn_join (shown_unslashed hns), if_neg hnil]
    by_cases hdots : js "." ∈ shown ns ∨ js ".." ∈ shown ns
    · have hany : (shown ns).any (fun segment => segment = js ".." ∨ segment = js ".") = true := by
        rw [List.any_eq_true]
        rcases hdots with h | h
        · exact ⟨_, h, by simp⟩
        · exact ⟨_, h, by simp⟩
      rw [if_pos hany]
      tauto
    · have hany : (shown ns).any (fun segment => segment = js ".." ∨ segment = js ".") = false := by
        rw [List.any_eq_false]
        intro s hs
        have hone : s ≠ js "." := fun he => hdots (.inl (he ▸ hs))
        have htwo : s ≠ js ".." := fun he => hdots (.inr (he ▸ hs))
        simp [hone, htwo]
      rw [hany]
      push Not at hdots
      simp [hnil, hdots, eq_comm]

theorem spells_same (h : Spells R pathname ns) (h' : Spells R pathname' ns') (hns : Unslashed ns) (hns' : Unslashed ns')
    {path : JsString} (hentry : toInnerEntry (decodePathname pathname) R = some path) :
    toInnerEntry (decodePathname pathname') R = some path ↔ shown ns' = shown ns := by
  obtain ⟨hnil, hdot, hdots, rfl⟩ := (spells_entry h hns path).mp hentry
  rw [spells_entry h' hns']
  constructor
  · rintro ⟨hnil', -, -, hjoin⟩
    have hsplit := congrArg (List.splitOn slash) hjoin
    rw [splitOn_join (shown_unslashed hns), splitOn_join (shown_unslashed hns'), if_neg hnil, if_neg hnil'] at hsplit
    exact hsplit.symm
  · intro heq
    rw [heq]
    exact ⟨hnil, hdot, hdots, rfl⟩

theorem entry_outside (h : ¬ R <+: pathname ∨ pathname = R) : toInnerEntry pathname R = none := by
  rcases h with h | rfl
  · have hfront : R.isPrefixOf pathname = false := by
      rw [Bool.eq_false_iff, ne_eq, List.isPrefixOf_iff_prefix]
      exact h
    simp [toInnerEntry, hfront]
  · have hself := toInnerEntry_append pathname []
    rw [List.append_nil] at hself
    rw [hself]
    rfl

end Hrefs

/-- What a listing makes of the addresses of a target: a path is found again under its own address, and hrefs of the
root's names are told apart by the names that they show. -/
theorem remote_paths {url : JsString → Option Url} {base : Url} (hparse : Parses url base) {remotePath R : JsString}
    (hroot : rootPathnameOf url base remotePath = some R) :
    (∀ path target, isValidInnerPath path = true → path ≠ [] →
      joinUrl base [stripSlashes remotePath, path] = some target →
        entryPath url R (target.origin ++ target.pathname) = some path) ∧
    (∀ pathname, ¬ R <+: decodePathname pathname ∨ decodePathname pathname = R →
      toInnerEntry (decodePathname pathname) R = none) ∧
    (∀ pathname ns, Spells R pathname ns → Unslashed ns → ∀ path, toInnerEntry (decodePathname pathname) R = some path ↔
      shown ns ≠ [] ∧ js "." ∉ shown ns ∧ js ".." ∉ shown ns ∧ path = [slash].intercalate (shown ns)) ∧
    (∀ pathname pathname' ns ns', Spells R pathname ns → Spells R pathname' ns' → Unslashed ns → Unslashed ns' →
      ∀ path, toInnerEntry (decodePathname pathname) R = some path →
        (toInnerEntry (decodePathname pathname') R = some path ↔ shown ns' = shown ns)) :=
  ⟨fun _ _ hpath hne htarget => entryPath_joinUrl hparse hroot hpath hne htarget, fun _ h => entry_outside h,
    fun _ _ h hns path => spells_entry h hns path, fun _ _ _ _ h h' hns hns' _ hentry => spells_same h h' hns hns' hentry⟩

/-! ### A parser of one host -/

def hostUrl (text : JsString) : Option Url :=
  if js "https://h/" <+: text then
    some ⟨js "https://h", slash :: [slash].intercalate (resolved ((text.drop 10).splitOn slash))⟩
  else none

theorem walk_kept {stack : List JsString} (h : ∀ s ∈ stack, Undotted s) (s : JsString) :
    ∀ t ∈ walk stack s, Undotted t := by
  intro t ht
  unfold walk at ht
  split at ht
  · exact h t (List.mem_of_mem_dropLast ht)
  · split at ht
    · exact h t ht
    · rename_i hdots hdot
      rcases List.mem_append.mp ht with ht | ht
      · exact h t ht
      · rw [List.mem_singleton.mp ht]
        exact ⟨hdot, hdots⟩

theorem foldl_kept {ss stack : List JsString} (h : ∀ s ∈ stack, Undotted s) :
    ∀ t ∈ ss.foldl walk stack, Undotted t := by
  induction ss generalizing stack with
  | nil => exact h
  | cons s ss ih => exact ih (walk_kept h s)

theorem resolved_segments {ss : List JsString} (hslash : ∀ s ∈ ss, slash ∉ s) :
    ∀ s ∈ resolved ss, Undotted s ∧ slash ∉ s := by
  have hempty : Undotted [] := by decide
  intro s hs
  unfold resolved at hs
  rcases List.mem_append.mp hs with hs | hs
  · refine ⟨foldl_kept (by simp) s hs, ?_⟩
    rcases foldl_subset ss [] s hs with hs | hs
    · simp at hs
    · exact hslash s hs
  · split at hs
    · rw [List.mem_singleton.mp hs]
      exact ⟨hempty, List.not_mem_nil⟩
    · simp at hs

theorem printed_host {origin s : JsString} (h : Printed hostUrl origin s) : Undotted s ∧ slash ∉ s := by
  obtain ⟨text, path, hurl, hs⟩ := h
  refine ⟨?_, slash_notMem_segments path s hs⟩
  obtain ⟨-, heq⟩ := Option.ite_none_right_eq_some.mp hurl
  obtain ⟨-, hpath⟩ := Url.mk.inj (Option.some.inj heq)
  have hall := resolved_segments (slash_notMem_segments (text.drop 10))
  rw [← (List.cons.inj hpath).2, splitOn_join fun s hs => (hall s hs).2] at hs
  split at hs
  · rw [List.mem_singleton.mp hs]
    decide
  · exact (hall s hs).1

theorem hostUrl_segments {ss : List JsString} (hne : ss ≠ []) (hslash : ∀ s ∈ ss, slash ∉ s) :
    hostUrl (js "https://h" ++ slash :: [slash].intercalate ss) =
      some ⟨js "https://h", slash :: [slash].intercalate (resolved ss)⟩ := by
  have htext : js "https://h" ++ slash :: [slash].intercalate ss = js "https://h/" ++ [slash].intercalate ss := by
    have hhost : js "https://h/" = js "https://h" ++ [slash] := by decide
    rw [hhost, List.append_assoc]
    rfl
  have hlength : (js "https://h/").length = 10 := by decide
  unfold hostUrl
  rw [htext, if_pos (List.prefix_append _ _), List.drop_left' hlength, splitOn_join hslash, if_neg hne]

theorem hostUrl_plain {ss : List JsString} (hne : ss ≠ []) (h : ∀ s ∈ ss, Undotted s ∧ slash ∉ s) :
    hostUrl (js "https://h" ++ slash :: [slash].intercalate ss) = some ⟨js "https://h", slash :: [slash].intercalate ss⟩ := by
  rw [hostUrl_segments hne fun s hs => (h s hs).2]
  have hresolved := resolved_append (fun s hs => (h s hs).1) hne []
  rw [List.nil_append] at hresolved
  rw [hresolved]
  rfl

theorem host_parses : Parses hostUrl ⟨js "https://h", js "/dav/"⟩ where
  canonical := ⟨js "https://h" ++ slash :: [slash].intercalate [js "dav", []], by
    have hpath : js "/dav/" = slash :: [slash].intercalate [js "dav", []] := by decide
    rw [hpath]
    exact hostUrl_plain (by decide) (by decide)⟩
  absolute := by decide
  resolve := by
    intro segments hne hkept
    apply hostUrl_segments hne
    intro s hs
    rcases hkept s hs with h | h
    · exact uriUnit_slash h
    · exact (printed_host h).2
  undotted := fun _ h => (printed_host h).1

theorem spaced_path_found :
    entryPath hostUrl (js "/dav/r s") (js "https://h" ++ js "/dav/r%20s/50%25/%C3%A9") =
      some (js "50%/" ++ [233]) := by
  have hencoded : encodedNames (stripSlashes (js "r s/")) = some [js "r%20s"] := by decide
  have hurl : hostUrl (js "https://h" ++ js "/dav/r%20s") = some ⟨js "https://h", js "/dav/r%20s"⟩ := by
    have hpath : js "/dav/r%20s" = slash :: [slash].intercalate [js "dav", js "r%20s"] := by decide
    rw [hpath]
    exact hostUrl_plain (by decide) (by decide)
  have hroot : rootPathnameOf hostUrl ⟨js "https://h", js "/dav/"⟩ (js "r s/") = some (js "/dav/r s") := by
    have hjoin : closed (js "/dav/") ++ [slash].intercalate [js "r%20s"] = js "/dav/r%20s" := by decide
    have hdecode : decodeURIComponent (js "/dav/r%20s") = some (js "/dav/r s") := by
      have hsplit : js "/dav/r%20s" = js "/dav" ++ slash :: js "r%20s" := by decide
      have hfirst : decodeURIComponent (js "/dav") = some (js "/dav") := by decide
      have hlast : decodeURIComponent (js "r%20s") = some (js "r s") := by decide
      rw [hsplit, decode_split (by decide) (by decide), hfirst, hlast]
      rfl
    rw [rootPathnameOf_eq, hencoded]
    simp only [Option.bind_some, hjoin, hurl, hdecode]
  have hvalid : isValidInnerPath (js "50%/" ++ [233]) = true := by decide
  have htarget : joinUrl ⟨js "https://h", js "/dav/"⟩ [stripSlashes (js "r s/"), js "50%/" ++ [233]] =
      some ⟨js "https://h", js "/dav/r%20s/50%25/%C3%A9"⟩ := by
    have hnames : encodedNames (js "50%/" ++ [233]) = some [js "50%25", js "%C3%A9"] := by decide
    have hjoin : closed (js "/dav/") ++ [slash].intercalate ([js "r%20s"] ++ [js "50%25", js "%C3%A9"]) =
        js "/dav/r%20s/50%25/%C3%A9" := by decide
    rw [joinUrl_eq (strip_strip _) (strip_valid hvalid), hencoded, hnames]
    simp only [Option.bind_some, Option.map_some, hjoin]
  have hfound := (remote_paths host_parses hroot).1 (js "50%/" ++ [233]) _ hvalid (by decide) htarget
  exact hfound

/-- A slash at the end makes no difference, and the root's own entry has no path. -/
theorem trailing_slash_ignored :
    rootPathnameOf hostUrl ⟨js "https://h", js "/dav/"⟩ (js "r") = some (js "/dav/r") ∧
      toInnerEntry (decodePathname (js "/dav/r/docs")) (js "/dav/r") = some (js "docs") ∧
      toInnerEntry (decodePathname (js "/dav/r/docs/")) (js "/dav/r") = some (js "docs") ∧
      toInnerEntry (decodePathname (js "/dav/r")) (js "/dav/r") = none := by
  have hencoded : encodedNames (stripSlashes (js "r")) = some [js "r"] := by decide
  have hurl : hostUrl (js "https://h" ++ js "/dav/r") = some ⟨js "https://h", js "/dav/r"⟩ := by
    have hpath : js "/dav/r" = slash :: [slash].intercalate [js "dav", js "r"] := by decide
    rw [hpath]
    exact hostUrl_plain (by decide) (by decide)
  have hjoin : closed (js "/dav/") ++ [slash].intercalate [js "r"] = js "/dav/r" := by decide
  have hdecode : decodeURIComponent (js "/dav/r") = some (js "/dav/r") := by
    have hsplit : js "/dav/r" = js "/dav" ++ slash :: js "r" := by decide
    have hfirst : decodeURIComponent (js "/dav") = some (js "/dav") := by decide
    have hlast : decodeURIComponent (js "r") = some (js "r") := by decide
    rw [hsplit, decode_split (by decide) (by decide), hfirst, hlast]
    rfl
  have hself : decodePathname (js "/dav/r") = js "/dav/r" := by decide
  have hdocs : decodePathname (js "/dav/r/docs") = js "/dav/r" ++ slash :: js "docs" := by
    have hsplit : js "/dav/r/docs" = js "/dav/r" ++ slash :: js "docs" := by decide
    have hlast : decodePathname (js "docs") = js "docs" := by decide
    rw [hsplit, decodePathname_split, hself, hlast]
  have hslashed : decodePathname (js "/dav/r/docs/") = js "/dav/r" ++ slash :: js "docs/" := by
    have hsplit : js "/dav/r/docs/" = js "/dav/r" ++ slash :: js "docs/" := by decide
    have hlast : decodePathname (js "docs/") = js "docs/" := by decide
    rw [hsplit, decodePathname_split, hself, hlast]
  refine ⟨?_, ?_, ?_, ?_⟩
  · rw [rootPathnameOf_eq, hencoded]
    simp only [Option.bind_some, hjoin, hurl, hdecode]
  · rw [hdocs, toInnerEntry_append]
    decide
  · rw [hslashed, toInnerEntry_append]
    decide
  · exact entry_outside (.inr hself)

end DurableDav.Replication
