import DurableDav.Front.DestinationTrip

namespace DurableDav.Front

open Library
open Dav (Platform Url)
open Replication (slash_notMem_segments intercalate_append)

/-! ### Plain names -/

/-- A text that an address takes over as it is. -/
def Plain (s : JsString) : Prop := ∀ c ∈ s, isUnescaped c.val = true

section Plain

variable {s t e : JsString}

theorem plain_of_all (h : s.all (fun c => isUnescaped c.val) = true) : Plain s := List.all_eq_true.mp h

theorem unescaped_lower (c : CodeUnit) : isUnescaped (asciiLower c).val = isUnescaped c.val := by
  simp only [isUnescaped, asciiLower_val, List.mem_cons, List.not_mem_nil, or_false, decide_eq_decide]
  split <;> omega

theorem plain_of_lower (h : s.map asciiLower = t.map asciiLower) (ht : Plain t) : Plain s := by
  intro c hc
  have hmem : asciiLower c ∈ t.map asciiLower := by
    rw [← h]
    exact List.mem_map_of_mem hc
  obtain ⟨d, hd, hlower⟩ := List.mem_map.mp hmem
  rw [← unescaped_lower, ← hlower, unescaped_lower]
  exact ht d hd

theorem plain_ascii (h : Plain s) : s.all isAscii = true := by
  rw [List.all_eq_true]
  intro c hc
  have hlt := (unescaped_lt (h c hc)).1
  simpa [isAscii] using hlt

theorem plain_decode (h : Plain s) : decodeURIComponent s = some s := decode_encode (encode_plain h)

/-- Neither side of a coding is plain without being the other one. -/
theorem coding_plain (h : encodeURIComponent s = some e) (hplain : Plain s ∨ Plain e) : e = s := by
  rcases hplain with hs | he
  · rw [encode_plain hs] at h
    exact (Option.some.inj h).symm
  · have hdecode := decode_encode h
    rw [plain_decode he] at hdecode
    exact Option.some.inj hdecode

theorem coding_lower (h : encodeURIComponent s = some e) (ht : Plain t) :
    e.map asciiLower = t.map asciiLower ↔ s.map asciiLower = t.map asciiLower := by
  constructor
  · intro heq
    rw [← coding_plain h (.inr (plain_of_lower heq ht))]
    exact heq
  · intro heq
    rw [coding_plain h (.inl (plain_of_lower heq ht))]
    exact heq

theorem coding_eq (h : encodeURIComponent s = some e) (ht : Plain t) : e = t ↔ s = t := by
  constructor
  · rintro rfl
    exact (coding_plain h (.inr ht)).symm
  · rintro rfl
    exact coding_plain h (.inl ht)

theorem alphanumeric_unescaped {c : CodeUnit} (h : isAlphanumeric c = true) : isUnescaped c.val = true := by
  simp only [isAlphanumeric, decide_eq_true_eq] at h
  simp only [isUnescaped, decide_eq_true_eq]
  omega

theorem username_plain (h : isValidUsername s = true) : Plain s := by
  intro c hc
  rcases username_units h hc with hc | rfl
  · exact alphanumeric_unescaped hc
  · decide

theorem volumeName_plain (h : isValidVolumeName s = true) : Plain s := by
  simp only [isValidVolumeName, decide_eq_true_eq, List.all_eq_true] at h
  intro c hc
  have hunit := h.2.2.1 c hc
  simp only [isNameUnit, decide_eq_true_eq] at hunit
  rcases hunit with hunit | rfl | hunit | hunit
  · exact alphanumeric_unescaped hunit
  · decide
  · simp [isUnescaped, hunit]
  · simp [isUnescaped, hunit]

theorem username_segment (h : isValidUsername s = true) : s ≠ [] ∧ s ≠ js "." ∧ s ≠ js ".." := by
  simp only [isValidUsername, decide_eq_true_eq] at h
  obtain ⟨hne, -, -, hfirst, -⟩ := h
  refine ⟨hne, ?_, ?_⟩
  · rintro rfl
    exact absurd hfirst (by decide)
  · rintro rfl
    exact absurd hfirst (by decide)

theorem volumeName_segment (h : isValidVolumeName s = true) : s ≠ [] ∧ s ≠ js "." ∧ s ≠ js ".." := by
  simp only [isValidVolumeName, decide_eq_true_eq] at h
  obtain ⟨hne, -, -, hfirst⟩ := h
  refine ⟨hne, ?_, ?_⟩
  · rintro rfl
    exact absurd hfirst (by decide)
  · rintro rfl
    exact absurd hfirst (by decide)

theorem plain_slash (h : Plain s) : slash ∉ s := fun hmem => absurd (h _ hmem) (by decide)

end Plain

/-! ### The shapes of an address -/

/-- Names of a path of the browser plane. -/
def BrowserShaped (ns : List JsString) : Prop :=
  ns[0]? = some (js "user") ∧ ns[1]? = some (js "volumes") ∧ ns[4]? = some (js "files")

/-- Names that begin with the base of a volume, whatever their case. -/
def BaseShaped (owner name : JsString) (ns : List JsString) : Prop :=
  ns[0]?.map (List.map asciiLower) = some (owner.map asciiLower) ∧
    ns[1]?.map (List.map asciiLower) = some (name.map asciiLower)

instance (ns : List JsString) : Decidable (BrowserShaped ns) := inferInstanceAs (Decidable (_ ∧ _ ∧ _))

instance (owner name : JsString) (ns : List JsString) : Decidable (BaseShaped owner name ns) :=
  inferInstanceAs (Decidable (_ ∧ _))

theorem browserInnerFrom_eq (pathname : JsString) :
    browserInnerFrom pathname = if BrowserShaped ((stripSlashes pathname).splitOn slash) then
      some ([slash].intercalate (((stripSlashes pathname).splitOn slash).drop 5)) else none := by
  unfold browserInnerFrom
  rcases (stripSlashes pathname).splitOn slash with
    _ | ⟨a, _ | ⟨b, _ | ⟨c, _ | ⟨d, _ | ⟨e, rest⟩⟩⟩⟩⟩ <;> simp [BrowserShaped]

section Base

variable {p : Platform} {owner name : JsString}

theorem asciiLower_slash {c : CodeUnit} : asciiLower c = slash ↔ c = slash := by
  constructor
  · intro h
    have hval : (asciiLower c).val = 47 := congrArg Fin.val h
    rw [asciiLower_val] at hval
    apply Fin.ext
    change c.val = 47
    split at hval <;> omega
  · rintro rfl
    decide

theorem splitOn_lower (s : JsString) :
    (s.map asciiLower).splitOn slash = (s.splitOn slash).map (List.map asciiLower) := by
  induction s with
  | nil => rfl
  | cons c s ih =>
    rw [List.map_cons, List.splitOn_cons_eq_if_modifyHead, List.splitOn_cons_eq_if_modifyHead, ih]
    by_cases hc : c = slash
    · subst hc
      rfl
    · have hlower : asciiLower c ≠ slash := fun h => hc (asciiLower_slash.mp h)
      rw [if_neg (by simpa using hlower), if_neg (by simpa using hc)]
      cases s.splitOn slash <;> rfl

theorem strip_subset (s : JsString) : ∀ c ∈ stripSlashes s, c ∈ s := by
  intro c hc
  unfold stripSlashes at hc
  have hmem := (List.dropWhile_suffix _).subset (List.mem_reverse.mp hc)
  exact (List.dropWhile_suffix _).subset (List.mem_reverse.mp hmem)

theorem splitOn_slash {s : JsString} (hs : slash ∉ s) (t : JsString) : (s ++ slash :: t).splitOn slash = s :: t.splitOn slash := by
  rw [List.splitOn_append_cons_self, List.splitOn_eq_singleton hs]
  rfl

theorem slash_notMem_map {s : JsString} (hs : slash ∉ s) : slash ∉ s.map asciiLower := by
  rw [List.mem_map]
  rintro ⟨c, hc, hlower⟩
  exact hs (asciiLower_slash.mp hlower ▸ hc)

theorem base_stripped (ho : isValidUsername owner = true) (hn : isValidVolumeName name = true) :
    stripSlashes (pathBaseOf owner name) = owner ++ slash :: name := by
  have hnamed : Named [owner, name] := by
    intro s hs
    rcases List.mem_cons.mp hs with rfl | hs
    · exact ⟨(username_segment ho).1, plain_slash (username_plain ho)⟩
    · rw [List.mem_singleton.mp hs]
      exact ⟨(volumeName_segment hn).1, plain_slash (volumeName_plain hn)⟩
  simpa [pathBaseOf, List.intercalate_cons_cons] using strip_join hnamed (by simp) false

theorem baseShaped_of_split {clean : JsString} {rest : List JsString}
    (h : (clean.map asciiLower).splitOn slash = owner.map asciiLower :: name.map asciiLower :: rest) :
    BaseShaped owner name (clean.splitOn slash) := by
  rw [splitOn_lower] at h
  unfold BaseShaped
  rw [← List.getElem?_map, ← List.getElem?_map, h]
  exact ⟨rfl, rfl⟩

theorem baseShaped_names {ns : List JsString} (h : BaseShaped owner name ns) :
    ∃ o n rest, ns = o :: n :: rest ∧ o.map asciiLower = owner.map asciiLower ∧ n.map asciiLower = name.map asciiLower := by
  obtain ⟨ho, hn⟩ := h
  rcases ns with _ | ⟨o, _ | ⟨n, rest⟩⟩
  · simp at ho
  · simp at hn
  · exact ⟨o, n, rest, rfl, by simpa using ho, by simpa using hn⟩

/-- What the path of a URL is about, if it is not one of the browser plane. -/
theorem innerFromPathname_eq (hp : Standard p) (ho : isValidUsername owner = true) (hn : isValidVolumeName name = true)
    {pathname : JsString} (hascii : pathname.all isAscii = true) (mode : HrefPrefixMode) :
    innerFromPathname p pathname (pathBaseOf owner name) mode =
      if BaseShaped owner name ((stripSlashes pathname).splitOn slash) then
        some ([slash].intercalate (((stripSlashes pathname).splitOn slash).drop 2))
      else if mode = .root then some (stripSlashes pathname) else none := by
  have hclean : p.toLowerCase (stripSlashes pathname) = (stripSlashes pathname).map asciiLower := by
    apply hp.lower
    rw [List.all_eq_true] at hascii ⊢
    exact fun c hc => hascii c (strip_subset pathname c hc)
  have hlower : p.toLowerCase (owner ++ slash :: name) = owner.map asciiLower ++ slash :: name.map asciiLower := by
    rw [hp.lower, List.map_append, List.map_cons, asciiLower_slash.mpr rfl]
    have hslash : isAscii slash = true := by decide
    rw [List.all_append, List.all_cons, plain_ascii (username_plain ho), plain_ascii (volumeName_plain hn), hslash]
    rfl
  unfold innerFromPathname
  simp only [base_stripped ho hn, hclean, hlower]
  generalize stripSlashes pathname = clean
  rw [if_neg (by simp)]
  have hoslash := slash_notMem_map (plain_slash (username_plain ho))
  have hnslash := slash_notMem_map (plain_slash (volumeName_plain hn))
  by_cases hshape : BaseShaped owner name (clean.splitOn slash)
  · rw [if_pos hshape]
    obtain ⟨o, n, rest, hns, hoeq, hneq⟩ := baseShaped_names hshape
    have holength : o.length = owner.length := by simpa using congrArg List.length hoeq
    have hnlength : n.length = name.length := by simpa using congrArg List.length hneq
    have hjoin : clean = [slash].intercalate (o :: n :: rest) := by
      rw [← hns, List.intercalate_splitOn]
    rw [hns]
    cases rest with
    | nil =>
      have heq : clean = o ++ slash :: n := by simpa [List.intercalate_cons_cons] using hjoin
      rw [heq, List.map_append, List.map_cons, asciiLower_slash.mpr rfl, hoeq, hneq, if_pos rfl]
      rfl
    | cons r rest =>
      have heq : clean = (o ++ slash :: n ++ [slash]) ++ [slash].intercalate (r :: rest) := by
        simpa [List.intercalate_cons_cons] using hjoin
      rw [if_neg, if_pos, heq, List.drop_left']
      · rfl
      · simp only [List.length_append, List.length_cons, List.length_nil, holength, hnlength]
      · rw [heq]
        simp [asciiLower_slash.mpr rfl, hoeq, hneq]
      · intro he
        have hlength := congrArg List.length he
        rw [heq] at hlength
        simp [holength, hnlength] at hlength
  · rw [if_neg hshape, if_neg, if_neg]
    · rintro ⟨t, ht⟩
      have hsplit : (clean.map asciiLower).splitOn slash =
          owner.map asciiLower :: name.map asciiLower :: t.splitOn slash := by
        rw [← ht, List.append_assoc, List.append_assoc, List.cons_append, splitOn_slash hoslash,
          List.singleton_append, splitOn_slash hnslash]
      exact hshape (baseShaped_of_split hsplit)
    · intro he
      have hsplit : (clean.map asciiLower).splitOn slash = [owner.map asciiLower, name.map asciiLower] := by
        rw [he, splitOn_slash hoslash, List.splitOn_eq_singleton hnslash]
      exact hshape (baseShaped_of_split hsplit)

/-- What the front door takes a path to be about: the three shapes in their order of preference. -/
theorem front_inner (hp : Standard p) (ho : isValidUsername owner = true) (hn : isValidVolumeName name = true)
    {pathname : JsString} (hascii : pathname.all isAscii = true) (mode : HrefPrefixMode) {ns : List JsString}
    (hns : (stripSlashes pathname).splitOn slash = ns) :
    (browserInnerFrom pathname).or (innerFromPathname p pathname (pathBaseOf owner name) mode) =
      if BrowserShaped ns then some ([slash].intercalate (ns.drop 5))
      else if BaseShaped owner name ns then some ([slash].intercalate (ns.drop 2))
      else if mode = .root then some ([slash].intercalate ns) else none := by
  rw [browserInnerFrom_eq, innerFromPathname_eq hp ho hn hascii, hns]
  have hclean : stripSlashes pathname = [slash].intercalate ns := by rw [← hns, List.intercalate_splitOn]
  split
  · rfl
  · rw [hclean]
    rfl

end Base

end DurableDav.Front
