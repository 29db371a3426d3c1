import DurableDav.Library.JsSearch
import DurableDav.Library.UriComponent

namespace DurableDav.Library

/-! ### Documents -/

structure XmlName where
  nsPrefix : Option JsString
  localName : JsString
  deriving DecidableEq

structure XmlTag where
  name : XmlName
  attributes : List (XmlName × JsString)
  deriving DecidableEq

/-- What stands in an element, one piece after the other; an element that is closed at once has nothing in it. -/
inductive XmlContent
  | nil
  | text (s : JsString) (rest : XmlContent)
  | closed (tag : XmlTag) (rest : XmlContent)
  | element (tag : XmlTag) (content rest : XmlContent)
  deriving DecidableEq

structure XmlDocument where
  tag : XmlTag
  content : XmlContent
  deriving DecidableEq

def XmlName.write (name : XmlName) : JsString :=
  match name.nsPrefix with
  | some t => t ++ 58 :: name.localName
  | none => name.localName

def writeAttribute (a : XmlName × JsString) : JsString := 32 :: a.1.write ++ 61 :: 34 :: escapeXml a.2 ++ [34]

def XmlTag.write (tag : XmlTag) : JsString := tag.name.write ++ tag.attributes.flatMap writeAttribute

def XmlContent.write : XmlContent → JsString
  | nil => []
  | text s rest => escapeXml s ++ rest.write
  | closed tag rest => 60 :: tag.write ++ js " />" ++ rest.write
  | element tag content rest =>
    60 :: tag.write ++ 62 :: content.write ++ js "</" ++ tag.name.write ++ 62 :: rest.write

def XmlContent.size : XmlContent → ℕ
  | nil => 1
  | text _ rest => 1 + rest.size
  | closed _ rest => 1 + rest.size
  | element _ content rest => 1 + content.size + rest.size

def xmlDeclaration : JsString := js "<?xml version=\"1.0\" encoding=\"utf-8\"?>\n"

def XmlDocument.write (d : XmlDocument) : JsString :=
  xmlDeclaration ++ (XmlContent.element d.tag d.content .nil).write ++ js "\n"

/-! ### Reading them -/

def xmlEntities : List (JsString × CodeUnit) :=
  [(js "amp;", 38), (js "lt;", 60), (js "gt;", 62), (js "quot;", 34), (js "apos;", 39)]

def unescapeXml : JsString → Option JsString
  | [] => some []
  | c :: rest =>
    if c = 38 then
      match xmlEntities.find? fun e => e.1.isPrefixOf rest with
      | none => none
      | some e => (unescapeXml (rest.drop e.1.length)).map (e.2 :: ·)
    else (unescapeXml rest).map (c :: ·)
termination_by s => s.length
decreasing_by all_goals simp only [List.length_drop, List.length_cons]; omega

def readXmlName (s : JsString) : XmlName :=
  match cutAt 58 s with
  | some (t, name) => ⟨some t, name⟩
  | none => ⟨none, s⟩

/-- The attributes of a tag, of which there are at most so many. -/
def readAttributes : ℕ → JsString → Option (List (XmlName × JsString))
  | _, [] => some []
  | 0, _ :: _ => none
  | n + 1, c :: s => do
    if c ≠ 32 then none
    let (name, s) ← cutAt 61 s
    if s.head? ≠ some 34 then none
    let (value, s) ← cutAt 34 s.tail
    let value ← unescapeXml value
    let rest ← readAttributes n s
    some ((readXmlName name, value) :: rest)

def readTag (s : JsString) : Option XmlTag :=
  (readAttributes s.length (s.dropWhile fun c => c ≠ 32)).map fun attributes =>
    ⟨readXmlName (s.takeWhile fun c => c ≠ 32), attributes⟩

/-- The pieces up to the end of what they stand in, and what comes behind. -/
def readContent : ℕ → JsString → Option (XmlContent × JsString)
  | 0, _ => none
  | _ + 1, [] => some (.nil, [])
  | n + 1, c :: s =>
    if c ≠ 60 then do
      let t ← unescapeXml ((c :: s).takeWhile fun d => d ≠ 60)
      let (rest, s) ← readContent n ((c :: s).dropWhile fun d => d ≠ 60)
      some (.text t rest, s)
    else if s.head? = some 47 then some (.nil, c :: s)
    else do
      let (body, s) ← cutAt 62 s
      if js " /" <:+ body then
        let tag ← readTag body.dropLast.dropLast
        let (rest, s) ← readContent n s
        some (.closed tag rest, s)
      else
        let tag ← readTag body
        let (content, s) ← readContent n s
        let (ending, s) ← cutAt 62 s
        if ending ≠ js "</" ++ tag.name.write then none
        let (rest, s) ← readContent n s
        some (.element tag content rest, s)

/-- The pieces of a text that has nothing else in it. -/
def readFragment (s : JsString) : XmlContent :=
  match readContent (s.length + 1) s with
  | some (content, []) => content
  | _ => .nil

def readDocument (s : JsString) : Option XmlDocument :=
  if xmlDeclaration.isPrefixOf s then
    match readContent (s.length + 1) (trim (s.drop xmlDeclaration.length)) with
    | some (.element tag content .nil, []) => some ⟨tag, content⟩
    | _ => none
  else none

/-! ### What may be written -/

def isNcUnit (c : CodeUnit) : Bool := isWordUnit c ∨ c.val ∈ [45, 46]

/-- A name without a colon, of those with ASCII units only. -/
def IsNcName (s : JsString) : Prop := s.head?.any (fun c => isWordUnit c && !isDigitUnit c) ∧ s.all isNcUnit

def isXmlUnit (c : CodeUnit) : Bool := c.val ∈ [9, 10] ∨ 32 ≤ c.val ∧ c.val ∉ [65534, 65535]

/-- What a parser hands out as it is written: no control characters, of which some are not allowed and some become others, and
no half of a surrogate pair. -/
def IsXmlText (s : JsString) : Prop := s.all isXmlUnit ∧ (codePoints s).isSome

instance (s : JsString) : Decidable (IsNcName s) := inferInstanceAs (Decidable (_ ∧ _))

instance (s : JsString) : Decidable (IsXmlText s) := inferInstanceAs (Decidable (_ ∧ _))

def isPrintable (c : CodeUnit) : Bool := 32 ≤ c.val ∧ c.val ≤ 126

theorem isXmlText_cons {c : CodeUnit} {s : JsString} (hc : isPrintable c = true) : IsXmlText (c :: s) ↔ IsXmlText s := by
  have hrange : 32 ≤ c.val ∧ c.val ≤ 126 := by simpa [isPrintable] using hc
  have hsingle : isSurrogate c.val = false := by
    simp only [isSurrogate, decide_eq_false_iff_not]
    omega
  have hunit : isXmlUnit c = true := by
    simp only [isXmlUnit, List.mem_cons, List.not_mem_nil, or_false, decide_eq_true_eq]
    omega
  have hpoints := codePoints_split hsingle [] s
  rw [List.nil_append] at hpoints
  unfold IsXmlText
  rw [List.all_cons, hunit, Bool.true_and, hpoints]
  exact and_congr_right fun _ => and_iff_right rfl

theorem isXmlText_append {s t : JsString} (h : s.all isPrintable) : IsXmlText (s ++ t) ↔ IsXmlText t := by
  induction s with
  | nil => rfl
  | cons c s ih =>
    rw [List.all_cons, Bool.and_eq_true] at h
    rw [List.cons_append, isXmlText_cons h.1, ih h.2]

theorem isXmlText_printable {s : JsString} (h : s.all isPrintable) : IsXmlText s := by
  rw [← List.append_nil s, isXmlText_append h]
  exact ⟨rfl, rfl⟩

def XmlName.WellFormed (name : XmlName) : Prop := (∀ t ∈ name.nsPrefix, IsNcName t) ∧ IsNcName name.localName

/-- The prefixes that a tag declares. -/
def XmlTag.declared (tag : XmlTag) : List JsString :=
  tag.attributes.filterMap fun a => if a.1.nsPrefix = some (js "xmlns") then some a.1.localName else none

def xmlNamespace : JsString := js "http://www.w3.org/XML/1998/namespace"

def xmlnsNamespace : JsString := js "http://www.w3.org/2000/xmlns/"

/-- A name and a value that may stand in a tag, if it is one that declares a namespace. -/
def Declares (name : XmlName) (value : JsString) : Prop :=
  (name.nsPrefix = some (js "xmlns") → value ≠ [] ∧ value ≠ xmlnsNamespace ∧ name.localName ≠ js "xmlns" ∧
    (name.localName = js "xml" ↔ value = xmlNamespace)) ∧
  (name = ⟨none, js "xmlns"⟩ → value ≠ xmlnsNamespace ∧ value ≠ xmlNamespace)

structure XmlTag.WellFormed (tag : XmlTag) (scope : List JsString) : Prop where
  name : tag.name.WellFormed
  bound : ∀ t ∈ tag.name.nsPrefix, t ∈ tag.declared ++ scope
  attributes : ∀ a ∈ tag.attributes, a.1.WellFormed ∧ IsXmlText a.2 ∧ ∀ c ∈ a.2, 32 ≤ c.val
  attributesBound : ∀ a ∈ tag.attributes, ∀ t ∈ a.1.nsPrefix, t = js "xmlns" ∨ t ∈ tag.declared ++ scope
  nodup : (tag.attributes.map Prod.fst).Nodup
  namespaces : ∀ a ∈ tag.attributes, Declares a.1 a.2

/-- It begins with characters. -/
def XmlContent.startsText : XmlContent → Prop
  | text _ _ => True
  | _ => False

/-- In the scope of these prefixes. -/
def XmlContent.WellFormed : XmlContent → List JsString → Prop
  | nil, _ => True
  | text s rest, scope => s ≠ [] ∧ IsXmlText s ∧ ¬ rest.startsText ∧ rest.WellFormed scope
  | closed tag rest, scope => tag.WellFormed scope ∧ rest.WellFormed scope
  | element tag content rest, scope =>
    tag.WellFormed scope ∧ content.WellFormed (tag.declared ++ scope) ∧ rest.WellFormed scope

structure XmlDocument.WellFormed (d : XmlDocument) : Prop where
  tag : d.tag.WellFormed []
  content : d.content.WellFormed d.tag.declared

/-! ### What is written is read back -/

section RoundTrip

variable {s t : JsString} {c : CodeUnit} {name : XmlName} {tag : XmlTag} {scope : List JsString}

theorem unescape_unit (c : CodeUnit) (s : JsString) :
    unescapeXml (escapeUnit c ++ s) = (unescapeXml s).map (c :: ·) := by
  have hentity (e : JsString × CodeUnit)
      (hfind : xmlEntities.find? (fun e' => e'.1.isPrefixOf (e.1 ++ s)) = some e) :
      unescapeXml (38 :: e.1 ++ s) = (unescapeXml s).map (e.2 :: ·) := by
    rw [List.cons_append, unescapeXml, if_pos rfl, hfind]
    simp
  unfold escapeUnit
  split
  · rename_i h
    obtain rfl : c = 38 := Fin.ext h
    exact hentity (js "amp;", 38) rfl
  · split
    · rename_i h
      obtain rfl : c = 60 := Fin.ext h
      exact hentity (js "lt;", 60) rfl
    · split
      · rename_i h
        obtain rfl : c = 62 := Fin.ext h
        exact hentity (js "gt;", 62) rfl
      · split
        · rename_i h
          obtain rfl : c = 34 := Fin.ext h
          exact hentity (js "quot;", 34) rfl
        · split
          · rename_i h
            obtain rfl : c = 39 := Fin.ext h
            exact hentity (js "apos;", 39) rfl
          · rename_i h _ _ _ _
            have hne : c ≠ 38 := fun he => h (congrArg Fin.val he)
            rw [List.singleton_append, unescapeXml, if_neg hne]

theorem unescape_escape (s : JsString) : unescapeXml (escapeXml s) = some s := by
  induction s with
  | nil => rw [escapeXml, List.flatMap_nil, unescapeXml]
  | cons c s ih =>
    unfold escapeXml at ih ⊢
    rw [List.flatMap_cons, unescape_unit, ih]
    rfl

/-- None of the units that mean something in a document is left. -/
theorem mem_escapeXml (h : c ∈ escapeXml s) : c ≠ 60 ∧ c ≠ 62 ∧ c ≠ 34 := by
  have hentity {e : JsString} (hall : e.all (fun c => c ≠ 60 ∧ c ≠ 62 ∧ c ≠ 34) = true) (hc : c ∈ e) :
      c ≠ 60 ∧ c ≠ 62 ∧ c ≠ 34 := by simpa using List.all_eq_true.mp hall c hc
  obtain ⟨d, -, hc⟩ := List.mem_flatMap.mp h
  unfold escapeUnit at hc
  split_ifs at hc with h₁ h₂ h₃ h₄ h₅
  · exact hentity (by decide) hc
  · exact hentity (by decide) hc
  · exact hentity (by decide) hc
  · exact hentity (by decide) hc
  · exact hentity (by decide) hc
  · obtain rfl := List.mem_singleton.mp hc
    exact ⟨fun he => h₂ (congrArg Fin.val he), fun he => h₃ (congrArg Fin.val he), fun he => h₄ (congrArg Fin.val he)⟩

theorem escapeXml_ne_nil (h : s ≠ []) : escapeXml s ≠ [] := by
  cases s with
  | nil => exact absurd rfl h
  | cons c s =>
    unfold escapeXml escapeUnit
    rw [List.flatMap_cons]
    split_ifs <;> simp [js]

theorem isNcName_units (h : IsNcName s) : s ≠ [] ∧ ∀ c ∈ s, c.val ≠ 32 ∧ c.val ≠ 47 ∧ c.val ≠ 58 ∧ c.val ≠ 61 ∧ c.val ≠ 62 := by
  obtain ⟨hhead, hall⟩ := h
  constructor
  · rintro rfl
    cases hhead
  · intro c hc
    have hunit := List.all_eq_true.mp hall c hc
    simp only [isNcUnit, isWordUnit, List.mem_cons, List.not_mem_nil, or_false, decide_eq_true_eq] at hunit
    omega

theorem write_name_units (h : name.WellFormed) :
    name.write ≠ [] ∧ ∀ c ∈ name.write, c.val ≠ 32 ∧ c.val ≠ 47 ∧ c.val ≠ 61 ∧ c.val ≠ 62 := by
  obtain ⟨hne, hlocal⟩ := isNcName_units h.2
  unfold XmlName.write
  cases ht : name.nsPrefix with
  | none => exact ⟨hne, fun c hc => ⟨(hlocal c hc).1, (hlocal c hc).2.1, (hlocal c hc).2.2.2⟩⟩
  | some t =>
    obtain ⟨-, hpre⟩ := isNcName_units (h.1 t ht)
    refine ⟨by simp, fun c hc => ?_⟩
    rcases List.mem_append.mp hc with hc | hc
    · exact ⟨(hpre c hc).1, (hpre c hc).2.1, (hpre c hc).2.2.2⟩
    · rcases List.mem_cons.mp hc with rfl | hc
      · decide
      · exact ⟨(hlocal c hc).1, (hlocal c hc).2.1, (hlocal c hc).2.2.2⟩

theorem readXmlName_write (h : name.WellFormed) : readXmlName name.write = name := by
  obtain ⟨-, hlocal⟩ := isNcName_units h.2
  unfold readXmlName XmlName.write
  cases name with
  | mk nsPrefix localName =>
    cases nsPrefix with
    | none =>
      have hno : 58 ∉ localName := fun hmem => (hlocal 58 hmem).2.2.1 rfl
      dsimp only
      rw [cutAt_none hno]
    | some t =>
      obtain ⟨-, hpre⟩ := isNcName_units (h.1 t rfl)
      dsimp only
      rw [cutAt_append fun hmem => (hpre 58 hmem).2.2.1 rfl]

theorem readAttributes_write {attributes : List (XmlName × JsString)} (h : ∀ a ∈ attributes, a.1.WellFormed) {n : ℕ}
    (hn : attributes.length ≤ n) : readAttributes n (attributes.flatMap writeAttribute) = some attributes := by
  induction attributes generalizing n with
  | nil => cases n <;> rfl
  | cons a attributes ih =>
    obtain ⟨ha, hrest⟩ := List.forall_mem_cons.mp h
    obtain ⟨n, rfl⟩ : ∃ m, n = m + 1 := ⟨n - 1, by rw [List.length_cons] at hn; omega⟩
    have hname : (61 : CodeUnit) ∉ a.1.write := fun hmem => ((write_name_units ha).2 61 hmem).2.2.1 rfl
    have hvalue : (34 : CodeUnit) ∉ escapeXml a.2 := fun hmem => (mem_escapeXml hmem).2.2 rfl
    have hwrite : (a :: attributes).flatMap writeAttribute =
        32 :: (a.1.write ++ 61 :: 34 :: (escapeXml a.2 ++ 34 :: attributes.flatMap writeAttribute)) := by
      simp [writeAttribute]
    rw [hwrite, readAttributes, if_neg (by simp), cutAt_append hname]
    simp only [Option.bind_eq_bind, Option.bind_some, List.head?_cons, ne_eq, not_true_eq_false,
      ↓reduceIte, List.tail_cons, cutAt_append hvalue, unescape_escape]
    rw [ih hrest (by rw [List.length_cons] at hn; omega), Option.bind_some, readXmlName_write ha]

theorem readTag_write (h : tag.WellFormed scope) : readTag tag.write = some tag := by
  obtain ⟨-, hunits⟩ := write_name_units h.name
  have hname : ∀ c ∈ tag.name.write, decide (c ≠ 32) = true := by
    intro c hc
    exact decide_eq_true fun he => (hunits c hc).1 (congrArg Fin.val he)
  have hrest : (tag.attributes.flatMap writeAttribute).takeWhile (fun c => c ≠ 32) = [] := by
    cases tag.attributes with
    | nil => rfl
    | cons a attributes => rfl
  have hlength : tag.attributes.length ≤ tag.write.length := by
    unfold XmlTag.write
    rw [List.length_append, List.length_flatMap]
    have hsum := List.length_le_sum_of_one_le (tag.attributes.map fun a => (writeAttribute a).length) (by
      intro k hk
      obtain ⟨a, -, rfl⟩ := List.mem_map.mp hk
      simp [writeAttribute])
    rw [List.length_map] at hsum
    omega
  have hattributes := readAttributes_write (fun a ha => (h.attributes a ha).1) hlength
  unfold readTag
  unfold XmlTag.write at hattributes ⊢
  rw [List.takeWhile_append_of_pos hname, List.dropWhile_append_of_pos hname, hrest, List.append_nil,
    readXmlName_write h.name]
  have hdrop : (tag.attributes.flatMap writeAttribute).dropWhile (fun c => c ≠ 32) = tag.attributes.flatMap writeAttribute := by
    cases tag.attributes with
    | nil => rfl
    | cons a attributes => rfl
  rw [hdrop, hattributes]
  rfl

theorem writeAttribute_units (a : XmlName × JsString) (h : a.1.WellFormed) :
    (∀ c ∈ writeAttribute a, c ≠ 62) ∧ (writeAttribute a).getLast? = some 34 := by
  constructor
  · intro c hc
    simp only [writeAttribute, List.mem_append, List.mem_cons, List.not_mem_nil, or_false] at hc
    rcases hc with ((rfl | hc) | rfl | rfl | hc) | rfl
    · decide
    · exact fun he => ((write_name_units h).2 c hc).2.2.2 (congrArg Fin.val he)
    · decide
    · decide
    · exact (mem_escapeXml hc).2.1
    · decide
  · exact List.getLast?_concat

theorem write_tag_units (h : tag.WellFormed scope) :
    (∀ c ∈ tag.write, c ≠ 62) ∧ tag.write.head? ≠ some 47 ∧ tag.write.getLast? ≠ some 47 ∧ tag.write ≠ [] := by
  obtain ⟨hne, hunits⟩ := write_name_units h.name
  have hattributes : ∀ a ∈ tag.attributes, a.1.WellFormed := fun a ha => (h.attributes a ha).1
  unfold XmlTag.write
  refine ⟨fun c hc => ?_, ?_, ?_, by simp [hne]⟩
  · rcases List.mem_append.mp hc with hc | hc
    · exact fun he => (hunits c hc).2.2.2 (congrArg Fin.val he)
    · obtain ⟨a, ha, hc⟩ := List.mem_flatMap.mp hc
      exact (writeAttribute_units a (hattributes a ha)).1 c hc
  · rw [List.head?_append_of_ne_nil _ hne]
    intro hhead
    exact (hunits 47 (List.mem_of_mem_head? hhead)).2.1 rfl
  · rcases List.eq_nil_or_concat tag.attributes with hnil | ⟨before, a, hlast⟩
    · rw [hnil, List.flatMap_nil, List.append_nil]
      intro hend
      exact (hunits 47 (List.mem_of_mem_getLast? hend)).2.1 rfl
    · rw [List.concat_eq_append] at hlast
      have hend := (writeAttribute_units a (hattributes a (by simp [hlast]))).2
      have hwritten : writeAttribute a ≠ [] := by
        intro hnil
        rw [hnil] at hend
        cases hend
      rw [hlast, List.flatMap_append, List.flatMap_singleton, ← List.append_assoc,
        List.getLast?_append_of_ne_nil _ hwritten, hend]
      decide

theorem size_le_write {f : XmlContent} (h : f.WellFormed scope) : f.size ≤ f.write.length + 1 := by
  induction f generalizing scope with
  | nil => exact le_rfl
  | text t rest ih =>
    have hrest := ih h.2.2.2
    have hpos := List.length_pos_of_ne_nil (escapeXml_ne_nil h.1)
    simp only [XmlContent.size, XmlContent.write, List.length_append]
    omega
  | closed tag rest ih =>
    have hrest := ih h.2
    simp only [XmlContent.size, XmlContent.write, List.length_append, List.length_cons]
    omega
  | element tag content rest ihc ihr =>
    have hcontent := ihc h.2.1
    have hrest := ihr h.2.2
    simp only [XmlContent.size, XmlContent.write, List.length_append, List.length_cons]
    omega

/-- What does not begin with characters begins with a tag, if what it is written before does. -/
theorem write_head {f : XmlContent} (h : ¬ f.startsText) (hs : ∀ c ∈ s.head?, c = 60) : ∀ c ∈ (f.write ++ s).head?, c = 60 := by
  cases f with
  | nil => exact hs
  | text t rest => exact absurd trivial h
  | closed tag rest =>
    rintro c hc
    exact (Option.mem_some.mp hc).symm
  | element tag content rest =>
    rintro c hc
    exact (Option.mem_some.mp hc).symm

theorem readContent_write {f : XmlContent} (h : f.WellFormed scope) {n : ℕ} (hn : f.size ≤ n)
    (hs : s = [] ∨ js "</" <+: s) : readContent n (f.write ++ s) = some (f, s) := by
  have hend : ∀ c ∈ s.head?, c = 60 := by
    rcases hs with rfl | ⟨t, rfl⟩
    · simp
    · rintro c hc
      exact (Option.mem_some.mp hc).symm
  induction f generalizing n s scope with
  | nil =>
    obtain ⟨n, rfl⟩ : ∃ m, n = m + 1 := ⟨n - 1, by rw [XmlContent.size] at hn; omega⟩
    rcases hs with rfl | ⟨t, rfl⟩
    · rfl
    · change readContent (n + 1) (60 :: 47 :: t) = _
      rw [readContent, if_neg (by simp), List.head?_cons, if_pos rfl]
      rfl
  | text t rest ih =>
    obtain ⟨hne, -, hrest, hwell⟩ := h
    rw [XmlContent.size] at hn
    obtain ⟨n, rfl⟩ : ∃ m, n = m + 1 := ⟨n - 1, by omega⟩
    obtain ⟨c, e, hesc⟩ := List.exists_cons_of_ne_nil (escapeXml_ne_nil hne)
    have hall : ∀ d ∈ escapeXml t, decide (d ≠ 60) = true := fun d hd => decide_eq_true (mem_escapeXml hd).1
    have hc : c ≠ 60 := (mem_escapeXml (hesc ▸ List.mem_cons_self : c ∈ escapeXml t)).1
    have hbehind := write_head hrest hend
    have htake : (escapeXml t ++ (rest.write ++ s)).takeWhile (fun d => d ≠ 60) = escapeXml t := by
      rw [List.takeWhile_append_of_pos hall]
      cases hr : rest.write ++ s with
      | nil => simp
      | cons d r =>
        rw [hr] at hbehind
        simp [hbehind d rfl]
    have hdrop : (escapeXml t ++ (rest.write ++ s)).dropWhile (fun d => d ≠ 60) = rest.write ++ s := by
      rw [List.dropWhile_append_of_pos hall]
      cases hr : rest.write ++ s with
      | nil => simp
      | cons d r =>
        rw [hr] at hbehind
        simp [hbehind d rfl]
    have hread := ih hwell (by omega : rest.size ≤ n) hs hend
    have hwritten : (XmlContent.text t rest).write ++ s = c :: (e ++ (rest.write ++ s)) := by
      rw [XmlContent.write, hesc, List.append_assoc]
      rfl
    have hsplit : c :: (e ++ (rest.write ++ s)) = escapeXml t ++ (rest.write ++ s) := by rw [hesc]; rfl
    rw [hwritten, readContent, if_pos hc, hsplit, htake, hdrop, unescape_escape, hread]
    rfl
  | closed tag rest ih =>
    obtain ⟨htag, hwell⟩ := h
    obtain ⟨hcloses, hhead, -, hne⟩ := write_tag_units htag
    rw [XmlContent.size] at hn
    obtain ⟨n, rfl⟩ : ∃ m, n = m + 1 := ⟨n - 1, by omega⟩
    have hwritten : (XmlContent.closed tag rest).write ++ s =
        60 :: ((tag.write ++ js " /") ++ 62 :: (rest.write ++ s)) := by
      simp [XmlContent.write, js]
    have hno : (62 : CodeUnit) ∉ tag.write ++ js " /" := by
      intro hmem
      rcases List.mem_append.mp hmem with hmem | hmem
      · exact hcloses 62 hmem rfl
      · revert hmem
        decide
    have hfirst : (tag.write ++ js " /" ++ 62 :: (rest.write ++ s)).head? ≠ some 47 := by
      rw [List.append_assoc, List.head?_append_of_ne_nil _ hne]
      exact hhead
    have hbody : (tag.write ++ js " /").dropLast.dropLast = tag.write := by
      rw [show js " /" = [32, 47] from rfl, show tag.write ++ [32, 47] = tag.write ++ [32] ++ [47] by simp,
        List.dropLast_concat, List.dropLast_concat]
    rw [hwritten, readContent, if_neg (by simp), if_neg hfirst, cutAt_append hno]
    simp only [Option.bind_eq_bind, Option.bind_some]
    rw [if_pos (List.suffix_append _ _), hbody, readTag_write htag, Option.bind_some,
      ih hwell (by omega : rest.size ≤ n) hs hend]
    rfl
  | element tag content rest ihc ihr =>
    obtain ⟨htag, hcontent, hwell⟩ := h
    obtain ⟨hcloses, hhead, hlast, hne⟩ := write_tag_units htag
    rw [XmlContent.size] at hn
    obtain ⟨n, rfl⟩ : ∃ m, n = m + 1 := ⟨n - 1, by omega⟩
    have hwritten : (XmlContent.element tag content rest).write ++ s =
        60 :: (tag.write ++ 62 :: (content.write ++ ((js "</" ++ tag.name.write) ++ 62 :: (rest.write ++ s)))) := by
      simp [XmlContent.write]
    have hfirst : (tag.write ++ 62 :: (content.write ++ ((js "</" ++ tag.name.write) ++ 62 :: (rest.write ++ s)))).head? ≠
        some 47 := by
      rw [List.head?_append_of_ne_nil _ hne]
      exact hhead
    have hopen : ¬ js " /" <:+ tag.write := by
      rintro ⟨t, ht⟩
      apply hlast
      rw [← ht, show js " /" = [32] ++ [47] from rfl, ← List.append_assoc, List.getLast?_concat]
    have hno : (62 : CodeUnit) ∉ js "</" ++ tag.name.write := by
      intro hmem
      rcases List.mem_append.mp hmem with hmem | hmem
      · revert hmem
        decide
      · exact ((write_name_units htag.name).2 62 hmem).2.2.2 rfl
    have hinner := ihc hcontent (by omega : content.size ≤ n)
      (s := (js "</" ++ tag.name.write) ++ 62 :: (rest.write ++ s)) (.inr (by rw [List.append_assoc]; exact List.prefix_append _ _))
      (by
        rintro c hc
        exact (Option.mem_some.mp hc).symm)
    rw [hwritten, readContent, if_neg (by simp), if_neg hfirst, cutAt_append fun hmem => hcloses 62 hmem rfl]
    simp only [Option.bind_eq_bind, Option.bind_some]
    rw [if_neg hopen, readTag_write htag, Option.bind_some, hinner, Option.bind_some, cutAt_append hno, Option.bind_some]
    rw [if_neg (by simp), ihr hwell (by omega : rest.size ≤ n) hs hend]
    rfl

/-- A text is that of pieces that may stand in the scope of the prefixes. -/
def IsFragment (scope : List JsString) (s : JsString) : Prop := ∃ f : XmlContent, f.WellFormed scope ∧ f.write = s

theorem readFragment_write {f : XmlContent} (h : f.WellFormed scope) : readFragment f.write = f := by
  have hread := readContent_write h (size_le_write h) (s := []) (.inl rfl)
  rw [List.append_nil] at hread
  rw [readFragment, hread]

theorem IsFragment.read (h : IsFragment scope s) : (readFragment s).WellFormed scope ∧ (readFragment s).write = s := by
  obtain ⟨f, hwell, rfl⟩ := h
  rw [readFragment_write hwell]
  exact ⟨hwell, rfl⟩

theorem trim_write (tag : XmlTag) (content : XmlContent) :
    trim ((XmlContent.element tag content .nil).write ++ js "\n") = (XmlContent.element tag content .nil).write := by
  have hends : (XmlContent.element tag content .nil).write =
      60 :: (tag.write ++ 62 :: content.write ++ js "</" ++ tag.name.write) ++ [62] := by simp [XmlContent.write]
  have hopens : isWhiteSpace 60 = false := by decide
  rw [trim_eq, hends, List.cons_append, List.cons_append, List.dropWhile_cons_of_neg (by simp [hopens]), ← List.cons_append,
    ← List.cons_append, show js "\n" = [10] from rfl, List.rdropWhile_concat_pos _ _ _ (by decide),
    List.rdropWhile_concat_neg _ _ _ (by decide)]

/-- A document that is well formed is read as what it is written from. -/
theorem readDocument_write {d : XmlDocument} (h : d.WellFormed) : readDocument d.write = some d := by
  have hroot : (XmlContent.element d.tag d.content .nil).WellFormed [] :=
    ⟨h.tag, by rw [List.append_nil]; exact h.content, trivial⟩
  have hsize := size_le_write hroot
  have hwritten : d.write = xmlDeclaration ++ ((XmlContent.element d.tag d.content .nil).write ++ js "\n") := by
    rw [XmlDocument.write, List.append_assoc]
  have hfuel : (XmlContent.element d.tag d.content .nil).size ≤ d.write.length + 1 := by
    rw [hwritten, List.length_append, List.length_append]
    omega
  have hread := readContent_write hroot hfuel (s := []) (.inl rfl)
  rw [List.append_nil] at hread
  unfold readDocument
  rw [if_pos (by rw [hwritten, List.isPrefixOf_iff_prefix]; exact List.prefix_append _ _)]
  have hdrop : d.write.drop xmlDeclaration.length = (XmlContent.element d.tag d.content .nil).write ++ js "\n" := by
    rw [hwritten, List.drop_left]
  rw [hdrop, trim_write, hread]

end RoundTrip

end DurableDav.Library
