import DurableDav.Dav.Conditional

namespace DurableDav.Dav

open Library

/-! ### The header as it is written

A header is made of lists, each in parentheses, and a list of conditions: the token of a lock in angle brackets or an entity
tag in square ones, either of which may be negated. -/

abbrev Space := { s : JsString // ∀ c ∈ s, isIfWhitespace c = true }

theorem nil_blank : ∀ c ∈ ([] : JsString), isIfWhitespace c = true := fun _ hc => absurd hc List.not_mem_nil

structure Uri where
  text : JsString
  valid : ∀ c ∈ text, c ≠ 60 ∧ c ≠ 62 ∧ isIfWhitespace c = false

structure EntityTag where
  weak : Bool
  opaqueTag : JsString
  valid : 34 ∉ opaqueTag

def EntityTag.text (e : EntityTag) : JsString := (if e.weak then js "W/" else []) ++ 34 :: (e.opaqueTag ++ [34])

/-- What a condition is about. -/
inductive Subject
  | token (u : Uri)
  | etag (before : Space) (e : EntityTag) (after : Space)

structure Negation where
  word : JsString
  valid : word.map asciiLower = js "not"
  space : Space

structure IfTest where
  space : Space
  negation : Option Negation
  subject : Subject

structure IfList where
  tag : Option (Space × Uri)
  space : Space
  first : IfTest
  rest : List IfTest
  closing : Space

/-- Either no list has a tag, or the first one has. -/
structure IfHeader where
  first : IfList
  rest : List IfList
  valid : first.tag = none → ∀ l ∈ rest, l.tag = none

theorem nil_untagged (first : IfList) : first.tag = none → ∀ l ∈ ([] : List IfList), l.tag = none :=
  fun _ _ hl => absurd hl List.not_mem_nil

def Subject.render : Subject → JsString
  | token u => 60 :: (u.text ++ [62])
  | etag before e after => 91 :: (before.val ++ e.text ++ after.val ++ [93])

def Negation.render (n : Negation) : JsString := n.word ++ n.space.val

def IfTest.render (c : IfTest) : JsString := c.space.val ++ (c.negation.map Negation.render).getD [] ++ c.subject.render

/-- What stands before the parenthesis of a list. -/
def IfList.opening (l : IfList) : JsString :=
  (l.tag.map (fun t => t.1.val ++ 60 :: (t.2.text ++ [62]))).getD [] ++ l.space.val

/-- What follows the first condition of a list. -/
def IfList.remainder (l : IfList) : JsString := l.rest.flatMap IfTest.render ++ l.closing.val ++ [41]

def IfList.render (l : IfList) : JsString := l.opening ++ 40 :: (l.first.render ++ l.remainder)

def IfHeader.lists (h : IfHeader) : List IfList := h.first :: h.rest

def IfHeader.render (h : IfHeader) : JsString := h.lists.flatMap IfList.render

/-! ### What is read of it -/

def IfTest.negated (c : IfTest) : Bool := c.negation.isSome

def IfTest.read (p : Platform) (c : IfTest) : IfCondition := match c.subject with
  | .token u => if p.toLowerCase u.text = js "dav:no-lock" then .noLock c.negated else .token u.text c.negated
  | .etag _ e _ => .etag e.text c.negated

/-- The condition is read to its end: a negation is set off, and the tag holds no bracket. -/
def IfTest.Plain (c : IfTest) : Bool := c.negation.all (fun n => n.space.val ≠ []) && match c.subject with
  | .token _ => true
  | .etag _ e _ => decide (93 ∉ e.opaqueTag)

/-- No parenthesis stands where none opens a list. -/
def IfList.Plain (l : IfList) : Bool :=
  l.tag.all (fun t => 40 ∉ t.2.text) && l.rest.all (fun c => 40 ∉ c.render) && l.first.Plain

def IfHeader.Plain (h : IfHeader) : Bool := h.lists.all IfList.Plain

section Reading

variable {p : Platform}

theorem skip_space (s : Space) {c : CodeUnit} {t : JsString} (hc : isIfWhitespace c = false) :
    (s.val ++ c :: t).dropWhile isIfWhitespace = c :: t := by
  rw [List.dropWhile_append_of_pos s.property]
  simp [hc]

theorem space_excludes (s : Space) {c : CodeUnit} (hc : isIfWhitespace c = false) : c ∉ s.val := by
  intro hmem
  rw [s.property c hmem] at hc
  simp at hc

theorem subject_opens (c : IfTest) : ∃ opener inner, c.subject.render = opener :: inner ∧ (opener = 60 ∨ opener = 91) := by
  cases hc : c.subject with
  | token u => exact ⟨60, _, rfl, .inl rfl⟩
  | etag before e after => exact ⟨91, _, rfl, .inr rfl⟩

theorem whiteSpace_of_ifWhitespace {c : CodeUnit} (h : isIfWhitespace c = true) : isWhiteSpace c = true := by
  simp only [isIfWhitespace, decide_eq_true_eq, List.mem_cons, List.not_mem_nil, or_false] at h
  rcases h with h | h | h | h | h | h <;> simp [isWhiteSpace, h]

theorem entityTag_head (e : EntityTag) : ∃ c t, e.text = c :: t ∧ isWhiteSpace c = false := by
  unfold EntityTag.text
  cases e.weak with
  | true => exact ⟨87, _, rfl, by decide⟩
  | false => exact ⟨34, _, rfl, by decide⟩

theorem trim_entityTag (before after : Space) (e : EntityTag) : trim (before.val ++ e.text ++ after.val) = e.text := by
  obtain ⟨c, t, htext, hc⟩ := entityTag_head e
  obtain ⟨start, hstart⟩ : ∃ start, e.text = start ++ [34] :=
    ⟨(if e.weak then js "W/" else []) ++ 34 :: e.opaqueTag, by simp [EntityTag.text]⟩
  have hbefore : ∀ d ∈ before.val, isWhiteSpace d = true := fun d hd => whiteSpace_of_ifWhitespace (before.property d hd)
  have hafter : ∀ d ∈ after.val.reverse, isWhiteSpace d = true := fun d hd =>
    whiteSpace_of_ifWhitespace (after.property d (List.mem_reverse.mp hd))
  have hleft : (before.val ++ e.text ++ after.val).dropWhile isWhiteSpace = e.text ++ after.val := by
    rw [List.append_assoc, List.dropWhile_append_of_pos hbefore, htext]
    simp [hc]
  have hright : (e.text ++ after.val).reverse.dropWhile isWhiteSpace = e.text.reverse := by
    rw [List.reverse_append, List.dropWhile_append_of_pos hafter, hstart]
    simp [show isWhiteSpace 34 = false by decide]
  unfold trim
  rw [hleft, hright, List.reverse_reverse]

theorem bracket_notMem {e : EntityTag} (h : 93 ∉ e.opaqueTag) : 93 ∉ e.text := by
  unfold EntityTag.text
  cases e.weak <;> simp [h, js]

theorem letter_fold {c k : CodeUnit} (h : asciiLower c = k) : c.val = k.val ∨ c.val + 32 = k.val := by
  unfold asciiLower at h
  split at h
  · rename_i hrange
    right
    rw [← h]
    simp only [Fin.val_add]
    have h32 : (32 : CodeUnit).val = 32 := rfl
    omega
  · left
    rw [h]

theorem negation_word (n : Negation) : ∃ a b c, n.word = [a, b, c] ∧ isNegationAt (a :: b :: c :: ([] : JsString)) = true ∧
    isIfWhitespace a = false := by
  have hword : n.word.map asciiLower = [110, 111, 116] := n.valid
  obtain ⟨a, as, hn, ha, has⟩ := List.map_eq_cons_iff.mp hword
  obtain ⟨b, bs, rfl, hb, hbs⟩ := List.map_eq_cons_iff.mp has
  obtain ⟨c, cs, rfl, hc, hcs⟩ := List.map_eq_cons_iff.mp hbs
  obtain rfl := List.map_eq_nil_iff.mp hcs
  have hfa : a.val = 110 ∨ a.val + 32 = 110 := letter_fold ha
  have hfb : b.val = 111 ∨ b.val + 32 = 111 := letter_fold hb
  have hfc : c.val = 116 ∨ c.val + 32 = 116 := letter_fold hc
  refine ⟨a, b, c, hn, ?_, ?_⟩
  · have ha' : a.val = 110 ∨ a.val = 78 := by omega
    have hb' : b.val = 111 ∨ b.val = 79 := by omega
    have hc' : c.val = 116 ∨ c.val = 84 := by omega
    unfold isNegationAt
    rcases ha' with ha' | ha' <;> rcases hb' with hb' | hb' <;> rcases hc' with hc' | hc' <;> simp [ha', hb', hc']
  · have ha' : a.val = 110 ∨ a.val = 78 := by omega
    unfold isIfWhitespace
    rcases ha' with ha' | ha' <;> simp [ha']

theorem opener_not_negated {c : CodeUnit} (h : c = 60 ∨ c = 91) (s : JsString) : isNegated (c :: s) = false := by
  have hat : isNegationAt (c :: s) = false := by
    unfold isNegationAt
    split
    · rename_i n o t rest he
      obtain rfl := (List.cons.inj he).1
      rcases h with rfl | rfl <;> simp
    · rfl
  unfold isNegated
  rw [hat]
  rfl

/-- Behind the white space and a negation that is set off stands a bracket. -/
theorem bracket_start (space : Space) (negation : Option Negation) (h : negation.all (fun n => n.space.val ≠ []) = true)
    {opener : CodeUnit} (hopener : opener = 60 ∨ opener = 91) (inner : JsString) : ∃ start,
    (space.val ++ (negation.map Negation.render).getD [] ++ opener :: inner).dropWhile isIfWhitespace = start ∧
      isNegated start = negation.isSome ∧
      (if isNegated start then (start.drop 3).dropWhile isIfWhitespace else start) = opener :: inner := by
  have hspace : isIfWhitespace opener = false := by rcases hopener with rfl | rfl <;> decide
  cases negation with
  | none =>
    have hskip : (space.val ++ (Option.map Negation.render none).getD [] ++ opener :: inner).dropWhile isIfWhitespace =
        opener :: inner := by simpa using skip_space space (t := inner) hspace
    have hnot : isNegated (opener :: inner) = false := opener_not_negated hopener _
    exact ⟨_, hskip, hnot, by rw [hnot]; rfl⟩
  | some n =>
    obtain ⟨a, b, d, hword, hat, ha⟩ := negation_word n
    obtain ⟨w, ws, hw⟩ := List.exists_cons_of_ne_nil (show n.space.val ≠ [] by simpa using h)
    have hwspace : isIfWhitespace w = true := n.space.property w (by simp [hw])
    have hskip : (space.val ++ ((some n).map Negation.render).getD [] ++ opener :: inner).dropWhile isIfWhitespace =
        a :: b :: d :: (n.space.val ++ opener :: inner) := by
      simpa [Negation.render, hword] using skip_space space (t := b :: d :: (n.space.val ++ opener :: inner)) ha
    have hnot : isNegated (a :: b :: d :: (n.space.val ++ opener :: inner)) = true := by
      unfold isNegated
      rw [show isNegationAt (a :: b :: d :: (n.space.val ++ opener :: inner)) = true from hat, hw]
      simpa using hwspace
    refine ⟨_, hskip, hnot, ?_⟩
    rw [hnot]
    exact skip_space n.space (t := inner) hspace

/-- Behind the white space and the negation stands what the condition is about. -/
theorem subject_start {c : IfTest} (h : c.Plain = true) (tail : JsString) : ∃ start,
    (c.render ++ tail).dropWhile isIfWhitespace = start ∧ isNegated start = c.negated ∧
      (if isNegated start then (start.drop 3).dropWhile isIfWhitespace else start) = c.subject.render ++ tail := by
  obtain ⟨hnegation, _⟩ := Bool.and_eq_true_iff.mp h
  obtain ⟨opener, inner, hopens, hopener⟩ := subject_opens c
  have hstart := bracket_start c.space c.negation hnegation hopener (inner ++ tail)
  unfold IfTest.render IfTest.negated
  rw [hopens]
  simpa using hstart

/-- From its opening parenthesis on a list is read as its first condition. -/
theorem readGroup_plain {c : IfTest} (h : c.Plain = true) (tail : JsString) :
    readGroup p (c.render ++ tail) = .condition (c.read p) tail := by
  obtain ⟨start, hdrop, hneg, hrest⟩ := subject_start h tail
  obtain ⟨_, hsubject⟩ := Bool.and_eq_true_iff.mp h
  unfold readGroup IfTest.read
  dsimp only
  rw [hdrop, hrest, hneg]
  cases hc : c.subject with
  | token u =>
    have hcut : cutAt 62 (u.text ++ 62 :: tail) = some (u.text, tail) := cutAt_append fun hmem => (u.valid 62 hmem).2.1 rfl
    simp only [Subject.render, List.cons_append, List.append_assoc, List.nil_append, ↓reduceIte, hcut]
  | etag before e after =>
    rw [hc] at hsubject
    have hnot : 93 ∉ before.val ++ e.text ++ after.val := by
      simp only [List.mem_append, not_or]
      exact ⟨⟨space_excludes before (by decide), bracket_notMem (by simpa using hsubject)⟩,
        space_excludes after (by decide)⟩
    have hcut := cutAt_append (t := tail) hnot
    have htrim := trim_entityTag before after e
    simp only [List.append_assoc] at hcut htrim
    simp only [Subject.render, List.cons_append, List.append_assoc, List.nil_append, ↓reduceIte, hcut, htrim]
    simp

theorem cutAt_skip {c : CodeUnit} {s t : JsString} (h : c ∉ s) :
    cutAt c (s ++ t) = (cutAt c t).map (fun found => (s ++ found.1, found.2)) := by
  have hall : ∀ d ∈ s, decide (d ≠ c) = true := by
    intro d hd
    have hne : d ≠ c := fun he => h (he ▸ hd)
    simpa using hne
  unfold cutAt
  rw [List.takeWhile_append_of_pos hall, List.dropWhile_append_of_pos hall]
  by_cases ht : c ∈ t
  · rw [if_pos (List.mem_append_right _ ht), if_pos ht]
    rfl
  · rw [if_neg (by simp [h, ht]), if_neg ht]
    rfl

/-- What holds no parenthesis makes no difference to the scan. -/
theorem scanIf_skip {s : JsString} (h : 40 ∉ s) (fuel : ℕ) (t : JsString) :
    scanIf p fuel (s ++ t) = scanIf p fuel t := by
  cases fuel with
  | zero => rfl
  | succ fuel =>
    simp only [scanIf, cutAt_skip h]
    cases cutAt 40 t <;> rfl

theorem opening_excludes {l : IfList} (h : l.Plain = true) : 40 ∉ l.opening := by
  obtain ⟨⟨htag, _⟩, _⟩ := (Bool.and_eq_true_iff.mp h).imp Bool.and_eq_true_iff.mp id
  have hspace : 40 ∉ l.space.val := space_excludes l.space (by decide)
  unfold IfList.opening
  cases hl : l.tag with
  | none => simpa using hspace
  | some t =>
    have htext : 40 ∉ t.2.text := by simpa [hl] using htag
    have hbefore : 40 ∉ t.1.val := space_excludes t.1 (by decide)
    simp [htext, hbefore, hspace]

theorem remainder_excludes {l : IfList} (h : l.Plain = true) : 40 ∉ l.remainder := by
  obtain ⟨⟨_, hrest⟩, _⟩ := (Bool.and_eq_true_iff.mp h).imp Bool.and_eq_true_iff.mp id
  have hclosing : 40 ∉ l.closing.val := space_excludes l.closing (by decide)
  have hall : ∀ c ∈ l.rest, 40 ∉ c.render := by simpa using hrest
  simp only [IfList.remainder, List.mem_append, List.mem_flatMap, not_or]
  refine ⟨⟨?_, hclosing⟩, by simp⟩
  rintro ⟨c, hc, hmem⟩
  exact hall c hc hmem

/-- The scan reads one condition of every list, the first. -/
theorem scanIf_plain (ls : List IfList) (h : ∀ l ∈ ls, l.Plain = true) (fuel : ℕ) (hfuel : ls.length < fuel) :
    scanIf p fuel (ls.flatMap IfList.render) = (ls.map (fun l => l.first.read p), false) := by
  induction ls generalizing fuel with
  | nil =>
    cases fuel with
    | zero => rfl
    | succ fuel => simp [scanIf, cutAt_none]
  | cons l ls ih =>
    obtain ⟨hl, hls⟩ := List.forall_mem_cons.mp h
    obtain ⟨fuel, rfl⟩ : ∃ n, fuel = n + 1 := ⟨fuel - 1, by omega⟩
    have hfirst : l.first.Plain = true := (Bool.and_eq_true_iff.mp hl).2
    have hrest := ih hls fuel (by simpa using hfuel)
    have hcut : cutAt 40 (40 :: (l.first.render ++ (l.remainder ++ ls.flatMap IfList.render))) =
        some ([], l.first.render ++ (l.remainder ++ ls.flatMap IfList.render)) := cutAt_append List.not_mem_nil
    have hshape : (l :: ls).flatMap IfList.render =
        l.opening ++ 40 :: (l.first.render ++ (l.remainder ++ ls.flatMap IfList.render)) := by
      simp [IfList.render]
    rw [hshape, scanIf_skip (opening_excludes hl)]
    simp only [scanIf, hcut, readGroup_plain hfirst]
    rw [scanIf_skip (remainder_excludes hl), hrest]
    rfl

theorem length_lists_le (ls : List IfList) : ls.length ≤ (ls.flatMap IfList.render).length := by
  induction ls with
  | nil => simp
  | cons l ls ih =>
    simp only [List.flatMap_cons, List.length_append, List.length_cons, IfList.render]
    omega

theorem parse_plain {h : IfHeader} (hp : h.Plain = true) :
    parseIfHeader p (some h.render) = h.lists.map (fun l => l.first.read p) := by
  have hall : ∀ l ∈ h.lists, l.Plain = true := by simpa [IfHeader.Plain] using hp
  have hlength := length_lists_le h.lists
  have hscan := scanIf_plain (p := p) h.lists hall (h.render.length + 1) (by unfold IfHeader.render; omega)
  unfold IfHeader.render at hscan ⊢
  simp only [parseIfHeader, hscan]
  simp

end Reading

end DurableDav.Dav
