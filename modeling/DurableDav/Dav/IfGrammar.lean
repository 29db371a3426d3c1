import DurableDav.Dav.IfHeader

namespace DurableDav.Dav

open Library

/-! ### The scan, turn by turn -/

section Scan

variable {p : Platform} {s t rest before afterOpen : JsString} {c : IfCondition} {r r' : List IfCondition × Bool}

variable (p) in
inductive Scans : JsString → List IfCondition × Bool → Prop
  | ends {s : JsString} (hopen : cutAt 40 s = none) : Scans s ([], false)
  | condition {s before afterOpen rest : JsString} {c : IfCondition} {r : List IfCondition × Bool}
      (hopen : cutAt 40 s = some (before, afterOpen)) (hread : readGroup p afterOpen = .condition c rest) (more : Scans rest r) :
      Scans s (c :: r.1, r.2)
  | unreadable {s before afterOpen : JsString} {r : List IfCondition × Bool}
      (hopen : cutAt 40 s = some (before, afterOpen)) (hread : readGroup p afterOpen = .unreadable) (more : Scans afterOpen r) :
      Scans s (r.1, true)
  | unterminated {s before afterOpen : JsString} (hopen : cutAt 40 s = some (before, afterOpen))
      (hread : readGroup p afterOpen = .unterminated) : Scans s ([], true)

theorem cutAt_some {d : CodeUnit} (h : cutAt d s = some (before, rest)) : s = before ++ d :: rest ∧ d ∉ before := by
  unfold cutAt at h
  split at h
  · rename_i hmem
    obtain ⟨rfl, rfl⟩ := Prod.mk.inj (Option.some.inj h)
    have hnot : d ∉ s.takeWhile (fun e => e ≠ d) := fun hin => by simpa using List.mem_takeWhile_imp hin
    refine ⟨?_, hnot⟩
    have hsplit := List.takeWhile_append_dropWhile (p := fun e => decide (e ≠ d)) (l := s)
    cases hdrop : s.dropWhile (fun e => e ≠ d) with
    | nil =>
      rw [hdrop, List.append_nil] at hsplit
      rw [hsplit] at hnot
      exact absurd hmem hnot
    | cons e tail =>
      have hhead : e = d := by
        have hfirst := List.head?_dropWhile_not (fun e => decide (e ≠ d)) s
        rw [hdrop] at hfirst
        simpa using hfirst
      rw [hdrop, hhead] at hsplit
      exact hsplit.symm
  · cases h

theorem cutAt_eq_none (h : cutAt 40 s = none) : 40 ∉ s := by
  intro hmem
  unfold cutAt at h
  rw [if_pos hmem] at h
  cases h

theorem readGroup_shorter (h : readGroup p t = .condition c rest) : rest.length ≤ t.length := by
  have hcut {d : CodeUnit} {u value after : JsString} (hcut : cutAt d u = some (value, after)) : after.length ≤ u.length := by
    rw [(cutAt_some hcut).1]
    simp
    omega
  unfold readGroup at h
  dsimp only at h
  have hstart : (t.dropWhile isIfWhitespace).length ≤ t.length := (List.dropWhile_suffix _).length_le
  have hbehind : (((t.dropWhile isIfWhitespace).drop 3).dropWhile isIfWhitespace).length ≤ t.length :=
    (List.dropWhile_suffix _).length_le.trans ((List.drop_suffix ..).length_le.trans hstart)
  have hbody : (if isNegated (t.dropWhile isIfWhitespace) then ((t.dropWhile isIfWhitespace).drop 3).dropWhile isIfWhitespace
      else t.dropWhile isIfWhitespace).length ≤ t.length := by
    split
    · exact hbehind
    · exact hstart
  split at h
  · cases h
  · rename_i opener inner heq
    rw [heq, List.length_cons] at hbody
    split at h
    · split at h
      · cases h
      · rename_i value after hfound
        obtain ⟨-, rfl⟩ := IfGroup.condition.inj h
        have := hcut hfound
        omega
    · split at h
      · split at h
        · cases h
        · rename_i value after hfound
          obtain ⟨-, rfl⟩ := IfGroup.condition.inj h
          have := hcut hfound
          omega
      · cases h

/-- Every turn passes a parenthesis, so that the scan comes to its end. -/
theorem scans_scanIf (fuel : ℕ) (hfuel : s.length < fuel) : Scans p s (scanIf p fuel s) := by
  induction fuel generalizing s with
  | zero => omega
  | succ fuel ih =>
    unfold scanIf
    cases hopen : cutAt 40 s with
    | none => exact .ends hopen
    | some found =>
      obtain ⟨before, afterOpen⟩ := found
      have hshort : afterOpen.length < s.length := by
        rw [(cutAt_some hopen).1]
        simp
        omega
      dsimp only
      cases hread : readGroup p afterOpen with
      | condition c rest =>
        have := readGroup_shorter hread
        exact .condition hopen hread (ih (by omega))
      | unreadable => exact .unreadable hopen hread (ih (by omega))
      | unterminated => exact .unterminated hopen hread

theorem Scans.unique (h : Scans p s r) (h' : Scans p s r') : r = r' := by
  induction h generalizing r' with
  | ends hopen =>
    cases h' with
    | ends => rfl
    | condition hopen' | unreadable hopen' | unterminated hopen' => simp [hopen] at hopen'
  | condition hopen hread more ih =>
    cases h' with
    | ends hopen' => simp [hopen] at hopen'
    | condition hopen' hread' more' =>
      obtain ⟨-, rfl⟩ := Prod.mk.inj (Option.some.inj (hopen.symm.trans hopen'))
      obtain ⟨rfl, rfl⟩ := IfGroup.condition.inj (hread.symm.trans hread')
      rw [ih more']
    | unreadable hopen' hread' | unterminated hopen' hread' =>
      obtain ⟨-, rfl⟩ := Prod.mk.inj (Option.some.inj (hopen.symm.trans hopen'))
      simp [hread] at hread'
  | unreadable hopen hread more ih =>
    cases h' with
    | ends hopen' => simp [hopen] at hopen'
    | unreadable hopen' hread' more' =>
      obtain ⟨-, rfl⟩ := Prod.mk.inj (Option.some.inj (hopen.symm.trans hopen'))
      rw [ih more']
    | condition hopen' hread' | unterminated hopen' hread' =>
      obtain ⟨-, rfl⟩ := Prod.mk.inj (Option.some.inj (hopen.symm.trans hopen'))
      simp [hread] at hread'
  | unterminated hopen hread =>
    cases h' with
    | ends hopen' => simp [hopen] at hopen'
    | unterminated => rfl
    | condition hopen' hread' | unreadable hopen' hread' =>
      obtain ⟨-, rfl⟩ := Prod.mk.inj (Option.some.inj (hopen.symm.trans hopen'))
      simp [hread] at hread'

theorem parseIfHeader_scans (h : Scans p s r) : parseIfHeader p (some s) = r.1 ++ if r.2 then [.unknown] else [] := by
  rw [h.unique (scans_scanIf (s.length + 1) (Nat.lt_succ_self _))]
  rfl

end Scan

/-! ### The headers that are read -/

inductive Bracket
  | angle (value : JsString) (closes : 62 ∉ value)
  | square (value : JsString) (closes : 93 ∉ value)

def Bracket.render : Bracket → JsString
  | angle value _ => 60 :: (value ++ [62])
  | square value _ => 91 :: (value ++ [93])

/-- A list of which the first condition is read, and whatever text follows up to the next parenthesis. -/
structure OpenedList where
  space : Space
  negation : Option Negation
  apart : negation.all (fun n => n.space.val ≠ []) = true
  bracket : Bracket
  text : { t : JsString // 40 ∉ t }

structure ReadableHeader where
  before : { t : JsString // 40 ∉ t }
  lists : List OpenedList

namespace OpenedList

def condition (l : OpenedList) : JsString := l.space.val ++ (l.negation.map Negation.render).getD [] ++ l.bracket.render

def render (l : OpenedList) : JsString := 40 :: (l.condition ++ l.text.val)

def read (p : Platform) (l : OpenedList) : IfCondition := match l.bracket with
  | .angle value _ => if p.toLowerCase value = js "dav:no-lock" then .noLock l.negation.isSome else .token value l.negation.isSome
  | .square value _ => .etag (trim value) l.negation.isSome

end OpenedList

def ReadableHeader.render (h : ReadableHeader) : JsString := h.before.val ++ h.lists.flatMap OpenedList.render

section Lists

variable {p : Platform} {s t rest : JsString} {c : IfCondition} {r : List IfCondition × Bool}

theorem readGroup_opened (l : OpenedList) (rest : JsString) : readGroup p (l.condition ++ rest) = .condition (l.read p) rest := by
  obtain ⟨space, negation, hapart, bracket, text⟩ := l
  cases bracket with
  | angle value hcloses =>
    obtain ⟨start, hdrop, hneg, hrest⟩ := bracket_start space negation hapart (.inl rfl) (value ++ 62 :: rest)
    have hcut : cutAt 62 (value ++ 62 :: rest) = some (value, rest) := cutAt_append hcloses
    unfold readGroup OpenedList.condition OpenedList.read Bracket.render
    simp only [List.append_assoc, List.cons_append, List.nil_append] at hdrop ⊢
    rw [hdrop, hrest, hneg]
    simp only [↓reduceIte, hcut]
  | square value hcloses =>
    obtain ⟨start, hdrop, hneg, hrest⟩ := bracket_start space negation hapart (.inr rfl) (value ++ 93 :: rest)
    have hcut : cutAt 93 (value ++ 93 :: rest) = some (value, rest) := cutAt_append hcloses
    unfold readGroup OpenedList.condition OpenedList.read Bracket.render
    simp only [List.append_assoc, List.cons_append, List.nil_append] at hdrop ⊢
    rw [hdrop, hrest, hneg]
    simp [hcut]

theorem negation_of_isNegated (h : isNegated t = true) : ∃ n : Negation, n.space.val ≠ [] ∧
    t = n.word ++ (n.space.val ++ (t.drop 3).dropWhile isIfWhitespace) := by
  obtain ⟨hat, hspace⟩ := Bool.and_eq_true_iff.mp h
  unfold isNegationAt at hat
  split at hat
  · rename_i a b d rest
    have hletter {u : CodeUnit} {k : ℕ} (hk : k ≤ 116) (hfold : u.val ||| 32 = k) : u.val ≤ 116 :=
      (Nat.left_le_or).trans (hfold.le.trans hk)
    have hn : ∀ u ≤ 116, u ||| 32 = 110 → u = 110 ∨ u = 78 := by decide
    have ho : ∀ u ≤ 116, u ||| 32 = 111 → u = 111 ∨ u = 79 := by decide
    have ht : ∀ u ≤ 116, u ||| 32 = 116 → u = 116 ∨ u = 84 := by decide
    obtain ⟨ha, hb, hd⟩ : a.val ||| 32 = 110 ∧ b.val ||| 32 = 111 ∧ d.val ||| 32 = 116 := by simpa using hat
    have hlower {u : CodeUnit} {k : CodeUnit} (hu : u.val = k.val ∨ u.val = k.val - 32) (hk : 97 ≤ k.val ∧ k.val ≤ 122) :
        asciiLower u = k := by
      unfold asciiLower
      apply Fin.ext
      rcases hu with hu | hu
      · rw [if_neg (by omega), hu]
      · rw [if_pos (by omega), Fin.val_add]
        have h32 : (32 : CodeUnit).val = 32 := rfl
        omega
    have hword : [a, b, d].map asciiLower = js "not" := by
      have ha' : asciiLower a = 110 := hlower (hn _ (hletter (by omega) ha) ha) (by decide)
      have hb' : asciiLower b = 111 := hlower (ho _ (hletter (by omega) hb) hb) (by decide)
      have hd' : asciiLower d = 116 := hlower (ht _ (hletter (by omega) hd) hd) (by decide)
      simp only [List.map_cons, List.map_nil, ha', hb', hd']
      rfl
    obtain ⟨w, hw, hwspace⟩ : ∃ w, rest.head? = some w ∧ isIfWhitespace w = true := by simpa [Option.any_eq_true] using hspace
    refine ⟨⟨[a, b, d], hword, ⟨rest.takeWhile isIfWhitespace, fun c hc => List.mem_takeWhile_imp hc⟩⟩, ?_, ?_⟩
    · obtain ⟨tail, rfl⟩ : ∃ tail, rest = w :: tail := by
        cases rest with
        | nil => cases hw
        | cons w' tail => exact ⟨tail, by rw [Option.some.inj hw]⟩
      simp [hwspace]
    · simp
  · cases hat

/-- What is read as a condition is written as one. -/
theorem opened_of_readGroup (h : readGroup p t = .condition c rest) :
    ∃ l : OpenedList, l.text.val = [] ∧ l.read p = c ∧ t = l.condition ++ rest := by
  have hsplit := List.takeWhile_append_dropWhile (p := isIfWhitespace) (l := t)
  let space : Space := ⟨t.takeWhile isIfWhitespace, fun d hd => List.mem_takeWhile_imp hd⟩
  obtain ⟨negation, hapart, hneg, hbody⟩ : ∃ negation : Option Negation, negation.all (fun n => n.space.val ≠ []) = true ∧
      negation.isSome = isNegated (t.dropWhile isIfWhitespace) ∧ t.dropWhile isIfWhitespace =
        (negation.map Negation.render).getD [] ++ (if isNegated (t.dropWhile isIfWhitespace) then
          ((t.dropWhile isIfWhitespace).drop 3).dropWhile isIfWhitespace else t.dropWhile isIfWhitespace) := by
    cases hn : isNegated (t.dropWhile isIfWhitespace) with
    | false => exact ⟨none, rfl, rfl, rfl⟩
    | true =>
      obtain ⟨n, hspace, hword⟩ := negation_of_isNegated hn
      refine ⟨some n, by simpa using hspace, rfl, ?_⟩
      simpa [Negation.render] using hword
  have hlist (bracket : Bracket) (tail : JsString) (htail : (if isNegated (t.dropWhile isIfWhitespace) then
      ((t.dropWhile isIfWhitespace).drop 3).dropWhile isIfWhitespace else t.dropWhile isIfWhitespace) = bracket.render ++ tail) :
      t = (OpenedList.mk space negation hapart bracket ⟨[], List.not_mem_nil⟩).condition ++ tail := by
    rw [htail] at hbody
    conv_lhs => rw [← hsplit, hbody]
    simp [OpenedList.condition, space]
  unfold readGroup at h
  dsimp only at h
  split at h
  · cases h
  · rename_i opener inner heq
    split at h
    · rename_i hopener
      split at h
      · cases h
      · rename_i value after hfound
        obtain ⟨rfl, rfl⟩ := IfGroup.condition.inj h
        obtain ⟨hinner, hcloses⟩ := cutAt_some hfound
        refine ⟨⟨space, negation, hapart, .angle value hcloses, ⟨[], List.not_mem_nil⟩⟩, rfl, ?_, hlist _ _ ?_⟩
        · simp only [OpenedList.read, hneg]
        · rw [heq, hopener, hinner]
          simp [Bracket.render]
    · split at h
      · rename_i hopener
        split at h
        · cases h
        · rename_i value after hfound
          obtain ⟨rfl, rfl⟩ := IfGroup.condition.inj h
          obtain ⟨hinner, hcloses⟩ := cutAt_some hfound
          refine ⟨⟨space, negation, hapart, .square value hcloses, ⟨[], List.not_mem_nil⟩⟩, rfl, ?_, hlist _ _ ?_⟩
          · simp only [OpenedList.read, hneg]
          · rw [heq, hopener, hinner]
            simp [Bracket.render]
      · cases h

theorem scans_lists (lists : List OpenedList) {before : JsString} (hbefore : 40 ∉ before) :
    Scans p (before ++ lists.flatMap OpenedList.render) (lists.map (OpenedList.read p), false) := by
  induction lists generalizing before with
  | nil =>
    refine .ends (cutAt_none ?_)
    simpa using hbefore
  | cons l lists ih =>
    have hopen : cutAt 40 (before ++ (l :: lists).flatMap OpenedList.render) =
        some (before, l.condition ++ (l.text.val ++ lists.flatMap OpenedList.render)) := by
      rw [List.flatMap_cons, OpenedList.render, List.cons_append, List.append_assoc]
      exact cutAt_append hbefore
    exact .condition hopen (readGroup_opened l _) (ih l.text.property)

/-- A header of which nothing is unreadable is one that is read. -/
theorem lists_of_scans (h : Scans p s r) (hread : r.2 = false) :
    ∃ header : ReadableHeader, header.render = s ∧ header.lists.map (OpenedList.read p) = r.1 := by
  induction h with
  | ends hopen => exact ⟨⟨⟨_, cutAt_eq_none hopen⟩, []⟩, by simp [ReadableHeader.render], rfl⟩
  | condition hopen hread' more ih =>
    obtain ⟨header, hrest, hlists⟩ := ih hread
    obtain ⟨l, htext, hl, hafter⟩ := opened_of_readGroup hread'
    obtain ⟨hs, hbefore⟩ := cutAt_some hopen
    refine ⟨⟨⟨_, hbefore⟩, { l with text := header.before } :: header.lists⟩, ?_, ?_⟩
    · rw [hs, hafter, ← hrest]
      simp [ReadableHeader.render, OpenedList.render, OpenedList.condition]
    · rw [List.map_cons, hlists, ← hl]
      rfl
  | unreadable | unterminated => cases hread

/-- The scan accepts exactly the headers that are read, and of these it reads every list. -/
theorem scans_readable_iff {conditions : List IfCondition} : Scans p s (conditions, false) ↔
    ∃ header : ReadableHeader, header.render = s ∧ header.lists.map (OpenedList.read p) = conditions := by
  constructor
  · exact fun h => lists_of_scans h rfl
  · rintro ⟨header, rfl, rfl⟩
    exact scans_lists header.lists header.before.property

end Lists

/-! ### The grammar -/

def IfHeader.conditions (h : IfHeader) : List IfTest := h.lists.flatMap fun l => l.first :: l.rest

/-- All conditions of a header are read, and what is no header is seen to be none. -/
def AcceptsGrammar (p : Platform) (s : JsString) : Prop :=
  (∀ h : IfHeader, h.render = s →
    parseIfHeader p (some s) = h.conditions.map (IfTest.read p) ∧ .unknown ∉ parseIfHeader p (some s)) ∧
  ((∀ h : IfHeader, h.render ≠ s) → parseIfHeader p (some s) = [] ∨ .unknown ∈ parseIfHeader p (some s))

section Grammar

variable {p : Platform} {s : JsString}

theorem unknown_not_read (l : OpenedList) : l.read p ≠ .unknown := by
  unfold OpenedList.read
  split
  · split <;> simp
  · simp

theorem unknown_not_tested (c : IfTest) : c.read p ≠ .unknown := by
  unfold IfTest.read
  split
  · split <;> simp
  · simp

theorem parseIfHeader_readable (h : ReadableHeader) : parseIfHeader p (some h.render) = h.lists.map (OpenedList.read p) := by
  unfold ReadableHeader.render
  rw [parseIfHeader_scans (scans_lists h.lists h.before.property)]
  simp

/-- One condition of every list is read, the first, and the text between the lists is passed over. -/
theorem parseIfHeader_reads (p : Platform) (s : JsString) :
    (∃ r, Scans p s r ∧ parseIfHeader p (some s) = r.1 ++ if r.2 then [.unknown] else []) ∧
    (∀ h : ReadableHeader, h.render = s →
      parseIfHeader p (some s) = h.lists.map (OpenedList.read p) ∧ .unknown ∉ parseIfHeader p (some s)) ∧
    (∀ h : IfHeader, h.Plain = true → h.render = s →
      parseIfHeader p (some s) = h.lists.map (fun l => l.first.read p) ∧ .unknown ∉ parseIfHeader p (some s)) ∧
    ((∀ h : ReadableHeader, h.lists ≠ [] → h.render ≠ s) → (∀ h : IfHeader, h.render ≠ s) →
      (parseIfHeader p (some s) = [] ∨ .unknown ∈ parseIfHeader p (some s)) ∧
        ∀ r : Request, r.ifHeader = some s → s ≠ [] → r.hasAlwaysFalseIfCondition p = true) := by
  have hscan := scans_scanIf (p := p) (s.length + 1) (Nat.lt_succ_self s.length)
  refine ⟨⟨_, hscan, rfl⟩, ?_, ?_, ?_⟩
  · rintro h rfl
    have hparse := parseIfHeader_readable (p := p) h
    refine ⟨hparse, ?_⟩
    rw [hparse]
    intro hmem
    obtain ⟨l, -, hl⟩ := List.mem_map.mp hmem
    exact unknown_not_read l hl
  · rintro h hplain rfl
    have hparse := parse_plain (p := p) hplain
    refine ⟨hparse, ?_⟩
    rw [hparse]
    intro hmem
    obtain ⟨l, -, hl⟩ := List.mem_map.mp hmem
    exact unknown_not_tested l.first hl
  · intro hreadable _
    have hrefused : parseIfHeader p (some s) = [] ∨ .unknown ∈ parseIfHeader p (some s) := by
      have hparse := parseIfHeader_scans hscan
      cases hbad : (scanIf p (s.length + 1) s).2 with
      | true =>
        right
        rw [hparse, hbad]
        simp
      | false =>
        left
        obtain ⟨header, hs, hlists⟩ := lists_of_scans hscan hbad
        have hnone : header.lists = [] := by
          by_contra hne
          exact hreadable header hne hs
        rw [hparse, hbad, ← hlists, hnone]
        rfl
    refine ⟨hrefused, fun r hr hne => ?_⟩
    unfold Request.hasAlwaysFalseIfCondition
    rw [hr]
    simpa using ⟨hne, hrefused⟩

end Grammar

/-! ### Text between the lists, and a list of two conditions -/

section Examples

theorem peel_space {ws : Space} {c d : CodeUnit} {t u : JsString} (hc : isIfWhitespace c = false) (hd : isIfWhitespace d = false)
    (h : ws.val ++ c :: t = d :: u) : c = d ∧ t = u := by
  have hdrop := congrArg (List.dropWhile isIfWhitespace) h
  rw [skip_space ws hc, List.dropWhile_cons_of_neg (by simp [hd])] at hdrop
  exact List.cons.inj hdrop

/-- What stands first in a condition, behind its white space. -/
theorem test_start (c : IfTest) : ∃ d t, c.render = c.space.val ++ d :: t ∧ isIfWhitespace d = false ∧ d ≠ 41 := by
  obtain ⟨opener, inner, hopens, hopener⟩ := subject_opens c
  unfold IfTest.render
  rw [hopens]
  cases c.negation with
  | none =>
    refine ⟨opener, inner, by simp, ?_⟩
    rcases hopener with rfl | rfl <;> decide
  | some n =>
    obtain ⟨a, b, d, hword, -, ha⟩ := negation_word n
    refine ⟨a, b :: d :: (n.space.val ++ opener :: inner), by simp [Negation.render, hword], ha, ?_⟩
    rintro rfl
    have hlower := n.valid
    rw [hword] at hlower
    exact absurd (List.cons.inj hlower).1 (by decide)

theorem list_start (l : IfList) : ∃ (ws : Space) (d : CodeUnit) (t : JsString), l.render = ws.val ++ d :: t ∧ (d = 40 ∨ d = 60) := by
  unfold IfList.render IfList.opening
  cases l.tag with
  | none => exact ⟨l.space, 40, l.first.render ++ l.remainder, by simp, .inl rfl⟩
  | some t => exact ⟨t.1, 60, _, by simp; rfl, .inr rfl⟩

/-- A token in a list of its own is followed by another list or by nothing. -/
theorem after_token {value tail : JsString} (hvalue : 62 ∉ value) {h : IfHeader}
    (hrender : h.render = 40 :: 60 :: (value ++ 62 :: 41 :: tail)) : tail = h.rest.flatMap IfList.render := by
  obtain ⟨⟨tag, space, first, rest, closing⟩, more, hvalid⟩ := h
  unfold IfHeader.render IfHeader.lists at hrender
  rw [List.flatMap_cons] at hrender
  simp only [IfList.render, IfList.opening, IfList.remainder, List.append_assoc, List.cons_append, List.nil_append] at hrender
  cases tag with
  | some t =>
    simp only [Option.map_some, Option.getD_some, List.append_assoc, List.cons_append] at hrender
    exact absurd (peel_space (by decide) (by decide) hrender).1 (by decide)
  | none =>
    simp only [Option.map_none, Option.getD_none, List.nil_append] at hrender
    have hinner := (peel_space (by decide) (by decide) hrender).2
    obtain ⟨before, negation, subject⟩ := first
    have hfirst : (IfTest.mk before negation subject).render =
        before.val ++ (negation.map Negation.render).getD [] ++ subject.render := rfl
    rw [hfirst] at hinner
    cases negation with
    | some n =>
      obtain ⟨a, b, d, hword, -, ha⟩ := negation_word n
      simp only [Option.map_some, Option.getD_some, Negation.render, hword, List.append_assoc, List.cons_append] at hinner
      have hletter := (peel_space ha (by decide) hinner).1
      have hlower := n.valid
      rw [hword, hletter] at hlower
      exact absurd (List.cons.inj hlower).1 (by decide)
    | none =>
      simp only [Option.map_none, Option.getD_none, List.append_assoc, List.nil_append] at hinner
      cases subject with
      | etag =>
        simp only [Subject.render, List.cons_append] at hinner
        exact absurd (peel_space (by decide) (by decide) hinner).1 (by decide)
      | token u =>
        simp only [Subject.render, List.append_assoc, List.cons_append, List.nil_append] at hinner
        have hcut := congrArg (cutAt 62) (peel_space (by decide) (by decide) hinner).2
        rw [cutAt_append fun hmem => (u.valid 62 hmem).2.1 rfl, cutAt_append hvalue] at hcut
        have hrest := (Prod.mk.inj (Option.some.inj hcut)).2
        cases rest with
        | cons c rest =>
          obtain ⟨d, t, hc, hd, hne⟩ := test_start c
          simp only [List.flatMap_cons, hc, List.append_assoc, List.cons_append] at hrest
          exact absurd (peel_space hd (by decide) hrest).1 hne
        | nil =>
          simp only [List.flatMap_nil, List.nil_append] at hrest
          exact (peel_space (by decide) (by decide) hrest).2.symm

def tokenA : JsString := js "urn:uuid:a"

def tokenB : JsString := js "urn:uuid:b"

/-- Two lists with some text between them. -/
def junkHeader : JsString := 40 :: 60 :: (tokenA ++ 62 :: 41 :: (js " junk (<" ++ tokenB ++ js ">)"))

theorem junk_no_header (h : IfHeader) : h.render ≠ junkHeader := by
  intro hrender
  have hafter := after_token (by decide) hrender
  cases hrest : h.rest with
  | nil =>
    rw [hrest] at hafter
    exact absurd hafter (by decide)
  | cons l rest =>
    obtain ⟨ws, d, t, hl, hd⟩ := list_start l
    rw [hrest, List.flatMap_cons, hl, List.append_assoc, List.append_assoc, List.cons_append] at hafter
    have hspace : isIfWhitespace d = false := by rcases hd with rfl | rfl <;> decide
    have hdrop := congrArg (List.dropWhile isIfWhitespace) hafter
    rw [skip_space ws hspace] at hdrop
    have hhead := congrArg List.head? hdrop
    rw [List.head?_cons] at hhead
    rcases hd with rfl | rfl <;> exact absurd hhead (by decide)

def emptySpace : Space := ⟨[], nil_blank⟩

def oneBlank : Space := ⟨[32], by simp [isIfWhitespace]⟩

def isUriUnit (c : CodeUnit) : Bool := c ≠ 60 ∧ c ≠ 62 ∧ isIfWhitespace c = false

theorem uri_of_all {s : JsString} (h : s.all isUriUnit = true) : ∀ c ∈ s, c ≠ 60 ∧ c ≠ 62 ∧ isIfWhitespace c = false := by
  intro c hc
  simpa [isUriUnit] using List.all_eq_true.mp h c hc

def uriA : Uri := ⟨tokenA, uri_of_all (by decide)⟩

def uriB : Uri := ⟨tokenB, uri_of_all (by decide)⟩

/-- One list of two conditions. -/
def pairHeader : IfHeader where
  first := ⟨none, emptySpace, ⟨emptySpace, none, .token uriA⟩, [⟨oneBlank, none, .token uriB⟩], emptySpace⟩
  rest := []
  valid := nil_untagged _

/-- Text that is no header is passed over, and of two conditions only the first is read. -/
theorem junk_accepted : ¬ AcceptsGrammar plainPlatform junkHeader ∧ ¬ AcceptsGrammar plainPlatform pairHeader.render := by
  constructor
  · intro h
    have hread : parseIfHeader plainPlatform (some junkHeader) = [.token tokenA false, .token tokenB false] := by decide
    have hrefused := h.2 junk_no_header
    rw [hread] at hrefused
    exact absurd hrefused (by decide)
  · intro h
    exact absurd (h.1 pairHeader rfl).1 (by decide)

end Examples

end DurableDav.Dav
