import DurableDav.Dav.IfHeader

namespace DurableDav.Dav

open Library

/-! ### The conditions of a request -/

/-- An element of a list of entity tags, which may be empty. -/
structure TagItem where
  before : Space
  tag : Option EntityTag
  after : Space

inductive TagCondition
  | any (before after : Space)
  | list (first : TagItem) (rest : List TagItem)

def TagItem.text (i : TagItem) : JsString := i.before.val ++ (i.tag.map EntityTag.text).getD [] ++ i.after.val

def TagCondition.text : TagCondition → JsString
  | any before after => before.val ++ js "*" ++ after.val
  | list first rest => [44].intercalate ((first :: rest).map TagItem.text)

structure Conditions where
  ifMatch : Option TagCondition
  ifNoneMatch : Option TagCondition
  ifModifiedSince : Option JsString
  ifUnmodifiedSince : Option JsString

/-- The request states these conditions, and none on entity tags in its `If` header. -/
structure Incoming.States (p : Platform) (r : Incoming) (c : Conditions) : Prop where
  ifMatch : r.ifMatch = c.ifMatch.map TagCondition.text
  ifNoneMatch : r.ifNoneMatch = c.ifNoneMatch.map TagCondition.text
  ifModifiedSince : r.ifModifiedSince = c.ifModifiedSince
  ifUnmodifiedSince : r.ifUnmodifiedSince = c.ifUnmodifiedSince
  ifHeader : r.toRequest.getIfHeaderEtags p = []

inductive Resource
  | absent
  | present (etag : Option EntityTag) (mtime : Option ℕ)

def Resource.etag : Resource → Option EntityTag
  | absent => none
  | present etag _ => etag

def Resource.mtime : Resource → Option ℕ
  | absent => none
  | present _ mtime => mtime

def Resource.representation (resource : Resource) : Representation := ⟨resource.etag.map EntityTag.text, resource.mtime⟩

/-! ### Their evaluation, one after the other -/

/-- Which entity tags are the same, and of which resources `*` holds. -/
structure MatchRule where
  same : EntityTag → EntityTag → Bool
  anything : Resource → Bool

def EntityTag.sameWeakly (e e' : EntityTag) : Bool := e.opaqueTag = e'.opaqueTag

def EntityTag.sameStrongly (e e' : EntityTag) : Bool := !e.weak && !e'.weak && e.sameWeakly e'

def Resource.isPresent : Resource → Bool
  | absent => false
  | present _ _ => true

/-- Only strong entity tags match. -/
def strongRule : MatchRule := ⟨EntityTag.sameStrongly, Resource.isPresent⟩

def weakRule : MatchRule := ⟨EntityTag.sameWeakly, Resource.isPresent⟩

/-- Weak entity tags match too, and what has no recorded entity tag has none that matches. -/
def tolerantRule : MatchRule := ⟨EntityTag.sameWeakly, fun resource => resource.etag.isSome⟩

def TagCondition.selects (rule : MatchRule) (resource : Resource) : TagCondition → Bool
  | any _ _ => rule.anything resource
  | list first rest => resource.etag.any (fun e => (first :: rest).any (fun i => i.tag.any (rule.same e)))

inductive Evaluation
  | passes
  | notModified
  | failed
  deriving DecidableEq

/-- The last modification lies after a date; without either of them nothing is said. -/
def Resource.modifiedAfter (resource : Resource) (date : Option ℤ) : Bool := match date, resource.mtime with
  | some date, some mtime => date < Incoming.modifiedSecond mtime
  | _, _ => false

def Resource.modifiedBy (resource : Resource) (date : Option ℤ) : Bool := match date, resource.mtime with
  | some date, some mtime => Incoming.modifiedSecond mtime ≤ date
  | _, _ => false

/-- If-Match, or else If-Unmodified-Since; then If-None-Match, or else, for a read, If-Modified-Since. -/
def Conditions.evaluate (c : Conditions) (date : JsString → Option ℤ) (rule : MatchRule) (resource : Resource)
    (forRead : Bool) : Evaluation :=
  if c.ifMatch.any (fun t => !t.selects rule resource) then .failed
  else if c.ifMatch.isNone ∧ resource.modifiedAfter (c.ifUnmodifiedSince.bind date) then .failed
  else if c.ifNoneMatch.any (TagCondition.selects weakRule resource) then if forRead then .notModified else .failed
  else if forRead ∧ c.ifNoneMatch.isNone ∧ resource.modifiedBy (c.ifModifiedSince.bind date) then .notModified
  else .passes

def Verdict.evaluation : Verdict → Evaluation
  | preconditionFailed _ => .failed
  | notModified _ => .notModified

def evaluationOf (verdict : Option Verdict) : Evaluation := (verdict.map Verdict.evaluation).getD .passes

/-! ### A list of entity tags as it is read -/

section Lists

variable {e : EntityTag} {i : TagItem} {items : List TagItem} {s t part : JsString} {c : CodeUnit}

theorem space_splits (sp : Space) : 44 ∉ sp.val ∧ 34 ∉ sp.val ∧ 42 ∉ sp.val :=
  ⟨space_excludes sp (by decide), space_excludes sp (by decide), space_excludes sp (by decide)⟩

theorem weakEtag_text (before after : Space) :
    weakEtagValue (before.val ++ e.text ++ after.val) = 34 :: (e.opaqueTag ++ [34]) := by
  unfold weakEtagValue
  rw [trim_entityTag]
  unfold EntityTag.text
  cases e.weak with
  | true => rfl
  | false =>
    unfold stripStart
    rw [if_neg]
    · rfl
    · simp [js]

theorem weakEtag_space (before after : Space) : weakEtagValue (before.val ++ after.val) = [] := by
  have hall : ∀ d ∈ before.val ++ after.val, isWhiteSpace d = true := by
    intro d hd
    rcases List.mem_append.mp hd with hd | hd
    · exact whiteSpace_of_ifWhitespace (before.property d hd)
    · exact whiteSpace_of_ifWhitespace (after.property d hd)
  have htrim : trim (before.val ++ after.val) = [] := by
    unfold trim
    rw [List.dropWhile_eq_nil_iff.mpr hall]
    rfl
  unfold weakEtagValue
  rw [htrim]
  rfl

theorem weakEtag_sublist (s : JsString) : (weakEtagValue s).Sublist s := by
  unfold weakEtagValue stripStart
  split
  · exact (List.drop_sublist _ _).trans (trim_sublist s)
  · exact trim_sublist s

theorem splitOn_sublist (h : part ∈ s.splitOn c) : part.Sublist s := by
  have hjoin : [c].intercalate (s.splitOn c) = s := List.intercalate_splitOn c
  have hmem : part.Sublist ([c].intercalate (s.splitOn c)) := by
    generalize s.splitOn c = parts at h
    induction parts with
    | nil => cases h
    | cons a rest ih =>
      rcases List.mem_cons.mp h with rfl | h
      · cases rest with
        | nil => simp
        | cons b rest => simp [List.intercalate_cons_cons]
      · cases rest with
        | nil => cases h
        | cons b rest =>
          rw [List.intercalate_cons_cons]
          exact (ih h).trans (List.sublist_append_right _ _)
  rwa [hjoin] at hmem

/-- What stands between the commas of a list are the parts of its elements. -/
theorem split_items (hne : items ≠ []) :
    ([44].intercalate (items.map TagItem.text)).splitOn 44 = items.flatMap (fun i => i.text.splitOn 44) := by
  induction items with
  | nil => exact absurd rfl hne
  | cons i rest ih =>
    cases rest with
    | nil => simp
    | cons j rest =>
      have hrest := ih (by simp)
      rw [List.map_cons, List.map_cons, List.intercalate_cons_cons, List.append_assoc, List.singleton_append,
        List.splitOn_append_cons_self, ← List.map_cons, hrest]
      rfl

theorem item_commas : 44 ∈ i.text ↔ ∃ e, i.tag = some e ∧ 44 ∈ e.opaqueTag := by
  have hbefore := (space_splits i.before).1
  have hafter := (space_splits i.after).1
  unfold TagItem.text
  cases htag : i.tag with
  | none => simp [hbefore, hafter]
  | some e =>
    have hweak : 44 ∉ (if e.weak then js "W/" else []) := by cases e.weak <;> decide
    simp [hbefore, hafter, EntityTag.text, hweak]

/-- Of a tag that a comma cuts in two, no part has both quotation marks. -/
theorem cut_tag (htag : i.tag = some e) (hcomma : 44 ∈ e.opaqueTag) (hpart : part ∈ i.text.splitOn 44) :
    part.count 34 ≤ 1 := by
  obtain ⟨front, back, hsealed⟩ := List.append_of_mem hcomma
  have hvalid := e.valid
  rw [hsealed, List.mem_append, List.mem_cons] at hvalid
  push Not at hvalid
  obtain ⟨hfront, -, hback⟩ := hvalid
  have hbefore := (space_splits i.before).2.1
  have hafter := (space_splits i.after).2.1
  have hweak : 34 ∉ (if e.weak then js "W/" else []) := by cases e.weak <;> decide
  have htext : i.text = (i.before.val ++ ((if e.weak then js "W/" else []) ++ 34 :: front)) ++
      44 :: (back ++ 34 :: i.after.val) := by
    unfold TagItem.text
    rw [htag, Option.map_some, Option.getD_some, EntityTag.text, hsealed]
    simp
  rw [htext, List.splitOn_append_cons_self, List.mem_append] at hpart
  rcases hpart with hpart | hpart
  · refine ((splitOn_sublist hpart).count_le 34).trans ?_
    rw [List.count_append, List.count_append, List.count_cons_self, List.count_eq_zero.mpr hbefore,
      List.count_eq_zero.mpr hweak, List.count_eq_zero.mpr hfront]
  · refine ((splitOn_sublist hpart).count_le 34).trans ?_
    rw [List.count_append, List.count_cons_self, List.count_eq_zero.mpr hback, List.count_eq_zero.mpr hafter]

/-- A list names the stored tag, whether weak or not, exactly if it is found in the text of the list. -/
theorem matches_iff (hne : items ≠ []) (hcomma : 44 ∉ e.opaqueTag) :
    matchesEtagList ([44].intercalate (items.map TagItem.text)) e.text = true ↔
      ∃ i ∈ items, ∃ e', i.tag = some e' ∧ e.opaqueTag = e'.opaqueTag := by
  have htarget : weakEtagValue e.text = 34 :: (e.opaqueTag ++ [34]) := by
    have h := weakEtag_text (e := e) ⟨[], by simp⟩ ⟨[], by simp⟩
    simpa using h
  unfold matchesEtagList
  rw [decide_eq_true_iff, htarget, split_items hne, List.mem_map]
  constructor
  · rintro ⟨part, hpart, hvalue⟩
    obtain ⟨i, hi, hpart⟩ := List.mem_flatMap.mp hpart
    have hcount : 2 ≤ part.count 34 := by
      refine le_trans ?_ ((weakEtag_sublist part).count_le 34)
      rw [hvalue]
      simp
    by_cases hcut : 44 ∈ i.text
    · obtain ⟨e', htag, hin⟩ := item_commas.mp hcut
      have hle := cut_tag htag hin hpart
      omega
    · rw [List.splitOn_eq_singleton hcut, List.mem_singleton] at hpart
      subst hpart
      unfold TagItem.text at hvalue
      cases htag : i.tag with
      | none =>
        rw [htag, Option.map_none, Option.getD_none, List.append_nil, weakEtag_space] at hvalue
        cases hvalue
      | some e' =>
        rw [htag, Option.map_some, Option.getD_some, weakEtag_text] at hvalue
        exact ⟨i, hi, e', htag, (List.append_cancel_right (List.cons.inj hvalue).2).symm⟩
  · rintro ⟨i, hi, e', htag, hsame⟩
    have hwhole : 44 ∉ i.text := by
      intro hin
      obtain ⟨e'', htag', hin⟩ := item_commas.mp hin
      obtain rfl : e' = e'' := Option.some_inj.mp (htag.symm.trans htag')
      exact hcomma (hsame ▸ hin)
    have hpart : i.text ∈ i.text.splitOn 44 := by
      rw [List.splitOn_eq_singleton hwhole]
      exact List.mem_singleton_self _
    refine ⟨i.text, List.mem_flatMap.mpr ⟨i, hi, hpart⟩, ?_⟩
    unfold TagItem.text
    rw [htag, Option.map_some, Option.getD_some, weakEtag_text, hsame]

theorem star_text (before after : Space) : trim (TagCondition.any before after).text = js "*" := by
  have hbefore : ∀ d ∈ before.val, isWhiteSpace d = true := fun d hd => whiteSpace_of_ifWhitespace (before.property d hd)
  have hafter : ∀ d ∈ after.val.reverse, isWhiteSpace d = true := fun d hd =>
    whiteSpace_of_ifWhitespace (after.property d (List.mem_reverse.mp hd))
  have hstar : isWhiteSpace 42 = false := by decide
  have hleft : (TagCondition.any before after).text.dropWhile isWhiteSpace = 42 :: after.val := by
    change (before.val ++ js "*" ++ after.val).dropWhile isWhiteSpace = 42 :: after.val
    rw [List.append_assoc, List.dropWhile_append_of_pos hbefore]
    simp [js, hstar]
  unfold trim
  rw [hleft, List.reverse_cons, List.dropWhile_append_of_pos hafter]
  simp [hstar, js]

theorem mem_items (h : c ∈ [44].intercalate (items.map TagItem.text)) : c = 44 ∨ ∃ i ∈ items, c ∈ i.text := by
  induction items with
  | nil => simp at h
  | cons i rest ih =>
    cases rest with
    | nil => exact .inr ⟨i, by simp, by simpa using h⟩
    | cons j rest =>
      rw [List.map_cons, List.map_cons, List.intercalate_cons_cons, ← List.map_cons] at h
      rcases List.mem_append.mp h with h | h
      · rcases List.mem_append.mp h with h | h
        · exact .inr ⟨i, by simp, h⟩
        · exact .inl (List.mem_singleton.mp h)
      · exact (ih h).imp_right fun ⟨k, hk, hc⟩ => ⟨k, List.mem_cons_of_mem _ hk, hc⟩

theorem items_sublist (hi : i ∈ items) : i.text.Sublist ([44].intercalate (items.map TagItem.text)) := by
  induction items with
  | nil => cases hi
  | cons j rest ih =>
    cases rest with
    | nil =>
      rw [List.mem_singleton.mp hi]
      simp
    | cons k rest =>
      rw [List.map_cons, List.map_cons, List.intercalate_cons_cons, ← List.map_cons]
      rcases List.mem_cons.mp hi with rfl | hi
      · rw [List.append_assoc]
        exact List.sublist_append_left _ _
      · exact (ih hi).trans (List.sublist_append_right _ _)

/-- No list is taken for a star: it has quotation marks, or there is nothing in it but commas. -/
theorem list_text : trim ([44].intercalate (items.map TagItem.text)) ≠ js "*" := by
  intro h
  have hstar : (42 : CodeUnit) ∈ [44].intercalate (items.map TagItem.text) :=
    (trim_sublist _).subset (by rw [h]; decide)
  obtain ⟨i, hi, hmem⟩ := (mem_items hstar).resolve_left (by decide)
  cases htag : i.tag with
  | none =>
    unfold TagItem.text at hmem
    rw [htag] at hmem
    simp [(space_splits i.before).2.2, (space_splits i.after).2.2] at hmem
  | some e =>
    have hquote : (34 : CodeUnit) ∈ i.text := by
      unfold TagItem.text
      rw [htag]
      simp [EntityTag.text]
    have htrim := mem_trim ((items_sublist hi).subset hquote) (by decide)
    rw [h] at htrim
    exact absurd htrim (by decide)

end Lists

section Evaluating

variable {p : Platform} {r : Incoming} {c : Conditions} {resource : Resource} {t : TagCondition}

theorem any_matches (hcomma : ∀ e, resource.etag = some e → 44 ∉ e.opaqueTag) {first : TagItem} {rest : List TagItem}
    {rule : MatchRule} (hrule : rule.same = EntityTag.sameWeakly) :
    resource.representation.etag.any (matchesEtagList (TagCondition.list first rest).text) =
      (TagCondition.list first rest).selects rule resource := by
  unfold Resource.representation TagCondition.selects TagCondition.text
  cases hetag : resource.etag with
  | none => rfl
  | some e =>
    dsimp only
    rw [hrule, Option.map_some, Option.any_some, Option.any_some, Bool.eq_iff_iff,
      matches_iff (List.cons_ne_nil _ _) (hcomma e hetag)]
    simp [List.any_eq_true, Option.any_eq_true, EntityTag.sameWeakly]

theorem ifMatch_fails (hstates : r.States p c) (hcomma : ∀ e, resource.etag = some e → 44 ∉ e.opaqueTag) :
    r.ifMatchFails resource.representation = c.ifMatch.any (fun t => !t.selects tolerantRule resource) := by
  unfold Incoming.ifMatchFails
  rw [hstates.ifMatch]
  cases c.ifMatch with
  | none => rfl
  | some t =>
    dsimp only [Option.map_some]
    rw [Option.any_some]
    cases t with
    | any before after =>
      rw [if_pos (star_text before after)]
      change (resource.etag.map EntityTag.text).isNone = !resource.etag.isSome
      cases resource.etag <;> rfl
    | list first rest =>
      have hlist : trim (TagCondition.list first rest).text ≠ js "*" := list_text
      have hmatch : resource.representation.etag.any (matchesEtagList (TagCondition.list first rest).text) =
          (TagCondition.list first rest).selects tolerantRule resource := any_matches hcomma rfl
      rw [if_neg hlist, hmatch]

theorem ifNoneMatch_hits (hstates : r.States p c) (hcomma : ∀ e, resource.etag = some e → 44 ∉ e.opaqueTag)
    (hcreate : ∀ before after, c.ifNoneMatch = some (.any before after) → resource ≠ .absent) :
    r.ifNoneMatchHits resource.representation = c.ifNoneMatch.any (TagCondition.selects weakRule resource) := by
  unfold Incoming.ifNoneMatchHits
  rw [hstates.ifNoneMatch]
  cases hnone : c.ifNoneMatch with
  | none => rfl
  | some t =>
    dsimp only [Option.map_some]
    rw [Option.any_some]
    cases t with
    | any before after =>
      have hpresent : resource.isPresent = true := by
        cases hres : resource with
        | absent => exact absurd hres (hcreate before after hnone)
        | present etag mtime => rfl
      rw [decide_eq_true (.inl (star_text before after))]
      exact hpresent.symm
    | list first rest =>
      have hlist : trim (TagCondition.list first rest).text ≠ js "*" := list_text
      have hmatch : resource.representation.etag.any (matchesEtagList (TagCondition.list first rest).text) =
          (TagCondition.list first rest).selects weakRule resource := any_matches hcomma rfl
      simp only [hlist, false_or, Bool.decide_eq_true, hmatch]

theorem ifUnmodifiedSince_fails (hstates : r.States p c) : r.ifUnmodifiedSinceFails p resource.representation =
    decide (c.ifMatch.isNone ∧ resource.modifiedAfter (c.ifUnmodifiedSince.bind p.parseDate)) := by
  unfold Incoming.ifUnmodifiedSinceFails Resource.modifiedAfter
  rw [hstates.ifMatch, hstates.ifUnmodifiedSince]
  have hmtime : resource.representation.mtime = resource.mtime := rfl
  rw [hmtime]
  cases c.ifMatch <;> cases c.ifUnmodifiedSince.bind p.parseDate <;> cases resource.mtime <;> simp

theorem isUnmodified_eq (hstates : r.States p c) : r.isUnmodified p resource.representation =
    decide (c.ifNoneMatch.isNone ∧ resource.modifiedBy (c.ifModifiedSince.bind p.parseDate)) := by
  unfold Incoming.isUnmodified Resource.modifiedBy
  rw [hstates.ifNoneMatch, hstates.ifModifiedSince]
  have hmtime : resource.representation.mtime = resource.mtime := rfl
  rw [hmtime]
  cases c.ifNoneMatch <;> cases c.ifModifiedSince.bind p.parseDate <;> cases resource.mtime <;> simp

/-- The guard evaluates the conditions in their order: weak tags match, `*` needs a recorded tag, and a date is what the
platform takes for one. -/
theorem check_evaluates (hstates : r.States p c) (hcomma : ∀ e, resource.etag = some e → 44 ∉ e.opaqueTag)
    (hcreate : ∀ before after, c.ifNoneMatch = some (.any before after) → resource ≠ .absent) (forRead : Bool) :
    evaluationOf (r.check p resource.representation forRead) = c.evaluate p.parseDate tolerantRule resource forRead := by
  have hheader : r.ifHeaderFails p resource.representation = false := by
    unfold Incoming.ifHeaderFails
    rw [hstates.ifHeader]
    rfl
  unfold Incoming.check Conditions.evaluate
  rw [ifMatch_fails hstates hcomma, ifUnmodifiedSince_fails hstates, ifNoneMatch_hits hstates hcomma hcreate, hheader,
    isUnmodified_eq hstates]
  simp only [decide_eq_true_eq, Bool.false_eq_true, if_false]
  split
  · rfl
  · split
    · rfl
    · split
      · cases forRead <;> rfl
      · split <;> rfl

end Evaluating

/-! ### A weak tag, and a name that is free -/

def stated (c : Conditions) : Incoming := { plainIncoming (js "http://h/o/v/f") with
  ifMatch := c.ifMatch.map TagCondition.text, ifNoneMatch := c.ifNoneMatch.map TagCondition.text,
  ifModifiedSince := c.ifModifiedSince, ifUnmodifiedSince := c.ifUnmodifiedSince }

def noSpace : Space := ⟨[], nil_blank⟩

def versionTag (weak : Bool) : EntityTag := ⟨weak, js "v1", by decide⟩

def ifVersion (weak : Bool) : Conditions :=
  ⟨some (.list ⟨noSpace, some (versionTag weak), noSpace⟩ []), none, none, none⟩

def ifNothing : Conditions := ⟨none, some (.any noSpace noSpace), none, none⟩

theorem version_evaluated : evaluationOf ((stated (ifVersion true)).check plainPlatform
    (Resource.present (some (versionTag false)) (some 5)).representation false) = .passes := by
  have hcomma : ∀ e, (Resource.present (some (versionTag false)) (some 5)).etag = some e → 44 ∉ e.opaqueTag := by
    intro e he
    obtain rfl : versionTag false = e := Option.some_inj.mp he
    decide
  have hstates : (stated (ifVersion true)).States plainPlatform (ifVersion true) := ⟨rfl, rfl, rfl, rfl, by decide⟩
  exact (check_evaluates hstates hcomma (fun _ _ h => by cases h) false).trans (by decide)

/-- A weak tag is accepted, where only a strong one is to match; and a file that is not there cannot be created on the condition
that it is not there. -/
theorem version_tolerated :
    evaluationOf ((stated (ifVersion true)).check plainPlatform
      (Resource.present (some (versionTag false)) (some 5)).representation false) ≠
        (ifVersion true).evaluate plainPlatform.parseDate strongRule (.present (some (versionTag false)) (some 5)) false ∧
    evaluationOf ((stated ifNothing).check plainPlatform Resource.absent.representation false) ≠
      ifNothing.evaluate plainPlatform.parseDate strongRule .absent false := by
  constructor <;> decide

end DurableDav.Dav
