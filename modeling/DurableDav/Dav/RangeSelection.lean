import DurableDav.Dav.IfHeader
import DurableDav.Dav.Reading

namespace DurableDav.Dav

open Library

/-! ### A range of bytes -/

/-- What a request for a range selects of a representation. -/
inductive Selection
  | ignored
  | bytes (first last : ℕ)
  | unsatisfiable

def rangeText (first last : JsString) : JsString := js "bytes=" ++ first ++ dash :: last

/-- A range that ends before it begins. -/
def Inverted (first last : JsString) : Prop := first ≠ [] ∧ last ≠ [] ∧ digitsValue last < digitsValue first

instance (first last : JsString) : Decidable (Inverted first last) := inferInstanceAs (Decidable (_ ∧ _ ∧ _))

/-- The first of the bytes, where there is a first; the last, or as many as are left; the length of a suffix. -/
def select (first last : JsString) (size : ℕ) : Selection :=
  if first = [] then
    if last = [] then .ignored
    else if digitsValue last = 0 then .unsatisfiable
    else .bytes (size - digitsValue last) (size - 1)
  else if Inverted first last then .ignored
  else if size ≤ digitsValue first then .unsatisfiable
  else .bytes (digitsValue first) (if last = [] then size - 1 else min (digitsValue last) (size - 1))

def ParsedRange.Answers (range : ParsedRange) (size : ℕ) : Selection → Prop
  | .ignored => range = fullBody
  | .unsatisfiable => range = unsatisfiable size
  | .bytes first last => range.status = 206 ∧ range.offset = first ∧ (∃ length, range.length = some length ∧
      1 ≤ length ∧ first + length ≤ size ∧ first + length = last + 1) ∧
      range.contentRange = some (js "bytes " ++ decimal first ++ dash :: decimal last ++ slash :: decimal size)

/-- Every number that the program computes with is safe. -/
def Computable (first last : JsString) (size : ℕ) : Prop :=
  if first = [] then digitsValue last ≤ maxSafeInteger
  else digitsValue first ≤ maxSafeInteger ∧
    (digitsValue first < size → last ≠ [] → number last + 1 - digitsValue first ≤ maxSafeInteger)

instance (first last : JsString) (size : ℕ) : Decidable (Computable first last size) := by
  unfold Computable
  infer_instance

section Numbers

variable {digits : JsString}

theorem number_safe (h : digitsValue digits ≤ maxSafeInteger) : number digits = digitsValue digits := by
  unfold maxSafeInteger at h
  exact roundBits_of_lt (by omega) (by omega)

theorem number_unsafe (h : maxSafeInteger < digitsValue digits) : maxSafeInteger < number digits := by
  unfold maxSafeInteger at h ⊢
  have hge : 2 ^ 53 ≤ number digits := le_roundBits (by omega) (by omega)
  omega

theorem digit_not_space {c : CodeUnit} (h : isDigitUnit c = true) : isWhiteSpace c = false := by
  unfold isDigitUnit at h
  unfold isWhiteSpace
  simp only [decide_eq_true_eq] at h
  simp only [decide_eq_false_iff_not, List.mem_cons, List.not_mem_nil, or_false]
  omega

theorem digit_not_dash {c : CodeUnit} (h : isDigitUnit c = true) : c ≠ dash := by
  rintro rfl
  exact absurd h (by decide)

end Numbers

section Reading

variable {first last : JsString} {size : ℕ}

theorem rangeBounds_text (hfirst : first.all isDigitUnit = true) (hlast : last.all isDigitUnit = true) :
    rangeBounds (rangeText first last) = some (first, last) := by
  have hdash : dash ∉ first := fun hmem => digit_not_dash (List.all_eq_true.mp hfirst dash hmem) rfl
  have hspace : isWhiteSpace dash = false := by decide
  -- the text ends in a digit or in the dash
  have htrim : trim (rangeText first last) = rangeText first last := by
    have hfront : (rangeText first last).dropWhile isWhiteSpace = rangeText first last := rfl
    unfold trim
    rw [hfront, List.reverse_eq_iff]
    have hback : (rangeText first last).reverse = last.reverse ++ dash :: (first.reverse ++ (js "bytes=").reverse) := by
      simp [rangeText]
    rw [hback]
    cases hrev : last.reverse with
    | nil => simp [hspace]
    | cons c rest =>
      have hmem : c ∈ last := List.mem_reverse.mp (hrev ▸ List.mem_cons_self)
      simp [digit_not_space (List.all_eq_true.mp hlast c hmem)]
  unfold rangeBounds
  rw [htrim]
  have hcut : cutAt dash ((rangeText first last).drop 6) = some (first, last) := cutAt_append hdash
  have hunit : ((rangeText first last).take 6).map asciiLower = js "bytes=" := rfl
  dsimp only
  rw [if_pos hunit, hcut]
  exact if_pos ⟨hfirst, hlast⟩

theorem partialBody_answers {offset length last : ℕ} (hlength : 1 ≤ length) (hsize : offset + length ≤ size)
    (hlast : offset + length = last + 1) : (partialBody offset length size).Answers size (.bytes offset last) := by
  refine ⟨rfl, rfl, ⟨length, rfl, hlength, hsize, hlast⟩, ?_⟩
  unfold partialBody
  rw [show offset + length - 1 = last by omega]

theorem suffixRange_answers (hsize : 0 < size) (hlast : last ≠ []) (hsafe : digitsValue last ≤ maxSafeInteger) :
    (suffixRange last size).Answers size (select [] last size) := by
  unfold suffixRange select
  rw [if_neg hlast, number_safe hsafe, if_pos rfl, if_neg hlast]
  by_cases hzero : digitsValue last = 0
  · rw [if_pos (.inr hzero), if_pos hzero]
    rfl
  · rw [if_neg (by omega), if_neg hzero]
    exact partialBody_answers (by omega) (by omega) (by omega)

theorem boundedRange_answers (hmax : size ≤ maxSafeInteger) (hfirst : first ≠ []) (hsafe : Computable first last size) :
    (boundedRange first last size).Answers size (if Inverted first last then .unsatisfiable else select first last size) := by
  unfold Computable at hsafe
  rw [if_neg hfirst] at hsafe
  obtain ⟨hstart, hend⟩ := hsafe
  unfold boundedRange
  dsimp only
  rw [number_safe hstart, if_neg (by omega)]
  by_cases hpast : size ≤ digitsValue first
  · rw [if_pos hpast]
    unfold select
    rw [if_neg hfirst, if_pos hpast]
    split <;> rfl
  rw [if_neg hpast]
  by_cases hopen : last = []
  · have hnot : ¬ Inverted first last := fun h => h.2.1 hopen
    unfold select
    rw [if_pos hopen, if_neg hnot, if_neg hfirst, if_neg hnot, if_neg hpast, if_pos hopen]
    exact partialBody_answers (by omega) (by omega) (by omega)
  have hlength := hend (by omega) hopen
  rw [if_neg hopen, if_neg (by omega)]
  -- an end that is rounded lies beyond the representation
  have hround : number last = digitsValue last ∨ size ≤ number last ∧ size ≤ digitsValue last := by
    by_cases hlast : digitsValue last ≤ maxSafeInteger
    · exact .inl (number_safe hlast)
    · have hunsafe : maxSafeInteger < number last := number_unsafe (by omega)
      exact .inr (by omega)
  by_cases hinv : Inverted first last
  · have hbefore := hinv.2.2
    rw [if_pos hinv, if_pos (by omega)]
    rfl
  · have hafter : digitsValue first ≤ digitsValue last := by
      by_contra hlt
      exact hinv ⟨hfirst, hopen, by omega⟩
    unfold select
    rw [if_neg hinv, if_neg (by omega), if_neg hfirst, if_neg hinv, if_neg hpast, if_neg hopen]
    exact partialBody_answers (by omega) (by omega) (by omega)

end Reading

/-- A single range of bytes is answered with the bytes it selects, as far as the program computes with safe numbers; one that
ends before it begins is unsatisfiable. -/
theorem parseRange_selects {size : ℕ} (hsize : 0 < size) (hmax : size ≤ maxSafeInteger) {first last : JsString}
    (hfirst : first.all isDigitUnit = true) (hlast : last.all isDigitUnit = true) (hsafe : Computable first last size) :
    (parseRangeHeader (some (rangeText first last)) size).Answers size
      (if Inverted first last then .unsatisfiable else select first last size) := by
  have hhead : parseRangeHeader (some (rangeText first last)) size =
      if first = [] then suffixRange last size else boundedRange first last size := by
    unfold parseRangeHeader
    rw [Option.filter_some, if_pos (by simp [rangeText, js])]
    dsimp only
    rw [if_neg (by omega), rangeBounds_text hfirst hlast]
  rw [hhead]
  by_cases hopen : first = []
  · subst hopen
    have hnot : ¬ Inverted [] last := fun h => h.1 rfl
    rw [if_pos rfl, if_neg hnot]
    by_cases hlast : last = []
    · subst hlast
      rfl
    · exact suffixRange_answers hsize hlast hsafe
  · rw [if_neg hopen]
    exact boundedRange_answers hmax hopen hsafe

/-- The end is far beyond any safe number, and the length is not. -/
theorem far_end_selects : (parseRangeHeader (some (rangeText (js "4") (js "9007199254740994"))) 10).Answers 10
    (if Inverted (js "4") (js "9007199254740994") then .unsatisfiable else select (js "4") (js "9007199254740994") 10) :=
  parseRange_selects (by decide) (by decide) (by decide) (by decide) (by decide)

/-- A range that ends before it begins is none, and is to be ignored. -/
theorem inverted_unsatisfiable :
    ¬ (parseRangeHeader (some (rangeText (js "50") (js "10"))) 100).Answers 100 (select (js "50") (js "10") 100) := by
  have hignored : select (js "50") (js "10") 100 = .ignored := rfl
  have hrefused : parseRangeHeader (some (rangeText (js "50") (js "10"))) 100 = unsatisfiable 100 := by decide
  rw [hignored, hrefused]
  intro h
  cases h

end DurableDav.Dav
