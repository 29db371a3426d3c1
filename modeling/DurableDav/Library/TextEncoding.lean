import DurableDav.Library.UriComponent

namespace DurableDav.Library

/-! ### The octets of a text -/

/-- The code points of a text, a surrogate that stands alone replaced. -/
def scalars : JsString → List ℕ
  | [] => []
  | [c] => if isSurrogate c.val then [65533] else [c.val]
  | c :: d :: rest =>
    if isHighSurrogate c && isLowSurrogate d then joinSurrogates c d :: scalars rest
    else if isSurrogate c.val then 65533 :: scalars (d :: rest)
    else c.val :: scalars (d :: rest)

def textEncode (s : JsString) : List ℕ := (scalars s).flatMap utf8

theorem scalars_cons_plain {c : CodeUnit} (h : isSurrogate c.val = false) (s : JsString) :
    scalars (c :: s) = c.val :: scalars s := by
  have hhigh : isHighSurrogate c = false := by
    simp only [isSurrogate, isHighSurrogate, decide_eq_false_iff_not] at h ⊢
    omega
  cases s with
  | nil => simp [scalars, h]
  | cons d s => simp [scalars, h, hhigh]

/-- No pair of surrogates reaches over a unit that is none. -/
theorem scalars_append_plain {c : CodeUnit} (h : isSurrogate c.val = false) (s t : JsString) :
    scalars (s ++ c :: t) = scalars s ++ c.val :: scalars t := by
  have hlow : isLowSurrogate c = false := by
    simp only [isSurrogate, isLowSurrogate, decide_eq_false_iff_not] at h ⊢
    omega
  induction s using scalars.induct with
  | case1 => exact scalars_cons_plain h t
  | case2 a ha => simp [scalars, ha, hlow, scalars_cons_plain h]
  | case3 a ha => simp [scalars, ha, hlow, scalars_cons_plain h]
  | case4 a b rest hpair ih => simpa [scalars, hpair] using ih
  | case5 a b rest hpair ha ih => simpa [scalars, hpair, ha] using ih
  | case6 a b rest hpair ha ih => simpa [scalars, hpair, ha] using ih

theorem textEncode_append_plain {c : CodeUnit} (h : isSurrogate c.val = false) (s t : JsString) :
    textEncode (s ++ c :: t) = textEncode s ++ (utf8 c.val ++ textEncode t) := by
  rw [textEncode, scalars_append_plain h, List.flatMap_append, List.flatMap_cons]
  rfl

theorem utf8_pos (p : ℕ) : 0 < (utf8 p).length := by
  unfold utf8
  split_ifs <;> simp

theorem whiteSpace_plain {c : CodeUnit} (h : isWhiteSpace c = true) : isSurrogate c.val = false := by
  simp only [isWhiteSpace, isSurrogate, decide_eq_true_eq, decide_eq_false_iff_not, List.mem_cons,
    List.not_mem_nil, or_false] at h ⊢
  omega

theorem textEncode_before {w : JsString} (hw : ∀ c ∈ w, isWhiteSpace c = true) (s : JsString) :
    w.length + (textEncode s).length ≤ (textEncode (w ++ s)).length := by
  induction w with
  | nil => simp
  | cons c w ih =>
    obtain ⟨hc, hw⟩ := List.forall_mem_cons.mp hw
    have hrest := ih hw
    have hpos := utf8_pos c.val
    have hcons : textEncode (c :: (w ++ s)) = utf8 c.val ++ textEncode (w ++ s) :=
      textEncode_append_plain (whiteSpace_plain hc) [] (w ++ s)
    rw [List.cons_append, hcons, List.length_append, List.length_cons]
    omega

theorem textEncode_after {w : JsString} (hw : ∀ c ∈ w, isWhiteSpace c = true) (s : JsString) :
    (textEncode s).length + w.length ≤ (textEncode (s ++ w)).length := by
  induction w with
  | nil => simp
  | cons c w ih =>
    obtain ⟨hc, hw⟩ := List.forall_mem_cons.mp hw
    have hpos := utf8_pos c.val
    have htail := textEncode_before hw []
    rw [List.append_nil] at htail
    rw [textEncode_append_plain (whiteSpace_plain hc), List.length_append, List.length_append, List.length_cons]
    have hnil : (textEncode []).length = 0 := rfl
    omega

theorem trim_split (s : JsString) : ∃ before after, s = before ++ trim s ++ after ∧
    (∀ c ∈ before, isWhiteSpace c = true) ∧ ∀ c ∈ after, isWhiteSpace c = true := by
  refine ⟨s.takeWhile isWhiteSpace, (s.dropWhile isWhiteSpace).rtakeWhile isWhiteSpace, ?_, ?_, ?_⟩
  · rw [trim_eq, List.append_assoc, List.rdropWhile_append_rtakeWhile, List.takeWhile_append_dropWhile]
  · exact fun c hc => List.mem_takeWhile_imp hc
  · exact fun c hc => List.mem_rtakeWhile_imp hc

/-- White space cut off at the ends shortens the octets. -/
theorem trim_eq_of_encoded {s : JsString} (h : textEncode (trim s) = textEncode s) : trim s = s := by
  obtain ⟨before, after, hsplit, hbefore, hafter⟩ := trim_split s
  have hfront := textEncode_before hbefore (trim s)
  have hback := textEncode_after hafter (before ++ trim s)
  rw [← hsplit, ← h] at hback
  have hnil : before = [] := List.eq_nil_of_length_eq_zero (by omega)
  have hnil' : after = [] := List.eq_nil_of_length_eq_zero (by omega)
  rw [hnil, hnil', List.nil_append, List.append_nil] at hsplit
  exact hsplit.symm

theorem scalars_isScalar (s : JsString) : ∀ p ∈ scalars s, IsScalar p := by
  have hreplaced : IsScalar 65533 := by unfold IsScalar; omega
  induction s using scalars.induct with
  | case1 => simp [scalars]
  | case2 c hc => simpa [scalars, hc] using hreplaced
  | case3 c hc => simpa [scalars, hc] using (unit_units (by simpa using hc)).1
  | case4 c d rest hpair ih =>
    obtain ⟨hc, hd⟩ := Bool.and_eq_true_iff.mp hpair
    simpa [scalars, hc, hd] using ⟨(joined_units hc hd).1, ih⟩
  | case5 c d rest hpair hc ih => simpa [scalars, hpair, hc] using ⟨hreplaced, ih⟩
  | case6 c d rest hpair hc ih => simpa [scalars, hpair, hc] using ⟨(unit_units (by simpa using hc)).1, ih⟩

theorem textEncode_lt (s : JsString) : ∀ b ∈ textEncode s, b < 256 := by
  intro b hb
  obtain ⟨p, hp, hb⟩ := List.mem_flatMap.mp hb
  exact utf8_lt (scalars_isScalar s p hp) b hb

/-! ### Base64 -/

def digit64 (n : ℕ) : CodeUnit := Fin.ofNat 65536
  (if n < 26 then 65 + n else if n < 52 then 71 + n else if n < 62 then n - 4 else if n = 62 then 43 else 47)

def padding : CodeUnit := 61

def bytesToBase64 : List ℕ → JsString
  | [] => []
  | [a] => [digit64 (a / 4), digit64 (a % 4 * 16), padding, padding]
  | [a, b] => [digit64 (a / 4), digit64 (a % 4 * 16 + b / 16), digit64 (b % 16 * 4), padding]
  | a :: b :: c :: rest =>
    digit64 (a / 4) :: digit64 (a % 4 * 16 + b / 16) :: digit64 (b % 16 * 4 + c / 64) :: digit64 (c % 64) ::
      bytesToBase64 rest

example : bytesToBase64 (textEncode (js "me:pw")) = js "bWU6cHc=" := by decide

theorem digit64_val (n : ℕ) : (digit64 n).val =
    if n < 26 then 65 + n else if n < 52 then 71 + n else if n < 62 then n - 4 else if n = 62 then 43 else 47 := by
  apply ofNat_val
  split_ifs <;> omega

theorem digit64_injective {m n : ℕ} (hm : m < 64) (hn : n < 64) (h : digit64 m = digit64 n) : m = n := by
  have hval := congrArg Fin.val h
  rw [digit64_val, digit64_val] at hval
  split_ifs at hval <;> omega

theorem digit64_ne_padding (n : ℕ) : digit64 n ≠ padding := by
  intro h
  have hval := congrArg Fin.val h
  rw [digit64_val] at hval
  change _ = 61 at hval
  split_ifs at hval <;> omega

theorem bytesToBase64_injective {xs ys : List ℕ} (hx : ∀ b ∈ xs, b < 256) (hy : ∀ b ∈ ys, b < 256)
    (h : bytesToBase64 xs = bytesToBase64 ys) : xs = ys := by
  induction xs using bytesToBase64.induct generalizing ys with
  | case1 =>
    match ys with
    | [] => rfl
    | [_] | [_, _] | _ :: _ :: _ :: _ => simp [bytesToBase64] at h
  | case2 a =>
    have ha := hx a (by simp)
    match ys with
    | [] => simp [bytesToBase64] at h
    | [b] =>
      have hb := hy b (by simp)
      simp only [bytesToBase64, List.cons.injEq] at h
      have hfirst := digit64_injective (by omega) (by omega) h.1
      have hsecond := digit64_injective (by omega) (by omega) h.2.1
      rw [show a = b by omega]
    | [_, _] | _ :: _ :: _ :: _ =>
      simp only [bytesToBase64, List.cons.injEq] at h
      exact absurd h.2.2.1.symm (digit64_ne_padding _)
  | case3 a b =>
    have ha := hx a (by simp)
    have hb := hx b (by simp)
    match ys with
    | [] => simp [bytesToBase64] at h
    | [_] =>
      simp only [bytesToBase64, List.cons.injEq] at h
      exact absurd h.2.2.1 (digit64_ne_padding _)
    | [c, d] =>
      have hc := hy c (by simp)
      have hd := hy d (by simp)
      simp only [bytesToBase64, List.cons.injEq] at h
      have hfirst := digit64_injective (by omega) (by omega) h.1
      have hsecond := digit64_injective (by omega) (by omega) h.2.1
      have hthird := digit64_injective (by omega) (by omega) h.2.2.1
      rw [show a = c by omega, show b = d by omega]
    | _ :: _ :: _ :: _ =>
      simp only [bytesToBase64, List.cons.injEq] at h
      exact absurd h.2.2.2.1.symm (digit64_ne_padding _)
  | case4 a b c rest ih =>
    simp only [List.forall_mem_cons] at hx
    obtain ⟨ha, hb, hc, hrest⟩ := hx
    match ys with
    | [] => simp [bytesToBase64] at h
    | [_] =>
      simp only [bytesToBase64, List.cons.injEq] at h
      exact absurd h.2.2.1 (digit64_ne_padding _)
    | [_, _] =>
      simp only [bytesToBase64, List.cons.injEq] at h
      exact absurd h.2.2.2.1 (digit64_ne_padding _)
    | d :: e :: f :: others =>
      simp only [List.forall_mem_cons] at hy
      obtain ⟨hd, he, hf, hothers⟩ := hy
      simp only [bytesToBase64, List.cons.injEq] at h
      have hfirst := digit64_injective (by omega) (by omega) h.1
      have hsecond := digit64_injective (by omega) (by omega) h.2.1
      have hthird := digit64_injective (by omega) (by omega) h.2.2.1
      have hfourth := digit64_injective (by omega) (by omega) h.2.2.2.1
      rw [show a = d by omega, show b = e by omega, show c = f by omega, ih hrest hothers h.2.2.2.2]

end DurableDav.Library
