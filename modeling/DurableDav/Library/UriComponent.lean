import DurableDav.Library.JsText

namespace DurableDav.Library

/-! ### Code points -/

def isSurrogate (p : ℕ) : Bool := 55296 ≤ p ∧ p ≤ 57343

/-- A code point that is no surrogate. -/
def IsScalar (p : ℕ) : Prop := p < 1114112 ∧ ¬ (55296 ≤ p ∧ p ≤ 57343)

def joinSurrogates (c d : CodeUnit) : ℕ := 65536 + (c.val - 55296) * 1024 + (d.val - 56320)

/-- The code points of a text, `none` where a surrogate stands alone. -/
def codePoints : JsString → Option (List ℕ)
  | [] => some []
  | [c] => if isSurrogate c.val then none else some [c.val]
  | c :: d :: rest =>
    if isHighSurrogate c && isLowSurrogate d then (codePoints rest).map (joinSurrogates c d :: ·)
    else if isSurrogate c.val then none
    else (codePoints (d :: rest)).map (c.val :: ·)

def codePointUnits (p : ℕ) : JsString :=
  if p < 65536 then [Fin.ofNat 65536 p]
  else [Fin.ofNat 65536 (55296 + (p - 65536) / 1024), Fin.ofNat 65536 (56320 + (p - 65536) % 1024)]

/-! ### Octets -/

def utf8 (p : ℕ) : List ℕ :=
  if p < 128 then [p]
  else if p < 2048 then [192 + p / 64, 128 + p % 64]
  else if p < 65536 then [224 + p / 4096, 128 + p / 64 % 64, 128 + p % 64]
  else [240 + p / 262144, 128 + p / 4096 % 64, 128 + p / 64 % 64, 128 + p % 64]

def hexDigit (n : ℕ) : CodeUnit := Fin.ofNat 65536 (if n < 10 then 48 + n else 55 + n)

def hexValue (c : CodeUnit) : Option ℕ :=
  if 48 ≤ c.val ∧ c.val ≤ 57 then some (c.val - 48)
  else if 65 ≤ c.val ∧ c.val ≤ 70 then some (c.val - 55)
  else if 97 ≤ c.val ∧ c.val ≤ 102 then some (c.val - 87)
  else none

def percent : CodeUnit := 37

def escapeOctet (b : ℕ) : JsString := [percent, hexDigit (b / 16), hexDigit (b % 16)]

/-! ### Encoding and decoding -/

def isUnescaped (p : ℕ) : Bool :=
  (48 ≤ p ∧ p ≤ 57) ∨ (65 ≤ p ∧ p ≤ 90) ∨ (97 ≤ p ∧ p ≤ 122) ∨ p ∈ [45, 95, 46, 33, 126, 42, 39, 40, 41]

def encodePoint (p : ℕ) : JsString :=
  if isUnescaped p then [Fin.ofNat 65536 p] else (utf8 p).flatMap escapeOctet

/-- `none` where a surrogate stands alone, which is an error. -/
def encodeURIComponent (s : JsString) : Option JsString := (codePoints s).map (List.flatMap encodePoint)

/-- The units of a text, its escapes read as octets. -/
def readEscapes : JsString → Option (List (CodeUnit ⊕ ℕ))
  | [] => some []
  | c :: rest =>
    if c = percent then
      match rest with
      | high :: low :: rest =>
        match hexValue high, hexValue low with
        | some h, some l => (readEscapes rest).map (.inr (16 * h + l) :: ·)
        | _, _ => none
      | _ => none
    else (readEscapes rest).map (.inl c :: ·)

def isContinuation (b : ℕ) : Bool := 128 ≤ b ∧ b ≤ 191

def decodeOctets : List (CodeUnit ⊕ ℕ) → Option JsString
  | [] => some []
  | .inl c :: rest => (decodeOctets rest).map (c :: ·)
  | .inr b :: rest =>
    if b < 128 then (decodeOctets rest).map (Fin.ofNat 65536 b :: ·)
    else if 192 ≤ b ∧ b ≤ 223 then
      match rest with
      | .inr b₁ :: rest =>
        let p := (b - 192) * 64 + (b₁ - 128)
        if isContinuation b₁ ∧ 128 ≤ p then (decodeOctets rest).map (codePointUnits p ++ ·) else none
      | _ => none
    else if 224 ≤ b ∧ b ≤ 239 then
      match rest with
      | .inr b₁ :: .inr b₂ :: rest =>
        let p := (b - 224) * 4096 + (b₁ - 128) * 64 + (b₂ - 128)
        if isContinuation b₁ ∧ isContinuation b₂ ∧ 2048 ≤ p ∧ !isSurrogate p then
          (decodeOctets rest).map (codePointUnits p ++ ·)
        else none
      | _ => none
    else if 240 ≤ b ∧ b ≤ 247 then
      match rest with
      | .inr b₁ :: .inr b₂ :: .inr b₃ :: rest =>
        let p := (b - 240) * 262144 + (b₁ - 128) * 4096 + (b₂ - 128) * 64 + (b₃ - 128)
        if isContinuation b₁ ∧ isContinuation b₂ ∧ isContinuation b₃ ∧ 65536 ≤ p ∧ p < 1114112 then
          (decodeOctets rest).map (codePointUnits p ++ ·)
        else none
      | _ => none
    else none

/-- `none` where an escape is malformed, which is an error. -/
def decodeURIComponent (s : JsString) : Option JsString := (readEscapes s).bind decodeOctets

example : encodeURIComponent [97, 32, 233, 8364] = some (js "a%20%C3%A9%E2%82%AC") := by decide

example : decodeOctets [.inr 98] = some [98] := by simp [decodeOctets]

/-! ### What is encoded is decoded again -/

theorem ofNat_val {p : ℕ} (h : p < 65536) : (Fin.ofNat 65536 p).val = p := Nat.mod_eq_of_lt h

theorem surrogates_bounds {c d : CodeUnit} (hc : isHighSurrogate c = true) (hd : isLowSurrogate d = true) :
    55296 ≤ c.val ∧ c.val ≤ 56319 ∧ 56320 ≤ d.val ∧ d.val ≤ 57343 := by
  simp only [isHighSurrogate, isLowSurrogate, decide_eq_true_eq] at hc hd
  omega

theorem joined_units {c d : CodeUnit} (hc : isHighSurrogate c = true) (hd : isLowSurrogate d = true) :
    IsScalar (joinSurrogates c d) ∧ codePointUnits (joinSurrogates c d) = [c, d] := by
  obtain ⟨hc₁, hc₂, hd₁, hd₂⟩ := surrogates_bounds hc hd
  refine ⟨?_, ?_⟩
  · unfold IsScalar joinSurrogates
    omega
  · have hlarge : ¬ joinSurrogates c d < 65536 := by
      unfold joinSurrogates
      omega
    have hhigh : 55296 + (joinSurrogates c d - 65536) / 1024 = c.val := by
      unfold joinSurrogates
      omega
    have hlow : 56320 + (joinSurrogates c d - 65536) % 1024 = d.val := by
      unfold joinSurrogates
      omega
    rw [codePointUnits, if_neg hlarge, hhigh, hlow]
    simp

theorem unit_units {c : CodeUnit} (h : isSurrogate c.val = false) :
    IsScalar c.val ∧ codePointUnits c.val = [c] := by
  have hval : ¬ (55296 ≤ c.val ∧ c.val ≤ 57343) := by simpa [isSurrogate] using h
  have hlt := c.isLt
  refine ⟨⟨by omega, hval⟩, ?_⟩
  rw [codePointUnits, if_pos hlt]
  simp

theorem codePoints_units {s : JsString} {ps : List ℕ} (h : codePoints s = some ps) :
    ps.flatMap codePointUnits = s ∧ ∀ p ∈ ps, IsScalar p := by
  induction s using codePoints.induct generalizing ps with
  | case1 =>
    obtain rfl := Option.some.inj h
    simp
  | case2 c hc => simp [codePoints, hc] at h
  | case3 c hc =>
    simp only [codePoints, if_neg hc, Option.some.injEq] at h
    obtain ⟨hscalar, hunits⟩ := unit_units (by simpa using hc)
    rw [← h]
    exact ⟨by simp [hunits], by simpa using hscalar⟩
  | case4 c d rest hpair ih =>
    simp only [codePoints, if_pos hpair] at h
    obtain ⟨qs, hqs, rfl⟩ := Option.map_eq_some_iff.mp h
    obtain ⟨hrest, hall⟩ := ih hqs
    obtain ⟨hc, hd⟩ := Bool.and_eq_true_iff.mp hpair
    obtain ⟨hscalar, hunits⟩ := joined_units hc hd
    rw [List.flatMap_cons, hunits, hrest]
    exact ⟨rfl, List.forall_mem_cons.mpr ⟨hscalar, hall⟩⟩
  | case5 c d rest hpair hc => simp [codePoints, hpair, hc] at h
  | case6 c d rest hpair hc ih =>
    simp only [codePoints, if_neg hpair, if_neg hc] at h
    obtain ⟨qs, hqs, rfl⟩ := Option.map_eq_some_iff.mp h
    obtain ⟨hrest, hall⟩ := ih hqs
    obtain ⟨hscalar, hunits⟩ := unit_units (by simpa using hc)
    rw [List.flatMap_cons, hunits, hrest]
    exact ⟨rfl, List.forall_mem_cons.mpr ⟨hscalar, hall⟩⟩

def pointOctets (p : ℕ) : List (CodeUnit ⊕ ℕ) :=
  if isUnescaped p then [.inl (Fin.ofNat 65536 p)] else (utf8 p).map .inr

theorem hexValue_hexDigit : ∀ n < 16, hexValue (hexDigit n) = some n := by decide

theorem readEscapes_cons {c : CodeUnit} (h : c ≠ percent) (t : JsString) :
    readEscapes (c :: t) = (readEscapes t).map (.inl c :: ·) := by
  conv_lhs => rw [readEscapes.eq_def]
  simp only [if_neg h]

theorem readEscapes_octet {b : ℕ} (hb : b < 256) (t : JsString) :
    readEscapes (escapeOctet b ++ t) = (readEscapes t).map (.inr b :: ·) := by
  simp only [escapeOctet, List.cons_append, List.nil_append, readEscapes, ↓reduceIte,
    hexValue_hexDigit (b / 16) (by omega), hexValue_hexDigit (b % 16) (by omega)]
  rw [Nat.div_add_mod b 16]

theorem readEscapes_octets {bs : List ℕ} (hbs : ∀ b ∈ bs, b < 256) (t : JsString) :
    readEscapes (bs.flatMap escapeOctet ++ t) = (readEscapes t).map (bs.map Sum.inr ++ ·) := by
  induction bs with
  | nil => simp
  | cons b bs ih =>
    obtain ⟨hb, hbs⟩ := List.forall_mem_cons.mp hbs
    rw [List.flatMap_cons, List.append_assoc, readEscapes_octet hb, ih hbs, Option.map_map]
    rfl

theorem utf8_lt {p : ℕ} (hp : IsScalar p) : ∀ b ∈ utf8 p, b < 256 := by
  obtain ⟨hlt, -⟩ := hp
  unfold utf8
  split
  · intro b hb
    rw [List.mem_singleton.mp hb]
    omega
  · split
    · simp only [List.mem_cons, List.not_mem_nil, or_false, forall_eq_or_imp, forall_eq]
      omega
    · split
      · simp only [List.mem_cons, List.not_mem_nil, or_false, forall_eq_or_imp, forall_eq]
        omega
      · simp only [List.mem_cons, List.not_mem_nil, or_false, forall_eq_or_imp, forall_eq]
        omega

theorem unescaped_lt {p : ℕ} (h : isUnescaped p = true) : p < 128 ∧ p ≠ 37 ∧ p ≠ 47 := by
  simp only [isUnescaped, List.mem_cons, List.not_mem_nil, or_false, decide_eq_true_eq] at h
  omega

theorem readEscapes_point {p : ℕ} (hp : IsScalar p) (t : JsString) :
    readEscapes (encodePoint p ++ t) = (readEscapes t).map (pointOctets p ++ ·) := by
  unfold encodePoint pointOctets
  split
  · rename_i hplain
    obtain ⟨hlt, hne, -⟩ := unescaped_lt hplain
    have hc : Fin.ofNat 65536 p ≠ percent := by
      intro he
      have hval := congrArg Fin.val he
      rw [ofNat_val (by omega)] at hval
      exact hne hval
    simp only [List.cons_append, List.nil_append, readEscapes_cons hc]
  · exact readEscapes_octets (utf8_lt hp) t

theorem decodeOctets_ascii {b : ℕ} (h : b < 128) (ts : List (CodeUnit ⊕ ℕ)) :
    decodeOctets (.inr b :: ts) = (decodeOctets ts).map (Fin.ofNat 65536 b :: ·) := by
  conv_lhs => rw [decodeOctets.eq_def]
  simp only [if_pos h]

theorem decodeOctets_utf8 {p : ℕ} (hp : IsScalar p) (ts : List (CodeUnit ⊕ ℕ)) :
    decodeOctets ((utf8 p).map Sum.inr ++ ts) = (decodeOctets ts).map (codePointUnits p ++ ·) := by
  obtain ⟨hlt, hscalar⟩ := hp
  unfold utf8
  split
  · rename_i hone
    simp only [List.map_cons, List.map_nil, List.cons_append, List.nil_append, decodeOctets_ascii hone,
      codePointUnits, if_pos (show p < 65536 by omega)]
  · split
    · have hvalue : (192 + p / 64 - 192) * 64 + (128 + p % 64 - 128) = p := by omega
      simp only [List.map_cons, List.map_nil, List.cons_append, List.nil_append, decodeOctets, hvalue,
        isContinuation]
      rw [if_neg (by omega), if_pos (by omega), if_pos (by simp only [decide_eq_true_eq]; omega)]
    · split
      · have hvalue : (224 + p / 4096 - 224) * 4096 + (128 + p / 64 % 64 - 128) * 64 + (128 + p % 64 - 128) = p := by
          omega
        simp only [List.map_cons, List.map_nil, List.cons_append, List.nil_append, decodeOctets, hvalue,
          isContinuation, isSurrogate]
        rw [if_neg (by omega), if_neg (by omega), if_pos (by omega),
          if_pos (by simp only [decide_eq_true_eq, Bool.not_eq_true', decide_eq_false_iff_not]; omega)]
      · have hvalue : (240 + p / 262144 - 240) * 262144 + (128 + p / 4096 % 64 - 128) * 4096 +
            (128 + p / 64 % 64 - 128) * 64 + (128 + p % 64 - 128) = p := by omega
        simp only [List.map_cons, List.map_nil, List.cons_append, List.nil_append, decodeOctets, hvalue,
          isContinuation]
        rw [if_neg (by omega), if_neg (by omega), if_neg (by omega), if_pos (by omega),
          if_pos (by simp only [decide_eq_true_eq]; omega)]

theorem decodeOctets_point {p : ℕ} (hp : IsScalar p) (ts : List (CodeUnit ⊕ ℕ)) :
    decodeOctets (pointOctets p ++ ts) = (decodeOctets ts).map (codePointUnits p ++ ·) := by
  unfold pointOctets
  split
  · rename_i hplain
    have hlt := (unescaped_lt hplain).1
    simp only [List.cons_append, List.nil_append, decodeOctets, codePointUnits, if_pos (show p < 65536 by omega)]
  · exact decodeOctets_utf8 hp ts

theorem readEscapes_points {ps : List ℕ} (hps : ∀ p ∈ ps, IsScalar p) :
    readEscapes (ps.flatMap encodePoint) = some (ps.flatMap pointOctets) := by
  induction ps with
  | nil => rfl
  | cons p ps ih =>
    obtain ⟨hp, hps⟩ := List.forall_mem_cons.mp hps
    rw [List.flatMap_cons, readEscapes_point hp, ih hps]
    rfl

theorem decodeOctets_points {ps : List ℕ} (hps : ∀ p ∈ ps, IsScalar p) :
    decodeOctets (ps.flatMap pointOctets) = some (ps.flatMap codePointUnits) := by
  induction ps with
  | nil => rfl
  | cons p ps ih =>
    obtain ⟨hp, hps⟩ := List.forall_mem_cons.mp hps
    rw [List.flatMap_cons, decodeOctets_point hp, ih hps]
    rfl

theorem decode_encode {s t : JsString} (h : encodeURIComponent s = some t) : decodeURIComponent t = some s := by
  obtain ⟨ps, hps, rfl⟩ := Option.map_eq_some_iff.mp h
  obtain ⟨hunits, hscalar⟩ := codePoints_units hps
  unfold decodeURIComponent
  rw [readEscapes_points hscalar, Option.bind_some, decodeOctets_points hscalar, hunits]

/-! ### What an encoded text is made of -/

def isUriUnit (c : CodeUnit) : Bool := isUnescaped c.val || c = percent

theorem hexDigit_unit : ∀ n < 16, isUriUnit (hexDigit n) = true := by decide

theorem encodePoint_units {p : ℕ} (hp : IsScalar p) : ∀ c ∈ encodePoint p, isUriUnit c = true := by
  unfold encodePoint
  split
  · rename_i hplain
    have hlt := (unescaped_lt hplain).1
    intro c hc
    rw [List.mem_singleton.mp hc, isUriUnit, ofNat_val (by omega), hplain]
    rfl
  · intro c hc
    obtain ⟨b, hb, hc⟩ := List.mem_flatMap.mp hc
    have hlt := utf8_lt hp b hb
    simp only [escapeOctet, List.mem_cons, List.not_mem_nil, or_false] at hc
    rcases hc with rfl | rfl | rfl
    · decide
    · exact hexDigit_unit _ (by omega)
    · exact hexDigit_unit _ (by omega)

theorem encoded_units {s t : JsString} (h : encodeURIComponent s = some t) : ∀ c ∈ t, isUriUnit c = true := by
  obtain ⟨ps, hps, rfl⟩ := Option.map_eq_some_iff.mp h
  intro c hc
  obtain ⟨p, hp, hc⟩ := List.mem_flatMap.mp hc
  exact encodePoint_units ((codePoints_units hps).2 p hp) c hc

theorem codePoints_plain {s : JsString} (h : ∀ c ∈ s, isUnescaped c.val = true) :
    codePoints s = some (s.map Fin.val) := by
  have hno (c : CodeUnit) (hc : isUnescaped c.val = true) : isSurrogate c.val = false ∧ isHighSurrogate c = false := by
    have hlt := (unescaped_lt hc).1
    simp only [isSurrogate, isHighSurrogate, decide_eq_false_iff_not]
    omega
  induction s with
  | nil => rfl
  | cons c s ih =>
    obtain ⟨hc, hs⟩ := List.forall_mem_cons.mp h
    obtain ⟨hsingle, hhigh⟩ := hno c hc
    cases s with
    | nil => simp [codePoints, hsingle]
    | cons d s =>
      simp only [codePoints, hhigh, hsingle, Bool.false_and, Bool.false_eq_true, ↓reduceIte, ih hs]
      rfl

theorem decimal_unescaped (n : ℕ) : ∀ c ∈ decimal n, isUnescaped c.val = true := by
  have hunit : ∀ d < 10, isUnescaped (digitUnit d).val = true := by decide
  unfold decimal inBase
  split
  · simpa using hunit 0 (by omega)
  · intro c hc
    obtain ⟨d, hd, rfl⟩ := List.mem_map.mp (List.mem_reverse.mp hc)
    exact hunit d (Nat.digits_lt_base (by omega) hd)

/-- No pair of surrogates reaches over a unit that is none. -/
theorem codePoints_split {c : CodeUnit} (hc : isSurrogate c.val = false) (a b : JsString) :
    (codePoints (a ++ c :: b)).isSome ↔ (codePoints a).isSome ∧ (codePoints b).isSome := by
  have hhigh : isHighSurrogate c = false := by
    simp only [isSurrogate, isHighSurrogate, decide_eq_false_iff_not] at hc ⊢
    omega
  have hlow : isLowSurrogate c = false := by
    simp only [isSurrogate, isLowSurrogate, decide_eq_false_iff_not] at hc ⊢
    omega
  have hcons : (codePoints (c :: b)).isSome ↔ (codePoints b).isSome := by
    cases b with
    | nil => simp [codePoints, hc]
    | cons d b => simp [codePoints, hhigh, hc]
  induction a using codePoints.induct with
  | case1 => simpa [codePoints] using hcons
  | case2 x hx => simp [codePoints, hlow, hx]
  | case3 x hx => simpa [codePoints, hlow, hx] using hcons
  | case4 x y rest hpair ih =>
    obtain ⟨hx, hy⟩ := Bool.and_eq_true_iff.mp hpair
    simpa [codePoints, hx, hy] using ih
  | case5 x y rest hpair hx => simp [codePoints, hpair, hx]
  | case6 x y rest hpair hx ih => simpa [codePoints, hpair, hx] using ih

/-- A text without anything to escape stands for itself. -/
theorem encode_plain {s : JsString} (h : ∀ c ∈ s, isUnescaped c.val = true) : encodeURIComponent s = some s := by
  unfold encodeURIComponent
  rw [codePoints_plain h, Option.map_some, List.flatMap_map]
  congr 1
  induction s with
  | nil => rfl
  | cons c s ih =>
    obtain ⟨hc, hs⟩ := List.forall_mem_cons.mp h
    rw [List.flatMap_cons, ih hs, encodePoint, if_pos hc]
    simp

/-! ### Texts taken apart at a unit that no escape contains -/

section Split

variable {c : CodeUnit}

theorem readEscapes_split (hc : c ≠ percent) (hhex : hexValue c = none) (a b : JsString) :
    readEscapes (a ++ c :: b) = (readEscapes a).bind fun x => (readEscapes b).map (x ++ .inl c :: ·) := by
  induction a using readEscapes.induct with
  | case1 => rw [List.nil_append, readEscapes_cons hc]; rfl
  | case2 high low rest hv lv hlow hhigh ih =>
    simp only [List.cons_append, readEscapes, ↓reduceIte, hhigh, hlow, ih]
    cases readEscapes rest with
    | none => rfl
    | some x => cases readEscapes b <;> rfl
  | case3 high low rest hno =>
    simp only [List.cons_append, readEscapes, ↓reduceIte]
    rcases hhigh : hexValue high with _ | hv
    · rfl
    · rcases hlow : hexValue low with _ | lv
      · rfl
      · exact absurd hlow (hno hv lv hhigh)
  | case4 rest hno =>
    rcases rest with _ | ⟨high, _ | ⟨low, rest⟩⟩
    · rcases b with _ | ⟨low, b⟩
      · rfl
      · simp [readEscapes, hhex]
    · simp only [List.cons_append, List.nil_append, readEscapes, ↓reduceIte, hhex]
      cases hexValue high <;> rfl
    · exact absurd rfl (hno high low rest)
  | case5 d rest hd ih =>
    rw [List.cons_append, readEscapes_cons hd, readEscapes_cons hd, ih]
    cases readEscapes rest with
    | none => rfl
    | some x => cases readEscapes b <;> rfl

theorem decodeOctets_split (x y : List (CodeUnit ⊕ ℕ)) :
    decodeOctets (x ++ .inl c :: y) = (decodeOctets x).bind fun s => (decodeOctets y).map (s ++ c :: ·) := by
  have hmap (u : JsString) (o q : Option JsString) : (o.bind fun s => q.map (s ++ c :: ·)).map (u ++ ·) =
      (o.map (u ++ ·)).bind fun s => q.map (s ++ c :: ·) := by
    cases o with
    | none => rfl
    | some s => cases q <;> simp
  induction x using decodeOctets.induct with
  | case1 => simp [decodeOctets]
  | case2 d rest ih =>
    rw [List.cons_append, decodeOctets, decodeOctets, ih]
    exact hmap [d] _ _
  | case3 b rest hb ih =>
    rw [List.cons_append, decodeOctets_ascii hb, decodeOctets_ascii hb, ih]
    exact hmap [Fin.ofNat 65536 b] _ _
  | case4 =>
    rename_i b hb hlead b₁ rest p hp ih
    simp only [List.cons_append, decodeOctets, if_neg hb, if_pos hlead]
    rw [if_pos hp, if_pos hp, ih]
    exact hmap _ _ _
  | case5 =>
    rename_i b hb hlead b₁ rest p hp
    simp only [List.cons_append, decodeOctets, if_neg hb, if_pos hlead]
    rw [if_neg hp, if_neg hp]
    rfl
  | case6 =>
    rename_i b rest hb hlead hno
    rcases rest with _ | ⟨d | b₁, rest⟩
    · simp [decodeOctets, hb, hlead]
    · simp [decodeOctets, hb, hlead]
    · exact absurd rfl (hno b₁ rest)
  | case7 =>
    rename_i b hb hno hlead b₁ b₂ rest p hp ih
    simp only [List.cons_append, decodeOctets, if_neg hb, if_neg hno, if_pos hlead]
    rw [if_pos hp, if_pos hp, ih]
    exact hmap _ _ _
  | case8 =>
    rename_i b hb hno hlead b₁ b₂ rest p hp
    simp only [List.cons_append, decodeOctets, if_neg hb, if_neg hno, if_pos hlead]
    rw [if_neg hp, if_neg hp]
    rfl
  | case9 =>
    rename_i b rest hb hno hlead hshort
    rcases rest with _ | ⟨d | b₁, _ | ⟨e | b₂, rest⟩⟩
    · simp [decodeOctets, hb, hno, hlead]
    · simp [decodeOctets, hb, hno, hlead]
    · simp [decodeOctets, hb, hno, hlead]
    · simp [decodeOctets, hb, hno, hlead]
    · simp [decodeOctets, hb, hno, hlead]
    · simp [decodeOctets, hb, hno, hlead]
    · exact absurd rfl (hshort b₁ b₂ rest)
  | case10 =>
    rename_i b hb hno hno' hlead b₁ b₂ b₃ rest p hp ih
    simp only [List.cons_append, decodeOctets, if_neg hb, if_neg hno, if_neg hno', if_pos hlead]
    rw [if_pos hp, if_pos hp, ih]
    exact hmap _ _ _
  | case11 =>
    rename_i b hb hno hno' hlead b₁ b₂ b₃ rest p hp
    simp only [List.cons_append, decodeOctets, if_neg hb, if_neg hno, if_neg hno', if_pos hlead]
    rw [if_neg hp, if_neg hp]
    rfl
  | case12 =>
    rename_i b rest hb hno hno' hlead hshort
    rcases rest with _ | ⟨d | b₁, _ | ⟨e | b₂, _ | ⟨f | b₃, rest⟩⟩⟩
    all_goals first
      | exact absurd rfl (hshort _ _ _ _)
      | simp [decodeOctets, hb, hno, hno', hlead]
  | case13 =>
    rename_i b rest hb hno hno' hlead
    have hnone (ts : List (CodeUnit ⊕ ℕ)) : decodeOctets (.inr b :: ts) = none := by
      rw [decodeOctets.eq_def]
      simp only [if_neg hb, if_neg hno, if_neg hno', if_neg hlead]
    rw [List.cons_append, hnone, hnone]
    rfl

theorem decode_split (hc : c ≠ percent) (hhex : hexValue c = none) (a b : JsString) :
    decodeURIComponent (a ++ c :: b) =
      (decodeURIComponent a).bind fun s => (decodeURIComponent b).map (s ++ c :: ·) := by
  unfold decodeURIComponent
  rw [readEscapes_split hc hhex]
  cases readEscapes a with
  | none => rfl
  | some x =>
    cases readEscapes b with
    | none => simp
    | some y => exact decodeOctets_split x y

end Split

/-! ### What decoding makes of a length -/

theorem readEscapes_length {s : JsString} {ts : List (CodeUnit ⊕ ℕ)} (h : readEscapes s = some ts) :
    ts = s.map .inl ∨ ts.length < s.length := by
  induction s using readEscapes.induct generalizing ts with
  | case1 =>
    obtain rfl := Option.some.inj h
    exact .inl rfl
  | case2 high low rest hv lv hhigh hlow ih =>
    simp only [readEscapes, ↓reduceIte, hhigh, hlow] at h
    obtain ⟨us, hus, rfl⟩ := Option.map_eq_some_iff.mp h
    right
    rcases ih hus with rfl | hlt
    · simp
    · simp only [List.length_cons]
      omega
  | case3 high low rest hno =>
    exfalso
    rcases hhigh : hexValue high with _ | hv
    · simp [readEscapes, hhigh] at h
    · rcases hlow : hexValue low with _ | lv
      · simp [readEscapes, hhigh, hlow] at h
      · exact hno hv lv hhigh hlow
  | case4 rest hno =>
    exfalso
    rcases rest with _ | ⟨high, _ | ⟨low, rest⟩⟩
    · simp [readEscapes] at h
    · simp [readEscapes] at h
    · exact hno high low rest rfl
  | case5 c rest hc ih =>
    rw [readEscapes_cons hc] at h
    obtain ⟨us, hus, rfl⟩ := Option.map_eq_some_iff.mp h
    rcases ih hus with rfl | hlt
    · exact .inl rfl
    · right
      simp only [List.length_cons]
      omega

theorem codePointUnits_length (p : ℕ) : (codePointUnits p).length ≤ 2 := by
  unfold codePointUnits
  split <;> simp

theorem decodeOctets_length {ts : List (CodeUnit ⊕ ℕ)} {t : JsString} (h : decodeOctets ts = some t) :
    t.length ≤ ts.length := by
  have hpoint (p : ℕ) {ts : List (CodeUnit ⊕ ℕ)} {t : JsString}
      (ih : ∀ {t : JsString}, decodeOctets ts = some t → t.length ≤ ts.length)
      (h : (decodeOctets ts).map (codePointUnits p ++ ·) = some t) : t.length ≤ ts.length + 2 := by
    obtain ⟨u, hu, rfl⟩ := Option.map_eq_some_iff.mp h
    have hunits := codePointUnits_length p
    have hrest := ih hu
    rw [List.length_append]
    omega
  have hunit (c : CodeUnit) {ts : List (CodeUnit ⊕ ℕ)} {t : JsString}
      (ih : ∀ {t : JsString}, decodeOctets ts = some t → t.length ≤ ts.length)
      (h : (decodeOctets ts).map (c :: ·) = some t) : t.length ≤ ts.length + 1 := by
    obtain ⟨u, hu, rfl⟩ := Option.map_eq_some_iff.mp h
    exact Nat.succ_le_succ (ih hu)
  fun_induction decodeOctets ts generalizing t with
  | case1 =>
    obtain rfl := Option.some.inj h
    exact le_refl 0
  | case2 c rest ih => exact hunit c ih h
  | case3 b rest hb ih => exact hunit _ ih h
  | case4 =>
    rename_i p _ ih
    have hlength := hpoint p ih h
    simpa using hlength
  | case7 =>
    rename_i p _ ih
    have hlength := hpoint p ih h
    simp only [List.length_cons]
    omega
  | case10 =>
    rename_i p _ ih
    have hlength := hpoint p ih h
    simp only [List.length_cons]
    omega
  | _ => cases h

theorem decodeOctets_inl (s : JsString) : decodeOctets (s.map .inl) = some s := by
  induction s with
  | nil => rfl
  | cons c s ih =>
    rw [List.map_cons, decodeOctets, ih]
    rfl

theorem decodeOctets_eq_nil {ts : List (CodeUnit ⊕ ℕ)} (h : decodeOctets ts = some []) : ts = [] := by
  have hpoint (p : ℕ) (o : Option JsString) : o.map (codePointUnits p ++ ·) ≠ some [] := by
    rw [ne_eq, Option.map_eq_some_iff]
    rintro ⟨u, -, hu⟩
    have hne : codePointUnits p ≠ [] := by
      unfold codePointUnits
      split <;> simp
    exact hne (List.append_eq_nil_iff.mp hu).1
  fun_induction decodeOctets ts with
  | case1 => rfl
  | case2 | case3 => simp at h
  | case4 | case7 | case10 => exact absurd h (hpoint _ _)
  | _ => cases h

theorem decode_eq_nil {s : JsString} (h : decodeURIComponent s = some []) : s = [] := by
  obtain ⟨ts, hts, ht⟩ := Option.bind_eq_some_iff.mp h
  rw [decodeOctets_eq_nil ht] at hts
  fun_induction readEscapes s with
  | case1 => rfl
  | case3 | case4 => cases hts
  | _ => simp at hts

/-- Only a text without escapes keeps its length, and it stands for itself. -/
theorem decode_length {s t : JsString} (h : decodeURIComponent s = some t) : t = s ∨ t.length < s.length := by
  obtain ⟨ts, hts, ht⟩ := Option.bind_eq_some_iff.mp h
  rcases readEscapes_length hts with rfl | hlt
  · rw [decodeOctets_inl] at ht
    exact .inl (Option.some.inj ht).symm
  · have hle := decodeOctets_length ht
    omega

end DurableDav.Library
