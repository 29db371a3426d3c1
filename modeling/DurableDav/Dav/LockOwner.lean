import DurableDav.Library.Expressions
import DurableDav.Dav.IfHeader

namespace DurableDav.Dav

open Library

/-! ### The expression that was replaced -/

/-- `/<owner(?:\s[^>]*)?>([\s\S]*?)<\/owner>/i`: only ASCII letters have the case of one of these. -/
def ownerExpression : Expression CodeUnit :=
  .seq (.text asciiLower (js "<owner")) (.seq (.optional (.seq (.unit isWhiteSpace) (.run (fun c => c ≠ 62) true)))
    (.seq (.unit fun c => c = 62) (.seq (.group (.run (fun _ => true) false)) (.text asciiLower (js "</owner>")))))

def ownerText (captured : JsString) : Option JsString := if trim captured = [] then none else some (trim captured)

def capturedOwner (body : JsString) : Option JsString := ((ownerExpression.exec body).bind List.head?).bind ownerText

/-! ### Lower case -/

/-- What a code unit is lowered to: only `U+0130` becomes two, and only the Kelvin sign becomes an ASCII letter. -/
def Lowered (c : CodeUnit) (cs : JsString) : Prop :=
  if c.val < 128 then cs = [asciiLower c]
  else if c.val = 304 then cs = [105, 775]
  else ∃ d, cs = [d] ∧ (d.val < 128 → c.val = 8490 ∧ d.val = 107)

def Platform.LowersUnits (p : Platform) : Prop :=
  ∀ s, ∃ pieces : List JsString, List.Forall₂ Lowered s pieces ∧ p.toLowerCase s = pieces.flatten

/-- Where a place of the body is in the lowered one. -/
def displaced (body : JsString) (i : ℕ) : ℕ := i + (body.take i).count 304

/-! ### Reading an owner -/

section Reading

variable (body : JsString)

def opensAt (i : ℕ) : Bool := js "<owner" <+: (body.drop i).map asciiLower

def closesAt (i : ℕ) : Bool := js "</owner>" <+: (body.drop i).map asciiLower

def endsName (space : CodeUnit → Bool) (i : ℕ) : Bool := (body.drop i).head?.any fun c => c = 62 ∨ space c

/-- What stands from an opening tag on up to a closing one. -/
def readBehind (place : ℕ → ℕ) (start : ℕ) : Option JsString := do
  let opening ← indexOf [62] body (place start + 6)
  let closing ← placeOf body.length fun i => opening + 1 ≤ place i && closesAt body i
  some (slice body (opening + 1) (place closing))

/-- The text between the tags, where the places of the tags are taken for others, and some units for white space. -/
def readOwner (place : ℕ → ℕ) (space : CodeUnit → Bool) : Option JsString := do
  let start ← placeOf body.length fun i => opensAt body i && endsName body space (place i + 6)
  readBehind body place start

end Reading

/-! ### What the expression captures -/

section Capture

variable {body s t : JsString} {d : CodeUnit} {i n : ℕ}

theorem indexOf_eq (needle s : JsString) (start : ℕ) :
    indexOf needle s start = placeOf s.length fun i => start ≤ i ∧ needle <+: s.drop i := rfl

theorem head_of_prefix (h : [d] <+: s) : s.head? = some d := by
  obtain ⟨t, rfl⟩ := h
  rfl

theorem prefix_of_head (h : s.head? = some d) : [d] <+: s := by
  cases s with
  | nil => cases h
  | cons c t => exact ⟨t, by rw [← Option.some.inj h]; rfl⟩

/-- From a place on, what is not `d` is passed over up to the first `d`. -/
theorem dropWhile_indexOf (s : JsString) (n : ℕ) (d : CodeUnit) :
    (s.drop n).dropWhile (fun c => c ≠ d) = (indexOf [d] s n).elim [] s.drop := by
  cases hfound : indexOf [d] s n with
  | none =>
    rw [Option.elim_none, List.dropWhile_eq_nil_iff]
    intro c hc
    obtain ⟨k, hk, rfl⟩ := List.getElem_of_mem hc
    rw [List.length_drop] at hk
    have hnone := placeOf_eq_none.mp hfound (n + k) (by omega)
    simp only [decide_eq_false_iff_not, not_and] at hnone
    have hnot := hnone (by omega)
    rw [List.drop_eq_getElem_cons (by omega)] at hnot
    simp only [List.getElem_drop, ne_eq, decide_not, Bool.not_eq_eq_eq_not, Bool.not_true, decide_eq_false_iff_not]
    rintro rfl
    exact hnot ⟨_, rfl⟩
  | some o =>
    obtain ⟨ho, hle, hfirst⟩ := placeOf_eq_some.mp hfound
    obtain ⟨hno, hd⟩ : n ≤ o ∧ [d] <+: s.drop o := by simpa using ho
    have hsplit : s.drop n = (s.drop n).take (o - n) ++ s.drop o := by
      conv_lhs => rw [← List.take_append_drop (o - n) (s.drop n)]
      rw [List.drop_drop, Nat.add_sub_cancel' hno]
    have hpass : ∀ c ∈ (s.drop n).take (o - n), decide (c ≠ d) = true := by
      intro c hc
      obtain ⟨k, hk, rfl⟩ := List.getElem_of_mem hc
      rw [List.length_take, List.length_drop] at hk
      have hnone := hfirst (n + k) (by omega)
      simp only [decide_eq_false_iff_not, not_and] at hnone
      have hnot := hnone (by omega)
      rw [List.drop_eq_getElem_cons (by omega)] at hnot
      rw [List.getElem_take, List.getElem_drop]
      apply decide_eq_true
      rintro rfl
      exact hnot ⟨_, rfl⟩
    rw [Option.elim_some, hsplit, List.dropWhile_append_of_pos hpass]
    obtain ⟨rest, hrest⟩ := hd
    rw [← hrest]
    simp

/-- What is captured behind a tag, up to the first closing one. -/
def captureFrom (t : JsString) : Option (List JsString) :=
  (placeOf t.length fun j => js "</owner>" <+: (t.drop j).map asciiLower).map fun j => [t.take j]

def captureInside : JsString → Option (List JsString)
  | [] => none
  | c :: t => if c = 62 then captureFrom t else none

/-- What is captured from behind the name of a tag on. -/
def captureBehind (s : JsString) : Option (List JsString) :=
  if endsName s isWhiteSpace 0 then captureInside (s.dropWhile fun c => c ≠ 62) else none

def captureClosing : Expression CodeUnit :=
  .seq (.group (.run (fun _ => true) false)) (.text asciiLower (js "</owner>"))

theorem attempt_closing (s : JsString) : captureClosing.attempt (fun captures _ => some captures) [] s = captureFrom s := by
  have htake (i : ℕ) : s.take (s.length - (s.drop i).length) = s.take i := by
    rw [List.length_drop]
    rcases le_total i s.length with hi | hi
    · rw [Nat.sub_sub_self hi]
    · rw [Nat.sub_eq_zero_of_le hi, Nat.sub_zero, List.take_length, List.take_of_length_le hi]
  have hfind := findSome_placeOf (n := s.length) (P := fun i => decide (js "</owner>" <+: (s.drop i).map asciiLower))
    (f := fun i => some [s.take i]) fun _ _ _ _ _ _ => rfl
  unfold captureFrom captureClosing
  simp only [Expression.attempt, Expression.attempt_text, Expression.tryRun_anything, htake, List.nil_append]
  rw [Option.map_eq_bind]
  simpa using hfind

theorem attempt_behind (s : JsString) : (Expression.seq (.optional (.seq (.unit isWhiteSpace) (.run (fun c => c ≠ 62) true)))
    (.seq (.unit fun c => c = 62) captureClosing)).attempt (fun captures _ => some captures) [] s = captureBehind s := by
  have hinside (t : JsString) : (Expression.seq (.unit fun c => c = 62) captureClosing).attempt
      (fun captures _ => some captures) [] t = captureInside t := by
    cases t with
    | nil => rfl
    | cons c t =>
      change (if decide (c = 62) = true then captureClosing.attempt (fun captures _ => some captures) [] t else none) = _
      rw [attempt_closing]
      simp [captureInside]
  have hrun (t : JsString) : Expression.tryRun (fun c => decide (c ≠ 62)) true captureInside t =
      captureInside (t.dropWhile fun c => c ≠ 62) := by
    refine Expression.tryRun_stops fun c t hc => ?_
    exact if_neg (by simpa using hc)
  cases s with
  | nil => rfl
  | cons c t =>
    change ((if isWhiteSpace c then Expression.tryRun (fun c => decide (c ≠ 62)) true ((Expression.seq (.unit fun c => c = 62)
      captureClosing).attempt (fun captures _ => some captures) []) t else none).or ((Expression.seq (.unit fun c => c = 62)
      captureClosing).attempt (fun captures _ => some captures) [] (c :: t))) = _
    have hfun : (Expression.seq (.unit fun c => c = 62) captureClosing).attempt (fun captures _ => some captures) [] =
        captureInside := funext hinside
    rw [hfun, hrun]
    unfold captureBehind endsName
    rw [List.drop_zero, List.head?_cons, Option.any_some]
    by_cases hc : c = 62
    · have hspace : isWhiteSpace c = false := by
        rw [hc]
        decide
      rw [if_neg (by simp [hspace]), if_pos (by simp [hc]), Option.none_or, List.dropWhile_cons_of_neg (by simp [hc])]
    · have hnone : captureInside (c :: t) = none := if_neg hc
      rw [hnone, Option.or_none, List.dropWhile_cons_of_pos (by simpa using hc)]
      by_cases hspace : isWhiteSpace c = true
      · rw [if_pos hspace, if_pos (by simp [hspace])]
      · rw [if_neg hspace, if_neg (by simp [hspace, hc])]

theorem attempt_owner (s : JsString) : ownerExpression.attempt (fun captures _ => some captures) [] s =
    if js "<owner" <+: s.map asciiLower then captureBehind (s.drop 6) else none := by
  have hbehind := attempt_behind (s.drop 6)
  change (Expression.text asciiLower (js "<owner")).attempt ((Expression.seq (.optional (.seq (.unit isWhiteSpace)
    (.run (fun c => c ≠ 62) true))) (.seq (.unit fun c => c = 62) captureClosing)).attempt
      (fun captures _ => some captures)) [] s = _
  rw [Expression.attempt_text]
  exact congrArg (fun b => if js "<owner" <+: s.map asciiLower then b else none) hbehind

/-- What is captured behind an opening tag that begins at a place of the body. -/
def captureAt (body : JsString) (i : ℕ) : Option (List JsString) :=
  (indexOf [62] body (i + 6)).bind fun opening =>
    (placeOf body.length fun j => opening + 1 ≤ j && closesAt body j).map fun closing => [slice body (opening + 1) closing]

theorem captureFrom_drop {m : ℕ} (hm : m ≤ body.length) : captureFrom (body.drop m) =
    (placeOf body.length fun j => m ≤ j && closesAt body j).map fun closing => [slice body m closing] := by
  unfold captureFrom
  rw [placeOf_from hm, Option.map_map, List.length_drop]
  have hcloses (j : ℕ) : decide (js "</owner>" <+: ((body.drop m).drop j).map asciiLower) = closesAt body (m + j) := by
    rw [List.drop_drop]
    rfl
  have hslice (j : ℕ) : (body.drop m).take j = slice body m (m + j) := by
    unfold slice
    rw [List.drop_take, Nat.add_sub_cancel_left]
  simp only [hcloses, hslice]
  rfl

theorem captureBehind_drop (body : JsString) (i : ℕ) :
    captureBehind (body.drop (i + 6)) = if endsName body isWhiteSpace (i + 6) then captureAt body i else none := by
  unfold captureBehind captureAt
  have hends : endsName (body.drop (i + 6)) isWhiteSpace 0 = endsName body isWhiteSpace (i + 6) := by
    unfold endsName
    rw [List.drop_zero]
  rw [hends, dropWhile_indexOf]
  cases hopening : indexOf [62] body (i + 6) with
  | none => rfl
  | some opening =>
    obtain ⟨ho, hle, -⟩ := placeOf_eq_some.mp hopening
    obtain ⟨-, hfront⟩ : i + 6 ≤ opening ∧ [62] <+: body.drop opening := by simpa using ho
    have hlt : opening < body.length := by
      have := hfront.length_le
      rw [List.length_drop, List.length_singleton] at this
      omega
    have hhead : body[opening] = 62 := by
      rw [List.drop_eq_getElem_cons hlt] at hfront
      exact (List.cons_prefix_cons.mp hfront).1.symm
    rw [Option.elim_some, Option.bind_some, List.drop_eq_getElem_cons hlt, hhead]
    have hinside : captureInside (62 :: body.drop (opening + 1)) = captureFrom (body.drop (opening + 1)) := by
      simp [captureInside]
    rw [hinside, captureFrom_drop hlt]

/-- What is found behind a later tag is behind an earlier one, too. -/
theorem captureAt_earlier {j : ℕ} (hij : i < j) (h : (captureAt body j).isSome) : (captureAt body i).isSome := by
  obtain ⟨captures, hcaptures⟩ := Option.isSome_iff_exists.mp h
  obtain ⟨o, ho, hmap⟩ := Option.bind_eq_some_iff.mp hcaptures
  obtain ⟨c, hc, -⟩ := Option.map_eq_some_iff.mp hmap
  obtain ⟨hfrom, hole, -⟩ := placeOf_eq_some.mp ho
  obtain ⟨hjo, hfront⟩ : j + 6 ≤ o ∧ [62] <+: body.drop o := by simpa using hfrom
  obtain ⟨hafter, hcle, -⟩ := placeOf_eq_some.mp hc
  obtain ⟨hoc, hcloses⟩ : o + 1 ≤ c ∧ closesAt body c = true := by simpa using hafter
  unfold captureAt
  cases hopening : indexOf [62] body (i + 6) with
  | none =>
    have := placeOf_eq_none.mp hopening o hole
    simp only [decide_eq_false_iff_not, not_and] at this
    exact absurd hfront (this (by omega))
  | some o' =>
    have hfirst : o' ≤ o := by
      by_contra hlt
      have := (placeOf_eq_some.mp hopening).2.2 o (by omega)
      simp only [decide_eq_false_iff_not, not_and] at this
      exact this (by omega) hfront
    rw [Option.bind_some, Option.isSome_map]
    cases hclosing : placeOf body.length (fun k => o' + 1 ≤ k && closesAt body k) with
    | some _ => rfl
    | none =>
      have := placeOf_eq_none.mp hclosing c hcle
      rw [hcloses, Bool.and_true, decide_eq_false_iff_not] at this
      omega

theorem exec_owner (body : JsString) : ownerExpression.exec body =
    (placeOf body.length fun i => opensAt body i && endsName body isWhiteSpace (i + 6)).bind (captureAt body) := by
  rw [← findSome_placeOf fun i j hij _ _ h => captureAt_earlier hij h]
  unfold Expression.exec
  congr 1
  funext i
  rw [attempt_owner, List.drop_drop, captureBehind_drop]
  unfold opensAt
  by_cases hopens : js "<owner" <+: (body.drop i).map asciiLower
  · rw [if_pos hopens, decide_eq_true hopens, Bool.true_and]
  · rw [if_neg hopens, decide_eq_false hopens, Bool.false_and]
    rfl

theorem capturedOwner_eq (body : JsString) : capturedOwner body = (readOwner body id isWhiteSpace).bind ownerText := by
  unfold capturedOwner readOwner readBehind
  rw [exec_owner]
  congr 1
  simp only [id_eq, Option.bind_eq_bind, Option.bind_assoc, captureAt]
  congr 1
  funext start
  congr 1
  funext opening
  cases placeOf body.length (fun j => opening + 1 ≤ j && closesAt body j) <;> rfl

end Capture

/-! ### What the scan reads -/

section Lowering

variable {s w : JsString} {pieces : List JsString} {i j : ℕ}

/-- Nothing else is lowered to one of these units. -/
def Plain (w : JsString) : Prop := ∀ c ∈ w, c.val < 128 ∧ c ≠ 105 ∧ c ≠ 107

theorem asciiLower_of_not_ascii {c : CodeUnit} (h : 128 ≤ c.val) : asciiLower c = c := if_neg (by omega)

theorem lowered_prefix (hw : Plain w) (h : List.Forall₂ Lowered s pieces) : w <+: pieces.flatten ↔ w <+: s.map asciiLower := by
  induction w generalizing s pieces with
  | nil => simp
  | cons c w ih =>
    obtain ⟨hascii, hi, hk⟩ := hw c List.mem_cons_self
    have hrest : Plain w := fun d hd => hw d (List.mem_cons_of_mem _ hd)
    cases h with
    | nil => rfl
    | @cons b q s pieces hb h =>
      rw [List.flatten_cons, List.map_cons, List.cons_prefix_cons]
      unfold Lowered at hb
      by_cases hbascii : b.val < 128
      · rw [if_pos hbascii] at hb
        rw [hb, List.singleton_append, List.cons_prefix_cons, ih hrest h]
      · have hother : c ≠ asciiLower b := by
          rw [asciiLower_of_not_ascii (by omega)]
          rintro rfl
          exact hbascii hascii
        rw [if_neg hbascii] at hb
        refine iff_of_false ?_ fun h => hother h.1
        split at hb
        · rw [hb, List.cons_append, List.cons_prefix_cons]
          exact fun h => hi h.1
        · obtain ⟨d, rfl, hd⟩ := hb
          rw [List.singleton_append, List.cons_prefix_cons]
          rintro ⟨rfl, -⟩
          exact hk (Fin.ext (hd hascii).2)

theorem displaced_zero (s : JsString) : displaced s 0 = 0 := rfl

theorem displaced_cons (c : CodeUnit) (s : JsString) (i : ℕ) :
    displaced (c :: s) (i + 1) = displaced s i + if c = 304 then 2 else 1 := by
  unfold displaced
  rw [List.take_succ_cons, List.count_cons]
  by_cases hc : c = 304
  · simp [hc]
    omega
  · simp [hc]
    omega

theorem displaced_lt (s : JsString) (h : i < j) : displaced s i < displaced s j := by
  unfold displaced
  have := ((List.take_prefix_take_left h.le : s.take i <+: s.take j).sublist).count_le 304
  omega

theorem le_displaced (s : JsString) (i : ℕ) : i ≤ displaced s i := Nat.le_add_right ..

/-- Where a tag begins in the lowered body, one begins in the body. -/
theorem lowered_at (hne : w ≠ []) (hw : Plain w) (h : List.Forall₂ Lowered s pieces) :
    w <+: pieces.flatten.drop j ↔ ∃ i, displaced s i = j ∧ w <+: (s.drop i).map asciiLower := by
  obtain ⟨c, w', rfl⟩ := List.exists_cons_of_ne_nil hne
  have hfirst := hw c List.mem_cons_self
  induction h generalizing j with
  | nil => simp
  | @cons b q s pieces hb h ih =>
    cases j with
    | zero =>
      rw [List.drop_zero, lowered_prefix hw (.cons hb h)]
      constructor
      · exact fun hp => ⟨0, rfl, hp⟩
      · rintro ⟨i, hi, hp⟩
        have hzero : i = 0 := by
          have := le_displaced (b :: s) i
          omega
        rwa [hzero] at hp
    | succ j =>
      have hshift (n : ℕ) (hn : (if b = 304 then 2 else 1) = n) :
          (∃ i, displaced (b :: s) i = j + 1 ∧ c :: w' <+: ((b :: s).drop i).map asciiLower) ↔
            ∃ i, displaced s i + n = j + 1 ∧ c :: w' <+: (s.drop i).map asciiLower := by
        constructor
        · rintro ⟨i, hi, hp⟩
          cases i with
          | zero => simp [displaced_zero] at hi
          | succ i =>
            rw [displaced_cons, hn] at hi
            exact ⟨i, hi, hp⟩
        · rintro ⟨i, hi, hp⟩
          exact ⟨i + 1, by rw [displaced_cons, hn, hi], hp⟩
      unfold Lowered at hb
      by_cases hdot : b = 304
      · have htwo : q = [105, 775] := by
          rw [hdot] at hb
          simpa using hb
        rw [hshift 2 (if_pos hdot), htwo, List.flatten_cons, List.cons_append, List.cons_append, List.drop_succ_cons]
        cases j with
        | zero =>
          refine iff_of_false ?_ ?_
          · rw [List.drop_zero, List.cons_prefix_cons]
            rintro ⟨rfl, -⟩
            exact absurd hfirst.1 (by decide)
          · rintro ⟨i, hi, -⟩
            omega
        | succ j =>
          rw [List.drop_succ_cons, List.nil_append]
          refine Iff.trans ih (exists_congr fun i => and_congr_left fun _ => ?_)
          omega
      · obtain ⟨d, hd⟩ : ∃ d, q = [d] := by
          split at hb
          · exact ⟨_, hb⟩
          · split at hb
            · rename_i h304
              exact absurd (Fin.ext h304) hdot
            · obtain ⟨d, hd, -⟩ := hb
              exact ⟨d, hd⟩
        rw [hshift 1 (if_neg hdot), hd, List.flatten_cons, List.singleton_append, List.drop_succ_cons]
        refine Iff.trans ih (exists_congr fun i => and_congr_left fun _ => ?_)
        omega

end Lowering

section Scanning

variable {body w : JsString} {pieces : List JsString} {start m fuel : ℕ}

theorem indexOf_lowered (hne : w ≠ []) (hw : Plain w) (h : List.Forall₂ Lowered body pieces) :
    indexOf w pieces.flatten start = (placeOf body.length fun i => start ≤ displaced body i &&
      decide (w <+: (body.drop i).map asciiLower)).map (displaced body) := by
  have hinside {i : ℕ} {s : JsString} (hp : w <+: s.drop i) : i ≤ s.length := by
    by_contra hlong
    rw [List.drop_of_length_le (by omega), List.prefix_nil] at hp
    exact hne hp
  have hplace {i : ℕ} (hp : w <+: (body.drop i).map asciiLower) : i ≤ body.length := by
    rw [List.map_drop] at hp
    simpa using hinside hp
  cases hfirst : placeOf body.length (fun i => start ≤ displaced body i && decide (w <+: (body.drop i).map asciiLower)) with
  | none =>
    have hnone := placeOf_eq_none.mp hfirst
    refine placeOf_eq_none.mpr fun j _ => ?_
    rw [decide_eq_false_iff_not]
    rintro ⟨hstart, hp⟩
    obtain ⟨i, rfl, hi⟩ := (lowered_at hne hw h).mp hp
    have := hnone i (hplace hi)
    rw [decide_eq_true hi, Bool.and_true, decide_eq_false_iff_not] at this
    exact this hstart
  | some i =>
    obtain ⟨hi, hle, hbefore⟩ := placeOf_eq_some.mp hfirst
    obtain ⟨hstart, hp⟩ : start ≤ displaced body i ∧ w <+: (body.drop i).map asciiLower := by simpa using hi
    have hlow : w <+: pieces.flatten.drop (displaced body i) := (lowered_at hne hw h).mpr ⟨i, rfl, hp⟩
    refine placeOf_eq_some.mpr ⟨decide_eq_true ⟨hstart, hlow⟩, hinside hlow, fun j hj => ?_⟩
    rw [decide_eq_false_iff_not]
    rintro ⟨hfrom, hearlier⟩
    obtain ⟨i', rfl, hi'⟩ := (lowered_at hne hw h).mp hearlier
    have hlt : i' < i := by
      by_contra hge
      rcases (Nat.not_lt.mp hge).eq_or_lt with rfl | hgt
      · exact lt_irrefl _ hj
      · exact lt_asymm hj (displaced_lt body hgt)
    have := hbefore i' hlt
    rw [decide_eq_true hi', Bool.and_true, decide_eq_false_iff_not] at this
    exact this hfrom

theorem plain_of_all (h : w.all (fun c => decide (c.val < 128 ∧ c ≠ 105 ∧ c ≠ 107)) = true) : Plain w :=
  fun c hc => of_decide_eq_true (List.all_eq_true.mp h c hc)

theorem opensAt_beyond {i : ℕ} (h : body.length ≤ i) : opensAt body i = false := by
  unfold opensAt
  rw [List.drop_of_length_le h]
  decide

/-- Every turn of the scan passes a tag, so that the tags are no more than the turns. -/
theorem ownerFrom_eq (h : List.Forall₂ Lowered body pieces) (hstart : ∀ i, start ≤ displaced body i ↔ m ≤ i)
    (hfuel : body.length ≤ m + fuel) : ownerFrom pieces.flatten body fuel start =
      ((placeOf body.length fun i => m ≤ i && (opensAt body i && endsName body isIfWhitespace (displaced body i + 6))).bind
        (readBehind body (displaced body))).bind ownerText := by
  induction fuel generalizing start m with
  | zero =>
    have hnone : placeOf body.length (fun i => m ≤ i && (opensAt body i &&
        endsName body isIfWhitespace (displaced body i + 6))) = none := by
      refine placeOf_eq_none.mpr fun i _ => ?_
      by_cases hi : m ≤ i
      · rw [opensAt_beyond (by omega), Bool.false_and, Bool.and_false]
      · rw [decide_eq_false hi, Bool.false_and]
    rw [hnone]
    rfl
  | succ fuel ih =>
    unfold ownerFrom
    rw [indexOf_lowered (by decide) (plain_of_all (by decide)) h]
    change ((placeOf body.length fun i => start ≤ displaced body i && opensAt body i).map (displaced body)).bind _ = _
    cases hfirst : placeOf body.length (fun i => start ≤ displaced body i && opensAt body i) with
    | none =>
      have hnone := placeOf_eq_none.mp hfirst
      have hgone : placeOf body.length (fun i => m ≤ i && (opensAt body i &&
          endsName body isIfWhitespace (displaced body i + 6))) = none := by
        refine placeOf_eq_none.mpr fun i hi => ?_
        have hi := hnone i hi
        simp only [hstart] at hi
        rw [← Bool.and_assoc, hi, Bool.false_and]
      rw [hgone]
      rfl
    | some i =>
      obtain ⟨hi, hle, hbefore⟩ := placeOf_eq_some.mp hfirst
      simp only [hstart] at hi hbefore
      rw [Option.map_some, Option.bind_some]
      change (if endsName body isIfWhitespace (displaced body i + 6) = true then _ else _) = _
      cases hends : endsName body isIfWhitespace (displaced body i + 6) with
      | true =>
        have hfound : placeOf body.length (fun i => m ≤ i && (opensAt body i &&
            endsName body isIfWhitespace (displaced body i + 6))) = some i := by
          refine placeOf_eq_some.mpr ⟨by rw [← Bool.and_assoc, hi, hends]; rfl, hle, fun j hj => ?_⟩
          rw [← Bool.and_assoc, hbefore j hj, Bool.false_and]
        rw [if_pos rfl, hfound, Option.bind_some]
        unfold readBehind
        simp only [Option.bind_eq_bind, Option.bind_assoc]
        congr 1
        funext opening
        rw [indexOf_lowered (by decide) (plain_of_all (by decide)) h]
        change ((placeOf body.length fun i => opening + 1 ≤ displaced body i && closesAt body i).map (displaced body)).bind _ = _
        cases placeOf body.length (fun i => opening + 1 ≤ displaced body i && closesAt body i) <;> rfl
      | false =>
        rw [if_neg (by simp)]
        have hnext (k : ℕ) : displaced body i + 1 ≤ displaced body k ↔ i + 1 ≤ k := by
          constructor
          · intro hlt
            by_contra hge
            rcases (Nat.not_lt.mp hge).eq_or_lt with rfl | hgt
            · omega
            · have := displaced_lt body hgt
              omega
          · exact fun hlt => displaced_lt body hlt
        have hmi : m ≤ i := by
          rw [Bool.and_eq_true, decide_eq_true_eq] at hi
          exact hi.1
        have hsame (k : ℕ) : (decide (m ≤ k) && (opensAt body k && endsName body isIfWhitespace (displaced body k + 6))) =
            (decide (i + 1 ≤ k) && (opensAt body k && endsName body isIfWhitespace (displaced body k + 6))) := by
          rcases Nat.lt_trichotomy k i with hlt | rfl | hgt
          · rw [← Bool.and_assoc, hbefore k hlt, decide_eq_false (by omega), Bool.false_and, Bool.false_and]
          · rw [hends, Bool.and_false, Bool.and_false, Bool.and_false]
          · rw [decide_eq_true (show m ≤ k by omega), decide_eq_true (show i + 1 ≤ k by omega)]
        rw [ih hnext (by omega)]
        simp only [hsame]

theorem extractLockOwner_eq {p : Platform} (hp : p.LowersUnits) (body : JsString) :
    extractLockOwner p body = (readOwner body (displaced body) isIfWhitespace).bind ownerText := by
  obtain ⟨pieces, hpieces, hlower⟩ := hp body
  unfold extractLockOwner readOwner
  rw [hlower, ownerFrom_eq hpieces (fun i => iff_of_true (Nat.zero_le _) (Nat.zero_le i)) (Nat.le_add_left ..)]
  simp

end Scanning

/-! ### Where the two agree -/

/-- The owner reads the same at the displaced places, with fewer units taken for white space. -/
def SameReading (body : JsString) : Prop :=
  (readOwner body (displaced body) isIfWhitespace).bind ownerText = (readOwner body id isWhiteSpace).bind ownerText

/-- No tag that counts is displaced, and no white space that is not known ends the name of one. -/
structure Undisturbed (body : JsString) : Prop where
  starts : ∀ i, opensAt body i = true → (∀ j < i, opensAt body j = true → endsName body isWhiteSpace (j + 6) = false) →
    displaced body i = i ∧ (endsName body isWhiteSpace (i + 6) = true → endsName body isIfWhitespace (i + 6) = true)
  closings : ∀ start opening i, placeOf body.length (fun i => opensAt body i && endsName body isWhiteSpace (i + 6)) = some start →
    indexOf [62] body (start + 6) = some opening → closesAt body i = true → (∀ j < i, closesAt body j = true → j ≤ opening) →
      displaced body i ≤ max i opening

section Agreement

variable {body : JsString}

theorem endsName_known {i : ℕ} (h : endsName body isIfWhitespace i = true) : endsName body isWhiteSpace i = true := by
  unfold endsName at h ⊢
  cases hhead : (body.drop i).head? with
  | none =>
    rw [hhead] at h
    cases h
  | some c =>
    rw [hhead, Option.any_some] at h
    rw [Option.any_some]
    exact decide_eq_true ((of_decide_eq_true h).imp_right whiteSpace_of_ifWhitespace)

theorem Undisturbed.same (h : Undisturbed body) : SameReading body := by
  have hends {i : ℕ} (hknown : endsName body isWhiteSpace (i + 6) = true → endsName body isIfWhitespace (i + 6) = true) :
      endsName body isIfWhitespace (i + 6) = endsName body isWhiteSpace (i + 6) := by
    cases hspace : endsName body isWhiteSpace (i + 6) with
    | true => exact hknown hspace
    | false =>
      by_contra hother
      rw [endsName_known (Bool.eq_true_of_not_eq_false hother)] at hspace
      cases hspace
  have hstarts : placeOf body.length (fun i => opensAt body i && endsName body isWhiteSpace (i + 6)) =
      placeOf body.length fun i => opensAt body i && endsName body isIfWhitespace (displaced body i + 6) := by
    refine placeOf_congr fun i hnone => ?_
    cases hopens : opensAt body i with
    | false => rfl
    | true =>
      obtain ⟨hplace, hknown⟩ := h.starts i hopens fun j hj hopensj => by
        have hj := hnone j hj
        rwa [hopensj, Bool.true_and] at hj
      rw [hplace, hends hknown]
  unfold SameReading readOwner
  simp only [id_eq]
  rw [← hstarts]
  cases hstart : placeOf body.length (fun i => opensAt body i && endsName body isWhiteSpace (i + 6)) with
  | none => rfl
  | some start =>
    obtain ⟨hfirst, -, hbefore⟩ := placeOf_eq_some.mp hstart
    have hplace : displaced body start = start := by
      refine (h.starts start (Bool.and_eq_true_iff.mp hfirst).1 fun j hj hopensj => ?_).1
      have hj := hbefore j hj
      rwa [hopensj, Bool.true_and] at hj
    simp only [Option.bind_eq_bind, Option.bind_some]
    unfold readBehind
    rw [hplace, id_eq]
    cases hopening : indexOf [62] body (start + 6) with
    | none => rfl
    | some opening =>
      have hclosings : placeOf body.length (fun i => opening + 1 ≤ i && closesAt body i) =
          placeOf body.length fun i => opening + 1 ≤ displaced body i && closesAt body i := by
        refine placeOf_congr fun i hnone => ?_
        cases hcloses : closesAt body i with
        | false => rw [Bool.and_false, Bool.and_false]
        | true =>
          have hmax := h.closings start opening i hstart hopening hcloses fun j hj hclosesj => by
            have hj := hnone j hj
            rw [hclosesj, Bool.and_true, decide_eq_false_iff_not] at hj
            omega
          have hle := le_displaced body i
          have hiff : opening + 1 ≤ i ↔ opening + 1 ≤ displaced body i := by omega
          rw [decide_eq_decide.mpr hiff]
      simp only [Option.bind_eq_bind, Option.bind_some, id_eq]
      rw [← hclosings]
      cases hclosing : placeOf body.length (fun i => opening + 1 ≤ i && closesAt body i) with
      | none => rfl
      | some closing =>
        obtain ⟨hcloses, -, hearlier⟩ := placeOf_eq_some.mp hclosing
        obtain ⟨hafter, hcloses⟩ : opening + 1 ≤ closing ∧ closesAt body closing = true := by simpa using hcloses
        have hmax := h.closings start opening closing hstart hopening hcloses fun j hj hclosesj => by
          have hj := hearlier j hj
          rw [hclosesj, Bool.and_true, decide_eq_false_iff_not] at hj
          omega
        have hle := le_displaced body closing
        have hsame : displaced body closing = closing := by omega
        simp only [Option.bind_some, hsame]

end Agreement

/-! ### An owner behind a dotted capital -/

def lowerUnit (c : CodeUnit) : JsString := if c = 304 then [105, 775] else if c = 8490 then [107] else [asciiLower c]

def dottedPlatform : Platform := { plainPlatform with toLowerCase := fun s => s.flatMap lowerUnit }

theorem dotted_lowers : dottedPlatform.LowersUnits := by
  intro s
  refine ⟨s.map lowerUnit, ?_, rfl⟩
  induction s with
  | nil => exact .nil
  | cons c s ih =>
    refine .cons ?_ ih
    unfold Lowered lowerUnit
    by_cases hascii : c.val < 128
    · rw [if_pos hascii, if_neg (by rintro rfl; exact absurd hascii (by decide)), if_neg (by rintro rfl; exact absurd hascii (by decide))]
    · rw [if_neg hascii]
      by_cases hdot : c = 304
      · rw [if_pos hdot, if_pos (by rw [hdot]; rfl)]
      · have hval : c.val ≠ 304 := fun h => hdot (Fin.ext h)
        rw [if_neg hdot, if_neg hval]
        by_cases hkelvin : c = 8490
        · rw [if_pos hkelvin]
          exact ⟨107, rfl, fun _ => ⟨by rw [hkelvin]; rfl, rfl⟩⟩
        · rw [if_neg hkelvin]
          refine ⟨_, rfl, fun h => ?_⟩
          rw [asciiLower_of_not_ascii (by omega)] at h
          exact absurd h hascii

def ownedBody : JsString := js "<owner>bob</owner>"

end DurableDav.Dav
