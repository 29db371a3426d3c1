import DurableDav.Library.Joined
import DurableDav.Library.JsString
import Mathlib.Data.List.DropRight

namespace DurableDav.Library

/-! ### Parts of a string -/

def isWhiteSpace (c : CodeUnit) : Bool :=
  (9 ≤ c.val ∧ c.val ≤ 13) ∨ (8192 ≤ c.val ∧ c.val ≤ 8202) ∨
    c.val ∈ [32, 160, 5760, 8232, 8233, 8239, 8287, 12288, 65279]

def trim (s : JsString) : JsString := ((s.dropWhile isWhiteSpace).reverse.dropWhile isWhiteSpace).reverse

def asciiLower (c : CodeUnit) : CodeUnit := if 65 ≤ c.val ∧ c.val ≤ 90 then c + 32 else c

/-- What stands before the first `c`, and what after it. -/
def cutAt (c : CodeUnit) (s : JsString) : Option (JsString × JsString) :=
  if c ∈ s then some (s.takeWhile (fun d => d ≠ c), (s.dropWhile (fun d => d ≠ c)).tail) else none

def stripSlashes (s : JsString) : JsString :=
  ((s.dropWhile (fun c => c = slash)).reverse.dropWhile (fun c => c = slash)).reverse

theorem cutAt_append {c : CodeUnit} {s t : JsString} (h : c ∉ s) : cutAt c (s ++ c :: t) = some (s, t) := by
  have hall : ∀ d ∈ s, decide (d ≠ c) = true := by
    intro d hd
    have hne : d ≠ c := fun he => h (he ▸ hd)
    simpa using hne
  unfold cutAt
  rw [if_pos (by simp), List.takeWhile_append_of_pos hall, List.dropWhile_append_of_pos hall]
  simp

theorem cutAt_none {c : CodeUnit} {s : JsString} (h : c ∉ s) : cutAt c s = none := if_neg h

theorem trim_eq (s : JsString) : trim s = (s.dropWhile isWhiteSpace).rdropWhile isWhiteSpace := rfl

theorem trim_trim (s : JsString) : trim (trim s) = trim s := by
  have hfirst : (trim s).dropWhile isWhiteSpace = trim s := by
    rw [List.dropWhile_eq_self_iff]
    intro hlength
    have hstart : trim s <+: s.dropWhile isWhiteSpace := List.rdropWhile_prefix _ _
    rw [hstart.getElem hlength]
    exact List.dropWhile_get_zero_not isWhiteSpace s (hlength.trans_le hstart.length_le)
  rw [trim_eq (trim s), hfirst]
  exact List.rdropWhile_idempotent _ _

theorem trim_clean {s : JsString} (h : ∀ c ∈ s, isWhiteSpace c = false) : trim s = s := by
  have hkept (t : JsString) (ht : t ⊆ s) : t.dropWhile isWhiteSpace = t := by
    rw [List.dropWhile_eq_self_iff]
    intro hlength
    simp [h _ (ht (List.getElem_mem hlength))]
  unfold trim
  rw [hkept s (List.Subset.refl s), hkept s.reverse fun c hc => List.mem_reverse.mp hc, List.reverse_reverse]

theorem trim_ends {a b : CodeUnit} (ha : isWhiteSpace a = false) (hb : isWhiteSpace b = false) (s : JsString) :
    trim (a :: s ++ [b]) = a :: s ++ [b] := by
  have hfirst : (a :: s ++ [b]).dropWhile isWhiteSpace = a :: s ++ [b] := List.dropWhile_cons_of_neg (by simp [ha])
  rw [trim_eq, hfirst]
  exact List.rdropWhile_concat_neg _ _ _ (by simp [hb])

theorem trim_sublist (s : JsString) : (trim s).Sublist s := by
  have hback := ((s.dropWhile isWhiteSpace).reverse.dropWhile_sublist isWhiteSpace).reverse
  rw [List.reverse_reverse] at hback
  exact hback.trans (List.dropWhile_sublist _)

theorem mem_dropWhile {P : CodeUnit → Bool} {c : CodeUnit} {s : JsString} (hc : c ∈ s) (hP : P c = false) :
    c ∈ s.dropWhile P := by
  rw [← List.takeWhile_append_dropWhile (p := P) (l := s)] at hc
  rcases List.mem_append.mp hc with hc | hc
  · exact absurd (List.mem_takeWhile_imp hc) (by simp [hP])
  · exact hc

theorem mem_trim {c : CodeUnit} {s : JsString} (hc : c ∈ s) (h : isWhiteSpace c = false) : c ∈ trim s :=
  List.mem_reverse.mpr (mem_dropWhile (List.mem_reverse.mpr (mem_dropWhile hc h)) h)

/-! ### Characters of a database text

A database counts characters where the program counts code units. -/

def characters : JsString → List JsString
  | [] => []
  | [c] => [[c]]
  | c :: d :: rest => if isHighSurrogate c && isLowSurrogate d then [c, d] :: characters rest
    else [c] :: characters (d :: rest)

def substr (s : JsString) (start length : ℕ) : JsString := (((characters s).drop (start - 1)).take length).flatten

def substrFrom (s : JsString) (start : ℕ) : JsString := ((characters s).drop (start - 1)).flatten

example : characters [97] = [[97]] := by simp [characters]

theorem flatten_characters (s : JsString) : (characters s).flatten = s := by
  induction s using characters.induct with
  | case1 => rfl
  | case2 c => rfl
  | case3 c d rest h ih => simp [characters, h, ih]
  | case4 c d rest h ih => simp [characters, h, ih]

theorem substr_prefix (s : JsString) (length : ℕ) : substr s 1 length <+: s := by
  have hsplit := congrArg List.flatten (List.take_append_drop length (characters s))
  rw [List.flatten_append, flatten_characters] at hsplit
  exact ⟨_, hsplit⟩

theorem characters_ne_nil (s : JsString) : ∀ c ∈ characters s, c ≠ [] := by
  induction s using characters.induct with
  | case1 => simp [characters]
  | case2 c => simp [characters]
  | case3 c d rest h ih => simpa [characters, h] using ih
  | case4 c d rest h ih => simpa [characters, h] using ih

theorem length_le_flatten {cs : List JsString} (h : ∀ c ∈ cs, c ≠ []) : cs.length ≤ cs.flatten.length := by
  induction cs with
  | nil => simp
  | cons c cs ih =>
    have hc : 0 < c.length := List.length_pos_of_ne_nil (h c List.mem_cons_self)
    have hcs := ih (fun d hd => h d (List.mem_cons_of_mem _ hd))
    simp only [List.length_cons, List.flatten_cons, List.length_append]
    omega

theorem characters_length_le (s : JsString) : (characters s).length ≤ s.length := by
  have h := length_le_flatten (characters_ne_nil s)
  rwa [flatten_characters] at h

theorem substrFrom_short {s : JsString} {n : ℕ} (h : (characters s).length ≤ n) : substrFrom s (n + 1) = [] := by
  unfold substrFrom
  rw [Nat.add_sub_cancel, List.drop_of_length_le h]
  rfl

theorem substr_short {s : JsString} {n : ℕ} (h : (characters s).length ≤ n) : substr s 1 (n + 1) = s := by
  unfold substr
  rw [Nat.sub_self, List.drop_zero, List.take_of_length_le (by omega), flatten_characters]

/-- No character takes two code units. -/
def isBasic (s : JsString) : Bool := (characters s).length = s.length

/-- Two texts keep their characters beside each other, unless a pair of surrogates meets. -/
theorem characters_append (s : JsString) {t : JsString} (ht : ∀ c ∈ t.head?, isLowSurrogate c = false) :
    characters (s ++ t) = characters s ++ characters t := by
  induction s using characters.induct with
  | case1 => rfl
  | case2 c =>
    cases t with
    | nil => rfl
    | cons d rest => simp [characters, ht d rfl]
  | case3 c d rest h ih => simp [characters, h, ih]
  | case4 c d rest h ih => simpa [characters, h] using ih

theorem characters_cons {c : CodeUnit} (hc : isHighSurrogate c = false) (t : JsString) :
    characters (c :: t) = [c] :: characters t := by
  cases t with
  | nil => rfl
  | cons d rest => simp [characters, hc]

/-- Where the first characters are as many as the code units of `p`, the rest begins behind `p`. -/
theorem eq_append_substrFrom {s p : JsString} {c : CodeUnit} (hsub : substr s 1 (p.length + 1) = p ++ [c])
    (hlong : p.length < (characters s).length) : s = p ++ substrFrom s (p.length + 1) := by
  have hsplit : ((characters s).take p.length).flatten ++ substrFrom s (p.length + 1) = s := by
    unfold substrFrom
    rw [Nat.add_sub_cancel, ← List.flatten_append, List.take_append_drop, flatten_characters]
  have htake : ((characters s).take p.length).flatten ++ (characters s)[p.length] = p ++ [c] := by
    unfold substr at hsub
    rw [Nat.sub_self, List.drop_zero, List.take_succ_eq_append_getElem hlong, List.flatten_append] at hsub
    simpa using hsub
  have hmin : p.length ≤ ((characters s).take p.length).flatten.length := by
    have h : ((characters s).take p.length).length ≤ ((characters s).take p.length).flatten.length :=
      length_le_flatten (fun d hd => characters_ne_nil s d (List.mem_of_mem_take hd))
    rw [List.length_take] at h
    omega
  have hlast : 0 < ((characters s)[p.length]).length :=
    List.length_pos_of_ne_nil (characters_ne_nil s _ (List.getElem_mem hlong))
  have hlength := congrArg List.length htake
  simp only [List.length_append, List.length_singleton] at hlength
  have hp : ((characters s).take p.length).flatten = p :=
    List.append_inj_left htake (by omega)
  rw [hp] at hsplit
  exact hsplit.symm

/-! ### Slashes at the ends of a path -/

theorem stripSlashes_join {ns : List JsString} (h : ∀ s ∈ ns, slash ∉ s) :
    stripSlashes ([slash].intercalate ns) = [slash].intercalate (trimmed ns) := by
  have hrest : ∀ s ∈ ns.dropWhile (fun s => s = []), slash ∉ s := fun s hs => h s ((List.dropWhile_suffix _).subset hs)
  change (([slash].intercalate ns).dropWhile (fun c => c = slash)).rdropWhile (fun c => c = slash) = _
  rw [dropWhile_join h, rdropWhile_join hrest]
  rfl

theorem trimmed_subset {ns : List JsString} : ∀ s ∈ trimmed ns, s ∈ ns := fun _ hs =>
  (List.dropWhile_suffix _).subset ((List.rdropWhile_prefix _ _).subset hs)

end DurableDav.Library
