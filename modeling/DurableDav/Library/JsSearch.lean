import DurableDav.Library.JsText

namespace DurableDav.Library

/-! ### Searching a string -/

def indexOf (needle s : JsString) (start : ℕ) : Option ℕ :=
  (List.range (s.length + 1)).find? (fun i => start ≤ i ∧ needle <+: s.drop i)

/-- The part from `start` up to, and without, `stop`. -/
def slice (s : JsString) (start stop : ℕ) : JsString := (s.take stop).drop start

def isWordUnit (c : CodeUnit) : Bool :=
  (48 ≤ c.val ∧ c.val ≤ 57) ∨ (65 ≤ c.val ∧ c.val ≤ 90) ∨ c.val = 95 ∨ (97 ≤ c.val ∧ c.val ≤ 122)

/-- Somewhere a word that ends in `word`, whatever its case, stands behind what precedes it there. -/
def mentionsWord (word s : JsString) : Bool :=
  s.tails.any (fun t => word <+: t.map asciiLower ∧ !(t.drop word.length).head?.any isWordUnit)

def isDigitUnit (c : CodeUnit) : Bool := 48 ≤ c.val ∧ c.val ≤ 57

def digitsValue (s : JsString) : ℕ := s.foldl (fun n c => 10 * n + (c.val - 48)) 0

/-- From here on a number is rounded to infinity. -/
def numberLimit : ℕ := 2 ^ 1024 - 2 ^ 970

def escapeUnit (c : CodeUnit) : JsString :=
  if c.val = 38 then js "&amp;"
  else if c.val = 60 then js "&lt;"
  else if c.val = 62 then js "&gt;"
  else if c.val = 34 then js "&quot;"
  else if c.val = 39 then js "&apos;"
  else [c]

def escapeXml (s : JsString) : JsString := s.flatMap escapeUnit

example : escapeXml (js "a<'b'&c") = js "a&lt;&apos;b&apos;&amp;c" := by decide

/-! ### The digits of a number -/

theorem inBase_units {P : CodeUnit → Prop} {base : ℕ} (hbase : 1 < base) (h : ∀ d < base, P (digitUnit d)) (n : ℕ) :
    ∀ c ∈ inBase base n, P c := by
  unfold inBase
  split
  · exact List.forall_mem_singleton.mpr (h 0 (by omega))
  · intro c hc
    obtain ⟨d, hd, rfl⟩ := List.mem_map.mp (List.mem_reverse.mp hc)
    exact h d (Nat.digits_lt_base hbase hd)

theorem decimal_digits (n : ℕ) : ∀ c ∈ decimal n, isDigitUnit c = true := inBase_units (by omega) (by decide) n

theorem decimal_ne_nil (n : ℕ) : decimal n ≠ [] := by
  unfold decimal inBase
  split
  · simp
  · rename_i h
    have hdigits : Nat.digits 10 n ≠ [] := Nat.digits_ne_nil_iff_ne_zero.mpr h
    simpa using hdigits

theorem digitsValue_decimal (n : ℕ) : digitsValue (decimal n) = n := by
  have hdigit : ∀ d < 10, (digitUnit d).val - 48 = d := by decide
  unfold digitsValue decimal inBase
  split
  · rename_i h
    rw [h]
    rfl
  · rw [List.foldl_reverse, List.foldr_map]
    have hvalue (ds : List ℕ) (hds : ∀ d ∈ ds, d < 10) :
        ds.foldr (fun d m => 10 * m + ((digitUnit d).val - 48)) 0 = Nat.ofDigits 10 ds := by
      induction ds with
      | nil => rfl
      | cons d ds ih =>
        obtain ⟨hd, hds⟩ := List.forall_mem_cons.mp hds
        rw [List.foldr_cons, ih hds, hdigit d hd, Nat.ofDigits_cons, add_comm]
    rw [hvalue _ fun d hd => Nat.digits_lt_base (by omega) hd]
    exact Nat.ofDigits_digits 10 n

end DurableDav.Library
