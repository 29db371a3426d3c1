import DurableDav.Library.Segments
import Mathlib.Data.Nat.Digits.Defs
import Mathlib.Order.Fin.Basic
import Mathlib.Data.List.Lex

namespace DurableDav.Library

abbrev CodeUnit := Fin 65536

abbrev JsString := List CodeUnit

instance neZero_codeUnits : NeZero 65536 := ⟨by decide⟩

instance lawfulBEq_codeUnit : LawfulBEq CodeUnit := inferInstance

instance lawfulBEq_jsString : LawfulBEq JsString := inferInstance

def js (s : String) : JsString := s.toList.map (fun c => Fin.ofNat 65536 c.toNat)

def slash : CodeUnit := 47

def dash : CodeUnit := 45

def digitUnit (d : ℕ) : CodeUnit := Fin.ofNat 65536 (if d < 10 then 48 + d else 87 + d)

def inBase (base n : ℕ) : JsString :=
  if n = 0 then [digitUnit 0] else ((Nat.digits base n).map digitUnit).reverse

def decimal (n : ℕ) : JsString := inBase 10 n

def hexadecimal (n : ℕ) : JsString := inBase 16 n

/-! ### Quoting -/

def quote : CodeUnit := 34

def backslash : CodeUnit := 92

def shortEscapes : List (CodeUnit × CodeUnit) :=
  [(quote, quote), (backslash, backslash), (8, 98), (9, 116), (10, 110), (12, 102), (13, 114)]

def isHighSurrogate (c : CodeUnit) : Bool := 55296 ≤ c.val ∧ c.val ≤ 56319

def isLowSurrogate (c : CodeUnit) : Bool := 56320 ≤ c.val ∧ c.val ≤ 57343

def isLone (before : Option CodeUnit) (c : CodeUnit) (after : Option CodeUnit) : Bool :=
  (isHighSurrogate c && !after.any isLowSurrogate) || (isLowSurrogate c && !before.any isHighSurrogate)

def unicodeEscape (c : CodeUnit) : JsString :=
  backslash :: 117 :: List.replicate (4 - (hexadecimal c).length) 48 ++ hexadecimal c

def jsonUnit (before : Option CodeUnit) (c : CodeUnit) (after : Option CodeUnit) : JsString :=
  match shortEscapes.lookup c with
  | some letter => [backslash, letter]
  | none => if c.val < 32 ∨ isLone before c after then unicodeEscape c else [c]

def jsonEscape (before : Option CodeUnit) : JsString → JsString
  | [] => []
  | c :: rest => jsonUnit before c rest.head? ++ jsonEscape (some c) rest

def jsonStringify (s : JsString) : JsString := quote :: jsonEscape none s ++ [quote]

example : jsonStringify [97, 34, 10, 1, 55296] = js "\"a\\\"\\n\\u0001\\ud800\"" := by decide

theorem slash_notMem_decimal (n : ℕ) : slash ∉ decimal n := by
  have hunit : ∀ d < 10, digitUnit d ≠ slash := by decide
  unfold decimal inBase
  split
  · have h0 := hunit 0 (by omega)
    simpa [eq_comm] using h0
  · rw [List.mem_reverse, List.mem_map]
    rintro ⟨d, hd, he⟩
    exact hunit d (Nat.digits_lt_base (by omega) hd) he

end DurableDav.Library
