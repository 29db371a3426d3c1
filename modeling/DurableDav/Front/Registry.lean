import DurableDav.Library.JsText
import DurableDav.Library.Segments

namespace DurableDav.Front

open Library

/-! ### Names -/

def colon : CodeUnit := 58

def isAscii (c : CodeUnit) : Bool := c.val < 128

/-- `toLowerCase`, of which only the case of ASCII letters is known. -/
structure Casing where
  toLowerCase : JsString → JsString
  ascii : ∀ s, s.all isAscii → toLowerCase s = s.map asciiLower

def asciiCasing : Casing := ⟨List.map asciiLower, fun _ _ => rfl⟩

def isAlphanumeric (c : CodeUnit) : Bool :=
  (48 ≤ c.val ∧ c.val ≤ 57) ∨ (65 ≤ c.val ∧ c.val ≤ 90) ∨ (97 ≤ c.val ∧ c.val ≤ 122)

def usernameMaxLength : ℕ := 39

def volumeNameMaxLength : ℕ := 100

def isValidUsername (value : JsString) : Bool :=
  value ≠ [] ∧ value.length ≤ usernameMaxLength ∧ value.all (fun c => isAlphanumeric c ∨ c = dash) ∧
    value.head?.all isAlphanumeric ∧ value.getLast?.all isAlphanumeric

def isNameUnit (c : CodeUnit) : Bool := isAlphanumeric c ∨ c = dash ∨ c.val = 46 ∨ c.val = 95

def isValidVolumeName (value : JsString) : Bool :=
  value ≠ [] ∧ value.length ≤ volumeNameMaxLength ∧ value.all isNameUnit ∧ value.head?.all isAlphanumeric

/-- The name of a volume's Durable Object. -/
def normalizeVolumeKey (C : Casing) (owner name : JsString) : JsString :=
  C.toLowerCase owner ++ slash :: C.toLowerCase name

/-! ### The table of volumes -/

inductive HrefPrefixMode
  | base
  | root
  deriving DecidableEq

structure DavVolumeRow where
  id : JsString
  ownerUserId : JsString
  owner : JsString
  name : JsString
  isPrivate : Bool
  hrefPrefixMode : HrefPrefixMode
  deriving DecidableEq

abbrev Volumes := List DavVolumeRow

namespace Volumes

variable (C : Casing)

def getByOwnerName (rows : Volumes) (owner name : JsString) : Option DavVolumeRow :=
  rows.find? fun r => C.toLowerCase r.owner = C.toLowerCase owner ∧ C.toLowerCase r.name = C.toLowerCase name

/-- `none` where the table's own constraints refuse the row. -/
def create (rows : Volumes) (row : DavVolumeRow) : Option Volumes :=
  if rows.any (fun r => r.id = row.id) ∨ (rows.getByOwnerName C row.owner row.name).isSome then none
  else some (rows ++ [row])

def deleteById (rows : Volumes) (id : JsString) : Volumes := rows.filter fun r => r.id ≠ id

def renameOwner (rows : Volumes) (oldOwnerCi newOwner : JsString) : Volumes :=
  rows.map fun r => if C.toLowerCase r.owner = oldOwnerCi then { r with owner := newOwner } else r

def keys (rows : Volumes) : List JsString := rows.map fun r => normalizeVolumeKey C r.owner r.name

end Volumes

/-! ### Keys tell volumes apart -/

section Keys

variable {C : Casing}

theorem alphanumeric_bounds {c : CodeUnit} (h : isAlphanumeric c = true) :
    48 ≤ c.val ∧ c.val ≤ 122 := by
  simp only [isAlphanumeric, decide_eq_true_eq] at h
  omega

theorem username_units {value : JsString} (h : isValidUsername value = true) {c : CodeUnit} (hc : c ∈ value) :
    isAlphanumeric c = true ∨ c = dash := by
  simp only [isValidUsername, decide_eq_true_eq, List.all_eq_true] at h
  exact h.2.2.1 c hc

theorem asciiLower_val (c : CodeUnit) :
    (asciiLower c).val = if 65 ≤ c.val ∧ c.val ≤ 90 then c.val + 32 else c.val := by
  unfold asciiLower
  split
  · rw [Fin.val_add]
    have : (32 : CodeUnit).val = 32 := rfl
    omega
  · rfl

theorem lower_eq {value : JsString} (h : isValidUsername value = true) :
    C.toLowerCase value = value.map asciiLower := by
  apply C.ascii
  rw [List.all_eq_true]
  intro c hc
  rcases username_units h hc with hc | rfl
  · have := alphanumeric_bounds hc
    simp only [isAscii, decide_eq_true_eq]
    omega
  · decide

theorem slash_notMem_lower {value : JsString} (h : isValidUsername value = true) :
    slash ∉ C.toLowerCase value := by
  rw [lower_eq h, List.mem_map]
  rintro ⟨c, hc, hlower⟩
  have hval : (asciiLower c).val = 47 := congrArg Fin.val hlower
  rw [asciiLower_val] at hval
  rcases username_units h hc with hc | rfl
  · have := alphanumeric_bounds hc
    split at hval <;> omega
  · exact absurd hval (by decide)

theorem lower_alphanumeric {c : CodeUnit} (h : isAlphanumeric c = true) : isAlphanumeric (asciiLower c) = true := by
  simp only [isAlphanumeric, decide_eq_true_eq, asciiLower_val] at h ⊢
  split <;> omega

theorem lower_username {value : JsString} (h : isValidUsername value = true) :
    isValidUsername (C.toLowerCase value) = true := by
  rw [lower_eq h]
  simp only [isValidUsername, decide_eq_true_eq, List.all_eq_true] at h ⊢
  obtain ⟨hne, hlength, hunits, hfirst, hlast⟩ := h
  refine ⟨by simpa using hne, by simpa using hlength, ?_, ?_, ?_⟩
  · intro c hc
    obtain ⟨d, hd, rfl⟩ := List.mem_map.mp hc
    rcases hunits d hd with hd | rfl
    · exact .inl (lower_alphanumeric hd)
    · exact .inr (by decide)
  · rw [List.head?_map]
    cases hhead : value.head? with
    | none => rfl
    | some c =>
      rw [hhead] at hfirst
      exact lower_alphanumeric hfirst
  · rw [List.getLast?_map]
    cases hend : value.getLast? with
    | none => rfl
    | some c =>
      rw [hend] at hlast
      exact lower_alphanumeric hlast

theorem append_slash_inj {u u' n n' : JsString} (hu : slash ∉ u) (hu' : slash ∉ u')
    (h : u ++ slash :: n = u' ++ slash :: n') : u = u' ∧ n = n' := by
  rcases List.append_eq_append_iff.mp h with ⟨m, hm, hrest⟩ | ⟨m, hm, hrest⟩
  · cases m with
    | nil =>
      rw [List.append_nil] at hm
      rw [List.nil_append] at hrest
      exact ⟨hm.symm, (List.cons.inj hrest).2⟩
    | cons c m =>
      rw [List.cons_append] at hrest
      obtain rfl := (List.cons.inj hrest).1
      exact absurd (by rw [hm]; simp) hu'
  · cases m with
    | nil =>
      rw [List.append_nil] at hm
      rw [List.nil_append] at hrest
      exact ⟨hm, (List.cons.inj hrest).2.symm⟩
    | cons c m =>
      rw [List.cons_append] at hrest
      obtain rfl := (List.cons.inj hrest).1
      exact absurd (by rw [hm]; simp) hu

theorem key_inj {owner owner' name name' : JsString} (h : isValidUsername owner = true)
    (h' : isValidUsername owner' = true) (hkey : normalizeVolumeKey C owner name = normalizeVolumeKey C owner' name') :
    C.toLowerCase owner = C.toLowerCase owner' ∧ C.toLowerCase name = C.toLowerCase name' :=
  append_slash_inj (slash_notMem_lower h) (slash_notMem_lower h') hkey

end Keys

end DurableDav.Front
