import Mathlib.Data.List.Basic
import Mathlib.Data.List.Dedup

namespace DurableDav.Library

variable {κ α : Type} [DecidableEq κ]

abbrev Store (κ α : Type) := List (κ × α)

namespace Store

def get (s : Store κ α) (k : κ) : Option α := (s.find? (fun e => e.1 = k)).map Prod.snd

def removeWhere (s : Store κ α) (P : κ → Bool) : Store κ α := s.filter (fun e => !P e.1)

def remove (s : Store κ α) (k : κ) : Store κ α := removeWhere s (fun k' => k' = k)

def put (s : Store κ α) (k : κ) (a : α) : Store κ α := (k, a) :: remove s k

def keys (s : Store κ α) : List κ := (s.map Prod.fst).dedup

omit [DecidableEq κ] in
@[simp] theorem get_nil [DecidableEq κ] (k : κ) : get ([] : Store κ α) k = none := rfl

theorem get_cons (e : κ × α) (s : Store κ α) (k : κ) :
    get (e :: s) k = if e.1 = k then some e.2 else get s k := by
  by_cases h : e.1 = k <;> simp [get, h]

@[simp] theorem get_removeWhere (s : Store κ α) (P : κ → Bool) (k : κ) :
    get (removeWhere s P) k = if P k then none else get s k := by
  induction s with
  | nil => simp [removeWhere]
  | cons e s ih =>
    simp only [removeWhere] at ih
    simp only [removeWhere, List.filter_cons]
    by_cases hp : P e.1 <;> by_cases hk : e.1 = k
    · subst hk
      simp [hp, ih]
    · simp [hp, ih, get_cons, hk]
    · subst hk
      simp [hp, get_cons]
    · simp [hp, get_cons, hk, ih]

@[simp] theorem get_remove (s : Store κ α) (k k' : κ) :
    get (remove s k) k' = if k' = k then none else get s k' := by
  simp [remove]

@[simp] theorem get_put (s : Store κ α) (k k' : κ) (a : α) :
    get (put s k a) k' = if k' = k then some a else get s k' := by
  by_cases h : k' = k
  · subst h
    simp [put, get_cons]
  · simp [put, get_cons, h, Ne.symm h]

theorem mem_keys {s : Store κ α} {k : κ} : k ∈ keys s ↔ (get s k).isSome := by
  simp only [keys, List.mem_dedup, List.mem_map, get, Option.isSome_map, List.find?_isSome,
    decide_eq_true_eq]

theorem keys_nodup (s : Store κ α) : (keys s).Nodup := List.nodup_dedup _

theorem get_eq_none_iff {s : Store κ α} {k : κ} : get s k = none ↔ k ∉ keys s := by
  rw [mem_keys]
  cases get s k <;> simp

/-- Writing as a JavaScript map does: a key that is there keeps its place, a new one comes last. -/
def set (s : Store κ α) (k : κ) (a : α) : Store κ α :=
  if (get s k).isSome then s.map (fun e => if e.1 = k then (k, a) else e) else s ++ [(k, a)]

@[simp] theorem get_set (s : Store κ α) (k k' : κ) (a : α) :
    get (set s k a) k' = if k' = k then some a else get s k' := by
  unfold set
  split
  · rename_i hk
    induction s with
    | nil => simp at hk
    | cons e s ih =>
      rw [List.map_cons, get_cons, get_cons]
      rw [get_cons] at hk
      by_cases he : e.1 = k
      · subst he
        rw [if_pos rfl]
        by_cases hk' : e.1 = k'
        · subst hk'
          simp
        · rw [if_neg hk', if_neg hk', if_neg (Ne.symm hk')]
          by_cases hmore : (get s e.1).isSome = true
          · rw [ih hmore, if_neg (Ne.symm hk')]
          · have hkeep : s.map (fun e' => if e'.1 = e.1 then (e.1, a) else e') = s := by
              have hno : ∀ e' ∈ s, e'.1 ≠ e.1 := by
                intro e' he' heq
                apply hmore
                rw [get, Option.isSome_map, List.find?_isSome]
                exact ⟨e', he', by simpa using heq⟩
              conv_rhs => rw [← List.map_id s]
              exact List.map_congr_left fun e' he' => if_neg (hno e' he')
            rw [hkeep]
      · rw [if_neg he] at hk ⊢
        rw [ih hk]
        by_cases hk' : e.1 = k'
        · rw [if_pos hk', if_pos hk', if_neg fun heq => he (hk'.trans heq)]
        · rw [if_neg hk', if_neg hk']
  · rename_i hk
    have hnone : get s k = none := by simpa using hk
    induction s with
    | nil => simp [get_cons, eq_comm]
    | cons e s ih =>
      rw [get_cons] at hnone
      by_cases he : e.1 = k
      · simp [he] at hnone
      · rw [if_neg he] at hnone
        rw [List.cons_append, get_cons, get_cons, ih (by simp [hnone]) hnone]
        by_cases hk' : e.1 = k'
        · rw [if_pos hk', if_pos hk', if_neg fun heq => he (hk'.trans heq)]
        · rw [if_neg hk', if_neg hk']

theorem mem_of_get {s : Store κ α} {k : κ} {a : α} (h : get s k = some a) : (k, a) ∈ s := by
  obtain ⟨e, hfind, he⟩ := Option.map_eq_some_iff.mp h
  have hkey : e.1 = k := by simpa using List.find?_some hfind
  rw [← hkey, ← he]
  exact List.mem_of_find?_eq_some hfind

omit [DecidableEq κ] in
theorem mem_of_mem_removeWhere {s : Store κ α} {P : κ → Bool} {e : κ × α} (h : e ∈ removeWhere s P) : e ∈ s :=
  List.mem_of_mem_filter h

theorem mem_set {s : Store κ α} {k : κ} {a : α} {e : κ × α} (h : e ∈ set s k a) : e ∈ s ∨ e = (k, a) := by
  unfold set at h
  split at h
  · obtain ⟨e', he', rfl⟩ := List.mem_map.mp h
    by_cases hk : e'.1 = k
    · right
      rw [if_pos hk]
    · left
      rwa [if_neg hk]
  · rcases List.mem_append.mp h with h | h
    · exact .inl h
    · exact .inr (List.mem_singleton.mp h)

end Store

end DurableDav.Library
