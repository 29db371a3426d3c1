import DurableDav.Library.Store
import Mathlib.Data.List.Perm.Basic

namespace DurableDav.Library.Store

variable {κ α : Type} [DecidableEq κ]

/-! ### Giving the rows of a table new keys, one row after the other -/

/-- One row gets its new key, which no other row may have by then. -/
def rekeyRow (f : κ → κ) (s : Store κ α) (k : κ) : Option (Store κ α) :=
  match get s k with
  | none => some s
  | some a =>
    if f k = k then some s
    else if (get s (f k)).isSome then none
    else some (put (remove s k) (f k) a)

def rekeyInOrder (f : κ → κ) : List κ → Store κ α → Option (Store κ α)
  | [], s => some s
  | k :: rest, s => (rekeyRow f s k).bind (rekeyInOrder f rest)

/-- No row has the key that another one is to get. -/
def Unclaimed (f : κ → κ) (s : Store κ α) : Prop := ∀ k, (get s k).isSome → f k = k ∨ get s (f k) = none

/-- Every row of the one table is in the other under its new key, and nothing else is. -/
def Rekeyed (f : κ → κ) (s s' : Store κ α) : Prop := ∀ q a, get s' q = some a ↔ ∃ k, f k = q ∧ get s k = some a

section Rows

variable {f : κ → κ} {s s' : Store κ α} {k q : κ} {a : α} {order : List κ}

theorem rekeyRow_free (h : get s k = some a) (hfree : f k = k ∨ get s (f k) = none) :
    ∃ s', rekeyRow f s k = some s' ∧ ∀ q, get s' q = if q = f k then some a else if q = k then none else get s q := by
  unfold rekeyRow
  rw [h]
  dsimp only
  by_cases hk : f k = k
  · refine ⟨s, if_pos hk, fun q => ?_⟩
    rw [hk]
    by_cases hq : q = k
    · rw [if_pos hq, hq, h]
    · rw [if_neg hq, if_neg hq]
  · have hnone := hfree.resolve_left hk
    refine ⟨put (remove s k) (f k) a, by rw [if_neg hk, hnone]; rfl, fun q => ?_⟩
    rw [get_put, get_remove]

theorem rekeyRow_claimed (h : (get s k).isSome) (hk : f k ≠ k) (hclaimed : (get s (f k)).isSome) :
    rekeyRow f s k = none := by
  obtain ⟨a, ha⟩ := Option.isSome_iff_exists.mp h
  unfold rekeyRow
  rw [ha]
  dsimp only
  rw [if_neg hk, if_pos hclaimed]

/-- The rows of an order get their keys, the others stay as they are. -/
theorem rekeyInOrder_free (hnodup : order.Nodup) (hheld : ∀ k ∈ order, (get s k).isSome)
    (hinj : ∀ k ∈ order, ∀ k' ∈ order, f k = f k' → k = k') (hfree : ∀ k ∈ order, f k = k ∨ get s (f k) = none) :
    ∃ s', rekeyInOrder f order s = some s' ∧
      ∀ q a, get s' q = some a ↔ (∃ k ∈ order, f k = q ∧ get s k = some a) ∨ q ∉ order ∧ get s q = some a := by
  induction order generalizing s with
  | nil => exact ⟨s, rfl, by simp⟩
  | cons k rest ih =>
    obtain ⟨hk, hrest⟩ := List.nodup_cons.mp hnodup
    obtain ⟨a, ha⟩ := Option.isSome_iff_exists.mp (hheld k List.mem_cons_self)
    obtain ⟨s₁, hrow, hget⟩ := rekeyRow_free ha (hfree k List.mem_cons_self)
    have hapart : ∀ k' ∈ rest, k' ≠ k ∧ k' ≠ f k := by
      intro k' hk'
      refine ⟨fun he => hk (he ▸ hk'), fun he => ?_⟩
      rcases hfree k List.mem_cons_self with hfix | hnone
      · exact hk (by rwa [he, hfix] at hk')
      · have hsome := hheld k' (List.mem_cons_of_mem _ hk')
        rw [he, hnone] at hsome
        cases hsome
    have hsame : ∀ k' ∈ rest, get s₁ k' = get s k' := by
      intro k' hk'
      rw [hget, if_neg (hapart k' hk').2, if_neg (hapart k' hk').1]
    have hfree₁ : ∀ k' ∈ rest, f k' = k' ∨ get s₁ (f k') = none := by
      intro k' hk'
      rcases hfree k' (List.mem_cons_of_mem _ hk') with hfix | hnone
      · exact .inl hfix
      · right
        have hne : f k' ≠ f k := fun he =>
          (hapart k' hk').1 (hinj k' (List.mem_cons_of_mem _ hk') k List.mem_cons_self he)
        rw [hget, if_neg hne, hnone]
        split <;> rfl
    obtain ⟨s', hrun, hs'⟩ := ih hrest (fun k' hk' => by rw [hsame k' hk']; exact hheld k' (List.mem_cons_of_mem _ hk'))
      (fun k₁ h₁ k₂ h₂ => hinj k₁ (List.mem_cons_of_mem _ h₁) k₂ (List.mem_cons_of_mem _ h₂)) hfree₁
    refine ⟨s', by rw [rekeyInOrder, hrow]; exact hrun, fun q b => ?_⟩
    rw [hs']
    constructor
    · rintro (⟨k', hk', hq, hb⟩ | ⟨hq, hb⟩)
      · exact .inl ⟨k', List.mem_cons_of_mem _ hk', hq, by rwa [hsame k' hk'] at hb⟩
      · rw [hget] at hb
        by_cases hfk : q = f k
        · rw [if_pos hfk] at hb
          exact .inl ⟨k, List.mem_cons_self, hfk.symm, ha.trans hb⟩
        · rw [if_neg hfk] at hb
          by_cases hqk : q = k
          · rw [if_pos hqk] at hb
            cases hb
          · rw [if_neg hqk] at hb
            exact .inr ⟨by simp [hqk, hq], hb⟩
    · rintro (⟨k', hk', hq, hb⟩ | ⟨hq, hb⟩)
      · rcases List.mem_cons.mp hk' with rfl | hk'
        · right
          refine ⟨fun hmem => (hapart q hmem).2 hq.symm, ?_⟩
          rw [hget, if_pos hq.symm, ← ha, hb]
        · exact .inl ⟨k', hk', hq, by rwa [hsame k' hk']⟩
      · obtain ⟨hqk, hqrest⟩ : q ≠ k ∧ q ∉ rest := by simpa using hq
        right
        refine ⟨hqrest, ?_⟩
        rw [hget]
        by_cases hfk : q = f k
        · rcases hfree k List.mem_cons_self with hfix | hnone
          · exact absurd (hfk.trans hfix) hqk
          · rw [hfk, hnone] at hb
            cases hb
        · rw [if_neg hfk, if_neg hqk, hb]

/-- No two rows are to get one new key. -/
def Apart (f : κ → κ) (s : Store κ α) : Prop :=
  ∀ k k', (get s k).isSome → (get s k').isSome → f k ≠ k → f k' ≠ k' → f k = f k' → k = k'

theorem Unclaimed.stays (h : Unclaimed f s) {k' : κ} (hk : (get s k).isSome) (hk' : (get s k').isSome) (hf : f k = k') :
    f k = k := by
  rcases h k hk with hfix | hnone
  · exact hfix
  · rw [hf] at hnone
    rw [hnone] at hk'
    cases hk'

theorem Unclaimed.injective (h : Unclaimed f s) (hinj : Apart f s) {k' : κ} (hk : (get s k).isSome)
    (hk' : (get s k').isSome) (hf : f k = f k') : k = k' := by
  by_cases hfix : f k = k
  · by_cases hfix' : f k' = k'
    · exact hfix.symm.trans (hf.trans hfix')
    · exact absurd (h.stays hk' hk (hf.symm.trans hfix)) hfix'
  · by_cases hfix' : f k' = k'
    · exact absurd (h.stays hk hk' (hf.trans hfix')) hfix
    · exact hinj k k' hk hk' hfix hfix' hf

theorem rekeyInOrder_rekeyed (h : Unclaimed f s) (hinj : Apart f s) (horder : order.Perm (keys s)) :
    ∃ s', rekeyInOrder f order s = some s' ∧ Rekeyed f s s' := by
  have hmem {k : κ} : k ∈ order ↔ (get s k).isSome := horder.mem_iff.trans mem_keys
  obtain ⟨s', hrun, hs'⟩ := rekeyInOrder_free (horder.nodup_iff.mpr (keys_nodup s)) (fun k => hmem.mp)
    (fun k hk k' hk' => h.injective hinj (hmem.mp hk) (hmem.mp hk')) (fun k hk => h k (hmem.mp hk))
  refine ⟨s', hrun, fun q a => ?_⟩
  rw [hs']
  constructor
  · rintro (⟨k, -, hq, ha⟩ | ⟨hq, ha⟩)
    · exact ⟨k, hq, ha⟩
    · exact absurd (hmem.mpr (by rw [ha]; rfl)) hq
  · rintro ⟨k, hq, ha⟩
    exact .inl ⟨k, hmem.mpr (by rw [ha]; rfl), hq, ha⟩

/-- In whatever order the rows come, each of them gets its key, exactly if nothing is in its way. -/
theorem rekeyInOrder_isSome_iff :
    (∀ order : List κ, order.Perm (keys s) → (rekeyInOrder f order s).isSome) ↔ Unclaimed f s ∧ Apart f s := by
  constructor
  · intro h
    have hfree : Unclaimed f s := by
      intro k hk
      by_contra hclaimed
      obtain ⟨hne, hsome⟩ := not_or.mp hclaimed
      have hrun := h (k :: (keys s).erase k) (List.perm_cons_erase (mem_keys.mpr hk)).symm
      rw [rekeyInOrder, rekeyRow_claimed hk hne (Option.isSome_iff_ne_none.mpr hsome)] at hrun
      cases hrun
    refine ⟨hfree, fun k k' hk hk' hne hne' hf => ?_⟩
    by_contra hkk
    have hrest : k' ∈ (keys s).erase k := (List.mem_erase_of_ne (Ne.symm hkk)).mpr (mem_keys.mpr hk')
    have hperm : (k :: k' :: ((keys s).erase k).erase k').Perm (keys s) :=
      ((List.perm_cons_erase hrest).symm.cons k).trans (List.perm_cons_erase (mem_keys.mpr hk)).symm
    have hrun := h _ hperm
    obtain ⟨a, ha⟩ := Option.isSome_iff_exists.mp hk
    obtain ⟨s₁, hrow, hget⟩ := rekeyRow_free ha (hfree k hk)
    have hkey : k' ≠ f k := fun he => hne' (hf.symm.trans he.symm)
    have hheld : (get s₁ k').isSome := by
      rw [hget, if_neg hkey, if_neg (Ne.symm hkk)]
      exact hk'
    have hclaimed : (get s₁ (f k')).isSome := by
      rw [hget, if_pos hf.symm]
      rfl
    rw [rekeyInOrder, hrow, Option.bind_some, rekeyInOrder, rekeyRow_claimed hheld hne' hclaimed] at hrun
    cases hrun
  · rintro ⟨hfree, hinj⟩ order horder
    obtain ⟨s', hrun, -⟩ := rekeyInOrder_rekeyed hfree hinj horder
    rw [hrun]
    rfl

/-- Only the new keys of the rows that are there count. -/
theorem rekeyInOrder_congr {g : κ → κ} (h : ∀ k ∈ order, f k = g k) : rekeyInOrder f order s = rekeyInOrder g order s := by
  induction order generalizing s with
  | nil => rfl
  | cons k rest ih =>
    have hrow : rekeyRow f s k = rekeyRow g s k := by
      unfold rekeyRow
      rw [h k List.mem_cons_self]
    rw [rekeyInOrder, rekeyInOrder, hrow]
    congr 1
    funext s'
    exact ih fun k' hk' => h k' (List.mem_cons_of_mem _ hk')

end Rows

end DurableDav.Library.Store
