import Mathlib.Data.List.Find
import DurableDav.Dav.Course

namespace DurableDav.Dav

open Library
open Replication (Bytes isValidInnerPath parentOf)

/-! ### The file tree -/

/-- Every entry has a name and lies in a collection. -/
def Files.WellFormed (f : Files) : Prop :=
  ∀ q, (Store.get f q).isSome → (∀ name ∈ q.splitOn slash, name ≠ []) ∧ f.isDirectory (parentOf q) = true

/-- Every entry lies in a collection. -/
def Files.Rooted (f : Files) : Prop := ∀ q, (Store.get f q).isSome → f.isDirectory (parentOf q) = true

section Tree

variable {f : Files} {p q source target : JsString}

theorem wellFormed_of_keys
    (h : ∀ q ∈ Store.keys f, (∀ name ∈ q.splitOn slash, name ≠ []) ∧ f.isDirectory (parentOf q) = true) :
    f.WellFormed := fun q hq => h q (Store.mem_keys.mpr hq)

theorem isDirectory_iff : f.isDirectory q = true ↔ q = [] ∨ ∃ i, Store.get f q = some i ∧ i.bytes = none := by
  simp [Files.isDirectory, Option.any_eq_true, Option.isNone_iff_eq_none]

theorem found_iff : f.found q = true ↔ q = [] ∨ (Store.get f q).isSome := by simp [Files.found]

theorem found_of_isDirectory (h : f.isDirectory q = true) : f.found q = true := by
  rcases isDirectory_iff.mp h with rfl | ⟨i, hi, _⟩
  · exact found_iff.mpr (.inl rfl)
  · exact found_iff.mpr (.inr (by simp [hi]))

theorem Files.WellFormed.rooted (h : f.WellFormed) : f.Rooted := fun q hq => (h q hq).2

/-- What has something below it is a collection. -/
theorem Files.Rooted.above (h : f.Rooted) (hq : (Store.get f q).isSome) (hb : Below slash p q) : f.isDirectory p = true := by
  by_cases hp : p = []
  · exact isDirectory_iff.mpr (.inl hp)
  · induction hn : q.length using Nat.strong_induction_on generalizing q with
    | _ n ih =>
      have hparent := h q hq
      rcases hb.parent hp with he | hup
      · rw [he]
        exact hparent
      · rcases isDirectory_iff.mp hparent with hroot | ⟨i, hi, _⟩
        · exact absurd hroot hup.ne_nil
        · have hlt : (parentOf q).length < n := hn ▸ parentSegments_length_lt hb.ne_nil
          exact ih _ hlt (q := parentOf q) (by rw [hi]; rfl) hup rfl

theorem Files.WellFormed.above (h : f.WellFormed) (hq : (Store.get f q).isSome) (hb : Below slash p q) :
    f.isDirectory p = true := h.rooted.above hq hb

theorem Files.WellFormed.nothing_below (h : f.WellFormed) (hfile : f.isDirectory p = false) (hb : Below slash p q) :
    Store.get f q = none := by
  by_contra hn
  have hdir := h.above (Option.isSome_iff_ne_none.mpr hn) hb
  rw [hfile] at hdir
  simp at hdir

theorem stat_found (v : Files) (path : JsString) : ((v.stat path).getD missingStat).found = v.found path := by
  unfold Files.stat Files.found
  by_cases hp : path = []
  · simp [hp]
  · cases hg : Store.get v path <;> simp [hp, missingStat]

theorem stat_isDirectory (v : Files) (path : JsString) :
    ((v.stat path).getD missingStat).isDirectory = v.isDirectory path := by
  unfold Files.stat Files.isDirectory
  by_cases hp : path = []
  · simp [hp]
  · cases hg : Store.get v path with
    | none => simp [hp, missingStat]
    | some i => cases hb : i.bytes <;> simp [hp, hb]

end Tree

section Looks

variable {env : Env} {v : Volume} {r : Request} {path : JsString} {n : ℕ}

theorem sees_found (h : (env.sees v path n).found = true) :
    v.files.found path = true ∧ (env.sees v path n).isDirectory = v.files.isDirectory path := by
  unfold Env.sees at h ⊢
  split at h
  · rw [stat_found] at h
    exact ⟨h, by rw [if_pos (by assumption), stat_isDirectory]⟩
  · simp [missingStat] at h

theorem sees_isDirectory (h : (env.sees v path n).isDirectory = true) : v.files.isDirectory path = true := by
  unfold Env.sees at h
  split at h
  · rwa [stat_isDirectory] at h
  · simp [missingStat] at h

theorem parent_isDirectory {target : JsString} (h : env.isOrphan v target = false) :
    v.files.isDirectory (parentOf target) = true := by
  simp only [Env.isOrphan, decide_eq_false_iff_not, not_and_or, not_not] at h
  rcases h with hroot | hdir
  · exact isDirectory_iff.mpr (.inl hroot)
  · exact sees_isDirectory (by simpa using hdir)

/-! ### Removing a subtree -/

/-- Nothing keeps a request from removing a path. -/
def Env.mayRemove (env : Env) (v : Volume) (r : Request) (path : JsString) (n : ℕ) : Prop :=
  path ≠ [] ∧ (env.sees v path n).found ∧ env.lockAnswer v r path = none ∧
    if (env.sees v path n).isDirectory then env.refusal v r path 0 = none ∧ env.fails (.rmdir path) 0 = none
    else env.fails (.unlink path) 0 = none

theorem withoutFile_eq (h : v.files.WellFormed) (hfile : v.files.isDirectory path = false) :
    v.withoutFile path = v.withoutCollection path := by
  unfold Volume.withoutFile Volume.withoutCollection Store.remove
  have hsame : Store.removeWhere v.files (fun q => q = path) =
      Store.removeWhere v.files (fun q => q = path ∨ Below slash path q) := by
    unfold Store.removeWhere
    apply List.filter_congr
    intro e he
    have hkey : (Store.get v.files e.1).isSome := Store.mem_keys.mp (by simpa [Store.keys] using ⟨e.2, he⟩)
    have hnot : ¬ Below slash path e.1 := by
      intro hb
      rw [h.nothing_below hfile hb] at hkey
      simp at hkey
    simp [hnot]
  rw [hsame]

theorem removal_iff (h : v.files.WellFormed) {v₁ : Volume} :
    env.removal v r path n = .ok v₁ ↔ env.mayRemove v r path n ∧ v₁ = v.withoutCollection path := by
  unfold Env.removal Env.mayRemove
  by_cases hp : path = []
  · simp [hp]
  · cases hfound : (env.sees v path n).found with
    | false => simp [hp]
    | true =>
      obtain ⟨hin, hdir⟩ := sees_found hfound
      cases hlock : env.lockAnswer v r path with
      | some response => simp [hp]
      | none =>
        cases hd : (env.sees v path n).isDirectory with
        | true =>
          rw [hd] at hdir
          cases href : env.refusal v r path 0 with
          | some response => simp [hp]
          | none =>
            cases hf : env.fails (.rmdir path) 0 with
            | some e => simp [hp]
            | none => simp [hp, ← hdir, eq_comm]
        | false =>
          rw [hd] at hdir
          rw [withoutFile_eq h hdir.symm]
          cases hf : env.fails (.unlink path) 0 with
          | some e => simp [hp]
          | none => simp [hp, ← hdir, hin, eq_comm]

theorem withoutCollection_get (q : JsString) : Store.get (v.withoutCollection path).files q =
    if q = path ∨ Below slash path q then none else Store.get v.files q := by
  rw [show (v.withoutCollection path).files = Store.removeWhere v.files (fun q => q = path ∨ Below slash path q) from rfl,
    Store.get_removeWhere]
  simp only [decide_eq_true_eq]

theorem withoutCollection_wellFormed (h : v.files.WellFormed) : (v.withoutCollection path).files.WellFormed := by
  intro q hq
  rw [withoutCollection_get] at hq
  split at hq
  · simp at hq
  · rename_i hout
    refine ⟨(h q hq).1, ?_⟩
    rcases isDirectory_iff.mp (h q hq).2 with hroot | ⟨i, hi, hbytes⟩
    · exact isDirectory_iff.mpr (.inl hroot)
    · -- a collection that went would have taken its members along
      apply isDirectory_iff.mpr
      refine .inr ⟨i, ?_, hbytes⟩
      rw [withoutCollection_get, if_neg, hi]
      have hne : parentOf q ≠ [] := by
        intro hnil
        rw [hnil] at hi
        exact (h [] (by simp [hi])).1 [] (by simp) rfl
      have hbelow : Below slash (parentOf q) q := below_parentSegments hne
      rintro (he | hb)
      · exact hout (.inr (he ▸ hbelow))
      · exact hout (.inr (hb.trans hbelow))

theorem withoutCollection_keeps_directory {q : JsString} (h : v.files.isDirectory q = true)
    (hout : ¬ (q = path ∨ Below slash path q)) : (v.withoutCollection path).files.isDirectory q = true := by
  rcases isDirectory_iff.mp h with hroot | ⟨i, hi, hbytes⟩
  · exact isDirectory_iff.mpr (.inl hroot)
  · exact isDirectory_iff.mpr (.inr ⟨i, by rw [withoutCollection_get, if_neg hout, hi], hbytes⟩)

end Looks

/-! ### Giving entries new keys -/

section Rekey

variable {κ α : Type} [DecidableEq κ] {s s' : Store κ α} {f : κ → κ} {k : κ}

theorem mem_store_keys {e : κ × α} (he : e ∈ s) : e.1 ∈ Store.keys s := by
  simpa [Store.keys] using ⟨e.2, he⟩

theorem rekey_eq_some_iff : rekey s f = some s' ↔
    (∀ k ∈ Store.keys s, ∀ k' ∈ Store.keys s, f k = f k' → k = k') ∧ s.map (fun e => (f e.1, e.2)) = s' := by
  unfold rekey
  have hinj : ((Store.keys s).map f).Nodup ↔ ∀ k ∈ Store.keys s, ∀ k' ∈ Store.keys s, f k = f k' → k = k' := by
    constructor
    · intro hnodup k hk k' hk' he
      exact List.inj_on_of_nodup_map hnodup hk hk' he
    · intro hinj
      exact List.Nodup.map_on hinj (Store.keys_nodup s)
  by_cases h : ((Store.keys s).map f).Nodup
  · rw [if_pos h, Option.some_inj]
    exact ⟨fun he => ⟨hinj.mp h, he⟩, And.right⟩
  · rw [if_neg h]
    simp only [reduceCtorEq, false_iff, not_and]
    exact fun hk => absurd (hinj.mpr hk) h

theorem rekey_get (h : rekey s f = some s') (hk : k ∈ Store.keys s) : Store.get s' (f k) = Store.get s k := by
  obtain ⟨hinj, rfl⟩ := rekey_eq_some_iff.mp h
  have hfind : s.find? (fun e => decide (f e.1 = f k)) = s.find? (fun e => decide (e.1 = k)) := by
    apply List.find?_congr
    intro e he
    have hiff : f e.1 = f k ↔ e.1 = k := ⟨hinj _ (mem_store_keys he) _ hk, fun he => by rw [he]⟩
    simp only [hiff]
  unfold Store.get
  rw [List.find?_map, show ((fun e : κ × α => decide (e.1 = f k)) ∘ fun e : κ × α => (f e.1, e.2)) =
    fun e => decide (f e.1 = f k) from rfl, hfind, Option.map_map]
  rfl

theorem rekey_get_none {q : κ} (h : rekey s f = some s') (hq : ∀ k ∈ Store.keys s, f k ≠ q) : Store.get s' q = none := by
  obtain ⟨_, rfl⟩ := rekey_eq_some_iff.mp h
  rw [Store.get_eq_none_iff]
  intro hmem
  obtain ⟨e, he, hkey⟩ : ∃ e ∈ s, f e.1 = q := by simpa [Store.keys] using hmem
  exact hq e.1 (mem_store_keys he) hkey

end Rekey

/-! ### Renaming a subtree -/

/-- Where a rename takes a path. -/
def moved (source target q : JsString) : JsString :=
  if q = source ∨ Below slash source q then rebase source target q else q

section Renaming

variable {env : Env} {v v' : Volume} {source target q : JsString}

variable (target) in
theorem moved_inside (hs : source ≠ []) (h : q = source ∨ Below slash source q) :
    ∃ rest, q = source ++ rest ∧ moved source target q = target ++ rest ∧ (rest = [] ∨ rest.head? = some slash) := by
  unfold moved rebase
  rw [if_pos h]
  rcases h with rfl | hb
  · exact ⟨[], by simp⟩
  · obtain ⟨rest, rfl⟩ := (below_of_ne hs).mp hb
    exact ⟨slash :: rest, by simp⟩

theorem moved_outside (h : ¬ (q = source ∨ Below slash source q)) : moved source target q = q := if_neg h

/-- What a path is taken to lies at the target or below it. -/
theorem moved_lands (hs : source ≠ []) (ht : target ≠ []) (h : q = source ∨ Below slash source q) :
    moved source target q = target ∨ Below slash target (moved source target q) := by
  obtain ⟨rest, _, he, hrest | hrest⟩ := moved_inside target hs h
  · exact .inl (by rw [he, hrest, List.append_nil])
  · right
    obtain ⟨tail, rfl⟩ : ∃ tail, rest = slash :: tail := by
      cases rest with
      | nil => simp at hrest
      | cons c tail => exact ⟨tail, by simpa using hrest⟩
    rw [he]
    exact (below_of_ne ht).mpr ⟨tail, rfl⟩

theorem moved_parent (hs : source ≠ []) (h : Below slash source q) :
    parentOf (moved source target q) = moved source target (parentOf q) := by
  obtain ⟨rest, rfl⟩ := (below_of_ne hs).mp h
  have hto : ∀ rest : JsString, moved source target (source ++ slash :: rest) = target ++ slash :: rest := by
    intro rest
    unfold moved rebase
    rw [if_pos (.inr ((below_of_ne hs).mpr ⟨rest, rfl⟩))]
    simp
  rw [hto]
  by_cases hr : slash ∈ rest
  · obtain ⟨name, he, hn⟩ := parentSegments_spec hr
    have hsplit : ∀ p : JsString, parentOf (p ++ slash :: rest) = p ++ slash :: parentOf rest := by
      intro p
      have hcut : p ++ slash :: rest = (p ++ slash :: parentOf rest) ++ slash :: name := by
        conv_lhs => rw [he]
        simp [parentOf]
      rw [hcut]
      exact parentSegments_append hn
    rw [hsplit, hsplit, hto]
  · rw [show parentOf (target ++ slash :: rest) = target from parentSegments_append hr,
      show parentOf (source ++ slash :: rest) = source from parentSegments_append hr]
    unfold moved rebase
    simp

variable (env) in
theorem renamed_eq_some (htree : v.files.WellFormed) (hs : source ≠ []) (ht : target ≠ [])
    (hfound : v.files.found source = true) (hfree : v.files.found target = false)
    (hparent : v.files.isDirectory (parentOf target) = true) (hf : env.fails (.rename source target) 0 = none) :
    ∃ files, rekey v.files (moved source target) = some files ∧
      env.renamed v source target = some { v with files := files } := by
  have hout {q : JsString} (hq : q ∈ Store.keys v.files) : ¬ (q = target ∨ Below slash target q) := by
    have hsome := Store.mem_keys.mp hq
    rintro (rfl | hb)
    · rw [found_iff.mpr (.inr hsome)] at hfree
      simp at hfree
    · rw [found_of_isDirectory (htree.above hsome hb)] at hfree
      simp at hfree
  have hinj : ∀ k ∈ Store.keys v.files, ∀ k' ∈ Store.keys v.files,
      moved source target k = moved source target k' → k = k' := by
    intro k hk k' hk' he
    by_cases hin : k = source ∨ Below slash source k
    · by_cases hin' : k' = source ∨ Below slash source k'
      · obtain ⟨rest, hrest, hto, _⟩ := moved_inside target hs hin
        obtain ⟨rest', hrest', hto', _⟩ := moved_inside target hs hin'
        rw [hto, hto'] at he
        rw [hrest, hrest', List.append_cancel_left he]
      · have hland := moved_lands hs ht hin
        rw [he, moved_outside hin'] at hland
        exact absurd hland (hout hk')
    · by_cases hin' : k' = source ∨ Below slash source k'
      · have hland := moved_lands hs ht hin'
        rw [← he, moved_outside hin] at hland
        exact absurd hland (hout hk)
      · rwa [moved_outside hin, moved_outside hin'] at he
  have hsome := rekey_eq_some_iff.mpr ⟨hinj, rfl⟩
  refine ⟨_, hsome, ?_⟩
  unfold Env.renamed
  rw [if_pos (by simp [hf, hfound, hfree, hparent])]
  rw [show (fun q => if q = source ∨ Below slash source q then rebase source target q else q) =
    moved source target from rfl, hsome]
  rfl

end Renaming

end DurableDav.Dav
