import DurableDav.Dav.Atomicity

namespace DurableDav.Dav

open Library
open Replication (Bytes isValidInnerPath parentOf)

/-! ### What becomes of the source -/

/-- A path and all below it hold what they held. -/
def SubtreeKept (source : JsString) (v v' : Volume) : Prop := ∀ q, q = source ∨ Below slash source q → SameAt q v v'

/-- What stood at a path stands where a rename takes it, with every row of its metadata. -/
structure MovedAt (source target q : JsString) (v v' : Volume) : Prop where
  file : Store.get v'.files (moved source target q) = Store.get v.files q
  node : ∀ row, Store.get v.nodes q = some row → Store.get v'.nodes (moved source target q) = some row
  props : ∀ ns name row, Store.get v.props ⟨q, ns, name⟩ = some row →
    Store.get v'.props ⟨moved source target q, ns, name⟩ = some row

def SubtreeMoved (source target : JsString) (v v' : Volume) : Prop :=
  ∀ q, (Store.get v.files q).isSome → q = source ∨ Below slash source q → MovedAt source target q v v'

/-- A copy leaves its source alone. -/
def CopyKeepsSource (env : Env) (r : Request) (source : JsString) (bases : DavBases) (v : Volume) : Prop :=
  ∃ response s', (env.handleCopy r source bases).run ⟨v, []⟩ = (.ok response, s') ∧ SubtreeKept source v s'.volume

/-- A move leaves everything at the source or takes everything to the destination. -/
def MoveKeepsContent (env : Env) (r : Request) (source : JsString) (bases : DavBases) (v : Volume) : Prop :=
  ∃ response s', (env.handleMove r source bases).run ⟨v, []⟩ = (.ok response, s') ∧
    (SubtreeKept source v s'.volume ∨
      ∃ target, resolveDestination env.platform r bases.pathBase source = some target ∧
        SubtreeMoved source target v s'.volume)

/-- Every row of the subtree is taken along, or a row that says the same stands at the destination. -/
def MetadataFollows (v v₁ : Volume) (source target : JsString) : Prop :=
  ∀ q, (Store.get v.files q).isSome → q = source ∨ Below slash source q →
    (∀ row, Store.get v.nodes q = some row →
      ((v₁.updatePaths source target .davNodes).isSome ∧ subtreePredicate source q) ∨
        Store.get v₁.nodes (moved source target q) = some row) ∧
    (∀ ns name row, Store.get v.props ⟨q, ns, name⟩ = some row →
      (((v₁.updatePaths source target .davNodes).isSome ∧ (v₁.updatePaths source target .davProps).isSome) ∧
          subtreePredicate source q) ∨
        Store.get v₁.props ⟨moved source target q, ns, name⟩ = some row)

namespace Env

variable (env : Env) (v : Volume) (r : Request) (source target : JsString)

/-- The volume after the destination is removed. -/
def withoutDestination : Volume := if (env.sees v target 0).found then v.withoutCollection target else v

def CopyDestroysSource : Prop :=
  env.copyGuard v r source target = none ∧ (env.sees v target 0).found ∧ env.mayRemove v r target 1 ∧
    Below slash target source

def MoveDestroysContent : Prop :=
  env.moveGuard v r source target = none ∧
    (((env.sees v target 0).found ∧ env.mayRemove v r target 1 ∧ Below slash target source) ∨
      (¬ Below slash target source ∧ env.fails (.rename source target) 0 = none ∧
        (if (env.sees v target 0).found then env.mayRemove v r target 1 else v.files.found target = false) ∧
        ¬ MetadataFollows v (env.withoutDestination v target) source target))

end Env

section Apart

variable {env : Env} {v v₁ : Volume} {r : Request} {source target q : JsString} {bases : DavBases}

theorem subtree_apart (ht : Apart source target) (hab : ¬ Below slash target source)
    (hq : q = source ∨ Below slash source q) : ¬ (q = target ∨ Below slash target q) := by
  rintro (rfl | hb)
  · rcases hq with he | hin
    · exact ht.ne he
    · exact ht.outside hin
  · rcases hq with rfl | hin
    · exact hab hb
    · rcases hb.comparable hin with he | hts | hst
      · exact ht.ne he
      · exact hab hts
      · exact ht.outside hst

theorem subtreeKept_refl (source : JsString) (v : Volume) : SubtreeKept source v v := fun q _ => sameAt_refl q v

theorem SubtreeKept.trans {v' v'' : Volume} (h : SubtreeKept source v v') (h' : SubtreeKept source v' v'') :
    SubtreeKept source v v'' := fun q hq => (h q hq).trans (h' q hq)

theorem overwritten_kept (htree : v.files.WellFormed) (ht : Apart source target) (hab : ¬ Below slash target source)
    {destExists : Bool} (h : env.overwritten v r target destExists = .ok v₁) : SubtreeKept source v v₁ :=
  fun _ hq => overwritten_elsewhere htree h (subtree_apart ht hab hq)

/-- A destination above the source takes the source away with it. -/
theorem source_destroyed (hs : source ≠ []) (hfound : v.files.found source = true) (hab : Below slash target source)
    {v' : Volume} (hfiles : Store.get v'.files source = Store.get (v.withoutCollection target).files source) :
    ¬ SubtreeKept source v v' := by
  intro hkept
  have hsome : (Store.get v.files source).isSome := (found_iff.mp hfound).resolve_left hs
  rw [← (hkept source (.inl rfl)).file, hfiles, withoutCollection_get, if_pos (.inr hab)] at hsome
  simp at hsome

/-! ### Copying -/

theorem copies_apart (ht : Apart source target) (hab : ¬ Below slash target source)
    (hnames : ∀ p, (Store.get v₁.files p).isSome → Below slash source p → ∀ name ∈ p.splitOn slash, name ≠ [])
    (hq : q = source ∨ Below slash source q) : ∀ name ∈ env.listed v₁ source, q ≠ Env.copyOf source target name := by
  have hs := ht.source_ne_nil
  intro name hmem he
  unfold Env.listed at hmem
  split at hmem
  · obtain ⟨p, hp, rfl⟩ := List.mem_map.mp hmem
    obtain ⟨hsome, hbelow⟩ := mem_below.mp hp
    obtain ⟨rest, _, hrel, _, hcopy⟩ := child_shape target hs (hnames p hsome hbelow) hbelow
    rw [hrel, hcopy] at he
    have htarget : target ≠ [] := fun hnil => hab (hnil ▸ below_root.mpr hs)
    exact subtree_apart ht hab hq (he ▸ moved_lands hs htarget (.inr hbelow))
  · simp at hmem

theorem targetMade_kept (ht : Apart source target) : SubtreeKept source v (env.targetMade v source target) := by
  intro q hq
  have hne : q ≠ target := by
    rintro rfl
    rcases hq with he | hin
    · exact ht.ne he
    · exact ht.outside hin
  exact (collectionMade_elsewhere hne).trans (copyMeta_elsewhere _ _ hne)

theorem walked_kept (htree : v.files.WellFormed) (ht : Apart source target) (hab : ¬ Below slash target source)
    {destExists : Bool} (h : env.overwritten v r target destExists = .ok v₁) :
    SubtreeKept source v (env.walked bases v₁ source target).1 := by
  apply ((overwritten_kept htree ht hab h).trans (targetMade_kept ht)).trans
  intro q hq
  apply childrenCopied_elsewhere
  apply copies_apart ht hab _ hq
  intro p hp hbelow
  rcases targetMade_entry hp with rfl | hp
  · exact absurd hbelow ht.outside
  · exact (htree p (overwritten_entry htree h hp)).1

/-- How an accepted copy can end. -/
inductive CopyEnds (env : Env) (bases : DavBases) (source target : JsString) (destExists : Bool) (v₁ : Volume) : Volume → Prop
  | stopped : CopyEnds env bases source target destExists v₁ v₁
  | made (h : (env.collectionMade v₁ target 0).isSome ∨ destExists = true) :
      CopyEnds env bases source target destExists v₁ (env.targetMade v₁ source target)
  | walked (h : (env.collectionMade v₁ target 0).isSome ∨ destExists = true) :
      CopyEnds env bases source target destExists v₁ (env.walked bases v₁ source target).1
  | written {v₂ : Volume} (h : env.bytesCopied v₁ source target 0 0 = .ok v₂) :
      CopyEnds env bases source target destExists v₁ (v₂.copyMeta env.now source target false)

theorem handleCopy_ends (h : env.Stores) (htree : v.files.WellFormed)
    (hd : resolveDestination env.platform r bases.pathBase source = some target)
    (hguard : env.copyGuard v r source target = none) :
    ∃ response s', (env.handleCopy r source bases).run ⟨v, []⟩ = (.ok response, s') ∧
      match env.overwritten v r target (env.sees v target 0).found with
      | .error _ => s'.volume = v
      | .ok v₁ => CopyEnds env bases source target (env.sees v target 0).found v₁ s'.volume := by
  have ht := resolveDestination_apart hd
  have hcourse := handleCopy_course (v := v) h hd
  rw [hguard] at hcourse
  obtain ⟨s₁, haccepted, hlist, hrun⟩ := hcourse
  obtain ⟨_, _, hdepth⟩ := copyGuard_none hguard
  cases hdir : (env.sees v source 0).isDirectory with
  | true =>
    rw [hdir] at hrun
    obtain ⟨response, s', hrun', hend⟩ :=
      copyCollection_run bases h htree ht haccepted hlist (hdepth hdir) (env.sees v target 0).found
    refine ⟨response, s', hrun.trans hrun', ?_⟩
    cases ho : env.overwritten v r target (env.sees v target 0).found with
    | error answer =>
      rw [ho] at hend
      exact hend.2
    | ok v₁ =>
      rw [ho] at hend
      dsimp only at hend ⊢
      split at hend
      · rw [hend.2]
        exact .stopped
      · rename_i hgoes
        have hmade : (env.collectionMade v₁ target 0).isSome ∨ (env.sees v target 0).found = true := by
          rcases Bool.eq_false_or_eq_true (env.sees v target 0).found with hseen | hunseen
          · exact .inr hseen
          · rw [hunseen] at hgoes
            left
            cases hc : env.collectionMade v₁ target 0 with
            | none => simp [hc] at hgoes
            | some v₂ => rfl
        split at hend
        · rw [hend.2]
          exact .walked hmade
        · rw [hend.2]
          exact .made hmade
  | false =>
    rw [hdir] at hrun
    obtain ⟨response, s', hrun', hend⟩ :=
      copyFile_run bases (r := r) h haccepted ht.ne (env.sees v target 0).found
    refine ⟨response, s', hrun.trans hrun', ?_⟩
    cases ho : env.overwritten v r target (env.sees v target 0).found with
    | error answer =>
      rw [ho] at hend
      exact hend.2
    | ok v₁ =>
      rw [ho] at hend
      dsimp only at hend ⊢
      cases hc : env.bytesCopied v₁ source target 0 0 with
      | error e =>
        rw [hc] at hend
        rw [hend.2]
        exact .stopped
      | ok v₂ =>
        rw [hc] at hend
        rw [hend.2]
        exact .written hc

theorem copyEnds_kept (htree : v.files.WellFormed) (ht : Apart source target) (hab : ¬ Below slash target source)
    {destExists : Bool} (ho : env.overwritten v r target destExists = .ok v₁) {v' : Volume}
    (h : CopyEnds env bases source target destExists v₁ v') : SubtreeKept source v v' := by
  have hkept := overwritten_kept htree ht hab ho
  cases h with
  | stopped => exact hkept
  | made _ => exact hkept.trans (targetMade_kept ht)
  | walked _ => exact walked_kept htree ht hab ho
  | written hcopied =>
    intro q hq
    have hne : q ≠ target := fun he => subtree_apart ht hab hq (.inl he)
    exact ((hkept q hq).trans (bytesCopied_elsewhere hcopied hne)).trans (copyMeta_elsewhere _ _ hne)

theorem listed_missing (h : v.files.found source = false) : env.listed v source = [] := by
  unfold Env.listed
  rw [if_neg (by simp [h])]

/-- With the source gone, nothing comes back to its place. -/
theorem copyEnds_missing (ht : Apart source target) (hgone : v₁.files.found source = false) {destExists : Bool}
    {v' : Volume} (h : CopyEnds env bases source target destExists v₁ v') :
    Store.get v'.files source = Store.get v₁.files source := by
  have hmade : SameAt source v₁ (env.targetMade v₁ source target) := targetMade_kept ht source (.inl rfl)
  cases h with
  | stopped => rfl
  | made _ => exact hmade.file
  | walked _ =>
    have hmissing : (env.targetMade v₁ source target).files.found source = false := by
      unfold Files.found at hgone ⊢
      rw [hmade.file]
      exact hgone
    unfold Env.walked
    rw [listed_missing hmissing]
    exact hmade.file
  | written hcopied =>
    obtain ⟨data, mtime, hget, _⟩ := bytesCopied_ok hcopied
    rw [found_iff.mpr (.inr (by simp [hget]))] at hgone
    simp at hgone

/-- A copy onto a collection above it that was not seen stops. -/
theorem copyEnds_unseen (htarget : v.files.isDirectory target = true) {v' : Volume}
    (h : CopyEnds env bases source target false v v') : v' = v := by
  have hnone : env.collectionMade v target 0 = none := by
    unfold Env.collectionMade
    rw [if_neg (by simp [found_of_isDirectory htarget])]
  cases h with
  | stopped => rfl
  | made hor => simp [hnone] at hor
  | walked hor => simp [hnone] at hor
  | written hcopied =>
    unfold Env.bytesCopied at hcopied
    split at hcopied
    · simp at hcopied
    · simp at hcopied
    · simp at hcopied
    · split at hcopied
      · simp at hcopied
      · rw [if_pos htarget] at hcopied
        simp at hcopied

theorem handleCopy_keeps_iff (h : env.Stores) (htree : v.files.WellFormed)
    (hd : resolveDestination env.platform r bases.pathBase source = some target) :
    CopyKeepsSource env r source bases v ↔ ¬ env.CopyDestroysSource v r source target := by
  have ht := resolveDestination_apart hd
  have hs := ht.source_ne_nil
  cases hguard : env.copyGuard v r source target with
  | some response =>
    have hcourse := handleCopy_course (v := v) h hd
    rw [hguard] at hcourse
    obtain ⟨s', hrun, hvol⟩ := hcourse
    refine iff_of_true ⟨response, s', hrun, ?_⟩ (fun hdestroys => absurd (hguard.symm.trans hdestroys.1) (by simp))
    rw [hvol]
    exact subtreeKept_refl source v
  | none =>
    obtain ⟨response, s', hrun, hend⟩ := handleCopy_ends h htree hd hguard
    have hfound := (sees_found (copyGuard_none hguard).1).1
    cases ho : env.overwritten v r target (env.sees v target 0).found with
    | error answer =>
      rw [ho] at hend
      refine iff_of_true ⟨response, s', hrun, ?_⟩ (fun hdestroys => ?_)
      · rw [show s'.volume = v from hend]
        exact subtreeKept_refl source v
      · unfold Env.overwritten at ho
        rw [hdestroys.2.1, if_pos rfl, (removal_iff htree).mpr ⟨hdestroys.2.2.1, rfl⟩] at ho
        simp at ho
    | ok v₁ =>
      rw [ho] at hend
      by_cases hab : Below slash target source
      · have hdir := htree.above ((found_iff.mp hfound).resolve_left hs) hab
        obtain ⟨hunseen, rfl⟩ | ⟨hseen, hmay, rfl⟩ := overwritten_seen htree ho
        · rw [hunseen] at hend
          refine iff_of_true ⟨response, s', hrun, ?_⟩ (fun hdestroys => absurd (hunseen.symm.trans hdestroys.2.1) (by simp))
          rw [copyEnds_unseen hdir hend]
          exact subtreeKept_refl source v₁
        · refine iff_of_false ?_ (not_not.mpr ⟨hguard, hseen, hmay, hab⟩)
          rintro ⟨response', s'', hrun', hkept⟩
          rw [hrun] at hrun'
          obtain ⟨rfl, rfl⟩ : response = response' ∧ s' = s'' := by simpa using hrun'
          have hgone : (v.withoutCollection target).files.found source = false := by
            unfold Files.found
            rw [withoutCollection_get, if_pos (.inr hab)]
            simp [hs]
          exact source_destroyed hs hfound hab (copyEnds_missing ht hgone hend) hkept
      · exact iff_of_true ⟨response, s', hrun, copyEnds_kept htree ht hab ho hend⟩ (fun hdestroys => hab hdestroys.2.2.2)

end Apart

/-! ### The rows of a moved subtree -/

section Rows

variable {source target q j : JsString}

theorem substr_of_predicate (hne : q ≠ source) (h : subtreePredicate source q = true) :
    substr q 1 (source.length + 1) = source ++ [slash] := by
  unfold subtreePredicate at h
  exact (of_decide_eq_true h).resolve_left hne

/-- A row whose path counts more characters than the source has code units goes where the files go. -/
theorem predicate_append (hne : q ≠ source) (hend : q ≠ source ++ [slash]) (h : subtreePredicate source q = true) :
    q = source ++ substrFrom q (source.length + 1) := by
  have hsub := substr_of_predicate hne h
  rcases Nat.lt_or_ge source.length (characters q).length with hlong | hshort
  · exact eq_append_substrFrom hsub hlong
  · rw [substr_short hshort] at hsub
    exact absurd hsub hend

theorem repath_source (source target : JsString) : repath source target source = target := by
  unfold repath subtreePredicate
  rw [if_pos (by simp), substrFrom_short (characters_length_le source), List.append_nil]

theorem repath_inside (hs : source ≠ []) (hq : q = source ∨ Below slash source q) (hend : q ≠ source ++ [slash])
    (h : subtreePredicate source q = true) : repath source target q = moved source target q := by
  rcases hq with rfl | hb
  · rw [repath_source]
    unfold moved rebase
    simp
  · have happend := predicate_append hb.ne.symm hend h
    unfold repath moved rebase
    rw [if_pos h, if_pos (.inr hb)]
    congr 1
    conv_rhs => rw [happend]
    simp

/-- A row that the statement misses is not replaced by another. -/
theorem repath_only (hs : source ≠ []) (hq : q = source ∨ Below slash source q)
    (h : subtreePredicate source q = false) (hj : repath source target j = moved source target q) :
    j = moved source target q := by
  rcases hq with rfl | hb
  · simp [subtreePredicate] at h
  · by_cases hp : subtreePredicate source j = true
    · obtain ⟨rest, rfl⟩ := (below_of_ne hs).mp hb
      have hto : moved source target (source ++ slash :: rest) = target ++ slash :: rest := by
        unfold moved rebase
        rw [if_pos (.inr hb)]
        simp
      have hfrom : substrFrom j (source.length + 1) = slash :: rest := by
        unfold repath at hj
        rw [if_pos hp, hto] at hj
        exact List.append_cancel_left hj
      have hne : j ≠ source := by
        rintro rfl
        rw [substrFrom_short (characters_length_le j)] at hfrom
        simp at hfrom
      have hend : j ≠ source ++ [slash] := by
        rintro rfl
        have hsub := substr_of_predicate hne hp
        rcases Nat.lt_or_ge source.length (characters (source ++ [slash])).length with hlong | hshort
        · have happend := eq_append_substrFrom hsub hlong
          rw [hfrom] at happend
          have hrest : rest = [] := by simpa using happend.symm
          rw [hrest, hp] at h
          simp at h
        · rw [substrFrom_short hshort] at hfrom
          simp at hfrom
      rw [predicate_append hne hend hp, hfrom, h] at hp
      simp at hp
    · unfold repath at hj
      rwa [if_neg hp] at hj

variable (target) in
theorem repath_outside (hs : source ≠ []) (hq : ¬ (q = source ∨ Below slash source q)) : repath source target q = q := by
  unfold repath
  rw [if_neg]
  exact fun hp => hq (subtreePredicate_inside hs hp)

/-- What a table holds at the new place of a row, once its keys were replaced or stayed. -/
theorem rekeyed_row {κ α : Type} [DecidableEq κ] {s : Store κ α} {f : κ → κ} {k k' : κ} {row : α} {P : Prop}
    (hmoves : P → f k = k') (honly : ¬ P → ∀ j, f j = k' → j = k') (hstays : f k' = k') (hrow : Store.get s k = some row) :
    Store.get ((rekey s f).getD s) k' = some row ↔ ((rekey s f).isSome ∧ P) ∨ Store.get s k' = some row := by
  cases hs : rekey s f with
  | none => simp
  | some s' =>
    simp only [Option.getD_some, Option.isSome_some, true_and]
    have hkey {j : κ} {row : α} (hj : Store.get s j = some row) : j ∈ Store.keys s := Store.mem_keys.mpr (by simp [hj])
    by_cases hp : P
    · rw [← hmoves hp, rekey_get hs (hkey hrow)]
      simp [hp, hrow]
    · simp only [hp, false_or]
      by_cases hmem : k' ∈ Store.keys s
      · have hget := rekey_get hs hmem
        rw [hstays] at hget
        rw [hget]
      · have hnone : Store.get s' k' = none := rekey_get_none hs (fun j hj he => hmem (honly hp j he ▸ hj))
        rw [hnone, Store.get_eq_none_iff.mpr hmem]

end Rows

section Tables

variable {v : Volume} {source target : JsString}

/-- The statements run up to the first that meets a row in the way. -/
theorem renameTables_eq (v : Volume) (source target : JsString) :
    v.renameTables source target renameCascadeTables = { v with
      nodes := (rekey v.nodes (repath source target)).getD v.nodes
      props := if (rekey v.nodes (repath source target)).isSome then
        (rekey v.props (fun k => { k with path := repath source target k.path })).getD v.props else v.props
      replicaState := if (rekey v.nodes (repath source target)).isSome ∧
          (rekey v.props (fun k => { k with path := repath source target k.path })).isSome then
        (rekey v.replicaState (fun k => { k with path := repath source target k.path })).getD v.replicaState
      else v.replicaState } := by
  simp only [renameCascadeTables, Volume.renameTables, Volume.updatePaths]
  cases rekey v.nodes (repath source target) with
  | none => simp
  | some nodes =>
    dsimp only [Option.map_some]
    cases rekey v.props (fun k => { k with path := repath source target k.path }) with
    | none => simp
    | some props =>
      dsimp only [Option.map_some]
      cases rekey v.replicaState (fun k => { k with path := repath source target k.path }) <;> simp

theorem renamed_some {env : Env} {v₂ : Volume} (h : env.renamed v source target = some v₂) :
    env.fails (.rename source target) 0 = none ∧ v.files.found source = true ∧ v.files.found target = false ∧
      ∃ files, rekey v.files (moved source target) = some files ∧ v₂ = { v with files := files } := by
  unfold Env.renamed at h
  split at h
  · rename_i hcond
    obtain ⟨hf, hsource, htarget, _⟩ := hcond
    obtain ⟨files, hfiles, he⟩ := Option.map_eq_some_iff.mp h
    exact ⟨hf, hsource, by simpa using htarget, files, hfiles, he.symm⟩
  · simp at h

theorem named_ne {q p : JsString} (h : ∀ name ∈ q.splitOn slash, name ≠ []) : q ≠ p ++ [slash] := by
  rintro rfl
  apply h [] _ rfl
  rw [show p ++ [slash] = p ++ slash :: [] from rfl, List.splitOn_append_cons_self]
  simp

theorem subtreeMoved_iff {v₁ : Volume} {files : Files} (htree : v.files.WellFormed) (ht : Apart source target)
    (hab : ¬ Below slash target source) (hkept : SubtreeKept source v v₁)
    (hfiles : rekey v₁.files (moved source target) = some files) :
    SubtreeMoved source target v (Volume.renameTables { v₁ with files := files } source target renameCascadeTables) ↔
      MetadataFollows v v₁ source target := by
  have hs := ht.source_ne_nil
  have htarget : target ≠ [] := fun hnil => hab (hnil ▸ below_root.mpr hs)
  rw [renameTables_eq]
  apply forall_congr'
  intro q
  apply imp_congr_right
  intro hsome
  apply imp_congr_right
  intro hq
  have hsame := hkept q hq
  have hend := named_ne (p := source) (htree q hsome).1
  have hland : ¬ (moved source target q = source ∨ Below slash source (moved source target q)) := by
    intro hin
    exact subtree_apart ht hab hin (moved_lands hs htarget hq)
  have hstays := repath_outside target hs hland
  have hfile : Store.get files (moved source target q) = Store.get v.files q := by
    rw [rekey_get hfiles (Store.mem_keys.mpr (by rw [hsame.file]; exact hsome)), hsame.file]
  have hnode (row : NodeRow) (hrow : Store.get v.nodes q = some row) :
      Store.get ((rekey v₁.nodes (repath source target)).getD v₁.nodes) (moved source target q) = some row ↔
        ((v₁.updatePaths source target .davNodes).isSome ∧ subtreePredicate source q) ∨
          Store.get v₁.nodes (moved source target q) = some row := by
    rw [show (v₁.updatePaths source target .davNodes).isSome = (rekey v₁.nodes (repath source target)).isSome from
      Option.isSome_map]
    apply rekeyed_row (repath_inside hs hq hend) _ hstays (hsame.node.trans hrow)
    exact fun hp j hj => repath_only hs hq (by simpa using hp) hj
  have hprop (ns name : JsString) (row : PropRow) (hrow : Store.get v.props ⟨q, ns, name⟩ = some row) :
      Store.get (if (rekey v₁.nodes (repath source target)).isSome then
          (rekey v₁.props (fun k => { k with path := repath source target k.path })).getD v₁.props else v₁.props)
        ⟨moved source target q, ns, name⟩ = some row ↔
      (((v₁.updatePaths source target .davNodes).isSome ∧ (v₁.updatePaths source target .davProps).isSome) ∧
          subtreePredicate source q) ∨ Store.get v₁.props ⟨moved source target q, ns, name⟩ = some row := by
    rw [show (v₁.updatePaths source target .davNodes).isSome = (rekey v₁.nodes (repath source target)).isSome from
      Option.isSome_map, show (v₁.updatePaths source target .davProps).isSome =
      (rekey v₁.props (fun k => { k with path := repath source target k.path })).isSome from Option.isSome_map]
    cases hn : (rekey v₁.nodes (repath source target)).isSome with
    | false => simp
    | true =>
      simp only [↓reduceIte, true_and]
      apply rekeyed_row _ _ _ ((hsame.props ns name).trans hrow)
      · exact fun hp => by rw [repath_inside hs hq hend hp]
      · intro hp j hj
        obtain ⟨hpath, hns, hname⟩ : repath source target j.path = moved source target q ∧ j.namespaceURI = ns ∧
            j.localName = name := by simpa using hj
        rw [← repath_only hs hq (by simpa using hp) hpath, ← hns, ← hname]
      · rw [hstays]
  constructor
  · intro hmoved
    exact ⟨fun row hrow => (hnode row hrow).mp (hmoved.node row hrow),
      fun ns name row hrow => (hprop ns name row hrow).mp (hmoved.props ns name row hrow)⟩
  · intro hfollows
    exact ⟨hfile, fun row hrow => (hnode row hrow).mpr (hfollows.1 row hrow),
      fun ns name row hrow => (hprop ns name row hrow).mpr (hfollows.2 ns name row hrow)⟩

end Tables

/-! ### Moving -/

section Moving

variable {env : Env} {v : Volume} {r : Request} {source target : JsString} {bases : DavBases}

theorem source_vacated {v₁ : Volume} {files : Files} (ht : Apart source target) (hab : ¬ Below slash target source)
    (hfiles : rekey v₁.files (moved source target) = some files) : Store.get files source = none := by
  have hs := ht.source_ne_nil
  have htarget : target ≠ [] := fun hnil => hab (hnil ▸ below_root.mpr hs)
  apply rekey_get_none hfiles
  intro k _ hk
  by_cases hin : k = source ∨ Below slash source k
  · exact subtree_apart ht hab (.inl rfl) (hk ▸ moved_lands hs htarget hin)
  · rw [moved_outside hin] at hk
    exact hin (.inl hk)

theorem handleMove_keeps_iff (h : env.Stores) (htree : v.files.WellFormed)
    (hd : resolveDestination env.platform r bases.pathBase source = some target) :
    MoveKeepsContent env r source bases v ↔ ¬ env.MoveDestroysContent v r source target := by
  have ht := resolveDestination_apart hd
  have hs := ht.source_ne_nil
  have hcourse := handleMove_course (v := v) h hd
  have kept {response : Response} {s' : Session} (hrun : (env.handleMove r source bases).run ⟨v, []⟩ = (.ok response, s'))
      (hkept : SubtreeKept source v s'.volume) : MoveKeepsContent env r source bases v := ⟨response, s', hrun, .inl hkept⟩
  cases hguard : env.moveGuard v r source target with
  | some response =>
    rw [hguard] at hcourse
    obtain ⟨s', hrun, hvol⟩ := hcourse
    refine iff_of_true (kept hrun ?_) (fun hdestroys => absurd (hguard.symm.trans hdestroys.1) (by simp))
    rw [hvol]
    exact subtreeKept_refl source v
  | none =>
    rw [hguard] at hcourse
    obtain ⟨s₁, haccepted, hrun⟩ := hcourse
    obtain ⟨hfound, horphan⟩ := moveGuard_none hguard
    obtain ⟨hin, -⟩ := sees_found hfound
    have hsome : (Store.get v.files source).isSome := (found_iff.mp hin).resolve_left hs
    obtain ⟨response, s', hrun', hend⟩ := moveOver_run bases (r := r) h haccepted ht.ne
      (env.sees v source 0).isDirectory (env.sees v target 0).found
    have hrun := hrun.trans hrun'
    have only {response' : Response} {s'' : Session}
        (hrun'' : (env.handleMove r source bases).run ⟨v, []⟩ = (.ok response', s'')) : s' = s'' := by
      rw [hrun] at hrun''
      exact (Prod.mk.inj hrun'').2
    cases ho : env.overwritten v r target (env.sees v target 0).found with
    | error answer =>
      rw [ho] at hend
      have hrefused : (env.sees v target 0).found = true ∧ ¬ env.mayRemove v r target 1 := by
        unfold Env.overwritten at ho
        split at ho
        · rename_i hseen
          refine ⟨hseen, fun hmay => ?_⟩
          rw [(removal_iff htree).mpr ⟨hmay, rfl⟩] at ho
          simp at ho
        · simp at ho
      refine iff_of_true (kept hrun ?_) ?_
      · rw [hend.2]
        exact subtreeKept_refl source v
      · rintro ⟨_, ⟨_, hmay, _⟩ | ⟨_, _, hmay, _⟩⟩
        · exact hrefused.2 hmay
        · rw [if_pos hrefused.1] at hmay
          exact hrefused.2 hmay
    | ok v₁ =>
      rw [ho] at hend
      dsimp only at hend
      cases hr : env.renamed v₁ source target with
      | none =>
        rw [hr] at hend
        obtain ⟨hunseen, rfl⟩ | ⟨hseen, hmay, rfl⟩ := overwritten_seen htree ho
        · refine iff_of_true (kept hrun ?_) ?_
          · rw [hend.2]
            exact subtreeKept_refl source v₁
          · rintro ⟨_, ⟨hseen, _⟩ | ⟨hab, hf, hfree, _⟩⟩
            · rw [hunseen] at hseen
              simp at hseen
            · rw [if_neg (by simp [hunseen])] at hfree
              have htarget : target ≠ [] := fun hnil => hab (hnil ▸ below_root.mpr hs)
              obtain ⟨_, _, hsome'⟩ := renamed_eq_some env htree hs htarget hin hfree (parent_isDirectory horphan) hf
              rw [hr] at hsome'
              simp at hsome'
        · have hgone := (renamed_gone env htree hmay.1 ht.ne hs hin (parent_isDirectory horphan)).mp hr
          by_cases hab : Below slash target source
          · refine iff_of_false ?_ (not_not.mpr ⟨hguard, .inl ⟨hseen, hmay, hab⟩⟩)
            rintro ⟨response', s'', hrun'', hkept | ⟨target', hd', hmoved⟩⟩
            · obtain rfl := only hrun''
              rw [hend.2] at hkept
              exact source_destroyed hs hin hab rfl hkept
            · obtain rfl := only hrun''
              obtain rfl : target = target' := Option.some_inj.mp (hd.symm.trans hd')
              have hfile := (hmoved source hsome (.inl rfl)).file
              have hto : moved source target source = target := by
                unfold moved rebase
                simp
              rw [hto, hend.2, withoutCollection_get, if_pos (.inl rfl)] at hfile
              rw [← hfile] at hsome
              simp at hsome
          · refine iff_of_true (kept hrun ?_) ?_
            · rw [hend.2]
              exact overwritten_kept htree ht hab ho
            · rintro ⟨_, ⟨_, _, hb⟩ | ⟨_, hf, _, _⟩⟩
              · exact hab hb
              · rcases hgone with hfails | hb
                · exact hfails hf
                · exact hab hb
      | some v₂ =>
        rw [hr] at hend
        obtain ⟨hf, hsource, hfree, files, hfiles, rfl⟩ := renamed_some hr
        have hremoved : env.withoutDestination v target = v₁ ∧
            (if (env.sees v target 0).found then env.mayRemove v r target 1 else v.files.found target = false) := by
          unfold Env.withoutDestination
          obtain ⟨hunseen, rfl⟩ | ⟨hseen, hmay, rfl⟩ := overwritten_seen htree ho
          · rw [if_neg (by simp [hunseen]), if_neg (by simp [hunseen])]
            exact ⟨rfl, hfree⟩
          · rw [if_pos hseen, if_pos hseen]
            exact ⟨rfl, hmay⟩
        have hab : ¬ Below slash target source := by
          intro hab
          have htree₁ : v₁.files.WellFormed := by
            obtain ⟨_, rfl⟩ | ⟨_, _, rfl⟩ := overwritten_seen htree ho
            · exact htree
            · exact withoutCollection_wellFormed htree
          have hdir := htree₁.above ((found_iff.mp hsource).resolve_left hs) hab
          rw [found_of_isDirectory hdir] at hfree
          simp at hfree
        have hiff := subtreeMoved_iff htree ht hab (overwritten_kept htree ht hab ho) hfiles
        rw [← hend.2] at hiff
        constructor
        · rintro ⟨response', s'', hrun'', hkept | ⟨target', hd', hmoved⟩⟩
          · obtain rfl := only hrun''
            have hfile := (hkept source (.inl rfl)).file
            rw [hend.2, renameTables_eq] at hfile
            rw [← hfile, source_vacated ht hab hfiles] at hsome
            simp at hsome
          · obtain rfl := only hrun''
            obtain rfl : target = target' := Option.some_inj.mp (hd.symm.trans hd')
            rintro ⟨_, ⟨_, _, hb⟩ | ⟨_, _, _, hnot⟩⟩
            · exact hab hb
            · rw [hremoved.1] at hnot
              exact hnot (hiff.mp hmoved)
        · intro hkeeps
          refine ⟨response, s', hrun, .inr ⟨target, hd, hiff.mpr ?_⟩⟩
          by_contra hnot
          apply hkeeps
          refine ⟨hguard, .inr ⟨hab, hf, hremoved.2, ?_⟩⟩
          rw [hremoved.1]
          exact hnot

/-- COPY and MOVE keep what they are given, unless the destination they remove lies above it or its metadata stays behind. -/
theorem copyMove_keeps_iff (h : env.Stores) (htree : v.files.WellFormed) :
    (CopyKeepsSource env r source bases v ↔
      ∀ target, resolveDestination env.platform r bases.pathBase source = some target →
        ¬ env.CopyDestroysSource v r source target) ∧
    (MoveKeepsContent env r source bases v ↔
      ∀ target, resolveDestination env.platform r bases.pathBase source = some target →
        ¬ env.MoveDestroysContent v r source target) := by
  cases hd : resolveDestination env.platform r bases.pathBase source with
  | none =>
    have hcopy : (env.handleCopy r source bases).run ⟨v, []⟩ = (.ok .badRequest, ⟨v, []⟩) := by
      unfold Env.handleCopy
      rw [hd]
      rfl
    have hmove : (env.handleMove r source bases).run ⟨v, []⟩ = (.ok .badRequest, ⟨v, []⟩) := by
      unfold Env.handleMove
      rw [hd]
      rfl
    exact ⟨iff_of_true ⟨_, _, hcopy, subtreeKept_refl source v⟩ (by simp),
      iff_of_true ⟨_, _, hmove, .inl (subtreeKept_refl source v)⟩ (by simp)⟩
  | some target =>
    simp only [Option.some.injEq, forall_eq']
    exact ⟨handleCopy_keeps_iff h htree hd, handleMove_keeps_iff h htree hd⟩

end Moving

/-! ### A collection replaced by one of its members -/

def calmEnv : Env where
  platform := plainPlatform
  now := 9
  fails := fun _ _ => none

def nestedVolume : Volume where
  files := [(js "a", ⟨none, 1⟩), (js "a/b", ⟨some [1], 2⟩)]
  nodes := []
  props := []
  locks := []
  replicaState := []

def ontoParent : Request where
  url := js "http://h/o/v/a/b"
  destination := some (js "/o/v/a")
  depth := none
  overwrite := none
  ifHeader := none
  lockToken := none

theorem onto_parent_destroys : ¬ CopyKeepsSource calmEnv ontoParent (js "a/b") plainBases nestedVolume ∧
    ¬ MoveKeepsContent calmEnv ontoParent (js "a/b") plainBases nestedVolume := by
  have hcopy : ((calmEnv.handleCopy ontoParent (js "a/b") plainBases).run ⟨nestedVolume, []⟩).2.volume.files = [] := by decide
  have hmove : ((calmEnv.handleMove ontoParent (js "a/b") plainBases).run ⟨nestedVolume, []⟩).2.volume.files = [] := by decide
  have hsource : Store.get nestedVolume.files (js "a/b") = some ⟨some [1], 2⟩ := by decide
  constructor
  · rintro ⟨response, s', hrun, hkept⟩
    rw [hrun] at hcopy
    have hfile := (hkept (js "a/b") (.inl rfl)).file
    rw [show s'.volume.files = [] from hcopy, hsource] at hfile
    simp at hfile
  · rintro ⟨response, s', hrun, hkept | ⟨target, _, hmoved⟩⟩
    · rw [hrun] at hmove
      have hfile := (hkept (js "a/b") (.inl rfl)).file
      rw [show s'.volume.files = [] from hmove, hsource] at hfile
      simp at hfile
    · rw [hrun] at hmove
      have hfile := (hmoved (js "a/b") (by rw [hsource]; rfl) (.inl rfl)).file
      rw [show s'.volume.files = [] from hmove, hsource] at hfile
      simp at hfile

/-- Two files, of which the first has metadata. -/
def describedFiles : Volume := { twoFiles with nodes := [(js "a", ⟨false, none, some (js "e"), 1, 1, false⟩)] }

theorem described_moves : MoveKeepsContent calmEnv overRequest (js "a") plainBases describedFiles := by
  have htree : describedFiles.files.WellFormed := wellFormed_of_keys (by decide)
  apply (copyMove_keeps_iff (fun st n => rfl) htree).2.mpr
  intro target hd hdestroys
  have hresolved : resolveDestination calmEnv.platform overRequest plainBases.pathBase (js "a") = some (js "b") := by decide
  obtain rfl : js "b" = target := Option.some_inj.mp (hresolved.symm.trans hd)
  rcases hdestroys.2 with ⟨_, _, hb⟩ | ⟨_, _, _, hnot⟩
  · exact absurd hb (by decide)
  · apply hnot
    intro q hsome hq
    have hkey : q ∈ [js "a", js "b"] := Store.mem_keys.mpr hsome
    have hqa : q = js "a" := by
      rcases List.mem_cons.mp hkey with rfl | hmem
      · rfl
      · obtain rfl := List.mem_singleton.mp hmem
        exact absurd hq (by decide)
    subst hqa
    exact ⟨fun row _ => .inl (by decide), fun ns name row hrow => by simp [describedFiles, twoFiles] at hrow⟩

end DurableDav.Dav
