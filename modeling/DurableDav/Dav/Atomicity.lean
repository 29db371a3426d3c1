import DurableDav.Dav.CopyWalk

namespace DurableDav.Dav

open Library
open Replication (Bytes isValidInnerPath parentOf)

/-! ### An error answer changes nothing -/

/-- The file tree, the metadata and the locks are the same. -/
def SameContents (v v' : Volume) : Prop :=
  v'.files = v.files ∧ v'.nodes = v.nodes ∧ v'.props = v.props ∧ v'.locks = v.locks

/-- Where the answer is an error, the volume is as it was. -/
def Atomic (handler : Serve Response) (v : Volume) : Prop :=
  ∃ response s', handler.run ⟨v, []⟩ = (.ok response, s') ∧ (400 ≤ response.status → SameContents v s'.volume)

theorem sameContents_refl (v : Volume) : SameContents v v := ⟨rfl, rfl, rfl, rfl⟩

namespace Env

variable (env : Env) (v : Volume) (r : Request) (source target : JsString)

/-- An accepted copy of a file removes its destination and then cannot write it. -/
def CopyLosesTarget : Prop :=
  env.copyGuard v r source target = none ∧ v.files.isDirectory source = false ∧ (env.sees v target 0).found ∧
    env.mayRemove v r target 1 ∧
    (env.fails (.read source) 0 ≠ none ∨ env.fails (.writeFile target) 0 ≠ none ∨ Below slash target source)

/-- An accepted move removes its destination and then cannot rename. -/
def MoveLosesTarget : Prop :=
  env.moveGuard v r source target = none ∧ (env.sees v target 0).found ∧ env.mayRemove v r target 1 ∧
    (env.fails (.rename source target) 0 ≠ none ∨ Below slash target source)

end Env

section Guards

variable {env : Env} {v : Volume} {r : Request} {source target : JsString}

theorem copyGuard_none (h : env.copyGuard v r source target = none) :
    (env.sees v source 0).found = true ∧ env.isOrphan v target = false ∧
      ((env.sees v source 0).isDirectory = true → Env.isCopyDepth r = true) := by
  unfold Env.copyGuard at h
  split at h
  · simp at h
  · split at h
    · simp at h
    · rename_i hfound
      split at h
      · simp at h
      · rename_i ho
        split at h
        · simp at h
        · split at h
          · simp at h
          · rename_i hdepth
            refine ⟨by simpa using hfound, by simpa using ho, fun hdir => ?_⟩
            simpa [hdir] using hdepth

theorem moveGuard_none (h : env.moveGuard v r source target = none) :
    (env.sees v source 0).found = true ∧ env.isOrphan v target = false := by
  unfold Env.moveGuard at h
  split at h
  · simp at h
  · split at h
    · simp at h
    · split at h
      · simp at h
      · rename_i hfound
        split at h
        · simp at h
        · split at h
          · simp at h
          · split at h
            · simp at h
            · rename_i ho
              exact ⟨by simpa using hfound, by simpa using ho⟩

/-! ### After the destination is removed -/

theorem file_entry (hs : source ≠ []) (hfound : v.files.found source = true) (hfile : v.files.isDirectory source = false) :
    ∃ data mtime, Store.get v.files source = some ⟨some data, mtime⟩ := by
  rcases found_iff.mp hfound with hroot | hsome
  · exact absurd hroot hs
  · obtain ⟨⟨bytes, mtime⟩, hget⟩ := Option.isSome_iff_exists.mp hsome
    cases bytes with
    | some data => exact ⟨data, mtime, hget⟩
    | none =>
      rw [isDirectory_iff.mpr (.inr ⟨_, hget, rfl⟩)] at hfile
      simp at hfile

theorem parent_stays (ht : target ≠ []) (hparent : v.files.isDirectory (parentOf target) = true) :
    (v.withoutCollection target).files.isDirectory (parentOf target) = true := by
  apply withoutCollection_keeps_directory hparent
  rintro (he | hb)
  · exact parent_ne_self ht he
  · exact hb.asymm (below_parentSegments hb.ne_nil)

theorem target_gone (target : JsString) (ht : target ≠ []) : (v.withoutCollection target).files.found target = false := by
  by_contra hfound
  rcases found_iff.mp (by simpa using hfound) with hroot | hsome
  · exact ht hroot
  · rw [withoutCollection_get, if_pos (.inl rfl)] at hsome
    simp at hsome

theorem not_directory_of_not_found {f : Files} {q : JsString} (h : f.found q = false) : f.isDirectory q = false := by
  by_contra hdir
  rw [found_of_isDirectory (by simpa using hdir)] at h
  simp at h

variable (env) in
theorem bytesCopied_gone (ht : target ≠ []) (hne : target ≠ source) (hs : source ≠ [])
    (hfound : v.files.found source = true) (hfile : v.files.isDirectory source = false)
    (hparent : v.files.isDirectory (parentOf target) = true) :
    (∃ e, env.bytesCopied (v.withoutCollection target) source target 0 0 = .error e) ↔
      (env.fails (.read source) 0 ≠ none ∨ env.fails (.writeFile target) 0 ≠ none ∨ Below slash target source) := by
  obtain ⟨data, mtime, hget⟩ := file_entry hs hfound hfile
  have hfree := not_directory_of_not_found (target_gone (v := v) target ht)
  have hstays := parent_stays ht hparent
  unfold Env.bytesCopied
  cases hr : env.fails (.read source) 0 with
  | some e => simp
  | none =>
    by_cases hb : Below slash target source
    · rw [withoutCollection_get, if_pos (.inr hb)]
      simp [hb]
    · rw [withoutCollection_get, if_neg (by rintro (he | hb'); exacts [hne he.symm, hb hb']), hget]
      cases hw : env.fails (.writeFile target) 0 with
      | some e => simp
      | none => simp [hfree, hstays, hb]

variable (env) in
theorem renamed_gone (htree : v.files.WellFormed) (ht : target ≠ []) (hne : target ≠ source) (hs : source ≠ [])
    (hfound : v.files.found source = true) (hparent : v.files.isDirectory (parentOf target) = true) :
    env.renamed (v.withoutCollection target) source target = none ↔
      (env.fails (.rename source target) 0 ≠ none ∨ Below slash target source) := by
  have hstays := parent_stays ht hparent
  have hfree := target_gone (v := v) target ht
  have hsource : (v.withoutCollection target).files.found source = true ↔ ¬ Below slash target source := by
    rw [found_iff, withoutCollection_get]
    by_cases hb : Below slash target source
    · simp [hs, hb]
    · have hsome : (Store.get v.files source).isSome := (found_iff.mp hfound).resolve_left hs
      simp [hb, hne.symm, hsome]
  constructor
  · intro hnone
    by_contra hok
    simp only [not_or, ne_eq, not_not] at hok
    obtain ⟨files, _, hsome⟩ := renamed_eq_some env (withoutCollection_wellFormed htree) hs ht
      (hsource.mpr hok.2) hfree hstays hok.1
    rw [hnone] at hsome
    simp at hsome
  · intro hor
    unfold Env.renamed
    rw [if_neg]
    rintro ⟨hf, hin, -⟩
    rcases hor with hfails | hb
    · exact hfails hf
    · exact hsource.mp hin hb

theorem removed_differs (ht : target ≠ []) (hfound : v.files.found target = true) {v' : Volume}
    (hfiles : v'.files = (v.withoutCollection target).files) : ¬ SameContents v v' := by
  rintro ⟨hsame, -⟩
  have hgone := target_gone (v := v) target ht
  rw [← hfiles, hsame, hfound] at hgone
  simp at hgone

end Guards

/-! ### Exactly when -/

section Atomic

variable {env : Env} {v : Volume} {r : Request} {source target : JsString} {bases : DavBases}

theorem unchanged {handler : Serve Response} {response : Response} {s' : Session}
    (hrun : handler.run ⟨v, []⟩ = (.ok response, s')) (hvol : s'.volume = v) : Atomic handler v := by
  refine ⟨response, s', hrun, fun _ => ?_⟩
  rw [hvol]
  exact sameContents_refl v

variable (env) in
theorem doneResponse_status (bases : DavBases) (target : JsString) (isCollection destExists : Bool) :
    (env.doneResponse bases target isCollection destExists).status < 400 := by
  cases destExists with
  | false => exact (by decide : 201 < 400)
  | true => exact (by decide : 204 < 400)

variable (env) in
theorem walkResponse_status (bases : DavBases) (target : JsString) (destExists : Bool)
    (failures : List MultiStatusFailure) : (env.walkResponse bases target destExists failures).status < 400 := by
  unfold Env.walkResponse
  split
  · exact doneResponse_status env bases target true destExists
  · exact (by decide : 207 < 400)

theorem copyFailed_status (e : Failure) : 400 ≤ (Env.copyFailed e).status := by
  unfold Env.copyFailed
  split <;> decide

/-- The volume an accepted request goes on with, where the destination was seen. -/
theorem overwritten_seen (htree : v.files.WellFormed) {destExists : Bool} {v₁ : Volume}
    (h : env.overwritten v r target destExists = .ok v₁) :
    (destExists = false ∧ v₁ = v) ∨
      (destExists = true ∧ env.mayRemove v r target 1 ∧ v₁ = v.withoutCollection target) := by
  unfold Env.overwritten at h
  cases destExists with
  | false => exact .inl ⟨rfl, by simpa using h.symm⟩
  | true => exact .inr ⟨rfl, (removal_iff htree).mp h⟩

theorem handleCopy_atomic_iff (h : env.Stores) (htree : v.files.WellFormed)
    (hd : resolveDestination env.platform r bases.pathBase source = some target) :
    Atomic (env.handleCopy r source bases) v ↔ ¬ env.CopyLosesTarget v r source target := by
  have ht := resolveDestination_apart hd
  have hs := ht.source_ne_nil
  have hcourse := handleCopy_course (v := v) h hd
  cases hguard : env.copyGuard v r source target with
  | some response =>
    rw [hguard] at hcourse
    obtain ⟨s', hrun, hvol⟩ := hcourse
    exact ⟨fun _ hloses => absurd (hguard.symm.trans hloses.1) (by simp), fun _ => unchanged hrun hvol⟩
  | none =>
    rw [hguard] at hcourse
    obtain ⟨s₁, haccepted, hlist, hrun⟩ := hcourse
    obtain ⟨hfound, horphan, hdepth⟩ := copyGuard_none hguard
    obtain ⟨hin, hkind⟩ := sees_found hfound
    cases hdir : (env.sees v source 0).isDirectory with
    | true =>
      rw [hdir] at hrun hkind
      obtain ⟨response, s', hrun', hend⟩ :=
        copyCollection_run bases h htree ht haccepted hlist (hdepth hdir) (env.sees v target 0).found
      refine iff_of_true ?_ (fun hloses => absurd (hkind.trans hloses.2.1) (by simp))
      cases ho : env.overwritten v r target (env.sees v target 0).found with
      | error answer =>
        rw [ho] at hend
        exact unchanged (hrun.trans hrun') hend.2
      | ok v₁ =>
        rw [ho] at hend
        dsimp only at hend
        split at hend
        · -- nothing was there to be removed
          rename_i hno
          obtain ⟨hunseen, rfl⟩ | ⟨hseen, -⟩ := overwritten_seen htree ho
          · exact unchanged (hrun.trans hrun') hend.2
          · rw [hseen] at hno
            simp at hno
        · refine ⟨response, s', hrun.trans hrun', fun hstatus => ?_⟩
          have hlow : response.status < 400 := by
            split at hend
            · rw [hend.1]
              exact walkResponse_status env _ _ _ _
            · rw [hend.1]
              exact doneResponse_status env _ _ _ _
          omega
    | false =>
      rw [hdir] at hrun hkind
      obtain ⟨response, s', hrun', hend⟩ :=
        copyFile_run bases (r := r) h haccepted ht.ne (env.sees v target 0).found
      have hrun := hrun.trans hrun'
      cases ho : env.overwritten v r target (env.sees v target 0).found with
      | error answer =>
        rw [ho] at hend
        refine iff_of_true (unchanged hrun hend.2) (fun hloses => ?_)
        unfold Env.overwritten at ho
        rw [hloses.2.2.1, if_pos rfl, (removal_iff htree).mpr ⟨hloses.2.2.2.1, rfl⟩] at ho
        simp at ho
      | ok v₁ =>
        rw [ho] at hend
        dsimp only at hend
        obtain ⟨hunseen, rfl⟩ | ⟨hseen, hmay, rfl⟩ := overwritten_seen htree ho
        · refine iff_of_true ?_ (fun hloses => absurd (hunseen.symm.trans hloses.2.2.1) (by simp))
          cases hc : env.bytesCopied v₁ source target 0 0 with
          | error e =>
            rw [hc] at hend
            exact unchanged hrun hend.2
          | ok v₂ =>
            rw [hc] at hend
            refine ⟨response, s', hrun, fun hstatus => ?_⟩
            have hlow := doneResponse_status env bases target false (env.sees v₁ target 0).found
            rw [← hend.1] at hlow
            omega
        · have hgone := bytesCopied_gone env hmay.1 ht.ne hs hin hkind.symm (parent_isDirectory horphan)
          cases hc : env.bytesCopied (v.withoutCollection target) source target 0 0 with
          | error e =>
            rw [hc] at hend
            refine iff_of_false ?_ (not_not.mpr ⟨hguard, hkind.symm, hseen, hmay, hgone.mp ⟨e, hc⟩⟩)
            rintro ⟨response', s'', hrun'', hsame⟩
            rw [hrun] at hrun''
            obtain ⟨rfl, rfl⟩ : response = response' ∧ s' = s'' := by simpa using hrun''
            rw [hend.1, hend.2] at hsame
            exact removed_differs hmay.1 (sees_found hseen).1 rfl (hsame (copyFailed_status e))
          | ok v₂ =>
            rw [hc] at hend
            refine iff_of_true ⟨response, s', hrun, fun hstatus => ?_⟩ (fun hloses => ?_)
            · have hlow := doneResponse_status env bases target false (env.sees v target 0).found
              rw [← hend.1] at hlow
              omega
            · obtain ⟨e, he⟩ := hgone.mpr hloses.2.2.2.2
              rw [hc] at he
              simp at he

theorem handleMove_atomic_iff (h : env.Stores) (htree : v.files.WellFormed)
    (hd : resolveDestination env.platform r bases.pathBase source = some target) :
    Atomic (env.handleMove r source bases) v ↔ ¬ env.MoveLosesTarget v r source target := by
  have ht := resolveDestination_apart hd
  have hs := ht.source_ne_nil
  have hcourse := handleMove_course (v := v) h hd
  cases hguard : env.moveGuard v r source target with
  | some response =>
    rw [hguard] at hcourse
    obtain ⟨s', hrun, hvol⟩ := hcourse
    exact ⟨fun _ hloses => absurd (hguard.symm.trans hloses.1) (by simp), fun _ => unchanged hrun hvol⟩
  | none =>
    rw [hguard] at hcourse
    obtain ⟨s₁, haccepted, hrun⟩ := hcourse
    obtain ⟨hfound, horphan⟩ := moveGuard_none hguard
    obtain ⟨hin, -⟩ := sees_found hfound
    obtain ⟨response, s', hrun', hend⟩ := moveOver_run bases (r := r) h haccepted ht.ne
      (env.sees v source 0).isDirectory (env.sees v target 0).found
    have hrun := hrun.trans hrun'
    cases ho : env.overwritten v r target (env.sees v target 0).found with
    | error answer =>
      rw [ho] at hend
      refine iff_of_true (unchanged hrun hend.2) (fun hloses => ?_)
      unfold Env.overwritten at ho
      rw [hloses.2.1, if_pos rfl, (removal_iff htree).mpr ⟨hloses.2.2.1, rfl⟩] at ho
      simp at ho
    | ok v₁ =>
      rw [ho] at hend
      dsimp only at hend
      have hdone : ∀ v₂, env.renamed v₁ source target = some v₂ → Atomic (env.handleMove r source bases) v := by
        intro v₂ hr
        rw [hr] at hend
        refine ⟨response, s', hrun, fun hstatus => ?_⟩
        have hlow := doneResponse_status env bases target (env.sees v source 0).isDirectory
          (env.sees v target 0).found
        rw [← hend.1] at hlow
        omega
      obtain ⟨hunseen, rfl⟩ | ⟨hseen, hmay, rfl⟩ := overwritten_seen htree ho
      · refine iff_of_true ?_ (fun hloses => absurd (hunseen.symm.trans hloses.2.1) (by simp))
        cases hr : env.renamed v₁ source target with
        | none =>
          rw [hr] at hend
          exact unchanged hrun hend.2
        | some v₂ => exact hdone v₂ hr
      · have hgone := renamed_gone env htree hmay.1 ht.ne hs hin (parent_isDirectory horphan)
        cases hr : env.renamed (v.withoutCollection target) source target with
        | none =>
          rw [hr] at hend
          refine iff_of_false ?_ (not_not.mpr ⟨hguard, hseen, hmay, hgone.mp hr⟩)
          rintro ⟨response', s'', hrun'', hsame⟩
          rw [hrun] at hrun''
          obtain ⟨rfl, rfl⟩ : response = response' ∧ s' = s'' := by simpa using hrun''
          rw [hend.1, hend.2] at hsame
          exact removed_differs hmay.1 (sees_found hseen).1 rfl (hsame (by decide))
        | some v₂ =>
          refine iff_of_true (hdone v₂ hr) (fun hloses => ?_)
          rw [hgone.mpr hloses.2.2.2] at hr
          simp at hr

/-- A request without a destination changes nothing either. -/
theorem unresolved_atomic (hd : resolveDestination env.platform r bases.pathBase source = none) :
    Atomic (env.handleCopy r source bases) v ∧ Atomic (env.handleMove r source bases) v := by
  unfold Env.handleCopy Env.handleMove
  rw [hd]
  exact ⟨unchanged rfl rfl, unchanged rfl rfl⟩

/-- COPY and MOVE answer an error with everything in place, unless the destination they removed cannot be replaced. -/
theorem copyMove_atomic_iff (h : env.Stores) (htree : v.files.WellFormed) :
    (Atomic (env.handleCopy r source bases) v ↔
      ∀ target, resolveDestination env.platform r bases.pathBase source = some target →
        ¬ env.CopyLosesTarget v r source target) ∧
    (Atomic (env.handleMove r source bases) v ↔
      ∀ target, resolveDestination env.platform r bases.pathBase source = some target →
        ¬ env.MoveLosesTarget v r source target) := by
  cases hd : resolveDestination env.platform r bases.pathBase source with
  | none => exact ⟨iff_of_true (unresolved_atomic hd).1 (by simp), iff_of_true (unresolved_atomic hd).2 (by simp)⟩
  | some target =>
    simp only [Option.some.injEq, forall_eq']
    exact ⟨handleCopy_atomic_iff h htree hd, handleMove_atomic_iff h htree hd⟩

end Atomic

/-! ### A write that does not fit -/

/-- One volume with two files, of which one is copied over the other. -/
def twoFiles : Volume where
  files := [(js "a", ⟨some [1], 1⟩), (js "b", ⟨some [2], 2⟩)]
  nodes := []
  props := []
  locks := []
  replicaState := []

def fullEnv : Env where
  platform := plainPlatform
  now := 9
  fails := fun op _ => if op = .writeFile (js "b") then some (.of "ENOSPC") else none

def overRequest : Request where
  url := js "http://h/o/v/a"
  destination := some (js "/o/v/b")
  depth := none
  overwrite := none
  ifHeader := none
  lockToken := none

def plainBases : DavBases := ⟨js "/o/v", js "/o/v"⟩

/-- A move writes nothing, so here it replaces the destination. -/
theorem move_over_full : Atomic (fullEnv.handleMove overRequest (js "a") plainBases) twoFiles := by
  have hstores : fullEnv.Stores := fun st n => rfl
  have htree : twoFiles.files.WellFormed := wellFormed_of_keys (by decide)
  apply (copyMove_atomic_iff hstores htree).2.mpr
  intro target hd hloses
  have hresolved : resolveDestination fullEnv.platform overRequest plainBases.pathBase (js "a") = some (js "b") := by decide
  obtain rfl : js "b" = target := Option.some_inj.mp (hresolved.symm.trans hd)
  rcases hloses.2.2.2 with hfails | hbelow
  · exact hfails rfl
  · exact absurd hbelow (by decide)

theorem copy_loses_destination : ¬ Atomic (fullEnv.handleCopy overRequest (js "a") plainBases) twoFiles := by
  have hstatus : ((fullEnv.handleCopy overRequest (js "a") plainBases).run ⟨twoFiles, []⟩).1.toOption.map
      Response.status = some 507 := by decide
  have hfiles : ((fullEnv.handleCopy overRequest (js "a") plainBases).run ⟨twoFiles, []⟩).2.volume.files =
      [(js "a", ⟨some [1], 1⟩)] := by decide
  rintro ⟨response, s', hrun, hsame⟩
  rw [hrun] at hstatus hfiles
  have h507 : response.status = 507 := Option.some_inj.mp hstatus
  have hkept : s'.volume.files = twoFiles.files := (hsame (by omega)).1
  rw [show s'.volume.files = [(js "a", ⟨some [1], 1⟩)] from hfiles] at hkept
  exact absurd hkept (by decide)

end DurableDav.Dav
