import DurableDav.Dav.CopyComplete

namespace DurableDav.Dav

open Library
open Replication (Bytes isValidInnerPath parentOf)

/-! ### Exactly when -/

section Honest

variable {env : Env} {bases : DavBases} {v v₁ : Volume} {r : Request} {source target : JsString} {destExists : Bool}

theorem honest_of_error {response : Response} (h : 400 ≤ response.status) (v' : Volume) :
    HonestAnswer env bases source target v response v' := by
  refine ⟨fun hok => ?_, fun _ _ _ _ => .inl h⟩
  rcases hok with hok | hok <;> omega

theorem silent_walk (path : JsString) : ¬ Names env bases (env.walkResponse bases target destExists []) path := by
  rintro ⟨hstatus, _⟩
  unfold Env.walkResponse Env.doneResponse at hstatus
  rw [if_pos rfl] at hstatus
  cases destExists with
  | false => exact absurd (show 201 = 207 from hstatus) (by decide)
  | true => exact absurd (show 204 = 207 from hstatus) (by decide)

/-- A listing that fails, or finds its collection gone, passes for an empty one. -/
theorem honest_unlisted_iff (ht : Apart source target) (hdir : v.files.isDirectory source = true)
    (hclear : Clear env v v₁ target)
    (hun : ¬ (env.fails (.listDir source true) 0 = none ∧ ¬ Below slash target source)) :
    HonestAnswer env bases source target v (env.walkResponse bases target destExists []) (env.targetMade v₁ source target) ↔
      env.CopiesWhole v v₁ source target := by
  have hs := ht.source_ne_nil
  have hlow : (env.walkResponse bases target destExists []).status < 400 := walkResponse_status env bases target destExists []
  have hnothing {p : JsString} (hp : Below slash target p) : Store.get (env.targetMade v₁ source target).files p = none := by
    rw [(targetMade_elsewhere hp.ne.symm).file]
    exact hclear.nothing (.inr hp)
  obtain ⟨mtime, hsource⟩ : ∃ mtime, Store.get v.files source = some ⟨none, mtime⟩ := by
    rcases isDirectory_iff.mp hdir with hroot | ⟨⟨bytes, mtime⟩, hi, hbytes⟩
    · exact absurd hroot hs
    · obtain rfl : bytes = none := hbytes
      exact ⟨mtime, hi⟩
  constructor
  · intro honest
    have hempty : v.files.below source = [] := by
      by_contra hne
      obtain ⟨q, hq⟩ := List.exists_mem_of_ne_nil _ hne
      obtain ⟨hsome, hbelow⟩ := mem_below.mp hq
      have hgone : Store.get (env.targetMade v₁ source target).files (moved source target q) = none := by
        rcases moved_lands hs hclear.target_ne_nil (.inr hbelow) with he | hb
        · exact absurd he (moved_ne_target target hs hbelow)
        · exact hnothing hb
      rcases honest.named q hsome hbelow (by
        rw [hgone]
        obtain ⟨i, hi⟩ := Option.isSome_iff_exists.mp hsome
        simp [hi]) with hstatus | hnamed
      · omega
      · exact silent_walk _ hnamed
    have hcomplete := honest.complete (walkResponse_ok.mpr rfl)
    have hcopied := hcomplete.copied source (by rw [hsource]; rfl) (.inl rfl)
    refine ⟨.inl hempty, by simp [hempty], fun _ => ⟨?_, ?_⟩⟩
    · have hfile := hcopied.file
      rw [moved_source, targetMade_target hclear, hsource] at hfile
      by_contra hne
      rw [if_neg hne] at hfile
      simp at hfile
    · intro q hq ns name
      obtain rfl : q = source := hq.resolve_right (by simp [hempty])
      have hprops := hcopied.props ns name
      rw [moved_source, targetMade_props] at hprops
      rwa [moved_source]
  · intro hwhole
    have hempty := hwhole.listed.resolve_right hun
    obtain ⟨htarget, hprops⟩ := hwhole.successful (by simp [hempty])
    have honly {q : JsString} (hsome : (Store.get v.files q).isSome) : ¬ Below slash source q := by
      intro hb
      have hmem := mem_below.mpr ⟨hsome, hb⟩
      rw [hempty] at hmem
      simp at hmem
    refine ⟨fun _ => ⟨fun q hsome hq => ?_, fun p hsome hp => ?_⟩, fun q hsome hb => absurd hb (honly hsome)⟩
    · obtain rfl : q = source := hq.resolve_right (honly hsome)
      refine ⟨?_, fun ns name => ?_⟩
      · rw [moved_source, targetMade_target hclear, if_pos htarget, hsource]
        rfl
      · have hexact := hprops q (.inl rfl) ns name
        rw [moved_source] at hexact ⊢
        rw [targetMade_props, hexact]
    · rcases hp with rfl | hp
      · exact ⟨source, by rw [hsource]; rfl, .inl rfl, moved_source source p⟩
      · rw [hnothing hp] at hsome
        simp at hsome

theorem bytesCopied_clear (hclear : Clear env v v₁ target) {data : Bytes} {mtime : ℕ}
    (hget : Store.get v₁.files source = some ⟨some data, mtime⟩) (hread : env.fails (.read source) 0 = none)
    (hwrite : env.fails (.writeFile target) 0 = none) : env.bytesCopied v₁ source target 0 0 =
      .ok { v₁ with files := Store.put v₁.files target ⟨some data, env.now⟩ } := by
  unfold Env.bytesCopied
  rw [hread, hget, hwrite, not_directory_of_not_found hclear.free, hclear.parent]
  rfl

theorem bytesCopied_calls {v₂ : Volume} (h : env.bytesCopied v₁ source target 0 0 = .ok v₂) :
    env.fails (.read source) 0 = none ∧ env.fails (.writeFile target) 0 = none := by
  unfold Env.bytesCopied at h
  split at h
  · simp at h
  · simp at h
  · simp at h
  · rename_i hread _
    refine ⟨hread, ?_⟩
    split at h
    · simp at h
    · assumption

/-- The copy of a file is honest unless properties get mixed up at its place. -/
theorem honest_file_iff (htree : v.files.WellFormed) (ht : Apart source target) (hclear : Clear env v v₁ target)
    {data : Bytes} {mtime : ℕ} (hget : Store.get v.files source = some ⟨some data, mtime⟩) :
    HonestAnswer env bases source target v (env.doneResponse bases target false destExists)
        (({ v₁ with files := Store.put v₁.files target ⟨some data, env.now⟩ } : Volume).copyMeta env.now source target false) ↔
      PropsFollow v v₁ source target source := by
  have hs := ht.source_ne_nil
  have hfile : v.files.isDirectory source = false := by simp [Files.isDirectory, hs, hget]
  have honly {q : JsString} (hsome : (Store.get v.files q).isSome) : ¬ Below slash source q := by
    intro hb
    rw [htree.nothing_below hfile hb] at hsome
    simp at hsome
  have hstatus : (env.doneResponse bases target false destExists).status = 201 ∨
      (env.doneResponse bases target false destExists).status = 204 := by
    cases destExists with
    | false => exact .inl rfl
    | true => exact .inr rfl
  have hprops (ns name : JsString) :
      Store.get (({ v₁ with files := Store.put v₁.files target ⟨some data, env.now⟩ } : Volume).copyMeta env.now source
        target false).props ⟨target, ns, name⟩ =
      (Store.get v₁.props ⟨source, ns, name⟩).or (Store.get v₁.props ⟨target, ns, name⟩) := copyMeta_props env.now false
  constructor
  · intro honest ns name
    have hcopied := (honest.complete hstatus).copied source (by rw [hget]; rfl) (.inl rfl)
    rw [moved_source, ← hprops, ← hcopied.props, moved_source]
  · intro hfollow
    refine ⟨fun _ => ⟨fun q hsome hq => ?_, fun p hsome hp => ?_⟩, fun q hsome hb => absurd hb (honly hsome)⟩
    · obtain rfl : q = source := hq.resolve_right (honly hsome)
      refine ⟨?_, fun ns name => ?_⟩
      · show (Store.get (Store.put v₁.files target ⟨some data, env.now⟩) (moved q target q)).map Inode.bytes = _
        rw [moved_source, Store.get_put, if_pos rfl, hget]
        rfl
      · have hexact := hfollow ns name
        rw [moved_source] at hexact ⊢
        rw [hprops, hexact]
    · rcases hp with rfl | hp
      · exact ⟨source, by rw [hget]; rfl, .inl rfl, moved_source source p⟩
      · have hgone : Store.get (Store.put v₁.files target ⟨some data, env.now⟩) p = none := by
          rw [Store.get_put, if_neg hp.ne.symm]
          exact hclear.nothing (.inr hp)
        have hplaced : (Store.get (Store.put v₁.files target ⟨some data, env.now⟩) p).isSome := hsome
        rw [hgone] at hplaced
        simp at hplaced

/-- The answer of one run decides whether a copy is honest. -/
theorem honest_iff_answer (hd : resolveDestination env.platform r bases.pathBase source = some target)
    {response : Response} {s' : Session} (hrun : (env.handleCopy r source bases).run ⟨v, []⟩ = (.ok response, s')) :
    HonestCopy env r source bases v ↔ HonestAnswer env bases source target v response s'.volume := by
  constructor
  · rintro ⟨response', s'', hrun', honest⟩
    rw [hrun] at hrun'
    obtain ⟨rfl, rfl⟩ : response = response' ∧ s' = s'' := by simpa using hrun'
    exact honest target hd
  · intro honest
    refine ⟨response, s', hrun, fun target' hd' => ?_⟩
    obtain rfl : target = target' := Option.some_inj.mp (hd.symm.trans hd')
    exact honest

theorem handleCopy_honest_iff (h : env.OnlyCopyingFails) (hencode : env.platform.Encodes) (htree : v.files.WellFormed)
    (hinf : r.depth.getD (js "infinity") = js "infinity")
    (hd : resolveDestination env.platform r bases.pathBase source = some target) :
    HonestCopy env r source bases v ↔ ¬ env.CopyMisleads v r source target := by
  have ht := resolveDestination_apart hd
  have hs := ht.source_ne_nil
  have hcourse := handleCopy_course (v := v) h.stores hd
  cases hguard : env.copyGuard v r source target with
  | some response =>
    rw [hguard] at hcourse
    obtain ⟨s', hrun, hvol⟩ := hcourse
    refine iff_of_true ((honest_iff_answer hd hrun).mpr (honest_of_error (copyGuard_status hguard) _)) ?_
    exact fun hmisleads => absurd (hguard.symm.trans hmisleads.1) (by simp)
  | none =>
    rw [hguard] at hcourse
    obtain ⟨s₁, haccepted, hlist, hrun⟩ := hcourse
    obtain ⟨hfound, horphan, hdepth⟩ := copyGuard_none hguard
    obtain ⟨hin, hkind⟩ := sees_found hfound
    have hparent := parent_isDirectory horphan
    cases ho : env.overwritten v r target (env.sees v target 0).found with
    | error answer =>
      have herror : 400 ≤ answer.status ∧ ¬ ((env.sees v target 0).found = true → env.mayRemove v r target 1) := by
        unfold Env.overwritten at ho
        split at ho
        · rename_i hseen
          refine ⟨removal_error ho, fun hmay => ?_⟩
          rw [(removal_iff htree).mpr ⟨hmay hseen, rfl⟩] at ho
          simp at ho
        · simp at ho
      have hanswer : ∃ s', (env.handleCopy r source bases).run ⟨v, []⟩ = (.ok answer, s') := by
        cases hdir : (env.sees v source 0).isDirectory with
        | true =>
          rw [hdir] at hrun
          obtain ⟨response, s', hrun', hend⟩ := copyCollection_run bases h.stores htree ht haccepted hlist
            (hdepth hdir) (env.sees v target 0).found
          rw [ho] at hend
          exact ⟨s', hend.1 ▸ hrun.trans hrun'⟩
        | false =>
          rw [hdir] at hrun
          obtain ⟨response, s', hrun', hend⟩ := copyFile_run bases (r := r) h.stores haccepted ht.ne
            (env.sees v target 0).found
          rw [ho] at hend
          exact ⟨s', hend.1 ▸ hrun.trans hrun'⟩
      obtain ⟨s', hrun'⟩ := hanswer
      refine iff_of_true ((honest_iff_answer hd hrun').mpr (honest_of_error herror.1 _)) ?_
      exact fun hmisleads => herror.2 hmisleads.2.1
    | ok v₁ =>
      obtain ⟨hv₁, hclear⟩ := clear_of_overwritten h htree hparent ho
      have hmay : (env.sees v target 0).found = true → env.mayRemove v r target 1 := by
        intro hseen
        obtain ⟨hunseen, _⟩ | ⟨_, hmay, _⟩ := overwritten_seen htree ho
        · rw [hseen] at hunseen
          simp at hunseen
        · exact hmay
      cases hdir : v.files.isDirectory source with
      | true =>
        rw [hdir] at hkind
        rw [hkind] at hrun
        obtain ⟨response, s', hrun', hend⟩ := copyCollection_run bases h.stores htree ht haccepted hlist
          (hdepth hkind) (env.sees v target 0).found
        rw [ho] at hend
        dsimp only at hend
        rw [honest_iff_answer hd (hrun.trans hrun'), Env.CopyMisleads, hdir, ← hv₁]
        simp only [hguard, iff_true_intro hmay, ↓reduceIte, true_and]
        by_cases hno : (env.collectionMade v₁ target 0).isNone = true ∧ (!(env.sees v target 0).found) = true
        · rw [if_pos hno] at hend
          have hfails : env.fails (.mkdir target) 0 ≠ none := by
            intro hf
            rw [collectionMade_clear hclear, if_pos hf] at hno
            simp at hno
          refine iff_of_true ?_ ?_
          · rw [hend.1]
            exact honest_of_error (by decide) _
          · rintro ⟨hseen | hf, _⟩
            · rw [hseen] at hno
              simp at hno
            · exact hfails hf
        · rw [if_neg hno, if_pos hinf] at hend
          have hgoes : (env.sees v target 0).found = true ∨ env.fails (.mkdir target) 0 = none := by
            by_contra hnot
            rw [not_or] at hnot
            apply hno
            rw [collectionMade_clear hclear, if_neg hnot.2]
            simp [hnot.1]
          simp only [hgoes, true_and, not_not]
          rw [hend.1, hend.2]
          unfold Env.walked
          by_cases hreached : env.fails (.listDir source true) 0 = none ∧ ¬ Below slash target source
          · have hbeside : Beside env v v₁ source target := ⟨h, hencode, htree, ht, hreached.2, destination_named hd
              hclear.target_ne_nil, hdir, hclear, overwritten_kept htree ht hreached.2 ho⟩
            have hlisted : env.listed (env.targetMade v₁ source target) source =
                ((env.targetMade v₁ source target).files.below source).map (Files.relative source) := by
              unfold Env.listed
              rw [if_pos]
              refine ⟨hreached.1, ?_⟩
              unfold Files.found
              rw [(hbeside.same (.inl rfl)).file]
              exact hin
            rw [hlisted]
            exact ⟨fun honest => hbeside.whole_of_honest (.inr hreached) honest, fun hwhole => hbeside.honest_of_whole hwhole⟩
          · have hlisted : env.listed (env.targetMade v₁ source target) source = [] := by
              unfold Env.listed
              rw [if_neg]
              rintro ⟨hf, hstill⟩
              apply hreached
              refine ⟨hf, fun hab => ?_⟩
              have hgone : Store.get v₁.files source = none := hclear.nothing (.inr hab)
              unfold Files.found at hstill
              rw [(targetMade_elsewhere ht.ne.symm).file, hgone] at hstill
              simp [hs] at hstill
            rw [hlisted]
            exact honest_unlisted_iff ht hdir hclear hreached
      | false =>
        rw [hdir] at hkind
        rw [hkind] at hrun
        obtain ⟨response, s', hrun', hend⟩ := copyFile_run bases (r := r) h.stores haccepted ht.ne
          (env.sees v target 0).found
        rw [ho] at hend
        dsimp only at hend
        obtain ⟨data, mtime, hget⟩ := file_entry hs hin hdir
        rw [honest_iff_answer hd (hrun.trans hrun'), Env.CopyMisleads, hdir, ← hv₁]
        simp only [hguard, iff_true_intro hmay, Bool.false_eq_true, ↓reduceIte, true_and]
        cases hc : env.bytesCopied v₁ source target 0 0 with
        | error e =>
          rw [hc] at hend
          refine iff_of_true ?_ ?_
          · rw [hend.1]
            exact honest_of_error (copyFailed_status e) _
          · rintro ⟨hread, hwrite, hab, _⟩
            have hget₁ := ((overwritten_kept htree ht hab ho) source (.inl rfl)).file.trans hget
            rw [bytesCopied_clear hclear hget₁ hread hwrite] at hc
            simp at hc
        | ok v₂ =>
          rw [hc] at hend
          obtain ⟨hread, hwrite⟩ := bytesCopied_calls hc
          have hab : ¬ Below slash target source := by
            intro hab
            obtain ⟨data', mtime', hget', _⟩ := bytesCopied_ok hc
            rw [hclear.nothing (.inr hab)] at hget'
            simp at hget'
          have hget₁ := ((overwritten_kept htree ht hab ho) source (.inl rfl)).file.trans hget
          obtain rfl : v₂ = _ := Except.ok.inj (hc.symm.trans (bytesCopied_clear hclear hget₁ hread hwrite))
          rw [hend.1, hend.2, honest_file_iff htree ht hclear hget]
          simp [hread, hwrite, hab]

/-- A recursive copy that succeeds is complete, and names what it could not copy, unless it goes wrong without a word. -/
theorem copy_honest_iff (h : env.OnlyCopyingFails) (hencode : env.platform.Encodes) (htree : v.files.WellFormed)
    (hinf : r.depth.getD (js "infinity") = js "infinity") :
    HonestCopy env r source bases v ↔
      ∀ target, resolveDestination env.platform r bases.pathBase source = some target →
        ¬ env.CopyMisleads v r source target := by
  cases hd : resolveDestination env.platform r bases.pathBase source with
  | none =>
    have hrun : (env.handleCopy r source bases).run ⟨v, []⟩ = (.ok .badRequest, ⟨v, []⟩) := by
      unfold Env.handleCopy
      rw [hd]
      rfl
    refine iff_of_true ⟨_, _, hrun, fun target ht => ?_⟩ (by simp)
    rw [hd] at ht
    simp at ht
  | some target =>
    simp only [Option.some.injEq, forall_eq']
    exact handleCopy_honest_iff h hencode htree hinf hd

end Honest

/-! ### A listing that fails -/

def besideRequest : Request where
  url := js "http://h/o/v/a"
  destination := some (js "/o/v/c")
  depth := none
  overwrite := none
  ifHeader := none
  lockToken := none

theorem plainPlatform_encodes : plainPlatform.Encodes := ⟨fun _ _ _ _ h => h, fun _ h => h, fun _ h => h⟩

theorem nested_copies : HonestCopy calmEnv besideRequest (js "a") plainBases nestedVolume := by
  have hcalm : calmEnv.OnlyCopyingFails := fun op n hne => absurd rfl hne
  have htree : nestedVolume.files.WellFormed := wellFormed_of_keys (by decide)
  apply (copy_honest_iff hcalm plainPlatform_encodes htree rfl).mpr
  intro target hd hmisleads
  have hresolved : resolveDestination calmEnv.platform besideRequest plainBases.pathBase (js "a") = some (js "c") := by decide
  obtain rfl : js "c" = target := Option.some_inj.mp (hresolved.symm.trans hd)
  have hdir : nestedVolume.files.isDirectory (js "a") = true := by decide
  have hlost := hmisleads.2.2
  rw [if_pos hdir] at hlost
  apply hlost.2
  refine ⟨.inr ⟨rfl, by decide⟩, fun q _ _ => ⟨rfl, rfl⟩, fun _ => ⟨rfl, fun q _ ns name => ?_⟩⟩
  have hnone : (calmEnv.withoutDestination nestedVolume (js "c")).props = [] := by decide
  rw [hnone]
  rfl

def deafEnv : Env where
  platform := plainPlatform
  now := 9
  fails := fun op _ => if op = .listDir (js "a") true then some ⟨none, js "storage unavailable"⟩ else none

theorem unlisted_copy_misleads : ¬ HonestCopy deafEnv besideRequest (js "a") plainBases nestedVolume := by
  have hresolved : resolveDestination deafEnv.platform besideRequest plainBases.pathBase (js "a") = some (js "c") := by decide
  have hstatus : ((deafEnv.handleCopy besideRequest (js "a") plainBases).run ⟨nestedVolume, []⟩).1.toOption.map
      Response.status = some 201 := by decide
  have hmissing : Store.get ((deafEnv.handleCopy besideRequest (js "a") plainBases).run ⟨nestedVolume, []⟩).2.volume.files
      (moved (js "a") (js "c") (js "a/b")) = none := by decide
  rintro ⟨response, s', hrun, honest⟩
  rw [hrun] at hstatus hmissing
  have h201 : response.status = 201 := Option.some_inj.mp hstatus
  have hcopied := ((honest (js "c") hresolved).complete (.inl h201)).copied (js "a/b") (by decide) (by decide)
  have hfile := hcopied.file
  rw [show Store.get s'.volume.files (moved (js "a") (js "c") (js "a/b")) = none from hmissing] at hfile
  exact absurd hfile (by decide)

end DurableDav.Dav
