import DurableDav.Replication.Coverage
import DurableDav.Replication.Settling

namespace DurableDav.Replication

open Library

/-! ### What one operation leaves of a tree -/

theorem parent_ne_self {p : JsString} (hp : p ≠ []) : parentOf p ≠ p := by
  intro h
  have hlt : (parentOf p).length < p.length := parentSegments_length_lt hp
  rw [h] at hlt
  exact lt_irrefl _ hlt

namespace Tree

variable {t : Tree} {p q : JsString} {data : Bytes} {contentType : Option JsString} {now : ℕ}

theorem Moves.isDirectory {T : JsString → Prop} {t' : Tree} (h : Moves T t t') (hq : ¬ T q)
    (hdir : t.isDirectory q = true) : t'.isDirectory q = true := by
  rcases isDirectory_iff.mp hdir with hroot | hcoll
  · exact isDirectory_iff.mpr (.inl hroot)
  · exact isDirectory_iff.mpr (.inr ((h.content_eq hq (by simp [hcoll])).trans hcoll))

theorem content_mkdirAll_self (now : ℕ) (hp : p ≠ []) (hdir : t.isDirectory (parentOf p) = true)
    (hnot : ∀ data, t.content p ≠ some (some data)) : (t.mkdirAll p now).content p = some none := by
  have fold : ∀ (ps : List JsString) (t : Tree), p ∈ ps ∨ t.content p = some none →
      t.isDirectory (parentOf p) = true → (∀ data, t.content p ≠ some (some data)) →
      (ps.foldl (fun t a => (t.mkdirOne a).upsertCollectionNode a now) t).content p = some none := by
    intro ps
    induction ps with
    | nil => exact fun t h _ _ => h.resolve_left List.not_mem_nil
    | cons a ps ih =>
      intro t h hdir hnot
      have hstep (q : JsString) : ((t.mkdirOne a).upsertCollectionNode a now).content q =
          if q = a ∧ a ≠ [] ∧ t.content a = none ∧ t.isDirectory (parentOf a) = true then some none
          else t.content q := by
        rw [content_upsertCollectionNode, content_mkdirOne]
      apply ih
      · by_cases hnone : t.content p = none
        · by_cases ha : p = a
          · right
            subst ha
            rw [hstep, if_pos ⟨rfl, hp, hnone, hdir⟩]
          · left
            simpa [ha, hnone] using h
        · right
          obtain ⟨v, hv⟩ := Option.ne_none_iff_exists'.mp hnone
          rw [hstep]
          split
          · rfl
          · cases v with
            | none => exact hv
            | some data => exact absurd hv (hnot data)
      · rw [isDirectory_iff, hstep]
        rcases isDirectory_iff.mp hdir with hroot | hcoll
        · exact .inl hroot
        · right
          split
          · rfl
          · exact hcoll
      · intro data
        rw [hstep]
        split
        · simp
        · exact hnot data
  exact fold _ t (.inl (mem_prefixes.mpr (.inl rfl))) hdir hnot

section Operations

variable (hp : p ≠ []) (hv : isValidInnerPath p = true)

variable (t) (contentType) (data) (now)

include hv in
theorem mkdirParent_run : ∃ t', (mkdirParent p now).run t = (.ok (), t') ∧ t'.content p = t.content p ∧
    Moves (fun q => q = p) t t' := by
  unfold mkdirParent
  split
  · exact ⟨t, rfl, rfl, Moves.refl _⟩
  · rename_i hparent
    have habove := valid_above hparent (parentOf_below hparent) hv
    unfold mkdir
    rw [if_neg (by simp [hparent, habove])]
    exact ⟨_, rfl, content_mkdirAll_parent t now hparent, moves_mkdirAll_parent now hparent⟩

include hp hv

theorem write_run : ∃ t₁, t₁.content p = t.content p ∧ Moves (fun q => q = p) t t₁ ∧
    (write p contentType data now).run t = (writeFile p (writtenResource contentType data now)).run t₁ := by
  obtain ⟨t₁, hrun, hcontent, hmoves⟩ := mkdirParent_run t now hv
  refine ⟨t₁, hcontent, hmoves, ?_⟩
  unfold write
  rw [if_neg (by simp [hp, hv])]
  exact Act.run_bind_ok hrun

variable {t} {contentType} {data} {now}

theorem write_ok (hdir : t.isDirectory (parentOf p) = true) (hnot : t.isDirectory p = false) :
    ∃ t', (write p contentType data now).run t = (.ok (), t') ∧ t'.content p = some (some data) ∧
      Moves (fun q => q = p) t t' := by
  obtain ⟨t₁, hcontent, hmoves, hrun⟩ := write_run t data contentType now hp hv
  have hdir₁ := hmoves.isDirectory (parent_ne_self hp) hdir
  have hnot₁ : t₁.isDirectory p = false := by
    rw [Bool.eq_false_iff, Ne, isDirectory_iff] at hnot ⊢
    rwa [hcontent]
  have hwrite : (writeFile p (writtenResource contentType data now)).run t₁ =
      (.ok (), Store.put t₁ p (writtenResource contentType data now)) := by
    change (if t₁.isDirectory (parentOf p) ∧ !t₁.isDirectory p then _ else _ : Act Tree JsString Unit).run t₁ = _
    rw [if_pos (by simp [hdir₁, hnot₁])]
    rfl
  refine ⟨_, hrun.trans hwrite, ?_, hmoves.trans (moves_put _)⟩
  rw [content_put, if_pos rfl]
  rfl

theorem write_refused (hdir : t.isDirectory p = true) :
    ∃ e t', (write p contentType data now).run t = (.error e, t') ∧ t'.content p = t.content p ∧
      Moves (fun q => q = p) t t' := by
  obtain ⟨t₁, hcontent, hmoves, hrun⟩ := write_run t data contentType now hp hv
  have hdir₁ : t₁.isDirectory p = true := by
    rw [isDirectory_iff] at hdir ⊢
    rwa [hcontent]
  have hwrite : (writeFile p (writtenResource contentType data now)).run t₁ = (.error (js "EISDIR or ENOENT"), t₁) := by
    change (if t₁.isDirectory (parentOf p) ∧ !t₁.isDirectory p then _ else _ : Act Tree JsString Unit).run t₁ = _
    rw [if_neg (by simp [hdir₁])]
    rfl
  exact ⟨_, t₁, hrun.trans hwrite, hcontent, hmoves⟩

theorem mkdir_run : (mkdir p now).run t = (.ok (), t.mkdirAll p now) := by
  unfold mkdir
  rw [if_neg (by simp [hp, hv])]
  rfl

theorem unlink_file (hfile : t.content p = some (some data)) : (unlink p false).run t = (.ok (), Store.remove t p) := by
  have hnot : t.isDirectory p = false := by
    rw [Bool.eq_false_iff, Ne, isDirectory_iff]
    simp [hp, hfile]
  unfold unlink
  rw [if_neg (by simp [hp, hv])]
  change (if !t.isDirectory p then _ else _ : Act Tree JsString Unit).run t = _
  rw [if_pos (by simp [hnot])]
  rfl

end Operations

end Tree

/-! ### How a call ends -/

def Answer.fails : Answer → Bool
  | .rejects _ => true
  | _ => false

def Answer.isBlank : Answer → Bool
  | .blank => true
  | _ => false

/-- One call further on, the remote side as it was. -/
structure World.Leads (w w' : World) (t : Tree) : Prop where
  localTree : w'.localTree = t
  remoteTree : w'.remoteTree = w.remoteTree
  calls : w'.calls = w.calls + 1

section Calls

variable {α : Type} {env : Env} {w : World} {call : Call} {spoil : ℕ → World → World} {p : JsString}

theorem call_fails {body : ℕ → Answer → Run α} (hspoil : spoil w.calls w.tick = w.tick)
    (h : (env.answer w.calls).fails = true) :
    ∃ e w', (env.call call spoil body).run w = (.error e, w') ∧ w.Leads w' w.localTree := by
  cases ha : env.answer w.calls with
  | rejects reason =>
    refine ⟨reason, w.tick.note (.rejected call), ?_, rfl, rfl, rfl⟩
    simp only [Env.call, ha, hspoil]
  | performs | blank | cut keep => simp [ha, Answer.fails] at h

theorem call_answers {body : ℕ → Answer → Run α} (h : (env.answer w.calls).fails = false) :
    (env.call call spoil body).run w =
      (carryOut call (env.answer w.calls) (body w.calls (env.answer w.calls))).run w.tick := by
  cases ha : env.answer w.calls with
  | rejects reason => simp [ha, Answer.fails] at h
  | performs | blank | cut keep => simp only [Env.call, ha]

theorem onLocalSide_run {x : Act Tree JsString α} {r : Except JsString α} {t : Tree}
    (hrun : x.run w.localTree = (r, t)) :
    (onSide .localSide x).run w = (r, w.setTree .localSide t) := by
  change ((x.run w.localTree).1, w.setTree .localSide (x.run w.localTree).2) = _
  rw [hrun]

theorem localCall_ends {x : ℕ → Act Tree JsString α} (h : (env.answer w.calls).fails = false)
    {r : Except JsString α} {t : Tree} (hrun : (x w.calls).run w.localTree = (r, t)) :
    ∃ w', (env.call call spoil fun n _ => onSide .localSide (x n)).run w = (r, w') ∧ w.Leads w' t := by
  have hside : (onSide .localSide (x w.calls)).run w.tick = (r, w.tick.setTree .localSide t) := onLocalSide_run hrun
  rw [call_answers h, run_carryOut, hside]
  cases r with
  | ok v => exact ⟨_, rfl, rfl, rfl, rfl⟩
  | error e => exact ⟨_, rfl, rfl, rfl, rfl⟩

theorem localMkdir_fails (h : (env.answer w.calls).fails = true) :
    ∃ e w', (env.localMkdir p).run w = (.error e, w') ∧ w.Leads w' w.localTree := call_fails rfl h

theorem localWrite_fails {contentType : Option JsString} {data : Bytes} (h : (env.answer w.calls).fails = true) :
    ∃ e w', (env.localWrite p contentType data).run w = (.error e, w') ∧ w.Leads w' w.localTree := call_fails rfl h

theorem localUnlink_fails (h : (env.answer w.calls).fails = true) :
    ∃ e w', (env.localUnlink p false).run w = (.error e, w') ∧ w.Leads w' w.localTree := call_fails rfl h

theorem readReplicaStream_fails (h : (env.answer w.calls).fails = true) :
    ∃ e w', (env.readReplicaStream p).run w = (.error e, w') ∧ w.Leads w' w.localTree := call_fails rfl h

theorem readFile_fails (h : (env.answer w.calls).fails = true) :
    ∃ e w', (env.readFile p).run w = (.error e, w') ∧ w.Leads w' w.localTree := call_fails rfl h

theorem localMkdir_ends (hp : p ≠ []) (hv : isValidInnerPath p = true) (h : (env.answer w.calls).fails = false) :
    ∃ w', (env.localMkdir p).run w = (.ok (), w') ∧ w.Leads w' (w.localTree.mkdirAll p (env.clock w.calls)) := by
  have hx : (mkdir p (env.clock w.calls)).run w.localTree = _ := Tree.mkdir_run hp hv
  exact localCall_ends h hx

theorem localWrite_ends {contentType : Option JsString} {data : Bytes} (h : (env.answer w.calls).fails = false)
    {r : Except JsString Unit} {t : Tree}
    (hrun : (write p contentType data (env.clock w.calls)).run w.localTree = (r, t)) :
    ∃ w', (env.localWrite p contentType data).run w = (r, w') ∧ w.Leads w' t := by
  have hx : ((fun n => write p contentType data (env.clock n)) w.calls).run w.localTree = (r, t) := hrun
  exact localCall_ends h hx

theorem localUnlink_ends (h : (env.answer w.calls).fails = false) {r : Except JsString Unit} {t : Tree}
    (hrun : (unlink p false).run w.localTree = (r, t)) :
    ∃ w', (env.localUnlink p false).run w = (r, w') ∧ w.Leads w' t := by
  unfold Env.localUnlink
  have hside : (onSide .localSide (unlink p false)).run w.tick = (r, w.tick.setTree .localSide t) :=
    onLocalSide_run hrun
  have hread : (Act.read : Run World).run w.tick = (.ok w.tick, w.tick) := rfl
  unfold Env.removal
  rw [call_answers h, run_carryOut, Act.run_bind_ok hread]
  cases r with
  | ok v =>
    rw [Act.run_bind_ok hside]
    exact ⟨_, rfl, rfl, rfl, rfl⟩
  | error e =>
    rw [Act.run_bind_error hside]
    exact ⟨_, rfl, rfl, rfl, rfl⟩

theorem readReplicaStream_ends (hp : p ≠ []) (hv : isValidInnerPath p = true)
    (h : (env.answer w.calls).fails = false) : ∃ w', (env.readReplicaStream p).run w =
      (.ok (if (env.answer w.calls).isBlank then none else (w.localTree.content p).join), w') ∧
      w.Leads w' w.localTree := by
  unfold Env.readReplicaStream
  rw [call_answers h, run_carryOut]
  have hcond : ¬ (p = [] ∨ (!isValidInnerPath p) = true) := by simp [hp, hv]
  cases ha : env.answer w.calls with
  | rejects reason => simp [ha, Answer.fails] at h
  | blank => exact ⟨w.tick.note (.blank (.read .localSide p)), rfl, rfl, rfl, rfl⟩
  | performs | cut keep =>
    refine ⟨w.tick.note (.answered (.read .localSide p)), ?_, rfl, rfl, rfl⟩
    simp only [Act.run_bind, Act.run_read, if_neg hcond]
    rfl

theorem readFile_ends {data : Bytes} (hfile : w.remoteTree.content p = some (some data))
    (h : (env.answer w.calls).fails = false) : ∃ w', (env.readFile p).run w =
      (.ok (if (env.answer w.calls).isBlank then none else some data), w') ∧ w.Leads w' w.localTree := by
  unfold Env.readFile
  rw [call_answers h, run_carryOut]
  have htick : w.tick.remoteTree.content p = some (some data) := hfile
  cases ha : env.answer w.calls with
  | rejects reason => simp [ha, Answer.fails] at h
  | blank => exact ⟨w.tick.note (.blank (.read .remoteSide p)), rfl, rfl, rfl, rfl⟩
  | performs | cut keep =>
    refine ⟨w.tick.note (.answered (.read .remoteSide p)), ?_, rfl, rfl, rfl⟩
    simp only [Act.run_bind, Act.run_read, htick]
    rfl

end Calls

/-! ### What pull-and-preserve promises -/

/-- A path that both sides hold, and a name beside it for the copy. -/
structure Preservable (ctx : TransferContext) (w : World) (path conflictPath : JsString) (l r : PlanSide) : Prop where
  nonempty : path ≠ []
  valid : isValidInnerPath path = true
  wellFormed : w.localTree.WellFormed
  localEntry : ctx.localEntry path = some l
  remoteEntry : ctx.remoteEntry path = some r
  tellsLocal : Tells l (w.localTree.content path)
  tellsRemote : Tells r (w.remoteTree.content path)
  conflictNonempty : conflictPath ≠ []
  conflictValid : isValidInnerPath conflictPath = true
  beside : parentOf conflictPath = parentOf path
  apart : conflictPath ≠ path

/-- Where it returns, the local bytes are at the conflict path and the remote's version is at the path; where it fails,
the local version is at the one or the other. The remote side is as it was. -/
def TransferContext.Preserves (ctx : TransferContext) (path conflictPath : JsString) (contentType : Option JsString)
    (w : World) : Prop :=
  let ended := (ctx.pullAndPreserve path conflictPath contentType).run w
  ended.2.remoteTree = w.remoteTree ∧
    match ended.1 with
    | .ok _ =>
      (∀ data, w.localTree.content path = some (some data) →
        ended.2.localTree.content conflictPath = some (some data)) ∧
      ended.2.localTree.content path = w.remoteTree.content path
    | .error _ =>
      ended.2.localTree.content path = w.localTree.content path ∨
        ended.2.localTree.content conflictPath = w.localTree.content path

/-- The local bytes are at the conflict path already. -/
def World.Copied (w : World) (path conflictPath : JsString) : Prop :=
  w.localTree.content conflictPath = w.localTree.content path

/-- Nothing distinguishes the two versions of a path. -/
def World.Alike (w : World) (path : JsString) : Prop := w.localTree.content path = w.remoteTree.content path

/-- By the kinds of the two versions and by how the storage calls are answered. -/
def PreservesWhen (env : Env) (w : World) (path conflictPath : JsString) (l r : PlanSide) : Prop :=
  match l.isCollection, r.isCollection with
  | true, true => True
  | true, false => (env.answer w.calls).isBlank = false
  | false, true => (env.answer w.calls).fails = true ∨ (env.answer (w.calls + 1)).fails = true ∨
      w.Copied path conflictPath
  | false, false =>
    ((env.answer w.calls).isBlank = true → w.Copied path conflictPath ∧ w.Alike path) ∧
    ((env.answer w.calls).fails = false → (env.answer w.calls).isBlank = false →
      (env.answer (w.calls + 1)).fails = false → w.localTree.isDirectory conflictPath = false →
      (env.answer (w.calls + 2)).isBlank = true → w.Alike path)

section Preserving

variable {ctx : TransferContext} {w w' : World} {path conflictPath : JsString} {l r : PlanSide}
  {contentType : Option JsString}

theorem preserves_of_ok (hrun : (ctx.pullAndPreserve path conflictPath contentType).run w = (.ok (), w'))
    (hremote : w'.remoteTree = w.remoteTree) : ctx.Preserves path conflictPath contentType w ↔
      (∀ data, w.localTree.content path = some (some data) → w'.localTree.content conflictPath = some (some data)) ∧
        w'.localTree.content path = w.remoteTree.content path := by
  unfold TransferContext.Preserves
  rw [hrun]
  exact and_iff_right hremote

theorem preserves_of_error {e : JsString}
    (hrun : (ctx.pullAndPreserve path conflictPath contentType).run w = (.error e, w'))
    (hremote : w'.remoteTree = w.remoteTree) : ctx.Preserves path conflictPath contentType w ↔
      w'.localTree.content path = w.localTree.content path ∨
        w'.localTree.content conflictPath = w.localTree.content path := by
  unfold TransferContext.Preserves
  rw [hrun]
  exact and_iff_right hremote

theorem isBlank_of_fails {a : Answer} (h : a.fails = true) : a.isBlank = false := by
  cases a <;> first | rfl | cases h

theorem pullAndPreserve_eq (hl : ctx.localEntry path = some l) (hr : ctx.remoteEntry path = some r) :
    ctx.pullAndPreserve path conflictPath contentType =
      if l.isCollection then
        if r.isCollection then ctx.env.localMkdir path else ctx.remoteToLocal path contentType
      else ctx.replacePreserved path conflictPath contentType l r.isCollection := by
  unfold TransferContext.pullAndPreserve TransferContext.remoteEntryOrStat
  rw [hr, hl]
  rfl

section Kinds

variable (h : Preservable ctx w path conflictPath l r)

include h

theorem Preservable.pull_eq : ctx.pullAndPreserve path conflictPath contentType =
    if l.isCollection then
      if r.isCollection then ctx.env.localMkdir path else ctx.remoteToLocal path contentType
    else ctx.replacePreserved path conflictPath contentType l r.isCollection :=
  pullAndPreserve_eq h.localEntry h.remoteEntry

theorem Preservable.parent : w.localTree.isDirectory (parentOf path) = true := by
  apply (h.wellFormed path _).2
  have htells := h.tellsLocal
  intro hnone
  rw [Tells, hnone] at htells
  cases htells

theorem Preservable.path_parent_ne : parentOf path ≠ path := parent_ne_self h.nonempty

theorem Preservable.parent_ne : parentOf conflictPath ≠ conflictPath := parent_ne_self h.conflictNonempty

/-- A collection over a collection. -/
theorem Preservable.collections (hl : l.isCollection = true) (hr : r.isCollection = true) :
    ctx.Preserves path conflictPath contentType w := by
  have hlocal := h.tellsLocal.collection hl
  have hpull : ctx.pullAndPreserve path conflictPath contentType = ctx.env.localMkdir path := by
    rw [h.pull_eq, if_pos hl, if_pos hr]
  cases hfails : (ctx.env.answer w.calls).fails with
  | true =>
    obtain ⟨e, w', hrun, hleads⟩ := localMkdir_fails hfails
    rw [preserves_of_error (hpull ▸ hrun) hleads.remoteTree, hleads.localTree]
    exact .inl rfl
  | false =>
    obtain ⟨w', hrun, hleads⟩ := localMkdir_ends h.nonempty h.valid hfails
    rw [preserves_of_ok (hpull ▸ hrun) hleads.remoteTree, hleads.localTree, hlocal, h.tellsRemote.collection hr]
    refine ⟨by simp, ?_⟩
    rcases Tree.content_mkdirAll w.localTree path (ctx.env.clock w.calls) path with hkept | ⟨-, hmade, -⟩
    · rw [hkept, hlocal]
    · exact hmade

/-- A file over a collection: either nothing was read, or the collection refuses the bytes. -/
theorem Preservable.fileOverCollection (hl : l.isCollection = true) (hr : r.isCollection = false) :
    ctx.Preserves path conflictPath contentType w ↔ (ctx.env.answer w.calls).isBlank = false := by
  have hlocal := h.tellsLocal.collection hl
  obtain ⟨data, hremote⟩ := h.tellsRemote.file hr
  have hpull : ctx.pullAndPreserve path conflictPath contentType = ctx.remoteToLocal path contentType := by
    rw [h.pull_eq, if_pos hl, if_neg (by simp [hr])]
  cases hfails : (ctx.env.answer w.calls).fails with
  | true =>
    obtain ⟨e, w', hrun, hleads⟩ := readFile_fails hfails
    have hrun : (ctx.pullAndPreserve path conflictPath contentType).run w = (.error e, w') := by
      rw [hpull]
      exact Act.run_bind_error hrun
    rw [preserves_of_error hrun hleads.remoteTree, hleads.localTree]
    simp [isBlank_of_fails hfails]
  | false =>
    obtain ⟨w₁, hread, hleads⟩ := readFile_ends hremote hfails
    cases hblank : (ctx.env.answer w.calls).isBlank with
    | true =>
      rw [if_pos hblank] at hread
      have hrun : (ctx.pullAndPreserve path conflictPath contentType).run w = (.ok (), w₁) := by
        rw [hpull]
        exact Act.run_bind_ok hread
      rw [preserves_of_ok hrun hleads.remoteTree, hleads.localTree, hlocal, hremote]
      simp
    | false =>
      rw [if_neg (by simp [hblank])] at hread
      simp only [iff_true]
      have hrest : (ctx.pullAndPreserve path conflictPath contentType).run w =
          (ctx.env.localWrite path contentType data).run w₁ := by
        rw [hpull]
        exact Act.run_bind_ok hread
      cases hwrites : (ctx.env.answer w₁.calls).fails with
      | true =>
        obtain ⟨e, w', hwrite, hends⟩ := localWrite_fails hwrites
        rw [preserves_of_error (hrest.trans hwrite) (hends.remoteTree.trans hleads.remoteTree), hends.localTree,
          hleads.localTree]
        exact .inl rfl
      | false =>
        have hdir : w₁.localTree.isDirectory path = true := by
          rw [hleads.localTree, Tree.isDirectory_iff]
          exact .inr hlocal
        obtain ⟨e, t, hrefused, hkept, -⟩ := Tree.write_refused h.nonempty h.valid hdir
        obtain ⟨w', hwrite, hends⟩ := localWrite_ends hwrites hrefused
        rw [preserves_of_error (hrest.trans hwrite) (hends.remoteTree.trans hleads.remoteTree), hends.localTree, hkept,
          hleads.localTree]
        exact .inl rfl

/-- A collection over a file: its bytes are removed, and kept nowhere. -/
theorem Preservable.collectionOverFile (hl : l.isCollection = false) (hr : r.isCollection = true) :
    ctx.Preserves path conflictPath contentType w ↔ (ctx.env.answer w.calls).fails = true ∨
      (ctx.env.answer (w.calls + 1)).fails = true ∨ w.Copied path conflictPath := by
  obtain ⟨data, hlocal⟩ := h.tellsLocal.file hl
  have hremote := h.tellsRemote.collection hr
  have hpull : ctx.pullAndPreserve path conflictPath contentType = (do
      ctx.env.localMkdir conflictPath
      ctx.env.localUnlink path false
      ctx.env.localMkdir path) := by
    rw [h.pull_eq, if_neg (by simp [hl]), hr]
    rfl
  cases hfails : (ctx.env.answer w.calls).fails with
  | true =>
    obtain ⟨e, w', hmkdir, hleads⟩ := localMkdir_fails hfails
    have hrun : (ctx.pullAndPreserve path conflictPath contentType).run w = (.error e, w') := by
      rw [hpull]
      exact Act.run_bind_error hmkdir
    rw [preserves_of_error hrun hleads.remoteTree, hleads.localTree]
    simp
  | false =>
    obtain ⟨w₁, hmkdir, h₁⟩ := localMkdir_ends h.conflictNonempty h.conflictValid hfails
    have hpath₁ : w₁.localTree.content path = some (some data) := by
      rw [h₁.localTree, (Tree.moves_mkdirAll _).content_eq h.apart.symm (by simp [hlocal]), hlocal]
    have hcopied : w₁.localTree.content conflictPath = some (some data) ↔ w.Copied path conflictPath := by
      unfold World.Copied
      rw [h₁.localTree, hlocal]
      rcases Tree.content_mkdirAll w.localTree conflictPath (ctx.env.clock w.calls) conflictPath with hc | ⟨hn, hs, -⟩
      · rw [hc]
      · simp [hn, hs]
    cases hfails₁ : (ctx.env.answer (w.calls + 1)).fails with
    | true =>
      obtain ⟨e, w', hunlink, hends⟩ := localUnlink_fails (h₁.calls ▸ hfails₁)
      have hrun : (ctx.pullAndPreserve path conflictPath contentType).run w = (.error e, w') := by
        rw [hpull, Act.run_bind_ok hmkdir]
        exact Act.run_bind_error hunlink
      rw [preserves_of_error hrun (hends.remoteTree.trans h₁.remoteTree), hends.localTree, hpath₁, hlocal]
      simp
    | false =>
      obtain ⟨w₂, hunlink, h₂⟩ := localUnlink_ends (h₁.calls ▸ hfails₁) (Tree.unlink_file h.nonempty h.valid hpath₁)
      have hgone : w₂.localTree.content path = none := by
        rw [h₂.localTree, Tree.content_remove, if_pos rfl]
      have hkept : w₂.localTree.content conflictPath = w₁.localTree.content conflictPath := by
        rw [h₂.localTree, Tree.content_remove, if_neg h.apart]
      have hrest : (ctx.pullAndPreserve path conflictPath contentType).run w = (ctx.env.localMkdir path).run w₂ := by
        rw [hpull, Act.run_bind_ok hmkdir]
        exact Act.run_bind_ok hunlink
      simp only [Bool.false_eq_true, false_or]
      rw [← hcopied, ← hkept]
      cases hfails₂ : (ctx.env.answer w₂.calls).fails with
      | true =>
        obtain ⟨e, w', hrun, hends⟩ := localMkdir_fails hfails₂
        rw [preserves_of_error (hrest.trans hrun) (hends.remoteTree.trans (h₂.remoteTree.trans h₁.remoteTree)),
          hends.localTree, hgone, hlocal]
        simp
      | false =>
        obtain ⟨w', hrun, hends⟩ := localMkdir_ends h.nonempty h.valid hfails₂
        have hparent : w₂.localTree.isDirectory (parentOf path) = true := by
          have hup := (Tree.moves_mkdirAll (ctx.env.clock w.calls)).isDirectory (h.beside ▸ h.parent_ne) h.parent
          rw [← h₁.localTree] at hup
          rw [h₂.localTree]
          exact Tree.moves_remove.isDirectory h.path_parent_ne hup
        rw [preserves_of_ok (hrest.trans hrun) (hends.remoteTree.trans (h₂.remoteTree.trans h₁.remoteTree)),
          hends.localTree, Tree.content_mkdirAll_self _ h.nonempty hparent (by simp [hgone]), hremote]
        have hstays : (w₂.localTree.mkdirAll path (ctx.env.clock w₂.calls)).content conflictPath =
            w₂.localTree.content conflictPath := by
          rcases Tree.content_mkdirAll w₂.localTree path (ctx.env.clock w₂.calls) conflictPath with hc | ⟨-, -, hc | hc⟩
          · exact hc
          · exact absurd hc h.apart
          · exact absurd hc (not_below_of_beside h.conflictNonempty h.beside.symm)
        rw [hstays, hlocal]
        simp

/-- The bytes are at the conflict path: from there on only a read that answers nothing goes wrong. -/
theorem Preservable.afterCopy {w₂ : World} {data : Bytes} (hl : w.localTree.content path = some (some data))
    (hr : r.isCollection = false)
    (hrest : (ctx.pullAndPreserve path conflictPath contentType).run w = (ctx.remoteToLocal path contentType).run w₂)
    (hremote₂ : w₂.remoteTree = w.remoteTree) (hcopy : w₂.localTree.content conflictPath = some (some data))
    (hpath : w₂.localTree.content path = some (some data)) (hparent : w₂.localTree.isDirectory (parentOf path) = true) :
    ctx.Preserves path conflictPath contentType w ↔ ((ctx.env.answer w₂.calls).isBlank = true → w.Alike path) := by
  obtain ⟨data', hremote⟩ := h.tellsRemote.file hr
  cases hfails : (ctx.env.answer w₂.calls).fails with
  | true =>
    obtain ⟨e, w', hread, hends⟩ := readFile_fails hfails
    have hrun : (ctx.pullAndPreserve path conflictPath contentType).run w = (.error e, w') := by
      rw [hrest]
      exact Act.run_bind_error hread
    rw [preserves_of_error hrun (hends.remoteTree.trans hremote₂), hends.localTree, hcopy, hl]
    simp [isBlank_of_fails hfails]
  | false =>
    obtain ⟨w₃, hread, h₃⟩ := readFile_ends (hremote₂ ▸ hremote) hfails
    cases hblank : (ctx.env.answer w₂.calls).isBlank with
    | true =>
      rw [if_pos hblank] at hread
      have hrun : (ctx.pullAndPreserve path conflictPath contentType).run w = (.ok (), w₃) := by
        rw [hrest]
        exact Act.run_bind_ok hread
      rw [preserves_of_ok hrun (h₃.remoteTree.trans hremote₂), h₃.localTree, hcopy, hpath, World.Alike, hl]
      simp
    | false =>
      rw [if_neg (by simp [hblank])] at hread
      have hwrites : (ctx.pullAndPreserve path conflictPath contentType).run w =
          (ctx.env.localWrite path contentType data').run w₃ := by
        rw [hrest]
        exact Act.run_bind_ok hread
      simp only [Bool.false_eq_true, false_imp_iff, iff_true]
      cases hfails₃ : (ctx.env.answer w₃.calls).fails with
      | true =>
        obtain ⟨e, w', hwrite, hends⟩ := localWrite_fails hfails₃
        rw [preserves_of_error (hwrites.trans hwrite) (hends.remoteTree.trans (h₃.remoteTree.trans hremote₂)),
          hends.localTree, h₃.localTree, hcopy, hl]
        exact .inr rfl
      | false =>
        have hnot : w₃.localTree.isDirectory path = false := by
          rw [h₃.localTree, Bool.eq_false_iff, Ne, Tree.isDirectory_iff]
          simp [h.nonempty, hpath]
        obtain ⟨t, hok, hwritten, hmoves⟩ := Tree.write_ok h.nonempty h.valid (h₃.localTree ▸ hparent) hnot
        obtain ⟨w', hwrite, hends⟩ := localWrite_ends hfails₃ hok
        have hkept : t.content conflictPath = some (some data) := by
          rw [h₃.localTree] at hmoves
          rw [hmoves.content_eq h.apart (by simp [hcopy]), hcopy]
        rw [preserves_of_ok (hwrites.trans hwrite) (hends.remoteTree.trans (h₃.remoteTree.trans hremote₂)),
          hends.localTree, hkept, hwritten, hl, hremote]
        simp

/-- A file over a file. -/
theorem Preservable.fileOverFile (hl : l.isCollection = false) (hr : r.isCollection = false) :
    ctx.Preserves path conflictPath contentType w ↔
      ((ctx.env.answer w.calls).isBlank = true → w.Copied path conflictPath ∧ w.Alike path) ∧
      ((ctx.env.answer w.calls).fails = false → (ctx.env.answer w.calls).isBlank = false →
        (ctx.env.answer (w.calls + 1)).fails = false → w.localTree.isDirectory conflictPath = false →
        (ctx.env.answer (w.calls + 2)).isBlank = true → w.Alike path) := by
  obtain ⟨data, hlocal⟩ := h.tellsLocal.file hl
  have hpull : ctx.pullAndPreserve path conflictPath contentType = (ctx.env.readReplicaStream path >>= fun stream =>
      stream.elim (pure ()) fun stream => do
        ctx.env.localWrite conflictPath l.contentType stream
        ctx.remoteToLocal path contentType) := by
    rw [h.pull_eq, if_neg (by simp [hl]), hr, TransferContext.replacePreserved, if_neg Bool.false_ne_true]
    congr 1
    funext stream
    cases stream <;> rfl
  cases hfails : (ctx.env.answer w.calls).fails with
  | true =>
    obtain ⟨e, w', hread, hends⟩ := readReplicaStream_fails hfails
    have hrun : (ctx.pullAndPreserve path conflictPath contentType).run w = (.error e, w') := by
      rw [hpull]
      exact Act.run_bind_error hread
    rw [preserves_of_error hrun hends.remoteTree, hends.localTree]
    simp [isBlank_of_fails hfails]
  | false =>
    obtain ⟨w₁, hread, h₁⟩ := readReplicaStream_ends h.nonempty h.valid hfails
    cases hblank : (ctx.env.answer w.calls).isBlank with
    | true =>
      rw [if_pos hblank] at hread
      have hrun : (ctx.pullAndPreserve path conflictPath contentType).run w = (.ok (), w₁) := by
        rw [hpull]
        exact Act.run_bind_ok hread
      rw [preserves_of_ok hrun h₁.remoteTree, h₁.localTree, World.Copied, World.Alike, hlocal]
      simp
    | false =>
      rw [if_neg (by simp [hblank]), hlocal] at hread
      simp only [Bool.false_eq_true, false_imp_iff, true_and, true_imp_iff, ← h₁.calls]
      cases hfails₁ : (ctx.env.answer w₁.calls).fails with
      | true =>
        obtain ⟨e, w', hwrite, hends⟩ := localWrite_fails hfails₁
        have hrun : (ctx.pullAndPreserve path conflictPath contentType).run w = (.error e, w') := by
          rw [hpull, Act.run_bind_ok hread]
          exact Act.run_bind_error hwrite
        rw [preserves_of_error hrun (hends.remoteTree.trans h₁.remoteTree), hends.localTree, h₁.localTree]
        simp
      | false =>
        cases hdir : w.localTree.isDirectory conflictPath with
        | true =>
          obtain ⟨e, t, hrefused, -, hmoves⟩ := Tree.write_refused h.conflictNonempty h.conflictValid
            (h₁.localTree ▸ hdir)
          obtain ⟨w', hwrite, hends⟩ := localWrite_ends hfails₁ hrefused
          have hrun : (ctx.pullAndPreserve path conflictPath contentType).run w = (.error e, w') := by
            rw [hpull, Act.run_bind_ok hread]
            exact Act.run_bind_error hwrite
          rw [h₁.localTree] at hmoves
          rw [preserves_of_error hrun (hends.remoteTree.trans h₁.remoteTree), hends.localTree,
            hmoves.content_eq h.apart.symm (by simp [hlocal])]
          simp
        | false =>
          obtain ⟨t, hok, hwritten, hmoves⟩ := Tree.write_ok h.conflictNonempty h.conflictValid
            (h₁.localTree ▸ h.beside ▸ h.parent) (h₁.localTree ▸ hdir)
          obtain ⟨w₂, hwrite, h₂⟩ := localWrite_ends hfails₁ hok
          rw [h₁.localTree] at hmoves
          have hrest : (ctx.pullAndPreserve path conflictPath contentType).run w =
              (ctx.remoteToLocal path contentType).run w₂ := by
            rw [hpull, Act.run_bind_ok hread]
            exact Act.run_bind_ok hwrite
          have hpath : w₂.localTree.content path = some (some data) := by
            rw [h₂.localTree, hmoves.content_eq h.apart.symm (by simp [hlocal]), hlocal]
          have hparent : w₂.localTree.isDirectory (parentOf path) = true := by
            rw [h₂.localTree]
            exact hmoves.isDirectory (h.beside ▸ h.parent_ne) h.parent
          rw [h.afterCopy hlocal hr hrest (h₂.remoteTree.trans h₁.remoteTree) (h₂.localTree ▸ hwritten) hpath hparent]
          rw [h₂.calls, h₁.calls]
          simp

/-- Exactly when the promise of pull-and-preserve is kept. -/
theorem pullAndPreserve_preserves_iff (contentType : Option JsString) :
    ctx.Preserves path conflictPath contentType w ↔ PreservesWhen ctx.env w path conflictPath l r := by
  unfold PreservesWhen
  cases hl : l.isCollection with
  | true =>
    cases hr : r.isCollection with
    | true => exact iff_of_true (h.collections hl hr) trivial
    | false => exact h.fileOverCollection hl hr
  | false =>
    cases hr : r.isCollection with
    | true => exact h.collectionOverFile hl hr
    | false => exact h.fileOverFile hl hr

end Kinds

end Preserving

/-! ### A file met by a collection -/

def metContext (l r : Resource) : TransferContext :=
  ⟨.calm, ⟨[(js "f", l.entry (js "f"))], [(js "f", r.entry (js "f"))], [], true, 0, none, 0, none⟩⟩

def metWorld (l r : Resource) : World := World.ofTrees [(js "f", l)] [(js "f", r)]

theorem preservable_met (l r : Resource) : Preservable (metContext l r) (metWorld l r) (js "f") (js "f.conflict-0")
    (l.entry (js "f")) (r.entry (js "f")) where
  nonempty := by decide
  valid := by decide
  wellFormed := by
    intro p h
    have hp : p = js "f" := by
      by_contra hne
      simp [metWorld, World.ofTrees, Tree.content, Store.get, Ne.symm hne] at h
    rw [hp]
    exact ⟨by decide, Tree.isDirectory_iff.mpr (.inl (by decide))⟩
  localEntry := rfl
  remoteEntry := rfl
  tellsLocal := rfl
  tellsRemote := rfl
  conflictNonempty := by decide
  conflictValid := by decide
  beside := by decide
  apart := by decide

theorem preserves_met : (metContext (.file [1] 1) (.file [2] 2)).Preserves (js "f") (js "f.conflict-0") none
    (metWorld (.file [1] 1) (.file [2] 2)) := by
  refine (pullAndPreserve_preserves_iff (preservable_met (.file [1] 1) (.file [2] 2)) none).mpr ?_
  exact ⟨fun h => (Bool.false_ne_true h).elim, fun _ _ _ _ h => (Bool.false_ne_true h).elim⟩

theorem replaced_file_is_lost : ¬ ∀ ctx w path conflictPath l r contentType,
    Preservable ctx w path conflictPath l r → ctx.Preserves path conflictPath contentType w := by
  intro h
  have hmet := preservable_met (.file [1] 1) .directory
  rcases (hmet.collectionOverFile rfl rfl).mp (h _ _ _ _ _ _ none hmet) with hfails | hfails | hcopied
  · exact Bool.false_ne_true hfails
  · exact Bool.false_ne_true hfails
  · revert hcopied
    unfold World.Copied
    decide

end DurableDav.Replication
