import DurableDav.Dav.Calm
import DurableDav.Dav.CopyFacts
import DurableDav.Dav.CopyWalk

namespace DurableDav.Dav

open Library
open Replication (Bytes isValidInnerPath parentOf)

/-! ### What a volume is copied from -/

structure ListedEntry where
  path : JsString
  isCollection : Bool
  contentType : Option JsString
  etag : Option JsString
  props : List DeadProperty
  deriving DecidableEq

namespace Env

variable (env : Env)

/-- A path that is not valid, or at which nothing is found, is left out. -/
def listEntry (path : JsString) : Serve (Option ListedEntry) :=
  if !isValidInnerPath path then pure none
  else do
    let st ← env.statInner path
    if !st.found then pure none
    else do
      let row ← env.readMeta path
      let props ← (env.getDeadProperties path).attempt
      pure (some ⟨path, st.isDirectory, row.bind NodeRow.contentType, row.bind NodeRow.etag, props.toOption.getD []⟩)

def listEach : List JsString → Serve (List ListedEntry)
  | [] => pure []
  | name :: rest => do
    let entry ← env.listEntry (childInner [] name)
    let entries ← listEach rest
    pure (entry.toList ++ entries)

def listVolumeEntries : Serve (List ListedEntry) := do
  let names ← env.listRecursive []
  env.listEach names

def readVolumeFile (path : JsString) : Serve (Option (Bytes × Option JsString)) :=
  if path = [] ∨ !isValidInnerPath path then pure none
  else do
    let st ← env.statInner path
    if !st.found ∨ st.isDirectory then pure none
    else do
      match ← (env.read path).attempt with
      | .ok data => do
        let row ← env.readMeta path
        pure (some (data, row.bind NodeRow.contentType))
      | .error _ => pure none

end Env

/-! ### Listing without a fault -/

/-- The entry of a path, where it is one that can be addressed. -/
def Volume.listed (v : Volume) (path : JsString) : Option ListedEntry :=
  if isValidInnerPath path then (Store.get v.files path).map fun inode =>
    ⟨path, inode.bytes.isNone, (Store.get v.nodes path).bind NodeRow.contentType, (Store.get v.nodes path).bind NodeRow.etag,
      (v.deadProperties path).map deadProperty⟩
  else none

section Listing

variable {env : Env} {v : Volume} {path : JsString}

theorem childInner_root (h : ∀ name ∈ path.splitOn slash, name ≠ []) : Env.childInner [] path = path := by
  unfold Env.childInner
  rw [if_neg, if_pos rfl]
  intro hhead
  obtain ⟨t, rfl⟩ : ∃ t, path = slash :: t := by
    cases path with
    | nil => simp at hhead
    | cons c t => exact ⟨t, by simpa using hhead⟩
  exact h [] (by rw [List.splitOn_cons_eq_if_modifyHead, if_pos (by simp)]; simp) rfl

theorem runs_listEntry (hcalm : env.Calm) (hpath : path ≠ []) : Runs (env.listEntry path) v (.ok (v.listed path)) v := by
  unfold Env.listEntry Volume.listed
  cases hvalid : isValidInnerPath path with
  | false => exact runs_pure none
  | true =>
    simp only [Bool.not_true, Bool.false_eq_true, ↓reduceIte]
    refine runs_bind (runs_statInner hcalm) ?_
    cases hget : Store.get v.files path with
    | none =>
      have hstat : v.files.stat path = none := by simp [Files.stat, hpath, hget]
      rw [hstat]
      exact runs_pure none
    | some inode =>
      have hstat : v.files.stat path = some ⟨true, inode.bytes.isNone, (inode.bytes.getD []).length, inode.mtime⟩ := by
        simp [Files.stat, hpath, hget]
      rw [hstat]
      refine runs_bind (runs_readMeta hcalm) ?_
      exact runs_bind (runs_attempt (runs_getDeadProperties hcalm)) (runs_pure _)

theorem runs_listEach (hcalm : env.Calm) (names : List JsString) (h : ∀ q ∈ names, q ≠ [] ∧ Env.childInner [] q = q) :
    Runs (env.listEach names) v (.ok (names.filterMap v.listed)) v := by
  induction names with
  | nil => exact runs_pure []
  | cons q rest ih =>
    obtain ⟨hne, hq⟩ := h q (by simp)
    have hentry : Runs (env.listEntry (Env.childInner [] q)) v (.ok (v.listed q)) v := by
      rw [hq]
      exact runs_listEntry hcalm hne
    refine runs_bind hentry (runs_bind (ih fun q' hq' => h q' (by simp [hq'])) ?_)
    rw [List.filterMap_cons]
    cases v.listed q with
    | none => exact runs_pure _
    | some entry => exact runs_pure _

theorem runs_listVolumeEntries (hcalm : env.Calm) (htree : v.files.WellFormed) :
    Runs env.listVolumeEntries v (.ok ((v.files.below []).filterMap v.listed)) v := by
  have hnames : Runs (env.listRecursive []) v (.ok (v.files.below [])) v := by
    have hroot : v.files.found [] = true := found_iff.mpr (.inl rfl)
    have hlist := runs_listDir (v := v) hcalm hroot true
    have hsame : (v.files.below []).map (Files.relative []) = v.files.below [] := by
      conv_rhs => rw [← List.map_id (v.files.below [])]
      exact List.map_congr_left fun q _ => if_pos rfl
    rw [if_pos rfl, hsame] at hlist
    exact runs_bind (runs_attempt hlist) (runs_pure _)
  refine runs_bind hnames (runs_listEach hcalm _ fun q hq => ?_)
  obtain ⟨hget, hbelow⟩ := mem_below.mp hq
  exact ⟨hbelow.ne_nil, childInner_root (htree q hget).1⟩

theorem runs_readVolumeFile (hcalm : env.Calm) {data : Bytes} {m : ℕ} (hpath : path ≠ []) (hvalid : isValidInnerPath path = true)
    (hget : Store.get v.files path = some ⟨some data, m⟩) : Runs (env.readVolumeFile path) v
      (.ok (some (data, (Store.get v.nodes path).bind NodeRow.contentType))) v := by
  unfold Env.readVolumeFile
  rw [if_neg (by simp [hpath, hvalid])]
  refine runs_bind (runs_statInner hcalm) ?_
  have hstat : v.files.stat path = some ⟨true, false, data.length, m⟩ := by simp [Files.stat, hpath, hget]
  rw [hstat, Option.getD_some, if_neg (by simp)]
  exact runs_bind (runs_attempt (runs_read hcalm hget)) (runs_bind (runs_readMeta hcalm) (runs_pure _))

end Listing

/-! ### Writing the entries without a fault -/

/-- The validator that a file has after it was copied. -/
def copiedEtag (v : Volume) (env : Env) (path : JsString) (data : Bytes) : JsString :=
  ((Store.get v.nodes path).bind NodeRow.etag).getD (mintEtag data.length env.now)

/-- The type that a file has after it was copied. -/
def copiedType (v : Volume) (path : JsString) : JsString :=
  ((Store.get v.nodes path).bind NodeRow.contentType).getD (js "application/octet-stream")

/-- The paths that were written hold what they hold in the other volume, and nothing else is there. -/
structure Stored (v : Volume) (envs : JsString → Env) (done : List JsString) (t : Volume) : Prop where
  files : ∀ q, (Store.get t.files q).map Inode.bytes = if q ∈ done then (Store.get v.files q).map Inode.bytes else none
  rows : ∀ q ∈ done, ∀ data m, Store.get v.files q = some ⟨some data, m⟩ → ∃ row, Store.get t.nodes q = some row ∧
    row.etag = some (copiedEtag v (envs q) q data) ∧ row.mtime = (envs q).now ∧ row.contentType = some (copiedType v q)
  unrecorded : t.replicaState = []
  unlocked : t.locks = []

/-- They have their dead properties, too. -/
structure Landed (v : Volume) (envs : JsString → Env) (done : List JsString) (t : Volume) : Prop
    extends Stored v envs done t where
  props : ∀ key, Store.get t.props key = if key.path ∈ done then Store.get v.props key else none

/-- What the entry of a path is written from. -/
structure Carries (v : Volume) (e : VolumeEntry) (inode : Inode) : Prop where
  valid : isValidInnerPath e.path = true
  root : e.path ≠ []
  held : Store.get v.files e.path = some inode
  kind : e.isCollection = inode.bytes.isNone
  data : ∀ data, inode.bytes = some data → e.data = data ∧ e.etag = (Store.get v.nodes e.path).bind NodeRow.etag ∧
    e.contentType = (Store.get v.nodes e.path).bind NodeRow.contentType
  props : e.props = (v.deadProperties e.path).map deadProperty

section Writing

variable {env : Env} {envs : JsString → Env} {v t : Volume} {done : List JsString} {e : VolumeEntry} {inode : Inode}

theorem landed_isDirectory (h : Stored v envs done t) {q : JsString} (hq : q ∈ done) :
    t.files.isDirectory q = v.files.isDirectory q := by
  have hfiles := h.files q
  rw [if_pos hq] at hfiles
  unfold Files.isDirectory
  cases hv : Store.get v.files q <;> cases ht : Store.get t.files q <;> simp_all

theorem landed_parent (h : Stored v envs done t) (htree : v.files.WellFormed) (hc : Carries v e inode)
    (habove : ∀ q, q ≠ [] → Below slash q e.path → q ∈ done) : t.files.isDirectory (parentOf e.path) = true := by
  by_cases hroot : parentOf e.path = []
  · exact isDirectory_iff.mpr (.inl hroot)
  · rw [landed_isDirectory h (habove _ hroot (below_parentSegments hroot))]
    exact (htree _ (by rw [hc.held]; rfl)).2

/-- What lies above a path are collections that were written before it. -/
theorem landed_prefixes (h : Stored v envs done t) (htree : v.files.WellFormed) (hc : Carries v e inode)
    (habove : ∀ q, q ≠ [] → Below slash q e.path → q ∈ done) (hparent : parentOf e.path ≠ []) :
    ∀ q ∈ prefixes slash (parentOf e.path), v.files.isDirectory q = true ∧ t.files.isDirectory q = true := by
  intro q hq
  have hbelow : Below slash q e.path := by
    rcases eq_or_below_of_mem_prefixes hq with rfl | hb
    · exact below_parentSegments hparent
    · exact hb.trans (below_parentSegments hparent)
  have hdir : v.files.isDirectory q = true := htree.above (by rw [hc.held]; rfl) hbelow
  by_cases hroot : q = []
  · exact ⟨hdir, isDirectory_iff.mpr (.inl hroot)⟩
  · exact ⟨hdir, by rw [landed_isDirectory h (habove q hroot hbelow), hdir]⟩

/-- The rows above the path are written again, those of files are not. -/
theorem runs_upsertAncestors (hcalm : env.Calm) (h : Landed v envs done t) (htree : v.files.WellFormed)
    (hc : Carries v e inode) (habove : ∀ q, q ≠ [] → Below slash q e.path → q ∈ done) :
    ∃ t', Runs (env.upsertAncestors (getParentPath e.path)) t (.ok ()) t' ∧ t'.files = t.files ∧
      Landed v envs done t' := by
  rw [getParentPath_eq hc.valid]
  unfold Env.upsertAncestors
  by_cases hroot : parentOf e.path = []
  · rw [if_pos hroot]
    exact ⟨t, runs_pure (), rfl, h⟩
  · rw [if_neg hroot]
    have hdirs := landed_prefixes h.toStored htree hc habove hroot
    have hmade := runs_attempt (runs_mkdirAll hcalm fun q hq => (hdirs q hq).2)
    have hrows : ∃ t', Runs (Act.each env.upsertCollectionNode (prefixes slash (parentOf e.path))) t (.ok ()) t' ∧
        t'.files = t.files ∧ Landed v envs done t' := by
      apply runs_each (I := fun t' => t'.files = t.files ∧ Landed v envs done t')
      · rintro q hq w ⟨hfiles, hw⟩
        refine ⟨_, runs_upsertNode hcalm _, hfiles, ⟨hw.files, ?_, hw.unrecorded, hw.unlocked⟩, hw.props⟩
        intro q' hq' data m hfile
        obtain ⟨row, hrow, hrest⟩ := hw.rows q' hq' data m hfile
        refine ⟨row, ?_, hrest⟩
        have hne : q' ≠ q := by
          rintro rfl
          have hdir := (hdirs q' hq).1
          rcases isDirectory_iff.mp hdir with hnil | ⟨i, hi, hbytes⟩
          · exact (htree q' (by rw [hfile]; rfl)).1 [] (by rw [hnil]; simp) rfl
          · rw [hfile] at hi
            rw [← Option.some.inj hi] at hbytes
            cases hbytes
        rw [upsertNode_get, if_neg hne, hrow]
      · exact ⟨rfl, h⟩
    obtain ⟨t', hrun, ht'⟩ := hrows
    exact ⟨t', runs_bind hmade hrun, ht'⟩

/-- The entry itself. -/
theorem runs_writeContent (hcalm : (envs e.path).Calm) (h : Stored v envs done t) (hc : Carries v e inode)
    (hparent : t.files.isDirectory (parentOf e.path) = true) (hfresh : e.path ∉ done) :
    ∃ t', Runs ((envs e.path).writeContent e) t (.ok ()) t' ∧ t'.props = t.props ∧ Stored v envs (e.path :: done) t' := by
  have hnone : Store.get t.files e.path = none := by
    have hfiles := h.files e.path
    rw [if_neg hfresh] at hfiles
    simpa using hfiles
  have hmissing : t.files.found e.path = false := by simp [Files.found, hc.root, hnone]
  have hfiles (i : Inode) (hi : i.bytes = inode.bytes) (q : JsString) :
      (Store.get (Store.put t.files e.path i) q).map Inode.bytes =
        if q ∈ e.path :: done then (Store.get v.files q).map Inode.bytes else none := by
    rw [Store.get_put]
    by_cases hq : q = e.path
    · subst hq
      simp [hc.held, hi]
    · rw [if_neg hq, h.files q]
      simp [hq]
  unfold Env.writeContent
  cases hbytes : inode.bytes with
  | none =>
    rw [if_pos (by rw [hc.kind, hbytes]; rfl)]
    refine ⟨_, runs_bind (runs_attempt (runs_mkdir hcalm hmissing hparent)) (runs_upsertNode hcalm _), rfl, ?_, ?_,
      h.unrecorded, h.unlocked⟩
    · exact hfiles ⟨none, (envs e.path).now⟩ hbytes.symm
    · intro q hq data m hfile
      have hne : q ≠ e.path := by
        rintro rfl
        rw [hc.held] at hfile
        rw [Option.some.inj hfile] at hbytes
        cases hbytes
      obtain ⟨row, hrow, hrest⟩ := h.rows q ((List.mem_cons.mp hq).resolve_left hne) data m hfile
      refine ⟨row, ?_, hrest⟩
      rw [upsertNode_get, if_neg hne]
      exact hrow
  | some data =>
    obtain ⟨hdata, hetag, htype⟩ := hc.data data hbytes
    have hnodir : t.files.isDirectory e.path = false := by simp [Files.isDirectory, hc.root, hnone]
    rw [if_neg (by rw [hc.kind, hbytes]; simp)]
    refine ⟨_, runs_bind (runs_writeFile hcalm hnodir hparent) (runs_upsertNode hcalm _), rfl, ?_, ?_, h.unrecorded,
      h.unlocked⟩
    · exact hfiles ⟨some e.data, (envs e.path).now⟩ (by rw [hbytes, hdata])
    · intro q hq data' m hfile
      rw [upsertNode_get]
      by_cases hne : q = e.path
      · subst hne
        rw [hc.held] at hfile
        rw [Option.some.inj hfile] at hbytes
        obtain rfl := Option.some.inj hbytes
        rw [if_pos rfl]
        refine ⟨_, rfl, ?_, rfl, ?_⟩
        · simp only [copiedEtag, hetag, hdata]
        · simp only [copiedType, htype]
      · obtain ⟨row, hrow, hrest⟩ := h.rows q ((List.mem_cons.mp hq).resolve_left hne) data' m hfile
        rw [if_neg hne]
        exact ⟨row, hrow, hrest⟩

theorem runs_setProps (hcalm : env.Calm) (path : JsString) (es : List (PropKey × PropRow)) :
    Runs (Act.each (fun p => do
      let _ ← (env.setDeadProperty path p).attempt
      pure ()) (es.map deadProperty)) t (.ok ()) { t with props := Volume.addProps path t.props es } := by
  induction es generalizing t with
  | nil => exact runs_pure ()
  | cons e es ih =>
    have hset : Runs (do
        let _ ← (env.setDeadProperty path (deadProperty e)).attempt
        pure ()) t (.ok ()) { t with props := Store.put t.props { e.1 with path := path } e.2 } :=
      runs_bind (runs_attempt (runs_call hcalm (runs_modifyVolume _))) (runs_pure ())
    exact runs_bind hset ih

/-- The properties of the entry are written where there were none. -/
theorem addProps_landed (h : ∀ key, Store.get t.props key = if key.path ∈ done then Store.get v.props key else none)
    (path : JsString) (key : PropKey) :
    Store.get (Volume.addProps path t.props (v.deadProperties path)) key =
      if key.path ∈ path :: done then Store.get v.props key else none := by
  have hown {e : PropKey × PropRow} (he : e ∈ v.deadProperties path) : ({ e.1 with path := path } : PropKey) = e.1 := by
    rw [← (mem_deadProperties.mp he).1]
  cases hrow : Store.get v.props key with
  | some row =>
    by_cases hpath : key.path = path
    · rw [if_pos (by simp [hpath])]
      have hmem : (key, row) ∈ v.deadProperties path := mem_deadProperties.mpr ⟨hpath, hrow⟩
      refine addProps_hit (fun e he hk => ?_) ⟨_, hmem, hown hmem⟩
      rw [hown he] at hk
      have hget := (mem_deadProperties.mp he).2
      rw [hk, hrow] at hget
      exact (Option.some.inj hget).symm
    · rw [addProps_miss fun e _ hk => hpath (by rw [← hk]), h key, hrow]
      simp [hpath]
  | none =>
    rw [addProps_miss fun e he hk => ?_, h key, hrow]
    · simp
    · rw [hown he] at hk
      have hget := (mem_deadProperties.mp he).2
      rw [hk, hrow] at hget
      cases hget

theorem runs_writeEntry (hcalm : (envs e.path).Calm) (h : Landed v envs done t) (htree : v.files.WellFormed)
    (hc : Carries v e inode) (habove : ∀ q, q ≠ [] → Below slash q e.path → q ∈ done) (hfresh : e.path ∉ done) :
    ∃ t', Runs ((envs e.path).writeEntry e) t (.ok ()) t' ∧ Landed v envs (e.path :: done) t' := by
  unfold Env.writeEntry
  rw [if_neg (by simp [hc.valid, hc.root])]
  obtain ⟨t₁, hancestors, -, h₁⟩ := runs_upsertAncestors hcalm h htree hc habove
  obtain ⟨t₂, hcontent, hsame, h₂⟩ := runs_writeContent hcalm h₁.toStored hc (landed_parent h₁.toStored htree hc habove) hfresh
  rw [hc.props]
  refine ⟨_, runs_bind hancestors (runs_bind hcontent (runs_setProps hcalm e.path _)), ⟨h₂.files, h₂.rows, h₂.unrecorded,
    h₂.unlocked⟩, ?_⟩
  exact addProps_landed (hsame ▸ h₁.props) e.path

end Writing

end DurableDav.Dav
