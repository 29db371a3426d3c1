import DurableDav.Dav.ReplicaListing
import DurableDav.Front.VolumeMove
import DurableDav.Replication.Quiet

namespace DurableDav.Front

open Library Dav
open Replication (Bytes isValidInnerPath parentOf PlanSide Tree provablyIdentical)

/-! ### Moving the objects of all volumes of an owner -/

abbrev Objects := JsString → Volume

structure Fleet where
  volumes : Volumes
  objects : Objects

structure VolumeMoveItem where
  oldOwner : JsString
  newOwner : JsString
  volume : JsString

/-- The calls of the moves, and those of the moves back that undo them. -/
structure RenameEnvs where
  there : JsString → MoveEnvs
  back : JsString → MoveEnvs
  -- whether the handle can be set back
  restores : Bool

section Moves

variable (C : Casing)

def moveBetween (E : MoveEnvs) (oldOwner newOwner volume : JsString) : Act Objects Failure Bool :=
  ⟨fun objects =>
    let source := normalizeVolumeKey C oldOwner volume
    let target := normalizeVolumeKey C newOwner volume
    let m := (moveOneVolume E).run ⟨objects source, objects target⟩
    (m.1, Function.update (Function.update objects source m.2.source) target m.2.target)⟩

def moveBack (envs : RenameEnvs) (item : VolumeMoveItem) : Act Objects Failure Unit := do
  let _ ← (moveBetween C (envs.back item.volume) item.newOwner item.oldOwner item.volume).attempt
  pure ()

/-- At the first move that fails those before it are undone, the last one first. -/
def moveVolumeDosForRename (envs : RenameEnvs) : List VolumeMoveItem → List VolumeMoveItem → Act Objects Failure Unit
  | [], _ => pure ()
  | item :: rest, completed =>
    if item.oldOwner = item.newOwner then moveVolumeDosForRename envs rest completed
    else do
      match ← (moveBetween C (envs.there item.volume) item.oldOwner item.newOwner item.volume).attempt with
      | .ok _ => moveVolumeDosForRename envs rest (item :: completed)
      | .error e => do
        Act.each (moveBack C envs) completed
        .throw e

def renameSnapshotLimit : ℕ := 1000

def snapshotOwnedVolumes (rows : Volumes) (account : JsString) : Volumes :=
  (rows.filter fun r => r.ownerUserId = account).take renameSnapshotLimit

/-- Whether the rename is reported as done, and what it leaves. A handle that changes only its case moves nothing. -/
def Fleet.handleRenameUsername (envs : RenameEnvs) (account old new : JsString) (fleet : Fleet) : Bool × Fleet :=
  let moves := (snapshotOwnedVolumes fleet.volumes account).map fun row => VolumeMoveItem.mk old new row.name
  let renamed := fleet.volumes.renameOwner C (C.toLowerCase old) new
  if C.toLowerCase old = C.toLowerCase new then (true, ⟨renamed, fleet.objects⟩)
  else match (moveVolumeDosForRename C envs moves []).run fleet.objects with
    | (.ok _, objects) => (true, ⟨renamed, objects⟩)
    | (.error _, objects) =>
      (false, ⟨if envs.restores then renamed.renameOwner C (C.toLowerCase new) old else renamed, objects⟩)

end Moves

/-! ### What has become of a moved volume -/

/-- The object has received all of the volume that can be addressed. -/
def Moved (v : Volume) (E : MoveEnvs) (t : Volume) : Prop := ∃ done, Landed v E.writing done t ∧
  ∀ q, q ∈ done ↔ q ≠ [] ∧ isValidInnerPath q = true ∧ (Store.get v.files q).isSome

/-- A file as it is listed after it was copied at that time. -/
def restamped (now : ℕ) (l : PlanSide) : PlanSide :=
  { l with etag := some (l.etag.getD (mintEtag (l.size.getD 0) now)), mtime := some (now : ℤ) }

section Moved

variable {v t : Volume} {E : MoveEnvs} {q : JsString} {l : PlanSide}

theorem moved_bytes (h : Moved v E t) (hq : q ≠ []) (hvalid : isValidInnerPath q = true) :
    (Store.get t.files q).map Inode.bytes = (Store.get v.files q).map Inode.bytes := by
  obtain ⟨done, hlanded, hdone⟩ := h
  rw [hlanded.files q]
  split
  · rfl
  · rename_i hnot
    cases hget : Store.get v.files q with
    | none => rfl
    | some inode => exact absurd ((hdone q).mpr ⟨hq, hvalid, by rw [hget]; rfl⟩) hnot

theorem content_tree (v : Volume) (q : JsString) : v.tree.content q =
    if q ≠ [] ∧ isValidInnerPath q = true then (Store.get v.files q).map Inode.bytes else none := by
  rw [Replication.Tree.content, v.get_tree]
  split
  · unfold Volume.resource
    cases Store.get v.files q <;> rfl
  · rfl

theorem moved_content (h : Moved v E t) (q : JsString) : t.tree.content q = v.tree.content q := by
  rw [content_tree, content_tree]
  by_cases hq : q ≠ [] ∧ isValidInnerPath q = true
  · rw [if_pos hq, if_pos hq, moved_bytes h hq.1 hq.2]
  · rw [if_neg hq, if_neg hq]

theorem describe_eq_some : v.tree.describe q = some l ↔ q ≠ [] ∧ isValidInnerPath q = true ∧
    ∃ inode, Store.get v.files q = some inode ∧ l = ⟨q, inode.bytes.isNone, (Store.get v.nodes q).bind NodeRow.etag,
      some (((Store.get v.nodes q).map NodeRow.mtime).getD inode.mtime : ℕ), some (inode.bytes.getD []).length,
      (Store.get v.nodes q).bind NodeRow.contentType⟩ := by
  by_cases hq : q ≠ [] ∧ isValidInnerPath q = true
  · rw [v.describe_tree hq.1 hq.2]
    unfold Volume.resource
    cases Store.get v.files q with
    | none => simp
    | some inode => simp [hq.1, hq.2, Replication.Resource.entry, Replication.Resource.isCollection, eq_comm]
  · rw [Replication.Tree.describe, v.get_tree, if_neg hq]
    simp only [Option.map_none, reduceCtorEq, false_iff]
    rintro ⟨hne, hvalid, -⟩
    exact hq ⟨hne, hvalid⟩

theorem provablyIdentical_congr {a b r : PlanSide} (hkind : a.isCollection = b.isCollection) (hetag : a.etag = b.etag)
    (hsize : a.size = b.size) (hmtime : a.mtime = b.mtime) : provablyIdentical a r = provablyIdentical b r := by
  unfold provablyIdentical Replication.sameSizeAndTime
  rw [hkind, hetag, hsize, hmtime]

/-- For the planner a moved path is the old one with new stamps. -/
theorem moved_describe (h : Moved v E t) (hl : v.tree.describe q = some l) : ∃ l', t.tree.describe q = some l' ∧
    ∀ r, provablyIdentical l' r = provablyIdentical (restamped (E.writing q).now l) r := by
  obtain ⟨hq, hvalid, inode, hget, rfl⟩ := describe_eq_some.mp hl
  have hbytes := moved_bytes h hq hvalid
  rw [hget] at hbytes
  obtain ⟨inode', hget', hsame⟩ := Option.map_eq_some_iff.mp hbytes
  refine ⟨_, describe_eq_some.mpr ⟨hq, hvalid, inode', hget', rfl⟩, fun r => ?_⟩
  rw [hsame]
  cases hdata : inode.bytes with
  | none => simp [provablyIdentical, restamped]
  | some data =>
    obtain ⟨done, hlanded, hdone⟩ := h
    have hmem := (hdone q).mpr ⟨hq, hvalid, by rw [hget]; rfl⟩
    obtain ⟨row, hrow, hetag, hmtime, -⟩ := hlanded.rows q hmem data inode.mtime (by rw [hget, ← hdata])
    apply provablyIdentical_congr
    · rfl
    · simp [restamped, hrow, hetag, copiedEtag]
    · rfl
    · simp [restamped, hrow, hmtime]

theorem tree_wellFormed (htree : v.files.WellFormed) : v.tree.WellFormed := by
  intro q hq
  rw [content_tree] at hq
  obtain ⟨⟨hne, hvalid⟩, hget⟩ : (q ≠ [] ∧ isValidInnerPath q = true) ∧ (Store.get v.files q).isSome := by
    split at hq
    · rename_i h
      exact ⟨h, by simpa [Option.isSome_iff_ne_none] using hq⟩
    · exact absurd rfl hq
  refine ⟨hne, Replication.Tree.isDirectory_iff.mpr ?_⟩
  by_cases hroot : parentOf q = []
  · exact .inl hroot
  · right
    obtain ⟨i, hi, hbytes⟩ := (isDirectory_iff.mp (htree q hget).2).resolve_left hroot
    have habove := Replication.valid_above hroot (below_parentSegments hroot) hvalid
    rw [content_tree, if_pos ⟨hroot, habove⟩, hi, Option.map_some, hbytes]

end Moved

/-! ### A rename whose moves meet no fault -/

section Moves

variable {C : Casing} {envs : RenameEnvs} {old new : JsString}

theorem key_ne {n n' : JsString} (hold : isValidUsername old = true) (hnew : isValidUsername new = true)
    (hne : C.toLowerCase old ≠ C.toLowerCase new) : normalizeVolumeKey C old n ≠ normalizeVolumeKey C new n' := by
  intro hkey
  exact hne (key_inj hold hnew hkey).1

theorem key_name_ne {n n' : JsString} (hold : isValidUsername old = true) (hne : C.toLowerCase n ≠ C.toLowerCase n') :
    normalizeVolumeKey C old n ≠ normalizeVolumeKey C old n' := by
  intro hkey
  exact hne (key_inj hold hold hkey).2

theorem moveBetween_run {E : MoveEnvs} {objects : Objects} {name : JsString} (hcalm : E.Calm)
    (htree : (objects (normalizeVolumeKey C old name)).files.WellFormed)
    (hfresh : objects (normalizeVolumeKey C new name) = emptyVolume) : ∃ empty t,
    (moveBetween C E old new name).run objects = (.ok empty, Function.update (Function.update objects
      (normalizeVolumeKey C old name) emptyVolume) (normalizeVolumeKey C new name) t) ∧
        Moved (objects (normalizeVolumeKey C old name)) E t := by
  obtain ⟨empty, t, done, hrun, hlanded, hdone⟩ := moveOneVolume_run hcalm htree
  refine ⟨empty, t, ?_, done, hlanded, hdone⟩
  unfold moveBetween
  simp only [hfresh, hrun]

theorem moveVolumes_run (hcalm : ∀ name, (envs.there name).Calm) (hold : isValidUsername old = true)
    (hnew : isValidUsername new = true) (hne : C.toLowerCase old ≠ C.toLowerCase new) (names : List JsString)
    (completed : List VolumeMoveItem) {objects : Objects} (hdistinct : (names.map C.toLowerCase).Nodup)
    (htree : ∀ n ∈ names, (objects (normalizeVolumeKey C old n)).files.WellFormed)
    (hfresh : ∀ n ∈ names, objects (normalizeVolumeKey C new n) = emptyVolume) : ∃ objects',
    (moveVolumeDosForRename C envs (names.map (VolumeMoveItem.mk old new)) completed).run objects = (.ok (), objects') ∧
      (∀ n ∈ names, Moved (objects (normalizeVolumeKey C old n)) (envs.there n) (objects' (normalizeVolumeKey C new n)) ∧
        objects' (normalizeVolumeKey C old n) = emptyVolume) ∧
      ∀ k, (∀ n ∈ names, k ≠ normalizeVolumeKey C old n ∧ k ≠ normalizeVolumeKey C new n) → objects' k = objects k := by
  induction names generalizing objects completed with
  | nil => exact ⟨objects, rfl, by simp, fun _ _ => rfl⟩
  | cons name rest ih =>
    rw [List.map_cons, List.nodup_cons] at hdistinct
    obtain ⟨empty, t, hrun, hmoved⟩ := moveBetween_run (hcalm name) (htree name (by simp)) (hfresh name (by simp))
    have hother : ∀ n ∈ rest, C.toLowerCase n ≠ C.toLowerCase name := fun n hn heq =>
      hdistinct.1 (List.mem_map.mpr ⟨n, hn, heq⟩)
    generalize hafter : Function.update (Function.update objects (normalizeVolumeKey C old name) emptyVolume)
      (normalizeVolumeKey C new name) t = after at hrun
    have hkept : ∀ k, k ≠ normalizeVolumeKey C old name → k ≠ normalizeVolumeKey C new name → after k = objects k := by
      intro k hk hk'
      rw [← hafter, Function.update_of_ne hk', Function.update_of_ne hk]
    have hkeptOld : ∀ n ∈ rest, after (normalizeVolumeKey C old n) = objects (normalizeVolumeKey C old n) := fun n hn =>
      hkept _ (key_name_ne hold (hother n hn)) (key_ne hold hnew hne)
    have hkeptNew : ∀ n ∈ rest, after (normalizeVolumeKey C new n) = objects (normalizeVolumeKey C new n) := fun n hn =>
      hkept _ (key_ne hnew hold (Ne.symm hne)) (key_name_ne hnew (hother n hn))
    have htreeAfter : ∀ n ∈ rest, (after (normalizeVolumeKey C old n)).files.WellFormed := fun n hn => by
      rw [hkeptOld n hn]
      exact htree n (by simp [hn])
    have hfreshAfter : ∀ n ∈ rest, after (normalizeVolumeKey C new n) = emptyVolume := fun n hn => by
      rw [hkeptNew n hn]
      exact hfresh n (by simp [hn])
    obtain ⟨objects', hrest, hall, hframe⟩ := ih (⟨old, new, name⟩ :: completed) hdistinct.2 htreeAfter hfreshAfter
    refine ⟨objects', ?_, ?_, ?_⟩
    · rw [List.map_cons, moveVolumeDosForRename, if_neg (fun heq => hne (congrArg _ heq))]
      have hattempt : (moveBetween C (envs.there name) old new name).attempt.run objects = (.ok (.ok empty), after) := by
        rw [Act.run_attempt, hrun]
      rw [Act.run_bind_ok hattempt]
      exact hrest
    · intro n hn
      rcases List.mem_cons.mp hn with rfl | hn
      · have hto := hframe (normalizeVolumeKey C new n) fun n' hn' =>
          ⟨key_ne hnew hold (Ne.symm hne), key_name_ne hnew (Ne.symm (hother n' hn'))⟩
        have hout := hframe (normalizeVolumeKey C old n) fun n' hn' =>
          ⟨key_name_ne hold (Ne.symm (hother n' hn')), key_ne hold hnew hne⟩
        rw [hto, hout, ← hafter, Function.update_self, Function.update_of_ne (key_ne hold hnew hne), Function.update_self]
        exact ⟨hmoved, rfl⟩
      · rw [← hkeptOld n hn]
        exact hall n hn
    · intro k hk
      obtain ⟨hk₁, hk₂⟩ := hk name (by simp)
      rw [hframe k fun n hn => hk n (by simp [hn]), hkept k hk₁ hk₂]

theorem snapshot_apart {rows : Volumes} {account : JsString} (hkeys : (rows.keys C).Nodup)
    (howner : ∀ r ∈ rows, r.ownerUserId = account → C.toLowerCase r.owner = C.toLowerCase old) :
    (((snapshotOwnedVolumes rows account).map DavVolumeRow.name).map C.toLowerCase).Nodup := by
  have hsub : (snapshotOwnedVolumes rows account).Sublist rows := (List.take_sublist _ _).trans List.filter_sublist
  have howned : ∀ r ∈ snapshotOwnedVolumes rows account, C.toLowerCase r.owner = C.toLowerCase old := by
    intro r hr
    have hfilter := List.mem_of_mem_take hr
    exact howner r (hsub.subset hr) (by simpa using (List.mem_filter.mp hfilter).2)
  have hpairs : (snapshotOwnedVolumes rows account).Pairwise fun r r' =>
      normalizeVolumeKey C r.owner r.name ≠ normalizeVolumeKey C r'.owner r'.name :=
    List.Pairwise.sublist hsub (List.pairwise_map.mp hkeys)
  rw [List.map_map, List.Nodup, List.pairwise_map]
  refine hpairs.imp_of_mem fun {r r'} hr hr' hkey heq => hkey ?_
  unfold normalizeVolumeKey
  rw [howned r hr, howned r' hr', show C.toLowerCase r.name = C.toLowerCase r'.name from heq]

theorem renamed_row {rows : Volumes} {account : JsString} {row : DavVolumeRow}
    (howner : ∀ r ∈ rows, r.ownerUserId = account → C.toLowerCase r.owner = C.toLowerCase old)
    (hrow : row ∈ snapshotOwnedVolumes rows account) : { row with owner := new } ∈ rows.renameOwner C (C.toLowerCase old) new := by
  have hfilter := List.mem_filter.mp (List.mem_of_mem_take hrow)
  refine List.mem_map.mpr ⟨row, hfilter.1, ?_⟩
  rw [if_pos (howner row hfilter.1 (by simpa using hfilter.2))]

end Moves

/-- The object has what can be addressed of the volume: contents, types, validators and dead properties; no lock and no
recorded base comes with them. -/
structure Arrived (v t : Volume) : Prop where
  content : ∀ q, t.tree.content q = v.tree.content q
  rows : ∀ q data m, q ≠ [] → isValidInnerPath q = true → Store.get v.files q = some ⟨some data, m⟩ →
    ∃ row, Store.get t.nodes q = some row ∧ row.contentType = some (copiedType v q) ∧
      ∀ tag, (Store.get v.nodes q).bind NodeRow.etag = some tag → row.etag = some tag
  props : ∀ key, v.tree.content key.path ≠ none → Store.get t.props key = Store.get v.props key
  bare : t.locks = [] ∧ t.replicaState = []

theorem arrived_of_moved {v t : Volume} {E : MoveEnvs} (h : Moved v E t) : Arrived v t := by
  obtain ⟨done, hlanded, hdone⟩ := id h
  refine ⟨moved_content h, fun q data m hq hvalid hget => ?_, fun key hkey => ?_, hlanded.unlocked, hlanded.unrecorded⟩
  · obtain ⟨row, hrow, hetag, -, htype⟩ := hlanded.rows q ((hdone q).mpr ⟨hq, hvalid, by rw [hget]; rfl⟩) data m hget
    refine ⟨row, hrow, htype, fun tag htag => ?_⟩
    rw [hetag, copiedEtag, htag]
    rfl
  · rw [hlanded.props key, if_pos]
    rw [content_tree] at hkey
    split at hkey
    · rename_i hpath
      exact (hdone key.path).mpr ⟨hpath.1, hpath.2, by simpa [Option.isSome_iff_ne_none] using hkey⟩
    · exact absurd rfl hkey

def photos : Volume where
  files := [(js "a", ⟨some [1, 2], 5⟩), (js "d", ⟨none, 5⟩), (js "d/g", ⟨some [3], 5⟩)]
  nodes := [(js "a", ⟨false, some (js "image/png"), some (mintEtag 2 5), 5, 5, false⟩)]
  props := [(⟨js "a", js "n", js "rating"⟩, ⟨none, js "5"⟩)]
  locks := []
  replicaState := []

def alicePhotos : Fleet where
  volumes := [⟨js "1", js "a", js "alice", js "photos", true, .base⟩]
  objects := Function.update (fun _ => emptyVolume) (js "alice/photos") photos

def calmMove : MoveEnvs where
  delivery := fun _ => .heard
  listing := calmEnv
  reading := fun _ => calmEnv
  writing := fun _ => calmEnv
  purging := calmEnv
  undoing := calmEnv

theorem calmMove_calm : calmMove.Calm :=
  ⟨fun _ => rfl, fun _ _ => rfl, fun _ _ _ => rfl, fun _ _ _ => rfl, fun _ _ => rfl⟩

theorem photos_wellFormed : photos.files.WellFormed := wellFormed_of_keys (by decide)

end DurableDav.Front
