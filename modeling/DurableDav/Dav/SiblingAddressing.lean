import DurableDav.Dav.SiblingWrites
import DurableDav.Dav.LockCourse

namespace DurableDav.Dav

open Library
open Replication (Bytes isValidInnerPath parentOf PlanSide RemoteError RemoteListing childPath)

/-! ### What only reads -/

/-- The bytes of a file. -/
def Volume.content (v : Volume) (q : JsString) : Option Bytes :=
  if q = [] ∨ !isValidInnerPath q then none else (Store.get v.files q).bind Inode.bytes

/-- Whatever fails, the sibling's volume stays as it is. -/
def Spares {α : Type} (x : Sibling α) : Prop := ∀ s : Session, (x.run s).2.volume = s.volume

section Reading

variable {α β : Type} {c : DavVolumeRemote} {env : Env} {v : Volume} {p q : JsString}

theorem spares_pure (a : α) : Spares (pure a) := fun _ => rfl

theorem spares_throw (e : RemoteError) : Spares (.throw e : Sibling α) := fun _ => rfl

theorem spares_bind {x : Sibling α} {f : α → Sibling β} (hx : Spares x) (hf : ∀ a, Spares (f a)) : Spares (x >>= f) := by
  intro s
  have hfirst := hx s
  rw [Act.run_bind]
  cases hrun : x.run s with
  | mk r s₁ =>
    rw [hrun] at hfirst
    cases r with
    | error e => exact hfirst
    | ok a => exact (hf a s₁).trans hfirst

theorem spares_of_makes {x : Serve α} {f : Failure → RemoteError} (hx : Makes (fun _ => False) x) : Spares (x.mapError f) :=
  fun _ => unchanged_of_makes hx rfl

theorem spares_rooted {f : JsString → Sibling α} (hf : ∀ q, Spares (f q)) : Spares (c.rooted p f) := by
  unfold DavVolumeRemote.rooted
  split
  · exact hf _
  · exact spares_throw _

variable {L : Effect → Prop}

theorem makes_requireStatInner : Makes L (env.requireStatInner p) := by
  refine Act.within_bind (Act.within_attempt makes_stat) fun r => ?_
  split
  · exact Act.within_pure _
  · split
    · exact Act.within_pure _
    · exact Act.within_throw _

theorem makes_requireChildren : Makes L (env.requireChildren p) := by
  refine Act.within_bind (Act.within_attempt makes_listDir) fun r => ?_
  split
  · exact Act.within_pure _
  · split
    · exact Act.within_pure _
    · exact Act.within_throw _

theorem makes_describe : Makes L (env.describe p) := by
  refine Act.within_bind makes_requireStatInner fun st => ?_
  split
  · exact Act.within_pure _
  · exact Act.within_bind makes_readMeta fun _ => Act.within_pure _

theorem makes_describeEach (qs : List JsString) : Makes L (env.describeEach qs) := by
  induction qs with
  | nil => exact Act.within_pure _
  | cons q rest ih =>
    have hentry : Makes L (env.describeValid q) := by
      unfold Env.describeValid
      split
      · exact makes_describe
      · exact Act.within_pure _
    exact Act.within_bind hentry fun _ => Act.within_bind ih fun _ => Act.within_pure _

theorem makes_listReplicaChildren : Makes L (env.listReplicaChildren p) := by
  have hself : Makes L (env.describeSelf p) := by
    unfold Env.describeSelf
    split
    · exact Act.within_pure _
    · exact makes_describe
  unfold Env.listReplicaChildren
  split
  · exact Act.within_pure _
  · exact Act.within_bind hself fun _ => Act.within_bind makes_requireChildren fun _ =>
      Act.within_bind (makes_describeEach _) fun _ => Act.within_pure _

theorem makes_readReplicaStream : Makes L (env.readReplicaStream p) := by
  unfold Env.readReplicaStream
  split
  · exact Act.within_pure _
  · refine Act.within_bind makes_requireStatInner fun st => ?_
    split
    · exact Act.within_pure _
    · refine Act.within_bind (Act.within_attempt makes_readFile) fun r => ?_
      split <;> exact Act.within_pure _

theorem spares_list : Spares (c.list env p) :=
  spares_rooted fun _ => spares_bind (spares_of_makes makes_listReplicaChildren) fun _ => spares_pure _

theorem spares_stat : Spares (c.stat env p) := by
  unfold DavVolumeRemote.stat
  split
  · exact spares_pure _
  · refine spares_rooted fun q => spares_bind (spares_of_makes makes_listReplicaChildren) fun siblings => ?_
    unfold DavVolumeRemote.pick
    split
    · split
      · exact spares_throw _
      · exact spares_pure _
    · exact spares_pure _

theorem spares_readFile : Spares (c.readFile env p) := spares_rooted fun _ => spares_of_makes makes_readReplicaStream

theorem runs_readReplicaStream (hcalm : env.Calm) : Runs (env.readReplicaStream q) v (.ok (v.content q)) v := by
  unfold Env.readReplicaStream Volume.content
  split
  · exact runs_pure none
  · rename_i hvalid
    refine runs_bind (runs_requireStatInner hcalm) ?_
    have hroot : q ≠ [] := fun h => hvalid (.inl h)
    cases hget : Store.get v.files q with
    | none =>
      have hstat : v.files.stat q = none := by simp [Files.stat, hroot, hget]
      rw [hstat]
      exact runs_pure none
    | some i =>
      have hstat : v.files.stat q = some ⟨true, i.bytes.isNone, (i.bytes.getD []).length, i.mtime⟩ := by
        simp [Files.stat, hroot, hget]
      rw [hstat]
      change Runs _ v (.ok i.bytes) v
      cases hbytes : i.bytes with
      | none => exact runs_pure none
      | some data =>
        have hread : Runs (env.read q) v (.ok data) v := runs_read hcalm (m := i.mtime) (by rw [hget, ← hbytes])
        exact runs_bind (runs_attempt hread) (runs_pure (some data))

theorem readFile_yields (hcalm : env.Calm) (hp : isValidInnerPath p = true) :
    Yields (c.readFile env p) v (.ok (v.content (c.inner p))) := by
  unfold DavVolumeRemote.readFile
  rw [rooted_valid hp]
  exact yields_of_runs (runs_readReplicaStream hcalm)

end Reading

/-! ### A root and what is outside of it -/

section Roots

variable {c : DavVolumeRemote} {p q : JsString}

/-- The path in the volume lies in the root. -/
theorem inside_inner : Inside c.root (c.inner p) := by
  unfold DavVolumeRemote.inner
  split_ifs with hroot hp
  · rw [hroot]
    exact inside_root
  · exact .inl rfl
  · exact .inr ((below_of_ne hroot).mpr ⟨p, rfl⟩)

theorem inside_of_inside (h : Inside (c.inner p) q) : Inside c.root q := by
  have hinner : Inside c.root (c.inner p) := inside_inner
  rcases h with rfl | hq
  · exact hinner
  · rcases hinner with heq | hbelow
    · rw [heq] at hq
      exact .inr hq
    · exact .inr (hbelow.trans hq)

/-- A collection that leads to a path lies in the root, or it leads to the root. -/
theorem leading_root (h : q ∈ prefixes slash (c.inner p)) : Inside c.root q ∨ Below slash q c.root := by
  have hinner : Inside c.root (c.inner p) := inside_inner
  rcases eq_or_below_of_mem_prefixes h with rfl | hq
  · exact .inl hinner
  · rcases hinner with heq | hbelow
    · rw [heq] at hq
      exact .inr hq
    · rcases hq.comparable hbelow with rfl | habove | hin
      · exact .inl (.inl rfl)
      · exact .inr habove
      · exact .inl (.inr hin)

end Roots

/-- Outside the root only the collections that lead to it are made, and rows written for them. -/
structure Volume.KeepsOutside (v : Volume) (root : JsString) (v' : Volume) : Prop where
  files : ∀ q, ¬ Inside root q → Store.get v'.files q = Store.get v.files q ∨ Below slash q root ∧ Store.get v.files q = none
  nodes : ∀ q, ¬ Inside root q → Store.get v'.nodes q = Store.get v.nodes q ∨ Below slash q root
  props : v'.props = v.props
  locks : v'.locks = v.locks

theorem keepsOutside_of_putAt {c : DavVolumeRemote} {p : JsString} {v v' : Volume} (h : v.PutAt (c.inner p) v') :
    v.KeepsOutside c.root v' := by
  refine ⟨?_, ?_, h.props, h.locks⟩
  · intro q hq
    by_cases hsame : Store.get v'.files q = Store.get v.files q
    · exact .inl hsame
    · refine .inr ⟨(leading_root (h.confined.files q hsame)).resolve_left hq, ?_⟩
      have hother : q ≠ c.inner p := by
        rintro rfl
        exact hq inside_inner
      cases hget : Store.get v.files q with
      | none => rfl
      | some i => exact absurd (h.kept q hother (by simp [hget])) hsame
  · intro q hq
    by_cases hsame : Store.get v'.nodes q = Store.get v.nodes q
    · exact .inl hsame
    · exact .inr ((leading_root (h.confined.nodes q hsame)).resolve_left hq)

/-! ### What is done under the root -/

namespace DavVolumeRemote

/-- Whatever fails: reading leaves the volume, writing puts something at the path under the root, and removing takes what is
there; nothing is put at or taken from the root itself. -/
structure Touches (c : DavVolumeRemote) (env : Env) (p : JsString) : Prop where
  list : Spares (c.list env p)
  stat : Spares (c.stat env p)
  readFile : Spares (c.readFile env p)
  writeFile : ∀ (body : Env.Payload) (contentType : Option JsString) (s : Session),
    s.volume.PutAt (c.inner p) ((c.writeFile env p body contentType).run s).2.volume ∧
    s.volume.KeepsOutside c.root ((c.writeFile env p body contentType).run s).2.volume
  written : ∀ (body : Env.Payload) (contentType : Option JsString) (s s' : Session),
    (c.writeFile env p body contentType).run s = (.ok (), s') →
      Store.get s'.volume.files (c.inner p) = some ⟨some body.bytes, env.now⟩
  makeCollection : ∀ s : Session, s.volume.PutAt (c.inner p) ((c.makeCollection env p).run s).2.volume ∧
    s.volume.KeepsOutside c.root ((c.makeCollection env p).run s).2.volume
  remove : ∀ (recursive : Bool) (s : Session), s.volume.TakenAt (c.inner p) ((c.remove env p recursive).run s).2.volume
  root : p = [] → (∀ body contentType, Spares (c.writeFile env p body contentType)) ∧ Spares (c.makeCollection env p) ∧
    ∀ recursive, Spares (c.remove env p recursive)

/-- Where no call fails, each operation answers of the path under the root, in the coordinates of the caller. -/
structure Answers (c : DavVolumeRemote) (env : Env) (v : Volume) (p : JsString) : Prop where
  list : ∃ listing, Yields (c.list env p) v (.ok listing) ∧ listing.complete = isValidInnerPath (c.inner p) ∧
    ∀ e, e ∈ listing.entries ↔ ∃ name entry, v.Holds (c.inner p) name entry ∧ e = { entry with path := childPath p name }
  stat : p ≠ [] → ∀ found, Yields (c.stat env p) v (.ok (some found)) ↔
    ∃ listing, Yields (c.list env (parentOf p)) v (.ok listing) ∧ found ∈ listing.entries ∧ found.path = p
  statRoot : p = [] → Yields (c.stat env p) v (.ok none)
  readFile : Yields (c.readFile env p) v (.ok (v.content (c.inner p)))
  writeFile : p ≠ [] → isValidInnerPath (c.inner p) = true → v.files.Free (parentOf (c.inner p)) →
    v.files.isDirectory (c.inner p) = false → ∀ (body : Env.Payload) (contentType : Option JsString) (s : Session),
      s.volume = v → ((c.writeFile env p body contentType).run s).1 = .ok ()
  makeCollection : p ≠ [] → isValidInnerPath (c.inner p) = true → v.files.Free (c.inner p) → ∀ s : Session, s.volume = v →
    ((c.makeCollection env p).run s).1 = .ok () ∧
    ((c.makeCollection env p).run s).2.volume.files.isDirectory (c.inner p) = true
  remove : p ≠ [] → isValidInnerPath (c.inner p) = true → ∀ (recursive : Bool) (s : Session), s.volume = v →
    (((c.remove env p recursive).run s).1 = .ok () ↔ ¬ v.files.Refuses (c.inner p) recursive) ∧
    (((c.remove env p recursive).run s).1 = .ok () →
      ∀ q, Inside (c.inner p) q → Store.get ((c.remove env p recursive).run s).2.volume.files q = none)

variable {c : DavVolumeRemote} {env : Env} {v : Volume} {p : JsString}

theorem touches_valid (hp : isValidInnerPath p = true) : c.Touches env p where
  list := spares_list
  stat := spares_stat
  readFile := spares_readFile
  writeFile := by
    intro body contentType s
    have hput : s.volume.PutAt (c.inner p) ((c.writeFile env p body contentType).run s).2.volume := by
      unfold DavVolumeRemote.writeFile
      split
      · exact putAt_refl _ _
      · rw [rooted_valid hp, applies_run.1]
        exact write_puts
    exact ⟨hput, keepsOutside_of_putAt hput⟩
  written := by
    intro body contentType s s' h
    unfold DavVolumeRemote.writeFile at h
    split at h
    · cases h
    · rw [rooted_valid hp] at h
      have hok := applies_run.2.mp (congrArg Prod.fst h)
      have hstate := applies_run.1.symm.trans (congrArg Prod.snd h)
      exact write_stores (Prod.ext hok hstate)
  makeCollection := by
    intro s
    have hput : s.volume.PutAt (c.inner p) ((c.makeCollection env p).run s).2.volume := by
      unfold DavVolumeRemote.makeCollection
      split
      · exact putAt_refl _ _
      · rw [rooted_valid hp, applies_run.1]
        exact mkdir_puts
    exact ⟨hput, keepsOutside_of_putAt hput⟩
  remove := by
    intro recursive s
    unfold DavVolumeRemote.remove
    split
    · exact takenAt_refl _ _
    · rw [rooted_valid hp, applies_run.1]
      exact unlink_takes
  root := by
    rintro rfl
    exact ⟨fun _ _ _ => rfl, fun _ => rfl, fun _ _ => rfl⟩

/-- An operation of the sibling answers as what it applies does. -/
theorem applies_runs {operation : ReplicaOperation} {failure : JsString} {r : Except Failure Unit} {v' : Volume} {s : Session}
    (h : Runs (env.applyOne operation) v r v') (hs : s.volume = v) :
    (((applies env operation failure).run s).1 = .ok () ↔ r = .ok ()) ∧
      ((applies env operation failure).run s).2.volume = v' := by
  obtain ⟨s', hrun, hs'⟩ := h s hs
  rw [applies_run.1, applies_run.2, hrun]
  exact ⟨Iff.rfl, hs'⟩

theorem answers_valid (hcalm : env.Calm) (htree : v.files.WellFormed) (hp : isValidInnerPath p = true) : c.Answers env v p where
  list := list_yields hcalm htree hp
  stat := fun hne => stat_yields hcalm htree hp hne
  statRoot := by
    rintro rfl
    exact yields_pure none
  readFile := readFile_yields hcalm hp
  writeFile := by
    intro hne hvalid hfree hfile body contentType s hs
    obtain ⟨v', hrun⟩ := @runs_replicaWrite _ _ _ hcalm contentType body (inner_ne_nil hne) hvalid hfree hfile
    unfold DavVolumeRemote.writeFile
    rw [if_neg hne, rooted_valid hp]
    exact (@applies_runs _ _ (.write (c.inner p) contentType body) _ _ _ _ hrun hs).1.mpr rfl
  makeCollection := by
    intro hne hvalid hfree s hs
    obtain ⟨v', hrun, hled⟩ := runs_replicaMkdir hcalm (inner_ne_nil hne) hvalid hfree
    unfold DavVolumeRemote.makeCollection
    rw [if_neg hne, rooted_valid hp]
    obtain ⟨hok, hvolume⟩ := @applies_runs _ _ (.mkdir (c.inner p)) _ _ _ _ hrun hs
    refine ⟨hok.mpr rfl, ?_⟩
    rw [hvolume]
    exact (hled _).1.mpr (.inr (mem_prefixes.mpr (.inl rfl)))
  remove := by
    intro hne hvalid recursive s hs
    unfold DavVolumeRemote.remove
    rw [if_neg hne, rooted_valid hp]
    by_cases href : v.files.Refuses (c.inner p) recursive
    · have hrun := runs_refused hcalm (inner_ne_nil hne) hvalid href
      obtain ⟨hok, -⟩ := @applies_runs _ _ (.unlink (c.inner p) recursive) _ _ _ _ hrun hs
      rw [hok]
      exact ⟨iff_of_false nofun (not_not.mpr href), nofun⟩
    · obtain ⟨files, hrun, hgone, -⟩ := runs_replicaUnlink hcalm htree (inner_ne_nil hne) hvalid href
      obtain ⟨hok, hvolume⟩ := @applies_runs _ _ (.unlink (c.inner p) recursive) _ _ _ _ hrun hs
      rw [hok, hvolume]
      exact ⟨iff_of_true rfl href, fun _ => hgone⟩

end DavVolumeRemote

end DurableDav.Dav
