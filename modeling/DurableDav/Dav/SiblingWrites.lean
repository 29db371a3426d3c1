import DurableDav.Dav.SiblingPaths

namespace DurableDav.Dav

open Library
open Replication (Bytes isValidInnerPath parentOf PlanSide RemoteError RemoteListing childPath)

/-! ### What the operations leave as it is -/

/-- Something is put at a path: beside it only collections that lead to it are made, and rows written for them. -/
structure Volume.PutAt (v : Volume) (path : JsString) (v' : Volume) : Prop where
  confined : v.Confined (· ∈ prefixes slash path) (· ∈ prefixes slash path) v'
  kept : ∀ q, q ≠ path → (Store.get v.files q).isSome → Store.get v'.files q = Store.get v.files q
  props : v'.props = v.props
  locks : v'.locks = v.locks

/-- What is at a path is taken away: elsewhere rows, properties and locks stay, nothing is made, and no collection goes. -/
structure Volume.TakenAt (v : Volume) (path : JsString) (v' : Volume) : Prop where
  nodes : ∀ q, ¬ Inside path q → Store.get v'.nodes q = Store.get v.nodes q
  props : ∀ key : PropKey, ¬ Inside path key.path → Store.get v'.props key = Store.get v.props key
  locks : ∀ e : JsString × LockRow, ¬ Inside path e.2.path → (e ∈ v'.locks ↔ e ∈ v.locks)
  files : ∀ q, ¬ Inside path q → Store.get v'.files q = Store.get v.files q ∨
    v.files.isFile q = true ∧ Store.get v'.files q = none

section Frames

variable {v w w' : Volume} {e : Effect} {path : JsString}

theorem putAt_refl (v : Volume) (path : JsString) : v.PutAt path v :=
  ⟨confined_refl .., fun _ _ _ => rfl, rfl, rfl⟩

theorem putAt_change (he : e.MakesUpTo path ∨ e = .write path) (hc : Change w e w') (h : v.PutAt path w) :
    v.PutAt path w' := by
  have hself : path ∈ prefixes slash path := mem_prefixes.mpr (.inl rfl)
  have hcreates : e.CreatesUpTo path := by
    rcases he with he | rfl
    · exact he.creates
    · exact ⟨path, hself, rfl⟩
  obtain ⟨q₀, hq₀, hat⟩ := hcreates
  have hconfined := h.confined.change hc (fun r hr => by rw [creates_touches hat hr]; exact hq₀)
    (fun r hr => by rw [creates_rewrites hat hr]; exact hq₀)
  have hkept : ∀ q, q ≠ path → (Store.get w.files q).isSome → Store.get w'.files q = Store.get w.files q := by
    intro q hne hsome
    rcases he with he | rfl
    · cases hc with
      | make p mtime hfree hparent =>
        have hother : q ≠ p := by
          rintro rfl
          rw [found_iff.mpr (.inr hsome)] at hfree
          cases hfree
        change Store.get (Store.put w.files p _) q = _
        rw [Store.get_put, if_neg hother]
      | node p row hrow => rfl
      | _ => exact he.elim
    · cases hc with
      | write p data mtime hfile hparent =>
        change Store.get (Store.put w.files path _) q = _
        rw [Store.get_put, if_neg hne]
  refine ⟨hconfined, ?_, ?_, ?_⟩
  · intro q hne hsome
    have hsame := h.kept q hne hsome
    exact (hkept q hne (hsame ▸ hsome)).trans hsame
  · rw [← h.props]
    cases hc <;> first | rfl | exact hat.elim
  · rw [← h.locks]
    cases hc <;> first | rfl | exact hat.elim

theorem takenAt_refl (v : Volume) (path : JsString) : v.TakenAt path v :=
  ⟨fun _ _ => rfl, fun _ _ => rfl, fun _ _ => Iff.rfl, fun _ _ => .inl rfl⟩

theorem takenAt_change (he : e.Destroys path ∨ ∃ q, e = .unlink q) (hc : Change w e w') (h : v.TakenAt path w) :
    v.TakenAt path w' := by
  cases hc with
  | unlink p hfile hfound =>
    refine ⟨h.nodes, h.props, h.locks, ?_⟩
    intro q hq
    change Store.get (Store.remove w.files p) q = _ ∨ _ ∧ Store.get (Store.remove w.files p) q = none
    rw [Store.get_remove]
    by_cases hqp : q = p
    · subst hqp
      rw [if_pos rfl]
      rcases h.files q hq with hsame | ⟨hwas, -⟩
      · have hwas : v.files.isFile q = w.files.isFile q := by
          unfold Files.isFile Files.found Files.isDirectory
          rw [hsame]
        exact .inr ⟨hwas.trans (isFile_iff.mpr ⟨hfound, hfile⟩), rfl⟩
      · exact .inr ⟨hwas, rfl⟩
    · rw [if_neg hqp]
      exact h.files q hq
  | remove p hdir =>
    obtain rfl : p = path := he.resolve_right (by rintro ⟨q, hq⟩; cases hq)
    refine ⟨h.nodes, h.props, h.locks, ?_⟩
    intro q hq
    have hget : Store.get (Store.removeWhere w.files fun r => r = p ∨ Below slash p r) q = Store.get w.files q := by
      rw [Store.get_removeWhere, if_neg (by simpa [Inside] using hq)]
    exact (h.files q hq).imp hget.trans (And.imp_right hget.trans)
  | deleteRows p t ht =>
    obtain rfl : p = path := he.resolve_right (by rintro ⟨q, hq⟩; cases hq)
    have hout {q : JsString} (hq : ¬ Inside p q) : ¬ deletePredicate p q = true := fun hsel => hq (deletePredicate_inside hsel)
    cases t with
    | davNodes =>
      refine ⟨?_, h.props, h.locks, h.files⟩
      intro q hq
      change Store.get (Store.removeWhere w.nodes _) q = _
      rw [Store.get_removeWhere, if_neg (hout hq)]
      exact h.nodes q hq
    | davProps =>
      refine ⟨h.nodes, ?_, h.locks, h.files⟩
      intro key hkey
      change Store.get (Store.removeWhere w.props fun k => deletePredicate p k.path) key = _
      rw [Store.get_removeWhere, if_neg (hout hkey)]
      exact h.props key hkey
    | davLocks =>
      refine ⟨h.nodes, h.props, ?_, h.files⟩
      intro e he
      change e ∈ w.locks.filter _ ↔ _
      rw [List.mem_filter, h.locks e he]
      exact and_iff_left (by simpa using hout he)
    | davReplicaState => exact ⟨h.nodes, h.props, h.locks, h.files⟩
  | _ =>
    rcases he with he | ⟨q, hq⟩
    · exact he.elim
    · cases hq

end Frames

/-! ### One operation of a sibling -/

section Operations

variable {env : Env} {operation : ReplicaOperation} {failure : JsString} {s : Session}

theorem applies_run_ok {s' : Session} (h : (env.applyOne operation).run s = (.ok (), s')) :
    (DavVolumeRemote.applies env operation failure).run s = (.ok (), s') := by
  have happly : (env.applyReplicaOperations [operation]).run s = (.ok ⟨1, 0, none⟩, s') := by
    have hattempt : (env.applyOne operation).attempt.run s = (.ok (.ok ()), s') := by rw [Act.run_attempt, h]
    exact Act.run_bind_ok hattempt
  have hasked : ((env.applyReplicaOperations [operation]).mapError fun e => RemoteError.thrown e.message).run s =
      (.ok ⟨1, 0, none⟩, s') := by
    change (((env.applyReplicaOperations [operation]).run s).1.mapError _, _) = _
    rw [happly]
    rfl
  exact Act.run_bind_ok hasked

theorem applies_run_error {e : Failure} {s' : Session} (h : (env.applyOne operation).run s = (.error e, s')) :
    (DavVolumeRemote.applies env operation failure).run s =
      (.error (.unavailable (failure ++ truncateReplicationReason e.message) none), s') := by
  have happly : (env.applyReplicaOperations [operation]).run s =
      (.ok ⟨0, 1, some (truncateReplicationReason e.message)⟩, s') := by
    have hattempt : (env.applyOne operation).attempt.run s = (.ok (.error e), s') := by rw [Act.run_attempt, h]
    exact Act.run_bind_ok hattempt
  have hasked : ((env.applyReplicaOperations [operation]).mapError fun e => RemoteError.thrown e.message).run s =
      (.ok ⟨0, 1, some (truncateReplicationReason e.message)⟩, s') := by
    change (((env.applyReplicaOperations [operation]).run s).1.mapError _, _) = _
    rw [happly]
    rfl
  exact Act.run_bind_ok hasked

/-- The sibling's volume is left as the one operation leaves it, and the failure of it is reported. -/
theorem applies_run : ((DavVolumeRemote.applies env operation failure).run s).2 = ((env.applyOne operation).run s).2 ∧
    (((DavVolumeRemote.applies env operation failure).run s).1 = .ok () ↔ ((env.applyOne operation).run s).1 = .ok ()) := by
  cases hrun : (env.applyOne operation).run s with
  | mk r s' =>
    cases r with
    | ok u =>
      rw [applies_run_ok hrun]
      exact ⟨rfl, iff_of_true rfl rfl⟩
    | error e =>
      rw [applies_run_error hrun]
      exact ⟨rfl, iff_of_false nofun nofun⟩

theorem mkdir_puts {path : JsString} : s.volume.PutAt path ((env.applyOne (.mkdir path)).run s).2.volume := by
  have hmakes : Makes (fun e => e.MakesUpTo path ∨ e = .write path) (env.applyOne (.mkdir path)) :=
    makes_replicaMkdir fun _ h => .inl h.makes
  exact leads_keeps (I := s.volume.PutAt path) (fun _ _ _ he hc h => putAt_change he hc h) (hmakes s) (putAt_refl _ _)

theorem write_puts {path : JsString} {contentType : Option JsString} {data : Env.Payload} :
    s.volume.PutAt path ((env.applyOne (.write path contentType data)).run s).2.volume := by
  have hmakes : Makes (fun e => e.MakesUpTo path ∨ e = .write path) (env.applyOne (.write path contentType data)) :=
    makes_replicaWrite (fun _ h => .inl h) (.inr rfl)
  exact leads_keeps (I := s.volume.PutAt path) (fun _ _ _ he hc h => putAt_change he hc h) (hmakes s) (putAt_refl _ _)

theorem unlink_takes {path : JsString} {recursive : Bool} :
    s.volume.TakenAt path ((env.applyOne (.unlink path recursive)).run s).2.volume := by
  have hmakes : Makes (fun e => e.Destroys path ∨ ∃ q, e = .unlink q) (env.applyOne (.unlink path recursive)) :=
    makes_replicaUnlink (fun _ h => .inl h) (fun q => .inr ⟨q, rfl⟩)
  exact leads_keeps (I := s.volume.TakenAt path) (fun _ _ _ he hc h => takenAt_change he hc h) (hmakes s) (takenAt_refl _ _)

/-- A write that succeeds has put the bytes at the path. -/
theorem write_stores {path : JsString} {contentType : Option JsString} {data : Env.Payload} {s' : Session}
    (h : (env.applyOne (.write path contentType data)).run s = (.ok (), s')) :
    Store.get s'.volume.files path = some ⟨some data.bytes, env.now⟩ := by
  have hlast : ∀ s₁, (do
      env.writeFile path data.bytes
      env.upsertFileNode path (contentType.getD (js "application/octet-stream")) (mintEtag data.size env.now) env.now
      : Serve Unit).run s₁ = (.ok (), s') → Store.get s'.volume.files path = some ⟨some data.bytes, env.now⟩ := by
    intro s₁ hrun
    obtain ⟨u, s₂, hwrite, hrow⟩ := Act.of_run_bind hrun
    have hput : Store.get s₂.volume.files path = some ⟨some data.bytes, env.now⟩ := by
      rcases comes_writeFile env path data.bytes s₁ with ⟨e, s₃, herror, -⟩ | ⟨a, s₃, hok, -, hvol⟩
      · rw [hwrite] at herror
        cases (Prod.mk.inj herror).1
      · obtain rfl := (Prod.mk.inj (hwrite.symm.trans hok)).2
        rw [hvol]
        change Store.get (Store.put s₁.volume.files path _) path = _
        rw [Store.get_put, if_pos rfl]
    have hmakes : Makes (fun e => ∃ row, e = .node path row)
        (env.upsertFileNode path (contentType.getD (js "application/octet-stream")) (mintEtag data.size env.now) env.now) :=
      makes_upsertNode ⟨_, rfl⟩ fun _ _ he => .inl ⟨data.size, env.now, (Option.some.inj he).symm⟩
    refine leads_keeps (I := fun w => Store.get w.files path = some ⟨some data.bytes, env.now⟩) ?_
      (hmakes.of_run hrow) hput
    rintro e w w' ⟨row, rfl⟩ hc hw
    cases hc
    exact hw
  unfold Env.applyOne Env.replicaWrite at h
  dsimp only at h
  split_ifs at h with hinvalid hroot
  · cases h
  · exact hlast s h
  · obtain ⟨u, s₁, hmade, h⟩ := Act.of_run_bind h
    exact hlast s₁ h

end Operations

/-- No file is where a collection has to be. -/
def Files.Free (f : Files) (path : JsString) : Prop := ∀ q ∈ prefixes slash path, f.found q = true → f.isDirectory q = true

/-- The collections that lead to a path are there, and nothing else is new. -/
def Files.LedTo (f : Files) (path : JsString) (f' : Files) : Prop :=
  ∀ q, (f'.isDirectory q = true ↔ f.isDirectory q = true ∨ q ∈ prefixes slash path) ∧
    (f'.found q = true ↔ f.found q = true ∨ q ∈ prefixes slash path)

section Leading

variable {f f₁ f' : Files} {path : JsString}

theorem free_parent (hvalid : isValidInnerPath path = true) (h : f.Free path) : f.Free (getParentPath path) := by
  intro q hq hfound
  by_cases hroot : getParentPath path = []
  · obtain rfl : q = [] := by simpa [hroot, prefixes] using hq
    simp [Files.isDirectory]
  · exact h q (prefixes_parent hvalid hq hroot) hfound

theorem ledTo_root (f : Files) : f.LedTo [] f := by
  intro q
  have hroot (hq : q ∈ prefixes slash []) : f.isDirectory q = true ∧ f.found q = true := by
    obtain rfl : q = [] := by simpa [prefixes] using hq
    simp [Files.isDirectory, Files.found]
  exact ⟨(or_iff_left_of_imp fun hq => (hroot hq).1).symm, (or_iff_left_of_imp fun hq => (hroot hq).2).symm⟩

theorem not_mem_prefixes_parent (hpath : path ≠ []) : path ∉ prefixes slash (parentOf path) := by
  intro h
  have hlt : (parentOf path).length < path.length := parentSegments_length_lt hpath
  rcases mem_prefixes.mp h with heq | ⟨rest, hrest⟩
  · rw [← heq] at hlt
    omega
  · rw [hrest, List.length_append] at hlt
    omega

/-- The last collection is put under the ones that lead to it. -/
theorem ledTo_path (hpath : path ≠ []) (hvalid : isValidInnerPath path = true) (h : f.LedTo (parentOf path) f₁)
    (hother : ∀ q, q ≠ path → Store.get f' q = Store.get f₁ q) (hdir : f'.isDirectory path = true) : f.LedTo path f' := by
  have hsplit (q : JsString) (hq : q ≠ path) (hroot : q ≠ []) : q ∈ prefixes slash path ↔ q ∈ prefixes slash (parentOf path) := by
    constructor
    · intro h
      rcases ((eq_or_below_of_mem_prefixes h).resolve_left hq).parent hroot with heq | hbelow
      · exact mem_prefixes.mpr (.inl heq)
      · obtain ⟨rest, hrest⟩ := (below_of_ne hroot).mp hbelow
        exact mem_prefixes.mpr (.inr ⟨rest, hrest⟩)
    · intro h
      rw [← getParentPath_eq hvalid] at h
      refine prefixes_parent hvalid h ?_
      intro hnil
      rw [hnil] at h
      exact hroot (by simpa [prefixes] using h)
  intro q
  by_cases hq : q = path
  · subst hq
    have hself : q ∈ prefixes slash q := mem_prefixes.mpr (.inl rfl)
    exact ⟨iff_of_true hdir (.inr hself), iff_of_true (found_of_isDirectory hdir) (.inr hself)⟩
  · by_cases hroot : q = []
    · simp [hroot, Files.isDirectory, Files.found]
    · have hsame : f'.isDirectory q = f₁.isDirectory q ∧ f'.found q = f₁.found q := by
        unfold Files.isDirectory Files.found
        rw [hother q hq]
        exact ⟨rfl, rfl⟩
      rw [hsame.1, hsame.2, hsplit q hq hroot]
      exact h q

end Leading

section Calm

variable {env : Env} {v : Volume} {path : JsString} (hcalm : env.Calm)

theorem get_foldl_put {α : Type} {f : Store JsString α} {qs : List JsString} {a : α} {q : JsString} :
    Store.get (qs.foldl (fun f q => Store.put f q a) f) q = if q ∈ qs then some a else Store.get f q := by
  induction qs generalizing f with
  | nil => simp
  | cons r rest ih =>
    rw [List.foldl_cons, ih, Store.get_put]
    by_cases hq : q = r
    · simp [hq]
    · simp [hq]

include hcalm

/-- Where no file is in the way, all the collections that lead to a path are made. -/
theorem runs_mkdirAll_made (h : v.files.Free path) :
    ∃ files : Files, Runs (env.mkdirAll path) v (.ok ()) { v with files := files } ∧ v.files.LedTo path files := by
  have hany : ((prefixes slash path).filter (fun q => q ≠ [])).any
      (fun q => v.files.found q ∧ !v.files.isDirectory q) = false := by
    rw [List.any_eq_false]
    intro q hq
    simpa using h q (List.mem_of_mem_filter hq)
  have hmade : Runs (env.mkdirAll path) v (.ok ()) { v with
      files := (((prefixes slash path).filter (fun q => q ≠ [])).filter (fun q => !v.files.found q)).foldl
        (fun f q => Store.put f q ⟨none, env.now⟩) v.files } := by
    refine runs_call hcalm (runs_read_bind fun s hs => ?_)
    rw [hs]
    dsimp only
    rw [hany, if_neg (by simp)]
    exact runs_modifyFiles (fun f => (((prefixes slash path).filter (fun q => q ≠ [])).filter
      (fun q => !f.found q)).foldl (fun f q => Store.put f q ⟨none, env.now⟩) f)
  refine ⟨_, hmade, ?_⟩
  intro q
  unfold Files.isDirectory Files.found
  rw [get_foldl_put]
  by_cases hroot : q = []
  · simp [hroot]
  · by_cases hq : q ∈ prefixes slash path
    · cases hget : Store.get v.files q with
      | none => simp [hroot, hq, hget]
      | some i =>
        have hdir : v.files.isDirectory q = true := h q hq (found_iff.mpr (.inr (by simp [hget])))
        have hbytes : i.bytes = none := by simpa [Files.isDirectory, hroot, hget] using hdir
        simp [hroot, hq, hget, hbytes]
    · simp [hroot, hq]

theorem runs_upsertCollections (qs : List JsString) (v : Volume) :
    ∃ v', Runs (Act.each env.upsertCollectionNode qs) v (.ok ()) v' ∧ v'.files = v.files :=
  runs_each (I := fun w => w.files = v.files) (fun _ _ _ hw => ⟨_, runs_upsertNode hcalm _, hw⟩) rfl

theorem runs_ancestorsMade {parent : JsString}
    (h : v.files.Free parent) : ∃ v', Runs (env.upsertAncestors parent) v (.ok ()) v' ∧ v.files.LedTo parent v'.files := by
  unfold Env.upsertAncestors
  by_cases hroot : parent = []
  · rw [if_pos hroot, hroot]
    exact ⟨v, runs_pure (), ledTo_root _⟩
  · rw [if_neg hroot]
    obtain ⟨files, hrun, hdirs⟩ := runs_mkdirAll_made hcalm h
    obtain ⟨v', hrows, hfiles⟩ := runs_upsertCollections hcalm (prefixes slash parent) { v with files := files }
    refine ⟨v', runs_bind (runs_attempt hrun) hrows, ?_⟩
    rw [hfiles]
    exact hdirs

/-- Where no file is in the way, the collection is there afterwards. -/
theorem runs_replicaMkdir (hpath : path ≠ []) (hvalid : isValidInnerPath path = true) (h : v.files.Free path) :
    ∃ v', Runs (env.replicaMkdir path) v (.ok ()) v' ∧ v.files.LedTo path v'.files := by
  have hparent := getParentPath_eq hvalid
  have habove : v.files.Free (getParentPath path) := free_parent hvalid h
  obtain ⟨v₁, hancestors, hled⟩ := runs_ancestorsMade hcalm habove
  rw [hparent] at hled
  have hup : v₁.files.isDirectory (parentOf path) = true := (hled _).1.mpr (.inr (mem_prefixes.mpr (.inl rfl)))
  have hmade : ∃ r v₂, Runs (env.mkdir path) v₁ r v₂ ∧ v.files.LedTo path v₂.files := by
    cases hfound : v₁.files.found path with
    | true =>
      have hdir : v.files.isDirectory path = true ∨ path ∈ prefixes slash (parentOf path) :=
        ((hled path).2.mp hfound).imp_left (h path (mem_prefixes.mpr (.inl rfl)))
      have hthere : v₁.files.isDirectory path = true := (hled path).1.mpr hdir
      refine ⟨_, v₁, runs_mkdir_found hcalm hfound, ?_⟩
      exact ledTo_path hpath hvalid hled (fun q hq => rfl) hthere
    | false =>
      refine ⟨_, _, runs_mkdir hcalm hfound hup, ledTo_path hpath hvalid hled ?_ ?_⟩
      · intro q hq
        change Store.get (Store.put v₁.files path _) q = _
        rw [Store.get_put, if_neg hq]
      · simp [Files.isDirectory, Store.get_put]
  obtain ⟨r, v₂, hmkdir, hled₂⟩ := hmade
  unfold Env.replicaMkdir
  rw [if_neg (by simp [hpath, hvalid])]
  exact ⟨_, runs_bind hancestors (runs_bind (runs_attempt hmkdir) (runs_upsertNode hcalm _)), hled₂⟩

/-- Where no file is in the way and the path is not that of a collection, a write succeeds. -/
theorem runs_replicaWrite {contentType : Option JsString} {data : Env.Payload} (hpath : path ≠ [])
    (hvalid : isValidInnerPath path = true) (h : v.files.Free (parentOf path)) (hfile : v.files.isDirectory path = false) :
    ∃ v', Runs (env.replicaWrite path contentType data) v (.ok ()) v' := by
  have hparent := getParentPath_eq hvalid
  have hmade : ∃ v₁, Runs (if getParentPath path = [] then pure () else env.replicaMkdir (getParentPath path)) v (.ok ()) v₁ ∧
      v.files.LedTo (parentOf path) v₁.files := by
    rw [hparent]
    split
    · rename_i hroot
      refine ⟨v, runs_pure (), ?_⟩
      rw [hroot]
      exact ledTo_root _
    · rename_i hroot
      exact runs_replicaMkdir hcalm hroot (valid_parent hvalid hpath) h
  obtain ⟨v₁, hrun, hled⟩ := hmade
  have hstill : v₁.files.isDirectory path = false := by
    rw [Bool.eq_false_iff]
    intro hdir
    rcases (hled path).1.mp hdir with hwas | hlonger
    · rw [hwas] at hfile
      cases hfile
    · exact not_mem_prefixes_parent hpath hlonger
  have hup : v₁.files.isDirectory (parentOf path) = true := (hled _).1.mpr (.inr (mem_prefixes.mpr (.inl rfl)))
  have hlast : ∃ v', Runs (do
      env.writeFile path data.bytes
      env.upsertFileNode path (contentType.getD (js "application/octet-stream")) (mintEtag data.size env.now) env.now)
      v₁ (.ok ()) v' := ⟨_, runs_bind (runs_writeFile hcalm hstill hup) (runs_upsertNode hcalm _)⟩
  obtain ⟨v', hlast⟩ := hlast
  unfold Env.replicaWrite
  rw [if_neg (by simp [hpath, hvalid])]
  dsimp only
  split at hrun
  · rename_i hroot
    rw [if_pos hroot]
    obtain rfl := (runs_unique hrun (runs_pure ())).2
    exact ⟨_, hlast⟩
  · rename_i hroot
    rw [if_neg hroot]
    exact ⟨_, runs_bind hrun hlast⟩

end Calm

end DurableDav.Dav
