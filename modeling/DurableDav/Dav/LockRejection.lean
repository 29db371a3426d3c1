import DurableDav.Dav.LockRefresh

namespace DurableDav.Dav

open Library
open Replication (Bytes isValidInnerPath parentOf)

/-! ### What a rejected LOCK leaves -/

/-- The files, the rows of nodes and the locks are as before. -/
structure Volume.Untouched (v v' : Volume) : Prop where
  files : ∀ q, Store.get v'.files q = Store.get v.files q
  nodes : ∀ q, Store.get v'.nodes q = Store.get v.nodes q
  locks : v'.locks = v.locks

/-- The row of a file that only holds a lock. -/
def NodeRow.isLockNull (row : NodeRow) (now : ℕ) : Prop := row = ⟨false, none, none, now, row.crtime, true⟩

namespace Env

variable (env : Env) (uuid : Uuid) (r : Incoming) (path : JsString) (bases : DavBases) (v : Volume) (parsed : LockRequest)

/-- A LOCK that is rejected leaves nothing behind. -/
def LeavesNothing : Prop := Rejected ((env.handleLock uuid r path bases).run ⟨v, []⟩).1 →
  v.Untouched (Env.after (env.handleLock uuid r path bases) v)

/-- An empty file is made to take the lock. -/
def Makes : Prop := parsed.body ≠ [] ∧ env.isOrphan v path = false ∧ r.toRequest.endsInSlash env.platform = false ∧
  env.fails (.writeFile path) 0 = none ∧ v.files.isDirectory path = false ∧ v.files.isDirectory (parentOf path) = true

/-- The empty file was there, and its row as well. -/
def MakesSame : Prop := Store.get v.files path = some ⟨some [], env.now⟩ ∧
  (env.fails (.exec (.upsertNode path)) 0 ≠ none ∨ ∃ row, Store.get v.nodes path = some row ∧ row.isLockNull env.now)

/-- The removal of the file and of the rows of all below it takes nothing that was there before. -/
structure RemovesMade : Prop where
  file : Store.get v.files path = none
  nodes : env.fails (.exec (.deleteRows .davNodes path)) 0 = none → ∀ q, deletePredicate path q = true → Store.get v.nodes q = none
  node : env.fails (.exec (.deleteRows .davNodes path)) 0 ≠ none → env.fails (.exec (.upsertNode path)) 0 ≠ none ∨
    ∃ row, Store.get v.nodes path = some row ∧ row.isLockNull env.now
  locks : env.fails (.exec (.deleteRows .davNodes path)) 0 = none → env.fails (.exec (.deleteRows .davProps path)) 0 = none →
    env.fails (.exec (.deleteRows .davLocks path)) 0 = none → ∀ e ∈ v.locks, deletePredicate path e.2.path = false

/-- What is to be undone of a file that was made, can be. -/
structure UndoesMade : Prop where
  blocked : env.Blocks v path parsed.requestedScope 0 → env.MakesSame path v
  deep : ¬ env.Blocks v path parsed.requestedScope 0 → parsed.depthHeader = some .infinity →
    if (env.sees v path parsed.looks).found = true ∨ env.fails (.unlink path) 0 ≠ none then env.MakesSame path v
    else env.RemovesMade path v
  written : ¬ env.Blocks v path parsed.requestedScope 0 → parsed.depthHeader ≠ some .infinity → env.CannotInsert uuid v →
    env.MakesSame path v

/-- A file that is overlooked at first is not undone. -/
def KeepsOverlooked : Prop := (env.sees v path parsed.looks).found = false →
  ¬ env.Blocks v path parsed.requestedScope (if parsed.body = [] then 1 else 0) → env.TooDeep path v parsed path → env.Holds v path

/-- The volume in which the file was made. -/
def made : Volume :=
  let w : Volume := { v with files := Store.put v.files path ⟨some [], env.now⟩ }
  if env.fails (.exec (.upsertNode path)) 0 = none then w.upsertNode path ⟨false, none, none, env.now, env.now, true⟩ else w

end Env

section Made

variable {env : Env} {v : Volume} {path q : JsString}

theorem made_files : (env.made path v).files = Store.put v.files path ⟨some [], env.now⟩ := by
  unfold Env.made
  dsimp only
  split <;> rfl

theorem made_locks : (env.made path v).locks = v.locks := by
  unfold Env.made
  dsimp only
  split <;> rfl

theorem made_nodes_ne (hne : q ≠ path) : Store.get (env.made path v).nodes q = Store.get v.nodes q := by
  unfold Env.made
  dsimp only
  split
  · rw [upsertNode_get, if_neg hne]
  · rfl

/-- The row is as before exactly if it was not written, or was there. -/
theorem made_node_iff : Store.get (env.made path v).nodes path = Store.get v.nodes path ↔
    env.fails (.exec (.upsertNode path)) 0 ≠ none ∨ ∃ row, Store.get v.nodes path = some row ∧ row.isLockNull env.now := by
  unfold Env.made
  dsimp only
  by_cases hfails : env.fails (.exec (.upsertNode path)) 0 = none
  · rw [if_pos hfails, upsertNode_get, if_pos rfl]
    simp only [hfails, ne_eq, not_true_eq_false, false_or]
    show _ = Store.get v.nodes path ↔ _
    cases hget : Store.get v.nodes path with
    | none => simp
    | some row =>
      constructor
      · intro h
        exact ⟨row, rfl, (Option.some.inj h).symm⟩
      · rintro ⟨row', hrow, hnull⟩
        obtain rfl := Option.some.inj hrow
        exact congrArg some hnull.symm
  · rw [if_neg hfails]
    exact iff_of_true rfl (.inl hfails)

theorem made_untouched_iff : v.Untouched (env.made path v) ↔ env.MakesSame path v := by
  constructor
  · intro h
    have hfile := h.files path
    rw [made_files, Store.get_put, if_pos rfl] at hfile
    exact ⟨hfile.symm, made_node_iff.mp (h.nodes path)⟩
  · rintro ⟨hfile, hnode⟩
    refine ⟨fun q => ?_, fun q => ?_, made_locks⟩
    · rw [made_files, Store.get_put]
      split
      · rename_i heq
        rw [heq, hfile]
      · rfl
    · by_cases hq : q = path
      · rw [hq]
        exact made_node_iff.mpr hnode
      · exact made_nodes_ne hq

/-- The volume in which the file was made and removed again. -/
def Env.unmade (env : Env) (path : JsString) (v : Volume) : Volume :=
  env.cascaded path cascadeTables { env.made path v with files := Store.remove (env.made path v).files path }

theorem unmade_files : (env.unmade path v).files = Store.remove (Store.put v.files path ⟨some [], env.now⟩) path := by
  unfold Env.unmade
  rw [cascaded_files]
  dsimp only
  rw [made_files]

theorem unmade_files_iff : (∀ q, Store.get (env.unmade path v).files q = Store.get v.files q) ↔ Store.get v.files path = none := by
  rw [unmade_files]
  simp only [Store.get_remove, Store.get_put]
  constructor
  · intro h
    have hpath := h path
    rw [if_pos rfl] at hpath
    exact hpath.symm
  · intro h q
    split
    · rename_i heq
      rw [heq, h]
    · rfl

theorem selects_self : deletePredicate path path = true := deletePredicate_of_subtree (by simp [subtreePredicate])

theorem unmade_nodes (q : JsString) : Store.get (env.unmade path v).nodes q =
    if env.fails (.exec (.deleteRows .davNodes path)) 0 = none ∧ deletePredicate path q = true then none
    else Store.get (env.made path v).nodes q := by
  unfold Env.unmade cascadeTables
  simp only [Env.cascaded]
  by_cases hnodes : env.fails (.exec (.deleteRows .davNodes path)) 0 = none
  · rw [if_pos hnodes]
    simp only [hnodes, true_and]
    split
    · split <;> exact Store.get_removeWhere _ _ _
    · exact Store.get_removeWhere _ _ _
  · rw [if_neg hnodes, if_neg (fun h => hnodes h.1)]

theorem unmade_locks : (env.unmade path v).locks =
    if env.fails (.exec (.deleteRows .davNodes path)) 0 = none ∧ env.fails (.exec (.deleteRows .davProps path)) 0 = none ∧
        env.fails (.exec (.deleteRows .davLocks path)) 0 = none then
      v.locks.filter (fun e => !deletePredicate path e.2.path)
    else v.locks := by
  unfold Env.unmade cascadeTables
  simp only [Env.cascaded]
  by_cases hnodes : env.fails (.exec (.deleteRows .davNodes path)) 0 = none
  · by_cases hprops : env.fails (.exec (.deleteRows .davProps path)) 0 = none
    · by_cases hlocks : env.fails (.exec (.deleteRows .davLocks path)) 0 = none
      · rw [if_pos hnodes, if_pos hprops, if_pos hlocks, if_pos ⟨hnodes, hprops, hlocks⟩]
        show (env.made path v).locks.filter _ = _
        rw [made_locks]
      · rw [if_pos hnodes, if_pos hprops, if_neg hlocks, if_neg (fun h => hlocks h.2.2)]
        exact made_locks
    · rw [if_pos hnodes, if_neg hprops, if_neg (fun h => hprops h.2.1)]
      exact made_locks
  · rw [if_neg hnodes, if_neg (fun h => hnodes h.1)]
    exact made_locks

theorem unmade_untouched_iff : v.Untouched (env.unmade path v) ↔ env.RemovesMade path v := by
  constructor
  · intro h
    have hnodes := h.nodes
    have hlocks := h.locks
    simp only [unmade_nodes] at hnodes
    rw [unmade_locks] at hlocks
    refine ⟨unmade_files_iff.mp h.files, fun hworks q hq => ?_, fun hfails => ?_, fun h₁ h₂ h₃ => ?_⟩
    · have hrow := hnodes q
      rw [if_pos ⟨hworks, hq⟩] at hrow
      exact hrow.symm
    · have hrow := hnodes path
      rw [if_neg (fun h => hfails h.1)] at hrow
      exact made_node_iff.mp hrow
    · rw [if_pos ⟨h₁, h₂, h₃⟩] at hlocks
      intro e he
      simpa using List.filter_eq_self.mp hlocks e he
  · intro h
    refine ⟨unmade_files_iff.mpr h.file, fun q => ?_, ?_⟩
    · rw [unmade_nodes]
      split
      · rename_i hsel
        exact (h.nodes hsel.1 q hsel.2).symm
      · rename_i hout
        by_cases hq : q = path
        · subst hq
          have hfails : env.fails (.exec (.deleteRows .davNodes q)) 0 ≠ none := fun hworks => hout ⟨hworks, selects_self⟩
          exact made_node_iff.mpr (h.node hfails)
        · exact made_nodes_ne hq
    · rw [unmade_locks]
      split
      · rename_i hworks
        exact List.filter_eq_self.mpr fun e he => by simp [h.locks hworks.1 hworks.2.1 hworks.2.2 e he]
      · rfl

end Made

section Making

variable {env : Env} {r : Incoming} {path : JsString} {v : Volume} {parsed : LockRequest} {plan : Env.LockPlan} {s : Session} {n : ℕ}

/-- The calls up to the making of a file. -/
def Op.MakesFile (path : JsString) (op : Op) : Prop :=
  (op.IsCheck ∨ op = .stat (parentOf path)) ∨ op = .writeFile path

theorem writeFile_makes (hs : s.calls.count (.writeFile path) = 0) :
    (env.fails (.writeFile path) 0 = none ∧ s.volume.files.isDirectory path = false ∧
        s.volume.files.isDirectory (parentOf path) = true ∧ (env.writeFile path []).run s =
          (.ok (), ⟨{ s.volume with files := Store.put s.volume.files path ⟨some [], env.now⟩ }, .writeFile path :: s.calls⟩)) ∨
      (¬ (env.fails (.writeFile path) 0 = none ∧ s.volume.files.isDirectory path = false ∧
        s.volume.files.isDirectory (parentOf path) = true) ∧ ∃ e,
          (env.writeFile path []).run s = (.error e, s.record (.writeFile path))) := by
  unfold Env.writeFile
  rw [run_call, hs]
  cases hfails : env.fails (.writeFile path) 0 with
  | some failure => exact .inr ⟨by simp, failure, rfl⟩
  | none =>
    dsimp only
    rw [Act.run_bind, Act.run_read]
    dsimp only [Session.record]
    cases hdir : s.volume.files.isDirectory path with
    | true => exact .inr ⟨by simp, _, rfl⟩
    | false =>
      cases hparent : s.volume.files.isDirectory (parentOf path) with
      | false => exact .inr ⟨by simp, _, rfl⟩
      | true => exact .inl ⟨rfl, rfl, rfl, rfl⟩

theorem orphan_looked (hvalid : isValidInnerPath path = true) (hs : s.Looked v path n Op.IsCheck) : ∃ s',
    (env.orphaned path).run s = (.ok (env.isOrphan v path), s') ∧
      s'.Looked v path n (fun op => op.IsCheck ∨ op = .stat (parentOf path)) := by
  by_cases hroot : path = []
  · subst hroot
    exact ⟨s, rfl, hs.volume, hs.looks, fun op hne hop => hs.spared op hne (not_or.mp hop).1⟩
  · have hne : Op.stat (parentOf path) ≠ .stat path := by
      have hlt : (parentOf path).length < path.length := parentSegments_length_lt hroot
      intro heq
      rw [Op.stat.inj heq] at hlt
      omega
    obtain ⟨s', hrun, hvol, hcalls⟩ := orphaned_run env hvalid s (hs.spared _ hne (by simp [Op.IsCheck]))
    rw [hs.volume] at hrun
    exact ⟨s', hrun, hs.calls hcalls hvol hne.symm⟩

/-- Where nothing is seen, a file is made or the LOCK is refused. -/
theorem ensure_run (hvalid : isValidInnerPath path = true) (hpath : plan.path = path) (hrequest : plan.request = r)
    (hs : s.Looked v path n Op.IsCheck) (hfound : (env.sees v path n).found = false) :
    (env.Makes r path v plan.parsed ∧ ∃ s', (env.ensureLockableResource plan).run s = (.ok .created, s') ∧
      s'.Looked { v with files := Store.put v.files path ⟨some [], env.now⟩ } path (n + 1) (Op.MakesFile path)) ∨
    (¬ env.Makes r path v plan.parsed ∧ ∃ response s', (env.ensureLockableResource plan).run s = (.ok (.refused response), s') ∧
      400 ≤ response.status ∧ s'.volume = v) := by
  obtain ⟨s₂, horphan, hs₂⟩ := @orphan_looked env _ _ _ _ hvalid hs.again
  have hlook : (env.statInner plan.path).run s = (.ok (env.sees v path n), s.record (.stat path)) := by
    rw [statInner_run, hpath, hs.volume, hs.looks]
  unfold Env.ensureLockableResource Env.Makes
  rw [Act.run_bind_ok hlook, if_neg (by simp [hfound])]
  by_cases hbody : plan.parsed.body = []
  · rw [if_pos hbody]
    exact .inr ⟨fun h => h.1 hbody, _, _, rfl, le_refl 400, hs.volume⟩
  rw [if_neg hbody, hpath, Act.run_bind_ok horphan]
  cases hparent : env.isOrphan v path with
  | true =>
    rw [if_pos rfl]
    exact .inr ⟨by simp, _, _, rfl, (by decide : 400 ≤ 409), hs₂.volume⟩
  | false =>
    rw [if_neg (by simp), hrequest]
    cases hslash : r.toRequest.endsInSlash env.platform with
    | true =>
      rw [if_pos rfl]
      exact .inr ⟨by simp, _, _, rfl, (by decide : 400 ≤ 409), hs₂.volume⟩
    | false =>
      rw [if_neg (by simp), Act.run_bind, Act.run_attempt]
      rcases writeFile_makes (hs₂.spared (.writeFile path) (by simp) (by simp [Op.IsCheck])) with
        ⟨hfails, hfile, hdir, hwrite⟩ | ⟨hnot, e, hwrite⟩
      · rw [hs₂.volume] at hfile hdir hwrite
        rw [hwrite]
        refine .inl ⟨⟨hbody, rfl, rfl, hfails, hfile, hdir⟩, _, rfl, rfl, ?_, fun op hne hop => ?_⟩
        · rw [List.count_cons_of_ne (by simp)]
          exact hs₂.looks
        · obtain ⟨hout, hwrites⟩ := not_or.mp hop
          rw [List.count_cons_of_ne (fun he => hwrites he.symm)]
          exact hs₂.spared op hne hout
      · rw [hs₂.volume] at hnot
        rw [hwrite]
        exact .inr ⟨fun h => hnot ⟨h.2.2.2.1, h.2.2.2.2⟩, _, _, rfl, (by decide : 400 ≤ 409), hs₂.volume⟩

theorem recordLockNull_run (hs : s.calls.count (.exec (.upsertNode path)) = 0)
    (hvol : s.volume = { v with files := Store.put v.files path ⟨some [], env.now⟩ }) :
    (env.recordLockNull path).run s = (.ok (), ⟨env.made path v, .exec (.upsertNode path) :: s.calls⟩) := by
  unfold Env.recordLockNull Env.upsertNode Env.made
  rw [Act.run_bind, Act.run_attempt, Env.exec, run_call, hs]
  cases env.fails (.exec (.upsertNode path)) 0 with
  | some failure =>
    simp only [Session.record, hvol]
    rfl
  | none =>
    simp only [Session.record, hvol, ↓reduceIte]
    rfl

end Making

section Rejecting

variable {env : Env} {uuid : Uuid} {r : Incoming} {path : JsString} {bases : DavBases} {v : Volume} {parsed : LockRequest}

theorem lockBeyond_bodied {s : Session} (hbody : parsed.body ≠ []) (hs : s.Looked v path parsed.looks Op.IsCheck) :
    (env.lockBeyond uuid r path bases parsed).run s = (env.lockFrom uuid path bases
      (Env.refreshPlan r path parsed (env.sees v path parsed.looks).found none)).run (s.record (.stat path)) := by
  have htarget : (env.refreshTarget r path parsed (env.sees v path parsed.looks).found).run (s.record (.stat path)) =
      (.ok (Env.refreshPlan r path parsed (env.sees v path parsed.looks).found none), s.record (.stat path)) := by
    unfold Env.refreshTarget
    rw [if_pos hbody]
    rfl
  unfold Env.lockBeyond
  rw [Act.run_bind_ok (statInner_run env path s), hs.volume, hs.looks, Act.run_bind_ok htarget]

/-- Where its resource is seen, a LOCK goes on with it. -/
theorem lock_there (h : env.Clears r path v parsed) (hfound : (env.sees v path (parsed.looks + 1)).found = true) :
    ∃ s found, s.Looked v path (parsed.looks + 2) (fun op => op.IsCheck ∨ ∃ q, op = .exec (.readLocks q)) ∧
      s.calls.count (.exec (.readLocks path)) = (if parsed.body = [] then 1 else 0) ∧
      (found.isSome = true → (env.sees v path parsed.looks).found = true) ∧
      (env.handleLock uuid r path bases).run ⟨v, []⟩ =
        (env.lockGrant uuid bases (Env.refreshPlan r path parsed (env.sees v path parsed.looks).found found)).run s := by
  by_cases hbody : parsed.body = []
  · obtain ⟨s, hs, hone, hrun⟩ := @refresh_there _ uuid _ _ bases _ _ h hbody hfound
    refine ⟨s, env.foundLock path v parsed, hs, by rw [if_pos hbody, hone], fun hsome => ?_, hrun⟩
    obtain ⟨e, he⟩ := Option.isSome_iff_exists.mp hsome
    exact (foundLock_some he).1
  · obtain ⟨s, hs, hrun⟩ := handleLock_cleared uuid bases h
    have hthere : (env.ensureLockableResource (Env.refreshPlan r path parsed (env.sees v path parsed.looks).found none)).run
        (s.record (.stat path)) = (.ok .there, (s.record (.stat path)).record (.stat path)) := by
      apply ensure_there
      show (env.sees s.volume path ((s.record (.stat path)).calls.count (.stat path))).found = true
      rw [hs.volume, hs.again.looks]
      exact hfound
    refine ⟨(s.record (.stat path)).record (.stat path), none, ?_, ?_, by simp, ?_⟩
    · exact ⟨hs.again.again.volume, hs.again.again.looks, fun op hne hop => hs.again.again.spared op hne (not_or.mp hop).1⟩
    · rw [if_neg hbody]
      exact hs.again.again.spared _ (by simp) (by simp [Op.IsCheck])
    · rw [hrun, lockBeyond_bodied hbody hs]
      unfold Env.lockFrom
      rw [Act.run_bind_ok hthere]

/-- Where nothing is seen, a LOCK goes on with the file that it makes, or it is rejected. -/
theorem lock_absent (hvalid : isValidInnerPath path = true) (h : env.Clears r path v parsed)
    (hfound : (env.sees v path (parsed.looks + 1)).found = false) :
    (env.Makes r path v parsed ∧ ∃ s, s.Looked (env.made path v) path (parsed.looks + 2)
        (fun op => op.MakesFile path ∨ op = .exec (.upsertNode path)) ∧ (env.handleLock uuid r path bases).run ⟨v, []⟩ =
          (env.lockGrant uuid bases (Env.refreshPlan r path parsed (env.sees v path parsed.looks).found none)).run s) ∨
    (¬ env.Makes r path v parsed ∧ ∃ response s', (env.handleLock uuid r path bases).run ⟨v, []⟩ = (.ok response, s') ∧
      400 ≤ response.status ∧ s'.volume = v) := by
  by_cases hbody : parsed.body = []
  · obtain ⟨s', hrun, hvol⟩ := @refresh_absent _ uuid _ _ bases _ _ h hbody hfound
    exact .inr ⟨fun hmakes => hmakes.1 hbody, _, s', hrun, le_refl 400, hvol⟩
  · obtain ⟨s, hs, hrun⟩ := handleLock_cleared uuid bases h
    rw [lockBeyond_bodied hbody hs] at hrun
    unfold Env.lockFrom at hrun
    rcases @ensure_run _ _ _ _ (Env.refreshPlan r path parsed (env.sees v path parsed.looks).found none) _ _ hvalid rfl rfl hs.again
      hfound with ⟨hmakes, s₁, hensure, hs₁⟩ | ⟨hnot, response, s₁, hensure, hstatus, hvol⟩
    · refine .inl ⟨hmakes, ⟨env.made path v, .exec (.upsertNode path) :: s₁.calls⟩, ⟨rfl, ?_, fun op hne hop => ?_⟩, ?_⟩
      · rw [List.count_cons_of_ne (by simp)]
        exact hs₁.looks
      · obtain ⟨hout, hnode⟩ := not_or.mp hop
        rw [List.count_cons_of_ne (fun he => hnode he.symm)]
        exact hs₁.spared op hne hout
      · rw [hrun, Act.run_bind_ok hensure]
        exact Act.run_bind_ok (recordLockNull_run (hs₁.spared _ (by simp) (by simp [Op.MakesFile, Op.IsCheck])) hs₁.volume)
    · refine .inr ⟨hnot, response, s₁, ?_, hstatus, hvol⟩
      rw [hrun, Act.run_bind_ok hensure]
      rfl

theorem leaves_iff {res : Except Failure Response} {s' : Session}
    (hrun : (env.handleLock uuid r path bases).run ⟨v, []⟩ = (res, s')) :
    env.LeavesNothing uuid r path bases v ↔ (Rejected res → v.Untouched s'.volume) := by
  unfold Env.LeavesNothing Env.after
  rw [hrun]

theorem leaves_unchanged {res : Except Failure Response} {s' : Session}
    (hrun : (env.handleLock uuid r path bases).run ⟨v, []⟩ = (res, s')) (hvol : s'.volume = v) :
    env.LeavesNothing uuid r path bases v := by
  rw [leaves_iff hrun, hvol]
  exact fun _ => ⟨fun _ => rfl, fun _ => rfl, rfl⟩

/-- A refresh that is rejected changes nothing. -/
theorem grant_old {plan : Env.LockPlan} {old : LockDetails} {s : Session} (hold : plan.existing = some old)
    (hpresent : plan.wasPresent = true) (hupdate : ∀ token, s.calls.count (.exec (.updateLock token)) = 0) :
    ∃ res s', (env.lockGrant uuid bases plan).run s = (res, s') ∧ (Rejected res → s'.volume = s.volume) := by
  have hfirst : (env.checkScopeConflict plan.activePath plan.parsed.requestedScope plan.existing).run s = (.ok none, s) := by
    rw [hold]
    rfl
  by_cases hdeep : plan.parsed.depthHeader = some .infinity ∧
      (env.sees s.volume plan.activePath (s.calls.count (.stat plan.activePath) + 1)).isDirectory = false
  · refine ⟨_, _, grant_deep uuid bases plan hfirst rfl hdeep.1 hdeep.2, fun _ => ?_⟩
    rw [if_pos hpresent]
    rfl
  · obtain ⟨s₂, hvol, hcalls, hgrant⟩ := grant_write uuid bases plan hfirst rfl fun hdepth => by
      by_contra hdir
      exact hdeep ⟨hdepth, Bool.eq_false_iff.mpr hdir⟩
    rw [hold] at hgrant
    rcases updated_run uuid old _ ((hcalls.count (by simp)).trans (hupdate _)) with ⟨_, s₃, hwrite, hvol₃⟩ | ⟨_, s₃, hwrite, _⟩
    · exact ⟨_, s₃, hgrant.trans hwrite, fun _ => hvol₃.trans hvol⟩
    · exact ⟨_, s₃, hgrant.trans hwrite, fun hrejected => absurd hrejected (by decide : ¬ 400 ≤ 200)⟩

theorem overlooked_iff (h : env.Clears r path v parsed) (hfound : (env.sees v path (parsed.looks + 1)).found = true) :
    env.LeavesNothing uuid r path bases v ↔ env.KeepsOverlooked path v parsed := by
  obtain ⟨s, found, hs, hreads, hpresent, hrun⟩ := @lock_there _ uuid _ _ bases _ _ h hfound
  cases hlock : found with
  | some e =>
    have hseen := hpresent (by rw [hlock]; rfl)
    have hkeeps : env.KeepsOverlooked path v parsed := by
      intro hunseen
      rw [hseen] at hunseen
      cases hunseen
    rw [hlock] at hrun
    obtain ⟨res, s', hgrant, hsame⟩ := @grant_old env uuid bases (Env.refreshPlan r path parsed (env.sees v path parsed.looks).found (some e)) _ _ rfl hseen
      fun token => hs.spared _ (by simp) (by simp [Op.IsCheck])
    refine iff_of_true ((leaves_iff (hrun.trans hgrant)).mpr fun hrejected => ?_) hkeeps
    rw [hsame hrejected, hs.volume]
    exact ⟨fun _ => rfl, fun _ => rfl, rfl⟩
  | none =>
    rw [hlock] at hrun
    have hunlink : s.calls.count (.unlink path) = 0 := hs.spared _ (by simp) (by simp [Op.IsCheck])
    have hrows (t : Table) : s.calls.count (.exec (.deleteRows t path)) = 0 := hs.spared _ (by simp) (by simp [Op.IsCheck])
    have hown : Env.looksBefore path parsed path = parsed.looks + 2 := if_pos rfl
    have hblocked : env.Blocks s.volume path parsed.requestedScope (s.calls.count (.exec (.readLocks path))) ↔
        env.Blocks v path parsed.requestedScope (if parsed.body = [] then 1 else 0) := by rw [hs.volume, hreads]
    have hdeep : (parsed.depthHeader = some .infinity ∧ (env.sees s.volume path (parsed.looks + 2 + 1)).isDirectory = false) ↔
        env.TooDeep path v parsed path := by
      unfold Env.TooDeep
      rw [hown, hs.volume]
    rcases @grant_new env _ _ _ uuid bases (Env.refreshPlan r path parsed (env.sees v path parsed.looks).found none) rfl
      rfl rfl hs.looks (hs.spared _ (by simp) (by simp [Op.IsCheck])) with ⟨hb, s', hrun', hvol⟩ |
        ⟨hb, hd, s', hvol, hcount, hrun'⟩ | ⟨hb, hd, _, s', hrun', hvol⟩ | ⟨hb, hd, _, d, row, s', hrun', hvol⟩
    · exact iff_of_true (leaves_unchanged (hrun.trans hrun') (hvol.trans hs.volume)) fun _ hfree => absurd (hblocked.mp hb) hfree
    · have hvol' : s'.volume = v := hvol.trans hs.volume
      have hended : (env.handleLock uuid r path bases).run ⟨v, []⟩ = (.ok .badRequest,
        if (env.sees v path parsed.looks).found then s' else ((env.undoCreation path).run s').2) := hrun.trans hrun'
      unfold Env.KeepsOverlooked
      cases hseen : (env.sees v path parsed.looks).found with
      | true =>
        rw [hseen, if_pos rfl] at hended
        exact iff_of_true (leaves_unchanged hended hvol') (by simp)
      | false =>
        rw [hseen, if_neg (by simp)] at hended
        simp only [mt hblocked.mpr hb, hdeep.mp hd, not_false_eq_true, forall_const]
        rw [← hcount _ (by simp) (by simp)] at hunlink
        by_cases hholds : env.Holds v path
        · exact iff_of_true (leaves_unchanged hended ((undo_held hunlink (hvol' ▸ hholds)).trans hvol')) hholds
        · refine iff_of_false (fun hleaves => ?_) hholds
          have hfiles := ((leaves_iff hended).mp hleaves (le_refl 400)).files path
          rw [undo_removes hunlink (fun t => (hcount _ (by simp) (by simp)).trans (hrows t)) (hvol' ▸ hholds), cascaded_files,
            hvol', Store.get_remove, if_pos rfl] at hfiles
          exact removed_get hholds hfiles.symm
    · exact iff_of_true (leaves_unchanged (hrun.trans hrun') (hvol.trans hs.volume)) fun _ _ htoo => absurd (hdeep.mpr htoo) hd
    · refine iff_of_true ((leaves_iff (hrun.trans hrun')).mpr fun hrejected => ?_) fun _ _ htoo => absurd (hdeep.mpr htoo) hd
      exact absurd hrejected (by decide : ¬ 400 ≤ 201)

theorem blocks_made {scope : LockScope} {k : ℕ} : env.Blocks (env.made path v) path scope k ↔ env.Blocks v path scope k := by
  unfold Env.Blocks
  rw [made_locks]

theorem cannotInsert_made : env.CannotInsert uuid (env.made path v) ↔ env.CannotInsert uuid v := by
  unfold Env.CannotInsert
  rw [made_locks]

theorem made_isDirectory (hroot : path ≠ []) : (env.made path v).files.isDirectory path = false := by
  rw [made_files]
  unfold Files.isDirectory
  rw [Store.get_put, if_pos rfl]
  simp [hroot]

theorem holds_made (hroot : path ≠ []) : env.Holds (env.made path v) path ↔ env.fails (.unlink path) 0 ≠ none := by
  have hfound : (env.made path v).files.found path = true := by
    refine found_iff.mpr (.inr ?_)
    rw [made_files, Store.get_put, if_pos rfl]
    rfl
  unfold Env.Holds
  rw [made_isDirectory hroot, hfound]
  simp

theorem made_iff (hvalid : isValidInnerPath path = true) (h : env.Clears r path v parsed)
    (hfound : (env.sees v path (parsed.looks + 1)).found = false) :
    env.LeavesNothing uuid r path bases v ↔ (env.Makes r path v parsed → env.UndoesMade uuid path v parsed) := by
  rcases @lock_absent _ uuid _ _ bases _ _ hvalid h hfound with ⟨hmakes, s, hs, hrun⟩ |
    ⟨hnot, response, s', hrun, _, hvol⟩
  swap
  · exact iff_of_true (leaves_unchanged hrun hvol) fun hmakes => absurd hmakes hnot
  have hroot : path ≠ [] := by
    rintro rfl
    cases hmakes.2.2.2.2.1
  simp only [hmakes, forall_const]
  have hunlink : s.calls.count (.unlink path) = 0 := hs.spared _ (by simp) (by simp [Op.MakesFile, Op.IsCheck])
  have hrows (t : Table) : s.calls.count (.exec (.deleteRows t path)) = 0 :=
    hs.spared _ (by simp) (by simp [Op.MakesFile, Op.IsCheck])
  have hreads : s.calls.count (.exec (.readLocks path)) = 0 := hs.spared _ (by simp) (by simp [Op.MakesFile, Op.IsCheck])
  have hblocked : env.Blocks s.volume path parsed.requestedScope (s.calls.count (.exec (.readLocks path))) ↔
      env.Blocks v path parsed.requestedScope 0 := by rw [hs.volume, hreads, blocks_made]
  have hdeep : (parsed.depthHeader = some .infinity ∧ (env.sees s.volume path (parsed.looks + 2 + 1)).isDirectory = false) ↔
      parsed.depthHeader = some .infinity := by
    refine and_iff_left (Bool.eq_false_iff.mpr fun hdir => ?_)
    rw [hs.volume] at hdir
    have htrue := sees_isDirectory hdir
    rw [made_isDirectory hroot] at htrue
    cases htrue
  rcases @grant_new env _ _ _ uuid bases (Env.refreshPlan r path parsed (env.sees v path parsed.looks).found none) rfl
    rfl rfl hs.looks (hs.spared _ (by simp) (by simp [Op.MakesFile, Op.IsCheck])) with ⟨hb, s', hrun', hvol⟩ |
      ⟨hb, hd, s', hvol, hcount, hrun'⟩ | ⟨hb, hd, hcannot, s', hrun', hvol⟩ | ⟨hb, hd, hcan, d, row, s', hrun', hvol⟩
  · have hb' := hblocked.mp hb
    rw [leaves_iff (hrun.trans hrun'), hvol, hs.volume, made_untouched_iff]
    constructor
    · intro hsame
      exact ⟨fun _ => hsame (by decide : 400 ≤ 423), fun hfree => absurd hb' hfree, fun hfree => absurd hb' hfree⟩
    · exact fun hundoes _ => hundoes.blocked hb'
  · have hb' := mt hblocked.mpr hb
    have hd' := hdeep.mp hd
    have hvol' : s'.volume = env.made path v := hvol.trans hs.volume
    have hended : (env.handleLock uuid r path bases).run ⟨v, []⟩ = (.ok .badRequest,
      if (env.sees v path parsed.looks).found then s' else ((env.undoCreation path).run s').2) := hrun.trans hrun'
    have hundoes : env.UndoesMade uuid path v parsed ↔
        if (env.sees v path parsed.looks).found = true ∨ env.fails (.unlink path) 0 ≠ none then env.MakesSame path v
        else env.RemovesMade path v :=
      ⟨fun h => h.deep hb' hd', fun h => ⟨fun hb => absurd hb hb', fun _ _ => h, fun _ hd => absurd hd' hd⟩⟩
    rw [hundoes, leaves_iff hended]
    have hrejects : Rejected (.ok Response.badRequest) := le_refl 400
    simp only [hrejects, forall_const]
    cases hseen : (env.sees v path parsed.looks).found with
    | true =>
      rw [if_pos rfl, if_pos (.inl rfl), hvol', made_untouched_iff]
    | false =>
      rw [← hcount _ (by simp) (by simp)] at hunlink
      rw [if_neg (by simp)]
      by_cases hheld : env.fails (.unlink path) 0 ≠ none
      · rw [if_pos (.inr hheld), undo_held hunlink (by rw [hvol']; exact (holds_made hroot).mpr hheld), hvol',
          made_untouched_iff]
      · rw [if_neg (by simp [hheld]), undo_removes hunlink (fun t => (hcount _ (by simp) (by simp)).trans (hrows t))
          (by rw [hvol']; exact mt (holds_made hroot).mp hheld), hvol']
        exact unmade_untouched_iff
  · have hb' := mt hblocked.mpr hb
    have hd' := mt hdeep.mpr hd
    rw [hs.volume, cannotInsert_made] at hcannot
    rw [leaves_iff (hrun.trans hrun'), hvol, hs.volume, made_untouched_iff]
    constructor
    · intro hsame
      exact ⟨fun hb => absurd hb hb', fun _ hd => absurd hd hd', fun _ _ _ => hsame (by decide : 400 ≤ 500)⟩
    · exact fun hundoes _ => hundoes.written hb' hd' hcannot
  · have hb' := mt hblocked.mpr hb
    have hd' := mt hdeep.mpr hd
    rw [hs.volume, cannotInsert_made] at hcan
    refine iff_of_true ((leaves_iff (hrun.trans hrun')).mpr fun hrejected => ?_) ?_
    · exact absurd hrejected (by decide : ¬ 400 ≤ 201)
    · exact ⟨fun hb => absurd hb hb', fun _ hd => absurd hd hd', fun _ _ hcannot => absurd hcannot hcan⟩

/-- A rejected LOCK leaves nothing behind exactly if nothing that it overlooked is undone, and all that it made is. -/
theorem rejection_iff (env : Env) (uuid : Uuid) (r : Incoming) (path : JsString) (bases : DavBases) (v : Volume)
    (hvalid : isValidInnerPath path = true) : env.LeavesNothing uuid r path bases v ↔ ∀ parsed, env.Clears r path v parsed →
      if (env.sees v path (parsed.looks + 1)).found then env.KeepsOverlooked path v parsed
      else env.Makes r path v parsed → env.UndoesMade uuid path v parsed := by
  by_cases hclears : ∃ parsed, env.Clears r path v parsed
  · obtain ⟨parsed, hclears⟩ := hclears
    rw [clears_iff hclears]
    cases hfound : (env.sees v path (parsed.looks + 1)).found with
    | true => exact overlooked_iff hclears hfound
    | false => exact made_iff hvalid hclears hfound
  · obtain ⟨res, s', hrun, _, hvol⟩ := @handleLock_stopped _ _ _ uuid _ bases (not_exists.mp hclears)
    exact iff_of_true (leaves_unchanged hrun hvol) fun parsed h => absurd ⟨parsed, h⟩ hclears

end Rejecting

/-! ### Of a file that is not there -/

def deepRequest : Incoming := { lockRequest (js "http://h/o/v/f") with depth := some (js "infinity") }

theorem deep_lock_undone : calmEnv.LeavesNothing lockUuid deepRequest (js "f") plainBases emptyVolume := by
  apply (rejection_iff calmEnv lockUuid deepRequest (js "f") plainBases emptyVolume (by decide)).mpr
  intro parsed hclears
  obtain rfl := Except.ok.inj hclears.1
  rw [if_neg (by decide)]
  intro _
  refine ⟨fun hblocks => ?_, fun _ _ => ?_, fun _ hshallow => absurd rfl hshallow⟩
  · obtain ⟨_, e, he, _⟩ := hblocks
    cases he
  · rw [if_neg (by decide)]
    exact ⟨rfl, fun _ _ _ => rfl, fun hfails => absurd rfl hfails, fun _ _ _ e he => absurd he List.not_mem_nil⟩

/-- The lock that a MOVE leaves behind keeps its own owner off, when the file is made already. -/
theorem stranded_lock_relocked : ¬ calmEnv.LeavesNothing otherUuid
    { lockRequest (js "http://h/o/v/f") with ifHeader := lockedRequest.ifHeader } (js "f") plainBases
    (Env.after (calmEnv.serve moveLocked) lockedFile) := by
  intro h
  have hrejected : Rejected ((calmEnv.handleLock otherUuid
      { lockRequest (js "http://h/o/v/f") with ifHeader := lockedRequest.ifHeader } (js "f") plainBases).run
        ⟨Env.after (calmEnv.serve moveLocked) lockedFile, []⟩).1 := (by decide : 400 ≤ 423)
  have hfile := (h hrejected).files (js "f")
  revert hfile
  decide

end DurableDav.Dav
