import DurableDav.Dav.OneEtag
import DurableDav.Front.Registry

namespace DurableDav.Front

open Library Dav

/-! ### Emptying a volume's object -/

def Volume.clearTable (t : Table) (v : Volume) : Volume :=
  match t with
  | .davNodes => { v with nodes := [] }
  | .davProps => { v with props := [] }
  | .davLocks => { v with locks := [] }
  | .davReplicaState => { v with replicaState := [] }

def allTables : List Table := [.davNodes, .davProps, .davLocks, .davReplicaState]

/-- The statement on a whole table goes by the name of the one on the root's rows. -/
def clearTables (env : Env) : Serve Unit :=
  Act.each (fun t => env.exec (.deleteRows t []) (Env.modifyVolume (Volume.clearTable t))) allTables

/-- What fails is swallowed, first of the files and then of the tables. -/
def deleteVolume (env : Env) : Serve Unit := do
  let _ ← (env.rmdir []).attempt
  let _ ← (clearTables env).attempt
  pure ()

/-- No part of `deleteVolume` fails. -/
def Clears (env : Env) : Prop :=
  env.fails (.rmdir []) 0 = none ∧ ∀ t ∈ allTables, env.fails (.exec (.deleteRows t [])) 0 = none

instance (env : Env) : Decidable (Clears env) := by
  unfold Clears
  infer_instance

def Volume.Blank (v : Volume) : Prop := v.files = [] ∧ v.props = [] ∧ v.locks = [] ∧ v.replicaState = []

theorem removeWhere_everything (f : Files) :
    Store.removeWhere f (fun q => decide (q = [] ∨ Below slash [] q)) = [] := by
  simp only [Store.removeWhere, List.filter_eq_nil_iff, Bool.not_eq_true', decide_eq_false_iff_not, not_not]
  intro e _
  by_cases he : e.1 = []
  · exact .inl he
  · exact .inr (below_root.mpr he)

theorem clearTables_run {env : Env} (h : ∀ t ∈ allTables, env.fails (.exec (.deleteRows t [])) 0 = none)
    (v : Volume) : ∃ s, (clearTables env).run ⟨v, [.rmdir []]⟩ = (.ok (), s) ∧
      s.volume = ⟨v.files, [], [], [], []⟩ := by
  have step (t : Table) (s : Session) (hfresh : s.calls.count (.exec (.deleteRows t [])) = 0) :
      (env.exec (.deleteRows t []) (Env.modifyVolume (Volume.clearTable t))).run s =
        (.ok (), ⟨Volume.clearTable t s.volume, .exec (.deleteRows t []) :: s.calls⟩) := by
    have hcall := h t (by cases t <;> simp [allTables])
    exact call_run (by rw [hfresh]; exact hcall)
  unfold clearTables allTables
  simp only [Act.each]
  rw [Act.run_bind_ok (step .davNodes _ (by simp)), Act.run_bind_ok (step .davProps _ (by simp)),
    Act.run_bind_ok (step .davLocks _ (by simp)), Act.run_bind_ok (step .davReplicaState _ (by simp))]
  exact ⟨_, rfl, rfl⟩

theorem deleteVolume_clears {env : Env} (h : Clears env) (v : Volume) :
    Env.after (deleteVolume env) v = emptyVolume := by
  obtain ⟨hrmdir, htables⟩ := h
  have hfiles : (env.rmdir []).attempt.run ⟨v, []⟩ =
      (.ok (.ok ()), ⟨{ v with files := [] }, [.rmdir []]⟩) := by
    have hrun : (env.rmdir []).run ⟨v, []⟩ = _ := call_run (by simpa using hrmdir)
    rw [Act.run_attempt, hrun]
    have hroot : v.files.isDirectory [] = true := by simp [Files.isDirectory]
    simp only [Act.run_bind, Act.run_read, Session.record, hroot, Bool.not_true, Bool.false_eq_true, ↓reduceIte,
      modifyFiles, Act.run_modify, removeWhere_everything]
  obtain ⟨s, hclear, hvolume⟩ := clearTables_run htables { v with files := [] }
  have hattempt : (clearTables env).attempt.run ⟨{ v with files := [] }, [.rmdir []]⟩ = (.ok (.ok ()), s) := by
    rw [Act.run_attempt, hclear]
  unfold Env.after deleteVolume
  rw [Act.run_bind_ok hfiles, Act.run_bind_ok hattempt]
  exact hvolume

/-- What is empty stays so. -/
def StaysEmpty (s s' : Session) : Prop := s.volume = emptyVolume → s'.volume = emptyVolume

instance : IsPreorder Session StaysEmpty where
  refl _ h := h
  trans _ _ _ h h' he := h' (h he)

theorem call_staysEmpty {α : Type} (env : Env) (op : Op) {body : Serve α} (h : Act.Within StaysEmpty body) :
    Act.Within StaysEmpty (env.call op body) := by
  intro s hs
  rw [run_call]
  split
  · exact hs
  · exact h _ hs

theorem deleteVolume_empty (env : Env) : Env.after (deleteVolume env) emptyVolume = emptyVolume := by
  have hrmdir : Act.Within StaysEmpty (env.rmdir []) := by
    refine call_staysEmpty env _ (Act.within_bind Act.within_read fun s => ?_)
    split
    · exact Act.within_throw _
    · intro s hs
      simp only [modifyFiles, Act.run_modify, hs, emptyVolume, removeWhere_everything]
  have htables : Act.Within StaysEmpty (clearTables env) := by
    apply Act.within_each
    intro t _
    apply call_staysEmpty
    intro s hs
    cases t <;> simp [Env.modifyVolume, Volume.clearTable, hs, emptyVolume]
  have hall : Act.Within StaysEmpty (deleteVolume env) :=
    Act.within_bind (Act.within_attempt hrmdir) fun _ =>
      Act.within_bind (Act.within_attempt htables) fun _ => Act.within_pure _
  exact hall ⟨emptyVolume, []⟩ rfl

/-! ### Accounts, the table of volumes and the objects -/

/-- What a request, a replication or the transfer of a username change does to an object. -/
inductive Deed
  | request (env : Env) (x : Exchange)
  | replica (env : Env) (op : ReplicaOperation)
  | noted (rows : Store ReplicaKey Replication.ReplicaStateRow)
  | transfer (env : Env) (e : VolumeEntry)

def Deed.apply (v : Volume) : Deed → Volume
  | .request env x => Env.after (env.serve x) v
  | .replica env op => Env.after (env.applyOne op) v
  | .noted rows => { v with replicaState := rows }
  | .transfer env e => Env.after (env.writeEntry e) v

/-- A request for a new volume, its names trimmed. `owned` is the count of the caller's volumes. -/
structure CreateInput where
  account : JsString
  id : JsString
  owner : JsString
  name : JsString
  isPrivate : Option Bool
  hrefPrefixMode : Option HrefPrefixMode
  owned : ℕ
  maxVolumes : ℕ

structure Site where
  usernames : Store JsString JsString
  volumes : Volumes
  objects : JsString → Volume
  -- the objects that what is in flight has resolved
  addressed : List JsString
  -- the objects of no volume that something was left in or written to since they were last cleared
  stale : List JsString

inductive Occurrence
  | register (account username : JsString)
  | create (x : CreateInput)
  | resolve (id : JsString)
  | follow (id handle : JsString)
  | work (n : ℕ) (d : Deed)
  | clear (n : ℕ) (env : Env)
  | remove (id : JsString)
  | rename (account handle : JsString) (cascades : Bool)

namespace Site

variable (C : Casing)

def start : Site := ⟨[], [], fun _ => emptyVolume, [], []⟩

/-- The objects of volumes that are gone from the table are stale. -/
def putVolumes (s : Site) (rows : Volumes) : Site :=
  { s with volumes := rows, stale := s.stale ++ (s.volumes.keys C).filter (fun k => k ∉ rows.keys C) }

def createVolume (s : Site) (x : CreateInput) : Option Site :=
  if !isValidUsername x.owner ∨ !isValidVolumeName x.name then none
  else match s.usernames.get x.account with
    | none => none
    | some username =>
      if username = [] ∨ C.toLowerCase x.owner ≠ C.toLowerCase username then none
      else if x.maxVolumes ≤ x.owned then none
      else (s.volumes.create C ⟨x.id, x.account, x.owner, x.name, x.isPrivate.getD true,
        x.hrefPrefixMode.getD .base⟩).map (s.putVolumes C)

def work (s : Site) (k : JsString) (d : Deed) : Site :=
  { s with
    objects := Function.update s.objects k (d.apply (s.objects k))
    stale := if k ∈ s.volumes.keys C then s.stale else k :: s.stale }

def clear (s : Site) (k : JsString) (env : Env) : Site :=
  { s with
    objects := Function.update s.objects k (Env.after (deleteVolume env) (s.objects k))
    stale := if Clears env then s.stale.filter (fun k' => k' ≠ k) else s.stale }

/-- The cascade onto the table of volumes may fail, which is ignored. -/
def renameUsername (s : Site) (account handle : JsString) (cascades : Bool) : Option Site :=
  let handleCi := C.toLowerCase handle
  if !isValidUsername handle then none
  else match s.usernames.get account with
    | none => none
    | some old =>
      let s := { s with usernames := s.usernames.set account handleCi }
      some (if cascades then s.putVolumes C (s.volumes.renameOwner C (C.toLowerCase old) handleCi) else s)

def step (s : Site) : Occurrence → Option Site
  | .register account username => some { s with usernames := s.usernames.set account username }
  | .create x => s.createVolume C x
  | .resolve id => (s.volumes.find? (fun r => r.id = id)).map fun r =>
    { s with addressed := s.addressed ++ [normalizeVolumeKey C r.owner r.name] }
  | .follow id handle => (s.volumes.find? (fun r => r.id = id)).map fun r =>
    { s with addressed := s.addressed ++ [normalizeVolumeKey C handle r.name] }
  | .work n d => s.addressed[n]?.map (fun k => s.work C k d)
  | .clear n env => s.addressed[n]?.map (fun k => s.clear k env)
  | .remove id => some (s.putVolumes C (s.volumes.deleteById id))
  | .rename account handle cascades => s.renameUsername C account handle cascades

def run (s : Site) (os : List Occurrence) : Option Site := os.foldlM (step C) s

/-- A volume is created on an object that has been cleared since anything was left in it. -/
def Orderly (s : Site) : Occurrence → Prop
  | .create x => normalizeVolumeKey C x.owner x.name ∉ s.stale
  | _ => True

instance (s : Site) (o : Occurrence) : Decidable (s.Orderly C o) := by
  cases o <;> (unfold Orderly; infer_instance)

/-- What is known of a site: its owners are usernames, and what no volume uses is blank or stale. -/
structure Tidy (s : Site) : Prop where
  owners : ∀ r ∈ s.volumes, isValidUsername r.owner
  blank : ∀ k, k ∉ s.volumes.keys C → k ∉ s.stale → s.objects k = emptyVolume

end Site

section Sites

variable {C : Casing} {s s' : Site}

theorem tidy_start : Site.start.Tidy C where
  owners _ h := nomatch h
  blank _ _ _ := rfl

theorem tidy_putVolumes (h : s.Tidy C) {rows : Volumes} (howners : ∀ r ∈ rows, isValidUsername r.owner) :
    (s.putVolumes C rows).Tidy C where
  owners := howners
  blank k hgone hstale := by
    simp only [Site.putVolumes, List.mem_append, List.mem_filter, decide_eq_true_eq, not_or, not_and] at hgone hstale
    apply h.blank k
    · intro hkept
      exact hstale.2 hkept hgone
    · exact hstale.1

theorem tidy_work (h : s.Tidy C) (k : JsString) (d : Deed) : (s.work C k d).Tidy C where
  owners := h.owners
  blank k' hgone hstale := by
    simp only [Site.work] at hgone hstale ⊢
    by_cases hk : k' = k
    · subst hk
      rw [if_neg hgone] at hstale
      simp at hstale
    · rw [Function.update_of_ne hk]
      apply h.blank k' hgone
      split at hstale
      · exact hstale
      · exact fun hmem => hstale (List.mem_cons_of_mem _ hmem)

theorem tidy_clear (h : s.Tidy C) (k : JsString) (env : Env) : (s.clear k env).Tidy C where
  owners := h.owners
  blank k' hgone hstale := by
    simp only [Site.clear] at hgone hstale ⊢
    by_cases hk : k' = k
    · subst hk
      rw [Function.update_self]
      split at hstale
      · rename_i hclears
        exact deleteVolume_clears hclears _
      · rw [h.blank k' hgone hstale]
        exact deleteVolume_empty env
    · rw [Function.update_of_ne hk]
      apply h.blank k' hgone
      split at hstale
      · intro hmem
        exact hstale (List.mem_filter.mpr ⟨hmem, by simpa using hk⟩)
      · exact hstale

theorem mem_create {rows rows' : Volumes} {row : DavVolumeRow} (h : rows.create C row = some rows') :
    rows' = rows ++ [row] ∧ rows.getByOwnerName C row.owner row.name = none := by
  obtain ⟨hnew, hrows⟩ := Option.ite_none_left_eq_some.mp h
  refine ⟨(Option.some.inj hrows).symm, ?_⟩
  simpa using (not_or.mp hnew).2

theorem createVolume_row {x : CreateInput} (h : s.createVolume C x = some s') :
    ∃ row rows, isValidUsername x.owner ∧ row.owner = x.owner ∧ row.name = x.name ∧
      s.volumes.create C row = some rows ∧ s' = s.putVolumes C rows := by
  obtain ⟨hnames, h⟩ := Option.ite_none_left_eq_some.mp h
  split at h
  · exact nomatch h
  · obtain ⟨-, h⟩ := Option.ite_none_left_eq_some.mp h
    obtain ⟨-, h⟩ := Option.ite_none_left_eq_some.mp h
    obtain ⟨rows, hrows, rfl⟩ := Option.map_eq_some_iff.mp h
    refine ⟨_, rows, ?_, rfl, rfl, hrows, rfl⟩
    simpa using (not_or.mp hnames).1

theorem tidy_step (h : s.Tidy C) {o : Occurrence} (hstep : s.step C o = some s') : s'.Tidy C := by
  cases o with
  | register account username =>
    obtain rfl := Option.some.inj hstep
    exact ⟨h.owners, h.blank⟩
  | create x =>
    obtain ⟨row, rows, hvalid, howner, -, hrows, rfl⟩ := createVolume_row hstep
    apply tidy_putVolumes h
    intro r hr
    rw [(mem_create hrows).1] at hr
    rcases List.mem_append.mp hr with hr | hr
    · exact h.owners r hr
    · rw [List.mem_singleton.mp hr, howner]
      exact hvalid
  | resolve id =>
    obtain ⟨r, -, rfl⟩ := Option.map_eq_some_iff.mp hstep
    exact ⟨h.owners, h.blank⟩
  | follow id handle =>
    obtain ⟨r, -, rfl⟩ := Option.map_eq_some_iff.mp hstep
    exact ⟨h.owners, h.blank⟩
  | work n d =>
    obtain ⟨k, -, rfl⟩ := Option.map_eq_some_iff.mp hstep
    exact tidy_work h k d
  | clear n env =>
    obtain ⟨k, -, rfl⟩ := Option.map_eq_some_iff.mp hstep
    exact tidy_clear h k env
  | remove id =>
    obtain rfl := Option.some.inj hstep
    apply tidy_putVolumes h
    intro r hr
    exact h.owners r (List.mem_of_mem_filter hr)
  | rename account handle cascades =>
    obtain ⟨hvalid, hstep⟩ := Option.ite_none_left_eq_some.mp hstep
    split at hstep
    · exact nomatch hstep
    · rename_i old hold
      obtain rfl := Option.some.inj hstep
      have hs : ({ s with usernames := s.usernames.set account (C.toLowerCase handle) } : Site).Tidy C :=
        ⟨h.owners, h.blank⟩
      cases cascades with
      | false => exact hs
      | true =>
        apply tidy_putVolumes hs
        intro r hr
        obtain ⟨r', hr', rfl⟩ := List.mem_map.mp hr
        split
        · exact lower_username (by simpa using hvalid)
        · exact h.owners r' hr'

theorem tidy_run {os : List Occurrence} (h : s.Tidy C) (hrun : s.run C os = some s') : s'.Tidy C := by
  induction os generalizing s with
  | nil => exact Option.some.inj hrun ▸ h
  | cons o os ih =>
    simp only [Site.run, List.foldlM_cons] at hrun
    obtain ⟨mid, hstep, hrest⟩ := Option.bind_eq_some_iff.mp hrun
    exact ih (tidy_step h hstep) hrest

/-- A volume whose object was cleared since anything was left in it starts blank. -/
theorem new_volumes_are_blank (C : Casing) (os : List Occurrence) (x : CreateInput) (s s' : Site)
    (hrun : Site.start.run C os = some s) (hcreate : s.step C (.create x) = some s')
    (horderly : s.Orderly C (.create x)) : Volume.Blank (s'.objects (normalizeVolumeKey C x.owner x.name)) := by
  have htidy := tidy_run tidy_start hrun
  obtain ⟨row, rows, hvalid, howner, hname, hrows, rfl⟩ := createVolume_row hcreate
  have hfree : normalizeVolumeKey C x.owner x.name ∉ s.volumes.keys C := by
    intro hmem
    obtain ⟨r, hr, hkey⟩ := List.mem_map.mp hmem
    obtain ⟨howners, hnames⟩ := key_inj (htidy.owners r hr) hvalid hkey
    have hnone := (mem_create hrows).2
    rw [howner, hname] at hnone
    have hno := List.find?_eq_none.mp hnone r hr
    simp only [decide_eq_true_eq, not_and] at hno
    exact hno howners hnames
  have hempty : s.objects (normalizeVolumeKey C x.owner x.name) = emptyVolume :=
    htidy.blank _ hfree horderly
  show Volume.Blank (s.objects _)
  rw [hempty]
  exact ⟨rfl, rfl, rfl, rfl⟩

end Sites

/-! ### What a volume created again can find -/

def aliceInput (id : JsString) : CreateInput where
  account := js "1"
  id := id
  owner := js "alice"
  name := js "v"
  isPrivate := none
  hrefPrefixMode := none
  owned := 0
  maxVolumes := 10

def aliceKey : JsString := normalizeVolumeKey asciiCasing (js "alice") (js "v")

/-- A PUT that has been let in waits while its volume is deleted and cleared, and is then carried out. -/
def lateWrite : List Occurrence :=
  [.register (js "1") (js "Alice"), .create (aliceInput (js "a")), .resolve (js "a"), .resolve (js "a"),
    .remove (js "a"), .clear 1 calmEnv, .work 0 (.request calmEnv putFile), .create (aliceInput (js "b"))]

def brokenStore : Env := { calmEnv with fails := fun op _ => if op = .rmdir [] then some (.of "EIO") else none }

/-- The object is not emptied, which its volume's deletion does not mind. -/
def failedClear : List Occurrence :=
  [.register (js "1") (js "Alice"), .create (aliceInput (js "a")), .resolve (js "a"),
    .work 0 (.request calmEnv putFile), .remove (js "a"), .clear 0 brokenStore, .create (aliceInput (js "b"))]

def LeavesFiles (os : List Occurrence) : Prop :=
  ∃ s, Site.start.run asciiCasing os = some s ∧ s.volumes.map DavVolumeRow.id = [js "b"] ∧
    (s.objects aliceKey).files = [(js "f", ⟨some [1, 2], 9⟩)] ∧ ¬ Volume.Blank (s.objects aliceKey)

theorem created_on_leftovers : LeavesFiles lateWrite ∧ LeavesFiles failedClear := by
  constructor
  · exact ⟨(Site.start.run asciiCasing lateWrite).get (by decide), by simp, by decide, by decide, fun h =>
      absurd h.1 (by decide)⟩
  · exact ⟨(Site.start.run asciiCasing failedClear).get (by decide), by simp, by decide, by decide, fun h =>
      absurd h.1 (by decide)⟩

def clearedInTime : List Occurrence :=
  [.register (js "1") (js "Alice"), .create (aliceInput (js "a")), .resolve (js "a"),
    .work 0 (.request calmEnv putFile), .remove (js "a"), .clear 0 calmEnv]

theorem recreated_blank : ∃ s s', Site.start.run asciiCasing clearedInTime = some s ∧
    s.step asciiCasing (.create (aliceInput (js "b"))) = some s' ∧ Volume.Blank (s'.objects aliceKey) := by
  refine ⟨_, _, rfl, rfl, ?_⟩
  exact new_volumes_are_blank asciiCasing clearedInTime (aliceInput (js "b")) _ _ rfl rfl (by decide)

end DurableDav.Front
