import DurableDav.Dav.LockCourse
import DurableDav.Dav.LockDiscovery

namespace DurableDav.Dav

open Library
open Replication (Bytes isValidInnerPath parentOf)

/-! ### What a refresh may do -/

/-- The volume with one lock that lasts otherwise. -/
def Volume.extended (v : Volume) (token timeout : JsString) (expiresAt : ℕ) : Volume :=
  { v with locks := v.locks.map (fun e =>
      if e.1 = token then (e.1, { e.2 with timeout := timeout, expiresAt := expiresAt }) else e) }

/-- A row that is spelled as this program spells it. -/
def LockRow.Spelled (row : LockRow) : Prop :=
  (row.scope = js "exclusive" ∨ row.scope = js "shared") ∧ (row.depth = js "0" ∨ row.depth = js "infinity")

namespace Env

variable (env : Env) (uuid : Uuid) (r : Incoming) (path : JsString) (bases : DavBases) (v : Volume)

/-- A LOCK is rejected and changes nothing, or it extends one lock in force that covers its path and whose token it submits. -/
def OnlyExtends : Prop :=
  Rejected ((env.handleLock uuid r path bases).run ⟨v, []⟩).1 ∧ Env.after (env.handleLock uuid r path bases) v = v ∨
    ∃ e ∈ v.locks, e.1 ∈ r.toRequest.getRequestLockTokens env.platform ∧ env.now < e.2.expiresAt ∧ e.2.Covers path ∧
      ∃ timeout expiresAt, Env.after (env.handleLock uuid r path bases) v = v.extended e.1 timeout expiresAt

variable (parsed : LockRequest)

/-- The lock that a refresh finds, when its resource is seen. -/
def foundLock : Option (JsString × LockRow) :=
  if (env.sees v path parsed.looks).found then env.refreshableIn v path parsed.depthTokens (ancestorsOf path) else none

/-- How often the path of the lock was looked at before. -/
def looksBefore (active : JsString) : ℕ := if active = path then parsed.looks + 2 else 0

/-- A lock that shall be infinitely deep, where no collection is seen. -/
def TooDeep (active : JsString) : Prop :=
  parsed.depthHeader = some .infinity ∧ (env.sees v active (looksBefore path parsed active + 1)).isDirectory = false

/-- The row that is found is written as it is, or not at all. -/
def WritesSame (e : JsString × LockRow) : Prop :=
  env.fails (.exec (.updateLock e.1)) 0 ≠ none ∨ e.2.Spelled ∧ e.2.root = hrefOf env.platform bases.hrefBase e.2.path
    (env.sees v e.2.path (looksBefore path parsed e.2.path + 1 + parsed.looks)).isDirectory

/-- A refresh that is let in finds its lock and writes the row as it is, or it fails before a row is added. -/
def RefreshesFound : Prop := match env.foundLock path v parsed with
  | some e => env.TooDeep path v parsed e.2.path ∨ env.WritesSame path bases v parsed e
  | none => env.Blocks v path .exclusive 1 ∨
      (env.TooDeep path v parsed path → (env.sees v path parsed.looks).found = true ∨ env.Holds v path) ∧
        (¬ env.TooDeep path v parsed path → env.CannotInsert uuid v)

end Env

section Refreshing

variable {env : Env} {uuid : Uuid} {r : Incoming} {path : JsString} {bases : DavBases} {v : Volume} {parsed : LockRequest}

theorem parse_empty (hempty : r.text = []) (h : parseLockRequest env.platform env.now r = .ok parsed) :
    parsed.body = [] ∧ parsed.requestedScope = .exclusive ∧ parsed.owner = none ∧
      parsed.depthTokens = r.toRequest.getRequestLockTokens env.platform := by
  unfold parseLockRequest at h
  split at h
  · cases h
  · split at h
    · cases h
    · rename_i body hbody
      have hnil : body = [] := by
        obtain ⟨_, _, rfl⟩ := Option.map_eq_some_iff.mp hbody
        exact hempty
      subst hnil
      rw [if_neg (by simp)] at h
      obtain rfl := Except.ok.inj h
      have hscope : mentionsWord (js "<shared") [] = false := by decide
      exact ⟨rfl, by simp [hscope], rfl, rfl⟩

/-- Without its resource a refresh is rejected. -/
theorem refresh_absent (h : env.Clears r path v parsed) (hbody : parsed.body = [])
    (hfound : (env.sees v path (parsed.looks + 1)).found = false) :
    ∃ s', (env.handleLock uuid r path bases).run ⟨v, []⟩ = (.ok .badRequest, s') ∧ s'.volume = v := by
  obtain ⟨s, hs, hrun⟩ := handleLock_cleared uuid bases h
  obtain ⟨s₁, hs₁, _, htarget⟩ := refreshTarget_run r
    (env.sees s.volume path (s.calls.count (.stat path))).found hbody hs.again
  refine ⟨s₁.record (.stat path), ?_, hs₁.volume⟩
  rw [hrun]
  unfold Env.lockBeyond Env.lockFrom
  rw [Act.run_bind_ok (statInner_run env path s), Act.run_bind_ok htarget, Act.run_bind_ok (ensure_absent ?_ hbody)]
  · rfl
  · show (env.sees s₁.volume path (s₁.calls.count (.stat path))).found = false
    rw [hs₁.volume, hs₁.looks]
    exact hfound

/-- Where its resource is seen, a refresh goes on with what it has found. -/
theorem refresh_there (h : env.Clears r path v parsed) (hbody : parsed.body = [])
    (hfound : (env.sees v path (parsed.looks + 1)).found = true) :
    ∃ s, s.Looked v path (parsed.looks + 2) (fun op => op.IsCheck ∨ ∃ q, op = .exec (.readLocks q)) ∧
      s.calls.count (.exec (.readLocks path)) = 1 ∧ (env.handleLock uuid r path bases).run ⟨v, []⟩ =
        (env.lockGrant uuid bases (Env.refreshPlan r path parsed (env.sees v path parsed.looks).found
          (env.foundLock path v parsed))).run s := by
  obtain ⟨s, hs, hrun⟩ := handleLock_cleared uuid bases h
  obtain ⟨s₁, hs₁, hone, htarget⟩ := refreshTarget_run r
    (env.sees s.volume path (s.calls.count (.stat path))).found hbody hs.again
  rw [hs.volume, hs.looks] at htarget
  refine ⟨s₁.record (.stat path), hs₁.again, ?_, ?_⟩
  · rw [Session.record, List.count_cons_of_ne (by simp)]
    exact hone
  · rw [hrun]
    unfold Env.lockBeyond Env.lockFrom
    rw [Act.run_bind_ok (statInner_run env path s), hs.volume, hs.looks, Act.run_bind_ok htarget,
      Act.run_bind_ok (ensure_there ?_)]
    · rfl
    · show (env.sees s₁.volume path (s₁.calls.count (.stat path))).found = true
      rw [hs₁.volume, hs₁.looks]
      exact hfound

theorem spelled_iff (row : LockRow) (token root : JsString) : row.Spelled ↔
    (rowDetails token row root).scope.text = row.scope ∧ (rowDetails token row root).depth.text = row.depth := by
  have hscope : js "exclusive" ≠ js "shared" := by decide
  have hdepth : js "0" ≠ js "infinity" := by decide
  refine and_congr ?_ ?_
  · unfold rowDetails
    dsimp only
    split
    · rename_i hshared
      simp [hshared, LockScope.text]
    · rename_i hshared
      simp [hshared, LockScope.text, eq_comm]
  · unfold rowDetails
    dsimp only
    split
    · rename_i hinfinity
      simp [hinfinity, LockDepth.text]
    · rename_i hinfinity
      simp [hinfinity, LockDepth.text, eq_comm]

/-- A row that is written anew is extended exactly if it is spelled and rooted as before. -/
theorem updateLock_extends {e : JsString × LockRow} {d : LockDetails} (hkeys : (v.locks.map Prod.fst).Nodup) (he : e ∈ v.locks)
    (htoken : d.token = e.1) (howner : d.owner = e.2.owner) (hscope : d.scope = (rowDetails e.1 e.2 e.2.root).scope)
    (hdepth : d.depth = (rowDetails e.1 e.2 e.2.root).depth) :
    (e.2.Spelled ∧ e.2.root = d.root → v.updateLock d = v.extended e.1 d.timeout d.expiresAt) ∧
      ∀ token timeout expiresAt, v.updateLock d = v.extended token timeout expiresAt → e.2.Spelled ∧ e.2.root = d.root := by
  constructor
  · rintro ⟨hspelled, hroot⟩
    obtain ⟨hs, hd⟩ := (spelled_iff e.2 e.1 e.2.root).mp hspelled
    have hsame : ∀ e' ∈ v.locks, e'.1 = e.1 → e' = e := fun e' he' heq =>
      List.inj_on_of_nodup_map hkeys he' he heq
    unfold Volume.updateLock Volume.extended
    congr 1
    apply List.map_congr_left
    intro e' he'
    rw [htoken]
    by_cases heq : e'.1 = e.1
    · obtain rfl := hsame e' he' heq
      rw [if_pos rfl, if_pos rfl, hscope, hdepth, hs, hd, howner, ← hroot]
    · rw [if_neg heq, if_neg heq]
  · intro token timeout expiresAt h
    have hrows : v.locks.map _ = v.locks.map _ := congrArg Volume.locks h
    have hrow := List.map_inj_left.mp hrows e he
    rw [if_pos htoken.symm] at hrow
    have hfields : d.scope.text = e.2.scope ∧ d.depth.text = e.2.depth ∧ d.root = e.2.root := by
      split at hrow
      · have hrow := congrArg Prod.snd hrow
        exact ⟨congrArg LockRow.scope hrow, congrArg LockRow.depth hrow, congrArg LockRow.root hrow⟩
      · have hrow := congrArg Prod.snd hrow
        exact ⟨congrArg LockRow.scope hrow, congrArg LockRow.depth hrow, congrArg LockRow.root hrow⟩
    refine ⟨(spelled_iff e.2 e.1 e.2.root).mpr ⟨?_, ?_⟩, hfields.2.2.symm⟩
    · rw [← hscope]
      exact hfields.1
    · rw [← hdepth]
      exact hfields.2.1

/-- What a rejected request leaves as it was is extended by none. -/
theorem onlyExtends_of_rejected {res : Except Failure Response} {s' : Session}
    (hrun : (env.handleLock uuid r path bases).run ⟨v, []⟩ = (res, s')) (hres : Rejected res) (hvol : s'.volume = v) :
    env.OnlyExtends uuid r path bases v := by
  refine .inl ⟨?_, ?_⟩
  · rw [hrun]
    exact hres
  · rw [Env.after, hrun]
    exact hvol

theorem foundLock_some {e : JsString × LockRow} (h : env.foundLock path v parsed = some e) :
    (env.sees v path parsed.looks).found = true ∧
      env.refreshableIn v path parsed.depthTokens (ancestorsOf path) = some e := by
  unfold Env.foundLock at h
  split at h
  · rename_i hseen
    exact ⟨hseen, h⟩
  · cases h

section Found

variable {e : JsString × LockRow}

theorem refresh_found (hvalid : isValidInnerPath path = true) (hkeys : (v.locks.map Prod.fst).Nodup) (hempty : r.text = [])
    (h : env.Clears r path v parsed) (hthere : (env.sees v path (parsed.looks + 1)).found = true)
    (hlock : env.foundLock path v parsed = some e) : env.OnlyExtends uuid r path bases v ↔
      env.TooDeep path v parsed e.2.path ∨ env.WritesSame path bases v parsed e := by
  obtain ⟨hbody, _, howner, htokens⟩ := parse_empty hempty h.1
  obtain ⟨hseen, hfind⟩ := foundLock_some hlock
  obtain ⟨he, htoken, hlive, habove, hreach⟩ := refreshableIn_some hfind
  have hcovers : e.2.Covers path := by
    rcases (mem_ancestorsOf hvalid).mp habove with heq | hb
    · exact .inl heq
    · exact hreach.imp id fun hdeep => ⟨hdeep, hb⟩
  obtain ⟨s, hs, _, hrun⟩ := @refresh_there _ uuid _ _ bases _ _ h hbody hthere
  rw [hlock, hseen] at hrun
  have hlooks : s.calls.count (.stat e.2.path) = Env.looksBefore path parsed e.2.path := by
    unfold Env.looksBefore
    split
    · rename_i heq
      rw [heq]
      exact hs.looks
    · rename_i hne
      exact hs.spared _ (by simpa using hne) (by simp [Op.IsCheck])
  have hfirst : (env.checkScopeConflict e.2.path parsed.requestedScope (some (rowDetails e.1 e.2 e.2.root))).run s =
      (.ok none, s) := rfl
  by_cases hdeep : env.TooDeep path v parsed e.2.path
  · refine iff_of_true ?_ (.inl hdeep)
    have hgrant := grant_deep uuid bases (Env.refreshPlan r path parsed true (some e)) hfirst hlooks hdeep.1 (by rw [hs.volume]; exact hdeep.2)
    exact onlyExtends_of_rejected (hrun.trans hgrant) (le_refl 400) hs.volume
  · simp only [hdeep, false_or]
    have hshallow : parsed.depthHeader = some .infinity →
        (env.sees s.volume e.2.path (Env.looksBefore path parsed e.2.path + 1)).isDirectory = true := by
      intro hdepth
      rw [hs.volume]
      by_contra hdir
      exact hdeep ⟨hdepth, Bool.eq_false_iff.mpr hdir⟩
    obtain ⟨s₂, hvol, hcalls, hgrant⟩ := grant_write uuid bases (Env.refreshPlan r path parsed true (some e)) hfirst hlooks
      hshallow
    have hcount : s₂.calls.count (.exec (.updateLock e.1)) = 0 := by
      rw [hcalls.count (by simp)]
      exact hs.spared _ (by simp) (by simp [Op.IsCheck])
    rw [hs.volume] at hvol hgrant
    generalize hd : env.details uuid bases (Env.refreshPlan r path parsed true (some e)) _ _ = d at hgrant
    have htoken' : d.token = e.1 := by
      rw [← hd]
      rfl
    have howner' : d.owner = e.2.owner := by
      rw [← hd]
      show parsed.owner.or e.2.owner = e.2.owner
      rw [howner]
      rfl
    have hroot : d.root = hrefOf env.platform bases.hrefBase e.2.path
        (env.sees v e.2.path (Env.looksBefore path parsed e.2.path + 1 + parsed.looks)).isDirectory := by
      rw [← hd]
      rfl
    obtain ⟨hsame, hdiffers⟩ := updateLock_extends hkeys he htoken' howner' (by rw [← hd]; rfl) (by rw [← hd]; rfl)
    unfold Env.WritesSame
    rw [← hroot, ← htoken']
    rw [← htoken'] at hcount
    rcases @updated_run env e.2.path _ uuid (rowDetails e.1 e.2 e.2.root) d hcount with
      ⟨hfails, s₃, hwrite, hvol₃⟩ | ⟨hworks, s₃, hwrite, hvol₃⟩
    · have hwritten := (hrun.trans hgrant).trans hwrite
      exact iff_of_true (onlyExtends_of_rejected hwritten (by decide : 400 ≤ 500) (hvol₃.trans hvol)) (.inl hfails)
    · have hwritten := (hrun.trans hgrant).trans hwrite
      have hafter : Env.after (env.handleLock uuid r path bases) v = v.updateLock d := by
        rw [Env.after, hwritten, ← hvol]
        exact hvol₃
      simp only [hworks, ne_eq, not_true_eq_false, false_or]
      constructor
      · rintro (⟨hrejected, _⟩ | ⟨e', _, _, _, _, timeout, expiresAt, hext⟩)
        · rw [hwritten] at hrejected
          exact absurd hrejected (by decide : ¬ 400 ≤ 200)
        · rw [hafter] at hext
          exact hdiffers _ _ _ hext
      · intro h
        exact .inr ⟨e, he, htokens ▸ htoken, hlive, hcovers, d.timeout, d.expiresAt, hafter.trans (hsame h)⟩

end Found

/-- A volume with one lock more, or with a file less, is none that was extended. -/
theorem onlyExtends_changed {res : Except Failure Response} {s' : Session}
    (hrun : (env.handleLock uuid r path bases).run ⟨v, []⟩ = (res, s'))
    (h : s'.volume.files ≠ v.files ∨ s'.volume.locks.length ≠ v.locks.length) : ¬ env.OnlyExtends uuid r path bases v := by
  have hafter : Env.after (env.handleLock uuid r path bases) v = s'.volume := by rw [Env.after, hrun]
  rintro (⟨_, hsame⟩ | ⟨e, _, _, _, _, timeout, expiresAt, hext⟩)
  · rw [hafter] at hsame
    rw [hsame] at h
    exact h.elim (fun hne => hne rfl) (fun hne => hne rfl)
  · rw [hafter] at hext
    rw [hext] at h
    exact h.elim (fun hne => hne rfl) (fun hne => hne (by simp [Volume.extended]))

theorem insertLock_length {token : JsString} (row : LockRow) (h : Store.get v.locks token = none) :
    (v.insertLock token row).locks.length = v.locks.length + 1 := by
  have hkeep : Store.remove v.locks token = v.locks := List.filter_eq_self.mpr fun e he => by
    have hne : e.1 ≠ token := fun heq => by
      have hkeys : token ∈ Store.keys v.locks := List.mem_dedup.mpr (List.mem_map.mpr ⟨e, he, heq⟩)
      rw [Store.mem_keys, h] at hkeys
      cases hkeys
    simp [hne]
  show ((token, row) :: Store.remove v.locks token).length = _
  rw [hkeep, List.length_cons]

theorem refresh_unfound (hempty : r.text = []) (h : env.Clears r path v parsed)
    (hthere : (env.sees v path (parsed.looks + 1)).found = true) (hlock : env.foundLock path v parsed = none) :
    env.OnlyExtends uuid r path bases v ↔ env.Blocks v path .exclusive 1 ∨
      (env.TooDeep path v parsed path → (env.sees v path parsed.looks).found = true ∨ env.Holds v path) ∧
        (¬ env.TooDeep path v parsed path → env.CannotInsert uuid v) := by
  obtain ⟨hbody, hscope, _, _⟩ := parse_empty hempty h.1
  obtain ⟨s, hs, hone, hrun⟩ := @refresh_there _ uuid _ _ bases _ _ h hbody hthere
  rw [hlock] at hrun
  have hown : Env.looksBefore path parsed path = parsed.looks + 2 := if_pos rfl
  have hunlink : s.calls.count (.unlink path) = 0 := hs.spared _ (by simp) (by simp [Op.IsCheck])
  have hrows (t : Table) : s.calls.count (.exec (.deleteRows t path)) = 0 := hs.spared _ (by simp) (by simp [Op.IsCheck])
  have hgrant := @grant_new env _ _ _ uuid bases (Env.refreshPlan r path parsed (env.sees v path parsed.looks).found none) rfl
    rfl rfl hs.looks (hs.spared _ (by simp) (by simp [Op.IsCheck]))
  have hblocked : env.Blocks s.volume path parsed.requestedScope (s.calls.count (.exec (.readLocks path))) ↔
      env.Blocks v path .exclusive 1 := by rw [hscope, hs.volume, hone]
  have hdeep : (parsed.depthHeader = some .infinity ∧ (env.sees s.volume path (parsed.looks + 2 + 1)).isDirectory = false) ↔
      env.TooDeep path v parsed path := by
    unfold Env.TooDeep
    rw [hown, hs.volume]
  rcases hgrant with ⟨hb, s', hrun', hvol⟩ | ⟨hb, hd, s', hvol, hcount, hrun'⟩ | ⟨hb, hd, hcannot, s', hrun', hvol⟩ |
    ⟨hb, hd, hcan, d, row, s', hrun', hvol⟩
  · exact iff_of_true (onlyExtends_of_rejected (hrun.trans hrun') (by decide : 400 ≤ 423) (hvol.trans hs.volume))
      (.inl (hblocked.mp hb))
  · have hfree := mt hblocked.mpr hb
    have htoo := hdeep.mp hd
    simp only [hfree, false_or, htoo, forall_const, not_true_eq_false, IsEmpty.forall_iff, and_true]
    have hvol' : s'.volume = v := hvol.trans hs.volume
    rw [← hcount _ (by simp) (by simp)] at hunlink
    have hended : (env.handleLock uuid r path bases).run ⟨v, []⟩ = (.ok .badRequest,
      if (env.sees v path parsed.looks).found then s' else ((env.undoCreation path).run s').2) := hrun.trans hrun'
    cases hseen : (env.sees v path parsed.looks).found with
    | true =>
      rw [hseen, if_pos rfl] at hended
      exact iff_of_true (onlyExtends_of_rejected hended (le_refl 400) hvol') (.inl rfl)
    | false =>
      rw [hseen, if_neg (by simp)] at hended
      simp only [Bool.false_eq_true, false_or]
      by_cases hholds : env.Holds v path
      · have hvol₃ : ((env.undoCreation path).run s').2.volume = v := (undo_held hunlink (hvol' ▸ hholds)).trans hvol'
        exact iff_of_true (onlyExtends_of_rejected hended (le_refl 400) hvol₃) hholds
      · refine iff_of_false (onlyExtends_changed hended (.inl fun hsame => ?_)) hholds
        rw [undo_removes hunlink (fun t => (hcount _ (by simp) (by simp)).trans (hrows t)) (hvol' ▸ hholds), cascaded_files,
          hvol'] at hsame
        exact removed_ne hholds hsame
  · have hfree := mt hblocked.mpr hb
    have hshallow := mt hdeep.mpr hd
    simp only [hfree, hshallow, false_or, IsEmpty.forall_iff, not_false_eq_true, forall_const, true_and]
    exact iff_of_true (onlyExtends_of_rejected (hrun.trans hrun') (by decide : 400 ≤ 500) (hvol.trans hs.volume))
      (hs.volume ▸ hcannot)
  · have hfree := mt hblocked.mpr hb
    have hshallow := mt hdeep.mpr hd
    simp only [hfree, hshallow, false_or, IsEmpty.forall_iff, not_false_eq_true, forall_const, true_and]
    rw [hs.volume] at hcan hvol
    refine iff_of_false (onlyExtends_changed (hrun.trans hrun') (.inr ?_)) hcan
    have hnone : Store.get v.locks uuid.val = none := by
      unfold Env.CannotInsert at hcan
      simpa using (not_or.mp hcan).2
    rw [hvol, insertLock_length row hnone]
    omega

/-- A LOCK without a body only extends a lock exactly if, once it is let in, it finds the lock and writes the row as it is, or
fails before a row is added. -/
theorem refresh_iff (env : Env) (uuid : Uuid) (r : Incoming) (path : JsString) (bases : DavBases) (v : Volume)
    (hvalid : isValidInnerPath path = true) (hkeys : (v.locks.map Prod.fst).Nodup) (hempty : r.text = []) :
    env.OnlyExtends uuid r path bases v ↔ ∀ parsed, env.Clears r path v parsed →
      (env.sees v path (parsed.looks + 1)).found = true → env.RefreshesFound uuid path bases v parsed := by
  by_cases hclears : ∃ parsed, env.Clears r path v parsed
  · obtain ⟨parsed, hclears⟩ := hclears
    rw [clears_iff hclears]
    cases hthere : (env.sees v path (parsed.looks + 1)).found with
    | false =>
      obtain ⟨s', hrun, hvol⟩ := @refresh_absent _ uuid _ _ bases _ _ hclears (parse_empty hempty hclears.1).1 hthere
      exact iff_of_true (onlyExtends_of_rejected hrun (le_refl 400) hvol) (by simp)
    | true =>
      simp only [forall_const]
      unfold Env.RefreshesFound
      cases hlock : env.foundLock path v parsed with
      | some e => exact refresh_found hvalid hkeys hempty hclears hthere hlock
      | none => exact refresh_unfound hempty hclears hthere hlock
  · obtain ⟨res, s', hrun, hres, hvol⟩ := @handleLock_stopped _ _ _ uuid _ bases (not_exists.mp hclears)
    exact iff_of_true (onlyExtends_of_rejected hrun hres hvol) fun parsed h => absurd ⟨parsed, h⟩ hclears

end Refreshing

/-! ### With a token and without -/

def tokenOf (uuid : Uuid) : JsString := js "<urn:uuid:" ++ uuid.val ++ js ">"

def refreshRequest : Incoming := { plainIncoming (js "http://h/o/v/f") with lockToken := some (tokenOf lockUuid) }

theorem own_lock_extended : calmEnv.OnlyExtends otherUuid refreshRequest (js "f") plainBases lockedFile := by
  apply (refresh_iff calmEnv otherUuid refreshRequest (js "f") plainBases lockedFile (by decide) (by decide) rfl).mpr
  intro parsed hclears _
  obtain rfl := Except.ok.inj hclears.1
  refine .inr (.inr ⟨⟨.inl ?_, .inl ?_⟩, ?_⟩) <;> decide

/-- A LOCK without a body and without a token takes a lock. -/
theorem bodiless_lock_taken : ¬ calmEnv.OnlyExtends otherUuid (plainIncoming (js "http://h/o/v/f")) (js "f") plainBases
    writtenVolume :=
  onlyExtends_changed rfl (.inr (by decide))

end DurableDav.Dav
