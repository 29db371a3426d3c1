import DurableDav.Dav.LockAnchors

namespace DurableDav.Dav

open Library
open Replication (Bytes isValidInnerPath parentOf)

/-! ### Locks that exclude each other -/

/-- There is something that both locks cover. -/
def LockRow.Meets (row other : LockRow) : Prop := ∃ q, row.Covers q ∧ other.Covers q

/-- No resource is covered by an exclusive lock in force and by another one. -/
def Volume.Compatible (v : Volume) (now : ℕ) : Prop :=
  ∀ e ∈ v.locks, ∀ f ∈ v.locks, now < e.2.expiresAt → now < f.2.expiresAt →
    e.1 ≠ f.1 → e.2.scope = js "exclusive" → ¬ e.2.Meets f.2

/-! ### LOCKs between their awaits -/

/-- A LOCK that has been checked, with the time and the volume that it was checked against. -/
structure PendingLock where
  env : Env
  admitted : Volume
  uuid : Uuid
  bases : DavBases
  plan : Env.LockPlan
  -- the file it has created has no row yet
  created : Bool

structure LockTraffic where
  volume : Volume
  now : ℕ
  pending : List PendingLock

namespace LockTraffic

/-- The checks, and the writing of the empty file where there is nothing. -/
def arrive (t : LockTraffic) (env : Env) (uuid : Uuid) (r : Incoming) (path : JsString) (bases : DavBases) : LockTraffic :=
  match (env.lockAdmit r path).run ⟨t.volume, []⟩ with
  | (.ok (.ok plan), s) => match (env.ensureLockableResource plan).run s with
    | (.ok .there, s') => ⟨s'.volume, env.now, t.pending ++ [⟨env, t.volume, uuid, bases, plan, false⟩]⟩
    | (.ok .created, s') => ⟨s'.volume, env.now, t.pending ++ [⟨env, t.volume, uuid, bases, plan, true⟩]⟩
    | (_, s') => ⟨s'.volume, env.now, t.pending⟩
  | (_, s) => ⟨s.volume, env.now, t.pending⟩

/-- The row of the file that was created, and then the lock. -/
def resume (t : LockTraffic) (env : Env) (i : ℕ) : LockTraffic := match t.pending[i]? with
  | none => t
  | some k =>
    if k.created then ⟨Env.after (env.recordLockNull k.plan.path) t.volume, env.now, t.pending.set i { k with created := false }⟩
    else ⟨Env.after (env.lockGrant k.uuid k.bases k.plan) t.volume, env.now, t.pending.eraseIdx i⟩

end LockTraffic

/-- What the requests other than LOCK do to a volume, one change at a time: they may be interleaved at any point. -/
def OtherChange (v v' : Volume) : Prop := ∃ (p : Platform) (x : Exchange) (e : Effect), (∀ uuid, x.verb ≠ .lock uuid) ∧
  x.Allows p e ∧ Change v e v'

/-- The states that there can be when every LOCK meets a condition where it resumes. -/
inductive Reaches (C : Volume → Env → PendingLock → Prop) : LockTraffic → Prop
  | start (now : ℕ) : Reaches C ⟨emptyVolume, now, []⟩
  | wait {t : LockTraffic} {now : ℕ} : Reaches C t → t.now ≤ now → Reaches C { t with now := now }
  | other {t : LockTraffic} {v : Volume} : Reaches C t → OtherChange t.volume v → Reaches C { t with volume := v }
  | arrive {t : LockTraffic} {env : Env} (uuid : Uuid) (r : Incoming) (path : JsString) (bases : DavBases) : Reaches C t →
      t.now ≤ env.now → isValidInnerPath path = true → Reaches C (t.arrive env uuid r path bases)
  | resume {t : LockTraffic} {env : Env} (i : ℕ) : Reaches C t → t.now ≤ env.now →
      (∀ k, t.pending[i]? = some k → C t.volume env k) → Reaches C (t.resume env i)

/-! ### When the checks are enough -/

namespace PendingLock

variable (k : PendingLock)

def tokens : List JsString := k.plan.request.toRequest.getRequestLockTokens k.env.platform

/-- The lock was in force when the LOCK was checked, and the request does not submit its token. -/
def Faced (e : JsString × LockRow) : Prop := ∃ row, (e.1, row) ∈ k.admitted.locks ∧ row.path = e.2.path ∧
  row.depth = e.2.depth ∧ row.scope = e.2.scope ∧ k.env.now < row.expiresAt ∧
    normalizeLockToken e.1 ∉ k.tokens.map normalizeLockToken

/-- The path is one of those that were looked at because of the Depth header. -/
def Scanned (q : JsString) : Prop := k.plan.parsed.depthHeader = some .infinity ∧
  (k.env.sees k.admitted k.plan.path 0).isDirectory = true ∧ k.env.fails (.listDir k.plan.path true) 0 = none ∧
    ∃ name ∈ (k.admitted.files.below k.plan.path).map (Files.relative k.plan.path), Env.childInner k.plan.path name = q

/-- Of two locks on one resource one is exclusive. -/
def Excludes (e : JsString × LockRow) : Prop := k.plan.parsed.requestedScope = .exclusive ∨ e.2.scope = js "exclusive"

/-- A new lock has been checked against every lock above and below that it would get in the way of. -/
structure ChecksNew (v : Volume) (env : Env) : Prop where
  above : ∀ e ∈ v.locks, env.now < e.2.expiresAt → k.Excludes e → e.2.depth = js "infinity" →
    Below slash e.2.path k.plan.path → k.Faced e
  own : ∀ e ∈ v.locks, env.now < e.2.expiresAt → k.Excludes e → e.2.path = k.plan.path →
    env.fails (.exec (.readLocks k.plan.path)) 0 = none
  below : ∀ e ∈ v.locks, env.now < e.2.expiresAt → k.Excludes e → Below slash k.plan.path e.2.path →
    Env.resolveDepth none (env.sees v k.plan.path 0).isDirectory k.plan.parsed.depthHeader = .infinity →
      k.Faced e ∧ k.Scanned e.2.path

/-- A lock that is refreshed is still in force, as it was found. -/
def ChecksOld (v : Volume) (now : ℕ) (d : LockDetails) : Prop := ∀ row, (d.token, row) ∈ v.locks →
  now < row.expiresAt ∧ row.scope = d.scope.text ∧ row.depth = d.depth.text

def Checks (v : Volume) (env : Env) : Prop := k.created = false → match k.plan.existing with
  | none => k.ChecksNew v env
  | some d => ChecksOld v env.now d

end PendingLock

section Admitted

variable {env : Env} {v : Volume} {path q : JsString} {tokens : List JsString} {s s' : Session}

/-- What a statement answers is answered by its body. -/
theorem exec_answers {α : Type} {st : Statement} {body : Serve α} {a : α} (h : (env.exec st body).run s = (.ok a, s')) :
    env.fails (.exec st) (s.calls.count (.exec st)) = none ∧ body.run (s.record (.exec st)) = (.ok a, s') := by
  rw [Env.exec, run_call] at h
  cases hf : env.fails (.exec st) (s.calls.count (.exec st)) with
  | some failure =>
    rw [hf] at h
    simp at h
  | none =>
    rw [hf] at h
    exact ⟨rfl, h⟩

theorem own_mem_ancestors (path : JsString) : path ∈ ancestorsOf path := by
  unfold ancestorsOf
  unfold ancestorsFrom
  split <;> simp

theorem sharing_passed {r : Request} {shared : Bool}
    (h : (env.assertLockSharing r path shared).run s = (.ok none, s')) :
    s' = s.record (.exec (.selectLocks path)) ∧
      s.volume.blockingLock env.now (r.getRequestLockTokens env.platform) path shared = [] := by
  unfold Env.assertLockSharing at h
  split at h
  · simp at h
  · obtain ⟨_, h⟩ := exec_answers h
    rw [Act.run_bind, Act.run_read] at h
    dsimp only at h
    split at h
    · rename_i hnone
      exact ⟨(Act.of_run_pure h).2.symm, hnone⟩
    · simp at h

theorem anyConflicting_passed {scope : LockScope} {names : List JsString}
    (h : (env.anyConflicting path tokens scope names).run s = (.ok false, s')) :
    ∀ name ∈ names, (s.volume.activeTokens env.now tokens (Env.childInner path name)).all
      (fun e => scope = .shared ∧ e.2.scope ≠ js "exclusive") = true := by
  induction names generalizing s with
  | nil => simp
  | cons name rest ih =>
    obtain ⟨active, s₁, hactive, h⟩ := Act.of_run_bind h
    obtain ⟨_, hactive⟩ := exec_answers hactive
    rw [Act.run_bind, Act.run_read] at hactive
    obtain ⟨rfl, rfl⟩ := Act.of_run_pure hactive
    split at h
    · rename_i hall
      intro other hother
      rcases List.mem_cons.mp hother with rfl | hrest
      · exact hall
      · exact ih h other hrest
    · simp at h

/-- A path that is locked infinitely deep has been looked through. -/
theorem descendants_passed {r : Request} {depth : Option LockDepth} {scope : LockScope}
    (hstat : s.calls.count (.stat path) = 0) (hlist : s.calls.count (.listDir path true) = 0)
    (h : (env.checkDescendantConflicts r path depth scope).run s = (.ok none, s')) (hdepth : depth = some .infinity)
    (hdir : (env.sees s.volume path 0).isDirectory = true) (hlists : env.fails (.listDir path true) 0 = none) :
    ∀ name ∈ (s.volume.files.below path).map (Files.relative path),
      (s.volume.activeTokens env.now (r.getRequestLockTokens env.platform) (Env.childInner path name)).all
        (fun e => scope = .shared ∧ e.2.scope ≠ js "exclusive") = true := by
  unfold Env.checkDescendantConflicts at h
  rw [if_neg (by simp [hdepth])] at h
  rw [Act.run_bind_ok (statInner_run env path s), hstat, if_neg (by simp [hdir])] at h
  have hcount : (s.record (.stat path)).calls.count (.listDir path true) = 0 := by simp [Session.record, hlist]
  have hfound : s.volume.files.found path = true := found_of_isDirectory (sees_isDirectory hdir)
  have hnames : (env.requireRecursive path).attempt.run (s.record (.stat path)) =
      (.ok (.ok ((s.volume.files.below path).map (Files.relative path))), (s.record (.stat path)).record (.listDir path true)) := by
    rw [Act.run_attempt, requireRecursive_run, hcount, hlists]
    simp [Session.record, hfound]
  rw [Act.run_bind_ok hnames] at h
  dsimp only at h
  obtain ⟨locked, s₁, hlocked, h⟩ := Act.of_run_bind h
  cases locked with
  | true => simp at h
  | false =>
    have hpassed := anyConflicting_passed hlocked
    exact hpassed

theorem refreshTarget_request {r : Incoming} {parsed : LockRequest} {wasPresent : Bool} {plan : Env.LockPlan}
    (h : (env.refreshTarget r path parsed wasPresent).run s = (.ok plan, s')) : plan.request = r ∧ plan.parsed = parsed := by
  unfold Env.refreshTarget at h
  split at h
  · obtain ⟨rfl, _⟩ := Act.of_run_pure h
    exact ⟨rfl, rfl⟩
  · obtain ⟨found, s₁, _, h⟩ := Act.of_run_bind h
    split at h
    · obtain ⟨rfl, _⟩ := Act.of_run_pure h
      split <;> exact ⟨rfl, rfl⟩
    · obtain ⟨rfl, _⟩ := Act.of_run_pure h
      exact ⟨rfl, rfl⟩

end Admitted

/-! ### What has been checked -/

/-- What is known of a LOCK that has been let in. -/
structure PendingLock.Passed (k : PendingLock) : Prop where
  targets : k.plan.Targets k.plan.path
  valid : isValidInnerPath k.plan.path = true
  uuids : k.admitted.HoldsUuids
  guarded : ∃ shared, k.admitted.blockingLock k.env.now k.tokens k.plan.path shared = []
  scanned : k.plan.parsed.depthHeader = some .infinity → (k.env.sees k.admitted k.plan.path 0).isDirectory = true →
    k.env.fails (.listDir k.plan.path true) 0 = none →
      ∀ name ∈ (k.admitted.files.below k.plan.path).map (Files.relative k.plan.path),
        (k.admitted.activeTokens k.env.now k.tokens (Env.childInner k.plan.path name)).all
          (fun e => k.plan.parsed.requestedScope = .shared ∧ e.2.scope ≠ js "exclusive") = true

section Checked

variable {env : Env} {v : Volume} {path : JsString} {k : PendingLock} {e : JsString × LockRow}

theorem lockAdmit_passed {r : Incoming} {plan : Env.LockPlan} {s : Session} {uuid : Uuid} {bases : DavBases} {created : Bool}
    (hv : v.HoldsUuids) (hpath : isValidInnerPath path = true)
    (h : (env.lockAdmit r path).run ⟨v, []⟩ = (.ok (.ok plan), s)) :
    PendingLock.Passed ⟨env, v, uuid, bases, plan, created⟩ := by
  have htargets := lockAdmit_plan h
  unfold Env.lockAdmit at h
  split at h
  · simp at h
  · rename_i parsed hparse
    obtain ⟨locked, s₁, hlocked, h⟩ := Act.of_run_bind h
    cases locked with
    | some response => simp at h
    | none =>
      obtain ⟨rfl, hguarded⟩ := sharing_passed hlocked
      obtain ⟨conflict, s₂, hconflict, h⟩ := Act.of_run_bind h
      cases conflict with
      | some response => simp at h
      | none =>
        obtain ⟨st, s₃, _, h⟩ := Act.of_run_bind h
        obtain ⟨plan', s₄, hplan, h⟩ := Act.of_run_bind h
        obtain rfl := Except.ok.inj (Act.of_run_pure h).1
        obtain ⟨hrequest, hparsed⟩ := refreshTarget_request hplan
        obtain ⟨hsame, hactive⟩ := htargets
        subst hsame
        refine ⟨⟨rfl, hactive⟩, hpath, hv,
          ⟨decide (parsed.body ≠ [] ∧ parsed.requestedScope = .shared), ?_⟩, fun hdepth hdir hlists => ?_⟩
        · show v.blockingLock env.now (plan'.request.toRequest.getRequestLockTokens env.platform) plan'.path _ = []
          rw [hrequest]
          exact hguarded
        · have hpassed := descendants_passed (by simp [Session.record]) (by simp [Session.record]) hconflict
            (by rw [← hparsed]; exact hdepth) hdir hlists
          have htokens : (⟨env, v, uuid, bases, plan', created⟩ : PendingLock).tokens =
              r.toRequest.getRequestLockTokens env.platform := by rw [PendingLock.tokens, hrequest]
          rw [htokens]
          show ∀ name ∈ _, List.all _ (fun e => decide (plan'.parsed.requestedScope = _ ∧ _)) = true
          rw [hparsed]
          exact hpassed

/-- A lock above that has been faced would have kept the LOCK off. -/
theorem PendingLock.Passed.above (h : k.Passed) (hdepth : e.2.depth = js "infinity")
    (hb : Below slash e.2.path k.plan.path) : ¬ k.Faced e := by
  rintro ⟨row, hmem, hpath, hdeep, _, hlive, htoken⟩
  obtain ⟨shared, hguarded⟩ := h.guarded
  have hcovers : row.Covers k.plan.path := .inr ⟨hdeep.trans hdepth, hpath ▸ hb⟩
  have hblocks : (e.1, row) ∈ k.admitted.blocking k.env.now k.tokens k.plan.path :=
    (mem_blocking h.valid).mpr ⟨hmem, hlive, hcovers, htoken⟩
  have hin : (e.1, row) ∈ k.admitted.blockingLock k.env.now k.tokens k.plan.path shared := by
    refine List.mem_filter.mpr ⟨hblocks, ?_⟩
    have hne : row.path ≠ k.plan.path := hpath ▸ hb.ne
    simp [hne]
  rw [hguarded] at hin
  simp at hin

/-- So would one below that has been faced and looked at. -/
theorem PendingLock.Passed.below (h : k.Passed) (hexcludes : k.Excludes e) (hscanned : k.Scanned e.2.path) :
    ¬ k.Faced e := by
  rintro ⟨row, hmem, hpath, _, hscope, hlive, htoken⟩
  obtain ⟨hdepth, hdir, hlists, name, hname, hchild⟩ := hscanned
  have hall := h.scanned hdepth hdir hlists name hname
  rw [hchild] at hall
  have hactive : (e.1, row) ∈ k.admitted.activeTokens k.env.now k.tokens e.2.path := by
    refine List.mem_filter.mpr ⟨List.mem_filter.mpr ⟨hmem, ?_⟩, ?_⟩
    · simp [hpath, hlive, own_mem_ancestors]
    · simp [hpath, htoken, (uuid_units (h.uuids _ hmem)).1]
  have hagrees := List.all_eq_true.mp hall _ hactive
  simp only [Bool.decide_and, Bool.and_eq_true, decide_eq_true_eq] at hagrees
  rcases hexcludes with hexclusive | hexclusive
  · rw [hexclusive] at hagrees
    simp at hagrees
  · exact hagrees.2 (hscope.trans hexclusive)

/-- Two locks that meet sit on one path, or one is infinitely deep and above the other. -/
theorem meets_cases {row other : LockRow} (h : row.Meets other) : row.path = other.path ∨
    row.depth = js "infinity" ∧ Below slash row.path other.path ∨ other.depth = js "infinity" ∧ Below slash other.path row.path := by
  obtain ⟨q, hrow, hother⟩ := h
  rcases hrow with rfl | ⟨hdeep, hb⟩
  · rcases hother with heq | ⟨hdeep, hb⟩
    · exact .inl heq.symm
    · exact .inr (.inr ⟨hdeep, hb⟩)
  · rcases hother with rfl | ⟨hdeep', hb'⟩
    · exact .inr (.inl ⟨hdeep, hb⟩)
    · rcases hb.comparable hb' with heq | habove | habove
      · exact .inl heq
      · exact .inr (.inl ⟨hdeep, habove⟩)
      · exact .inr (.inr ⟨hdeep', habove⟩)

end Checked

/-! ### What a LOCK writes -/

section Granting

variable {env : Env} {v v' : Volume} {now now' : ℕ} {k : PendingLock}

theorem Volume.Compatible.less (h : v.Compatible now) (hsub : ∀ e ∈ v'.locks, e ∈ v.locks) (hnow : now ≤ now') :
    v'.Compatible now' :=
  fun e he f hf hlive hlive' => h e (hsub e he) f (hsub f hf) (by omega) (by omega)

theorem meets_symm {row other : LockRow} (h : row.Meets other) : other.Meets row := by
  obtain ⟨q, hrow, hother⟩ := h
  exact ⟨q, hother, hrow⟩

/-- A lock that meets none that it excludes may be added. -/
theorem inserted_compatible {token : JsString} {row : LockRow} (h : v.Compatible now)
    (hrow : ∀ e ∈ v.locks, now < e.2.expiresAt → row.scope = js "exclusive" ∨ e.2.scope = js "exclusive" →
      ¬ row.Meets e.2) : (v.insertLock token row).Compatible now := by
  intro e he f hf hlive hlive' hne hexclusive
  rcases List.mem_cons.mp he with rfl | he
  · rcases List.mem_cons.mp hf with rfl | hf
    · exact absurd rfl hne
    · exact hrow f (List.mem_of_mem_filter hf) hlive' (.inl hexclusive)
  · rcases List.mem_cons.mp hf with rfl | hf
    · exact fun hmeets => hrow e (List.mem_of_mem_filter he) hlive (.inr hexclusive) (meets_symm hmeets)
    · exact h e (List.mem_of_mem_filter he) f (List.mem_of_mem_filter hf) hlive hlive' hne hexclusive

/-- A lock that is refreshed covers what it has covered, and was in force. -/
theorem refreshed_compatible {d : LockDetails} (h : v.Compatible now) (hold : PendingLock.ChecksOld v now d) :
    (v.updateLock d).Compatible now := by
  have hfrom : ∀ e ∈ (v.updateLock d).locks, now < e.2.expiresAt → ∃ row, (e.1, row) ∈ v.locks ∧ now < row.expiresAt ∧
      row.scope = e.2.scope ∧ row.depth = e.2.depth ∧ row.path = e.2.path := by
    intro e he hlive
    obtain ⟨⟨token, row⟩, hmem, rfl⟩ := List.mem_map.mp he
    by_cases htoken : token = d.token
    · subst htoken
      simp only [↓reduceIte] at hlive ⊢
      obtain ⟨hlive, hscope, hdepth⟩ := hold row hmem
      exact ⟨row, hmem, hlive, hscope, hdepth, rfl⟩
    · simp only [htoken, ↓reduceIte] at hlive ⊢
      exact ⟨row, hmem, hlive, rfl, rfl, rfl⟩
  intro e he f hf hlive hlive' hne hexclusive
  obtain ⟨row, hmem, hl, hscope, hdepth, hpath⟩ := hfrom e he hlive
  obtain ⟨row', hmem', hl', hscope', hdepth', hpath'⟩ := hfrom f hf hlive'
  rintro ⟨q, hcovers, hcovers'⟩
  refine h _ hmem _ hmem' hl hl' hne (hscope.trans hexclusive) ⟨q, ?_, ?_⟩
  · unfold LockRow.Covers at hcovers ⊢
    rwa [hpath, hdepth]
  · unfold LockRow.Covers at hcovers' ⊢
    rwa [hpath', hdepth']

/-- Where a LOCK has been checked against all that it would get in the way of, there is none. -/
theorem PendingLock.Passed.excludes_none (h : k.Passed) (hcheck : k.ChecksNew v env) {row : LockRow}
    (hpath : row.path = k.plan.path) (hscope : row.scope = k.plan.parsed.requestedScope.text)
    (hdepth : row.depth = (Env.resolveDepth none (env.sees v k.plan.path 0).isDirectory k.plan.parsed.depthHeader).text)
    (hown : ∀ e ∈ v.locks, env.now < e.2.expiresAt → k.Excludes e → e.2.path = k.plan.path →
      env.fails (.exec (.readLocks k.plan.path)) 0 ≠ none) {e : JsString × LockRow} (he : e ∈ v.locks)
    (hlive : env.now < e.2.expiresAt) (hexclusive : row.scope = js "exclusive" ∨ e.2.scope = js "exclusive") :
    ¬ row.Meets e.2 := by
  have hexcludes : k.Excludes e := by
    refine hexclusive.imp (fun hrow => ?_) id
    rw [hscope] at hrow
    cases hs : k.plan.parsed.requestedScope with
    | exclusive => rfl
    | shared =>
      rw [hs] at hrow
      exact absurd hrow (by decide)
  intro hmeets
  rcases meets_cases hmeets with hsame | ⟨hdeep, hb⟩ | ⟨hdeep, hb⟩
  · have hat : e.2.path = k.plan.path := hsame.symm.trans hpath
    exact hown e he hlive hexcludes hat (hcheck.own e he hlive hexcludes hat)
  · have hinfinite : Env.resolveDepth none (env.sees v k.plan.path 0).isDirectory k.plan.parsed.depthHeader = .infinity := by
      rw [hdepth] at hdeep
      generalize Env.resolveDepth none _ _ = depth at hdeep ⊢
      cases depth with
      | infinity => rfl
      | zero => exact absurd hdeep (by decide)
    rw [hpath] at hb
    obtain ⟨hfaced, hscanned⟩ := hcheck.below e he hlive hexcludes hb hinfinite
    exact h.below hexcludes hscanned hfaced
  · rw [hpath] at hb
    exact h.above hdeep hb (hcheck.above e he hlive hexcludes hdeep hb)

/-- Where the locks on a path can be read, none of them is excluded. -/
theorem scope_passed {path : JsString} {scope : LockScope} {s s' : Session}
    (h : (env.checkScopeConflict path scope none).run s = (.ok none, s')) :
    s' = s.record (.exec (.readLocks path)) ∧
      ∀ e ∈ s.volume.locks, env.now < e.2.expiresAt → scope = .exclusive ∨ e.2.scope = js "exclusive" → e.2.path = path →
        env.fails (.exec (.readLocks path)) (s.calls.count (.exec (.readLocks path))) ≠ none := by
  unfold Env.checkScopeConflict at h
  obtain ⟨locks, hread, hshows⟩ := readLocks_run env path s
  rw [if_neg (by simp), Act.run_bind_ok hread] at h
  split at h
  · simp at h
  · rename_i hfree
    refine ⟨(Act.of_run_pure h).2.symm, fun e he hlive hexclusive hpath hreads => hfree ?_⟩
    have hshown : rowDetails e.1 e.2 e.2.root ∈
        (s.volume.locksAt env.now path).filterMap (fun e => lockDetailsFromRow env.now e.1 e.2 e.2.root) :=
      List.mem_filterMap.mpr ⟨e, List.mem_filter.mpr ⟨he, by simp [hpath, hlive]⟩, lockDetails_live hlive⟩
    rw [← hshows hreads] at hshown
    cases scope with
    | exclusive => exact .inl ⟨rfl, List.ne_nil_of_mem hshown⟩
    | shared =>
      have hrow : e.2.scope = js "exclusive" := hexclusive.resolve_left (by simp)
      refine .inr ⟨rfl, List.any_eq_true.mpr ⟨_, hshown, ?_⟩⟩
      have hne : js "exclusive" ≠ js "shared" := by decide
      simp [rowDetails, hrow, hne]

theorem writeLock_compatible {uuid : Uuid} {existing : Option LockDetails} {path : JsString} {d : LockDetails}
    (hv : v.Compatible now) (hnew : existing = none → ∀ row : LockRow, row.path = path → row.scope = d.scope.text →
      row.depth = d.depth.text → (v.insertLock uuid.val row).Compatible now)
    (hold : existing.isSome = true → PendingLock.ChecksOld v now d) :
    Act.Meets (fun s => s.volume = v) (env.writeLock uuid existing path d) (fun _ s => s.volume.Compatible now)
      (fun s => s.volume.Compatible now) := by
  rintro s rfl
  unfold Env.writeLock
  cases existing with
  | some old =>
    dsimp only
    rw [Env.exec, run_call]
    cases env.fails (.exec (.updateLock d.token)) (s.calls.count (.exec (.updateLock d.token))) with
    | some failure => exact hv
    | none => exact refreshed_compatible hv (hold rfl)
  | none =>
    dsimp only
    rw [Env.exec, run_call]
    cases env.fails (.exec (.insertLock uuid.val)) (s.calls.count (.exec (.insertLock uuid.val))) with
    | some failure => exact hv
    | none =>
      dsimp only
      rw [Act.run_bind, Act.run_read]
      dsimp only
      split
      · exact hv
      · exact hnew rfl _ rfl rfl rfl

theorem checkScopeConflict_run (env : Env) (path : JsString) (scope : LockScope) (existing : Option LockDetails) (s : Session) :
    ∃ conflict s', (env.checkScopeConflict path scope existing).run s = (.ok conflict, s') ∧ s'.volume = s.volume ∧
      ∀ q, s'.calls.count (.stat q) = s.calls.count (.stat q) := by
  unfold Env.checkScopeConflict
  split
  · exact ⟨_, s, rfl, rfl, fun _ => rfl⟩
  · obtain ⟨locks, hread, _⟩ := readLocks_run env path s
    rw [Act.run_bind_ok hread]
    split <;> exact ⟨_, _, rfl, rfl, fun q => List.count_cons_of_ne (by simp)⟩

/-- What a LOCK leaves where it resumes. -/
theorem lockGrant_compatible {uuid : Uuid} {bases : DavBases} (h : k.Passed) (hv : v.Compatible env.now)
    (hcheck : k.Checks v env) (hmade : k.created = false) :
    (Env.after (env.lockGrant uuid bases k.plan) v).Compatible env.now := by
  have hcheck := hcheck hmade
  have hquiet : ∀ {α : Type} {P : Volume → Prop} {x : Serve α}, Makes (fun _ => False) x → (∀ v, P v → v.Compatible env.now) →
      Act.Meets (fun s => P s.volume) x (fun _ s => P s.volume) (fun s => s.volume.Compatible env.now) := fun hx hP =>
    (quiet_meets hx).weaken (fun _ h => h) (fun _ _ h => h) (fun s h => hP s.volume h)
  have hundone : Act.Meets (fun s => s.volume = v) (do
      if k.plan.wasPresent then pure ()
      else env.undoCreation k.plan.path
      pure Response.badRequest) (fun _ s => s.volume.Compatible env.now) (fun s => s.volume.Compatible env.now) := by
    have hmakes : Makes (Effect.Destroys k.plan.path) (do
        if k.plan.wasPresent then pure ()
        else env.undoCreation k.plan.path
        pure Response.badRequest) := by
      split
      · exact Act.within_bind (Act.within_pure _) fun _ => Act.within_pure _
      · exact Act.within_bind (makes_undoCreation rfl fun _ => rfl) fun _ => Act.within_pure _
    refine Act.Within.meets hmakes fun s s' hs hlead => ?_
    subst hs
    exact hv.less (leads_frees (fun _ => destroys_frees) hlead) le_rfl
  have hmeets : Act.Meets (fun s => s = ⟨v, []⟩) (env.lockGrant uuid bases k.plan)
      (fun _ s => s.volume.Compatible env.now) (fun s => s.volume.Compatible env.now) := by
    refine Act.meets_bind (R := fun conflict s => s.volume = v ∧ s.calls.count (.stat k.plan.path) = 0 ∧
      (conflict = none → k.plan.existing = none → ∀ e ∈ v.locks, env.now < e.2.expiresAt → k.Excludes e →
        e.2.path = k.plan.path → env.fails (.exec (.readLocks k.plan.path)) 0 ≠ none)) ?_ fun conflict => ?_
    · rintro s rfl
      obtain ⟨conflict, s', hrun, hvol, hcount⟩ := checkScopeConflict_run env k.plan.activePath
        k.plan.parsed.requestedScope k.plan.existing ⟨v, []⟩
      rw [hrun]
      refine ⟨hvol, by simpa using hcount k.plan.path, fun hnone hnew => ?_⟩
      subst hnone
      rw [hnew, h.targets.2 hnew] at hrun
      exact (scope_passed hrun).2
    · cases conflict with
      | some response =>
        refine Act.meets_pure fun s hs => ?_
        rw [hs.1]
        exact hv
      | none =>
        refine Act.meets_bind (R := fun st s => s.volume = v ∧ (k.plan.existing = none →
          st = env.sees v k.plan.path 0 ∧ ∀ e ∈ v.locks, env.now < e.2.expiresAt → k.Excludes e →
            e.2.path = k.plan.path → env.fails (.exec (.readLocks k.plan.path)) 0 ≠ none)) ?_ fun st => ?_
        · rintro s ⟨rfl, hcount, hown⟩
          rw [statInner_run]
          refine ⟨rfl, fun hnew => ⟨?_, hown rfl hnew⟩⟩
          rw [h.targets.2 hnew, hcount]
        · have hkeep : ∀ v', v' = v ∧ (k.plan.existing = none → st = env.sees v k.plan.path 0 ∧ ∀ e ∈ v.locks,
              env.now < e.2.expiresAt → k.Excludes e → e.2.path = k.plan.path →
                env.fails (.exec (.readLocks k.plan.path)) 0 ≠ none) → v'.Compatible env.now :=
            fun v' hs => hs.1 ▸ hv
          refine Act.meets_bind (hquiet makes_rejectsInfinityDepth hkeep) fun rejected => ?_
          split
          · exact hundone.weaken (fun _ hs => hs.1) (fun _ _ hs => hs) (fun _ hs => hs)
          · refine Act.meets_bind (hquiet makes_statInner hkeep) fun rootStat => ?_
            refine Act.meets_bind (R := fun _ s => s.volume.Compatible env.now) ?_ fun written => ?_
            · rintro s ⟨hvol, hnew⟩
              refine (Act.meets_attempt (writeLock_compatible (v := v) hv (fun hnone row hpath hscope hdepth => ?_)
                (fun hsome => ?_))).weaken (fun _ hs => hs)
                  (fun written s hs => by cases written <;> exact hs) (fun _ hs => hs.elim) s hvol
              · obtain ⟨rfl, hown⟩ := hnew hnone
                rw [hnone] at hcheck hscope hdepth
                exact inserted_compatible hv fun e he hlive hexclusive =>
                  h.excludes_none hcheck (hpath.trans (h.targets.2 hnone)) hscope hdepth hown he hlive hexclusive
              · obtain ⟨old, hold⟩ := Option.isSome_iff_exists.mp hsome
                rw [hold] at hcheck ⊢
                exact hcheck
            · split <;> exact Act.meets_pure fun _ hs => hs
  exact hmeets.after rfl

end Granting

/-! ### Runs -/

section Runs

variable {t : LockTraffic} {env : Env} {v : Volume} {k : PendingLock}

/-- What holds of the states of a run that is checked. -/
structure LockTraffic.Exclusive (t : LockTraffic) : Prop where
  compatible : t.volume.Compatible t.now
  uuids : t.volume.HoldsUuids
  passed : ∀ k ∈ t.pending, k.Passed

theorem allows_frees {p : Platform} {x : Exchange} {e : Effect} (hx : ∀ uuid, x.verb ≠ .lock uuid) (h : x.Allows p e) :
    e.Frees := by
  have hcreates : ∀ {path : JsString}, e.Creates path → e.Frees := fun h => by cases e <;> trivial
  have hedits : ∀ {key : PropKey}, e.EditsKey key → e.Frees := fun h => by cases e <;> trivial
  have hcarries : ∀ {source target : JsString}, e.Carries source target → e.Frees := fun h => by cases e <;> trivial
  rcases x with ⟨verb, request, path, bases⟩
  cases verb with
  | put | mkcol => exact hcreates h
  | delete => exact destroys_frees h
  | proppatch =>
    obtain ⟨_, _, _, _, h⟩ := h
    exact hedits h
  | copy =>
    obtain ⟨target, _, h | h | ⟨_, _, h⟩ | ⟨_, _, h | ⟨_, _, h⟩⟩⟩ := h
    · exact destroys_frees h
    · exact hcreates h
    · exact hedits h
    · exact hcreates h
    · exact hedits h
  | move =>
    obtain ⟨target, _, h | h⟩ := h
    · exact destroys_frees h
    · exact hcarries h
  | lock uuid => exact absurd rfl (hx uuid)
  | unlock =>
    rcases h with h | ⟨token, rfl⟩
    · exact destroys_frees h
    · trivial

/-- Whoever only takes locks away keeps the others apart. -/
theorem makes_exclusive {L : Effect → Prop} (hL : ∀ e, L e → e.Frees) {s s' : Session} (hlead : Leads L s s')
    {now now' : ℕ} (hv : s.volume.Compatible now) (huuids : s.volume.HoldsUuids) (hnow : now ≤ now') :
    s'.volume.Compatible now' ∧ s'.volume.HoldsUuids :=
  ⟨hv.less (leads_frees hL hlead) hnow,
    leads_keeps (I := Volume.HoldsUuids) (fun _ _ _ _ => change_uuids) hlead huuids⟩

theorem exclusive_arrive {r : Incoming} {path : JsString} {bases : DavBases} {uuid : Uuid} (h : t.Exclusive)
    (hnow : t.now ≤ env.now) (hpath : isValidInnerPath path = true) : (t.arrive env uuid r path bases).Exclusive := by
  have hlet : ∀ {answer s}, (env.lockAdmit r path).run ⟨t.volume, []⟩ = (answer, s) →
      s.volume.Compatible env.now ∧ s.volume.HoldsUuids := fun hrun =>
    makes_exclusive (fun _ => False.elim) (Act.Within.of_run makes_lockAdmit hrun) h.compatible h.uuids hnow
  unfold LockTraffic.arrive
  split
  · rename_i plan s hrun
    have hwrites : ∀ {answer s'}, (env.ensureLockableResource plan).run s = (answer, s') →
        s'.volume.Compatible env.now ∧ s'.volume.HoldsUuids := fun hensure =>
      makes_exclusive (L := Effect.Frees) (fun _ => id)
        (Act.Within.of_run (makes_ensureLockableResource trivial) hensure) (hlet hrun).1 (hlet hrun).2 le_rfl
    have hmore : ∀ created, ∀ k ∈ t.pending ++ [⟨env, t.volume, uuid, bases, plan, created⟩], k.Passed := by
      intro created k hk
      rcases List.mem_append.mp hk with hk | hk
      · exact h.passed k hk
      · rw [List.mem_singleton.mp hk]
        exact lockAdmit_passed h.uuids hpath hrun
    split
    · rename_i hensure
      exact ⟨(hwrites hensure).1, (hwrites hensure).2, hmore false⟩
    · rename_i hensure
      exact ⟨(hwrites hensure).1, (hwrites hensure).2, hmore true⟩
    · rename_i hensure
      exact ⟨(hwrites hensure).1, (hwrites hensure).2, h.passed⟩
  · rename_i hrun
    exact ⟨(hlet hrun).1, (hlet hrun).2, h.passed⟩

theorem exclusive_resume {i : ℕ} (h : t.Exclusive) (hnow : t.now ≤ env.now)
    (hcheck : ∀ k, t.pending[i]? = some k → k.Checks t.volume env) : (t.resume env i).Exclusive := by
  unfold LockTraffic.resume
  cases hk : t.pending[i]? with
  | none => exact h
  | some k =>
    have hpassed := h.passed k (List.mem_of_getElem? hk)
    have hcompatible : t.volume.Compatible env.now := h.compatible.less (fun _ h => h) hnow
    dsimp only
    split
    · have hmakes : Makes Effect.Frees (env.recordLockNull k.plan.path) := makes_recordLockNull fun _ _ => trivial
      obtain ⟨hcompat, huuids⟩ := makes_exclusive (fun _ => id) (hmakes ⟨t.volume, []⟩) hcompatible h.uuids le_rfl
      refine ⟨hcompat, huuids, fun other hother => ?_⟩
      rcases List.mem_or_eq_of_mem_set hother with hother | rfl
      · exact h.passed other hother
      · exact ⟨hpassed.targets, hpassed.valid, hpassed.uuids, hpassed.guarded, hpassed.scanned⟩
    · rename_i hmade
      refine ⟨lockGrant_compatible hpassed hcompatible (hcheck k hk) (Bool.eq_false_iff.mpr hmade), ?_, fun other hother =>
        h.passed other (List.mem_of_mem_eraseIdx hother)⟩
      exact makes_keeps (I := Volume.HoldsUuids) (fun _ _ _ _ => change_uuids)
        (makes_lockGrant (L := fun _ => True) hpassed.targets (fun _ _ => trivial) (fun _ _ => trivial)) h.uuids

theorem reaches_exclusive (h : Reaches (fun v env k => k.Checks v env) t) : t.Exclusive := by
  induction h with
  | start now => exact ⟨by simp [Volume.Compatible, emptyVolume], by simp [Volume.HoldsUuids, emptyVolume], by simp⟩
  | wait _ hnow ih => exact ⟨ih.compatible.less (fun _ h => h) hnow, ih.uuids, ih.passed⟩
  | other _ hother ih =>
    obtain ⟨p, x, e, hx, hallows, hc⟩ := hother
    exact ⟨ih.compatible.less (change_frees hc (allows_frees hx hallows)) le_rfl, change_uuids hc ih.uuids, ih.passed⟩
  | arrive uuid r path bases _ hnow hpath ih => exact exclusive_arrive ih hnow hpath
  | resume i _ hnow hcheck ih => exact exclusive_resume ih hnow hcheck

/-- A request other than LOCK is a number of such changes. -/
theorem reaches_serve {C : Volume → Env → PendingLock → Prop} {x : Exchange} (hx : ∀ uuid, x.verb ≠ .lock uuid)
    (h : Reaches C t) : Reaches C { t with volume := Env.after (env.serve x) t.volume } :=
  makes_keeps (I := fun v => Reaches C { t with volume := v })
    (fun e v _ he hc ht => .other (t := { t with volume := v }) ht ⟨env.platform, x, e, hx, he, hc⟩) (makes_serve x) h

/-- Where every LOCK has been checked against what it would get in the way of, no exclusive lock overlaps another. -/
theorem locks_compatible (h : Reaches (fun v env k => k.Checks v env) t) : t.volume.Compatible t.now :=
  (reaches_exclusive h).compatible

end Runs

/-! ### A collection that is locked over a file -/

def otherUuid : Uuid := ⟨js "00000000-0000-4000-8000-000000000002", by decide⟩

def lockRequest (url : JsString) : Incoming := { plainIncoming url with
  body := [60, 119, 114, 105, 116, 101, 47, 62], text := js "<write/>" }

def lockArrives (t : LockTraffic) : LockTraffic :=
  t.arrive calmEnv lockUuid (lockRequest (js "http://h/o/v/f")) (js "f") plainBases

def fileLocked : LockTraffic := ((lockArrives ⟨emptyVolume, 9, []⟩).resume calmEnv 0).resume calmEnv 0

theorem one_lock_compatible : fileLocked.volume.locks ≠ [] ∧ fileLocked.volume.Compatible fileLocked.now := by
  refine ⟨by decide, locks_compatible ?_⟩
  refine .resume 0 (.resume 0 (.arrive lockUuid _ _ _ (.start 9) le_rfl (by decide)) (by decide) fun k hk => ?_) (by decide)
    fun k hk => ?_
  · intro hmade
    obtain rfl := Option.some.inj hk
    exact absurd hmade (by decide)
  · intro _
    obtain rfl := Option.some.inj hk
    have hnone : (LockTraffic.resume (lockArrives ⟨emptyVolume, 9, []⟩) calmEnv 0).volume.locks = [] := by decide
    refine ⟨fun e he => ?_, fun e he => ?_, fun e he => ?_⟩ <;>
      exact absurd (hnone ▸ he : e ∈ ([] : List (JsString × LockRow))) (by simp)

/-- Without a Depth header the collection is locked infinitely deep, and nothing below it is looked at. -/
theorem overlapping_locks : ∃ t, Reaches (fun _ _ _ => True) t ∧ ¬ t.volume.Compatible t.now := by
  refine ⟨((fileLocked.arrive calmEnv otherUuid (lockRequest (js "http://h/o/v/")) [] plainBases).resume calmEnv 0), ?_, ?_⟩
  · refine .resume 0 (.arrive otherUuid _ _ _ ?_ (by decide) (by decide)) (by decide) fun _ _ => trivial
    exact .resume 0 (.resume 0 (.arrive lockUuid _ _ _ (.start 9) le_rfl (by decide)) (by decide) fun _ _ => trivial)
      (by decide) fun _ _ => trivial
  · intro h
    obtain ⟨e, he, f, hf, hlive, hlive', hne, hscope, hcovers, hcovers'⟩ :
        ∃ e ∈ ((fileLocked.arrive calmEnv otherUuid (lockRequest (js "http://h/o/v/")) [] plainBases).resume calmEnv 0).volume.locks,
        ∃ f ∈ ((fileLocked.arrive calmEnv otherUuid (lockRequest (js "http://h/o/v/")) [] plainBases).resume calmEnv 0).volume.locks,
          9 < e.2.expiresAt ∧ 9 < f.2.expiresAt ∧ e.1 ≠ f.1 ∧ e.2.scope = js "exclusive" ∧ e.2.Covers (js "f") ∧
            f.2.Covers (js "f") := by decide
    exact h e he f hf hlive hlive' hne hscope ⟨js "f", hcovers, hcovers'⟩

end DurableDav.Dav
