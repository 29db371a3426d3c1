import DurableDav.Dav.LockCompat
import DurableDav.Dav.Described

namespace DurableDav.Dav

open Library
open Replication (Bytes isValidInnerPath parentOf)

/-! ### The checks of a LOCK -/

/-- How often the checks look at the path. -/
def LockRequest.looks (parsed : LockRequest) : ℕ := if parsed.depthHeader = some .infinity then 1 else 0

/-- The calls of the checks, but for the look at the path. -/
def Op.IsCheck (op : Op) : Prop := (∃ q, op = .exec (.selectLocks q)) ∨ ∃ q, op = .listDir q true

namespace Env

variable (env : Env)

/-- A LOCK is read as `parsed`, and its checks let it pass. -/
def Clears (r : Incoming) (path : JsString) (v : Volume) (parsed : LockRequest) : Prop :=
  parseLockRequest env.platform env.now r = .ok parsed ∧ ∃ s₁ s₂,
    (env.assertLockSharing r.toRequest path (parsed.body ≠ [] ∧ parsed.requestedScope = .shared)).run ⟨v, []⟩ =
      (.ok none, s₁) ∧
    (env.checkDescendantConflicts r.toRequest path parsed.depthHeader parsed.requestedScope).run s₁ = (.ok none, s₂)

/-- The lock that a refresh finds, looking from the path upwards. -/
def refreshableIn (v : Volume) (path : JsString) (tokens : List JsString) : List JsString → Option (JsString × LockRow)
  | [] => none
  | cur :: rest =>
    if env.fails (.exec (.readLocks cur)) 0 = none then
      ((v.locksAt env.now cur).find? (fun e => e.1 ∈ tokens ∧ (cur = path ∨ e.2.depth = js "infinity"))).or
        (refreshableIn v path tokens rest)
    else none

/-- A lock in force that keeps another off its own path, when it can be read. -/
def Blocks (v : Volume) (path : JsString) (scope : LockScope) (n : ℕ) : Prop :=
  env.fails (.exec (.readLocks path)) n = none ∧ ∃ e ∈ v.locks, e.2.path = path ∧ env.now < e.2.expiresAt ∧
    (scope = .exclusive ∨ e.2.scope ≠ js "shared")

/-- What is written of the lock, when its path was seen twice. -/
def details (uuid : Uuid) (bases : DavBases) (plan : LockPlan) (isCollection rootIsCollection : Bool) : LockDetails where
  token := (plan.existing.map LockDetails.token).getD uuid.val
  owner := plan.parsed.owner.or (plan.existing.bind LockDetails.owner)
  scope := (plan.existing.map LockDetails.scope).getD plan.parsed.requestedScope
  depth := resolveDepth plan.existing isCollection plan.parsed.depthHeader
  timeout := plan.parsed.timeout.timeout
  expiresAt := plan.parsed.timeout.expiresAt
  root := hrefOf env.platform bases.hrefBase plan.activePath rootIsCollection

/-- The row is written, and the answer given. -/
def lockWritten (uuid : Uuid) (existing : Option LockDetails) (path : JsString) (d : LockDetails) : Serve Response := do
  match ← (env.writeLock uuid existing path d).attempt with
  | .error _ => pure .internalServerError
  | .ok _ => pure (lockResponse d existing.isSome)

/-- No row can be added. -/
def CannotInsert (uuid : Uuid) (v : Volume) : Prop :=
  env.fails (.exec (.insertLock uuid.val)) 0 ≠ none ∨ (Store.get v.locks uuid.val).isSome = true

/-- What a LOCK does when it knows which lock it is about. -/
def lockFrom (uuid : Uuid) (path : JsString) (bases : DavBases) (plan : LockPlan) : Serve Response := do
  match ← env.ensureLockableResource plan with
  | .refused response => pure response
  | .there => env.lockGrant uuid bases plan
  | .created => do
    env.recordLockNull path
    env.lockGrant uuid bases plan

/-- What a LOCK does when it has passed its checks. -/
def lockBeyond (uuid : Uuid) (r : Incoming) (path : JsString) (bases : DavBases) (parsed : LockRequest) : Serve Response := do
  let st ← env.statInner path
  let plan ← env.refreshTarget r path parsed st.found
  env.lockFrom uuid path bases plan

end Env

/-- The answer of a request that is rejected, or raises. -/
def Rejected : Except Failure Response → Prop
  | .error _ => True
  | .ok response => 400 ≤ response.status

/-- A session in which the path was looked at `n` times, and nothing was called but what is in `P`. -/
structure Session.Looked (s : Session) (v : Volume) (path : JsString) (n : ℕ) (P : Op → Prop) : Prop where
  volume : s.volume = v
  looks : s.calls.count (.stat path) = n
  spared : ∀ op, op ≠ .stat path → ¬ P op → s.calls.count op = 0

section Checks

variable {env : Env} {v : Volume} {path : JsString} {tokens : List JsString} {s s' : Session} {op : Op} {n : ℕ} {P Q : Op → Prop}

theorem Session.Looked.again (h : s.Looked v path n P) : (s.record (.stat path)).Looked v path (n + 1) P := by
  refine ⟨h.volume, ?_, fun op hne hop => ?_⟩
  · rw [Session.record, List.count_cons_self, h.looks]
  · rw [Session.record, List.count_cons_of_ne (fun he => hne he.symm)]
    exact h.spared op hne hop

theorem Session.Looked.calls (h : s.Looked v path n P) (hcalls : s.Calls Q s') (hvol : s'.volume = s.volume)
    (hstat : ¬ Q (.stat path)) : s'.Looked v path n (fun op => P op ∨ Q op) := by
  refine ⟨hvol.trans h.volume, ?_, fun op hne hop => ?_⟩
  · rw [hcalls.count hstat, h.looks]
  · have hout := not_or.mp hop
    rw [hcalls.count hout.2]
    exact h.spared op hne hout.1

theorem spares_assertLockSharing {r : Request} {shared : Bool} (hne : Op.exec (.selectLocks path) ≠ op) :
    Act.Within (Session.Spares op) (env.assertLockSharing r path shared) := by
  unfold Env.assertLockSharing
  split
  · exact Act.within_pure _
  · refine spares_call hne (Act.within_bind Act.within_read fun s => ?_)
    split <;> exact Act.within_pure _

theorem spares_anyConflicting {scope : LockScope} (hne : ∀ q, Op.exec (.selectLocks q) ≠ op) (names : List JsString) :
    Act.Within (Session.Spares op) (env.anyConflicting path tokens scope names) := by
  induction names with
  | nil => exact Act.within_pure _
  | cons name rest ih =>
    have hread : Act.Within (Session.Spares op) (env.activeTokensForPath (Env.childInner path name) tokens) :=
      spares_call (hne _) (Act.within_bind Act.within_read fun s => Act.within_pure _)
    refine Act.within_bind hread fun active => ?_
    split
    · exact ih
    · exact Act.within_pure _

theorem spares_requireRecursive (hne : Op.listDir path true ≠ op) :
    Act.Within (Session.Spares op) (env.requireRecursive path) := by
  have hlist : Act.Within (Session.Spares op) (env.listDir path true) := by
    refine spares_call hne (Act.within_bind Act.within_read fun s => ?_)
    split
    · exact Act.within_throw _
    · exact Act.within_pure _
  refine Act.within_bind (Act.within_attempt hlist) fun names => ?_
  split
  · exact Act.within_pure _
  · split
    · exact Act.within_pure _
    · exact Act.within_throw _

theorem descendants_looked {r : Request} {depth : Option LockDepth} {scope : LockScope} {res : Except Failure (Option Response)}
    (h : (env.checkDescendantConflicts r path depth scope).run s = (res, s')) (hs : s.Looked v path 0 Op.IsCheck) :
    s'.Looked v path (if depth = some .infinity then 1 else 0) Op.IsCheck := by
  unfold Env.checkDescendantConflicts at h
  by_cases hdepth : depth = some .infinity
  · rw [if_neg (by simp [hdepth]), Act.run_bind_ok (statInner_run env path s)] at h
    rw [if_pos hdepth]
    have hagain := hs.again
    split at h
    · obtain rfl := congrArg Prod.snd h
      exact hagain
    · have hspares : ∀ op, ¬ op.IsCheck → Session.Spares op (s.record (.stat path)) s' := by
        intro op hop
        have hout := not_or.mp hop
        refine Act.Within.of_run (Act.within_bind (Act.within_attempt
          (spares_requireRecursive fun he => hout.2 ⟨_, he.symm⟩)) fun names => ?_) h
        split
        · exact Act.within_pure _
        · refine Act.within_bind (spares_anyConflicting (fun q he => hout.1 ⟨q, he.symm⟩) _) fun locked => ?_
          split <;> exact Act.within_pure _
      have hstat := hspares (.stat path) (by simp [Op.IsCheck])
      exact ⟨hstat.1.trans hagain.volume, hstat.2.trans hagain.looks,
        fun op hne hop => (hspares op hop).2.trans (hagain.spared op hne hop)⟩
  · rw [if_pos hdepth] at h
    rw [if_neg hdepth]
    obtain rfl := congrArg Prod.snd h
    exact hs

theorem sharing_rejects {r : Request} {shared : Bool} {response : Response}
    (h : (env.assertLockSharing r path shared).run s = (.ok (some response), s')) : 400 ≤ response.status := by
  unfold Env.assertLockSharing at h
  split at h
  · obtain rfl := Option.some.inj (Act.of_run_pure h).1
    decide
  · obtain ⟨_, h⟩ := exec_answers h
    rw [Act.run_bind, Act.run_read] at h
    dsimp only at h
    split at h
    · cases (Act.of_run_pure h).1
    · obtain rfl := Option.some.inj (Act.of_run_pure h).1
      decide

theorem descendants_reject {r : Request} {depth : Option LockDepth} {scope : LockScope} {response : Response}
    (h : (env.checkDescendantConflicts r path depth scope).run s = (.ok (some response), s')) : 400 ≤ response.status := by
  unfold Env.checkDescendantConflicts at h
  split at h
  · cases (Act.of_run_pure h).1
  · obtain ⟨st, s₁, _, h⟩ := Act.of_run_bind h
    split at h
    · cases (Act.of_run_pure h).1
    · obtain ⟨names, s₂, _, h⟩ := Act.of_run_bind h
      cases names with
      | error e =>
        obtain rfl := Option.some.inj (Act.of_run_pure h).1
        decide
      | ok names =>
        obtain ⟨locked, s₃, _, h⟩ := Act.of_run_bind h
        split at h
        · obtain rfl := Option.some.inj (Act.of_run_pure h).1
          decide
        · cases (Act.of_run_pure h).1

theorem parse_rejects {r : Incoming} {response : Response} (h : parseLockRequest env.platform env.now r = .error response) :
    400 ≤ response.status := by
  unfold parseLockRequest at h
  split at h
  · obtain rfl := Except.error.inj h
    decide
  · split at h
    · obtain rfl := Except.error.inj h
      decide
    · split at h
      · obtain rfl := Except.error.inj h
        decide
      · cases h

/-- A program that changes nothing leaves the volume. -/
theorem unchanged_of_makes {α : Type} {x : Serve α} {res : Except Failure α} (hx : Makes (fun _ => False) x)
    (h : x.run s = (res, s')) : s'.volume = s.volume := by
  have hlead := hx.of_run h
  exact leads_keeps (I := fun w => w = s.volume) (fun _ _ _ he => he.elim) hlead rfl

end Checks

section Course

variable {env : Env} {v : Volume} {path : JsString} {uuid : Uuid} {r : Incoming} {bases : DavBases} {parsed : LockRequest}

theorem Env.Clears.unique {parsed' : LockRequest} (h : env.Clears r path v parsed) (h' : env.Clears r path v parsed') :
    parsed = parsed' := Except.ok.inj (h.1.symm.trans h'.1)

theorem clears_iff {Q : LockRequest → Prop} (h : env.Clears r path v parsed) :
    (∀ parsed, env.Clears r path v parsed → Q parsed) ↔ Q parsed := by
  constructor
  · exact fun hall => hall parsed h
  · intro hq parsed' h'
    rwa [h'.unique h]

/-- A LOCK that fails a check is rejected, and nothing has changed. -/
theorem handleLock_stopped (h : ∀ parsed, ¬ env.Clears r path v parsed) :
    ∃ res s', (env.handleLock uuid r path bases).run ⟨v, []⟩ = (res, s') ∧ Rejected res ∧ s'.volume = v := by
  unfold Env.handleLock Env.lockAdmit
  cases hparse : parseLockRequest env.platform env.now r with
  | error response => exact ⟨_, _, rfl, parse_rejects hparse, rfl⟩
  | ok parsed =>
    rw [Act.run_bind, Act.run_bind]
    rcases hguard : (env.assertLockSharing r.toRequest path (parsed.body ≠ [] ∧ parsed.requestedScope = .shared)).run
      ⟨v, []⟩ with ⟨guard, s₁⟩
    have hvol₁ : s₁.volume = v := unchanged_of_makes makes_assertLockSharing hguard
    cases guard with
    | error e => exact ⟨_, _, rfl, trivial, hvol₁⟩
    | ok refusal =>
      cases refusal with
      | some response => exact ⟨_, _, rfl, sharing_rejects hguard, hvol₁⟩
      | none =>
        dsimp only
        rw [Act.run_bind]
        rcases hscan : (env.checkDescendantConflicts r.toRequest path parsed.depthHeader parsed.requestedScope).run s₁ with
          ⟨scan, s₂⟩
        have hvol₂ : s₂.volume = v := (unchanged_of_makes makes_checkDescendantConflicts hscan).trans hvol₁
        cases scan with
        | error e => exact ⟨_, _, rfl, trivial, hvol₂⟩
        | ok refusal =>
          cases refusal with
          | some response => exact ⟨_, _, rfl, descendants_reject hscan, hvol₂⟩
          | none => exact absurd ⟨hparse, s₁, s₂, hguard, hscan⟩ (h parsed)

theorem handleLock_cleared (uuid : Uuid) (bases : DavBases) (h : env.Clears r path v parsed) : ∃ s, s.Looked v path parsed.looks Op.IsCheck ∧
    (env.handleLock uuid r path bases).run ⟨v, []⟩ = (env.lockBeyond uuid r path bases parsed).run s := by
  obtain ⟨hparse, s₁, s₂, hguard, hscan⟩ := h
  have hs₁ : s₁.Looked v path 0 Op.IsCheck := by
    have hvol : s₁.volume = v := unchanged_of_makes makes_assertLockSharing hguard
    have hcount (op : Op) (hop : ¬ op.IsCheck) : s₁.calls.count op = 0 := by
      have hne : Op.exec (.selectLocks path) ≠ op := fun he => (not_or.mp hop).1 ⟨_, he.symm⟩
      exact ((spares_assertLockSharing hne).of_run hguard).2
    exact ⟨hvol, hcount _ (by simp [Op.IsCheck]), fun op _ hop => hcount op hop⟩
  refine ⟨s₂, descendants_looked hscan hs₁, ?_⟩
  unfold Env.handleLock Env.lockAdmit Env.lockBeyond
  rw [hparse]
  dsimp only
  rw [Act.run_bind, Act.run_bind_ok hguard]
  dsimp only
  rw [Act.run_bind_ok hscan]
  dsimp only
  rw [Act.run_bind_ok (statInner_run env path s₂), Act.run_bind_ok (statInner_run env path s₂)]
  rw [Act.run_bind, Act.run_bind]
  rcases hplan : (env.refreshTarget r path parsed (env.sees s₂.volume path (s₂.calls.count (.stat path))).found).run
    (s₂.record (.stat path)) with ⟨plan, s₃⟩
  rw [hplan]
  cases plan with
  | error e => rfl
  | ok plan => rfl

end Course

section Refreshable

variable {env : Env} {v : Volume} {path : JsString} {tokens paths : List JsString} {s s' : Session} {e : JsString × LockRow}

theorem getParentPath_length (hp : path ≠ []) : (getParentPath path).length < path.length := by
  unfold getParentPath
  split
  · by_cases hnil : path.dropLast = []
    · rw [hnil]
      exact List.length_pos_iff.mpr hp
    · have hlt : (parentOf path.dropLast).length < path.dropLast.length := parentSegments_length_lt hnil
      have hle : path.dropLast.length ≤ path.length := by simp
      omega
  · exact parentSegments_length_lt hp

theorem ancestorsFrom_length {fuel : ℕ} {a : JsString} (ha : a ∈ ancestorsFrom fuel path) : a.length ≤ path.length := by
  induction fuel generalizing path with
  | zero => cases ha
  | succ fuel ih =>
    rcases List.mem_cons.mp ha with rfl | ha
    · exact le_rfl
    · split at ha
      · cases ha
      · rename_i hp
        have hle := ih ha
        have hlt := getParentPath_length hp
        omega

theorem ancestorsFrom_nodup (fuel : ℕ) (path : JsString) : (ancestorsFrom fuel path).Nodup := by
  induction fuel generalizing path with
  | zero => exact List.nodup_nil
  | succ fuel ih =>
    rw [ancestorsFrom, List.nodup_cons]
    split
    · exact ⟨List.not_mem_nil, List.nodup_nil⟩
    · rename_i hp
      refine ⟨fun hmem => ?_, ih _⟩
      have hle := ancestorsFrom_length hmem
      have hlt := getParentPath_length hp
      omega

/-- The lock that is found is in force, its token is submitted, and it covers the path. -/
theorem refreshableIn_some (h : env.refreshableIn v path tokens paths = some e) :
    e ∈ v.locks ∧ e.1 ∈ tokens ∧ env.now < e.2.expiresAt ∧ e.2.path ∈ paths ∧
      (e.2.path = path ∨ e.2.depth = js "infinity") := by
  induction paths with
  | nil => cases h
  | cons cur rest ih =>
    unfold Env.refreshableIn at h
    split at h
    · rcases Option.or_eq_some_iff.mp h with hfind | ⟨_, hrest⟩
      · have hmem := List.mem_of_find?_eq_some hfind
        have hhit := List.find?_some hfind
        simp only [Volume.locksAt, List.mem_filter, decide_eq_true_eq] at hmem hhit
        obtain ⟨hlock, rfl, hlive⟩ := hmem
        exact ⟨hlock, hhit.1, hlive, List.mem_cons_self, hhit.2⟩
      · obtain ⟨hlock, htoken, hlive, hmem, hdeep⟩ := ih hrest
        exact ⟨hlock, htoken, hlive, List.mem_cons_of_mem _ hmem, hdeep⟩
    · cases h

theorem refreshableAmong_run (env : Env) (path : JsString) (tokens : List JsString) (hnodup : paths.Nodup) (hs : ∀ cur ∈ paths, s.calls.count (.exec (.readLocks cur)) = 0) :
    ∃ res s', (env.refreshableAmong path tokens paths).run s = (res, s') ∧ s'.volume = s.volume ∧
      s.Calls (fun op => ∃ cur ∈ paths, op = .exec (.readLocks cur)) s' ∧
      (∀ cur, paths.head? = some cur → s'.calls.count (.exec (.readLocks cur)) = 1) ∧
      res.toOption.join = (env.refreshableIn s.volume path tokens paths).map
        (fun e => ⟨e.2.path, rowDetails e.1 e.2 e.2.root⟩) := by
  induction paths generalizing s with
  | nil => exact ⟨_, s, rfl, rfl, calls_refl s, by simp, rfl⟩
  | cons cur rest ih =>
    obtain ⟨hout, hrest⟩ := List.nodup_cons.mp hnodup
    have hcount := hs cur List.mem_cons_self
    have hone : s.Calls (fun op => ∃ cur' ∈ cur :: rest, op = .exec (.readLocks cur')) (s.record (.exec (.readLocks cur))) :=
      calls_record ⟨cur, List.mem_cons_self, rfl⟩
    have hhead : (s.record (.exec (.readLocks cur))).calls.count (.exec (.readLocks cur)) = 1 := by
      simp [Session.record, hcount]
    unfold Env.refreshableAmong Env.refreshableIn
    rw [Act.run_bind, Env.exec, run_call, hcount]
    cases hfails : env.fails (.exec (.readLocks cur)) 0 with
    | some failure =>
      refine ⟨_, _, rfl, rfl, hone, fun cur' hcur => ?_, rfl⟩
      obtain rfl := Option.some.inj hcur
      exact hhead
    | none =>
      dsimp only
      rw [if_pos rfl, Act.run_bind, Act.run_read]
      dsimp only [Act.run_pure]
      cases hfind : (s.volume.locksAt env.now cur).find?
          (fun e => e.1 ∈ tokens ∧ (cur = path ∨ e.2.depth = js "infinity")) with
      | some e =>
        have hmem := List.mem_of_find?_eq_some hfind
        simp only [Volume.locksAt, List.mem_filter, decide_eq_true_eq] at hmem
        obtain ⟨_, rfl, hlive⟩ := hmem
        refine ⟨.ok (some ⟨e.2.path, rowDetails e.1 e.2 e.2.root⟩), s.record (.exec (.readLocks e.2.path)), ?_, rfl, hone,
          fun cur' hcur => ?_, rfl⟩
        · simp only [Session.record, hfind, Option.bind_some, lockDetails_live hlive]
          rfl
        · obtain rfl := Option.some.inj hcur
          exact hhead
      | none =>
        obtain ⟨res, s', hrun, hvol, hcalls, _, hres⟩ := ih (s := s.record (.exec (.readLocks cur))) hrest fun cur' hcur' => by
          have hne : cur' ≠ cur := fun he => hout (he ▸ hcur')
          rw [Session.record, List.count_cons_of_ne (by simp [hne.symm])]
          exact hs cur' (List.mem_cons_of_mem _ hcur')
        refine ⟨res, s', ?_, hvol, ?_, fun cur' hcur => ?_, ?_⟩
        · simp only [Session.record, hfind, Option.bind_none]
          exact hrun
        · refine hone.trans (hcalls.mono ?_)
          rintro op ⟨cur', hmem, rfl⟩
          exact ⟨cur', List.mem_cons_of_mem _ hmem, rfl⟩
        · obtain rfl := Option.some.inj hcur
          rw [hcalls.count (by simpa using hout), hhead]
        · rw [hres]
          rfl

end Refreshable

section Granting

variable {env : Env} {path : JsString} {s s₁ : Session} {m : ℕ}

theorem scope_blocked {scope : LockScope} (h : env.Blocks s.volume path scope (s.calls.count (.exec (.readLocks path)))) :
    (env.checkScopeConflict path scope none).run s = (.ok (some .locked), s.record (.exec (.readLocks path))) := by
  obtain ⟨hreads, e, he, hpath, hlive, hscope⟩ := h
  obtain ⟨locks, hread, hshows⟩ := readLocks_run env path s
  have hshown : rowDetails e.1 e.2 e.2.root ∈ locks := by
    rw [hshows hreads]
    exact List.mem_filterMap.mpr ⟨e, List.mem_filter.mpr ⟨he, by simp [hpath, hlive]⟩, lockDetails_live hlive⟩
  unfold Env.checkScopeConflict
  rw [if_neg (by simp), Act.run_bind_ok hread, if_pos]
  · rfl
  · cases scope with
    | exclusive => exact .inl ⟨rfl, List.ne_nil_of_mem hshown⟩
    | shared =>
      have hrow : e.2.scope ≠ js "shared" := hscope.resolve_left (by simp)
      exact .inr ⟨rfl, List.any_eq_true.mpr ⟨_, hshown, by simp [rowDetails, hrow]⟩⟩

/-- What is read of the locks is in force. -/
theorem readLocks_shown (env : Env) (path : JsString) (s : Session) : ∃ locks,
    (env.readLocks path).run s = (.ok locks, s.record (.exec (.readLocks path))) ∧
      ∀ d ∈ locks, env.fails (.exec (.readLocks path)) (s.calls.count (.exec (.readLocks path))) = none ∧
        d ∈ (s.volume.locksAt env.now path).filterMap (fun e => lockDetailsFromRow env.now e.1 e.2 e.2.root) := by
  unfold Env.readLocks
  rw [Act.run_bind, Act.run_attempt, Env.exec, run_call]
  cases env.fails (.exec (.readLocks path)) (s.calls.count (.exec (.readLocks path))) with
  | some failure => exact ⟨[], rfl, fun d hd => absurd hd List.not_mem_nil⟩
  | none => exact ⟨_, rfl, fun d hd => ⟨rfl, hd⟩⟩

theorem scope_free {scope : LockScope} (h : ¬ env.Blocks s.volume path scope (s.calls.count (.exec (.readLocks path)))) :
    (env.checkScopeConflict path scope none).run s = (.ok none, s.record (.exec (.readLocks path))) := by
  obtain ⟨locks, hread, hshows⟩ := readLocks_shown env path s
  unfold Env.checkScopeConflict
  rw [if_neg (by simp), Act.run_bind_ok hread, if_neg]
  · rfl
  · intro hconflict
    apply h
    obtain ⟨d, hd, hscope⟩ : ∃ d ∈ locks, scope = .exclusive ∨ d.scope = .exclusive := by
      rcases hconflict with ⟨rfl, hne⟩ | ⟨rfl, hany⟩
      · obtain ⟨d, hd⟩ := List.exists_mem_of_ne_nil _ hne
        exact ⟨d, hd, .inl rfl⟩
      · obtain ⟨d, hd, hscope⟩ := List.any_eq_true.mp hany
        exact ⟨d, hd, .inr (by simpa using hscope)⟩
    obtain ⟨hreads, hlocks⟩ := hshows d hd
    obtain ⟨e, he, hdetails⟩ := List.mem_filterMap.mp hlocks
    simp only [Volume.locksAt, List.mem_filter, decide_eq_true_eq] at he
    obtain ⟨hmem, hpath, hlive⟩ := he
    rw [lockDetails_live hlive] at hdetails
    obtain rfl := Option.some.inj hdetails
    refine ⟨hreads, e, hmem, hpath, hlive, hscope.imp id fun hexclusive hshared => ?_⟩
    simp [rowDetails, hshared] at hexclusive

/-- An infinitely deep lock is not to be had where no collection is seen. -/
theorem grant_deep (uuid : Uuid) (bases : DavBases) (plan : Env.LockPlan) (hfirst : (env.checkScopeConflict plan.activePath plan.parsed.requestedScope plan.existing).run s = (.ok none, s₁))
    (hlooks : s₁.calls.count (.stat plan.activePath) = m) (hdepth : plan.parsed.depthHeader = some .infinity)
    (hseen : (env.sees s₁.volume plan.activePath (m + 1)).isDirectory = false) :
    (env.lockGrant uuid bases plan).run s = (.ok .badRequest,
      if plan.wasPresent then (s₁.record (.stat plan.activePath)).record (.stat plan.activePath)
      else ((env.undoCreation plan.path).run ((s₁.record (.stat plan.activePath)).record (.stat plan.activePath))).2) := by
  have hagain : (s₁.record (.stat plan.activePath)).calls.count (.stat plan.activePath) = m + 1 := by
    rw [Session.record, List.count_cons_self, hlooks]
  have hreject : (env.rejectsInfinityDepth plan.activePath plan.parsed.depthHeader).run (s₁.record (.stat plan.activePath)) =
      (.ok true, (s₁.record (.stat plan.activePath)).record (.stat plan.activePath)) := by
    unfold Env.rejectsInfinityDepth
    rw [if_neg (by simp [hdepth]), Act.run_bind_ok (statInner_run env _ _), hagain]
    have hseen' : (env.sees (s₁.record (.stat plan.activePath)).volume plan.activePath (m + 1)).isDirectory = false := hseen
    rw [hseen']
    rfl
  unfold Env.lockGrant
  rw [Act.run_bind_ok hfirst]
  dsimp only
  rw [Act.run_bind_ok (statInner_run env _ _), Act.run_bind_ok hreject, if_pos rfl]
  cases plan.wasPresent with
  | true => rfl
  | false =>
    have hundo : (env.undoCreation plan.path).run ((s₁.record (.stat plan.activePath)).record (.stat plan.activePath)) =
        (.ok (), ((env.undoCreation plan.path).run ((s₁.record (.stat plan.activePath)).record (.stat plan.activePath))).2) := rfl
    exact Act.run_bind_ok hundo

/-- What is left of a LOCK when the row is to be written. -/
theorem grant_write (uuid : Uuid) (bases : DavBases) (plan : Env.LockPlan) (hfirst : (env.checkScopeConflict plan.activePath plan.parsed.requestedScope plan.existing).run s = (.ok none, s₁))
    (hlooks : s₁.calls.count (.stat plan.activePath) = m) (hseen : plan.parsed.depthHeader = some .infinity →
      (env.sees s₁.volume plan.activePath (m + 1)).isDirectory = true) :
    ∃ s₂, s₂.volume = s₁.volume ∧ s₁.Calls (fun op => op = .stat plan.activePath) s₂ ∧
      (env.lockGrant uuid bases plan).run s = (env.lockWritten uuid plan.existing plan.activePath
        (env.details uuid bases plan (env.sees s₁.volume plan.activePath m).isDirectory
          (env.sees s₁.volume plan.activePath (m + 1 + plan.parsed.looks)).isDirectory)).run s₂ := by
  have hone : s₁.Calls (fun op => op = .stat plan.activePath) (s₁.record (.stat plan.activePath)) := calls_record rfl
  have hagain : (s₁.record (.stat plan.activePath)).calls.count (.stat plan.activePath) = m + 1 := by
    rw [Session.record, List.count_cons_self, hlooks]
  unfold Env.lockGrant
  rw [Act.run_bind_ok hfirst]
  dsimp only
  rw [Act.run_bind_ok (statInner_run env _ _), hlooks]
  by_cases hdepth : plan.parsed.depthHeader = some .infinity
  · have hreject : (env.rejectsInfinityDepth plan.activePath plan.parsed.depthHeader).run (s₁.record (.stat plan.activePath)) =
        (.ok false, (s₁.record (.stat plan.activePath)).record (.stat plan.activePath)) := by
      unfold Env.rejectsInfinityDepth
      rw [if_neg (by simp [hdepth]), Act.run_bind_ok (statInner_run env _ _), hagain]
      have hseen' : (env.sees (s₁.record (.stat plan.activePath)).volume plan.activePath (m + 1)).isDirectory = true := hseen hdepth
      rw [hseen']
      rfl
    have htwice : ((s₁.record (.stat plan.activePath)).record (.stat plan.activePath)).calls.count (.stat plan.activePath) = m + 2 := by
      rw [Session.record, List.count_cons_self, hagain]
    have hindex : m + 1 + plan.parsed.looks = m + 2 := by
      rw [LockRequest.looks, if_pos hdepth]
    rw [hindex]
    refine ⟨((s₁.record (.stat plan.activePath)).record (.stat plan.activePath)).record (.stat plan.activePath), rfl,
      (hone.trans (calls_record rfl)).trans (calls_record rfl), ?_⟩
    rw [Act.run_bind_ok hreject, if_neg (by simp), Act.run_bind_ok (statInner_run env _ _), htwice]
    rfl
  · have hreject : (env.rejectsInfinityDepth plan.activePath plan.parsed.depthHeader).run (s₁.record (.stat plan.activePath)) =
        (.ok false, s₁.record (.stat plan.activePath)) := by
      unfold Env.rejectsInfinityDepth
      rw [if_pos hdepth]
      rfl
    have hindex : m + 1 + plan.parsed.looks = m + 1 := by
      rw [LockRequest.looks, if_neg hdepth]
    rw [hindex]
    refine ⟨(s₁.record (.stat plan.activePath)).record (.stat plan.activePath), rfl, hone.trans (calls_record rfl), ?_⟩
    rw [Act.run_bind_ok hreject, if_neg (by simp), Act.run_bind_ok (statInner_run env _ _), hagain]
    rfl

theorem updated_run (uuid : Uuid) (old d : LockDetails) (hs : s.calls.count (.exec (.updateLock d.token)) = 0) :
    (env.fails (.exec (.updateLock d.token)) 0 ≠ none ∧ ∃ s',
      (env.lockWritten uuid (some old) path d).run s = (.ok .internalServerError, s') ∧ s'.volume = s.volume) ∨
    (env.fails (.exec (.updateLock d.token)) 0 = none ∧ ∃ s',
      (env.lockWritten uuid (some old) path d).run s = (.ok (Env.lockResponse d true), s') ∧
        s'.volume = s.volume.updateLock d) := by
  unfold Env.lockWritten Env.writeLock
  dsimp only
  rw [Act.run_bind, Act.run_attempt, Env.exec, run_call, hs]
  cases env.fails (.exec (.updateLock d.token)) 0 with
  | some failure => exact .inl ⟨by simp, _, rfl, rfl⟩
  | none => exact .inr ⟨rfl, _, rfl, rfl⟩

theorem inserted_run (uuid : Uuid) (d : LockDetails) (hs : s.calls.count (.exec (.insertLock uuid.val)) = 0) :
    (env.CannotInsert uuid s.volume ∧ ∃ s',
      (env.lockWritten uuid none path d).run s = (.ok .internalServerError, s') ∧ s'.volume = s.volume) ∨
    (¬ env.CannotInsert uuid s.volume ∧ ∃ row s',
      (env.lockWritten uuid none path d).run s = (.ok (Env.lockResponse d false), s') ∧
        s'.volume = s.volume.insertLock uuid.val row) := by
  unfold Env.CannotInsert Env.lockWritten Env.writeLock
  dsimp only
  rw [Act.run_bind, Act.run_attempt, Env.exec, run_call, hs]
  cases env.fails (.exec (.insertLock uuid.val)) 0 with
  | some failure => exact .inl ⟨.inl (by simp), _, rfl, rfl⟩
  | none =>
    dsimp only
    rw [Act.run_bind, Act.run_read]
    dsimp only [Session.record]
    cases hget : (Store.get s.volume.locks uuid.val).isSome with
    | true => exact .inl ⟨.inr rfl, _, rfl, rfl⟩
    | false => exact .inr ⟨by simp, _, _, rfl, rfl⟩

/-- What comes of a lock that is to be new: another one blocks it, or its depth is refused, or its row is written or not. -/
theorem grant_new (uuid : Uuid) (bases : DavBases) (plan : Env.LockPlan) (hnew : plan.existing = none)
    (hactive : plan.activePath = path) (hpath : plan.path = path) (hlooks : s.calls.count (.stat path) = m)
    (hinsert : s.calls.count (.exec (.insertLock uuid.val)) = 0) :
    let blocked := env.Blocks s.volume path plan.parsed.requestedScope (s.calls.count (.exec (.readLocks path)))
    let deep := plan.parsed.depthHeader = some .infinity ∧ (env.sees s.volume path (m + 1)).isDirectory = false
    (blocked ∧ ∃ s', (env.lockGrant uuid bases plan).run s = (.ok .locked, s') ∧ s'.volume = s.volume) ∨
    (¬ blocked ∧ deep ∧ ∃ s', s'.volume = s.volume ∧
      (∀ op, op ≠ .stat path → op ≠ .exec (.readLocks path) → s'.calls.count op = s.calls.count op) ∧
      (env.lockGrant uuid bases plan).run s =
        (.ok .badRequest, if plan.wasPresent then s' else ((env.undoCreation path).run s').2)) ∨
    (¬ blocked ∧ ¬ deep ∧ env.CannotInsert uuid s.volume ∧ ∃ s',
      (env.lockGrant uuid bases plan).run s = (.ok .internalServerError, s') ∧ s'.volume = s.volume) ∨
    (¬ blocked ∧ ¬ deep ∧ ¬ env.CannotInsert uuid s.volume ∧ ∃ d row s',
      (env.lockGrant uuid bases plan).run s = (.ok (Env.lockResponse d false), s') ∧
        s'.volume = s.volume.insertLock uuid.val row) := by
  intro blocked deep
  by_cases hblocked : blocked
  · refine .inl ⟨hblocked, s.record (.exec (.readLocks path)), ?_, rfl⟩
    unfold Env.lockGrant
    rw [hnew, hactive]
    exact Act.run_bind_ok (scope_blocked hblocked)
  · have hfirst : (env.checkScopeConflict plan.activePath plan.parsed.requestedScope plan.existing).run s =
        (.ok none, s.record (.exec (.readLocks path))) := by
      rw [hnew, hactive]
      exact scope_free hblocked
    have hlooks' : (s.record (.exec (.readLocks path))).calls.count (.stat plan.activePath) = m := by
      rw [hactive, Session.record, List.count_cons_of_ne (by simp)]
      exact hlooks
    by_cases hdeep : deep
    · have hgrant := grant_deep uuid bases plan hfirst hlooks' hdeep.1 (by rw [hactive]; exact hdeep.2)
      rw [hactive, hpath] at hgrant
      refine .inr (.inl ⟨hblocked, hdeep, ((s.record (.exec (.readLocks path))).record (.stat path)).record (.stat path), rfl,
        fun op hstat hread => ?_, hgrant⟩)
      simp only [Session.record]
      rw [List.count_cons_of_ne hstat.symm, List.count_cons_of_ne hstat.symm, List.count_cons_of_ne hread.symm]
    · have hshallow : plan.parsed.depthHeader = some .infinity →
          (env.sees (s.record (.exec (.readLocks path))).volume plan.activePath (m + 1)).isDirectory = true := by
        intro hdepth
        rw [hactive]
        by_contra hdir
        exact hdeep ⟨hdepth, Bool.eq_false_iff.mpr hdir⟩
      obtain ⟨s₂, hvol, hcalls, hgrant⟩ := grant_write uuid bases plan hfirst hlooks' hshallow
      have hcount : s₂.calls.count (.exec (.insertLock uuid.val)) = 0 := by
        rw [hcalls.count (by simp), Session.record, List.count_cons_of_ne (by simp)]
        exact hinsert
      have hvol₂ : s₂.volume = s.volume := hvol
      rw [hnew] at hgrant
      rcases inserted_run uuid _ hcount with ⟨hcannot, s₃, hwrite, hvol₃⟩ | ⟨hcan, row, s₃, hwrite, hvol₃⟩
      · exact .inr (.inr (.inl ⟨hblocked, hdeep, hvol₂ ▸ hcannot, s₃, hgrant.trans hwrite, hvol₃.trans hvol₂⟩))
      · exact .inr (.inr (.inr ⟨hblocked, hdeep, hvol₂ ▸ hcan, _, row, s₃, hgrant.trans hwrite, hvol₂ ▸ hvol₃⟩))

end Granting

section Beyond

variable {env : Env} {v : Volume} {path : JsString} {r : Incoming} {parsed : LockRequest} {plan : Env.LockPlan} {s : Session}
  {n : ℕ}

/-- What a refresh goes on with: the lock that it found, when its resource was seen. -/
def Env.refreshPlan (r : Incoming) (path : JsString) (parsed : LockRequest) (wasPresent : Bool)
    (found : Option (JsString × LockRow)) : Env.LockPlan :=
  ⟨r, path, parsed, wasPresent, found.map (fun e => rowDetails e.1 e.2 e.2.root), (found.map (fun e => e.2.path)).getD path⟩

theorem refreshTarget_run (r : Incoming) (wasPresent : Bool) (hbody : parsed.body = []) (hs : s.Looked v path n Op.IsCheck) : ∃ s',
    s'.Looked v path n (fun op => op.IsCheck ∨ ∃ q, op = .exec (.readLocks q)) ∧
      s'.calls.count (.exec (.readLocks path)) = 1 ∧
      (env.refreshTarget r path parsed wasPresent).run s = (.ok (Env.refreshPlan r path parsed wasPresent
        (if wasPresent then env.refreshableIn v path parsed.depthTokens (ancestorsOf path) else none)), s') := by
  obtain ⟨res, s', hrun, hvol, hcalls, hone, hres⟩ := refreshableAmong_run env path parsed.depthTokens (s := s)
    (ancestorsFrom_nodup _ path) (fun cur _ => hs.spared _ (by simp) (by simp [Op.IsCheck]))
  rw [hs.volume] at hres
  have hfound : (env.findRefreshableLock path parsed.depthTokens).run s = (.ok res.toOption.join, s') := by
    unfold Env.findRefreshableLock
    rw [Act.run_bind, Act.run_attempt]
    unfold ancestorsOf
    rw [hrun]
    cases res <;> rfl
  refine ⟨s', ?_, hone path rfl, ?_⟩
  · refine hs.calls (hcalls.mono ?_) hvol (by simp)
    rintro op ⟨q, _, rfl⟩
    exact ⟨q, rfl⟩
  · unfold Env.refreshTarget
    rw [if_neg (by simp [hbody]), Act.run_bind_ok hfound, hres]
    unfold ancestorsOf
    cases env.refreshableIn v path parsed.depthTokens (ancestorsFrom (Replication.maxPathDepth + 1) path) with
    | none => cases wasPresent <;> rfl
    | some e => cases wasPresent <;> rfl

theorem ensure_there (hfound : (env.sees s.volume plan.path (s.calls.count (.stat plan.path))).found = true) :
    (env.ensureLockableResource plan).run s = (.ok .there, s.record (.stat plan.path)) := by
  unfold Env.ensureLockableResource
  rw [Act.run_bind_ok (statInner_run env _ _), if_pos hfound]
  rfl

theorem ensure_absent (hfound : (env.sees s.volume plan.path (s.calls.count (.stat plan.path))).found = false)
    (hbody : plan.parsed.body = []) :
    (env.ensureLockableResource plan).run s = (.ok (.refused .badRequest), s.record (.stat plan.path)) := by
  unfold Env.ensureLockableResource
  rw [Act.run_bind_ok (statInner_run env _ _), if_neg (by simp [hfound]), if_pos hbody]
  rfl

end Beyond

/-! ### Undoing -/

/-- What a deletion of rows leaves: a statement that fails ends it. -/
def Env.cascaded (env : Env) (path : JsString) : List Table → Volume → Volume
  | [], w => w
  | t :: ts, w => if env.fails (.exec (.deleteRows t path)) 0 = none then env.cascaded path ts (w.deleteRows path t) else w

/-- A file at the path cannot be removed. -/
def Env.Holds (env : Env) (w : Volume) (path : JsString) : Prop :=
  env.fails (.unlink path) 0 ≠ none ∨ w.files.isDirectory path = true ∨ w.files.found path = false

section Undoing

variable {env : Env} {w : Volume} {path : JsString} {s : Session} {ts : List Table}

@[simp] theorem deleteRows_files (t : Table) : (w.deleteRows path t).files = w.files := by cases t <;> rfl

@[simp] theorem cascaded_files : (env.cascaded path ts w).files = w.files := by
  induction ts generalizing w with
  | nil => rfl
  | cons t ts ih =>
    unfold Env.cascaded
    split
    · rw [ih, deleteRows_files]
    · rfl

theorem each_cascaded (hnodup : ts.Nodup) (hs : ∀ t ∈ ts, s.calls.count (.exec (.deleteRows t path)) = 0) :
    ((Act.each (fun t => env.exec (.deleteRows t path) (Env.modifyVolume (fun v => v.deleteRows path t))) ts).run s).2.volume =
      env.cascaded path ts s.volume := by
  induction ts generalizing s with
  | nil => rfl
  | cons t ts ih =>
    obtain ⟨hout, hrest⟩ := List.nodup_cons.mp hnodup
    unfold Env.cascaded
    rw [Act.each_cons, Act.run_bind, Env.exec, run_call, hs t List.mem_cons_self]
    cases env.fails (.exec (.deleteRows t path)) 0 with
    | some failure => rfl
    | none =>
      rw [if_pos rfl]
      refine ih hrest fun t' ht' => ?_
      have hne : t' ≠ t := fun he => hout (he ▸ ht')
      have hcount := hs t' (List.mem_cons_of_mem _ ht')
      simp only [Session.record]
      rw [List.count_cons_of_ne (by simp [hne.symm])]
      exact hcount

theorem deleteCascade_volume (hs : ∀ t, s.calls.count (.exec (.deleteRows t path)) = 0) :
    ((env.deleteCascade path).run s).2.volume = env.cascaded path cascadeTables s.volume := by
  unfold Env.deleteCascade
  rw [Act.run_bind, Act.run_attempt]
  exact each_cascaded (by decide) fun t _ => hs t

theorem undo_held (hs : s.calls.count (.unlink path) = 0) (h : env.Holds s.volume path) :
    ((env.undoCreation path).run s).2.volume = s.volume := by
  have hunlink : ∃ e s', (env.unlink path).run s = (.error e, s') ∧ s'.volume = s.volume := by
    unfold Env.unlink
    rw [run_call, hs]
    cases hfails : env.fails (.unlink path) 0 with
    | some failure => exact ⟨_, _, rfl, rfl⟩
    | none =>
      rcases h with hfail | hdir | habsent
      · exact absurd hfails hfail
      · dsimp only
        rw [Act.run_bind, Act.run_read]
        dsimp only [Session.record]
        rw [if_pos hdir]
        exact ⟨_, _, rfl, rfl⟩
      · dsimp only
        rw [Act.run_bind, Act.run_read]
        dsimp only [Session.record]
        have hdir : s.volume.files.isDirectory path = false := by
          by_contra hdir
          rw [found_of_isDirectory (by simpa using hdir)] at habsent
          cases habsent
        rw [if_neg (by simp [hdir]), if_pos (by simp [habsent])]
        exact ⟨_, _, rfl, rfl⟩
  obtain ⟨e, s', hrun, hvol⟩ := hunlink
  unfold Env.undoCreation
  rw [Act.run_bind, Act.run_attempt, Act.run_bind_error hrun]
  exact hvol

theorem undo_removes (hs : s.calls.count (.unlink path) = 0) (hrows : ∀ t, s.calls.count (.exec (.deleteRows t path)) = 0)
    (h : ¬ env.Holds s.volume path) : ((env.undoCreation path).run s).2.volume =
      env.cascaded path cascadeTables { s.volume with files := Store.remove s.volume.files path } := by
  unfold Env.Holds at h
  push Not at h
  obtain ⟨hfails, hdir, hfound⟩ := h
  have hunlink : (env.unlink path).run s = (.ok (), ⟨{ s.volume with files := Store.remove s.volume.files path },
      .unlink path :: s.calls⟩) := by
    unfold Env.unlink
    rw [run_call, hs, hfails]
    dsimp only
    rw [Act.run_bind, Act.run_read]
    dsimp only [Session.record]
    rw [if_neg hdir, if_neg (by simpa using hfound)]
    rfl
  unfold Env.undoCreation
  rw [Act.run_bind, Act.run_attempt, Act.run_bind_ok hunlink]
  refine deleteCascade_volume fun t => ?_
  rw [List.count_cons_of_ne (by simp)]
  exact hrows t

/-- What can be removed was there. -/
theorem removed_get (h : ¬ env.Holds w path) : Store.get w.files path ≠ none := by
  intro hget
  unfold Env.Holds at h
  push Not at h
  obtain ⟨_, hdir, hfound⟩ := h
  rcases found_iff.mp (by simpa using hfound) with hroot | hsome
  · subst hroot
    exact hdir rfl
  · rw [hget] at hsome
    cases hsome

theorem removed_ne (h : ¬ env.Holds w path) : Store.remove w.files path ≠ w.files := by
  intro hfiles
  apply removed_get h
  rw [← hfiles]
  simp

end Undoing

end DurableDav.Dav
