import DurableDav.Replication.BaseAgreement
import DurableDav.Replication.Runner

namespace DurableDav.Replication

open Library

/-! ### What a part of a run adds to the log -/

def World.Extends (w w' : World) : Prop := ∃ es, w'.log = es ++ w.log

instance : Silent World.Extends where
  refl _ := ⟨[], rfl⟩
  trans := by
    rintro _ _ _ ⟨es, h⟩ ⟨es', h'⟩
    exact ⟨es' ++ es, by rw [h', h, List.append_assoc]⟩
  tick _ := ⟨[], rfl⟩
  note _ e _ := ⟨[e], rfl⟩

/-- The events between two worlds of one run. -/
def World.events (w w' : World) : List Event := w'.log.take (w'.log.length - w.log.length)

namespace World

variable {w w₁ w₂ : World} {e : Event}

theorem events_eq {es : List Event} (h : w₁.log = es ++ w.log) : events w w₁ = es := by
  unfold events
  rw [h, List.length_append, Nat.add_sub_cancel, List.take_left]

theorem Extends.log_eq (h : w.Extends w₁) : w₁.log = events w w₁ ++ w.log := by
  obtain ⟨es, hes⟩ := h
  rw [events_eq hes, hes]

theorem events_trans (h : w.Extends w₁) (h' : w₁.Extends w₂) : events w w₂ = events w₁ w₂ ++ events w w₁ := by
  apply events_eq
  rw [h'.log_eq, h.log_eq, List.append_assoc, events_eq h.log_eq]

@[simp] theorem events_self (w : World) : events w w = [] := events_eq rfl

theorem Notes.extends (h : World.Notes w w₁) : w.Extends w₁ := by
  obtain ⟨es, hes, _⟩ := h
  exact ⟨es, hes⟩

theorem Notes.events (h : World.Notes w w₁) (he : e ∈ World.events w w₁) : e.isCall = true ∨ e.isRemoval = true := by
  obtain ⟨es, hes, hall⟩ := h
  rw [events_eq hes] at he
  exact hall e he

end World

/-! ### Which decisions a run carries out -/

namespace ApplyOptions

/-- No decision is left when the clock or the bytes end the loop. -/
def Fits (o : ApplyOptions) : List ReplicationDecision → ApplyState → World → Prop
  | [], _, _ => True
  | d :: ds, st, w => o.env.clock w.calls < o.deadlineMs ∧ st.movedBytes < o.maxBytes ∧
      match (o.applyDecision d).run w.tick with
      | (.ok outcome, w') => Fits o ds (st.settle d outcome) w'
      | (.error _, _) => True

end ApplyOptions

section Decisions

variable {o : ApplyOptions} {d : ReplicationDecision} {ds : List ReplicationDecision} {st st' : ApplyState}
  {w w' : World}

theorem applyDecision_events {outcome : Except JsString ℕ} (h : (o.applyDecision d).run w = (.ok outcome, w')) :
    w.Extends w' ∧ .applies d ∈ World.events w w' ∧ (∀ e, .applies e ∈ World.events w w' → e = d) ∧
      ((∃ e, .failed e ∈ World.events w w') ↔ ∃ m, outcome = .error m) := by
  have hnotes := transfer_notes o.toTransferContext d (w.note (.applies d))
  rcases applyDecision_run o.toTransferContext d w with ⟨n, w₁, hrun, happly⟩ | ⟨m, w₁, hrun, happly⟩ <;>
    rw [hrun] at hnotes <;> rw [happly] at h <;> obtain ⟨es, hes, hall⟩ := hnotes <;>
    simp only [Prod.mk.injEq, Except.ok.injEq] at h <;> obtain ⟨rfl, rfl⟩ := h
  · have hev : w₁.log = (es ++ [.applies d]) ++ w.log := by simpa [World.note] using hes
    rw [World.events_eq hev]
    refine ⟨⟨_, hev⟩, by simp, fun e he => ?_, ⟨?_, by simp⟩⟩
    · rcases List.mem_append.mp he with he | he
      · rcases hall _ he with h | h <;> simp [Event.isCall, Event.isRemoval] at h
      · simpa using he
    · rintro ⟨e, he⟩
      rcases List.mem_append.mp he with he | he
      · rcases hall _ he with h | h <;> simp [Event.isCall, Event.isRemoval] at h
      · simp at he
  · have hev : (w₁.note (.failed d)).log = (.failed d :: es ++ [.applies d]) ++ w.log := by simpa [World.note] using hes
    rw [World.events_eq hev]
    refine ⟨⟨_, hev⟩, by simp, fun e he => ?_, ⟨fun _ => ⟨m, rfl⟩, fun _ => ⟨d, by simp⟩⟩⟩
    rw [List.cons_append, List.mem_cons, List.mem_append] at he
    rcases he with he | he | he
    · simp at he
    · rcases hall _ he with h | h <;> simp [Event.isCall, Event.isRemoval] at h
    · simpa using he

theorem settle_errors (outcome : Except JsString ℕ) :
    (∃ m, outcome = .error m) ∧ (st.settle d outcome).errors = st.errors + 1 ∨
      (¬ ∃ m, outcome = .error m) ∧ (st.settle d outcome).errors = st.errors := by
  cases outcome with
  | ok n => exact .inr ⟨by simp, rfl⟩
  | error m => exact .inl ⟨⟨m, rfl⟩, rfl⟩

/-- What the loop leaves in its state and in the log. -/
structure Applied (o : ApplyOptions) (ds : List ReplicationDecision) (st : ApplyState) (w : World)
    (st' : ApplyState) (w' : World) : Prop where
  run : (o.applyAll ds st).run w = (.ok st', w')
  extends_log : w.Extends w'
  room : o.Fits ds st w → ∀ d ∈ ds, .applies d ∈ World.events w w'
  short : ¬ o.Fits ds st w → ∃ done d rest, ds = done ++ d :: rest ∧
    ∀ e, .applies e ∈ World.events w w' → e ∈ done
  counted : (∃ e, .failed e ∈ World.events w w') ↔ st.errors < st'.errors
  grows : st.errors ≤ st'.errors

theorem applyAll_applied (ds : List ReplicationDecision) (st : ApplyState) (w : World) :
    ∃ st' w', Applied o ds st w st' w' := by
  induction ds generalizing st w with
  | nil =>
    refine ⟨st, w, rfl, ⟨[], rfl⟩, fun _ d hd => by simp at hd, fun h => absurd trivial h, ?_, le_refl _⟩
    simp
  | cons d ds ih =>
    by_cases hstop : o.deadlineMs ≤ o.env.clock w.calls ∨ o.maxBytes ≤ st.movedBytes
    · have hrun : (o.applyAll (d :: ds) st).run w = (.ok st, w.tick) := by
        rw [ApplyOptions.applyAll_cons, Act.run_bind]
        dsimp only [Env.now]
        rw [if_pos hstop]
        rfl
      have hev : World.events w w.tick = [] := World.events_eq rfl
      refine ⟨st, w.tick, hrun, ⟨[], rfl⟩, fun h => ?_, fun _ => ⟨[], d, ds, rfl, ?_⟩, ?_, le_refl _⟩
      · obtain ⟨hclock, hbytes, _⟩ := h
        omega
      · simp [hev]
      · simp [hev]
    · obtain ⟨outcome, w₁, happly⟩ : ∃ outcome w₁, (o.applyDecision d).run w.tick = (.ok outcome, w₁) := by
        rcases applyDecision_run o.toTransferContext d w.tick with ⟨n, w₁, _, h⟩ | ⟨m, w₁, _, h⟩
        · exact ⟨_, _, h⟩
        · exact ⟨_, _, h⟩
      obtain ⟨st', w', hrest⟩ := ih (st.settle d outcome) w₁
      obtain ⟨hext, hone, honly, hfail⟩ := applyDecision_events happly
      have hext' : w.Extends w₁ := hext
      have hfirst : World.events w w₁ = World.events w.tick w₁ := rfl
      have hev := World.events_trans hext' hrest.extends_log
      have hfits : o.Fits (d :: ds) st w ↔ o.Fits ds (st.settle d outcome) w₁ := by
        rw [ApplyOptions.Fits, happly]
        constructor
        · exact fun h => h.2.2
        · exact fun h => ⟨by omega, by omega, h⟩
      refine ⟨st', w', ?_, trans_of World.Extends hext' hrest.extends_log, ?_, ?_, ?_, ?_⟩
      · rw [ApplyOptions.applyAll_cons, Act.run_bind]
        dsimp only [Env.now]
        rw [if_neg hstop]
        exact (Act.run_bind_ok happly).trans hrest.run
      · intro h e he
        rw [hev, List.mem_append]
        rcases List.mem_cons.mp he with rfl | he
        · exact .inr hone
        · exact .inl (hrest.room (hfits.mp h) e he)
      · intro h
        obtain ⟨done, e, rest, hds, hdone⟩ := hrest.short (fun hf => h (hfits.mpr hf))
        refine ⟨d :: done, e, rest, by rw [hds]; rfl, fun x hx => ?_⟩
        rw [hev, List.mem_append] at hx
        rcases hx with hx | hx
        · exact List.mem_cons_of_mem _ (hdone x hx)
        · rw [honly x hx]
          exact List.mem_cons_self
      · have herr := @settle_errors d st outcome
        have hle := hrest.grows
        have hcount := hrest.counted
        simp only [hev, List.mem_append, exists_or]
        rw [hcount, hfirst, hfail]
        rcases herr with ⟨hm, herr⟩ | ⟨hm, herr⟩
        · simp only [hm, or_true, true_iff]
          omega
        · simp only [hm, or_false]
          omega
      · have herr := @settle_errors d st outcome
        have hle := hrest.grows
        omega

end Decisions

/-! ### What a slice reports -/

namespace Runner

/-- The part of a slice before its plan. -/
def prepare (r : Runner) (now startedAt : ℕ) : Run Slice := do
  let row ← .read
  let resumeFrom ← r.reconcilePassState now
  r.env.buildRemote
  r.probeOnce row.pass
  r.env.collectSlice r.config.slicePaths (startedAt + r.config.sliceMs) resumeFrom

def startedAt (r : Runner) (w : World) : ℕ := r.env.clock (w.calls + 1)

def Prepares (r : Runner) (w : World) (slice : Slice) (w₁ : World) : Prop :=
  (r.prepare (r.env.clock w.calls / 1000) (r.startedAt w)).run w.tick.tick = (.ok slice, w₁)

def decisions (r : Runner) (slice : Slice) (startedAt : ℕ) : List ReplicationDecision :=
  (buildReplicationPlan (r.planInput slice startedAt)).decisions

def ReportsTruly (r : Runner) (w : World) : Prop :=
  ∀ slice w₁ result w', r.Prepares w slice w₁ → r.runSlice.run w = (.ok result, w') → result.status = .ok →
    ∀ d ∈ r.decisions slice (r.startedAt w), .applies d ∈ World.events w₁ w'

/-- Something of the slice has failed, and the run is recorded as such. -/
def Marred (r : Runner) (w : World) (slice : Slice) (w₁ : World) : Prop :=
  0 < slice.errors ∨ slice.complete = false ∨ (∃ d, .failed d ∈ World.events w₁ (r.runSlice.run w).2) ∨
    ∃ m w', (r.syncSlice slice (r.env.clock w.calls / 1000) (r.startedAt w)).run w₁ = (.error m, w')

def HasRoom (r : Runner) (w : World) : Prop :=
  ∀ slice w₁, r.Prepares w slice w₁ →
    (r.options slice (r.startedAt w)).Fits (r.decisions slice (r.startedAt w)) .start w₁ ∨ r.Marred w slice w₁

end Runner

section Report

variable {r : Runner} {slice : Slice} {now startedAt : ℕ} {w w₁ w₂ : World} {st : ApplyState}

theorem recordConflicts_run (env : Env) (now : ℕ) (conflicts : List PlanConflict) (w : World) :
    ∃ w', (env.recordConflicts now conflicts).run w = (.ok (), w') := by
  induction conflicts generalizing w with
  | nil => exact ⟨w, rfl⟩
  | cons c cs ih => exact ih _

theorem recordConflicts_notes (env : Env) (now : ℕ) (conflicts : List PlanConflict) :
    Act.Within World.Notes (env.recordConflicts now conflicts) :=
  Act.within_each (fun _ _ => Act.within_bind (Act.within_attempt
    (within_call intact_within (fun _ _ _ => World.Notes.of_log_eq rfl))) (fun _ => Act.within_pure _))

theorem recordRun_notes (env : Env) (status : RunStatus) (error : Option JsString) (now maxFailures : ℕ)
    (cursor : Option JsString) (remaining : ℕ) :
    Act.Within World.Notes (env.recordRun status error now maxFailures cursor remaining) :=
  within_call intact_within (fun _ _ _ => World.Notes.of_log_eq rfl)

theorem runStatus_ok {outcome : ApplyOutcome} : Runner.runStatus slice outcome = .ok ↔
    outcome.errors = 0 ∧ slice.errors = 0 ∧ slice.complete = true := by
  unfold Runner.runStatus
  split
  · rename_i h
    have hne : ¬ (if 0 < outcome.applied then RunStatus.partly else .failed) = .ok := by split <;> simp
    refine iff_of_false hne (fun ⟨ho, hs, hc⟩ => ?_)
    simp [ho, hs, hc] at h
  · rename_i h
    simp only [not_or, Nat.not_lt, Nat.le_zero_eq, Bool.not_eq_true, Bool.not_eq_false'] at h
    exact iff_of_true rfl h

/-- After its decisions a slice only makes calls, and ends well unless one of them breaks it off. -/
theorem syncSlice_run (ha : Applied (r.options slice startedAt) (r.decisions slice startedAt) .start w st w₁) :
    (∃ m w', (r.syncSlice slice now startedAt).run w = (.error m, w') ∧ World.Notes w₁ w') ∨
      ∃ result w', (r.syncSlice slice now startedAt).run w = (.ok result, w') ∧ World.Notes w₁ w' ∧
        (result.status = .ok ↔ st.errors = 0 ∧ slice.errors = 0 ∧ slice.complete = true) := by
  have hplan : (buildReplicationPlan (r.planInput slice startedAt)).decisions = r.decisions slice startedAt := rfl
  have hbase := recordBase_notes r.env st.touched w₁
  rw [Runner.syncSlice_eq, hplan]
  cases hrun : (r.env.recordBase st.touched).run w₁ with
  | mk x w₂ =>
    rw [hrun] at hbase
    cases x with
    | error m =>
      have hbroken : ((r.options slice startedAt).run (r.decisions slice startedAt)).run w = (.error m, w₂) := by
        rw [ApplyOptions.run, Act.run_bind_ok ha.run]
        exact Act.run_bind_error hrun
      refine .inl ⟨m, w₂, ?_, hbase⟩
      rw [Act.run_bind_error hbroken]
    | ok u =>
      have hdone : ((r.options slice startedAt).run (r.decisions slice startedAt)).run w =
          (.ok ⟨st.applied, st.errors, st.firstError, st.movedBytes⟩, w₂) := by
        rw [ApplyOptions.run, Act.run_bind_ok ha.run]
        exact Act.run_bind_ok hrun
      rw [Act.run_bind_ok hdone]
      generalize (buildReplicationPlan (r.planInput slice startedAt)).conflicts = conflicts
      obtain ⟨w₃, hc⟩ := recordConflicts_run r.env (startedAt / 1000) conflicts w₂
      have hconf := recordConflicts_notes r.env (startedAt / 1000) conflicts w₂
      rw [hc] at hconf
      have hto : World.Notes w₁ w₃ := trans_of World.Notes hbase hconf
      rw [Act.run_bind_ok hc]
      generalize hcall : r.env.recordRun _ _ _ _ _ _ = call
      have hrec : Act.Within World.Notes call := hcall ▸ recordRun_notes _ _ _ _ _ _ _
      have hlast := hrec w₃
      cases hend : call.run w₃ with
      | mk y w₄ =>
        rw [hend] at hlast
        have hall : World.Notes w₁ w₄ := trans_of World.Notes hto hlast
        cases y with
        | error m => exact .inl ⟨m, w₄, Act.run_bind_error hend, hall⟩
        | ok v => exact .inr ⟨_, w₄, Act.run_bind_ok hend, hall, runStatus_ok⟩

theorem trySlice_eq (r : Runner) (now startedAt : ℕ) (w : World) : (r.trySlice now startedAt).run w =
    (r.prepare now startedAt >>= fun slice => r.syncSlice slice now startedAt).run w := by
  unfold Runner.trySlice Runner.prepare
  simp only [Act.run_bind, Act.run_read]
  cases (r.reconcilePassState now).run w with
  | mk x w₁ =>
    cases x with
    | error m => rfl
    | ok resumeFrom =>
      dsimp only
      cases r.env.buildRemote.run w₁ with
      | mk y w₂ =>
        cases y with
        | error m => rfl
        | ok u =>
          dsimp only
          cases (r.probeOnce w.pass).run w₂ with
          | mk z w₃ => cases z <;> rfl

theorem runSlice_ok {result : RunResult}
    (h : (r.trySlice (r.env.clock w.calls / 1000) (r.startedAt w)).run w.tick.tick = (.ok result, w₁)) :
    r.runSlice.run w = (.ok result, w₁) := by
  have hnow : r.env.now.run w = (.ok (r.env.clock w.calls), w.tick) := rfl
  have hstart : r.env.now.run w.tick = (.ok (r.startedAt w), w.tick.tick) := rfl
  rw [Runner.runSlice, Act.run_bind_ok hnow, Act.run_bind_ok hstart, Act.run_bind, Act.run_attempt, h]
  rfl

theorem runSlice_error {reason : JsString}
    (h : (r.trySlice (r.env.clock w.calls / 1000) (r.startedAt w)).run w.tick.tick = (.error reason, w₁)) :
    r.runSlice.run w = (r.recordFailure reason).run w₁ := by
  have hnow : r.env.now.run w = (.ok (r.env.clock w.calls), w.tick) := rfl
  have hstart : r.env.now.run w.tick = (.ok (r.startedAt w), w.tick.tick) := rfl
  rw [Runner.runSlice, Act.run_bind_ok hnow, Act.run_bind_ok hstart, Act.run_bind, Act.run_attempt, h]

theorem recordFailure_status {reason : JsString} {result : RunResult} {w' : World}
    (h : (r.recordFailure reason).run w = (.ok result, w')) : result.status = .failed := by
  rw [Runner.recordFailure_eq, Act.run_bind] at h
  dsimp only [Env.now] at h
  rw [Act.run_bind, Act.run_attempt] at h
  dsimp only [Act.run_pure] at h
  have hresult := congrArg Prod.fst h
  dsimp only at hresult
  injection hresult with hresult
  rw [← hresult]

theorem decisions_nodup (r : Runner) (slice : Slice) (startedAt : ℕ) : (r.decisions slice startedAt).Nodup :=
  List.Nodup.of_map _ decisions_path_nodup

/-- A slice that is prepared, its decisions applied: either it is broken off or its report is this. -/
theorem runSlice_prepared (hp : r.Prepares w slice w₁)
    (ha : Applied (r.options slice (r.startedAt w)) (r.decisions slice (r.startedAt w)) .start w₁ st w₂) :
    (∃ m w', (r.syncSlice slice (r.env.clock w.calls / 1000) (r.startedAt w)).run w₁ = (.error m, w') ∧
        ∀ result w'', r.runSlice.run w = (.ok result, w'') → result.status = .failed) ∨
      ∃ result w', r.runSlice.run w = (.ok result, w') ∧ World.Notes w₂ w' ∧
        (∀ m w', (r.syncSlice slice (r.env.clock w.calls / 1000) (r.startedAt w)).run w₁ ≠ (.error m, w')) ∧
        (result.status = .ok ↔ st.errors = 0 ∧ slice.errors = 0 ∧ slice.complete = true) := by
  rcases @syncSlice_run r slice (r.env.clock w.calls / 1000) (r.startedAt w) w₁ w₂ st ha with
    ⟨m, w', hrun, _⟩ | ⟨result, w', hrun, hnotes, hok⟩
  · refine .inl ⟨m, w', hrun, fun result w'' h => ?_⟩
    have htry := trySlice_eq r (r.env.clock w.calls / 1000) (r.startedAt w) w.tick.tick
    rw [Act.run_bind_ok hp, hrun] at htry
    rw [runSlice_error htry] at h
    exact recordFailure_status h
  · refine .inr ⟨result, w', ?_, hnotes, fun m w'' h => ?_, hok⟩
    · apply runSlice_ok
      rw [trySlice_eq, Act.run_bind_ok hp, hrun]
    · rw [hrun] at h
      simp at h

theorem events_of_notes (ha : w.Extends w₁) (h : World.Notes w₁ w₂) {e : Event} (hc : e.isCall = false)
    (hr : e.isRemoval = false) : e ∈ World.events w w₂ ↔ e ∈ World.events w w₁ := by
  rw [World.events_trans ha h.extends, List.mem_append]
  refine ⟨fun he => he.resolve_left (fun hnew => ?_), .inr⟩
  rcases h.events hnew with h | h <;> simp_all

end Report

/-! ### A deadline that the walk uses up -/

def slowRunner : Runner where
  config := ⟨10, 5, 100, 1000, 3, false, by decide⟩
  env := { Env.calm with clock := id }
  storedMode := js "sync"
  mirrorDeletions := none
  random := fun _ => []

def unsyncedWorld : World := .ofTrees [(js "f", .file [1] 5)] []

def slowPrepare : Except JsString Slice × World :=
  (slowRunner.prepare (slowRunner.env.clock unsyncedWorld.calls / 1000) (slowRunner.startedAt unsyncedWorld)).run
    unsyncedWorld.tick.tick

end DurableDav.Replication
