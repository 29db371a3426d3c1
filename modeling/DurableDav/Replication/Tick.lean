import DurableDav.Replication.Sight

namespace DurableDav.Replication

open Library

/-! ### The stages of a tick -/

/-- Apart from the bookkeeping of the pass the two worlds hold the same. -/
structure World.Keeps (w w' : World) : Prop where
  tree : ∀ s, w'.tree s = w.tree s
  rows : w'.rows = w.rows
  log : w.Extends w'
  calls : w.calls ≤ w'.calls

instance : Silent World.Keeps where
  refl w := ⟨fun _ => rfl, rfl, refl_of World.Extends w, le_refl _⟩
  trans _ _ _ h h' := ⟨fun s => (h'.tree s).trans (h.tree s), h'.rows.trans h.rows, trans_of World.Extends h.log h'.log,
    h.calls.trans h'.calls⟩
  tick w := ⟨fun s => World.tree_tick w s, rfl, ⟨[], rfl⟩, Nat.le_succ _⟩
  note w e _ := ⟨fun s => World.tree_note w s e, rfl, ⟨[e], rfl⟩, le_refl _⟩

theorem World.Keeps.contents {w w' : World} (h : w.Keeps w') (p : JsString) : w'.contents p = w.contents p := by
  funext s
  simp only [World.contents, h.tree]

namespace Runner

variable (r : Runner)

def tick (w : World) : World := (r.runSlice.run w).2

def isOpen (w : World) : Bool :=
  w.pass.passStartedAt.any (fun openedAt => !r.isStale openedAt (r.env.clock w.calls / 1000))

/-- The cursor that the walk of the next tick goes on from. -/
def resumeFrom (w : World) : Option JsString := if r.isOpen w then w.pass.cursorPath else none

end Runner

/-- The pass is open, whether it has been before or not. -/
def World.Opens (w w' : World) : Prop := w'.pass.enabled = w.pass.enabled ∧ w'.pass.passStartedAt.isSome

section Stages

variable {r : Runner} {w w₁ w' : World} {slice : Slice}

theorem beginPass_opens {env : Env} {now : ℕ} {u : Unit} (h : (env.beginPass now).run w = (.ok u, w')) :
    w.Keeps w' ∧ w.Opens w' := by
  have hkeeps : Act.Within World.Keeps (env.beginPass now) :=
    within_call intact_within (fun _ _ w => ⟨fun s => by cases s <;> rfl, rfl, ⟨[_], rfl⟩, le_refl _⟩)
  refine ⟨hkeeps.of_run h, ?_⟩
  unfold Env.beginPass Env.call at h
  cases ha : env.answer w.calls with
  | rejects reason => simp [ha] at h
  | performs | blank | cut keep =>
    simp only [ha] at h
    obtain rfl : _ = w' := congrArg Prod.snd h
    exact ⟨rfl, rfl⟩

theorem reconcilePassState_run {cursor : Option JsString}
    (h : (r.reconcilePassState (r.env.clock w.calls / 1000)).run w.tick.tick = (.ok cursor, w')) :
    cursor = r.resumeFrom w ∧ w.Keeps w' ∧ w.Opens w' := by
  have hticks : w.Keeps w.tick.tick := trans_of World.Keeps (Observing.tick w) (Observing.tick _)
  unfold Runner.reconcilePassState at h
  rw [Act.run_bind, Act.run_read] at h
  dsimp only at h
  rw [show w.tick.tick.pass = w.pass from rfl] at h
  unfold Runner.resumeFrom Runner.isOpen
  split at h
  · rename_i hopen
    obtain ⟨rfl, rfl⟩ := Act.of_run_pure h
    rw [if_pos hopen]
    obtain ⟨openedAt, hat, _⟩ := Option.any_eq_true _ _ |>.mp hopen
    exact ⟨rfl, hticks, rfl, Option.isSome_iff_exists.mpr ⟨openedAt, hat⟩⟩
  · rename_i hopen
    obtain ⟨_, w₁, hrun, h⟩ := Act.of_run_bind h
    obtain ⟨rfl, rfl⟩ := Act.of_run_pure h
    obtain ⟨hkeeps, hopens⟩ := beginPass_opens hrun
    rw [if_neg hopen]
    exact ⟨rfl, trans_of World.Keeps hticks hkeeps, hopens⟩

theorem prepares_stages (h : r.Prepares w slice w₁) : ∃ w₀, w.Keeps w₀ ∧ w.Opens w₀ ∧
    (r.env.collectSlice r.config.slicePaths (r.startedAt w + r.config.sliceMs) (r.resumeFrom w)).run w₀ =
      (.ok slice, w₁) := by
  unfold Runner.Prepares Runner.prepare at h
  rw [Act.run_bind, Act.run_read] at h
  obtain ⟨cursor, w₂, hpass, h⟩ := Act.of_run_bind h
  obtain ⟨rfl, hkeeps, hopens⟩ := reconcilePassState_run hpass
  obtain ⟨_, w₃, hbuild, h⟩ := Act.of_run_bind h
  obtain ⟨_, w₄, hprobe, h⟩ := Act.of_run_bind h
  have hbuilt : Act.Within World.Keeps r.env.buildRemote := within_call intact_within (fun _ _ => Act.within_pure _)
  have hprobed : Act.Within World.Keeps (r.probeOnce w.tick.tick.pass) := by
    unfold Runner.probeOnce
    split
    · exact within_call intact_within (fun _ _ => Act.within_pure _)
    · exact Act.within_pure _
  have hbuiltp : Act.Within (World.Fixes World.pass) r.env.buildRemote :=
    within_call intact_within (fun _ _ => Act.within_pure _)
  have hprobedp : Act.Within (World.Fixes World.pass) (r.probeOnce w.tick.tick.pass) := by
    unfold Runner.probeOnce
    split
    · exact within_call intact_within (fun _ _ => Act.within_pure _)
    · exact Act.within_pure _
  have hsame : w₄.pass = w₂.pass := (hprobedp.of_run hprobe).trans (hbuiltp.of_run hbuild)
  refine ⟨w₄, trans_of World.Keeps hkeeps (trans_of World.Keeps (hbuilt.of_run hbuild) (hprobed.of_run hprobe)), ?_, h⟩
  unfold World.Opens
  rw [hsame]
  exact hopens

theorem recordRun_ok {env : Env} {status : RunStatus} {error cursor : Option JsString} {now maxFailures remaining : ℕ}
    {u : Unit} (h : (env.recordRun status error now maxFailures cursor remaining).run w = (.ok u, w')) :
    w.Keeps w' ∧ w'.pass = w.pass.recorded status error now maxFailures cursor remaining := by
  have hkeeps : Act.Within World.Keeps (env.recordRun status error now maxFailures cursor remaining) :=
    within_call intact_within (fun _ _ w => ⟨fun s => by cases s <;> rfl, rfl, ⟨[], rfl⟩, le_refl _⟩)
  refine ⟨hkeeps.of_run h, ?_⟩
  unfold Env.recordRun Env.call at h
  cases ha : env.answer w.calls with
  | rejects reason => simp [ha] at h
  | performs | blank | cut keep =>
    simp only [ha] at h
    obtain rfl : _ = w' := congrArg Prod.snd h
    rfl

/-- What is left of a slice when its decisions have been carried out. -/
structure Synced (r : Runner) (slice : Slice) (startedAt : ℕ) (w₁ : World) (st : ApplyState) (w₂ w₃ w' : World)
    (result : RunResult) : Prop where
  applied : Applied (r.options slice startedAt) (r.decisions slice startedAt) .start w₁ st w₂
  recorded : (r.env.recordBase st.touched).run w₂ = (.ok (), w₃)
  keeps : w₃.Keeps w'
  notes : World.Notes w₃ w'
  status : result.status = .ok ↔ st.errors = 0 ∧ slice.errors = 0 ∧ slice.complete = true
  remaining : result.remaining = slice.remaining
  pass : ∃ error now maxFailures, w'.pass = w₁.pass.recorded result.status error now maxFailures slice.cursor slice.remaining

theorem syncSlice_stages {now startedAt : ℕ} {result : RunResult}
    (h : (r.syncSlice slice now startedAt).run w₁ = (.ok result, w')) :
    ∃ st w₂ w₃, Synced r slice startedAt w₁ st w₂ w₃ w' result := by
  have hplan : (buildReplicationPlan (r.planInput slice startedAt)).decisions = r.decisions slice startedAt := rfl
  rw [Runner.syncSlice_eq, hplan] at h
  obtain ⟨st, w₂, happlied⟩ := applyAll_applied (o := r.options slice startedAt) (r.decisions slice startedAt) .start w₁
  generalize (buildReplicationPlan (r.planInput slice startedAt)).conflicts = conflicts at h
  generalize (buildReplicationPlan (r.planInput slice startedAt)).deferredPaths.length = deferred at h
  generalize hds : r.decisions slice startedAt = ds at h happlied
  obtain ⟨outcome, w₃, hrun, h⟩ := Act.of_run_bind h
  rw [ApplyOptions.run, Act.run_bind_ok happlied.run] at hrun
  obtain ⟨_, w₄, hbase, hrun⟩ := Act.of_run_bind hrun
  obtain ⟨rfl, rfl⟩ := Act.of_run_pure hrun
  obtain ⟨_, w₅, hconflicts, h⟩ := Act.of_run_bind h
  obtain ⟨_, w₆, hrecord, h⟩ := Act.of_run_bind h
  obtain ⟨rfl, rfl⟩ := Act.of_run_pure h
  have hkept : Act.Within World.Keeps (r.env.recordConflicts (startedAt / 1000) conflicts) :=
    Act.within_each (fun _ _ => Act.within_bind (Act.within_attempt
      (within_call intact_within (fun _ _ w => ⟨fun s => by cases s <;> rfl, rfl, ⟨[], rfl⟩, le_refl _⟩))) (fun _ => Act.within_pure _))
  obtain ⟨hlast, hpass⟩ := recordRun_ok hrecord
  refine ⟨st, w₂, w₄, hds ▸ happlied, hbase, trans_of World.Keeps (hkept.of_run hconflicts) hlast, ?_,
    runStatus_ok, rfl, ?_⟩
  · exact trans_of World.Notes ((recordConflicts_notes _ _ _).of_run hconflicts) ((recordRun_notes _ _ _ _ _ _ _).of_run hrecord)
  · have hconf : Act.Within (World.Fixes World.pass) (r.env.recordConflicts (startedAt / 1000) conflicts) :=
      Act.within_each (fun _ _ => Act.within_bind (Act.within_attempt
        (within_call intact_within (fun _ _ _ => rfl))) (fun _ => Act.within_pure _))
    have hbasep : Act.Within (World.Fixes World.pass) (r.env.recordBase st.touched) :=
      recordBase_within (fun _ _ => within_call intact_within (fun _ _ _ => rfl))
    have hall : Act.Within (World.Fixes World.pass) ((r.options slice startedAt).applyAll ds .start) :=
      applyAll_within (fun _ _ m _ => mutation_fixes World.pass _ m) .start
    have hsame := (hconf.of_run hconflicts).trans ((hbasep.of_run hbase).trans (hall.of_run happlied.run))
    rw [hsame] at hpass
    exact ⟨_, _, _, hpass⟩

theorem Synced.cursor {startedAt : ℕ} {st : ApplyState} {w₂ w₃ : World} {result : RunResult}
    (h : Synced r slice startedAt w₁ st w₂ w₃ w' result) : w'.pass.cursorPath = slice.cursor := by
  obtain ⟨_, _, _, hpass⟩ := h.pass
  rw [hpass]
  rfl

theorem Synced.closed {startedAt : ℕ} {st : ApplyState} {w₂ w₃ : World} {result : RunResult}
    (h : Synced r slice startedAt w₁ st w₂ w₃ w' result) (hzero : slice.remaining = 0) : w'.pass.passStartedAt = none := by
  obtain ⟨_, _, _, hpass⟩ := h.pass
  rw [hpass]
  exact if_pos (.inr hzero)

theorem trySlice_stages {result : RunResult}
    (h : (r.trySlice (r.env.clock w.calls / 1000) (r.startedAt w)).run w.tick.tick = (.ok result, w')) :
    ∃ slice w₁, r.Prepares w slice w₁ ∧ ∃ st w₂ w₃, Synced r slice (r.startedAt w) w₁ st w₂ w₃ w' result := by
  rw [trySlice_eq] at h
  obtain ⟨slice, w₁, hprepare, hsync⟩ := Act.of_run_bind h
  obtain ⟨st, w₂, w₃, hsynced⟩ := syncSlice_stages hsync
  exact ⟨slice, w₁, hprepare, st, w₂, w₃, hsynced⟩

/-- The stages of a tick that went well. -/
theorem tick_stages {result : RunResult} (h : r.runSlice.run w = (.ok result, w')) (hok : result.status = .ok) :
    ∃ slice w₁, r.Prepares w slice w₁ ∧ ∃ st w₂ w₃, Synced r slice (r.startedAt w) w₁ st w₂ w₃ w' result := by
  cases hrun : (r.trySlice (r.env.clock w.calls / 1000) (r.startedAt w)).run w.tick.tick with
  | mk x w'' =>
    cases x with
    | error reason =>
      rw [runSlice_error hrun] at h
      simp [recordFailure_status h] at hok
    | ok result' =>
      rw [runSlice_ok hrun] at h
      obtain ⟨rfl, rfl⟩ : result' = result ∧ w'' = w' := by simpa using h
      exact trySlice_stages hrun

end Stages

end DurableDav.Replication
