import DurableDav.Replication.Preserving
import DurableDav.Replication.Tick

namespace DurableDav.Replication

open Library

/-! ### The rows of a plan -/

/-- The side that the row of a decision names. -/
def ReplicationDecision.winner (mode : ReplicationMode) : ReplicationDecision → Option Side
  | .push _ _ | .keepBoth _ _ _ => some .localSide
  | .pull _ _ | .pullAndPreserve _ _ _ | .deleteRemote _ => some .remoteSide
  | .deleteLocal _ => if mode = .pullOnly then some .remoteSide else some .localSide
  | _ => none

section Rows

variable {input : BuildPlanInput} {c : PlanConflict} {d : ReplicationDecision}

theorem decidePath_winner {taken : List JsString} {p : JsString} {l r : Option PlanSide} {b : Option PlanBase}
    {e : ReplicationDecision × Bool} (h : (decidePath input taken p l r b).conflict = some c)
    (hd : (decidePath input taken p l r b).decision = some e) : e.1.winner input.mode = some c.winner := by
  unfold decidePath decideGone decideNewLocal decideNewRemote decideBothNew decideOneSided decideBoth
    preserveBoth preserveLocal applyWinner Verdict.emit Verdict.emitWith Verdict.skip Verdict.defer at h hd
  split at h <;> grind [ReplicationDecision.winner]

theorem decidePath_deletion {taken : List JsString} {p : JsString} {l r : Option PlanSide} {b : Option PlanBase}
    {e : ReplicationDecision × Bool} (hd : (decidePath input taken p l r b).decision = some e)
    (hdel : e.1.isDeletion = true) : ∃ c, (decidePath input taken p l r b).conflict = some c ∧ c.path = p ∧
      c.kind = .deletion := by
  unfold decidePath decideGone decideNewLocal decideNewRemote decideBothNew decideOneSided decideBoth
    preserveBoth preserveLocal applyWinner Verdict.emit Verdict.emitWith Verdict.skip Verdict.defer at hd ⊢
  split at hd <;> grind [ReplicationDecision.isDeletion]

/-- The decision behind a row. -/
structure Explained (input : BuildPlanInput) (d : ReplicationDecision) (c : PlanConflict) : Prop where
  planned : d ∈ (buildReplicationPlan input).decisions
  path : d.path = c.path
  kept : d.conflictPath = c.conflictPath
  deletion : c.kind = .deletion ↔ d.isDeletion = true
  winner : d.winner input.mode = some c.winner

theorem row_explained (h : c ∈ (buildReplicationPlan input).conflicts) : ∃ d, Explained input d c := by
  obtain ⟨v, hv, hc⟩ := List.mem_filterMap.mp h
  obtain ⟨p, hp, taken, ht, rfl⟩ := mem_walkPaths hv
  obtain ⟨hpath, e, hd, hkept, hkind⟩ := decidePath_conflict hc
  refine ⟨e.1, mem_decisions.mpr ⟨_, hv, e.2, hd⟩, ?_, hkept.symm, hkind, decidePath_winner hc hd⟩
  rw [hpath, (decidePath_grounds hd).path]

theorem row_of_deletion (h : d ∈ (buildReplicationPlan input).decisions) (hdel : d.isDeletion = true) :
    ∃ c ∈ (buildReplicationPlan input).conflicts, Explained input d c := by
  obtain ⟨v, hv, k, hd⟩ := mem_decisions.mp h
  obtain ⟨p, hp, taken, ht, rfl⟩ := mem_walkPaths hv
  obtain ⟨c, hc, hpath, hkind⟩ := decidePath_deletion hd hdel
  have hrow : c ∈ (buildReplicationPlan input).conflicts := List.mem_filterMap.mpr ⟨_, hv, hc⟩
  obtain ⟨e, he⟩ := row_explained hrow
  have hsame : e = d := decision_unique he.planned h (by rw [he.path, hpath, (decidePath_grounds hd).path])
  exact ⟨c, hrow, hsame ▸ he⟩

theorem row_of_copy {k : JsString} (h : d ∈ (buildReplicationPlan input).decisions) (hk : d.conflictPath = some k) :
    ∃ c ∈ (buildReplicationPlan input).conflicts, Explained input d c := by
  obtain ⟨c, hrow, hpath, _⟩ := conflict_of_conflictPath h hk
  obtain ⟨e, he⟩ := row_explained hrow
  exact ⟨c, hrow, decision_unique he.planned h (he.path.trans hpath) ▸ he⟩

theorem walkPaths_conflicts_sublist (ps taken : List JsString) :
    (((walkPaths input ps taken).filterMap Verdict.conflict).map PlanConflict.path).Sublist ps := by
  induction ps generalizing taken with
  | nil => simp [walkPaths]
  | cons p ps ih =>
    cases hc : (decideAt input taken p).conflict with
    | none => simpa [walkPaths, hc] using (ih _).cons p
    | some c =>
      have hp : c.path = p := (decidePath_conflict hc).1
      simpa [walkPaths, hc, hp] using ih _

theorem row_unique {c' : PlanConflict} (h : c ∈ (buildReplicationPlan input).conflicts)
    (h' : c' ∈ (buildReplicationPlan input).conflicts) (hpath : c.path = c'.path) : c = c' :=
  List.inj_on_of_nodup_map (paths_nodup.sublist (walkPaths_conflicts_sublist _ _)) h h' hpath

end Rows

/-! ### What a slice has done, and what it says of it -/

namespace ApplyOptions

/-- The decisions that the loop comes to, each with the world it finds. -/
def begun (o : ApplyOptions) : List ReplicationDecision → ApplyState → World → List (ReplicationDecision × World)
  | [], _, _ => []
  | d :: ds, st, w =>
    if o.deadlineMs ≤ o.env.clock w.calls ∨ o.maxBytes ≤ st.movedBytes then []
    else (d, w.tick.note (.applies d)) :: match (o.applyDecision d).run w.tick with
      | (.ok outcome, w') => begun o ds (st.settle d outcome) w'
      | (.error _, _) => []

end ApplyOptions

/-- The calls that put a copy of a version at the conflict path. -/
def ReplicationDecision.copies : ReplicationDecision → List Call
  | .keepBoth _ _ k =>
    [.mkdir .remoteSide k, .mkdir .localSide k, .write .localSide k, .write .remoteSide k]
  | .pullAndPreserve _ k _ => [.write .localSide k]
  | _ => []

/-- One of the calls was carried out between the two worlds. -/
def World.Answers (cs : List Call) (w w' : World) : Prop := ∃ c ∈ cs, .answered c ∈ World.events w w'

namespace TransferContext

variable (ctx : TransferContext) (d : ReplicationDecision) (w : World)

def after : World := ((ctx.transfer d).run w).2

def Removed : Prop := d.isDeletion = true ∧ ∃ n, ((ctx.transfer d).run w).1 = .ok n

def Copied (k : JsString) : Prop := d.conflictPath = some k ∧ w.Answers d.copies (ctx.after d w)

end TransferContext

/-- The rows are what the steps have destroyed and kept. -/
structure TrueAudit (ctx : TransferContext) (planned : World) (steps : List (ReplicationDecision × World))
    (rows : List ConflictRow) : Prop where
  deletions : ∀ p, (∃ row ∈ rows, row.kind = .deletion ∧ row.path = p) ↔
    ∃ s ∈ steps, s.1.path = p ∧ ctx.Removed s.1 s.2
  copies : ∀ p k, (∃ row ∈ rows, row.kind = .conflict ∧ row.path = p ∧ row.conflictPath = some k) ↔
    ∃ s ∈ steps, s.1.path = p ∧ ctx.Copied s.1 s.2 k
  winners : ∀ row ∈ rows, ∀ s ∈ steps, s.1.path = row.path →
    (ctx.after s.1 s.2).contents row.path row.winner = planned.contents row.path row.winner

/-- The rows that were added between two worlds of one run. -/
def World.audited (w w' : World) : List ConflictRow := w'.conflicts.take (w'.conflicts.length - w.conflicts.length)

namespace Runner

variable (r : Runner) (slice : Slice) (startedAt : ℕ) (w : World)

def steps : List (ReplicationDecision × World) :=
  (r.options slice startedAt).begun (r.decisions slice startedAt) .start w

def conflicts : List PlanConflict := (buildReplicationPlan (r.planInput slice startedAt)).conflicts

/-- The number of the call that records the first row, if the slice gets there. -/
def rowsFrom : Option ℕ :=
  match ((r.options slice startedAt).run (r.decisions slice startedAt)).run w with
  | (.ok _, w') => some w'.calls
  | (.error _, _) => none

/-- The call that records the row is answered. -/
def Records (c : PlanConflict) : Prop :=
  ∃ n i, r.rowsFrom slice startedAt w = some n ∧ (r.conflicts slice startedAt)[i]? = some c ∧
    (r.env.answer (n + i)).fails = false

def AuditsTruly : Prop :=
  ∀ slice w₁, r.Prepares w slice w₁ → TrueAudit (r.options slice (r.startedAt w)).toTransferContext w₁
    (r.steps slice (r.startedAt w) w₁) (w₁.audited (r.runSlice.run w).2)

end Runner

section Recording

variable {r : Runner} {slice : Slice} {now startedAt : ℕ} {w w₁ w₂ : World}

theorem audited_eq {rows : List ConflictRow} (h : w₁.conflicts = rows ++ w.conflicts) : w.audited w₁ = rows := by
  unfold World.audited
  rw [h, List.length_append, Nat.add_sub_cancel, List.take_left]

theorem conflicts_setTree (w : World) (s : Side) (t : Tree) : (w.setTree s t).conflicts = w.conflicts := by
  cases s <;> rfl

instance : World.Aside World.conflicts := ⟨conflicts_setTree, fun _ => rfl, fun _ _ => rfl⟩

theorem run_fixes_conflicts (o : ApplyOptions) (ds : List ReplicationDecision) :
    Act.Within (World.Fixes World.conflicts) (o.run ds) :=
  run_within (fun _ _ m _ => mutation_fixes World.conflicts o.env m)
    (fun _ _ => within_call intact_within (fun _ _ _ => rfl))

theorem recordRun_fixes_conflicts (env : Env) (status : RunStatus) (error : Option JsString) (now maxFailures : ℕ)
    (cursor : Option JsString) (remaining : ℕ) : Act.Within (World.Fixes World.conflicts)
      (env.recordRun status error now maxFailures cursor remaining) :=
  within_call intact_within (fun _ _ _ => rfl)

theorem recordFailure_fixes_conflicts (r : Runner) (reason : JsString) :
    Act.Within (World.Fixes World.conflicts) (r.recordFailure reason) :=
  Act.within_bind within_now fun _ =>
    Act.within_bind (Act.within_attempt (recordRun_fixes_conflicts _ _ _ _ _ _ _)) fun _ => Act.within_pure _

theorem recordConflict_run (env : Env) (now : ℕ) (c : PlanConflict) (w : World) : ∃ x w',
    (env.recordConflict now c).run w = (x, w') ∧ w'.calls = w.calls + 1 ∧
      w'.conflicts = (if (env.answer w.calls).fails then [] else [⟨c, now⟩]) ++ w.conflicts := by
  refine ⟨_, _, rfl, ?_⟩
  cases env.answer w.calls with
  | rejects reason => exact ⟨rfl, rfl⟩
  | performs | blank | cut keep => exact ⟨rfl, rfl⟩

theorem recordConflicts_adds (env : Env) (now : ℕ) (cs : List PlanConflict) (w : World) : ∃ rows w',
    (env.recordConflicts now cs).run w = (.ok (), w') ∧ w'.conflicts = rows ++ w.conflicts ∧
      ∀ row, row ∈ rows ↔ row.createdAt = now ∧ ∃ i, cs[i]? = some row.toPlanConflict ∧
        (env.answer (w.calls + i)).fails = false := by
  induction cs generalizing w with
  | nil => exact ⟨[], w, rfl, rfl, by simp⟩
  | cons c cs ih =>
    obtain ⟨x, w₁, hrun, hcalls, hadds⟩ := recordConflict_run env now c w
    obtain ⟨rows, w', hrest, hrows, hmem⟩ := ih w₁
    refine ⟨rows ++ if (env.answer w.calls).fails then [] else [⟨c, now⟩], w', ?_, ?_, fun row => ?_⟩
    · have hfirst : (do
          let _ ← (env.recordConflict now c).attempt
          pure () : Run Unit).run w = (.ok (), w₁) := by
        rw [Act.run_bind, Act.run_attempt, hrun]
        rfl
      exact (Act.run_bind_ok hfirst).trans hrest
    · rw [hrows, hadds, List.append_assoc]
    · rw [List.mem_append, hmem, hcalls]
      have hhead : row ∈ (if (env.answer w.calls).fails = true then [] else [(⟨c, now⟩ : ConflictRow)]) ↔
          row.createdAt = now ∧ c = row.toPlanConflict ∧ (env.answer w.calls).fails = false := by
        obtain ⟨row, at'⟩ := row
        cases (env.answer w.calls).fails <;> simp [and_comm, eq_comm]
      rw [hhead]
      constructor
      · rintro (⟨hnow, i, hi, ha⟩ | ⟨hnow, hc, ha⟩)
        · exact ⟨hnow, i + 1, by simpa using hi, by rwa [← Nat.add_assoc, Nat.add_right_comm]⟩
        · exact ⟨hnow, 0, by simpa using hc, by simpa using ha⟩
      · rintro ⟨hnow, i, hi, ha⟩
        cases i with
        | zero => exact .inr ⟨hnow, by simpa using hi, by simpa using ha⟩
        | succ i => exact .inl ⟨hnow, i, by simpa using hi, by rwa [Nat.add_right_comm, Nat.add_assoc]⟩

theorem syncSlice_adds : ∃ rows, ((r.syncSlice slice now startedAt).run w).2.conflicts = rows ++ w.conflicts ∧
    ∀ row, row ∈ rows ↔ row.createdAt = startedAt / 1000 ∧ r.Records slice startedAt w row.toPlanConflict := by
  have hdecisions : (buildReplicationPlan (r.planInput slice startedAt)).decisions = r.decisions slice startedAt := rfl
  have hconflicts : (buildReplicationPlan (r.planInput slice startedAt)).conflicts = r.conflicts slice startedAt := rfl
  have hfixes := run_fixes_conflicts (r.options slice startedAt) (r.decisions slice startedAt) w
  unfold Runner.Records Runner.rowsFrom
  rw [Runner.syncSlice_eq, hdecisions, hconflicts]
  cases hrun : ((r.options slice startedAt).run (r.decisions slice startedAt)).run w with
  | mk x w₁ =>
    rw [hrun] at hfixes
    cases x with
    | error m =>
      rw [Act.run_bind_error hrun]
      exact ⟨[], hfixes, by simp⟩
    | ok outcome =>
      obtain ⟨rows, w₂, hrecord, hrows, hmem⟩ :=
        recordConflicts_adds r.env (startedAt / 1000) (r.conflicts slice startedAt) w₁
      rw [Act.run_bind_ok hrun, Act.run_bind_ok hrecord]
      have hlast := Act.within_bind (recordRun_fixes_conflicts r.env (Runner.runStatus slice outcome)
        ((Runner.runError slice outcome).map (fun e => e.take truncatedErrorLength)) now r.config.maxFailures slice.cursor
        slice.remaining) (fun _ => Act.within_pure (⟨Runner.runStatus slice outcome, Runner.runError slice outcome,
          slice.remaining, (buildReplicationPlan (r.planInput slice startedAt)).deferredPaths.length⟩ : RunResult)) w₂
      refine ⟨rows, hlast.trans (hrows.trans (congrArg (rows ++ ·) hfixes)), fun row => ?_⟩
      rw [hmem]
      simp only [Option.some.injEq]
      constructor
      · rintro ⟨hnow, i, hi, ha⟩
        exact ⟨hnow, _, i, rfl, hi, ha⟩
      · rintro ⟨hnow, n, i, rfl, hi, ha⟩
        exact ⟨hnow, i, hi, ha⟩

/-- The rows a slice adds are those whose calls are answered. -/
theorem audited_rows (hp : r.Prepares w slice w₁) (row : ConflictRow) : row ∈ w₁.audited (r.runSlice.run w).2 ↔
    row.createdAt = r.startedAt w / 1000 ∧ r.Records slice (r.startedAt w) w₁ row.toPlanConflict := by
  obtain ⟨rows, hrows, hmem⟩ :=
    @syncSlice_adds r slice (r.env.clock w.calls / 1000) (r.startedAt w) w₁
  have htry := trySlice_eq r (r.env.clock w.calls / 1000) (r.startedAt w) w.tick.tick
  rw [Act.run_bind_ok hp] at htry
  have hend : (r.runSlice.run w).2.conflicts = rows ++ w₁.conflicts := by
    cases hsync : (r.syncSlice slice (r.env.clock w.calls / 1000) (r.startedAt w)).run w₁ with
    | mk x w' =>
      rw [hsync] at htry hrows
      cases x with
      | error reason =>
        rw [runSlice_error htry]
        exact (recordFailure_fixes_conflicts r reason w').trans hrows
      | ok result =>
        rw [runSlice_ok htry]
        exact hrows
  rw [audited_eq hend, hmem]

end Recording

end DurableDav.Replication
