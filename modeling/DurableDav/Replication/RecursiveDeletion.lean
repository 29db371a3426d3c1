import DurableDav.Replication.CompleteView
import DurableDav.Replication.Removals

namespace DurableDav.Replication

open Library

def deletion : Side → JsString → ReplicationDecision
  | .localSide, p => .deleteLocal p
  | .remoteSide, p => .deleteRemote p

namespace BuildPlanInput

variable (input : BuildPlanInput)

/-- The evidence on which a plan deletes a side's resource. -/
def Deletes (s : Side) (p : JsString) : Prop :=
  (Store.get (input.index s) p).isSome ∧ Store.get (input.index s.other) p = none ∧
    input.trustAbsences = true ∧ match s with
    | .localSide => (Store.get input.baseIndex p).isSome ∧ input.mode ≠ .copyOnly ∧
        (input.mode = .pullOnly → input.mirrorDeletions = true) ∨
        Store.get input.baseIndex p = none ∧ input.mode = .pullOnly ∧ input.mirrorDeletions = true
    | .remoteSide => (Store.get input.baseIndex p).isSome ∧ input.mode ≠ .pullOnly

end BuildPlanInput

section Decisions

variable {input : BuildPlanInput} {s : Side} {p q f : JsString}

theorem deletion_mem_iff : deletion s p ∈ (buildReplicationPlan input).decisions ↔ input.Deletes s p := by
  constructor
  · intro h
    obtain ⟨_, taken, _, hg⟩ := decisions_grounds h
    cases s with
    | localSide => exact ⟨hg.2.1, hg.2.2.1, hg.2.2.2.1, hg.2.2.2.2⟩
    | remoteSide => exact ⟨hg.2.2.1, hg.2.1, hg.2.2.2.2.1, hg.2.2.2.1, hg.2.2.2.2.2⟩
  · rintro ⟨hheld, habsent, htrust, hrest⟩
    cases s with
    | localSide =>
      exact decisions_of_decideAt (mem_paths.mpr (.inl hheld))
        (fun taken => decidePath_deleteLocal hheld habsent htrust hrest)
    | remoteSide =>
      exact decisions_of_decideAt (mem_paths.mpr (.inr (.inl hheld)))
        (fun taken => decidePath_deleteRemote habsent hheld hrest.1 htrust hrest.2)

theorem unlink_true_mem_asks {d : ReplicationDecision} (h : Mutation.unlink s p true ∈ d.asks) : d = deletion s p := by
  cases d <;> cases s <;> simp_all [ReplicationDecision.asks, deletion]

/-- A file a plan writes on a side is one the other side holds, or lies beside one. -/
theorem write_mem_asks (ht : input.RandomToken) {d : ReplicationDecision}
    (hd : d ∈ (buildReplicationPlan input).decisions) (h : Mutation.write s f ∈ d.asks) :
    ∃ x, (x = f ∨ parentOf x = parentOf f) ∧ (Store.get (input.index s.other) x).isSome := by
  obtain ⟨_, taken, _, hg⟩ := decisions_grounds hd
  cases d with
  | push x ct =>
    obtain ⟨rfl, rfl⟩ : s = .remoteSide ∧ f = x := by simpa [ReplicationDecision.asks] using h
    obtain ⟨ls, hl, _⟩ := hg.2.1
    have hl' : Store.get input.localIndex f = some ls := hl
    exact ⟨f, .inl rfl, by simp [Side.other, BuildPlanInput.index, hl']⟩
  | pull x ct =>
    obtain ⟨rfl, rfl⟩ : s = .localSide ∧ f = x := by simpa [ReplicationDecision.asks] using h
    exact ⟨f, .inl rfl, hg.2.1⟩
  | keepBoth x w c =>
    obtain rfl : f = c := by
      simp only [ReplicationDecision.asks, List.mem_cons, Mutation.write.injEq, reduceCtorEq,
        List.not_mem_nil, or_false, false_or] at h
      exact h.elim And.right And.right
    obtain ⟨_, _, _, ls, rs, hl, hr, _⟩ := hg
    have hl' : Store.get input.localIndex x = some ls := hl
    have hr' : Store.get input.remoteIndex x = some rs := hr
    refine ⟨x, .inr ?_, by cases s <;> simp [Side.other, BuildPlanInput.index, hl', hr']⟩
    exact (conflictPath_beside ht hd rfl).symm
  | pullAndPreserve x c ct =>
    obtain ⟨_, _, _, hr, _⟩ := hg
    have hcase : s = .localSide ∧ (f = x ∨ f = c) := by
      simp only [ReplicationDecision.asks, List.mem_cons, Mutation.write.injEq, reduceCtorEq,
        List.not_mem_nil, or_false, false_or] at h
      exact h.elim (fun h => ⟨h.1, .inl h.2⟩) (fun h => ⟨h.1, .inr h.2⟩)
    obtain ⟨rfl, hf⟩ := hcase
    refine ⟨x, ?_, hr⟩
    rcases hf with rfl | rfl
    · exact .inl rfl
    · exact .inr (conflictPath_beside ht hd rfl).symm
  | compareContent x w =>
    obtain rfl : f = x := by
      simp only [ReplicationDecision.asks, List.mem_cons, Mutation.write.injEq, reduceCtorEq,
        List.not_mem_nil, or_false, false_or] at h
      exact h.elim And.right And.right
    obtain ⟨_, _, ls, rs, hl, hr, _⟩ := hg
    have hl' : Store.get input.localIndex f = some ls := hl
    have hr' : Store.get input.remoteIndex f = some rs := hr
    exact ⟨f, .inl rfl, by cases s <;> simp [Side.other, BuildPlanInput.index, hl', hr']⟩
  | deleteRemote x | deleteLocal x | agree x k ct | forget x => simp [ReplicationDecision.asks] at h

end Decisions

/-! ### What an executor removes -/

section Run

variable {ds : List ReplicationDecision}

def Written (ds : List ReplicationDecision) (s : Side) (f : JsString) : Prop := ∃ d ∈ ds, .write s f ∈ d.asks

def Cleared (ds : List ReplicationDecision) (s : Side) (q : JsString) : Prop := deletion s q ∈ ds

def Unlinked (ds : List ReplicationDecision) (s : Side) (f : JsString) : Prop :=
  ∃ d ∈ ds, ∃ recursive, .unlink s f recursive ∈ d.asks

theorem asks_remove_recursive {d : ReplicationDecision} {p : JsString} {recursive : Bool}
    (h : Mutation.unlink .remoteSide p recursive ∈ d.asks) : recursive = true := by
  cases d <;> simp_all [ReplicationDecision.asks]

theorem asks_removes (env : Env) {d : ReplicationDecision} (hd : d ∈ ds) {m : Mutation} (hm : m ∈ d.asks) :
    Admits (Removes (Written ds) (Cleared ds) (Unlinked ds)) env m := by
  apply mutation_removes
  · rintro s p rfl
    exact ⟨d, hd, hm⟩
  · rintro s p rfl
    have hdel : deletion s p ∈ ds := unlink_true_mem_asks hm ▸ hd
    exact hdel
  · rintro s p recursive rfl
    exact ⟨d, hd, recursive, hm⟩
  · rintro p recursive rfl
    exact asks_remove_recursive hm

theorem saveReplicaState_removes {F U X : Side → JsString → Prop} {env : Env} (records : List ReplicaStateRow)
    (forget : List JsString) : Act.Within (Removes F U X) (env.saveReplicaState records forget) := by
  refine within_call intact_within (fun _ _ w => ?_)
  have htree (s : Side) : ((Act.modify fun w : World =>
      let recorded := records.foldl (fun s row => Store.put s row.path row) w.rows
      { w with rows := Store.removeWhere recorded (fun p => p ∈ forget) } : Run Unit).run w).2.tree s = w.tree s := by
    cases s <;> rfl
  refine ⟨fun _ => id, fun s f hf => .inl ?_, fun _ _ _ => .inl, fun s f hf => .inl ?_⟩
  · unfold World.IsFile at hf ⊢
    rwa [htree] at hf
  · unfold World.IsFile at hf ⊢
    rwa [htree]

theorem applyAll_removes (o : ApplyOptions) {es : List ReplicationDecision} (hes : es ⊆ ds) (st : ApplyState) :
    Act.Within (Removes (Written ds) (Cleared ds) (Unlinked ds)) (o.applyAll es st) :=
  applyAll_within (fun _ hd _ hm => asks_removes o.env (hes hd) hm) st

theorem run_removes (o : ApplyOptions) :
    Act.Within (Removes (Written ds) (Cleared ds) (Unlinked ds)) (o.run ds) :=
  run_within (fun _ hd _ hm => asks_removes o.env hd hm) (fun _ _ => saveReplicaState_removes _ _)

/-- With time and room left, the executor comes to every decision. -/
theorem applyAll_reaches {ctx : TransferContext} {deadline : ℕ} (hclock : ∀ n, ctx.env.clock n < deadline)
    (before after : List ReplicationDecision) (d : ReplicationDecision) (st : ApplyState) (w : World) :
    ∃ room, ∀ o : ApplyOptions, o.toTransferContext = ctx → o.deadlineMs = deadline → room ≤ o.maxBytes →
      ∃ st₁ w₁ st₂, (o.applyAll before st).run w = (.ok st₁, w₁) ∧
        (o.applyAll (before ++ d :: after) st).run w =
          (o.applyAll after st₂).run ((ctx.applyDecision d).run w₁.tick).2 := by
  have total (e : ReplicationDecision) (w : World) :
      ∃ outcome w', (ctx.applyDecision e).run w = (.ok outcome, w') := by
    unfold TransferContext.applyDecision
    rw [Act.run_bind]
    dsimp only [noteEvent, Act.run_modify]
    rw [Act.run_bind, Act.run_attempt]
    dsimp only
    split
    · exact ⟨_, _, rfl⟩
    · exact ⟨_, _, rfl⟩
  have step (o : ApplyOptions) (ho : o.toTransferContext = ctx) (hd : o.deadlineMs = deadline)
      (e : ReplicationDecision) (es : List ReplicationDecision) (st : ApplyState) (w : World)
      (hroom : st.movedBytes < o.maxBytes) {outcome : Except JsString ℕ} {w' : World}
      (hrun : (ctx.applyDecision e).run w.tick = (.ok outcome, w')) :
      (o.applyAll (e :: es) st).run w = (o.applyAll es (st.settle e outcome)).run w' := by
    have hnow : ¬ (o.deadlineMs ≤ o.env.clock w.calls ∨ o.maxBytes ≤ st.movedBytes) := by
      have := hclock w.calls
      rw [← ho] at this
      omega
    rw [ApplyOptions.applyAll_cons, Act.run_bind]
    dsimp only [Env.now]
    rw [if_neg hnow]
    subst ho
    exact Act.run_bind_ok hrun
  induction before generalizing st w with
  | nil =>
    obtain ⟨outcome, w', hrun⟩ := total d w.tick
    refine ⟨st.movedBytes + 1, fun o ho hd hroom => ⟨st, w, st.settle d outcome, rfl, ?_⟩⟩
    rw [List.nil_append, step o ho hd d after st w (by omega) hrun, hrun]
  | cons e es ih =>
    obtain ⟨outcome, w', hrun⟩ := total e w.tick
    obtain ⟨room, hreach⟩ := ih (st.settle e outcome) w'
    refine ⟨max room (st.movedBytes + 1), fun o ho hd hroom => ?_⟩
    obtain ⟨st₁, w₁, st₂, hbefore, hafter⟩ := hreach o ho hd (by omega)
    refine ⟨st₁, w₁, st₂, ?_, ?_⟩
    · rw [step o ho hd e es st w (by omega) hrun, hbefore]
    · rw [List.cons_append, step o ho hd e _ st w (by omega) hrun, hafter]

end Run

/-! ### A deletion that is let through -/

section Clears

variable {env : Env} {ctx : TransferContext} {w : World} {s : Side} {q f : JsString}

theorem run_call_performs {α : Type} {c : Call} {spoil : ℕ → World → World} {body : ℕ → Answer → Run α}
    (h : env.answer w.calls = .performs) :
    (env.call c spoil body).run w = (carryOut c .performs (body w.calls .performs)).run w.tick := by
  unfold Env.call
  dsimp only
  rw [h]

theorem tree_carryOut {α : Type} (c : Call) (a : Answer) (x : Run α) (w : World) (s : Side) :
    ((carryOut c a x).run w).2.tree s = (x.run w).2.tree s := by
  rw [run_carryOut]
  cases hrun : x.run w with
  | mk r w' => cases r <;> simp

theorem tree_removal (x : Act Tree JsString Unit) (w : World) :
    ((Env.removal s q x).run w).2.tree s = (x.run (w.tree s)).2 := by
  unfold Env.removal
  rw [Act.run_bind, Act.run_read]
  dsimp only
  rw [Act.run_bind]
  cases hrun : x.run (w.tree s) with
  | mk r t' =>
    have hon : (onSide s x).run w = (r, w.setTree s t') := by simp [onSide, hrun]
    rw [hon]
    cases r with
    | error e => simp
    | ok u =>
      dsimp only
      rw [Act.run_bind, Act.run_read]
      simp [noteEvent]

theorem unlink_true (t : Tree) (hv : isValidInnerPath q = true) (hq : q ≠ []) (hdir : t.isDirectory q = true) :
    ((unlink q true).run t).2 = t.removeSubtree q := by
  unfold unlink
  rw [if_neg (by simp [hv, hq]), Act.run_bind, Act.run_read]
  simp [hdir]

theorem tree_applyDecision (d : ReplicationDecision) (w : World) :
    ((ctx.applyDecision d).run w).2.tree s = ((ctx.transfer d).run (w.note (.applies d))).2.tree s := by
  unfold TransferContext.applyDecision
  rw [Act.run_bind]
  dsimp only [noteEvent, Act.run_modify]
  rw [Act.run_bind, Act.run_attempt]
  dsimp only
  split
  · rfl
  · simp [Act.run_bind]

/-- On a sibling bucket that answers, deleting a collection leaves nothing below it. -/
theorem deletion_clears (hperforms : ∀ n, ctx.env.answer n = .performs) (hsibling : ctx.env.sibling = true)
    (hv : isValidInnerPath q = true) (hq : q ≠ []) (hdir : (w.tree s).isDirectory q = true)
    (hb : Below slash q f) : (((ctx.applyDecision (deletion s q)).run w).2.tree s).content f = none := by
  have htree : ((ctx.applyDecision (deletion s q)).run w).2.tree s = (w.tree s).removeSubtree q := by
    have hdir' (e : Event) : ((w.note e).tick.tree s).isDirectory q = true := by simpa using hdir
    rw [tree_applyDecision]
    cases s with
    | localSide =>
      have hrun : ((ctx.env.localUnlink q true).run (w.note (.applies (.deleteLocal q)))).2.tree .localSide =
          (w.tree .localSide).removeSubtree q := by
        unfold Env.localUnlink
        rw [run_call_performs (hperforms _), tree_carryOut, tree_removal, unlink_true _ hv hq (hdir' _)]
        simp
      simp only [deletion, TransferContext.transfer]
      rw [Act.run_bind]
      cases hres : (ctx.env.localUnlink q true).run (w.note (.applies (.deleteLocal q))) with
      | mk r w' =>
        rw [hres] at hrun
        cases r <;> simpa using hrun
    | remoteSide =>
      have hrun : ((ctx.env.remove q true).run (w.note (.applies (.deleteRemote q)))).2.tree .remoteSide =
          (w.tree .remoteSide).removeSubtree q := by
        unfold Env.remove
        rw [run_call_performs (hperforms _), tree_carryOut, tree_removal, hsibling, if_pos rfl,
          unlink_true _ hv hq (hdir' _)]
        simp
      simp only [deletion, TransferContext.transfer]
      rw [Act.run_bind]
      cases hres : (ctx.env.remove q true).run (w.note (.applies (.deleteRemote q))) with
      | mk r w' =>
        rw [hres] at hrun
        cases r <;> simpa using hrun
  rw [htree, Tree.content_removeSubtree, if_pos (.inr hb)]

end Clears

/-! ### The law and where it holds -/

/-- No deletion of a collection takes away a file the plan did not decide to delete. -/
def DeletesOnlyDecided (input : BuildPlanInput) (w : World) : Prop :=
  ∀ (o : ApplyOptions) (s : Side) (q : JsString) (files : List JsString),
    .removed s q files ∈ ((o.run (buildReplicationPlan input).decisions).run w).2.log →
      deletion s q ∈ (buildReplicationPlan input).decisions →
        ∀ f ∈ files, deletion s f ∈ (buildReplicationPlan input).decisions

/-- Every file below a collection to be deleted was listed, and has a row where the mode asks for one. -/
def FilesBelowDecided (input : BuildPlanInput) (w : World) (V : List JsString) : Prop :=
  ∀ s q f, input.Deletes s q → w.IsFile s f → Below slash q f →
    parentOf f ∈ V ∧ ((Store.get w.rows f).isSome ∨ input.mode = .pullOnly)

section Law

variable {input : BuildPlanInput} {w : World} {V : List JsString} {s : Side} {q f x : JsString}

theorem Deletes.listed (hv : CompleteView input w V) (h : input.Deletes s q) :
    q ≠ [] ∧ parentOf q ∈ V ∧ (w.tree s).content q ≠ none ∧ (w.tree s.other).content q = none := by
  obtain ⟨hq, hmem, hheld⟩ := hv.index_isSome.mp h.1
  refine ⟨hq, hmem, hheld, ?_⟩
  by_contra hother
  have hsome := hv.index_isSome.mpr ⟨hq, hmem, hother⟩
  simp [h.2.1] at hsome

theorem other_none (hw : w.WellFormed) (hq : q ≠ []) (habsent : (w.tree s).content q = none)
    (hb : Below slash q f) (hx : x = f ∨ parentOf x = parentOf f) : (w.tree s).content x = none := by
  by_contra hheld
  rcases hx with rfl | hx
  · have hdir := (hw s).above hheld hb hq
    rw [habsent] at hdir
    exact absurd hdir (by simp)
  · have hpar := Tree.isDirectory_iff.mp ((hw s) x hheld).2
    rw [hx] at hpar
    have hcase : q = parentOf f ∨ Below slash q (parentOf f) := hb.parent hq
    rcases hcase with rfl | hup
    · have hdir := hpar.resolve_left hq
      rw [habsent] at hdir
      exact absurd hdir (by simp)
    · have hdir := hpar.resolve_left hup.ne_nil
      have hq' := (hw s).above (by simp [hdir]) hup hq
      rw [habsent] at hq'
      exact absurd hq' (by simp)

/-- Nothing is written below a collection that the same plan deletes. -/
theorem not_written_below (ht : input.RandomToken) (hv : CompleteView input w V) (hw : w.WellFormed)
    (hdel : input.Deletes s q) (hb : Below slash q f) :
    ¬ Written (buildReplicationPlan input).decisions s f := by
  rintro ⟨d, hd, hwrite⟩
  obtain ⟨hq, _, _, habsent⟩ := Deletes.listed hv hdel
  obtain ⟨y, hy, hsome⟩ := write_mem_asks ht hd hwrite
  exact (hv.index_isSome.mp hsome).2.2 (other_none hw hq habsent hb hy)

theorem deletes_below (hv : CompleteView input w V) (hw : w.WellFormed) (hdel : input.Deletes s q)
    (hfile : w.IsFile s f) (hb : Below slash q f) (hlisted : parentOf f ∈ V)
    (hrow : (Store.get w.rows f).isSome ∨ input.mode = .pullOnly) : input.Deletes s f := by
  obtain ⟨hq, _, _, habsent⟩ := Deletes.listed hv hdel
  obtain ⟨data, hdata⟩ := hfile
  have hbase : (Store.get input.baseIndex f).isSome ↔ (Store.get w.rows f).isSome := by
    rw [hv.base f]
    exact ⟨fun h => h.2.2, fun h => ⟨hb.ne_nil, hlisted, h⟩⟩
  refine ⟨hv.index_isSome.mpr ⟨hb.ne_nil, hlisted, by simp [hdata]⟩, ?_, hv.trusted, ?_⟩
  · have hnone : ¬ (Store.get (input.index s.other) f).isSome := by
      rw [hv.index_isSome]
      exact fun h => h.2.2 (other_none hw hq habsent hb (.inl rfl))
    simpa using hnone
  · obtain ⟨_, _, _, hrest⟩ := hdel
    cases s with
    | remoteSide => exact ⟨hbase.mpr (hrow.resolve_right hrest.2), hrest.2⟩
    | localSide =>
      dsimp only at hrest ⊢
      cases hbf : Store.get input.baseIndex f with
      | some b =>
        left
        rcases hrest with ⟨_, hcopy, hpull⟩ | ⟨_, hpull, hmirror⟩
        · exact ⟨rfl, hcopy, hpull⟩
        · exact ⟨rfl, by simp [hpull], fun _ => hmirror⟩
      | none =>
        right
        have hnorow : ¬ (Store.get w.rows f).isSome := by
          rw [← hbase, hbf]
          simp
        have hpull := hrow.resolve_left hnorow
        rcases hrest with ⟨_, _, hmirror⟩ | ⟨_, _, hmirror⟩
        · exact ⟨rfl, hpull, hmirror hpull⟩
        · exact ⟨rfl, hpull, hmirror⟩

theorem deletesOnlyDecided_of_below (ht : input.RandomToken) (hv : CompleteView input w V) (hw : w.WellFormed)
    (hlog : w.log = []) (hbelow : FilesBelowDecided input w V) : DeletesOnlyDecided input w := by
  intro o s q files hevent hdel f hf
  have hdeletes : input.Deletes s q := deletion_mem_iff.mp hdel
  rcases (run_removes o w).removed s q files hevent with hold | hnew
  · simp [hlog] at hold
  · obtain ⟨_, hb, hfile⟩ := hnew f hf
    have hfile' := hfile.resolve_right (not_written_below ht hv hw hdeletes hb)
    obtain ⟨hlisted, hrow⟩ := hbelow s q f hdeletes hfile' hb
    exact deletion_mem_iff.mpr (deletes_below hv hw hdeletes hfile' hb hlisted hrow)

theorem not_unlinked (hv : CompleteView input w V) (hw : w.WellFormed) (hdel : input.Deletes s q)
    (hb : Below slash q f) (hnot : ¬ input.Deletes s f) :
    ¬ Unlinked (buildReplicationPlan input).decisions s f := by
  rintro ⟨d, hd, recursive, hm⟩
  obtain ⟨hq, _, _, habsent⟩ := Deletes.listed hv hdel
  cases recursive with
  | true => exact hnot (deletion_mem_iff.mp (unlink_true_mem_asks hm ▸ hd))
  | false =>
    obtain ⟨_, taken, _, hg⟩ := decisions_grounds hd
    cases d with
    | pullAndPreserve p c ct =>
      obtain ⟨rfl, rfl⟩ : s = .localSide ∧ f = p := by simpa [ReplicationDecision.asks] using hm
      have hsome : (Store.get (input.index (Side.other .localSide)) f).isSome := hg.2.2.2.1
      exact (hv.index_isSome.mp hsome).2.2 (other_none hw hq habsent hb (.inl rfl))
    | _ => simp [ReplicationDecision.asks] at hm

theorem run_keeps_log (o : ApplyOptions) (ds : List ReplicationDecision) (w : World) :
    ∀ e ∈ ((o.applyAll ds .start).run w).2.log, e ∈ ((o.run ds).run w).2.log := by
  intro e he
  unfold ApplyOptions.run
  rw [Act.run_bind]
  cases hrun : (o.applyAll ds .start).run w with
  | mk r w' =>
    rw [hrun] at he
    cases r with
    | error m => exact he
    | ok st =>
      have hrest : Act.Within (Removes (fun _ _ => False) (fun _ _ => False) (fun _ _ => False))
          (do
            o.env.recordBase st.touched
            pure ⟨st.applied, st.errors, st.firstError, st.movedBytes⟩ : Run ApplyOutcome) :=
        Act.within_bind (recordBase_within (fun _ _ => saveReplicaState_removes _ _)) (fun _ => Act.within_pure _)
      exact (hrest w').keeps_log e he

theorem below_of_deletesOnlyDecided (hv : CompleteView input w V) (hw : w.WellFormed) (hlog : w.log = [])
    (hlaw : DeletesOnlyDecided input w) : FilesBelowDecided input w V := by
  intro s q f hdel hfile hb
  by_contra hnot
  have hkept : ¬ input.Deletes s f := by
    intro hdf
    apply hnot
    refine ⟨(Deletes.listed hv hdf).2.1, ?_⟩
    have hrow : (Store.get input.baseIndex f).isSome → (Store.get w.rows f).isSome := fun h => ((hv.base f).mp h).2.2
    obtain ⟨_, _, _, hrest⟩ := hdf
    cases s with
    | remoteSide => exact .inl (hrow hrest.1)
    | localSide => exact hrest.elim (fun h => .inl (hrow h.1)) (fun h => .inr h.2.1)
  obtain ⟨hq, _, _, _⟩ := Deletes.listed hv hdel
  have hx : ¬ Unlinked (buildReplicationPlan input).decisions s f := not_unlinked hv hw hdel hb hkept
  have hmem : ∀ s p, deletion s p ∈ (buildReplicationPlan input).decisions ↔ input.Deletes s p :=
    fun _ _ => deletion_mem_iff
  unfold DeletesOnlyDecided at hlaw
  generalize (buildReplicationPlan input).decisions = ds at hx hmem hlaw
  obtain ⟨before, after, hsplit⟩ := List.append_of_mem ((hmem s q).mpr hdel)
  let ctx : TransferContext := ⟨.calm, input.slice⟩
  have hctx : ∀ n, ctx.env.clock n < 1 := fun _ => Nat.zero_lt_one
  obtain ⟨room, hreach⟩ := applyAll_reaches hctx before after (deletion s q) .start w
  let o : ApplyOptions := ⟨ctx, 1, room⟩
  obtain ⟨st₁, w₁, st₂, hbefore, hall⟩ := hreach o rfl rfl (le_refl _)
  set w₂ := ((ctx.applyDecision (deletion s q)).run w₁.tick).2 with hw₂
  have hto : Removes (Written ds) (Cleared ds) (Unlinked ds) w w₁ := by
    have hsub : before ⊆ ds := fun d hd => by rw [hsplit]; simp [hd]
    have h := applyAll_removes o hsub .start w
    rwa [hbefore] at h
  have hstep : Removes (Written ds) (Cleared ds) (Unlinked ds) w₁ w₂ := by
    have hone : Act.Within (Removes (Written ds) (Cleared ds) (Unlinked ds)) (ctx.applyDecision (deletion s q)) :=
      applyDecision_within (fun m hm => asks_removes _ (by rw [hsplit]; simp) hm)
    exact Removes.trans (Observing.tick w₁) (hone w₁.tick)
  -- once `q` is deleted the file is gone, so some removal has noted it
  have hnoted : ∃ q' fs, .removed s q' fs ∈ w₂.log ∧ f ∈ fs := by
    rcases hto.gone s f hfile with hfile₁ | hfile₁ | ⟨q', fs, he, hm⟩
    · have hform : w₁.WellFormed := by
        have h : ((o.applyAll before .start).run w).2.WellFormed := applyAll_wellFormed hw
        rwa [hbefore] at h
      obtain ⟨data, hdata⟩ := hfile₁
      have hdir : (w₁.tick.tree s).isDirectory q = true := by
        rw [World.tree_tick, Tree.isDirectory_iff]
        exact .inr ((hform s).above (by simp [hdata]) hb hq)
      have hcalm : ∀ n, ctx.env.answer n = .performs := fun _ => rfl
      have hclear := deletion_clears hcalm rfl (hv.valid s q hdel.1) hq hdir hb
      rcases hstep.gone s f ⟨data, hdata⟩ with ⟨data', hd'⟩ | h | h
      · rw [hclear] at hd'
        exact absurd hd' (by simp)
      · exact absurd h hx
      · exact h
    · exact absurd hfile₁ hx
    · exact ⟨q', fs, hstep.keeps_log _ he, hm⟩
  obtain ⟨q', fs, he, hm⟩ := hnoted
  have hcleared : deletion s q' ∈ ds := by
    rcases (hto.trans hstep).removed s q' fs he with hold | hnew
    · simp [hlog] at hold
    · exact (hnew f hm).1
  have hfinal : .removed s q' fs ∈ ((o.run ds).run w).2.log := by
    apply run_keeps_log
    have hsub : after ⊆ ds := fun d hd => by rw [hsplit]; simp [hd]
    have hend := (applyAll_removes o hsub st₂ w₂).keeps_log _ he
    rw [← hall, ← hsplit] at hend
    exact hend
  exact hkept ((hmem s f).mp (hlaw o s q' fs hfinal hcleared f hm))

end Law

/-! ### Runs -/

def nestedRow (path : JsString) (isCollection : Bool) : ReplicaStateRow :=
  ⟨⟨path, isCollection, none, none, some 0, none, none, some 0, none⟩, 0⟩

-- the other side deleted `d`, and `d/g` was created here since
def nestedWorld : World :=
  { World.ofTrees [(js "d", .directory), (js "d/f", .file [0] 1), (js "d/g", .file [1] 2)] [] with
    rows := [(js "d", nestedRow (js "d") true), (js "d/f", nestedRow (js "d/f") false)] }

def nestedInput : BuildPlanInput := nestedWorld.view [[], js "d"] .sync

def rejectedPush : Env :=
  { Env.calm with answer := fun n => if n = 2 then .rejects (js "PUT") else .performs }

end DurableDav.Replication
