import DurableDav.Replication.Settling

namespace DurableDav.Replication

open Library

def World.contents (w : World) (p : JsString) : Side → Option (Option Bytes) := fun s => (w.tree s).content p

theorem World.holds_iff {w : World} {p : JsString} {c : Side → Option (Option Bytes)} :
    w.Holds p c ↔ w.contents p = c := funext_iff.symm

section Step

variable {input : BuildPlanInput} {ctx : TransferContext} {d : ReplicationDecision} {w : World} {p : JsString}

theorem applyDecision_run (ctx : TransferContext) (d : ReplicationDecision) (w : World) :
    (∃ n w', (ctx.transfer d).run (w.note (.applies d)) = (.ok n, w') ∧
      (ctx.applyDecision d).run w = (.ok (.ok n), w')) ∨
    ∃ m w', (ctx.transfer d).run (w.note (.applies d)) = (.error m, w') ∧
      (ctx.applyDecision d).run w = (.ok (.error m), w'.note (.failed d)) := by
  unfold TransferContext.applyDecision
  rw [Act.run_bind]
  dsimp only [noteEvent, Act.run_modify]
  rw [Act.run_bind, Act.run_attempt]
  dsimp only
  cases hrun : (ctx.transfer d).run (w.note (.applies d)) with
  | mk r w' =>
    cases r with
    | ok n => exact .inl ⟨n, w', rfl, rfl⟩
    | error m => exact .inr ⟨m, w', rfl, rfl⟩

/-- What one decision does at its own path, and what the log tells of it. -/
structure StepAt (env : Env) (d : ReplicationDecision) (w w' : World) : Prop where
  applies : .applies d ∈ w'.log
  keeps_log : ∀ e ∈ w.log, e ∈ w'.log
  failed : ∀ e, .failed e ∈ w'.log → .failed e ∈ w.log ∨ e = d
  ends : Settled d.path (w.contents d.path) (fun w' => Idle env (w.contents d.path) w'.log d) w' ∧
      (.failed d ∈ w'.log → .failed d ∈ w.log) ∨
    .failed d ∈ w'.log ∧ Left d.path (w.contents d.path) w' ∧
      (d.conflictPath = none → w'.Holds d.path (w.contents d.path))

theorem applyDecision_stepAt (hs : Serves ctx input) (ht : input.RandomToken)
    (hvalid : ∀ s p, (Store.get (input.index s) p).isSome → isValidInnerPath p = true)
    (hd : d ∈ (buildReplicationPlan input).decisions) (hlive : Live input (w.contents d.path) d) :
    StepAt ctx.env d w ((ctx.applyDecision d).run w).2 := by
  have hmeets := transfer_meets hs ht hvalid hd hlive
  have hstart : (w.note (.applies d)).Holds d.path (w.contents d.path) := by
    rw [World.holds_note, World.holds_iff]
  have hnotes := transfer_notes ctx d (w.note (.applies d))
  have hold {e : Event} (he : e ∈ w.log) : e ∈ (w.note (.applies d)).log := List.mem_cons_of_mem _ he
  have hfresh {e : ReplicationDecision} (he : .failed e ∈ (w.note (.applies d)).log) : .failed e ∈ w.log := by
    simpa [World.note] using he
  rcases applyDecision_run ctx d w with ⟨n, w', hrun, happly⟩ | ⟨m, w', hrun, happly⟩
  · rw [hrun] at hnotes
    rw [happly]
    have hback {e : ReplicationDecision} (he : .failed e ∈ w'.log) : .failed e ∈ w.log :=
      hfresh (hnotes.mem_of_decision rfl rfl he)
    exact ⟨hnotes.mem_log List.mem_cons_self, fun e he => hnotes.mem_log (hold he), fun e he => .inl (hback he),
      .inl ⟨hmeets.ok hstart hrun, hback⟩⟩
  · rw [hrun] at hnotes
    rw [happly]
    obtain ⟨hleft, hholds⟩ := hmeets.error hstart hrun
    refine ⟨List.mem_cons_of_mem _ (hnotes.mem_log List.mem_cons_self),
      fun e he => List.mem_cons_of_mem _ (hnotes.mem_log (hold he)), ?_, .inr ⟨List.mem_cons_self, ?_, ?_⟩⟩
    · intro e he
      rcases List.mem_cons.mp he with h | h
      · exact .inr (by simpa using h)
      · exact .inl (hfresh (hnotes.mem_of_decision rfl rfl h))
    · unfold Left at hleft ⊢
      simpa using hleft
    · intro hnone
      simpa using hholds hnone

theorem applyDecision_moves (ctx : TransferContext) (d : ReplicationDecision) (w : World) :
    World.Moves d.Targets w ((ctx.applyDecision d).run w).2 :=
  applyDecision_within (fun m hm => mutation_moves (fun _ _ hr => ⟨m, hm, hr⟩)) w

theorem applyDecision_wellFormed (h : w.WellFormed) : ((ctx.applyDecision d).run w).2.WellFormed := fun s =>
  applyDecision_within (fun m _ => mutation_keepsForm ctx.env m) w s (h s)

/-- A transfer changes its path or the copy beside it, on a side whose other side lists the path. -/
theorem target_of_transfer (hd : d ∈ (buildReplicationPlan input).decisions) (hdel : d.isDeletion = false)
    {s : Side} {q : JsString} (h : d.Targets s q) :
    (q = d.path ∨ d.conflictPath = some q) ∧ (Store.get (input.index s.other) d.path).isSome := by
  obtain ⟨_, taken, _, hg⟩ := decisions_grounds hd
  obtain ⟨m, hm, hreach⟩ := h
  have both {l r : PlanSide} (hl : Store.get input.localIndex d.path = some l)
      (hr : Store.get input.remoteIndex d.path = some r) : (Store.get (input.index s.other) d.path).isSome := by
    cases s <;> simp [Side.other, BuildPlanInput.index, hl, hr]
  cases d with
  | push x ct =>
    obtain ⟨l, hl, _⟩ := hg.2.1
    have hl' : Store.get input.localIndex x = some l := hl
    simp only [ReplicationDecision.asks, List.mem_cons, List.not_mem_nil, or_false] at hm
    rcases hm with rfl | rfl <;> obtain ⟨rfl, rfl⟩ := hreach <;>
      exact ⟨.inl rfl, by simp [Side.other, BuildPlanInput.index, ReplicationDecision.path, hl']⟩
  | pull x ct =>
    have hr : (Store.get input.remoteIndex x).isSome := hg.2.1
    simp only [ReplicationDecision.asks, List.mem_cons, List.not_mem_nil, or_false] at hm
    rcases hm with rfl | rfl <;> obtain ⟨rfl, rfl⟩ := hreach <;> exact ⟨.inl rfl, hr⟩
  | deleteRemote x | deleteLocal x => simp [ReplicationDecision.isDeletion] at hdel
  | keepBoth x w c =>
    obtain ⟨_, _, _, l, r, hl, hr, _⟩ := hg
    simp only [ReplicationDecision.asks, List.mem_cons, List.not_mem_nil, or_false] at hm
    rcases hm with rfl | rfl | rfl | rfl <;> exact ⟨.inr (congrArg some hreach.2.symm), both hl hr⟩
  | pullAndPreserve x c ct =>
    obtain ⟨_, _, _, hr, l, hl, _⟩ := hg
    obtain ⟨r, hr⟩ := Option.isSome_iff_exists.mp hr
    simp only [ReplicationDecision.asks, List.mem_cons, List.not_mem_nil, or_false] at hm
    rcases hm with rfl | rfl | rfl | rfl | rfl
    · exact ⟨.inl hreach.2, both hl hr⟩
    · exact ⟨.inl hreach.2, both hl hr⟩
    · exact ⟨.inr (congrArg some hreach.2.symm), both hl hr⟩
    · exact ⟨.inr (congrArg some hreach.2.symm), both hl hr⟩
    · exact ⟨.inl (hreach.2.resolve_right (by simp)), both hl hr⟩
  | compareContent x w =>
    obtain ⟨_, _, l, r, hl, hr, _⟩ := hg
    simp only [ReplicationDecision.asks, List.mem_cons, List.not_mem_nil, or_false] at hm
    rcases hm with rfl | rfl | rfl | rfl <;> exact ⟨.inl hreach.2, both hl hr⟩
  | agree x k ct | forget x => simp [ReplicationDecision.asks] at hm

theorem Tells.held {e : PlanSide} {v : Option (Option Bytes)} (h : Tells e v) : v ≠ none := by
  rintro rfl
  simp [Tells] at h

theorem Agree.shrink {c c' : Side → Option (Option Bytes)} (h : Agree c) (hs : ∀ s, c' s = c s ∨ c' s = none) :
    Agree c' := by
  intro a b ha hb
  have hl : c .localSide = some a := by rcases hs .localSide with h | h <;> rw [h] at ha; exacts [ha, absurd ha (by simp)]
  have hr : c .remoteSide = some b := by rcases hs .remoteSide with h | h <;> rw [h] at hb; exacts [hb, absurd hb (by simp)]
  exact h a b hl hr

theorem deletion_shrinks (hdel : d.isDeletion = true) : World.Shrinks w ((ctx.applyDecision d).run w).2 := by
  refine applyDecision_within (fun m hm => ?_) w
  cases d with
  | deleteRemote x | deleteLocal x =>
    rw [List.mem_singleton.mp hm]
    exact unlink_admits_shrinks _ _ _ _
  | _ => simp [ReplicationDecision.isDeletion] at hdel

/-- A transfer of one path does not touch another that the plan knows. -/
theorem not_targeted (ht : input.RandomToken) (hd : d ∈ (buildReplicationPlan input).decisions)
    (hdel : d.isDeletion = false) (hp : p ∈ input.paths) (hne : d.path ≠ p) (s : Side) : ¬ d.Targets s p := by
  intro h
  rcases (target_of_transfer hd hdel h).1 with he | hc
  · exact hne he.symm
  · exact conflictPath_notMem ht.fresh hd hc hp

theorem transfer_keeps (ht : input.RandomToken) (hd : d ∈ (buildReplicationPlan input).decisions)
    (hdel : d.isDeletion = false) (hp : p ∈ input.paths) (hne : d.path ≠ p) {s : Side} (h : w.contents p s ≠ none) :
    ((ctx.applyDecision d).run w).2.contents p s = w.contents p s :=
  (applyDecision_moves ctx d w).content_eq (not_targeted ht hd hdel hp hne s) h

/-- A collection made above a transferred path is one on the side the path comes from. -/
theorem transfer_agrees (ht : input.RandomToken) (hd : d ∈ (buildReplicationPlan input).decisions)
    (hdel : d.isDeletion = false) (hlive : Live input (w.contents d.path) d) (hw : w.WellFormed)
    (hp : p ∈ input.paths) (hne : d.path ≠ p) (h : Agree (w.contents p)) :
    Agree (((ctx.applyDecision d).run w).2.contents p) := by
  have kept {s : Side} (hs : w.contents p s ≠ none) :
      ((ctx.applyDecision d).run w).2.contents p s = w.contents p s := transfer_keeps ht hd hdel hp hne hs
  have made {s : Side} (hnew : ((ctx.applyDecision d).run w).2.contents p s ≠ w.contents p s) :
      ((ctx.applyDecision d).run w).2.contents p s = some none ∧
        ((ctx.applyDecision d).run w).2.contents p s.other = some none := by
    rcases applyDecision_moves ctx d w s p with he | htarget | ⟨_, hmade, q, hq, hb⟩
    · exact absurd he hnew
    · exact absurd htarget (not_targeted ht hd hdel hp hne s)
    · obtain ⟨hpath, hsome⟩ := target_of_transfer hd hdel hq
      obtain ⟨e, he⟩ := Option.isSome_iff_exists.mp hsome
      have hheld : (w.tree s.other).content d.path ≠ none := (hlive hdel s.other e he).held
      have hup : Below slash p d.path := by
        rcases hpath with rfl | hc
        · exact hb
        · exact hb.beside (path_ne_nil hp) (conflictPath_beside ht hd hc)
      have hcoll : w.contents p s.other = some none := (hw s.other).above hheld hup (path_ne_nil hp)
      exact ⟨hmade, by rw [kept (by simp [hcoll]), hcoll]⟩
  by_cases hl : ((ctx.applyDecision d).run w).2.contents p .localSide = w.contents p .localSide
  · by_cases hr : ((ctx.applyDecision d).run w).2.contents p .remoteSide = w.contents p .remoteSide
    · exact h.shrink (fun s => .inl (by cases s; exacts [hl, hr]))
    · obtain ⟨h₁, h₂⟩ := made hr
      intro a b ha hb
      have ha' : some none = some a := h₂.symm.trans ha
      have hb' : some none = some b := h₁.symm.trans hb
      exact Option.some_injective _ (ha'.symm.trans hb')
  · obtain ⟨h₁, h₂⟩ := made hl
    intro a b ha hb
    have ha' : some none = some a := h₁.symm.trans ha
    have hb' : some none = some b := h₂.symm.trans hb
    exact Option.some_injective _ (ha'.symm.trans hb')

/-- Agreement at a path outlasts the decisions on other paths. -/
theorem applyDecision_agrees (ht : input.RandomToken) (hd : d ∈ (buildReplicationPlan input).decisions)
    (hlive : Live input (w.contents d.path) d) (hw : w.WellFormed) (hp : p ∈ input.paths) (hne : d.path ≠ p)
    (h : Agree (w.contents p)) : Agree (((ctx.applyDecision d).run w).2.contents p) := by
  cases hdel : d.isDeletion with
  | false => exact transfer_agrees ht hd hdel hlive hw hp hne h
  | true => exact h.shrink (fun s => deletion_shrinks hdel s p)

end Step

/-! ### What a run of decisions leaves at the paths it comes to -/

def World.Grows (w w' : World) : Prop := ∀ e ∈ w.log, e ∈ w'.log

instance : Silent World.Grows where
  refl _ := fun _ => id
  trans _ _ _ h h' := fun e he => h' e (h e he)
  tick _ := fun _ => id
  note _ _ _ := fun _ => List.mem_cons_of_mem _

theorem mutation_grows (env : Env) (m : Mutation) : Admits World.Grows env m := fun contentType data =>
  (mutation_notes env m contentType data).mono (fun _ _ h _ he => h.mem_log he)

theorem applyAll_grows (o : ApplyOptions) (ds : List ReplicationDecision) (st : ApplyState) :
    Act.Within World.Grows (o.applyAll ds st) :=
  applyAll_within (fun _ _ m _ => mutation_grows o.env m) st

theorem applyAll_cons_run (o : ApplyOptions) (d : ReplicationDecision) (ds : List ReplicationDecision)
    (st : ApplyState) (w : World) : (o.applyAll (d :: ds) st).run w = (.ok st, w.tick) ∨
      ∃ outcome w', (o.applyDecision d).run w.tick = (.ok outcome, w') ∧
        (o.applyAll (d :: ds) st).run w = (o.applyAll ds (st.settle d outcome)).run w' := by
  rw [ApplyOptions.applyAll_cons, Act.run_bind]
  dsimp only [Env.now]
  split
  · exact .inl rfl
  · right
    rcases applyDecision_run o.toTransferContext d w.tick with ⟨n, w', _, h⟩ | ⟨m, w', _, h⟩ <;>
      exact ⟨_, _, h, Act.run_bind_ok h⟩

/-- The decisions that are still to come, in the order of the plan. -/
structure Rest (input : BuildPlanInput) (ds : List ReplicationDecision) (w : World) : Prop where
  planned : ∀ d ∈ ds, d ∈ (buildReplicationPlan input).decisions
  nodup : (ds.map ReplicationDecision.path).Nodup
  ordered : ds.Pairwise (fun a b => a.isDeletion = true → b.isDeletion = true)
  live : ∀ d ∈ ds, Live input (w.contents d.path) d
  wellFormed : w.WellFormed

section Run

variable {input : BuildPlanInput} {o : ApplyOptions} {d : ReplicationDecision} {ds : List ReplicationDecision}
  {st : ApplyState} {w : World} {p : JsString}

@[simp] theorem World.contents_tick (w : World) (p : JsString) : w.tick.contents p = w.contents p := by
  funext s
  simp [contents]

theorem Rest.tick (h : Rest input ds w) : Rest input ds w.tick :=
  ⟨h.planned, h.nodup, h.ordered, fun d hd => by simpa using h.live d hd, fun s => by simpa using h.wellFormed s⟩

theorem Rest.path_ne (h : Rest input (d :: ds) w) {e : ReplicationDecision} (he : e ∈ ds) : d.path ≠ e.path := by
  have hnotin := (List.nodup_cons.mp h.nodup).1
  exact fun heq => hnotin (heq ▸ List.mem_map_of_mem he)

theorem Rest.transfer_before (h : Rest input (d :: ds) w) {e : ReplicationDecision} (he : e ∈ ds)
    (hdel : e.isDeletion = false) : d.isDeletion = false := by
  by_contra hd
  have := (List.pairwise_cons.mp h.ordered).1 e he (by simpa using hd)
  simp [hdel] at this

theorem Rest.mem_paths (h : Rest input ds w) {e : ReplicationDecision} (he : e ∈ ds) : e.path ∈ input.paths :=
  (decisions_grounds (h.planned e he)).1

theorem Rest.step (h : Rest input (d :: ds) w) (ht : input.RandomToken) (ctx : TransferContext) :
    Rest input ds ((ctx.applyDecision d).run w).2 := by
  have hd := h.planned d List.mem_cons_self
  refine ⟨fun e he => h.planned e (List.mem_cons_of_mem _ he), (List.nodup_cons.mp h.nodup).2,
    (List.pairwise_cons.mp h.ordered).2, fun e he hdel s x hx => ?_, applyDecision_wellFormed h.wellFormed⟩
  have htells := h.live e (List.mem_cons_of_mem _ he) hdel s x hx
  rw [transfer_keeps ht hd (h.transfer_before he hdel) (h.mem_paths (List.mem_cons_of_mem _ he)) (h.path_ne he)
    htells.held]
  exact htells

/-- The hypotheses under which an executor runs a plan: its listings, and the plan they were made from. -/
structure Setting (o : ApplyOptions) (input : BuildPlanInput) : Prop where
  serves : Serves o.toTransferContext input
  token : input.RandomToken
  valid : ∀ s p, (Store.get (input.index s) p).isSome → isValidInnerPath p = true

theorem Rest.stepAt (h : Rest input (d :: ds) w) (hset : Setting o input) :
    StepAt o.env d w ((o.applyDecision d).run w).2 :=
  applyDecision_stepAt hset.serves hset.token hset.valid (h.planned d List.mem_cons_self)
    (h.live d List.mem_cons_self)

theorem Left.agree {c : Side → Option (Option Bytes)} (h : Left p c w) (hc : Agree c) : Agree (w.contents p) := by
  rcases h with h | h
  · rwa [World.holds_iff.mp h]
  · rw [World.holds_iff.mp h]
    simp

theorem StepAt.agree {env : Env} {w' : World} (h : StepAt env d w w') (hc : Agree (w.contents d.path)) :
    Agree (w'.contents d.path) := by
  rcases h.ends with ⟨⟨c', hw, hcase⟩, _⟩ | ⟨_, hleft, _⟩
  · rw [World.holds_iff.mp hw]
    exact hcase.elim id (fun h => h.1 ▸ hc)
  · exact hleft.agree hc

theorem Rest.agree_step (h : Rest input (d :: ds) w) (hset : Setting o input) (hp : p ∈ input.paths)
    (hc : Agree (w.contents p)) : Agree (((o.applyDecision d).run w).2.contents p) := by
  by_cases he : d.path = p
  · subst he
    exact (h.stepAt hset).agree hc
  · exact applyDecision_agrees hset.token (h.planned d List.mem_cons_self) (h.live d List.mem_cons_self)
      h.wellFormed hp he hc

theorem applyAll_agrees (hset : Setting o input) (h : Rest input ds w) (hp : p ∈ input.paths)
    (hc : Agree (w.contents p)) : Agree (((o.applyAll ds st).run w).2.contents p) := by
  induction ds generalizing st w with
  | nil => exact hc
  | cons d ds ih =>
    rcases applyAll_cons_run o d ds st w with hrun | ⟨outcome, w', happly, hrun⟩
    · rw [hrun]
      simpa using hc
    · rw [hrun]
      have hstep := h.tick.agree_step hset hp (by simpa using hc)
      have hrest := h.tick.step hset.token o.toTransferContext
      rw [happly] at hstep hrest
      exact ih hrest hstep

theorem not_idle_deletion {env : Env} {c : Side → Option (Option Bytes)} {log : List Event}
    (hdel : d.isDeletion = true) : ¬ Idle env c log d := by
  cases d <;> simp_all [ReplicationDecision.isDeletion, Idle]

theorem Idle.grow {env : Env} {c : Side → Option (Option Bytes)} {log log' : List Event} (h : Idle env c log d)
    (hlog : ∀ e ∈ log, e ∈ log') : Idle env c log' d := by
  cases d with
  | pullAndPreserve x q ct => exact h.imp_right (Or.imp (hlog _) (hlog _))
  | _ => exact h

/-- Where the sides hold different versions the decision goes through, and brings them together. -/
def Heals (env : Env) (w : World) (log : List Event) (d : ReplicationDecision) : Prop :=
  ¬ Agree (w.contents d.path) → .failed d ∉ log ∧ ¬ Idle env (w.contents d.path) log d

theorem StepAt.heals {env : Env} {w' : World} {log : List Event} (h : StepAt env d w w')
    (hlog : ∀ e ∈ w'.log, e ∈ log) (hheal : Heals env w log d) : Agree (w'.contents d.path) := by
  by_cases hc : Agree (w.contents d.path)
  · exact h.agree hc
  · obtain ⟨hok, hidle⟩ := hheal hc
    rcases h.ends with ⟨⟨c', hw, hcase⟩, _⟩ | ⟨hfail, _⟩
    · rw [World.holds_iff.mp hw]
      exact hcase.resolve_right (fun h => hidle (h.2.grow hlog))
    · exact absurd (hlog _ hfail) hok

theorem Rest.heals_step (h : Rest input (d :: ds) w) (hset : Setting o input) {log : List Event}
    {e : ReplicationDecision} (he : e ∈ ds) (hheal : Heals o.env w log e) :
    Heals o.env ((o.applyDecision d).run w).2 log e := by
  intro hdiffer
  have hp := h.mem_paths (List.mem_cons_of_mem _ he)
  have hbefore : ¬ Agree (w.contents e.path) := fun hc => hdiffer (h.agree_step hset hp hc)
  obtain ⟨hok, hidle⟩ := hheal hbefore
  refine ⟨hok, fun hi => ?_⟩
  cases hdel : e.isDeletion with
  | true => exact not_idle_deletion hdel hi
  | false =>
    have hsame : ((o.applyDecision d).run w).2.contents e.path = w.contents e.path := by
      funext s
      apply transfer_keeps hset.token (h.planned d List.mem_cons_self) (h.transfer_before he hdel) hp (h.path_ne he)
      intro hn
      apply hbefore
      intro a b ha hb
      cases s <;> simp_all
    rw [hsame] at hi
    exact hidle hi

theorem mem_settle {outcome : Except JsString ℕ} {q : JsString} :
    q ∈ (st.settle d outcome).touched → q ∈ st.touched ∨ q = d.path := by
  have htouch : q ∈ (st.touch d.path).touched → q ∈ st.touched ∨ q = d.path := by
    unfold ApplyState.touch
    dsimp only
    split
    · exact .inl
    · simp
  cases outcome <;> exact htouch

/-- When every decision on differing versions heals, the sides agree wherever the run has been. -/
theorem applyAll_touched (hset : Setting o input) (h : Rest input ds w)
    {st' : ApplyState} {w' : World} (hrun : (o.applyAll ds st).run w = (.ok st', w'))
    (hheal : ∀ d ∈ ds, .applies d ∈ w'.log → Heals o.env w w'.log d) :
    ∀ q ∈ st'.touched, q ∈ st.touched ∨ Agree (w'.contents q) := by
  induction ds generalizing st w with
  | nil =>
    obtain ⟨rfl, rfl⟩ : st = st' ∧ w = w' := by
      have he : ((.ok st, w) : Except JsString ApplyState × World) = (.ok st', w') := hrun
      exact ⟨by simpa using congrArg Prod.fst he, congrArg Prod.snd he⟩
    exact fun q => .inl
  | cons d ds ih =>
    have hgrows := applyAll_grows o ds
    rcases applyAll_cons_run o d ds st w with hstop | ⟨outcome, w₁, happly, hnext⟩
    · obtain ⟨rfl, rfl⟩ : st = st' ∧ w.tick = w' := by
        rw [hstop] at hrun
        exact ⟨by simpa using congrArg Prod.fst hrun, congrArg Prod.snd hrun⟩
      exact fun q => .inl
    · rw [hnext] at hrun
      have hstep := h.tick.stepAt hset
      have hrest := h.tick.step hset.token o.toTransferContext
      rw [happly] at hstep hrest
      have hlog : ∀ e ∈ w₁.log, e ∈ w'.log := by
        have hg := hgrows (st.settle d outcome) w₁
        rwa [hrun] at hg
      have hown : Agree (w'.contents d.path) := by
        have hhealed : Agree (w₁.contents d.path) := by
          apply hstep.heals hlog
          have hd := hheal d List.mem_cons_self (hlog _ hstep.applies)
          unfold Heals at hd ⊢
          simpa using hd
        have hlast : Agree (((o.applyAll ds (st.settle d outcome)).run w₁).2.contents d.path) :=
          applyAll_agrees hset hrest (h.mem_paths List.mem_cons_self) hhealed
        rwa [hrun] at hlast
      have hheal' : ∀ e ∈ ds, .applies e ∈ w'.log → Heals o.env w₁ w'.log e := by
        intro e he ha
        have hd := hheal e (List.mem_cons_of_mem _ he) ha
        have hd' : Heals o.env w.tick w'.log e := by
          unfold Heals at hd ⊢
          simpa using hd
        have hnext' := h.tick.heals_step hset he hd'
        rwa [happly] at hnext'
      intro q hq
      rcases ih hrest hrun hheal' q hq with hq | hq
      · rcases mem_settle hq with hq | rfl
        · exact .inl hq
        · exact .inr hown
      · exact .inr hq

/-! ### A path whose decision fails -/

/-- No other decision of the plan is about a path above or below. -/
def Apart (ds : List ReplicationDecision) (p : JsString) : Prop :=
  ∀ d ∈ ds, ¬ Below slash d.path p ∧ ¬ Below slash p d.path

theorem Rest.apart_step (h : Rest input (d :: ds) w) (hset : Setting o input) (hp : p ∈ input.paths)
    (hne : d.path ≠ p) (hapart : ¬ Below slash d.path p ∧ ¬ Below slash p d.path) :
    ((o.applyDecision d).run w).2.contents p = w.contents p := by
  have hd := h.planned d List.mem_cons_self
  rw [← World.holds_iff]
  refine (applyDecision_moves o.toTransferContext d w).holds (World.holds_iff.mpr rfl) (fun s q hq => ?_)
  cases hdel : d.isDeletion with
  | false =>
    refine ⟨fun he => not_targeted hset.token hd hdel hp hne s (he ▸ hq), fun hb => ?_⟩
    rcases (target_of_transfer hd hdel hq).1 with rfl | hc
    · exact hapart.2 hb
    · exact hapart.2 (hb.beside (path_ne_nil hp) (conflictPath_beside hset.token hd hc))
  | true =>
    have hreach : q = d.path ∨ Below slash d.path q := by
      obtain ⟨m, hm, hreach⟩ := hq
      cases d with
      | deleteRemote x | deleteLocal x =>
        rw [List.mem_singleton.mp hm] at hreach
        exact hreach.2.imp_right And.right
      | _ => simp [ReplicationDecision.isDeletion] at hdel
    rcases hreach with rfl | hreach
    · exact ⟨hne, hapart.2⟩
    · refine ⟨fun he => hapart.1 (he ▸ hreach), fun hb => ?_⟩
      rcases hreach.comparable hb with he | hb' | hb'
      · exact hne he
      · exact hapart.1 hb'
      · exact hapart.2 hb'

/-- Decisions elsewhere leave a path as it was. -/
theorem applyAll_apart (hset : Setting o input) (h : Rest input ds w) (hp : p ∈ input.paths)
    (hne : ∀ d ∈ ds, d.path ≠ p) (hapart : Apart ds p) :
    ((o.applyAll ds st).run w).2.contents p = w.contents p := by
  induction ds generalizing st w with
  | nil => rfl
  | cons d ds ih =>
    rcases applyAll_cons_run o d ds st w with hrun | ⟨outcome, w', happly, hrun⟩
    · rw [hrun]
      simp
    · have hstep := h.tick.apart_step hset hp (hne d List.mem_cons_self) (hapart d List.mem_cons_self)
      have hrest := h.tick.step hset.token o.toTransferContext
      rw [happly] at hstep hrest
      rw [hrun, ih hrest (fun e he => hne e (List.mem_cons_of_mem _ he))
        (fun e he => hapart e (List.mem_cons_of_mem _ he)), hstep]
      simp

theorem applyAll_failed (hset : Setting o input) (h : Rest input ds w) {e : ReplicationDecision}
    (hf : .failed e ∈ ((o.applyAll ds st).run w).2.log) : .failed e ∈ w.log ∨ e ∈ ds := by
  induction ds generalizing st w with
  | nil => exact .inl hf
  | cons d ds ih =>
    rcases applyAll_cons_run o d ds st w with hrun | ⟨outcome, w', happly, hrun⟩
    · rw [hrun] at hf
      exact .inl hf
    · have hstep := h.tick.stepAt hset
      have hrest := h.tick.step hset.token o.toTransferContext
      rw [happly] at hstep hrest
      rw [hrun] at hf
      rcases ih hrest hf with hf | hf
      · rcases hstep.failed e hf with hf | rfl
        · exact .inl hf
        · exact .inr List.mem_cons_self
      · exact .inr (List.mem_cons_of_mem _ hf)

/-- A path that one side holds stays so when its decision fails. -/
theorem applyAll_withheld (hset : Setting o input) (h : Rest input ds w) (hd : d ∈ ds) (hold : .failed d ∉ w.log)
    (hfail : .failed d ∈ ((o.applyAll ds st).run w).2.log) (hone : d.conflictPath = none)
    (hapart : ∀ e ∈ ds, e ≠ d → ¬ Below slash e.path d.path ∧ ¬ Below slash d.path e.path) :
    ((o.applyAll ds st).run w).2.contents d.path = w.contents d.path := by
  induction ds generalizing st w with
  | nil => simp at hd
  | cons e ds ih =>
    rcases applyAll_cons_run o e ds st w with hrun | ⟨outcome, w', happly, hrun⟩
    · rw [hrun]
      simp
    · rw [hrun] at hfail ⊢
      have hstep := h.tick.stepAt hset
      have hrest := h.tick.step hset.token o.toTransferContext
      have hp := h.mem_paths hd
      by_cases he : e = d
      · subst he
        have helse : ∀ x ∈ ds, x.path ≠ e.path := fun x hx hp => h.path_ne hx hp.symm
        rw [happly] at hstep hrest
        rw [applyAll_apart hset hrest hp helse (fun x hx => hapart x (List.mem_cons_of_mem _ hx)
          (fun hxe => helse x hx (congrArg _ hxe)))]
        rcases hstep.ends with ⟨_, hno⟩ | ⟨_, _, hstay⟩
        · have hafter : .failed e ∉ w'.log := fun hf => hold (hno hf)
          rcases applyAll_failed hset hrest hfail with hf | hf
          · exact absurd hf hafter
          · exact absurd rfl (helse e hf)
        · have hholds := World.holds_iff.mp (hstay hone)
          simpa using hholds
      · have hmem : d ∈ ds := (List.mem_cons.mp hd).resolve_left (fun hde => he hde.symm)
        have hsame := h.tick.apart_step hset hp (h.path_ne hmem) (hapart e List.mem_cons_self he)
        rw [happly] at hsame hrest hstep
        have hafter : .failed d ∉ w'.log := fun hf => (hstep.failed d hf).elim hold (fun hde => he hde.symm)
        rw [ih hrest hmem hafter hfail (fun x hx => hapart x (List.mem_cons_of_mem _ hx)), hsame]
        simp

end Run

end DurableDav.Replication
