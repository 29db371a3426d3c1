import DurableDav.Replication.AuditTrail
import DurableDav.Replication.ConflictCopies
import DurableDav.Replication.OneWay
import DurableDav.Replication.StaleRows

namespace DurableDav.Replication

open Library

/-! ### Removals that are carried out -/

namespace Tree

variable {t : Tree} {p : JsString}

theorem unlink_all (t : Tree) (hp : p ≠ []) (hv : isValidInnerPath p = true) :
    ∃ t', (unlink p true).run t = (.ok (), t') := by
  unfold unlink
  rw [if_neg (by simp [hp, hv])]
  change ∃ t', (if !t.isDirectory p then _ else _ : Act Tree JsString Unit).run t = (.ok (), t')
  split
  · exact ⟨_, rfl⟩
  · exact ⟨_, rfl⟩

theorem delete_all (t : Tree) (p : JsString) : ∃ t', (delete p).run t = (.ok (), t') := by
  change ∃ t', (if t.isDirectory p then _ else _ : Act Tree JsString Unit).run t = (.ok (), t')
  split
  · exact ⟨_, rfl⟩
  · exact ⟨_, rfl⟩

end Tree

section Removed

variable {ctx : TransferContext} {w w' : World} {d : ReplicationDecision} {s : Side} {p : JsString}

theorem call_not_ok {α : Type} {env : Env} {call : Call} {spoil : ℕ → World → World} {body : ℕ → Answer → Run α}
    (h : (env.answer w.calls).fails = true) {v : α} : ((env.call call spoil body).run w).1 ≠ .ok v := by
  cases ha : env.answer w.calls with
  | rejects reason => simp [Env.call, ha]
  | performs | blank | cut keep => simp [ha, Answer.fails] at h

theorem removal_call_ok {env : Env} {call : Call} {spoil : ℕ → World → World} {x : Act Tree JsString Unit}
    (hx : ∀ t, ∃ t', x.run t = (.ok (), t')) : (∃ v, ((env.call call spoil fun _ _ => Env.removal s p x).run w).1 = .ok v) ↔
      (env.answer w.calls).fails = false := by
  cases hfails : (env.answer w.calls).fails with
  | true =>
    refine iff_of_false ?_ (by simp)
    rintro ⟨v, hv⟩
    exact call_not_ok hfails hv
  | false =>
    refine iff_of_true ⟨(), ?_⟩ rfl
    obtain ⟨t', hrun⟩ := hx (w.tick.tree s)
    have hside : (onSide s x).run w.tick = (.ok (), w.tick.setTree s t') := by
      change ((x.run (w.tick.tree s)).1, w.tick.setTree s (x.run (w.tick.tree s)).2) = _
      rw [hrun]
    have hread : (Act.read : Run World).run w.tick = (.ok w.tick, w.tick) := rfl
    have hbody : (Env.removal s p x).run w.tick = (.ok (), ((w.tick.setTree s t').note
        (.removed s p ((w.tick.tree s).vanished ((w.tick.setTree s t').tree s) p)))) := by
      unfold Env.removal
      rw [Act.run_bind_ok hread, Act.run_bind_ok hside]
      rfl
    rw [call_answers hfails, run_carryOut, hbody]

/-- A removal is carried out exactly where it is answered. -/
theorem removed_iff (hdel : d.isDeletion = true) (hp : d.path ≠ []) (hv : isValidInnerPath d.path = true) :
    ctx.Removed d w ↔ (ctx.env.answer w.calls).fails = false := by
  have ends {x : Run Unit} (hx : (∃ v, (x.run w).1 = .ok v) ↔ (ctx.env.answer w.calls).fails = false) :
      (∃ n, ((x >>= fun _ => pure 0 : Run ℕ).run w).1 = .ok n) ↔ (ctx.env.answer w.calls).fails = false := by
    rw [← hx, Act.run_bind]
    cases x.run w with
    | mk r w' =>
      cases r with
      | ok v => exact iff_of_true ⟨0, rfl⟩ ⟨v, rfl⟩
      | error e => simp
  unfold TransferContext.Removed
  rw [and_iff_right hdel]
  cases d with
  | deleteRemote x =>
    refine ends (removal_call_ok (fun t => ?_))
    cases ctx.env.sibling with
    | true => exact Tree.unlink_all t hp hv
    | false => exact Tree.delete_all t x
  | deleteLocal x => exact ends (removal_call_ok (fun t => Tree.unlink_all t hp hv))
  | _ => simp [ReplicationDecision.isDeletion] at hdel

/-- The side that a deletion empties. -/
def ReplicationDecision.emptied : ReplicationDecision → Side
  | .deleteRemote _ => .remoteSide
  | _ => .localSide

theorem gone_of_removed (h : ctx.Removed d w) : (ctx.after d w).contents d.path d.emptied = none := by
  obtain ⟨hdel, n, hrun⟩ := h
  have hrun' : (ctx.transfer d).run w = (.ok n, ctx.after d w) := Prod.ext hrun rfl
  have gone {s : Side} {x : Run Unit} {p : JsString} (h : Act.Meets (World.Holds p (w.contents p)) x
      (fun _ => World.Holds p (Function.update (w.contents p) s none)) (World.Holds p (w.contents p)))
      (hx : (x >>= fun _ => pure 0 : Run ℕ).run w = (.ok n, ctx.after d w)) : (ctx.after d w).contents p s = none := by
    have hmeets : Act.Meets (World.Holds p (w.contents p)) (x >>= fun _ => pure 0 : Run ℕ)
        (fun _ => World.Holds p (Function.update (w.contents p) s none)) (World.Holds p (w.contents p)) :=
      Act.meets_bind h (fun _ => Act.meets_pure (fun _ => id))
    have hheld := hmeets.ok (World.holds_iff.mpr rfl) hx
    rw [World.holds_iff.mp hheld, Function.update_self]
  cases d with
  | deleteRemote x => exact gone (unlink_meets (s := .remoteSide) (fun _ => rfl) none []) hrun'
  | deleteLocal x => exact gone (unlink_meets (s := .localSide) (by simp) none []) hrun'
  | _ => simp [ReplicationDecision.isDeletion] at hdel

end Removed

/-! ### The worlds that the decisions find -/

/-- A decision that the loop comes to, in the world that it finds; `w₁` is the world of the plan. -/
structure Reached (input : BuildPlanInput) (w₁ : World) (d : ReplicationDecision) (w : World) : Prop where
  planned : d ∈ (buildReplicationPlan input).decisions
  live : Live input (w.contents d.path) d
  wellFormed : w.WellFormed
  kept : d.isDeletion = false → ∀ s, w₁.contents d.path s ≠ none → w.contents d.path s = w₁.contents d.path s
  spared : input.mode = .pullOnly → w.remoteTree = w₁.remoteTree

section Reaching

variable {input : BuildPlanInput} {o : ApplyOptions} {ds : List ReplicationDecision} {st : ApplyState} {w w₁ : World}

theorem reached_of_rest {d : ReplicationDecision} (h : Rest input (d :: ds) w)
    (hkept : d.isDeletion = false → ∀ s, w₁.contents d.path s ≠ none → w.contents d.path s = w₁.contents d.path s)
    (hspared : input.mode = .pullOnly → w.remoteTree = w₁.remoteTree) :
    Reached input w₁ d (w.note (.applies d)) where
  planned := h.planned d List.mem_cons_self
  live := by simpa using h.live d List.mem_cons_self
  wellFormed := fun s => by simpa using h.wellFormed s
  kept := by simpa using hkept
  spared := hspared

theorem applyDecision_spares {d : ReplicationDecision} (hm : input.mode = .pullOnly)
    (hd : d ∈ (buildReplicationPlan input).decisions) : ((o.applyDecision d).run w).2.remoteTree = w.remoteTree := by
  have hspares : World.Spares .remoteSide w ((o.applyDecision d).run w).2 :=
    applyDecision_within (fun m hask => mutation_spares (by simp [asks_pullOnly hm hd m hask])) w
  exact hspares.1

theorem begun_reached (ht : input.RandomToken) (h : Rest input ds w)
    (hkept : ∀ d ∈ ds, d.isDeletion = false → ∀ s, w₁.contents d.path s ≠ none →
      w.contents d.path s = w₁.contents d.path s)
    (hspared : input.mode = .pullOnly → w.remoteTree = w₁.remoteTree) :
    ∀ x ∈ o.begun ds st w, Reached input w₁ x.1 x.2 := by
  induction ds generalizing st w with
  | nil => simp [ApplyOptions.begun]
  | cons d ds ih =>
    intro x hx
    rw [ApplyOptions.begun] at hx
    split at hx
    · simp at hx
    · have hd := h.planned d List.mem_cons_self
      have hkept' : ∀ e ∈ d :: ds, e.isDeletion = false → ∀ s, w₁.contents e.path s ≠ none →
          w.tick.contents e.path s = w₁.contents e.path s := by simpa using hkept
      rcases List.mem_cons.mp hx with rfl | hx
      · exact reached_of_rest h.tick (hkept' d List.mem_cons_self) hspared
      · have hstep := h.tick.step ht o.toTransferContext
        have hspared' : input.mode = .pullOnly → ((o.applyDecision d).run w.tick).2.remoteTree = w₁.remoteTree :=
          fun hm => (applyDecision_spares hm hd).trans (hspared hm)
        have hkept'' : ∀ e ∈ ds, e.isDeletion = false → ∀ s, w₁.contents e.path s ≠ none →
            ((o.applyDecision d).run w.tick).2.contents e.path s = w₁.contents e.path s := by
          intro e he hdel s hs
          have hsame := hkept' e (List.mem_cons_of_mem _ he) hdel s hs
          have hheld : w.tick.contents e.path s ≠ none := by rwa [hsame]
          rw [← hsame]
          exact transfer_keeps ht hd (h.transfer_before he hdel) (h.mem_paths (List.mem_cons_of_mem _ he)) (h.path_ne he)
            hheld
        cases hrun : (o.applyDecision d).run w.tick with
        | mk r w' =>
          rw [hrun] at hx hstep hspared' hkept''
          cases r with
          | ok outcome => exact ih hstep hkept'' hspared' x hx
          | error e => simp at hx

end Reaching

/-! ### What a prepared slice is planned from -/

theorem indexByPath_self {index : Store JsString PlanSide} (hkeyed : ∀ x ∈ index, x.2.path = x.1)
    (hnil : Store.get index [] = none) : indexByPath PlanSide.path (index.map Prod.snd) = index := by
  have hkeys : ∀ x ∈ index, x.1 ≠ [] := by
    rintro x hx he
    have hmem : [] ∈ Store.keys index := by
      simp only [Store.keys, List.mem_dedup, List.mem_map]
      exact ⟨x, hx, he⟩
    rw [Store.mem_keys, hnil] at hmem
    cases hmem
  induction index with
  | nil => rfl
  | cons x xs ih =>
    have hx := hkeyed x List.mem_cons_self
    have hne : x.2.path ≠ [] := by
      rw [hx]
      exact hkeys x List.mem_cons_self
    have hrest : ∀ y ∈ xs, y.1 ≠ [] := fun y hy => hkeys y (List.mem_cons_of_mem _ hy)
    have hget : Store.get xs [] = none := by
      rw [← Option.not_isSome_iff_eq_none, ← Store.mem_keys]
      simp only [Store.keys, List.mem_dedup, List.mem_map]
      rintro ⟨y, hy, he⟩
      exact hrest y hy he
    have ih' := ih (fun y hy => hkeyed y (List.mem_cons_of_mem _ hy)) hget hrest
    unfold indexByPath at ih' ⊢
    rw [List.map_cons, List.filter_cons_of_pos (by simpa using hne), List.map_cons, ih', hx]

/-- The plan of a slice is made from what the sides hold, and the executor reads the same listings. -/
structure Prepared (r : Runner) (slice : Slice) (startedAt : ℕ) (w₁ : World) : Prop where
  setting : Setting (r.options slice startedAt) (r.planInput slice startedAt)
  listed : Listed (r.planInput slice startedAt) w₁
  wellFormed : w₁.WellFormed

theorem prepared_of_prepares {r : Runner} {slice : Slice} {w w₁ : World} (hform : w.WellFormed)
    (hcursor : ∀ k ∈ w.pass.cursorPath, isValidInnerPath k = true)
    (htoken : (r.planInput slice (r.startedAt w)).RandomToken) (hp : r.Prepares w slice w₁) :
    Prepared r slice (r.startedAt w) w₁ := by
  obtain ⟨w₀, hkeeps, _, hcollect⟩ := prepares_stages hp
  have hstart : ∀ k ∈ r.resumeFrom w, isValidInnerPath k = true := by
    intro k hk
    unfold Runner.resumeFrom at hk
    split at hk
    · exact hcursor k hk
    · simp at hk
  obtain ⟨walk, current, es, hreads, hslice, hgathered, _⟩ := collectSlice_finds hstart hcollect
  have htree (s : Side) : w₁.tree s = w.tree s := (hreads.tree s).trans (hkeeps.tree s)
  have hform₀ (s : Side) : (w₀.tree s).WellFormed := (hkeeps.tree s).symm ▸ hform s
  have hself (s : Side) : indexByPath PlanSide.path ((walk.index s).map Prod.snd) = walk.index s := by
    refine indexByPath_self (hgathered.keyed s) ?_
    by_contra hsome
    obtain ⟨e, he⟩ := Option.ne_none_iff_exists'.mp hsome
    exact (hform₀ s [] (held_of_describe (hgathered.entry s [] e he).1)).1 rfl
  have hindex (s : Side) : (r.planInput slice (r.startedAt w)).index s = walk.index s := by
    rw [← hself, hslice]
    cases s <;> rfl
  have hlocal : slice.localByPath = walk.index .localSide := by rw [hslice]; rfl
  have hremote : slice.remoteByPath = walk.index .remoteSide := by rw [hslice]; rfl
  refine ⟨⟨⟨?_, ?_⟩, htoken, fun s q hq => ?_⟩, fun s q e he => ?_, fun s => ?_⟩
  · exact hlocal.trans (hindex .localSide).symm
  · exact hremote.trans (hindex .remoteSide).symm
  · obtain ⟨e, he⟩ := Option.isSome_iff_exists.mp hq
    rw [hindex] at he
    exact (hgathered.entry s q e he).2.1
  · rw [hindex] at he
    rw [hreads.tree]
    exact (hgathered.entry s q e he).1
  · rw [htree]
    exact hform s

/-! ### Which destructive decisions go through -/

/-- How the storage calls of a destructive decision are answered where it goes through. -/
def TransferContext.Achieves (ctx : TransferContext) (d : ReplicationDecision) (w : World) : Prop :=
  match d with
  | .deleteRemote _ | .deleteLocal _ => (ctx.env.answer w.calls).fails = false
  | .keepBoth p _ k => ∃ l r, ctx.localEntry p = some l ∧ ctx.remoteEntry p = some r ∧
      CopiesWhen ctx.env w k true l.isCollection r.isCollection
  | .pullAndPreserve p k _ => ∃ l r, ctx.localEntry p = some l ∧ ctx.remoteEntry p = some r ∧
      CopiesWhen ctx.env w k false l.isCollection r.isCollection
  | _ => False

namespace Reached

variable {input : BuildPlanInput} {o : ApplyOptions} {d : ReplicationDecision} {w w₁ : World} {k : JsString} {s : Side}

theorem nonempty (h : Reached input w₁ d w) : d.path ≠ [] := path_ne_nil (decisions_grounds h.planned).1

theorem removed_iff_achieves (hset : Setting o input) (h : Reached input w₁ d w) (hdel : d.isDeletion = true) :
    o.Removed d w ↔ o.Achieves d w := by
  obtain ⟨_, taken, _, hg⟩ := decisions_grounds h.planned
  have hp := h.nonempty
  cases d with
  | deleteRemote p => exact removed_iff hdel hp (hset.valid .remoteSide p hg.2.2.1)
  | deleteLocal p => exact removed_iff hdel hp (hset.valid .localSide p hg.2.1)
  | _ => simp [ReplicationDecision.isDeletion] at hdel

theorem copyable (hset : Setting o input) (h : Reached input w₁ d w) (hk : d.conflictPath = some k) :
    ∃ l r, o.localEntry d.path = some l ∧ o.remoteEntry d.path = some r ∧
      Copyable o.toTransferContext w d.path k l r := by
  refine copyable_of_live hset.serves hset.valid h.planned hk h.live h.wellFormed ?_ ?_ ?_
  · exact conflictPath_beside hset.token h.planned hk
  · exact hset.token.segment
  · exact (conflictPath_aside hset.token h.planned hk).1

theorem copied_iff_achieves (hset : Setting o input) (h : Reached input w₁ d w) (hk : d.conflictPath = some k) :
    o.Copied d w k ↔ o.Achieves d w := by
  obtain ⟨l, r, hl, hr, hcopyable⟩ := h.copyable hset hk
  have single {both : Bool} (hcopied : o.Copied d w k ↔ CopiesWhen o.env w k both l.isCollection r.isCollection) :
      o.Copied d w k ↔ ∃ l r, o.localEntry d.path = some l ∧ o.remoteEntry d.path = some r ∧
        CopiesWhen o.env w k both l.isCollection r.isCollection := by
    rw [hcopied]
    constructor
    · exact fun hc => ⟨l, r, hl, hr, hc⟩
    · rintro ⟨l', r', hl', hr', hc⟩
      rw [hl, Option.some_inj] at hl'
      rw [hr, Option.some_inj] at hr'
      rwa [hl', hr']
  cases d with
  | keepBoth p v c =>
    obtain rfl : c = k := by simpa [ReplicationDecision.conflictPath] using hk
    exact single (keepBoth_copied_iff hcopyable v)
  | pullAndPreserve p c ct =>
    obtain rfl : c = k := by simpa [ReplicationDecision.conflictPath] using hk
    exact single (pullAndPreserve_copied_iff hcopyable ct)
  | _ => simp [ReplicationDecision.conflictPath] at hk

theorem after_moves (ctx : TransferContext) (d : ReplicationDecision) (w : World) :
    World.Moves d.Targets w (ctx.after d w) :=
  transfer_within (fun m hm => mutation_moves (fun _ _ hr => ⟨m, hm, hr⟩)) w

/-- The version that a decision names as the winner is listed, and the transfer does not touch it. -/
theorem winner_listed (ht : input.RandomToken) (hd : d ∈ (buildReplicationPlan input).decisions)
    (hw : d.winner input.mode = some s) (hdel : d.isDeletion = false) :
    (Store.get (input.index s) d.path).isSome ∧ ¬ d.Targets s d.path := by
  obtain ⟨_, taken, _, hg⟩ := decisions_grounds hd
  cases d with
  | push p ct =>
    obtain ⟨l, hl, _⟩ := hg.2.1
    obtain rfl : Side.localSide = s := by simpa [ReplicationDecision.winner] using hw
    refine ⟨Option.isSome_iff_exists.mpr ⟨l, hl⟩, ?_⟩
    rintro ⟨m, hm, hreach⟩
    simp only [ReplicationDecision.asks, List.mem_cons, List.not_mem_nil, or_false] at hm
    rcases hm with rfl | rfl <;> cases hreach.1
  | pull p ct =>
    obtain rfl : Side.remoteSide = s := by simpa [ReplicationDecision.winner] using hw
    refine ⟨hg.2.1, ?_⟩
    rintro ⟨m, hm, hreach⟩
    simp only [ReplicationDecision.asks, List.mem_cons, List.not_mem_nil, or_false] at hm
    rcases hm with rfl | rfl <;> cases hreach.1
  | keepBoth p v c =>
    obtain ⟨_, _, _, l, r, hl, _⟩ := hg
    obtain rfl : Side.localSide = s := by simpa [ReplicationDecision.winner] using hw
    refine ⟨Option.isSome_iff_exists.mpr ⟨l, hl⟩, ?_⟩
    rintro ⟨m, hm, hreach⟩
    have haside := (conflictPath_aside ht hd rfl).1
    simp only [ReplicationDecision.asks, List.mem_cons, List.not_mem_nil, or_false] at hm
    rcases hm with rfl | rfl | rfl | rfl <;> exact haside hreach.2.symm
  | pullAndPreserve p c ct =>
    obtain rfl : Side.remoteSide = s := by simpa [ReplicationDecision.winner] using hw
    refine ⟨hg.2.2.2.1, ?_⟩
    rintro ⟨m, hm, hreach⟩
    simp only [ReplicationDecision.asks, List.mem_cons, List.not_mem_nil, or_false] at hm
    rcases hm with rfl | rfl | rfl | rfl | rfl <;> cases hreach.1
  | deleteRemote p | deleteLocal p => simp [ReplicationDecision.isDeletion] at hdel
  | compareContent p v | agree p c ct | forget p => simp [ReplicationDecision.winner] at hw

theorem winner_kept (ht : input.RandomToken) (hl : Listed input w₁) (h : Reached input w₁ d w)
    (hw : d.winner input.mode = some s) (hmode : d.isDeletion = true → input.mode = .pullOnly) :
    (o.after d w).contents d.path s = w₁.contents d.path s := by
  cases hdel : d.isDeletion with
  | true =>
    have hm := hmode hdel
    obtain rfl : Side.remoteSide = s := by
      cases d <;> simp_all [ReplicationDecision.isDeletion, ReplicationDecision.winner]
    have hspares : World.Spares .remoteSide w (o.after d w) :=
      transfer_within (fun m hask => mutation_spares (by simp [asks_pullOnly hm h.planned m hask])) w
    have htree : (o.after d w).remoteTree = w₁.remoteTree := hspares.1.trans (h.spared hm)
    change (o.after d w).remoteTree.content d.path = w₁.remoteTree.content d.path
    rw [htree]
  | false =>
    obtain ⟨hlisted, hnot⟩ := winner_listed ht h.planned hw hdel
    obtain ⟨e, he⟩ := Option.isSome_iff_exists.mp hlisted
    have hheld : w₁.contents d.path s ≠ none := held_of_describe (hl s d.path e he)
    have hsame := h.kept hdel s hheld
    have hfound : (w.tree s).content d.path ≠ none := fun hn => hheld (hsame.symm.trans hn)
    exact ((after_moves o.toTransferContext d w).content_eq hnot hfound).trans hsame

/-- In a mode of two ways a deletion names the side that it empties. -/
theorem winner_emptied (hdel : d.isDeletion = true) (hw : d.winner input.mode = some s)
    (hmode : input.mode ≠ .pullOnly) : s = d.emptied := by
  cases d with
  | deleteRemote p =>
    simpa [ReplicationDecision.winner, ReplicationDecision.emptied, eq_comm] using hw
  | deleteLocal p =>
    simpa [ReplicationDecision.winner, ReplicationDecision.emptied, hmode, eq_comm] using hw
  | _ => simp [ReplicationDecision.isDeletion] at hdel

end Reached

/-! ### The law and where it holds -/

/-- For every deletion and every conflict copy of the plan: the call for its row is answered where the loop comes to the
decision and the calls of its transfer are answered, and nowhere else; and only pull-only mode records deletions. -/
def Runner.Accounts (r : Runner) (w : World) : Prop :=
  ∀ slice w₁, r.Prepares w slice w₁ → ∀ c ∈ r.conflicts slice (r.startedAt w),
    (c.kind = .deletion ∨ c.conflictPath ≠ none) →
      (r.Records slice (r.startedAt w) w₁ c ↔ ∃ s ∈ r.steps slice (r.startedAt w) w₁,
        s.1.path = c.path ∧ (r.options slice (r.startedAt w)).Achieves s.1 s.2) ∧
      (c.kind = .deletion → knownMode r.storedMode ≠ .pullOnly → ¬ r.Records slice (r.startedAt w) w₁ c)

section Auditing

variable {r : Runner} {slice : Slice} {startedAt : ℕ} {w w₁ : World} {rows : List ConflictRow} {c : PlanConflict}

theorem steps_reached (h : Prepared r slice startedAt w₁) :
    ∀ x ∈ r.steps slice startedAt w₁, Reached (r.planInput slice startedAt) w₁ x.1 x.2 :=
  begun_reached h.setting.token (rest_decisions h.listed h.wellFormed) (fun _ _ _ _ _ => rfl) (fun _ => rfl)

theorem Runner.Records.planned (h : r.Records slice startedAt w₁ c) : c ∈ r.conflicts slice startedAt := by
  obtain ⟨n, i, _, hi, _⟩ := h
  exact List.mem_of_getElem? hi

/-- The rows are those of the conflicts whose calls are answered. -/
def RecordedRows (r : Runner) (slice : Slice) (startedAt : ℕ) (w₁ : World) (rows : List ConflictRow) : Prop :=
  ∀ row, row ∈ rows ↔ row.createdAt = startedAt / 1000 ∧ r.Records slice startedAt w₁ row.toPlanConflict

theorem RecordedRows.exists_iff (hrows : RecordedRows r slice startedAt w₁ rows) (hc : c ∈ r.conflicts slice startedAt)
    {P : PlanConflict → Prop} (hP : P c) :
    (∃ row ∈ rows, P row.toPlanConflict ∧ row.path = c.path) ↔ r.Records slice startedAt w₁ c := by
  constructor
  · rintro ⟨row, hrow, _, hpath⟩
    have hrecords := ((hrows row).mp hrow).2
    rwa [row_unique hrecords.planned hc hpath] at hrecords
  · exact fun h => ⟨⟨c, startedAt / 1000⟩, (hrows _).mpr ⟨rfl, h⟩, hP, rfl⟩

/-- The step that comes to the decision of a row. -/
theorem step_of_row {d : ReplicationDecision} (h : Prepared r slice startedAt w₁)
    (hd : Explained (r.planInput slice startedAt) d c) {x : ReplicationDecision × World}
    (hx : x ∈ r.steps slice startedAt w₁) (hpath : x.1.path = c.path) : x.1 = d :=
  decision_unique (steps_reached h x hx).planned hd.planned (hpath.trans hd.path.symm)

theorem removed_steps (h : Prepared r slice startedAt w₁) (hc : c ∈ r.conflicts slice startedAt)
    (hkind : c.kind = .deletion) :
    (∃ x ∈ r.steps slice startedAt w₁, x.1.path = c.path ∧ (r.options slice startedAt).Removed x.1 x.2) ↔
      ∃ x ∈ r.steps slice startedAt w₁, x.1.path = c.path ∧ (r.options slice startedAt).Achieves x.1 x.2 := by
  obtain ⟨d, hd⟩ := row_explained hc
  refine exists_congr fun x => and_congr_right fun hx => and_congr_right fun hpath => ?_
  have hdel : x.1.isDeletion = true := by
    rw [step_of_row h hd hx hpath]
    exact hd.deletion.mp hkind
  exact (steps_reached h x hx).removed_iff_achieves h.setting hdel

theorem copied_steps {k : JsString} (h : Prepared r slice startedAt w₁) (hc : c ∈ r.conflicts slice startedAt)
    (hk : c.conflictPath = some k) :
    (∃ x ∈ r.steps slice startedAt w₁, x.1.path = c.path ∧ (r.options slice startedAt).Copied x.1 x.2 k) ↔
      ∃ x ∈ r.steps slice startedAt w₁, x.1.path = c.path ∧ (r.options slice startedAt).Achieves x.1 x.2 := by
  obtain ⟨d, hd⟩ := row_explained hc
  refine exists_congr fun x => and_congr_right fun hx => and_congr_right fun hpath => ?_
  have hkept : x.1.conflictPath = some k := by
    rw [step_of_row h hd hx hpath]
    exact hd.kept.trans hk
  exact (steps_reached h x hx).copied_iff_achieves h.setting hkept

theorem kind_of_copy {k : JsString} (hc : c ∈ r.conflicts slice startedAt) (hk : c.conflictPath = some k) :
    c.kind = .conflict := by
  obtain ⟨d, hd⟩ := row_explained hc
  cases hkind : c.kind with
  | conflict => rfl
  | deletion =>
    have hdel := hd.deletion.mp hkind
    have hkept := hd.kept.trans hk
    cases d <;> simp_all [ReplicationDecision.isDeletion, ReplicationDecision.conflictPath]

theorem deletion_rows (h : Prepared r slice startedAt w₁) (hrows : RecordedRows r slice startedAt w₁ rows)
    (hc : c ∈ r.conflicts slice startedAt) (hkind : c.kind = .deletion) :
    ((∃ row ∈ rows, row.kind = .deletion ∧ row.path = c.path) ↔ ∃ x ∈ r.steps slice startedAt w₁,
      x.1.path = c.path ∧ (r.options slice startedAt).Removed x.1 x.2) ↔
    (r.Records slice startedAt w₁ c ↔ ∃ x ∈ r.steps slice startedAt w₁,
      x.1.path = c.path ∧ (r.options slice startedAt).Achieves x.1 x.2) := by
  rw [removed_steps h hc hkind, hrows.exists_iff hc (P := fun c => c.kind = .deletion) hkind]

theorem copy_rows {k : JsString} (h : Prepared r slice startedAt w₁) (hrows : RecordedRows r slice startedAt w₁ rows)
    (hc : c ∈ r.conflicts slice startedAt) (hk : c.conflictPath = some k) :
    ((∃ row ∈ rows, row.kind = .conflict ∧ row.path = c.path ∧ row.conflictPath = some k) ↔
      ∃ x ∈ r.steps slice startedAt w₁, x.1.path = c.path ∧ (r.options slice startedAt).Copied x.1 x.2 k) ↔
    (r.Records slice startedAt w₁ c ↔ ∃ x ∈ r.steps slice startedAt w₁,
      x.1.path = c.path ∧ (r.options slice startedAt).Achieves x.1 x.2) := by
  have hexists : (∃ row ∈ rows, row.kind = .conflict ∧ row.path = c.path ∧ row.conflictPath = some k) ↔
      ∃ row ∈ rows, (row.kind = .conflict ∧ row.conflictPath = some k) ∧ row.path = c.path :=
    exists_congr fun row => by tauto
  rw [copied_steps h hc hk, hexists,
    hrows.exists_iff hc (P := fun c => c.kind = .conflict ∧ c.conflictPath = some k) ⟨kind_of_copy hc hk, hk⟩]

/-- A deletion that is carried out, and recorded in a mode of two ways, names the side that has lost its version. -/
theorem not_recorded (h : Prepared r slice startedAt w₁) (hrows : RecordedRows r slice startedAt w₁ rows)
    (htrue : TrueAudit (r.options slice startedAt).toTransferContext w₁ (r.steps slice startedAt w₁) rows)
    (hc : c ∈ r.conflicts slice startedAt) (hkind : c.kind = .deletion) (hmode : knownMode r.storedMode ≠ .pullOnly) :
    ¬ r.Records slice startedAt w₁ c := by
  intro hrecords
  obtain ⟨d, hd⟩ := row_explained hc
  have hdel := hd.deletion.mp hkind
  have hrow : (⟨c, startedAt / 1000⟩ : ConflictRow) ∈ rows := (hrows _).mpr ⟨rfl, hrecords⟩
  obtain ⟨x, hx, hpath, hremoved⟩ := (htrue.deletions c.path).mp ⟨_, hrow, hkind, rfl⟩
  have hsame := htrue.winners _ hrow x hx hpath
  obtain rfl : x.1 = d := step_of_row h hd hx hpath
  have hside := Reached.winner_emptied hdel hd.winner hmode
  have hgone := gone_of_removed hremoved
  have hheld : w₁.contents c.path c.winner ≠ none := by
    obtain ⟨_, taken, _, hg⟩ := decisions_grounds hd.planned
    obtain ⟨e, he⟩ : ∃ e, Store.get ((r.planInput slice startedAt).index x.1.emptied) x.1.path = some e := by
      cases hx : x.1 with
      | deleteRemote p =>
        rw [hx] at hg
        exact Option.isSome_iff_exists.mp hg.2.2.1
      | deleteLocal p =>
        rw [hx] at hg
        exact Option.isSome_iff_exists.mp hg.2.1
      | _ => simp [hx, ReplicationDecision.isDeletion] at hdel
    rw [hside, ← hpath]
    exact held_of_describe (h.listed _ _ e he)
  rw [hpath, ← hside] at hgone
  exact hheld (hsame.symm.trans hgone)

end Auditing

/-! ### A mirrored deletion, and one that the deadline cuts off -/

def Runner.prepared (r : Runner) (w : World) : Except JsString Slice × World :=
  (r.prepare (r.env.clock w.calls / 1000) (r.startedAt w)).run w.tick.tick

theorem of_prepared {r : Runner} {w : World} {P : Slice → World → Bool}
    (h : (match r.prepared w with | (.ok slice, w₁) => P slice w₁ | (.error _, _) => true) = true)
    {slice : Slice} {w₁ : World} (hp : r.Prepares w slice w₁) : P slice w₁ = true := by
  unfold Runner.Prepares at hp
  unfold Runner.prepared at h
  rwa [hp] at h

def mirrorRunner : Runner := { plainRunner with storedMode := js "pull-only", mirrorDeletions := some 1 }

def mirrorWorld : World := .ofTrees [(js "f", .file [1] 5)] []

def mirrorRow : PlanConflict := ⟨js "f", .remoteSide, .deletion, none⟩

def mirrors (slice : Slice) (w₁ : World) : Bool :=
  decide ((mirrorRunner.planInput slice 0).paths = [js "f"]) && decide (mirrorRunner.conflicts slice 0 = [mirrorRow]) &&
    decide ((mirrorRunner.steps slice 0 w₁).map Prod.fst = [.deleteLocal (js "f")]) &&
    (mirrorRunner.rowsFrom slice 0 w₁).isSome

theorem mirrorRunner_mirrors {slice : Slice} {w₁ : World} (hp : mirrorRunner.Prepares mirrorWorld slice w₁) :
    mirrors slice w₁ = true := of_prepared (by decide) hp

/-- The file was removed on the local side since the row was written. -/
def removedWorld : World := { World.ofTrees [] [(js "f", .file [1] 5)] with
  rows := [(js "f", ⟨⟨js "f", false, none, some 5, some 1, none, some 5, some 1, none⟩, 0⟩)] }

def skips (slice : Slice) (w₁ : World) : Bool :=
  (slowRunner.steps slice (slowRunner.startedAt removedWorld) w₁).isEmpty &&
    (w₁.audited (slowRunner.runSlice.run removedWorld).2).any (fun row => row.kind = .deletion ∧ row.path = js "f")

end DurableDav.Replication
