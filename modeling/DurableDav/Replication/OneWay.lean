import DurableDav.Replication.Effects
import DurableDav.Replication.CompleteView

namespace DurableDav.Replication

open Library

def Call.changes (s : Side) : Call → Bool
  | .write s' _ | .mkdir s' _ | .unlink s' _ => s' = s
  | _ => false

/-- No operation has been asked of the side, and nothing there has changed. -/
def World.Spares (s : Side) (w w' : World) : Prop :=
  w'.tree s = w.tree s ∧ ∃ es, w'.log = es ++ w.log ∧ ∀ e ∈ es, ∀ c, e.call = some c → c.changes s = false

namespace World.Spares

variable {s : Side} {w w' : World}

theorem of_note {e : Event} (he : ∀ c, e.call = some c → c.changes s = false) : World.Spares s w (w.note e) :=
  ⟨tree_note w s e, [e], rfl, by simpa using he⟩

theorem of_same (ht : w'.tree s = w.tree s) (hl : w'.log = w.log) : World.Spares s w w' := ⟨ht, [], hl, by simp⟩

instance : Deciding (World.Spares s) where
  refl _ := of_same rfl rfl
  trans := by
    rintro _ _ _ ⟨ht, es, h, he⟩ ⟨ht', es', h', he'⟩
    refine ⟨ht'.trans ht, es' ++ es, by rw [h', h, List.append_assoc], fun e hm => ?_⟩
    exact (List.mem_append.mp hm).elim (he' e) (he e)
  tick w := of_same (tree_tick w s) rfl
  look w e c he hc := by
    refine of_note (fun c' he' => ?_)
    obtain rfl : c = c' := by simpa [he] using he'
    cases c <;> simp_all [Call.isRead, Call.changes]
  applies _ _ := of_note (by simp [Event.call])
  failed _ _ := of_note (by simp [Event.call])

theorem of_onSide {α : Type} {s' : Side} (hs : s' ≠ s) (x : Act Tree JsString α) :
    Act.Within (World.Spares s) (onSide s' x) := fun w =>
  of_same ((tree_setTree w s' s _).trans (if_neg hs.symm)) (Notes.log_setTree w s' _)

end World.Spares

def Mutation.side : Mutation → Side
  | mkdir s _ | write s _ | unlink s _ _ => s

theorem mutation_spares {s : Side} {env : Env} {m : Mutation} (hm : m.side ≠ s) : Admits (World.Spares s) env m := by
  have other {c : Call} (hc : ∀ s', c.changes s' = true → s' = m.side) (w : World) (e : Event)
      (he : e.call = some c) : World.Spares s w (w.note e) := by
    refine World.Spares.of_note (fun c' he' => ?_)
    obtain rfl : c = c' := by simpa [he] using he'
    rw [← Bool.not_eq_true]
    exact fun h => hm (hc s h).symm
  have removed {p : JsString} {s' : Side} (hs : s' ≠ s) (x : Act Tree JsString Unit) :
      Act.Within (World.Spares s) (Env.removal s' p x) :=
    Act.within_bind Act.within_read fun _ => Act.within_bind (World.Spares.of_onSide hs x) fun _ =>
      Act.within_bind Act.within_read fun _ _ => World.Spares.of_note (by simp [Event.call])
  have partly {p : JsString} {recursive : Bool} {s' : Side} (hs : s' ≠ s) (n : ℕ) (w : World) :
      World.Spares s w (env.partialRemoval s' p recursive n w) := by
    cases recursive with
    | false => exact refl_of (World.Spares s) w
    | true =>
      refine trans_of (World.Spares s) (World.Spares.of_same ?_ ?_) (World.Spares.of_note (by simp [Event.call]))
      · exact (World.tree_setTree w s' s _).trans (if_neg hs.symm)
      · exact World.Notes.log_setTree w s' _
  intro contentType data
  cases m with
  | mkdir s' p =>
    have hc : ∀ x, (Call.mkdir s' p).changes x = true → x = s' := by simp [Call.changes, eq_comm]
    cases s' with
    | localSide =>
      have h : Act.Within (World.Spares s) (env.localMkdir p) :=
        within_named_call (other hc) intact_within (fun _ _ => World.Spares.of_onSide hm _)
      exact h
    | remoteSide =>
      have h : Act.Within (World.Spares s) (env.makeCollection p) :=
        within_named_call (other hc) intact_within (fun _ _ => World.Spares.of_onSide hm _)
      exact h
  | write s' p =>
    have hc : ∀ x, (Call.write s' p).changes x = true → x = s' := by simp [Call.changes, eq_comm]
    cases s' with
    | localSide =>
      have h : Act.Within (World.Spares s) (env.localWrite p contentType data) :=
        within_named_call (other hc) intact_within (fun _ _ => World.Spares.of_onSide hm _)
      exact h
    | remoteSide =>
      have h : Act.Within (World.Spares s) (env.remoteWriteFile p contentType data) :=
        within_named_call (other hc) intact_within (fun _ _ => World.Spares.of_onSide hm _)
      exact h
  | unlink s' p recursive =>
    have hc : ∀ x, (Call.unlink s' p).changes x = true → x = s' := by simp [Call.changes, eq_comm]
    cases s' with
    | localSide =>
      have h : Act.Within (World.Spares s) (env.localUnlink p recursive) :=
        within_named_call (other hc) (partly hm) (fun _ _ => removed hm _)
      exact h
    | remoteSide =>
      have h : Act.Within (World.Spares s) (env.remove p recursive) :=
        within_named_call (other hc) (partly hm) (fun _ _ => removed hm _)
      exact h

/-! ### What stays where it is -/

/-- What is at the path stays there, a file a file and a collection a collection. -/
def Tree.Steady (q : JsString) (t t' : Tree) : Prop :=
  ∀ a, t.content q = some a → ∃ a', t'.content q = some a' ∧ a'.isNone = a.isNone

namespace Tree

variable {p q : JsString}

instance : IsPreorder Tree (Steady q) where
  refl _ := fun a ha => ⟨a, ha, rfl⟩
  trans := by
    intro _ _ _ h h' a ha
    obtain ⟨b, hb, hab⟩ := h a ha
    obtain ⟨c, hc, hbc⟩ := h' b hb
    exact ⟨c, hc, hbc.trans hab⟩

theorem steady_of_moves {T : JsString → Prop} {t t' : Tree} (h : Moves T t t') (hq : ¬ T q) : Steady q t t' := by
  intro a ha
  exact ⟨a, (h.content_eq hq (by simp [ha])).trans ha, rfl⟩

theorem steady_put {t : Tree} (r : Resource) (hr : ∀ a, t.content p = some a → r.bytes.isNone = a.isNone) :
    Steady q t (Store.put t p r) := by
  intro a ha
  rw [content_put]
  split
  · rename_i hqp
    exact ⟨r.bytes, rfl, hr a (hqp ▸ ha)⟩
  · exact ⟨a, ha, rfl⟩

theorem mkdir_steady (now : ℕ) : Act.Within (Steady q) (mkdir p now) := by
  unfold mkdir
  split
  · exact Act.within_throw _
  · intro t a ha
    rcases content_mkdirAll t p now q with h | ⟨hn, _⟩
    · exact ⟨a, h.trans ha, rfl⟩
    · simp [ha] at hn

theorem mkcol_steady (r : Resource) : Act.Within (Steady q) (mkcol p r) := by
  intro t
  unfold mkcol
  rw [Act.run_bind, Act.run_read]
  dsimp only
  split
  · exact refl_of (Steady q) t
  · rename_i hnew
    split
    · refine steady_put { r with bytes := none } (fun a ha => ?_)
      have hn : Store.get t p = none := by simpa using fun h => hnew (.inr h)
      simp [content, hn] at ha
    · exact refl_of (Steady q) t

theorem writeFile_steady {r : Resource} {data : Bytes} (hr : r.bytes = some data) :
    Act.Within (Steady q) (writeFile p r) := by
  intro t
  unfold writeFile
  rw [Act.run_bind, Act.run_read]
  dsimp only
  split
  · rename_i hc
    refine steady_put r (fun a ha => ?_)
    have hfile : t.isDirectory p = false := by simpa using hc.2
    cases a with
    | none =>
      rw [isDirectory_iff.mpr (.inr ha)] at hfile
      exact Bool.noConfusion hfile
    | some b => simp [hr]
  · exact refl_of (Steady q) t

theorem write_steady (contentType : Option JsString) (data : Bytes) (now : ℕ) :
    Act.Within (Steady q) (write p contentType data now) := by
  unfold write
  split
  · exact Act.within_throw _
  · refine Act.within_bind ?_ (fun _ => writeFile_steady rfl)
    unfold mkdirParent
    split
    · exact Act.within_pure _
    · exact mkdir_steady now

end Tree

def World.Steady (s : Side) (q : JsString) (w w' : World) : Prop := Tree.Steady q (w.tree s) (w'.tree s)

namespace World.Steady

variable {s s' : Side} {q : JsString}

instance : Silent (World.Steady s q) where
  refl w := refl_of (Tree.Steady q) (w.tree s)
  trans _ _ _ h h' := trans_of (Tree.Steady q) h h'
  tick w := by
    unfold World.Steady
    rw [tree_tick]
    exact refl_of (Tree.Steady q) _
  note w e _ := by
    unfold World.Steady
    rw [tree_note]
    exact refl_of (Tree.Steady q) _

theorem of_onSide {α : Type} {x : Act Tree JsString α} (hx : Act.Within (Tree.Steady q) x) :
    Act.Within (World.Steady s q) (onSide s' x) := by
  intro w
  unfold World.Steady onSide
  rw [tree_setTree]
  split
  · rename_i hs
    rw [← hs]
    exact hx (w.tree s)
  · exact refl_of (Tree.Steady q) _

end World.Steady

theorem mutation_steady {s : Side} {q : JsString} (env : Env) {m : Mutation}
    (hm : ∀ s' p recursive, m = .unlink s' p recursive → ¬ m.Reaches s q) : Admits (World.Steady s q) env m := by
  cases m with
  | mkdir s' p =>
    exact admits_mkdir (fun _ => World.Steady.of_onSide (Tree.mkdir_steady _))
      (fun _ => World.Steady.of_onSide (Tree.mkcol_steady _))
  | write s' p =>
    exact admits_write (fun _ _ _ => World.Steady.of_onSide (Tree.write_steady _ _ _))
      (fun _ _ hr => World.Steady.of_onSide (Tree.writeFile_steady hr))
  | unlink s' p recursive =>
    intro contentType data w
    have hmoves : Admits (World.Moves (Mutation.unlink s' p recursive).Reaches) env (.unlink s' p recursive) :=
      mutation_moves (fun _ _ => id)
    exact Tree.steady_of_moves (hmoves contentType data w s) (hm s' p recursive rfl)

/-! ### Where the decisions of a mode point -/

section Modes

variable {input : BuildPlanInput} {d : ReplicationDecision}

theorem decidePath_compareContent {taken : List JsString} {p q : JsString} {l r : Option PlanSide} {b : Option PlanBase}
    {winner : Side} {k : Bool} (h : (decidePath input taken p l r b).decision = some (.compareContent q winner, k)) :
    input.mode ≠ .pullOnly ∧ input.mode ≠ .copyOnly := by
  unfold decidePath decideGone decideNewLocal decideNewRemote decideBothNew decideOneSided decideBoth
    preserveBoth preserveLocal applyWinner Verdict.emit Verdict.emitWith Verdict.skip Verdict.defer at h
  split at h <;> grind [conflictWinner]

theorem compareContent_twoWay {q : JsString} {winner : Side}
    (h : .compareContent q winner ∈ (buildReplicationPlan input).decisions) :
    input.mode ≠ .pullOnly ∧ input.mode ≠ .copyOnly := by
  obtain ⟨v, hv, k, hd⟩ := mem_decisions.mp h
  obtain ⟨p, _, taken, _, rfl⟩ := mem_walkPaths hv
  exact decidePath_compareContent hd

theorem asks_pullOnly (hm : input.mode = .pullOnly) (hd : d ∈ (buildReplicationPlan input).decisions) :
    ∀ m ∈ d.asks, m.side = .localSide := by
  obtain ⟨_, taken, _, hg⟩ := decisions_grounds hd
  cases d with
  | push p ct => exact absurd hm hg.2.2
  | deleteRemote p => exact absurd hm hg.2.2.2.2.2
  | keepBoth p w c =>
    obtain ⟨_, _, _, ls, rs, _, _, hw⟩ := hg
    simp [conflictWinner, hm] at hw
  | compareContent p w => exact absurd hm (compareContent_twoWay hd).1
  | _ => simp [ReplicationDecision.asks, Mutation.side]

theorem asks_copyOnly (hm : input.mode = .copyOnly) (hd : d ∈ (buildReplicationPlan input).decisions) :
    ∀ m ∈ d.asks, m.side = .remoteSide := by
  obtain ⟨_, taken, _, hg⟩ := decisions_grounds hd
  cases d with
  | pull p ct => exact absurd hm hg.2.2
  | deleteLocal p =>
    rcases hg.2.2.2.2 with h | h
    · exact absurd hm h.2.1
    · simp [hm] at h
  | keepBoth p w c =>
    obtain ⟨_, _, _, ls, rs, _, _, hw⟩ := hg
    simp [conflictWinner, hm] at hw
  | pullAndPreserve p c ct =>
    have hmode := hg.2.2.1
    simp [hm] at hmode
  | compareContent p w => exact absurd hm (compareContent_twoWay hd).2
  | _ => simp [ReplicationDecision.asks, Mutation.side]

theorem asks_unlink (hm : input.mode = .pullOnly) (hmirror : input.mirrorDeletions = false)
    (hd : d ∈ (buildReplicationPlan input).decisions) {s : Side} {p : JsString} {recursive : Bool}
    (h : .unlink s p recursive ∈ d.asks) : recursive = false ∧ ∃ c ct, d = .pullAndPreserve p c ct := by
  have hside := asks_pullOnly hm hd _ h
  obtain ⟨_, taken, _, hg⟩ := decisions_grounds hd
  cases d with
  | deleteLocal q =>
    rcases hg.2.2.2.2 with h' | h'
    · simp [h'.2.2 hm] at hmirror
    · simp [h'.2.2] at hmirror
  | pullAndPreserve q c ct =>
    simp only [ReplicationDecision.asks, List.mem_cons, List.not_mem_nil, or_false, reduceCtorEq, false_or,
      Mutation.unlink.injEq] at h
    exact ⟨h.2.2, c, ct, by rw [h.2.1]⟩
  | deleteRemote q =>
    simp only [ReplicationDecision.asks, List.mem_singleton, Mutation.unlink.injEq] at h
    simp [Mutation.side, h.1] at hside
  | _ => simp [ReplicationDecision.asks] at h

end Modes

theorem saveReplicaState_spares {s : Side} {env : Env} (records : List ReplicaStateRow) (forget : List JsString) :
    Act.Within (World.Spares s) (env.saveReplicaState records forget) := by
  refine within_named_call (fun w e he => World.Spares.of_note (fun c hc => ?_)) intact_within (fun _ _ w => ?_)
  · obtain rfl : Call.saveState = c := by simpa [he] using hc
    rfl
  · exact World.Spares.of_same (by cases s <;> rfl) rfl

theorem saveReplicaState_steady {s : Side} {q : JsString} {env : Env} (records : List ReplicaStateRow)
    (forget : List JsString) : Act.Within (World.Steady s q) (env.saveReplicaState records forget) :=
  within_call intact_within (fun _ _ _ => by cases s <;> exact refl_of (Tree.Steady q) _)

/-- A one-way mode never touches the side it reads from, and takes nothing away where it writes unless it mirrors. -/
theorem run_oneWay (input : BuildPlanInput) (o : ApplyOptions) (w : World) :
    (input.mode = .pullOnly →
      World.Spares .remoteSide w ((o.run (buildReplicationPlan input).decisions).run w).2 ∧
      (input.mirrorDeletions = false → ∀ q, w.localTree.content q ≠ none →
        (∀ c ct, .pullAndPreserve q c ct ∉ (buildReplicationPlan input).decisions) →
        ((o.run (buildReplicationPlan input).decisions).run w).2.localTree.content q ≠ none)) ∧
    (input.mode = .copyOnly →
      World.Spares .localSide w ((o.run (buildReplicationPlan input).decisions).run w).2) := by
  refine ⟨fun hm => ⟨?_, fun hmirror q hq hkept => ?_⟩, fun hm => ?_⟩
  · refine run_within (fun d hd m hask => mutation_spares ?_) saveReplicaState_spares w
    simp [asks_pullOnly hm hd m hask]
  · have hsteady : Act.Within (World.Steady .localSide q) (o.run (buildReplicationPlan input).decisions) := by
      refine run_within (fun d hd m hask => mutation_steady o.env ?_) saveReplicaState_steady
      rintro s p recursive rfl ⟨rfl, hreach⟩
      obtain ⟨rfl, c, ct, rfl⟩ := asks_unlink hm hmirror hd hask
      rcases hreach with rfl | ⟨h, _⟩
      · exact hkept c ct hd
      · simp at h
    obtain ⟨a, ha⟩ := Option.ne_none_iff_exists'.mp hq
    obtain ⟨a', ha', _⟩ := hsteady w a ha
    rw [show ((o.run (buildReplicationPlan input).decisions).run w).2.localTree.content q = some a' from ha']
    simp
  · refine run_within (fun d hd m hask => mutation_spares ?_) saveReplicaState_spares w
    simp [asks_copyOnly hm hd m hask]

def divergedWorld : World :=
  .ofTrees [(js "f", .file [1] 5), (js "h", .file [4] 2)] [(js "f", .file [2, 3] 7), (js "g", .file [] 1)]

def divergedRun (mode : ReplicationMode) : World :=
  (((BuildPlanInput.options (divergedWorld.view [[]] mode) .calm).run
    (buildReplicationPlan (divergedWorld.view [[]] mode)).decisions).run divergedWorld).2

theorem run_oneWay_diverged :
    World.Spares .remoteSide divergedWorld (divergedRun .pullOnly) ∧
    (divergedRun .pullOnly).localTree.content (js "h") ≠ none ∧
    World.Spares .localSide divergedWorld (divergedRun .copyOnly) := by
  have hpull := (run_oneWay (divergedWorld.view [[]] .pullOnly)
    (BuildPlanInput.options (divergedWorld.view [[]] .pullOnly) .calm) divergedWorld).1 rfl
  refine ⟨hpull.1, hpull.2 rfl (js "h") (by decide) (fun c ct h => ?_), ?_⟩
  · have hpaths : ∀ d ∈ (buildReplicationPlan (divergedWorld.view [[]] .pullOnly)).decisions, d.path ≠ js "h" := by
      decide
    exact hpaths _ h rfl
  · exact (run_oneWay (divergedWorld.view [[]] .copyOnly) _ divergedWorld).2 rfl

end DurableDav.Replication
