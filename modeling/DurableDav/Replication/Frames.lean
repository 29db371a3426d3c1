import DurableDav.Replication.PlanExecutor
import DurableDav.Replication.VolumeLemmas

namespace DurableDav.Replication

open Library

@[simp] theorem World.tree_setTree (w : World) (s s' : Side) (t : Tree) :
    (w.setTree s t).tree s' = if s' = s then t else w.tree s' := by
  cases s <;> cases s' <;> rfl

@[simp] theorem World.tree_tick (w : World) (s : Side) : w.tick.tree s = w.tree s := by cases s <;> rfl

@[simp] theorem World.tree_note (w : World) (s : Side) (e : Event) : (w.note e).tree s = w.tree s := by
  cases s <;> rfl

@[simp] theorem World.rows_setTree (w : World) (s : Side) (t : Tree) : (w.setTree s t).rows = w.rows := by
  cases s <;> rfl

@[simp] theorem World.pass_setTree (w : World) (s : Side) (t : Tree) : (w.setTree s t).pass = w.pass := by
  cases s <;> rfl

def Event.isRemoval : Event → Bool
  | .removed _ _ _ => true
  | _ => false

def Event.isCall : Event → Bool
  | .answered _ | .rejected _ | .blank _ | .cut _ => true
  | _ => false

def Event.call : Event → Option Call
  | .answered c | .rejected c | .blank c | .cut c => some c
  | _ => none

def Call.isRead : Call → Bool
  | .list _ _ | .read _ _ | .stat _ | .loadState => true
  | _ => false

theorem Event.isRemoval_of_isCall {e : Event} (he : e.isCall = true) : e.isRemoval = false := by
  cases e <;> simp_all [isCall, isRemoval]

theorem Event.isCall_of_call {e : Event} {c : Call} (he : e.call = some c) : e.isCall = true := by
  cases e <;> simp_all [isCall, call]

/-- A relation that the numbering of calls and the reads do not show in. -/
class Observing (R : World → World → Prop) : Prop extends IsPreorder World R where
  tick : ∀ w, R w w.tick
  look : ∀ w e c, e.call = some c → c.isRead = true → R w (w.note e)

/-- A relation that no call shows in by itself. -/
class Quiet (R : World → World → Prop) : Prop extends Observing R where
  call : ∀ w e, e.isCall = true → R w (w.note e)
  look w e _ he _ := call w e (Event.isCall_of_call he)

class Deciding (R : World → World → Prop) : Prop extends Observing R where
  applies : ∀ w d, R w (w.note (.applies d))
  failed : ∀ w d, R w (w.note (.failed d))

class Silent (R : World → World → Prop) : Prop extends Quiet R where
  note : ∀ w e, e.isRemoval = false → R w (w.note e)
  call w e he := note w e (Event.isRemoval_of_isCall he)

instance (R : World → World → Prop) [Silent R] : Deciding R where
  applies w _ := Silent.note w _ rfl
  failed w _ := Silent.note w _ rfl

theorem Call.outcome_call (c : Call) (a : Answer) : (c.outcome a).call = some c := by
  cases a <;> cases c <;> rfl

section Calls

variable {R : World → World → Prop} [Observing R] {α : Type} {env : Env}

theorem within_now : Act.Within R env.now := fun w => Observing.tick w

theorem within_carryOut {c : Call} {a : Answer} {x : Run α} (hc : ∀ w e, e.call = some c → R w (w.note e))
    (hx : Act.Within R x) : Act.Within R (carryOut c a x) := by
  intro w
  have h := hx w
  rw [run_carryOut]
  cases hrun : x.run w with
  | mk r w' =>
    rw [hrun] at h
    cases r with
    | ok v => exact trans_of R h (hc _ _ (c.outcome_call a))
    | error e => exact trans_of R h (hc _ _ rfl)

theorem within_named_call {c : Call} {spoil : ℕ → World → World} {body : ℕ → Answer → Run α}
    (hc : ∀ w e, e.call = some c → R w (w.note e)) (hs : ∀ n w, R w (spoil n w))
    (hb : ∀ n a, Act.Within R (body n a)) : Act.Within R (env.call c spoil body) := by
  intro w
  have answered (a : Answer) : R w ((carryOut c a (body w.calls a)).run w.tick).2 :=
    trans_of R (Observing.tick w) (within_carryOut hc (hb w.calls a) w.tick)
  unfold Env.call
  cases ha : env.answer w.calls with
  | rejects reason =>
    simp only [ha]
    exact trans_of R (Observing.tick w) (trans_of R (hs _ _) (hc _ _ rfl))
  | performs => simpa only [ha] using answered .performs
  | blank => simpa only [ha] using answered .blank
  | cut keep => simpa only [ha] using answered (.cut keep)

theorem intact_within : ∀ n w, R w (intact n w) := fun _ w => refl_of R w

theorem within_look {c : Call} {body : ℕ → Answer → Run α} (hc : c.isRead = true)
    (hb : ∀ n a, Act.Within R (body n a)) : Act.Within R (env.call c intact body) :=
  within_named_call (fun w e he => Observing.look w e c he hc) intact_within hb

omit [Observing R] in
theorem within_call [Quiet R] {c : Call} {spoil : ℕ → World → World} {body : ℕ → Answer → Run α}
    (hs : ∀ n w, R w (spoil n w)) (hb : ∀ n a, Act.Within R (body n a)) :
    Act.Within R (env.call c spoil body) :=
  within_named_call (fun w e he => Quiet.call w e (Event.isCall_of_call he)) hs hb

/-! ### Reads leave no trace -/

variable {path : JsString}

theorem list_within : Act.Within R (env.list path) := by
  refine within_look rfl (fun n a => Act.within_bind Act.within_read (fun w => ?_))
  split <;> exact Act.within_pure _

theorem listReplicaChildren_within : Act.Within R (env.listReplicaChildren path) := by
  refine within_look rfl (fun n a => Act.within_bind Act.within_read (fun w => ?_))
  split <;> exact Act.within_pure _

theorem stat_within : Act.Within R (env.stat path) := by
  refine within_look rfl (fun n a => Act.within_bind Act.within_read (fun w => ?_))
  split
  · split
    · exact Act.within_pure _
    · split
      · exact Act.within_throw _
      · exact Act.within_pure _
  · exact Act.within_pure _

theorem readReplicaStream_within : Act.Within R (env.readReplicaStream path) := by
  refine within_look rfl (fun n a => Act.within_bind Act.within_read (fun w => ?_))
  split
  · exact Act.within_pure _
  · split <;> exact Act.within_pure _

theorem readFile_within : Act.Within R (env.readFile path) := by
  refine within_look rfl (fun n a => Act.within_bind Act.within_read (fun w => ?_))
  split
  · exact Act.within_pure _
  · split
    · split
      · exact Act.within_pure _
      · exact Act.within_throw _
    · exact Act.within_pure _
    · exact Act.within_pure _

theorem loadReplicaStateRows_within : Act.Within R env.loadReplicaStateRows :=
  within_look rfl (fun _ _ => Act.within_bind Act.within_read (fun _ => Act.within_pure _))

end Calls

/-! ### The changes a decision asks for -/

inductive Mutation
  | mkdir (side : Side) (path : JsString)
  | write (side : Side) (path : JsString)
  | unlink (side : Side) (path : JsString) (recursive : Bool)
  deriving DecidableEq

def Mutation.act (env : Env) (contentType : Option JsString) (data : Bytes) : Mutation → Run Unit
  | mkdir .localSide path => env.localMkdir path
  | mkdir .remoteSide path => env.makeCollection path
  | write .localSide path => env.localWrite path contentType data
  | write .remoteSide path => env.remoteWriteFile path contentType data
  | unlink .localSide path recursive => env.localUnlink path recursive
  | unlink .remoteSide path recursive => env.remove path recursive

def ReplicationDecision.asks : ReplicationDecision → List Mutation
  | push p _ => [.mkdir .remoteSide p, .write .remoteSide p]
  | pull p _ => [.mkdir .localSide p, .write .localSide p]
  | deleteRemote p => [.unlink .remoteSide p true]
  | deleteLocal p => [.unlink .localSide p true]
  | keepBoth _ _ c =>
    [.mkdir .remoteSide c, .mkdir .localSide c, .write .localSide c, .write .remoteSide c]
  | pullAndPreserve p c _ =>
    [.mkdir .localSide p, .write .localSide p, .mkdir .localSide c, .write .localSide c,
      .unlink .localSide p false]
  | compareContent p _ =>
    [.mkdir .remoteSide p, .write .remoteSide p, .mkdir .localSide p, .write .localSide p]
  | agree _ _ _ | forget _ => []

def Admits (R : World → World → Prop) (env : Env) (m : Mutation) : Prop :=
  ∀ contentType data, Act.Within R (m.act env contentType data)

section Admits

variable {R : World → World → Prop} [Quiet R] {path : JsString}

theorem admits_mkdir {env : Env} {s : Side} (hx : ∀ now, Act.Within R (onSide s (mkdir path now)))
    (hy : ∀ r, Act.Within R (onSide s (mkcol path r))) : Admits R env (.mkdir s path) := by
  intro contentType data
  cases s with
  | localSide =>
    have h : Act.Within R (env.localMkdir path) := within_call intact_within (fun _ _ => hx _)
    exact h
  | remoteSide =>
    have h : Act.Within R (env.makeCollection path) := by
      refine within_call intact_within (fun _ _ => ?_)
      split
      · exact hx _
      · exact hy _
    exact h

theorem admits_write {env : Env} {s : Side}
    (hx : ∀ contentType data now, Act.Within R (onSide s (write path contentType data now)))
    (hy : ∀ data r, r.bytes = some data → Act.Within R (onSide s (writeFile path r))) :
    Admits R env (.write s path) := by
  intro contentType data
  cases s with
  | localSide =>
    have h : Act.Within R (env.localWrite path contentType data) :=
      within_call intact_within (fun _ _ => hx _ _ _)
    exact h
  | remoteSide =>
    have h : Act.Within R (env.remoteWriteFile path contentType data) := by
      refine within_call intact_within (fun _ _ => ?_)
      split
      · exact hx _ _ _
      · exact hy data _ rfl
    exact h

theorem admits_unlink {env : Env} {s : Side} {recursive : Bool}
    (hx : Act.Within R (Env.removal s path (unlink path recursive)))
    (hy : s = .remoteSide → Act.Within R (Env.removal s path (delete path)))
    (hs : ∀ n w, R w (env.partialRemoval s path recursive n w)) : Admits R env (.unlink s path recursive) := by
  intro contentType data
  cases s with
  | localSide =>
    have h : Act.Within R (env.localUnlink path recursive) := within_call hs (fun _ _ => hx)
    exact h
  | remoteSide =>
    have h : Act.Within R (env.remove path recursive) := by
      refine within_call hs (fun _ _ => ?_)
      split
      · exact hx
      · exact hy rfl
    exact h

end Admits

section Transfers

variable {R : World → World → Prop} [Observing R] {ctx : TransferContext} {path : JsString}

theorem remoteEntryOrStat_within : Act.Within R (ctx.remoteEntryOrStat path) := by
  unfold TransferContext.remoteEntryOrStat
  split
  · exact Act.within_pure _
  · exact stat_within

theorem pushTransfer_within (hm : Admits R ctx.env (.mkdir .remoteSide path))
    (hw : Admits R ctx.env (.write .remoteSide path)) : Act.Within R (ctx.pushTransfer path) := by
  unfold TransferContext.pushTransfer
  split
  · exact Act.within_throw _
  · split
    · exact Act.within_bind (hm none []) (fun _ => Act.within_pure _)
    · refine Act.within_bind readReplicaStream_within (fun stream => ?_)
      split
      · exact Act.within_throw _
      · exact Act.within_bind (hw _ _) (fun _ => Act.within_pure _)

theorem pullTransfer_within (hm : Admits R ctx.env (.mkdir .localSide path))
    (hw : Admits R ctx.env (.write .localSide path)) (contentType : Option JsString) :
    Act.Within R (ctx.pullTransfer path contentType) := by
  refine Act.within_bind remoteEntryOrStat_within (fun entry => ?_)
  split
  · exact Act.within_throw _
  · split
    · exact Act.within_bind (hm none []) (fun _ => Act.within_pure _)
    · refine Act.within_bind readFile_within (fun stream => ?_)
      split
      · exact Act.within_throw _
      · exact Act.within_bind (hw _ _) (fun _ => Act.within_pure _)

theorem remoteToLocal_within (hw : Admits R ctx.env (.write .localSide path)) (contentType : Option JsString) :
    Act.Within R (ctx.remoteToLocal path contentType) := by
  refine Act.within_bind readFile_within (fun stream => ?_)
  split
  · exact Act.within_pure _
  · exact hw _ _

theorem copyDown_within {conflictPath : JsString} (hw : Admits R ctx.env (.write .localSide conflictPath)) :
    Act.Within R (ctx.copyDown path conflictPath) := by
  refine Act.within_bind ?_ (fun stream => ?_)
  · unfold TransferContext.remoteFileStream
    split
    · exact Act.within_pure _
    · split
      · exact Act.within_pure _
      · exact readFile_within
  · split
    · exact Act.within_pure _
    · exact hw _ _

theorem copyUp_within {conflictPath : JsString} (hw : Admits R ctx.env (.write .remoteSide conflictPath)) :
    Act.Within R (ctx.copyUp path conflictPath) := by
  unfold TransferContext.copyUp
  split
  · exact Act.within_pure _
  · split
    · exact Act.within_pure _
    · refine Act.within_bind readReplicaStream_within (fun stream => ?_)
      split
      · exact Act.within_pure _
      · exact hw _ _

theorem keepBoth_within {conflictPath : JsString} {winner : Side}
    (h : ∀ m ∈ (ReplicationDecision.keepBoth path winner conflictPath).asks, Admits R ctx.env m) :
    Act.Within R (ctx.keepBoth path conflictPath) := by
  simp only [ReplicationDecision.asks, List.forall_mem_cons] at h
  obtain ⟨hmr, hml, hwl, hwr, _⟩ := h
  refine Act.within_bind ?_ (fun handled => ?_)
  · unfold TransferContext.preserveConflictingCollection
    split
    · exact Act.within_bind (hmr none []) (fun _ => Act.within_pure _)
    · split
      · exact Act.within_pure _
      · exact Act.within_bind (hml none []) (fun _ => Act.within_pure _)
  · split
    · exact Act.within_pure _
    · exact Act.within_bind (copyDown_within hwl) (fun _ => copyUp_within hwr)

theorem pullAndPreserve_within {conflictPath : JsString} {contentType : Option JsString}
    (h : ∀ m ∈ (ReplicationDecision.pullAndPreserve path conflictPath contentType).asks, Admits R ctx.env m) :
    Act.Within R (ctx.pullAndPreserve path conflictPath contentType) := by
  simp only [ReplicationDecision.asks, List.forall_mem_cons] at h
  obtain ⟨hm, hw, hmc, hwc, hu, _⟩ := h
  refine Act.within_bind remoteEntryOrStat_within (fun entry => ?_)
  dsimp only
  split
  · split
    · exact hm none []
    · exact remoteToLocal_within hw _
  · split
    · split
      · exact hm none []
      · exact remoteToLocal_within hw _
    · unfold TransferContext.replacePreserved
      split
      · exact Act.within_bind (hmc none []) (fun _ => Act.within_bind (hu none []) (fun _ => hm none []))
      · refine Act.within_bind readReplicaStream_within (fun stream => ?_)
        split
        · exact Act.within_pure _
        · exact Act.within_bind (hwc _ _) (fun _ => remoteToLocal_within hw _)

theorem compareContent_within {winner : Side}
    (h : ∀ m ∈ (ReplicationDecision.compareContent path winner).asks, Admits R ctx.env m) :
    Act.Within R (ctx.compareContent path winner) := by
  simp only [ReplicationDecision.asks, List.forall_mem_cons] at h
  obtain ⟨hmr, hwr, hml, hwl, _⟩ := h
  refine Act.within_bind readReplicaStream_within (fun a => Act.within_bind readFile_within (fun b => ?_))
  split
  · exact Act.within_throw _
  · exact Act.within_throw _
  · split
    · exact Act.within_pure _
    · split
      · exact pushTransfer_within hmr hwr
      · exact pullTransfer_within hml hwl _

theorem transfer_within {d : ReplicationDecision} (h : ∀ m ∈ d.asks, Admits R ctx.env m) :
    Act.Within R (ctx.transfer d) := by
  cases d with
  | push p ct => exact pushTransfer_within (h _ (by simp [ReplicationDecision.asks])) (h _ (by simp [ReplicationDecision.asks]))
  | pull p ct => exact pullTransfer_within (h _ (by simp [ReplicationDecision.asks])) (h _ (by simp [ReplicationDecision.asks])) _
  | deleteRemote p =>
    exact Act.within_bind (h (.unlink .remoteSide p true) List.mem_cons_self none []) (fun _ => Act.within_pure _)
  | deleteLocal p =>
    exact Act.within_bind (h (.unlink .localSide p true) List.mem_cons_self none []) (fun _ => Act.within_pure _)
  | keepBoth p w c => exact Act.within_bind (keepBoth_within h) (fun _ => Act.within_pure _)
  | pullAndPreserve p c ct => exact Act.within_bind (pullAndPreserve_within h) (fun _ => Act.within_pure _)
  | compareContent p w => exact compareContent_within h
  | agree p k ct => exact Act.within_pure _
  | forget p => exact Act.within_pure _

end Transfers

section RecordBase

variable {R : World → World → Prop} [Observing R] {env : Env}

theorem baseUpdate_within (path : JsString) : Act.Within R (env.baseUpdate path) := by
  refine Act.within_bind ?_ (fun l => Act.within_bind ?_ (fun r => ?_))
  · refine Act.within_bind (Act.within_attempt listReplicaChildren_within) (fun listing => ?_)
    split
    · exact Act.within_pure _
    · split <;> exact Act.within_pure _
  · refine Act.within_bind (Act.within_attempt stat_within) (fun entry => ?_)
    split <;> exact Act.within_pure _
  · split
    · exact Act.within_pure _
    · exact Act.within_bind within_now (fun _ => Act.within_pure _)
    · exact Act.within_pure _

theorem baseUpdates_within (paths : List JsString) : Act.Within R (env.baseUpdates paths) := by
  induction paths with
  | nil => exact Act.within_pure _
  | cons p ps ih =>
    refine Act.within_bind (baseUpdate_within p) (fun update => Act.within_bind ih (fun rest => ?_))
    split <;> exact Act.within_pure _

theorem recordBase_within {touched : List JsString}
    (hsave : ∀ records forget, Act.Within R (env.saveReplicaState records forget)) :
    Act.Within R (env.recordBase touched) := by
  refine Act.within_bind (baseUpdates_within touched) (fun updates => ?_)
  dsimp only
  split
  · exact Act.within_pure _
  · exact hsave _ _

end RecordBase

section Executor

variable {R : World → World → Prop} [Deciding R] {ctx : TransferContext}

theorem applyDecision_within {d : ReplicationDecision} (h : ∀ m ∈ d.asks, Admits R ctx.env m) :
    Act.Within R (ctx.applyDecision d) := by
  refine Act.within_bind (fun w => Deciding.applies w d) (fun _ =>
    Act.within_bind (Act.within_attempt (transfer_within h)) (fun outcome => ?_))
  split
  · exact Act.within_pure _
  · exact Act.within_bind (fun w => Deciding.failed w d) (fun _ => Act.within_pure _)

theorem applyAll_within {o : ApplyOptions} {ds : List ReplicationDecision}
    (h : ∀ d ∈ ds, ∀ m ∈ d.asks, Admits R o.env m) (st : ApplyState) : Act.Within R (o.applyAll ds st) := by
  induction ds generalizing st with
  | nil => exact Act.within_pure _
  | cons d ds ih =>
    refine Act.within_bind within_now (fun now => ?_)
    split
    · exact Act.within_pure _
    · exact Act.within_bind (applyDecision_within (h d List.mem_cons_self)) (fun _ =>
        ih (fun e he => h e (List.mem_cons_of_mem _ he)) _)

theorem run_within {o : ApplyOptions} {ds : List ReplicationDecision}
    (h : ∀ d ∈ ds, ∀ m ∈ d.asks, Admits R o.env m)
    (hsave : ∀ records forget, Act.Within R (o.env.saveReplicaState records forget)) :
    Act.Within R (o.run ds) :=
  Act.within_bind (applyAll_within h _) (fun _ =>
    Act.within_bind (recordBase_within hsave) (fun _ => Act.within_pure _))

end Executor

/-! ### What the changes move -/

def World.Moves (T : Side → JsString → Prop) (w w' : World) : Prop :=
  ∀ s, Tree.Moves (T s) (w.tree s) (w'.tree s)

namespace World.Moves

variable {T U : Side → JsString → Prop} {w w' : World}

instance : Silent (World.Moves T) where
  refl _ := fun _ => Tree.Moves.refl _
  trans _ _ _ h h' := fun s => (h s).trans (h' s)
  tick w := fun s => by rw [tree_tick]; exact Tree.Moves.refl _
  note w e _ := fun s => by rw [tree_note]; exact Tree.Moves.refl _

theorem mono (h : World.Moves T w w') (hTU : ∀ s q, T s q → U s q) : World.Moves U w w' :=
  fun s => (h s).mono (hTU s)

theorem content_eq (h : World.Moves T w w') {s : Side} {q : JsString} (hq : ¬ T s q)
    (hc : (w.tree s).content q ≠ none) : (w'.tree s).content q = (w.tree s).content q :=
  (h s).content_eq hq hc

theorem of_onSide {α : Type} {s : Side} {x : Act Tree JsString α} {S : JsString → Prop}
    (hx : Act.Within (Tree.Moves S) x) (hS : ∀ q, S q → T s q) : Act.Within (World.Moves T) (onSide s x) := by
  intro w s'
  by_cases hs : s' = s
  · subst hs
    simpa [onSide] using (hx (w.tree s')).mono hS
  · simpa [onSide, hs] using Tree.Moves.refl _

theorem of_note (e : Event) : Act.Within (World.Moves T) (noteEvent e) := fun w s => by
  rw [show ((noteEvent e).run w).2 = w.note e from rfl, tree_note]
  exact Tree.Moves.refl _

end World.Moves

def Mutation.Reaches : Mutation → Side → JsString → Prop
  | mkdir s p, s', q => s' = s ∧ q = p
  | write s p, s', q => s' = s ∧ q = p
  | unlink s p recursive, s', q => s' = s ∧ (q = p ∨ (recursive = true ∨ s = .remoteSide) ∧ Below slash p q)

theorem partialRemoval_moves {T : Side → JsString → Prop} {env : Env} {path : JsString} {s : Side}
    {recursive : Bool} (hT : ∀ q, q = path ∨ (recursive = true ∨ s = .remoteSide) ∧ Below slash path q → T s q)
    (n : ℕ) (w : World) : World.Moves T w (env.partialRemoval s path recursive n w) := by
  cases recursive with
  | false => exact refl_of (World.Moves T) w
  | true =>
    intro s'
    by_cases hs : s' = s
    · subst hs
      simpa [Env.partialRemoval] using
        (Tree.moves_removeFiles (env.unlinked n)).mono (fun q hq => hT q (.inr ⟨.inl rfl, hq⟩))
    · simpa [Env.partialRemoval, hs] using Tree.Moves.refl _

theorem removal_moves {T : Side → JsString → Prop} {S : JsString → Prop} {path : JsString} {s : Side}
    {x : Act Tree JsString Unit} (hx : Act.Within (Tree.Moves S) x) (hT : ∀ q, S q → T s q) :
    Act.Within (World.Moves T) (Env.removal s path x) :=
  Act.within_bind Act.within_read fun _ => Act.within_bind (World.Moves.of_onSide hx hT) fun _ =>
    Act.within_bind Act.within_read fun _ => World.Moves.of_note _

theorem mutation_moves {T : Side → JsString → Prop} {env : Env} {m : Mutation}
    (hT : ∀ s q, m.Reaches s q → T s q) : Admits (World.Moves T) env m := by
  cases m with
  | mkdir s p =>
    have hp : ∀ q, q = p → T s q := fun q hq => hT s q ⟨rfl, hq⟩
    exact admits_mkdir (fun _ => World.Moves.of_onSide (Tree.mkdir_moves _) hp)
      (fun _ => World.Moves.of_onSide (Tree.mkcol_moves _) hp)
  | write s p =>
    have hp : ∀ q, q = p → T s q := fun q hq => hT s q ⟨rfl, hq⟩
    exact admits_write (fun _ _ _ => World.Moves.of_onSide (Tree.write_moves _ _ _) hp)
      (fun _ _ _ => World.Moves.of_onSide (Tree.writeFile_moves _) hp)
  | unlink s p recursive =>
    have hp : ∀ q, q = p ∨ (recursive = true ∨ s = .remoteSide) ∧ Below slash p q → T s q :=
      fun q hq => hT s q ⟨rfl, hq⟩
    refine admits_unlink ?_ (fun hs => ?_) (partialRemoval_moves hp)
    · cases recursive with
      | true => exact removal_moves (Tree.unlink_moves _) (fun q hq => hp q (hq.imp_right (fun h => ⟨.inl rfl, h⟩)))
      | false => exact removal_moves Tree.unlink_moves_shallow (fun q hq => hp q (.inl hq))
    · exact removal_moves Tree.delete_moves (fun q hq => hp q (hq.imp_right (fun h => ⟨.inr hs, h⟩)))

def ReplicationDecision.Targets (d : ReplicationDecision) (s : Side) (q : JsString) : Prop :=
  ∃ m ∈ d.asks, m.Reaches s q

theorem saveReplicaState_moves {T : Side → JsString → Prop} {env : Env} (records : List ReplicaStateRow)
    (forget : List JsString) : Act.Within (World.Moves T) (env.saveReplicaState records forget) :=
  within_call intact_within (fun _ _ _ s => by cases s <;> exact Tree.Moves.refl _)

theorem run_moves (o : ApplyOptions) (ds : List ReplicationDecision) :
    Act.Within (World.Moves (fun s q => ∃ d ∈ ds, d.Targets s q)) (o.run ds) :=
  run_within (fun d hd m hm => mutation_moves (fun _ _ hr => ⟨d, hd, m, hm, hr⟩))
    (fun _ _ => saveReplicaState_moves _ _)

end DurableDav.Replication
