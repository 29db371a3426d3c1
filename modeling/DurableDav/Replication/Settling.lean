import DurableDav.Replication.CompleteView
import DurableDav.Replication.Effects

namespace DurableDav.Replication

open Library

/-- Where both sides hold a resource, it is of the same kind with the same bytes. -/
def Agree (c : Side → Option (Option Bytes)) : Prop :=
  ∀ a b, c .localSide = some a → c .remoteSide = some b → a = b

/-- The ways in which a transfer ends without an error and without bringing two versions together. -/
def Idle (env : Env) (c : Side → Option (Option Bytes)) (log : List Event) : ReplicationDecision → Prop
  | .push _ _ => c .localSide = some none
  | .pull _ _ => c .remoteSide = some none
  | .deleteRemote _ | .deleteLocal _ => False
  | .keepBoth _ _ _ | .agree _ _ _ | .forget _ => True
  | .pullAndPreserve p _ _ => c .localSide = some none ∨
      .blank (.read .localSide p) ∈ log ∨ .blank (.read .remoteSide p) ∈ log
  | .compareContent _ _ => ∃ a b, c .localSide = some (some a) ∧ c .remoteSide = some (some b) ∧
      env.sha256HexOfBytes a = env.sha256HexOfBytes b

section Transfers

variable {ctx : TransferContext} {p : JsString} {c : Side → Option (Option Bytes)} {l r : PlanSide}

@[simp] theorem agree_update_local (v : Option (Option Bytes)) : Agree (Function.update c .localSide v) ↔
    ∀ a b, v = some a → c .remoteSide = some b → a = b := by simp [Agree]

@[simp] theorem agree_update_remote (v : Option (Option Bytes)) : Agree (Function.update c .remoteSide v) ↔
    ∀ a b, c .localSide = some a → v = some b → a = b := by simp [Agree]

/-- The entry of a listing still tells the kind of what the side holds. -/
def Tells (e : PlanSide) (v : Option (Option Bytes)) : Prop := v.map Option.isNone = some e.isCollection

theorem Tells.collection {v : Option (Option Bytes)} (h : Tells l v) (hl : l.isCollection = true) :
    v = some none := by
  obtain ⟨a, rfl, ha⟩ := Option.map_eq_some_iff.mp h
  rw [hl, Option.isNone_iff_eq_none] at ha
  rw [ha]

theorem Tells.file {v : Option (Option Bytes)} (h : Tells l v) (hl : l.isCollection = false) :
    ∃ data, v = some (some data) := by
  obtain ⟨a, rfl, ha⟩ := Option.map_eq_some_iff.mp h
  rw [hl] at ha
  obtain ⟨data, rfl⟩ := Option.isSome_iff_exists.mp (by simpa using ha : a.isSome = true)
  exact ⟨data, rfl⟩

theorem Delivers.file {call : Call} {v : Option (Option Bytes)} {data : Bytes} {w : World}
    (h : Delivers call v (some data) w) : v = some (some data) := by
  rcases h with h | ⟨h, _⟩
  · exact Option.join_eq_some_iff.mp h.symm
  · exact absurd h (by simp)

theorem Delivers.absent {call : Call} {data : Bytes} {w : World}
    (h : Delivers call (some (some data)) none w) : .blank call ∈ w.log := by
  rcases h with h | ⟨_, h⟩
  · exact absurd h (by simp)
  · exact h

/-- After a transfer the sides agree, or nothing has moved and the transfer was idle. -/
def Settled (p : JsString) (c : Side → Option (Option Bytes)) (idle : World → Prop) (w : World) : Prop :=
  ∃ c', w.Holds p c' ∧ (Agree c' ∨ c' = c ∧ idle w)

theorem Settled.mono {w : World} {I J : World → Prop} (h : Settled p c I w) (hIJ : I w → J w) :
    Settled p c J w := by
  obtain ⟨c', hw, h⟩ := h
  exact ⟨c', hw, h.imp_right (fun ⟨hc, hi⟩ => ⟨hc, hIJ hi⟩)⟩

theorem pushTransfer_meets (hl : ctx.localEntry p = some l) (ht : Tells l (c .localSide)) (hp : p ≠ [])
    (hv : isValidInnerPath p = true) : Act.Meets (World.Holds p c) (ctx.pushTransfer p)
      (fun _ => Settled p c (fun _ => c .localSide = some none)) (World.Holds p c) := by
  unfold TransferContext.pushTransfer
  rw [hl]
  dsimp only
  split
  · rename_i hcoll
    have hc := ht.collection hcoll
    refine Act.meets_bind (mkdir_meets (s := .remoteSide) none []) (fun _ => Act.meets_pure (fun w hw => ?_))
    obtain ⟨v, rfl | ⟨_, rfl⟩, hw⟩ := hw
    · exact ⟨c, by rwa [Function.update_eq_self] at hw, .inr ⟨rfl, hc⟩⟩
    · exact ⟨_, hw, .inl (by simp [hc])⟩
  · refine Act.meets_bind (readReplicaStream_meets hp hv) (fun stream => ?_)
    cases stream with
    | none => exact Act.meets_throw (fun w h => h.1)
    | some data =>
      intro w ⟨hw, hd⟩
      have hdata := hd.file
      refine Act.meets_bind (P := World.Holds p c) (write_meets (s := .remoteSide) _ _)
        (fun _ => Act.meets_pure (fun w hw => ⟨_, hw, .inl ?_⟩)) w hw
      simp [hdata]

theorem localMkdir_meets (hr : c .remoteSide = some none) : Act.Meets (World.Holds p c) (ctx.env.localMkdir p)
    (fun _ => Settled p c (fun _ => c .remoteSide = some none)) (World.Holds p c) := by
  refine (mkdir_meets (s := .localSide) none []).weaken (fun _ => id) (fun _ w hw => ?_) (fun _ => id)
  obtain ⟨v, rfl | ⟨_, rfl⟩, hw⟩ := hw
  · exact ⟨c, by rwa [Function.update_eq_self] at hw, .inr ⟨rfl, hr⟩⟩
  · exact ⟨_, hw, .inl (by simp [hr])⟩

theorem localWrite_meets {contentType : Option JsString} {data : Bytes} (hr : c .remoteSide = some (some data)) :
    Act.Meets (World.Holds p c) (ctx.env.localWrite p contentType data)
      (fun _ => Settled p c (fun _ => False)) (World.Holds p c) := by
  refine (write_meets (s := .localSide) contentType data).weaken (fun _ => id) (fun _ w hw => ?_) (fun _ => id)
  exact ⟨_, hw, .inl (by simp [hr])⟩

theorem pullTransfer_meets (contentType : Option JsString) (hr : ctx.remoteEntry p = some r)
    (ht : Tells r (c .remoteSide)) : Act.Meets (World.Holds p c) (ctx.pullTransfer p contentType)
      (fun _ => Settled p c (fun _ => c .remoteSide = some none)) (World.Holds p c) := by
  unfold TransferContext.pullTransfer TransferContext.remoteEntryOrStat
  rw [hr]
  refine Act.meets_bind (R := fun e w => e = some r ∧ w.Holds p c) (Act.meets_pure (fun w hw => ⟨rfl, hw⟩))
    (fun e w ⟨he, hw⟩ => ?_)
  subst he
  dsimp only
  split
  · rename_i hcoll
    have hmade : Act.Meets (World.Holds p c) (ctx.env.localMkdir p) _ _ := localMkdir_meets (ht.collection hcoll)
    exact Act.meets_bind (Q := fun _ => Settled p c _) hmade (fun _ => Act.meets_pure (fun _ h => h)) w hw
  · refine Act.meets_bind readFile_meets (fun stream => ?_) w hw
    cases stream with
    | none => exact Act.meets_throw (fun w h => h.1)
    | some data =>
      intro w ⟨hw, hd⟩
      have hwritten : Act.Meets (World.Holds p c) (ctx.env.localWrite p contentType data) _ _ := localWrite_meets hd.file
      exact Act.meets_bind (Q := fun _ => Settled p c _) hwritten
        (fun _ => Act.meets_pure (fun w h => h.mono (fun h => h.elim))) w hw

theorem compareContent_meets {winner : Side} (hl : ctx.localEntry p = some l) (hr : ctx.remoteEntry p = some r)
    (htl : Tells l (c .localSide)) (htr : Tells r (c .remoteSide)) (hp : p ≠ []) (hv : isValidInnerPath p = true) :
    Act.Meets (World.Holds p c) (ctx.compareContent p winner)
      (fun _ w => Settled p c (fun w => Idle ctx.env c w.log (.compareContent p winner)) w) (World.Holds p c) := by
  refine Act.meets_bind (readReplicaStream_meets hp hv) (fun a w ⟨hw, ha⟩ => ?_)
  refine Act.meets_bind readFile_meets (fun b w ⟨hw, hb⟩ => ?_) w hw
  cases a with
  | none => exact hw
  | some a =>
    cases b with
    | none => exact hw
    | some b =>
      have hcl := ha.file
      have hcr := hb.file
      dsimp only
      split
      · rename_i hash
        exact ⟨c, hw, .inr ⟨rfl, a, b, hcl, hcr, hash⟩⟩
      · cases winner with
        | localSide =>
          refine (pushTransfer_meets hl htl hp hv).weaken (fun _ => id) (fun _ w h => h.mono ?_) (fun _ => id) w hw
          intro h
          simp [h] at hcl
        | remoteSide =>
          refine (pullTransfer_meets _ hr htr).weaken (fun _ => id) (fun _ w h => h.mono ?_) (fun _ => id) w hw
          intro h
          simp [h] at hcr

theorem mutation_frame {env : Env} {m : Mutation} (hm : ∀ s q, m.Reaches s q → q ≠ p ∧ ¬ Below slash p q)
    (contentType : Option JsString) (data : Bytes) : Act.Meets (World.Holds p c) (m.act env contentType data)
      (fun _ => World.Holds p c) (World.Holds p c) :=
  (mutation_moves (T := m.Reaches) (fun _ _ h => h) contentType data).meets (fun _ _ hw h => h.holds hw hm)

theorem remoteToLocal_meets (contentType : Option JsString) : Act.Meets (World.Holds p c)
    (ctx.remoteToLocal p contentType) (fun _ => Settled p c (fun w =>
      c .remoteSide = none ∨ c .remoteSide = some none ∨ .blank (.read .remoteSide p) ∈ w.log)) (World.Holds p c) := by
  refine Act.meets_bind readFile_meets (fun stream w ⟨hw, hd⟩ => ?_)
  cases stream with
  | none =>
    refine ⟨c, hw, .inr ⟨rfl, ?_⟩⟩
    cases hc : c .remoteSide with
    | none => exact .inl rfl
    | some b =>
      cases b with
      | none => exact .inr (.inl rfl)
      | some data =>
        rw [hc] at hd
        exact .inr (.inr hd.absent)
  | some data =>
    refine (localWrite_meets hd.file).weaken (fun _ => id) (fun _ w h => h.mono (fun h => h.elim)) (fun _ => id) w hw

/-- A transfer that fails leaves the path alone, or has taken the local file out of the way. -/
def Left (p : JsString) (c : Side → Option (Option Bytes)) (w : World) : Prop :=
  w.Holds p c ∨ w.Holds p (Function.update c .localSide none)

theorem replacePreserved_meets {conflictPath : JsString} {contentType : Option JsString}
    (hbeside : conflictPath ≠ p ∧ ¬ Below slash p conflictPath) (htl : Tells l (c .localSide))
    (htr : Tells r (c .remoteSide)) (hfile : l.isCollection = false) (hp : p ≠ [])
    (hv : isValidInnerPath p = true) :
    Act.Meets (World.Holds p c) (ctx.replacePreserved p conflictPath contentType l r.isCollection)
      (fun _ => Settled p c (fun w => .blank (.read .localSide p) ∈ w.log ∨ .blank (.read .remoteSide p) ∈ w.log))
      (Left p c) := by
  have aside {m : Mutation} (hm : ∀ s q, m.Reaches s q → q = conflictPath) (contentType : Option JsString)
      (data : Bytes) : Act.Meets (World.Holds p c) (m.act ctx.env contentType data)
        (fun _ => World.Holds p c) (Left p c) :=
    (mutation_frame (fun s q h => hm s q h ▸ hbeside) contentType data).weaken (fun _ => id) (fun _ _ => id)
      (fun _ => .inl)
  unfold TransferContext.replacePreserved
  split
  · rename_i hcoll
    have hr := htr.collection hcoll
    have hunlink : Act.Meets (World.Holds p c) ((Mutation.unlink .localSide p false).act ctx.env none []) _ _ :=
      unlink_meets (by simp) none []
    have hmoved : Act.Meets (World.Holds p c) (ctx.env.localUnlink p false)
        (fun _ => World.Holds p (Function.update c .localSide none)) (Left p c) :=
      hunlink.weaken (fun _ => id) (fun _ _ => id) (fun _ => .inl)
    have hmade : Act.Meets (World.Holds p (Function.update c .localSide none)) (ctx.env.localMkdir p)
        (fun _ => Settled p c (fun _ => False)) (Left p c) := by
      refine (mkdir_meets (s := .localSide) none []).weaken (fun _ => id) (fun _ w hw => ?_) (fun _ => .inr)
      obtain ⟨v, hcase, hw⟩ := hw
      refine ⟨_, hw, .inl ?_⟩
      rcases hcase with rfl | ⟨_, rfl⟩ <;> simp [hr]
    refine Act.meets_bind (aside (m := .mkdir .localSide conflictPath) (fun _ _ h => h.2) none [])
      (fun _ => Act.meets_bind hmoved (fun _ => ?_))
    exact hmade.weaken (fun _ => id) (fun _ w h => h.mono (fun h => h.elim)) (fun _ => id)
  · rename_i hcoll
    obtain ⟨data, hl⟩ := htl.file hfile
    obtain ⟨data', hr⟩ := htr.file (by simpa using hcoll)
    refine Act.meets_bind ((readReplicaStream_meets hp hv).weaken (fun _ => id) (fun _ _ => id) (fun _ => .inl))
      (fun stream w ⟨hw, hd⟩ => ?_)
    cases stream with
    | none =>
      rw [hl] at hd
      exact ⟨c, hw, .inr ⟨rfl, .inl hd.absent⟩⟩
    | some stream =>
      refine Act.meets_bind (aside (m := .write .localSide conflictPath) (fun _ _ h => h.2) l.contentType stream)
        (fun _ => ?_) w hw
      refine (remoteToLocal_meets contentType).weaken (fun _ => id) (fun _ w h => h.mono ?_) (fun _ => .inl)
      intro h
      rw [hr] at h
      exact .inr (by simpa using h)

theorem pullAndPreserve_meets {conflictPath : JsString} {contentType : Option JsString}
    (hbeside : conflictPath ≠ p ∧ ¬ Below slash p conflictPath) (hl : ctx.localEntry p = some l)
    (hr : ctx.remoteEntry p = some r) (htl : Tells l (c .localSide)) (htr : Tells r (c .remoteSide)) (hp : p ≠ [])
    (hv : isValidInnerPath p = true) :
    Act.Meets (World.Holds p c) (ctx.pullAndPreserve p conflictPath contentType)
      (fun _ => Settled p c (fun w => Idle ctx.env c w.log (.pullAndPreserve p conflictPath contentType)))
      (Left p c) := by
  unfold TransferContext.pullAndPreserve TransferContext.remoteEntryOrStat
  rw [hr, hl]
  refine Act.meets_bind (R := fun e w => e = some r ∧ w.Holds p c) (Act.meets_pure (fun w hw => ⟨rfl, hw⟩))
    (fun e w ⟨he, hw⟩ => ?_)
  subst he
  dsimp only [Option.any_some]
  split
  · rename_i hcoll
    have hc := htl.collection hcoll
    split
    · rename_i hrc
      exact (localMkdir_meets (htr.collection hrc)).weaken (fun _ => id) (fun _ w h => h.mono (fun _ => .inl hc))
        (fun _ => .inl) w hw
    · exact (remoteToLocal_meets _).weaken (fun _ => id) (fun _ w h => h.mono (fun _ => .inl hc)) (fun _ => .inl) w hw
  · rename_i hfile
    exact (replacePreserved_meets hbeside htl htr (by simpa using hfile) hp hv).weaken (fun _ => id)
      (fun _ w h => h.mono .inr) (fun _ => id) w hw

end Transfers

/-! ### What a decision of the plan leaves at its path -/

/-- A slice's listings name what the sides hold. -/
def Listed (input : BuildPlanInput) (w : World) : Prop :=
  ∀ s p e, Store.get (input.index s) p = some e → (w.tree s).describe p = some e

/-- The transfers read the listings that the plan was built from. -/
structure Serves (ctx : TransferContext) (input : BuildPlanInput) : Prop where
  localByPath : ctx.slice.localByPath = input.localIndex
  remoteByPath : ctx.slice.remoteByPath = input.remoteIndex

section Decisions

variable {input : BuildPlanInput} {ctx : TransferContext} {d : ReplicationDecision}
  {c : Side → Option (Option Bytes)}

theorem conflictPath_aside (ht : input.RandomToken) (hd : d ∈ (buildReplicationPlan input).decisions)
    {q : JsString} (hq : d.conflictPath = some q) : q ≠ d.path ∧ ¬ Below slash d.path q := by
  have hp := (decisions_grounds hd).1
  constructor
  · intro he
    exact conflictPath_notMem ht.fresh hd hq (he ▸ hp)
  · exact not_below_of_beside (path_ne_nil hp) (conflictPath_beside ht hd hq)

/-- What the listings held of a transferred path is still there. -/
def Live (input : BuildPlanInput) (c : Side → Option (Option Bytes)) (d : ReplicationDecision) : Prop :=
  d.isDeletion = false → ∀ s e, Store.get (input.index s) d.path = some e → Tells e (c s)

theorem transfer_meets (hs : Serves ctx input) (ht : input.RandomToken)
    (hvalid : ∀ s p, (Store.get (input.index s) p).isSome → isValidInnerPath p = true)
    (hd : d ∈ (buildReplicationPlan input).decisions) (hlive : Live input c d) :
    Act.Meets (World.Holds d.path c) (ctx.transfer d)
      (fun _ => Settled d.path c (fun w => Idle ctx.env c w.log d))
      (fun w => Left d.path c w ∧ (d.conflictPath = none → w.Holds d.path c)) := by
  obtain ⟨hmem, taken, _, hg⟩ := decisions_grounds hd
  have hne := path_ne_nil hmem
  have tells {s : Side} {e : PlanSide} (hdel : d.isDeletion = false)
      (h : Store.get (input.index s) d.path = some e) : Tells e (c s) := hlive hdel s e h
  have hentry (p : JsString) : ctx.localEntry p = Store.get input.localIndex p ∧
      ctx.remoteEntry p = Store.get input.remoteIndex p := by
    unfold TransferContext.localEntry TransferContext.remoteEntry
    rw [hs.localByPath, hs.remoteByPath]
    exact ⟨rfl, rfl⟩
  have stays {x : Run ℕ} {P : ℕ → World → Prop} (h : Act.Meets (World.Holds d.path c) x P (World.Holds d.path c)) :
      Act.Meets (World.Holds d.path c) x P (fun w => Left d.path c w ∧ (d.conflictPath = none → w.Holds d.path c)) :=
    h.weaken (fun _ => id) (fun _ _ => id) (fun _ h => ⟨.inl h, fun _ => h⟩)
  have gone {s : Side} {x : Run Unit} (h : Act.Meets (World.Holds d.path c) x
      (fun _ => World.Holds d.path (Function.update c s none)) (World.Holds d.path c)) :
      Act.Meets (World.Holds d.path c) (x >>= fun _ => pure 0)
        (fun _ => Settled d.path c (fun w => Idle ctx.env c w.log d)) (World.Holds d.path c) :=
    Act.meets_bind h (fun _ => Act.meets_pure (fun w hw => ⟨_, hw, .inl (by cases s <;> simp)⟩))
  cases d with
  | push p ct =>
    obtain ⟨e, he, _⟩ := hg.2.1
    have hv := hvalid .localSide p (by simp [BuildPlanInput.index, show Store.get input.localIndex p = some e from he])
    exact stays (pushTransfer_meets ((hentry p).1.trans he) (tells rfl he) hne hv)
  | pull p ct =>
    obtain ⟨e, he⟩ := Option.isSome_iff_exists.mp hg.2.1
    exact stays (pullTransfer_meets ct ((hentry p).2.trans he) (tells rfl he))
  | deleteRemote p => exact stays (gone (unlink_meets (s := .remoteSide) (fun _ => rfl) none []))
  | deleteLocal p => exact stays (gone (unlink_meets (s := .localSide) (by simp) none []))
  | keepBoth p w q =>
    have hframe : Act.Within (World.Moves (fun _ x => x = q)) (ctx.transfer (.keepBoth p w q)) := by
      refine transfer_within (fun m hm => mutation_moves (fun s x hx => ?_))
      simp only [ReplicationDecision.asks, List.mem_cons, List.not_mem_nil, or_false] at hm
      rcases hm with rfl | rfl | rfl | rfl <;> exact hx.2
    have haside := conflictPath_aside ht hd rfl
    refine stays ((hframe.meets (fun _ _ hw h => h.holds hw (fun _ x hx => hx ▸ haside))).weaken
      (fun _ => id) (fun _ w hw => ⟨c, hw, .inr ⟨rfl, trivial⟩⟩) (fun _ => id))
  | pullAndPreserve p q ct =>
    obtain ⟨_, _, _, hr, e, he, _⟩ := hg
    obtain ⟨r, hr⟩ := Option.isSome_iff_exists.mp hr
    have hv := hvalid .localSide p (by simp [BuildPlanInput.index, show Store.get input.localIndex p = some e from he])
    have h : Act.Meets _ (ctx.pullAndPreserve p q ct) _ _ := pullAndPreserve_meets (conflictPath_aside ht hd rfl)
      ((hentry p).1.trans he) ((hentry p).2.trans hr) (tells (s := .localSide) rfl he) (tells (s := .remoteSide) rfl hr) hne hv
    refine Act.meets_bind (h.weaken (fun _ => id) (fun _ _ => id) (fun w hw => ⟨hw, ?_⟩))
      (fun _ => Act.meets_pure (fun _ => id))
    intro hnone
    simp [ReplicationDecision.conflictPath] at hnone
  | compareContent p w =>
    obtain ⟨_, _, l, r, hl, hr, _⟩ := hg
    have hv := hvalid .localSide p (by simp [BuildPlanInput.index, show Store.get input.localIndex p = some l from hl])
    exact stays (compareContent_meets ((hentry p).1.trans hl) ((hentry p).2.trans hr)
      (tells (s := .localSide) rfl hl) (tells (s := .remoteSide) rfl hr) hne hv)
  | agree p k ct => exact Act.meets_pure (fun w hw => ⟨c, hw, .inr ⟨rfl, trivial⟩⟩)
  | forget p => exact Act.meets_pure (fun w hw => ⟨c, hw, .inr ⟨rfl, trivial⟩⟩)

end Decisions

end DurableDav.Replication
