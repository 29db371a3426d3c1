import DurableDav.Replication.BaseAgreement
import DurableDav.Replication.ConflictCopies
import DurableDav.Replication.SlicedSweep

namespace DurableDav.Replication

open Library

/-! ### A run whose first calls are rejected -/

def ReplicationDecision.firstCalls : ReplicationDecision → ℕ
  | .agree _ _ _ | .forget _ => 0
  | _ => 1

/-- The clock is asked once for each decision. -/
def callsBefore (ds : List ReplicationDecision) : ℕ := (ds.map (fun d => 1 + d.firstCalls)).sum

section Refused

variable {input : BuildPlanInput} {ctx : TransferContext} {o : ApplyOptions} {d : ReplicationDecision} {w : World}

theorem refused_bind {α β : Type} {x : Run α} {f : α → Run β}
    (h : ∃ e w', x.run w = (.error e, w') ∧ w.Leads w' w.localTree) :
    ∃ e w', (x >>= f).run w = (.error e, w') ∧ w.Leads w' w.localTree := by
  obtain ⟨e, w', hrun, hleads⟩ := h
  exact ⟨e, w', Act.run_bind_error hrun, hleads⟩

theorem transfer_refused (hs : Serves ctx input) (hd : d ∈ (buildReplicationPlan input).decisions)
    (hdel : d.isDeletion = false) (hfirst : d.firstCalls = 1) (hfails : (ctx.env.answer w.calls).fails = true) :
    ∃ e w', (ctx.transfer d).run w = (.error e, w') ∧ w.Leads w' w.localTree := by
  obtain ⟨_, taken, _, hg⟩ := decisions_grounds hd
  have hmake (k : JsString) : ∃ e w', (ctx.env.makeCollection k).run w = (.error e, w') ∧ w.Leads w' w.localTree :=
    call_fails rfl hfails
  have hlocal {p : JsString} {l : PlanSide} (hl : Store.get input.localIndex p = some l) : ctx.localEntry p = some l := by
    unfold TransferContext.localEntry
    rwa [hs.localByPath]
  have hremote {p : JsString} {r : PlanSide} (hr : Store.get input.remoteIndex p = some r) : ctx.remoteEntry p = some r := by
    unfold TransferContext.remoteEntry
    rwa [hs.remoteByPath]
  cases d with
  | push p ct =>
    obtain ⟨l, hl, _⟩ := hg.2.1
    have hentry : ctx.localEntry p = some l := hlocal hl
    change ∃ e w', (ctx.pushTransfer p).run w = _ ∧ _
    unfold TransferContext.pushTransfer
    rw [hentry]
    dsimp only
    split
    · exact refused_bind (hmake p)
    · exact refused_bind (readReplicaStream_fails hfails)
  | pull p ct =>
    obtain ⟨r, hr⟩ := Option.isSome_iff_exists.mp hg.2.1
    have hentry : ctx.remoteEntry p = some r := hremote hr
    have hfound : (ctx.remoteEntryOrStat p).run w = (.ok (some r), w) := by
      unfold TransferContext.remoteEntryOrStat
      rw [hentry]
      rfl
    change ∃ e w', (ctx.pullTransfer p ct).run w = _ ∧ _
    unfold TransferContext.pullTransfer
    rw [Act.run_bind_ok hfound]
    dsimp only
    split
    · exact refused_bind (localMkdir_fails hfails)
    · exact refused_bind (readFile_fails hfails)
  | deleteRemote p | deleteLocal p => simp [ReplicationDecision.isDeletion] at hdel
  | keepBoth p v k =>
    obtain ⟨_, _, _, l, r, hl, hr, _⟩ := hg
    obtain ⟨hl', hr'⟩ : ctx.localEntry p = some l ∧ ctx.remoteEntry p = some r := ⟨hlocal hl, hremote hr⟩
    refine refused_bind (x := ctx.keepBoth p k) ?_
    cases hlc : l.isCollection with
    | true =>
      unfold TransferContext.keepBoth TransferContext.preserveConflictingCollection
      rw [hl', if_pos (by simp [hlc])]
      exact refused_bind (refused_bind (hmake k))
    | false =>
      rw [keepBoth_file hl' hlc]
      cases hrc : r.isCollection with
      | true =>
        have hrun : (ctx.copyDown p k).run w = (.ok (), w) := by
          rw [copyDown_collection hr' hrc]
          rfl
        rw [Act.run_bind_ok hrun]
        unfold TransferContext.copyUp
        rw [hl']
        dsimp only
        rw [if_neg (by simp [hlc])]
        exact refused_bind (readReplicaStream_fails hfails)
      | false =>
        have hstream : ctx.remoteFileStream p = ctx.env.readFile p := by
          unfold TransferContext.remoteFileStream
          rw [hr']
          dsimp only
          rw [if_neg (by simp [hrc])]
        refine refused_bind ?_
        unfold TransferContext.copyDown
        rw [hstream]
        exact refused_bind (readFile_fails hfails)
  | pullAndPreserve p k ct =>
    obtain ⟨_, _, _, hr, l, hl, _⟩ := hg
    obtain ⟨r, hr⟩ := Option.isSome_iff_exists.mp hr
    obtain ⟨hl', hr'⟩ : ctx.localEntry p = some l ∧ ctx.remoteEntry p = some r := ⟨hlocal hl, hremote hr⟩
    refine refused_bind (x := ctx.pullAndPreserve p k ct) ?_
    rw [pullAndPreserve_eq hl' hr']
    split
    · split
      · exact localMkdir_fails hfails
      · exact refused_bind (readFile_fails hfails)
    · unfold TransferContext.replacePreserved
      split
      · exact refused_bind (localMkdir_fails hfails)
      · exact refused_bind (readReplicaStream_fails hfails)
  | compareContent p v =>
    change ∃ e w', (ctx.compareContent p v).run w = _ ∧ _
    exact refused_bind (x := ctx.env.readReplicaBytes p) (readReplicaStream_fails hfails)
  | agree p c ct | forget p => simp [ReplicationDecision.firstCalls] at hfirst

/-- With its call rejected a transfer leaves the trees as they are, and moves no bytes. -/
theorem applyDecision_refused (hs : Serves ctx input) (hd : d ∈ (buildReplicationPlan input).decisions)
    (hdel : d.isDeletion = false) (hfails : d.firstCalls = 1 → (ctx.env.answer w.calls).fails = true) :
    ∃ outcome w', (ctx.applyDecision d).run w = (.ok outcome, w') ∧ w'.localTree = w.localTree ∧
      w'.remoteTree = w.remoteTree ∧ w'.calls = w.calls + d.firstCalls ∧
      ∀ st : ApplyState, (st.settle d outcome).movedBytes = st.movedBytes := by
  by_cases hfirst : d.firstCalls = 1
  · obtain ⟨e, w', hrun, hleads⟩ := transfer_refused (w := w.note (.applies d)) hs hd hdel hfirst (hfails hfirst)
    rcases applyDecision_run ctx d w with ⟨n, w'', hok, _⟩ | ⟨m, w'', herror, happly⟩
    · rw [hrun] at hok
      cases hok
    · rw [hrun] at herror
      obtain ⟨rfl, rfl⟩ : e = m ∧ w' = w'' := by simpa using herror
      exact ⟨_, _, happly, hleads.localTree, hleads.remoteTree, by rw [hfirst]; exact hleads.calls, fun st => rfl⟩
  · have hidle : ctx.transfer d = pure 0 := by
      cases d with
      | agree p c ct | forget p => rfl
      | _ => exact absurd rfl hfirst
    have hrun : (ctx.transfer d).run (w.note (.applies d)) = (.ok 0, w.note (.applies d)) := by
      rw [hidle]
      rfl
    rcases applyDecision_run ctx d w with ⟨n, w'', hok, happly⟩ | ⟨m, w'', herror, _⟩
    · rw [hrun] at hok
      obtain ⟨rfl, rfl⟩ : 0 = n ∧ w.note (.applies d) = w'' := by simpa using hok
      have hnone : d.firstCalls = 0 := by
        cases d with
        | agree p c ct | forget p => rfl
        | _ => exact absurd rfl hfirst
      exact ⟨_, _, happly, rfl, rfl, by rw [hnone]; rfl, fun st => rfl⟩
    · rw [hrun] at herror
      cases herror

/-- The run comes to a decision with the trees as they were, when every call before it is rejected. -/
theorem begun_refused (hs : Serves o.toTransferContext input) (hclock : ∀ n, o.env.clock n < o.deadlineMs)
    (hbytes : 0 < o.maxBytes) (ds : List ReplicationDecision)
    (hplanned : ∀ e ∈ ds, e ∈ (buildReplicationPlan input).decisions ∧ e.isDeletion = false) (st : ApplyState)
    (hst : st.movedBytes = 0) (w : World)
    (hfails : ∀ n, w.calls ≤ n → n < w.calls + callsBefore ds → (o.env.answer n).fails = true) :
    ∃ w' : World, w'.localTree = w.localTree ∧ w'.remoteTree = w.remoteTree ∧ w'.calls = w.calls + callsBefore ds + 1 ∧
      ∀ d rest, (d, w'.note (.applies d)) ∈ o.begun (ds ++ d :: rest) st w := by
  have hgoes {st : ApplyState} {w : World} (hst : st.movedBytes = 0) :
      ¬ (o.deadlineMs ≤ o.env.clock w.calls ∨ o.maxBytes ≤ st.movedBytes) := by
    have := hclock w.calls
    omega
  induction ds generalizing st w with
  | nil =>
    refine ⟨w.tick, rfl, rfl, rfl, fun d rest => ?_⟩
    rw [List.nil_append, ApplyOptions.begun, if_neg (hgoes hst)]
    exact List.mem_cons_self
  | cons e ds ih =>
    have hcount : callsBefore (e :: ds) = 1 + e.firstCalls + callsBefore ds := rfl
    obtain ⟨he, hdel⟩ := hplanned e List.mem_cons_self
    obtain ⟨outcome, w₁, hrun, hlocal, hremote, hcalls, hmoved⟩ := applyDecision_refused (w := w.tick) hs he hdel
      (fun hfirst => hfails (w.calls + 1) (by omega) (by omega))
    have hcalls₁ : w₁.calls = w.calls + 1 + e.firstCalls := hcalls
    obtain ⟨w', hlocal', hremote', hcalls', hmem⟩ := ih (fun x hx => hplanned x (List.mem_cons_of_mem _ hx))
      (st.settle e outcome) ((hmoved st).trans hst) w₁ (fun n hlow hhigh => hfails n (by omega) (by omega))
    refine ⟨w', hlocal'.trans hlocal, hremote'.trans hremote, by omega, fun d rest => ?_⟩
    rw [List.cons_append, ApplyOptions.begun, if_neg (hgoes hst), hrun]
    exact List.mem_cons_of_mem _ (hmem d rest)

end Refused

/-! ### Copies that find something -/

/-- The first calls are rejected, then one answers nothing, if asked to, and all later ones are performed. -/
def lateEnv (rejected : ℕ) (blank : Bool) : Env :=
  { Env.calm with
    answer := fun n => if n < rejected then .rejects [] else if n = rejected ∧ blank then .blank else .performs }

def BuildPlanInput.lateOptions (input : BuildPlanInput) (rejected : ℕ) (blank : Bool) : ApplyOptions :=
  ⟨⟨lateEnv rejected blank, input.slice⟩, 1, 1⟩

section Found

variable {input : BuildPlanInput} {d : ReplicationDecision} {w : World} {p k : JsString} {s : Side} {l r : PlanSide}

theorem lateEnv_performs {rejected n : ℕ} {blank : Bool} (h : rejected < n ∨ n = rejected ∧ blank = false) :
    (lateEnv rejected blank).answer n = .performs := by
  simp only [lateEnv]
  rw [if_neg (by omega), if_neg]
  rintro ⟨rfl, hblank⟩
  rcases h with h | ⟨-, h⟩
  · omega
  · rw [hblank] at h
    cases h

theorem lateEnv_delivers {rejected n : ℕ} {blank : Bool} (h : rejected < n ∨ n = rejected ∧ blank = false) :
    Delivered (lateEnv rejected blank) n ∧ ((lateEnv rejected blank).answer n).fails = false := by
  unfold Delivered
  rw [lateEnv_performs h]
  exact ⟨⟨rfl, rfl⟩, rfl⟩

theorem live_of_listed (hl : Listed input w) (d : ReplicationDecision) : Live input (w.contents d.path) d := by
  intro _ s e he
  obtain ⟨r, hr, rfl⟩ := Option.map_eq_some_iff.mp (hl s d.path e he)
  have hc : (w.tree s).content d.path = some r.bytes := by simp [Tree.content, hr]
  exact congrArg (Option.map Option.isNone) hc

/-- Some run comes to the decision of a copy with everything still in its place. -/
theorem copy_reached (hl : Listed input w) (hw : w.WellFormed) (hd : d ∈ (buildReplicationPlan input).decisions)
    (hdel : d.isDeletion = false) (blank : Bool) : ∃ rejected w', w'.calls = rejected ∧ (∀ s, w'.tree s = w.tree s) ∧
      (d, w') ∈ (input.lateOptions rejected blank).begun (buildReplicationPlan input).decisions .start w := by
  obtain ⟨ds, rest, hsplit⟩ := List.append_of_mem hd
  have hordered := (rest_decisions hl hw).ordered
  rw [hsplit, List.pairwise_append] at hordered
  have hplanned : ∀ e ∈ ds, e ∈ (buildReplicationPlan input).decisions ∧ e.isDeletion = false := by
    intro e he
    refine ⟨hsplit ▸ List.mem_append_left _ he, ?_⟩
    by_contra hdeletion
    have hlater := hordered.2.2 e he d List.mem_cons_self (by simpa using hdeletion)
    rw [hdel] at hlater
    cases hlater
  have hclock : ∀ n, (input.lateOptions (w.calls + callsBefore ds + 1) blank).env.clock n <
      (input.lateOptions (w.calls + callsBefore ds + 1) blank).deadlineMs := fun _ => Nat.one_pos
  have hserves : Serves (input.lateOptions (w.calls + callsBefore ds + 1) blank).toTransferContext input := ⟨rfl, rfl⟩
  have hfails (n : ℕ) (hn : n < w.calls + callsBefore ds) :
      ((input.lateOptions (w.calls + callsBefore ds + 1) blank).env.answer n).fails = true := by
    have hrejects : (lateEnv (w.calls + callsBefore ds + 1) blank).answer n = .rejects [] := if_pos (by omega)
    exact congrArg Answer.fails hrejects
  obtain ⟨w', hlocal, hremote, hcalls, hmem⟩ := begun_refused hserves hclock Nat.one_pos ds hplanned .start rfl w
    fun n _ hn => hfails n hn
  refine ⟨w.calls + callsBefore ds + 1, w'.note (.applies d), hcalls, fun s => ?_, ?_⟩
  · rw [World.tree_note]
    cases s with
    | localSide => exact hlocal
    | remoteSide => exact hremote
  · rw [hsplit]
    exact hmem d rest

/-- A copy that goes to a side with a file of its name is written over that file in some run. -/
theorem overwritten_somewhere (hl : Listed input w) (hw : w.WellFormed)
    (hvalid : ∀ s p, (Store.get (input.index s) p).isSome → isValidInnerPath p = true) (htoken : input.TokenText)
    (hd : d ∈ (buildReplicationPlan input).decisions) (hk : d.conflictPath = some k) (hne : k ≠ d.path)
    (hto : input.CopiedTo d.path s) {data : Bytes} (hfile : w.contents k s = some (some data)) :
    ∃ o : ApplyOptions, Serves o.toTransferContext input ∧
      ∃ x ∈ o.begun (buildReplicationPlan input).decisions .start w, x.1 = d ∧ o.Overwrites x.1 x.2 k := by
  obtain ⟨l, r, hlocal, hremote, hlc, hside⟩ := hto
  have hdel : d.isDeletion = false := by
    cases d <;> simp_all [ReplicationDecision.conflictPath, ReplicationDecision.isDeletion]
  have found (blank : Bool) : ∃ rejected w', w'.calls = rejected ∧ w'.contents k s = some (some data) ∧
      (w'.tree s).isDirectory k = false ∧ Copyable (input.lateOptions rejected blank).toTransferContext w' d.path k l r ∧
      (d, w') ∈ (input.lateOptions rejected blank).begun (buildReplicationPlan input).decisions .start w := by
    obtain ⟨rejected, w', hcalls, htree, hmem⟩ := copy_reached hl hw hd hdel blank
    have hcontents (q : JsString) : w'.contents q = w.contents q := by
      funext s
      simp only [World.contents, htree]
    have hform : w'.WellFormed := fun s => (htree s).symm ▸ hw s
    have hlive : Live input (w'.contents d.path) d := (hcontents d.path).symm ▸ live_of_listed hl d
    have hserves : Serves (input.lateOptions rejected blank).toTransferContext input := ⟨rfl, rfl⟩
    obtain ⟨l', r', hl', hr', hcopyable⟩ := copyable_of_live hserves hvalid hd hk hlive hform
      (conflictPath_sibling htoken.segment hd hk) htoken.segment hne
    obtain rfl : l' = l := Option.some.inj (hl'.symm.trans hlocal)
    obtain rfl : r' = r := Option.some.inj (hr'.symm.trans hremote)
    have hheld : w'.contents k s = some (some data) := (congrFun (hcontents k) s).trans hfile
    refine ⟨rejected, w', hcalls, hheld, ?_, hcopyable, hmem⟩
    rw [Bool.eq_false_iff, Ne, Tree.isDirectory_iff]
    rintro (hnil | hcoll)
    · exact hcopyable.conflictNonempty hnil
    · have hboth := hheld.symm.trans hcoll
      simp at hboth
  have covered {rejected : ℕ} {blank : Bool} {w' : World} (hheld : w'.contents k s = some (some data))
      (hmem : (d, w') ∈ (input.lateOptions rejected blank).begun (buildReplicationPlan input).decisions .start w)
      (hanswers : w'.Answers [.write s k] ((input.lateOptions rejected blank).after d w')) :
      ∃ o : ApplyOptions, Serves o.toTransferContext input ∧
        ∃ x ∈ o.begun (buildReplicationPlan input).decisions .start w, x.1 = d ∧ o.Overwrites x.1 x.2 k :=
    ⟨_, ⟨rfl, rfl⟩, (d, w'), hmem, rfl, s, by simp [hheld], hanswers⟩
  obtain ⟨_, taken, _, hg⟩ := decisions_grounds hd
  cases d with
  | keepBoth p v c =>
    obtain rfl : c = k := by simpa [ReplicationDecision.conflictPath] using hk
    obtain ⟨_, _, _, l', r', hl', hr', hwinner⟩ := hg
    have hmode : input.mode ≠ .pullOnly := by
      intro hm
      simp [conflictWinner, hm] at hwinner
    rw [if_neg hmode] at hside
    cases s with
    | localSide =>
      have hrc : r.isCollection = false := hside.resolve_left (by simp)
      obtain ⟨rejected, w', rfl, hheld, hdir, hcopyable, hmem⟩ := found false
      exact covered hheld hmem (keepBoth_writes_local hcopyable hlc hrc v (lateEnv_delivers (.inr ⟨rfl, rfl⟩)).1
        (lateEnv_delivers (.inl (Nat.lt_succ_self _))).2 hdir)
    | remoteSide =>
      cases hrc : r.isCollection with
      | true =>
        obtain ⟨rejected, w', rfl, hheld, hdir, hcopyable, hmem⟩ := found false
        exact covered hheld hmem (keepBoth_writes_remote hcopyable hlc v (.inl ⟨hrc, (lateEnv_delivers (.inr ⟨rfl, rfl⟩)).1,
          (lateEnv_delivers (.inl (Nat.lt_succ_self _))).2⟩) hdir)
      | false =>
        obtain ⟨rejected, w', rfl, hheld, hdir, hcopyable, hmem⟩ := found true
        have hblank : ((lateEnv w'.calls true).answer w'.calls).isBlank = true := by simp [lateEnv, Answer.isBlank]
        exact covered hheld hmem (keepBoth_writes_remote hcopyable hlc v (.inr ⟨hrc, hblank,
          (lateEnv_delivers (.inl (Nat.lt_succ_self _))).1, (lateEnv_delivers (.inl (by omega))).2⟩) hdir)
  | pullAndPreserve p c ct =>
    obtain rfl : c = k := by simpa [ReplicationDecision.conflictPath] using hk
    have hmode := hg.2.2.1
    rw [if_pos hmode] at hside
    obtain ⟨rfl, hrc⟩ := hside
    obtain ⟨rejected, w', rfl, hheld, hdir, hcopyable, hmem⟩ := found false
    have hcopied := (pullAndPreserve_copied_iff hcopyable ct).mpr (by
      rw [hlc, hrc]
      exact .inl ⟨(lateEnv_delivers (.inr ⟨rfl, rfl⟩)).1, (lateEnv_delivers (.inl (Nat.lt_succ_self _))).2, hdir⟩)
    exact covered hheld hmem hcopied.2
  | _ => simp [ReplicationDecision.conflictPath] at hk

end Found

/-! ### The law and where it holds -/

/-- The copies of a plan: each at a name of its own beside its path, and nothing is written over. -/
structure NeverCollides (input : BuildPlanInput) (w : World) : Prop where
  distinct : ((buildReplicationPlan input).decisions.filterMap ReplicationDecision.conflictPath).Nodup
  aside : ∀ d ∈ (buildReplicationPlan input).decisions, ∀ k, d.conflictPath = some k →
    k ∉ input.localSides.map PlanSide.path ∧ k ∉ input.remoteSides.map PlanSide.path ∧ k ∉ input.base.map PlanBase.path
  beside : ∀ d ∈ (buildReplicationPlan input).decisions, ∀ k, d.conflictPath = some k → parentOf k = parentOf d.path
  wellFormed : ∀ d ∈ (buildReplicationPlan input).decisions, ∀ k, d.conflictPath = some k →
    isValidInnerPath k = true ∧ ((codePoints d.path).isSome → (codePoints k).isSome)
  spared : Listed input w → w.WellFormed → ∀ o : ApplyOptions, Serves o.toTransferContext input →
    ∀ x ∈ o.begun (buildReplicationPlan input).decisions .start w, ∀ k, x.1.conflictPath = some k →
      ¬ o.Overwrites x.1 x.2 k

/-- What the name of a copy needs, when the names in `taken` are in use. -/
structure BuildPlanInput.FreeName (input : BuildPlanInput) (w : World) (taken : List JsString) (p : JsString) : Prop where
  drawn : SearchFails taken p (input.now / 1000) → conflictBase p (input.now / 1000) ++ dash :: input.random p ∉ taken
  whole : (codePoints p).isSome → (codePoints ((lastName p).take maxConflictStemLength)).isSome
  free : Listed input w → w.WellFormed → ∀ s, input.CopiedTo p s → ∀ data,
    w.contents (reserveConflictPath input taken p) s ≠ some (some data)

/-- Every path that the plan keeps a copy of has such a name. -/
def BuildPlanInput.NamesFree (input : BuildPlanInput) (w : World) : Prop :=
  ∀ before p after, input.paths = before ++ p :: after → (decideAt input (input.takenBefore before) p).reserved ≠ [] →
    input.FreeName w (input.takenBefore before) p

section Law

variable {input : BuildPlanInput} {d : ReplicationDecision} {w : World} {p k : JsString} {s : Side}

theorem notMem_paths_iff (hk : k ≠ []) : k ∉ input.paths ↔ k ∉ input.localSides.map PlanSide.path ∧
    k ∉ input.remoteSides.map PlanSide.path ∧ k ∉ input.base.map PlanBase.path := by
  rw [mem_paths, BuildPlanInput.localIndex, BuildPlanInput.remoteIndex, BuildPlanInput.baseIndex, indexByPath_isSome,
    indexByPath_isSome, indexByPath_isSome]
  simp only [hk, ne_eq, not_false_eq_true, true_and, List.mem_map, not_or]

theorem mem_reserved_iff {taken : List JsString} (h : (decideAt input taken p).reserved ≠ []) :
    k ∈ (decideAt input taken p).reserved ↔ k = reserveConflictPath input taken p := by
  refine ⟨fun hk => (reserved_of_mem hk).1, ?_⟩
  rintro rfl
  obtain ⟨x, hx⟩ := List.exists_mem_of_ne_nil _ h
  rwa [← (reserved_of_mem hx).1]

/-- The copies are at new and different names exactly where the drawn names are free. -/
theorem copies_fresh_iff : (((buildReplicationPlan input).decisions.filterMap ReplicationDecision.conflictPath).Nodup ∧
      ∀ d ∈ (buildReplicationPlan input).decisions, ∀ k, d.conflictPath = some k → k ∉ input.paths) ↔
    ∀ before p after, input.paths = before ++ p :: after → (decideAt input (input.takenBefore before) p).reserved ≠ [] →
      SearchFails (input.takenBefore before) p (input.now / 1000) →
        conflictBase p (input.now / 1000) ++ dash :: input.random p ∉ input.takenBefore before := by
  have hperm := copies_perm input
  have hnew : (∀ d ∈ (buildReplicationPlan input).decisions, ∀ k, d.conflictPath = some k → k ∉ input.paths) ↔
      ∀ k ∈ input.namesFor input.paths input.paths, k ∉ input.paths := by
    simp only [← hperm.mem_iff, List.mem_filterMap]
    constructor
    · rintro h k ⟨d, hd, hk⟩
      exact h d hd k hk
    · exact fun h d hd k hk => h k ⟨d, hd, hk⟩
  rw [hnew, hperm.nodup_iff, names_fresh_iff]
  refine forall_congr' fun before => forall_congr' fun p => forall_congr' fun after => imp_congr_right fun _ => ?_
  change (∀ k ∈ (decideAt input (input.takenBefore before) p).reserved, k ∉ input.takenBefore before) ↔ _
  by_cases hnone : (decideAt input (input.takenBefore before) p).reserved = []
  · simp [hnone]
  · simp only [mem_reserved_iff hnone, forall_eq, ne_eq, hnone, not_false_eq_true, true_imp_iff]
    rw [reserveConflictPath, conflictPathFor_mem_iff, not_and]

/-- The decision for a path whose copy the plan reserves. -/
theorem copy_of_reserved {before after : List JsString} (hsplit : input.paths = before ++ p :: after)
    (h : (decideAt input (input.takenBefore before) p).reserved ≠ []) :
    ∃ d ∈ (buildReplicationPlan input).decisions, d.path = p ∧
      d.conflictPath = some (reserveConflictPath input (input.takenBefore before) p) :=
  copy_iff_reserved.mpr ⟨before, after, hsplit, (mem_reserved_iff h).mpr rfl⟩

theorem reserved_of_copy (hd : d ∈ (buildReplicationPlan input).decisions) (hk : d.conflictPath = some k) :
    ∃ before after, input.paths = before ++ d.path :: after ∧
      (decideAt input (input.takenBefore before) d.path).reserved ≠ [] ∧
      k = reserveConflictPath input (input.takenBefore before) d.path := by
  obtain ⟨before, after, hsplit, hmem⟩ := copy_iff_reserved.mp ⟨d, hd, rfl, hk⟩
  exact ⟨before, after, hsplit, List.ne_nil_of_mem hmem, (reserved_of_mem hmem).1⟩

theorem copy_listed (hvalid : ∀ s p, (Store.get (input.index s) p).isSome → isValidInnerPath p = true)
    (hd : d ∈ (buildReplicationPlan input).decisions) (hk : d.conflictPath = some k) : isValidInnerPath d.path = true := by
  obtain ⟨_, taken, _, hg⟩ := decisions_grounds hd
  cases d with
  | keepBoth p v c =>
    obtain ⟨_, _, _, l, r, hl, _⟩ := hg
    exact hvalid .localSide _ (Option.isSome_iff_exists.mpr ⟨l, hl⟩)
  | pullAndPreserve p c ct =>
    obtain ⟨_, _, _, _, l, hl, _⟩ := hg
    exact hvalid .localSide _ (Option.isSome_iff_exists.mpr ⟨l, hl⟩)
  | _ => simp [ReplicationDecision.conflictPath] at hk

/-- A file at a name of nothing listed comes from no other decision. -/
theorem applyDecision_found {ctx : TransferContext} (hd : d ∈ (buildReplicationPlan input).decisions)
    (hdel : d.isDeletion = false) (hk : k ∉ input.paths) (hne : d.conflictPath ≠ some k) {data : Bytes}
    (hdata : ((ctx.applyDecision d).run w).2.contents k s = some (some data)) :
    w.contents k s = some (some data) := by
  rcases applyDecision_moves ctx d w s k with hsame | htarget | ⟨_, hmade, _⟩
  · exact hsame.symm.trans hdata
  · rcases (target_of_transfer hd hdel htarget).1 with rfl | hcopy
    · exact absurd (decisions_grounds hd).1 hk
    · exact absurd hcopy hne
  · have hboth := hmade.symm.trans hdata
    simp at hboth

theorem mem_begun {o : ApplyOptions} {ds : List ReplicationDecision} {st : ApplyState}
    {x : ReplicationDecision × World} (h : x ∈ o.begun ds st w) : x.1 ∈ ds := by
  induction ds generalizing st w with
  | nil => simp [ApplyOptions.begun] at h
  | cons d ds ih =>
    rw [ApplyOptions.begun] at h
    split at h
    · simp at h
    · rcases List.mem_cons.mp h with rfl | h
      · exact List.mem_cons_self
      · cases hrun : (o.applyDecision d).run w.tick with
        | mk r w' =>
          rw [hrun] at h
          cases r with
          | error e => simp at h
          | ok outcome => exact List.mem_cons_of_mem _ (ih h)

theorem copy_not_deletion (hk : d.conflictPath = some k) : d.isDeletion = false := by
  cases d with
  | deleteRemote p | deleteLocal p => cases hk
  | _ => rfl

/-- The names of copies still to be made: of nothing listed, and of no other copy. -/
structure CopiesAhead (input : BuildPlanInput) (ds : List ReplicationDecision) : Prop where
  planned : ∀ e ∈ ds, e ∈ (buildReplicationPlan input).decisions
  ordered : ds.Pairwise (fun a b => a.isDeletion = true → b.isDeletion = true)
  distinct : (ds.filterMap ReplicationDecision.conflictPath).Nodup
  aside : ∀ e ∈ ds, ∀ k, e.conflictPath = some k → k ∉ input.paths

namespace CopiesAhead

variable {ds : List ReplicationDecision}

theorem tail (h : CopiesAhead input (d :: ds)) : CopiesAhead input ds := by
  refine ⟨fun e he => h.planned e (List.mem_cons_of_mem _ he), (List.pairwise_cons.mp h.ordered).2, ?_,
    fun e he => h.aside e (List.mem_cons_of_mem _ he)⟩
  have hdistinct := h.distinct
  rw [List.filterMap_cons] at hdistinct
  split at hdistinct
  · exact hdistinct
  · exact (List.nodup_cons.mp hdistinct).2

theorem head {e : ReplicationDecision} (h : CopiesAhead input (d :: ds)) (he : e ∈ ds) (hk : e.conflictPath = some k) :
    d.isDeletion = false ∧ d.conflictPath ≠ some k := by
  constructor
  · by_contra hdeletion
    have hlater := (List.pairwise_cons.mp h.ordered).1 e he (by simpa using hdeletion)
    rw [copy_not_deletion hk] at hlater
    cases hlater
  · intro hsame
    have hdistinct := h.distinct
    rw [List.filterMap_cons, hsame] at hdistinct
    exact (List.nodup_cons.mp hdistinct).1 (List.mem_filterMap.mpr ⟨e, he, hk⟩)

/-- A file that a copy finds was there when the run began. -/
theorem found {o : ApplyOptions} {w₁ : World} {st : ApplyState} (h : CopiesAhead input ds)
    (hfound : ∀ e ∈ ds, ∀ k, e.conflictPath = some k → ∀ s data, w.contents k s = some (some data) →
      w₁.contents k s = some (some data)) :
    ∀ x ∈ o.begun ds st w, ∀ k, x.1.conflictPath = some k → ∀ s data, x.2.contents k s = some (some data) →
      w₁.contents k s = some (some data) := by
  induction ds generalizing st w with
  | nil => simp [ApplyOptions.begun]
  | cons d ds ih =>
    intro x hx
    rw [ApplyOptions.begun] at hx
    split at hx
    · simp at hx
    · rcases List.mem_cons.mp hx with rfl | hx
      · intro k hk s data hdata
        refine hfound d List.mem_cons_self k hk s data ?_
        rwa [World.contents_note, World.contents_tick] at hdata
      · have hnext : ∀ e ∈ ds, ∀ k, e.conflictPath = some k → ∀ s data,
            ((o.applyDecision d).run w.tick).2.contents k s = some (some data) → w₁.contents k s = some (some data) := by
          intro e he k hk s data hdata
          obtain ⟨hdel, hne⟩ := h.head he hk
          have hmem := List.mem_cons_of_mem d he
          have hbefore := applyDecision_found (h.planned d List.mem_cons_self) hdel (h.aside e hmem k hk) hne hdata
          rw [World.contents_tick] at hbefore
          exact hfound e hmem k hk s data hbefore
        cases hrun : (o.applyDecision d).run w.tick with
        | mk r w' =>
          rw [hrun] at hx hnext
          cases r with
          | error e => simp at hx
          | ok outcome => exact ih h.tail hnext x hx

end CopiesAhead

/-- Conflict copies never collide exactly where the names that the plan takes are free. -/
theorem neverCollides_iff (hvalid : ∀ s p, (Store.get (input.index s) p).isSome → isValidInnerPath p = true)
    (htoken : input.TokenText) : NeverCollides input w ↔ input.NamesFree w := by
  have hvalidCopy {d : ReplicationDecision} {k : JsString} (hd : d ∈ (buildReplicationPlan input).decisions)
      (hk : d.conflictPath = some k) : isValidInnerPath k = true ∧ k ≠ [] :=
    conflictPath_valid htoken.segment hd hk (copy_listed hvalid hd hk)
  constructor
  · intro h before p after hsplit hreserved
    obtain ⟨d, hd, rfl, hk⟩ := copy_of_reserved hsplit hreserved
    have hnew : ∀ d ∈ (buildReplicationPlan input).decisions, ∀ k, d.conflictPath = some k → k ∉ input.paths :=
      fun d hd k hk => (notMem_paths_iff (hvalidCopy hd hk).2).mpr (h.aside d hd k hk)
    refine ⟨copies_fresh_iff.mp ⟨h.distinct, hnew⟩ before d.path after hsplit hreserved, fun hpath => ?_, ?_⟩
    · exact (conflictPathFor_isSome (copy_listed hvalid hd hk) hpath (htoken _) _ _).mp ((h.wellFormed d hd _ hk).2 hpath)
    · intro hl hw s hto data hfile
      have hne : reserveConflictPath input (input.takenBefore before) d.path ≠ d.path := by
        intro he
        exact hnew d hd _ hk (he.symm ▸ (decisions_grounds hd).1)
      obtain ⟨o, hs, x, hx, rfl, hover⟩ := overwritten_somewhere hl hw hvalid htoken hd hk hne hto hfile
      exact h.spared hl hw o hs x hx _ hk hover
  · intro h
    obtain ⟨hdistinct, hnew⟩ := copies_fresh_iff.mpr fun before p after hsplit hreserved =>
      (h before p after hsplit hreserved).drawn
    refine ⟨hdistinct, fun d hd k hk => ?_, fun d hd k hk => conflictPath_sibling htoken.segment hd hk,
      fun d hd k hk => ⟨(hvalidCopy hd hk).1, fun hpath => ?_⟩, ?_⟩
    · exact (notMem_paths_iff (hvalidCopy hd hk).2).mp (hnew d hd k hk)
    · obtain ⟨before, after, hsplit, hreserved, rfl⟩ := reserved_of_copy hd hk
      exact (conflictPathFor_isSome (copy_listed hvalid hd hk) hpath (htoken _) _ _).mpr
        ((h before d.path after hsplit hreserved).whole hpath)
    · rintro hl hw o hs ⟨d, w'⟩ hx k hk ⟨s, hheld, hanswers⟩
      have hordered := (rest_decisions hl hw).ordered
      have hd : d ∈ (buildReplicationPlan input).decisions := mem_begun hx
      have hne : k ≠ d.path := fun he => hnew d hd k hk (he.symm ▸ (decisions_grounds hd).1)
      obtain ⟨hto, hcoll⟩ := written_copy hs hd hk hne (hvalidCopy hd hk).2 (hvalidCopy hd hk).1 hanswers
      obtain ⟨v, hv⟩ := Option.ne_none_iff_exists'.mp hheld
      cases v with
      | none => exact hcoll hv
      | some data =>
        have hahead : CopiesAhead input (buildReplicationPlan input).decisions :=
          ⟨fun _ he => he, hordered, hdistinct, hnew⟩
        have hfile := hahead.found (fun _ _ _ _ _ _ h => h) _ hx k hk s data hv
        obtain ⟨before, after, hsplit, hreserved, rfl⟩ := reserved_of_copy hd hk
        exact (h before d.path after hsplit hreserved).free hl hw s hto data hfile

end Law

/-! ### A directory that was listed in part -/

def partInput : BuildPlanInput where
  mode := .keepBoth
  localSides := [Resource.entry (.file [1] 1) (js "f")]
  remoteSides := [Resource.entry (.file [2] 2) (js "f")]
  base := []
  trustAbsences := false
  hashOnAmbiguous := false
  mirrorDeletions := false
  now := 0
  random := fun _ => js "AAAAAA"

def partDecision : ReplicationDecision := .keepBoth (js "f") .localSide (js "f.conflict-0")

theorem partInput_token : partInput.TokenText := by
  have htext : (js "AAAAAA").all isWordUnit = true := by decide
  exact fun _ c hc => .inl (List.all_eq_true.mp htext c hc)

theorem partInput_index {s : Side} {p : JsString} (h : (Store.get (partInput.index s) p).isSome) : p = js "f" := by
  by_contra hne
  cases s <;> simp [partInput, BuildPlanInput.index, BuildPlanInput.localIndex, BuildPlanInput.remoteIndex, indexByPath,
    Resource.entry, Store.get, Ne.symm hne] at h

theorem partInput_valid : ∀ s p, (Store.get (partInput.index s) p).isSome → isValidInnerPath p = true := by
  intro s p h
  rw [partInput_index h]
  decide

/-- Two versions of `f`, and of a copy on the local side what is given. -/
def partWorld (copy : Tree) : World := .ofTrees ((js "f", .file [1] 1) :: copy) [(js "f", .file [2] 2)]

theorem partWorld_listed (copy : Tree) : Listed partInput (partWorld copy) := by
  intro s p e he
  obtain rfl := partInput_index (Option.isSome_iff_exists.mpr ⟨e, he⟩)
  cases s <;> exact he

theorem partInput_neverCollides : NeverCollides partInput (partWorld []) := by
  refine (neverCollides_iff partInput_valid partInput_token).mpr ?_
  intro before p after hsplit hreserved
  have hpaths : partInput.paths = [js "f"] := by decide
  rw [hpaths] at hsplit
  obtain ⟨rfl, rfl, rfl⟩ : before = [] ∧ js "f" = p ∧ [] = after := by
    cases before with
    | nil => simpa using hsplit
    | cons x before => simp at hsplit
  refine ⟨fun h => ?_, fun _ => by decide, fun _ _ s _ data => ?_⟩
  · have hfree : conflictBase (js "f") (partInput.now / 1000) ∉ partInput.takenBefore [] := by decide
    exact absurd h.1 hfree
  · have hnone : (partWorld []).contents (reserveConflictPath partInput (partInput.takenBefore []) (js "f")) s = none := by
      cases s <;> decide
    rw [hnone]
    exact nofun

theorem unlisted_file_is_overwritten : ¬ NeverCollides partInput (partWorld [(js "f.conflict-0", .file [3] 3)]) := by
  intro h
  have hl := partWorld_listed [(js "f.conflict-0", .file [3] 3)]
  have hw : (partWorld [(js "f.conflict-0", .file [3] 3)]).WellFormed :=
    wellFormed_ofTrees (wellFormed_of_entries (by decide)) (wellFormed_of_entries (by decide))
  have hd : partDecision ∈ (buildReplicationPlan partInput).decisions := by decide
  have hto : partInput.CopiedTo (js "f") .localSide := ⟨_, _, rfl, rfl, rfl, .inr rfl⟩
  have hfile : (partWorld [(js "f.conflict-0", .file [3] 3)]).contents (js "f.conflict-0") .localSide = some (some [3]) := by
    decide
  obtain ⟨o, hs, x, hx, hsame, hover⟩ :=
    overwritten_somewhere hl hw partInput_valid partInput_token hd rfl (by decide) hto hfile
  exact h.spared hl hw o hs x hx _ (hsame ▸ rfl) hover

end DurableDav.Replication
