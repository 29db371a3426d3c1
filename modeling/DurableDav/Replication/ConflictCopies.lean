import DurableDav.Library.JsSearch
import DurableDav.Library.UriComponent
import DurableDav.Replication.AuditTrail
import DurableDav.Replication.ConflictNames
import DurableDav.Replication.OneWay

namespace DurableDav.Replication

open Library

/-! ### Names that are whole texts -/

theorem token_unescaped {c : CodeUnit} (h : isWordUnit c = true ∨ c = dash) : isUnescaped c.val = true := by
  rcases h with h | rfl
  · simp only [isWordUnit, decide_eq_true_eq] at h
    simp only [isUnescaped, decide_eq_true_eq, List.mem_cons, List.not_mem_nil, or_false]
    omega
  · decide

theorem plain_isSome {s : JsString} (h : ∀ c ∈ s, isUnescaped c.val = true) : (codePoints s).isSome := by
  rw [codePoints_plain h]
  rfl

namespace BuildPlanInput

-- the base64url alphabet
def TokenText (input : BuildPlanInput) : Prop := ∀ p, ∀ c ∈ input.random p, isWordUnit c = true ∨ c = dash

theorem TokenText.segment {input : BuildPlanInput} (h : input.TokenText) (p : JsString) : slash ∉ input.random p := by
  intro hs
  have hplain := token_unescaped (h p slash hs)
  exact absurd hplain (by decide)

end BuildPlanInput

section Texts

variable {path q a tail : JsString} {now : ℕ}

theorem childPath_isSome : (codePoints (childPath q a)).isSome ↔ (codePoints q).isSome ∧ (codePoints a).isSome := by
  unfold childPath
  split
  · rename_i hq
    simp [hq, codePoints]
  · exact codePoints_split (by decide) q a

theorem child_lastName (hv : isValidInnerPath path = true) : path = childPath (parentOf path) (lastName path) := by
  unfold lastName
  cases hi : lastIndexOf slash path with
  | none =>
    have hparent : parentOf path = [] := parentSegments_of_notMem (lastIndexOf_eq_none.mp hi)
    simp [childPath, hparent]
  | some i =>
    have hparent : parentOf path = path.take i := by simp [parentOf, parentSegments, hi]
    rw [childPath, if_neg (hparent ▸ take_ne_nil hv hi), hparent]
    exact (lastIndexOf_eq_some hi).1

/-- The copy's name is a whole text exactly where the cut leaves one of the path's. -/
theorem conflictPathFor_isSome (hv : isValidInnerPath path = true) (hp : (codePoints path).isSome) {random : JsString}
    (hr : ∀ c ∈ random, isWordUnit c = true ∨ c = dash) (taken : List JsString) (now : ℕ) :
    (codePoints (conflictPathFor path taken now random)).isSome ↔
      (codePoints ((lastName path).take maxConflictStemLength)).isSome := by
  obtain ⟨tail, htail, heq⟩ := conflictPathFor_child hv taken now random
  have hparent : (codePoints (parentOf path)).isSome := by
    rw [child_lastName hv] at hp
    exact (childPath_isSome.mp hp).1
  have hplain : ∀ c ∈ js "conflict-" ++ (decimal now ++ tail), isUnescaped c.val = true := by
    have htext : (js "conflict-").all (fun c => isUnescaped c.val) = true := by decide
    have hdash : isUnescaped dash.val = true := by decide
    intro c hc
    rcases List.mem_append.mp hc with hc | hc
    · exact List.all_eq_true.mp htext c hc
    · rcases List.mem_append.mp hc with hc | hc
      · exact decimal_unescaped now c hc
      · rcases htail with rfl | ⟨n, rfl⟩ | rfl
        · exact absurd hc List.not_mem_nil
        · exact (List.mem_cons.mp hc).elim (fun h => h ▸ hdash) (decimal_unescaped n c)
        · exact (List.mem_cons.mp hc).elim (fun h => h ▸ hdash) (fun h => token_unescaped (hr c h))
  have hname : conflictName path now ++ tail =
      (lastName path).take maxConflictStemLength ++ 46 :: (js "conflict-" ++ (decimal now ++ tail)) := by
    have hdot : js ".conflict-" = 46 :: js "conflict-" := by decide
    simp [conflictName, hdot]
  rw [heq, childPath_isSome, hname, codePoints_split (by decide)]
  simp [hparent, plain_isSome hplain]

end Texts

/-! ### The names of a plan -/

/-- The stem and all its numbered names are taken. -/
def SearchFails (taken : List JsString) (path : JsString) (nowSeconds : ℕ) : Prop :=
  conflictBase path nowSeconds ∈ taken ∧ freeSuffix (conflictBase path nowSeconds) taken 998 2 = none

theorem conflictPathFor_mem_iff {taken : List JsString} {path random : JsString} {now : ℕ} :
    conflictPathFor path taken now random ∈ taken ↔
      SearchFails taken path now ∧ conflictBase path now ++ dash :: random ∈ taken := by
  unfold conflictPathFor SearchFails
  dsimp only
  by_cases hbase : conflictBase path now ∈ taken
  · rw [if_pos hbase]
    cases hfree : freeSuffix (conflictBase path now) taken 998 2 with
    | none => simp [hbase]
    | some c => simp [freeSuffix_notMem hfree]
  · simp [hbase]

namespace BuildPlanInput

/-- The names reserved for the copies of the first paths. -/
def namesFor (input : BuildPlanInput) (before taken : List JsString) : List JsString :=
  (walkPaths input before taken).flatMap Verdict.reserved

/-- The names that are taken when the plan comes to a path. -/
def takenBefore (input : BuildPlanInput) (before : List JsString) : List JsString :=
  input.paths ++ input.namesFor before input.paths

end BuildPlanInput

section Plan

variable {input : BuildPlanInput} {before after ps taken : List JsString} {p k : JsString} {d : ReplicationDecision}

theorem walkPaths_append (input : BuildPlanInput) (before after taken : List JsString) :
    walkPaths input (before ++ after) taken =
      walkPaths input before taken ++ walkPaths input after (taken ++ input.namesFor before taken) := by
  induction before generalizing taken with
  | nil => simp [walkPaths, BuildPlanInput.namesFor]
  | cons p ps ih => simp [walkPaths, BuildPlanInput.namesFor, ih]

theorem namesFor_cons (input : BuildPlanInput) (p : JsString) (ps taken : List JsString) :
    input.namesFor (p :: ps) taken = (decideAt input taken p).reserved ++
      input.namesFor ps (taken ++ (decideAt input taken p).reserved) := rfl

theorem walkPaths_split {v : Verdict} : v ∈ walkPaths input ps taken ↔
    ∃ before p after, ps = before ++ p :: after ∧ v = decideAt input (taken ++ input.namesFor before taken) p := by
  constructor
  · intro h
    induction ps generalizing taken with
    | nil => simp [walkPaths] at h
    | cons p ps ih =>
      rcases List.mem_cons.mp h with rfl | h
      · exact ⟨[], p, ps, rfl, by simp [BuildPlanInput.namesFor, walkPaths]⟩
      · obtain ⟨before, q, after, rfl, rfl⟩ := ih h
        refine ⟨p :: before, q, after, rfl, ?_⟩
        rw [namesFor_cons, List.append_assoc]
  · rintro ⟨before, p, after, rfl, rfl⟩
    rw [walkPaths_append]
    exact List.mem_append_right _ List.mem_cons_self

theorem reserved_of_mem (h : k ∈ (decideAt input taken p).reserved) :
    k = reserveConflictPath input taken p ∧ ∃ e, (decideAt input taken p).decision = some e ∧ e.1.path = p ∧
      e.1.conflictPath = some k := by
  obtain ⟨c, hc, hk⟩ := Option.bind_eq_some_iff.mp (Option.mem_toList.mp h)
  obtain ⟨hpath, e, he, hkept, _⟩ := decidePath_conflict hc
  have hg := decidePath_grounds he
  rw [hk] at hkept
  refine ⟨?_, e, he, hg.path, hkept.symm⟩
  obtain ⟨d, isCollection⟩ := e
  cases d with
  | keepBoth x w c' =>
    obtain rfl : c' = k := by simpa [ReplicationDecision.conflictPath, eq_comm] using hkept
    exact hg.2.2.1
  | pullAndPreserve x c' ct =>
    obtain rfl : c' = k := by simpa [ReplicationDecision.conflictPath, eq_comm] using hkept
    exact hg.2.1
  | _ => simp [ReplicationDecision.conflictPath] at hkept

/-- The copies of a plan are the names that its walk reserves. -/
theorem copy_iff_reserved : (∃ d ∈ (buildReplicationPlan input).decisions, d.path = p ∧ d.conflictPath = some k) ↔
    ∃ before after, input.paths = before ++ p :: after ∧ k ∈ (decideAt input (input.takenBefore before) p).reserved := by
  constructor
  · rintro ⟨d, hd, rfl, hk⟩
    obtain ⟨v, hv, isCollection, hdecision⟩ := mem_decisions.mp hd
    obtain ⟨before, p, after, hsplit, rfl⟩ := walkPaths_split.mp hv
    have hpath : d.path = p := (decidePath_grounds hdecision).path
    obtain ⟨row, hrow, _, hkept, _⟩ := decidePath_conflictPath hdecision hk
    refine ⟨before, after, hpath ▸ hsplit, Option.mem_toList.mpr ?_⟩
    rw [hpath]
    exact Option.bind_eq_some_iff.mpr ⟨row, hrow, hkept⟩
  · rintro ⟨before, after, hsplit, hk⟩
    obtain ⟨_, e, he, hpath, hkept⟩ := reserved_of_mem hk
    refine ⟨e.1, mem_decisions.mpr ⟨_, walkPaths_split.mpr ⟨before, p, after, hsplit, rfl⟩, e.2, he⟩, hpath, hkept⟩

/-- The reserved names are new and differ exactly where each of them is new when it is reserved. -/
theorem names_fresh_iff : ((input.namesFor ps taken).Nodup ∧ ∀ k ∈ input.namesFor ps taken, k ∉ taken) ↔
    ∀ before p after, ps = before ++ p :: after →
      ∀ k ∈ (decideAt input (taken ++ input.namesFor before taken) p).reserved, k ∉ taken ++ input.namesFor before taken := by
  induction ps generalizing taken with
  | nil => simp [BuildPlanInput.namesFor, walkPaths]
  | cons q ps ih =>
    have hnodup : (decideAt input taken q).reserved.Nodup := by
      unfold Verdict.reserved
      cases (decideAt input taken q).conflict.bind PlanConflict.conflictPath <;> simp
    have hih := @ih (taken ++ (decideAt input taken q).reserved)
    rw [namesFor_cons, List.nodup_append]
    constructor
    · rintro ⟨⟨_, hrest, hapart⟩, hnew⟩ before p after hsplit k hk
      cases before with
      | nil =>
        obtain ⟨rfl, rfl⟩ : q = p ∧ ps = after := by simpa using hsplit
        have hnil : taken ++ input.namesFor [] taken = taken := by simp [BuildPlanInput.namesFor, walkPaths]
        rw [hnil] at hk ⊢
        exact hnew k (List.mem_append_left _ hk)
      | cons q' before =>
        obtain ⟨rfl, hps⟩ : q = q' ∧ ps = before ++ p :: after := by simpa using hsplit
        rw [namesFor_cons, ← List.append_assoc] at hk ⊢
        refine hih.mp ⟨hrest, fun x hx hmem => ?_⟩ before p after hps k hk
        rcases List.mem_append.mp hmem with hmem | hmem
        · exact hnew x (List.mem_append_right _ hx) hmem
        · exact hapart x hmem x hx rfl
    · intro h
      have hfirst : ∀ k ∈ (decideAt input taken q).reserved, k ∉ taken := by
        have h' := h [] q ps rfl
        have hnil : taken ++ input.namesFor [] taken = taken := by simp [BuildPlanInput.namesFor, walkPaths]
        rwa [hnil] at h'
      obtain ⟨hrest, hnew⟩ := hih.mpr fun before p after hsplit k hk => by
        have h' := h (q :: before) p after (by rw [hsplit]; rfl) k
        rw [namesFor_cons, ← List.append_assoc] at h'
        exact h' hk
      refine ⟨⟨hnodup, hrest, fun x hx y hy hxy => ?_⟩, fun k hk => ?_⟩
      · subst hxy
        exact hnew x hy (List.mem_append_right _ hx)
      · rcases List.mem_append.mp hk with hk | hk
        · exact hfirst k hk
        · exact fun hmem => hnew k hk (List.mem_append_left _ hmem)

theorem copies_perm (input : BuildPlanInput) :
    ((buildReplicationPlan input).decisions.filterMap ReplicationDecision.conflictPath).Perm
      (input.namesFor input.paths input.paths) := by
  refine (perm_decisions.filterMap _).trans (List.Perm.of_eq ?_)
  have hpending : (pending input).map Ordered.decision = (verdicts input).filterMap (fun v => v.decision.map Prod.fst) := by
    have he : (pending input).map Ordered.decision = ((verdicts input).filterMap Verdict.decision).map Prod.fst := by
      simp only [pending, List.map_map]
      rw [← List.zipIdx_map_fst 0 ((verdicts input).filterMap Verdict.decision), List.map_map]
      simp [Function.comp_def]
    rw [he, List.map_filterMap]
  rw [hpending, List.filterMap_filterMap]
  unfold BuildPlanInput.namesFor
  rw [show Verdict.reserved = fun v => (v.conflict.bind PlanConflict.conflictPath).toList from rfl,
    ← List.filterMap_eq_flatMap_toList]
  refine List.filterMap_congr fun v hv => ?_
  obtain ⟨before, p, after, _, rfl⟩ := walkPaths_split.mp hv
  generalize input.paths ++ input.namesFor before input.paths = taken
  cases hd : (decideAt input taken p).decision with
  | none =>
    cases hc : (decideAt input taken p).conflict with
    | none => rfl
    | some c =>
      obtain ⟨_, e, he, _⟩ := decidePath_conflict hc
      rw [decideAt] at hd
      rw [hd] at he
      cases he
  | some e =>
    cases hk : e.1.conflictPath with
    | some k =>
      obtain ⟨row, hrow, _, hkept, _⟩ := decidePath_conflictPath hd hk
      rw [← decideAt] at hrow
      simp [hrow, hkept, hk]
    | none =>
      cases hc : (decideAt input taken p).conflict with
      | none => simp [hk]
      | some c =>
        obtain ⟨_, e', he', hkept, _⟩ := decidePath_conflict hc
        rw [← decideAt, hd] at he'
        obtain rfl := Option.some.inj he'
        simp [hk, hkept]

end Plan

/-! ### Where the copies are written -/

/-- The sides that the copy of a file goes to, by the listings. -/
def BuildPlanInput.CopiedTo (input : BuildPlanInput) (p : JsString) (s : Side) : Prop :=
  ∃ l r, Store.get input.localIndex p = some l ∧ Store.get input.remoteIndex p = some r ∧ l.isCollection = false ∧
    if input.mode = .pullOnly then s = .localSide ∧ r.isCollection = false
    else s = .remoteSide ∨ r.isCollection = false

/-- A write of the copy is carried out on a side that holds something there. -/
def TransferContext.Overwrites (ctx : TransferContext) (d : ReplicationDecision) (w : World) (k : JsString) : Prop :=
  ∃ s, w.contents k s ≠ none ∧ w.Answers [.write s k] (ctx.after d w)

/-- A collection stays where it is, and takes no write. -/
def World.Refuses (s : Side) (k : JsString) (w w' : World) : Prop :=
  w.contents k s = some none → w'.contents k s = some none ∧ World.Omits [.write s k] w w'

section Writes

variable {input : BuildPlanInput} {ctx : TransferContext} {env : Env} {d : ReplicationDecision} {w w' : World}
  {p k : JsString} {s : Side} {l r : PlanSide}

instance : Observing (World.Refuses s k) where
  refl w h := ⟨h, refl_of (World.Omits [.write s k]) w⟩
  trans _ _ _ h h' hcoll := by
    obtain ⟨hstays, homits⟩ := h hcoll
    obtain ⟨hstays', homits'⟩ := h' hstays
    exact ⟨hstays', trans_of (World.Omits [.write s k]) homits homits'⟩
  tick w h := ⟨by rwa [World.contents_tick], Observing.tick w⟩
  look w e c he hc h := ⟨by rwa [World.contents_note], Observing.look w e c he hc⟩

theorem write_omits (hk : k ≠ []) (hv : isValidInnerPath k = true) (hcoll : w.contents k s = some none)
    (contentType : Option JsString) (data : Bytes) :
    World.Omits [.write s k] w (((Mutation.write s k).act env contentType data).run w).2 := by
  have hdir : (w.tree s).isDirectory k = true := Tree.isDirectory_iff.mpr (.inr hcoll)
  have written (now : ℕ) : ¬ ∃ v, ((write k contentType data now).run (w.tree s)).1 = .ok v := by
    have hrefused : ∃ e t', (write k contentType data now).run (w.tree s) = (.error e, t') ∧
        t'.content k = (w.tree s).content k ∧ Tree.Moves (fun q => q = k) (w.tree s) t' := Tree.write_refused hk hv hdir
    obtain ⟨e, t', hrun, -⟩ := hrefused
    rw [hrun]
    rintro ⟨v, hv⟩
    cases hv
  cases s with
  | localSide =>
    have hplain : Plain env (.write .localSide k) fun n (_ : Answer) =>
        onSide .localSide (write k contentType data (env.clock n)) := plain_onSide (fun a => by cases a <;> rfl) _
    exact hplain.omits (written _)
  | remoteSide =>
    have hplain : Plain env (.write .remoteSide k) fun n (_ : Answer) =>
        onSide .remoteSide (if env.sibling then write k contentType data (env.clock n)
          else writeFile k ⟨some data, (env.mint n).etag, (env.mint n).mtime, (env.mint n).size,
            some (contentType.getD octetStream)⟩) := plain_onSide (fun a => by cases a <;> rfl) _
    refine hplain.omits ?_
    rintro ⟨v, hv⟩
    cases hsibling : env.sibling with
    | true =>
      rw [hsibling] at hv
      exact written _ ⟨v, hv⟩
    | false =>
      rw [hsibling] at hv
      have hwrite : ((writeFile k ⟨some data, (env.mint w.calls).etag, (env.mint w.calls).mtime, (env.mint w.calls).size,
          some (contentType.getD octetStream)⟩).run (w.tree .remoteSide)).1 = .ok v := hv
      rw [writeFile, Act.run_bind, Act.run_read] at hwrite
      dsimp only at hwrite
      rw [if_neg (by simp [hdir])] at hwrite
      cases hwrite

theorem mutation_refuses {m : Mutation} (hk : k ≠ []) (hv : isValidInnerPath k = true)
    (hm : ∀ s' q recursive, m = .unlink s' q recursive → ¬ m.Reaches s k) : Admits (World.Refuses s k) env m := by
  intro contentType data w hcoll
  obtain ⟨a, ha, hkind⟩ := mutation_steady env hm contentType data w none hcoll
  have hstays : ((m.act env contentType data).run w).2.contents k s = some none := by
    rw [show ((m.act env contentType data).run w).2.contents k s = some a from ha]
    simpa using hkind
  refine ⟨hstays, ?_⟩
  by_cases hcall : m = .write s k
  · subst hcall
    exact write_omits hk hv hcoll contentType data
  · refine mutation_omits (fun hmem => hcall ?_) contentType data w
    have heq := List.mem_singleton.mp hmem
    cases m with
    | write s' q =>
      obtain ⟨rfl, rfl⟩ : s' = s ∧ q = k := by simpa [Mutation.call] using heq
      rfl
    | mkdir s' q | unlink s' q recursive => simp [Mutation.call] at heq

theorem served_entries (hs : Serves ctx input) (hl : Store.get input.localIndex p = some l)
    (hr : Store.get input.remoteIndex p = some r) : ctx.localEntry p = some l ∧ ctx.remoteEntry p = some r := by
  unfold TransferContext.localEntry TransferContext.remoteEntry
  rw [hs.localByPath, hs.remoteByPath]
  exact ⟨hl, hr⟩

theorem keepBoth_copiedTo {winner : Side} (hs : Serves ctx input)
    (hd : .keepBoth p winner k ∈ (buildReplicationPlan input).decisions)
    (h : w.Answers [.write s k] (ctx.after (.keepBoth p winner k) w)) : input.CopiedTo p s := by
  obtain ⟨_, taken, _, _, _, _, l, r, hl, hr, hwinner⟩ := decisions_grounds hd
  obtain ⟨hlocal, hremote⟩ : ctx.localEntry p = some l ∧ ctx.remoteEntry p = some r := served_entries hs hl hr
  have hmode : input.mode ≠ .pullOnly := by
    intro hm
    simp [conflictWinner, hm] at hwinner
  have hreads : ∀ c ∈ [Call.write s k], c.isRead = false := by simp [Call.isRead]
  rw [after_keepBoth] at h
  cases hlc : l.isCollection with
  | true =>
    have hmade : Act.Within (World.Omits [.write s k]) (ctx.env.makeCollection k) :=
      mutation_omits (m := .mkdir .remoteSide k) (by simp [Mutation.call]) none []
    rw [keepBoth_collection hlocal hlc] at h
    exact absurd h ((hmade w).not_answers hreads)
  | false =>
    refine ⟨l, r, hl, hr, hlc, ?_⟩
    rw [if_neg hmode]
    by_contra hnot
    obtain ⟨hside, hrc⟩ := not_or.mp hnot
    have hpath : Act.Within (World.Omits [.write s k]) (ctx.keepBoth p k) := by
      rw [keepBoth_file hlocal hlc, copyDown_collection hremote (by simpa using hrc)]
      exact Act.within_bind (Act.within_pure _) fun _ =>
        copyUp_within (mutation_omits (by simpa [Mutation.call] using Ne.symm hside))
    exact (hpath w).not_answers hreads h

theorem pullAndPreserve_copiedTo {contentType : Option JsString} (hs : Serves ctx input) (hne : k ≠ p)
    (hd : .pullAndPreserve p k contentType ∈ (buildReplicationPlan input).decisions)
    (h : w.Answers [.write s k] (ctx.after (.pullAndPreserve p k contentType) w)) : input.CopiedTo p s := by
  obtain ⟨_, taken, _, _, _, hmode, hrs, l, hl, _⟩ := decisions_grounds hd
  obtain ⟨r, hr⟩ := Option.isSome_iff_exists.mp hrs
  obtain ⟨hlocal, hremote⟩ : ctx.localEntry p = some l ∧ ctx.remoteEntry p = some r := served_entries hs hl hr
  have hreads : ∀ c ∈ [Call.write s k], c.isRead = false := by simp [Call.isRead]
  have hmkdir (q : JsString) : Act.Within (World.Omits [.write s k]) (ctx.env.localMkdir q) :=
    mutation_omits (m := .mkdir .localSide q) (by simp [Mutation.call]) none []
  have hunlink : Act.Within (World.Omits [.write s k]) (ctx.env.localUnlink p false) :=
    mutation_omits (m := .unlink .localSide p false) (by simp [Mutation.call]) none []
  have hpull : Act.Within (World.Omits [.write s k]) (ctx.remoteToLocal p contentType) := by
    refine Act.within_bind readFile_within fun stream => ?_
    split
    · exact Act.within_pure _
    · refine mutation_omits (m := .write .localSide p) (fun hmem => hne ?_) contentType _
      have heq := List.mem_singleton.mp hmem
      simp only [Mutation.call, Call.write.injEq] at heq
      exact heq.2.symm
  rw [after_pullAndPreserve] at h
  by_contra hnot
  have hcase : ¬ (l.isCollection = false ∧ s = .localSide ∧ r.isCollection = false) := by
    rintro ⟨hlc, hside⟩
    refine hnot ⟨l, r, hl, hr, hlc, ?_⟩
    rw [if_pos hmode]
    exact hside
  have hpath : Act.Within (World.Omits [.write s k]) (ctx.pullAndPreserve p k contentType) := by
    rw [pullAndPreserve_eq hlocal hremote]
    split
    · split
      · exact hmkdir p
      · exact hpull
    · rename_i hlc
      unfold TransferContext.replacePreserved
      split
      · exact Act.within_bind (hmkdir k) fun _ => Act.within_bind hunlink fun _ => hmkdir p
      · rename_i hrc
        have hside : s ≠ .localSide := fun hside => hcase ⟨by simpa using hlc, hside, by simpa using hrc⟩
        refine Act.within_bind readReplicaStream_within fun stream => ?_
        split
        · exact Act.within_pure _
        · exact Act.within_bind (mutation_omits (m := .write .localSide k)
            (by simpa [Mutation.call] using hside.symm) _ _) fun _ => hpull
  exact (hpath w).not_answers hreads h

theorem transfer_refuses (hk : d.conflictPath = some k) (hne : k ≠ d.path) (hnil : k ≠ [])
    (hv : isValidInnerPath k = true) : Act.Within (World.Refuses s k) (ctx.transfer d) := by
  refine transfer_within (fun m hm => mutation_refuses hnil hv ?_)
  rintro s' q recursive rfl ⟨rfl, hreach⟩
  cases d with
  | pullAndPreserve p c ct =>
    simp only [ReplicationDecision.asks, List.mem_cons, List.not_mem_nil, or_false, reduceCtorEq, false_or,
      Mutation.unlink.injEq] at hm
    obtain ⟨rfl, rfl, rfl⟩ := hm
    rcases hreach with he | ⟨he, -⟩
    · exact hne he
    · simp at he
  | keepBoth p v c => simp [ReplicationDecision.asks] at hm
  | _ => simp [ReplicationDecision.conflictPath] at hk

/-- A copy is written only where the listings send it, and never over a collection. -/
theorem written_copy (hs : Serves ctx input) (hd : d ∈ (buildReplicationPlan input).decisions)
    (hk : d.conflictPath = some k) (hne : k ≠ d.path) (hnil : k ≠ []) (hv : isValidInnerPath k = true)
    (h : w.Answers [.write s k] (ctx.after d w)) : input.CopiedTo d.path s ∧ w.contents k s ≠ some none := by
  constructor
  · cases d with
    | keepBoth p v c =>
      obtain rfl : c = k := by simpa [ReplicationDecision.conflictPath] using hk
      exact keepBoth_copiedTo hs hd h
    | pullAndPreserve p c ct =>
      obtain rfl : c = k := by simpa [ReplicationDecision.conflictPath] using hk
      exact pullAndPreserve_copiedTo hs hne hd h
    | _ => simp [ReplicationDecision.conflictPath] at hk
  · intro hcoll
    have hrefuses : Act.Within (World.Refuses s k) (ctx.transfer d) := transfer_refuses hk hne hnil hv
    exact ((hrefuses w hcoll).2.not_answers (by simp [Call.isRead])) h

end Writes

/-! ### Copies that are written over -/

section Overwriting

variable {input : BuildPlanInput} {ctx : TransferContext} {d : ReplicationDecision} {w w' : World}
  {p k : JsString} {s : Side} {l r : PlanSide}

theorem copyable_of_live (hs : Serves ctx input)
    (hvalid : ∀ s p, (Store.get (input.index s) p).isSome → isValidInnerPath p = true)
    (hd : d ∈ (buildReplicationPlan input).decisions) (hk : d.conflictPath = some k)
    (hlive : Live input (w.contents d.path) d) (hw : w.WellFormed) (hbeside : parentOf k = parentOf d.path)
    (hsegment : ∀ p, slash ∉ input.random p) (hne : k ≠ d.path) :
    ∃ l r, ctx.localEntry d.path = some l ∧ ctx.remoteEntry d.path = some r ∧ Copyable ctx w d.path k l r := by
  obtain ⟨hmem, taken, _, hg⟩ := decisions_grounds hd
  have hboth : d.isDeletion = false ∧ ∃ l r, Store.get input.localIndex d.path = some l ∧
      Store.get input.remoteIndex d.path = some r := by
    cases d with
    | keepBoth p v c =>
      obtain ⟨_, _, _, l, r, hl, hr, _⟩ := hg
      exact ⟨rfl, l, r, hl, hr⟩
    | pullAndPreserve p c ct =>
      obtain ⟨_, _, _, hr, l, hl, _⟩ := hg
      obtain ⟨r, hr⟩ := Option.isSome_iff_exists.mp hr
      exact ⟨rfl, l, r, hl, hr⟩
    | _ => simp [ReplicationDecision.conflictPath] at hk
  obtain ⟨hdel, l, r, hl, hr⟩ := hboth
  obtain ⟨hlocal, hremote⟩ := served_entries hs hl hr
  have hv : isValidInnerPath d.path = true := hvalid .localSide d.path (by simp [BuildPlanInput.index, hl])
  obtain ⟨hkvalid, hknil⟩ := conflictPath_valid hsegment hd hk hv
  exact ⟨l, r, hlocal, hremote,
    { nonempty := path_ne_nil hmem
      valid := hv
      wellFormed := hw .localSide
      localEntry := hlocal
      remoteEntry := hremote
      tellsLocal := hlive hdel .localSide l hl
      tellsRemote := hlive hdel .remoteSide r hr
      conflictNonempty := hknil
      conflictValid := hkvalid
      beside := hbeside
      apart := hne
      remoteForm := hw .remoteSide }⟩

theorem keepBoth_writes_local (h : Copyable ctx w p k l r) (hl : l.isCollection = false) (hr : r.isCollection = false)
    (winner : Side) (hread : Delivered ctx.env w.calls) (hwrite : (ctx.env.answer (w.calls + 1)).fails = false)
    (hdir : w.localTree.isDirectory k = false) :
    w.Answers [.write .localSide k] (ctx.after (.keepBoth p winner k) w) := by
  have hcs : ∀ c ∈ [Call.write .localSide k], c.isRead = false := by simp [Call.isRead]
  obtain ⟨x, w', hrun, hgrows, hiff, _⟩ := copyDown_answers h hr hcs List.mem_cons_self
  have hwritten := hiff.mpr ⟨hread, hwrite, hdir⟩
  rw [after_keepBoth, keepBoth_file h.localEntry hl]
  cases x with
  | error e => rwa [Act.run_bind_error hrun]
  | ok u =>
    have hup : Act.Within World.Notes (ctx.copyUp p k) := copyUp_within (mutation_notes ctx.env _)
    rw [Act.run_bind_ok hrun, answers_trans hgrows (hup w').extends]
    exact .inl hwritten

theorem keepBoth_writes_remote (h : Copyable ctx w p k l r) (hl : l.isCollection = false) (winner : Side)
    (hread : r.isCollection = true ∧ Delivered ctx.env w.calls ∧ (ctx.env.answer (w.calls + 1)).fails = false ∨
      r.isCollection = false ∧ (ctx.env.answer w.calls).isBlank = true ∧ Delivered ctx.env (w.calls + 1) ∧
        (ctx.env.answer (w.calls + 2)).fails = false)
    (hdir : w.remoteTree.isDirectory k = false) :
    w.Answers [.write .remoteSide k] (ctx.after (.keepBoth p winner k) w) := by
  have hcs : ∀ c ∈ [Call.write .remoteSide k], c.isRead = false := by simp [Call.isRead]
  rw [after_keepBoth, keepBoth_file h.localEntry hl]
  rcases hread with ⟨hr, hread, hwrite⟩ | ⟨hr, hblank, hread, hwrite⟩
  · have hrun : (ctx.copyDown p k).run w = (.ok (), w) := by
      rw [copyDown_collection h.remoteEntry hr]
      rfl
    rw [Act.run_bind_ok hrun]
    exact (copyUp_answers h hl hcs List.mem_cons_self).mpr ⟨hread, hwrite, hdir⟩
  · have hdown : ∀ c ∈ [Call.write .localSide k], c.isRead = false := by simp [Call.isRead]
    obtain ⟨x, w', hrun, hgrows, hiff, hends⟩ := copyDown_answers h hr hdown List.mem_cons_self
    rcases hends with hwritten | ⟨-, hnot⟩ | ⟨rfl, -, hleads⟩
    · have hnot := (hiff.mp hwritten).1.2
      rw [hblank] at hnot
      cases hnot
    · rw [hblank] at hnot
      cases hnot
    · have hup : Act.Within World.Notes (ctx.copyUp p k) := copyUp_within (mutation_notes ctx.env _)
      rw [Act.run_bind_ok hrun, answers_trans hgrows (hup w').extends]
      right
      refine (copyUp_answers (h.congr hleads.localTree hleads.remoteTree) hl hcs List.mem_cons_self).mpr ?_
      rw [hleads.calls, hleads.remoteTree]
      exact ⟨hread, hwrite, hdir⟩

end Overwriting

end DurableDav.Replication
