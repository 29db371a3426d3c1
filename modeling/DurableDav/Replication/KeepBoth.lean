import DurableDav.Replication.Frames
import DurableDav.Replication.PlanLemmas

namespace DurableDav.Replication

open Library

def BuildPlanInput.ListsAncestors (input : BuildPlanInput) : Prop :=
  ∀ p q, q ≠ [] → Below slash q p →
    ((Store.get input.localIndex p).isSome → (Store.get input.localIndex q).isSome) ∧
      ((Store.get input.remoteIndex p).isSome → (Store.get input.remoteIndex q).isSome)

def BothChanged (l r : PlanSide) : Option PlanBase → Prop
  | none => True
  | some b => sideChanged l.observation b.localObservation = true ∧
      sideChanged r.observation b.remoteObservation = true

instance (l r : PlanSide) (b : Option PlanBase) : Decidable (BothChanged l r b) := by
  unfold BothChanged
  split <;> infer_instance

/-- Executing the plan leaves both versions in place and reports the copy it keeps. -/
def KeepsBothVersions (input : BuildPlanInput) (p : JsString) (l r : PlanSide) : Prop :=
  ∀ (o : ApplyOptions) (w : World), w.localTree.describe p = some l → w.remoteTree.describe p = some r →
    w.localTree.content p ≠ w.remoteTree.content p →
    let plan := buildReplicationPlan input
    let w' := ((o.run plan.decisions).run w).2
    w'.localTree.content p = w.localTree.content p ∧ w'.remoteTree.content p = w.remoteTree.content p ∧
      ∃ row ∈ plan.conflicts, row.path = p ∧ row.conflictPath.isSome

section KeepBoth

variable {input : BuildPlanInput} {p : JsString} {l r : PlanSide}

theorem conflictWinner_keepBoth : conflictWinner l r .keepBoth = none := rfl

theorem decideAt_keepBoth (hmode : input.mode = .keepBoth) (hl : Store.get input.localIndex p = some l)
    (hr : Store.get input.remoteIndex p = some r) (hb : BothChanged l r (Store.get input.baseIndex p))
    (hi : provablyIdentical l r = false)
    (hh : ¬ (Store.get input.baseIndex p = none ∧ input.hashOnAmbiguous = true ∧ couldBeIdentical l r = true))
    (taken : List JsString) : ∃ k, (decideAt input taken p).decision =
      some (.keepBoth p .localSide (reserveConflictPath input taken p), k) := by
  unfold decideAt decidePath
  rw [hl, hr]
  cases hbase : Store.get input.baseIndex p with
  | none =>
    have hn : ¬ (input.hashOnAmbiguous = true ∧ couldBeIdentical l r = true) := fun h => hh ⟨hbase, h⟩
    exact ⟨_, by simp [decideBothNew, hi, hn, hmode, conflictWinner_keepBoth, preserveBoth, Verdict.emitWith]; rfl⟩
  | some b =>
    rw [hbase] at hb
    exact ⟨l.isCollection, by
      simp [decideBoth, hb.1, hb.2, hi, hmode, conflictWinner_keepBoth, preserveBoth, Verdict.emitWith]⟩

theorem conflictPath_notMem (hf : input.RandomFresh) {d : ReplicationDecision} {c : JsString}
    (hd : d ∈ (buildReplicationPlan input).decisions) (hc : d.conflictPath = some c) : c ∉ input.paths := by
  obtain ⟨hp, taken, ht, hg⟩ := decisions_grounds hd
  cases d with
  | keepBoth q s x =>
    obtain rfl : x = c := by simpa [ReplicationDecision.conflictPath] using hc
    rw [hg.2.2.1]
    exact reserveConflictPath_notMem hf hp ht
  | pullAndPreserve q x ct =>
    obtain rfl : x = c := by simpa [ReplicationDecision.conflictPath] using hc
    rw [hg.2.1]
    exact reserveConflictPath_notMem hf hp ht
  | _ => simp [ReplicationDecision.conflictPath] at hc

theorem path_ne_nil {q : JsString} (hq : q ∈ input.paths) : q ≠ [] := by
  rcases mem_paths.mp hq with h | h | h <;> exact (indexByPath_isSome.mp h).1

theorem targets_other (hf : input.RandomFresh) {d : ReplicationDecision}
    (hd : d ∈ (buildReplicationPlan input).decisions) {s : Side} {q : JsString} (hq : q ∈ input.paths)
    (hne : d.path ≠ q) (ht : d.Targets s q) (hm : input.mode ≠ .pullOnly) :
    Below slash d.path q ∧ input.trustAbsences = true ∧
      (Store.get input.localIndex d.path = none ∨ Store.get input.remoteIndex d.path = none) := by
  obtain ⟨_, taken, _, hg⟩ := decisions_grounds hd
  obtain ⟨m, hm', hreach⟩ := ht
  cases d with
  | deleteRemote x =>
    obtain rfl := List.mem_singleton.mp hm'
    exact ⟨(hreach.2.resolve_left (fun h => hne h.symm)).2, hg.2.2.2.2.1, .inl hg.2.1⟩
  | deleteLocal x =>
    obtain rfl := List.mem_singleton.mp hm'
    exact ⟨(hreach.2.resolve_left (fun h => hne h.symm)).2, hg.2.2.2.1, .inr hg.2.2.1⟩
  | keepBoth x w c =>
    have hqc : q = c := by
      simp only [ReplicationDecision.asks, List.mem_cons, List.not_mem_nil, or_false] at hm'
      rcases hm' with rfl | rfl | rfl | rfl <;> exact hreach.2
    exact absurd (hqc ▸ hq) (conflictPath_notMem hf hd rfl)
  | pullAndPreserve x c ct => exact absurd hg.2.2.1 hm
  | push x ct | pull x ct | compareContent x w =>
    have hqx : q = x := by
      simp only [ReplicationDecision.asks, List.mem_cons, List.not_mem_nil, or_false] at hm'
      rcases hm' with rfl | rfl | rfl | rfl <;> exact hreach.2
    exact absurd hqx.symm hne
  | agree x k ct | forget x => simp [ReplicationDecision.asks] at hm'

theorem targets_own (hf : input.RandomFresh) (ha : input.trustAbsences = true → input.ListsAncestors)
    (hm : input.mode ≠ .pullOnly) {d : ReplicationDecision} (hd : d ∈ (buildReplicationPlan input).decisions)
    {s : Side} (hl : (Store.get input.localIndex p).isSome) (hr : (Store.get input.remoteIndex p).isSome)
    (ht : d.Targets s p) : d.path = p := by
  by_contra hne
  obtain ⟨hb, htrust, habsent⟩ := targets_other hf hd (mem_paths.mpr (.inl hl)) hne ht hm
  have hup := ha htrust p d.path (path_ne_nil (decisions_grounds hd).1) hb
  rcases habsent with h | h
  · simpa [h] using hup.1 hl
  · simpa [h] using hup.2 hr

theorem held_of_describe {t : Tree} {e : PlanSide} (h : t.describe p = some e) : t.content p ≠ none := by
  intro hn
  simp [Tree.describe, Tree.content_eq_none.mp hn] at h

theorem keepBoth_preserves (hmode : input.mode = .keepBoth) (hl : Store.get input.localIndex p = some l)
    (hr : Store.get input.remoteIndex p = some r) (hb : BothChanged l r (Store.get input.baseIndex p))
    (ha : input.trustAbsences = true → input.ListsAncestors) (hf : input.RandomFresh)
    (hi : provablyIdentical l r = false)
    (hh : ¬ (Store.get input.baseIndex p = none ∧ input.hashOnAmbiguous = true ∧ couldBeIdentical l r = true)) :
    KeepsBothVersions input p l r := by
  have hp : p ∈ input.paths := mem_paths.mpr (.inl (by simp [hl]))
  obtain ⟨taken, ht, hv⟩ := verdict_mem hp
  obtain ⟨k, hk⟩ := decideAt_keepBoth hmode hl hr hb hi hh taken
  have hd := mem_decisions.mpr ⟨_, hv, k, hk⟩
  have untouched (s : Side) : ¬ ∃ d ∈ (buildReplicationPlan input).decisions, d.Targets s p := by
    rintro ⟨d, hdm, htarget⟩
    have he : d.path = p := targets_own hf ha (by simp [hmode]) hdm (by simp [hl]) (by simp [hr]) htarget
    obtain rfl := decision_unique hdm hd he
    have hc : p = reserveConflictPath input taken p := by
      obtain ⟨m, hm, hreach⟩ := htarget
      simp only [ReplicationDecision.asks, List.mem_cons, List.not_mem_nil, or_false] at hm
      rcases hm with rfl | rfl | rfl | rfl <;> exact hreach.2
    exact conflictPath_notMem hf hd rfl (hc ▸ hp)
  obtain ⟨row, hrow, hrp, hrc⟩ := conflict_of_conflictPath hd rfl
  intro o w hwl hwr _
  refine ⟨?_, ?_, row, hrow, hrp, by simp [hrc]⟩
  · exact (run_moves o _ w).content_eq (s := .localSide) (untouched _)
      (held_of_describe hwl)
  · exact (run_moves o _ w).content_eq (s := .remoteSide) (untouched _)
      (held_of_describe hwr)

theorem not_keepsBoth_of_silent {d : ReplicationDecision} {k : Bool} (hp : p ∈ input.paths)
    (h : ∀ taken, (decideAt input taken p).decision = some (d, k)) (hc : d.conflictPath = none)
    (hbytes : ¬ (l.isCollection = true ∧ r.isCollection = true)) (hl : l.path = p) (hr : r.path = p) :
    ¬ KeepsBothVersions input p l r := by
  intro hkeep
  have hd : d ∈ (buildReplicationPlan input).decisions := decisions_of_decideAt hp h
  let holding (e : PlanSide) (data : Bytes) : Tree :=
    [(p, ⟨if e.isCollection then none else some data, e.etag, e.mtime, e.size, e.contentType⟩)]
  have hdescribe (e : PlanSide) (data : Bytes) (he : e.path = p) : (holding e data).describe p = some e := by
    subst he
    cases hc : e.isCollection <;>
      simp [holding, Tree.describe, Store.get, Resource.entry, Resource.isCollection, hc, PlanSide.ext_iff]
  have hdiffer : (holding l [0]).content p ≠ (holding r [1]).content p := by
    cases hlc : l.isCollection <;> cases hrc : r.isCollection <;>
      simp_all [holding, Tree.content, Store.get]
  obtain ⟨_, _, row, hrow, hrp, hrc⟩ := hkeep (input.options .calm)
    (.ofTrees (holding l [0]) (holding r [1])) (hdescribe l [0] hl) (hdescribe r [1] hr) hdiffer
  obtain ⟨e, he, hpe, hce, _⟩ := mem_conflicts hrow
  obtain rfl : e = d := by
    obtain ⟨taken, _, hv⟩ := verdict_mem hp
    exact decision_unique he hd (by rw [← hpe, hrp, (decidePath_grounds (h taken)).path])
  simp [hce, hc] at hrc

def hashedInput : BuildPlanInput where
  mode := .keepBoth
  localSides := [⟨js "a", false, none, some 1, some 1, none⟩]
  remoteSides := [⟨js "a", false, none, some 2, some 1, none⟩]
  base := []
  trustAbsences := true
  hashOnAmbiguous := true

def hashedWorld : World :=
  .ofTrees [(js "a", .file [0] 1)] [(js "a", .file [1] 2)]

def plainInput : BuildPlanInput := { hashedInput with hashOnAmbiguous := false }

end KeepBoth

end DurableDav.Replication
