import DurableDav.Replication.BuildPlan

namespace DurableDav.Replication

open Library

variable {input : BuildPlanInput}

theorem indexByPath_get {ρ : Type} {pathOf : ρ → JsString} {rows : List ρ} {p : JsString} {row : ρ}
    (h : Store.get (indexByPath pathOf rows) p = some row) :
    row ∈ rows ∧ pathOf row = p ∧ p ≠ [] := by
  induction rows with
  | nil => simp [indexByPath] at h
  | cons x xs ih =>
    by_cases hx : pathOf x = []
    · have h' : Store.get (indexByPath pathOf xs) p = some row := by
        simpa [indexByPath, hx] using h
      exact ⟨List.mem_cons_of_mem _ (ih h').1, (ih h').2⟩
    · have hs : indexByPath pathOf (x :: xs) = (pathOf x, x) :: indexByPath pathOf xs := by
        simp [indexByPath, hx]
      rw [hs, Store.get_cons] at h
      by_cases hp : pathOf x = p
      · have he : x = row := by simpa [hp] using h
        subst he
        exact ⟨List.mem_cons_self, hp, fun hn => hx (hp.trans hn)⟩
      · have h' : Store.get (indexByPath pathOf xs) p = some row := by simpa [hp] using h
        exact ⟨List.mem_cons_of_mem _ (ih h').1, (ih h').2⟩

theorem indexByPath_isSome {ρ : Type} {pathOf : ρ → JsString} {rows : List ρ} {p : JsString} :
    (Store.get (indexByPath pathOf rows) p).isSome ↔ p ≠ [] ∧ ∃ row ∈ rows, pathOf row = p := by
  rw [← Store.mem_keys]
  simp only [Store.keys, indexByPath, List.map_map, List.mem_dedup, List.mem_map, List.mem_filter,
    decide_eq_true_eq, Function.comp_apply]
  constructor
  · rintro ⟨row, ⟨hm, hne⟩, rfl⟩
    exact ⟨hne, row, hm, rfl⟩
  · rintro ⟨hne, row, hm, rfl⟩
    exact ⟨row, ⟨hm, hne⟩, rfl⟩

theorem mem_paths {p : JsString} :
    p ∈ input.paths ↔ (Store.get input.localIndex p).isSome ∨ (Store.get input.remoteIndex p).isSome ∨
      (Store.get input.baseIndex p).isSome := by
  simp only [BuildPlanInput.paths, List.mem_insertionSort, List.mem_dedup, List.mem_append,
    Store.mem_keys, or_assoc]

theorem paths_nodup : input.paths.Nodup :=
  (List.perm_insertionSort _ _).nodup_iff.mpr (List.nodup_dedup _)

theorem mem_walkPaths {ps taken : List JsString} {v : Verdict} (h : v ∈ walkPaths input ps taken) :
    ∃ p ∈ ps, ∃ taken', taken ⊆ taken' ∧ v = decideAt input taken' p := by
  induction ps generalizing taken with
  | nil => simp [walkPaths] at h
  | cons p ps ih =>
    simp only [walkPaths, List.mem_cons] at h
    rcases h with rfl | h
    · exact ⟨p, List.mem_cons_self, taken, List.Subset.refl _, rfl⟩
    · obtain ⟨q, hq, taken', ht, hv⟩ := ih h
      exact ⟨q, List.mem_cons_of_mem _ hq, taken', fun x hx => ht (List.mem_append_left _ hx), hv⟩

theorem walkPaths_mem {ps taken : List JsString} {p : JsString} (h : p ∈ ps) :
    ∃ taken', taken ⊆ taken' ∧ decideAt input taken' p ∈ walkPaths input ps taken := by
  induction ps generalizing taken with
  | nil => simp at h
  | cons q ps ih =>
    rcases List.mem_cons.mp h with rfl | h
    · exact ⟨taken, List.Subset.refl _, by simp [walkPaths]⟩
    · have hrec := @ih (taken ++ (decideAt input taken q).reserved) h
      obtain ⟨taken', ht, hm⟩ := hrec
      exact ⟨taken', fun x hx => ht (List.mem_append_left _ hx), by simp [walkPaths, hm]⟩

/-- What a decision of a path rests on: which sides and rows hold it, and under which settings. -/
def Grounds (input : BuildPlanInput) (taken : List JsString) (p : JsString) (l r : Option PlanSide)
    (b : Option PlanBase) : ReplicationDecision → Prop
  | .push q ct => q = p ∧ (∃ s, l = some s ∧ ct = s.contentType) ∧ input.mode ≠ .pullOnly
  | .pull q _ => q = p ∧ r.isSome ∧ input.mode ≠ .copyOnly
  | .deleteRemote q => q = p ∧ l = none ∧ r.isSome ∧ b.isSome ∧ input.trustAbsences ∧ input.mode ≠ .pullOnly
  | .deleteLocal q => q = p ∧ l.isSome ∧ r = none ∧ input.trustAbsences ∧
      (b.isSome ∧ input.mode ≠ .copyOnly ∧ (input.mode = .pullOnly → input.mirrorDeletions) ∨
        b = none ∧ input.mode = .pullOnly ∧ input.mirrorDeletions)
  | .keepBoth q w c => q = p ∧ w = .localSide ∧ c = reserveConflictPath input taken p ∧
      ∃ ls rs, l = some ls ∧ r = some rs ∧ conflictWinner ls rs input.mode = none
  | .pullAndPreserve q c ct => q = p ∧ c = reserveConflictPath input taken p ∧ input.mode = .pullOnly ∧
      r.isSome ∧ ∃ ls, l = some ls ∧ ct = ls.contentType
  | .compareContent q _ => q = p ∧ input.hashOnAmbiguous ∧
      ∃ ls rs, l = some ls ∧ r = some rs ∧ couldBeIdentical ls rs
  | .agree q k _ => q = p ∧ r.isSome ∧ ∃ ls, l = some ls ∧ k = ls.isCollection
  | .forget q => q = p ∧ l = none ∧ r = none ∧ b.isSome ∧ input.trustAbsences

theorem decidePath_grounds {taken : List JsString} {p : JsString} {l r : Option PlanSide}
    {b : Option PlanBase} {e : ReplicationDecision × Bool}
    (h : (decidePath input taken p l r b).decision = some e) : Grounds input taken p l r b e.1 := by
  unfold decidePath decideGone decideNewLocal decideNewRemote decideBothNew decideOneSided decideBoth
    preserveBoth preserveLocal applyWinner Verdict.emit Verdict.emitWith Verdict.skip Verdict.defer at h
  split at h <;> grind [Grounds, conflictWinner]

theorem Grounds.path {taken : List JsString} {p : JsString} {l r : Option PlanSide} {b : Option PlanBase}
    {d : ReplicationDecision} (h : Grounds input taken p l r b d) : d.path = p := by
  cases d <;> exact h.1

theorem decidePath_conflict {taken : List JsString} {p : JsString} {l r : Option PlanSide}
    {b : Option PlanBase} {c : PlanConflict} (h : (decidePath input taken p l r b).conflict = some c) :
    c.path = p ∧ ∃ e, (decidePath input taken p l r b).decision = some e ∧
      c.conflictPath = e.1.conflictPath ∧ (c.kind = .deletion ↔ e.1.isDeletion = true) := by
  unfold decidePath decideGone decideNewLocal decideNewRemote decideBothNew decideOneSided decideBoth
    preserveBoth preserveLocal applyWinner Verdict.emit Verdict.emitWith Verdict.skip Verdict.defer at h ⊢
  split at h <;> grind [ReplicationDecision.conflictPath, ReplicationDecision.isDeletion]

theorem decidePath_conflictPath {taken : List JsString} {p c : JsString} {l r : Option PlanSide}
    {b : Option PlanBase} {e : ReplicationDecision × Bool}
    (h : (decidePath input taken p l r b).decision = some e) (hc : e.1.conflictPath = some c) :
    ∃ row, (decidePath input taken p l r b).conflict = some row ∧ row.path = p ∧
      row.conflictPath = some c ∧ row.kind = .conflict := by
  unfold decidePath decideGone decideNewLocal decideNewRemote decideBothNew decideOneSided decideBoth
    preserveBoth preserveLocal applyWinner Verdict.emit Verdict.emitWith Verdict.skip Verdict.defer at h ⊢
  split at h <;> grind [ReplicationDecision.conflictPath]

theorem verdict_mem {p : JsString} (hp : p ∈ input.paths) :
    ∃ taken, input.paths ⊆ taken ∧ decideAt input taken p ∈ verdicts input := walkPaths_mem hp

theorem decidePath_deleteLocal {taken : List JsString} {p : JsString} {l r : Option PlanSide}
    {b : Option PlanBase} (hl : l.isSome) (hr : r = none) (ht : input.trustAbsences)
    (h : b.isSome ∧ input.mode ≠ .copyOnly ∧ (input.mode = .pullOnly → input.mirrorDeletions) ∨
      b = none ∧ input.mode = .pullOnly ∧ input.mirrorDeletions) :
    (decidePath input taken p l r b).decision = some (.deleteLocal p, false) := by
  obtain ⟨ls, rfl⟩ := Option.isSome_iff_exists.mp hl
  subst hr
  unfold decidePath decideNewLocal decideOneSided Verdict.emit Verdict.emitWith Verdict.skip Verdict.defer
  cases b <;> grind

theorem decidePath_deleteRemote {taken : List JsString} {p : JsString} {l r : Option PlanSide}
    {b : Option PlanBase} (hl : l = none) (hr : r.isSome) (hb : b.isSome) (ht : input.trustAbsences)
    (hm : input.mode ≠ .pullOnly) :
    (decidePath input taken p l r b).decision = some (.deleteRemote p, false) := by
  obtain ⟨rs, rfl⟩ := Option.isSome_iff_exists.mp hr
  obtain ⟨bs, rfl⟩ := Option.isSome_iff_exists.mp hb
  subst hl
  simp [decidePath, decideOneSided, ht, hm, Verdict.emitWith]

theorem conflictPathFor_fresh (path : JsString) (taken : List JsString) (now : ℕ) (random : JsString) :
    conflictPathFor path taken now random ∉ taken ∨
      ∃ stem, conflictPathFor path taken now random = stem ++ dash :: random := by
  by_cases hb : conflictBase path now ∈ taken
  · cases hs : freeSuffix (conflictBase path now) taken 998 2 with
    | some c => exact .inl (by simpa [conflictPathFor, hb, hs] using freeSuffix_notMem hs)
    | none => exact .inr ⟨conflictBase path now, by simp [conflictPathFor, hb, hs]⟩
  · exact .inl (by simp [conflictPathFor, hb])

def BuildPlanInput.RandomFresh (input : BuildPlanInput) : Prop :=
  ∀ p ∈ input.paths, ∀ stem, stem ++ dash :: input.random p ∉ input.paths

theorem reserveConflictPath_notMem (hf : input.RandomFresh) {taken : List JsString} {p : JsString}
    (hp : p ∈ input.paths) (ht : input.paths ⊆ taken) :
    reserveConflictPath input taken p ∉ input.paths := by
  rcases conflictPathFor_fresh p taken (input.now / 1000) (input.random p) with h | ⟨stem, h⟩
  · exact fun hm => h (ht hm)
  · rw [reserveConflictPath, h]
    exact hf p hp stem

/-! ### The ordered plan -/

theorem mem_pending {e : Ordered} (h : e ∈ pending input) :
    ∃ v ∈ verdicts input, v.decision = some (e.decision, e.isCollection) := by
  simp only [pending, List.mem_map] at h
  obtain ⟨x, hx, rfl⟩ := h
  have hm := List.fst_mem_of_mem_zipIdx hx
  obtain ⟨v, hv, hd⟩ := List.mem_filterMap.mp hm
  exact ⟨v, hv, hd⟩

theorem pending_mem {v : Verdict} {d : ReplicationDecision} {k : Bool} (hv : v ∈ verdicts input)
    (hd : v.decision = some (d, k)) : d ∈ (pending input).map Ordered.decision := by
  have hm : (d, k) ∈ (verdicts input).filterMap Verdict.decision := List.mem_filterMap.mpr ⟨v, hv, hd⟩
  obtain ⟨i, hi, he⟩ := List.getElem_of_mem hm
  simp only [pending, List.map_map, List.mem_map]
  refine ⟨((d, k), i), ?_, rfl⟩
  rw [List.mk_mem_zipIdx_iff_getElem?]
  exact List.getElem?_eq_some_iff.mpr ⟨hi, he⟩

theorem perm_decisions : (buildReplicationPlan input).decisions.Perm
    ((pending input).map Ordered.decision) := by
  simp only [buildReplicationPlan, deletions]
  apply List.Perm.map
  have hs : (sortedPending input).Perm (pending input) := List.perm_insertionSort _ _
  have hd := (List.perm_insertionSort (fun a b => Ordered.deeperBefore a b)
    ((sortedPending input).filter isDeletion)).append_left
      ((sortedPending input).filter (fun e => !isDeletion e))
  exact (hd.trans (List.perm_append_comm.trans (List.filter_append_perm _ _))).trans hs

theorem mem_decisions {d : ReplicationDecision} :
    d ∈ (buildReplicationPlan input).decisions ↔ ∃ v ∈ verdicts input, ∃ k, v.decision = some (d, k) := by
  rw [perm_decisions.mem_iff]
  constructor
  · intro h
    obtain ⟨e, he, rfl⟩ := List.mem_map.mp h
    obtain ⟨v, hv, hd⟩ := mem_pending he
    exact ⟨v, hv, e.isCollection, hd⟩
  · rintro ⟨v, hv, k, hd⟩
    exact pending_mem hv hd

theorem decisions_grounds {d : ReplicationDecision} (h : d ∈ (buildReplicationPlan input).decisions) :
    d.path ∈ input.paths ∧ ∃ taken, input.paths ⊆ taken ∧
      Grounds input taken d.path (Store.get input.localIndex d.path) (Store.get input.remoteIndex d.path)
        (Store.get input.baseIndex d.path) d := by
  obtain ⟨v, hv, k, hd⟩ := mem_decisions.mp h
  obtain ⟨p, hp, taken, ht, rfl⟩ := mem_walkPaths hv
  have hg := decidePath_grounds hd
  obtain rfl : d.path = p := hg.path
  exact ⟨hp, taken, ht, hg⟩

theorem decisions_of_decideAt {p : JsString} {d : ReplicationDecision} {k : Bool} (hp : p ∈ input.paths)
    (h : ∀ taken, (decideAt input taken p).decision = some (d, k)) :
    d ∈ (buildReplicationPlan input).decisions := by
  obtain ⟨taken, _, hm⟩ := verdict_mem hp
  exact mem_decisions.mpr ⟨_, hm, k, h taken⟩

theorem walkPaths_sublist (ps taken : List JsString) :
    (((walkPaths input ps taken).filterMap Verdict.decision).map (fun e => e.1.path)).Sublist ps := by
  induction ps generalizing taken with
  | nil => simp [walkPaths]
  | cons p ps ih =>
    cases hd : (decideAt input taken p).decision with
    | none => simpa [walkPaths, hd] using (ih _).cons p
    | some e =>
      have hp : e.1.path = p := (decidePath_grounds hd).path
      simpa [walkPaths, hd, hp] using ih _

theorem decisions_path_nodup : ((buildReplicationPlan input).decisions.map ReplicationDecision.path).Nodup := by
  rw [(perm_decisions.map _).nodup_iff]
  have he : ((pending input).map Ordered.decision).map ReplicationDecision.path =
      ((verdicts input).filterMap Verdict.decision).map (fun e => e.1.path) := by
    simp only [pending, List.map_map]
    rw [← List.zipIdx_map_fst 0 ((verdicts input).filterMap Verdict.decision), List.map_map]
    simp [Function.comp_def]
  rw [he]
  exact paths_nodup.sublist (walkPaths_sublist _ _)

theorem decision_unique {d e : ReplicationDecision} (hd : d ∈ (buildReplicationPlan input).decisions)
    (he : e ∈ (buildReplicationPlan input).decisions) (h : d.path = e.path) : d = e :=
  List.inj_on_of_nodup_map decisions_path_nodup hd he h

theorem mem_conflicts {c : PlanConflict} (h : c ∈ (buildReplicationPlan input).conflicts) :
    ∃ d ∈ (buildReplicationPlan input).decisions, c.path = d.path ∧ c.conflictPath = d.conflictPath ∧
      (c.kind = .deletion ↔ d.isDeletion = true) := by
  obtain ⟨v, hv, hc⟩ := List.mem_filterMap.mp h
  obtain ⟨p, hp, taken, ht, rfl⟩ := mem_walkPaths hv
  obtain ⟨hpath, e, hd, hcp, hk⟩ := decidePath_conflict hc
  exact ⟨e.1, mem_decisions.mpr ⟨_, hv, e.2, hd⟩, by rw [hpath, (decidePath_grounds hd).path], hcp, hk⟩

theorem conflict_of_conflictPath {d : ReplicationDecision} {c : JsString}
    (hd : d ∈ (buildReplicationPlan input).decisions) (hc : d.conflictPath = some c) :
    ∃ row ∈ (buildReplicationPlan input).conflicts, row.path = d.path ∧ row.conflictPath = some c := by
  obtain ⟨v, hv, k, he⟩ := mem_decisions.mp hd
  obtain ⟨p, hp, taken, ht, rfl⟩ := mem_walkPaths hv
  obtain ⟨row, hr, hpath, hcp, _⟩ := decidePath_conflictPath he hc
  exact ⟨row, List.mem_filterMap.mpr ⟨_, hv, hr⟩, by rw [hpath, (decidePath_grounds he).path], hcp⟩

theorem decisions_split : ∃ transfers removals, (buildReplicationPlan input).decisions = transfers ++ removals ∧
    (∀ d ∈ transfers, d.isDeletion = false) ∧ ∀ d ∈ removals, d.isDeletion = true := by
  refine ⟨((sortedPending input).filter (fun e => !isDeletion e)).map Ordered.decision,
    (deletions input).map Ordered.decision, by simp [buildReplicationPlan], ?_, ?_⟩
  · intro d hd
    obtain ⟨e, he, rfl⟩ := List.mem_map.mp hd
    simpa [isDeletion] using (List.mem_filter.mp he).2
  · intro d hd
    obtain ⟨e, he, rfl⟩ := List.mem_map.mp hd
    have hm : e ∈ (sortedPending input).filter isDeletion := by
      simpa [deletions] using he
    exact (List.mem_filter.mp hm).2

end DurableDav.Replication
