import DurableDav.Replication.KeepBoth
import DurableDav.Replication.WellFormed

namespace DurableDav.Replication

open Library

def Side.other : Side → Side
  | .localSide => .remoteSide
  | .remoteSide => .localSide

namespace BuildPlanInput

def index (input : BuildPlanInput) : Side → Store JsString PlanSide
  | .localSide => input.localIndex
  | .remoteSide => input.remoteIndex

-- the base64url alphabet has no slash
structure RandomToken (input : BuildPlanInput) : Prop where
  fresh : input.RandomFresh
  segment : ∀ p, slash ∉ input.random p

end BuildPlanInput

theorem parentOf_conflictPathFor {input : BuildPlanInput} {p : JsString} (hrandom : slash ∉ input.random p)
    (taken : List JsString) : parentOf (reserveConflictPath input taken p) = parentOf p :=
  parentSegments_conflictPathFor hrandom p taken _

theorem conflictPath_sibling {input : BuildPlanInput} (hsegment : ∀ p, slash ∉ input.random p)
    {d : ReplicationDecision} {c : JsString} (hd : d ∈ (buildReplicationPlan input).decisions)
    (hc : d.conflictPath = some c) : parentOf c = parentOf d.path := by
  obtain ⟨_, taken, _, hg⟩ := decisions_grounds hd
  cases d with
  | keepBoth x w c' =>
    obtain rfl : c' = c := by simpa [ReplicationDecision.conflictPath] using hc
    rw [hg.2.2.1]
    exact parentOf_conflictPathFor (hsegment x) taken
  | pullAndPreserve x c' ct =>
    obtain rfl : c' = c := by simpa [ReplicationDecision.conflictPath] using hc
    rw [hg.2.1]
    exact parentOf_conflictPathFor (hsegment x) taken
  | _ => simp [ReplicationDecision.conflictPath] at hc

/-- A conflict copy lies beside its path. -/
theorem conflictPath_beside {input : BuildPlanInput} (ht : input.RandomToken) {d : ReplicationDecision}
    {c : JsString} (hd : d ∈ (buildReplicationPlan input).decisions) (hc : d.conflictPath = some c) :
    parentOf c = parentOf d.path := conflictPath_sibling ht.segment hd hc

theorem not_below_of_beside {p c : JsString} (hp : p ≠ []) (h : parentOf c = parentOf p) :
    ¬ Below slash p c := by
  intro hb
  have hlt : (parentOf p).length < p.length := parentSegments_length_lt hp
  rcases hb.parent hp with he | hup
  · have he' : p = parentOf p := he.trans h
    rw [← he'] at hlt
    exact absurd hlt (lt_irrefl _)
  · have hup' : Below slash p (parentOf p) := h ▸ hup
    have := hup'.length_lt
    omega

/-- The views of a slice that listed the collections `V` of both trees without a fault. -/
structure CompleteView (input : BuildPlanInput) (w : World) (V : List JsString) : Prop where
  trusted : input.trustAbsences = true
  index : ∀ s p, Store.get (input.index s) p =
    if p ≠ [] ∧ parentOf p ∈ V then (w.tree s).describe p else none
  base : ∀ p, (Store.get input.baseIndex p).isSome ↔ p ≠ [] ∧ parentOf p ∈ V ∧ (Store.get w.rows p).isSome
  valid : ∀ s p, (Store.get (input.index s) p).isSome → isValidInnerPath p = true
  closed : ∀ q ∈ V, q ≠ [] → parentOf q ∈ V

namespace CompleteView

variable {input : BuildPlanInput} {w : World} {V : List JsString} {s : Side} {p q : JsString}

theorem describe_isSome {t : Tree} : (t.describe p).isSome ↔ t.content p ≠ none := by
  simp only [Tree.describe, Option.isSome_map, Tree.content, ne_eq, Option.map_eq_none_iff,
    Option.isSome_iff_ne_none]

theorem index_isSome (hv : CompleteView input w V) :
    (Store.get (input.index s) p).isSome ↔ p ≠ [] ∧ parentOf p ∈ V ∧ (w.tree s).content p ≠ none := by
  rw [hv.index s p]
  by_cases hp : p ≠ [] ∧ parentOf p ∈ V
  · rw [if_pos hp, describe_isSome]
    exact ⟨fun h => ⟨hp.1, hp.2, h⟩, fun h => h.2.2⟩
  · rw [if_neg hp]
    exact ⟨fun h => by simp at h, fun h => absurd ⟨h.1, h.2.1⟩ hp⟩

theorem above_mem (hv : CompleteView input w V) (hp : parentOf p ∈ V) (hb : Below slash q p) (hq : q ≠ []) :
    parentOf q ∈ V := by
  induction hn : p.length using Nat.strong_induction_on generalizing p with
  | _ n ih =>
    rcases hb.parent hq with he | hup
    · have hpar : parentOf p = q := he.symm
      rw [hpar] at hp
      exact hv.closed q hp hq
    · have hne : parentOf p ≠ [] := hup.ne_nil
      have hlt : (parentOf p).length < p.length := parentSegments_length_lt hb.ne_nil
      exact ih _ (hn ▸ hlt) (hv.closed _ hp hne) hup rfl

/-- A complete view of well-formed trees lists the ancestors of what it lists. -/
theorem listsAncestors (hv : CompleteView input w V) (hw : w.WellFormed) : input.ListsAncestors := by
  intro p q hq hb
  have up (s : Side) : (Store.get (input.index s) p).isSome → (Store.get (input.index s) q).isSome := by
    intro h
    obtain ⟨hp, hmem, hheld⟩ := hv.index_isSome.mp h
    have hc := (hw s).above hheld hb hq
    apply hv.index_isSome.mpr
    exact ⟨hq, hv.above_mem hmem hb hq, by simp [hc]⟩
  exact ⟨up .localSide, up .remoteSide⟩

end CompleteView

/-! ### The view itself -/

theorem Tree.mem_childEntries {t : Tree} {c : JsString} {e : PlanSide} :
    e ∈ t.childEntries c ↔ e.path ≠ [] ∧ parentOf e.path = c ∧ t.describe e.path = some e := by
  simp only [Tree.childEntries, Tree.childPaths, List.mem_filterMap, List.mem_filter, Store.mem_keys,
    decide_eq_true_eq]
  constructor
  · rintro ⟨k, ⟨_, hk, hpar⟩, hd⟩
    have hpath : e.path = k := by
      obtain ⟨r, _, rfl⟩ := Option.map_eq_some_iff.mp hd
      rfl
    rw [hpath]
    exact ⟨hk, hpar, hd⟩
  · rintro ⟨hk, hpar, hd⟩
    refine ⟨e.path, ⟨?_, hk, hpar⟩, hd⟩
    obtain ⟨r, hr, _⟩ := Option.map_eq_some_iff.mp hd
    simp [hr]

theorem indexByPath_childEntries {t : Tree} {V : List JsString} {p : JsString} :
    Store.get (indexByPath PlanSide.path (V.flatMap t.childEntries)) p =
      if p ≠ [] ∧ parentOf p ∈ V then t.describe p else none := by
  cases hget : Store.get (indexByPath PlanSide.path (V.flatMap t.childEntries)) p with
  | some e =>
    obtain ⟨hm, hp, hne⟩ := indexByPath_get hget
    obtain ⟨c, hc, he⟩ := List.mem_flatMap.mp hm
    obtain ⟨_, hpar, hd⟩ := Tree.mem_childEntries.mp he
    rw [hp] at hpar hd
    rw [if_pos ⟨hne, hpar ▸ hc⟩, hd]
  | none =>
    split
    · rename_i hp
      cases hd : t.describe p with
      | none => rfl
      | some e =>
        have hpath : e.path = p := by
          obtain ⟨r, _, rfl⟩ := Option.map_eq_some_iff.mp hd
          rfl
        have hm : e ∈ V.flatMap t.childEntries := by
          apply List.mem_flatMap.mpr
          refine ⟨parentOf p, hp.2, Tree.mem_childEntries.mpr ?_⟩
          rw [hpath]
          exact ⟨hp.1, rfl, hd⟩
        have hsome := indexByPath_isSome.mpr ⟨hp.1, e, hm, hpath⟩
        rw [hget] at hsome
        simp at hsome
    · rfl

namespace World

/-- The planner's input from the collections `V`, each listed completely on both sides. -/
def view (w : World) (V : List JsString) (mode : ReplicationMode) : BuildPlanInput where
  mode := mode
  localSides := V.flatMap w.localTree.childEntries
  remoteSides := V.flatMap w.remoteTree.childEntries
  base := ((w.rows.map Prod.snd).filter (fun row => row.path ≠ [] ∧ parentOf row.path ∈ V)).map
    ReplicaStateRow.toPlanBase
  trustAbsences := true

theorem completeView_view {w : World} {V : List JsString} (mode : ReplicationMode)
    (hrows : ∀ e ∈ w.rows, e.2.path = e.1) (hclosed : ∀ q ∈ V, q ≠ [] → parentOf q ∈ V)
    (hvalid : ∀ s p, (w.tree s).content p ≠ none → isValidInnerPath p = true) :
    CompleteView (w.view V mode) w V := by
  have hindex : ∀ s p, Store.get ((w.view V mode).index s) p =
      if p ≠ [] ∧ parentOf p ∈ V then (w.tree s).describe p else none := by
    intro s p
    cases s <;> exact indexByPath_childEntries
  refine ⟨rfl, hindex, ?_, ?_, hclosed⟩
  · intro p
    unfold BuildPlanInput.baseIndex
    rw [indexByPath_isSome, ← Store.mem_keys]
    simp only [view, List.mem_map, List.mem_filter, decide_eq_true_eq, Store.keys, List.mem_dedup]
    constructor
    · rintro ⟨hp, b, ⟨row, ⟨⟨e, he, rfl⟩, hne, hpar⟩, rfl⟩, rfl⟩
      exact ⟨hp, hpar, e, he, (hrows e he).symm⟩
    · rintro ⟨hp, hpar, e, he, rfl⟩
      have hpath := hrows e he
      exact ⟨hp, _, ⟨e.2, ⟨⟨e, he, rfl⟩, by rw [hpath]; exact hp, by rw [hpath]; exact hpar⟩, rfl⟩, hpath⟩
  · intro s p hsome
    apply hvalid s p
    rw [hindex s p] at hsome
    split at hsome
    · exact CompleteView.describe_isSome.mp hsome
    · simp at hsome

end World

end DurableDav.Replication
