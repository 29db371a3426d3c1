import DurableDav.Replication.Presence
import DurableDav.Replication.RecursiveDeletion
import DurableDav.Replication.Tick

namespace DurableDav.Replication

open Library

/-! ### What a plan is made from -/

def World.Keyed (w : World) : Prop := ∀ e ∈ w.rows, e.2.path = e.1

/-- The plan's evidence about the paths in the visited collections, none of which failed to answer. -/
structure PlannedFrom (w : World) (visited : List JsString) (input : BuildPlanInput) : Prop where
  listed : ∀ s q e, Store.get (input.index s) q = some e →
    (w.tree s).describe q = some e ∧ isValidInnerPath q = true ∧ parentOf q ∈ visited
  shown : ∀ s q, q ≠ [] → parentOf q ∈ visited → isValidInnerPath q = true → (w.tree s).content q ≠ none →
    (Store.get (input.index s) q).isSome
  base : ∀ q, (Store.get input.baseIndex q).isSome ↔ q ≠ [] ∧ parentOf q ∈ visited ∧ (Store.get w.rows q).isSome

section Survey

variable {w : World} {visited : List JsString} {input : BuildPlanInput} {q : JsString} {s : Side}

theorem indexByPath_keyed {index : Store JsString PlanSide} (h : ∀ x ∈ index, x.2.path = x.1) (hq : q ≠ []) :
    Store.get (indexByPath PlanSide.path (index.map Prod.snd)) q = Store.get index q := by
  induction index with
  | nil => rfl
  | cons x xs ih =>
    have hx := h x List.mem_cons_self
    have ih' := ih (fun y hy => h y (List.mem_cons_of_mem _ hy))
    unfold indexByPath at ih' ⊢
    rw [List.map_cons, List.filter_cons, Store.get_cons]
    by_cases hnil : x.2.path = []
    · rw [if_neg (by simpa using hnil), ih', if_neg (by rw [← hx, hnil]; exact Ne.symm hq)]
    · rw [if_pos (by simpa using hnil), List.map_cons, Store.get_cons, ih', ← hx]

theorem baseIndex_recorded (hkeyed : w.Keyed) (hbase : input.base = w.recorded visited) :
    (Store.get input.baseIndex q).isSome ↔ q ≠ [] ∧ parentOf q ∈ visited ∧ (Store.get w.rows q).isSome := by
  unfold BuildPlanInput.baseIndex
  rw [hbase, indexByPath_isSome, ← Store.mem_keys]
  simp only [World.recorded, List.mem_map, List.mem_filter, decide_eq_true_eq, Store.keys, List.mem_dedup]
  constructor
  · rintro ⟨hq, b, ⟨row, ⟨⟨e, he, rfl⟩, _, hpar⟩, rfl⟩, rfl⟩
    exact ⟨hq, hpar, e, he, (hkeyed e he).symm⟩
  · rintro ⟨hq, hpar, e, he, rfl⟩
    have hpath := hkeyed e he
    exact ⟨hq, _, ⟨e.2, ⟨⟨e, he, rfl⟩, by rw [hpath]; exact hq, by rw [hpath]; exact hpar⟩, rfl⟩, hpath⟩

theorem plannedFrom_of_gathered {es : List Event} {walk : Walk} (hg : walk.Gathered w es) (hkeyed : w.Keyed)
    (hsound : ∀ s p, ¬ Missed s p es) (hindex : ∀ s, input.index s = indexByPath PlanSide.path ((walk.index s).map Prod.snd))
    (hbase : input.base = w.recorded walk.visited) : PlannedFrom w walk.visited input := by
  refine ⟨fun s q e he => ?_, fun s q hq hpar hv hheld => ?_, fun q => baseIndex_recorded hkeyed hbase⟩
  · have hq : q ≠ [] := by
      rw [hindex] at he
      exact (indexByPath_get he).2.2
    rw [hindex, indexByPath_keyed (hg.keyed s) hq] at he
    exact hg.entry s q e he
  · rw [hindex, indexByPath_keyed (hg.keyed s) hq]
    exact hg.whole s q hq hpar hv (hsound s _) hheld

theorem PlannedFrom.held (h : PlannedFrom w visited input) (hq : (Store.get (input.index s) q).isSome) :
    (w.tree s).content q ≠ none ∧ isValidInnerPath q = true ∧ parentOf q ∈ visited := by
  obtain ⟨e, he⟩ := Option.isSome_iff_exists.mp hq
  obtain ⟨hd, hv, hpar⟩ := h.listed s q e he
  exact ⟨held_of_describe hd, hv, hpar⟩

theorem PlannedFrom.parent (h : PlannedFrom w visited input) (hq : q ∈ input.paths) : parentOf q ∈ visited := by
  rcases mem_paths.mp hq with hl | hr | hb
  · exact (h.held (s := .localSide) hl).2.2
  · exact (h.held (s := .remoteSide) hr).2.2
  · exact ((h.base q).mp hb).2.1

end Survey

/-! ### What a smooth tick does -/

theorem names_parentOf (p : JsString) : names (parentOf p) <+: names p := by
  by_cases h : parentOf p = []
  · rw [h]
    exact List.nil_prefix
  · exact names_prefix_iff.mpr (.inr (Tree.parentOf_below h))

theorem names_parentOf_below {a x : JsString} (h : Below slash a x) (ha : a ≠ []) : names (parentOf a) <+: names (parentOf x) :=
  (names_parentOf a).trans (names_prefix_iff.mpr (h.parent ha))

theorem settle_touched {st : ApplyState} {d : ReplicationDecision} {outcome : Except JsString ℕ} {q : JsString}
    (h : q ∈ st.touched ∨ q = d.path) : q ∈ (st.settle d outcome).touched := by
  have htouch : q ∈ (st.touch d.path).touched := by
    unfold ApplyState.touch
    dsimp only
    split
    · rename_i hmem
      exact h.elim id (fun he => he ▸ hmem)
    · simpa using h
  cases outcome <;> exact htouch

theorem applyAll_extends {o : ApplyOptions} {ds : List ReplicationDecision} {st : ApplyState} :
    Act.Within World.Extends (o.applyAll ds st) :=
  applyAll_within (fun _ _ m _ contentType data => (mutation_notes o.env m contentType data).mono
    (fun _ _ => World.Notes.extends)) st

theorem applyAll_touches {o : ApplyOptions} {ds : List ReplicationDecision} {st st' : ApplyState} {w w' : World}
    (h : (o.applyAll ds st).run w = (.ok st', w')) : (∀ p ∈ st.touched, p ∈ st'.touched) ∧
      ∀ d, .applies d ∈ World.events w w' → d.path ∈ st'.touched := by
  induction ds generalizing st w with
  | nil =>
    obtain ⟨rfl, rfl⟩ := Act.of_run_pure h
    simp
  | cons d ds ih =>
    rw [ApplyOptions.applyAll_cons] at h
    obtain ⟨now, w₁, hnow, h⟩ := Act.of_run_bind h
    obtain rfl : w.tick = w₁ := congrArg Prod.snd hnow
    have htick : World.events w w.tick = [] := World.events_eq rfl
    split at h
    · obtain ⟨rfl, rfl⟩ := Act.of_run_pure h
      simp [htick]
    · obtain ⟨outcome, w₂, happly, h⟩ := Act.of_run_bind h
      obtain ⟨hkept, hrest⟩ := ih h
      obtain ⟨hext, _, honly, _⟩ := applyDecision_events happly
      refine ⟨fun p hp => hkept p (settle_touched (.inl hp)), fun e he => ?_⟩
      rw [World.events_trans (show w.Extends w₂ from hext) (applyAll_extends.of_run h), List.mem_append] at he
      rcases he with he | he
      · exact hrest e he
      · rw [honly e he]
        exact hkept _ (settle_touched (.inr rfl))

namespace Runner

/-- What a tick plans is carried out, and nothing goes wrong. -/
structure Smooth (r : Runner) (w : World) : Prop where
  ok : ∃ result w', r.runSlice.run w = (.ok result, w') ∧ result.status = .ok
  faultless : w.Faultless (r.tick w)
  whole : ∀ slice w₁, r.Prepares w slice w₁ → ∀ d ∈ r.decisions slice (r.startedAt w),
    .applies d ∈ World.events w₁ (r.tick w)

/-- The tick is the last of its sweep. -/
def Ends (r : Runner) (w : World) : Prop := ∃ result, (r.runSlice.run w).1 = .ok result ∧ result.remaining = 0

/-- A smooth tick: the collections it has visited, its plan, and the world when the plan has been carried out. -/
structure Round (r : Runner) (w : World) (visited : List JsString) (input : BuildPlanInput) (w₂ : World) : Prop where
  mode : input.mode = knownMode r.storedMode
  mirror : input.mirrorDeletions = decide (r.mirrorDeletions = some 1)
  trusted : input.trustAbsences = true
  planned : PlannedFrom w visited input
  reach : ∀ q, w.IsCollection q → q ∈ visited ∨
    (¬ r.Ends w ∧ ∀ k ∈ (r.tick w).pass.cursorPath, names k ≤ names q) ∨
    ∃ k ∈ r.resumeFrom w, names q < names k ∧ ¬ names q <+: names k ∧
      ∀ v ∈ visited, names v <+: names k ∨ names k ≤ names v
  rows : w₂.rows = w.rows
  form : (r.tick w).WellFormed
  loses : World.Loses (fun s q => ∃ d ∈ (buildReplicationPlan input).decisions, d.Takes s q) w w₂
  contents : ∀ p, (r.tick w).contents p = w₂.contents p
  recorded : ∀ p, (Store.get (r.tick w).rows p).isSome → (Store.get w₂.rows p).isSome ∨
    ∀ s, w₂.contents p s ≠ none
  forgets : ∀ d ∈ (buildReplicationPlan input).decisions, isValidInnerPath (parentOf d.path) = true →
    (∀ s, w₂.contents d.path s = none) → Store.get (r.tick w).rows d.path = none
  keyed : w.Keyed → (r.tick w).Keyed
  closed : r.Ends w → (r.tick w).pass.passStartedAt = none

end Runner

theorem World.Keeps.isCollection {w w' : World} (h : w.Keeps w') (q : JsString) : w'.IsCollection q ↔ w.IsCollection q := by
  simp only [World.IsCollection, h.tree]

theorem chain_mem {segs t : List JsString} (hsegs : ∀ s ∈ segs, s ≠ [] ∧ slash ∉ s) {p q : JsString}
    (hq : names q = names p ++ t) (ht : t <+: segs) (hne : t ≠ segs) : q ∈ (p :: chainFrom p segs).dropLast := by
  induction segs generalizing p t with
  | nil => exact absurd (List.prefix_nil.mp ht) hne
  | cons a segs ih =>
    have ha := hsegs a List.mem_cons_self
    have hchain : (p :: chainFrom p (a :: segs)).dropLast =
        p :: (childPath p a :: chainFrom (childPath p a) segs).dropLast := rfl
    rw [hchain]
    cases t with
    | nil =>
      obtain rfl : q = p := names_injective (by simpa using hq)
      exact List.mem_cons_self
    | cons b t =>
      obtain rfl : b = a := (List.cons_prefix_cons.mp ht).1
      have hrest : t <+: segs := (List.prefix_cons_inj _).mp ht
      refine List.mem_cons_of_mem _ (ih (fun s hs => hsegs s (List.mem_cons_of_mem _ hs)) ?_ hrest ?_)
      · rw [hq, names_childPath ha.1 ha.2, List.append_assoc, List.singleton_append]
      · exact fun he => hne (by rw [he])

/-- What lies strictly above a path is in its chain. -/
theorem ancestors_mem {k q : JsString} (hv : isValidInnerPath k = true) (h : names q <+: names k) (hne : q ≠ k) :
    q ∈ (sweepAncestorChain k).dropLast := by
  rw [sweepAncestorChain_eq]
  exact chain_mem (usable_segments hv) (by simp) h (fun he => hne (names_injective he))

section Round

variable {r : Runner} {w : World}

/-- A collection lies in the part that a slice has read, or after it, or before its start. -/
theorem passage_reach {env : Env} {budget deadlineMs : ℕ} {start current : Option JsString} {walk : Walk} {c q : JsString}
    {resumed : Bool} {vs : List JsString} {w' : World}
    (h : Passage env budget deadlineMs start w walk current c resumed vs w') (hstart : ∀ k ∈ start, isValidInnerPath k = true)
    (hq : w.IsCollection q) : q ∈ walk.visited ∨ (∃ d, current = some d ∧ ∀ k ∈ walk.cursor, names k ≤ names q) ∨
      ∃ k ∈ start, names q < names k ∧ ¬ names q <+: names k ∧
        ∀ v ∈ walk.visited, names v <+: names k ∨ names k ≤ names v := by
  have hahead : ∀ v ∈ vs, names c ≤ names v := by
    intro v hv
    have hm : v ∈ w.ahead (some c) := by
      rw [h.order]
      exact List.mem_append_left _ hv
    rw [ahead_some, List.mem_filter] at hm
    simpa using hm.2
  by_cases hlt : names q < names c
  · cases h.begins with
    | atRoot _ => exact absurd (hlt.trans_le (le_of_above List.nil_prefix)) (lt_irrefl _)
    | atCursor hk _ =>
      by_cases habove : names q <+: names c
      · exact .inl ((h.visited q).mpr (.inr ⟨rfl, ancestors_mem (hstart c hk) habove (fun he => hlt.ne (he ▸ rfl))⟩))
      right
      right
      refine ⟨c, hk, hlt, habove, fun v hv => ?_⟩
      rcases (h.visited v).mp hv with hv | ⟨_, hv⟩
      · exact .inr (hahead v hv)
      · exact .inl (mem_ancestors (hstart c hk) hv).1
  · have hm : q ∈ w.ahead (some c) := by
      rw [ahead_some, List.mem_filter]
      exact ⟨mem_preorder.mpr hq, by simpa using hlt⟩
    rw [h.order, List.mem_append] at hm
    rcases hm with hm | hm
    · exact .inl ((h.visited q).mpr (.inl hm))
    · right
      left
      cases current with
      | none => simp [World.ahead] at hm
      | some d =>
        rw [ahead_some, List.mem_filter] at hm
        exact ⟨d, rfl, fun k hk => (h.course.cursor k hk d rfl).trans (by simpa using hm.2)⟩

def World.KeepsKeys (w w' : World) : Prop := w.Keyed → w'.Keyed

instance : Silent World.KeepsKeys where
  refl _ := id
  trans _ _ _ h h' := fun hw => h' (h hw)
  tick _ := id
  note _ _ _ := id

theorem foldl_put_keyed (records : List ReplicaStateRow) {rows : Store JsString ReplicaStateRow}
    (h : ∀ e ∈ rows, e.2.path = e.1) : ∀ e ∈ records.foldl (fun s row => Store.put s row.path row) rows, e.2.path = e.1 := by
  induction records generalizing rows with
  | nil => exact h
  | cons row records ih =>
    apply ih
    intro e he
    rcases List.mem_cons.mp he with rfl | he
    · rfl
    · exact h e (List.mem_of_mem_filter he)

theorem recordBase_keyed (env : Env) (touched : List JsString) : Act.Within World.KeepsKeys (env.recordBase touched) :=
  recordBase_within (fun records _ => within_call intact_within (fun _ _ _ hw e he =>
    foldl_put_keyed records hw e (List.mem_of_mem_filter he)))

theorem faultless_sound {es : List Event} {w w' : World} (h : w.Faultless w') (hes : w'.log = es ++ w.log) (s : Side)
    (p : JsString) : ¬ Missed s p es := by
  unfold World.Faultless at h
  rw [World.events_eq hes] at h
  rintro (hm | hm)
  · exact absurd (h _ hm) (by simp [Event.isFault])
  · exact absurd (h _ hm) (by simp [Event.isFault])

theorem smooth_round (hs : r.Smooth w) (hform : w.WellFormed) (hkeyed : w.Keyed)
    (hcursor : ∀ k ∈ r.resumeFrom w, w.IsCollection k) : ∃ visited input w₂, r.Round w visited input w₂ := by
  obtain ⟨result, w', hrun, hok⟩ := hs.ok
  have hw' : r.tick w = w' := congrArg Prod.snd hrun
  have hclean := hs.faultless
  have hwhole := hs.whole
  rw [hw'] at hclean hwhole
  obtain ⟨slice, w₁, hprep, st, w₂, w₃, hsync⟩ := tick_stages hrun hok
  obtain ⟨w₀, hkeeps, _, hcollect⟩ := prepares_stages hprep
  have hvalid : ∀ k ∈ r.resumeFrom w, isValidInnerPath k = true := fun k hk => (hcursor k hk).1
  obtain ⟨walk, current, es, hreads, hslice, hgathered, hpass⟩ := collectSlice_finds hvalid hcollect
  obtain ⟨herrors, hslice_errors, hcomplete⟩ := hsync.status.mp hok
  have hwrites : w₂.Extends w₃ := (recordBase_notes r.env st.touched).of_run hsync.recorded |>.extends
  have hread : w₀.Extends w₁ := ⟨es, hreads.log⟩
  have hlater : w₁.Extends w' := trans_of World.Extends hsync.applied.extends_log (trans_of World.Extends hwrites hsync.keeps.log)
  obtain ⟨_, hclean₀⟩ := hclean.split hkeeps.log (trans_of World.Extends hread hlater)
  obtain ⟨hcleanread, hclean₁⟩ := hclean₀.split hread hlater
  obtain ⟨_, hclean₂⟩ := hclean₁.split hsync.applied.extends_log (trans_of World.Extends hwrites hsync.keeps.log)
  obtain ⟨hcleanbase, _⟩ := hclean₂.split hwrites hsync.keeps.log
  have hsound := faultless_sound hcleanread hreads.log
  have hform₀ : w₀.WellFormed := fun s => (hkeeps.tree s).symm ▸ hform s
  have hkeyed₀ : w₀.Keyed := by
    unfold World.Keyed
    rw [hkeeps.rows]
    exact hkeyed
  have htree₁ (s : Side) : w₁.tree s = w.tree s := (hreads.tree s).trans (hkeeps.tree s)
  have hrows₁ : w₁.rows = w.rows := by
    rw [hreads.same]
    exact hkeeps.rows
  have hrun₂ := hsync.applied.run
  have hplanned : PlannedFrom w walk.visited (r.planInput slice (r.startedAt w)) := by
    have h : PlannedFrom w₀ walk.visited (r.planInput slice (r.startedAt w)) :=
      plannedFrom_of_gathered hgathered hkeyed₀ hsound (fun s => by cases s <;> (rw [hslice]; rfl)) (by rw [hslice]; rfl)
    exact ⟨fun s => hkeeps.tree s ▸ h.listed s, fun s => hkeeps.tree s ▸ h.shown s, hkeeps.rows ▸ h.base⟩
  obtain ⟨c, resumed, vs, hpassage⟩ := hpass hform₀ (fun k hk => (hkeeps.isCollection k).mpr (hcursor k hk))
    (fun p _ q hq _ _ => hq.2.imp (fun s hs => ⟨hs, hsound s p⟩))
  have hcontents : ∀ p, (r.tick w).contents p = w₂.contents p := by
    intro p
    rw [hw', hsync.keeps.contents]
    have hsame := recordBase_contents r.env st.touched w₂ p
    rw [hsync.recorded] at hsame
    exact hsame
  refine ⟨walk.visited, r.planInput slice (r.startedAt w), w₂, rfl, rfl, hcomplete, hplanned, fun q hq => ?_, ?_, ?_, ?_,
    hcontents, fun p hp => ?_, fun d hd hv hgone => ?_, fun hk => ?_, ?_⟩
  · rcases passage_reach hpassage hvalid ((hkeeps.isCollection q).mpr hq) with h | ⟨d, rfl, hle⟩ | h
    · exact .inl h
    · refine .inr (.inl ⟨?_, fun k hk => hle k ?_⟩)
      · rintro ⟨result', hres, hzero⟩
        rw [hrun] at hres
        obtain rfl : result = result' := Except.ok.inj hres
        rw [hsync.remaining, hslice] at hzero
        simp only [Walk.toSlice, Option.isSome_some, true_and] at hzero
        split at hzero <;> omega
      · rw [hw', hsync.cursor, hslice] at hk
        exact hk
    · exact .inr (.inr h)
  · exact ((applyAll_keepsRows _ _).of_run hrun₂).trans hrows₁
  · have hform₂ : w₂.WellFormed := by
      have h : (((r.options slice (r.startedAt w)).applyAll (r.decisions slice (r.startedAt w)) .start).run w₁).2.WellFormed :=
        applyAll_wellFormed fun s => (htree₁ s).symm ▸ hform s
      rwa [hrun₂] at h
    exact fun s => (hform₂ s).congr (fun p => congrFun (hcontents p) s)
  · have h : World.Loses (fun s q => ∃ d ∈ r.decisions slice (r.startedAt w), d.Takes s q) w₁ w₂ :=
      (applyAll_within (fun d hd m hm contentType data => (mutation_loses _ m contentType data).mono
        (fun _ _ h s q hq => (h s q hq).imp_right (fun ht => ⟨d, hd, m, hm, ht⟩))) .start).of_run hrun₂
    exact fun s q hq => h s q (by rwa [htree₁])
  · rw [hw', hsync.keeps.rows] at hp
    have h := @recordBase_recorded r.env st.touched w₂ p
    rw [hsync.recorded] at h
    rcases h with h | ⟨_, hl, hr⟩ | ⟨_, hnone, _⟩
    · exact .inl (h ▸ hp)
    · exact .inr (fun s => by cases s <;> assumption)
    · rw [hnone] at hp
      simp at hp
  · rw [hw', hsync.keeps.rows]
    refine recordBase_forgets ?_ hsync.recorded hv hgone hcleanbase
    have happlied := hwhole slice w₁ hprep d hd
    rw [World.events_trans hsync.applied.extends_log (trans_of World.Extends hwrites hsync.keeps.log), List.mem_append]
      at happlied
    have hafter : World.Notes w₂ w' := trans_of World.Notes ((recordBase_notes _ _).of_run hsync.recorded) hsync.notes
    rcases happlied with happlied | happlied
    · exact absurd (hafter.events happlied) (by simp [Event.isCall, Event.isRemoval])
    · exact (applyAll_touches hrun₂).2 d happlied
  · rw [hw']
    have h := (recordBase_keyed r.env st.touched).of_run hsync.recorded
    unfold World.KeepsKeys World.Keyed at h
    unfold World.Keyed
    rw [hsync.keeps.rows]
    refine h ?_
    rw [(applyAll_keepsRows _ _).of_run hrun₂, hrows₁]
    exact hk
  · rintro ⟨result', hres, hzero⟩
    rw [hrun] at hres
    obtain rfl : result = result' := Except.ok.inj hres
    rw [hw']
    exact hsync.closed (hsync.remaining ▸ hzero)

end Round

/-! ### Where a row outlives its path -/

namespace Runner

variable (r : Runner)

/-- A side's resource is up for deletion. -/
def Dooms (w : World) (s : Side) (p : JsString) : Prop :=
  (w.tree s).content p ≠ none ∧ (w.tree s.other).content p = none ∧ match s with
    | .localSide => (Store.get w.rows p).isSome ∧ knownMode r.storedMode ≠ .copyOnly ∧
        (knownMode r.storedMode = .pullOnly → r.mirrorDeletions = some 1) ∨
        Store.get w.rows p = none ∧ knownMode r.storedMode = .pullOnly ∧ r.mirrorDeletions = some 1
    | .remoteSide => (Store.get w.rows p).isSome ∧ knownMode r.storedMode ≠ .pullOnly

/-- Before a tick: its cursor is still a collection, every row lies in one, and no row that the sweep has passed
lies below a path which the tick comes by again and finds up for deletion. -/
structure Unhindered (w : World) : Prop where
  cursor : ∀ k ∈ r.resumeFrom w, w.IsCollection k
  housed : ∀ p, p ≠ [] → (Store.get w.rows p).isSome → w.IsCollection (parentOf p)
  spared : ∀ k ∈ r.resumeFrom w, ∀ p, (Store.get w.rows p).isSome → names (parentOf p) < names k →
    ¬ names (parentOf p) <+: names k → ∀ a s, a ≠ [] → Below slash a p → names (parentOf a) <+: names k → ¬ r.Dooms w s a

/-- The rows that the sweep has passed are of paths that are still there. -/
def Fresh (w : World) : Prop := ∀ k ∈ r.resumeFrom w, ∀ p, p ≠ [] → (Store.get w.rows p).isSome →
  names (parentOf p) < names k → ∃ s, (w.tree s).content p ≠ none

end Runner

section Rows

variable {r : Runner} {w w₂ : World} {visited : List JsString} {input : BuildPlanInput} {p q : JsString} {s : Side}
  {d : ReplicationDecision}

theorem path_deletion (s : Side) (p : JsString) : (deletion s p).path = p := by cases s <;> rfl

theorem unlink_false_mem_asks (h : Mutation.unlink s p false ∈ d.asks) : s = .localSide ∧ d.path = p := by
  cases d <;> simp_all [ReplicationDecision.asks, ReplicationDecision.path]

/-- A decision takes away its own path, and what lies below it if it is a deletion. -/
theorem takes_of_mem (h : d.Takes s q) : q = d.path ∨ d = deletion s d.path ∧ Below slash d.path q := by
  obtain ⟨m, hm, ht⟩ := h
  cases m with
  | mkdir s' p | write s' p => exact ht.elim
  | unlink s' p recursive =>
    obtain ⟨rfl, hq⟩ := ht
    cases recursive with
    | false =>
      obtain ⟨rfl, rfl⟩ := unlink_false_mem_asks hm
      exact .inl (hq.resolve_right (by simp))
    | true =>
      obtain rfl := unlink_true_mem_asks hm
      rw [path_deletion]
      exact hq.imp_right (fun h => ⟨rfl, h.2⟩)

/-- What a plan deletes is up for deletion. -/
theorem Runner.Round.dooms (h : r.Round w visited input w₂) (hd : deletion s p ∈ (buildReplicationPlan input).decisions) :
    r.Dooms w s p := by
  obtain ⟨hheld, habsent, _, hrest⟩ := deletion_mem_iff.mp hd
  have hp : p ≠ [] := path_deletion s p ▸ path_ne_nil (decisions_grounds hd).1
  obtain ⟨hthere, hv, hpar⟩ := h.planned.held hheld
  have hrow : (Store.get input.baseIndex p).isSome ↔ (Store.get w.rows p).isSome := by
    rw [h.planned.base]
    exact ⟨fun h => h.2.2, fun h => ⟨hp, hpar, h⟩⟩
  have hnone : Store.get input.baseIndex p = none ↔ Store.get w.rows p = none := by
    rw [← Option.not_isSome_iff_eq_none, ← Option.not_isSome_iff_eq_none, hrow]
  refine ⟨hthere, ?_, ?_⟩
  · by_contra hother
    have hshown := h.planned.shown s.other p hp hpar hv hother
    rw [habsent] at hshown
    simp at hshown
  · have hmirror : input.mirrorDeletions = true ↔ r.mirrorDeletions = some 1 := by simp [h.mirror]
    cases s with
    | localSide => simpa only [hrow, hnone, hmirror, h.mode] using hrest
    | remoteSide => simpa only [hrow, h.mode] using hrest

/-- A path with a row is left out of a plan only if it is new or kept on the local side of a one-way mirror. -/
theorem decidePath_undecided {taken : List JsString} {l r : Option PlanSide} {b : PlanBase}
    (ht : input.trustAbsences = true) (h : (decidePath input taken p l r (some b)).decision = none) :
    input.mode = .pullOnly ∧ input.mirrorDeletions = false ∧ l.isSome := by
  unfold decidePath decideGone decideOneSided decideBoth preserveBoth preserveLocal applyWinner Verdict.emit
    Verdict.emitWith Verdict.skip Verdict.defer at h
  split at h <;> grind

theorem Runner.Round.undecided (h : r.Round w visited input w₂) (hp : p ≠ []) (hvis : parentOf p ∈ visited)
    (hrow : (Store.get w.rows p).isSome) (hnone : ∀ d ∈ (buildReplicationPlan input).decisions, d.path ≠ p) :
    input.mode = .pullOnly ∧ input.mirrorDeletions = false ∧ (w.tree .localSide).content p ≠ none := by
  have hb := (h.planned.base p).mpr ⟨hp, hvis, hrow⟩
  obtain ⟨b, hb'⟩ := Option.isSome_iff_exists.mp hb
  obtain ⟨taken, _, hm⟩ := verdict_mem (mem_paths.mpr (.inr (.inr hb)))
  have hskip : (decideAt input taken p).decision = none := by
    rw [Option.eq_none_iff_forall_ne_some]
    rintro ⟨d, k⟩ hd
    have hg := decidePath_grounds hd
    exact hnone d (mem_decisions.mpr ⟨_, hm, k, hd⟩) hg.path
  unfold decideAt at hskip
  rw [hb'] at hskip
  obtain ⟨hmode, hmirror, hl⟩ := decidePath_undecided h.trusted hskip
  exact ⟨hmode, hmirror, (h.planned.held (s := .localSide) hl).1⟩

/-- After a smooth tick a row is of a path that is there, or the sweep has yet to come to it. -/
theorem Runner.Round.row_held (h : r.Round w visited input w₂) (hc : r.Unhindered w) (hfresh : r.Fresh w) (hp : p ≠ [])
    (hrow : (Store.get (r.tick w).rows p).isSome) : (∃ s, ((r.tick w).tree s).content p ≠ none) ∨
      ¬ r.Ends w ∧ ∀ k ∈ (r.tick w).pass.cursorPath, names k ≤ names (parentOf p) := by
  have hto (s : Side) : ((r.tick w).tree s).content p = (w₂.tree s).content p := congrFun (h.contents p) s
  simp only [hto]
  rcases h.recorded p hrow with hold | hboth
  · rw [h.rows] at hold
    have hhoused := hc.housed p hp hold
    by_cases hvis : parentOf p ∈ visited
    · left
      by_cases hd : ∃ d ∈ (buildReplicationPlan input).decisions, d.path = p
      · obtain ⟨d, hd, rfl⟩ := hd
        by_contra habsent
        rw [h.forgets d hd hhoused.1 (fun s => by_contra (fun hs => habsent ⟨s, hs⟩))] at hrow
        simp at hrow
      · have hnone : ∀ d ∈ (buildReplicationPlan input).decisions, d.path ≠ p := fun d hd' he => hd ⟨d, hd', he⟩
        obtain ⟨hmode, hmirror, hheld⟩ := h.undecided hp hvis hold hnone
        refine ⟨.localSide, (h.loses .localSide p hheld).resolve_right ?_⟩
        rintro ⟨d, hd, ht⟩
        rcases takes_of_mem ht with he | ⟨hdel, _⟩
        · exact hnone d hd he.symm
        · obtain ⟨_, _, _, hlocal⟩ := deletion_mem_iff.mp (hdel ▸ hd)
          simp [hmode, hmirror] at hlocal
    · rcases h.reach _ hhoused with hin | hlater | ⟨k, hk, hlt, habove, hbehind⟩
      · exact absurd hin hvis
      · exact .inr hlater
      · left
        obtain ⟨s, hs⟩ := hfresh k hk p hp hold hlt
        refine ⟨s, (h.loses s p hs).resolve_right ?_⟩
        rintro ⟨d, hd, ht⟩
        have hpar := h.planned.parent (decisions_grounds hd).1
        rcases takes_of_mem ht with rfl | ⟨hdel, hbelow⟩
        · exact hvis hpar
        · have hne : d.path ≠ [] := path_ne_nil (decisions_grounds hd).1
          rcases hbehind _ hpar with hup | hle
          · exact hc.spared k hk p hold hlt habove d.path s hne hbelow hup (h.dooms (hdel ▸ hd))
          · exact absurd (hlt.trans_le (hle.trans (le_of_above (names_parentOf_below hbelow hne)))) (lt_irrefl _)
  · exact .inl ⟨.localSide, hboth .localSide⟩

theorem Runner.Round.fresh (h : r.Round w visited input w₂) (hc : r.Unhindered w) (hfresh : r.Fresh w) :
    r.Fresh (r.tick w) := by
  intro k hk p hp hrow hlt
  have hcursor : k ∈ (r.tick w).pass.cursorPath := by
    unfold Runner.resumeFrom at hk
    split at hk
    · exact hk
    · simp at hk
  rcases h.row_held hc hfresh hp hrow with hheld | ⟨_, hle⟩
  · exact hheld
  · exact absurd (hlt.trans_le (hle k hcursor)) (lt_irrefl _)

end Rows

/-! ### Histories of users and sweeps -/

/-- A row whose path is gone from both sides. -/
def World.Stale (w : World) (p : JsString) : Prop :=
  p ≠ [] ∧ (Store.get w.rows p).isSome ∧ ∀ s, (w.tree s).content p = none

/-- The users have been at the trees, in whatever way. -/
structure World.Edited (w w' : World) : Prop where
  rows : w'.rows = w.rows
  pass : w'.pass = w.pass
  form : w'.WellFormed

/-- Ticks of one sweep, each of them smooth and started where `C` holds. -/
inductive Runner.Goes (C : World → Prop) (r : Runner) (w : World) : World → Prop
  | here : Goes C r w w
  | on {u : World} (h : Goes C r w u) (hs : r.Smooth u) (hc : C u) : Goes C r w (r.tick u)

/-- A complete sweep. -/
def Runner.Completes (C : World → Prop) (r : Runner) (w w' : World) : Prop :=
  ∃ u, r.Goes C w u ∧ r.Smooth u ∧ C u ∧ r.Ends u ∧ w' = r.tick u

/-- A new replication, and then changes of the users and complete sweeps in any order. -/
inductive History (C : Runner → World → Prop) : World → Prop
  | start {w : World} (hrows : w.rows = []) (hpass : w.pass.passStartedAt = none) (hform : w.WellFormed) : History C w
  | edit {w w' : World} (h : History C w) (hw : w.Edited w') : History C w'
  | sweep {w w' : World} (h : History C w) (r : Runner) (hr : r.Completes (C r) w w') : History C w'

/-- After a complete sweep no row is stale, and until both sides have held it again a path that was gone then is
deleted by a one-way mirror only. -/
def Runner.ForgetsTheGone (C : Runner → World → Prop) (r : Runner) (w w' : World) : Prop :=
  History C w → r.Completes (C r) w w' → (∀ p, ¬ w'.Stale p) ∧
    ∀ p, (∀ s, (w'.tree s).content p = none) → ∀ (r' : Runner) (w₁ u : World), w'.Edited w₁ →
      r'.Goes (fun v => C r' v ∧ ¬ ∀ s, ((r'.tick v).tree s).content p ≠ none) w₁ u → C r' u →
      ∀ slice u₁ s, r'.Prepares u slice u₁ → deletion s p ∈ r'.decisions slice (r'.startedAt u) →
        s = .localSide ∧ knownMode r'.storedMode = .pullOnly ∧ r'.mirrorDeletions = some 1

def ForgetsTheGone (C : Runner → World → Prop) : Prop := ∀ (r : Runner) (w w' : World), r.ForgetsTheGone C w w'

/-- What holds of a world between the ticks of a history. -/
structure World.Sound (w : World) : Prop where
  form : w.WellFormed
  keyed : w.Keyed

section Histories

variable {r : Runner} {w w' u : World} {C : World → Prop} {p : JsString} {s : Side}

theorem fresh_of_closed (h : w.pass.passStartedAt = none) : r.Fresh w := by
  intro k hk
  have hopen : r.isOpen w = false := by
    unfold Runner.isOpen
    rw [h]
    rfl
  simp [Runner.resumeFrom, hopen] at hk

/-- Along a sweep the rows it has passed stay those of paths that are there. -/
theorem Runner.Goes.fresh (h : r.Goes C w u) (hC : ∀ v, C v → r.Unhindered v) (hw : w.Sound) (hf : r.Fresh w) :
    u.Sound ∧ r.Fresh u := by
  induction h with
  | here => exact ⟨hw, hf⟩
  | on _ hs hc ih =>
    obtain ⟨hsound, hfresh⟩ := ih
    obtain ⟨_, _, _, hround⟩ := smooth_round hs hsound.form hsound.keyed (hC _ hc).cursor
    exact ⟨⟨hround.form, hround.keyed hsound.keyed⟩, hround.fresh (hC _ hc) hfresh⟩

/-- At the end of a sweep every row is of a path that is there. -/
theorem Runner.Completes.held (h : r.Completes C w w') (hC : ∀ v, C v → r.Unhindered v) (hw : w.Sound)
    (hclosed : w.pass.passStartedAt = none) : w'.Sound ∧ w'.pass.passStartedAt = none ∧ ∀ p, ¬ w'.Stale p := by
  obtain ⟨u, hgoes, hs, hc, hends, rfl⟩ := h
  obtain ⟨hsound, hfresh⟩ := hgoes.fresh hC hw (fresh_of_closed hclosed)
  obtain ⟨_, _, _, hround⟩ := smooth_round hs hsound.form hsound.keyed (hC u hc).cursor
  refine ⟨⟨hround.form, hround.keyed hsound.keyed⟩, hround.closed hends, ?_⟩
  rintro p ⟨hp, hrow, hgone⟩
  rcases hround.row_held (hC u hc) hfresh hp hrow with ⟨s, hs⟩ | ⟨hopen, _⟩
  · exact hs (hgone s)
  · exact hopen hends

theorem History.sound {C : Runner → World → Prop} (h : History C w) (hC : ∀ r v, C r v → r.Unhindered v) :
    w.Sound ∧ w.pass.passStartedAt = none := by
  induction h with
  | start hrows hpass hform => exact ⟨⟨hform, fun e he => by simp [hrows] at he⟩, hpass⟩
  | edit _ hw ih =>
    refine ⟨⟨hw.form, ?_⟩, hw.pass ▸ ih.2⟩
    unfold World.Keyed
    rw [hw.rows]
    exact ih.1.keyed
  | sweep _ r hr ih =>
    obtain ⟨hsound, hclosed, _⟩ := hr.held (hC r) ih.1 ih.2
    exact ⟨hsound, hclosed⟩

/-- No row comes back for a path that both sides do not hold at once. -/
theorem Runner.Goes.rowless (h : r.Goes (fun v => C v ∧ ¬ ∀ s, ((r.tick v).tree s).content p ≠ none) w u)
    (hC : ∀ v, C v → r.Unhindered v) (hw : w.Sound) (hrow : Store.get w.rows p = none) :
    u.Sound ∧ Store.get u.rows p = none := by
  induction h with
  | here => exact ⟨hw, hrow⟩
  | on _ hs hc ih =>
    obtain ⟨hsound, hnone⟩ := ih
    obtain ⟨_, _, w₂, hround⟩ := smooth_round hs hsound.form hsound.keyed (hC _ hc.1).cursor
    refine ⟨⟨hround.form, hround.keyed hsound.keyed⟩, ?_⟩
    by_contra hsome
    rcases hround.recorded p (Option.isSome_iff_ne_none.mpr hsome) with hold | hboth
    · rw [hround.rows, hnone] at hold
      simp at hold
    · exact hc.2 (fun s hs => hboth s ((congrFun (hround.contents p) s).symm.trans hs))

/-- A path without a row is deleted by a one-way mirror only. -/
theorem deletion_of_rowless {slice : Slice} {w₁ : World} (hw : w.Sound) (hc : r.Unhindered w) (hrow : Store.get w.rows p = none)
    (hprep : r.Prepares w slice w₁) (hd : deletion s p ∈ r.decisions slice (r.startedAt w)) :
    s = .localSide ∧ knownMode r.storedMode = .pullOnly ∧ r.mirrorDeletions = some 1 := by
  obtain ⟨w₀, hkeeps, _, hcollect⟩ := prepares_stages hprep
  obtain ⟨walk, current, es, _, hslice, _⟩ := collectSlice_finds (fun k hk => (hc.cursor k hk).1) hcollect
  have hkeyed : w₀.Keyed := by
    unfold World.Keyed
    rw [hkeeps.rows]
    exact hw.keyed
  have hbase : Store.get (r.planInput slice (r.startedAt w)).baseIndex p = none := by
    rw [← Option.not_isSome_iff_eq_none, baseIndex_recorded hkeyed (by rw [hslice]; rfl), hkeeps.rows, hrow]
    simp
  obtain ⟨_, _, _, hrest⟩ := deletion_mem_iff.mp hd
  cases s with
  | remoteSide =>
    rw [hbase] at hrest
    simp at hrest
  | localSide =>
    rw [hbase] at hrest
    obtain ⟨_, hmode, hmirror⟩ := hrest.resolve_left (by simp)
    exact ⟨rfl, hmode, by simpa [Runner.planInput] using hmirror⟩

end Histories

def Runner.runsSmoothly (r : Runner) (w : World) : Bool :=
  (r.runSlice.run w).1.toOption.map RunResult.status == some .ok &&
    (World.events w (r.tick w)).all (fun e => !e.isFault) &&
    match (r.prepare (r.env.clock w.calls / 1000) (r.startedAt w)).run w.tick.tick with
    | (.ok slice, w₁) =>
      (r.decisions slice (r.startedAt w)).all (fun d => decide (.applies d ∈ World.events w₁ (r.tick w)))
    | (.error _, _) => true

theorem smooth_of_runsSmoothly {r : Runner} {w : World} (h : r.runsSmoothly w = true) : r.Smooth w := by
  unfold Runner.runsSmoothly at h
  rw [Bool.and_eq_true, Bool.and_eq_true, beq_iff_eq, List.all_eq_true] at h
  obtain ⟨⟨hok, hclean⟩, hwhole⟩ := h
  refine ⟨?_, fun e he => by simpa using hclean e he, fun slice w₁ hprep d hd => ?_⟩
  · cases hrun : r.runSlice.run w with
    | mk x w' =>
      rw [hrun] at hok
      cases x with
      | error m => simp [Except.toOption] at hok
      | ok result => exact ⟨result, w', rfl, by simpa [Except.toOption] using hok⟩
  · unfold Runner.Prepares at hprep
    rw [hprep] at hwhole
    simpa using List.all_eq_true.mp hwhole d hd

def plainRunner : Runner where
  config := { slowRunner.config with sliceMs := 1000 }
  env := .calm
  storedMode := js "sync"
  mirrorDeletions := none
  random := fun _ => []

def filledWorld : World := .ofTrees [(js "a", .directory), (js "a/x", .file [1] 5)] []

def syncedWorld : World := plainRunner.tick filledWorld

def emptiedWorld : World := { syncedWorld with localTree := [], remoteTree := [] }

theorem ends_of_remaining {r : Runner} {w : World} (h : (r.runSlice.run w).1.toOption.map RunResult.remaining = some 0) :
    r.Ends w := by
  unfold Runner.Ends
  cases hrun : (r.runSlice.run w).1 with
  | error m => simp [hrun, Except.toOption] at h
  | ok result => exact ⟨result, rfl, by simpa [hrun, Except.toOption] using h⟩

example : plainRunner.Completes plainRunner.Unhindered filledWorld syncedWorld :=
  ⟨filledWorld, .here, smooth_of_runsSmoothly (by decide), ⟨fun _ h => by simp [Runner.resumeFrom, Runner.isOpen, filledWorld,
    World.ofTrees, PassRow.new] at h, fun _ _ h => by simp [filledWorld, World.ofTrees] at h, fun _ _ _ h => by simp [filledWorld,
    World.ofTrees] at h⟩, ends_of_remaining (by decide), rfl⟩

end DurableDav.Replication
