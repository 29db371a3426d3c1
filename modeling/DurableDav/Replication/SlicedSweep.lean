import DurableDav.Replication.SweepWalk

namespace DurableDav.Replication

open Library

variable {w : World} {env : Env}

/-! ### The way down to a cursor -/

theorem chainFrom_length (p : JsString) (segs : List JsString) : (chainFrom p segs).length = segs.length := by
  induction segs generalizing p with
  | nil => rfl
  | cons a segs ih => simp [chainFrom, ih]

theorem sweepAncestorChain_length (k : JsString) : (sweepAncestorChain k).length = (names k).length + 1 := by
  rw [sweepAncestorChain_eq, List.length_cons, chainFrom_length]

theorem mem_chain_dropLast {segs : List JsString} (hsegs : ∀ s ∈ segs, s ≠ [] ∧ slash ∉ s) {p q : JsString}
    (hq : q ∈ (p :: chainFrom p segs).dropLast) : ∃ t, t ≠ [] ∧ names q ++ t = names p ++ segs := by
  induction segs generalizing p with
  | nil => simp [chainFrom] at hq
  | cons a segs ih =>
    have ha := hsegs a List.mem_cons_self
    have hchain : (p :: chainFrom p (a :: segs)).dropLast =
        p :: (childPath p a :: chainFrom (childPath p a) segs).dropLast := rfl
    rw [hchain, List.mem_cons] at hq
    rcases hq with rfl | hq
    · exact ⟨a :: segs, by simp, rfl⟩
    · obtain ⟨t, ht, he⟩ := ih (fun s hs => hsegs s (List.mem_cons_of_mem _ hs)) hq
      refine ⟨t, ht, ?_⟩
      rw [he, names_childPath ha.1 ha.2, List.append_assoc, List.singleton_append]

theorem mem_ancestors {k q : JsString} (hv : isValidInnerPath k = true) (hq : q ∈ (sweepAncestorChain k).dropLast) :
    names q <+: names k ∧ names q < names k := by
  rw [sweepAncestorChain_eq] at hq
  obtain ⟨t, ht, he⟩ := mem_chain_dropLast (usable_segments hv) hq
  have habove : names q <+: names k := ⟨t, by simpa using he⟩
  refine ⟨habove, lt_of_above habove (fun h => ht ?_)⟩
  have hlen := congrArg List.length he
  simp only [List.length_append, h, names_nil, List.nil_append] at hlen
  exact List.length_eq_zero_iff.mp (by omega)

/-! ### What one slice walks over -/

/-- Where a walk opens: again at its cursor, or at the root without one or with one that lies too deep. -/
inductive Opens (start : Option JsString) : JsString → Bool → List Event → Prop
  | atRoot (h : ∀ k ∈ start, maxResumeDepth ≤ (names k).length) : Opens start [] false []
  | atCursor {k : JsString} (hk : start = some k) (h : (names k).length < maxResumeDepth) :
      Opens start k true (listingEvents (sweepAncestorChain k).dropLast)

theorem openWalk_run (env : Env) (start : Option JsString) (w : World) :
    ∃ walk c resumed es w', (env.openWalk start).run w = (.ok (walk, c, resumed), w') ∧ w.Reads es w' ∧
      walk.Truthful w ∧
      (walk.Clean → w.WellFormed → (∀ k ∈ start, w.IsCollection k) → Opens start c resumed es ∧
        OnCourse w walk (some c) ∧ walk.cursor = if resumed then some c else none) ∧
      ((∀ n, env.answer n = .performs) → w.Usable → w.WellFormed → (∀ k ∈ start, w.IsCollection k) → walk.Clean) := by
  have htruth (cursor : Option JsString) : (Walk.start cursor).Truthful w :=
    ⟨fun q e h => by simp [Walk.start] at h, fun q e h => by simp [Walk.start] at h⟩
  have hroot : OnCourse w (.start none) (some []) := by
    refine ⟨?_, ?_, by simp [Walk.start], ?_, by simp [Walk.start], by simp⟩
    · exact List.pairwise_singleton _ _
    · intro q hq
      obtain rfl : q = [] := by simpa [Walk.todo, Walk.start, Walk.pending] using hq
      exact mem_collections.mp List.mem_cons_self
    · rintro c ⟨⟩ q _ _
      exact ⟨[], List.mem_cons_self, List.nil_prefix⟩
  cases start with
  | none =>
    exact ⟨.start none, [], false, [], w, rfl, World.Reads.refl w, htruth none,
      fun _ _ _ => ⟨.atRoot (by simp), hroot, rfl⟩, fun _ _ _ _ => ⟨rfl, rfl⟩⟩
  | some k =>
    by_cases hdeep : maxResumeDepth < (sweepAncestorChain k).length
    · refine ⟨.start none, [], false, [], w, ?_, World.Reads.refl w, htruth none, fun _ _ _ => ⟨.atRoot ?_, hroot, rfl⟩,
        fun _ _ _ _ => ⟨rfl, rfl⟩⟩
      · have hfrontier : (env.resumeFrontier (.start (some k)) k).run w = (.ok (Walk.start (some k), false), w) := by
          unfold Env.resumeFrontier
          rw [if_pos hdeep]
          rfl
        unfold Env.openWalk
        rw [Act.run_bind_ok hfrontier]
        rfl
      · rintro _ ⟨⟩
        rw [sweepAncestorChain_length] at hdeep
        omega
    · obtain ⟨walk, b, es, w', hrun, hsurveys, hclean, hperf⟩ := resumeLevels_run env (names k) [] (.start (some k)) w
      rw [← sweepAncestorChain_eq] at hrun hclean
      have hfrontier : (env.resumeFrontier (.start (some k)) k).run w = (.ok (walk, b), w') := by
        unfold Env.resumeFrontier
        rw [if_neg hdeep]
        exact hrun
      have hdepth : (names k).length < maxResumeDepth := by
        rw [sweepAncestorChain_length] at hdeep
        omega
      cases b with
      | true =>
        refine ⟨walk, k, true, es, w', ?_, hsurveys.reads, hsurveys.truthful (htruth _), fun hc hw hk => ?_,
          fun hp hu hw hk => ?_⟩
        · unfold Env.openWalk
          rw [Act.run_bind_ok hfrontier]
          rfl
        · obtain ⟨_, hdesc, hcursor, hes⟩ := (hclean hc).2 hw (hk k rfl) rfl (descends_root w k)
          subst hes
          exact ⟨.atCursor rfl hdepth, hdesc.onCourse (hk k rfl) hcursor, hcursor⟩
        · exact hperf hp hu hw (hk k rfl) rfl (descends_root w k) ⟨rfl, rfl⟩
      | false =>
        refine ⟨{ walk with cursor := none }, [], false, es, w', ?_, hsurveys.reads, hsurveys.truthful (htruth _),
          fun hc hw hk => ?_, fun hp hu hw hk => ?_⟩
        · unfold Env.openWalk
          rw [Act.run_bind_ok hfrontier]
          rfl
        · have hback := ((hclean hc).2 hw (hk k rfl) rfl (descends_root w k)).1
          exact absurd hback (by simp)
        · have hc : walk.Clean := hperf hp hu hw (hk k rfl) rfl (descends_root w k) ⟨rfl, rfl⟩
          exact hc

/-- The stretch of the order that one slice goes through, and where it stops. -/
structure Stretch (env : Env) (maxCollections deadlineMs : ℕ) (start : Option JsString) (w : World) (walk : Walk)
    (current : Option JsString) (c : JsString) (resumed : Bool) (es : List Event) (vs : List JsString) (w' : World) :
    Prop where
  opens : Opens start c resumed es
  course : OnCourse w walk current
  order : w.ahead (some c) = vs ++ w.ahead current
  within : vs.length ≤ walkBudget maxCollections resumed
  spent : current ≠ none → vs.length = walkBudget maxCollections resumed ∨
    ∃ n, w.calls ≤ n ∧ n < w'.calls ∧ deadlineMs ≤ env.clock n
  cursor : walk.cursor = vs.getLast?.or (if resumed then some c else none)

theorem collectSlice_run (env : Env) (maxCollections deadlineMs : ℕ) (start : Option JsString) (w : World) :
    ∃ walk current es w', w.Reads es w' ∧ walk.Truthful w ∧
      (env.collectSlice maxCollections deadlineMs start).run w =
        (env.baseForVisited walk.visited >>= fun base => pure (walk.toSlice current base)).run w' ∧
      (walk.Clean → w.WellFormed → (∀ k ∈ start, w.IsCollection k) → ∃ c resumed es₀ vs,
        es = listingEvents vs ++ es₀ ∧
        Stretch env maxCollections deadlineMs start w walk current c resumed es₀ vs w') ∧
      ((∀ n, env.answer n = .performs) → w.Usable → w.WellFormed → (∀ k ∈ start, w.IsCollection k) → walk.Clean) := by
  obtain ⟨walk₀, c, resumed, es₀, w₀, hrun₀, hreads₀, htruth₀, hclean₀, hperf₀⟩ := openWalk_run env start w
  obtain ⟨walk, current, es, w', hrun, hsurveys, hclean, hperf⟩ :=
    sweep_run env deadlineMs (walkBudget maxCollections resumed) walk₀ (some c) w₀
  refine ⟨walk, current, es ++ es₀, w', hreads₀.trans hsurveys.reads, ?_, ?_, fun hc hw hk => ?_, fun hp hu hw hk => ?_⟩
  · exact hreads₀.truthful.mpr (hsurveys.truthful (hreads₀.truthful.mp htruth₀))
  · unfold Env.collectSlice
    rw [Act.run_bind_ok hrun₀]
    dsimp only
    rw [Act.run_bind_ok hrun]
  · obtain ⟨hc₀, hrest⟩ := hclean hc
    obtain ⟨hopens, hcourse, hcursor⟩ := hclean₀ hc₀ hw hk
    obtain ⟨vs, rfl, hsweeps⟩ := hrest (hreads₀.wellFormed hw) (hreads₀.onCourse.mp hcourse)
    refine ⟨c, resumed, es₀, vs, rfl, hopens, hreads₀.onCourse.mpr hsweeps.course, ?_, hsweeps.within, fun hcur => ?_, ?_⟩
    · rw [← hreads₀.ahead, ← hreads₀.ahead, hsweeps.order]
    · rcases hsweeps.spent hcur with h | ⟨n, hn, hn', hd⟩
      · exact .inl h
      · exact .inr ⟨n, hreads₀.calls.trans hn, hn', hd⟩
    · rw [hsweeps.cursor, hcursor]
  · have hc₀ := hperf₀ hp hu hw hk
    obtain ⟨_, hcourse, _⟩ := hclean₀ hc₀ hw hk
    exact hperf hp (hreads₀.usable hu) (hreads₀.wellFormed hw) (hreads₀.onCourse.mp hcourse) hc₀

/-! ### Slice after slice -/

def Event.listed : Event → Option JsString
  | .answered (.list .localSide p) => some p
  | _ => none

/-- The collections listed between two worlds that were not seen before, the first one first. -/
def newlyListed (seen : List JsString) (w w' : World) : List JsString :=
  ((w.events w').reverse.filterMap Event.listed).filter (fun p => decide (p ∉ seen))

/-- Each slice goes on from the cursor of the one before: together they visit a prefix of the order, none of it
twice, the cursor moves on, and the end is reported when and only when all of the order has been visited. -/
def Env.SweepsInOrder (env : Env) (deadlineMs : ℕ) (order : List JsString) :
    List ℕ → List JsString → Option JsString → World → Prop
  | [], _, _, _ => True
  | budget :: budgets, seen, cursor, w => ∃ slice w',
      (env.collectSlice budget deadlineMs cursor).run w = (.ok slice, w') ∧
      seen ++ newlyListed seen w w' <+: order ∧
      (∀ k ∈ cursor, ∀ k' ∈ slice.cursor, sweepOrderCompare k k' < 0) ∧
      (slice.cursor = none ∧ slice.remaining = 0 ↔ seen ++ newlyListed seen w w' = order) ∧
      (slice.cursor ≠ none →
        env.SweepsInOrder deadlineMs order budgets (seen ++ newlyListed seen w w') slice.cursor w')

/-- How far in the order a slice gets that starts after the first `n` collections of it. -/
def reached (order : List JsString) (budget n : ℕ) : ℕ :=
  if ∀ k ∈ (order.take n).getLast?, (names k).length < maxResumeDepth then n + budget else budget

/-- No slice parks at a cursor too deep to go on from, unless the next one gets past it from the root. -/
def Resumable (order : List JsString) : List ℕ → ℕ → Prop
  | [], _ => True
  | budget :: budgets, n => n < reached order budget n ∧
      (reached order budget n < order.length → Resumable order budgets (reached order budget n))

section Slices

variable {deadlineMs budget n : ℕ}

theorem listed_listingEvents (vs : List JsString) : (listingEvents vs).reverse.filterMap Event.listed = vs := by
  induction vs with
  | nil => rfl
  | cons v vs ih =>
    rw [listingEvents, List.reverse_append, List.filterMap_append, ih]
    rfl

def World.recorded (w : World) (visited : List JsString) : List PlanBase :=
  ((w.rows.map Prod.snd).filter (fun row => row.path ≠ [] ∧ parentOf row.path ∈ visited)).map ReplicaStateRow.toPlanBase

theorem baseForVisited_run {visited : List JsString} (h : env.answer w.calls = .performs) :
    (env.baseForVisited visited).run w = (.ok (w.recorded visited), w.tick.note (.answered .loadState)) := by
  have hload : env.loadReplicaStateRows.run w = (.ok (w.rows.map Prod.snd), w.tick.note (.answered .loadState)) := by
    simp only [Env.loadReplicaStateRows, Env.call, h]
    rfl
  unfold Env.baseForVisited
  rw [Act.run_bind_ok hload]
  rfl

theorem remaining_eq (walk : Walk) : walk.remaining = walk.pending.length := by
  unfold Walk.remaining Walk.pending
  rw [List.length_flatMap]
  simp only [List.length_drop]

theorem filter_unseen {L : List JsString} (hL : L.Nodup) (m n : ℕ) :
    (L.take m).filter (fun p => decide (p ∉ L.take n)) = (L.take m).drop n := by
  have hsplit := List.take_append_drop n (L.take m)
  have hold : ∀ p ∈ (L.take m).take n, ¬ decide (p ∉ L.take n) = true := by
    intro p hp
    rw [List.take_take, min_comm, ← List.take_take] at hp
    simpa using List.mem_of_mem_take hp
  have hnew : ∀ p ∈ (L.take m).drop n, decide (p ∉ L.take n) = true := by
    intro p hp
    rw [List.drop_take] at hp
    have hdisjoint := List.disjoint_take_drop hL (le_refl n)
    exact decide_eq_true (fun h => hdisjoint h (List.mem_of_mem_take hp))
  conv_lhs => rw [← hsplit]
  rw [List.filter_append, List.filter_eq_nil_iff.mpr hold, List.filter_eq_self.mpr hnew, List.nil_append]

theorem mem_ahead_self {c : JsString} (hc : w.IsCollection c) : c ∈ w.ahead (some c) := by
  rw [ahead_some, List.mem_filter]
  exact ⟨mem_preorder.mpr hc, decide_eq_true (le_refl _)⟩

/-- Before the deadline a slice walks over as much as its budget allows. -/
theorem Stretch.full {start current : Option JsString} {walk : Walk} {c : JsString} {resumed : Bool} {es : List Event}
    {vs : List JsString} {w' : World} (h : Stretch env budget deadlineMs start w walk current c resumed es vs w')
    (hclock : ∀ n, env.clock n < deadlineMs) :
    vs = (w.ahead (some c)).take (walkBudget budget resumed) ∧
      (current = none ↔ (w.ahead (some c)).length ≤ walkBudget budget resumed) := by
  have hwithin := h.within
  cases current with
  | none =>
    have horder : w.ahead (some c) = vs := by rw [h.order, World.ahead, List.append_nil]
    rw [horder, List.take_of_length_le hwithin]
    exact ⟨rfl, by simpa using hwithin⟩
  | some n =>
    have hlen : vs.length = walkBudget budget resumed := by
      rcases h.spent (by simp) with hlen | ⟨m, _, _, hm⟩
      · exact hlen
      · exact absurd (hclock m) (by omega)
    have hmember : w.IsCollection n := h.course.member n (by simp [Walk.todo])
    have hpos := List.length_pos_of_mem (mem_ahead_self hmember)
    rw [h.order, ← hlen, List.take_left, List.length_append]
    refine ⟨rfl, ⟨fun hn => by simp at hn, fun hle => by omega⟩⟩

/-- What one slice adds that starts after the first `n` collections of the order. -/
theorem slice_run (hw : w.WellFormed) (hu : w.Usable) (hperf : ∀ n, env.answer n = .performs)
    (hclock : ∀ n, env.clock n < deadlineMs) (hbudget : 0 < budget) (hn : n < w.preorder.length) :
    ∃ slice es w', (env.collectSlice budget deadlineMs (w.preorder.take n).getLast?).run w = (.ok slice, w') ∧
      w.Reads es w' ∧
      newlyListed (w.preorder.take n) w w' = (w.preorder.take (reached w.preorder budget n)).drop n ∧
      slice.cursor = (if w.preorder.length ≤ reached w.preorder budget n then none
        else (w.preorder.take (reached w.preorder budget n)).getLast?) ∧
      (slice.cursor = none → slice.remaining = 0) := by
  have hstart : ∀ k ∈ (w.preorder.take n).getLast?, w.IsCollection k := fun k hk =>
    mem_preorder.mp (List.mem_of_mem_take (List.mem_of_getLast? hk))
  obtain ⟨walk, current, es, w₁, hreads, _, hrun, hclean, hperforms⟩ :=
    collectSlice_run env budget deadlineMs (w.preorder.take n).getLast? w
  obtain ⟨c, resumed, es₀, vs, rfl, hstretch⟩ := hclean (hperforms hperf hu hw hstart) hw hstart
  have hbase := @baseForVisited_run w₁ env walk.visited (hperf _)
  rw [Act.run_bind_ok hbase] at hrun
  obtain ⟨hvs, hend⟩ := hstretch.full hclock
  -- the part of the order left of where the walk opens
  obtain ⟨before, hbefore, hseen, hreach⟩ : ∃ before, w.preorder = before ++ w.ahead (some c) ∧
      (∀ p ∈ before ++ (es₀.reverse.filterMap Event.listed), p ∈ w.preorder.take n) ∧
      reached w.preorder budget n = before.length + walkBudget budget resumed := by
    cases hstretch.opens with
    | atRoot h =>
      refine ⟨[], by rw [ahead_root, List.nil_append], by simp, ?_⟩
      unfold reached walkBudget
      split
      · rename_i hshallow
        cases hk : (w.preorder.take n).getLast? with
        | none =>
          have hempty := List.getLast?_eq_none_iff.mp hk
          rw [List.take_eq_nil_iff] at hempty
          have hlen : w.preorder ≠ [] := List.ne_nil_of_length_pos (by omega)
          simp [hempty.resolve_right hlen]
        | some k => exact absurd (hshallow k hk) (by simpa using h k hk)
      · simp
    | atCursor hk h =>
      have htake : w.preorder.take n = (w.preorder.take n).dropLast ++ [c] :=
        (List.dropLast_append_getLast? c hk).symm
      have hsplit : w.preorder = (w.preorder.take n).dropLast ++ c :: w.preorder.drop n := by
        conv_lhs => rw [← List.take_append_drop n w.preorder, htake]
        simp
      refine ⟨(w.preorder.take n).dropLast, by rw [ahead_split hsplit]; exact hsplit, fun p hp => ?_, ?_⟩
      · rcases List.mem_append.mp hp with hp | hp
        · exact List.mem_of_mem_dropLast hp
        · rw [listed_listingEvents] at hp
          have hc := hstart c hk
          obtain ⟨habove, hlt⟩ := mem_ancestors hc.1 hp
          have hmem := mem_preorder.mpr (isCollection_above hw hc habove)
          rw [hsplit, List.mem_append, List.mem_cons] at hmem
          have hsorted := preorder_pairwise w
          rw [hsplit, List.pairwise_append] at hsorted
          rcases hmem with hm | rfl | hm
          · exact List.mem_of_mem_dropLast hm
          · exact absurd hlt (lt_irrefl _)
          · exact absurd ((List.pairwise_cons.mp hsorted.2.1).1 p hm) (lt_asymm hlt)
      · have hlen := congrArg List.length htake
        rw [List.length_append, List.length_take, min_eq_left hn.le] at hlen
        unfold reached walkBudget
        rw [if_pos (fun k hk' => by rw [hk] at hk'; exact (by simpa using hk' : c = k) ▸ h), if_pos ⟨rfl, hbudget⟩]
        simp only [List.length_singleton] at hlen
        omega
  have hvisited : w.preorder.take (reached w.preorder budget n) = before ++ vs := by
    rw [hreach, hvs]
    conv_lhs => rw [hbefore]
    rw [List.take_length_add_append]
  have hdone : current = none ↔ w.preorder.length ≤ reached w.preorder budget n := by
    rw [hend, hreach]
    conv_rhs => rw [hbefore]
    rw [List.length_append]
    omega
  have hcall := hreads.trans (World.Reads.of_call w₁ (.answered .loadState))
  refine ⟨walk.toSlice current (w₁.recorded walk.visited), _, _, hrun, hcall, ?_, ?_, fun hcur => ?_⟩
  · have hnodup : w.preorder.Nodup := (preorder_pairwise w).imp (fun h he => absurd (he ▸ h) (lt_irrefl _))
    have hold : ∀ p ∈ before, ¬ decide (p ∉ w.preorder.take n) = true := fun p hp => by
      simpa using hseen p (List.mem_append_left _ hp)
    have hdown : ∀ p ∈ es₀.reverse.filterMap Event.listed, ¬ decide (p ∉ w.preorder.take n) = true := fun p hp => by
      simpa using hseen p (List.mem_append_right _ hp)
    rw [← filter_unseen hnodup, hvisited, List.filter_append, List.filter_eq_nil_iff.mpr hold, List.nil_append]
    unfold newlyListed
    rw [World.events_eq hcall.log]
    simp only [List.singleton_append, List.reverse_cons, List.reverse_append, List.filterMap_append,
      listed_listingEvents, List.filter_append]
    rw [List.filter_eq_nil_iff.mpr hdown]
    simp [Event.listed]
  · cases current with
    | none => rw [if_pos (hdone.mp rfl)]; rfl
    | some q =>
      have hmore : ¬ w.preorder.length ≤ reached w.preorder budget n := fun h => by simpa using hdone.mpr h
      have hne : vs ≠ [] := by
        intro he
        have hlen := congrArg List.length hvisited
        rw [he, List.append_nil, List.length_take, hreach] at hlen
        have hpos : 0 < walkBudget budget resumed := by unfold walkBudget; split <;> omega
        omega
      rw [if_neg hmore, hvisited, List.getLast?_append_of_ne_nil _ hne]
      have hcursor := hstretch.cursor
      obtain ⟨v, hv⟩ := Option.ne_none_iff_exists'.mp (fun h => hne (List.getLast?_eq_none_iff.mp h))
      rw [hv] at hcursor ⊢
      exact hcursor
  · cases current with
    | none =>
      have hempty := hstretch.course.done rfl
      have hzero : walk.remaining = 0 := by rw [remaining_eq, hempty, List.length_nil]
      simp [Walk.toSlice, hzero]
    | some q =>
      have hsome : walk.cursor = none := hcur
      have hc := hstretch.cursor
      rw [hsome] at hc
      have hnil : vs.getLast? = none := by
        cases hv : vs.getLast? with
        | none => rfl
        | some v => simp [hv] at hc
      have hne := (hdone.not.mp (by simp))
      have hlen := congrArg List.length hvisited
      rw [List.getLast?_eq_none_iff.mp hnil, List.append_nil, List.length_take, hreach] at hlen
      have hpos : 0 < walkBudget budget resumed := by unfold walkBudget; split <;> omega
      omega

theorem getLast?_take_lt {L : List JsString} (hL : L.Pairwise (fun a b => names a < names b)) {m n : ℕ} (hmn : m < n)
    (hn : n ≤ L.length) {k k' : JsString} (hk : k ∈ (L.take m).getLast?) (hk' : k' ∈ (L.take n).getLast?) :
    names k < names k' := by
  have hsplit : L.take n = L.take m ++ (L.drop m).take (n - m) := by
    rw [← List.take_add, Nat.add_sub_cancel' hmn.le]
  have hne : (L.drop m).take (n - m) ≠ [] := by
    apply List.ne_nil_of_length_pos
    rw [List.length_take, List.length_drop]
    omega
  rw [hsplit, List.getLast?_append_of_ne_nil _ hne] at hk'
  have hsorted := hL.sublist (List.take_sublist n L)
  rw [hsplit, List.pairwise_append] at hsorted
  exact hsorted.2.2 k (List.mem_of_getLast? hk) k' (List.mem_of_getLast? hk')

theorem reached_pos {order : List JsString} (hbudget : 0 < budget) : 0 < reached order budget n := by
  unfold reached
  split <;> omega

theorem sweepsInOrder_from {order : List JsString} {budgets : List ℕ} (hw : w.WellFormed) (hu : w.Usable)
    (hperf : ∀ n, env.answer n = .performs) (hclock : ∀ n, env.clock n < deadlineMs) (hbudgets : ∀ b ∈ budgets, 0 < b)
    (horder : w.preorder = order) (hn : n < order.length) :
    env.SweepsInOrder deadlineMs order budgets (order.take n) (order.take n).getLast? w ↔ Resumable order budgets n := by
  induction budgets generalizing n w with
  | nil => simp [Env.SweepsInOrder, Resumable]
  | cons budget budgets ih =>
    have hbudget := hbudgets budget List.mem_cons_self
    subst horder
    obtain ⟨slice, es, w', hrun, hreads, hnew, hcursor, hremaining⟩ := slice_run hw hu hperf hclock hbudget hn
    have hpos := @reached_pos budget n w.preorder hbudget
    have hsorted := preorder_pairwise w
    have hsame : w'.preorder = w.preorder := by rw [hreads.same]; rfl
    rw [Env.SweepsInOrder, Resumable]
    generalize reached w.preorder budget n = m at *
    have hrec := fun h : m < w.preorder.length => @ih w' m (hreads.wellFormed hw) (hreads.usable hu)
      (fun b hb => hbudgets b (List.mem_cons_of_mem _ hb)) hsame h
    have hseen (h : n < m) : w.preorder.take n ++ (w.preorder.take m).drop n = w.preorder.take m := by
      conv_rhs => rw [← List.take_append_drop n (w.preorder.take m)]
      rw [List.take_take, min_eq_left h.le]
    constructor
    · rintro ⟨slice', w'', hrun', _, hforward, _, hnext⟩
      rw [hrun] at hrun'
      injection hrun' with hslice hworld
      injection hslice with hslice
      subst hslice hworld
      have hlt : n < m := by
        by_contra hle
        have hshort : ¬ w.preorder.length ≤ m := by omega
        rw [if_neg hshort] at hcursor
        obtain ⟨k, hk⟩ := Option.ne_none_iff_exists'.mp (show (w.preorder.take n).getLast? ≠ none by
          rw [Ne, List.getLast?_eq_none_iff, List.take_eq_nil_iff]
          rintro (h | h)
          · omega
          · simp [h] at hn)
        obtain ⟨k', hk'⟩ := Option.ne_none_iff_exists'.mp (show (w.preorder.take m).getLast? ≠ none by
          rw [Ne, List.getLast?_eq_none_iff, List.take_eq_nil_iff]
          rintro (h | h)
          · omega
          · simp [h] at hn)
        have hless := (sweepOrderCompare_neg_iff k k').mp (hforward k hk k' (by rw [hcursor, hk']; rfl))
        rcases eq_or_lt_of_le (not_lt.mp hle) with rfl | hmn
        · rw [hk] at hk'
          obtain rfl : k = k' := by simpa using hk'
          exact absurd hless (lt_irrefl _)
        · exact absurd hless (lt_asymm (getLast?_take_lt hsorted hmn hn.le hk' hk))
      refine ⟨hlt, fun hm => (hrec hm).mp ?_⟩
      rw [if_neg (not_le.mpr hm)] at hcursor
      rw [hnew, hseen hlt, hcursor] at hnext
      refine hnext (fun h => ?_)
      rw [List.getLast?_eq_none_iff, List.take_eq_nil_iff] at h
      rcases h with h | h
      · omega
      · simp [h] at hn
    · rintro ⟨hlt, hnext⟩
      refine ⟨slice, w', hrun, ?_, fun k hk k' hk' => ?_, ?_, fun hne => ?_⟩
      · rw [hnew, hseen hlt]
        exact List.take_prefix _ _
      · rw [sweepOrderCompare_neg_iff]
        rw [hcursor] at hk'
        split at hk'
        · simp at hk'
        · exact getLast?_take_lt hsorted hlt (by omega) hk hk'
      · rw [hnew, hseen hlt, List.take_eq_self_iff]
        constructor
        · rintro ⟨hnone, _⟩
          rw [hcursor] at hnone
          by_contra hm
          rw [if_neg hm, List.getLast?_eq_none_iff, List.take_eq_nil_iff] at hnone
          rcases hnone with h | h
          · omega
          · simp [h] at hn
        · intro hm
          rw [if_pos hm] at hcursor
          exact ⟨hcursor, hremaining hcursor⟩
      · have hm : m < w.preorder.length := by
          by_contra hm
          rw [if_pos (not_lt.mp hm)] at hcursor
          exact hne hcursor
        rw [if_neg (not_le.mpr hm)] at hcursor
        rw [hnew, hseen hlt, hcursor]
        exact (hrec hm).mpr (hnext hm)

end Slices

/-- Budget after budget the slices of a quiet sweep go through the order once, exactly when none of them parks too
deep to be gone on from. -/
theorem sweepsInOrder_iff (env : Env) (deadlineMs : ℕ) (budgets : List ℕ) (w : World) (hw : w.WellFormed)
    (hu : w.Usable) (hperf : ∀ n, env.answer n = .performs) (hclock : ∀ n, env.clock n < deadlineMs)
    (hbudgets : ∀ b ∈ budgets, 0 < b) :
    env.SweepsInOrder deadlineMs w.preorder budgets [] none w ↔ Resumable w.preorder budgets 0 := by
  have hroot : [] ∈ w.preorder := mem_preorder.mpr (mem_collections.mp List.mem_cons_self)
  exact sweepsInOrder_from hw hu hperf hclock hbudgets rfl (List.length_pos_of_mem hroot)

/-! ### Two trees -/

theorem preorder_eq {order : List JsString} (hsorted : order.Pairwise (fun a b => names a < names b))
    (hmem : ∀ q, q ∈ order ↔ w.IsCollection q) : w.preorder = order := by
  have hnodup {l : List JsString} (h : l.Pairwise (fun a b => names a < names b)) : l.Nodup :=
    h.imp (fun hlt he => absurd (he ▸ hlt) (lt_irrefl _))
  have hperm : w.preorder.Perm order := (List.perm_ext_iff_of_nodup (hnodup (preorder_pairwise w)) (hnodup hsorted)).mpr
    (fun q => mem_preorder.trans (hmem q).symm)
  exact hperm.eq_of_pairwise (fun a b _ _ h h' => absurd h' (lt_asymm h)) (preorder_pairwise w) hsorted

theorem usable_ofTrees {l r : Tree} (hl : ∀ p ∈ Store.keys l, isValidInnerPath p = true)
    (hr : ∀ p ∈ Store.keys r, isValidInnerPath p = true) : (World.ofTrees l r).Usable := by
  intro s q hq
  have hheld : (Store.get ((World.ofTrees l r).tree s) q).isSome := by
    rw [Option.isSome_iff_ne_none]
    exact fun h => hq (Tree.content_eq_none.mpr h)
  cases s with
  | localSide => exact hl q (Store.mem_keys.mpr hheld)
  | remoteSide => exact hr q (Store.mem_keys.mpr hheld)

theorem wellFormed_nil : Tree.WellFormed [] := fun _ hp => absurd rfl hp

theorem wellFormed_ofTrees {l r : Tree} (hl : l.WellFormed) (hr : r.WellFormed) : (World.ofTrees l r).WellFormed := by
  intro s
  cases s with
  | localSide => exact hl
  | remoteSide => exact hr

theorem wellFormed_of_entries {t : Tree} (h : ∀ e ∈ t, e.1 ≠ [] ∧ t.isDirectory (parentOf e.1) = true) : t.WellFormed := by
  intro p hp
  obtain ⟨a, ha⟩ := Option.ne_none_iff_exists'.mp hp
  obtain ⟨r, hr, _⟩ := Option.map_eq_some_iff.mp ha
  obtain ⟨e, he, rfl⟩ := List.mem_map.mp (List.mem_dedup.mp (Store.mem_keys.mpr (by simp [hr]) : p ∈ Store.keys t))
  exact h e he

def forkedWorld : World :=
  .ofTrees (Store.put (Store.put [] (js "b") .directory) (js "a") .directory) (Store.put [] (js "c") .directory)

theorem sweepsInOrder_forked : Env.calm.SweepsInOrder 1 [[], js "a", js "b", js "c"] [2, 1, 1] [] none forkedWorld := by
  have horder : forkedWorld.preorder = [[], js "a", js "b", js "c"] := by decide
  have hwell : forkedWorld.WellFormed := wellFormed_ofTrees
    ((wellFormed_nil.put .directory (by decide) (by decide) (.inl rfl)).put .directory (by decide) (by decide) (.inl rfl))
    (wellFormed_nil.put .directory (by decide) (by decide) (.inl rfl))
  have h := (sweepsInOrder_iff .calm 1 [2, 1, 1] forkedWorld hwell (usable_ofTrees (by decide) (by decide))
    (fun _ => rfl) (fun _ => Nat.zero_lt_one) (by decide)).mpr
  rw [horder] at h
  refine h ⟨by decide, fun _ => ⟨by decide, fun _ => ⟨by decide, fun _ => trivial⟩⟩⟩

def deepPath : ℕ → JsString
  | 0 => []
  | n + 1 => childPath (deepPath n) (js "a")

def deepTree : ℕ → Tree
  | 0 => []
  | n + 1 => Store.put (deepTree n) (deepPath (n + 1)) .directory

/-- One collection in the other as deep as a path goes, and one beside them. -/
def deepWorld : World := .ofTrees (Store.put (deepTree maxPathDepth) (js "b") .directory) []

def deepOrder : List JsString := (List.range (maxPathDepth + 1)).map deepPath ++ [js "b"]

section Deep

theorem names_deepPath (n : ℕ) : names (deepPath n) = List.replicate n (js "a") := by
  induction n with
  | zero => rfl
  | succ n ih =>
    have hname : names (deepPath (n + 1)) = names (deepPath n) ++ [js "a"] := names_childPath (by decide) (by decide)
    rw [hname, ih, List.replicate_succ']

theorem deepPath_injective {m n : ℕ} (h : deepPath m = deepPath n) : m = n := by
  have hlen := congrArg (fun p => (names p).length) h
  simpa [names_deepPath] using hlen

theorem parentOf_deepPath (n : ℕ) : parentOf (deepPath (n + 1)) = deepPath n := parentOf_childPath (by decide)

theorem deepPath_ne_nil (n : ℕ) : deepPath (n + 1) ≠ [] := fun h => by
  have hzero := deepPath_injective (show deepPath (n + 1) = deepPath 0 from h)
  omega

theorem valid_deepPath {n : ℕ} (h : n ≤ maxPathDepth) : isValidInnerPath (deepPath n) = true := by
  rw [valid_iff, names_deepPath, List.length_replicate]
  refine ⟨h, fun s hs => ?_⟩
  obtain rfl := List.eq_of_mem_replicate hs
  decide

theorem content_deepTree (n : ℕ) (q : JsString) :
    (deepTree n).content q = if ∃ i < n, q = deepPath (i + 1) then some none else none := by
  induction n with
  | zero => simp [deepTree, Tree.content]
  | succ n ih =>
    rw [deepTree, Tree.content_put, ih]
    by_cases hq : q = deepPath (n + 1)
    · rw [if_pos hq, if_pos ⟨n, by omega, hq⟩]
      rfl
    · rw [if_neg hq]
      congr 1
      rw [eq_iff_iff]
      constructor
      · rintro ⟨i, hi, he⟩
        exact ⟨i, by omega, he⟩
      · rintro ⟨i, hi, he⟩
        refine ⟨i, ?_, he⟩
        rcases Nat.lt_succ_iff_lt_or_eq.mp hi with h | rfl
        · exact h
        · exact absurd he hq

theorem isDirectory_deepTree (n : ℕ) : (deepTree n).isDirectory (deepPath n) = true := by
  rw [Tree.isDirectory_iff]
  cases n with
  | zero => exact .inl rfl
  | succ n => exact .inr (by rw [content_deepTree, if_pos ⟨n, by omega, rfl⟩])

theorem wellFormed_deepTree (n : ℕ) : (deepTree n).WellFormed := by
  induction n with
  | zero => exact wellFormed_nil
  | succ n ih =>
    refine ih.put _ (deepPath_ne_nil n) ?_ (.inl rfl)
    rw [parentOf_deepPath]
    exact isDirectory_deepTree n

theorem content_deepWorld (q : JsString) : deepWorld.localTree.content q =
    if q = js "b" ∨ ∃ i < maxPathDepth, q = deepPath (i + 1) then some none else none := by
  have hlocal : deepWorld.localTree = Store.put (deepTree maxPathDepth) (js "b") .directory := rfl
  rw [hlocal, Tree.content_put, content_deepTree]
  by_cases hb : q = js "b"
  · rw [if_pos hb, if_pos (.inl hb)]
    rfl
  · simp only [hb, false_or, ↓reduceIte]

theorem mem_deepOrder {q : JsString} : q ∈ deepOrder ↔ q = js "b" ∨ ∃ i ≤ maxPathDepth, q = deepPath i := by
  unfold deepOrder
  rw [List.mem_append, List.mem_map, List.mem_singleton, or_comm]
  simp only [List.mem_range, Nat.lt_succ_iff, eq_comm]

theorem isCollection_deepWorld {q : JsString} : deepWorld.IsCollection q ↔ q ∈ deepOrder := by
  rw [mem_deepOrder]
  constructor
  · rintro ⟨_, s, hs⟩
    rw [Tree.isDirectory_iff] at hs
    rcases hs with rfl | hs
    · exact .inr ⟨0, Nat.zero_le _, rfl⟩
    · cases s with
      | localSide =>
        rw [show deepWorld.tree .localSide = deepWorld.localTree from rfl, content_deepWorld] at hs
        split at hs
        · rename_i h
          exact h.imp_right (fun ⟨i, hi, he⟩ => ⟨i + 1, hi, he⟩)
        · simp at hs
      | remoteSide => simp [deepWorld, World.ofTrees, World.tree, Tree.content] at hs
  · have hdir (h : q = js "b" ∨ ∃ i < maxPathDepth, q = deepPath (i + 1)) : ∃ s, (deepWorld.tree s).isDirectory q = true := by
      refine ⟨.localSide, Tree.isDirectory_iff.mpr (.inr ?_)⟩
      rw [show deepWorld.tree .localSide = deepWorld.localTree from rfl, content_deepWorld, if_pos h]
    rintro (rfl | ⟨i, hi, rfl⟩)
    · exact ⟨by decide, hdir (.inl rfl)⟩
    · refine ⟨valid_deepPath hi, ?_⟩
      cases i with
      | zero => exact ⟨.localSide, Tree.isDirectory_iff.mpr (.inl rfl)⟩
      | succ i => exact hdir (.inr ⟨i, hi, rfl⟩)

theorem preorder_deepWorld : deepWorld.preorder = deepOrder := by
  refine preorder_eq ?_ (fun q => isCollection_deepWorld.symm)
  unfold deepOrder
  rw [List.pairwise_append, List.pairwise_map]
  refine ⟨List.pairwise_lt_range.imp (fun {i j} hij => ?_), List.pairwise_singleton _ _, fun p hp q hq => ?_⟩
  · rw [names_deepPath, names_deepPath]
    refine lt_of_above ⟨List.replicate (j - i) (js "a"), ?_⟩ (fun h => ?_)
    · rw [List.replicate_append_replicate, Nat.add_sub_cancel' hij.le]
    · have hlen := congrArg List.length h
      simp only [List.length_replicate] at hlen
      omega
  · obtain ⟨i, _, rfl⟩ := List.mem_map.mp hp
    obtain rfl := List.mem_singleton.mp hq
    rw [names_deepPath, show names (js "b") = [js "b"] by decide]
    cases i with
    | zero => exact List.nil_lt_cons _ _
    | succ i => exact List.cons_lt_cons_iff.mpr (.inl (by decide))

theorem wellFormed_deepWorld : deepWorld.WellFormed :=
  wellFormed_ofTrees ((wellFormed_deepTree _).put .directory (by decide) (by decide) (.inl rfl)) wellFormed_nil

theorem usable_deepWorld : deepWorld.Usable := by
  intro s q hq
  cases s with
  | localSide =>
    rw [show deepWorld.tree .localSide = deepWorld.localTree from rfl, content_deepWorld] at hq
    split at hq
    · rename_i h
      rcases h with rfl | ⟨i, hi, rfl⟩
      · decide
      · exact valid_deepPath hi
    · exact absurd rfl hq
  | remoteSide => exact absurd rfl hq

/-- The first slice parks at the deepest collection of all, the second starts over at the root. -/
theorem deep_cursor_starts_over : deepWorld.WellFormed ∧ deepWorld.Usable ∧
    ¬ Env.calm.SweepsInOrder 1 deepWorld.preorder [maxPathDepth + 1, 1] [] none deepWorld := by
  refine ⟨wellFormed_deepWorld, usable_deepWorld, fun h => ?_⟩
  have hroot : 0 < deepOrder.length := by simp [deepOrder]
  rw [preorder_deepWorld] at h
  have hresume := (sweepsInOrder_from wellFormed_deepWorld usable_deepWorld (fun _ => rfl) (fun _ => Nat.zero_lt_one)
    (by decide) preorder_deepWorld hroot).mp h
  have hfirst : reached deepOrder (maxPathDepth + 1) 0 = maxPathDepth + 1 := by
    unfold reached
    split <;> omega
  obtain ⟨_, hnext⟩ := hresume
  rw [hfirst] at hnext
  obtain ⟨hback, _⟩ := hnext (by simp [deepOrder])
  have hlast : (deepOrder.take (maxPathDepth + 1)).getLast? = some (deepPath maxPathDepth) := by
    unfold deepOrder
    rw [List.take_left' (by simp), List.range_succ, List.map_append]
    simp
  have hsecond : reached deepOrder 1 (maxPathDepth + 1) = 1 := by
    unfold reached
    rw [if_neg]
    intro h
    have hshort := h _ hlast
    rw [names_deepPath, List.length_replicate] at hshort
    exact absurd hshort (lt_irrefl 256)
  rw [hsecond] at hback
  simp [maxPathDepth] at hback

end Deep

end DurableDav.Replication
