import DurableDav.Replication.Sight

namespace DurableDav.Replication

open Library

/-! ### The trees without one collection -/

def World.without (w : World) (p : JsString) : World :=
  { w with localTree := w.localTree.removeSubtree p, remoteTree := w.remoteTree.removeSubtree p }

section Without

variable {w : World} {p q : JsString}

theorem tree_without (s : Side) : (w.without p).tree s = (w.tree s).removeSubtree p := by cases s <;> rfl

theorem wellFormed_without (hw : w.WellFormed) : (w.without p).WellFormed := by
  intro s
  rw [tree_without]
  exact (hw s).removeSubtree

theorem isCollection_without (hp : p ≠ []) :
    (w.without p).IsCollection q ↔ w.IsCollection q ∧ ¬ names p <+: names q := by
  unfold World.IsCollection
  rw [and_assoc]
  refine and_congr_right fun _ => ?_
  rw [names_prefix_iff]
  by_cases hq : q = []
  · subst hq
    have hapart : ¬ (p = [] ∨ Below slash p []) := by
      rintro (h | h)
      · exact hp h
      · exact h.ne_nil rfl
    have hroot (w : World) : ∃ s, (w.tree s).isDirectory [] = true := ⟨.localSide, Tree.isDirectory_iff.mpr (.inl rfl)⟩
    exact iff_of_true (hroot _) ⟨hroot _, hapart⟩
  · by_cases hbelow : q = p ∨ Below slash p q
    · refine iff_of_false ?_ fun h => h.2 (hbelow.imp Eq.symm id)
      rintro ⟨s, hs⟩
      rw [tree_without, Tree.isDirectory_iff, Tree.content_removeSubtree, if_pos hbelow] at hs
      rcases hs with h | h
      · exact hq h
      · cases h
    · have hsame (s : Side) : ((w.without p).tree s).isDirectory q = true ↔ (w.tree s).isDirectory q = true := by
        rw [tree_without, Tree.isDirectory_iff, Tree.isDirectory_iff, Tree.content_removeSubtree, if_neg hbelow]
      rw [exists_congr hsame]
      exact ⟨fun h => ⟨h, fun h' => hbelow (h'.imp Eq.symm id)⟩, fun h => h.1⟩

end Without

/-! ### A walk beside marks that it has not set itself -/

/-- The walk goes through the collections of `scope`; what is marked beforehand is apart from them, up to the root. -/
structure Beside (w scope : World) (marked : List JsString) : Prop where
  sub : ∀ q, scope.IsCollection q → w.IsCollection q
  closed : ∀ c q, scope.IsCollection c → w.IsCollection q → q ≠ [] → parentOf q = c →
    q ∈ marked ∨ scope.IsCollection q
  apart : ∀ q ∈ marked, scope.IsCollection q → q = []

/-- Without the marks the walk is on its course through `scope`; it has visited `seen` itself. -/
structure Follows (scope : World) (marked seen : List JsString) (walk : Walk) (current : Option JsString) : Prop where
  visited : ∀ q, q ∈ walk.visited ↔ q ∈ marked ∨ q ∈ seen
  course : OnCourse scope { walk with visited := seen } current

section Following

variable {env : Env} {w scope : World} {marked seen : List JsString} {walk : Walk} {c p : JsString}

theorem visit_fresh {w' : World} {walk' : Walk} {children : List JsString}
    (h : (env.visit walk p).run w = (.ok (walk', children), w')) : ∀ q ∈ children, q ∉ walk.visited := by
  obtain ⟨listing, w₁, -, hpure⟩ := Act.of_run_bind h
  obtain ⟨hpair, -⟩ := Act.of_run_pure hpure
  obtain ⟨-, rfl⟩ := Prod.mk.inj hpair
  exact fun q hq => (mem_children.mp hq).2.1

theorem Beside.reads {w' : World} {es : List Event} (h : w.Reads es w') (hb : Beside w scope marked) :
    Beside w' scope marked :=
  ⟨fun q hq => (h.isCollection q).mpr (hb.sub q hq), fun c q hc hq => hb.closed c q hc ((h.isCollection q).mp hq), hb.apart⟩

theorem advance_seen (walk : Walk) (seen children : List JsString) :
    ({ walk with visited := seen } : Walk).advance children =
      ({ (walk.advance children).1 with visited := seen }, (walk.advance children).2) := by
  cases children <;> rfl

theorem step_beside (env : Env) (walk : Walk) (c : JsString) (w : World) :
    ∃ walk' next es w', (env.step walk c).run w = (.ok (walk', next), w') ∧ w.Reads es w' ∧
      (walk'.Clean → walk.Clean ∧ es = listingEvents [c] ∧ ∀ scope marked seen, scope.WellFormed → Beside w scope marked →
        Follows scope marked seen walk (some c) →
        Follows scope marked (c :: seen) walk' next ∧ scope.ahead (some c) = c :: scope.ahead next) := by
  obtain ⟨walk₁, children, es, w', hrun, hreads, hvisit, -⟩ := visit_run env (walk.mark c) c w
  obtain ⟨hvis, hfrontier, hcur⟩ := hvisit.kept
  refine ⟨((walk₁.reach c).advance children).1, ((walk₁.reach c).advance children).2, es, w', Act.run_bind_ok hrun, hreads,
    fun hclean => ?_⟩
  have hreach : (walk₁.reach c).Clean := advance_clean.mp hclean
  obtain ⟨hwalk, hes, hwhole⟩ := hvisit.clean hreach
  refine ⟨hwalk, hes, fun scope marked seen hscope hbeside hfollows => ?_⟩
  have hvisited (q : JsString) : q ∈ walk₁.visited ↔ q ∈ marked ∨ q ∈ c :: seen := by
    rw [hvis, mem_mark, hfollows.visited, List.mem_cons]
    tauto
  have hc : scope.IsCollection c := hfollows.course.member c (by simp [Walk.todo])
  have hkids : Kids scope c children := by
    refine ⟨fun q hq => ?_, hvisit.kids.ordered⟩
    obtain ⟨hcollection, hne, hparent⟩ := hvisit.kids.member q hq
    have hunmarked : q ∉ marked := fun hm => visit_fresh hrun q hq (hvis ▸ (hvisited q).mpr (.inl hm))
    exact ⟨(hbeside.closed c q hc hcollection hne hparent).resolve_left hunmarked, hne, hparent⟩
  have hall : ∀ q, scope.IsCollection q → q ≠ [] → parentOf q = c → q ∉ seen → q ≠ c → q ∈ children := by
    intro q hq hne hparent hunseen hqc
    refine hwhole q (hbeside.sub q hq) hne hparent fun hm => ?_
    rw [← hvis] at hm
    rcases (hvisited q).mp hm with hm | hm
    · exact hne (hbeside.apart q hm hq)
    · exact (List.mem_cons.mp hm).elim hqc hunseen
  have hcursor : (walk₁.reach c).cursor = some c := by
    apply reach_cursor
    rw [hcur]
    exact fun k hk => hfollows.course.cursor k hk c rfl
  have hpending : ({ walk₁.reach c with visited := c :: seen } : Walk).pending =
      ({ walk with visited := seen } : Walk).pending := by
    unfold Walk.pending
    change walk₁.frontier.flatMap _ = walk.frontier.flatMap _
    rw [hfrontier]
    rfl
  have hstep := hfollows.course.step hscope hkids hall hpending (fun v hv => List.mem_cons.mp hv) hcursor
  rw [advance_seen] at hstep
  refine ⟨⟨fun q => ?_, hstep.1⟩, hstep.2⟩
  have hkeep : ((walk₁.reach c).advance children).1.visited = walk₁.visited := by cases children <;> rfl
  rw [hkeep]
  exact hvisited q

theorem sweep_beside (env : Env) (deadlineMs budget : ℕ) (walk : Walk) (current : Option JsString) (w : World) :
    ∃ walk' current' es w', (env.sweep deadlineMs budget walk current).run w = (.ok (walk', current'), w') ∧
      w.Reads es w' ∧
      (walk'.Clean → walk.Clean ∧ ∀ scope marked seen, scope.WellFormed → Beside w scope marked →
        Follows scope marked seen walk current →
        ∃ vs, es = listingEvents vs ∧ scope.ahead current = vs ++ scope.ahead current') := by
  induction budget generalizing walk current w with
  | zero => exact ⟨walk, current, [], w, rfl, World.Reads.refl w, fun hc => ⟨hc, fun _ _ _ _ _ _ => ⟨[], rfl, rfl⟩⟩⟩
  | succ budget ih =>
    cases current with
    | none => exact ⟨walk, none, [], w, rfl, World.Reads.refl w, fun hc => ⟨hc, fun _ _ _ _ _ _ => ⟨[], rfl, rfl⟩⟩⟩
    | some c =>
      have hnow : env.now.run w = (.ok (env.clock w.calls), w.tick) := rfl
      by_cases hstop : deadlineMs ≤ env.clock w.calls
      · refine ⟨walk, some c, [], w.tick, ?_, World.Reads.of_tick w, fun hc => ⟨hc, fun _ _ _ _ _ _ => ⟨[], rfl, rfl⟩⟩⟩
        rw [Env.sweep, Act.run_bind_ok hnow, if_pos hstop]
        rfl
      · obtain ⟨walk₁, next, es₁, w₁, hrun₁, hreads₁, hclean₁⟩ := step_beside env walk c w.tick
        obtain ⟨walk₂, last, es₂, w₂, hrun₂, hreads₂, hclean₂⟩ := ih walk₁ next w₁
        have hto := (World.Reads.of_tick w).trans hreads₁
        rw [List.append_nil] at hto
        refine ⟨walk₂, last, es₂ ++ es₁, w₂, ?_, hto.trans hreads₂, fun hc => ?_⟩
        · rw [Env.sweep, Act.run_bind_ok hnow, if_neg hstop, Act.run_bind_ok hrun₁]
          exact hrun₂
        · obtain ⟨hc₁, hrest⟩ := hclean₂ hc
          obtain ⟨hc₀, hes₁, hstep⟩ := hclean₁ hc₁
          refine ⟨hc₀, fun scope marked seen hscope hbeside hfollows => ?_⟩
          obtain ⟨hnext, hahead⟩ := hstep scope marked seen hscope (hbeside.reads (World.Reads.of_tick w)) hfollows
          obtain ⟨vs, hes₂, horder⟩ := hrest scope marked (c :: seen) hscope (hbeside.reads hto) hnext
          refine ⟨c :: vs, ?_, ?_⟩
          · rw [hes₁, hes₂, ← listingEvents_append, List.singleton_append]
          · rw [hahead, horder, List.cons_append]

/-- A walk that opens at the root follows every scope that holds the root. -/
theorem follows_root {walk : Walk} (hroot : scope.IsCollection []) (hfrontier : walk.frontier = [])
    (hcursor : walk.cursor = none) : Follows scope walk.visited [] walk (some []) := by
  have htodo : ({ walk with visited := [] } : Walk).todo (some []) = [[]] := by
    unfold Walk.todo Walk.pending
    rw [hfrontier]
    rfl
  have hpending : ({ walk with visited := [] } : Walk).pending = [] := by
    unfold Walk.pending
    rw [hfrontier]
    rfl
  refine ⟨fun q => by simp, ?_, ?_, fun v hv => absurd hv List.not_mem_nil, ?_, ?_, fun _ => hpending⟩
  · rw [htodo]
    exact List.pairwise_singleton _ _
  · intro q hq
    rw [htodo] at hq
    rw [List.mem_singleton.mp hq]
    exact hroot
  · rintro c ⟨⟩ q _ _
    rw [htodo]
    exact ⟨[], List.mem_cons_self, List.nil_prefix⟩
  · intro k hk
    rw [show ({ walk with visited := [] } : Walk).cursor = walk.cursor from rfl, hcursor] at hk
    cases hk

end Following

/-! ### The way down to a cursor that is gone -/

section Stray

variable {env : Env} {w : World} {walk : Walk} {p k : JsString}

/-- What is visited on the way down are the collections that still stand on it. -/
theorem resumeLevels_stray (env : Env) (segs : List JsString) (p : JsString) (walk : Walk) (w : World) :
    ∃ walk' b es w', (env.resumeLevels (p :: chainFrom p segs) walk).run w = (.ok (walk', b), w') ∧ w.Reads es w' ∧
      (walk'.Clean → walk.Clean ∧ (w.WellFormed → isValidInnerPath k = true → ¬ w.IsCollection k → w.IsCollection p →
        names k = names p ++ segs → (∀ v ∈ walk.visited, names v < names p) →
        b = false ∧ walk'.frontier = [] ∧ ∃ vs, es = listingEvents vs ∧
          (∀ q, q ∈ walk'.visited ↔ q ∈ walk.visited ∨ q ∈ vs) ∧
          ∀ q, q ∈ vs ↔ w.IsCollection q ∧ names p <+: names q ∧ names q <+: names k)) := by
  induction segs generalizing p walk w with
  | nil =>
    refine ⟨walk, true, [], w, rfl, World.Reads.refl w, fun hc => ⟨hc, fun _ _ hk hp hn _ => ?_⟩⟩
    obtain rfl : k = p := names_injective (by simpa using hn)
    exact absurd hp hk
  | cons a segs ih =>
    obtain ⟨walk₁, children, es₁, w₁, hrun₁, hreads₁, hvisit, -⟩ := visit_run env (walk.mark p) p w
    obtain ⟨hvis, -, -⟩ := hvisit.kept
    have hmarked (q : JsString) : q ∈ walk₁.visited ↔ q = p ∨ q ∈ walk.visited := by rw [hvis, mem_mark]
    have hway (hv : isValidInnerPath k = true) (hn : names k = names p ++ a :: segs) :
        names (childPath p a) = names p ++ [a] ∧ names p < names (childPath p a) ∧
          names k = names (childPath p a) ++ segs := by
      have ha := usable_segments hv a (by rw [hn]; simp)
      have hnames : names (childPath p a) = names p ++ [a] := names_childPath ha.1 ha.2
      refine ⟨hnames, ?_, by rw [hnames, hn]; simp⟩
      rw [hnames]
      exact lt_of_above ⟨[a], rfl⟩ (by simp)
    -- what lies on the way below `p` lies below the child on the way
    have hbelow {q : JsString} (hv : isValidInnerPath k = true) (hn : names k = names p ++ a :: segs)
        (hpq : names p <+: names q) (hqk : names q <+: names k) : q = p ∨ names (childPath p a) <+: names q := by
      obtain ⟨hnames, -, hn'⟩ := hway hv hn
      obtain ⟨t, ht⟩ := hpq
      cases t with
      | nil => exact .inl (names_injective (by rw [← ht, List.append_nil]))
      | cons b t =>
        right
        rw [← ht, hn, List.prefix_append_right_inj, List.cons_prefix_cons] at hqk
        obtain ⟨rfl, -⟩ := hqk
        rw [hnames, ← ht]
        exact ⟨t, by simp⟩
    by_cases hmem : childPath p a ∈ children
    · obtain ⟨walk₂, b, es₂, w₂, hrun₂, hreads₂, hclean₂⟩ :=
        ih (childPath p a) (walk₁.push ⟨children, children.idxOf (childPath p a) + 1⟩) w₁
      refine ⟨walk₂, b, es₂ ++ es₁, w₂, ?_, hreads₁.trans hreads₂, fun hc => ?_⟩
      · rw [chainFrom, Env.resumeLevels, Act.run_bind_ok hrun₁]
        dsimp only
        rw [if_pos hmem]
        exact hrun₂
      · obtain ⟨hc₁, hrest⟩ := hclean₂ hc
        have hc₁' : walk₁.Clean := hc₁
        obtain ⟨hc₀, hes₁, -⟩ := hvisit.clean hc₁'
        refine ⟨hc₀, fun hw hv hk hp hn hbefore => ?_⟩
        obtain ⟨hnames, hlt, hn'⟩ := hway hv hn
        obtain ⟨hb, hfrontier, vs, hes₂, hvisited, hvs⟩ := hrest (hreads₁.wellFormed hw) hv
          (fun h => hk ((hreads₁.isCollection k).mp h))
          ((hreads₁.isCollection _).mpr (hvisit.kids.member _ hmem).1) hn' (by
            intro v hvm
            rcases (hmarked v).mp hvm with rfl | hvm
            · exact hlt
            · exact (hbefore v hvm).trans hlt)
        refine ⟨hb, hfrontier, p :: vs, ?_, fun q => ?_, fun q => ?_⟩
        · rw [hes₁, hes₂, ← listingEvents_append, List.singleton_append]
        · rw [hvisited, show (walk₁.push ⟨children, children.idxOf (childPath p a) + 1⟩).visited = walk₁.visited from rfl,
            hmarked, List.mem_cons]
          tauto
        · rw [List.mem_cons, hvs, hreads₁.isCollection]
          constructor
          · rintro (rfl | ⟨hq, hcq, hqk⟩)
            · exact ⟨hp, List.prefix_refl _, ⟨a :: segs, hn.symm⟩⟩
            · have hpc : names p <+: names (childPath p a) := by
                rw [hnames]
                exact List.prefix_append _ _
              exact ⟨hq, hpc.trans hcq, hqk⟩
          · rintro ⟨hq, hpq, hqk⟩
            exact (hbelow hv hn hpq hqk).imp id fun hcq => ⟨hq, hcq, hqk⟩
    · refine ⟨walk₁.abandon, false, es₁, w₁, ?_, hreads₁, fun hc => ?_⟩
      · rw [chainFrom, Env.resumeLevels, Act.run_bind_ok hrun₁]
        dsimp only
        rw [if_neg hmem]
        rfl
      · have hc₁ : walk₁.Clean := hc
        obtain ⟨hc₀, hes₁, hwhole⟩ := hvisit.clean hc₁
        refine ⟨hc₀, fun hw hv hk hp hn hbefore => ⟨rfl, rfl, [p], hes₁, fun q => ?_, fun q => ?_⟩⟩
        · rw [show walk₁.abandon.visited = walk₁.visited from rfl, hmarked, List.mem_singleton]
          tauto
        · rw [List.mem_singleton]
          constructor
          · rintro rfl
            exact ⟨hp, List.prefix_refl _, ⟨a :: segs, hn.symm⟩⟩
          · rintro ⟨hq, hpq, hqk⟩
            refine (hbelow hv hn hpq hqk).resolve_right fun hcq => hmem ?_
            obtain ⟨hnames, hlt, -⟩ := hway hv hn
            have ha := usable_segments hv a (by rw [hn]; simp)
            refine hwhole _ (isCollection_above hw hq hcq) ?_ (parentOf_childPath ha.2) fun hm => ?_
            · intro hnil
              rw [hnil] at hnames
              simp at hnames
            · rcases mem_mark.mp hm with hm | hm
              · rw [hm] at hlt
                exact absurd hlt (lt_irrefl _)
              · exact absurd ((hbefore _ hm).trans hlt) (lt_irrefl _)

/-- A walk whose cursor is gone, or lies too deep, opens at the root with the marks of the way down. -/
theorem openWalk_stray (env : Env) (w : World) (k : JsString) :
    ∃ walk c resumed es w', (env.openWalk (some k)).run w = (.ok (walk, c, resumed), w') ∧ w.Reads es w' ∧
      (walk.Clean → w.WellFormed → isValidInnerPath k = true → ¬ w.IsCollection k →
        c = [] ∧ resumed = false ∧ walk.frontier = [] ∧ walk.cursor = none ∧ ∃ vs, es = listingEvents vs ∧
          (∀ q, q ∈ walk.visited ↔ q ∈ vs) ∧
          ∀ q, q ∈ vs ↔ (names k).length < maxResumeDepth ∧ w.IsCollection q ∧ names q <+: names k) := by
  by_cases hdeep : maxResumeDepth < (sweepAncestorChain k).length
  · have hfrontier : (env.resumeFrontier (.start (some k)) k).run w = (.ok (Walk.start (some k), false), w) := by
      unfold Env.resumeFrontier
      rw [if_pos hdeep]
      rfl
    refine ⟨.start none, [], false, [], w, ?_, World.Reads.refl w,
      fun _ _ _ _ => ⟨rfl, rfl, rfl, rfl, [], rfl, by simp [Walk.start], fun q => ?_⟩⟩
    · unfold Env.openWalk
      rw [Act.run_bind_ok hfrontier]
      rfl
    · rw [sweepAncestorChain_length] at hdeep
      refine iff_of_false List.not_mem_nil ?_
      rintro ⟨hlt, -⟩
      omega
  · obtain ⟨walk, b, es, w', hrun, hreads, hclean⟩ := @resumeLevels_stray k env (names k) [] (.start (some k)) w
    rw [← sweepAncestorChain_eq] at hrun
    have hfrontier : (env.resumeFrontier (.start (some k)) k).run w = (.ok (walk, b), w') := by
      unfold Env.resumeFrontier
      rw [if_neg hdeep]
      exact hrun
    have hroot : w.IsCollection [] := mem_collections.mp List.mem_cons_self
    have hstart : ∀ v ∈ (Walk.start (some k)).visited, names v < names [] := fun v hv => absurd hv List.not_mem_nil
    cases b with
    | true =>
      refine ⟨walk, k, true, es, w', ?_, hreads, fun hc hw hv hk => ?_⟩
      · unfold Env.openWalk
        rw [Act.run_bind_ok hfrontier]
        rfl
      · cases ((hclean hc).2 hw hv hk hroot rfl hstart).1
    | false =>
      refine ⟨{ walk with cursor := none }, [], false, es, w', ?_, hreads, fun hc hw hv hk => ?_⟩
      · unfold Env.openWalk
        rw [Act.run_bind_ok hfrontier]
        rfl
      · obtain ⟨-, hempty, vs, hes, hvisited, hvs⟩ := (hclean hc).2 hw hv hk hroot rfl hstart
        refine ⟨rfl, rfl, hempty, rfl, vs, hes, fun q => ?_, fun q => ?_⟩
        · exact (hvisited q).trans (or_iff_right List.not_mem_nil)
        · rw [hvs]
          rw [sweepAncestorChain_length] at hdeep
          refine ⟨fun h => ⟨by omega, h.1, h.2.2⟩, fun h => ⟨h.2.1, List.nil_prefix, h.2.2⟩⟩

end Stray

/-! ### A slice whose cursor is gone -/

section Abandoned

variable {env : Env} {w : World} {k q : JsString}

/-- The walk of the way down leaves the collections of the first name of the cursor to no one else. -/
def BelowFirst (k q : JsString) : Prop := (names k).length < maxResumeDepth ∧ (names q).head? = (names k).head?

theorem head_iff_prefix {a : JsString} {segs xs : List JsString} : xs.head? = (a :: segs).head? ↔ [a] <+: xs := by
  cases xs with
  | nil => simp
  | cons x xs => simp [List.cons_prefix_cons, eq_comm]

theorem names_ne_nil (hk : k ≠ []) : names k ≠ [] := fun h => hk (names_injective h)

/-- The collections that the sweep from the root still finds, and what is marked beside them. -/
theorem beside_stray {marked : List JsString} (hw : w.WellFormed) (hv : isValidInnerPath k = true) (hk : ¬ w.IsCollection k)
    (hmarked : ∀ q, q ∈ marked ↔ (names k).length < maxResumeDepth ∧ w.IsCollection q ∧ names q <+: names k) :
    ∃ scope : World, scope.WellFormed ∧ Beside w scope marked ∧
      ∀ q, scope.IsCollection q ↔ w.IsCollection q ∧ ¬ BelowFirst k q := by
  by_cases hdepth : (names k).length < maxResumeDepth
  · have hroot : w.IsCollection [] := mem_collections.mp List.mem_cons_self
    have hkne : k ≠ [] := by
      rintro rfl
      exact hk hroot
    obtain ⟨a, segs, hn⟩ := List.exists_cons_of_ne_nil (names_ne_nil hkne)
    have ha := usable_segments hv a (by rw [hn]; simp)
    have hfirst : names (childPath [] a) = [a] := names_childPath ha.1 ha.2
    have hne : childPath [] a ≠ [] := by
      intro h
      rw [h] at hfirst
      simp at hfirst
    have hscope (q : JsString) : (w.without (childPath [] a)).IsCollection q ↔ w.IsCollection q ∧ ¬ [a] <+: names q := by
      rw [isCollection_without hne, hfirst]
    have hbelow (q : JsString) : BelowFirst k q ↔ [a] <+: names q := by
      unfold BelowFirst
      rw [hn, head_iff_prefix, ← hn]
      exact and_iff_right hdepth
    refine ⟨w.without (childPath [] a), wellFormed_without hw, ⟨fun q hq => ((hscope q).mp hq).1, ?_, ?_⟩, fun q => ?_⟩
    · intro c q hc hq hne hparent
      by_cases haq : [a] <+: names q
      · left
        obtain ⟨b, hb⟩ := names_of_child hq hne hparent
        have hnot := ((hscope c).mp hc).2
        rw [hmarked]
        refine ⟨hdepth, hq, ?_⟩
        cases hcs : names c with
        | nil =>
          rw [hb, hcs, List.nil_append, List.cons_prefix_cons] at haq
          rw [hb, hcs, List.nil_append, ← haq.1, hn]
          exact List.prefix_append [a] segs
        | cons x xs =>
          rw [hb, hcs, List.cons_append, List.cons_prefix_cons] at haq
          rw [hcs, List.cons_prefix_cons] at hnot
          exact absurd ⟨haq.1, List.nil_prefix⟩ hnot
      · exact .inr ((hscope q).mpr ⟨hq, haq⟩)
    · intro q hq hs
      have hnot := ((hscope q).mp hs).2
      have habove := ((hmarked q).mp hq).2.2
      apply names_injective
      cases hqs : names q with
      | nil => rfl
      | cons x xs =>
        rw [hqs, hn, List.cons_prefix_cons] at habove
        rw [hqs, List.cons_prefix_cons] at hnot
        exact absurd ⟨habove.1.symm, List.nil_prefix⟩ hnot
    · rw [hscope, hbelow]
  · refine ⟨w, hw, ⟨fun _ h => h, fun _ _ _ hq _ _ => .inr hq, fun q hq _ => ?_⟩, fun q => ?_⟩
    · exact absurd ((hmarked q).mp hq).1 hdepth
    · exact (and_iff_left fun h => hdepth h.1).symm

/-- What a slice lists whose cursor is gone, when it reports that it ran out of tree. -/
theorem abandoned_lists {maxCollections deadlineMs : ℕ} {slice : Slice} {w' : World} (hw : w.WellFormed)
    (hv : isValidInnerPath k = true) (hk : ¬ w.IsCollection k)
    (hrun : (env.collectSlice maxCollections deadlineMs (some k)).run w = (.ok slice, w'))
    (hcursor : slice.cursor = none) (hremaining : slice.remaining = 0) (hcomplete : slice.complete = true) :
    q ∈ newlyListed [] w w' ↔ w.IsCollection q ∧ (BelowFirst k q → names q <+: names k) := by
  obtain ⟨walk₀, c, resumed, es₀, w₀, hrun₀, hreads₀, hopen⟩ := openWalk_stray env w k
  obtain ⟨walk, current, es, w₁, hrun₁, hreads₁, hsweep⟩ :=
    sweep_beside env deadlineMs (walkBudget maxCollections resumed) walk₀ (some c) w₀
  unfold Env.collectSlice at hrun
  rw [Act.run_bind_ok hrun₀] at hrun
  dsimp only at hrun
  rw [Act.run_bind_ok hrun₁] at hrun
  dsimp only at hrun
  obtain ⟨base, w₂, hbase, hpure⟩ := Act.of_run_bind hrun
  obtain ⟨-, a, rfl⟩ := baseForVisited_ok hbase
  obtain ⟨rfl, rfl⟩ := Act.of_run_pure hpure
  have hclean : walk.Clean := by simpa [Walk.toSlice, Walk.Clean] using hcomplete
  have hdone : current = none := by
    cases current with
    | none => rfl
    | some n =>
      simp only [Walk.toSlice, Option.isSome_some, true_and] at hremaining
      split at hremaining
      · cases hremaining
      · contradiction
  subst hdone
  obtain ⟨hclean₀, hswept⟩ := hsweep hclean
  obtain ⟨rfl, rfl, hfrontier, hnone, ups, rfl, hvisited, hups⟩ := hopen hclean₀ hw hv hk
  obtain ⟨scope, hform, hbeside, hscope⟩ := beside_stray hw hv hk (fun q => (hvisited q).trans (hups q))
  have hroot : scope.IsCollection [] := mem_collections.mp List.mem_cons_self
  obtain ⟨vs, rfl, horder⟩ :=
    hswept scope walk₀.visited [] hform (hbeside.reads hreads₀) (follows_root hroot hfrontier hnone)
  have hvs : vs = scope.preorder := by
    rw [ahead_root] at horder
    rw [horder]
    exact (List.append_nil vs).symm
  have hlisted : newlyListed [] w (w₁.tick.note (Call.loadState.outcome a)) = ups ++ vs := by
    have hlog := ((hreads₀.trans hreads₁).trans (World.Reads.of_call w₁ (Call.loadState.outcome a))).log
    have hload : (Call.loadState.outcome a).listed = none := by cases a <;> rfl
    unfold newlyListed
    rw [World.events_eq hlog]
    simp only [List.singleton_append, List.reverse_cons, List.reverse_append, List.filterMap_append, listed_listingEvents]
    simp [hload]
  rw [hlisted, List.mem_append, hups, hvs, mem_preorder, hscope]
  unfold BelowFirst
  tauto

/-- A slice whose cursor is gone covers the tree when the cursor is too deep to go back to, or when nothing lies below its first
name that the way down has not listed. -/
theorem abandoned_covers_iff {maxCollections deadlineMs : ℕ} {slice : Slice} {w' : World} (hw : w.WellFormed)
    (hv : isValidInnerPath k = true) (hk : ¬ w.IsCollection k)
    (hrun : (env.collectSlice maxCollections deadlineMs (some k)).run w = (.ok slice, w'))
    (hcursor : slice.cursor = none) (hremaining : slice.remaining = 0) (hcomplete : slice.complete = true) :
    (∀ q, w.IsCollection q → q ∈ newlyListed [] w w') ↔ maxResumeDepth ≤ (names k).length ∨
      ∀ q, w.IsCollection q → (names q).head? = (names k).head? → names q <+: names k := by
  have hlists (q : JsString) := @abandoned_lists env w k q _ _ _ _ hw hv hk hrun hcursor hremaining hcomplete
  constructor
  · intro hall
    by_cases hdepth : (names k).length < maxResumeDepth
    · exact .inr fun q hq hhead => ((hlists q).mp (hall q hq)).2 ⟨hdepth, hhead⟩
    · exact .inl (not_lt.mp hdepth)
  · rintro (hdeep | hnone) q hq
    · exact (hlists q).mpr ⟨hq, fun h => absurd h.1 (not_lt.mpr hdeep)⟩
    · exact (hlists q).mpr ⟨hq, fun h => hnone q hq h.2⟩

def siblingWorld : World := .ofTrees [(js "a", .directory), (js "a/c", .directory)] []

theorem isCollection_sibling {p : JsString} (hv : isValidInnerPath p = true)
    (h : siblingWorld.localTree.isDirectory p = true) : siblingWorld.IsCollection p := ⟨hv, .localSide, h⟩

theorem not_isCollection_sibling {p : JsString} (hlocal : siblingWorld.localTree.isDirectory p = false)
    (hremote : siblingWorld.remoteTree.isDirectory p = false) : ¬ siblingWorld.IsCollection p := by
  rintro ⟨-, s, hs⟩
  cases s with
  | localSide => exact Bool.false_ne_true (hlocal.symm.trans hs)
  | remoteSide => exact Bool.false_ne_true (hremote.symm.trans hs)

theorem wellFormed_sibling : siblingWorld.WellFormed :=
  wellFormed_ofTrees (wellFormed_of_entries (by decide)) wellFormed_nil

/-- The cursor `a/b` is gone: the way down lists `a`, the sweep from the root then passes `a` over, and with it `a/c`. -/
theorem sibling_never_listed : ∃ slice w',
    (Env.calm.collectSlice 10 1 (some (js "a/b"))).run siblingWorld = (.ok slice, w') ∧
      slice.cursor = none ∧ slice.remaining = 0 ∧ slice.complete = true ∧
      siblingWorld.WellFormed ∧ isValidInnerPath (js "a/b") = true ∧ ¬ siblingWorld.IsCollection (js "a/b") ∧
      siblingWorld.IsCollection (js "a/c") ∧ js "a/c" ∉ newlyListed [] siblingWorld w' :=
  ⟨_, _, rfl, by decide, by decide, by decide, wellFormed_sibling, by decide,
    not_isCollection_sibling (by decide) (by decide), isCollection_sibling (by decide) (by decide), by decide⟩

/-- A cursor `b` directly below the root leaves nothing behind. -/
theorem top_level_covers : ∃ slice w',
    (Env.calm.collectSlice 10 1 (some (js "b"))).run siblingWorld = (.ok slice, w') ∧
      ∀ q, siblingWorld.IsCollection q → q ∈ newlyListed [] siblingWorld w' := by
  have hgone : ¬ siblingWorld.IsCollection (js "b") := not_isCollection_sibling (by decide) (by decide)
  have hnone : ∀ q ∈ siblingWorld.preorder, (names q).head? ≠ (names (js "b")).head? := by decide
  have hcovers := @abandoned_covers_iff .calm siblingWorld (js "b") 10 1 _ _ wellFormed_sibling (by decide) hgone rfl
    (by decide) (by decide) (by decide)
  exact ⟨_, _, rfl, hcovers.mpr (.inr fun q hq hhead => absurd hhead (hnone q (mem_preorder.mpr hq)))⟩

end Abandoned

end DurableDav.Replication
