import DurableDav.Replication.Coverage

namespace DurableDav.Replication

open Library

/-! ### Where a walk stands -/

/-- The collections the open levels still hold, the innermost level first. -/
def Walk.pending (walk : Walk) : List JsString := walk.frontier.flatMap (fun level => level.children.drop level.next)

def Walk.todo (walk : Walk) (current : Option JsString) : List JsString := current.toList ++ walk.pending

/-- The walk stands at `current`, and whatever comes after it lies in what is still to do. -/
structure OnCourse (w : World) (walk : Walk) (current : Option JsString) : Prop where
  ahead : Ahead ((walk.todo current).map names)
  member : ∀ q ∈ walk.todo current, w.IsCollection q
  visited : ∀ v ∈ walk.visited, ∀ q ∈ walk.todo current, names v < names q
  covers : ∀ c ∈ current, ∀ q, w.IsCollection q → names c ≤ names q → ∃ x ∈ walk.todo current, names x <+: names q
  cursor : ∀ k ∈ walk.cursor, ∀ c ∈ current, names k ≤ names c
  done : current = none → walk.pending = []

namespace World.Reads

variable {w w' : World} {es : List Event} {walk : Walk} {current : Option JsString}

theorem onCourse (h : w.Reads es w') : OnCourse w walk current ↔ OnCourse w' walk current := by
  constructor
  · exact fun hw => ⟨hw.ahead, fun q hq => (h.isCollection q).mpr (hw.member q hq), hw.visited,
      fun c hc q hq => hw.covers c hc q ((h.isCollection q).mp hq), hw.cursor, hw.done⟩
  · exact fun hw => ⟨hw.ahead, fun q hq => (h.isCollection q).mp (hw.member q hq), hw.visited,
      fun c hc q hq => hw.covers c hc q ((h.isCollection q).mpr hq), hw.cursor, hw.done⟩

theorem truthful (h : w.Reads es w') : walk.Truthful w ↔ walk.Truthful w' := by
  unfold Walk.Truthful
  rw [show w'.localTree = w.localTree from h.tree .localSide, show w'.remoteTree = w.remoteTree from h.tree .remoteSide]

theorem usable (h : w.Reads es w') (hw : w.Usable) : w'.Usable := by
  intro s q hq
  rw [h.tree] at hq
  exact hw s q hq

end World.Reads

section Advance

variable {w : World} {walk walk' : Walk} {c p : JsString} {children : List JsString}

theorem Kids.ahead (h : Kids w p children) : Ahead (children.map names) := by
  unfold Ahead
  rw [List.pairwise_map]
  refine (List.Pairwise.and_mem.mp h.ordered).imp (fun ⟨hx, hy, hlt⟩ => ?_)
  obtain ⟨hcx, hnx, hpx⟩ := h.member _ hx
  obtain ⟨hcy, hny, hpy⟩ := h.member _ hy
  obtain ⟨a, ha⟩ := names_of_child hcx hnx hpx
  obtain ⟨b, hb⟩ := names_of_child hcy hny hpy
  rw [ha, hb] at hlt ⊢
  exact diverges_append (lt_of_append_lt hlt) (names p)

theorem Kids.above (h : Kids w p children) {q : JsString} (hq : q ∈ children) :
    names p <+: names q ∧ names q ≠ names p := by
  obtain ⟨hc, hne, hpar⟩ := h.member q hq
  obtain ⟨a, ha⟩ := names_of_child hc hne hpar
  rw [ha]
  exact ⟨⟨[a], rfl⟩, by simp⟩

theorem mem_mark {q : JsString} : q ∈ (walk.mark p).visited ↔ q = p ∨ q ∈ walk.visited := by
  unfold Walk.mark
  dsimp only
  split
  · rename_i hp
    exact ⟨.inr, fun h => h.elim (fun h => h ▸ hp) id⟩
  · exact List.mem_cons

theorem pending_push {level : FrontierLevel} :
    (walk.push level).pending = level.children.drop level.next ++ walk.pending := by
  simp [Walk.pending, Walk.push]

theorem nextSibling_spec (frontier : List FrontierLevel) :
    frontier.flatMap (fun level => level.children.drop level.next) = (nextSibling frontier).1.toList ++
      (nextSibling frontier).2.flatMap (fun level => level.children.drop level.next) := by
  induction frontier with
  | nil => rfl
  | cons level above ih =>
    unfold nextSibling
    cases hget : level.children[level.next]? with
    | none =>
      have hdone : level.children.drop level.next = [] := List.drop_eq_nil_iff.mpr (List.getElem?_eq_none_iff.mp hget)
      simpa [hdone] using ih
    | some q =>
      obtain ⟨hlt, hq⟩ := List.getElem?_eq_some_iff.mp hget
      rw [List.flatMap_cons, List.drop_eq_getElem_cons hlt, hq]
      simp

/-- The walk goes on with the children, and without any with the next sibling. -/
theorem advance_todo : (walk.advance children).1.todo (walk.advance children).2 = children ++ walk.pending := by
  cases children with
  | nil => exact (nextSibling_spec walk.frontier).symm
  | cons child rest => simp [Walk.advance, Walk.todo, pending_push]

theorem advance_done (h : (walk.advance children).2 = none) :
    (walk.advance children).1.pending = [] ∧ children ++ walk.pending = [] := by
  have htodo := @advance_todo walk children
  cases children with
  | cons child rest => simp [Walk.advance] at h
  | nil =>
    have hnone : (nextSibling walk.frontier).1 = none := h
    have hempty (frontier : List FrontierLevel) (h : (nextSibling frontier).1 = none) :
        (nextSibling frontier).2 = [] := by
      induction frontier with
      | nil => rfl
      | cons level above ih =>
        unfold nextSibling at h ⊢
        cases hget : level.children[level.next]? with
        | none =>
          rw [hget] at h
          exact ih h
        | some q => simp [hget] at h
    have hpending : (walk.advance []).1.pending = [] := by
      simp [Walk.advance, Walk.pending, hempty _ hnone]
    refine ⟨hpending, ?_⟩
    rw [← htodo, Walk.todo, h, hpending]
    rfl

/-- From a collection whose children are all known the walk goes on to the one that comes next in the order. -/
theorem OnCourse.step (h : OnCourse w walk (some c)) (hw : w.WellFormed) (hkids : Kids w c children)
    (hwhole : ∀ q, w.IsCollection q → q ≠ [] → parentOf q = c → q ∉ walk.visited → q ≠ c → q ∈ children)
    (hfrontier : walk'.pending = walk.pending) (hvisited : ∀ v ∈ walk'.visited, v = c ∨ v ∈ walk.visited)
    (hcursor : walk'.cursor = some c) :
    OnCourse w (walk'.advance children).1 (walk'.advance children).2 ∧
      w.ahead (some c) = c :: w.ahead (walk'.advance children).2 := by
  have hc : w.IsCollection c := h.member c (by simp [Walk.todo])
  have hahead : Ahead (names c :: walk.pending.map names) := h.ahead
  have hkeep : (walk'.advance children).1.visited = walk'.visited ∧ (walk'.advance children).1.cursor = walk'.cursor := by
    cases children <;> exact ⟨rfl, rfl⟩
  have htodo : (walk'.advance children).1.todo (walk'.advance children).2 = children ++ walk.pending := by
    rw [advance_todo, hfrontier]
  have hall : Ahead ((children ++ walk.pending).map names) := by
    rw [List.map_append]
    refine hahead.visit hkids.ahead (fun y hy => ?_)
    obtain ⟨q, hq, rfl⟩ := List.mem_map.mp hy
    exact (hkids.above hq).1
  have hlater : ∀ q ∈ children ++ walk.pending, names c < names q := by
    intro q hq
    refine hahead.later (fun y hy => ?_) (names q) (by rw [← List.map_append]; exact List.mem_map_of_mem hq)
    obtain ⟨x, hx, rfl⟩ := List.mem_map.mp hy
    exact hkids.above hx
  have hcovers : ∀ q, w.IsCollection q → names c < names q → ∃ x ∈ children ++ walk.pending, names x <+: names q := by
    intro q hq hlt
    obtain ⟨x, hx, hxq⟩ := h.covers c rfl q hq hlt.le
    rcases List.mem_cons.mp hx with rfl | hx
    · obtain ⟨y, hy, hne, hpar, hyq⟩ := child_on_the_way hw hq hxq (fun he => by simp [he] at hlt)
      have hxy : names x < names y := by
        obtain ⟨a, ha⟩ := names_of_child hy hne hpar
        rw [ha]
        exact lt_of_above ⟨[a], rfl⟩ (by simp)
      have hfresh : y ∉ walk.visited := fun hv =>
        absurd ((h.visited y hv x (by simp [Walk.todo])).trans hxy) (lt_irrefl _)
      exact ⟨y, List.mem_append_left _ (hwhole y hy hne hpar hfresh (fun he => by simp [he] at hxy)), hyq⟩
    · exact ⟨x, List.mem_append_right _ hx, hxq⟩
  have hnext : ∀ n ∈ (walk'.advance children).2, n ∈ children ++ walk.pending ∧
      ∀ x ∈ children ++ walk.pending, names n ≤ names x := by
    intro n hn
    obtain ⟨rest, hrest⟩ : ∃ rest, children ++ walk.pending = n :: rest := by
      rw [← htodo, Walk.todo, show (walk'.advance children).2 = some n from hn]
      exact ⟨_, rfl⟩
    rw [hrest] at hall ⊢
    refine ⟨List.mem_cons_self, fun x hx => ?_⟩
    rcases List.mem_cons.mp hx with rfl | hx
    · exact le_refl _
    · exact ((List.pairwise_cons.mp hall).1 _ (List.mem_map_of_mem hx)).lt.le
  refine ⟨⟨?_, ?_, ?_, ?_, ?_, fun hn => (advance_done hn).1⟩, ?_⟩
  · rw [htodo]
    exact hall
  · intro q hq
    rw [htodo] at hq
    rcases List.mem_append.mp hq with hq | hq
    · exact (hkids.member q hq).1
    · exact h.member q (by simp [Walk.todo, hq])
  · intro v hv q hq
    rw [hkeep.1] at hv
    rw [htodo] at hq
    rcases hvisited v hv with rfl | hv
    · exact hlater q hq
    · exact (h.visited v hv c (by simp [Walk.todo])).trans (hlater q hq)
  · intro n hn q hq hle
    rw [htodo]
    exact hcovers q hq ((hlater n (hnext n hn).1).trans_le hle)
  · intro k hk n hn
    rw [hkeep.2, hcursor] at hk
    obtain rfl : c = k := by simpa using hk
    exact (hlater n (hnext n hn).1).le
  · refine ahead_step hc (fun n hn => ⟨?_, hlater n (hnext n hn).1⟩) (fun q hq hlt => ?_)
    · rcases List.mem_append.mp (hnext n hn).1 with hm | hm
      · exact (hkids.member n hm).1
      · exact h.member n (by simp [Walk.todo, hm])
    · obtain ⟨x, hx, hxq⟩ := hcovers q hq hlt
      cases hcur : (walk'.advance children).2 with
      | none =>
        have hempty := (advance_done hcur).2
        rw [hfrontier] at hempty
        rw [hempty] at hx
        simp at hx
      | some n => exact ⟨n, rfl, ((hnext n hcur).2 x hx).trans (le_of_above hxq)⟩

end Advance

section Steps

variable {env : Env} {w : World} {walk : Walk} {c p : JsString}

theorem advance_clean {children : List JsString} : (walk.advance children).1.Clean ↔ walk.Clean := by
  cases children <;> exact Iff.rfl

theorem advance_truthful {children : List JsString} : (walk.advance children).1.Truthful w ↔ walk.Truthful w := by
  cases children <;> exact Iff.rfl

theorem reach_cursor (h : ∀ k ∈ walk.cursor, names k ≤ names c) : (walk.reach c).cursor = some c := by
  unfold Walk.reach
  cases hk : walk.cursor with
  | none => rfl
  | some k => exact if_pos ((sweepOrderCompare_nonneg_iff c k).mpr (h k hk))

/-- What a part of the walk does: it only reads, and what it gathers is true. -/
structure Surveys (w : World) (walk walk' : Walk) (es : List Event) (w' : World) : Prop where
  reads : w.Reads es w'
  truthful : walk.Truthful w → walk'.Truthful w

theorem step_run (env : Env) (walk : Walk) (c : JsString) (w : World) :
    ∃ walk' next es w', (env.step walk c).run w = (.ok (walk', next), w') ∧ Surveys w walk walk' es w' ∧
      (walk'.Clean → walk.Clean ∧ es = listingEvents [c] ∧ (w.WellFormed → OnCourse w walk (some c) →
        OnCourse w walk' next ∧ w.ahead (some c) = c :: w.ahead next ∧ walk'.cursor = some c)) ∧
      ((∀ n, env.answer n = .performs) → w.Usable → isValidInnerPath c = true → walk.Clean → walk'.Clean) := by
  obtain ⟨walk₁, children, es, w', hrun, hreads, hvisit, hperf⟩ := visit_run env (walk.mark c) c w
  obtain ⟨hvis, hfrontier, hcur⟩ := hvisit.kept
  refine ⟨((walk₁.reach c).advance children).1, ((walk₁.reach c).advance children).2, es, w', ?_, ⟨hreads, fun h => ?_⟩,
    fun hclean => ?_, fun h hu hv hc => advance_clean.mpr (hperf h hu hv hc)⟩
  · exact Act.run_bind_ok hrun
  · exact advance_truthful.mpr (hvisit.truthful h)
  · have hreach : (walk₁.reach c).Clean := advance_clean.mp hclean
    obtain ⟨hwalk, hes, hwhole⟩ := hvisit.clean hreach
    refine ⟨hwalk, hes, fun hw hcourse => ?_⟩
    have hcursor : (walk₁.reach c).cursor = some c := by
      apply reach_cursor
      rw [hcur]
      exact fun k hk => hcourse.cursor k hk c rfl
    have hpending : (walk₁.reach c).pending = walk.pending := by
      unfold Walk.pending
      rw [show (walk₁.reach c).frontier = walk₁.frontier from rfl, hfrontier]
      rfl
    have hstep := @OnCourse.step w walk (walk₁.reach c) c children hcourse hw hvisit.kids
      (fun q hq hne hpar hv hqc => hwhole q hq hne hpar (fun hm => (mem_mark.mp hm).elim hqc hv)) hpending
      (fun v hv => mem_mark.mp (hvis ▸ hv)) hcursor
    refine ⟨hstep.1, hstep.2, ?_⟩
    have hkeep : ((walk₁.reach c).advance children).1.cursor = (walk₁.reach c).cursor := by cases children <;> rfl
    rw [hkeep, hcursor]

theorem listingEvents_append (ps qs : List JsString) :
    listingEvents (ps ++ qs) = listingEvents qs ++ listingEvents ps := by
  induction ps with
  | nil => simp [listingEvents]
  | cons p ps ih => simp [listingEvents, ih]

/-- How far a walk with a budget gets in the order. -/
structure Sweeps (env : Env) (deadlineMs budget : ℕ) (w : World) (walk : Walk) (current : Option JsString)
    (walk' : Walk) (current' : Option JsString) (vs : List JsString) (w' : World) : Prop where
  course : OnCourse w walk' current'
  order : w.ahead current = vs ++ w.ahead current'
  within : vs.length ≤ budget
  spent : current' ≠ none → vs.length = budget ∨ ∃ n, w.calls ≤ n ∧ n < w'.calls ∧ deadlineMs ≤ env.clock n
  cursor : walk'.cursor = vs.getLast?.or walk.cursor

theorem sweep_run (env : Env) (deadlineMs budget : ℕ) (walk : Walk) (current : Option JsString) (w : World) :
    ∃ walk' current' es w', (env.sweep deadlineMs budget walk current).run w = (.ok (walk', current'), w') ∧
      Surveys w walk walk' es w' ∧
      (walk'.Clean → walk.Clean ∧ (w.WellFormed → OnCourse w walk current →
        ∃ vs, es = listingEvents vs ∧ Sweeps env deadlineMs budget w walk current walk' current' vs w')) ∧
      ((∀ n, env.answer n = .performs) → w.Usable → w.WellFormed → OnCourse w walk current → walk.Clean → walk'.Clean) := by
  induction budget generalizing walk current w with
  | zero =>
    refine ⟨walk, current, [], w, rfl, ⟨World.Reads.refl w, id⟩, fun hc => ⟨hc, fun _ h => ⟨[], rfl, h, rfl, le_refl _,
      fun _ => .inl rfl, rfl⟩⟩, fun _ _ _ _ => id⟩
  | succ budget ih =>
    cases current with
    | none =>
      refine ⟨walk, none, [], w, rfl, ⟨World.Reads.refl w, id⟩, fun hc => ⟨hc, fun _ h => ⟨[], rfl, h, rfl, Nat.zero_le _,
        fun h => absurd rfl h, rfl⟩⟩, fun _ _ _ _ => id⟩
    | some c =>
      by_cases hstop : deadlineMs ≤ env.clock w.calls
      · refine ⟨walk, some c, [], w.tick, ?_, ⟨World.Reads.of_tick w, id⟩, fun hc => ⟨hc, fun _ h => ⟨[], rfl, h, rfl,
          Nat.zero_le _, fun _ => .inr ⟨w.calls, le_refl _, Nat.lt_succ_self _, hstop⟩, rfl⟩⟩, fun _ _ _ _ => id⟩
        rw [Env.sweep, Act.run_bind_ok (show env.now.run w = (.ok (env.clock w.calls), w.tick) from rfl), if_pos hstop]
        rfl
      · obtain ⟨walk₁, next, es₁, w₁, hrun₁, hs₁, hclean₁, hperf₁⟩ := step_run env walk c w.tick
        obtain ⟨walk₂, last, es₂, w₂, hrun₂, hs₂, hclean₂, hperf₂⟩ := ih walk₁ next w₁
        have htick := World.Reads.of_tick w
        have hto := htick.trans hs₁.reads
        rw [List.append_nil] at hto
        refine ⟨walk₂, last, es₂ ++ es₁, w₂, ?_, ⟨hto.trans hs₂.reads, fun h => ?_⟩, fun hc => ?_, ?_⟩
        · rw [Env.sweep, Act.run_bind_ok (show env.now.run w = (.ok (env.clock w.calls), w.tick) from rfl),
            if_neg hstop, Act.run_bind_ok hrun₁]
          exact hrun₂
        · exact hto.truthful.mpr (hs₂.truthful (hto.truthful.mp (hs₁.truthful h)))
        · obtain ⟨hc₁, hrest⟩ := hclean₂ hc
          obtain ⟨hc₀, hes₁, hstep⟩ := hclean₁ hc₁
          refine ⟨hc₀, fun hw h => ?_⟩
          obtain ⟨hnext, hahead, hcursor⟩ := hstep hw (htick.onCourse.mp h)
          obtain ⟨vs, hes₂, hsweep⟩ := hrest (hto.wellFormed hw) (hto.onCourse.mp (htick.onCourse.mpr hnext))
          refine ⟨c :: vs, ?_, hto.onCourse.mpr hsweep.course, ?_, ?_, fun hlast => ?_, ?_⟩
          · rw [hes₁, hes₂, ← listingEvents_append, List.singleton_append]
          · have horder := hsweep.order
            rw [hto.ahead, hto.ahead] at horder
            rw [show w.ahead (some c) = c :: w.ahead next from hahead, horder, List.cons_append]
          · have hlen := hsweep.within
            rw [List.length_cons]
            omega
          · rcases hsweep.spent hlast with hlen | ⟨n, hn, hn', hd⟩
            · exact .inl (by rw [List.length_cons, hlen])
            · exact .inr ⟨n, hto.calls.trans hn, hn', hd⟩
          · rw [hsweep.cursor, hcursor]
            cases vs <;> simp [List.getLast?_cons]
        · intro hp hu hw h hc
          have hc₁ := hperf₁ hp hu (h.member c (by simp [Walk.todo])).1 hc
          obtain ⟨_, _, hstep⟩ := hclean₁ hc₁
          obtain ⟨hnext, _, _⟩ := hstep hw (htick.onCourse.mp h)
          refine hperf₂ hp (hto.usable hu) (hto.wellFormed hw) (hto.onCourse.mp (htick.onCourse.mpr hnext)) hc₁

end Steps

/-! ### The way back to a cursor -/

/-- The walk stands above its cursor `k` at `p`, with what lies to the right of the way down still to do. -/
structure Descends (w : World) (walk : Walk) (p k : JsString) : Prop where
  ahead : Ahead (names p :: walk.pending.map names)
  member : ∀ q ∈ walk.pending, w.IsCollection q
  visited : ∀ v ∈ walk.visited, names v < names p
  covers : ∀ q, w.IsCollection q → names k ≤ names q → ∃ x ∈ p :: walk.pending, names x <+: names q

section Resume

variable {env : Env} {w : World} {walk walk' : Walk} {p k child : JsString} {children : List JsString}

theorem descends_root (w : World) (k : JsString) : Descends w (.start (some k)) [] k :=
  ⟨List.pairwise_singleton _ _, by simp [Walk.start, Walk.pending], by simp [Walk.start],
    fun _ _ _ => ⟨[], List.mem_cons_self, List.nil_prefix⟩⟩

theorem Descends.onCourse (h : Descends w walk k k) (hk : w.IsCollection k) (hcursor : walk.cursor = some k) :
    OnCourse w walk (some k) := by
  refine ⟨h.ahead, ?_, fun v hv q hq => ?_, ?_, ?_, by simp⟩
  · intro q hq
    rcases List.mem_cons.mp hq with rfl | hq
    · exact hk
    · exact h.member q hq
  · rcases List.mem_cons.mp hq with rfl | hq
    · exact h.visited v hv
    · exact (h.visited v hv).trans ((List.pairwise_cons.mp h.ahead).1 _ (List.mem_map_of_mem hq)).lt
  · rintro c ⟨⟩ q hq hle
    exact h.covers q hq hle
  · rintro x hx c ⟨⟩
    rw [hcursor] at hx
    obtain rfl : k = x := by simpa using hx
    exact le_refl _

/-- One level down: the children left of the way are done with, those right of it wait. -/
theorem Descends.step (h : Descends w walk p k) (hw : w.WellFormed) (hpk : names p <+: names k) (hne : p ≠ k)
    (hkids : Kids w p children)
    (hwhole : ∀ q, w.IsCollection q → q ≠ [] → parentOf q = p → q ∉ walk.visited → q ≠ p → q ∈ children)
    (hchild : child ∈ children) (hck : names child <+: names k)
    (hpending : walk'.pending = children.drop (children.idxOf child + 1) ++ walk.pending)
    (hvisited : ∀ v ∈ walk'.visited, v = p ∨ v ∈ walk.visited) : Descends w walk' child k := by
  have hsplit := List.take_append_drop (children.idxOf child) children
  have hdrop : children.drop (children.idxOf child) = child :: children.drop (children.idxOf child + 1) := by
    rw [List.drop_eq_getElem_cons (List.idxOf_lt_length_iff.mpr hchild), List.getElem_idxOf]
  rw [hdrop] at hsplit
  generalize hleft : children.take (children.idxOf child) = left at hsplit
  generalize hright : children.drop (children.idxOf child + 1) = right at hsplit hpending
  have hall : Ahead ((children ++ walk.pending).map names) := by
    rw [List.map_append]
    refine h.ahead.visit hkids.ahead (fun y hy => ?_)
    obtain ⟨q, hq, rfl⟩ := List.mem_map.mp hy
    exact (hkids.above hq).1
  rw [← hsplit, List.append_assoc, List.map_append] at hall
  obtain ⟨_, hrest, hcross⟩ := List.pairwise_append.mp hall
  have hpc : names p < names child := lt_of_above (hkids.above hchild).1 (hkids.above hchild).2.symm
  refine ⟨?_, ?_, fun v hv => ?_, fun q hq hle => ?_⟩
  · rw [hpending]
    exact hrest
  · intro q hq
    rw [hpending, List.mem_append] at hq
    rcases hq with hq | hq
    · exact (hkids.member q (by rw [← hsplit]; simp [hq])).1
    · exact h.member q hq
  · rcases hvisited v hv with rfl | hv
    · exact hpc
    · exact (h.visited v hv).trans hpc
  · obtain ⟨x, hx, hxq⟩ := h.covers q hq hle
    rw [hpending]
    rcases List.mem_cons.mp hx with rfl | hx
    · have hxk : names x < names k := lt_of_above hpk (fun he => hne (names_injective he))
      obtain ⟨y, hy, hyne, hpar, hyq⟩ := child_on_the_way hw hq hxq (fun he => by
        rw [he] at hxk
        exact absurd hle (not_le.mpr hxk))
      have hxy : names x < names y := by
        obtain ⟨a, ha⟩ := names_of_child hy hyne hpar
        rw [ha]
        exact lt_of_above ⟨[a], rfl⟩ (by simp)
      have hfresh : y ∉ walk.visited := fun hv => absurd ((h.visited y hv).trans hxy) (lt_irrefl _)
      have hm := hwhole y hy hyne hpar hfresh (fun he => by simp [he] at hxy)
      rw [← hsplit, List.mem_append, List.mem_cons] at hm
      rcases hm with hm | rfl | hm
      · -- a child left of the way holds nothing at or after the cursor
        have hdiv : Diverges (names y) (names child) := hcross _ (List.mem_map_of_mem hm) _ (by simp)
        exact absurd hle (not_le.mpr (hdiv.extend hyq hck).lt)
      · exact ⟨y, List.mem_cons_self, hyq⟩
      · exact ⟨y, by simp [hm], hyq⟩
    · exact ⟨x, by simp [hx], hxq⟩

theorem isCollection_above {q : JsString} (hw : w.WellFormed) (hk : w.IsCollection k) (h : names q <+: names k) :
    w.IsCollection q := by
  refine ⟨valid_of_above hk.1 h, ?_⟩
  obtain ⟨s, hs⟩ := hk.2
  refine ⟨s, ?_⟩
  rcases names_prefix_iff.mp h with rfl | hb
  · exact hs
  · by_cases hq : q = []
    · simp [Tree.isDirectory, hq]
    · rw [Tree.isDirectory_iff] at hs ⊢
      have hheld : (w.tree s).content k = some none := hs.resolve_left hb.ne_nil
      exact .inr ((hw s).above (by simp [hheld]) hb hq)

theorem resumeLevels_run (env : Env) (segs : List JsString) (p : JsString) (walk : Walk) (w : World) :
    ∃ walk' b es w', (env.resumeLevels (p :: chainFrom p segs) walk).run w = (.ok (walk', b), w') ∧
      Surveys w walk walk' es w' ∧
      (walk'.Clean → walk.Clean ∧ (w.WellFormed → w.IsCollection k → names k = names p ++ segs → Descends w walk p k →
        b = true ∧ Descends w walk' k k ∧ walk'.cursor = walk.cursor ∧
          es = listingEvents (p :: chainFrom p segs).dropLast)) ∧
      ((∀ n, env.answer n = .performs) → w.Usable → w.WellFormed → w.IsCollection k → names k = names p ++ segs →
        Descends w walk p k → walk.Clean → walk'.Clean) := by
  induction segs generalizing p walk w with
  | nil =>
    refine ⟨walk, true, [], w, rfl, ⟨World.Reads.refl w, id⟩, fun hc => ⟨hc, fun _ _ hk h => ?_⟩, fun _ _ _ _ _ _ => id⟩
    obtain rfl : k = p := names_injective (by simpa using hk)
    exact ⟨rfl, h, rfl, rfl⟩
  | cons a segs ih =>
    obtain ⟨walk₁, children, es₁, w₁, hrun₁, hreads₁, hvisit, hperf₁⟩ := visit_run env (walk.mark p) p w
    obtain ⟨hvis, hfrontier, hcur⟩ := hvisit.kept
    have hpush : (walk₁.push ⟨children, children.idxOf (childPath p a) + 1⟩).pending =
        children.drop (children.idxOf (childPath p a) + 1) ++ walk.pending := by
      rw [pending_push]
      congr 1
      unfold Walk.pending
      rw [hfrontier]
      rfl
    -- what the clean visit shows of the way down
    have hdown (hclean : walk₁.Clean) (hw : w.WellFormed) (hk : w.IsCollection k) (hn : names k = names p ++ a :: segs)
        (h : Descends w walk p k) : names k = names (childPath p a) ++ segs ∧ childPath p a ∈ children ∧
        Descends w (walk₁.push ⟨children, children.idxOf (childPath p a) + 1⟩) (childPath p a) k := by
      have ha := usable_segments hk.1 a (by rw [hn]; simp)
      have hnames : names (childPath p a) = names p ++ [a] := names_childPath ha.1 ha.2
      have hpk : names p <+: names k := ⟨a :: segs, hn.symm⟩
      have hck : names (childPath p a) <+: names k := ⟨segs, by rw [hnames, hn]; simp⟩
      have hne : p ≠ k := by
        rintro rfl
        have hlen := congrArg List.length hn
        simp at hlen
      have hpc : names p < names (childPath p a) := by
        rw [hnames]
        exact lt_of_above ⟨[a], rfl⟩ (by simp)
      have hnil : childPath p a ≠ [] := by
        intro he
        rw [he] at hnames
        simp at hnames
      obtain ⟨_, _, hwhole⟩ := hvisit.clean hclean
      have hwhole' : ∀ q, w.IsCollection q → q ≠ [] → parentOf q = p → q ∉ walk.visited → q ≠ p → q ∈ children :=
        fun q hq hqn hpar hv hqp => hwhole q hq hqn hpar (fun hm => (mem_mark.mp hm).elim hqp hv)
      have hmem : childPath p a ∈ children := by
        refine hwhole' _ (isCollection_above hw hk hck) hnil (parentOf_childPath ha.2) (fun hv => ?_)
          (fun he => by simp [he] at hpc)
        exact absurd ((h.visited _ hv).trans hpc) (lt_irrefl _)
      refine ⟨by rw [hnames, hn]; simp, hmem, h.step hw hpk hne hvisit.kids hwhole' hmem hck hpush ?_⟩
      exact fun v hv => mem_mark.mp (hvis ▸ hv)
    by_cases hmem : childPath p a ∈ children
    · obtain ⟨walk₂, b, es₂, w₂, hrun₂, hs₂, hclean₂, hperf₂⟩ :=
        ih (childPath p a) (walk₁.push ⟨children, children.idxOf (childPath p a) + 1⟩) w₁
      have hmove {x : Walk} {y : JsString} : Descends w x y k ↔ Descends w₁ x y k := by
        constructor
        · exact fun h => ⟨h.ahead, fun q hq => (hreads₁.isCollection q).mpr (h.member q hq), h.visited,
            fun q hq => h.covers q ((hreads₁.isCollection q).mp hq)⟩
        · exact fun h => ⟨h.ahead, fun q hq => (hreads₁.isCollection q).mp (h.member q hq), h.visited,
            fun q hq => h.covers q ((hreads₁.isCollection q).mpr hq)⟩
      refine ⟨walk₂, b, es₂ ++ es₁, w₂, ?_, ⟨hreads₁.trans hs₂.reads, fun h => ?_⟩, fun hc => ?_, ?_⟩
      · rw [chainFrom, Env.resumeLevels, Act.run_bind_ok hrun₁]
        dsimp only
        rw [if_pos hmem]
        exact hrun₂
      · exact hreads₁.truthful.mpr (hs₂.truthful (hreads₁.truthful.mp (hvisit.truthful h)))
      · obtain ⟨hc₁, hrest⟩ := hclean₂ hc
        have hc₁' : walk₁.Clean := hc₁
        obtain ⟨hc₀, hes₁, _⟩ := hvisit.clean hc₁'
        refine ⟨hc₀, fun hw hk hn h => ?_⟩
        obtain ⟨hn', _, hdesc⟩ := hdown hc₁' hw hk hn h
        obtain ⟨hb, hlast, hcursor, hes₂⟩ := hrest (hreads₁.wellFormed hw) ((hreads₁.isCollection k).mpr hk) hn'
          (hmove.mp hdesc)
        refine ⟨hb, hmove.mpr hlast, hcursor.trans hcur, ?_⟩
        have hchain : (p :: chainFrom p (a :: segs)).dropLast =
            [p] ++ (childPath p a :: chainFrom (childPath p a) segs).dropLast := rfl
        rw [hes₁, hes₂, hchain, listingEvents_append]
      · intro hp hu hw hk hn h hc
        have hv : isValidInnerPath p = true := valid_of_above hk.1 ⟨a :: segs, hn.symm⟩
        have hc₁ := hperf₁ hp hu hv hc
        obtain ⟨hn', _, hdesc⟩ := hdown hc₁ hw hk hn h
        exact hperf₂ hp (hreads₁.usable hu) (hreads₁.wellFormed hw) ((hreads₁.isCollection k).mpr hk) hn'
          (hmove.mp hdesc) hc₁
    · refine ⟨walk₁.abandon, false, es₁, w₁, ?_, ⟨hreads₁, hvisit.truthful⟩, fun hc => ?_, ?_⟩
      · rw [chainFrom, Env.resumeLevels, Act.run_bind_ok hrun₁]
        dsimp only
        rw [if_neg hmem]
        rfl
      · have hc₁ : walk₁.Clean := hc
        obtain ⟨hc₀, _, _⟩ := hvisit.clean hc₁
        exact ⟨hc₀, fun hw hk hn h => absurd (hdown hc₁ hw hk hn h).2.1 hmem⟩
      · intro hp hu hw hk hn h hc
        have hv : isValidInnerPath p = true := valid_of_above hk.1 ⟨a :: segs, hn.symm⟩
        have hc₁ : walk₁.Clean := hperf₁ hp hu hv hc
        exact hc₁

end Resume

end DurableDav.Replication
