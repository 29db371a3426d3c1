import DurableDav.Replication.SlicedSweep

namespace DurableDav.Replication

open Library

def Walk.index (walk : Walk) : Side → Store JsString PlanSide
  | .localSide => walk.localByPath
  | .remoteSide => walk.remoteByPath

def CollectionListing.side (l : CollectionListing) : Side → List PlanSide
  | .localSide => l.localEntries
  | .remoteSide => l.remoteEntries

/-- A listing of the collection on one side was refused or cut short. -/
def Missed (s : Side) (p : JsString) (es : List Event) : Prop :=
  .rejected (.list s p) ∈ es ∨ .cut (.list s p) ∈ es

theorem Missed.mono {s : Side} {p : JsString} {es es' : List Event} (h : Missed s p es) (hes : ∀ e ∈ es, e ∈ es') :
    Missed s p es' := h.imp (hes _) (hes _)

/-! ### What a listing shows of each side -/

/-- What the listing of one side told, unless it failed. -/
def Answered (w : World) (s : Side) (p : JsString) (e : Event) (r : Except JsString ReplicaListing) : Prop :=
  (∀ x ∈ heardEntries r, (w.tree s).EntryAt p x ∧ isValidInnerPath x.path = true) ∧
    (isValidInnerPath p = true → ¬ Missed s p [e] → e = .answered (.list s p) ∧
      (∀ q, q ≠ [] → parentOf q = p → isValidInnerPath q = true →
        ∀ x, (w.tree s).describe q = some x → x ∈ heardEntries r) ∧
      ((∀ q, (w.tree s).content q ≠ none → isValidInnerPath q = true) →
        ∃ a, r = .ok a ∧ a.complete = true ∧ ∀ x ∈ a.entries, isValidInnerPath x.path = true))

section Listing

variable {env : Env} {w : World} {p : JsString} {s : Side}

theorem answered_of_heard {e : Event} {r : Except JsString ReplicaListing} (h : Heard w s p e r)
    (hcomplete : isValidInnerPath p = true → ¬ Missed s p [e] →
      e = .answered (.list s p) ∧ ∃ l, r = .ok l ∧ l.complete = true) : Answered w s p e r := by
  refine ⟨fun x hx => ?_, fun hv hok => ⟨(hcomplete hv hok).1, fun q hq hpar hvq x hx => ?_, fun husable => ?_⟩⟩
  · obtain ⟨l, rfl, hm, hvalid⟩ := mem_heardEntries.mp hx
    exact ⟨h.1 x hm, hvalid⟩
  · obtain ⟨_, l, rfl, hl⟩ := hcomplete hv hok
    have hpath := describe_path hx
    exact mem_heardEntries.mpr ⟨l, rfl, (h.2 hl).2 q hq hpar hvq x hx, by rw [hpath]; exact hvq⟩
  · obtain ⟨_, l, rfl, hl⟩ := hcomplete hv hok
    exact ⟨l, rfl, hl, fun x hx => husable _ (held_of_describe (h.1 x hx).1)⟩

theorem note_injective {w : World} {e e' : Event} (h : w.note e = w.note e') : e = e' := by
  have hlog := congrArg World.log h
  exact (List.cons.inj hlog).1

/-- A usable path is listed as the call is answered. -/
theorem listSide_eq (env : Env) (s : Side) (w : World) (hv : isValidInnerPath p = true) :
    ∃ entries, (env.listSide s p).attempt.run w = match env.answer w.calls with
      | .rejects reason => (.ok (.error reason), w.tick.note (.rejected (.list s p)))
      | a => (.ok (.ok (a.trim entries)), w.tick.note ((Call.list s p).outcome a)) := by
  cases s with
  | localSide =>
    refine ⟨w.localTree.selfEntry p ++ (w.localTree.childEntries p).filter (fun e => isValidInnerPath e.path), ?_⟩
    simp only [Env.listSide, Env.listReplicaChildren, Act.run_attempt, Env.call]
    cases ha : env.answer w.calls with
    | rejects reason => rfl
    | performs | blank | cut keep =>
      simp only [run_carryOut, Act.run_bind, Act.run_read, hv]
      rfl
  | remoteSide =>
    refine ⟨if env.sibling then (w.remoteTree.childEntries p).filter (fun e => isValidInnerPath e.path)
      else w.remoteTree.selfEntry p ++ w.remoteTree.childEntries p, ?_⟩
    simp only [Env.listSide, Env.list, Act.run_attempt, Env.call]
    cases ha : env.answer w.calls with
    | rejects reason => rfl
    | performs | blank | cut keep =>
      simp only [run_carryOut, Act.run_bind, Act.run_read]
      cases hs : env.sibling <;> rfl

/-- The note of a listing that is no fault is one of a complete answer. -/
theorem listSide_complete {r : Except JsString ReplicaListing} {e : Event}
    (h : (env.listSide s p).attempt.run w = (.ok r, w.tick.note e)) (hv : isValidInnerPath p = true)
    (hok : ¬ Missed s p [e]) : e = .answered (.list s p) ∧ ∃ l, r = .ok l ∧ l.complete = true := by
  obtain ⟨entries, hrun⟩ := listSide_eq env s w hv
  rw [h] at hrun
  cases ha : env.answer w.calls with
  | rejects reason =>
    rw [ha] at hrun
    have he := note_injective (congrArg Prod.snd hrun)
    exact absurd (.inl (by rw [he]; exact List.mem_singleton_self _)) hok
  | cut keep =>
    rw [ha] at hrun
    have he := note_injective (congrArg Prod.snd hrun)
    exact absurd (.inr (by rw [he]; exact List.mem_singleton_self _)) hok
  | performs | blank =>
    rw [ha] at hrun
    exact ⟨note_injective (congrArg Prod.snd hrun), _, by simpa using congrArg Prod.fst hrun, rfl⟩

theorem listSide_answered (env : Env) (s : Side) (p : JsString) (w : World) :
    ∃ r e, (env.listSide s p).attempt.run w = (.ok r, w.tick.note e) ∧ Answered w s p e r := by
  obtain ⟨r, e, hrun, hheard, _⟩ := listSide_run env s p w
  exact ⟨r, e, hrun, answered_of_heard hheard (listSide_complete hrun)⟩

/-- What reading a collection on both sides shows of each of them. -/
structure ShownOn (w : World) (p : JsString) (l : CollectionListing) (es : List Event) : Prop where
  entry : ∀ s, ∀ x ∈ l.side s, (w.tree s).EntryAt p x ∧ isValidInnerPath x.path = true
  whole : isValidInnerPath p = true → ∀ s, ¬ Missed s p es → .answered (.list s p) ∈ es ∧ ∀ q, q ≠ [] →
    parentOf q = p → isValidInnerPath q = true → ∀ x, (w.tree s).describe q = some x → x ∈ l.side s
  clean : isValidInnerPath p = true → w.Usable → (∀ s, ¬ Missed s p es) → l.Clean

theorem listCollection_shows (env : Env) (p : JsString) (w : World) :
    ∃ l es w', (env.listCollection p).run w = (.ok l, w') ∧ w.Reads es w' ∧ ShownOn w p l es := by
  obtain ⟨x, e₁, hx, hheard₁⟩ := listSide_answered env .localSide p w
  obtain ⟨y, e₂, hy, hheard₂⟩ := listSide_answered env .remoteSide p (w.tick.note e₁)
  have hfirst : w.Reads [e₁] (w.tick.note e₁) := World.Reads.of_call w e₁
  have hsame : (w.tick.note e₁).tree .remoteSide = w.tree .remoteSide := hfirst.tree .remoteSide
  unfold Answered at hheard₂
  rw [hsame] at hheard₂
  refine ⟨bothHeard p x y, [e₂, e₁], _, ?_, hfirst.trans (World.Reads.of_call _ e₂), ?_, ?_, ?_⟩
  · unfold Env.listCollection
    rw [Act.run_bind_ok (show (env.listReplicaChildren p).attempt.run w = (.ok x, _) from hx),
      Act.run_bind_ok (show (env.list p).attempt.run _ = (.ok y, _) from hy)]
    rfl
  · intro s e he
    cases s with
    | localSide => exact hheard₁.1 e (by rwa [CollectionListing.side, bothHeard_local] at he)
    | remoteSide => exact hheard₂.1 e (by rwa [CollectionListing.side, bothHeard_remote] at he)
  · intro hv s hok
    cases s with
    | localSide =>
      rw [CollectionListing.side, bothHeard_local]
      obtain ⟨rfl, hall, _⟩ := hheard₁.2 hv (fun h => hok (h.mono (by simp)))
      exact ⟨by simp, hall⟩
    | remoteSide =>
      rw [CollectionListing.side, bothHeard_remote]
      obtain ⟨rfl, hall, _⟩ := hheard₂.2 hv (fun h => hok (h.mono (by simp)))
      exact ⟨by simp, hall⟩
  · intro hv husable hok
    obtain ⟨_, _, hlocal⟩ := hheard₁.2 hv (fun h => hok _ (h.mono (by simp)))
    obtain ⟨_, _, hremote⟩ := hheard₂.2 hv (fun h => hok _ (h.mono (by simp)))
    exact clean_bothHeard.mpr ⟨hlocal (husable .localSide), hremote (husable .remoteSide)⟩

end Listing

/-! ### What a walk has gathered -/

/-- The views hold what the visited collections show, and each of them was come to from the one above. -/
structure Walk.Gathered (w : World) (es : List Event) (walk : Walk) : Prop where
  entry : ∀ s q e, Store.get (walk.index s) q = some e →
    (w.tree s).describe q = some e ∧ isValidInnerPath q = true ∧ parentOf q ∈ walk.visited
  whole : ∀ s q, q ≠ [] → parentOf q ∈ walk.visited → isValidInnerPath q = true → ¬ Missed s (parentOf q) es →
    (w.tree s).content q ≠ none → (Store.get (walk.index s) q).isSome
  closed : ∀ q ∈ walk.visited, parentOf q ∈ walk.visited
  told : ∀ q ∈ walk.visited, ∀ s, ¬ Missed s q es → .answered (.list s q) ∈ es
  keyed : ∀ s, ∀ x ∈ walk.index s, x.2.path = x.1
  clean : w.Usable → (∀ q ∈ walk.visited, ∀ s, ¬ Missed s q es) → walk.Clean

theorem Walk.Gathered.congr {w : World} {es : List Event} {walk walk' : Walk} (h : walk.Gathered w es)
    (hvisited : walk'.visited = walk.visited) (hindex : walk'.index = walk.index) (hclean : walk.Clean → walk'.Clean) :
    walk'.Gathered w es := by
  refine ⟨?_, ?_, ?_, ?_, ?_, ?_⟩
  · rw [hvisited, hindex]
    exact h.entry
  · rw [hvisited, hindex]
    exact h.whole
  · rw [hvisited]
    exact h.closed
  · rw [hvisited]
    exact h.told
  · rw [hindex]
    exact h.keyed
  · rw [hvisited]
    exact fun husable hok => hclean (h.clean husable hok)

/-- What is still to do was found in a visited collection. -/
def Walk.Found (walk : Walk) (current : Option JsString) : Prop :=
  ∀ q ∈ walk.todo current, isValidInnerPath q = true ∧ (q = [] ∨ parentOf q ∈ walk.visited)

/-- Every collection in this one is shown by a side that answers. -/
def Seen (w : World) (es : List Event) (p : JsString) : Prop :=
  ∀ q, w.IsCollection q → q ≠ [] → parentOf q = p → ∃ s, (w.tree s).isDirectory q = true ∧ ¬ Missed s p es

theorem Seen.anti {w : World} {es es' : List Event} {p : JsString} (h : Seen w es p) (hes : ∀ e ∈ es', e ∈ es) :
    Seen w es' p := by
  intro q hq hne hpar
  obtain ⟨s, hs, hok⟩ := h q hq hne hpar
  exact ⟨s, hs, fun hm => hok (hm.mono hes)⟩

section Gathering

variable {env : Env} {w w' : World} {walk walk' : Walk} {es : List Event} {p c : JsString}

theorem get_setAll_keeps {index : Store JsString PlanSide} {q : JsString} (entries : List PlanSide)
    (h : (Store.get index q).isSome) : (Store.get (setAll index entries) q).isSome := by
  induction entries generalizing index with
  | nil => exact h
  | cons x xs ih =>
    apply ih
    rw [Store.get_put]
    split
    · rfl
    · exact h

theorem get_setAll_mem {index : Store JsString PlanSide} {entries : List PlanSide} {e : PlanSide} (h : e ∈ entries) :
    (Store.get (setAll index entries) e.path).isSome := by
  induction entries generalizing index with
  | nil => simp at h
  | cons x xs ih =>
    rcases List.mem_cons.mp h with rfl | h
    · have hput : (Store.get (Store.put index e.path e) e.path).isSome := by simp
      exact get_setAll_keeps xs hput
    · exact ih h

theorem setAll_keyed {index : Store JsString PlanSide} (entries : List PlanSide) (h : ∀ x ∈ index, x.2.path = x.1) :
    ∀ x ∈ setAll index entries, x.2.path = x.1 := by
  induction entries generalizing index with
  | nil => exact h
  | cons e es ih =>
    apply ih
    intro x hx
    rcases List.mem_cons.mp hx with rfl | hx
    · rfl
    · exact h x (List.mem_of_mem_filter hx)

/-- One visit: what the walk gathers, and the collections it finds. -/
structure Finds (w : World) (p : JsString) (walk walk' : Walk) (children : List JsString) (es : List Event) : Prop where
  gathered : ∀ old, walk.Gathered w old → (p = [] ∨ parentOf p ∈ walk.visited) → walk'.Gathered w (es ++ old)
  kept : walk'.visited = (walk.mark p).visited ∧ walk'.frontier = walk.frontier ∧ walk'.cursor = walk.cursor
  kids : Kids w p children
  whole : Seen w es p → ∀ q, w.IsCollection q → q ≠ [] → parentOf q = p → q ∉ walk.visited → q ∈ children

theorem visit_finds (env : Env) (walk : Walk) (w : World) (hv : isValidInnerPath p = true) :
    ∃ walk' children es w', (env.visit (walk.mark p) p).run w = (.ok (walk', children), w') ∧ w.Reads es w' ∧
      Finds w p walk walk' children es := by
  obtain ⟨l, es, w', hrun, hreads, hl⟩ := listCollection_shows env p w
  have hside (s : Side) : ((walk.mark p).see l).index s = setAll (walk.index s) (l.side s) := by cases s <;> rfl
  have hmarked : p ∈ (walk.mark p).visited := mem_mark.mpr (.inl rfl)
  have hentry {e : PlanSide} (he : e ∈ l.entries) : ∃ s, (w.tree s).EntryAt p e ∧ isValidInnerPath e.path = true := by
    rcases List.mem_append.mp he with he | he
    · exact ⟨.localSide, hl.entry .localSide e he⟩
    · exact ⟨.remoteSide, hl.entry .remoteSide e he⟩
  refine ⟨(walk.mark p).see l, l.children p (walk.mark p).visited, es, w', Act.run_bind_ok hrun, hreads,
    ⟨fun old h hp => ⟨fun s q e he => ?_, fun s q hq hpar hvq hok hheld => ?_, fun q hq => ?_, fun q hq s hok => ?_,
      fun s => hside s ▸ setAll_keyed (l.side s) (h.keyed s), fun husable hok => ?_⟩,
    ⟨rfl, rfl, rfl⟩, ⟨fun q hq => ?_, sweepSort_pairwise (List.nodup_dedup _)⟩, fun hseen q hq hne hpar hfresh => ?_⟩⟩
  · rw [hside] at he
    rcases get_setAll he with he | ⟨hm, rfl⟩
    · obtain ⟨hd, hvq, hpar⟩ := h.entry s q e he
      exact ⟨hd, hvq, mem_mark.mpr (.inr hpar)⟩
    · obtain ⟨hshown, hvq⟩ := hl.entry s e hm
      refine ⟨hshown.1, hvq, ?_⟩
      rcases hshown.2 with he | ⟨_, he⟩
      · rw [he]
        rcases hp with rfl | hp
        · exact hmarked
        · exact mem_mark.mpr (.inr hp)
      · rw [he]
        exact hmarked
  · rw [hside]
    obtain ⟨a, ha⟩ := Option.ne_none_iff_exists'.mp hheld
    obtain ⟨e, he, hpath⟩ := describe_of_content ha
    by_cases hqp : parentOf q = p
    · have hm := (hl.whole hv s (fun hm => hok (hqp ▸ hm.mono (fun _ => List.mem_append_left _)))).2 q hq hqp hvq e he
      exact hpath ▸ get_setAll_mem hm
    · have hold : parentOf q ∈ walk.visited := (mem_mark.mp hpar).resolve_left hqp
      apply get_setAll_keeps
      exact h.whole s q hq hold hvq (fun hm => hok (hm.mono (fun _ => List.mem_append_right _))) hheld
  · rcases mem_mark.mp hq with rfl | hq
    · rcases hp with rfl | hp
      · exact hmarked
      · exact mem_mark.mpr (.inr hp)
    · exact mem_mark.mpr (.inr (h.closed q hq))
  · rw [List.mem_append]
    rcases mem_mark.mp hq with rfl | hq
    · exact .inl (hl.whole hv s (fun hm => hok (hm.mono (fun _ => List.mem_append_left _)))).1
    · exact .inr (h.told q hq s (fun hm => hok (hm.mono (fun _ => List.mem_append_right _))))
  · have hold : walk.Clean := h.clean husable
      (fun q hq s hm => hok q (mem_mark.mpr (.inr hq)) s (hm.mono (fun _ => List.mem_append_right _)))
    have hnew : l.Clean := hl.clean hv husable (fun s hm => hok p hmarked s (hm.mono (fun _ => List.mem_append_left _)))
    exact see_clean.mpr ⟨hold, hnew⟩
  · obtain ⟨hqp, _, e, he, hc, rfl⟩ := mem_children.mp hq
    obtain ⟨s, hs, hvq⟩ := hentry he
    rcases hs.2 with he | ⟨hne, hpar⟩
    · exact absurd he hqp
    · exact ⟨⟨hvq, s, entryAt_collection hs hc⟩, hne, hpar⟩
  · obtain ⟨s, hs, hok⟩ := hseen q hq hne hpar
    have hcontent := (Tree.isDirectory_iff.mp hs).resolve_left hne
    obtain ⟨r, hr, hbytes⟩ := Option.map_eq_some_iff.mp hcontent
    have hd : (w.tree s).describe q = some (r.entry q) := by simp [Tree.describe, hr]
    have hself : q ≠ p := by
      rintro rfl
      have hlt : (parentOf q).length < q.length := parentSegments_length_lt hne
      rw [hpar] at hlt
      exact absurd hlt (lt_irrefl _)
    have hm := (hl.whole hv s hok).2 q hne hpar hq.1 _ hd
    refine mem_children.mpr ⟨hself, fun h => (mem_mark.mp h).elim hself hfresh, r.entry q, ?_, ?_, rfl⟩
    · cases s with
      | localSide => exact List.mem_append_left _ hm
      | remoteSide => exact List.mem_append_right _ hm
    · simp [Resource.entry, Resource.isCollection, hbytes]

theorem World.Reads.gathered {es' : List Event} (h : w.Reads es' w') : walk.Gathered w es ↔ walk.Gathered w' es := by
  constructor
  · exact fun hg => ⟨fun s => h.tree s ▸ hg.entry s, fun s => h.tree s ▸ hg.whole s, hg.closed, hg.told, hg.keyed,
      fun hu => hg.clean (fun s => h.tree s ▸ hu s)⟩
  · exact fun hg => ⟨fun s => h.tree s ▸ hg.entry s, fun s => h.tree s ▸ hg.whole s, hg.closed, hg.told, hg.keyed,
      fun hu => hg.clean (h.usable hu)⟩

theorem World.Reads.seen {es' : List Event} (h : w.Reads es' w') : Seen w es p ↔ Seen w' es p := by
  simp only [Seen, h.isCollection, h.tree]

/-- One step of the walk. -/
structure Steps (w : World) (c : JsString) (walk walk' : Walk) (next : Option JsString) (es : List Event) : Prop where
  visited : walk'.visited = (walk.mark c).visited
  gathered : ∀ old, walk.Gathered w old → walk.Found (some c) → walk'.Gathered w (es ++ old) ∧ walk'.Found next
  course : w.WellFormed → OnCourse w walk (some c) → Seen w es c →
    OnCourse w walk' next ∧ w.ahead (some c) = c :: w.ahead next ∧ walk'.cursor = some c

theorem step_finds (env : Env) (walk : Walk) (w : World) (hv : isValidInnerPath c = true) :
    ∃ walk' next es w', (env.step walk c).run w = (.ok (walk', next), w') ∧ w.Reads es w' ∧
      Steps w c walk walk' next es := by
  obtain ⟨walk₁, children, es, w', hrun, hreads, hfinds⟩ := visit_finds env walk w hv
  obtain ⟨hvis, hfrontier, hcur⟩ := hfinds.kept
  have hkeep : ((walk₁.reach c).advance children).1.visited = walk₁.visited ∧
      ((walk₁.reach c).advance children).1.index = walk₁.index ∧
      (walk₁.Clean → ((walk₁.reach c).advance children).1.Clean) ∧
      ((walk₁.reach c).advance children).1.cursor = (walk₁.reach c).cursor := by
    cases children <;> exact ⟨rfl, rfl, id, rfl⟩
  have hpending : (walk₁.reach c).pending = walk.pending := by
    unfold Walk.pending
    rw [show (walk₁.reach c).frontier = walk₁.frontier from rfl, hfrontier]
  refine ⟨((walk₁.reach c).advance children).1, ((walk₁.reach c).advance children).2, es, w', Act.run_bind_ok hrun,
    hreads, hkeep.1.trans hvis, fun old hg hf => ?_, fun hw hcourse hseen => ?_⟩
  · have hg' := hfinds.gathered old hg (hf c (by simp [Walk.todo])).2
    refine ⟨hg'.congr hkeep.1 hkeep.2.1 hkeep.2.2.1, fun q hq => ?_⟩
    rw [advance_todo, hpending, List.mem_append] at hq
    rw [hkeep.1, hvis]
    rcases hq with hq | hq
    · obtain ⟨hcoll, _, hpar⟩ := hfinds.kids.member q hq
      exact ⟨hcoll.1, .inr (mem_mark.mpr (.inl hpar))⟩
    · obtain ⟨hvq, hq⟩ := hf q (List.mem_append_right _ hq)
      exact ⟨hvq, hq.imp_right (fun h => mem_mark.mpr (.inr h))⟩
  · have hcursor : (walk₁.reach c).cursor = some c := by
      apply reach_cursor
      rw [hcur]
      exact fun k hk => hcourse.cursor k hk c rfl
    obtain ⟨hnext, hahead⟩ := @OnCourse.step w walk (walk₁.reach c) c children hcourse hw hfinds.kids
      (fun q hq hne hpar hfresh _ => hfinds.whole hseen q hq hne hpar hfresh) hpending
      (fun v hv => mem_mark.mp (hvis ▸ hv)) hcursor
    exact ⟨hnext, hahead, hkeep.2.2.2.trans hcursor⟩

theorem sweeps_stop {env : Env} {deadlineMs budget : ℕ} {current : Option JsString}
    (hspent : current ≠ none → 0 = budget ∨ ∃ n, w.calls ≤ n ∧ n < w'.calls ∧ deadlineMs ≤ env.clock n)
    (h : OnCourse w walk current) : ∃ vs : List JsString, (∀ q, q ∈ walk.visited ↔ q ∈ walk.visited ∨ q ∈ vs) ∧
      Sweeps env deadlineMs budget w walk current walk current vs w' :=
  ⟨[], fun q => by simp, h, rfl, Nat.zero_le _, hspent, rfl⟩

theorem sweep_finds (env : Env) (deadlineMs budget : ℕ) (walk : Walk) (current : Option JsString) (w : World)
    {old : List Event} (hg : walk.Gathered w old) (hf : walk.Found current) :
    ∃ walk' current' es w', (env.sweep deadlineMs budget walk current).run w = (.ok (walk', current'), w') ∧
      w.Reads es w' ∧ walk'.Gathered w (es ++ old) ∧ walk'.Found current' ∧
      (w.WellFormed → OnCourse w walk current → (∀ p, w.IsCollection p → Seen w es p) →
        ∃ vs, (∀ q, q ∈ walk'.visited ↔ q ∈ walk.visited ∨ q ∈ vs) ∧
          Sweeps env deadlineMs budget w walk current walk' current' vs w') := by
  induction budget generalizing walk current w old with
  | zero =>
    exact ⟨walk, current, [], w, rfl, World.Reads.refl w, hg, hf,
      fun _ h _ => sweeps_stop (fun _ => .inl rfl) h⟩
  | succ budget ih =>
    cases current with
    | none =>
      exact ⟨walk, none, [], w, rfl, World.Reads.refl w, hg, hf,
        fun _ h _ => sweeps_stop (fun hne => absurd rfl hne) h⟩
    | some c =>
      by_cases hlate : deadlineMs ≤ env.clock w.calls
      · refine ⟨walk, some c, [], w.tick, ?_, World.Reads.of_tick w, hg, hf, fun _ h _ =>
          sweeps_stop (fun _ => .inr ⟨w.calls, le_refl _, Nat.lt_succ_self _, hlate⟩) h⟩
        rw [Env.sweep, Act.run_bind_ok (show env.now.run w = (.ok (env.clock w.calls), w.tick) from rfl), if_pos hlate]
        rfl
      · have htick := World.Reads.of_tick w
        obtain ⟨walk₁, next, es₁, w₁, hrun₁, hreads₁, hstep⟩ :=
          step_finds env walk w.tick (hf c (by simp [Walk.todo])).1
        obtain ⟨hg₁, hf₁⟩ := hstep.gathered old (htick.gathered.mp hg) hf
        have hto := htick.trans hreads₁
        rw [List.append_nil] at hto
        have hback := hto.gathered.mp (htick.gathered.mpr hg₁)
        obtain ⟨walk₂, last, es₂, w₂, hrun₂, hreads₂, hg₂, hf₂, hrest⟩ := ih walk₁ next w₁ hback hf₁
        refine ⟨walk₂, last, es₂ ++ es₁, w₂, ?_, hto.trans hreads₂, ?_, hf₂, fun hw h hseen => ?_⟩
        · rw [Env.sweep, Act.run_bind_ok (show env.now.run w = (.ok (env.clock w.calls), w.tick) from rfl),
            if_neg hlate, Act.run_bind_ok hrun₁]
          exact hrun₂
        · rw [List.append_assoc]
          exact hto.gathered.mpr hg₂
        · have hc := h.member c (by simp [Walk.todo])
          obtain ⟨hnext, hahead, hcursor⟩ := hstep.course (htick.wellFormed hw) (htick.onCourse.mp h)
            (htick.seen.mp ((hseen c hc).anti (fun _ => List.mem_append_right _)))
          obtain ⟨vs, hvisited, hsweep⟩ := hrest (hto.wellFormed hw) (hto.onCourse.mp (htick.onCourse.mpr hnext))
            (fun p hp => hto.seen.mp ((hseen p ((hto.isCollection p).mp hp)).anti (fun _ => List.mem_append_left _)))
          refine ⟨c :: vs, fun q => ?_, hto.onCourse.mpr hsweep.course, ?_, ?_, fun hlast => ?_, ?_⟩
          · rw [hvisited, hstep.visited, mem_mark, List.mem_cons]
            exact ⟨fun h => h.elim (fun h => h.elim (fun h => .inr (.inl h)) .inl) (fun h => .inr (.inr h)),
              fun h => h.elim (fun h => .inl (.inr h)) (fun h => h.elim (fun h => .inl (.inl h)) .inr)⟩
          · have horder := hsweep.order
            rw [hto.ahead, hto.ahead] at horder
            rw [show w.ahead (some c) = c :: w.ahead next from hahead, horder, List.cons_append]
          · have hlen := hsweep.within
            rw [List.length_cons]
            omega
          · rcases hsweep.spent hlast with hlen | ⟨n, hn, hn', hd⟩
            · exact .inl (by rw [List.length_cons, hlen])
            · exact .inr ⟨n, hto.calls.trans hn, hn', hd⟩
          · rw [hsweep.cursor, hcursor]
            cases vs <;> simp [List.getLast?_cons]

/-- What waits while the walk goes down to its cursor. -/
def Walk.Waits (walk : Walk) : Prop :=
  ∀ q ∈ walk.pending, isValidInnerPath q = true ∧ (q = [] ∨ parentOf q ∈ walk.visited)

theorem resumeLevels_finds (env : Env) {k : JsString} (segs : List JsString) (p : JsString) (walk : Walk) (w : World)
    {old : List Event} (hk : isValidInnerPath k = true) (hn : names k = names p ++ segs) (hg : walk.Gathered w old)
    (hp : p = [] ∨ parentOf p ∈ walk.visited) (hwaits : walk.Waits) :
    ∃ walk' b es w', (env.resumeLevels (p :: chainFrom p segs) walk).run w = (.ok (walk', b), w') ∧ w.Reads es w' ∧
      walk'.Gathered w (es ++ old) ∧ (b = true → walk'.Found (some k)) ∧ (b = false → walk'.frontier = []) ∧
      (w.WellFormed → w.IsCollection k → (∀ p, w.IsCollection p → Seen w es p) → Descends w walk p k →
        b = true ∧ Descends w walk' k k ∧ walk'.cursor = walk.cursor ∧
          ∀ q, q ∈ walk'.visited ↔ q ∈ walk.visited ∨ q ∈ (p :: chainFrom p segs).dropLast) := by
  induction segs generalizing p walk w old with
  | nil =>
    obtain rfl : k = p := names_injective (by simpa using hn)
    refine ⟨walk, true, [], w, rfl, World.Reads.refl w, hg, fun _ q hq => ?_, by simp,
      fun _ _ _ h => ⟨rfl, h, rfl, ?_⟩⟩
    · rcases List.mem_cons.mp hq with rfl | hq
      · exact ⟨hk, hp⟩
      · exact hwaits q hq
    · intro q
      simp [chainFrom]
  | cons a segs ih =>
    have ha := usable_segments hk a (by rw [hn]; simp)
    have hpk : names p <+: names k := ⟨a :: segs, hn.symm⟩
    have hnames : names (childPath p a) = names p ++ [a] := names_childPath ha.1 ha.2
    have hn' : names k = names (childPath p a) ++ segs := by rw [hnames, hn]; simp
    obtain ⟨walk₁, children, es₁, w₁, hrun₁, hreads₁, hfinds⟩ := visit_finds env walk w (valid_of_above hk hpk)
    obtain ⟨hvis, hfrontier, hcur⟩ := hfinds.kept
    have hg₁ := hfinds.gathered old hg hp
    have hdropped : ∀ q ∈ children.drop (children.idxOf (childPath p a) + 1), q ∈ children := fun q => List.mem_of_mem_drop
    have hpush : (walk₁.push ⟨children, children.idxOf (childPath p a) + 1⟩).pending =
        children.drop (children.idxOf (childPath p a) + 1) ++ walk.pending := by
      rw [pending_push]
      congr 1
      unfold Walk.pending
      rw [hfrontier]
    by_cases hmem : childPath p a ∈ children
    · have hwaits' : (walk₁.push ⟨children, children.idxOf (childPath p a) + 1⟩).Waits := by
        intro q hq
        rw [hpush, List.mem_append] at hq
        rw [show (walk₁.push ⟨children, children.idxOf (childPath p a) + 1⟩).visited = walk₁.visited from rfl, hvis]
        rcases hq with hq | hq
        · obtain ⟨hcoll, _, hpar⟩ := hfinds.kids.member q (hdropped q hq)
          exact ⟨hcoll.1, .inr (mem_mark.mpr (.inl hpar))⟩
        · exact (hwaits q hq).imp_right (Or.imp_right (fun h => mem_mark.mpr (.inr h)))
      obtain ⟨walk₂, b, es₂, w₂, hrun₂, hreads₂, hg₂, hf₂, hback₂, hdown₂⟩ :=
        ih (childPath p a) (walk₁.push ⟨children, children.idxOf (childPath p a) + 1⟩) w₁ hn'
          (hreads₁.gathered.mp (hg₁.congr rfl rfl id))
          (.inr (by rw [parentOf_childPath ha.2]; exact (hvis ▸ mem_mark.mpr (.inl rfl) : p ∈ walk₁.visited))) hwaits'
      refine ⟨walk₂, b, es₂ ++ es₁, w₂, ?_, hreads₁.trans hreads₂, ?_, hf₂, hback₂, fun hw hkc hseen h => ?_⟩
      · rw [chainFrom, Env.resumeLevels, Act.run_bind_ok hrun₁]
        dsimp only
        rw [if_pos hmem]
        exact hrun₂
      · rw [List.append_assoc]
        exact hreads₁.gathered.mpr hg₂
      · have hpc := isCollection_above hw hkc hpk
        have hne : p ≠ k := by
          rintro rfl
          have hlen := congrArg List.length hn
          simp at hlen
        have hstep := h.step hw hpk hne hfinds.kids
          (fun q hq hqn hpar hfresh _ => hfinds.whole ((hseen p hpc).anti (fun _ => List.mem_append_right _)) q hq hqn hpar
            hfresh) hmem ⟨segs, hn'.symm⟩ hpush (fun v hv => mem_mark.mp (hvis ▸ hv))
        have hmove : Descends w₁ (walk₁.push ⟨children, children.idxOf (childPath p a) + 1⟩) (childPath p a) k :=
          ⟨hstep.ahead, fun q hq => (hreads₁.isCollection q).mpr (hstep.member q hq), hstep.visited,
            fun q hq => hstep.covers q ((hreads₁.isCollection q).mp hq)⟩
        obtain ⟨hb, hlast, hcursor, hvisited⟩ := hdown₂ (hreads₁.wellFormed hw) ((hreads₁.isCollection k).mpr hkc)
          (fun q hq => hreads₁.seen.mp ((hseen q ((hreads₁.isCollection q).mp hq)).anti (fun _ => List.mem_append_left _)))
          hmove
        refine ⟨hb, ⟨hlast.ahead, fun q hq => (hreads₁.isCollection q).mp (hlast.member q hq), hlast.visited,
          fun q hq => hlast.covers q ((hreads₁.isCollection q).mpr hq)⟩, hcursor.trans hcur, fun q => ?_⟩
        have hchain : (p :: chainFrom p (a :: segs)).dropLast =
            p :: (childPath p a :: chainFrom (childPath p a) segs).dropLast := rfl
        have hold : q ∈ (walk₁.push ⟨children, children.idxOf (childPath p a) + 1⟩).visited ↔ q = p ∨ q ∈ walk.visited := by
          rw [show (walk₁.push ⟨children, children.idxOf (childPath p a) + 1⟩).visited = walk₁.visited from rfl, hvis]
          exact mem_mark
        rw [hvisited, hold, hchain, List.mem_cons]
        exact ⟨fun h => h.elim (fun h => h.elim (fun h => .inr (.inl h)) .inl) (fun h => .inr (.inr h)),
          fun h => h.elim (fun h => .inl (.inr h)) (fun h => h.elim (fun h => .inl (.inl h)) .inr)⟩
    · refine ⟨walk₁.abandon, false, es₁, w₁, ?_, hreads₁, hg₁.congr rfl rfl id, by simp,
        fun _ => rfl, fun hw hkc hseen h => ?_⟩
      · rw [chainFrom, Env.resumeLevels, Act.run_bind_ok hrun₁]
        dsimp only
        rw [if_neg hmem]
        rfl
      · -- the way down to a collection is shown
        exfalso
        have hchild : names (childPath p a) <+: names k := ⟨segs, hn'.symm⟩
        have hpc := isCollection_above hw hkc hpk
        have hnil : childPath p a ≠ [] := by
          intro he
          rw [he] at hnames
          simp at hnames
        have hlt : names p < names (childPath p a) := by
          rw [hnames]
          exact lt_of_above ⟨[a], rfl⟩ (by simp)
        exact hmem (hfinds.whole (hseen p hpc) _ (isCollection_above hw hkc hchild) hnil (parentOf_childPath ha.2)
          (fun hv => absurd ((h.visited _ hv).trans hlt) (lt_irrefl _)))

end Gathering

/-! ### What a slice sees -/

/-- Where a walk begins: at its cursor, unless it lies too deep, or at the root. -/
inductive Begins (start : Option JsString) : JsString → Bool → Prop
  | atRoot (h : ∀ k ∈ start, maxResumeDepth ≤ (names k).length) : Begins start [] false
  | atCursor {k : JsString} (hk : start = some k) (h : (names k).length < maxResumeDepth) : Begins start k true

section Slices

variable {env : Env} {w w' : World} {start : Option JsString} {deadlineMs budget : ℕ}

theorem gathered_start (w : World) (cursor : Option JsString) : (Walk.start cursor).Gathered w [] := by
  refine ⟨fun s q e h => ?_, fun s q _ h => ?_, fun q h => ?_, fun q h => ?_, fun s x h => ?_, fun _ _ => ⟨rfl, rfl⟩⟩
  · cases s <;> simp [Walk.start, Walk.index] at h
  · simp [Walk.start] at h
  · simp [Walk.start] at h
  · simp [Walk.start] at h
  · cases s <;> simp [Walk.start, Walk.index] at h

theorem found_start (cursor : Option JsString) : (Walk.start cursor).Found (some []) := by
  intro q hq
  obtain rfl : q = [] := by simpa [Walk.todo, Walk.start, Walk.pending] using hq
  exact ⟨by simp [isValidInnerPath], .inl rfl⟩

theorem onCourse_root (w : World) : OnCourse w (.start none) (some []) := by
  refine ⟨?_, ?_, by simp [Walk.start], ?_, by simp [Walk.start], by simp⟩
  · exact List.pairwise_singleton _ _
  · intro q hq
    obtain rfl : q = [] := by simpa [Walk.todo, Walk.start, Walk.pending] using hq
    exact mem_collections.mp List.mem_cons_self
  · rintro c ⟨⟩ q _ _
    exact ⟨[], List.mem_cons_self, List.nil_prefix⟩

theorem openWalk_finds (env : Env) (w : World) (hstart : ∀ k ∈ start, isValidInnerPath k = true) :
    ∃ walk c resumed es w', (env.openWalk start).run w = (.ok (walk, c, resumed), w') ∧ w.Reads es w' ∧
      walk.Gathered w es ∧ walk.Found (some c) ∧
      (w.WellFormed → (∀ k ∈ start, w.IsCollection k) → (∀ p, w.IsCollection p → Seen w es p) →
        Begins start c resumed ∧ OnCourse w walk (some c) ∧ walk.cursor = (if resumed then some c else none) ∧
          ∀ q, q ∈ walk.visited ↔ resumed = true ∧ q ∈ (sweepAncestorChain c).dropLast) := by
  cases start with
  | none =>
    exact ⟨.start none, [], false, [], w, rfl, World.Reads.refl w, gathered_start w none, found_start none,
      fun _ _ _ => ⟨.atRoot (by simp), onCourse_root w, rfl, by simp [Walk.start]⟩⟩
  | some k =>
    by_cases hdeep : maxResumeDepth < (sweepAncestorChain k).length
    · refine ⟨.start none, [], false, [], w, ?_, World.Reads.refl w, gathered_start w none, found_start none,
        fun _ _ _ => ⟨.atRoot ?_, onCourse_root w, rfl, by simp [Walk.start]⟩⟩
      · have hfrontier : (env.resumeFrontier (.start (some k)) k).run w = (.ok (Walk.start (some k), false), w) := by
          unfold Env.resumeFrontier
          rw [if_pos hdeep]
          rfl
        unfold Env.openWalk
        rw [Act.run_bind_ok hfrontier]
        rfl
      · rintro _ ⟨⟩
        rw [sweepAncestorChain_length] at hdeep
        omega
    · obtain ⟨walk, b, es, w', hrun, hreads, hg, hf, hback, hdown⟩ :=
        resumeLevels_finds env (k := k) (names k) [] (.start (some k)) w (hstart k rfl) rfl (gathered_start w (some k))
          (.inl rfl) (by simp [Walk.Waits, Walk.start, Walk.pending])
      rw [← sweepAncestorChain_eq] at hrun hdown
      rw [List.append_nil] at hg
      have hfrontier : (env.resumeFrontier (.start (some k)) k).run w = (.ok (walk, b), w') := by
        unfold Env.resumeFrontier
        rw [if_neg hdeep]
        exact hrun
      cases b with
      | true =>
        refine ⟨walk, k, true, es, w', ?_, hreads, hg, hf rfl, fun hw hk hseen => ?_⟩
        · unfold Env.openWalk
          rw [Act.run_bind_ok hfrontier]
          rfl
        · obtain ⟨_, hdesc, hcursor, hvisited⟩ := hdown hw (hk k rfl) hseen (descends_root w k)
          refine ⟨.atCursor rfl ?_, hdesc.onCourse (hk k rfl) hcursor, hcursor, fun q => ?_⟩
          · rw [sweepAncestorChain_length] at hdeep
            omega
          · rw [hvisited]
            simp [Walk.start]
      | false =>
        refine ⟨{ walk with cursor := none }, [], false, es, w', ?_, hreads, hg.congr rfl rfl id,
          fun q hq => ?_, fun hw hk hseen => ?_⟩
        · unfold Env.openWalk
          rw [Act.run_bind_ok hfrontier]
          rfl
        · have hpending : ({ walk with cursor := none } : Walk).pending = [] := by simp [Walk.pending, hback rfl]
          obtain rfl : q = [] := by simpa [Walk.todo, hpending] using hq
          exact ⟨by simp [isValidInnerPath], .inl rfl⟩
        · have hdown' := (hdown hw (hk k rfl) hseen (descends_root w k)).1
          exact absurd hdown' (by simp)

/-- The part of the order a slice goes through, the collections it reads, and where it stops. -/
structure Passage (env : Env) (budget deadlineMs : ℕ) (start : Option JsString) (w : World) (walk : Walk)
    (current : Option JsString) (c : JsString) (resumed : Bool) (vs : List JsString) (w' : World) : Prop where
  begins : Begins start c resumed
  course : OnCourse w walk current
  order : w.ahead (some c) = vs ++ w.ahead current
  visited : ∀ q, q ∈ walk.visited ↔ q ∈ vs ∨ resumed = true ∧ q ∈ (sweepAncestorChain c).dropLast
  within : vs.length ≤ walkBudget budget resumed
  spent : current ≠ none → vs.length = walkBudget budget resumed ∨
    ∃ n, w.calls ≤ n ∧ n < w'.calls ∧ deadlineMs ≤ env.clock n
  cursor : walk.cursor = vs.getLast?.or (if resumed then some c else none)

theorem baseForVisited_ok {visited : List JsString} {base : List PlanBase}
    (h : (env.baseForVisited visited).run w = (.ok base, w')) :
    base = w.recorded visited ∧ ∃ a, w' = w.tick.note (Call.loadState.outcome a) := by
  have hload (a : Answer) (hok : ∀ reason, a ≠ .rejects reason) (ha : env.answer w.calls = a) :
      env.loadReplicaStateRows.run w = (.ok (w.rows.map Prod.snd), w.tick.note (Call.loadState.outcome a)) := by
    unfold Env.loadReplicaStateRows Env.call
    cases a with
    | rejects reason => exact absurd rfl (hok reason)
    | performs | blank | cut keep =>
      simp only [ha]
      rfl
  unfold Env.baseForVisited at h
  cases ha : env.answer w.calls with
  | rejects reason =>
    have hfail : env.loadReplicaStateRows.run w = (.error reason, w.tick.note (.rejected .loadState)) := by
      simp only [Env.loadReplicaStateRows, Env.call, ha]
      rfl
    rw [Act.run_bind_error hfail] at h
    simp at h
  | performs | blank | cut keep =>
    rw [Act.run_bind_ok (hload _ (by simp) ha)] at h
    exact ⟨(Except.ok.inj (congrArg Prod.fst h)).symm, _, (congrArg Prod.snd h).symm⟩

theorem Walk.Gathered.mono {walk : Walk} {es es' : List Event} (h : walk.Gathered w es) (hes : ∀ e ∈ es, e ∈ es') :
    walk.Gathered w es' :=
  ⟨h.entry, fun s q hq hpar hv hok => h.whole s q hq hpar hv (fun hm => hok (hm.mono hes)), h.closed,
    fun q hq s hok => hes _ (h.told q hq s (fun hm => hok (hm.mono hes))), h.keyed,
    fun husable hok => h.clean husable (fun q hq s hm => hok q hq s (hm.mono hes))⟩

theorem collectSlice_finds {slice : Slice} (hstart : ∀ k ∈ start, isValidInnerPath k = true)
    (hrun : (env.collectSlice budget deadlineMs start).run w = (.ok slice, w')) :
    ∃ walk current es, w.Reads es w' ∧ slice = walk.toSlice current (w.recorded walk.visited) ∧ walk.Gathered w es ∧
      (w.WellFormed → (∀ k ∈ start, w.IsCollection k) → (∀ p, w.IsCollection p → Seen w es p) →
        ∃ c resumed vs, Passage env budget deadlineMs start w walk current c resumed vs w') := by
  obtain ⟨walk₀, c, resumed, es₀, w₀, hrun₀, hreads₀, hg₀, hf₀, hopen⟩ := openWalk_finds env w hstart
  obtain ⟨walk, current, es, w₁, hrun₁, hreads₁, hg, _, hsweep⟩ :=
    sweep_finds env deadlineMs (walkBudget budget resumed) walk₀ (some c) w₀ (hreads₀.gathered.mp hg₀) hf₀
  unfold Env.collectSlice at hrun
  rw [Act.run_bind_ok hrun₀] at hrun
  dsimp only at hrun
  rw [Act.run_bind_ok hrun₁] at hrun
  dsimp only at hrun
  have hto := hreads₀.trans hreads₁
  obtain ⟨e, hw', hslice⟩ : ∃ e, w' = w₁.tick.note e ∧ slice = walk.toSlice current (w₁.recorded walk.visited) := by
    cases hbase : (env.baseForVisited walk.visited).run w₁ with
    | mk r w₂ =>
      cases r with
      | error m =>
        rw [Act.run_bind_error hbase] at hrun
        simp at hrun
      | ok base =>
        rw [Act.run_bind_ok hbase] at hrun
        obtain ⟨rfl, a, rfl⟩ := baseForVisited_ok hbase
        exact ⟨_, (congrArg Prod.snd hrun).symm, (Except.ok.inj (congrArg Prod.fst hrun)).symm⟩
  have hlast : w.Reads (e :: (es ++ es₀)) w' := by
    rw [hw']
    exact hto.trans (World.Reads.of_call w₁ e)
  refine ⟨walk, current, e :: (es ++ es₀), hlast, ?_, ?_, fun hw hk hseen => ?_⟩
  · rw [hslice]
    unfold World.recorded
    rw [show w₁.rows = w.rows by rw [hto.same]]
  · exact (hreads₀.gathered.mpr hg).mono (fun _ => List.mem_cons_of_mem _)
  · obtain ⟨hbegins, hcourse, hcursor, hvisited₀⟩ := hopen hw hk (fun p hp => (hseen p hp).anti
      (fun _ he => List.mem_cons_of_mem _ (List.mem_append_right _ he)))
    obtain ⟨vs, hvisited, hsweeps⟩ := hsweep (hreads₀.wellFormed hw) (hreads₀.onCourse.mp hcourse)
      (fun p hp => hreads₀.seen.mp ((hseen p ((hreads₀.isCollection p).mp hp)).anti
        (fun _ he => List.mem_cons_of_mem _ (List.mem_append_left _ he))))
    refine ⟨c, resumed, vs, hbegins, hreads₀.onCourse.mpr hsweeps.course, ?_, fun q => ?_, hsweeps.within,
      fun hcur => ?_, ?_⟩
    · rw [← hreads₀.ahead, ← hreads₀.ahead, hsweeps.order]
    · rw [hvisited, hvisited₀, or_comm]
    · have hcalls : w₁.calls < w'.calls := by
        rw [hw']
        exact Nat.lt_succ_self _
      rcases hsweeps.spent hcur with h | ⟨n, hn, hn', hd⟩
      · exact .inl h
      · exact .inr ⟨n, hreads₀.calls.trans hn, hn'.trans hcalls, hd⟩
    · rw [hsweeps.cursor, hcursor]

end Slices

end DurableDav.Replication
