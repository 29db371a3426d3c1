import DurableDav.Replication.Agreement

namespace DurableDav.Replication

open Library

/-! ### What the second reads see -/

section Reread

variable {env : Env} {C : JsString → Side → Option (Option Bytes)} {p q : JsString} {w : World}

/-- The trees as they stand when the base is recorded. -/
def World.Stands (C : JsString → Side → Option (Option Bytes)) (w : World) : Prop := ∀ p, w.contents p = C p

@[simp] theorem World.contents_note (w : World) (e : Event) (p : JsString) : (w.note e).contents p = w.contents p := by
  funext s
  simp [contents]

@[simp] theorem World.stands_tick : w.tick.Stands C ↔ w.Stands C := by simp [Stands]

@[simp] theorem World.stands_note (e : Event) : (w.note e).Stands C ↔ w.Stands C := by simp [Stands]

theorem describe_of_content {t : Tree} {a : Option Bytes} (h : t.content p = some a) :
    ∃ e, t.describe p = some e ∧ e.path = p := by
  obtain ⟨r, hr, _⟩ := Option.map_eq_some_iff.mp h
  exact ⟨r.entry p, by simp [Tree.describe, hr], rfl⟩

theorem content_of_describe {t : Tree} {e : PlanSide} (h : t.describe p = some e) : t.content p ≠ none :=
  held_of_describe h

/-- A complete listing of a collection shows a local resource exactly when it is there. -/
def SeesLocal (C : JsString → Side → Option (Option Bytes)) (p : JsString) (r : Option PlanSide × Bool) : Prop :=
  (r.1.isSome → C p .localSide ≠ none) ∧ (r = (none, true) → isValidInnerPath p = true → p ≠ [] → C p .localSide = none)

theorem listReplicaChildren_meets : Act.Meets (World.Stands C) (env.listReplicaChildren q)
    (fun listing w => w.Stands C ∧ (∀ e ∈ listing.entries, C e.path .localSide ≠ none) ∧
      (listing.complete = true → ∀ p, p ≠ [] → parentOf p = q → isValidInnerPath p = true →
        C p .localSide ≠ none → ∃ e ∈ listing.entries, e.path = p)) (World.Stands C) := by
  refine meets_call (fun w => World.stands_tick.mpr) (fun _ w => (World.stands_note _).mpr) (fun n a => ?_)
  refine Act.meets_read_bind (fun u hu => ?_)
  have hc (p : JsString) : u.localTree.content p = C p .localSide := congrFun (hu p) .localSide
  have hpath {p : JsString} {e : PlanSide} (h : u.localTree.describe p = some e) : e.path = p := by
    obtain ⟨r, _, rfl⟩ := Option.map_eq_some_iff.mp h
    rfl
  split
  · exact Act.meets_pure (fun w hw => ⟨(World.stands_note _).mpr (hw ▸ hu), by simp, by simp⟩)
  · generalize hes : u.localTree.selfEntry q ++
      (u.localTree.childEntries q).filter (fun e => isValidInnerPath e.path) = es
    have hheld : ∀ e ∈ es, C e.path .localSide ≠ none := by
      intro e he
      rw [← hes, List.mem_append] at he
      rw [← hc]
      rcases he with he | he
      · have hd : u.localTree.describe q = some e := by
          unfold Tree.selfEntry at he
          split at he
          · simp at he
          · simpa using he
        exact hpath hd ▸ content_of_describe hd
      · exact content_of_describe (Tree.mem_childEntries.mp (List.mem_filter.mp he).1).2.2
    have hall : ∀ p, p ≠ [] → parentOf p = q → isValidInnerPath p = true → C p .localSide ≠ none →
        ∃ e ∈ es, e.path = p := by
      intro p hp hpar hv hheld
      rw [← hc] at hheld
      obtain ⟨a, ha⟩ := Option.ne_none_iff_exists'.mp hheld
      obtain ⟨e, he, hep⟩ := describe_of_content ha
      refine ⟨e, ?_, hep⟩
      rw [← hes, List.mem_append]
      right
      rw [List.mem_filter, Tree.mem_childEntries, hep]
      exact ⟨⟨hp, hpar, he⟩, hv⟩
    refine Act.meets_pure (fun w hw => ⟨(World.stands_note _).mpr (hw ▸ hu), ?_, ?_⟩)
    · intro e he
      cases a with
      | cut keep => exact hheld e (List.mem_filter.mp he).1
      | _ => exact hheld e he
    · intro hcomplete
      cases a with
      | cut keep => simp [Answer.trim] at hcomplete
      | _ => exact hall

theorem rereadLocal_meets : Act.Meets (World.Stands C) (env.rereadLocal p)
    (fun r w => w.Stands C ∧ SeesLocal C p r) (fun _ => False) := by
  refine Act.meets_bind (Act.meets_attempt listReplicaChildren_meets) (fun listing w hw => ?_)
  cases listing with
  | error e => exact ⟨hw, by simp, by simp⟩
  | ok listing =>
    obtain ⟨hstands, hheld, hall⟩ := hw
    dsimp only
    split
    · rename_i hcomplete
      refine ⟨hstands, fun hsome => ?_, fun hnone hv hp => ?_⟩
      · obtain ⟨e, he⟩ := Option.isSome_iff_exists.mp hsome
        have hp : e.path = p := by simpa using List.find?_some he
        exact hp ▸ hheld e (List.mem_of_find?_eq_some he)
      · by_contra hc
        obtain ⟨e, he, hep⟩ := hall hcomplete p hp rfl hv hc
        have hmiss : ∀ x ∈ listing.entries, ¬ x.path = p := by simpa using hnone
        exact hmiss e he hep
    · exact ⟨hstands, by simp, by simp⟩

/-- A resource is shown only if it is there, and a missing one is missing unless the call was refused. -/
def SeesRemote (C : JsString → Side → Option (Option Bytes)) (p : JsString) (r : Option PlanSide) (w : World) : Prop :=
  (r.isSome → C p .remoteSide ≠ none) ∧
    (r = none → C p .remoteSide = none ∨ .rejected (.stat p) ∈ w.log ∨ .cut (.stat p) ∈ w.log)

theorem stat_meets : Act.Meets (World.Stands C) (env.stat p)
    (fun r w => w.Stands C ∧ SeesRemote C p r w)
    (fun w => w.Stands C ∧ .rejected (.stat p) ∈ w.log) := by
  refine meets_call (fun w => World.stands_tick.mpr)
    (fun _ w hw => ⟨(World.stands_note _).mpr hw, List.mem_cons_self⟩) (fun n a => ?_)
  refine Act.meets_read_bind (fun u hu => ?_)
  have hc : u.remoteTree.content p = C p .remoteSide := congrFun (hu p) .remoteSide
  have found (e : Event) (w : World) (hw : w = u) :
      (w.note e).Stands C ∧ SeesRemote C p (u.remoteTree.describe p) (w.note e) := by
    refine ⟨(World.stands_note _).mpr (hw ▸ hu), fun h => ?_, fun h => .inl ?_⟩
    · obtain ⟨x, hx⟩ := Option.isSome_iff_exists.mp h
      exact hc ▸ content_of_describe hx
    · rw [← hc]
      by_contra hheld
      obtain ⟨x, hx⟩ := Option.ne_none_iff_exists'.mp hheld
      obtain ⟨y, hy, _⟩ := describe_of_content hx
      simp [h] at hy
  cases a with
  | cut keep =>
    dsimp only
    split
    · exact Act.meets_pure (found _)
    · split
      · exact Act.meets_throw (fun w hw => ⟨(World.stands_note _).mpr (hw ▸ hu), List.mem_cons_self⟩)
      · exact Act.meets_pure (fun w hw => ⟨(World.stands_note _).mpr (hw ▸ hu), by simp,
          fun _ => .inr (.inr List.mem_cons_self)⟩)
  | performs | blank | rejects _ => exact Act.meets_pure (found _)

theorem rereadRemote_meets : Act.Meets (World.Stands C) (env.rereadRemote p)
    (fun r w => w.Stands C ∧ SeesRemote C p r w) (fun _ => False) := by
  refine Act.meets_bind (Act.meets_attempt stat_meets) (fun answer w hw => ?_)
  cases answer with
  | error e => exact ⟨hw.1, by simp, fun _ => .inr (.inl hw.2)⟩
  | ok entry => exact hw

def Warrants (C : JsString → Side → Option (Option Bytes)) (p : JsString) (log : List Event) : BaseUpdate → Prop
  | .record row => row.path = p ∧ C p .localSide ≠ none ∧ C p .remoteSide ≠ none
  | .forget => (isValidInnerPath p = true → p ≠ [] → C p .localSide = none) ∧
      (C p .remoteSide = none ∨ .rejected (.stat p) ∈ log ∨ .cut (.stat p) ∈ log)
  | .leave => True

theorem Warrants.grow {log log' : List Event} {u : BaseUpdate} (h : Warrants C p log u)
    (hlog : ∀ e ∈ log, e ∈ log') : Warrants C p log' u := by
  cases u with
  | record row => exact h
  | forget => exact ⟨h.1, h.2.imp_right (Or.imp (hlog _) (hlog _))⟩
  | leave => trivial

theorem baseUpdate_meets : Act.Meets (World.Stands C) (env.baseUpdate p)
    (fun u w => w.Stands C ∧ Warrants C p w.log u) (fun _ => False) := by
  refine Act.meets_bind rereadLocal_meets (fun l w ⟨hw, hl⟩ => ?_)
  refine Act.meets_bind rereadRemote_meets (fun r w ⟨hw, hr⟩ => ?_) w hw
  obtain ⟨l, trusted⟩ := l
  cases l with
  | none =>
    cases r with
    | some r => cases trusted <;> exact ⟨hw, trivial⟩
    | none =>
      cases trusted with
      | false => exact ⟨hw, trivial⟩
      | true => exact ⟨hw, hl.2 rfl, hr.2 rfl⟩
  | some l =>
    cases r with
    | none => exact ⟨hw, trivial⟩
    | some r => exact ⟨World.stands_tick.mpr hw, rfl, hl.1 rfl, hr.1 rfl⟩

theorem baseUpdates_meets (paths : List JsString) : Act.Meets (World.Stands C) (env.baseUpdates paths)
    (fun u w => w.Stands C ∧ (∀ row ∈ u.1, row.path ∈ paths ∧ Warrants C row.path w.log (.record row)) ∧
      ∀ q ∈ u.2, q ∈ paths ∧ Warrants C q w.log .forget) (fun _ => False) := by
  induction paths with
  | nil => exact Act.meets_pure (fun w hw => ⟨hw, by simp, by simp⟩)
  | cons p ps ih =>
    refine Act.meets_bind baseUpdate_meets (fun u w ⟨hw, hu⟩ => ?_)
    have hgrows : Act.Within World.Grows (env.baseUpdates ps) := baseUpdates_within ps
    refine Act.meets_bind ((ih.within hgrows w).weaken (fun _ => id) (fun _ _ => id) (fun _ h => h.1))
      (fun rest w' h => ?_) w ⟨rfl, hw⟩
    obtain ⟨⟨hw', hrows, hforget⟩, hlog⟩ := h
    have hu' := hu.grow hlog
    have hrows' : ∀ row ∈ rest.1, row.path ∈ p :: ps ∧ Warrants C row.path w'.log (.record row) :=
      fun row hr => ⟨List.mem_cons_of_mem _ (hrows row hr).1, (hrows row hr).2⟩
    have hforget' : ∀ q ∈ rest.2, q ∈ p :: ps ∧ Warrants C q w'.log .forget :=
      fun q hq => ⟨List.mem_cons_of_mem _ (hforget q hq).1, (hforget q hq).2⟩
    cases u with
    | leave => exact ⟨hw', hrows', hforget'⟩
    | record row =>
      refine ⟨hw', fun x hx => ?_, hforget'⟩
      rcases List.mem_cons.mp hx with rfl | hx
      · have hp : x.path = p := hu'.1
        exact ⟨hp ▸ List.mem_cons_self, hp.symm ▸ hu'⟩
      · exact hrows' x hx
    | forget =>
      refine ⟨hw', hrows', fun x hx => ?_⟩
      rcases List.mem_cons.mp hx with rfl | hx
      · exact ⟨List.mem_cons_self, hu'⟩
      · exact hforget' x hx

theorem get_recorded (records : List ReplicaStateRow) (rows : Store JsString ReplicaStateRow) (p : JsString) :
    Store.get (records.foldl (fun s row => Store.put s row.path row) rows) p = Store.get rows p ∨
      ∃ row ∈ records, row.path = p := by
  induction records generalizing rows with
  | nil => exact .inl rfl
  | cons row records ih =>
    rcases ih (Store.put rows row.path row) with h | ⟨x, hx, hp⟩
    · by_cases hp : p = row.path
      · exact .inr ⟨row, List.mem_cons_self, hp.symm⟩
      · left
        rw [List.foldl_cons, h, Store.get_put, if_neg hp]
    · exact .inr ⟨x, List.mem_cons_of_mem _ hx, hp⟩

/-- What a pass over the touched paths may do to the row of a path. -/
def Recorded (touched : List JsString) (w : World) (p : JsString) (w' : World) : Prop :=
  Store.get w'.rows p = Store.get w.rows p ∨
    p ∈ touched ∧ w.contents p .localSide ≠ none ∧ w.contents p .remoteSide ≠ none ∨
    p ∈ touched ∧ Store.get w'.rows p = none ∧ Warrants w.contents p w'.log .forget

theorem saveReplicaState_meets {P : World → Prop} (records : List ReplicaStateRow) (forget : List JsString)
    {w₁ : World} (hP : ∀ u, u.rows = w₁.rows → P u)
    (hQ : ∀ u, u.rows = Store.removeWhere (records.foldl (fun s row => Store.put s row.path row) w₁.rows)
      (fun p => p ∈ forget) → P u) :
    Act.Meets (fun u => u.rows = w₁.rows) (env.saveReplicaState records forget) (fun _ => P) P := by
  refine meets_call (fun _ => id) (fun _ w h => hP _ h) (fun _ _ => Act.meets_modify (fun w h => hQ _ ?_))
  rw [← h]
  rfl

theorem recordBase_recorded (touched : List JsString) (w : World) (p : JsString) :
    Recorded touched w p ((env.recordBase touched).run w).2 := by
  have hread : Act.Meets (World.Stands w.contents) (env.baseUpdates touched) _ _ := baseUpdates_meets touched
  have hrows : Act.Within World.KeepsRows (env.baseUpdates touched) := baseUpdates_within touched
  refine Act.Meets.after (P := fun u => u = w) (E := Recorded touched w p) ?_ rfl
  refine Act.meets_bind (((hread.within hrows w).weaken (fun u hu => ⟨hu, hu ▸ fun _ => rfl⟩)
    (fun _ _ => id) (fun _ h => h.1.elim))) (fun u w₁ ⟨⟨_, hrec, hfor⟩, hsame⟩ => ?_)
  obtain ⟨records, forget⟩ := u
  dsimp only at hrec hfor ⊢
  split
  · exact .inl (congrArg (Store.get · p) hsame)
  · have hgrows : Act.Within World.Grows (env.saveReplicaState records forget) :=
      within_call intact_within (fun _ _ _ _ => id)
    have hsaved : Act.Meets (fun u => u.rows = w₁.rows) (env.saveReplicaState records forget)
        (fun _ u => World.Grows w₁ u → Recorded touched w p u) (fun u => World.Grows w₁ u → Recorded touched w p u) :=
      saveReplicaState_meets records forget ?_ ?_
    · refine ((hsaved.within hgrows w₁).weaken (fun u hu => ⟨hu, hu ▸ rfl⟩) (fun _ _ h => h.1 h.2)
        (fun _ h => h.1 h.2)) w₁ rfl
    · intro u hu _
      exact .inl (by rw [hu, hsame])
    · intro u hu hlog
      unfold Recorded
      rw [hu, Store.get_removeWhere]
      by_cases hp : p ∈ forget
      · obtain ⟨htouched, hw⟩ := hfor p hp
        exact .inr (.inr ⟨htouched, by simp [hp], hw.grow hlog⟩)
      · rcases get_recorded records w₁.rows p with h | ⟨row, hr, rfl⟩
        · left
          rw [if_neg (by simpa using hp), h, hsame]
        · obtain ⟨htouched, _, hl, hr⟩ := hrec row hr
          exact .inr (.inl ⟨htouched, hl, hr⟩)

end Reread

/-! ### The law and where it holds -/

/-- A run writes rows for agreeing paths only, and leaves the row of a failed decision. -/
def RecordsAgreement (o : ApplyOptions) (ds : List ReplicationDecision) (w : World) : Prop :=
  let w' := ((o.run ds).run w).2
  (∀ p row, Store.get w'.rows p = some row → Store.get w.rows p = some row ∨
    ∃ a, w'.localTree.content p = some a ∧ w'.remoteTree.content p = some a) ∧
  ∀ d ∈ ds, .failed d ∈ w'.log → Store.get w'.rows d.path = Store.get w.rows d.path

/-- The path of a failed decision is one that a single side holds, as the second reads can see. -/
def Withheld (input : BuildPlanInput) (w : World) (log : List Event) (p : JsString) : Prop :=
  (Store.get input.localIndex p).isSome ∧ w.remoteTree.content p = none ∨
    (Store.get input.remoteIndex p).isSome ∧ w.localTree.content p = none ∧
      .rejected (.stat p) ∉ log ∧ .cut (.stat p) ∉ log

/-- Every decision taken heals or its sides agree, and every failed one is withheld, apart from the others. -/
def StepsSettle (input : BuildPlanInput) (o : ApplyOptions) (w : World) : Prop :=
  let ds := (buildReplicationPlan input).decisions
  let log := ((o.run ds).run w).2.log
  ∀ d ∈ ds, (.applies d ∈ log → Heals o.env w log d) ∧
    (.failed d ∈ log → Withheld input w log d.path ∧
      ∀ e ∈ ds, e ≠ d → ¬ Below slash e.path d.path ∧ ¬ Below slash d.path e.path)

section Law

variable {input : BuildPlanInput} {o : ApplyOptions} {w : World} {d : ReplicationDecision}

theorem rest_decisions (hl : Listed input w) (hw : w.WellFormed) :
    Rest input (buildReplicationPlan input).decisions w := by
  obtain ⟨transfers, removals, hsplit, htransfer, hremoval⟩ := @decisions_split input
  refine ⟨fun _ => id, decisions_path_nodup, ?_, fun d _ _ s e he => ?_, hw⟩
  · rw [hsplit, List.pairwise_append]
    refine ⟨List.pairwise_of_forall_mem_list (fun a ha b _ hdel => ?_),
      List.pairwise_of_forall_mem_list (fun a _ b hb _ => hremoval b hb), fun a _ b hb _ => hremoval b hb⟩
    simp [htransfer a ha] at hdel
  · obtain ⟨r, hr, rfl⟩ := Option.map_eq_some_iff.mp (hl s d.path e he)
    have hc : (w.tree s).content d.path = some r.bytes := by simp [Tree.content, hr]
    exact congrArg (Option.map Option.isNone) hc

theorem applyAll_keepsRows (ds : List ReplicationDecision) (st : ApplyState) :
    Act.Within World.KeepsRows (o.applyAll ds st) :=
  applyAll_within (fun _ _ m _ => mutation_keepsRows o.env m) st

theorem recordBase_contents (env : Env) (touched : List JsString) (w : World) (p : JsString) :
    ((env.recordBase touched).run w).2.contents p = w.contents p := by
  have hmoves : World.Moves (fun _ _ => False) w ((env.recordBase touched).run w).2 :=
    recordBase_within (fun _ _ => saveReplicaState_moves _ _) w
  exact World.holds_iff.mp (hmoves.holds (World.holds_iff.mpr rfl) (fun _ _ h => h.elim))

theorem recordBase_notes (env : Env) (touched : List JsString) :
    Act.Within World.Notes (env.recordBase touched) :=
  recordBase_within (fun _ _ => within_call intact_within (fun _ _ _ => World.Notes.of_log_eq rfl))

/-- The decisions are carried out, and then the base of the touched paths is recorded. -/
theorem run_split (o : ApplyOptions) (ds : List ReplicationDecision) (w : World) :
    (∃ m w₁, (o.applyAll ds .start).run w = (.error m, w₁) ∧ ((o.run ds).run w).2 = w₁) ∨
      ∃ st w₁, (o.applyAll ds .start).run w = (.ok st, w₁) ∧
        ((o.run ds).run w).2 = ((o.env.recordBase st.touched).run w₁).2 := by
  cases hrun : (o.applyAll ds .start).run w with
  | mk r w₁ =>
    cases r with
    | error m => exact .inl ⟨m, w₁, rfl, by rw [ApplyOptions.run, Act.run_bind_error hrun]⟩
    | ok st =>
      refine .inr ⟨st, w₁, rfl, ?_⟩
      rw [ApplyOptions.run, Act.run_bind_ok hrun, Act.run_bind]
      cases hrec : (o.env.recordBase st.touched).run w₁ with
      | mk r w₂ => cases r <;> rfl

theorem Heals.of_grow {env : Env} {log log' : List Event} (h : Heals env w log' d) (hlog : ∀ e ∈ log, e ∈ log') :
    Heals env w log d := by
  intro hdiffer
  obtain ⟨hok, hidle⟩ := h hdiffer
  exact ⟨fun hf => hok (hlog _ hf), fun hi => hidle (hi.grow hlog)⟩

theorem Withheld.oneSided {log : List Event} {p : JsString} (h : Withheld input w log p) (hl : Listed input w) :
    (w.contents p .localSide ≠ none ∧ w.contents p .remoteSide = none) ∨
      (w.contents p .localSide = none ∧ w.contents p .remoteSide ≠ none) := by
  have held (s : Side) (h : (Store.get (input.index s) p).isSome) : w.contents p s ≠ none := by
    obtain ⟨e, he⟩ := Option.isSome_iff_exists.mp h
    exact held_of_describe (hl s p e he)
  rcases h with ⟨hs, hn⟩ | ⟨hs, hn, _⟩
  · exact .inl ⟨held .localSide hs, hn⟩
  · exact .inr ⟨hn, held .remoteSide hs⟩

theorem withheld_conflictPath {log : List Event} (hd : d ∈ (buildReplicationPlan input).decisions)
    (h : Withheld input w log d.path) (hl : Listed input w) : d.conflictPath = none := by
  obtain ⟨_, taken, _, hg⟩ := decisions_grounds hd
  have both {l r : PlanSide} (hls : Store.get input.localIndex d.path = some l)
      (hrs : Store.get input.remoteIndex d.path = some r) : False := by
    have hheld := held_of_describe (hl .localSide _ _ hls)
    have hheld' := held_of_describe (hl .remoteSide _ _ hrs)
    rcases h with ⟨_, hn⟩ | ⟨_, hn, _⟩
    · exact hheld' hn
    · exact hheld hn
  cases d with
  | keepBoth x v c =>
    obtain ⟨_, _, _, l, r, hls, hrs, _⟩ := hg
    exact (both hls hrs).elim
  | pullAndPreserve x c ct =>
    obtain ⟨_, _, _, hr, l, hls, _⟩ := hg
    obtain ⟨r, hrs⟩ := Option.isSome_iff_exists.mp hr
    exact (both hls hrs).elim
  | _ => rfl

theorem rows_agree (hset : Setting o input) (hl : Listed input w) (hw : w.WellFormed)
    (h : StepsSettle input o w) {p : JsString} {row : ReplicaStateRow}
    (hrow : Store.get ((o.run (buildReplicationPlan input).decisions).run w).2.rows p = some row) :
    Store.get w.rows p = some row ∨
      ∃ a, ((o.run (buildReplicationPlan input).decisions).run w).2.contents p .localSide = some a ∧
        ((o.run (buildReplicationPlan input).decisions).run w).2.contents p .remoteSide = some a := by
  have hrest := rest_decisions hl hw
  have hkeep := applyAll_keepsRows (o := o) (buildReplicationPlan input).decisions .start w
  rcases run_split o (buildReplicationPlan input).decisions w with ⟨m, w₁, hrun, hend⟩ | ⟨st, w₁, hrun, hend⟩
  · rw [hrun] at hkeep
    rw [hend, show w₁.rows = w.rows from hkeep] at hrow
    exact .inl hrow
  · rw [hrun] at hkeep
    have hgrow : ∀ e ∈ w₁.log, e ∈ ((o.run (buildReplicationPlan input).decisions).run w).2.log := by
      rw [hend]
      exact fun e => (recordBase_notes o.env st.touched w₁).mem_log
    rw [hend] at hrow ⊢
    rw [recordBase_contents]
    rcases @recordBase_recorded o.env st.touched w₁ p with hsame | ⟨htouched, hcl, hcr⟩ | ⟨_, hnone, _⟩
    · left
      rw [hsame, show w₁.rows = w.rows from hkeep] at hrow
      exact hrow
    · right
      obtain ⟨a, ha⟩ := Option.ne_none_iff_exists'.mp hcl
      obtain ⟨b, hb⟩ := Option.ne_none_iff_exists'.mp hcr
      have hheal : ∀ d ∈ (buildReplicationPlan input).decisions, .applies d ∈ w₁.log → Heals o.env w w₁.log d :=
        fun d hd ha => ((h d hd).1 (hgrow _ ha)).of_grow hgrow
      have hagree := (applyAll_touched hset hrest hrun hheal p htouched).resolve_left (by simp [ApplyState.start])
      exact ⟨a, ha, by rw [hb, hagree a b ha hb]⟩
    · rw [hnone] at hrow
      exact absurd hrow (by simp)

theorem failed_row_kept (hset : Setting o input) (hl : Listed input w) (hw : w.WellFormed) (hlog : w.log = [])
    (h : StepsSettle input o w) (hd : d ∈ (buildReplicationPlan input).decisions)
    (hfail : .failed d ∈ ((o.run (buildReplicationPlan input).decisions).run w).2.log) :
    Store.get ((o.run (buildReplicationPlan input).decisions).run w).2.rows d.path = Store.get w.rows d.path := by
  have hrest := rest_decisions hl hw
  have hkeep := applyAll_keepsRows (o := o) (buildReplicationPlan input).decisions .start w
  obtain ⟨hwithheld, hapart⟩ := (h d hd).2 hfail
  rcases run_split o (buildReplicationPlan input).decisions w with ⟨m, w₁, hrun, hend⟩ | ⟨st, w₁, hrun, hend⟩
  · rw [hrun] at hkeep
    rw [hend, show w₁.rows = w.rows from hkeep]
  · rw [hrun] at hkeep
    have hfail' : .failed d ∈ ((o.applyAll (buildReplicationPlan input).decisions .start).run w).2.log := by
      rw [hend] at hfail
      rw [hrun]
      exact (recordBase_notes o.env st.touched w₁).mem_of_decision rfl rfl hfail
    have hsame := applyAll_withheld hset hrest hd (by simp [hlog]) hfail' (withheld_conflictPath hd hwithheld hl) hapart
    rw [hrun] at hsame
    have hone := hwithheld.oneSided hl
    rw [hend]
    rcases @recordBase_recorded o.env st.touched w₁ d.path with h' | ⟨_, hcl, hcr⟩ | ⟨_, _, hforget⟩
    · rw [h', show w₁.rows = w.rows from hkeep]
    · dsimp only at hsame
      rw [hsame] at hcl hcr
      exact hone.elim (fun h => absurd h.2 hcr) (fun h => absurd h.1 hcl)
    · exfalso
      obtain ⟨hlocal, hremote⟩ := hforget
      dsimp only at hsame
      rw [hsame] at hlocal hremote
      rw [hend] at hwithheld
      rcases hwithheld with ⟨hs, hn⟩ | ⟨_, hn, hrej, hcut⟩
      · have hgone := hlocal (hset.valid .localSide _ hs) (path_ne_nil (decisions_grounds hd).1)
        exact hone.elim (fun h => h.1 hgone) (fun h => h.2 hn)
      · rcases hremote with hgone | hr | hc
        · exact hone.elim (fun h => h.1 hn) (fun h => h.2 hgone)
        · exact hrej hr
        · exact hcut hc

theorem CompleteView.listed {V : List JsString} (hv : CompleteView input w V) : Listed input w := by
  intro s p e he
  rw [hv.index] at he
  split at he
  · exact he
  · simp at he

end Law

/-! ### Runs -/

def editedRow : ReplicaStateRow := ⟨⟨js "f", false, none, some 1, some 1, none, some 1, some 1, none⟩, 0⟩

-- `f` was edited on the local side since the row was written
def editedWorld : World :=
  { World.ofTrees [(js "f", .file [1] 2)] [(js "f", .file [0] 1)] with rows := [(js "f", editedRow)] }

def editedInput : BuildPlanInput := editedWorld.view [[]] .sync

def refusedWrite : Env :=
  { Env.calm with answer := fun n => if n = 2 then .rejects (js "PUT") else .performs }

theorem editedWorld_view : CompleteView editedInput editedWorld [[]] := by
  refine World.completeView_view .sync (by decide) (by decide) (fun s p h => ?_)
  have hp : p = js "f" := by
    by_contra hne
    cases s <;> simp [editedWorld, World.ofTrees, World.tree, Tree.content, Store.get, Ne.symm hne] at h
  subst hp
  decide

end DurableDav.Replication
