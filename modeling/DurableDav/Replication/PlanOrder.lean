import DurableDav.Replication.Absences
import DurableDav.Replication.OneWay

namespace DurableDav.Library

/-! ### Which of two members of a list comes first -/

section First

variable {α : Type} {r : α → α → Prop} {l : List α} {a b : α}

theorem pair_of_pairwise (h : l.Pairwise r) (ha : a ∈ l) (hb : b ∈ l) (hne : a ≠ b) (hr : ¬ r b a) :
    [a, b].Sublist l := by
  induction l with
  | nil => simp at ha
  | cons x xs ih =>
    obtain ⟨hx, hxs⟩ := List.pairwise_cons.mp h
    rcases List.mem_cons.mp ha with rfl | ha'
    · rcases List.mem_cons.mp hb with rfl | hb'
      · exact absurd rfl hne
      · exact (List.singleton_sublist.mpr hb').cons_cons a
    · rcases List.mem_cons.mp hb with rfl | hb'
      · exact absurd (hx a ha') hr
      · exact (ih hxs ha' hb').cons x

/-- Where nothing comes twice only one of the two orders is there. -/
theorem pair_asymm (h : l.Nodup) (hab : [a, b].Sublist l) : ¬ [b, a].Sublist l := by
  intro hba
  induction l with
  | nil => simp at hab
  | cons x xs ih =>
    obtain ⟨hx, hxs⟩ := List.nodup_cons.mp h
    cases hab with
    | cons _ hab =>
      cases hba with
      | cons _ hba => exact ih hxs hab hba
      | cons_cons _ _ => exact hx (hab.subset (by simp))
    | cons_cons _ hb =>
      cases hba with
      | cons _ hba => exact hx (hba.subset (by simp))
      | cons_cons _ _ => exact hx (hb.subset (by simp))

end First

end DurableDav.Library

namespace DurableDav.Replication

open Library

/-! ### The order that the plan is sorted by -/

section Sorted

variable {input : BuildPlanInput} {a b c : Ordered}

theorem before_total (a b : Ordered) : a.before b = true ∨ b.before a = true := by
  unfold Ordered.before
  by_cases h : a.isCollection = b.isCollection
  · simp only [h, ↓reduceIte, decide_eq_true_eq]
    omega
  · rw [if_neg h, if_neg (Ne.symm h)]
    cases ha : a.isCollection with
    | true => exact .inl rfl
    | false =>
      right
      rw [ha] at h
      cases hb : b.isCollection with
      | true => rfl
      | false => exact absurd hb.symm h

theorem before_trans (hab : a.before b = true) (hbc : b.before c = true) : a.before c = true := by
  unfold Ordered.before at *
  grind

theorem deeperBefore_total (a b : Ordered) : a.deeperBefore b = true ∨ b.deeperBefore a = true := by
  simp only [Ordered.deeperBefore, decide_eq_true_eq]
  omega

theorem deeperBefore_trans (hab : a.deeperBefore b = true) (hbc : b.deeperBefore c = true) :
    a.deeperBefore c = true := by
  simp only [Ordered.deeperBefore, decide_eq_true_eq] at *
  omega

theorem sortedPending_pairwise (input : BuildPlanInput) :
    (sortedPending input).Pairwise fun a b => a.before b = true := by
  have : Std.Total fun a b : Ordered => a.before b = true := ⟨before_total⟩
  have : IsTrans Ordered fun a b => a.before b = true := ⟨fun _ _ _ => before_trans⟩
  exact List.pairwise_insertionSort _ _

theorem deletions_pairwise (input : BuildPlanInput) :
    (deletions input).Pairwise fun a b => a.deeperBefore b = true := by
  have : Std.Total fun a b : Ordered => a.deeperBefore b = true := ⟨deeperBefore_total⟩
  have : IsTrans Ordered fun a b => a.deeperBefore b = true := ⟨fun _ _ _ => deeperBefore_trans⟩
  exact List.pairwise_insertionSort _ _

/-- What is pending about a decision: how it is tagged and how deep its path is. -/
theorem pending_tag (h : a ∈ pending input) : a.depth = (a.decision.path.splitOn slash).length ∧
    a.decision.path ∈ input.paths ∧ ∃ taken, (decideAt input taken a.decision.path).decision =
      some (a.decision, a.isCollection) := by
  obtain ⟨v, hv, hd⟩ := mem_pending h
  obtain ⟨p, hp, taken, -, rfl⟩ := mem_walkPaths hv
  obtain rfl : a.decision.path = p := (decidePath_grounds hd).path
  refine ⟨?_, hp, taken, hd⟩
  obtain ⟨x, -, rfl⟩ := List.mem_map.mp h
  rfl

theorem mem_sortedPending : a ∈ sortedPending input ↔ a ∈ pending input := by
  unfold sortedPending
  exact List.mem_insertionSort _

theorem mem_deletions : a ∈ deletions input ↔ a ∈ pending input ∧ isDeletion a = true := by
  unfold deletions
  rw [List.mem_insertionSort, List.mem_filter, mem_sortedPending]

theorem decisions_sorted : ∃ transfers : List Ordered, (buildReplicationPlan input).decisions =
    transfers.map Ordered.decision ++ (deletions input).map Ordered.decision ∧
      transfers.Pairwise (fun a b => a.before b = true) ∧
        ∀ a, a ∈ transfers ↔ a ∈ pending input ∧ isDeletion a = false := by
  refine ⟨(sortedPending input).filter fun e => !isDeletion e, by simp [buildReplicationPlan], ?_, fun a => ?_⟩
  · exact (sortedPending_pairwise input).sublist List.filter_sublist
  · rw [List.mem_filter, mem_sortedPending]
    simp

end Sorted

/-! ### What makes an order one that can be carried out -/

/-- Carrying out the decision creates or replaces something on a side. -/
def ReplicationDecision.creates (d : ReplicationDecision) (s : Side) : Bool :=
  !d.isDeletion && d.asks.any fun m => m.side = s

namespace BuildPlanInput

variable (input : BuildPlanInput)

/-- Carrying out the decision makes a collection of its path. -/
def MakesCollection : ReplicationDecision → Side → Prop
  | .push p _, .remoteSide => (input.localAt p).any PlanSide.isCollection = true
  | .pull p _, .localSide => (input.remoteAt p).any PlanSide.isCollection = true
  | .pullAndPreserve p _ _, .localSide => (input.remoteAt p).any PlanSide.isCollection = true
  | _, _ => False

structure Executable : Prop where
  ancestorsFirst : ∀ e ∈ (buildReplicationPlan input).decisions, ∀ d ∈ (buildReplicationPlan input).decisions, ∀ s,
    input.MakesCollection e s → d.creates s = true → Below slash e.path d.path →
      [e, d].Sublist (buildReplicationPlan input).decisions
  deletionsLast : ∀ d ∈ (buildReplicationPlan input).decisions, ∀ e ∈ (buildReplicationPlan input).decisions,
    d.isDeletion = false → e.isDeletion = true → [d, e].Sublist (buildReplicationPlan input).decisions
  deepestFirst : ∀ d ∈ (buildReplicationPlan input).decisions, ∀ e ∈ (buildReplicationPlan input).decisions,
    d.isDeletion = true → e.isDeletion = true → Below slash e.path d.path →
      [d, e].Sublist (buildReplicationPlan input).decisions
  once : ((buildReplicationPlan input).decisions.map ReplicationDecision.path).Nodup

/-- A file that was changed since the two sides agreed and whose place a collection takes. -/
def Replaced (p : JsString) : Prop := ∃ l r b, input.localAt p = some l ∧ input.remoteAt p = some r ∧
  input.baseAt p = some b ∧ l.isCollection = false ∧ r.isCollection = true ∧
    sideChanged l.observation b.localObservation = true

/-- The local side is brought to the remote's version where one of the two is a collection. -/
def Brings (l r : Option PlanSide) (b : Option PlanBase) : Prop :=
  match l, r, b with
  | none, some r, none => r.isCollection = true
  | none, some r, some _ => input.trustAbsences = true ∧ r.isCollection = true
  | some l, some r, none => l.isCollection ≠ r.isCollection
  | some l, some r, some b =>
    if sideChanged l.observation b.localObservation then l.isCollection = true ∧
      ¬ (sideChanged r.observation b.remoteObservation = true ∧ r.isCollection = true)
    else sideChanged r.observation b.remoteObservation = true ∧ r.isCollection = true
  | _, _, _ => False

def BringsAt (q : JsString) : Prop := input.Brings (input.localAt q) (input.remoteAt q) (input.baseAt q)

end BuildPlanInput

section Tags

variable {input : BuildPlanInput} {taken : List JsString} {p : JsString} {l r : Option PlanSide} {b : Option PlanBase}
  {d : ReplicationDecision} {k : Bool}

/-- The tag is the kind of what is moved, unless it is a file that a collection takes the place of. -/
theorem decidePath_tag (h : (decidePath input taken p l r b).decision = some (d, k)) : match d with
    | .push _ _ => k = l.any PlanSide.isCollection
    | .pull _ _ => k = r.any PlanSide.isCollection
    | .pullAndPreserve _ _ _ => input.mode = .pullOnly ∧ l.isSome ∧ r.isSome ∧
        (∀ row, b = some row → l.any (fun l => sideChanged l.observation row.localObservation) = true) ∧
          k = (l.any PlanSide.isCollection || b.isNone && r.any PlanSide.isCollection)
    | _ => True := by
  unfold decidePath decideGone decideNewLocal decideNewRemote decideBothNew decideOneSided decideBoth
    preserveBoth preserveLocal applyWinner Verdict.emit Verdict.emitWith Verdict.skip Verdict.defer at h
  split at h <;> grind [conflictWinner]

theorem provablyIdentical_collection {l r : PlanSide} (hl : l.isCollection = true) :
    provablyIdentical l r = r.isCollection := by
  cases hr : r.isCollection <;> simp [provablyIdentical, hl, hr]

theorem decideBoth_brings_iff (hmode : input.mode = .pullOnly) (l r : PlanSide) (b : PlanBase) :
    (decideBoth input taken p l r b).decision.any (fun e => e.2 && e.1.creates .localSide) = true ↔
      input.Brings (some l) (some r) (some b) := by
  have hown : (ReplicationDecision.pullAndPreserve p (reserveConflictPath input taken p) l.contentType).creates
      .localSide = true := rfl
  have hpull : (ReplicationDecision.pull p r.contentType).creates .localSide = true := rfl
  have hagree (k : Bool) (ct : Option JsString) : (ReplicationDecision.agree p k ct).creates .localSide = false := rfl
  unfold decideBoth BuildPlanInput.Brings
  cases hlocal : sideChanged l.observation b.localObservation <;>
    cases hremote : sideChanged r.observation b.remoteObservation <;>
    simp only [hmode, hlocal, hremote, preserveLocal, Verdict.emit, Verdict.emitWith, conflictWinner, Option.any_some, ↓reduceIte,
      reduceCtorEq, Bool.false_eq_true, false_and, true_and, and_self, and_true, not_false_eq_true, hown, hpull, hagree,
      Bool.and_true, Bool.and_false]
  cases hk : l.isCollection with
  | true =>
    rw [provablyIdentical_collection hk]
    cases hr : r.isCollection <;> simp [hagree, hown]
  | false => cases provablyIdentical l r <;> simp [hagree, hown]

theorem decidePath_brings_iff (hmode : input.mode = .pullOnly) :
    (decidePath input taken p l r b).decision.any (fun e => e.2 && e.1.creates .localSide) = true ↔
      input.Brings l r b := by
  cases l <;> cases r <;> cases b
  case some.some.some l r b => exact decideBoth_brings_iff hmode l r b
  all_goals
    unfold decidePath decideGone decideNewLocal decideNewRemote decideBothNew decideOneSided preserveLocal
      Verdict.emit Verdict.emitWith Verdict.skip Verdict.defer
    grind [BuildPlanInput.Brings, conflictWinner, ReplicationDecision.creates, ReplicationDecision.asks,
      ReplicationDecision.isDeletion, Mutation.side, provablyIdentical]

theorem decidePath_replaced (hmode : input.mode = .pullOnly) {l r : PlanSide} {b : PlanBase} (hl : l.isCollection = false)
    (hr : r.isCollection = true) (hchanged : sideChanged l.observation b.localObservation = true) :
    (decidePath input taken p (some l) (some r) (some b)).decision =
      some (.pullAndPreserve p (reserveConflictPath input taken p) l.contentType, false) := by
  have hdiffer : provablyIdentical l r = false := by simp [provablyIdentical, hl, hr]
  unfold decidePath decideBoth
  cases hremote : sideChanged r.observation b.remoteObservation <;>
    simp [hchanged, hremote, hmode, hl, hdiffer, conflictWinner, preserveLocal, Verdict.emitWith]

end Tags

section Order

variable {input : BuildPlanInput} {d e : ReplicationDecision}

theorem pending_of_decision {v : Verdict} {k : Bool} (hv : v ∈ verdicts input) (hd : v.decision = some (d, k)) :
    ∃ a ∈ pending input, a.decision = d ∧ a.isCollection = k := by
  have hm : (d, k) ∈ (verdicts input).filterMap Verdict.decision := List.mem_filterMap.mpr ⟨v, hv, hd⟩
  obtain ⟨i, hi, he⟩ := List.getElem_of_mem hm
  refine ⟨⟨d, k, (d.path.splitOn slash).length, i⟩, List.mem_map.mpr ⟨((d, k), i), ?_, rfl⟩, rfl, rfl⟩
  rw [List.mk_mem_zipIdx_iff_getElem?]
  exact List.getElem?_eq_some_iff.mpr ⟨hi, he⟩

theorem pending_of_mem (h : d ∈ (buildReplicationPlan input).decisions) : ∃ a ∈ pending input, a.decision = d := by
  rw [perm_decisions.mem_iff] at h
  exact List.mem_map.mp h

/-- Of two transfers the one that is sorted first is carried out first. -/
theorem transfers_pair {a b : Ordered} (ha : a ∈ pending input) (hb : b ∈ pending input) (hka : isDeletion a = false)
    (hkb : isDeletion b = false) (hne : a ≠ b) (h : b.before a = false) :
    [a.decision, b.decision].Sublist (buildReplicationPlan input).decisions := by
  obtain ⟨transfers, heq, hpairwise, hmem⟩ := @decisions_sorted input
  rw [heq]
  have hpair := pair_of_pairwise hpairwise ((hmem a).mpr ⟨ha, hka⟩) ((hmem b).mpr ⟨hb, hkb⟩) hne (by simp [h])
  exact (hpair.map Ordered.decision).trans (List.sublist_append_left _ _)

theorem deletions_pair {a b : Ordered} (ha : a ∈ deletions input) (hb : b ∈ deletions input) (hne : a ≠ b)
    (h : b.deeperBefore a = false) : [a.decision, b.decision].Sublist (buildReplicationPlan input).decisions := by
  obtain ⟨transfers, heq, -, -⟩ := @decisions_sorted input
  rw [heq]
  have hpair := pair_of_pairwise (deletions_pairwise input) ha hb hne (by simp [h])
  exact (hpair.map Ordered.decision).trans (List.sublist_append_right _ _)

/-- A path has fewer names than what lies below it. -/
theorem pending_depth_lt {a b : Ordered} (ha : a ∈ pending input) (hb : b ∈ pending input)
    (h : Below slash a.decision.path b.decision.path) : a.depth < b.depth ∧ a ≠ b := by
  obtain ⟨hda, hp, -⟩ := pending_tag ha
  obtain ⟨hdb, -, -⟩ := pending_tag hb
  refine ⟨?_, fun heq => ?_⟩
  · rw [hda, hdb]
    exact h.depth_lt (path_ne_nil hp)
  · rw [heq] at h
    exact h.irrefl

theorem deletionsLast (hd : d ∈ (buildReplicationPlan input).decisions) (he : e ∈ (buildReplicationPlan input).decisions)
    (hkd : d.isDeletion = false) (hke : e.isDeletion = true) : [d, e].Sublist (buildReplicationPlan input).decisions := by
  obtain ⟨transfers, heq, -, hmem⟩ := @decisions_sorted input
  obtain ⟨a, ha, rfl⟩ := pending_of_mem hd
  obtain ⟨b, hb, rfl⟩ := pending_of_mem he
  rw [heq]
  have hfirst : [a.decision].Sublist (transfers.map Ordered.decision) :=
    List.singleton_sublist.mpr (List.mem_map_of_mem ((hmem a).mpr ⟨ha, hkd⟩))
  have hlast : [b.decision].Sublist ((deletions input).map Ordered.decision) :=
    List.singleton_sublist.mpr (List.mem_map_of_mem (mem_deletions.mpr ⟨hb, hke⟩))
  exact hfirst.append hlast

theorem deepestFirst (hd : d ∈ (buildReplicationPlan input).decisions) (he : e ∈ (buildReplicationPlan input).decisions)
    (hkd : d.isDeletion = true) (hke : e.isDeletion = true) (h : Below slash e.path d.path) :
    [d, e].Sublist (buildReplicationPlan input).decisions := by
  obtain ⟨a, ha, rfl⟩ := pending_of_mem hd
  obtain ⟨b, hb, rfl⟩ := pending_of_mem he
  obtain ⟨hdepth, hne⟩ := pending_depth_lt hb ha h
  apply deletions_pair (mem_deletions.mpr ⟨ha, hkd⟩) (mem_deletions.mpr ⟨hb, hke⟩) hne.symm
  simp only [Ordered.deeperBefore, decide_eq_false_iff_not]
  omega

/-- The tag of what makes a collection is that of one, unless it replaces a file that was changed. -/
theorem makes_tagged {a : Ordered} (ha : a ∈ pending input) {s : Side} (h : input.MakesCollection a.decision s) :
    a.decision.isDeletion = false ∧ (a.isCollection = true ∨ input.mode = .pullOnly ∧ s = .localSide ∧ input.Replaced a.decision.path) := by
  obtain ⟨-, -, taken, hdecide⟩ := pending_tag ha
  have hgrounds := (decidePath_grounds hdecide).path
  have htag := decidePath_tag hdecide
  generalize a.decision = d at *
  cases d with
  | push p ct =>
    cases s with
    | localSide => exact h.elim
    | remoteSide => exact ⟨rfl, .inl (htag.trans h)⟩
  | pull p ct =>
    cases s with
    | localSide => exact ⟨rfl, .inl (htag.trans h)⟩
    | remoteSide => exact h.elim
  | pullAndPreserve p c ct =>
    cases s with
    | remoteSide => exact h.elim
    | localSide =>
      obtain ⟨hmode, hl, hr, hchanged, hk⟩ := htag
      obtain ⟨l, hl : input.localAt p = some l⟩ := Option.isSome_iff_exists.mp hl
      obtain ⟨r, hr : input.remoteAt p = some r⟩ := Option.isSome_iff_exists.mp hr
      have hcollection : r.isCollection = true := by simpa [BuildPlanInput.MakesCollection, hr] using h
      change ∀ row, input.baseAt p = some row → (input.localAt p).any _ = true at hchanged
      change a.isCollection = ((input.localAt p).any _ || (input.baseAt p).isNone && (input.remoteAt p).any _) at hk
      cases htagged : a.isCollection with
      | true => exact ⟨rfl, .inl rfl⟩
      | false =>
        refine ⟨rfl, .inr ⟨hmode, rfl, l, r, ?_⟩⟩
        rw [htagged, hl, hr] at hk
        simp only [Option.any_some, hcollection, Bool.and_true, Bool.false_eq, Bool.or_eq_false_iff] at hk
        obtain ⟨b, hb⟩ := Option.isSome_iff_exists.mp (by simpa using hk.2)
        have hedit := hchanged b hb
        rw [hl] at hedit
        exact ⟨b, hl, hr, hb, hk.1, hcollection, hedit⟩
  | _ => cases s <;> exact h.elim

theorem executable_iff : input.Executable ↔
    (input.mode = .pullOnly → ∀ p q, input.Replaced p → Below slash p q → ¬ input.BringsAt q) := by
  constructor
  · rintro h hmode p q ⟨l, r, b, hl, hr, hb, hfile, hcollection, hchanged⟩ hbelow hbrings
    have hp : p ∈ input.paths := mem_paths.mpr (.inl (Option.isSome_of_eq_some hl))
    have hq : q ∈ input.paths := by
      rw [mem_paths]
      change (input.localAt q).isSome ∨ (input.remoteAt q).isSome ∨ (input.baseAt q).isSome
      cases hl : input.localAt q <;> cases hr : input.remoteAt q <;>
        simp_all [BuildPlanInput.BringsAt, BuildPlanInput.Brings]
    obtain ⟨taken, -, hv⟩ := verdict_mem hp
    have he : (decideAt input taken p).decision =
        some (.pullAndPreserve p (reserveConflictPath input taken p) l.contentType, false) := by
      rw [decideAt_eq, hl, hr, hb]
      exact decidePath_replaced hmode hfile hcollection hchanged
    obtain ⟨a, ha, hpath, hka⟩ := pending_of_decision hv he
    obtain ⟨taken', -, hv'⟩ := verdict_mem hq
    have hany : (decideAt input taken' q).decision.any (fun e => e.2 && e.1.creates .localSide) = true :=
      (decidePath_brings_iff hmode).mpr hbrings
    obtain ⟨⟨d, k⟩, hd⟩ : ∃ e, (decideAt input taken' q).decision = some e := by
      cases hd : (decideAt input taken' q).decision with
      | none => simp [hd] at hany
      | some e => exact ⟨e, rfl⟩
    have hcreates : k = true ∧ d.creates .localSide = true := by simpa [hd] using hany
    obtain ⟨b', hb', rfl, hkb⟩ := pending_of_decision hv' hd
    have hqpath : b'.decision.path = q := (decidePath_grounds hd).path
    have hmem (x : Ordered) (hx : x ∈ pending input) : x.decision ∈ (buildReplicationPlan input).decisions :=
      perm_decisions.mem_iff.mpr (List.mem_map_of_mem hx)
    have hkind : isDeletion b' = false := by
      simpa [isDeletion, ReplicationDecision.creates] using (Bool.and_eq_true_iff.mp hcreates.2).1
    have hfirst := h.ancestorsFirst a.decision (hmem a ha) b'.decision (hmem b' hb') .localSide
      (by rw [hpath]; simpa [BuildPlanInput.MakesCollection, hr] using hcollection) hcreates.2
      (by rw [hpath, hqpath]; exact hbelow)
    have hother := transfers_pair hb' ha hkind (by rw [isDeletion, hpath]; rfl)
      (fun heq => by rw [heq, hka] at hkb; rw [← hkb] at hcreates; exact Bool.noConfusion hcreates.1)
      (by rw [Ordered.before, hka, hkb, hcreates.1]; rfl)
    exact pair_asymm h.once.of_map hfirst hother
  · intro h
    refine ⟨fun e he d hd s hmakes hcreates hbelow => ?_, fun d hd e he => deletionsLast hd he,
      fun d hd e he => deepestFirst hd he, decisions_path_nodup⟩
    obtain ⟨a, ha, rfl⟩ := pending_of_mem he
    obtain ⟨b, hb, rfl⟩ := pending_of_mem hd
    obtain ⟨hdepth, hne⟩ := pending_depth_lt ha hb hbelow
    obtain ⟨hka, htag⟩ := makes_tagged ha hmakes
    have hkb : isDeletion b = false := by
      simpa [isDeletion, ReplicationDecision.creates] using (Bool.and_eq_true_iff.mp hcreates).1
    apply transfers_pair ha hb hka hkb hne
    rcases htag with htag | ⟨hmode, rfl, hreplaced⟩
    · cases hk : b.isCollection <;> simp [Ordered.before, htag, hk]
      omega
    · have hk : b.isCollection = false := by
        by_contra hk
        obtain ⟨-, -, taken, hd⟩ := pending_tag hb
        apply h hmode _ _ hreplaced hbelow
        apply (decidePath_brings_iff (p := b.decision.path) hmode).mp
        rw [← @decideAt_eq _ taken, hd]
        simp [hcreates, Bool.eq_true_of_not_eq_false hk]
      cases hk' : a.isCollection <;> simp [Ordered.before, hk, hk']
      all_goals omega

end Order

/-! ### A collection below a file that stands in its place -/

def collectionAt (path : JsString) : PlanSide := ⟨path, true, none, some 1, some 0, none⟩

-- the local side has made a file of the collection `f`, the remote has put `f/g` into it
def replacedInput : BuildPlanInput where
  mode := .pullOnly
  localSides := [seenFile 2]
  remoteSides := [collectionAt (js "f"), collectionAt (js "f/g")]
  base := [{ agreedRow with isCollection := true }]
  trustAbsences := true

theorem collection_before_its_parent : (buildReplicationPlan replacedInput).decisions =
    [.pull (js "f/g") none, .pullAndPreserve (js "f") (js "f.conflict-0") none] ∧ ¬ replacedInput.Executable := by
  refine ⟨by decide, fun h => ?_⟩
  have hmakes : replacedInput.MakesCollection (.pullAndPreserve (js "f") (js "f.conflict-0") none) .localSide := by
    change (replacedInput.remoteAt (js "f")).any PlanSide.isCollection = true
    decide
  have hfirst := h.ancestorsFirst _ (by decide) (.pull (js "f/g") none) (by decide) _ hmakes (by decide) (by decide)
  exact absurd hfirst (by decide)

end DurableDav.Replication
