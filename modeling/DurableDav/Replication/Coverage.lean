import DurableDav.Replication.CompleteView
import DurableDav.Replication.RunReport

namespace DurableDav.Replication

open Library

/-! ### The collections of the two trees -/

def World.IsCollection (w : World) (q : JsString) : Prop :=
  isValidInnerPath q = true ∧ ∃ s, (w.tree s).isDirectory q = true

section Collections

variable {w : World} {p q : JsString}

theorem valid_iff : isValidInnerPath p = true ↔
    (names p).length ≤ maxPathDepth ∧ ∀ s ∈ names p, s ≠ [] ∧ s ≠ js "." ∧ s ≠ js ".." := by
  by_cases hp : p = []
  · simp [hp, isValidInnerPath]
  · simp [hp, isValidInnerPath, names_of_ne hp]

theorem valid_of_above (hv : isValidInnerPath q = true) (h : names p <+: names q) : isValidInnerPath p = true := by
  rw [valid_iff] at hv ⊢
  exact ⟨h.length_le.trans hv.1, fun s hs => hv.2 s (h.subset hs)⟩

theorem valid_above (hq : q ≠ []) (hb : Below slash q p) (h : isValidInnerPath p = true) :
    isValidInnerPath q = true := by
  obtain ⟨rest, rfl⟩ := (below_of_ne hq).mp hb
  apply valid_of_above h
  rw [names_append hq]
  exact List.prefix_append _ _

theorem mem_collections : q ∈ w.collections ↔ w.IsCollection q := by
  simp only [World.collections, World.IsCollection, List.mem_cons, List.mem_filter, List.mem_dedup, List.mem_append,
    Store.mem_keys, decide_eq_true_eq]
  have hside : (∃ s, (w.tree s).isDirectory q = true) ↔
      w.localTree.isDirectory q = true ∨ w.remoteTree.isDirectory q = true := by
    constructor
    · rintro ⟨s, hs⟩
      cases s with
      | localSide => exact .inl hs
      | remoteSide => exact .inr hs
    · rintro (h | h)
      · exact ⟨.localSide, h⟩
      · exact ⟨.remoteSide, h⟩
  rw [hside]
  constructor
  · rintro (rfl | ⟨_, _, hv, hd⟩)
    · exact ⟨by simp [isValidInnerPath], .inl (by simp [Tree.isDirectory])⟩
    · exact ⟨hv, hd⟩
  · rintro ⟨hv, hd⟩
    by_cases hq : q = []
    · exact .inl hq
    · refine .inr ⟨?_, hq, hv, hd⟩
      have held {t : Tree} (ht : t.isDirectory q = true) : (Store.get t q).isSome := by
        rw [Option.isSome_iff_ne_none]
        intro hn
        simp [Tree.isDirectory, hq, hn] at ht
      exact hd.imp held held

theorem collections_nodup : w.collections.Nodup := by
  unfold World.collections
  refine List.nodup_cons.mpr ⟨?_, (List.nodup_dedup _).filter _⟩
  simp

theorem names_above_length (h : names p <+: names q) (hne : p ≠ q) : (names p).length < (names q).length := by
  refine lt_of_le_of_ne h.length_le (fun he => hne (names_injective ?_))
  exact h.eq_of_length he

/-- Between a collection and one strictly inside it lies a collection directly inside it. -/
theorem child_on_the_way (hw : w.WellFormed) (hq : w.IsCollection q) (h : names p <+: names q) (hne : p ≠ q) :
    ∃ c, w.IsCollection c ∧ c ≠ [] ∧ parentOf c = p ∧ names c <+: names q := by
  obtain ⟨rest, hrest⟩ := h
  cases rest with
  | nil => exact absurd (names_injective (by simpa using hrest)) hne
  | cons a rest =>
    have ha := usable_segments hq.1 a (by rw [← hrest]; simp)
    have hc : names (childPath p a) = names p ++ [a] := names_childPath ha.1 ha.2
    have hpre : names (childPath p a) <+: names q := by
      rw [hc, ← hrest]
      exact ⟨rest, by simp⟩
    have hnil : childPath p a ≠ [] := by
      rintro he
      rw [he] at hc
      simp at hc
    refine ⟨childPath p a, ⟨valid_of_above hq.1 hpre, ?_⟩, hnil, parentOf_childPath ha.2, hpre⟩
    obtain ⟨s, hs⟩ := hq.2
    refine ⟨s, ?_⟩
    rcases names_prefix_iff.mp hpre with he | hb
    · rwa [he]
    · rw [Tree.isDirectory_iff] at hs ⊢
      right
      have hheld : (w.tree s).content q = some none := hs.resolve_left hb.ne_nil
      exact (hw s).above (by simp [hheld]) hb hnil

theorem names_of_child {c : JsString} (hc : w.IsCollection c) (hne : c ≠ []) (hp : parentOf c = p) :
    ∃ a, names c = names p ++ [a] := by
  obtain ⟨a, ha⟩ := names_child hc.1 hne
  exact ⟨a, hp ▸ ha⟩

end Collections

/-! ### The order of a sweep -/

/-- The collections in the order a sweep visits them. -/
def World.preorder (w : World) : List JsString := sweepSort w.collections

/-- What is left of the order when the walk stands at a collection, or at its end. -/
def World.ahead (w : World) : Option JsString → List JsString
  | none => []
  | some c => w.preorder.filter (fun q => decide (names c ≤ names q))

section Preorder

variable {w : World} {c n q : JsString}

theorem mem_preorder : q ∈ w.preorder ↔ w.IsCollection q := mem_sweepSort.trans mem_collections

theorem preorder_pairwise (w : World) : w.preorder.Pairwise (fun a b => names a < names b) :=
  sweepSort_pairwise collections_nodup

theorem ahead_some (w : World) (c : JsString) :
    w.ahead (some c) = w.preorder.filter (fun q => decide (names c ≤ names q)) := rfl

theorem ahead_root (w : World) : w.ahead (some []) = w.preorder := by
  rw [ahead_some, List.filter_eq_self]
  intro q _
  exact decide_eq_true (le_of_above List.nil_prefix)

theorem ahead_split {before after : List JsString} (h : w.preorder = before ++ c :: after) :
    w.ahead (some c) = c :: after := by
  have hsorted := preorder_pairwise w
  rw [h, List.pairwise_append] at hsorted
  obtain ⟨_, hlater, hbefore⟩ := hsorted
  have hdrop : ∀ x ∈ before, ¬ decide (names c ≤ names x) = true := fun x hx => by
    simpa using hbefore x hx c List.mem_cons_self
  have hkeep : ∀ x ∈ after, decide (names c ≤ names x) = true := fun x hx =>
    decide_eq_true ((List.pairwise_cons.mp hlater).1 x hx).le
  rw [ahead_some, h, List.filter_append, List.filter_cons_of_pos (by simp), List.filter_eq_nil_iff.mpr hdrop,
    List.filter_eq_self.mpr hkeep, List.nil_append]

/-- Where the walk goes next, the order goes on. -/
theorem ahead_step {next : Option JsString} (hc : w.IsCollection c) (hnext : ∀ n ∈ next, w.IsCollection n ∧ names c < names n)
    (hleast : ∀ q, w.IsCollection q → names c < names q → ∃ n ∈ next, names n ≤ names q) :
    w.ahead (some c) = c :: w.ahead next := by
  have hsorted := preorder_pairwise w
  obtain ⟨before, after, hsplit⟩ := List.append_of_mem (mem_preorder.mpr hc)
  rw [ahead_split hsplit]
  rw [hsplit, List.pairwise_append] at hsorted
  obtain ⟨_, hlater, hbefore⟩ := hsorted
  obtain ⟨hafter, _⟩ := List.pairwise_cons.mp hlater
  have hmem {x : JsString} (hx : x ∈ before ++ c :: after) : w.IsCollection x := by
    rw [← hsplit] at hx
    exact mem_preorder.mp hx
  congr 1
  cases next with
  | none =>
    have hempty : after = [] := by
      rw [List.eq_nil_iff_forall_not_mem]
      intro x hx
      obtain ⟨n, hn, _⟩ := hleast x (hmem (by simp [hx])) (hafter x hx)
      simp at hn
    rw [hempty]
    rfl
  | some n =>
    obtain ⟨_, hcn⟩ := hnext n rfl
    have hpast : ∀ x ∈ before, ¬ decide (names n ≤ names x) = true := fun x hx => by
      have hlt : names x < names n := (hbefore x hx c List.mem_cons_self).trans hcn
      simpa using hlt
    have hahead : ∀ x ∈ after, decide (names n ≤ names x) = true := fun x hx => by
      obtain ⟨m, hm, hle⟩ := hleast x (hmem (by simp [hx])) (hafter x hx)
      obtain rfl : n = m := by simpa using hm
      simpa using hle
    rw [ahead_some, hsplit, List.filter_append, List.filter_cons_of_neg (by simpa using hcn),
      List.filter_eq_nil_iff.mpr hpast, List.filter_eq_self.mpr hahead, List.nil_append]

end Preorder

/-! ### What one listing tells -/

/-- Only the calls made and the notes about them tell the two worlds apart. -/
structure World.Reads (w : World) (es : List Event) (w' : World) : Prop where
  same : w' = { w with calls := w'.calls, log := es ++ w.log }
  calls : w.calls ≤ w'.calls

namespace World.Reads

variable {w w₁ w₂ : World} {es es' : List Event}

theorem refl (w : World) : w.Reads [] w := ⟨rfl, le_refl _⟩

theorem trans (h : w.Reads es w₁) (h' : w₁.Reads es' w₂) : w.Reads (es' ++ es) w₂ := by
  refine ⟨?_, h.calls.trans h'.calls⟩
  rw [h'.same, h.same]
  simp

theorem of_call (w : World) (e : Event) : w.Reads [e] (w.tick.note e) := ⟨rfl, Nat.le_succ _⟩

theorem of_tick (w : World) : w.Reads [] w.tick := ⟨rfl, Nat.le_succ _⟩

theorem tree (h : w.Reads es w₁) (s : Side) : w₁.tree s = w.tree s := by
  rw [h.same]
  cases s <;> rfl

theorem log (h : w.Reads es w₁) : w₁.log = es ++ w.log := by rw [h.same]

theorem isCollection (h : w.Reads es w₁) (q : JsString) : w₁.IsCollection q ↔ w.IsCollection q := by
  simp only [World.IsCollection, h.tree]

theorem wellFormed (h : w.Reads es w₁) (hw : w.WellFormed) : w₁.WellFormed := fun s => h.tree s ▸ hw s

theorem ahead (h : w.Reads es w₁) (c : Option JsString) : w₁.ahead c = w.ahead c := by
  rw [h.same]
  rfl

end World.Reads

def Env.listSide (env : Env) : Side → JsString → Run ReplicaListing
  | .localSide, p => env.listReplicaChildren p
  | .remoteSide, p => env.list p

/-- An entry that the tree holds, of the collection itself or directly in it. -/
def Tree.EntryAt (t : Tree) (p : JsString) (e : PlanSide) : Prop :=
  t.describe e.path = some e ∧ (e.path = p ∨ e.path ≠ [] ∧ parentOf e.path = p)

def Heard (w : World) (s : Side) (p : JsString) (e : Event) : Except JsString ReplicaListing → Prop
  | .error _ => True
  | .ok l => (∀ x ∈ l.entries, (w.tree s).EntryAt p x) ∧
      (l.complete = true → e = .answered (.list s p) ∧ ∀ q, q ≠ [] → parentOf q = p → isValidInnerPath q = true →
        ∀ x, (w.tree s).describe q = some x → x ∈ l.entries)

section Listing

variable {env : Env} {w : World} {p : JsString} {s : Side}

theorem describe_path {t : Tree} {q : JsString} {x : PlanSide} (h : t.describe q = some x) : x.path = q := by
  obtain ⟨r, _, rfl⟩ := Option.map_eq_some_iff.mp h
  rfl

theorem entryAt_child {t : Tree} {x : PlanSide} (h : x ∈ t.childEntries p) : t.EntryAt p x := by
  obtain ⟨hne, hpar, hd⟩ := Tree.mem_childEntries.mp h
  exact ⟨hd, .inr ⟨hne, hpar⟩⟩

theorem entryAt_self {t : Tree} {x : PlanSide} (h : x ∈ t.selfEntry p) : t.EntryAt p x := by
  unfold Tree.selfEntry at h
  split at h
  · simp at h
  · have hd : t.describe p = some x := by simpa using h
    have hp := describe_path hd
    exact ⟨hp.symm ▸ hd, .inl hp⟩

theorem child_of_describe {t : Tree} {q : JsString} (hq : q ≠ []) (hpar : parentOf q = p) {x : PlanSide}
    (h : t.describe q = some x) : x ∈ t.childEntries p := by
  have hx := describe_path h
  rw [Tree.mem_childEntries, hx]
  exact ⟨hq, hpar, h⟩

/-- A listing that read the entries `es` of a tree, which miss none that is usable. -/
theorem heard_trim {es : List PlanSide} (hes : ∀ x ∈ es, (w.tree s).EntryAt p x)
    (hall : ∀ q, q ≠ [] → parentOf q = p → isValidInnerPath q = true →
      ∀ x, (w.tree s).describe q = some x → x ∈ es) (a : Answer) :
    Heard w s p (Call.outcome (.list s p) a) (.ok (a.trim es)) := by
  cases a with
  | cut keep => exact ⟨fun x hx => hes x (List.mem_filter.mp hx).1, by simp [Answer.trim]⟩
  | _ => exact ⟨hes, fun _ => ⟨rfl, hall⟩⟩

theorem listSide_run (env : Env) (s : Side) (p : JsString) (w : World) :
    ∃ r e, (env.listSide s p).attempt.run w = (.ok r, w.tick.note e) ∧ Heard w s p e r ∧
      (env.answer w.calls = .performs → (s = .localSide → isValidInnerPath p = true) →
        ∃ l, r = .ok l ∧ l.complete = true) := by
  have rejected {reason : JsString} (ha : env.answer w.calls = .rejects reason) :
      (env.listSide s p).attempt.run w = (.ok (.error reason), w.tick.note (.rejected (.list s p))) := by
    cases s <;> simp only [Env.listSide, Env.listReplicaChildren, Env.list, Act.run_attempt, Env.call, ha] <;> rfl
  cases ha : env.answer w.calls with
  | rejects reason => exact ⟨.error reason, _, rejected ha, trivial, by simp⟩
  | performs | blank | cut keep =>
    cases s with
    | localSide =>
      by_cases hv : isValidInnerPath p = true
      · refine ⟨.ok ((env.answer w.calls).trim (w.localTree.selfEntry p ++
          (w.localTree.childEntries p).filter (fun e => isValidInnerPath e.path))),
          Call.outcome (.list .localSide p) (env.answer w.calls), ?_, heard_trim ?_ ?_ _, ?_⟩
        · simp only [Env.listSide, Env.listReplicaChildren, Act.run_attempt, Env.call, ha, run_carryOut,
            Act.run_bind, Act.run_read, hv]
          rfl
        · intro x hx
          rcases List.mem_append.mp hx with hx | hx
          · exact entryAt_self hx
          · exact entryAt_child (List.mem_filter.mp hx).1
        · intro q hq hpar hvq x hx
          have hpath := describe_path hx
          exact List.mem_append_right _ (List.mem_filter.mpr ⟨child_of_describe hq hpar hx, by rw [hpath]; exact hvq⟩)
        · intro hperf _
          exact ⟨_, rfl, by rw [ha]; first | rfl | simp at hperf⟩
      · refine ⟨.ok ⟨[], false⟩, Call.outcome (.list .localSide p) (env.answer w.calls), ?_, ⟨by simp, by simp⟩,
          fun _ h => absurd (h rfl) hv⟩
        simp only [Env.listSide, Env.listReplicaChildren, Act.run_attempt, Env.call, ha, run_carryOut,
          Act.run_bind, Act.run_read, hv]
        rfl
    | remoteSide =>
      by_cases hs : env.sibling = true
      · refine ⟨.ok ((env.answer w.calls).trim ((w.remoteTree.childEntries p).filter
          (fun e => isValidInnerPath e.path))),
          Call.outcome (.list .remoteSide p) (env.answer w.calls), ?_, heard_trim ?_ ?_ _, ?_⟩
        · simp only [Env.listSide, Env.list, Act.run_attempt, Env.call, ha, run_carryOut, Act.run_bind,
            Act.run_read, hs]
          rfl
        · exact fun x hx => entryAt_child (List.mem_filter.mp hx).1
        · intro q hq hpar hvq x hx
          have hpath := describe_path hx
          exact List.mem_filter.mpr ⟨child_of_describe hq hpar hx, by rw [hpath]; exact hvq⟩
        · intro hperf _
          exact ⟨_, rfl, by rw [ha]; first | rfl | simp at hperf⟩
      · refine ⟨.ok ((env.answer w.calls).trim (w.remoteTree.selfEntry p ++ w.remoteTree.childEntries p)),
          Call.outcome (.list .remoteSide p) (env.answer w.calls), ?_, heard_trim ?_ ?_ _, ?_⟩
        · simp only [Env.listSide, Env.list, Act.run_attempt, Env.call, ha, run_carryOut, Act.run_bind,
            Act.run_read, hs]
          rfl
        · intro x hx
          rcases List.mem_append.mp hx with hx | hx
          · exact entryAt_self hx
          · exact entryAt_child hx
        · intro q hq hpar _ x hx
          exact List.mem_append_right _ (child_of_describe hq hpar hx)
        · intro hperf _
          exact ⟨_, rfl, by rw [ha]; first | rfl | simp at hperf⟩

end Listing

def CollectionListing.Clean (l : CollectionListing) : Prop := l.complete = true ∧ l.errors = 0

def Walk.Clean (walk : Walk) : Prop := walk.complete = true ∧ walk.errors = 0

def heardEntries : Except JsString ReplicaListing → List PlanSide
  | .ok a => CollectionListing.usable a.entries
  | .error _ => []

/-- What the two listings of a collection leave. -/
def bothHeard (p : JsString) (x y : Except JsString ReplicaListing) : CollectionListing :=
  (CollectionListing.empty.receive p .localSide x).receive p .remoteSide y

section BothSides

variable {p : JsString} {x y : Except JsString ReplicaListing}

theorem bothHeard_local : (bothHeard p x y).localEntries = heardEntries x := by
  cases x <;> cases y <;> rfl

theorem bothHeard_remote : (bothHeard p x y).remoteEntries = heardEntries y := by
  cases x <;> cases y <;> rfl

theorem unusable_eq_none {s : Side} {entries : List PlanSide} :
    CollectionListing.unusable p s entries = none ↔ ∀ e ∈ entries, isValidInnerPath e.path = true := by
  simp [CollectionListing.unusable]

theorem clean_receive {l : CollectionListing} {s : Side} : (l.receive p s x).Clean ↔
    l.Clean ∧ ∃ a, x = .ok a ∧ a.complete = true ∧ ∀ e ∈ a.entries, isValidInnerPath e.path = true := by
  cases x with
  | error m => simp [CollectionListing.receive, CollectionListing.fail, CollectionListing.Clean]
  | ok a =>
    simp only [CollectionListing.receive, CollectionListing.take, CollectionListing.Clean, Bool.and_eq_true,
      Option.isNone_iff_eq_none, unusable_eq_none, Except.ok.injEq, exists_eq_left']
    exact ⟨fun ⟨⟨⟨h, ha⟩, hu⟩, he⟩ => ⟨⟨h, he⟩, ha, hu⟩, fun ⟨⟨h, he⟩, ha, hu⟩ => ⟨⟨⟨h, ha⟩, hu⟩, he⟩⟩

theorem clean_bothHeard : (bothHeard p x y).Clean ↔
    (∃ a, x = .ok a ∧ a.complete = true ∧ ∀ e ∈ a.entries, isValidInnerPath e.path = true) ∧
      ∃ a, y = .ok a ∧ a.complete = true ∧ ∀ e ∈ a.entries, isValidInnerPath e.path = true := by
  unfold bothHeard
  rw [clean_receive, clean_receive]
  simp [CollectionListing.Clean, CollectionListing.empty]

theorem mem_heardEntries {e : PlanSide} : e ∈ heardEntries x ↔
    ∃ a, x = .ok a ∧ e ∈ a.entries ∧ isValidInnerPath e.path = true := by
  cases x <;> simp [heardEntries, CollectionListing.usable]

end BothSides

/-- The notes of the listings of a sequence of collections, each read on both sides. -/
def listingEvents : List JsString → List Event
  | [] => []
  | p :: ps => listingEvents ps ++ [.answered (.list .remoteSide p), .answered (.list .localSide p)]

/-- What reading a collection on both sides shows of it. -/
structure Shown (w : World) (p : JsString) (l : CollectionListing) (es : List Event) : Prop where
  localTrue : ∀ e ∈ l.localEntries, w.localTree.describe e.path = some e
  remoteTrue : ∀ e ∈ l.remoteEntries, w.remoteTree.describe e.path = some e
  entries : ∀ e ∈ l.entries, isValidInnerPath e.path = true ∧ ∃ s, (w.tree s).EntryAt p e
  clean : l.Clean → es = listingEvents [p] ∧ ∀ s q, q ≠ [] → parentOf q = p → isValidInnerPath q = true →
    ∀ e, (w.tree s).describe q = some e → e ∈ l.entries

/-- Trees whose listings name nothing but usable paths. -/
def World.Usable (w : World) : Prop := ∀ s q, (w.tree s).content q ≠ none → isValidInnerPath q = true

theorem listCollection_run (env : Env) (p : JsString) (w : World) :
    ∃ l es w', (env.listCollection p).run w = (.ok l, w') ∧ w.Reads es w' ∧ Shown w p l es ∧
      ((∀ n, env.answer n = .performs) → w.Usable → isValidInnerPath p = true → l.Clean) := by
  obtain ⟨x, e₁, hx, hheard₁, hperf₁⟩ := listSide_run env .localSide p w
  obtain ⟨y, e₂, hy, hheard₂, hperf₂⟩ := listSide_run env .remoteSide p (w.tick.note e₁)
  have hreads : w.Reads [e₂, e₁] ((w.tick.note e₁).tick.note e₂) :=
    (World.Reads.of_call w e₁).trans (World.Reads.of_call _ e₂)
  have hsame (s : Side) : ((w.tick.note e₁).tree s) = w.tree s := (World.Reads.of_call w e₁).tree s
  refine ⟨bothHeard p x y, [e₂, e₁], _, ?_, hreads, ⟨?_, ?_, ?_, ?_⟩, ?_⟩
  · unfold Env.listCollection
    rw [Act.run_bind_ok (show (env.listReplicaChildren p).attempt.run w = (.ok x, _) from hx),
      Act.run_bind_ok (show (env.list p).attempt.run _ = (.ok y, _) from hy)]
    rfl
  · intro e he
    rw [bothHeard_local, mem_heardEntries] at he
    obtain ⟨a, rfl, hm, _⟩ := he
    exact (hheard₁.1 e hm).1
  · intro e he
    rw [bothHeard_remote, mem_heardEntries] at he
    obtain ⟨a, rfl, hm, _⟩ := he
    have htrue := (hheard₂.1 e hm).1
    rwa [hsame] at htrue
  · intro e he
    rw [CollectionListing.entries, List.mem_append, bothHeard_local, bothHeard_remote, mem_heardEntries,
      mem_heardEntries] at he
    rcases he with ⟨a, rfl, hm, hv⟩ | ⟨a, rfl, hm, hv⟩
    · exact ⟨hv, .localSide, hheard₁.1 e hm⟩
    · refine ⟨hv, .remoteSide, ?_⟩
      have htrue := hheard₂.1 e hm
      rwa [hsame] at htrue
  · intro hclean
    obtain ⟨⟨a, rfl, hca, _⟩, b, rfl, hcb, _⟩ := clean_bothHeard.mp hclean
    obtain ⟨rfl, hall₁⟩ := hheard₁.2 hca
    obtain ⟨rfl, hall₂⟩ := hheard₂.2 hcb
    refine ⟨rfl, fun s q hq hpar hv e he => ?_⟩
    have hpath := describe_path he
    rw [CollectionListing.entries, List.mem_append, bothHeard_local, bothHeard_remote, mem_heardEntries,
      mem_heardEntries]
    cases s with
    | localSide => exact .inl ⟨a, rfl, hall₁ q hq hpar hv e he, by rw [hpath]; exact hv⟩
    | remoteSide =>
      rw [← hsame] at he
      exact .inr ⟨b, rfl, hall₂ q hq hpar hv e he, by rw [hpath]; exact hv⟩
  · intro hperf husable hv
    obtain ⟨a, rfl, hca⟩ := hperf₁ (hperf _) (fun _ => hv)
    obtain ⟨b, rfl, hcb⟩ := hperf₂ (hperf _) (fun _ => hv)
    have usable {s : Side} {e : PlanSide} (h : (w.tree s).EntryAt p e) : isValidInnerPath e.path = true := by
      apply husable s
      intro hnone
      have hd := h.1
      rw [Tree.describe, Tree.content_eq_none.mp hnone] at hd
      simp at hd
    refine clean_bothHeard.mpr ⟨⟨a, rfl, hca, fun e he => usable (hheard₁.1 e he)⟩, b, rfl, hcb, fun e he => ?_⟩
    have htrue := hheard₂.1 e he
    rw [hsame] at htrue
    exact usable htrue

/-! ### One visit -/

/-- What the walk has gathered is true of the trees. -/
def Walk.Truthful (w : World) (walk : Walk) : Prop :=
  (∀ q e, Store.get walk.localByPath q = some e → w.localTree.describe q = some e) ∧
    ∀ q e, Store.get walk.remoteByPath q = some e → w.remoteTree.describe q = some e

/-- The collections directly inside one, in order. -/
structure Kids (w : World) (p : JsString) (children : List JsString) : Prop where
  member : ∀ q ∈ children, w.IsCollection q ∧ q ≠ [] ∧ parentOf q = p
  ordered : children.Pairwise (fun a b => names a < names b)

structure Visit (w : World) (p : JsString) (walk walk' : Walk) (children : List JsString) (es : List Event) : Prop where
  kept : walk'.visited = walk.visited ∧ walk'.frontier = walk.frontier ∧ walk'.cursor = walk.cursor
  truthful : walk.Truthful w → walk'.Truthful w
  kids : Kids w p children
  clean : walk'.Clean → walk.Clean ∧ es = listingEvents [p] ∧
    ∀ q, w.IsCollection q → q ≠ [] → parentOf q = p → q ∉ walk.visited → q ∈ children

section Visiting

variable {env : Env} {w : World} {walk : Walk} {p : JsString}

theorem get_setAll {index : Store JsString PlanSide} {entries : List PlanSide} {q : JsString} {e : PlanSide}
    (h : Store.get (setAll index entries) q = some e) : Store.get index q = some e ∨ e ∈ entries ∧ e.path = q := by
  induction entries generalizing index with
  | nil => exact .inl h
  | cons x xs ih =>
    rcases ih h with h | ⟨hm, hp⟩
    · rw [Store.get_put] at h
      split at h
      · rename_i hq
        obtain rfl : x = e := by simpa using h
        exact .inr ⟨List.mem_cons_self, hq.symm⟩
      · exact .inl h
    · exact .inr ⟨List.mem_cons_of_mem _ hm, hp⟩

theorem see_truthful {l : CollectionListing} {es : List Event} (hl : Shown w p l es) (h : walk.Truthful w) :
    (walk.see l).Truthful w := by
  refine ⟨fun q e he => ?_, fun q e he => ?_⟩
  · rcases get_setAll he with he | ⟨hm, rfl⟩
    · exact h.1 q e he
    · exact hl.localTrue e hm
  · rcases get_setAll he with he | ⟨hm, rfl⟩
    · exact h.2 q e he
    · exact hl.remoteTrue e hm

theorem mem_children {l : CollectionListing} {visited : List JsString} {q : JsString} :
    q ∈ l.children p visited ↔ q ≠ p ∧ q ∉ visited ∧ ∃ e ∈ l.entries, e.isCollection = true ∧ e.path = q := by
  unfold CollectionListing.children
  rw [mem_sweepSort, List.mem_dedup, List.mem_map]
  simp only [List.mem_filter, decide_eq_true_eq]
  constructor
  · rintro ⟨e, ⟨he, hc, hp, hv⟩, rfl⟩
    exact ⟨hp, hv, e, he, hc, rfl⟩
  · rintro ⟨hp, hv, e, he, hc, rfl⟩
    exact ⟨e, ⟨he, hc, hp, hv⟩, rfl⟩

theorem entryAt_collection {s : Side} {e : PlanSide} (h : (w.tree s).EntryAt p e) (hc : e.isCollection = true) :
    (w.tree s).isDirectory e.path = true := by
  obtain ⟨r, hr, he⟩ := Option.map_eq_some_iff.mp h.1
  rw [Tree.isDirectory_iff, Tree.content, hr]
  right
  have hnone : r.bytes.isNone = true := by
    rw [← he] at hc
    exact hc
  simpa using hnone

theorem children_kids {l : CollectionListing} {es : List Event} (hl : Shown w p l es) (visited : List JsString) :
    Kids w p (l.children p visited) := by
  constructor
  · intro q hq
    obtain ⟨hp, _, e, he, hc, rfl⟩ := mem_children.mp hq
    obtain ⟨hv, s, hs⟩ := hl.entries e he
    rcases hs.2 with h | ⟨hne, hpar⟩
    · exact absurd h hp
    · exact ⟨⟨hv, s, entryAt_collection hs hc⟩, hne, hpar⟩
  · exact sweepSort_pairwise (List.nodup_dedup _)

theorem children_whole {l : CollectionListing} {es : List Event} (hl : Shown w p l es) (hclean : l.Clean)
    {visited : List JsString} {q : JsString} (hq : w.IsCollection q) (hne : q ≠ []) (hpar : parentOf q = p)
    (hv : q ∉ visited) : q ∈ l.children p visited := by
  obtain ⟨s, hs⟩ := hq.2
  have hcontent := (Tree.isDirectory_iff.mp hs).resolve_left hne
  obtain ⟨r, hr, hbytes⟩ := Option.map_eq_some_iff.mp hcontent
  have hd : (w.tree s).describe q = some (r.entry q) := by simp [Tree.describe, hr]
  have hself : q ≠ p := by
    rintro rfl
    have hlt : (parentOf q).length < q.length := parentSegments_length_lt hne
    rw [hpar] at hlt
    exact absurd hlt (lt_irrefl _)
  refine mem_children.mpr ⟨hself, hv, r.entry q, (hl.clean hclean).2 s q hne hpar hq.1 _ hd, ?_, rfl⟩
  simp [Resource.entry, Resource.isCollection, hbytes]

theorem see_clean {l : CollectionListing} : (walk.see l).Clean ↔ walk.Clean ∧ l.Clean := by
  simp only [Walk.Clean, Walk.see, CollectionListing.Clean, Bool.and_eq_true, Nat.add_eq_zero_iff]
  exact ⟨fun ⟨⟨a, b⟩, c, d⟩ => ⟨⟨a, c⟩, b, d⟩, fun ⟨⟨a, c⟩, b, d⟩ => ⟨⟨a, b⟩, c, d⟩⟩

theorem visit_run (env : Env) (walk : Walk) (p : JsString) (w : World) :
    ∃ walk' children es w', (env.visit walk p).run w = (.ok (walk', children), w') ∧ w.Reads es w' ∧
      Visit w p walk walk' children es ∧
      ((∀ n, env.answer n = .performs) → w.Usable → isValidInnerPath p = true → walk.Clean → walk'.Clean) := by
  obtain ⟨l, es, w', hrun, hreads, hl, hperf⟩ := listCollection_run env p w
  refine ⟨walk.see l, l.children p walk.visited, es, w', ?_, hreads, ⟨⟨rfl, rfl, rfl⟩, see_truthful hl,
    children_kids hl walk.visited, fun hclean => ?_⟩, fun h hu hv hc => see_clean.mpr ⟨hc, hperf h hu hv⟩⟩
  · exact Act.run_bind_ok hrun
  · obtain ⟨hwalk, hlisting⟩ := see_clean.mp hclean
    exact ⟨hwalk, (hl.clean hlisting).1, fun q => children_whole hl hlisting⟩

end Visiting

end DurableDav.Replication
