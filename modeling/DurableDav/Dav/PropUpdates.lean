import DurableDav.Dav.Calm
import DurableDav.Dav.PropRoundTrip

namespace DurableDav.Dav

open Library

/-! ### The instructions one after the other -/

abbrev PropTable := Store PropKey PropRow

/-- What an instruction leaves of the property it names. -/
def ProppatchOperation.outcome (op : ProppatchOperation) : Option PropRow := match op.action with
  | .set => some op.property.row
  | .remove => none

def ProppatchOperation.apply (path : JsString) (props : PropTable) (op : ProppatchOperation) : PropTable := match op.action with
  | .set => Store.put props (.of path op.property) op.property.row
  | .remove => Store.remove props (.of path op.property)

def inOrder (path : JsString) (ops : List ProppatchOperation) (props : PropTable) : PropTable :=
  ops.foldl (ProppatchOperation.apply path) props

/-- All that is set, and after it all that is removed. -/
def regrouped (ops : List ProppatchOperation) : List ProppatchOperation :=
  ops.filter (fun op => op.action = .set) ++ ops.filter (fun op => op.action = .remove)

def lastOn (path : JsString) (ops : List ProppatchOperation) (key : PropKey) : Option ProppatchOperation :=
  (ops.filter (fun op => PropKey.of path op.property = key)).getLast?

/-- A property that is removed is not set any more after that. -/
def RemovesLast (ops : List ProppatchOperation) : Prop :=
  ∀ op ∈ ops, op.action = .remove →
    ∀ last, (ops.filter (fun o => op.property.SameName o.property)).getLast? = some last → last.action = .remove

section Order

variable {path : JsString} {ops before after : List ProppatchOperation} {op : ProppatchOperation} {props : PropTable}
  {key : PropKey}

theorem apply_get : Store.get (op.apply path props) key =
    if PropKey.of path op.property = key then op.outcome else Store.get props key := by
  unfold ProppatchOperation.apply ProppatchOperation.outcome
  cases op.action with
  | set =>
    dsimp only
    rw [Store.get_put]
    by_cases hk : key = PropKey.of path op.property
    · rw [if_pos hk, if_pos hk.symm]
    · rw [if_neg hk, if_neg (Ne.symm hk)]
  | remove =>
    dsimp only
    rw [Store.get_remove]
    by_cases hk : key = PropKey.of path op.property
    · rw [if_pos hk, if_pos hk.symm]
    · rw [if_neg hk, if_neg (Ne.symm hk)]

theorem lastOn_append : lastOn path (before ++ after) key = (lastOn path after key).or (lastOn path before key) := by
  unfold lastOn
  rw [List.filter_append, List.getLast?_append]

/-- The last instruction on a property decides. -/
theorem inOrder_get : Store.get (inOrder path ops props) key =
    ((lastOn path ops key).map ProppatchOperation.outcome).getD (Store.get props key) := by
  induction ops using List.reverseRecOn with
  | nil => rfl
  | append_singleton rest op ih =>
    unfold inOrder at ih ⊢
    rw [List.foldl_append, List.foldl_cons, List.foldl_nil, apply_get, ih, lastOn_append]
    by_cases hk : PropKey.of path op.property = key
    · rw [if_pos hk, show lastOn path [op] key = some op by simp [lastOn, hk]]
      rfl
    · rw [if_neg hk, show lastOn path [op] key = none by simp [lastOn, hk]]
      rfl

theorem lastOn_mem (h : lastOn path ops key = some op) : op ∈ ops ∧ PropKey.of path op.property = key := by
  have hmem := List.mem_of_getLast? h
  simpa using hmem

theorem lastOn_eq_none_iff : lastOn path ops key = none ↔ ∀ op ∈ ops, PropKey.of path op.property ≠ key := by
  unfold lastOn
  simp

theorem lastOn_same : lastOn path ops (.of path op.property) =
    (ops.filter (fun o => op.property.SameName o.property)).getLast? := by
  unfold lastOn
  simp only [key_eq_iff]

theorem regrouped_last : lastOn path (regrouped ops) key =
    (lastOn path (ops.filter (fun op => op.action = .remove)) key).or
      (lastOn path (ops.filter (fun op => op.action = .set)) key) :=
  lastOn_append

/-- Where nothing is removed, the order in which all is set has not changed. -/
theorem sets_last (h : lastOn path (ops.filter (fun op => op.action = .remove)) key = none) :
    lastOn path (ops.filter (fun op => op.action = .set)) key = lastOn path ops key := by
  unfold lastOn
  rw [List.filter_filter]
  congr 1
  apply List.filter_congr
  intro op hop
  by_cases hk : PropKey.of path op.property = key
  · cases hact : op.action with
    | set => simp [hk]
    | remove => exact absurd hk (lastOn_eq_none_iff.mp h op (by simp [hop, hact]))
  · simp [hk]

/-- Setting first and removing then comes to what the order says exactly if no property is set after it was removed. -/
theorem regrouped_iff :
    (∀ key, Store.get (inOrder path (regrouped ops) props) key = Store.get (inOrder path ops props) key) ↔ RemovesLast ops := by
  simp only [inOrder_get, regrouped_last]
  constructor
  · intro h op hop hact last hlast
    have hkey := h (.of path op.property)
    have hlast' : lastOn path ops (.of path op.property) = some last := lastOn_same.trans hlast
    have hsome : lastOn path (ops.filter (fun op => op.action = .remove)) (.of path op.property) ≠ none :=
      fun hnone => lastOn_eq_none_iff.mp hnone op (List.mem_filter.mpr ⟨hop, by simpa using hact⟩) rfl
    obtain ⟨removal, hremoval⟩ := Option.ne_none_iff_exists'.mp hsome
    have hremove : removal.action = .remove := by
      have hmem := (lastOn_mem hremoval).1
      simpa using (List.mem_filter.mp hmem).2
    rw [hremoval, hlast'] at hkey
    have hnone : removal.outcome = none := by
      unfold ProppatchOperation.outcome
      rw [hremove]
    rw [Option.some_or, Option.map_some, Option.getD_some, hnone, Option.map_some, Option.getD_some] at hkey
    cases hlastact : last.action with
    | remove => rfl
    | set =>
      unfold ProppatchOperation.outcome at hkey
      rw [hlastact] at hkey
      cases hkey
  · intro h key
    cases hremoval : lastOn path (ops.filter (fun op => op.action = .remove)) key with
    | none => rw [Option.none_or, sets_last hremoval]
    | some removal =>
      obtain ⟨hmem, rfl⟩ := lastOn_mem hremoval
      obtain ⟨hop, hact⟩ := List.mem_filter.mp hmem
      have hremove : removal.action = .remove := by simpa using hact
      obtain ⟨last, hlast⟩ := Option.ne_none_iff_exists'.mp (mt lastOn_eq_none_iff.mp fun hall => hall removal hop rfl)
      have hend := h removal hop hremove last (lastOn_same ▸ hlast)
      rw [hlast, Option.some_or]
      unfold ProppatchOperation.outcome
      simp [hremove, hend]

end Order

/-! ### The statements of an update -/

namespace Env

variable (env : Env)

/-- Which of some calls fail that are made one after the other. -/
def failures (calls : List Op) : List Op → List Bool
  | [] => []
  | op :: rest => (env.fails op (calls.count op)).isSome :: failures (op :: calls) rest

def setStatement (path : JsString) (d : DeadProperty) : Op := .exec (.upsertProp (.of path d))

def removeStatement (path : JsString) (d : DeadProperty) : Op := .exec (.deleteProp (.of path d))

def setIn (path : JsString) (d : DeadProperty) (v : Volume) : Volume := { v with props := Store.put v.props (.of path d) d.row }

def removeIn (path : JsString) (d : DeadProperty) (v : Volume) : Volume := { v with props := Store.remove v.props (.of path d) }

def statements (path : JsString) (ops : List ProppatchOperation) : List Op :=
  (propertiesOf .set ops).map (setStatement path) ++ (propertiesOf .remove ops).map (removeStatement path)

end Env

/-- The elements that come with a flag. -/
def flagged {α : Type} (b : Bool) (flags : List Bool) (as : List α) : List α :=
  ((as.zip flags).filter (fun e => e.2 = b)).map Prod.fst

section Flags

variable {α : Type} {b : Bool} {flags : List Bool} {as : List α} {a : α}

@[simp] theorem flagged_nil : flagged b flags ([] : List α) = [] := by simp [flagged]

theorem flagged_cons {c : Bool} :
    flagged b (c :: flags) (a :: as) = if c = b then a :: flagged b flags as else flagged b flags as := by
  unfold flagged
  by_cases hc : c = b <;> simp [hc]

theorem flagged_mem (hlen : flags.length = as.length) (ha : a ∈ as) :
    a ∈ flagged false flags as ∨ a ∈ flagged true flags as := by
  induction as generalizing flags with
  | nil => cases ha
  | cons a' as ih =>
    cases flags with
    | nil => simp at hlen
    | cons c flags =>
      rw [flagged_cons, flagged_cons]
      rcases List.mem_cons.mp ha with rfl | ha
      · cases c <;> simp
      · have hrest := ih (by simpa using hlen) ha
        cases c <;> simp only [↓reduceIte, Bool.false_eq_true, Bool.true_eq_false, List.mem_cons] <;> tauto

theorem flagged_eq_nil (hlen : flags.length = as.length) : flagged b flags as = [] ↔ ∀ c ∈ flags, c = !b := by
  induction as generalizing flags with
  | nil =>
    have hnil : flags = [] := List.length_eq_zero_iff.mp (by simpa using hlen)
    simp [hnil]
  | cons a as ih =>
    cases flags with
    | nil => simp at hlen
    | cons c flags =>
      have hrest : flagged b flags as = [] ↔ ∀ c ∈ flags, c = !b := ih (by simpa using hlen)
      rw [flagged_cons, List.forall_mem_cons, ← hrest]
      by_cases hc : c = b
      · simp [hc]
      · rw [if_neg hc]
        exact ⟨fun h => ⟨Bool.eq_not_of_ne hc, h⟩, And.right⟩

theorem flagged_all (hlen : flags.length = as.length) (hall : ∀ c ∈ flags, c = b) : flagged b flags as = as := by
  induction as generalizing flags with
  | nil => simp
  | cons a as ih =>
    cases flags with
    | nil => simp at hlen
    | cons c flags =>
      obtain ⟨hc, hrest⟩ := List.forall_mem_cons.mp hall
      rw [flagged_cons, if_pos hc, ih (by simpa using hlen) hrest]

end Flags

section Writing

variable {env : Env} {path : JsString} {ops : List ProppatchOperation} {s : Session} {calls calls' stmts more : List Op}

@[simp] theorem failures_length : (env.failures calls stmts).length = stmts.length := by
  induction stmts generalizing calls with
  | nil => rfl
  | cons op rest ih => simp [Env.failures, ih]

theorem failures_append : env.failures calls (stmts ++ more) =
    env.failures calls stmts ++ env.failures (stmts.reverse ++ calls) more := by
  induction stmts generalizing calls with
  | nil => rfl
  | cons op rest ih => simp [Env.failures, ih]

/-- Only how often the calls themselves were made before counts. -/
theorem failures_congr (h : ∀ op ∈ stmts, calls.count op = calls'.count op) :
    env.failures calls stmts = env.failures calls' stmts := by
  induction stmts generalizing calls calls' with
  | nil => rfl
  | cons op rest ih =>
    have hrest : env.failures (op :: calls) rest = env.failures (op :: calls') rest := by
      refine ih fun op' hop' => ?_
      rw [List.count_cons, List.count_cons, h op' (List.mem_cons_of_mem _ hop')]
    rw [Env.failures, Env.failures, h op List.mem_cons_self, hrest]

/-- Those that are written are those whose statement did not fail, and they are what has changed. -/
theorem writeEach_run {write : DeadProperty → Serve Unit} {op : DeadProperty → Op} {f : DeadProperty → Volume → Volume}
    (hwrite : ∀ d, write d = env.call (op d) (Env.modifyVolume (f d))) (ds : List DeadProperty) (s : Session) :
    (Env.writeEach write ds).run s = (.ok (flagged false (env.failures s.calls (ds.map op)) ds,
        flagged true (env.failures s.calls (ds.map op)) ds),
      ⟨(flagged false (env.failures s.calls (ds.map op)) ds).foldl (fun v d => f d v) s.volume,
        (ds.map op).reverse ++ s.calls⟩) := by
  induction ds generalizing s with
  | nil => rfl
  | cons d ds ih =>
    rw [List.map_cons, Env.failures, flagged_cons, flagged_cons]
    cases hf : env.fails (op d) (s.calls.count (op d)) with
    | some e =>
      have hrun : (write d).attempt.run s = (.ok (.error e), s.record (op d)) := by
        rw [Act.run_attempt, hwrite, call_run_fails hf]
      unfold Env.writeEach
      rw [Act.run_bind_ok hrun, Act.run_bind_ok (ih (s.record (op d)))]
      simp [Session.record, Except.toOption]
    | none =>
      have hrun : (write d).attempt.run s = (.ok (.ok ()), ⟨f d s.volume, op d :: s.calls⟩) := by
        rw [Act.run_attempt, hwrite, call_run hf]
        rfl
      unfold Env.writeEach
      rw [Act.run_bind_ok hrun, Act.run_bind_ok (ih ⟨f d s.volume, op d :: s.calls⟩)]
      simp [Except.toOption]

theorem setEach_run (env : Env) (path : JsString) (ds : List DeadProperty) (s : Session) :
    (Env.writeEach (env.setDeadProperty path) ds).run s = (.ok (flagged false (env.failures s.calls (ds.map (Env.setStatement path))) ds,
        flagged true (env.failures s.calls (ds.map (Env.setStatement path))) ds),
      ⟨(flagged false (env.failures s.calls (ds.map (Env.setStatement path))) ds).foldl (fun v d => Env.setIn path d v)
          s.volume,
        (ds.map (Env.setStatement path)).reverse ++ s.calls⟩) := writeEach_run (fun _ => rfl) ds s

theorem removeEach_run (env : Env) (path : JsString) (ds : List DeadProperty) (s : Session) :
    (Env.writeEach (env.removeDeadProperty path) ds).run s = (.ok (flagged false (env.failures s.calls (ds.map (Env.removeStatement path))) ds,
        flagged true (env.failures s.calls (ds.map (Env.removeStatement path))) ds),
      ⟨(flagged false (env.failures s.calls (ds.map (Env.removeStatement path))) ds).foldl (fun v d => Env.removeIn path d v)
          s.volume,
        (ds.map (Env.removeStatement path)).reverse ++ s.calls⟩) := writeEach_run (fun _ => rfl) ds s

theorem carried_props {action : PropAction} {f : DeadProperty → Volume → Volume} (v : Volume)
    (hf : ∀ op : ProppatchOperation, op.action = action → ∀ v, (f op.property v).props = op.apply path v.props) :
    ((Env.propertiesOf action ops).foldl (fun v d => f d v) v).props =
      inOrder path (ops.filter (fun op => op.action = action)) v.props := by
  induction ops generalizing v with
  | nil => rfl
  | cons op rest ih =>
    unfold Env.propertiesOf at ih ⊢
    by_cases hact : op.action = action
    · rw [List.filter_cons_of_pos (by simpa using hact), List.map_cons, List.foldl_cons, ih]
      unfold inOrder
      rw [List.foldl_cons, hf op hact]
    · rw [List.filter_cons_of_neg (by simpa using hact), ih]

end Writing

/-! ### What an update does and says -/

/-- Every property that an update names is accounted for. -/
def Accounted (ops : List ProppatchOperation) (o : Env.PropOutcome) : Prop :=
  ∀ op ∈ ops, op.property ∈ o.applied ++ o.forbidden ++ o.dependent

structure Env.Written (env : Env) (path : JsString) (ops : List ProppatchOperation) (s : Session) (o : Env.PropOutcome)
    (v' : Volume) : Prop where
  forbidden : o.forbidden = []
  accounted : Accounted ops o
  refused : o.applied = [] ↔ ∀ c ∈ env.failures s.calls (Env.statements path ops), c = true
  accepted : o.dependent = [] ↔ ∀ c ∈ env.failures s.calls (Env.statements path ops), c = false
  unchanged : (∀ c ∈ env.failures s.calls (Env.statements path ops), c = true) → v'.props = s.volume.props
  carried : (∀ c ∈ env.failures s.calls (Env.statements path ops), c = false) →
    v'.props = inOrder path (regrouped ops) s.volume.props

section Applying

variable {env : Env} {path : JsString} {ops : List ProppatchOperation}

theorem applyOperations_run (env : Env) (path : JsString)
    (hfree : (ops.map ProppatchOperation.property).any isProtectedProperty = false) (s : Session) :
    ∃ outcome s', (env.applyOperations path ops).run s = (.ok outcome, s') ∧ env.Written path ops s outcome s'.volume := by
  set sets := Env.propertiesOf .set ops with hsets
  set removes := Env.propertiesOf .remove ops with hremoves
  set calls := (sets.map (Env.setStatement path)).reverse ++ s.calls with hcalls
  set flags := env.failures s.calls (sets.map (Env.setStatement path)) with hflags
  set more := env.failures calls (removes.map (Env.removeStatement path)) with hmore
  have hlen : flags.length = sets.length := by rw [hflags, failures_length, List.length_map]
  have hlen' : more.length = removes.length := by rw [hmore, failures_length, List.length_map]
  have hall : env.failures s.calls (Env.statements path ops) = flags ++ more := by
    unfold Env.statements
    rw [failures_append]
  have hfirst := setEach_run env path sets s
  rw [← hflags, ← hcalls] at hfirst
  set v₁ := (flagged false flags sets).foldl (fun v d => Env.setIn path d v) s.volume with hv₁
  have hsecond := removeEach_run env path removes ⟨v₁, calls⟩
  rw [← hmore] at hsecond
  set v₂ := (flagged false more removes).foldl (fun v d => Env.removeIn path d v) v₁ with hv₂
  refine ⟨⟨flagged false flags sets ++ flagged false more removes, [],
      flagged true flags sets ++ flagged true more removes⟩,
    ⟨v₂, (removes.map (Env.removeStatement path)).reverse ++ calls⟩, ?_, rfl, ?_, ?_, ?_, fun h => ?_, fun h => ?_⟩
  · unfold Env.applyOperations
    rw [if_neg (by simp [hfree]), Act.run_bind_ok hfirst]
    dsimp only
    rw [Act.run_bind_ok hsecond]
    rfl
  · intro op hop
    have hmem : op.property ∈ Env.propertiesOf op.action ops :=
      List.mem_map_of_mem (List.mem_filter.mpr ⟨hop, by simp⟩)
    cases hact : op.action with
    | set =>
      rw [hact] at hmem
      rcases flagged_mem hlen hmem with h | h <;> simp [h]
    | remove =>
      rw [hact] at hmem
      rcases flagged_mem hlen' hmem with h | h <;> simp [h]
  · rw [hall, List.forall_mem_append, List.append_eq_nil_iff, flagged_eq_nil hlen, flagged_eq_nil hlen']
    rfl
  · rw [hall, List.forall_mem_append, List.append_eq_nil_iff, flagged_eq_nil hlen, flagged_eq_nil hlen']
    rfl
  · rw [hall, List.forall_mem_append] at h
    rw [hv₂, (flagged_eq_nil (b := false) hlen').mpr h.2, hv₁, (flagged_eq_nil (b := false) hlen).mpr h.1]
    rfl
  · rw [hall, List.forall_mem_append] at h
    have hset : ∀ op : ProppatchOperation, op.action = .set →
        ∀ v, (Env.setIn path op.property v).props = op.apply path v.props := by
      intro op hact v
      simp [ProppatchOperation.apply, Env.setIn, hact]
    have hremove : ∀ op : ProppatchOperation, op.action = .remove →
        ∀ v, (Env.removeIn path op.property v).props = op.apply path v.props := by
      intro op hact v
      simp [ProppatchOperation.apply, Env.removeIn, hact]
    rw [hv₂, flagged_all hlen' h.2, hremoves, carried_props v₁ hremove, hv₁, flagged_all hlen h.1, hsets,
      carried_props s.volume hset]
    unfold regrouped inOrder
    rw [List.foldl_append]

end Applying

/-- All is done, in the order that is asked for, and said to be; or nothing is. -/
def AllOrNothing (path : JsString) (ops : List ProppatchOperation) (o : Env.PropOutcome) (v v' : Volume) : Prop :=
  (∀ key, Store.get v'.props key = Store.get (inOrder path ops v.props) key) ∧ o.forbidden = [] ∧ o.dependent = [] ∨
  (∀ key, Store.get v'.props key = Store.get v.props key) ∧ o.applied = []

structure UpdatesAtomically (env : Env) (r : Incoming) (path : JsString) (bases : DavBases) (v : Volume) : Prop where
  answered : ∀ href outcome s', (env.handleProppatch r path bases).run ⟨v, []⟩ = (.ok (.multistatus href outcome), s') →
    ∃ ops, r.propOperations env.platform = some ops ∧ AllOrNothing path ops outcome v s'.volume ∧ Accounted ops outcome
  otherwise : ∀ answer s', (env.handleProppatch r path bases).run ⟨v, []⟩ = (answer, s') →
    (∀ href outcome, answer ≠ .ok (.multistatus href outcome)) → ∀ key, Store.get s'.volume.props key = Store.get v.props key

/-- No lock is in the way, and there is a resource to describe. -/
def Env.Proceeds (env : Env) (r : Incoming) (path : JsString) (bases : DavBases) (v : Volume) : Prop :=
  ∃ s₁ node s₂, (env.assertLock r.toRequest path).run ⟨v, []⟩ = (.ok none, s₁) ∧
    (env.nodeAt path bases.hrefBase).run s₁ = (.ok (some node), s₂)

/-- All of the statements fail, or none does and no property is set after it was removed. -/
def Env.Undivided (env : Env) (path : JsString) (ops : List ProppatchOperation) : Prop :=
  (∀ c ∈ env.failures [] (Env.statements path ops), c = true) ∨
    (∀ c ∈ env.failures [] (Env.statements path ops), c = false) ∧ RemovesLast ops

section Answering

variable {env : Env} {r : Incoming} {path : JsString} {bases : DavBases} {v : Volume} {ops : List ProppatchOperation}

def Op.WritesProp (op : Op) : Prop := ∃ key, op = .exec (.upsertProp key) ∨ op = .exec (.deleteProp key)

theorem spares_nodeAt {op : Op} (hop : op.WritesProp) {base : JsString} :
    Act.Within (Session.Spares op) (env.nodeAt path base) := by
  obtain ⟨key, hkey⟩ := hop
  unfold Env.nodeAt
  split
  · exact Act.within_pure _
  · refine Act.within_bind (spares_statInner (by rcases hkey with rfl | rfl <;> simp)) fun st => ?_
    split
    · exact Act.within_pure _
    · refine Act.within_bind (Act.within_bind (Act.within_attempt (spares_call (by rcases hkey with rfl | rfl <;> simp)
        (Act.within_bind Act.within_read fun _ => Act.within_pure _))) fun row => ?_) fun row => ?_
      · split <;> exact Act.within_pure _
      · refine Act.within_bind (spares_call (by rcases hkey with rfl | rfl <;> simp)
          (Act.within_bind Act.within_read fun _ => Act.within_pure _)) fun locks => ?_
        exact Act.within_bind (spares_call (by rcases hkey with rfl | rfl <;> simp)
          (Act.within_bind Act.within_read fun _ => Act.within_pure _)) fun dead => Act.within_pure _

theorem statements_write {op : Op} (hop : op ∈ Env.statements path ops) : op.WritesProp := by
  rcases List.mem_append.mp hop with hop | hop
  · obtain ⟨d, -, rfl⟩ := List.mem_map.mp hop
    exact ⟨_, .inl rfl⟩
  · obtain ⟨d, -, rfl⟩ := List.mem_map.mp hop
    exact ⟨_, .inr rfl⟩

/-- Until an update comes to write, it has made none of its statements. -/
theorem spared_before (ops : List ProppatchOperation) {s₁ s₂ : Session} {node : Option DavNodeInfo}
    (hlock : (env.assertLock r.toRequest path).run ⟨v, []⟩ = (.ok none, s₁))
    (hnode : (env.nodeAt path bases.hrefBase).run s₁ = (.ok node, s₂)) :
    s₂.volume = v ∧ env.failures s₂.calls (Env.statements path ops) = env.failures [] (Env.statements path ops) := by
  have hspares : ∀ op : Op, op.WritesProp → Session.Spares op ⟨v, []⟩ s₂ := by
    intro op hop
    obtain ⟨key, hkey⟩ := id hop
    have hne : Op.exec (.selectLocks path) ≠ op := by rcases hkey with rfl | rfl <;> simp
    have hfirst : Session.Spares op ⟨v, []⟩ s₁ := (spares_assertLock hne).of_run hlock
    exact trans_of _ hfirst ((spares_nodeAt hop).of_run hnode)
  refine ⟨(hspares (.exec (.upsertProp (.of path colour))) ⟨_, .inl rfl⟩).1, failures_congr fun op hop => ?_⟩
  exact (hspares op (statements_write hop)).2

/-- An update that proceeds answers what its operations come to. -/
theorem handleProppatch_proceeds {s₁ s₂ s' : Session} {node : DavNodeInfo} {outcome : Env.PropOutcome}
    (hops : r.propOperations env.platform = some ops)
    (hlock : (env.assertLock r.toRequest path).run ⟨v, []⟩ = (.ok none, s₁))
    (hnode : (env.nodeAt path bases.hrefBase).run s₁ = (.ok (some node), s₂))
    (happly : (env.applyOperations path ops).run s₂ = (.ok outcome, s')) :
    (env.handleProppatch r path bases).run ⟨v, []⟩ =
      (.ok (.multistatus (hrefOf env.platform bases.hrefBase path node.isCollection) outcome), s') := by
  obtain ⟨xml, hxml, hparsed⟩ := Option.bind_eq_some_iff.mp hops
  unfold Env.handleProppatch
  rw [Act.run_bind_ok hlock]
  dsimp only
  rw [Act.run_bind_ok hnode]
  dsimp only
  rw [hxml]
  dsimp only
  rw [hparsed]
  dsimp only
  rw [Act.run_bind_ok happly]
  rfl

/-- Any other update says nothing of its properties and leaves the volume as it is. -/
theorem handleProppatch_halts (h : ∀ ops, r.propOperations env.platform = some ops → ¬ env.Proceeds r path bases v) :
    ∃ answer s', (env.handleProppatch r path bases).run ⟨v, []⟩ = (answer, s') ∧
      (∀ href outcome, answer ≠ .ok (.multistatus href outcome)) ∧ s'.volume = v := by
  unfold Env.handleProppatch
  have hspared : ∀ {α : Type} {x : Serve α}, Act.Within (Session.Spares (Env.setStatement path colour)) x →
      ∀ s, s.volume = v → (x.run s).2.volume = v := fun hx s hs => (hx s).1.trans hs
  have hwrites : (Env.setStatement path colour).WritesProp := ⟨_, .inl rfl⟩
  have hasks : Op.exec (.selectLocks path) ≠ Env.setStatement path colour := by simp [Env.setStatement]
  have hv₁ : ((env.assertLock r.toRequest path).run ⟨v, []⟩).2.volume = v :=
    hspared (spares_assertLock hasks) ⟨v, []⟩ rfl
  cases hlock : (env.assertLock r.toRequest path).run ⟨v, []⟩ with
  | mk locked s₁ =>
    rw [hlock] at hv₁
    cases locked with
    | error e => exact ⟨_, _, Act.run_bind_error hlock, by simp, hv₁⟩
    | ok locked =>
      rw [Act.run_bind_ok hlock]
      cases locked with
      | some response => exact ⟨_, _, rfl, by simp, hv₁⟩
      | none =>
        have hv₂ : ((env.nodeAt path bases.hrefBase).run s₁).2.volume = v := hspared (spares_nodeAt hwrites) s₁ hv₁
        dsimp only
        cases hnode : (env.nodeAt path bases.hrefBase).run s₁ with
        | mk node s₂ =>
          rw [hnode] at hv₂
          cases node with
          | error e => exact ⟨_, _, Act.run_bind_error hnode, by simp, hv₂⟩
          | ok node =>
            rw [Act.run_bind_ok hnode]
            cases node with
            | none => exact ⟨_, _, rfl, by simp, hv₂⟩
            | some node =>
              dsimp only
              cases hxml : r.readCappedText maxXmlBodyBytes with
              | none => exact ⟨_, _, rfl, by simp, hv₂⟩
              | some xml =>
                dsimp only
                cases hparsed : parseProppatchRequest env.platform xml with
                | none => exact ⟨_, _, rfl, by simp, hv₂⟩
                | some ops =>
                  exact absurd ⟨s₁, node, s₂, hlock, hnode⟩ (h ops (Option.bind_eq_some_iff.mpr ⟨xml, hxml, hparsed⟩))

end Answering

theorem failures_calm {env : Env} (hcalm : env.Calm) {calls stmts : List Op} :
    ∀ c ∈ env.failures calls stmts, c = false := by
  induction stmts generalizing calls with
  | nil => simp [Env.failures]
  | cons op rest ih =>
    rw [Env.failures, hcalm]
    exact List.forall_mem_cons.mpr ⟨rfl, ih⟩

/-- Where nothing fails and nothing is protected, the properties are as the order of the instructions has it exactly if
none is set after it was removed. -/
theorem proppatch_order_iff {env : Env} (hcalm : env.Calm) {r : Incoming} {path : JsString} {bases : DavBases} {v : Volume}
    {ops : List ProppatchOperation} (hops : r.propOperations env.platform = some ops)
    (hfree : ∀ op ∈ ops, isProtectedProperty op.property = false) {href : JsString} {outcome : Env.PropOutcome}
    {s' : Session}
    (hrun : (env.handleProppatch r path bases).run ⟨v, []⟩ = (.ok (.multistatus href outcome), s')) :
    (∀ key, Store.get s'.volume.props key = Store.get (inOrder path ops v.props) key) ↔ RemovesLast ops := by
  have hproceeds : env.Proceeds r path bases v := by
    by_contra hnot
    have hnever : ∀ ops, r.propOperations env.platform = some ops → ¬ env.Proceeds r path bases v := fun _ _ => hnot
    obtain ⟨answer, s₁, hhalts, hno, -⟩ := handleProppatch_halts hnever
    exact hno href outcome (congrArg Prod.fst (hhalts.symm.trans hrun))
  obtain ⟨s₁, node, s₂, hlock, hnode⟩ := hproceeds
  obtain ⟨hv, -⟩ := spared_before ops hlock hnode
  have hany : (ops.map ProppatchOperation.property).any isProtectedProperty = false := by simpa using hfree
  obtain ⟨o, s₃, happly, hwritten⟩ := applyOperations_run env path hany s₂
  have hend := handleProppatch_proceeds hops hlock hnode happly
  obtain rfl : s₃ = s' := congrArg Prod.snd (hend.symm.trans hrun)
  rw [hwritten.carried (failures_calm hcalm), hv]
  exact regrouped_iff

section Atomicity

variable {env : Env} {path : JsString} {ops : List ProppatchOperation}

/-- Where something is protected nothing is written. -/
theorem applyOperations_protected (env : Env) (path : JsString) (h : ∃ op ∈ ops, isProtectedProperty op.property = true)
    (s : Session) :
    ∃ outcome, (env.applyOperations path ops).run s = (.ok outcome, s) ∧ outcome.applied = [] ∧ Accounted ops outcome := by
  have hany : (ops.map ProppatchOperation.property).any isProtectedProperty = true := by simpa using h
  unfold Env.applyOperations
  rw [if_pos hany]
  refine ⟨_, rfl, rfl, fun op hop => ?_⟩
  have hmem : op.property ∈ Env.propertiesOf op.action ops := List.mem_map_of_mem (List.mem_filter.mpr ⟨hop, by simp⟩)
  cases hact : op.action <;> rw [hact] at hmem <;> cases hprot : isProtectedProperty op.property <;> simp [hmem, hprot]

theorem Env.Written.allOrNothing {s : Session} {o : Env.PropOutcome} {v v' : Volume} (h : env.Written path ops s o v')
    (hv : s.volume = v) (hfails : env.failures s.calls (Env.statements path ops) = env.failures [] (Env.statements path ops)) :
    AllOrNothing path ops o v v' ↔ env.Undivided path ops := by
  unfold AllOrNothing Env.Undivided
  rw [← hfails]
  constructor
  · rintro (⟨hprops, -, hdone⟩ | ⟨-, hnone⟩)
    · have hall := h.accepted.mp hdone
      rw [h.carried hall, hv] at hprops
      exact .inr ⟨hall, regrouped_iff.mp hprops⟩
    · exact .inl (h.refused.mp hnone)
  · rintro (hall | ⟨hall, hlast⟩)
    · exact .inr ⟨fun key => by rw [h.unchanged hall, hv], h.refused.mpr hall⟩
    · refine .inl ⟨fun key => ?_, h.forbidden, h.accepted.mpr hall⟩
      rw [h.carried hall, hv]
      exact regrouped_iff.mpr hlast key

end Atomicity

/-- An update is done as a whole or not at all, and says which, exactly if something it names is protected, or its statements
all fail, or none of them does and no property is set after it was removed. -/
theorem proppatch_atomic_iff (env : Env) (r : Incoming) (path : JsString) (bases : DavBases) (v : Volume) :
    UpdatesAtomically env r path bases v ↔ ∀ ops, r.propOperations env.platform = some ops →
      env.Proceeds r path bases v → (∃ op ∈ ops, isProtectedProperty op.property = true) ∨ env.Undivided path ops := by
  by_cases hgoes : ∃ ops, r.propOperations env.platform = some ops ∧ env.Proceeds r path bases v
  · obtain ⟨ops, hops, s₁, node, s₂, hlock, hnode⟩ := hgoes
    obtain ⟨hv, hfails⟩ := spared_before ops hlock hnode
    have hiff : (∀ ops', r.propOperations env.platform = some ops' → env.Proceeds r path bases v →
        (∃ op ∈ ops', isProtectedProperty op.property = true) ∨ env.Undivided path ops') ↔
        (∃ op ∈ ops, isProtectedProperty op.property = true) ∨ env.Undivided path ops := by
      constructor
      · intro h
        exact h ops hops ⟨s₁, node, s₂, hlock, hnode⟩
      · intro h ops' hops' _
        obtain rfl : ops = ops' := Option.some_inj.mp (hops.symm.trans hops')
        exact h
    have hatomic : ∀ outcome s', (env.applyOperations path ops).run s₂ = (.ok outcome, s') → Accounted ops outcome →
        (UpdatesAtomically env r path bases v ↔ AllOrNothing path ops outcome v s'.volume) := by
      intro outcome s' happly haccounted
      have hrun := handleProppatch_proceeds hops hlock hnode happly
      constructor
      · intro h
        obtain ⟨ops', hops', hall, -⟩ := h.answered _ _ _ hrun
        obtain rfl : ops = ops' := Option.some_inj.mp (hops.symm.trans hops')
        exact hall
      · intro hall
        refine ⟨fun href o s₃ hrun' => ?_, fun answer s₃ hrun' hno => ?_⟩
        · obtain ⟨hanswer, rfl⟩ := Prod.mk.inj (hrun.symm.trans hrun')
          obtain ⟨-, rfl⟩ := Env.ProppatchAnswer.multistatus.inj (Except.ok.inj hanswer)
          exact ⟨ops, hops, hall, haccounted⟩
        · exact absurd (congrArg Prod.fst (hrun'.symm.trans hrun)) (hno _ _)
    rw [hiff]
    by_cases hprot : ∃ op ∈ ops, isProtectedProperty op.property = true
    · obtain ⟨outcome, happly, hnone, haccounted⟩ := applyOperations_protected env path hprot s₂
      refine iff_of_true ((hatomic outcome s₂ happly haccounted).mpr ?_) (.inl hprot)
      exact .inr ⟨fun key => by rw [hv], hnone⟩
    · have hany : (ops.map ProppatchOperation.property).any isProtectedProperty = false := by simpa using hprot
      obtain ⟨outcome, s', happly, hwritten⟩ := applyOperations_run env path hany s₂
      rw [hatomic outcome s' happly hwritten.accounted, hwritten.allOrNothing hv hfails]
      exact (or_iff_right hprot).symm
  · have hnever : ∀ ops, r.propOperations env.platform = some ops → ¬ env.Proceeds r path bases v :=
      fun ops hops hproceeds => hgoes ⟨ops, hops, hproceeds⟩
    obtain ⟨answer, s', hrun, hno, hv⟩ := handleProppatch_halts hnever
    refine iff_of_true ⟨fun href outcome s₁ hrun' => ?_, fun answer' s₁ hrun' _ key => ?_⟩
      fun ops hops hproceeds => absurd hproceeds (hnever ops hops)
    · exact absurd (congrArg Prod.fst (hrun.symm.trans hrun')) (hno _ _)
    · obtain ⟨-, rfl⟩ := Prod.mk.inj (hrun.symm.trans hrun')
      rw [hv]

/-! ### Two updates -/

set_option maxRecDepth 4000 in
theorem colour_in_order : Store.get colouredFile.volume.props =
    Store.get (inOrder (js "f") [⟨.set, colour⟩] (Env.after (calmEnv.serve putFile) emptyVolume).props) := by
  funext key
  have hrun : (updatingEnv.handleProppatch (setColour (js "http://h/o/v/f")) (js "f") plainBases).run
      ⟨Env.after (calmEnv.serve putFile) emptyVolume, []⟩ =
      (.ok (.multistatus (js "/o/v/f") ⟨[colour], [], []⟩), colouredFile) := rfl
  have hops : (setColour (js "http://h/o/v/f")).propOperations updatingEnv.platform = some [⟨.set, colour⟩] :=
    setColour_operations _
  have hfree : ∀ op ∈ [(⟨.set, colour⟩ : ProppatchOperation)], isProtectedProperty op.property = false := by decide
  apply (proppatch_order_iff (fun _ _ => rfl) hops hfree hrun).mpr ?_ key
  intro op hop hact
  rw [List.mem_singleton.mp hop] at hact
  cases hact

/-- The element of a property, as it stands in an update. -/
def propElement (name content : JsString) : XmlElement := .node (some (js "urn:x")) none (some name) [] content

def updateElement (parts : List (JsString × List XmlElement)) : XmlElement :=
  .node (some davNamespace) none (some (js "propertyupdate")) (parts.map (fun e => .node (some davNamespace) none (some e.1)
    [.node (some davNamespace) none (some (js "prop")) e.2 []] [])) []

/-- One text is the text of a document, and one property cannot be stored. -/
def parsingEnv (text : JsString) (document : XmlElement) (refused : Option PropKey) : Env where
  platform := { plainPlatform with parseXmlDocument := fun body => if body = text then some document else none }
  now := 9
  fails := fun op _ => if refused.any (fun key => op = .exec (.upsertProp key)) then some (.of "SQLITE_FULL") else none

def recolourText : JsString := js "<propertyupdate xmlns=\"DAV:\"><remove><prop><colour xmlns=\"urn:x\"/></prop></remove>" ++
  js "<set><prop><colour xmlns=\"urn:x\">red</colour></prop></set></propertyupdate>"

def recolouringEnv : Env := parsingEnv recolourText
  (updateElement [(js "remove", [propElement (js "colour") []]), (js "set", [propElement (js "colour") (js "red")])]) none

def recolour : Incoming := { plainIncoming (js "http://h/o/v/") with text := recolourText }

set_option maxRecDepth 8000 in
/-- A colour that is taken away and then given again is gone. -/
theorem recolour_loses : ∃ ops href outcome s', recolour.propOperations recolouringEnv.platform = some ops ∧
    (∀ op ∈ ops, isProtectedProperty op.property = false) ∧
    (recolouringEnv.handleProppatch recolour [] plainBases).run ⟨emptyVolume, []⟩ = (.ok (.multistatus href outcome), s') ∧
    ¬ ∀ key, Store.get s'.volume.props key = Store.get (inOrder [] ops emptyVolume.props) key := by
  refine ⟨[⟨.remove, { colour with valueXml := [] }⟩, ⟨.set, colour⟩], _, _, _, rfl, by decide, rfl, fun h => ?_⟩
  exact absurd (h (.of [] colour)) (by decide)

def twoColoursText : JsString := js "<propertyupdate xmlns=\"DAV:\"><set><prop><colour xmlns=\"urn:x\">red</colour>" ++
  js "<shade xmlns=\"urn:x\">dark</shade></prop></set></propertyupdate>"

def twoColours : Incoming := { plainIncoming (js "http://h/o/v/") with text := twoColoursText }

def shadelessEnv : Env := parsingEnv twoColoursText
  (updateElement [(js "set", [propElement (js "colour") (js "red"), propElement (js "shade") (js "dark")])])
  (some ⟨[], js "urn:x", js "shade"⟩)

set_option maxRecDepth 8000 in
/-- Of two properties the second cannot be stored, and the first is. -/
theorem shadeless_divided : ¬ UpdatesAtomically shadelessEnv twoColours [] plainBases emptyVolume := by
  intro h
  obtain ⟨ops, -, hall, -⟩ := h.answered (js "/o/v/") ⟨[colour], [], [⟨js "urn:x", js "shade", none, js "dark"⟩]⟩ _ rfl
  rcases hall with ⟨-, -, hdone⟩ | ⟨-, hnone⟩
  · cases hdone
  · cases hnone

end DurableDav.Dav
