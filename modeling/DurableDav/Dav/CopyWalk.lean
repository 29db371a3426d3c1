import DurableDav.Dav.FileTree

namespace DurableDav.Dav

open Library
open Replication (Bytes isValidInnerPath parentOf sweepSort)

/-! ### What a volume holds at a path -/

structure SameAt (q : JsString) (v v' : Volume) : Prop where
  file : Store.get v'.files q = Store.get v.files q
  node : Store.get v'.nodes q = Store.get v.nodes q
  props : ∀ ns name, Store.get v'.props ⟨q, ns, name⟩ = Store.get v.props ⟨q, ns, name⟩

section SameAt

variable {env : Env} {v v' v'' : Volume} {q path source target : JsString} {m n : ℕ}

theorem sameAt_refl (q : JsString) (v : Volume) : SameAt q v v := ⟨rfl, rfl, fun _ _ => rfl⟩

theorem SameAt.trans (h : SameAt q v v') (h' : SameAt q v' v'') : SameAt q v v'' :=
  ⟨h'.file.trans h.file, h'.node.trans h.node, fun ns name => (h'.props ns name).trans (h.props ns name)⟩

theorem addProps_get (target : JsString) (props : Store PropKey PropRow) (es : List (PropKey × PropRow)) (k : PropKey)
    (hk : k.path ≠ target) : Store.get (Volume.addProps target props es) k = Store.get props k := by
  induction es generalizing props with
  | nil => rfl
  | cons e es ih =>
    have hne : k ≠ { e.1 with path := target } := by
      rintro rfl
      exact hk rfl
    rw [show Volume.addProps target props (e :: es) =
      Volume.addProps target (Store.put props { e.1 with path := target } e.2) es from rfl, ih, Store.get_put, if_neg hne]

theorem copyMeta_elsewhere (now : ℕ) (isCollection : Bool) (h : q ≠ target) :
    SameAt q v (v.copyMeta now source target isCollection) where
  file := rfl
  node := by
    unfold Volume.copyMeta Volume.upsertNode
    rw [Store.get_put, if_neg h]
  props := fun ns name => addProps_get target v.props _ ⟨q, ns, name⟩ h

theorem bytesCopied_ok (h : env.bytesCopied v source target m n = .ok v') :
    ∃ data mtime, Store.get v.files source = some ⟨some data, mtime⟩ ∧
      v' = { v with files := Store.put v.files target ⟨some data, env.now⟩ } := by
  unfold Env.bytesCopied at h
  split at h
  · simp at h
  · simp at h
  · simp at h
  · rename_i data mtime _ hget
    split at h
    · simp at h
    · split at h
      · simp at h
      · split at h
        · simp at h
        · exact ⟨data, mtime, hget, by simpa using h.symm⟩

theorem bytesCopied_elsewhere (h : env.bytesCopied v source target m n = .ok v') (hq : q ≠ target) : SameAt q v v' := by
  obtain ⟨data, mtime, _, rfl⟩ := bytesCopied_ok h
  exact ⟨by rw [Store.get_put, if_neg hq], rfl, fun _ _ => rfl⟩

theorem collectionMade_elsewhere (hq : q ≠ target) : SameAt q v ((env.collectionMade v target n).getD v) := by
  unfold Env.collectionMade
  split
  · exact ⟨by rw [Option.getD_some, Store.get_put, if_neg hq], rfl, fun _ _ => rfl⟩
  · exact sameAt_refl q v

theorem subtreePredicate_inside (hp : path ≠ []) (h : subtreePredicate path q = true) :
    q = path ∨ Below slash path q := by
  unfold subtreePredicate at h
  rcases of_decide_eq_true h with he | hsub
  · exact .inl he
  · right
    simp only [Below, hp, ↓reduceIte]
    rw [← hsub]
    exact substr_prefix q _

theorem withoutCollection_elsewhere (hp : path ≠ []) (hq : ¬ (q = path ∨ Below slash path q)) :
    SameAt q v (v.withoutCollection path) := by
  have hpred : deletePredicate path q = false := by
    rw [deletePredicate_of_ne hp]
    by_contra hne
    exact hq (subtreePredicate_inside hp (by simpa using hne))
  refine ⟨by rw [withoutCollection_get, if_neg hq], ?_, fun ns name => ?_⟩
  · rw [show (v.withoutCollection path).nodes = Store.removeWhere v.nodes (deletePredicate path) from rfl,
      Store.get_removeWhere, hpred]
    rfl
  · rw [show (v.withoutCollection path).props = Store.removeWhere v.props (fun k => deletePredicate path k.path) from rfl,
      Store.get_removeWhere]
    simp only [hpred, Bool.false_eq_true, ↓reduceIte]

theorem overwritten_elsewhere {r : Request} {destExists : Bool} (htree : v.files.WellFormed)
    (h : env.overwritten v r target destExists = .ok v') (hq : ¬ (q = target ∨ Below slash target q)) : SameAt q v v' := by
  unfold Env.overwritten at h
  cases destExists with
  | false =>
    obtain rfl : v = v' := by simpa using h
    exact sameAt_refl q v
  | true =>
    obtain ⟨hmay, rfl⟩ := (removal_iff htree).mp h
    exact withoutCollection_elsewhere hmay.1 hq

end SameAt

/-! ### The descendants of a copied collection -/

namespace Env

variable (env : Env) (bases : DavBases) (source target : JsString)

def copyOf (name : JsString) : JsString := targetOf source target (childInner source name)

/-- One descendant copied, and what is to be said of it. -/
def childCopied (v : Volume) (name : JsString) : Volume × Option MultiStatusFailure :=
  let child := childInner source name
  let copy := copyOf source target name
  if (env.sees v child 0).isDirectory then
    (((env.collectionMade v copy 0).getD v).copyMeta env.now child copy true, none)
  else match env.bytesCopied v child copy 0 0 with
    | .error e => (v, some (env.copyFailure bases copy e))
    | .ok v' => (v'.copyMeta env.now child copy false, none)

def childrenCopied : Volume → List JsString → Volume × List MultiStatusFailure
  | v, [] => (v, [])
  | v, name :: rest =>
    let done := childrenCopied (env.childCopied bases source target v name).1 rest
    (done.1, (env.childCopied bases source target v name).2.toList ++ done.2)

end Env

section Walk

variable {env : Env} {bases : DavBases} {source target q : JsString}

theorem childCopied_elsewhere (v : Volume) {name : JsString} (hq : q ≠ Env.copyOf source target name) :
    SameAt q v (env.childCopied bases source target v name).1 := by
  unfold Env.childCopied
  dsimp only
  split
  · exact (collectionMade_elsewhere hq).trans (copyMeta_elsewhere _ _ hq)
  · split
    · exact sameAt_refl q v
    · rename_i v' hcopied
      exact (bytesCopied_elsewhere hcopied hq).trans (copyMeta_elsewhere _ _ hq)

theorem childrenCopied_elsewhere (v : Volume) {names : List JsString}
    (hq : ∀ name ∈ names, q ≠ Env.copyOf source target name) :
    SameAt q v (env.childrenCopied bases source target v names).1 := by
  induction names generalizing v with
  | nil => exact sameAt_refl q v
  | cons name names ih =>
    exact (childCopied_elsewhere v (hq name List.mem_cons_self)).trans
      (ih _ (fun name' hmem => hq name' (List.mem_cons_of_mem _ hmem)))

theorem childrenCopied_append (v : Volume) (pre post : List JsString) :
    env.childrenCopied bases source target v (pre ++ post) =
      ((env.childrenCopied bases source target (env.childrenCopied bases source target v pre).1 post).1,
        (env.childrenCopied bases source target v pre).2 ++
          (env.childrenCopied bases source target (env.childrenCopied bases source target v pre).1 post).2) := by
  induction pre generalizing v with
  | nil => rfl
  | cons name pre ih =>
    simp only [List.cons_append, Env.childrenCopied]
    rw [ih]
    simp only [List.append_assoc]

/-- The calls of one step of the walk. -/
def Op.Copy (child copy : JsString) (op : Op) : Prop :=
  op.IsExec ∨ op = .stat child ∨ op = .mkdir copy ∨ op = .read child ∨ op = .writeFile copy

/-- Nothing was tried at a child and its copy. -/
structure Untried (s : Session) (child copy : JsString) : Prop where
  stat : s.calls.count (.stat child) = 0
  mkdir : s.calls.count (.mkdir copy) = 0
  read : s.calls.count (.read child) = 0
  write : s.calls.count (.writeFile copy) = 0

variable (bases) in
theorem copyChild_run (h : env.Stores) (name : JsString) (s : Session)
    (hs : Untried s (Env.childInner source name) (Env.copyOf source target name)) :
    ∃ s', (env.copyChild bases source target name).run s =
        (.ok (env.childCopied bases source target s.volume name).2, s') ∧
      s'.volume = (env.childCopied bases source target s.volume name).1 ∧
      s.Calls (Op.Copy (Env.childInner source name) (Env.copyOf source target name)) s' := by
  set child := Env.childInner source name
  set copy := Env.copyOf source target name
  have hstat := statInner_run env child s
  rw [hs.stat] at hstat
  have hlooked : s.Calls (Op.Copy child copy) (s.record (.stat child)) := calls_record (.inr (.inl rfl))
  have hcount {op : Op} (hop : op ≠ .stat child) : (s.record (.stat child)).calls.count op = s.calls.count op :=
    List.count_cons_of_ne hop.symm
  unfold Env.copyChild Env.childCopied
  dsimp only
  rw [show Env.targetOf source target child = copy from rfl, show Env.copyOf source target name = copy from rfl,
    show Env.childInner source name = child from rfl, Act.run_bind_ok hstat]
  cases hdir : (env.sees s.volume child 0).isDirectory with
  | true =>
    obtain ⟨s₁, hcalls₁, hend₁⟩ := mkdir_run env copy (s.record (.stat child))
    rw [hcount (by simp), hs.mkdir, show (s.record (.stat child)).volume = s.volume from rfl] at hend₁
    have hmade : ∃ res, (env.mkdir copy).attempt.run (s.record (.stat child)) = (.ok res, s₁) ∧
        s₁.volume = (env.collectionMade s.volume copy 0).getD s.volume := by
      cases hc : env.collectionMade s.volume copy 0 with
      | none =>
        rw [hc] at hend₁
        obtain ⟨⟨e, hrun⟩, hvol⟩ := hend₁
        exact ⟨_, hrun, hvol⟩
      | some v' =>
        rw [hc] at hend₁
        exact ⟨_, hend₁.1, hend₁.2⟩
    obtain ⟨res, hrun₁, hvol₁⟩ := hmade
    obtain ⟨s₂, hrun₂, hvol₂, hcalls₂⟩ := copyMeta_run h child copy true s₁
    refine ⟨s₂, ?_, ?_, ?_⟩
    · simp only [↓reduceIte]
      rw [Act.run_bind_ok hrun₁, Act.run_bind_ok hrun₂]
      rfl
    · rw [hvol₂, hvol₁]
      simp only [↓reduceIte]
    · apply (hlooked.trans (hcalls₁.mono _)).trans (hcalls₂.mono (fun op => .inl))
      exact fun op he => .inr (.inr (.inl he))
  | false =>
    obtain ⟨s₁, hcalls₁, hend₁⟩ := copyBytes_run env child copy (s.record (.stat child))
    rw [hcount (by simp), hcount (by simp), hs.read, hs.write,
      show (s.record (.stat child)).volume = s.volume from rfl] at hend₁
    have hto : s.Calls (Op.Copy child copy) s₁ := by
      apply hlooked.trans (hcalls₁.mono _)
      rintro op (he | he | he)
      exacts [.inl he, .inr (.inr (.inr (.inl he))), .inr (.inr (.inr (.inr he)))]
    cases hc : env.bytesCopied s.volume child copy 0 0 with
    | error e =>
      rw [hc] at hend₁
      refine ⟨s₁, ?_, ?_, hto⟩
      · simp only [Bool.false_eq_true, ↓reduceIte]
        rw [Act.run_bind_ok (show (env.copyBytes child copy).attempt.run (s.record (.stat child)) = (.ok (.error e), s₁) by
          rw [Act.run_attempt, hend₁.1])]
        rfl
      · simp only [Bool.false_eq_true, ↓reduceIte]
        exact hend₁.2
    | ok v' =>
      rw [hc] at hend₁
      obtain ⟨s₂, hrun₂, hvol₂, hcalls₂⟩ := copyMeta_run h child copy false s₁
      refine ⟨s₂, ?_, ?_, hto.trans (hcalls₂.mono (fun op => .inl))⟩
      · simp only [Bool.false_eq_true, ↓reduceIte]
        rw [Act.run_bind_ok (show (env.copyBytes child copy).attempt.run (s.record (.stat child)) = (.ok (.ok ()), s₁) by
          rw [Act.run_attempt, hend₁.1])]
        dsimp only
        rw [Act.run_bind_ok hrun₂]
        rfl
      · rw [hvol₂, hend₁.2]
        simp only [Bool.false_eq_true, ↓reduceIte]

theorem Untried.after {s s' : Session} {child copy child' copy' : JsString} (h : Untried s child' copy')
    (hcalls : s.Calls (Op.Copy child copy) s') (hchild : child' ≠ child) (hcopy : copy' ≠ copy) : Untried s' child' copy' := by
  refine ⟨?_, ?_, ?_, ?_⟩
  · rw [hcalls.count (by simp [Op.Copy, Op.IsExec, hchild]), h.stat]
  · rw [hcalls.count (by simp [Op.Copy, Op.IsExec, hcopy]), h.mkdir]
  · rw [hcalls.count (by simp [Op.Copy, Op.IsExec, hchild]), h.read]
  · rw [hcalls.count (by simp [Op.Copy, Op.IsExec, hcopy]), h.write]

/-- The walk over a listing of which every entry is another child with another copy. -/
theorem copyChildren_run (h : env.Stores) (names : List JsString) (s : Session)
    (hchild : names.Pairwise (fun a b => Env.childInner source a ≠ Env.childInner source b))
    (hcopy : names.Pairwise (fun a b => Env.copyOf source target a ≠ Env.copyOf source target b))
    (hs : ∀ name ∈ names, Untried s (Env.childInner source name) (Env.copyOf source target name)) :
    ∃ s', (env.copyChildren bases source target names).run s =
        (.ok (env.childrenCopied bases source target s.volume names).2, s') ∧
      s'.volume = (env.childrenCopied bases source target s.volume names).1 := by
  induction names generalizing s with
  | nil => exact ⟨s, rfl, rfl⟩
  | cons name names ih =>
    obtain ⟨s₁, hrun₁, hvol₁, hcalls₁⟩ := copyChild_run bases h name s (hs name List.mem_cons_self)
    obtain ⟨hc, hchild⟩ := List.pairwise_cons.mp hchild
    obtain ⟨hc', hcopy⟩ := List.pairwise_cons.mp hcopy
    obtain ⟨s₂, hrun₂, hvol₂⟩ := ih s₁ hchild hcopy (fun name' hmem =>
      (hs name' (List.mem_cons_of_mem _ hmem)).after hcalls₁ (hc name' hmem).symm (hc' name' hmem).symm)
    rw [hvol₁] at hrun₂ hvol₂
    refine ⟨s₂, ?_, hvol₂⟩
    unfold Env.copyChildren
    rw [Act.run_bind_ok hrun₁, Act.run_bind_ok hrun₂]
    rfl

end Walk

/-! ### The listing that is walked -/

section Listing

variable {env : Env} {v v₁ : Volume} {r : Request} {source target q : JsString} {bases : DavBases} {s : Session}

variable (target) in
theorem child_shape (hs : source ≠ []) (hnames : ∀ name ∈ q.splitOn slash, name ≠ []) (hq : Below slash source q) :
    ∃ rest, q = source ++ slash :: rest ∧ Files.relative source q = rest ∧ Env.childInner source rest = q ∧
      Env.copyOf source target rest = moved source target q := by
  obtain ⟨rest, rfl⟩ := (below_of_ne hs).mp hq
  have hhead : rest.head? ≠ some slash := by
    intro hhead
    obtain ⟨tail, rfl⟩ : ∃ tail, rest = slash :: tail := by
      cases rest with
      | nil => simp at hhead
      | cons c tail => exact ⟨tail, by simpa using hhead⟩
    have hsplit : [] ∈ (source ++ slash :: slash :: tail).splitOn slash := by
      rw [List.splitOn_append_cons_self, show slash :: tail = [] ++ slash :: tail from rfl, List.splitOn_append_cons_self]
      simp
    exact hnames [] hsplit rfl
  have hchild : Env.childInner source rest = source ++ slash :: rest := by
    unfold Env.childInner
    rw [if_neg hhead, if_neg hs]
  refine ⟨rest, rfl, ?_, hchild, ?_⟩
  · unfold Files.relative
    rw [if_neg hs, List.drop_append]
    simp
  · unfold Env.copyOf
    rw [hchild]
    unfold Env.targetOf moved rebase
    rw [if_pos (.inr hq), List.drop_append, List.drop_append]
    simp

theorem moved_injective {p : JsString} (hs : source ≠ []) (hp : p = source ∨ Below slash source p)
    (hq : q = source ∨ Below slash source q) (h : moved source target p = moved source target q) : p = q := by
  obtain ⟨rest, hp, hto, _⟩ := moved_inside target hs hp
  obtain ⟨rest', hq, hto', _⟩ := moved_inside target hs hq
  rw [hto, hto'] at h
  rw [hp, hq, List.append_cancel_left h]

theorem mem_below {f : Files} : q ∈ f.below source ↔ (Store.get f q).isSome ∧ Below slash source q := by
  unfold Files.below
  rw [Replication.mem_sweepSort, List.mem_filter, Store.mem_keys, decide_eq_true_eq]

theorem below_pairwise (f : Files) (source : JsString) :
    (f.below source).Pairwise (fun a b => Replication.names a < Replication.names b) :=
  Replication.sweepSort_pairwise ((Store.keys_nodup f).filter _)

/-- What the walk is told of. -/
def Env.listed (env : Env) (v : Volume) (source : JsString) : List JsString :=
  if env.fails (.listDir source true) 0 = none ∧ v.files.found source then
    (v.files.below source).map (Files.relative source)
  else []

variable (env) in
theorem listRecursive_run (s : Session) (hlist : s.calls.count (.listDir source true) = 0) :
    (env.listRecursive source).run s = (.ok (env.listed s.volume source), s.record (.listDir source true)) := by
  unfold Env.listRecursive Env.listed
  cases hf : env.fails (.listDir source true) 0 with
  | some e =>
    rw [Act.run_bind_ok (show (env.listDir source true).attempt.run s = (.ok (.error e), s.record (.listDir source true)) by
      rw [Act.run_attempt, show (env.listDir source true).run s = _ from call_run_fails (by rw [hlist]; exact hf)])]
    rw [if_neg (by simp)]
    rfl
  | none =>
    have hrun := listDir_run (s := s) (by rw [hlist]; exact hf)
    by_cases hfound : s.volume.files.found source = true
    · rw [if_pos hfound] at hrun
      rw [Act.run_bind_ok (show (env.listDir source true).attempt.run s = (.ok (.ok _), s.record (.listDir source true)) by
        rw [Act.run_attempt, hrun]), if_pos ⟨rfl, hfound⟩]
      rfl
    · rw [if_neg hfound] at hrun
      rw [Act.run_bind_ok (show (env.listDir source true).attempt.run s =
        (.ok (.error (.of "ENOENT")), s.record (.listDir source true)) by rw [Act.run_attempt, hrun]),
        if_neg (fun h => hfound h.2)]
      rfl

/-- Whether the target stands or not, the walk begins on this volume. -/
def Env.targetMade (env : Env) (v : Volume) (source target : JsString) : Volume :=
  ((env.collectionMade v target 0).getD v).copyMeta env.now source target true

/-- A step of the walk tries nothing that was tried on the way to it. -/
theorem untried_walk (ht : Apart source target) (hs : Accepted v source target s) {s' : Session}
    (hcalls : s.Calls (fun op => op.Removes target ∨ op = .mkdir target ∨ op = .listDir source true) s')
    (hq : Below slash source q) : Untried s' q (moved source target q) := by
  have hs' := ht.source_ne_nil
  have hroot : q ≠ source := hq.ne.symm
  have htarget : q ≠ target := fun he => ht.outside (he ▸ hq)
  have hparent : q ≠ parentOf target := by
    rintro rfl
    exact ht.outside (hq.trans (below_parentSegments hq.ne_nil))
  have hcopy : moved source target q ≠ target := by
    obtain ⟨rest, he, hto, _⟩ := moved_inside target hs' (.inr hq)
    rw [hto]
    intro hnil
    have hrest : rest = [] := by simpa using hnil
    exact hroot (by rw [he, hrest, List.append_nil])
  refine ⟨?_, ?_, ?_, ?_⟩
  · rw [hcalls.count (by simp [Op.Removes, Op.IsExec, htarget]),
      hs.fresh _ (by simp [Op.Looks, Op.IsExec, hroot, hparent, htarget])]
  · rw [hcalls.count (by simp [Op.Removes, Op.IsExec, hcopy]), hs.fresh _ (by simp [Op.Looks, Op.IsExec])]
  · rw [hcalls.count (by simp [Op.Removes, Op.IsExec]), hs.fresh _ (by simp [Op.Looks, Op.IsExec])]
  · rw [hcalls.count (by simp [Op.Removes, Op.IsExec]), hs.fresh _ (by simp [Op.Looks, Op.IsExec])]

/-- Only the target is new before the walk. -/
theorem targetMade_entry (h : (Store.get (env.targetMade v source target).files q).isSome) :
    q = target ∨ (Store.get v.files q).isSome := by
  by_cases hq : q = target
  · exact .inl hq
  · right
    have hsame : SameAt q v (env.targetMade v source target) :=
      (collectionMade_elsewhere hq).trans (copyMeta_elsewhere _ _ hq)
    rwa [hsame.file] at h

theorem overwritten_entry {destExists : Bool} (htree : v.files.WellFormed)
    (h : env.overwritten v r target destExists = .ok v₁) (hq : (Store.get v₁.files q).isSome) :
    (Store.get v.files q).isSome := by
  unfold Env.overwritten at h
  cases destExists with
  | false =>
    obtain rfl : v = v₁ := by simpa using h
    exact hq
  | true =>
    obtain ⟨_, rfl⟩ := (removal_iff htree).mp h
    rw [withoutCollection_get] at hq
    split at hq
    · simp at hq
    · exact hq

/-- The volume after the walk, and the failures it met. -/
def Env.walked (env : Env) (bases : DavBases) (v₁ : Volume) (source target : JsString) : Volume × List MultiStatusFailure :=
  env.childrenCopied bases source target (env.targetMade v₁ source target)
    (env.listed (env.targetMade v₁ source target) source)

def Env.walkResponse (env : Env) (bases : DavBases) (target : JsString) (destExists : Bool)
    (failures : List MultiStatusFailure) : Response :=
  if failures = [] then env.doneResponse bases target true destExists else .multistatus failures

variable (bases) in
theorem walk_run (h : env.Stores) (ht : Apart source target) (hs : Accepted v source target s) {s' : Session}
    (hcalls : s.Calls (fun op => op.Removes target ∨ op = .mkdir target ∨ op = .listDir source true) s')
    (hnames : ∀ q, (Store.get s'.volume.files q).isSome → Below slash source q → ∀ name ∈ q.splitOn slash, name ≠ []) :
    ∃ s'', (env.copyChildren bases source target (env.listed s'.volume source)).run s' =
        (.ok (env.childrenCopied bases source target s'.volume (env.listed s'.volume source)).2, s'') ∧
      s''.volume = (env.childrenCopied bases source target s'.volume (env.listed s'.volume source)).1 := by
  have hsource := ht.source_ne_nil
  have hentry {name : JsString} (hmem : name ∈ env.listed s'.volume source) : ∃ q ∈ s'.volume.files.below source,
      Files.relative source q = name := by
    unfold Env.listed at hmem
    split at hmem
    · exact List.mem_map.mp hmem
    · simp at hmem
  have hshape {q : JsString} (hq : q ∈ s'.volume.files.below source) :
      Env.childInner source (Files.relative source q) = q ∧
        Env.copyOf source target (Files.relative source q) = moved source target q := by
    obtain ⟨hsome, hbelow⟩ := mem_below.mp hq
    obtain ⟨rest, _, hrel, hchild, hcopy⟩ := child_shape target hsource (hnames q hsome hbelow) hbelow
    rw [hrel]
    exact ⟨hchild, hcopy⟩
  have hdistinct : (env.listed s'.volume source).Pairwise
      (fun a b => Env.childInner source a ≠ Env.childInner source b ∧
        Env.copyOf source target a ≠ Env.copyOf source target b) := by
    unfold Env.listed
    split
    · apply List.pairwise_map.mpr
      apply (below_pairwise _ _).imp_of_mem
      intro a b ha hb hlt
      have hne : a ≠ b := by
        rintro rfl
        exact lt_irrefl _ hlt
      rw [(hshape ha).1, (hshape hb).1, (hshape ha).2, (hshape hb).2]
      refine ⟨hne, fun he => hne ?_⟩
      exact moved_injective hsource (.inr (mem_below.mp ha).2) (.inr (mem_below.mp hb).2) he
    · exact .nil
  apply copyChildren_run h _ s' (hdistinct.imp And.left) (hdistinct.imp And.right)
  intro name hmem
  obtain ⟨q, hq, rfl⟩ := hentry hmem
  rw [(hshape hq).1, (hshape hq).2]
  exact untried_walk ht hs hcalls (mem_below.mp hq).2

variable (bases) in
theorem copyCollection_run (h : env.Stores) (htree : v.files.WellFormed) (ht : Apart source target)
    (hs : Accepted v source target s) (hlist : s.calls.count (.listDir source true) = 0)
    (hdepth : Env.isCopyDepth r = true) (destExists : Bool) :
    ∃ response s', (env.copyCollection r bases source target destExists).run s = (.ok response, s') ∧
      match env.overwritten v r target destExists with
      | .error answer => response = answer ∧ s'.volume = v
      | .ok v₁ =>
        if (env.collectionMade v₁ target 0).isNone ∧ !destExists then response = .conflict ∧ s'.volume = v₁
        else if r.depth.getD (js "infinity") = js "infinity" then
          response = env.walkResponse bases target destExists (env.walked bases v₁ source target).2 ∧
            s'.volume = (env.walked bases v₁ source target).1
        else response = env.doneResponse bases target true destExists ∧ s'.volume = env.targetMade v₁ source target := by
  obtain ⟨answer, s₁, hrun₁, hcalls₁, hend₁⟩ := overwriting_run (r := r) h hs ht.ne destExists
  have hbad : ¬ (r.depth.getD (js "infinity") ≠ js "0" ∧ r.depth.getD (js "infinity") ≠ js "infinity") := by
    simp only [Env.isCopyDepth, decide_eq_true_eq] at hdepth
    tauto
  unfold Env.copyCollection
  dsimp only
  rw [if_neg hbad, Act.run_bind_ok hrun₁]
  cases ho : env.overwritten v r target destExists with
  | error response =>
    rw [ho] at hend₁
    obtain ⟨rfl, hvol⟩ := hend₁
    exact ⟨response, s₁, rfl, rfl, hvol⟩
  | ok v₁ =>
    rw [ho] at hend₁
    obtain ⟨rfl, hvol₁⟩ := hend₁
    have hcount : s₁.calls.count (.mkdir target) = 0 :=
      count_unmade hs hcalls₁ (by simp [Op.Looks, Op.IsExec]) (by simp [Op.Removes, Op.IsExec])
    obtain ⟨s₂, hcalls₂, hend₂⟩ := mkdir_run env target s₁
    rw [hcount, hvol₁] at hend₂
    obtain ⟨res, hrun₂, hres, hvol₂⟩ : ∃ res, (env.mkdir target).attempt.run s₁ = (.ok res, s₂) ∧
        res.toOption.isNone = (env.collectionMade v₁ target 0).isNone ∧
        s₂.volume = (env.collectionMade v₁ target 0).getD v₁ := by
      cases hc : env.collectionMade v₁ target 0 with
      | none =>
        rw [hc] at hend₂
        obtain ⟨⟨e, hrun⟩, hvol⟩ := hend₂
        exact ⟨_, hrun, rfl, hvol⟩
      | some v' =>
        rw [hc] at hend₂
        exact ⟨_, hend₂.1, rfl, hend₂.2⟩
    dsimp only
    unfold Env.makeTarget
    rw [Act.run_bind_ok hrun₂, hres]
    by_cases hno : (env.collectionMade v₁ target 0).isNone = true ∧ (!destExists) = true
    · rw [if_pos hno]
      refine ⟨.conflict, s₂, rfl, ?_⟩
      rw [if_pos hno]
      refine ⟨rfl, ?_⟩
      rw [hvol₂, Option.isNone_iff_eq_none.mp hno.1]
      rfl
    · rw [if_neg hno]
      obtain ⟨s₃, hrun₃, hvol₃, hcalls₃⟩ := copyMeta_run h source target true s₂
      have hmade : s₃.volume = env.targetMade v₁ source target := by rw [hvol₃, hvol₂, Env.targetMade]
      rw [Act.run_bind_ok hrun₃]
      by_cases hinf : r.depth.getD (js "infinity") = js "infinity"
      · rw [if_pos hinf]
        have hto : s.Calls (fun op => op.Removes target ∨ op = .mkdir target ∨ op = .listDir source true) s₃ := by
          apply ((hcalls₁.mono (fun op => .inl)).trans (hcalls₂.mono _)).trans (hcalls₃.mono _)
          · exact fun op he => .inr (.inl he)
          · exact fun op he => .inl (.inl he)
        have hzero : s₃.calls.count (.listDir source true) = 0 := by
          rw [hcalls₃.count (not_exec_listDir source), hcalls₂.count (by simp),
            hcalls₁.count (by simp [Op.Removes, Op.IsExec, ht.ne.symm]), hlist]
        have hnames : ∀ q, (Store.get (s₃.record (.listDir source true)).volume.files q).isSome → Below slash source q →
            ∀ name ∈ q.splitOn slash, name ≠ [] := by
          intro q hq hb
          rw [show (s₃.record (.listDir source true)).volume = env.targetMade v₁ source target from hmade] at hq
          rcases targetMade_entry hq with rfl | hq
          · exact absurd hb ht.outside
          · exact (htree q (overwritten_entry htree ho hq)).1
        obtain ⟨s₄, hrun₄, hvol₄⟩ := walk_run bases h ht hs
          (hto.trans (calls_record (.inr (.inr rfl)))) hnames
        have hlisted := listRecursive_run env s₃ hzero
        rw [show (s₃.record (.listDir source true)).volume = env.targetMade v₁ source target from hmade] at hrun₄ hvol₄
        rw [hmade] at hlisted
        refine ⟨env.walkResponse bases target destExists (env.walked bases v₁ source target).2, s₄, ?_, ?_⟩
        · unfold Env.copyDescendants
          rw [Act.run_bind_ok hlisted, Act.run_bind_ok hrun₄]
          rfl
        · rw [if_neg hno, if_pos hinf]
          exact ⟨rfl, hvol₄⟩
      · rw [if_neg hinf]
        refine ⟨env.doneResponse bases target true destExists, s₃, rfl, ?_⟩
        rw [if_neg hno, if_neg hinf]
        exact ⟨rfl, hmade⟩

end Listing

end DurableDav.Dav
