import DurableDav.Dav.SourceKept

namespace DurableDav.Dav

open Library
open Replication (Bytes isValidInnerPath parentOf)

/-! ### The dead properties of a copy -/

section Props

variable {v : Volume} {source target ns name : JsString}

theorem addProps_miss {props : Store PropKey PropRow} {es : List (PropKey × PropRow)} {k : PropKey}
    (h : ∀ e ∈ es, { e.1 with path := target } ≠ k) :
    Store.get (Volume.addProps target props es) k = Store.get props k := by
  induction es generalizing props with
  | nil => rfl
  | cons e es ih =>
    rw [show Volume.addProps target props (e :: es) =
      Volume.addProps target (Store.put props { e.1 with path := target } e.2) es from rfl,
      ih (fun e' he' => h e' (List.mem_cons_of_mem _ he')), Store.get_put, if_neg (h e List.mem_cons_self).symm]

theorem addProps_hit {props : Store PropKey PropRow} {es : List (PropKey × PropRow)} {k : PropKey} {row : PropRow}
    (hrow : ∀ e ∈ es, { e.1 with path := target } = k → e.2 = row) (h : ∃ e ∈ es, { e.1 with path := target } = k) :
    Store.get (Volume.addProps target props es) k = some row := by
  induction es generalizing props with
  | nil => simp at h
  | cons e es ih =>
    rw [show Volume.addProps target props (e :: es) =
      Volume.addProps target (Store.put props { e.1 with path := target } e.2) es from rfl]
    by_cases hlater : ∃ e' ∈ es, { e'.1 with path := target } = k
    · exact ih (fun e' he' => hrow e' (List.mem_cons_of_mem _ he')) hlater
    · rw [addProps_miss (fun e' he' hk => hlater ⟨e', he', hk⟩)]
      obtain ⟨e', he', hk⟩ := h
      rcases List.mem_cons.mp he' with rfl | hmem
      · rw [Store.get_put, if_pos hk.symm, hrow e' List.mem_cons_self hk]
      · exact absurd ⟨e', hmem, hk⟩ hlater

theorem mem_deadProperties {e : PropKey × PropRow} :
    e ∈ v.deadProperties source ↔ e.1.path = source ∧ Store.get v.props e.1 = some e.2 := by
  unfold Volume.deadProperties
  simp only [List.mem_filterMap, List.mem_filter, decide_eq_true_eq, Option.map_eq_some_iff]
  constructor
  · rintro ⟨k, ⟨_, hpath⟩, row, hrow, rfl⟩
    exact ⟨hpath, hrow⟩
  · rintro ⟨hpath, hrow⟩
    exact ⟨e.1, ⟨Store.mem_keys.mpr (by simp [hrow]), hpath⟩, e.2, hrow, rfl⟩

/-- A copy has the properties of the source, and those that stood at its place under other names. -/
theorem copyMeta_props (now : ℕ) (isCollection : Bool) :
    Store.get (v.copyMeta now source target isCollection).props ⟨target, ns, name⟩ =
      (Store.get v.props ⟨source, ns, name⟩).or (Store.get v.props ⟨target, ns, name⟩) := by
  rw [show (v.copyMeta now source target isCollection).props =
    Volume.addProps target v.props (v.deadProperties source) from rfl]
  have hkey {e : PropKey × PropRow} (he : e ∈ v.deadProperties source)
      (hk : { e.1 with path := target } = (⟨target, ns, name⟩ : PropKey)) : e.1 = ⟨source, ns, name⟩ := by
    obtain ⟨hpath, _⟩ := mem_deadProperties.mp he
    obtain ⟨⟨path, ns', name'⟩, row⟩ := e
    simp only [PropKey.mk.injEq, true_and] at hk ⊢
    exact ⟨hpath, hk⟩
  cases hrow : Store.get v.props ⟨source, ns, name⟩ with
  | none =>
    rw [addProps_miss]
    · rfl
    · intro e he hk
      have hget := (mem_deadProperties.mp he).2
      rw [hkey he hk, hrow] at hget
      simp at hget
  | some row =>
    apply addProps_hit
    · intro e he hk
      have hget := (mem_deadProperties.mp he).2
      rw [hkey he hk, hrow] at hget
      exact (Option.some_inj.mp hget).symm
    · exact ⟨(⟨source, ns, name⟩, row), mem_deadProperties.mpr ⟨rfl, hrow⟩, rfl⟩

end Props

/-! ### What the walk leaves -/

section Paths

variable {source target q : JsString}

theorem parent_inside (hs : source ≠ []) (hq : Below slash source q) :
    parentOf q = source ∨ Below slash source (parentOf q) := by
  rcases hq.parent hs with he | hb
  · exact .inl he.symm
  · exact .inr hb

/-- The copy of a child lies in the copy of its parent. -/
theorem parent_moved (hs : source ≠ []) (hq : Below slash source q) :
    parentOf (moved source target q) = moved source target (parentOf q) := by
  obtain ⟨rest, he, hto, _⟩ := moved_inside target hs (parent_inside hs hq)
  have hslash : slash ∈ q := by
    obtain ⟨tail, rfl⟩ := (below_of_ne hs).mp hq
    simp
  obtain ⟨name, hsplit, hname⟩ := parentSegments_spec hslash
  rw [show parentSegments slash q = parentOf q from rfl, he] at hsplit
  have hcopy : moved source target q = target ++ rest ++ slash :: name := by
    unfold moved rebase
    rw [if_pos (.inr hq), hsplit]
    simp
  rw [hcopy, hto]
  exact parentSegments_append hname

variable (target) in
theorem moved_ne_target (hs : source ≠ []) (hq : Below slash source q) : moved source target q ≠ target := by
  obtain ⟨rest, he, hto, _⟩ := moved_inside target hs (.inr hq)
  rw [hto]
  intro hnil
  have hrest : rest = [] := by simpa using hnil
  exact hq.ne (by rw [he, hrest, List.append_nil])

theorem moved_source (source target : JsString) : moved source target source = target := by
  unfold moved rebase
  simp

end Paths

theorem mem_childrenCopied {env : Env} {bases : DavBases} {source target : JsString} {v : Volume} {names : List JsString}
    {f : MultiStatusFailure} (h : f ∈ (env.childrenCopied bases source target v names).2) :
    ∃ pre name post, names = pre ++ name :: post ∧
      f ∈ (env.childCopied bases source target (env.childrenCopied bases source target v pre).1 name).2 := by
  induction names generalizing v with
  | nil => simp [Env.childrenCopied] at h
  | cons name names ih =>
    simp only [Env.childrenCopied, List.mem_append, Option.mem_toList] at h
    rcases h with hf | hf
    · exact ⟨[], name, names, rfl, hf⟩
    · obtain ⟨pre, name', post, rfl, hmem⟩ := ih hf
      exact ⟨name :: pre, name', post, rfl, hmem⟩

/-- The walk over a whole subtree, from a volume on which nothing stands where its copies go. -/
structure Walk (env : Env) (v : Volume) (source target : JsString) : Prop where
  apart : Apart source target
  outside : ¬ Below slash target source
  looks : ∀ path n, env.fails (.stat path) n = none
  named : ∀ q ∈ v.files.below source, ∀ name ∈ q.splitOn slash, name ≠ []
  parent : ∀ q ∈ v.files.below source, v.files.isDirectory (parentOf q) = true
  fresh : ∀ q ∈ v.files.below source, Store.get v.files (moved source target q) = none

def Env.wholeWalk (env : Env) (bases : DavBases) (v : Volume) (source target : JsString) : Volume × List MultiStatusFailure :=
  env.childrenCopied bases source target v ((v.files.below source).map (Files.relative source))

section Walk

variable {env : Env} {bases : DavBases} {v w : Volume} {source target q : JsString}

theorem Walk.shape (h : Walk env v source target) (hq : q ∈ v.files.below source) :
    Env.childInner source (Files.relative source q) = q ∧
      Env.copyOf source target (Files.relative source q) = moved source target q := by
  obtain ⟨rest, _, hrel, hchild, hcopy⟩ :=
    child_shape target h.apart.source_ne_nil (h.named q hq) (mem_below.mp hq).2
  rw [hrel]
  exact ⟨hchild, hcopy⟩

theorem Walk.target_ne_nil (h : Walk env v source target) : target ≠ [] :=
  fun hnil => h.outside (hnil ▸ below_root.mpr h.apart.source_ne_nil)

/-- The volume a step of the walk meets. -/
structure Meets (env : Env) (v w final : Volume) (source target q : JsString) : Prop where
  elsewhere : ∀ p, (∀ q' ∈ v.files.below source, p ≠ moved source target q') → SameAt p v w
  untouched : SameAt (moved source target q) v w
  above : ∀ p ∈ v.files.below source, Below slash p q → SameAt (moved source target p) w final

variable (bases) in
/-- One step taken out of the walk. -/
theorem Walk.step (h : Walk env v source target) {pre post : List JsString}
    (hsplit : v.files.below source = pre ++ q :: post) :
    let w := (env.childrenCopied bases source target v (pre.map (Files.relative source))).1
    let final := (env.wholeWalk bases v source target).1
    Meets env v w final source target q ∧
      SameAt (moved source target q) (env.childCopied bases source target w (Files.relative source q)).1 final ∧
      ∀ f ∈ (env.childCopied bases source target w (Files.relative source q)).2,
        f ∈ (env.wholeWalk bases v source target).2 := by
  intro w final
  have hs := h.apart.source_ne_nil
  have hmem {p : JsString} (hp : p ∈ pre ∨ p = q ∨ p ∈ post) : p ∈ v.files.below source := by
    rw [hsplit, List.mem_append, List.mem_cons]
    exact hp
  have horder := below_pairwise v.files source
  rw [hsplit, List.pairwise_append, List.pairwise_cons] at horder
  obtain ⟨_, ⟨hpost, _⟩, hpre⟩ := horder
  have distinct {a b : JsString} (ha : a ∈ v.files.below source) (hb : b ∈ v.files.below source)
      (hlt : Replication.names a < Replication.names b) : moved source target a ≠ moved source target b := by
    intro he
    have hab := moved_injective hs (.inr (mem_below.mp ha).2) (.inr (mem_below.mp hb).2) he
    rw [hab] at hlt
    exact lt_irrefl _ hlt
  have hcopies {ps : List JsString} (hps : ∀ p ∈ ps, p ∈ v.files.below source) {t : JsString}
      (ht : ∀ p ∈ ps, t ≠ moved source target p) :
      ∀ name ∈ ps.map (Files.relative source), t ≠ Env.copyOf source target name := by
    intro name hname
    obtain ⟨p, hp, rfl⟩ := List.mem_map.mp hname
    rw [(h.shape (hps p hp)).2]
    exact ht p hp
  have hfinal : env.wholeWalk bases v source target =
      ((env.childrenCopied bases source target (env.childCopied bases source target w (Files.relative source q)).1
          (post.map (Files.relative source))).1,
        (env.childrenCopied bases source target v (pre.map (Files.relative source))).2 ++
          ((env.childCopied bases source target w (Files.relative source q)).2.toList ++
            (env.childrenCopied bases source target (env.childCopied bases source target w (Files.relative source q)).1
              (post.map (Files.relative source))).2)) := by
    unfold Env.wholeWalk
    rw [hsplit, List.map_append, List.map_cons, childrenCopied_append]
    rfl
  have hlater {t : JsString} (ht : ∀ p ∈ post, t ≠ moved source target p) :
      SameAt t (env.childCopied bases source target w (Files.relative source q)).1 final := by
    rw [show final = (env.wholeWalk bases v source target).1 from rfl, hfinal]
    exact childrenCopied_elsewhere _ (hcopies (fun p hp => hmem (.inr (.inr hp))) ht)
  refine ⟨⟨fun p hp => ?_, ?_, fun p hp hbelow => ?_⟩, ?_, fun f hf => ?_⟩
  · exact childrenCopied_elsewhere _ (hcopies (fun p' hp' => hmem (.inl hp')) (fun p' hp' => hp p' (hmem (.inl hp'))))
  · apply childrenCopied_elsewhere
    apply hcopies (fun p hp => hmem (.inl hp))
    exact fun p hp => (distinct (hmem (.inl hp)) (hmem (.inr (.inl rfl))) (hpre p hp q List.mem_cons_self)).symm
  · -- what lies above comes before, and is not touched again
    have hlt : Replication.names p < Replication.names q := by
      apply lt_of_above (Replication.names_prefix_iff.mpr (.inr hbelow))
      exact fun he => hbelow.ne (Replication.names_injective he)
    have hin : p ∈ pre := by
      rw [hsplit, List.mem_append, List.mem_cons] at hp
      rcases hp with hp | rfl | hp
      · exact hp
      · exact absurd hbelow Below.irrefl
      · exact absurd (hlt.trans (hpost p hp)) (lt_irrefl _)
    have hhere : SameAt (moved source target p) w (env.childCopied bases source target w (Files.relative source q)).1 := by
      apply childCopied_elsewhere
      rw [(h.shape (hmem (.inr (.inl rfl)))).2]
      exact distinct (hmem (.inl hin)) (hmem (.inr (.inl rfl))) (hpre p hin q List.mem_cons_self)
    apply hhere.trans
    apply hlater
    exact fun p' hp' => distinct (hmem (.inl hin)) (hmem (.inr (.inr hp')))
      (hpre p hin p' (List.mem_cons_of_mem _ hp'))
  · apply hlater
    exact fun p hp => distinct (hmem (.inr (.inl rfl))) (hmem (.inr (.inr hp))) (hpost p hp)
  · rw [hfinal]
    apply List.mem_append_right
    apply List.mem_append_left
    exact Option.mem_toList.mpr hf

theorem SameAt.isDirectory {v' : Volume} (h : SameAt q v v') : v'.files.isDirectory q = v.files.isDirectory q := by
  unfold Files.isDirectory
  rw [h.file]

theorem Walk.target_same (h : Walk env v source target) : SameAt target v (env.wholeWalk bases v source target).1 := by
  apply childrenCopied_elsewhere
  intro name hname
  obtain ⟨p, hp, rfl⟩ := List.mem_map.mp hname
  rw [(h.shape hp).2]
  exact (moved_ne_target target h.apart.source_ne_nil (mem_below.mp hp).2).symm

theorem Walk.parent_same (h : Walk env v source target) (hq : q ∈ v.files.below source)
    (hm : Meets env v w (env.wholeWalk bases v source target).1 source target q) :
    w.files.isDirectory (parentOf (moved source target q)) =
      (env.wholeWalk bases v source target).1.files.isDirectory (parentOf (moved source target q)) := by
  have hs := h.apart.source_ne_nil
  have hbelow := (mem_below.mp hq).2
  rw [parent_moved hs hbelow]
  rcases parent_inside hs hbelow with he | hin
  · rw [he, moved_source]
    have htarget : SameAt target v w := hm.elsewhere target
      (fun p hp => (moved_ne_target target hs (mem_below.mp hp).2).symm)
    rw [htarget.isDirectory, h.target_same.isDirectory]
  · have hentry : parentOf q ∈ v.files.below source := by
      apply mem_below.mpr
      refine ⟨?_, hin⟩
      rcases isDirectory_iff.mp (h.parent q hq) with hroot | ⟨i, hi, _⟩
      · exact absurd hroot hin.ne_nil
      · simp [hi]
    exact (hm.above (parentOf q) hentry (below_parentSegments hin.ne_nil)).isDirectory.symm

/-- A step looks at what the walk began with. -/
theorem Walk.looked (h : Walk env v source target) (hq : q ∈ v.files.below source)
    (hm : Meets env v w (env.wholeWalk bases v source target).1 source target q) : SameAt q v w := by
  have hs := h.apart.source_ne_nil
  apply hm.elsewhere
  intro p hp he
  exact subtree_apart h.apart h.outside (.inr (mem_below.mp hq).2)
    (he ▸ moved_lands hs h.target_ne_nil (.inr (mem_below.mp hp).2))

theorem Walk.sees (h : Walk env v source target) (path : JsString) :
    (env.sees w path 0).isDirectory = w.files.isDirectory path := by
  unfold Env.sees
  rw [if_pos (h.looks path 0), stat_isDirectory]

theorem Walk.copy_ne_nil (h : Walk env v source target) (hq : q ∈ v.files.below source) : moved source target q ≠ [] := by
  rintro hnil
  rcases moved_lands h.apart.source_ne_nil h.target_ne_nil (.inr (mem_below.mp hq).2) with he | hb
  · exact h.target_ne_nil (he.symm.trans hnil)
  · exact hb.ne_nil hnil

variable (bases) in
/-- Whether a collection is copied, by what is made of its parent and the call for it. -/
theorem Walk.collection (h : Walk env v source target) (hq : q ∈ v.files.below source)
    (hdir : v.files.isDirectory q = true) :
    let final := (env.wholeWalk bases v source target).1
    Store.get final.files (moved source target q) =
        (if env.fails (.mkdir (moved source target q)) 0 = none ∧
          final.files.isDirectory (parentOf (moved source target q)) then some ⟨none, env.now⟩ else none) ∧
      ∀ ns name, Store.get final.props ⟨moved source target q, ns, name⟩ =
        (Store.get v.props ⟨q, ns, name⟩).or (Store.get v.props ⟨moved source target q, ns, name⟩) := by
  intro final
  obtain ⟨pre, post, hsplit⟩ := List.append_of_mem hq
  obtain ⟨hm, hsame, _⟩ := h.step bases hsplit
  set w := (env.childrenCopied bases source target v (pre.map (Files.relative source))).1
  have hlook := h.looked hq hm
  have hcopied : (env.childCopied bases source target w (Files.relative source q)).1 =
      ((env.collectionMade w (moved source target q) 0).getD w).copyMeta env.now q (moved source target q) true := by
    unfold Env.childCopied
    dsimp only
    rw [(h.shape hq).1, (h.shape hq).2, if_pos]
    rw [h.sees, hlook.isDirectory, hdir]
  have hfree : Store.get w.files (moved source target q) = none := hm.untouched.file.trans (h.fresh q hq)
  have hne := h.copy_ne_nil hq
  have hparent := h.parent_same hq hm
  constructor
  · rw [hsame.file, hcopied]
    have hfound : w.files.found (moved source target q) = false := by simp [Files.found, hne, hfree]
    show Store.get ((env.collectionMade w (moved source target q) 0).getD w).files (moved source target q) = _
    unfold Env.collectionMade
    rw [hfound, hparent]
    by_cases hcond : env.fails (.mkdir (moved source target q)) 0 = none ∧
        final.files.isDirectory (parentOf (moved source target q)) = true
    · rw [if_pos hcond, if_pos ⟨hcond.1, rfl, hcond.2⟩, Option.getD_some, Store.get_put, if_pos rfl]
    · rw [if_neg hcond, if_neg (fun hc => hcond ⟨hc.1, hc.2.2⟩), Option.getD_none, hfree]
  · intro ns name
    rw [hsame.props, hcopied, copyMeta_props]
    have hprops : ((env.collectionMade w (moved source target q) 0).getD w).props = w.props := by
      unfold Env.collectionMade
      split <;> rfl
    rw [hprops, hlook.props, hm.untouched.props]

/-- A file is written where it can be read, its copy written and the copy of its parent stands. -/
def Env.Copies (env : Env) (final : Volume) (source target q : JsString) : Prop :=
  env.fails (.read q) 0 = none ∧ env.fails (.writeFile (moved source target q)) 0 = none ∧
    final.files.isDirectory (parentOf (moved source target q)) = true

variable (bases) in
theorem Walk.fileStep (h : Walk env v source target) (hq : q ∈ v.files.below source) {data : Bytes} {mtime : ℕ}
    (hget : Store.get v.files q = some ⟨some data, mtime⟩)
    (hm : Meets env v w (env.wholeWalk bases v source target).1 source target q) :
    (env.Copies (env.wholeWalk bases v source target).1 source target q →
      env.childCopied bases source target w (Files.relative source q) =
        (({ w with files := Store.put w.files (moved source target q) ⟨some data, env.now⟩ } : Volume).copyMeta
          env.now q (moved source target q) false, none)) ∧
    (¬ env.Copies (env.wholeWalk bases v source target).1 source target q →
      ∃ e, env.childCopied bases source target w (Files.relative source q) =
        (w, some (env.copyFailure bases (moved source target q) e))) := by
  have hlook := h.looked hq hm
  have hnode : Store.get w.files q = some ⟨some data, mtime⟩ := hlook.file.trans hget
  have hne : q ≠ [] := (mem_below.mp hq).2.ne_nil
  have hfile : w.files.isDirectory q = false := by simp [Files.isDirectory, hne, hnode]
  have hfree : w.files.isDirectory (moved source target q) = false := by
    simp [Files.isDirectory, h.copy_ne_nil hq, hm.untouched.file.trans (h.fresh q hq)]
  have hparent := h.parent_same hq hm
  unfold Env.Copies Env.childCopied Env.bytesCopied
  dsimp only
  rw [(h.shape hq).1, (h.shape hq).2, h.sees, hfile, ← hparent, hnode, hfree]
  simp only [Bool.false_eq_true, ↓reduceIte]
  cases hr : env.fails (.read q) 0 with
  | some e => exact ⟨fun hc => absurd hc.1 (by simp), fun _ => ⟨e, rfl⟩⟩
  | none =>
    cases hw : env.fails (.writeFile (moved source target q)) 0 with
    | some e => exact ⟨fun hc => absurd hc.2.1 (by simp), fun _ => ⟨e, rfl⟩⟩
    | none =>
      cases hd : w.files.isDirectory (parentOf (moved source target q)) with
      | false => exact ⟨fun hc => absurd hc.2.2 (by simp), fun _ => ⟨.of "ENOENT", rfl⟩⟩
      | true => exact ⟨fun _ => rfl, fun hc => absurd ⟨rfl, rfl, rfl⟩ hc⟩

variable (bases) in
theorem Walk.file (h : Walk env v source target) (hq : q ∈ v.files.below source) {data : Bytes} {mtime : ℕ}
    (hget : Store.get v.files q = some ⟨some data, mtime⟩) :
    let final := (env.wholeWalk bases v source target).1
    (env.Copies final source target q →
      Store.get final.files (moved source target q) = some ⟨some data, env.now⟩ ∧
      ∀ ns name, Store.get final.props ⟨moved source target q, ns, name⟩ =
        (Store.get v.props ⟨q, ns, name⟩).or (Store.get v.props ⟨moved source target q, ns, name⟩)) ∧
    (¬ env.Copies final source target q →
      Store.get final.files (moved source target q) = none ∧
      ∃ e, env.copyFailure bases (moved source target q) e ∈ (env.wholeWalk bases v source target).2) := by
  intro final
  obtain ⟨pre, post, hsplit⟩ := List.append_of_mem hq
  obtain ⟨hm, hsame, hfailed⟩ := h.step bases hsplit
  set w := (env.childrenCopied bases source target v (pre.map (Files.relative source))).1
  obtain ⟨hdone, hfails⟩ := h.fileStep bases hq hget hm
  constructor
  · intro hc
    rw [hsame.file, hdone hc]
    constructor
    · show Store.get (Store.put w.files (moved source target q) ⟨some data, env.now⟩) (moved source target q) = _
      rw [Store.get_put, if_pos rfl]
    · intro ns name
      rw [hsame.props, hdone hc, copyMeta_props]
      show (Store.get w.props ⟨q, ns, name⟩).or (Store.get w.props ⟨moved source target q, ns, name⟩) = _
      rw [(h.looked hq hm).props, hm.untouched.props]
  · intro hc
    obtain ⟨e, he⟩ := hfails hc
    rw [hsame.file, he]
    exact ⟨hm.untouched.file.trans (h.fresh q hq), e, hfailed _ (by rw [he]; rfl)⟩

/-- Only a file that is not copied is reported. -/
theorem Walk.reported (h : Walk env v source target) {f : MultiStatusFailure}
    (hf : f ∈ (env.wholeWalk bases v source target).2) :
    ∃ q ∈ v.files.below source, v.files.isDirectory q = false ∧
      ¬ env.Copies (env.wholeWalk bases v source target).1 source target q ∧
      ∃ e, f = env.copyFailure bases (moved source target q) e := by
  obtain ⟨pre', name, post', hnames, hmem⟩ := mem_childrenCopied hf
  obtain ⟨pre, tail, hsplit, hpre, htail⟩ := List.map_eq_append_iff.mp hnames
  obtain ⟨q, post, htail', hname, hpost⟩ := List.map_eq_cons_iff.mp htail
  subst hpre hpost hname htail'
  have hq : q ∈ v.files.below source := by
    rw [hsplit]
    exact List.mem_append_right _ List.mem_cons_self
  obtain ⟨hm, _, _⟩ := h.step bases hsplit
  have hlook := h.looked hq hm
  refine ⟨q, hq, ?_⟩
  cases hdir : v.files.isDirectory q with
  | true =>
    unfold Env.childCopied at hmem
    dsimp only at hmem
    rw [(h.shape hq).1, if_pos (by rw [h.sees, hlook.isDirectory, hdir])] at hmem
    simp at hmem
  | false =>
    have hfound := found_iff.mpr (.inr (mem_below.mp hq).1)
    obtain ⟨data, mtime, hget⟩ := file_entry (mem_below.mp hq).2.ne_nil hfound hdir
    obtain ⟨hdone, hfails⟩ := h.fileStep bases hq hget hm
    by_cases hc : env.Copies (env.wholeWalk bases v source target).1 source target q
    · rw [hdone hc] at hmem
      simp at hmem
    · obtain ⟨e, he⟩ := hfails hc
      rw [he] at hmem
      exact ⟨rfl, hc, e, by simpa using hmem.symm⟩

/-- Where no mkdir throws, every collection is copied. -/
theorem Walk.collections (h : Walk env v source target) (htarget : v.files.isDirectory target = true)
    (hmkdir : ∀ q ∈ v.files.below source, v.files.isDirectory q = true → env.fails (.mkdir (moved source target q)) 0 = none)
    (hq : q = source ∨ q ∈ v.files.below source) (hdir : v.files.isDirectory q = true) :
    (env.wholeWalk bases v source target).1.files.isDirectory (moved source target q) = true := by
  have hs := h.apart.source_ne_nil
  induction hn : q.length using Nat.strong_induction_on generalizing q with
  | _ n ih =>
    rcases hq with rfl | hq
    · rw [moved_source, h.target_same.isDirectory]
      exact htarget
    · have hbelow := (mem_below.mp hq).2
      have hparent : parentOf q = source ∨ parentOf q ∈ v.files.below source := by
        rcases parent_inside hs hbelow with he | hin
        · exact .inl he
        · right
          apply mem_below.mpr
          refine ⟨?_, hin⟩
          rcases isDirectory_iff.mp (h.parent q hq) with hroot | ⟨i, hi, _⟩
          · exact absurd hroot hin.ne_nil
          · simp [hi]
      have hlt : (parentOf q).length < n := hn ▸ parentSegments_length_lt hbelow.ne_nil
      have habove := ih _ hlt hparent (h.parent q hq) rfl
      rw [← parent_moved hs hbelow] at habove
      apply isDirectory_iff.mpr
      refine .inr ⟨⟨none, env.now⟩, ?_, rfl⟩
      rw [(h.collection bases hq hdir).1, if_pos ⟨hmkdir q hq hdir, habove⟩]

end Walk

end DurableDav.Dav
