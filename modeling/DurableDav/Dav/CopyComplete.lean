import DurableDav.Dav.CopyFacts

namespace DurableDav.Dav

open Library
open Replication (Bytes isValidInnerPath parentOf)

/-! ### The addresses in a report -/

/-- What the program relies on where it writes paths as addresses. -/
structure Platform.Encodes (p : Platform) : Prop where
  injective : ∀ s t, slash ∉ s → slash ∉ t → p.encodeURIComponent s = p.encodeURIComponent t → s = t
  noSlash : ∀ s, slash ∉ s → slash ∉ p.encodeURIComponent s
  nonempty : ∀ s, s ≠ [] → p.encodeURIComponent s ≠ []

section Hrefs

variable {p : Platform} {a b base : JsString}

theorem encoded_injective (h : p.Encodes) {xs ys : List JsString} (hx : ∀ s ∈ xs, slash ∉ s) (hy : ∀ s ∈ ys, slash ∉ s)
    (he : xs.map p.encodeURIComponent = ys.map p.encodeURIComponent) : xs = ys := by
  induction xs generalizing ys with
  | nil =>
    cases ys with
    | nil => rfl
    | cons y ys => simp at he
  | cons x xs ih =>
    cases ys with
    | nil => simp at he
    | cons y ys =>
      simp only [List.map_cons, List.cons.injEq] at he
      have hhead := h.injective x y (hx x List.mem_cons_self) (hy y List.mem_cons_self) he.1
      have htail := ih (fun s hs => hx s (List.mem_cons_of_mem _ hs)) (fun s hs => hy s (List.mem_cons_of_mem _ hs)) he.2
      rw [hhead, htail]

theorem splitOn_encoded (h : p.Encodes) (a : JsString) :
    ([slash].intercalate ((a.splitOn slash).map p.encodeURIComponent)).splitOn slash =
      (a.splitOn slash).map p.encodeURIComponent := by
  apply List.splitOn_intercalate
  · intro s hs
    obtain ⟨name, hname, rfl⟩ := List.mem_map.mp hs
    exact h.noSlash name (Replication.slash_notMem_segments a name hname)
  · simp [List.splitOn_ne_nil]

/-- Two paths without empty names have different addresses, with or without a slash at the end. -/
theorem hrefOf_injective (h : p.Encodes) (ha : ∀ name ∈ a.splitOn slash, name ≠ []) (hb : ∀ name ∈ b.splitOn slash, name ≠ [])
    {c d : Bool} (he : hrefOf p base a c = hrefOf p base b d) : a = b := by
  have hne {s : JsString} (hs : ∀ name ∈ s.splitOn slash, name ≠ []) : s ≠ [] := by
    rintro rfl
    exact hs [] (by simp) rfl
  have hsplit (s : JsString) := splitOn_encoded h s
  have hinj : ([slash].intercalate ((a.splitOn slash).map p.encodeURIComponent) =
      [slash].intercalate ((b.splitOn slash).map p.encodeURIComponent)) → a = b := by
    intro heq
    have hmap := congrArg (List.splitOn slash) heq
    rw [hsplit, hsplit] at hmap
    have hsegments := encoded_injective h (Replication.slash_notMem_segments a) (Replication.slash_notMem_segments b) hmap
    have hjoin := congrArg ([slash].intercalate ·) hsegments
    simpa only [List.intercalate_splitOn] using hjoin
  have hlast {s t : JsString} (hs : ∀ name ∈ s.splitOn slash, name ≠ [])
      (heq : [slash].intercalate ((s.splitOn slash).map p.encodeURIComponent) = t ++ [slash]) : False := by
    have hmem : [] ∈ (s.splitOn slash).map p.encodeURIComponent := by
      rw [← hsplit, heq, show t ++ [slash] = t ++ slash :: [] from rfl, List.splitOn_append_cons_self]
      simp
    obtain ⟨name, hname, hnil⟩ := List.mem_map.mp hmem
    exact h.nonempty name (hs name hname) hnil
  unfold hrefOf at he
  rw [if_neg (hne ha), if_neg (hne hb)] at he
  cases c <;> cases d <;> simp only [Bool.false_eq_true, ↓reduceIte, List.append_nil, List.append_assoc,
    List.append_cancel_left_eq, List.cons_append, List.cons.injEq, true_and, List.append_cancel_right_eq] at he
  · exact hinj he
  · exact (hlast ha he).elim
  · exact (hlast hb he.symm).elim
  · exact hinj he

end Hrefs

/-! ### A complete copy, and an honest answer -/

/-- Of the calls a request makes only reads, writes, mkdirs and listings may throw. -/
def Env.OnlyCopyingFails (env : Env) : Prop :=
  ∀ op n, env.fails op n ≠ none →
    (∃ p, op = .read p) ∨ (∃ p, op = .writeFile p) ∨ (∃ p, op = .mkdir p) ∨ ∃ p recursive, op = .listDir p recursive

/-- The same kind, the same bytes and the same dead properties. -/
structure CopiedAt (source target q : JsString) (v v' : Volume) : Prop where
  file : (Store.get v'.files (moved source target q)).map Inode.bytes = (Store.get v.files q).map Inode.bytes
  props : ∀ ns name, Store.get v'.props ⟨moved source target q, ns, name⟩ = Store.get v.props ⟨q, ns, name⟩

/-- The destination has what the source had and nothing else. -/
structure CompleteCopy (source target : JsString) (v v' : Volume) : Prop where
  copied : ∀ q, (Store.get v.files q).isSome → q = source ∨ Below slash source q → CopiedAt source target q v v'
  only : ∀ p, (Store.get v'.files p).isSome → p = target ∨ Below slash target p →
    ∃ q, (Store.get v.files q).isSome ∧ (q = source ∨ Below slash source q) ∧ moved source target q = p

/-- The answer is a 207 in which a path is named. -/
def Names (env : Env) (bases : DavBases) (response : Response) (path : JsString) : Prop :=
  response.status = 207 ∧ ∃ failures, response.body = .multistatus failures ∧
    ∃ f ∈ failures, ∃ isCollection, f.href = hrefOf env.platform bases.hrefBase path isCollection

/-- Success means a complete copy, and what is missing is named where it is no error. -/
structure HonestAnswer (env : Env) (bases : DavBases) (source target : JsString) (v : Volume) (response : Response)
    (v' : Volume) : Prop where
  complete : response.status = 201 ∨ response.status = 204 → CompleteCopy source target v v'
  named : ∀ q, (Store.get v.files q).isSome → Below slash source q →
    (Store.get v'.files (moved source target q)).map Inode.bytes ≠ (Store.get v.files q).map Inode.bytes →
      400 ≤ response.status ∨ Names env bases response (moved source target q)

def HonestCopy (env : Env) (r : Request) (source : JsString) (bases : DavBases) (v : Volume) : Prop :=
  ∃ response s', (env.handleCopy r source bases).run ⟨v, []⟩ = (.ok response, s') ∧
    ∀ target, resolveDestination env.platform r bases.pathBase source = some target →
      HonestAnswer env bases source target v response s'.volume

/-- No property that is not the source's stays at the place of a copy, and the source's are still there to be copied. -/
def PropsFollow (v v₁ : Volume) (source target q : JsString) : Prop :=
  ∀ ns name, (Store.get v₁.props ⟨q, ns, name⟩).or (Store.get v₁.props ⟨moved source target q, ns, name⟩) =
    Store.get v.props ⟨q, ns, name⟩

/-- What has to go right for the copy of a collection, once its destination is removed. -/
structure Env.CopiesWhole (env : Env) (v v₁ : Volume) (source target : JsString) : Prop where
  listed : v.files.below source = [] ∨ (env.fails (.listDir source true) 0 = none ∧ ¬ Below slash target source)
  collections : ∀ q ∈ v.files.below source, v.files.isDirectory q = true →
    env.fails (.mkdir target) 0 = none ∧ env.fails (.mkdir (moved source target q)) 0 = none
  successful : (∀ q ∈ v.files.below source, v.files.isDirectory q = false → env.fails (.mkdir target) 0 = none ∧
      env.fails (.read q) 0 = none ∧ env.fails (.writeFile (moved source target q)) 0 = none) →
    env.fails (.mkdir target) 0 = none ∧ ∀ q, q = source ∨ q ∈ v.files.below source → PropsFollow v v₁ source target q

/-- An accepted copy that goes wrong without a word. -/
def Env.CopyMisleads (env : Env) (v : Volume) (r : Request) (source target : JsString) : Prop :=
  env.copyGuard v r source target = none ∧ ((env.sees v target 0).found = true → env.mayRemove v r target 1) ∧
    if v.files.isDirectory source then
      ((env.sees v target 0).found = true ∨ env.fails (.mkdir target) 0 = none) ∧
        ¬ env.CopiesWhole v (env.withoutDestination v target) source target
    else env.fails (.read source) 0 = none ∧ env.fails (.writeFile target) 0 = none ∧ ¬ Below slash target source ∧
      ¬ PropsFollow v (env.withoutDestination v target) source target source

theorem destination_named {p : Platform} {r : Request} {base source target : JsString}
    (hd : resolveDestination p r base source = some target) (hne : target ≠ []) :
    ∀ name ∈ target.splitOn slash, name ≠ [] := Replication.valid_segments (resolveDestination_apart hd).valid hne

section Calm

variable {env : Env} {v : Volume} {r : Request} {source target q : JsString}

theorem Env.OnlyCopyingFails.stores (h : env.OnlyCopyingFails) : env.Stores := by
  intro st n
  by_contra hne
  rcases h _ _ hne with ⟨p, hp⟩ | ⟨p, hp⟩ | ⟨p, hp⟩ | ⟨p, rec, hp⟩ <;> simp at hp

theorem Env.OnlyCopyingFails.looks (h : env.OnlyCopyingFails) (path : JsString) (n : ℕ) : env.fails (.stat path) n = none := by
  by_contra hne
  rcases h _ _ hne with ⟨p, hp⟩ | ⟨p, hp⟩ | ⟨p, hp⟩ | ⟨p, rec, hp⟩ <;> simp at hp

theorem Env.OnlyCopyingFails.found (h : env.OnlyCopyingFails) (path : JsString) (n : ℕ) :
    (env.sees v path n).found = v.files.found path := by
  unfold Env.sees
  rw [if_pos (h.looks path n), stat_found]

/-! ### Before the walk -/

/-- What a request goes on with once its destination is out of the way. -/
structure Clear (env : Env) (v v₁ : Volume) (target : JsString) : Prop where
  tree : v₁.files.WellFormed
  free : v₁.files.found target = false
  parent : v₁.files.isDirectory (parentOf target) = true

theorem Clear.target_ne_nil {v₁ : Volume} (h : Clear env v v₁ target) : target ≠ [] := by
  rintro rfl
  have hfree := h.free
  simp [Files.found] at hfree

theorem Clear.nothing {v₁ : Volume} (h : Clear env v v₁ target) (hq : q = target ∨ Below slash target q) :
    Store.get v₁.files q = none := by
  rcases hq with rfl | hb
  · by_contra hsome
    have hfree := h.free
    rw [found_iff.mpr (.inr (Option.isSome_iff_ne_none.mpr hsome))] at hfree
    simp at hfree
  · exact h.tree.nothing_below (not_directory_of_not_found h.free) hb

theorem clear_of_overwritten (h : env.OnlyCopyingFails) (htree : v.files.WellFormed) {v₁ : Volume}
    (hparent : v.files.isDirectory (parentOf target) = true)
    (ho : env.overwritten v r target (env.sees v target 0).found = .ok v₁) :
    v₁ = env.withoutDestination v target ∧ Clear env v v₁ target := by
  unfold Env.withoutDestination
  obtain ⟨hunseen, rfl⟩ | ⟨hseen, hmay, rfl⟩ := overwritten_seen htree ho
  · rw [if_neg (by simp [hunseen])]
    rw [h.found] at hunseen
    exact ⟨rfl, htree, hunseen, hparent⟩
  · rw [if_pos hseen]
    exact ⟨rfl, withoutCollection_wellFormed htree, target_gone target hmay.1, parent_stays hmay.1 hparent⟩

theorem collectionMade_clear {v₁ : Volume} (h : Clear env v v₁ target) :
    env.collectionMade v₁ target 0 = if env.fails (.mkdir target) 0 = none then
      some { v₁ with files := Store.put v₁.files target ⟨none, env.now⟩ } else none := by
  unfold Env.collectionMade
  rw [h.free, h.parent]
  simp

theorem targetMade_target {v₁ : Volume} (h : Clear env v v₁ target) :
    Store.get (env.targetMade v₁ source target).files target =
      if env.fails (.mkdir target) 0 = none then some ⟨none, env.now⟩ else none := by
  show Store.get ((env.collectionMade v₁ target 0).getD v₁).files target = _
  rw [collectionMade_clear h]
  split
  · rw [Option.getD_some, Store.get_put, if_pos rfl]
  · rw [Option.getD_none, h.nothing (.inl rfl)]

theorem targetMade_elsewhere {v₁ : Volume} (hq : q ≠ target) : SameAt q v₁ (env.targetMade v₁ source target) :=
  (collectionMade_elsewhere hq).trans (copyMeta_elsewhere _ _ hq)

theorem targetMade_props {v₁ : Volume} (ns name : JsString) :
    Store.get (env.targetMade v₁ source target).props ⟨target, ns, name⟩ =
      (Store.get v₁.props ⟨source, ns, name⟩).or (Store.get v₁.props ⟨target, ns, name⟩) := by
  unfold Env.targetMade
  rw [copyMeta_props]
  have hprops : ((env.collectionMade v₁ target 0).getD v₁).props = v₁.props := by
    unfold Env.collectionMade
    split <;> rfl
  rw [hprops]

theorem walk_of_clear (h : env.OnlyCopyingFails) (htree : v.files.WellFormed) (ht : Apart source target)
    (hab : ¬ Below slash target source) {v₁ : Volume}
    (hclear : Clear env v v₁ target) (hkept : SubtreeKept source v v₁) :
    Walk env (env.targetMade v₁ source target) source target ∧
      (∀ q, q = source ∨ Below slash source q → SameAt q v (env.targetMade v₁ source target)) ∧
      ∀ q, q ∈ (env.targetMade v₁ source target).files.below source ↔ q ∈ v.files.below source := by
  have hs := ht.source_ne_nil
  have hsame : SubtreeKept source v (env.targetMade v₁ source target) := hkept.trans (targetMade_kept ht)
  have hmem (q : JsString) : q ∈ (env.targetMade v₁ source target).files.below source ↔ q ∈ v.files.below source := by
    rw [mem_below, mem_below]
    apply and_congr_left
    intro hq
    rw [(hsame q (.inr hq)).file]
  refine ⟨⟨ht, hab, h.looks, fun q hq => ?_, fun q hq => ?_, fun q hq => ?_⟩, hsame, hmem⟩
  · exact (htree q (mem_below.mp ((hmem q).mp hq)).1).1
  · have hq := mem_below.mp ((hmem q).mp hq)
    rw [(hsame _ (parent_inside hs hq.2)).isDirectory]
    exact (htree q hq.1).2
  · have hbelow := (mem_below.mp hq).2
    rw [(targetMade_elsewhere (moved_ne_target target hs hbelow)).file]
    exact hclear.nothing (moved_lands hs hclear.target_ne_nil (.inr hbelow))

end Calm

/-! ### What the answer to a whole walk says -/

section Answer

variable {env : Env} {bases : DavBases} {v v₂ : Volume} {source target q : JsString}

/-- Nothing is copied where the target was not made. -/
theorem Walk.target_reached (h : Walk env v source target) (hq : q ∈ v.files.below source)
    (hparent : (env.wholeWalk bases v source target).1.files.isDirectory (parentOf (moved source target q)) = true) :
    v.files.isDirectory target = true := by
  have hs := h.apart.source_ne_nil
  induction hn : q.length using Nat.strong_induction_on generalizing q with
  | _ n ih =>
    have hbelow := (mem_below.mp hq).2
    rw [parent_moved hs hbelow] at hparent
    rcases parent_inside hs hbelow with he | hin
    · rw [he, moved_source, h.target_same.isDirectory] at hparent
      exact hparent
    · have hdir := h.parent q hq
      have hentry : parentOf q ∈ v.files.below source := by
        apply mem_below.mpr
        refine ⟨?_, hin⟩
        rcases isDirectory_iff.mp hdir with hroot | ⟨i, hi, _⟩
        · exact absurd hroot hin.ne_nil
        · simp [hi]
      have hmade := (h.collection bases hentry hdir).1
      have hlt : (parentOf q).length < n := hn ▸ parentSegments_length_lt hbelow.ne_nil
      apply ih _ hlt hentry _ rfl
      by_contra hnot
      rw [if_neg (fun hc => hnot hc.2)] at hmade
      rcases isDirectory_iff.mp hparent with hroot | ⟨i, hi, _⟩
      · exact h.copy_ne_nil hentry hroot
      · rw [hmade] at hi
        simp at hi

/-- A collection is never reported. -/
theorem Walk.unreported (h : Walk env v source target) (hencode : env.platform.Encodes)
    (htarget : ∀ name ∈ target.splitOn slash, name ≠ []) (hq : q ∈ v.files.below source)
    (hdir : v.files.isDirectory q = true) (destExists : Bool) :
    ¬ Names env bases (env.walkResponse bases target destExists (env.wholeWalk bases v source target).2)
      (moved source target q) := by
  have hs := h.apart.source_ne_nil
  have hnamed {p : JsString} (hp : p ∈ v.files.below source) : ∀ name ∈ (moved source target p).splitOn slash, name ≠ [] := by
    obtain ⟨rest, rfl⟩ := (below_of_ne hs).mp (mem_below.mp hp).2
    have hto : moved source target (source ++ slash :: rest) = target ++ slash :: rest := by
      unfold moved rebase
      rw [if_pos (.inr (mem_below.mp hp).2)]
      simp
    have hrest := h.named _ hp
    rw [hto, List.splitOn_append_cons_self]
    rw [List.splitOn_append_cons_self] at hrest
    intro name hname
    rcases List.mem_append.mp hname with hin | hin
    · exact htarget name hin
    · exact hrest name (List.mem_append_right _ hin)
  rintro ⟨_, failures, hbody, f, hf, isCollection, hhref⟩
  unfold Env.walkResponse at hbody
  split at hbody
  · unfold Env.doneResponse at hbody
    cases destExists <;> simp [Response.noContent, Response.created] at hbody
  · obtain rfl : (env.wholeWalk bases v source target).2 = failures := by
      simpa [Response.multistatus] using hbody
    obtain ⟨p, hp, hfile, _, e, rfl⟩ := h.reported hf
    have he := hrefOf_injective hencode (hnamed hp) (hnamed hq) hhref
    have hsame := moved_injective hs (.inr (mem_below.mp hp).2) (.inr (mem_below.mp hq).2) he
    rw [hsame, hdir] at hfile
    simp at hfile

theorem walkResponse_ok {failures : List MultiStatusFailure} {destExists : Bool} :
    ((env.walkResponse bases target destExists failures).status = 201 ∨
      (env.walkResponse bases target destExists failures).status = 204) ↔ failures = [] := by
  unfold Env.walkResponse
  split
  · rename_i hnil
    refine iff_of_true ?_ hnil
    cases destExists with
    | false => exact .inl rfl
    | true => exact .inr rfl
  · rename_i hne
    refine iff_of_false ?_ hne
    rintro (h | h)
    · exact absurd (show 207 = 201 from h) (by decide)
    · exact absurd (show 207 = 204 from h) (by decide)

end Answer

/-- A collection is copied beside itself, onto a place that is clear. -/
structure Beside (env : Env) (v v₁ : Volume) (source target : JsString) : Prop where
  calm : env.OnlyCopyingFails
  encodes : env.platform.Encodes
  tree : v.files.WellFormed
  apart : Apart source target
  outside : ¬ Below slash target source
  targetNamed : ∀ name ∈ target.splitOn slash, name ≠ []
  collection : v.files.isDirectory source = true
  clear : Clear env v v₁ target
  kept : SubtreeKept source v v₁

section Beside

variable {env : Env} {bases : DavBases} {v v₁ : Volume} {source target q : JsString} {destExists : Bool}

theorem Beside.walk (h : Beside env v v₁ source target) : Walk env (env.targetMade v₁ source target) source target :=
  (walk_of_clear h.calm h.tree h.apart h.outside h.clear h.kept).1

theorem Beside.same (h : Beside env v v₁ source target) (hq : q = source ∨ Below slash source q) :
    SameAt q v (env.targetMade v₁ source target) :=
  (walk_of_clear h.calm h.tree h.apart h.outside h.clear h.kept).2.1 q hq

theorem Beside.entry (h : Beside env v v₁ source target) :
    q ∈ (env.targetMade v₁ source target).files.below source ↔ q ∈ v.files.below source :=
  (walk_of_clear h.calm h.tree h.apart h.outside h.clear h.kept).2.2 q

theorem Beside.made_iff (h : Beside env v v₁ source target) :
    (env.targetMade v₁ source target).files.isDirectory target = true ↔ env.fails (.mkdir target) 0 = none := by
  rw [isDirectory_iff, targetMade_target h.clear]
  constructor
  · rintro (hroot | ⟨i, hi, _⟩)
    · exact absurd hroot h.clear.target_ne_nil
    · by_contra hne
      rw [if_neg hne] at hi
      simp at hi
  · intro hf
    exact .inr ⟨⟨none, env.now⟩, by rw [if_pos hf], rfl⟩

variable (bases) in
/-- The properties at a copy, by what stood there and what the source had when it was read. -/
theorem Beside.props (h : Beside env v v₁ source target) (hq : q = source ∨ q ∈ v.files.below source)
    (hcopied : ∀ data mtime, Store.get v.files q = some ⟨some data, mtime⟩ →
      env.Copies (env.wholeWalk bases (env.targetMade v₁ source target) source target).1 source target q) (ns name : JsString) :
    Store.get (env.wholeWalk bases (env.targetMade v₁ source target) source target).1.props
        ⟨moved source target q, ns, name⟩ =
      (Store.get v₁.props ⟨q, ns, name⟩).or (Store.get v₁.props ⟨moved source target q, ns, name⟩) := by
  have hs := h.apart.source_ne_nil
  rcases hq with rfl | hq
  · rw [moved_source, h.walk.target_same.props, targetMade_props]
  · have hbelow := (mem_below.mp hq).2
    have hin := h.entry.mpr hq
    have hback : q ≠ target := fun he => h.apart.outside (he ▸ hbelow)
    have hread : Store.get (env.targetMade v₁ source target).props ⟨q, ns, name⟩ = Store.get v₁.props ⟨q, ns, name⟩ :=
      (targetMade_elsewhere hback).props ns name
    have hplace : Store.get (env.targetMade v₁ source target).props ⟨moved source target q, ns, name⟩ =
        Store.get v₁.props ⟨moved source target q, ns, name⟩ :=
      (targetMade_elsewhere (moved_ne_target target hs hbelow)).props ns name
    rw [← hread, ← hplace]
    cases hdir : v.files.isDirectory q with
    | true => exact (h.walk.collection bases hin (by rw [(h.same (.inr hbelow)).isDirectory, hdir])).2 ns name
    | false =>
      obtain ⟨data, mtime, hget⟩ := file_entry hbelow.ne_nil (found_iff.mpr (.inr (mem_below.mp hq).1)) hdir
      have hget' := (h.same (.inr hbelow)).file.trans hget
      exact ((h.walk.file bases hin hget').1 (hcopied data mtime hget)).2 ns name

theorem entry_kind (hq : q ∈ v.files.below source) (hdir : v.files.isDirectory q = true) :
    (Store.get v.files q).map Inode.bytes = some none := by
  rcases isDirectory_iff.mp hdir with hroot | ⟨i, hi, hbytes⟩
  · exact absurd hroot (mem_below.mp hq).2.ne_nil
  · rw [hi, Option.map_some, hbytes]

/-- An honest answer means that every collection was made. -/
theorem Beside.collections_of_honest (h : Beside env v v₁ source target)
    (honest : HonestAnswer env bases source target v
      (env.walkResponse bases target destExists (env.wholeWalk bases (env.targetMade v₁ source target) source target).2)
      (env.wholeWalk bases (env.targetMade v₁ source target) source target).1)
    (hq : q ∈ v.files.below source) (hdir : v.files.isDirectory q = true) :
    env.fails (.mkdir target) 0 = none ∧ env.fails (.mkdir (moved source target q)) 0 = none := by
  have hin := h.entry.mpr hq
  have hbelow := (mem_below.mp hq).2
  have hdir' : (env.targetMade v₁ source target).files.isDirectory q = true := by
    rw [(h.same (.inr hbelow)).isDirectory, hdir]
  have hmade := (h.walk.collection bases hin hdir').1
  by_cases hcond : env.fails (.mkdir (moved source target q)) 0 = none ∧
      (env.wholeWalk bases (env.targetMade v₁ source target) source target).1.files.isDirectory
        (parentOf (moved source target q)) = true
  · exact ⟨h.made_iff.mp (h.walk.target_reached hin hcond.2), hcond.1⟩
  · rw [if_neg hcond] at hmade
    rcases honest.named q (mem_below.mp hq).1 hbelow (by rw [hmade, entry_kind hq hdir]; simp) with hstatus | hnamed
    · have hlow := walkResponse_status env bases target destExists
        (env.wholeWalk bases (env.targetMade v₁ source target) source target).2
      omega
    · exact absurd hnamed (h.walk.unreported h.encodes h.targetNamed hin hdir' destExists)

variable (bases) in
/-- Where every call goes well, nothing is reported. -/
theorem Beside.no_failures (h : Beside env v v₁ source target)
    (hmkdir : ∀ q ∈ v.files.below source, v.files.isDirectory q = true →
      env.fails (.mkdir target) 0 = none ∧ env.fails (.mkdir (moved source target q)) 0 = none)
    (hfiles : ∀ q ∈ v.files.below source, v.files.isDirectory q = false → env.fails (.mkdir target) 0 = none ∧
      env.fails (.read q) 0 = none ∧ env.fails (.writeFile (moved source target q)) 0 = none) :
    (env.wholeWalk bases (env.targetMade v₁ source target) source target).2 = [] := by
  have hs := h.apart.source_ne_nil
  by_contra hne
  obtain ⟨f, hf⟩ := List.exists_mem_of_ne_nil _ hne
  obtain ⟨q, hin, hfile, hnot, _⟩ := h.walk.reported hf
  have hq := h.entry.mp hin
  have hbelow := (mem_below.mp hq).2
  rw [(h.same (.inr hbelow)).isDirectory] at hfile
  obtain ⟨hmade, hread, hwrite⟩ := hfiles q hq hfile
  apply hnot
  refine ⟨hread, hwrite, ?_⟩
  rw [parent_moved hs hbelow]
  have hentry : parentOf q = source ∨ parentOf q ∈ (env.targetMade v₁ source target).files.below source := by
    rcases parent_inside hs hbelow with he | hup
    · exact .inl he
    · right
      apply mem_below.mpr
      refine ⟨?_, hup⟩
      rcases isDirectory_iff.mp (h.walk.parent q hin) with hroot | ⟨i, hi, _⟩
      · exact absurd hroot hup.ne_nil
      · simp [hi]
  apply h.walk.collections (h.made_iff.mpr hmade) _ hentry (h.walk.parent q hin)
  intro p hp hdir
  have hp' := h.entry.mp hp
  rw [(h.same (.inr (mem_below.mp hp').2)).isDirectory] at hdir
  exact (hmkdir p hp' hdir).2

theorem Beside.copies_of_silence (h : Beside env v v₁ source target)
    (hnil : (env.wholeWalk bases (env.targetMade v₁ source target) source target).2 = []) (hq : q ∈ v.files.below source)
    {data : Bytes} {mtime : ℕ} (hget : Store.get v.files q = some ⟨some data, mtime⟩) :
    env.Copies (env.wholeWalk bases (env.targetMade v₁ source target) source target).1 source target q := by
  by_contra hnot
  have hget' := (h.same (.inr (mem_below.mp hq).2)).file.trans hget
  obtain ⟨_, e, he⟩ := (h.walk.file bases (h.entry.mpr hq) hget').2 hnot
  rw [hnil] at he
  simp at he

theorem Beside.source_entry (h : Beside env v v₁ source target) : ∃ mtime, Store.get v.files source = some ⟨none, mtime⟩ := by
  rcases isDirectory_iff.mp h.collection with hroot | ⟨⟨bytes, mtime⟩, hi, hbytes⟩
  · exact absurd hroot h.apart.source_ne_nil
  · obtain rfl : bytes = none := hbytes
    exact ⟨mtime, hi⟩

theorem Beside.target_entry (h : Beside env v v₁ source target) :
    Store.get (env.wholeWalk bases (env.targetMade v₁ source target) source target).1.files target =
      if env.fails (.mkdir target) 0 = none then some ⟨none, env.now⟩ else none := by
  rw [h.walk.target_same.file, targetMade_target h.clear]

theorem Beside.whole_of_honest (h : Beside env v v₁ source target)
    (hlisted : v.files.below source = [] ∨ (env.fails (.listDir source true) 0 = none ∧ ¬ Below slash target source))
    (honest : HonestAnswer env bases source target v
      (env.walkResponse bases target destExists (env.wholeWalk bases (env.targetMade v₁ source target) source target).2)
      (env.wholeWalk bases (env.targetMade v₁ source target) source target).1) :
    env.CopiesWhole v v₁ source target := by
  have hcollections : ∀ q ∈ v.files.below source, v.files.isDirectory q = true →
      env.fails (.mkdir target) 0 = none ∧ env.fails (.mkdir (moved source target q)) 0 = none :=
    fun q hq hdir => h.collections_of_honest honest hq hdir
  refine ⟨hlisted, hcollections, fun hfiles => ?_⟩
  have hnil := h.no_failures bases hcollections hfiles
  have hcomplete := honest.complete (walkResponse_ok.mpr hnil)
  obtain ⟨mtime, hsource⟩ := h.source_entry
  constructor
  · have hfile := (hcomplete.copied source (by rw [hsource]; rfl) (.inl rfl)).file
    rw [moved_source, h.target_entry, hsource] at hfile
    by_contra hne
    rw [if_neg hne] at hfile
    simp at hfile
  · intro q hq ns name
    rw [← h.props bases hq (fun data mtime hget => ?_)]
    · rcases hq with rfl | hq
      · exact (hcomplete.copied q (by rw [hsource]; rfl) (.inl rfl)).props ns name
      · exact (hcomplete.copied q (mem_below.mp hq).1 (.inr (mem_below.mp hq).2)).props ns name
    · rcases hq with rfl | hq
      · rw [hsource] at hget
        simp at hget
      · exact h.copies_of_silence hnil hq hget

theorem Beside.honest_of_whole (h : Beside env v v₁ source target) (hwhole : env.CopiesWhole v v₁ source target) :
    HonestAnswer env bases source target v
      (env.walkResponse bases target destExists (env.wholeWalk bases (env.targetMade v₁ source target) source target).2)
      (env.wholeWalk bases (env.targetMade v₁ source target) source target).1 := by
  have hs := h.apart.source_ne_nil
  obtain ⟨mtime, hsource⟩ := h.source_entry
  have hmade {q : JsString} (hq : q ∈ v.files.below source) (hdir : v.files.isDirectory q = true) :
      Store.get (env.wholeWalk bases (env.targetMade v₁ source target) source target).1.files (moved source target q) =
        some ⟨none, env.now⟩ := by
    have hin := h.entry.mpr hq
    have hdir' : (env.targetMade v₁ source target).files.isDirectory q = true := by
      rw [(h.same (.inr (mem_below.mp hq).2)).isDirectory, hdir]
    have hcopy : (env.wholeWalk bases (env.targetMade v₁ source target) source target).1.files.isDirectory
        (moved source target q) = true := by
      apply h.walk.collections (h.made_iff.mpr (hwhole.collections q hq hdir).1) _ (.inr hin) hdir'
      intro p hp hpdir
      have hp' := h.entry.mp hp
      rw [(h.same (.inr (mem_below.mp hp').2)).isDirectory] at hpdir
      exact (hwhole.collections p hp' hpdir).2
    have hiff := (h.walk.collection bases hin hdir').1
    split at hiff
    · exact hiff
    · rcases isDirectory_iff.mp hcopy with hroot | ⟨i, hi, _⟩
      · exact absurd hroot (h.walk.copy_ne_nil hin)
      · rw [hiff] at hi
        simp at hi
  have hfile {q : JsString} (hq : q ∈ v.files.below source) (hdir : v.files.isDirectory q = false) :
      ∃ data mtime, Store.get v.files q = some ⟨some data, mtime⟩ :=
    file_entry (mem_below.mp hq).2.ne_nil (found_iff.mpr (.inr (mem_below.mp hq).1)) hdir
  constructor
  · intro hstatus
    have hnil := walkResponse_ok.mp hstatus
    have hcopies {q : JsString} (hq : q ∈ v.files.below source) {data : Bytes} {mtime : ℕ}
        (hget : Store.get v.files q = some ⟨some data, mtime⟩) := h.copies_of_silence hnil hq hget
    obtain ⟨htarget, hprops⟩ := hwhole.successful (by
      intro q hq hdir
      obtain ⟨data, mtime, hget⟩ := hfile hq hdir
      obtain ⟨hread, hwrite, hparent⟩ := hcopies hq hget
      exact ⟨h.made_iff.mp (h.walk.target_reached (h.entry.mpr hq) hparent), hread, hwrite⟩)
    constructor
    · intro q hsome hq
      have hq' : q = source ∨ q ∈ v.files.below source := hq.imp id (fun hb => mem_below.mpr ⟨hsome, hb⟩)
      constructor
      · rcases hq' with rfl | hq
        · rw [moved_source, h.target_entry, if_pos htarget, hsource]
          rfl
        · cases hdir : v.files.isDirectory q with
          | true => rw [hmade hq hdir, entry_kind hq hdir, Option.map_some]
          | false =>
            obtain ⟨data, mtime, hget⟩ := hfile hq hdir
            have hget' := (h.same (.inr (mem_below.mp hq).2)).file.trans hget
            rw [((h.walk.file bases (h.entry.mpr hq) hget').1 (hcopies hq hget)).1, hget]
            rfl
      · intro ns name
        rw [h.props bases hq' (fun data mtime hget => ?_)]
        · exact hprops q hq' ns name
        · rcases hq' with rfl | hq
          · rw [hsource] at hget
            simp at hget
          · exact hcopies hq hget
    · intro p hsome hp
      rcases hp with rfl | hp
      · exact ⟨source, by rw [hsource]; rfl, .inl rfl, moved_source source p⟩
      · by_contra hnone
        have hsame : SameAt p (env.targetMade v₁ source target)
            (env.wholeWalk bases (env.targetMade v₁ source target) source target).1 := by
          apply childrenCopied_elsewhere
          intro name hname he
          obtain ⟨q, hq, rfl⟩ := List.mem_map.mp hname
          rw [(h.walk.shape hq).2] at he
          have hq' := mem_below.mp (h.entry.mp hq)
          exact hnone ⟨q, hq'.1, .inr hq'.2, he.symm⟩
        rw [hsame.file, (targetMade_elsewhere hp.ne.symm).file, h.clear.nothing (.inr hp)] at hsome
        simp at hsome
  · intro q hsome hbelow hdiffers
    have hq := mem_below.mpr ⟨hsome, hbelow⟩
    right
    cases hdir : v.files.isDirectory q with
    | true =>
      rw [hmade hq hdir, entry_kind hq hdir] at hdiffers
      exact absurd rfl hdiffers
    | false =>
      obtain ⟨data, mtime, hget⟩ := hfile hq hdir
      have hget' := (h.same (.inr hbelow)).file.trans hget
      have hresult := h.walk.file bases (h.entry.mpr hq) hget'
      by_cases hc : env.Copies (env.wholeWalk bases (env.targetMade v₁ source target) source target).1 source target q
      · rw [(hresult.1 hc).1, hget] at hdiffers
        exact absurd rfl hdiffers
      · obtain ⟨_, e, he⟩ := hresult.2 hc
        have hne : (env.wholeWalk bases (env.targetMade v₁ source target) source target).2 ≠ [] := List.ne_nil_of_mem he
        unfold Env.walkResponse
        rw [if_neg hne]
        exact ⟨rfl, _, rfl, _, he, false, rfl⟩

end Beside

end DurableDav.Dav
