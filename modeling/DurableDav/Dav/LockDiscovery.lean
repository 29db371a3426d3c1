import DurableDav.Dav.Described
import DurableDav.Dav.Covering
import DurableDav.Dav.HonestCopy
import DurableDav.Dav.OneEtag

namespace DurableDav.Dav

open Library
open Replication (Bytes isValidInnerPath parentOf)

/-! ### The addresses of resources -/

section Hrefs

variable {p : Platform} {a b base : JsString}

/-- The names of an address, with an empty one at the end for a collection. -/
def hrefNames (base key : JsString) (isCollection : Bool) : List JsString :=
  (if stripSlashes base = [] then [] else (stripSlashes base).splitOn slash) ++ key.splitOn slash ++
    if isCollection then [[]] else []

theorem hrefNames_eq (base key : JsString) (isCollection : Bool) :
    (if stripSlashes base = [] then slash :: (key ++ if isCollection then [slash] else [])
      else slash :: stripSlashes base ++ slash :: (key ++ if isCollection then [slash] else [])).splitOn slash =
        [] :: hrefNames base key isCollection := by
  have hsuffix : (key ++ if isCollection then [slash] else []).splitOn slash =
      key.splitOn slash ++ if isCollection then [[]] else [] := by
    cases isCollection
    · simp
    · rw [if_pos rfl, if_pos rfl, show key ++ [slash] = key ++ slash :: [] from rfl, List.splitOn_append_cons_self]
      simp
  unfold hrefNames
  split
  · rw [show ∀ s : JsString, slash :: s = [] ++ slash :: s from fun _ => rfl, List.splitOn_append_cons_self, hsuffix]
    simp
  · rw [show ∀ s t : JsString, slash :: s ++ slash :: t = [] ++ slash :: (s ++ slash :: t) from fun _ _ => by simp,
      List.splitOn_append_cons_self, List.splitOn_append_cons_self, hsuffix]
    simp

theorem hrefNames_noSlash (base key : JsString) (isCollection : Bool) : ∀ s ∈ hrefNames base key isCollection, slash ∉ s := by
  intro s hs
  unfold hrefNames at hs
  rcases List.mem_append.mp hs with hs | hs
  · rcases List.mem_append.mp hs with hs | hs
    · split at hs
      · simp at hs
      · exact Replication.slash_notMem_segments _ s hs
    · exact Replication.slash_notMem_segments _ s hs
  · split at hs
    · obtain rfl := List.mem_singleton.mp hs
      simp
    · simp at hs

/-- The names of the address of a resource other than the root. -/
theorem resourceHref_names (h : p.Encodes) (hkey : a ≠ []) (isCollection : Bool) :
    (getResourceHref p a isCollection base).splitOn slash = [] :: (hrefNames base a isCollection).map p.encodeURIComponent := by
  have hhref := hrefNames_eq base a isCollection
  unfold getResourceHref
  rw [if_neg hkey]
  dsimp only
  generalize hs : (if stripSlashes base = [] then slash :: (a ++ if isCollection then [slash] else [])
    else slash :: stripSlashes base ++ slash :: (a ++ if isCollection then [slash] else [])) = s at hhref ⊢
  unfold encodeHrefPath
  have hne : s ≠ [slash] := by
    rintro rfl
    split at hs
    · simp [hkey] at hs
    · simp at hs
  rw [if_neg hne, hhref]
  dsimp only
  apply List.splitOn_intercalate
  · intro t ht
    rcases List.mem_cons.mp ht with rfl | ht
    · simp
    · obtain ⟨name, hname, rfl⟩ := List.mem_map.mp ht
      exact h.noSlash name (hrefNames_noSlash base a isCollection name hname)
  · simp

theorem rootHref_names : (getResourceHref p [] true base).splitOn slash =
    [] :: (if stripSlashes base = [] then [] else (stripSlashes base).splitOn slash) ++ [[]] := by
  unfold getResourceHref
  rw [if_pos rfl]
  split
  · rfl
  · rw [show ∀ t : JsString, slash :: t ++ [slash] = [] ++ slash :: (t ++ slash :: []) from fun _ => by simp,
      List.splitOn_append_cons_self, List.splitOn_append_cons_self]
    simp

/-- Two resources have two addresses. -/
theorem resourceHref_injective (h : p.Encodes) (ha : Named a) (hb : Named b) {c d : Bool} (hc : a = [] → c = true)
    (hd : b = [] → d = true) (he : getResourceHref p a c base = getResourceHref p b d base) : a = b := by
  have hlast : ∀ {q : JsString}, Named q → q ≠ [] → ∀ {xs : List JsString}, q.splitOn slash = xs ++ [[]] → False := by
    intro q hq hne xs hsplit
    exact (hq.resolve_left hne) [] (by rw [hsplit]; simp) rfl
  -- the address of the root ends in a slash, and has no name of its own before it
  have hroot : ∀ {q : JsString} {e : Bool}, Named q → q ≠ [] →
      getResourceHref p q e base = getResourceHref p [] true base → False := by
    intro q e hq hne heq
    have hnames := congrArg (List.splitOn slash) heq
    rw [resourceHref_names h hne, rootHref_names] at hnames
    have hlength := congrArg List.length hnames
    have hsize : 0 < (q.splitOn slash).length := List.length_pos_of_ne_nil (List.splitOn_ne_nil _ _)
    unfold hrefNames at hnames hlength
    cases e with
    | true => simp at hlength
    | false =>
      simp only [Bool.false_eq_true, ↓reduceIte, List.append_nil, List.length_cons, List.length_map, List.length_append,
        List.length_nil, Nat.zero_add] at hlength
      obtain ⟨name, hname⟩ := List.length_eq_one_iff.mp (show (q.splitOn slash).length = 1 by omega)
      have hend := congrArg List.getLast? hnames
      simp only [Bool.false_eq_true, ↓reduceIte, List.append_nil, hname, List.map_append, List.map_cons, List.map_nil,
        List.getLast?_append_cons, ← List.cons_append, List.getLast?_singleton, Option.some.injEq] at hend
      exact h.nonempty name ((hq.resolve_left hne) name (by simp [hname])) hend
  by_cases hra : a = []
  · by_cases hrb : b = []
    · rw [hra, hrb]
    · rw [hra, hc hra] at he
      exact (hroot hb hrb he.symm).elim
  · by_cases hrb : b = []
    · rw [hrb, hd hrb] at he
      exact (hroot ha hra he).elim
    · have hnames := congrArg (List.splitOn slash) he
      rw [resourceHref_names h hra, resourceHref_names h hrb, List.cons.injEq] at hnames
      have hsame := encoded_injective h (hrefNames_noSlash base a c) (hrefNames_noSlash base b d) hnames.2
      unfold hrefNames at hsame
      rw [List.append_assoc, List.append_assoc, List.append_cancel_left_eq] at hsame
      have hsplit : a.splitOn slash = b.splitOn slash := by
        cases c <;> cases d <;> simp only [Bool.false_eq_true, ↓reduceIte, List.append_nil,
          List.append_cancel_right_eq] at hsame
        · exact hsame
        · exact (hlast ha hra hsame).elim
        · exact (hlast hb hrb hsame.symm).elim
        · exact hsame
      have hjoin := congrArg ([slash].intercalate ·) hsplit
      simpa only [List.intercalate_splitOn] using hjoin

end Hrefs

/-! ### The locks that are shown, and those that are enforced -/

namespace Env

variable (env : Env) (v : Volume) (path base : JsString)

/-- A lock with the address of the resource it was taken on. -/
def takenOn (e : JsString × LockRow) : LockDetails :=
  rowDetails e.1 e.2 (getResourceHref env.platform e.2.path (v.files.isDirectory e.2.path) base)

/-- PROPFIND shows of a path the locks that the guard holds against a request without tokens, each with the address of the
resource it was taken on. -/
def LocksAgree : Prop := ∀ node s, (env.nodeAt path base).run ⟨v, []⟩ = (.ok (some node), s) →
  node.shownLocks env.platform base = (v.blocking env.now [] path).map (env.takenOn v base)

/-- Every lock in force at a path was taken on the path itself, and that is not the root. -/
def OwnLocks : Prop := (∀ e ∈ v.blocking env.now [] path, e.2.path = path) ∧ (path = [] → v.blocking env.now [] path = [])

end Env

section Agreement

variable {env : Env} {v : Volume} {path base : JsString}

/-- The two selections of the lock table are one, but for the addresses. -/
theorem applicableLocks_eq (hv : v.HoldsUuids) : v.applicableLocks env.platform env.now path base =
    (v.blocking env.now [] path).map (fun e => rowDetails e.1 e.2 (hrefOf env.platform base e.2.path true)) := by
  have hselect : (v.locksAffecting env.now path).filter (fun e => e.1 ≠ [] ∧ (e.2.path = path ∨ e.2.depth = js "infinity")) =
      v.blocking env.now [] path := by
    unfold Volume.blocking
    apply List.filter_congr
    intro e he
    have huuid := hv e (List.mem_of_mem_filter he)
    have hne : e.1 ≠ [] := by
      intro hnil
      rw [hnil] at huuid
      revert huuid
      decide
    simp [hne, or_comm]
  unfold Volume.applicableLocks
  rw [hselect, ← List.filterMap_eq_map]
  apply List.filterMap_congr
  intro e he
  have hlive : env.now < e.2.expiresAt := by
    have hin := List.mem_of_mem_filter he
    simp only [Volume.locksAffecting, List.mem_filter, decide_eq_true_eq] at hin
    exact hin.2.2
  exact lockDetails_live hlive

theorem described_shown (hv : v.HoldsUuids) (h : env.Describes path) :
    (env.described v path base).shownLocks env.platform base = (v.blocking env.now [] path).map
      (fun e => rowDetails e.1 e.2 (getResourceHref env.platform path (v.files.isDirectory path) base)) := by
  have hdir : (env.sees v path 0).isDirectory = v.files.isDirectory path := by rw [described_sees h, stat_isDirectory]
  unfold DavNodeInfo.shownLocks
  simp only [Env.described, nodeOf, applicableLocks_eq hv, hdir, List.map_map]
  rfl

theorem locksAgree_root : env.LocksAgree v [] base ↔ v.blocking env.now [] [] = [] := by
  have hrun : (env.nodeAt [] base).run ⟨v, []⟩ = (.ok (some env.rootNode), ⟨v, []⟩) := rfl
  constructor
  · intro h
    have hshown := h _ _ hrun
    exact List.map_eq_nil_iff.mp hshown.symm
  · intro h node s hs
    rw [hrun] at hs
    obtain rfl := Option.some.inj (Except.ok.inj (congrArg Prod.fst hs))
    rw [h]
    rfl

theorem ownLocks_root : env.OwnLocks v [] ↔ v.blocking env.now [] [] = [] := by
  constructor
  · exact fun h => h.2 rfl
  · intro h
    exact ⟨by simp [h], fun _ => h⟩

/-- The address of a lock tells where it was taken. -/
theorem takenOn_own_iff (hp : env.platform.Encodes) (hvalid : isValidInnerPath path = true) (hroot : path ≠ [])
    {e : JsString × LockRow} (he : e ∈ v.blocking env.now [] path) :
    rowDetails e.1 e.2 (getResourceHref env.platform path (v.files.isDirectory path) base) = env.takenOn v base e ↔
      e.2.path = path := by
  have hnamed := named_of_valid hvalid
  have habove : Named e.2.path := by
    obtain ⟨_, _, hcovers, _⟩ := (mem_blocking hvalid).mp he
    rcases hcovers with heq | ⟨_, hb⟩
    · rwa [heq]
    · exact hnamed.above hb
  constructor
  · intro heq
    have hhref := congrArg LockDetails.root heq
    refine (resourceHref_injective hp hnamed habove (fun h => absurd h hroot) (fun h => ?_) hhref).symm
    rw [h]
    rfl
  · intro heq
    unfold Env.takenOn
    rw [heq]

/-- The locks PROPFIND shows are those that are enforced, exactly where each was taken on the resource itself and none on
the root of the volume. -/
theorem locks_agree_iff (hv : Reached v) (hp : env.platform.Encodes) (hvalid : isValidInnerPath path = true)
    (hfound : v.files.found path = true) :
    env.LocksAgree v path base ↔ (path = [] ∨ env.Describes path → env.OwnLocks v path) := by
  by_cases hroot : path = []
  · subst hroot
    rw [locksAgree_root, ownLocks_root]
    exact ⟨fun h _ => h, fun h => h (.inl rfl)⟩
  · have hown : env.OwnLocks v path ↔ ∀ e ∈ v.blocking env.now [] path, e.2.path = path :=
      ⟨And.left, fun h => ⟨h, fun hnil => absurd hnil hroot⟩⟩
    constructor
    · intro h hd
      obtain ⟨s, hrun⟩ := nodeAt_run base hroot (hd.resolve_left hroot) hfound
      have hshown := h _ _ hrun
      rw [described_shown (reached_uuids hv) (hd.resolve_left hroot), List.map_inj_left] at hshown
      exact hown.mpr fun e he => (takenOn_own_iff hp hvalid hroot he).mp (hshown e he)
    · intro h node s hrun
      obtain ⟨hd, rfl⟩ := nodeAt_elim hroot hrun
      rw [described_shown (reached_uuids hv) hd]
      exact List.map_congr_left fun e he => (takenOn_own_iff hp hvalid hroot he).mpr ((h (.inr hd)).1 e he)

end Agreement

/-! ### A lock on the root -/

def lockedFile : Volume := Env.after (calmEnv.serve lockFile) emptyVolume

theorem own_lock_agrees : calmEnv.LocksAgree lockedFile (js "f") [] := by
  apply (locks_agree_iff (.request calmEnv lockFile .empty) plainPlatform_encodes (by decide) (by decide)).mpr
  intro _
  refine ⟨?_, by decide⟩
  decide

def lockRoot : Exchange := { lockFile with path := [] }

def underLock : Volume := Env.after (calmEnv.serve lockRoot) (Env.after (calmEnv.serve putFile) emptyVolume)

/-- The root shows no lock, and a file below it shows the root's lock as its own. -/
theorem root_lock_disagrees : ¬ calmEnv.LocksAgree underLock [] [] ∧ ¬ calmEnv.LocksAgree underLock (js "f") [] := by
  have hd : calmEnv.Describes (js "f") := ⟨rfl, rfl, rfl⟩
  constructor
  · intro h
    have hnone := locksAgree_root.mp h
    revert hnone
    decide
  · intro h
    obtain ⟨s, hrun⟩ := nodeAt_run [] (v := underLock) (by decide) hd (by decide)
    have hshown := h _ _ hrun
    revert hshown
    decide

end DurableDav.Dav
