import DurableDav.Dav.VolumeTransfer
import DurableDav.Replication.CompleteView

namespace DurableDav.Library.Store

variable {κ α : Type} [DecidableEq κ]

/-- The entries of some keys, made one by one. -/
theorem get_filterMap (ks : List κ) (f : κ → Option α) (k : κ) :
    get (ks.filterMap fun k => (f k).map (k, ·)) k = if k ∈ ks then f k else none := by
  induction ks with
  | nil => simp
  | cons k' ks ih =>
    rw [List.filterMap_cons]
    cases hf : f k' with
    | none =>
      by_cases hk : k = k'
      · subst hk
        simp [ih, hf]
      · simp [ih, hk]
    | some a =>
      rw [Option.map_some]
      dsimp only
      rw [get_cons, ih]
      by_cases hk : k' = k
      · subst hk
        simp [hf]
      · simp [hk, Ne.symm hk]

end DurableDav.Library.Store

namespace DurableDav.Dav

open Library
open Replication (Bytes isValidInnerPath parentOf PlanSide ReplicaListing)

/-! ### What a replication is told of a volume -/

namespace Env

variable (env : Env)

def requireStatInner (path : JsString) : Serve StatResult := do
  match ← (env.stat path).attempt with
  | .ok st => pure st
  | .error e => if isMissingPath e then pure missingStat else .throw e

def requireChildren (path : JsString) : Serve (List JsString) := do
  match ← (env.listDir path false).attempt with
  | .ok names => pure names
  | .error e => if isMissingPath e then pure [] else .throw e

def describe (path : JsString) : Serve (Option PlanSide) := do
  let st ← env.requireStatInner path
  if !st.found then pure none
  else do
    let row ← env.readMeta path
    pure (some ⟨path, st.isDirectory, row.bind NodeRow.etag, some ((row.map NodeRow.mtime).getD st.mtime : ℕ),
      some st.size, row.bind NodeRow.contentType⟩)

/-- A path that is not valid is passed over. -/
def describeValid (path : JsString) : Serve (Option PlanSide) :=
  if isValidInnerPath path then env.describe path else pure none

def describeEach : List JsString → Serve (List PlanSide)
  | [] => pure []
  | path :: rest => do
    let entry ← env.describeValid path
    let entries ← describeEach rest
    pure (entry.toList ++ entries)

def describeSelf (path : JsString) : Serve (Option PlanSide) := if path = [] then pure none else env.describe path

def listReplicaChildren (path : JsString) : Serve ReplicaListing :=
  if !isValidInnerPath path then pure ⟨[], false⟩
  else do
    let self ← env.describeSelf path
    let names ← env.requireChildren path
    let children ← env.describeEach (names.map (childInner path))
    pure ⟨self.toList ++ children, true⟩

end Env

/-! ### The members of a collection -/

section Members

variable {f : Files} {path q : JsString}

theorem childInner_relative (htree : f.WellFormed) (hq : q ∈ f.below path) :
    Env.childInner path (Files.relative path q) = q := by
  obtain ⟨hget, hbelow⟩ := mem_below.mp hq
  by_cases hroot : path = []
  · rw [hroot, Files.relative, if_pos rfl, childInner_root (htree q hget).1]
  · obtain ⟨rest, -, hrel, hchild, -⟩ := child_shape path hroot (htree q hget).1 hbelow
    rw [hrel, hchild]

theorem map_childInner (htree : f.WellFormed) :
    ((f.below path).filter (Files.isChild path)).map (Env.childInner path ∘ Files.relative path) =
      (f.below path).filter (Files.isChild path) := by
  conv_rhs => rw [← List.map_id ((f.below path).filter (Files.isChild path))]
  exact List.map_congr_left fun q hq => childInner_relative htree (List.mem_of_mem_filter hq)

end Members

/-! ### The tree that the planner compares -/

namespace Volume

variable (v : Volume)

def resource (path : JsString) : Option Replication.Resource := (Store.get v.files path).map fun inode =>
  ⟨inode.bytes, (Store.get v.nodes path).bind NodeRow.etag,
    some (((Store.get v.nodes path).map NodeRow.mtime).getD inode.mtime : ℕ), some (inode.bytes.getD []).length,
    (Store.get v.nodes path).bind NodeRow.contentType⟩

def tree : Replication.Tree :=
  ((Store.keys v.files).filter (fun q => q ≠ [] ∧ isValidInnerPath q)).filterMap fun q => (v.resource q).map (q, ·)

theorem get_tree (q : JsString) : Store.get v.tree q = if q ≠ [] ∧ isValidInnerPath q = true then v.resource q else none := by
  unfold tree
  rw [Store.get_filterMap]
  by_cases hq : q ≠ [] ∧ isValidInnerPath q = true
  · rw [if_pos hq]
    cases hget : Store.get v.files q with
    | none => simp [resource, hget]
    | some inode =>
      have hkey : q ∈ Store.keys v.files := Store.mem_keys.mpr (by rw [hget]; rfl)
      rw [if_pos]
      simpa [hkey] using hq
  · rw [if_neg hq, if_neg]
    intro hmem
    exact hq (by simpa using (List.mem_filter.mp hmem).2)

theorem describe_tree {q : JsString} (hq : q ≠ []) (hvalid : isValidInnerPath q = true) :
    v.tree.describe q = (v.resource q).map fun r => r.entry q := by
  rw [Replication.Tree.describe, get_tree, if_pos ⟨hq, hvalid⟩]

end Volume

section Listing

variable {env : Env} {v : Volume} {path : JsString} (hcalm : env.Calm)

include hcalm

theorem runs_requireStatInner : Runs (env.requireStatInner path) v (.ok ((v.files.stat path).getD missingStat)) v := by
  cases hst : v.files.stat path with
  | none =>
    have hstat : Runs (env.stat path) v (.error (.of "ENOENT")) v :=
      runs_call hcalm (runs_read_bind fun s hs => by rw [hs, hst]; exact runs_throw _)
    refine runs_bind (runs_attempt hstat) ?_
    dsimp only
    rw [if_pos (by decide)]
    exact runs_pure missingStat
  | some st =>
    have hstat : Runs (env.stat path) v (.ok st) v :=
      runs_call hcalm (runs_read_bind fun s hs => by rw [hs, hst]; exact runs_pure st)
    exact runs_bind (runs_attempt hstat) (runs_pure st)

theorem runs_describe (hq : path ≠ []) (hvalid : isValidInnerPath path = true) :
    Runs (env.describe path) v (.ok (v.tree.describe path)) v := by
  rw [v.describe_tree hq hvalid]
  refine runs_bind (runs_requireStatInner hcalm) ?_
  cases hget : Store.get v.files path with
  | none =>
    have hstat : v.files.stat path = none := by simp [Files.stat, hq, hget]
    have hnone : v.resource path = none := by simp [Volume.resource, hget]
    rw [hstat, hnone]
    exact runs_pure none
  | some inode =>
    have hstat : v.files.stat path = some ⟨true, inode.bytes.isNone, (inode.bytes.getD []).length, inode.mtime⟩ := by
      simp [Files.stat, hq, hget]
    rw [hstat]
    refine runs_bind (runs_readMeta hcalm) ?_
    have hsome : v.resource path = some ⟨inode.bytes, (Store.get v.nodes path).bind NodeRow.etag,
        some (((Store.get v.nodes path).map NodeRow.mtime).getD inode.mtime : ℕ), some (inode.bytes.getD []).length,
        (Store.get v.nodes path).bind NodeRow.contentType⟩ := by simp [Volume.resource, hget]
    rw [hsome]
    exact runs_pure _

theorem runs_describeEach (paths : List JsString) (hpaths : ∀ q ∈ paths, q ≠ []) :
    Runs (env.describeEach paths) v (.ok (paths.filterMap v.tree.describe)) v := by
  induction paths with
  | nil => exact runs_pure []
  | cons q rest ih =>
    have hentry : Runs (env.describeValid q) v (.ok (v.tree.describe q)) v := by
      unfold Env.describeValid
      cases hvalid : isValidInnerPath q with
      | true => exact runs_describe hcalm (hpaths q (by simp)) hvalid
      | false =>
        have hnone : v.tree.describe q = none := by simp [Replication.Tree.describe, v.get_tree, hvalid]
        rw [hnone]
        exact runs_pure none
    refine runs_bind hentry (runs_bind (ih fun q' hq' => hpaths q' (by simp [hq'])) ?_)
    rw [List.filterMap_cons]
    cases v.tree.describe q with
    | none => exact runs_pure _
    | some entry => exact runs_pure _

theorem runs_requireChildren (htree : v.files.WellFormed) : ∃ names,
    Runs (env.requireChildren path) v (.ok names) v ∧ ∀ q, q ∈ names.map (Env.childInner path) ↔
      q ≠ [] ∧ parentOf q = path ∧ (Store.get v.files q).isSome ∧ v.files.found path = true := by
  cases hfound : v.files.found path with
  | false =>
    have hlist : Runs (env.listDir path false) v (.error (.of "ENOENT")) v := by
      refine runs_call hcalm (runs_read_bind fun s hs => ?_)
      rw [hs, if_pos (by simp [hfound])]
      exact runs_throw _
    refine ⟨[], runs_bind (runs_attempt hlist) ?_, by simp⟩
    dsimp only
    rw [if_pos (by decide)]
    exact runs_pure []
  | true =>
    refine ⟨_, runs_bind (runs_attempt (runs_listDir hcalm hfound false)) (runs_pure _), fun q => ?_⟩
    rw [if_neg (by simp), List.map_map]
    rw [map_childInner htree, List.mem_filter, mem_below]
    simp only [Files.isChild, ne_eq, decide_eq_true_eq, and_true]
    constructor
    · rintro ⟨⟨hget, -⟩, hq, hparent⟩
      exact ⟨hq, hparent, hget⟩
    · rintro ⟨hq, hparent, hget⟩
      refine ⟨⟨hget, ?_⟩, hq, hparent⟩
      by_cases hroot : path = []
      · rw [hroot]
        exact below_root.mpr hq
      · rw [← hparent] at hroot ⊢
        exact below_parentSegments hroot

/-- A listing that meets no fault shows a collection and its members as the tree has them. -/
theorem listing_shows_tree (htree : v.files.WellFormed) (hvalid : isValidInnerPath path = true) : ∃ listing,
    Runs (env.listReplicaChildren path) v (.ok listing) v ∧ listing.complete = true ∧
      ∀ e, e ∈ listing.entries ↔ e ∈ v.tree.selfEntry path ∨ e ∈ v.tree.childEntries path := by
  obtain ⟨names, hnames, hmem⟩ := runs_requireChildren hcalm htree
  have hself : Runs (env.describeSelf path) v (.ok (if path = [] then none else v.tree.describe path)) v := by
    unfold Env.describeSelf
    by_cases hroot : path = []
    · rw [if_pos hroot, if_pos hroot]
      exact runs_pure none
    · rw [if_neg hroot, if_neg hroot]
      exact runs_describe hcalm hroot hvalid
  have hchildren := runs_describeEach hcalm (v := v) (names.map (Env.childInner path)) fun q hq => ((hmem q).mp hq).1
  unfold Env.listReplicaChildren
  rw [if_neg (by simp [hvalid])]
  refine ⟨_, runs_bind hself (runs_bind hnames (runs_bind hchildren (runs_pure _))), rfl, fun e => ?_⟩
  rw [List.mem_append]
  apply or_congr
  · unfold Replication.Tree.selfEntry
    by_cases hroot : path = []
    · simp [hroot]
    · simp [hroot]
  · rw [List.mem_filterMap, Replication.Tree.mem_childEntries]
    constructor
    · rintro ⟨q, hq, he⟩
      obtain ⟨r, hr, rfl⟩ := Option.map_eq_some_iff.mp he
      obtain ⟨hne, hparent, -⟩ := (hmem q).mp hq
      exact ⟨hne, hparent, he⟩
    · rintro ⟨hne, hparent, he⟩
      refine ⟨e.path, (hmem _).mpr ⟨hne, hparent, ?_, ?_⟩, he⟩
      all_goals
        obtain ⟨r, hr, -⟩ := Option.map_eq_some_iff.mp he
        rw [v.get_tree] at hr
        obtain ⟨-, hr⟩ := Option.ite_none_right_eq_some.mp hr
        obtain ⟨inode, hinode, -⟩ := Option.map_eq_some_iff.mp hr
      · rw [hinode]
        rfl
      · rw [← hparent]
        exact found_of_isDirectory (htree e.path (by rw [hinode]; rfl)).2

end Listing

end DurableDav.Dav
