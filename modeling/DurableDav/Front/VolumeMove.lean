import Mathlib.Data.List.Sort
import DurableDav.Dav.VolumeTransfer
import DurableDav.Front.VolumeObjects
import DurableDav.Replication.Coverage

namespace DurableDav.Front

open Library Dav
open Replication (Bytes isValidInnerPath parentOf)

/-! ### The two objects of a move -/

structure Moving where
  source : Volume
  target : Volume

abbrev Transfer (α : Type) := Act Moving Failure α

def onSource {α : Type} (x : Serve α) : Transfer α :=
  ⟨fun m => ((x.run ⟨m.source, []⟩).1, { m with source := (x.run ⟨m.source, []⟩).2.volume })⟩

def onTarget {α : Type} (x : Serve α) : Transfer α :=
  ⟨fun m => ((x.run ⟨m.target, []⟩).1, { m with target := (x.run ⟨m.target, []⟩).2.volume })⟩

/-- What becomes of a call to an object: its answer comes back, it is not carried out, or its answer is lost. -/
inductive Delivery
  | heard
  | dropped (reason : Failure)
  | unheard (reason : Failure)
  deriving DecidableEq

def Delivery.rpc {α : Type} (d : Delivery) (x : Transfer α) : Transfer α := match d with
  | .heard => x
  | .dropped reason => .throw reason
  | .unheard reason => do
    let _ ← x.attempt
    .throw reason

inductive MoveCall
  | list
  | read (path : JsString)
  | write (path : JsString)
  | purge
  | undo
  deriving DecidableEq

/-- The clock and the faults that each of the calls of a move meets; a path is read and written once. -/
structure MoveEnvs where
  delivery : MoveCall → Delivery
  listing : Env
  reading : JsString → Env
  writing : JsString → Env
  purging : Env
  undoing : Env

structure MoveEnvs.Calm (E : MoveEnvs) : Prop where
  heard : ∀ call, E.delivery call = .heard
  listing : E.listing.Calm
  reading : ∀ q, (E.reading q).Calm
  writing : ∀ q, (E.writing q).Calm
  purging : E.purging.Calm

/-- Collections before files, and of each the shorter path first. -/
def Precedes (a b : ListedEntry) : Prop :=
  if a.isCollection = b.isCollection then a.path.length ≤ b.path.length else a.isCollection = true

instance : DecidableRel Precedes := fun a b => by
  unfold Precedes
  infer_instance

def moveEntry (E : MoveEnvs) (e : ListedEntry) : Transfer Unit :=
  if e.path = [] then pure ()
  else if e.isCollection then
    (E.delivery (.write e.path)).rpc (onTarget ((E.writing e.path).writeEntry ⟨e.path, true, none, none, [], e.props⟩))
  else do
    match ← (E.delivery (.read e.path)).rpc (onSource ((E.reading e.path).readVolumeFile e.path)) with
    | none => .throw ⟨none, js "Failed to copy volume file " ++ e.path⟩
    | some file =>
      (E.delivery (.write e.path)).rpc (onTarget ((E.writing e.path).writeEntry
        ⟨e.path, false, file.2.or e.contentType, e.etag, file.1, e.props⟩))

/-- The source is emptied within the part whose failure empties the target. -/
def moveEntries (E : MoveEnvs) (entries : List ListedEntry) : Transfer Unit := do
  Act.each (moveEntry E) (entries.insertionSort Precedes)
  (E.delivery .purge).rpc (onSource (deleteVolume E.purging))

/-- Whether the volume was empty. -/
def moveOneVolume (E : MoveEnvs) : Transfer Bool := do
  let entries ← (E.delivery .list).rpc (onSource E.listing.listVolumeEntries)
  match ← (moveEntries E entries).attempt with
  | .ok _ => pure entries.isEmpty
  | .error e => do
    let _ ← ((E.delivery .undo).rpc (onTarget (deleteVolume E.undoing))).attempt
    .throw e

/-! ### A move that meets no fault -/

section Entries

variable {v : Volume} {a b : ListedEntry}

theorem precedes_total (a b : ListedEntry) : Precedes a b ∨ Precedes b a := by
  unfold Precedes
  by_cases h : a.isCollection = b.isCollection
  · simp only [h, ↓reduceIte]
    exact Nat.le_total _ _
  · rw [if_neg h, if_neg (Ne.symm h)]
    cases ha : a.isCollection with
    | true => exact .inl rfl
    | false =>
      right
      cases hb : b.isCollection with
      | true => rfl
      | false => exact absurd (ha.trans hb.symm) h

theorem precedes_trans {c : ListedEntry} (hab : Precedes a b) (hbc : Precedes b c) : Precedes a c := by
  unfold Precedes at *
  grind

theorem sorted_entries (entries : List ListedEntry) :
    (entries.insertionSort Precedes).Pairwise Precedes := by
  have : Std.Total Precedes := ⟨precedes_total⟩
  have : IsTrans ListedEntry Precedes := ⟨fun _ _ _ => precedes_trans⟩
  exact List.pairwise_insertionSort _ _

/-- A collection comes before what lies in it. -/
theorem not_precedes_of_below (ha : a.isCollection = true) (h : Below slash a.path b.path) : ¬ Precedes b a := by
  have hlt := h.length_lt
  unfold Precedes
  split
  · omega
  · rename_i hne
    rw [ha] at hne
    simpa using hne

/-- What is listed of a path that is held. -/
theorem listed_held {path : JsString} {e : ListedEntry} (h : v.listed path = some e) : e.path = path ∧
    isValidInnerPath path = true ∧ ∃ inode, Store.get v.files path = some inode ∧ e.isCollection = inode.bytes.isNone ∧
      e.etag = (Store.get v.nodes path).bind NodeRow.etag ∧ e.contentType = (Store.get v.nodes path).bind NodeRow.contentType ∧
      e.props = (v.deadProperties path).map deadProperty := by
  obtain ⟨hvalid, hmap⟩ := Option.ite_none_right_eq_some.mp h
  obtain ⟨inode, hinode, rfl⟩ := Option.map_eq_some_iff.mp hmap
  exact ⟨rfl, hvalid, inode, hinode, rfl, rfl, rfl, rfl⟩

theorem listed_of_held {path : JsString} {inode : Inode} (hvalid : isValidInnerPath path = true)
    (h : Store.get v.files path = some inode) : ∃ e, v.listed path = some e ∧ e.isCollection = inode.bytes.isNone := by
  unfold Volume.listed
  rw [if_pos hvalid, h]
  exact ⟨_, rfl, rfl⟩

end Entries

section Move

variable {E : MoveEnvs} {v t : Volume} {done : List JsString}

theorem onSource_run {α : Type} {x : Serve α} {r : Except Failure α} {v' : Volume} (h : Runs x v r v') :
    (onSource x).run ⟨v, t⟩ = (r, ⟨v', t⟩) := by
  obtain ⟨s', hrun, hs'⟩ := h ⟨v, []⟩ rfl
  change ((x.run ⟨v, []⟩).1, Moving.mk (x.run ⟨v, []⟩).2.volume t) = _
  rw [hrun, ← hs']

theorem onTarget_run {α : Type} {x : Serve α} {r : Except Failure α} {t' : Volume} (h : Runs x t r t') :
    (onTarget x).run ⟨v, t⟩ = (r, ⟨v, t'⟩) := by
  obtain ⟨s', hrun, hs'⟩ := h ⟨t, []⟩ rfl
  change ((x.run ⟨t, []⟩).1, Moving.mk v (x.run ⟨t, []⟩).2.volume) = _
  rw [hrun, ← hs']

theorem moveEntry_run (hcalm : E.Calm) (htree : v.files.WellFormed) (h : Landed v E.writing done t) {e : ListedEntry}
    (hlisted : v.listed e.path = some e) (hroot : e.path ≠ [])
    (habove : ∀ q, q ≠ [] → Below slash q e.path → q ∈ done) (hfresh : e.path ∉ done) :
    ∃ t', (moveEntry E e).run ⟨v, t⟩ = (.ok (), ⟨v, t'⟩) ∧ Landed v E.writing (e.path :: done) t' := by
  obtain ⟨-, hvalid, inode, hget, hkind, hetag, htype, hprops⟩ := listed_held hlisted
  unfold moveEntry
  rw [if_neg hroot, hcalm.heard, hcalm.heard]
  dsimp only [Delivery.rpc]
  cases hbytes : inode.bytes with
  | none =>
    rw [if_pos (by rw [hkind, hbytes]; rfl)]
    have hcarries : Carries v ⟨e.path, true, none, none, [], e.props⟩ inode :=
      ⟨hvalid, hroot, hget, by rw [hbytes]; rfl, (fun data hdata => by rw [hbytes] at hdata; cases hdata), hprops⟩
    obtain ⟨t', hrun, ht'⟩ := runs_writeEntry (hcalm.writing e.path) h htree hcarries habove hfresh
    exact ⟨t', onTarget_run hrun, ht'⟩
  | some data =>
    rw [if_neg (by rw [hkind, hbytes]; simp)]
    have hfile : Store.get v.files e.path = some ⟨some data, inode.mtime⟩ := by rw [hget, ← hbytes]
    have hread := onSource_run (t := t) (runs_readVolumeFile (hcalm.reading e.path) hroot hvalid hfile)
    rw [Act.run_bind_ok hread]
    have hcarries : Carries v ⟨e.path, false, ((Store.get v.nodes e.path).bind NodeRow.contentType).or e.contentType,
        e.etag, data, e.props⟩ inode := by
      refine ⟨hvalid, hroot, hget, by rw [hbytes]; rfl, fun data' hdata => ?_, hprops⟩
      rw [hbytes] at hdata
      refine ⟨Option.some.inj hdata, hetag, ?_⟩
      rw [htype, Option.or_self]
    obtain ⟨t', hrun, ht'⟩ := runs_writeEntry (hcalm.writing e.path) h htree hcarries habove hfresh
    exact ⟨t', onTarget_run hrun, ht'⟩

/-- The entries in order: what lies above the next one was written before it. -/
theorem moveEach_run (hcalm : E.Calm) (htree : v.files.WellFormed) (entries : List ListedEntry)
    (h : Landed v E.writing done t) (hlisted : ∀ e ∈ entries, v.listed e.path = some e ∧ e.path ≠ [] ∧ e.path ∉ done)
    (hsorted : entries.Pairwise Precedes) (hnodup : (entries.map ListedEntry.path).Nodup)
    (hall : ∀ q e, v.listed q = some e → q ≠ [] → q ∈ done ∨ e ∈ entries) :
    ∃ t' done', (Act.each (moveEntry E) entries).run ⟨v, t⟩ = (.ok (), ⟨v, t'⟩) ∧ Landed v E.writing done' t' ∧
      ∀ q, q ∈ done' ↔ q ∈ done ∨ q ∈ entries.map ListedEntry.path := by
  induction entries generalizing t done with
  | nil => exact ⟨t, done, rfl, h, by simp⟩
  | cons e rest ih =>
    obtain ⟨he, hroot, hfresh⟩ := hlisted e (by simp)
    obtain ⟨hfirst, hsorted⟩ := List.pairwise_cons.mp hsorted
    rw [List.map_cons, List.nodup_cons] at hnodup
    obtain ⟨-, hvalid, inode, hget, -⟩ := listed_held he
    have habove : ∀ q, q ≠ [] → Below slash q e.path → q ∈ done := by
      intro q hq hbelow
      have hdir : v.files.isDirectory q = true := htree.above (by rw [hget]; rfl) hbelow
      obtain ⟨i, hi, hbytes⟩ := (isDirectory_iff.mp hdir).resolve_left hq
      obtain ⟨e', he', hcollection⟩ := listed_of_held (Replication.valid_above hq hbelow hvalid) hi
      have hpath : e'.path = q := (listed_held he').1
      rcases hall q e' he' hq with hdone | hmem
      · exact hdone
      · rw [← hpath] at hbelow
        rcases List.mem_cons.mp hmem with rfl | hmem
        · exact absurd hbelow Below.irrefl
        · exact absurd (hfirst e' hmem) (not_precedes_of_below (by rw [hcollection, hbytes]; rfl) hbelow)
    obtain ⟨t₁, hrun, h₁⟩ := moveEntry_run hcalm htree h he hroot habove hfresh
    have hlater : ∀ e' ∈ rest, v.listed e'.path = some e' ∧ e'.path ≠ [] ∧ e'.path ∉ e.path :: done := by
      intro e' he'
      obtain ⟨hl, hne, hnot⟩ := hlisted e' (by simp [he'])
      refine ⟨hl, hne, ?_⟩
      rw [List.mem_cons, not_or]
      refine ⟨fun heq => hnodup.1 ?_, hnot⟩
      exact List.mem_map.mpr ⟨e', he', heq⟩
    have hall' : ∀ q e', v.listed q = some e' → q ≠ [] → q ∈ e.path :: done ∨ e' ∈ rest := by
      intro q e' he' hq
      rcases hall q e' he' hq with hdone | hmem
      · exact .inl (by simp [hdone])
      · rcases List.mem_cons.mp hmem with rfl | hmem
        · exact .inl (by simp [(listed_held he').1])
        · exact .inr hmem
    obtain ⟨t', done', hrest, ht', hdone'⟩ := ih h₁ hlater hsorted hnodup.2 hall'
    refine ⟨t', done', ?_, ht', fun q => ?_⟩
    · rw [Act.each_cons, Act.run_bind_ok hrun]
      exact hrest
    · rw [hdone', List.mem_cons, List.map_cons, List.mem_cons]
      tauto

theorem landed_empty (v : Volume) (envs : JsString → Env) : Landed v envs [] emptyVolume where
  files q := by simp [emptyVolume]
  rows q hq := by simp at hq
  unrecorded := rfl
  unlocked := rfl
  props key := by simp [emptyVolume]

/-- Without a fault the whole volume lands in an empty object, and nothing of it is left behind. -/
theorem moveOneVolume_run (hcalm : E.Calm) (htree : v.files.WellFormed) : ∃ empty t done,
    (moveOneVolume E).run ⟨v, emptyVolume⟩ = (.ok empty, ⟨emptyVolume, t⟩) ∧ Landed v E.writing done t ∧
      ∀ q, q ∈ done ↔ q ≠ [] ∧ isValidInnerPath q = true ∧ (Store.get v.files q).isSome := by
  have hlist := onSource_run (t := emptyVolume) (runs_listVolumeEntries hcalm.listing htree)
  set entries := (v.files.below []).filterMap v.listed with hentries
  have hmem : ∀ e, e ∈ entries ↔ v.listed e.path = some e ∧ e.path ≠ [] := by
    intro e
    rw [hentries, List.mem_filterMap]
    constructor
    · rintro ⟨q, hq, he⟩
      obtain rfl := (listed_held he).1
      exact ⟨he, (mem_below.mp hq).2.ne_nil⟩
    · rintro ⟨he, hroot⟩
      obtain ⟨-, -, inode, hget, -⟩ := listed_held he
      exact ⟨e.path, mem_below.mpr ⟨by rw [hget]; rfl, below_root.mpr hroot⟩, he⟩
  have hnodup : (entries.map ListedEntry.path).Nodup := by
    have hsub : (entries.map ListedEntry.path).Sublist (v.files.below []) := by
      rw [hentries]
      generalize v.files.below [] = names
      induction names with
      | nil => simp
      | cons q names ih =>
        rw [List.filterMap_cons]
        cases hq : v.listed q with
        | none => exact ih.cons q
        | some e =>
          rw [List.map_cons, (listed_held hq).1]
          exact ih.cons_cons q
    refine List.Nodup.sublist hsub ?_
    exact (below_pairwise v.files []).imp fun hlt heq => by rw [heq] at hlt; exact lt_irrefl _ hlt
  have hperm := List.perm_insertionSort Precedes entries
  obtain ⟨t, done, hrun, ht, hdone⟩ := moveEach_run hcalm htree (entries.insertionSort Precedes) (landed_empty v E.writing)
    (fun e he => by
      obtain ⟨hl, hne⟩ := (hmem e).mp (hperm.mem_iff.mp he)
      exact ⟨hl, hne, by simp⟩)
    (sorted_entries entries) ((hperm.map _).nodup_iff.mpr hnodup)
    (fun q e he hq => .inr (hperm.mem_iff.mpr ((hmem e).mpr (by
      obtain rfl := (listed_held he).1
      exact ⟨he, hq⟩))))
  have hpurge : (onSource (deleteVolume E.purging)).run ⟨v, t⟩ = (.ok (), ⟨emptyVolume, t⟩) := by
    have hclears : Clears E.purging := ⟨hcalm.purging _ _, fun table _ => hcalm.purging _ _⟩
    have hanswer : ((deleteVolume E.purging).run ⟨v, []⟩).1 = .ok () := rfl
    have hafter : ((deleteVolume E.purging).run ⟨v, []⟩).2.volume = emptyVolume := deleteVolume_clears hclears v
    change (((deleteVolume E.purging).run ⟨v, []⟩).1, Moving.mk ((deleteVolume E.purging).run ⟨v, []⟩).2.volume t) = _
    rw [hanswer, hafter]
  have hentriesRun : (moveEntries E entries).run ⟨v, emptyVolume⟩ = (.ok (), ⟨emptyVolume, t⟩) := by
    unfold moveEntries
    rw [hcalm.heard, Act.run_bind_ok hrun]
    exact hpurge
  refine ⟨entries.isEmpty, t, done, ?_, ht, fun q => ?_⟩
  · unfold moveOneVolume
    rw [hcalm.heard, hcalm.heard]
    dsimp only [Delivery.rpc]
    rw [Act.run_bind_ok hlist]
    have hattempt : (moveEntries E entries).attempt.run ⟨v, emptyVolume⟩ = (.ok (.ok ()), ⟨emptyVolume, t⟩) := by
      rw [Act.run_attempt, hentriesRun]
    rw [Act.run_bind_ok hattempt]
    rfl
  · rw [hdone]
    simp only [List.not_mem_nil, false_or, List.mem_map]
    constructor
    · rintro ⟨e, he, rfl⟩
      obtain ⟨hl, hne⟩ := (hmem e).mp (hperm.mem_iff.mp he)
      obtain ⟨-, hvalid, inode, hget, -⟩ := listed_held hl
      exact ⟨hne, hvalid, by rw [hget]; rfl⟩
    · rintro ⟨hne, hvalid, hsome⟩
      obtain ⟨inode, hget⟩ := Option.isSome_iff_exists.mp hsome
      obtain ⟨e, he, -⟩ := listed_of_held hvalid hget
      have hpath := (listed_held he).1
      refine ⟨e, hperm.mem_iff.mpr ((hmem e).mpr ⟨?_, ?_⟩), hpath⟩
      · rw [hpath]
        exact he
      · rw [hpath]
        exact hne

end Move

end DurableDav.Front
