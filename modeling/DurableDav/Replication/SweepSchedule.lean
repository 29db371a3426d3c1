import Mathlib.Data.List.Lex
import Mathlib.Data.Prod.Lex
import DurableDav.Library.LeastFirst
import DurableDav.Library.Runs
import DurableDav.Replication.ReplicationInput
import DurableDav.Replication.SlicedSweep
import DurableDav.Replication.Tick

namespace DurableDav.Replication

open Library

/-! ### The rows a sweep goes over -/

structure SweepRow where
  replicationId : JsString
  volumeId : JsString
  intervalMinutes : ℤ
  pass : PassRow
  interval_known : intervalMinutes ∈ replicationIntervals
  deriving DecidableEq

namespace SweepRow

variable (row : SweepRow)

def isDue (now : ℕ) : Bool :=
  row.pass.enabled ∧ row.pass.lastRunAt.all fun last : ℕ => (last : ℤ) + row.intervalMinutes * 60 ≤ now

/-- `COALESCE(last_run_at, 0), replication_id` -/
def rank : ℕ ×ₗ JsString := toLex (row.pass.lastRunAt.getD 0, row.replicationId)

def withPass (pass : PassRow) : SweepRow := { row with pass := pass }

end SweepRow

structure SweepPatch where
  intervalMinutes : Option { minutes : ℤ // minutes ∈ replicationIntervals }
  enabled : Option Bool

def SweepRow.patched (row : SweepRow) (patch : SweepPatch) : SweepRow where
  replicationId := row.replicationId
  volumeId := row.volumeId
  intervalMinutes := (patch.intervalMinutes.map Subtype.val).getD row.intervalMinutes
  pass := { row.pass with
    enabled := patch.enabled.getD row.pass.enabled
    -- switching a replication on again clears what was counted against it
    consecutiveFailures := if patch.enabled = some true then 0 else row.pass.consecutiveFailures }
  interval_known := by
    cases patch.intervalMinutes with
    | none => exact row.interval_known
    | some minutes => exact minutes.2

/-- What a row is inserted with; the columns of its passes have their defaults. -/
structure NewReplication where
  replicationId : JsString
  volumeId : JsString
  intervalMinutes : ℤ
  enabled : Bool
  interval_known : intervalMinutes ∈ replicationIntervals

def NewReplication.row (input : NewReplication) : SweepRow where
  replicationId := input.replicationId
  volumeId := input.volumeId
  intervalMinutes := input.intervalMinutes
  pass := ⟨none, none, none, 0, input.enabled, none, none, 0⟩
  interval_known := input.interval_known

abbrev SweepRows := List SweepRow

namespace SweepRows

variable (rows : SweepRows)

def listDue (now limit : ℕ) : SweepRows := leastOf SweepRow.rank limit (rows.filter fun row => row.isDue now)

/-- A statement on the row of an id. -/
def updateById (id : JsString) (f : SweepRow → SweepRow) : SweepRows :=
  rows.map fun row => if row.replicationId = id then f row else row

def deleteById (id : JsString) : SweepRows := rows.filter fun row => row.replicationId ≠ id

/-- `none` where the key is taken. -/
def create (row : SweepRow) : Option SweepRows :=
  if rows.any fun r => r.replicationId = row.replicationId then none else some (rows ++ [row])

end SweepRows

/-! ### Sweeps, and what goes on besides -/

structure RunRecord where
  status : RunStatus
  error : Option JsString
  now : ℕ
  cursor : Option JsString
  remaining : ℕ

def SweepRow.record (maxFailures : ℕ) (r : RunRecord) (row : SweepRow) : SweepRow :=
  row.withPass (row.pass.recorded r.status r.error r.now maxFailures r.cursor r.remaining)

/-- What comes of a row that a sweep gets to. -/
inductive RowVisit
  /-- A lookup failed, the row or the binding is missing, or the outcome could not be recorded. -/
  | failed
  /-- The volume of the row is gone, and the row with it. -/
  | orphaned
  | recorded (r : RunRecord)

inductive SweepTurn
  | list (now limit : ℕ)
  | visit (v : RowVisit)
  | beginPass (id : JsString) (now : ℕ)
  /-- A run that was asked for, outside of the sweep. -/
  | runNow (id : JsString) (r : RunRecord)
  | create (input : NewReplication)
  | update (id : JsString) (patch : SweepPatch)
  | delete (id : JsString)

structure Sweeper where
  rows : SweepRows
  -- what the sweep under way has still to visit, and when it listed it
  due : SweepRows
  listedAt : ℕ

namespace Sweeper

variable (maxFailures : ℕ) (s : Sweeper)

/-- A sweep is over before the next one, and the clock does not go back within it. -/
def step : SweepTurn → Option Sweeper
  | .list now limit => if s.due = [] then some ⟨s.rows, s.rows.listDue now limit, now⟩ else none
  | .visit v => match s.due with
    | [] => none
    | row :: rest => match v with
      | .failed => some { s with due := rest }
      | .orphaned => some { s with rows := s.rows.deleteById row.replicationId, due := rest }
      | .recorded r =>
        if s.listedAt ≤ r.now then
          some { s with rows := s.rows.updateById row.replicationId (.record maxFailures r), due := rest }
        else none
  | .beginPass id now => some { s with rows := s.rows.updateById id fun row => row.withPass (row.pass.begun now) }
  | .runNow id r => some { s with rows := s.rows.updateById id (.record maxFailures r) }
  | .create input => (s.rows.create input.row).map fun rows => { s with rows := rows }
  | .update id patch => some { s with rows := s.rows.updateById id fun row => row.patched patch }
  | .delete id => some { s with rows := s.rows.deleteById id }

end Sweeper

/-! ### How long a row waits -/

section Waiting

variable {id : JsString} {k : ℕ ×ₗ JsString} {maxFailures : ℕ} {s s' : Sweeper} {rows : SweepRows}

/-- The row is due when a sweep lists, and left out; and nobody asks for a run of it. -/
def Overlooks (id : JsString) (s : Sweeper) : SweepTurn → Prop
  | .list now limit => 0 < now ∧ ∃ row ∈ s.rows, row.replicationId = id ∧ row.isDue now ∧ row ∉ s.rows.listDue now limit
  | .runNow id' _ => id' ≠ id
  | .create input => input.replicationId ≠ id
  | _ => True

instance (id : JsString) (s : Sweeper) : DecidablePred (Overlooks id s)
  | .list _ _ => inferInstanceAs (Decidable (_ ∧ ∃ row ∈ _, _))
  | .runNow _ _ => inferInstanceAs (Decidable (_ ≠ _))
  | .create _ => inferInstanceAs (Decidable (_ ≠ _))
  | .visit _ | .beginPass _ _ | .update _ _ | .delete _ => inferInstanceAs (Decidable True)

/-- The enabled rows that come before and that the sweep under way has not listed. -/
def Sweeper.isAhead (s : Sweeper) (k : ℕ ×ₗ JsString) (row : SweepRow) : Bool :=
  row.pass.enabled ∧ row.rank < k ∧ row.replicationId ∉ s.due.map SweepRow.replicationId

def Sweeper.ahead (s : Sweeper) (k : ℕ ×ₗ JsString) : ℕ := s.rows.countP (s.isAhead k)

def SweepTurn.listed : SweepTurn → ℕ
  | .list _ limit => limit
  | _ => 0

/-- One for each visit that is not recorded, and for what is done to a row from outside. -/
def SweepTurn.unsettles : SweepTurn → ℕ
  | .visit .failed | .runNow _ _ | .create _ | .update _ _ => 1
  | _ => 0

structure Queued (id : JsString) (k : ℕ ×ₗ JsString) (s : Sweeper) : Prop where
  keys : (s.rows.map SweepRow.replicationId).Nodup
  due : (s.due.map SweepRow.replicationId).Nodup
  own : id ∉ s.due.map SweepRow.replicationId
  rank : ∀ row ∈ s.rows, row.replicationId = id → row.rank = k
  later : s.due ≠ [] → (ofLex k).1 < s.listedAt

theorem interval_pos (row : SweepRow) : 0 < row.intervalMinutes := by
  have h := row.interval_known
  simp only [replicationIntervals, List.mem_cons, List.not_mem_nil, or_false] at h
  omega

theorem isDue_later {row : SweepRow} {now : ℕ} (h : row.isDue now = true) (hnow : 0 < now) : (ofLex row.rank).1 < now := by
  have hpos := interval_pos row
  simp only [SweepRow.isDue, decide_eq_true_eq] at h
  unfold SweepRow.rank
  cases hlast : row.pass.lastRunAt with
  | none => simpa using hnow
  | some last =>
    have hdue := h.2
    rw [hlast, Option.all_some, decide_eq_true_eq] at hdue
    simp only [Option.getD_some, ofLex_toLex]
    omega

theorem nodup_of_keys (hkeys : (rows.map SweepRow.replicationId).Nodup) : rows.Nodup := List.Nodup.of_map _ hkeys

/-- One row apart, no more are counted than before. -/
theorem countP_le_succ (hkeys : (rows.map SweepRow.replicationId).Nodup) {p p' : SweepRow → Bool} (i : JsString)
    (h : ∀ row ∈ rows, p' row = true → p row = true ∨ row.replicationId = i) : rows.countP p' ≤ rows.countP p + 1 := by
  induction rows with
  | nil => simp
  | cons row rest ih =>
    rw [List.map_cons, List.nodup_cons] at hkeys
    have hrow := h row (by simp)
    have hrest := ih hkeys.2 fun r hr => h r (by simp [hr])
    rw [List.countP_cons, List.countP_cons]
    by_cases hi : row.replicationId = i
    · have hsame : rest.countP p' ≤ rest.countP p := by
        refine List.countP_mono_left fun r hr hp => (h r (by simp [hr]) hp).resolve_right fun hri => ?_
        exact hkeys.1 (List.mem_map.mpr ⟨r, hr, hri.trans hi.symm⟩)
      split <;> split <;> omega
    · split
      · rename_i hp'
        rw [if_pos (hrow hp' |>.resolve_right hi)]
        omega
      · split <;> omega

theorem updateById_keys {f : SweepRow → SweepRow} {i : JsString} (hf : ∀ row, (f row).replicationId = row.replicationId) :
    (rows.updateById i f).map SweepRow.replicationId = rows.map SweepRow.replicationId := by
  unfold SweepRows.updateById
  rw [List.map_map]
  apply List.map_congr_left
  intro row _
  dsimp only [Function.comp]
  split
  · exact hf row
  · rfl

theorem mem_updateById {f : SweepRow → SweepRow} {i : JsString} {row : SweepRow} (h : row ∈ rows.updateById i f) :
    ∃ old ∈ rows, (old.replicationId ≠ i ∧ row = old) ∨ (old.replicationId = i ∧ row = f old) := by
  obtain ⟨old, hold, rfl⟩ := List.mem_map.mp h
  refine ⟨old, hold, ?_⟩
  split
  · rename_i hi
    exact .inr ⟨hi, rfl⟩
  · rename_i hi
    exact .inl ⟨hi, rfl⟩

/-- What a statement on one row does to the number of those that are counted. -/
theorem countP_updateById (hkeys : (rows.map SweepRow.replicationId).Nodup) {p p' : SweepRow → Bool}
    {f : SweepRow → SweepRow} (i : JsString) (h : ∀ row ∈ rows, row.replicationId ≠ i → p' row = true → p row = true) :
    (rows.updateById i f).countP p' ≤ rows.countP p + 1 := by
  unfold SweepRows.updateById
  rw [List.countP_map]
  refine countP_le_succ hkeys i fun row hrow hp => ?_
  by_cases hi : row.replicationId = i
  · exact .inr hi
  · dsimp only [Function.comp] at hp
    rw [if_neg hi] at hp
    exact .inl (h row hrow hi hp)

/-- No row comes to be counted. -/
theorem countP_updateById_le {p p' : SweepRow → Bool} {f : SweepRow → SweepRow} (i : JsString)
    (h : ∀ row ∈ rows, row.replicationId ≠ i → p' row = true → p row = true)
    (hf : ∀ row ∈ rows, row.replicationId = i → p' (f row) = true → p row = true) :
    (rows.updateById i f).countP p' ≤ rows.countP p := by
  unfold SweepRows.updateById
  rw [List.countP_map]
  refine List.countP_mono_left fun row hrow hp => ?_
  dsimp only [Function.comp] at hp
  by_cases hi : row.replicationId = i
  · rw [if_pos hi] at hp
    exact hf row hrow hi hp
  · rw [if_neg hi] at hp
    exact h row hrow hi hp

/-- A sweep that leaves a row out takes its whole number from those before it. -/
theorem listDue_ahead (hkeys : (rows.map SweepRow.replicationId).Nodup) {row : SweepRow} {now limit : ℕ} (hrow : row ∈ rows)
    (hdue : row.isDue now = true) (hout : row ∉ rows.listDue now limit) :
    (rows.listDue now limit).length = limit ∧
      ∀ r ∈ rows.listDue now limit, r ∈ rows ∧ r.pass.enabled = true ∧ r.rank < row.rank := by
  have hmem : row ∈ rows.filter fun r => r.isDue now := List.mem_filter.mpr ⟨hrow, hdue⟩
  refine ⟨leastOf_length hmem hout, fun r hr => ?_⟩
  obtain ⟨hin, hr'⟩ := List.mem_filter.mp (mem_of_leastOf hr)
  simp only [SweepRow.isDue, decide_eq_true_eq] at hr'
  refine ⟨hin, hr'.1, lt_of_le_of_ne (leastOf_le hmem hout hr) fun heq => ?_⟩
  have hid : r.replicationId = row.replicationId := congrArg (fun k => (ofLex k).2) heq
  obtain rfl : r = row := List.inj_on_of_nodup_map hkeys hin hrow hid
  exact hout hr

theorem isAhead_iff {row : SweepRow} : s.isAhead k row = true ↔
    row.pass.enabled = true ∧ row.rank < k ∧ row.replicationId ∉ s.due.map SweepRow.replicationId := by
  simp [Sweeper.isAhead]

theorem queued_updateById (h : Queued id k s) {f : SweepRow → SweepRow} {i : JsString}
    (hid : ∀ row, (f row).replicationId = row.replicationId) (hrank : i = id → ∀ row, (f row).rank = row.rank) :
    Queued id k { s with rows := s.rows.updateById i f } := by
  refine ⟨(updateById_keys hid).symm ▸ h.keys, h.due, h.own, fun row hrow hrowid => ?_, h.later⟩
  obtain ⟨old, hold, ⟨-, rfl⟩ | ⟨hi, rfl⟩⟩ := mem_updateById hrow
  · exact h.rank row hold hrowid
  · rw [hid] at hrowid
    rw [hrank (hi.symm.trans hrowid)]
    exact h.rank old hold hrowid

theorem queued_deleteById (h : Queued id k s) (i : JsString) : Queued id k { s with rows := s.rows.deleteById i } := by
  refine ⟨h.keys.sublist (List.filter_sublist.map _), h.due, h.own, fun row hrow => ?_, h.later⟩
  exact h.rank row (List.mem_of_mem_filter hrow)

theorem ahead_deleteById (i : JsString) : ({ s with rows := s.rows.deleteById i } : Sweeper).ahead k ≤ s.ahead k :=
  List.Sublist.countP_le List.filter_sublist

/-- The row that is visited next leaves the sweep, and may be counted again. -/
theorem queued_visited {row : SweepRow} {rest : SweepRows} (h : Queued id k s) (hdue : s.due = row :: rest) :
    Queued id k { s with due := rest } ∧ ({ s with due := rest } : Sweeper).ahead k ≤ s.ahead k + 1 ∧ row.replicationId ≠ id := by
  have hkeys := h.due
  have hown := h.own
  rw [hdue, List.map_cons] at hkeys hown
  refine ⟨⟨h.keys, (List.nodup_cons.mp hkeys).2, fun hmem => hown (List.mem_cons_of_mem _ hmem), h.rank,
    fun _ => h.later (by simp [hdue])⟩, ?_, fun he => hown (by simp [he])⟩
  refine countP_le_succ h.keys row.replicationId fun r hr hp => ?_
  obtain ⟨hon, hrank, hout⟩ := isAhead_iff.mp hp
  by_cases he : r.replicationId = row.replicationId
  · exact .inr he
  · refine .inl (isAhead_iff.mpr ⟨hon, hrank, ?_⟩)
    rw [hdue, List.map_cons, List.mem_cons, not_or]
    exact ⟨he, hout⟩

theorem record_rank {r : RunRecord} (row : SweepRow) : (row.record maxFailures r).rank = toLex (r.now, row.replicationId) := rfl

/-- A visit that is recorded sends the row to the end. -/
theorem ahead_recorded {row : SweepRow} {rest : SweepRows} {r : RunRecord} (h : Queued id k s) (hdue : s.due = row :: rest)
    (hnow : s.listedAt ≤ r.now) :
    ({ s with rows := s.rows.updateById row.replicationId (.record maxFailures r), due := rest } : Sweeper).ahead k ≤
      s.ahead k := by
  refine countP_updateById_le row.replicationId (fun old _ hne hp => ?_) (fun old _ _ hp => ?_)
  · obtain ⟨hon, hrank, hout⟩ := isAhead_iff.mp hp
    refine isAhead_iff.mpr ⟨hon, hrank, ?_⟩
    rw [hdue, List.map_cons, List.mem_cons, not_or]
    exact ⟨hne, hout⟩
  · obtain ⟨-, hrank, -⟩ := isAhead_iff.mp hp
    rw [record_rank] at hrank
    have hlater := h.later (by simp [hdue])
    have hle : r.now ≤ (ofLex k).1 := by
      rcases Prod.Lex.lt_iff.mp hrank with hlt | ⟨heq, -⟩
      · exact le_of_lt hlt
      · exact le_of_eq heq
    omega

theorem ahead_listed {row : SweepRow} {now limit : ℕ} (h : Queued id k s) (hidle : s.due = []) (hrow : row ∈ s.rows)
    (hid : row.replicationId = id) (hdue : row.isDue now = true) (hout : row ∉ s.rows.listDue now limit) :
    (⟨s.rows, s.rows.listDue now limit, now⟩ : Sweeper).ahead k + limit ≤ s.ahead k := by
  obtain ⟨hlength, hbefore⟩ := listDue_ahead h.keys hrow hdue hout
  have hk := h.rank row hrow hid
  generalize hpicks : s.rows.listDue now limit = picks at hlength hbefore
  have hnodup : picks.Nodup := by
    rw [← hpicks]
    exact nodup_of_keys (leastOf_nodup (h.keys.sublist (List.filter_sublist.map _)))
  have hdisjoint : picks.Disjoint (s.rows.filter ((⟨s.rows, picks, now⟩ : Sweeper).isAhead k)) := by
    intro r hr hr'
    exact (isAhead_iff.mp (List.mem_filter.mp hr').2).2.2 (List.mem_map.mpr ⟨r, hr, rfl⟩)
  have hboth : (picks ++ s.rows.filter ((⟨s.rows, picks, now⟩ : Sweeper).isAhead k)) ⊆ s.rows.filter (s.isAhead k) := by
    intro r hr
    rcases List.mem_append.mp hr with hr | hr
    · obtain ⟨hin, hon, hrank⟩ := hbefore r hr
      exact List.mem_filter.mpr ⟨hin, isAhead_iff.mpr ⟨hon, hk ▸ hrank, by simp [hidle]⟩⟩
    · obtain ⟨hin, hp⟩ := List.mem_filter.mp hr
      obtain ⟨hon, hrank, -⟩ := isAhead_iff.mp hp
      exact List.mem_filter.mpr ⟨hin, isAhead_iff.mpr ⟨hon, hrank, by simp [hidle]⟩⟩
  have hlong := (List.subperm_of_subset (hnodup.append ((nodup_of_keys h.keys).filter _) hdisjoint) hboth).length_le
  rw [List.length_append, hlength, ← List.countP_eq_length_filter, ← List.countP_eq_length_filter] at hlong
  unfold Sweeper.ahead
  dsimp only
  omega

theorem queued_step (h : Queued id k s) {turn : SweepTurn} (hadmits : Overlooks id s turn)
    (hstep : s.step maxFailures turn = some s') :
    Queued id k s' ∧ s'.ahead k + turn.listed ≤ s.ahead k + turn.unsettles := by
  cases turn with
  | list now limit =>
    obtain ⟨hnow, row, hrow, hid, hdue, hout⟩ := hadmits
    obtain ⟨hidle, hs'⟩ := Option.ite_none_right_eq_some.mp hstep
    obtain rfl := Option.some.inj hs'
    refine ⟨⟨h.keys, ?_, ?_, h.rank, fun _ => ?_⟩, ahead_listed h hidle hrow hid hdue hout⟩
    · exact leastOf_nodup (h.keys.sublist (List.filter_sublist.map _))
    · intro hmem
      obtain ⟨r, hr, hrid⟩ := List.mem_map.mp hmem
      obtain rfl : r = row := List.inj_on_of_nodup_map h.keys (List.mem_of_mem_filter (mem_of_leastOf hr)) hrow
        (hrid.trans hid.symm)
      exact hout hr
    · rw [← h.rank row hrow hid]
      exact isDue_later hdue hnow
  | visit v =>
    unfold Sweeper.step at hstep
    cases hdue : s.due with
    | nil =>
      rw [hdue] at hstep
      cases hstep
    | cons row rest =>
      rw [hdue] at hstep
      obtain ⟨hqueued, hcount, hne⟩ := queued_visited h hdue
      cases v with
      | failed =>
        obtain rfl := Option.some.inj hstep
        exact ⟨hqueued, hcount⟩
      | orphaned =>
        obtain rfl := Option.some.inj hstep
        refine ⟨queued_deleteById hqueued _, ?_⟩
        unfold Sweeper.ahead SweepRows.deleteById
        rw [List.countP_filter]
        refine List.countP_mono_left fun r _ hp => ?_
        simp only [Bool.and_eq_true, decide_eq_true_eq] at hp
        obtain ⟨hon, hrank, hout⟩ := isAhead_iff.mp hp.1
        refine isAhead_iff.mpr ⟨hon, hrank, ?_⟩
        rw [hdue, List.map_cons, List.mem_cons, not_or]
        exact ⟨hp.2, hout⟩
      | recorded r =>
        obtain ⟨hnow, hs'⟩ := Option.ite_none_right_eq_some.mp hstep
        obtain rfl := Option.some.inj hs'
        refine ⟨queued_updateById hqueued (fun _ => rfl) fun he => absurd he hne, ?_⟩
        exact ahead_recorded h hdue hnow
  | beginPass i now =>
    obtain rfl := Option.some.inj hstep
    exact ⟨queued_updateById h (fun _ => rfl) fun _ _ => rfl, countP_updateById_le i (fun _ _ _ hp => hp) fun _ _ _ hp => hp⟩
  | runNow i r =>
    obtain rfl := Option.some.inj hstep
    exact ⟨queued_updateById h (fun _ => rfl) fun he => absurd he hadmits, countP_updateById h.keys i fun _ _ _ hp => hp⟩
  | create input =>
    obtain ⟨rows, hrows, rfl⟩ := Option.map_eq_some_iff.mp hstep
    obtain ⟨hfree, hrows⟩ := Option.ite_none_left_eq_some.mp hrows
    obtain rfl := Option.some.inj hrows
    refine ⟨⟨?_, h.due, h.own, fun r hr hid => ?_, h.later⟩, ?_⟩
    · rw [List.map_append, List.map_singleton, List.nodup_append]
      refine ⟨h.keys, by simp, fun i hi j hj => ?_⟩
      rintro rfl
      obtain ⟨r, hr, hri⟩ := List.mem_map.mp hi
      apply hfree
      rw [List.any_eq_true]
      exact ⟨r, hr, decide_eq_true (hri.trans (List.mem_singleton.mp hj))⟩
    · rcases List.mem_append.mp hr with hr | hr
      · exact h.rank r hr hid
      · rw [List.mem_singleton.mp hr] at hid
        exact absurd hid hadmits
    · change (s.rows ++ [input.row]).countP (s.isAhead k) + 0 ≤ s.ahead k + 1
      rw [List.countP_append]
      have hone : [input.row].countP (s.isAhead k) ≤ 1 := List.countP_le_length
      unfold Sweeper.ahead
      omega
  | update i patch =>
    obtain rfl := Option.some.inj hstep
    exact ⟨queued_updateById h (fun _ => rfl) fun _ _ => rfl, countP_updateById h.keys i fun _ _ _ hp => hp⟩
  | delete i =>
    obtain rfl := Option.some.inj hstep
    exact ⟨queued_deleteById h i, ahead_deleteById i⟩

end Waiting

/-- A row that is due is left out of sweeps no longer than it takes to visit the rows before it, those that come to stand
before it meanwhile, and those whose visits are not recorded. -/
theorem waits_bounded (maxFailures : ℕ) (row : SweepRow) (s s' : Sweeper) (turns : List SweepTurn)
    (hkeys : (s.rows.map SweepRow.replicationId).Nodup) (hidle : s.due = []) (hrow : row ∈ s.rows)
    (hleft : Admitted (Sweeper.step maxFailures) (Overlooks row.replicationId) s turns)
    (hrun : run (Sweeper.step maxFailures) s turns = some s') :
    (turns.map SweepTurn.listed).sum ≤
      s.rows.countP (fun r => r.pass.enabled ∧ r.rank < row.rank) + (turns.map SweepTurn.unsettles).sum := by
  have hqueued : Queued row.replicationId row.rank s := by
    refine ⟨hkeys, by simp [hidle], by simp [hidle], fun r hr hid => ?_, fun h => absurd hidle h⟩
    rw [List.inj_on_of_nodup_map hkeys hr hrow hid]
  have hstep : ∀ s turn s', Queued row.replicationId row.rank s → Overlooks row.replicationId s turn →
      s.step maxFailures turn = some s' → Queued row.replicationId row.rank s' ∧
        s'.ahead row.rank + turn.listed ≤ s.ahead row.rank + turn.unsettles :=
    fun _ _ _ hq hadmits hstep => queued_step hq hadmits hstep
  have hbound := run_potential hstep hqueued hleft hrun
  have hahead : s.ahead row.rank = s.rows.countP (fun r => r.pass.enabled ∧ r.rank < row.rank) := by
    apply List.countP_congr
    intro r _
    simp [Sweeper.isAhead, hidle]
  rw [hahead] at hbound
  omega

def quarterly (id : String) : NewReplication := ⟨js id, js "v", 15, true, by decide⟩

def threeRows : Sweeper := ⟨[(quarterly "a").row, (quarterly "b").row, (quarterly "c").row], [], 0⟩

def cleanRun (now : ℕ) : RunRecord := ⟨.ok, none, now, none, 0⟩

/-- Two sweeps of one row each. -/
def twoSweeps : List SweepTurn :=
  [.list 600 1, .visit (.recorded (cleanRun 601)), .list 1200 1, .visit (.recorded (cleanRun 1201))]

theorem third_row_waits : (twoSweeps.map SweepTurn.listed).sum ≤
    threeRows.rows.countP (fun r => r.pass.enabled ∧ r.rank < (quarterly "c").row.rank) +
      (twoSweeps.map SweepTurn.unsettles).sum :=
  waits_bounded 5 (quarterly "c").row threeRows ((run (Sweeper.step 5) threeRows twoSweeps).get (by decide)) twoSweeps
    (by decide) rfl (by decide) (by decide) (by simp)

/-! ### When a replication is switched off -/

/-- What has been done to a row. -/
inductive Mark
  | created (on : Bool)
  | switched (on : Bool)
  | ran (status : RunStatus)

def SweepTurn.mark (id : JsString) (s : Sweeper) : SweepTurn → Option Mark
  | .visit (.recorded r) => if s.due.head?.any (fun row => row.replicationId = id) then some (.ran r.status) else none
  | .runNow id' r => if id' = id then some (.ran r.status) else none
  | .create input => if input.replicationId = id then some (.created input.enabled) else none
  | .update id' patch => if id' = id then patch.enabled.map .switched else none
  | _ => none

/-- How the owner has set the switch, and the runs since it was last set to on, the latest first. -/
structure SwitchLog where
  on : Bool
  runs : List RunStatus

def SwitchLog.add (l : SwitchLog) : Mark → SwitchLog
  | .created on => ⟨on, []⟩
  | .switched true => ⟨true, []⟩
  | .switched false => ⟨false, l.runs⟩
  | .ran status => ⟨l.on, status :: l.runs⟩

/-- A sweeper, and what has been done to the row of one id. -/
structure Watched where
  sweeper : Sweeper
  ledger : SwitchLog

def Watched.step (maxFailures : ℕ) (id : JsString) (w : Watched) (turn : SweepTurn) : Option Watched :=
  (w.sweeper.step maxFailures turn).map fun s => ⟨s, ((turn.mark id w.sweeper).map w.ledger.add).getD w.ledger⟩

def isFailure (status : RunStatus) : Bool := status ≠ .ok

/-- The runs since the row was switched on were failures so many times in a row. -/
def SwitchLog.Exhausted (l : SwitchLog) (maxFailures : ℕ) : Prop := List.replicate maxFailures true <:+: l.runs.map isFailure

/-- The failures since the last run that went well. -/
def SwitchLog.streak (l : SwitchLog) : ℕ := (l.runs.takeWhile isFailure).length

/-- The row's columns tell what has been done to it. -/
def SwitchLog.Tells (l : SwitchLog) (maxFailures : ℕ) (pass : PassRow) : Prop :=
  (pass.enabled = true ↔ l.on = true ∧ ¬ l.Exhausted maxFailures) ∧ pass.consecutiveFailures = l.streak

/-- Every row of the id tells of it. -/
def Watched.Told (maxFailures : ℕ) (id : JsString) (w : Watched) : Prop :=
  ∀ row ∈ w.sweeper.rows, row.replicationId = id → w.ledger.Tells maxFailures row.pass

section Switch

variable {id : JsString} {maxFailures : ℕ} {s s' : Sweeper} {l : SwitchLog} {pass : PassRow}

theorem replicate_prefix_iff {α : Type} {f : α → Bool} {n : ℕ} {xs : List α} :
    List.replicate n true <+: xs.map f ↔ n ≤ (xs.takeWhile f).length := by
  induction xs generalizing n with
  | nil => cases n <;> simp [List.replicate_succ]
  | cons x xs ih =>
    cases n with
    | zero => simp
    | succ n =>
      rw [List.map_cons, List.replicate_succ, List.cons_prefix_cons, ih, List.takeWhile_cons]
      cases f x <;> simp

theorem not_exhausted_nil (hmax : 0 < maxFailures) (on : Bool) : ¬ SwitchLog.Exhausted ⟨on, []⟩ maxFailures := by
  intro h
  have hnil := List.infix_nil.mp h
  rw [List.replicate_eq_nil_iff] at hnil
  omega

theorem exhausted_ran {status : RunStatus} : (l.add (.ran status)).Exhausted maxFailures ↔
    maxFailures ≤ (l.add (.ran status)).streak ∨ l.Exhausted maxFailures := by
  unfold SwitchLog.Exhausted SwitchLog.streak SwitchLog.add
  dsimp only
  rw [← replicate_prefix_iff, List.map_cons, List.infix_cons_iff]

theorem tells_created (hmax : 0 < maxFailures) (on : Bool) :
    SwitchLog.Tells ⟨on, []⟩ maxFailures ⟨none, none, none, 0, on, none, none, 0⟩ := by
  refine ⟨?_, rfl⟩
  simp [not_exhausted_nil hmax on]

theorem tells_recorded (hmax : 0 < maxFailures) (h : l.Tells maxFailures pass) (r : RunRecord) :
    (l.add (.ran r.status)).Tells maxFailures
      (pass.recorded r.status r.error r.now maxFailures r.cursor r.remaining) := by
  obtain ⟨hon, hcount⟩ := h
  have hstreak : (l.add (.ran r.status)).streak = if r.status = .ok then 0 else pass.consecutiveFailures + 1 := by
    rw [hcount]
    unfold SwitchLog.streak SwitchLog.add
    dsimp only
    rw [List.takeWhile_cons]
    by_cases hok : r.status = .ok <;> simp [isFailure, hok]
  refine ⟨?_, hstreak.symm⟩
  rw [exhausted_ran, hstreak]
  unfold PassRow.recorded
  dsimp only [SwitchLog.add]
  by_cases hok : r.status = .ok
  · rw [if_neg fun h => h.1 hok, if_pos hok, hon]
    constructor
    · rintro ⟨hset, hout⟩
      exact ⟨hset, fun h => hout (h.resolve_left (by omega))⟩
    · rintro ⟨hset, hout⟩
      exact ⟨hset, fun h => hout (.inr h)⟩
  · rw [if_neg hok]
    by_cases hmost : maxFailures ≤ pass.consecutiveFailures + 1
    · rw [if_pos ⟨hok, hmost⟩]
      constructor
      · intro h
        cases h
      · rintro ⟨-, hout⟩
        exact absurd (.inl hmost) hout
    · rw [if_neg fun h => hmost h.2, hon]
      constructor
      · rintro ⟨hset, hout⟩
        exact ⟨hset, fun h => hout (h.resolve_left hmost)⟩
      · rintro ⟨hset, hout⟩
        exact ⟨hset, fun h => hout (.inr h)⟩

theorem tells_patched (hmax : 0 < maxFailures) {row : SweepRow} (h : l.Tells maxFailures row.pass) (patch : SweepPatch) :
    (((patch.enabled.map Mark.switched).map l.add).getD l).Tells maxFailures (row.patched patch).pass := by
  unfold SweepRow.patched
  cases hswitch : patch.enabled with
  | none => exact h
  | some on =>
    cases on with
    | true =>
      refine ⟨?_, rfl⟩
      simp [SwitchLog.add, not_exhausted_nil hmax true]
    | false =>
      refine ⟨?_, h.2⟩
      simp [SwitchLog.add]

theorem updateById_tells {rows : SweepRows} {f : SweepRow → SweepRow} {i : JsString} {l' : SwitchLog}
    (h : ∀ row ∈ rows, row.replicationId = id → l.Tells maxFailures row.pass)
    (hid : ∀ row, (f row).replicationId = row.replicationId)
    (hown : i = id → ∀ row, l.Tells maxFailures row.pass → l'.Tells maxFailures (f row).pass) (hother : i ≠ id → l' = l) :
    ∀ row ∈ rows.updateById i f, row.replicationId = id → l'.Tells maxFailures row.pass := by
  intro row hrow hrowid
  obtain ⟨old, hold, ⟨hi, rfl⟩ | ⟨hi, rfl⟩⟩ := mem_updateById hrow
  · rw [hother fun he => hi (hrowid.trans he.symm)]
    exact h row hold hrowid
  · rw [hid] at hrowid
    exact hown (hi.symm.trans hrowid) old (h old hold hrowid)

theorem watched_step (hmax : 0 < maxFailures) {w w' : Watched} {turn : SweepTurn} (h : w.Told maxFailures id)
    (hstep : w.step maxFailures id turn = some w') : w'.Told maxFailures id := by
  obtain ⟨s, hs, rfl⟩ := Option.map_eq_some_iff.mp hstep
  have hrecorded (i : JsString) (r : RunRecord) : ∀ row ∈ w.sweeper.rows.updateById i (.record maxFailures r),
      row.replicationId = id → (((if i = id then some (Mark.ran r.status) else none).map w.ledger.add).getD w.ledger).Tells
        maxFailures row.pass := by
    refine updateById_tells h (fun _ => rfl) (fun hi row htells => ?_) fun hi => by rw [if_neg hi]; rfl
    rw [if_pos hi]
    exact tells_recorded hmax htells r
  cases turn with
  | list now limit =>
    obtain ⟨-, hs⟩ := Option.ite_none_right_eq_some.mp hs
    obtain rfl := Option.some.inj hs
    exact h
  | visit v =>
    unfold Sweeper.step at hs
    cases hdue : w.sweeper.due with
    | nil =>
      rw [hdue] at hs
      cases hs
    | cons row rest =>
      rw [hdue] at hs
      cases v with
      | failed =>
        obtain rfl := Option.some.inj hs
        exact h
      | orphaned =>
        obtain rfl := Option.some.inj hs
        exact fun r hr => h r (List.mem_of_mem_filter hr)
      | recorded r =>
        obtain ⟨-, hs⟩ := Option.ite_none_right_eq_some.mp hs
        obtain rfl := Option.some.inj hs
        have hmark : (SweepTurn.visit (.recorded r)).mark id w.sweeper =
            if row.replicationId = id then some (Mark.ran r.status) else none := by
          simp [SweepTurn.mark, hdue]
        rw [hmark]
        exact hrecorded row.replicationId r
  | beginPass i now =>
    obtain rfl := Option.some.inj hs
    exact updateById_tells h (fun _ => rfl) (fun _ _ htells => htells) fun _ => rfl
  | runNow i r =>
    obtain rfl := Option.some.inj hs
    exact hrecorded i r
  | create input =>
    obtain ⟨rows, hrows, rfl⟩ := Option.map_eq_some_iff.mp hs
    obtain ⟨hfree, hrows⟩ := Option.ite_none_left_eq_some.mp hrows
    obtain rfl := Option.some.inj hrows
    intro row hrow hid
    have hmark : (SweepTurn.create input).mark id w.sweeper =
        if input.replicationId = id then some (Mark.created input.enabled) else none := rfl
    rw [hmark]
    rcases List.mem_append.mp hrow with hrow | hrow
    · rw [if_neg fun hi => hfree (List.any_eq_true.mpr ⟨row, hrow, decide_eq_true (hid.trans hi.symm)⟩)]
      exact h row hrow hid
    · rw [List.mem_singleton.mp hrow] at hid ⊢
      rw [if_pos (show input.replicationId = id from hid)]
      exact tells_created hmax input.enabled
  | update i patch =>
    obtain rfl := Option.some.inj hs
    have hmark : (SweepTurn.update i patch).mark id w.sweeper = if i = id then patch.enabled.map .switched else none := rfl
    rw [hmark]
    refine updateById_tells h (fun _ => rfl) (fun hi row htells => ?_) fun hi => by rw [if_neg hi]; rfl
    rw [if_pos hi]
    exact tells_patched hmax htells patch
  | delete i =>
    obtain rfl := Option.some.inj hs
    exact fun r hr => h r (List.mem_of_mem_filter hr)

end Switch

/-- A replication that its owner has switched on is off exactly if, since then, its runs have failed `maxFailures` times in a
row, and its row counts the failures since the last run that went well. -/
theorem switched_off_exactly (maxFailures : ℕ) (hmax : 0 < maxFailures) (id : JsString) (s : Sweeper)
    (hnew : ∀ row ∈ s.rows, row.replicationId ≠ id) (l : SwitchLog) (turns : List SweepTurn) (w : Watched)
    (hrun : run (Watched.step maxFailures id) ⟨s, l⟩ turns = some w) : w.Told maxFailures id := by
  have hstep : ∀ (w : Watched) turn w', w.Told maxFailures id → True → w.step maxFailures id turn = some w' →
      w'.Told maxFailures id := fun _ _ _ h _ hstep => watched_step hmax h hstep
  refine run_preserves hstep ?_ (admitted_all (fun _ _ => trivial) _ turns) hrun
  exact fun row hrow hid => absurd hid (hnew row hrow)

def failedRun (now : ℕ) : RunRecord := ⟨.failed, some (js "timeout"), now, none, 0⟩

def twoFailures : List SweepTurn :=
  [.create (quarterly "a"), .list 600 1, .visit (.recorded (failedRun 601)), .runNow (js "a") (failedRun 700)]

def afterTwoFailures : Watched := (run (Watched.step 2 (js "a")) ⟨⟨[], [], 0⟩, ⟨true, []⟩⟩ twoFailures).get (by decide)

theorem off_after_two_failures : afterTwoFailures.Told 2 (js "a") ∧
    afterTwoFailures.sweeper.rows.map (fun row => row.pass.enabled) = [false] :=
  ⟨switched_off_exactly 2 (by decide) (js "a") ⟨[], [], 0⟩ (by simp) ⟨true, []⟩ twoFailures afterTwoFailures
    (Option.some_get _).symm, by decide⟩

/-! ### What a slice does to its row -/

/-- As it was, or opened anew. -/
def PassRow.Begins (row row' : PassRow) : Prop := row' = row ∨ ∃ now, row' = row.begun now

def World.Begins (w w' : World) : Prop := w.pass.Begins w'.pass

instance : IsPreorder PassRow PassRow.Begins where
  refl _ := .inl rfl
  trans row row₁ row₂ h h' := by
    rcases h' with rfl | ⟨now, rfl⟩
    · exact h
    · refine .inr ⟨now, ?_⟩
      rcases h with rfl | ⟨_, rfl⟩ <;> rfl

instance : Silent World.Begins where
  refl w := refl_of PassRow.Begins w.pass
  trans _ _ _ h h' := trans_of PassRow.Begins h h'
  tick w := refl_of PassRow.Begins w.pass
  note w _ _ := refl_of PassRow.Begins w.pass

/-- What a slice may do to its row: open the pass anew, and then record the run. -/
def Runner.Reports (r : Runner) (row row' : PassRow) : Prop :=
  ∃ begun, row.Begins begun ∧ ∃ report : RunRecord, (∃ n, report.now = r.env.clock n / 1000) ∧
    row' = begun.recorded report.status report.error report.now r.config.maxFailures report.cursor report.remaining

/-- The run is recorded if the program answers, and is not if it throws. -/
structure Runner.Settles {α : Type} (r : Runner) (x : Run α) : Prop where
  answered : ∀ w w' a, x.run w = (.ok a, w') → r.Reports w.pass w'.pass
  thrown : ∀ w w' e, x.run w = (.error e, w') → w.pass.Begins w'.pass

section Slices

variable {r : Runner} {w w' : World}

theorem beginPass_begins (env : Env) (now : ℕ) : Act.Within World.Begins (env.beginPass now) :=
  within_call intact_within fun _ _ _ => .inr ⟨now, rfl⟩

theorem collectSlice_begins (env : Env) (maxCollections deadlineMs : ℕ) (start : Option JsString) :
    Act.Within World.Begins (env.collectSlice maxCollections deadlineMs start) := by
  intro w
  obtain ⟨walk, current, es, w', hreads, -, hrun, -⟩ := collectSlice_run env maxCollections deadlineMs start w
  have hbase : Act.Within World.Begins (env.baseForVisited walk.visited) :=
    Act.within_bind loadReplicaStateRows_within fun _ => Act.within_pure _
  have hsame : w.Begins w' := .inl (by rw [hreads.same])
  rw [hrun]
  exact trans_of World.Begins hsame ((Act.within_bind hbase fun _ => Act.within_pure _) w')

theorem prepare_begins (r : Runner) (now startedAt : ℕ) : Act.Within World.Begins (r.prepare now startedAt) := by
  unfold Runner.prepare
  refine Act.within_bind Act.within_read fun row => ?_
  refine Act.within_bind ?_ fun _ => Act.within_bind ?_ fun _ => Act.within_bind ?_ fun _ => collectSlice_begins _ _ _ _
  · unfold Runner.reconcilePassState
    refine Act.within_bind Act.within_read fun w => ?_
    split
    · exact Act.within_pure _
    · exact Act.within_bind (beginPass_begins _ _) fun _ => Act.within_pure _
  · exact within_call intact_within fun _ _ => Act.within_pure _
  · unfold Runner.probeOnce
    split
    · exact within_call intact_within fun _ _ => Act.within_pure _
    · exact Act.within_pure _

theorem Runner.Settles.after {α β : Type} {x : Run α} {f : α → Run β} (hx : Act.Within World.Begins x)
    (hf : ∀ a, r.Settles (f a)) : r.Settles (x >>= f) := by
  constructor
  · intro w w' b h
    obtain ⟨a, w₁, hrun, h⟩ := Act.of_run_bind h
    obtain ⟨begun, hbegins, hrest⟩ := (hf a).answered w₁ w' b h
    exact ⟨begun, trans_of PassRow.Begins (hx.of_run hrun) hbegins, hrest⟩
  · intro w w' e h
    rw [Act.run_bind] at h
    cases hrun : x.run w with
    | mk y w₁ =>
      have hbegins : w.pass.Begins w₁.pass := hx.of_run hrun
      rw [hrun] at h
      cases y with
      | ok a => exact trans_of PassRow.Begins hbegins ((hf a).thrown w₁ w' e h)
      | error _ =>
        obtain rfl : w₁ = w' := congrArg Prod.snd h
        exact hbegins

theorem Runner.Settles.map {α β : Type} {x : Run α} (hx : r.Settles x) (b : β) : r.Settles (x >>= fun _ => pure b) := by
  constructor
  · intro w w' _ h
    obtain ⟨a, w₁, hrun, h⟩ := Act.of_run_bind h
    obtain ⟨-, rfl⟩ := Act.of_run_pure h
    exact hx.answered w w₁ a hrun
  · intro w w' e h
    rw [Act.run_bind] at h
    cases hrun : x.run w with
    | mk y w₁ =>
      rw [hrun] at h
      cases y with
      | ok a => cases congrArg Prod.fst h
      | error e' =>
        obtain rfl : w₁ = w' := congrArg Prod.snd h
        exact hx.thrown w w₁ e' hrun

theorem recordRun_settles {status : RunStatus} {error cursor : Option JsString} {now remaining : ℕ}
    (hnow : ∃ n, now = r.env.clock n / 1000) :
    r.Settles (r.env.recordRun status error now r.config.maxFailures cursor remaining) := by
  constructor
  · intro w w' _ h
    exact ⟨w.pass, .inl rfl, ⟨status, error, now, cursor, remaining⟩, hnow, (recordRun_ok h).2⟩
  · intro w w' e h
    unfold Env.recordRun Env.call at h
    cases ha : r.env.answer w.calls with
    | rejects reason =>
      simp only [ha] at h
      obtain rfl : _ = w' := congrArg Prod.snd h
      exact .inl rfl
    | performs | blank | cut keep =>
      simp only [ha] at h
      cases congrArg Prod.fst h

theorem syncSlice_settles (slice : Slice) {now startedAt : ℕ} (hnow : ∃ n, now = r.env.clock n / 1000) :
    r.Settles (r.syncSlice slice now startedAt) := by
  rw [Runner.syncSlice_eq]
  generalize (buildReplicationPlan (r.planInput slice startedAt)).conflicts = conflicts
  generalize (buildReplicationPlan (r.planInput slice startedAt)).decisions = ds
  generalize (buildReplicationPlan (r.planInput slice startedAt)).deferredPaths.length = deferred
  have hfixes {w w' : World} (h : World.Fixes World.pass w w') : w.Begins w' := .inl h
  have hrun : Act.Within (World.Fixes World.pass) ((r.options slice startedAt).run ds) :=
    run_within (fun _ _ m _ => mutation_fixes World.pass _ m) fun _ _ => within_call intact_within fun _ _ _ => rfl
  have hconflicts : Act.Within (World.Fixes World.pass) (r.env.recordConflicts (startedAt / 1000) conflicts) :=
    Act.within_each fun _ _ => Act.within_bind (Act.within_attempt (within_call intact_within fun _ _ _ => rfl)) fun _ =>
      Act.within_pure _
  apply Runner.Settles.after (hrun.mono fun _ _ => hfixes)
  intro outcome
  apply Runner.Settles.after (hconflicts.mono fun _ _ => hfixes)
  intro _
  exact (recordRun_settles hnow).map _

theorem tick_pass (r : Runner) (w : World) : w.pass.Begins (r.tick w).pass ∨ r.Reports w.pass (r.tick w).pass := by
  have hnow : ∃ n, r.env.clock w.calls / 1000 = r.env.clock n / 1000 := ⟨w.calls, rfl⟩
  have hslice : r.Settles (r.prepare (r.env.clock w.calls / 1000) (r.startedAt w) >>= fun slice =>
      r.syncSlice slice (r.env.clock w.calls / 1000) (r.startedAt w)) :=
    .after (prepare_begins _ _ _) fun slice => syncSlice_settles slice hnow
  unfold Runner.tick
  cases hrun : (r.trySlice (r.env.clock w.calls / 1000) (r.startedAt w)).run w.tick.tick with
  | mk x w₁ =>
    rw [trySlice_eq] at hrun
    cases x with
    | ok result =>
      have hreports := hslice.answered _ _ _ hrun
      rw [← trySlice_eq] at hrun
      rw [runSlice_ok hrun]
      exact .inr hreports
    | error reason =>
      have hbegins := hslice.thrown _ _ _ hrun
      rw [← trySlice_eq] at hrun
      rw [runSlice_error hrun, Runner.recordFailure_eq]
      have hclock : r.env.now.run w₁ = (.ok (r.env.clock w₁.calls), w₁.tick) := rfl
      rw [Act.run_bind_ok hclock, Act.run_bind, Act.run_attempt]
      have hrecord : r.Settles (r.env.recordRun .failed (some (reason.take storedErrorLength))
          (r.env.clock w₁.calls / 1000) r.config.maxFailures none 0) := recordRun_settles ⟨w₁.calls, rfl⟩
      cases hend : (r.env.recordRun .failed (some (reason.take storedErrorLength)) (r.env.clock w₁.calls / 1000)
          r.config.maxFailures none 0).run w₁.tick with
      | mk y w₂ =>
        cases y with
        | ok _ =>
          obtain ⟨begun, hopens, hrest⟩ := hrecord.answered w₁.tick _ _ hend
          exact .inr ⟨begun, trans_of PassRow.Begins hbegins hopens, hrest⟩
        | error _ => exact .inl (trans_of PassRow.Begins hbegins (hrecord.thrown w₁.tick _ _ hend))

theorem updateById_congr {rows : SweepRows} {i : JsString} {f g : SweepRow → SweepRow}
    (h : ∀ row ∈ rows, row.replicationId = i → f row = g row) : rows.updateById i f = rows.updateById i g := by
  apply List.map_congr_left
  intro row hrow
  split
  · exact h row hrow (by assumption)
  · rfl

theorem updateById_same {rows : SweepRows} {i : JsString} {f : SweepRow → SweepRow}
    (h : ∀ row ∈ rows, row.replicationId = i → f row = row) : rows.updateById i f = rows := by
  rw [updateById_congr h]
  unfold SweepRows.updateById
  simp

theorem updateById_updateById {rows : SweepRows} {i : JsString} {f : SweepRow → SweepRow} (g : SweepRow → SweepRow)
    (hf : ∀ row, (f row).replicationId = row.replicationId) :
    (rows.updateById i f).updateById i g = rows.updateById i fun row => g (f row) := by
  unfold SweepRows.updateById
  rw [List.map_map]
  apply List.map_congr_left
  intro row _
  dsimp only [Function.comp]
  by_cases hi : row.replicationId = i
  · have hi' := (hf row).trans hi
    simp [hi, hi']
  · simp [hi]

/-- A slice is a visit of its row, before which the pass may be opened. -/
theorem tick_turns (r : Runner) (w : World) (s : Sweeper) {row : SweepRow} {rest : SweepRows} (hdue : s.due = row :: rest)
    (hpass : ∀ row' ∈ s.rows, row'.replicationId = row.replicationId → row'.pass = w.pass)
    (hclock : ∀ n, s.listedAt ≤ r.env.clock n / 1000) :
    ∃ (begun : Option ℕ) (v : RowVisit),
      run (Sweeper.step r.config.maxFailures) s (begun.toList.map (.beginPass row.replicationId) ++ [.visit v]) =
        some ⟨s.rows.updateById row.replicationId (·.withPass (r.tick w).pass), rest, s.listedAt⟩ := by
  let opened (pass : PassRow) : Sweeper := { s with rows := s.rows.updateById row.replicationId (·.withPass pass) }
  have hopens {pass : PassRow} (h : w.pass.Begins pass) : ∃ begun : Option ℕ,
      run (Sweeper.step r.config.maxFailures) s (begun.toList.map (.beginPass row.replicationId)) = some (opened pass) := by
    rcases h with rfl | ⟨now, rfl⟩
    · refine ⟨none, ?_⟩
      have hsame : s.rows.updateById row.replicationId (·.withPass w.pass) = s.rows :=
        updateById_same fun row' hrow' hid => by rw [← hpass row' hrow' hid]; rfl
      change some s = some { s with rows := _ }
      rw [hsame]
    · refine ⟨some now, ?_⟩
      have hsame : s.rows.updateById row.replicationId (fun row => row.withPass (row.pass.begun now)) =
          s.rows.updateById row.replicationId (·.withPass (w.pass.begun now)) :=
        updateById_congr fun row' hrow' hid => by rw [hpass row' hrow' hid]
      exact congrArg (fun rows => some { s with rows := rows }) hsame
  rcases tick_pass r w with hbegins | ⟨pass, hbegins, report, ⟨n, hnow⟩, hrecorded⟩
  · obtain ⟨begun, hrun⟩ := hopens hbegins
    refine ⟨begun, .failed, run_trans hrun ?_⟩
    simp [run, Sweeper.step, opened, hdue]
  · obtain ⟨begun, hrun⟩ := hopens hbegins
    refine ⟨begun, .recorded report, run_trans hrun ?_⟩
    have hnow' : s.listedAt ≤ report.now := hnow ▸ hclock n
    simp only [run, List.foldlM_cons, List.foldlM_nil, Sweeper.step, opened, hdue, if_pos hnow', Option.bind_eq_bind,
      Option.bind_some, Option.pure_def]
    have hkeeps (row : SweepRow) : (row.withPass pass).replicationId = row.replicationId := rfl
    rw [updateById_updateById _ hkeeps, hrecorded]
    rfl

end Slices

end DurableDav.Replication
