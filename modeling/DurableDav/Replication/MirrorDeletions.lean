import DurableDav.Replication.VolumeReplicationService

namespace DurableDav.Replication

open Library
open Front (Casing Volumes)

/-! ### Patches -/

structure ReplicationPatchInput where
  mode : Unknown := .undefined
  mirrorDeletions : Unknown := .undefined
  intervalMinutes : Unknown := .undefined
  enabled : Unknown := .undefined

/-- `none` for what is not written. -/
structure ReplicationPatch where
  mode : Option ReplicationMode
  mirrorDeletions : Option Bool
  intervalMinutes : Option ℤ
  enabled : Option Bool

def ifNamed {α : Type} (value : Unknown) (read : Checked α) : Checked (Option α) :=
  if value = .undefined then .ok none else read.map some

/-- The mode that counts is the one in force after the patch, as far as the row that was read tells. -/
def patchedMirrorDeletions (existing : DavReplicationRow) (value : Unknown) (mode : Option ReplicationMode) :
    Checked (Option Bool) :=
  if value ≠ .undefined then (readMirrorDeletions value (mode.getD existing.mode)).map some
  else
    match mode with
    | some mode => if existing.mirrorDeletions then (readMirrorDeletions (.boolean false) mode).map some else .ok none
    | none => .ok none

def readPatch (existing : DavReplicationRow) (input : ReplicationPatchInput) : Checked ReplicationPatch := do
  let mode ← ifNamed input.mode (oneOf ReplicationMode.name input.mode replicationModes (js "mode") none)
  let mirrorDeletions ← patchedMirrorDeletions existing input.mirrorDeletions mode
  let intervalMinutes ← ifNamed input.intervalMinutes (normalizeInterval input.intervalMinutes)
  let enabled ← ifNamed input.enabled (optionalBoolean input.enabled (js "enabled") existing.enabled)
  .ok ⟨mode, mirrorDeletions, intervalMinutes, enabled⟩

def DavReplicationRow.patched (r : DavReplicationRow) (patch : ReplicationPatch) (now : ℕ) : DavReplicationRow :=
  { r with
    mode := patch.mode.getD r.mode
    mirrorDeletions := patch.mirrorDeletions.getD r.mirrorDeletions
    intervalMinutes := patch.intervalMinutes.getD r.intervalMinutes
    enabled := patch.enabled.getD r.enabled
    updatedAt := now }

def Replications.update (rows : Replications) (id : JsString) (patch : ReplicationPatch) (now : ℕ) : Replications :=
  rows.map fun r => if r.replicationId = id then r.patched patch now else r

/-! ### Creating, await by await -/

/-- What `createReplication` has read from the body. -/
structure ReplicationDraft where
  mode : ReplicationMode
  mirrorDeletions : Bool
  authKind : ReplicationAuthKind
  intervalMinutes : ℤ
  enabled : Bool
  target : ReplicationTarget
  plaintext : JsString

namespace ReplicationService

variable (s : ReplicationService) (context : CallContext)

def draft (call : CreateCall) : Checked ReplicationDraft := do
  let input := call.input
  let mode ← oneOf ReplicationMode.name input.mode replicationModes (js "mode") (some .keepBoth)
  let mirrorDeletions ← readMirrorDeletions input.mirrorDeletions mode
  let authKind ← oneOf ReplicationAuthKind.name input.authKind replicationAuthKinds (js "authKind") (some .none)
  let intervalMinutes ← normalizeInterval input.intervalMinutes
  let enabled ← optionalBoolean input.enabled (js "enabled") true
  let target ← resolveTarget s.casing context.volumes s.normalizeRemoteUrl call.localPath input
  let plaintext ← credentialPlaintext authKind input.username input.secret
  .ok ⟨mode, mirrorDeletions, authKind, intervalMinutes, enabled, target, plaintext⟩

def checkCount (rows : Replications) (call : CreateCall) : Checked Unit :=
  if s.maxReplicationsPerVolume ≤ rows.countByVolume call.volumeId then
    badRequest (js "A volume may have at most " ++ decimal s.maxReplicationsPerVolume ++ js " replications")
  else .ok ()

def checkTarget (rows : Replications) (call : CreateCall) (draft : ReplicationDraft) : Checked Unit :=
  if (rows.getByVolumeAndTarget call.volumeId draft.target).isSome then
    badRequest (js "This target is already configured for this volume")
  else .ok ()

def sealRow (call : CreateCall) (draft : ReplicationDraft) : Checked DavReplicationRow := do
  let envelope ← s.sealed context draft.plaintext
  .ok ⟨call.replicationId, call.volumeId, draft.target, draft.authKind, envelope.map Envelope.ciphertext,
    envelope.map Envelope.iv, draft.mode, draft.mirrorDeletions, draft.intervalMinutes, draft.enabled, context.now,
    context.now, call.creatorEmail⟩

def insertRow (rows : Replications) (row : DavReplicationRow) : Checked Replications :=
  match rows.create context.volumes row with
  | some rows => .ok rows
  | none => .error (.failed (js "constraint failed"))

/-- With nothing between its awaits a creation does what its steps do. -/
theorem createReplication_steps (rows : Replications) (call : CreateCall) :
    s.createReplication context rows call = (do
      let draft ← s.draft context call
      s.checkCount rows call
      checkTarget rows call draft
      let row ← s.sealRow context call draft
      insertRow context rows row) := by
  unfold createReplication draft checkCount checkTarget sealRow insertRow
  have hok {α β : Type} (a : α) (f : α → Checked β) : (Except.ok a >>= f) = f a := rfl
  simp only [bind_assoc, hok]
  refine bind_congr fun mode => bind_congr fun mirrorDeletions => bind_congr fun authKind =>
    bind_congr fun intervalMinutes => bind_congr fun enabled => bind_congr fun target =>
    bind_congr fun plaintext => ?_
  by_cases hcount : s.maxReplicationsPerVolume ≤ rows.countByVolume call.volumeId
  · rw [if_pos hcount, if_pos hcount]
    rfl
  · rw [if_neg hcount, if_neg hcount]
    by_cases htarget : (rows.getByVolumeAndTarget call.volumeId target).isSome = true
    · rw [if_pos htarget, if_pos htarget]
      rfl
    · rw [if_neg htarget, if_neg htarget]
      cases s.sealed context plaintext <;> rfl

end ReplicationService

/-! ### Calls at their awaits -/

/-- Where a call waits, with what it has read. -/
inductive UnderWay
  | counting (call : CreateCall) (draft : ReplicationDraft)
  | matching (call : CreateCall) (draft : ReplicationDraft)
  | sealing (call : CreateCall) (draft : ReplicationDraft)
  | inserting (row : DavReplicationRow)
  | reading (volumeId replicationId : JsString) (input : ReplicationPatchInput)
  | updating (existing : DavReplicationRow) (input : ReplicationPatchInput) (patch : ReplicationPatch)

/-- The table with the calls under way, one place each. A call that has ended leaves its place empty. -/
structure Replicating where
  rows : Replications
  calls : List (Option UnderWay)

inductive ReplicationMove
  | create (context : CallContext) (call : CreateCall)
  | update (volumeId replicationId : JsString) (input : ReplicationPatchInput)
  | resume (n : ℕ) (context : CallContext)

namespace Replicating

variable (s : ReplicationService) (w : Replicating)

def start : Replicating := ⟨[], []⟩

/-- A call that is refused ends. -/
def go (n : ℕ) {α : Type} (result : Checked α) (next : α → UnderWay) : Replicating :=
  { w with calls := w.calls.set n (result.toOption.map next) }

def resume (n : ℕ) (context : CallContext) : UnderWay → Replicating
  | .counting call draft => w.go n (s.checkCount w.rows call) fun _ => .matching call draft
  | .matching call draft => w.go n (ReplicationService.checkTarget w.rows call draft) fun _ => .sealing call draft
  | .sealing call draft => w.go n (s.sealRow context call draft) .inserting
  | .inserting row => ⟨((ReplicationService.insertRow context w.rows row).toOption).getD w.rows, w.calls.set n none⟩
  | .reading volumeId replicationId input =>
    w.go n (do
      let existing ← ReplicationService.requireReplication w.rows volumeId replicationId
      let patch ← readPatch existing input
      .ok (existing, patch)) fun read => .updating read.1 input read.2
  | .updating existing _ patch => ⟨w.rows.update existing.replicationId patch context.now, w.calls.set n none⟩

def step : ReplicationMove → Replicating
  | .create context call => { w with calls := w.calls ++ [((s.draft context call).toOption).map (.counting call)] }
  | .update volumeId replicationId input => { w with calls := w.calls ++ [some (.reading volumeId replicationId input)] }
  | .resume n context => (w.calls[n]?.join).elim w (w.resume s n context)

end Replicating

/-! ### The rule for the two columns -/

/-- A row that mirrors deletions only pulls. -/
def DavReplicationRow.Confined (r : DavReplicationRow) : Prop := r.mirrorDeletions = true → r.mode = .pullOnly

/-- A patch by which the columns of the row stop agreeing, since it was checked against the row as it had been:
it sets the flag, its sender found a mode that is no longer there, or it sets the mode and found no flag. -/
def Overtaken (r existing : DavReplicationRow) (input : ReplicationPatchInput) : Prop :=
  input.mirrorDeletions = .boolean true ∧ input.mode = .undefined ∧ r.mode ≠ .pullOnly ∨
    input.mirrorDeletions = .undefined ∧ input.mode ≠ .undefined ∧ input.mode ≠ .string (js "pull-only") ∧
      existing.mirrorDeletions = false ∧ r.mirrorDeletions = true

namespace Replicating

variable (s : ReplicationService) (w : Replicating)

def Confined : Prop := ∀ r ∈ w.rows, r.Confined

/-- What is about to be written for a request that sets the flag. -/
def Sets (id : JsString) : ReplicationMove → Prop
  | .resume n _ => ∃ existing input patch, w.calls[n]? = some (some (.updating existing input patch)) ∧
    existing.replicationId = id ∧ input.mirrorDeletions = .boolean true
  | _ => False

/-- A row comes back to only pulling with the flag cleared unless the same request sets it. -/
def ComesBackCleared (m : ReplicationMove) : Prop :=
  ∀ id r r', w.rows.getById id = some r → (w.step s m).rows.getById id = some r' → r.mode ≠ .pullOnly →
    r'.mode = .pullOnly → r'.mirrorDeletions = true → w.Sets id m

/-- The rule at the start, at every step and at the end. -/
def KeepsRule (w : Replicating) : List ReplicationMove → Prop
  | [] => w.Confined
  | m :: ms => w.Confined ∧ w.ComesBackCleared s m ∧ KeepsRule (w.step s m) ms

def Stale : ReplicationMove → Prop
  | .resume n _ => ∃ existing input patch, w.calls[n]? = some (some (.updating existing input patch)) ∧
    ∃ r ∈ w.rows, r.replicationId = existing.replicationId ∧ Overtaken r existing input
  | _ => False

def Timely (w : Replicating) : List ReplicationMove → Prop
  | [] => True
  | m :: ms => ¬ w.Stale m ∧ Timely (w.step s m) ms

end Replicating

/-! ### What is checked before it is written -/

section Checks

variable {existing r : DavReplicationRow} {input : ReplicationPatchInput} {patch : ReplicationPatch}

theorem oneOf_ok {κ : Type} {name : κ → JsString} {value : Unknown} {allowed : List κ} {field : JsString} {k : κ}
    (h : oneOf name value allowed field none = .ok k) : value = .string (name k) := by
  unfold oneOf at h
  cases value with
  | string text =>
    dsimp only at h
    split at h
    · rename_i found hfound
      obtain rfl := Except.ok.inj h
      have hname := List.find?_some hfound
      rw [decide_eq_true_eq] at hname
      rw [hname]
    · cases h
  | undefined => cases h
  | null => cases h
  | boolean b => cases h
  | number n => cases h
  | other => cases h

theorem ifNamed_ok {α : Type} {value : Unknown} {read : Checked α} {found : Option α}
    (h : ifNamed value read = .ok found) :
    value = .undefined ∧ found = none ∨ value ≠ .undefined ∧ ∃ a, read = .ok a ∧ found = some a := by
  unfold ifNamed at h
  split at h
  · rename_i hvalue
    exact .inl ⟨hvalue, (Except.ok.inj h).symm⟩
  · rename_i hvalue
    cases read with
    | error e => cases h
    | ok a => exact .inr ⟨hvalue, a, rfl, (Except.ok.inj h).symm⟩

theorem readMirrorDeletions_ok {value : Unknown} {mode : ReplicationMode} {flag : Bool}
    (h : readMirrorDeletions value mode = .ok flag) :
    (flag = true ↔ value = .boolean true) ∧ (flag = true → mode = .pullOnly) := by
  unfold readMirrorDeletions at h
  obtain ⟨read, hread, h⟩ := except_bind h
  have hvalue : read = true ↔ value = .boolean true := by
    unfold optionalBoolean at hread
    cases value with
    | undefined => simp_all
    | null => simp_all
    | boolean b => simp_all
    | number n => cases hread
    | string text => cases hread
    | other => cases hread
  split at h
  · cases h
  · rename_i hmode
    obtain rfl := Except.ok.inj h
    exact ⟨hvalue, fun hflag => by_contra fun hne => hmode ⟨hflag, hne⟩⟩

theorem readPatch_ok (h : readPatch existing input = .ok patch) :
    (input.mode = .undefined ∧ patch.mode = none ∨
      ∃ mode, input.mode = .string (ReplicationMode.name mode) ∧ patch.mode = some mode) ∧
    patchedMirrorDeletions existing input.mirrorDeletions patch.mode = .ok patch.mirrorDeletions := by
  unfold readPatch at h
  obtain ⟨mode, hmode, h⟩ := except_bind h
  obtain ⟨mirrorDeletions, hmirror, h⟩ := except_bind h
  obtain ⟨intervalMinutes, -, h⟩ := except_bind h
  obtain ⟨enabled, -, h⟩ := except_bind h
  obtain rfl := Except.ok.inj h
  refine ⟨?_, hmirror⟩
  rcases ifNamed_ok hmode with ⟨hundefined, hnone⟩ | ⟨-, found, hfound, hsome⟩
  · exact .inl ⟨hundefined, hnone⟩
  · exact .inr ⟨found, oneOf_ok hfound, hsome⟩

/-- The flag that a patch writes, if it writes one: what the request sets, or a clearing beside another mode. -/
theorem patchedMirrorDeletions_ok {value : Unknown} {mode : Option ReplicationMode} {found : Option Bool}
    (h : patchedMirrorDeletions existing value mode = .ok found) :
    value ≠ .undefined ∧ (∃ flag, found = some flag ∧ (flag = true ↔ value = .boolean true) ∧
        (flag = true → mode.getD existing.mode = .pullOnly)) ∨
      value = .undefined ∧ (found = some false ∧ existing.mirrorDeletions = true ∧ mode ≠ none ∨
        found = none ∧ (mode = none ∨ existing.mirrorDeletions = false)) := by
  unfold patchedMirrorDeletions at h
  by_cases hvalue : value = .undefined
  · right
    refine ⟨hvalue, ?_⟩
    rw [if_neg (by simpa using hvalue)] at h
    cases mode with
    | none => exact .inr ⟨(Except.ok.inj h).symm, .inl rfl⟩
    | some mode =>
      dsimp only at h
      split at h
      · rename_i hflag
        exact .inl ⟨(Except.ok.inj h).symm, hflag, nofun⟩
      · rename_i hflag
        exact .inr ⟨(Except.ok.inj h).symm, .inr (by simpa using hflag)⟩
  · left
    refine ⟨hvalue, ?_⟩
    rw [if_pos hvalue] at h
    cases hread : readMirrorDeletions value (mode.getD existing.mode) with
    | error e =>
      rw [hread] at h
      cases h
    | ok flag =>
      rw [hread] at h
      obtain ⟨hflag, hmode⟩ := readMirrorDeletions_ok hread
      exact ⟨flag, (Except.ok.inj h).symm, hflag, hmode⟩

theorem pullOnly_name (mode : ReplicationMode) :
    (.string mode.name : Unknown) = .string (js "pull-only") ↔ mode = .pullOnly := by
  cases mode <;> decide

theorem patched_confined (h : readPatch existing input = .ok patch) (hr : r.Confined) (now : ℕ) :
    (r.patched patch now).Confined ↔ ¬ Overtaken r existing input := by
  obtain ⟨hmode, hmirror⟩ := readPatch_ok h
  unfold DavReplicationRow.Confined at hr
  unfold DavReplicationRow.Confined DavReplicationRow.patched Overtaken
  dsimp only
  rcases patchedMirrorDeletions_ok hmirror with ⟨hvalue, flag, hflag, hset, hpull⟩ |
    ⟨hvalue, ⟨hflag, hexisting, -⟩ | ⟨hflag, hleft⟩⟩
  · rw [hflag, Option.getD_some]
    rcases hmode with ⟨hinput, hnone⟩ | ⟨mode, hinput, hsome⟩
    · rw [hnone, Option.getD_none]
      simp [hvalue, hinput, hset]
    · rw [hsome] at hpull ⊢
      simp only [Option.getD_some] at hpull ⊢
      simpa [hvalue, hinput] using hpull
  · rw [hflag]
    simp [hvalue, hexisting]
  · rw [hflag, Option.getD_none]
    rcases hmode with ⟨hinput, hnone⟩ | ⟨mode, hinput, hsome⟩
    · rw [hnone]
      simpa [hvalue, hinput] using hr
    · rw [hsome] at hleft ⊢
      have hexisting : existing.mirrorDeletions = false := hleft.resolve_left nofun
      simp only [hvalue, hinput, Option.getD_some, ne_eq, pullOnly_name, hexisting]
      simp [imp_iff_not_or, or_comm]

/-- Of a row without the flag a patch makes one with it only where its request sets it. -/
theorem patched_sets (h : readPatch existing input = .ok patch) (hr : r.mirrorDeletions = false) {now : ℕ}
    (hset : (r.patched patch now).mirrorDeletions = true) : input.mirrorDeletions = .boolean true := by
  obtain ⟨-, hmirror⟩ := readPatch_ok h
  unfold DavReplicationRow.patched at hset
  dsimp only at hset
  rcases patchedMirrorDeletions_ok hmirror with ⟨-, flag, hflag, hvalue, -⟩ | ⟨-, ⟨hflag, -⟩ | ⟨hflag, -⟩⟩
  · rw [hflag] at hset
    exact hvalue.mp hset
  · rw [hflag] at hset
    cases hset
  · rw [hflag, Option.getD_none, hr] at hset
    cases hset

end Checks

/-! ### Every call, at every await -/

/-- What a call has read is what the checks have let through. -/
def UnderWay.Checked : UnderWay → Prop
  | .counting _ draft | .matching _ draft | .sealing _ draft => draft.mirrorDeletions = true → draft.mode = .pullOnly
  | .inserting row => row.Confined
  | .reading _ _ _ => True
  | .updating existing input patch => readPatch existing input = .ok patch

namespace Replicating

section Steps

variable {s : ReplicationService} {w : Replicating}

def Sound (w : Replicating) : Prop := ∀ c, some c ∈ w.calls → c.Checked

theorem draft_confined {context : CallContext} {call : CreateCall} {draft : ReplicationDraft}
    (h : s.draft context call = .ok draft) : draft.mirrorDeletions = true → draft.mode = .pullOnly := by
  unfold ReplicationService.draft at h
  obtain ⟨mode, -, h⟩ := except_bind h
  obtain ⟨mirrorDeletions, hmirror, h⟩ := except_bind h
  obtain ⟨authKind, -, h⟩ := except_bind h
  obtain ⟨intervalMinutes, -, h⟩ := except_bind h
  obtain ⟨enabled, -, h⟩ := except_bind h
  obtain ⟨target, -, h⟩ := except_bind h
  obtain ⟨plaintext, -, h⟩ := except_bind h
  obtain rfl := Except.ok.inj h
  exact (readMirrorDeletions_ok hmirror).2

theorem sealRow_confined {context : CallContext} {call : CreateCall} {draft : ReplicationDraft}
    {row : DavReplicationRow} (hdraft : draft.mirrorDeletions = true → draft.mode = .pullOnly)
    (h : s.sealRow context call draft = .ok row) : row.Confined := by
  unfold ReplicationService.sealRow at h
  obtain ⟨envelope, -, h⟩ := except_bind h
  obtain rfl := Except.ok.inj h
  exact hdraft

theorem sound_set (h : w.Sound) {n : ℕ} {c : Option UnderWay} (hc : ∀ d, c = some d → d.Checked) :
    ∀ d, some d ∈ w.calls.set n c → d.Checked := by
  intro d hd
  rcases List.mem_or_eq_of_mem_set hd with hd | hd
  · exact h d hd
  · exact hc d hd.symm

theorem sound_ended (h : w.Sound) (n : ℕ) : ∀ d, some d ∈ w.calls.set n none → d.Checked :=
  sound_set h fun _ hd => nomatch hd

theorem go_sound (h : w.Sound) (n : ℕ) {α : Type} {result : Checked α} {next : α → UnderWay}
    (hnext : ∀ a, result = .ok a → (next a).Checked) : (w.go n result next).Sound := by
  apply sound_set h
  intro d hd
  cases result with
  | error e => cases hd
  | ok a =>
    obtain rfl := Option.some.inj hd
    exact hnext a rfl

theorem resume_sound (h : w.Sound) (n : ℕ) (context : CallContext) {c : UnderWay} (hc : c.Checked) :
    (w.resume s n context c).Sound := by
  cases c with
  | counting call draft =>
    apply go_sound h n
    exact fun _ _ => hc
  | matching call draft =>
    apply go_sound h n
    exact fun _ _ => hc
  | sealing call draft =>
    apply go_sound h n
    exact fun row hrow => sealRow_confined hc hrow
  | inserting row => exact sound_ended h n
  | reading volumeId replicationId input =>
    apply go_sound h n
    intro read hread
    obtain ⟨existing, -, hread⟩ := except_bind hread
    obtain ⟨patch, hpatch, hread⟩ := except_bind hread
    obtain rfl := Except.ok.inj hread
    exact hpatch
  | updating existing input patch => exact sound_ended h n

theorem step_sound (h : w.Sound) (m : ReplicationMove) : (w.step s m).Sound := by
  cases m with
  | create context call =>
    intro c hc
    rcases List.mem_append.mp hc with hc | hc
    · exact h c hc
    · cases hdraft : s.draft context call with
      | error e =>
        rw [hdraft] at hc
        cases List.mem_singleton.mp hc
      | ok draft =>
        rw [hdraft] at hc
        obtain rfl := Option.some.inj (List.mem_singleton.mp hc)
        exact draft_confined hdraft
  | update volumeId replicationId input =>
    intro c hc
    rcases List.mem_append.mp hc with hc | hc
    · exact h c hc
    · obtain rfl := Option.some.inj (List.mem_singleton.mp hc)
      trivial
  | resume n context =>
    change ((w.calls[n]?.join).elim w (w.resume s n context)).Sound
    cases hcall : w.calls[n]?.join with
    | none => exact h
    | some c =>
      obtain hmem := List.mem_of_getElem? (Option.join_eq_some_iff.mp hcall)
      exact resume_sound h n context (h c hmem)

/-- What a step does to the table: nothing, one new row, or the patch of one request. -/
theorem step_rows (h : w.Sound) (m : ReplicationMove) :
    ¬ w.Stale m ∧ ((w.step s m).rows = w.rows ∨
        ∃ row : DavReplicationRow, row.Confined ∧ (w.step s m).rows = w.rows ++ [row]) ∨
      ∃ n context existing input patch, m = .resume n context ∧
        w.calls[n]? = some (some (.updating existing input patch)) ∧
        (w.step s m).rows = w.rows.update existing.replicationId patch context.now := by
  cases m with
  | create context call => exact .inl ⟨not_false, .inl rfl⟩
  | update volumeId replicationId input => exact .inl ⟨not_false, .inl rfl⟩
  | resume n context =>
    have hstep : w.step s (.resume n context) = (w.calls[n]?.join).elim w (w.resume s n context) := rfl
    cases hcall : w.calls[n]?.join with
    | none =>
      left
      rw [hstep, hcall]
      refine ⟨?_, .inl rfl⟩
      rintro ⟨existing, input, patch, hfound, -⟩
      rw [hfound] at hcall
      cases hcall
    | some c =>
      have hfound : w.calls[n]? = some (some c) := Option.join_eq_some_iff.mp hcall
      have hchecked := h c (List.mem_of_getElem? hfound)
      rw [hstep, hcall, Option.elim_some]
      by_cases hupdating : ∃ existing input patch, c = .updating existing input patch
      · obtain ⟨existing, input, patch, rfl⟩ := hupdating
        exact .inr ⟨n, context, existing, input, patch, rfl, hfound, rfl⟩
      · left
        constructor
        · rintro ⟨existing, input, patch, hfound', -⟩
          rw [hfound] at hfound'
          exact hupdating ⟨existing, input, patch, Option.some.inj (Option.some.inj hfound')⟩
        · cases c with
          | counting call draft => exact .inl rfl
          | matching call draft => exact .inl rfl
          | sealing call draft => exact .inl rfl
          | reading volumeId replicationId input => exact .inl rfl
          | updating existing input patch => exact absurd ⟨_, _, _, rfl⟩ hupdating
          | inserting row =>
            change ((ReplicationService.insertRow context w.rows row).toOption).getD w.rows = w.rows ∨
              ∃ added : DavReplicationRow, added.Confined ∧
                ((ReplicationService.insertRow context w.rows row).toOption).getD w.rows = w.rows ++ [added]
            unfold ReplicationService.insertRow Replications.create
            split_ifs
            · exact .inl rfl
            · exact .inr ⟨row, hchecked, rfl⟩

theorem getById_update (rows : Replications) (id id' : JsString) (patch : ReplicationPatch) (now : ℕ) :
    (rows.update id' patch now).getById id =
      (rows.getById id).map fun r => if r.replicationId = id' then r.patched patch now else r := by
  unfold Replications.update Replications.getById
  rw [List.find?_map]
  congr 2
  funext r
  dsimp only [Function.comp]
  split <;> rfl

theorem update_confined (hconfined : w.Confined) {existing : DavReplicationRow} {input : ReplicationPatchInput}
    {patch : ReplicationPatch} (hpatch : readPatch existing input = .ok patch) (now : ℕ) :
    (∀ r ∈ w.rows.update existing.replicationId patch now, r.Confined) ↔
      ∀ r ∈ w.rows, r.replicationId = existing.replicationId → ¬ Overtaken r existing input := by
  unfold Replications.update
  rw [List.forall_mem_map]
  constructor
  · intro h r hr hid
    have hpatched := h r hr
    rw [if_pos hid] at hpatched
    exact (patched_confined hpatch (hconfined r hr) now).mp hpatched
  · intro h r hr
    split
    · rename_i hid
      exact (patched_confined hpatch (hconfined r hr) now).mpr (h r hr hid)
    · exact hconfined r hr

/-- One step keeps the rule exactly if the patch it writes, if it writes one, is not stale. -/
theorem step_confined (h : w.Sound) (hconfined : w.Confined) (m : ReplicationMove) :
    (w.step s m).Confined ↔ ¬ w.Stale m := by
  unfold Confined
  rcases step_rows (s := s) h m with ⟨hstale, hrows | ⟨row, hrow, hrows⟩⟩ |
    ⟨n, context, existing, input, patch, rfl, hcall, hrows⟩
  · rw [hrows]
    exact iff_of_true hconfined hstale
  · rw [hrows]
    refine iff_of_true ?_ hstale
    intro r hr
    rcases List.mem_append.mp hr with hr | hr
    · exact hconfined r hr
    · exact List.mem_singleton.mp hr ▸ hrow
  · have hpatch : readPatch existing input = .ok patch := h _ (List.mem_of_getElem? hcall)
    rw [hrows, update_confined hconfined hpatch]
    constructor
    · rintro hfresh ⟨existing', input', patch', hcall', r, hr, hid, hovertaken⟩
      obtain ⟨rfl, rfl, rfl⟩ := UnderWay.updating.inj (Option.some.inj (Option.some.inj (hcall.symm.trans hcall')))
      exact hfresh r hr hid hovertaken
    · intro hstale r hr hid hovertaken
      exact hstale ⟨existing, input, patch, hcall, r, hr, hid, hovertaken⟩

theorem step_comesBackCleared (h : w.Sound) (hconfined : w.Confined) (m : ReplicationMove) :
    w.ComesBackCleared s m := by
  intro id r r' hr hr' hleft hback hflag
  have hclear : r.mirrorDeletions = false := by
    by_contra hset
    exact hleft (hconfined r (List.mem_of_find?_eq_some hr) (by simpa using hset))
  rcases step_rows (s := s) h m with ⟨-, hrows | ⟨row, -, hrows⟩⟩ |
    ⟨n, context, existing, input, patch, rfl, hcall, hrows⟩
  · rw [hrows, hr] at hr'
    obtain rfl := Option.some.inj hr'
    exact absurd hback hleft
  · have hsame : Replications.getById (w.rows ++ [row]) id = some r := by
      unfold Replications.getById at hr ⊢
      rw [List.find?_append, hr, Option.some_or]
    rw [hrows, hsame] at hr'
    obtain rfl := Option.some.inj hr'
    exact absurd hback hleft
  · have hpatch : readPatch existing input = .ok patch := h _ (List.mem_of_getElem? hcall)
    rw [hrows, getById_update, hr] at hr'
    obtain rfl := Option.some.inj hr'
    dsimp only at hback hflag
    by_cases hid : r.replicationId = existing.replicationId
    · rw [if_pos hid] at hflag
      have hfound : r.replicationId = id := by simpa using List.find?_some hr
      exact ⟨existing, input, patch, hcall, hid.symm.trans hfound, patched_sets hpatch hclear hflag⟩
    · rw [if_neg hid] at hback
      exact absurd hback hleft

theorem keepsRule_iff (h : w.Sound) (hconfined : w.Confined) (ms : List ReplicationMove) :
    KeepsRule s w ms ↔ Timely s w ms := by
  induction ms generalizing w with
  | nil => exact iff_of_true hconfined trivial
  | cons m ms ih =>
    have hsound : (w.step s m).Sound := step_sound h m
    have hnext := step_confined (s := s) h hconfined m
    constructor
    · rintro ⟨-, -, hrest⟩
      have hafter : (w.step s m).Confined := by
        cases ms with
        | nil => exact hrest
        | cons _ _ => exact hrest.1
      exact ⟨hnext.mp hafter, (ih hsound hafter).mp hrest⟩
    · rintro ⟨hstale, hrest⟩
      have hafter := hnext.mpr hstale
      exact ⟨hconfined, step_comesBackCleared h hconfined m, (ih hsound hafter).mpr hrest⟩

end Steps

/-- The rule holds in every run of the calls from an empty table, await by await, exactly where no patch that is
written has been overtaken by another. -/
theorem mirror_deletions_confined (s : ReplicationService) (ms : List ReplicationMove) :
    KeepsRule s start ms ↔ Timely s start ms :=
  keepsRule_iff (w := start) (fun _ h => absurd h List.not_mem_nil) (List.forall_mem_nil _) ms

end Replicating

/-! ### Two patches that pass each other -/

def openService : ReplicationService :=
  ⟨Front.asciiCasing, .ok, 5, plainCipher⟩

def photoVolume : CallContext := ⟨[⟨js "v", js "u", js "alice", js "photos", false, .base⟩], 0, 0, true⟩

def pullTarget : ReplicationCreateInput where
  targetKind := .string (js "dav")
  remoteUrl := .string (js "https://b")
  mode := .string (js "pull-only")

def pullCall : CreateCall := ⟨js "v", js "alice/photos", pullTarget, js "a@b", js "r"⟩

/-- One request sets the flag, the other leaves the mode in which it may be set, each on the row without the other. -/
def crossing : List ReplicationMove :=
  [.create photoVolume pullCall, .resume 0 photoVolume, .resume 0 photoVolume, .resume 0 photoVolume,
    .resume 0 photoVolume, .update (js "v") (js "r") { mirrorDeletions := .boolean true },
    .update (js "v") (js "r") { mode := .string (js "sync") }, .resume 1 photoVolume, .resume 2 photoVolume,
    .resume 1 photoVolume, .resume 2 photoVolume]

namespace Replicating

theorem keepsRule_confined {s : ReplicationService} {w : Replicating} {ms : List ReplicationMove}
    (h : KeepsRule s w ms) : (ms.foldl (step s) w).Confined := by
  induction ms generalizing w with
  | nil => exact h
  | cons m ms ih => exact ih h.2.2

/-- A target that syncs both ways is left with the flag. -/
theorem crossing_patches_break_the_rule :
    (crossing.foldl (step openService) start).rows.map (fun r => (r.mode, r.mirrorDeletions)) = [(.sync, true)] ∧
      ¬ KeepsRule openService start crossing := by
  have hrows : (crossing.foldl (step openService) start).rows.map (fun r => (r.mode, r.mirrorDeletions)) =
      [(.sync, true)] := by decide
  refine ⟨hrows, ?_⟩
  intro h
  have hconfined := keepsRule_confined h
  obtain ⟨r, hr, hcolumns⟩ := List.mem_map.mp (hrows ▸ List.mem_cons_self)
  obtain ⟨hmode, hflag⟩ := Prod.mk.inj hcolumns
  rw [hconfined r hr hflag] at hmode
  cases hmode

end Replicating

end DurableDav.Replication
