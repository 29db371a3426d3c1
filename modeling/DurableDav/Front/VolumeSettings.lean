import DurableDav.Replication.ReplicationInput

namespace DurableDav.Front

open Library
open Replication (Unknown)

/-! ### Bodies and errors -/

/-- The body of a request to the JSON plane. An array has none of the keys that are looked up, and no body at all
is an empty object. -/
inductive JsonBody
  | oversized
  | malformed
  | plain (value : Unknown)
  | object (fields : Store JsString Unknown)

inductive VolumeError
  | unauthorized
  | badRequest (message : JsString)
  | forbidden (message : JsString)
  | notFound (message : JsString)
  | payloadTooLarge
  | typeError
  | constraint
  deriving DecidableEq

abbrev Refusable (α : Type) := Except VolumeError α

def toDavHrefPrefixMode (value : Unknown) : Option HrefPrefixMode :=
  if value = .string (js "base") then some .base
  else if value = .string (js "root") then some .root
  else none

def maxVolumeDescriptionLength : ℕ := 500

structure VolumePatchInput where
  description : Unknown
  isPrivate : Unknown
  hrefPrefixMode : Unknown

/-- `none` for what is absent. -/
structure VolumePatch where
  description : Option (Option JsString)
  isPrivate : Option Bool
  hrefPrefixMode : Option HrefPrefixMode

def readDescription (value : Unknown) : Refusable (Option JsString) :=
  match value with
  | .undefined | .null => .ok none
  | .string s =>
    if maxVolumeDescriptionLength < s.length then
      .error (.badRequest (js "Description must be 500 characters or fewer"))
    else .ok (some s)
  | _ => .error (.badRequest (js "Description must be a string or null"))

def readIsPrivate (value : Unknown) : Refusable (Option Bool) :=
  match value with
  | .undefined => .ok none
  | .boolean b => .ok (some b)
  | _ => .error (.badRequest (js "isPrivate must be a boolean"))

def readHrefPrefixMode (value : Unknown) : Refusable (Option HrefPrefixMode) :=
  if value = .undefined then .ok none
  else
    match toDavHrefPrefixMode value with
    | some mode => .ok (some mode)
    | none => .error (.badRequest (js "hrefPrefixMode must be one of: base, root"))

/-- A description that is absent comes out as null, not as absent. -/
def parseVolumePatch (input : VolumePatchInput) : Refusable VolumePatch := do
  let description ← readDescription input.description
  let isPrivate ← readIsPrivate input.isPrivate
  let hrefPrefixMode ← readHrefPrefixMode input.hrefPrefixMode
  .ok ⟨some description, isPrivate, hrefPrefixMode⟩

/-! ### The table -/

structure StoredVolume extends DavVolumeRow where
  ownerEmail : JsString
  description : Option JsString
  createdAt : ℕ
  updatedAt : ℕ

def StoredVolume.patched (r : StoredVolume) (patch : VolumePatch) (now : ℕ) : StoredVolume :=
  { r with
    description := patch.description.getD r.description
    isPrivate := patch.isPrivate.getD r.isPrivate
    hrefPrefixMode := patch.hrefPrefixMode.getD r.hrefPrefixMode
    updatedAt := now }

abbrev StoredVolumes := List StoredVolume

namespace StoredVolumes

variable (C : Casing) (rows : StoredVolumes)

def getByOwnerName (owner name : JsString) : Option StoredVolume :=
  rows.find? fun r => C.toLowerCase r.owner = C.toLowerCase owner ∧ C.toLowerCase r.name = C.toLowerCase name

def getById (id : JsString) : Option StoredVolume := rows.find? fun r => r.id = id

def countByOwnerUserId (ownerUserId : JsString) : ℕ := rows.countP fun r => r.ownerUserId = ownerUserId

def create (row : StoredVolume) : Option StoredVolumes :=
  if rows.any (fun r => r.id = row.id) ∨ (rows.getByOwnerName C row.owner row.name).isSome then none
  else some (rows ++ [row])

def update (id : JsString) (patch : VolumePatch) (now : ℕ) : StoredVolumes :=
  rows.map fun r => if r.id = id then r.patched patch now else r

end StoredVolumes

/-! ### The service and its routes -/

structure ResolvedAccount where
  id : JsString
  anchorEmail : JsString
  username : JsString

/-- The caller as the middleware and the identity service have it. No username is an empty one. -/
structure Caller where
  email : JsString
  userId : Option JsString
  account : Option ResolvedAccount

structure VolumeService where
  casing : Casing
  maxVolumesPerUser : ℕ

inductive VolumeRequest
  | create (caller : Caller) (id : JsString) (now : ℕ) (body : JsonBody)
  | update (caller : Caller) (owner name : JsString) (now : ℕ) (body : JsonBody)

def lookup (fields : Store JsString Unknown) (key : JsString) : Unknown := (fields.get key).getD .undefined

def patchFields (fields : Store JsString Unknown) : VolumePatchInput where
  description := lookup fields (js "description")
  isPrivate := lookup fields (js "isPrivate")
  hrefPrefixMode := lookup fields (js "hrefPrefixMode")

def isFalsy : Unknown → Bool
  | .undefined | .null => true
  | .boolean b => !b
  | .number n => n = 0
  | .string s => s = []
  | .other => false

def trimmedText : Unknown → Refusable JsString
  | .string s => .ok (trim s)
  | _ => .error .typeError

/-- A property of null cannot be read, one of another value that is no object is undefined. -/
def createBody : JsonBody → Refusable (Store JsString Unknown)
  | .oversized => .error .payloadTooLarge
  | .malformed => .error (.badRequest (js "Invalid JSON body"))
  | .plain .null => .error .typeError
  | .plain _ => .ok []
  | .object fields => .ok fields

/-- No value but an object can be asked for a key. -/
def updateBody : JsonBody → Refusable (Store JsString Unknown)
  | .oversized => .error .payloadTooLarge
  | .malformed => .error (.badRequest (js "Invalid JSON body"))
  | .plain _ => .error .typeError
  | .object fields => .ok fields

def requireUser (caller : Caller) : Refusable Unit := if caller.email = [] then .error .unauthorized else .ok ()

def requireCallerAccount (caller : Caller) : Refusable ResolvedAccount :=
  match caller.account with
  | some account => .ok account
  | none => .error (.notFound (js "No account is provisioned for this address; sign in again to provision one"))

namespace VolumeService

variable (s : VolumeService) (rows : StoredVolumes)

def isVolumeOwner (caller : Caller) (volume : StoredVolume) : Bool :=
  if volume.ownerUserId ≠ [] then caller.userId = some volume.ownerUserId
  else s.casing.toLowerCase caller.email = s.casing.toLowerCase volume.ownerEmail

def requireCallerUsername (account : ResolvedAccount) : Refusable JsString :=
  if account.username = [] then
    .error (.notFound (js "No username is provisioned for this account; set one via PATCH /user/me/username"))
  else .ok (s.casing.toLowerCase account.username)

/-- The row that `createVolume` would write. -/
def newVolume (caller : Caller) (id : JsString) (now : ℕ) (fields : Store JsString Unknown) :
    Refusable StoredVolume := do
  let patch ← parseVolumePatch (patchFields fields)
  let owner ← trimmedText (lookup fields (js "owner"))
  if !isValidUsername owner then .error (.badRequest (js "Invalid owner name"))
  else
    let name ← trimmedText (lookup fields (js "name"))
    if !isValidVolumeName name then .error (.badRequest (js "Invalid volume name"))
    else
      let account ← requireCallerAccount caller
      let callerUsername ← s.requireCallerUsername account
      if s.casing.toLowerCase owner ≠ callerUsername then
        .error (.forbidden (js "Only the bucket owner can create buckets for this user"))
      else if s.maxVolumesPerUser ≤ rows.countByOwnerUserId account.id then
        .error (.badRequest (js "Maximum " ++ decimal s.maxVolumesPerUser ++ js " volumes per user"))
      else if (rows.getByOwnerName s.casing owner name).isSome then
        .error (.badRequest (js "Volume already exists"))
      else
        .ok {
          id := id
          ownerUserId := account.id
          owner := owner
          name := name
          isPrivate := patch.isPrivate.getD true
          hrefPrefixMode := patch.hrefPrefixMode.getD .base
          ownerEmail := account.anchorEmail
          description := patch.description.getD none
          createdAt := now
          updatedAt := now }

def createVolume (caller : Caller) (id : JsString) (now : ℕ) (fields : Store JsString Unknown) :
    Refusable StoredVolume × StoredVolumes :=
  match s.newVolume rows caller id now fields with
  | .error e => (.error e, rows)
  | .ok row =>
    match rows.create s.casing row with
    | none => (.error .constraint, rows)
    | some rows' =>
      match rows'.getById id with
      | some created => (.ok created, rows')
      | none => (.error (.notFound (js "Volume not found after create")), rows')

def handleCreateVolume (caller : Caller) (id : JsString) (now : ℕ) (body : JsonBody) :
    Refusable StoredVolume × StoredVolumes :=
  match requireUser caller >>= fun _ => createBody body with
  | .error e => (.error e, rows)
  | .ok fields =>
    if isFalsy (lookup fields (js "owner")) ∨ isFalsy (lookup fields (js "name")) then
      (.error (.badRequest (js "owner and name are required")), rows)
    else s.createVolume rows caller id now fields

/-- The row that `updateVolume` is allowed to change, and how. -/
def plannedUpdate (caller : Caller) (owner name : JsString) (rawPatch : VolumePatchInput) :
    Refusable (StoredVolume × VolumePatch) := do
  let patch ← parseVolumePatch rawPatch
  match rows.getByOwnerName s.casing owner name with
  | none => .error (.notFound (js "Volume not found"))
  | some volume =>
    if !s.isVolumeOwner caller volume then
      .error (.forbidden (js "Only the bucket owner can update this bucket"))
    else if rawPatch.description = .undefined ∧ rawPatch.isPrivate = .undefined ∧
        rawPatch.hrefPrefixMode = .undefined then
      .error (.badRequest (js "Nothing to update"))
    else .ok (volume, patch)

def updateVolume (caller : Caller) (owner name : JsString) (now : ℕ) (rawPatch : VolumePatchInput) :
    Refusable StoredVolume × StoredVolumes :=
  match s.plannedUpdate rows caller owner name rawPatch with
  | .error e => (.error e, rows)
  | .ok (volume, patch) =>
    let rows' := rows.update volume.id patch now
    match rows'.getById volume.id with
    | some updated => (.ok updated, rows')
    | none => (.error (.notFound (js "Volume not found after update")), rows')

/-- The guard of the volume's routes: the row that the URL names, for its owner. -/
def guarded (caller : Caller) (owner name : JsString) : Refusable StoredVolume := do
  requireUser caller
  match rows.getByOwnerName s.casing (trim owner) (trim name) with
  | none => .error (.notFound (js "Volume not found"))
  | some row => if !s.isVolumeOwner caller row then .error (.forbidden (js "Forbidden")) else .ok row

def handleUpdateVolume (caller : Caller) (owner name : JsString) (now : ℕ) (body : JsonBody) :
    Refusable StoredVolume × StoredVolumes :=
  match s.guarded rows caller owner name with
  | .error e => (.error e, rows)
  | .ok row =>
    match updateBody body with
    | .error e => (.error e, rows)
    | .ok fields => s.updateVolume rows caller row.owner row.name now (patchFields fields)

def serve : VolumeRequest → Refusable StoredVolume × StoredVolumes
  | .create caller id now body => s.handleCreateVolume rows caller id now body
  | .update caller owner name now body => s.handleUpdateVolume rows caller owner name now body

end VolumeService

/-! ### What was last asked for -/

structure VolumeSettings where
  description : Option JsString
  isPrivate : Bool
  hrefPrefixMode : HrefPrefixMode

def StoredVolume.settings (r : StoredVolume) : VolumeSettings := ⟨r.description, r.isPrivate, r.hrefPrefixMode⟩

def namedDescription (asked : Option JsString) : Unknown → Option JsString
  | .null => none
  | .string s => some s
  | _ => asked

def namedPrivacy (asked : Bool) : Unknown → Bool
  | .boolean b => b
  | _ => asked

namespace VolumeSettings

/-- A volume is private, without a description and in the default mode. -/
def initial : VolumeSettings := ⟨none, true, .base⟩

/-- The settings, those that a request names replaced. -/
def naming (asked : VolumeSettings) (input : VolumePatchInput) : VolumeSettings where
  description := namedDescription asked.description input.description
  isPrivate := namedPrivacy asked.isPrivate input.isPrivate
  hrefPrefixMode := (toDavHrefPrefixMode input.hrefPrefixMode).getD asked.hrefPrefixMode

end VolumeSettings

def JsonBody.input : JsonBody → VolumePatchInput
  | .object fields => patchFields fields
  | _ => patchFields []

def VolumeRequest.input : VolumeRequest → VolumePatchInput
  | .create _ _ _ body => body.input
  | .update _ _ _ _ body => body.input

/-- By the volume's id. -/
abbrev Asked := JsString → VolumeSettings

def VolumeRequest.upon (asked : Asked) (id : JsString) : VolumeRequest → VolumeSettings
  | .create _ _ _ _ => VolumeSettings.initial
  | .update _ _ _ _ _ => asked id

def Asked.note (asked : Asked) (r : VolumeRequest) : Refusable StoredVolume → Asked
  | .error _ => asked
  | .ok row => Function.update asked row.id ((r.upon asked row.id).naming r.input)

def Agrees (rows : StoredVolumes) (asked : Asked) : Prop := ∀ r ∈ rows, r.settings = asked r.id

/-- Every row has what was last asked for, now and after each of the requests. -/
def Follows (s : VolumeService) (rows : StoredVolumes) (asked : Asked) : List VolumeRequest → Prop
  | [] => Agrees rows asked
  | r :: rs => Agrees rows asked ∧ Follows s (s.serve rows r).2 (asked.note r (s.serve rows r).1) rs

/-- A well-formed change of the privacy or the mode, in which there is no word of the description. -/
structure VolumePatchInput.LeavesDescription (input : VolumePatchInput) : Prop where
  description : input.description = .undefined
  isPrivate : input.isPrivate = .undefined ∨ ∃ b, input.isPrivate = .boolean b
  hrefPrefixMode : input.hrefPrefixMode = .undefined ∨ (toDavHrefPrefixMode input.hrefPrefixMode).isSome
  some : input.isPrivate ≠ .undefined ∨ input.hrefPrefixMode ≠ .undefined

/-- The owner of a volume with a description changes another setting of it. -/
def VolumeRequest.Erases (s : VolumeService) (rows : StoredVolumes) : VolumeRequest → Prop
  | .create _ _ _ _ => False
  | .update caller owner name _ body => caller.email ≠ [] ∧ ∃ fields row, body = .object fields ∧
    rows.getByOwnerName s.casing (trim owner) (trim name) = some row ∧ s.isVolumeOwner caller row ∧
    row.description ≠ none ∧ (patchFields fields).LeavesDescription

def Spared (s : VolumeService) (rows : StoredVolumes) : List VolumeRequest → Prop
  | [] => True
  | r :: rs => ¬ r.Erases s rows ∧ Spared s (s.serve rows r).2 rs

section Settings

variable {s : VolumeService} {rows : StoredVolumes} {asked : Asked}

theorem parse_cases {input : VolumePatchInput} {patch : VolumePatch} (h : parseVolumePatch input = .ok patch) :
    ∃ description isPrivate mode, readDescription input.description = .ok description ∧
      readIsPrivate input.isPrivate = .ok isPrivate ∧ readHrefPrefixMode input.hrefPrefixMode = .ok mode ∧
      patch = ⟨some description, isPrivate, mode⟩ := by
  unfold parseVolumePatch at h
  cases hdescription : readDescription input.description with
  | error e =>
    rw [hdescription] at h
    cases h
  | ok description =>
    cases hprivate : readIsPrivate input.isPrivate with
    | error e =>
      rw [hdescription, hprivate] at h
      cases h
    | ok isPrivate =>
      cases hmode : readHrefPrefixMode input.hrefPrefixMode with
      | error e =>
        rw [hdescription, hprivate, hmode] at h
        cases h
      | ok mode =>
        rw [hdescription, hprivate, hmode] at h
        exact ⟨description, isPrivate, mode, rfl, rfl, rfl, (Except.ok.inj h).symm⟩

theorem readDescription_named {value : Unknown} {description : Option JsString}
    (h : readDescription value = .ok description) :
    value = .undefined ∧ description = none ∨
      value ≠ .undefined ∧ ∀ asked, namedDescription asked value = description := by
  cases value with
  | undefined => exact .inl ⟨rfl, (Except.ok.inj h).symm⟩
  | null =>
    refine .inr ⟨nofun, fun asked => ?_⟩
    exact Except.ok.inj h
  | string text =>
    refine .inr ⟨nofun, fun asked => ?_⟩
    unfold readDescription at h
    dsimp only at h
    split at h
    · cases h
    · exact Except.ok.inj h
  | boolean b => cases h
  | number n => cases h
  | other => cases h

theorem readIsPrivate_named {value : Unknown} {isPrivate : Option Bool} (h : readIsPrivate value = .ok isPrivate)
    (asked : Bool) : isPrivate.getD asked = namedPrivacy asked value := by
  cases value with
  | undefined =>
    obtain rfl := Except.ok.inj h
    rfl
  | boolean b =>
    obtain rfl := Except.ok.inj h
    rfl
  | null => cases h
  | string text => cases h
  | number n => cases h
  | other => cases h

theorem readHrefPrefixMode_named {value : Unknown} {mode : Option HrefPrefixMode}
    (h : readHrefPrefixMode value = .ok mode) : mode = toDavHrefPrefixMode value := by
  unfold readHrefPrefixMode at h
  split at h
  · rename_i hvalue
    obtain rfl := Except.ok.inj h
    rw [hvalue]
    rfl
  · split at h
    · rename_i found hfound
      rw [hfound]
      exact (Except.ok.inj h).symm
    · cases h

theorem readIsPrivate_ok {value : Unknown} :
    (∃ isPrivate, readIsPrivate value = .ok isPrivate) ↔ value = .undefined ∨ ∃ b, value = .boolean b := by
  cases value <;> simp [readIsPrivate]

theorem readHrefPrefixMode_ok {value : Unknown} :
    (∃ mode, readHrefPrefixMode value = .ok mode) ↔ value = .undefined ∨ (toDavHrefPrefixMode value).isSome := by
  unfold readHrefPrefixMode
  by_cases hvalue : value = .undefined
  · simp [hvalue]
  · cases hmode : toDavHrefPrefixMode value with
    | none => simp [hvalue]
    | some mode => simp [hvalue]

theorem getByOwnerName_again {C : Casing} {owner name : JsString} {row : StoredVolume}
    (h : rows.getByOwnerName C owner name = some row) : rows.getByOwnerName C row.owner row.name = some row := by
  have hrow := List.find?_some h
  rw [decide_eq_true_eq] at hrow
  unfold StoredVolumes.getByOwnerName
  rw [hrow.1, hrow.2]
  exact h

theorem getById_update {row : StoredVolume} (h : row ∈ rows) (patch : VolumePatch) (now : ℕ) :
    ∃ updated, (rows.update row.id patch now).getById row.id = some updated ∧ updated.id = row.id := by
  have hfound : ((rows.update row.id patch now).getById row.id).isSome := by
    unfold StoredVolumes.getById StoredVolumes.update
    rw [List.find?_isSome]
    refine ⟨row.patched patch now, List.mem_map.mpr ⟨row, h, if_pos rfl⟩, ?_⟩
    exact decide_eq_true rfl
  obtain ⟨updated, hupdated⟩ := Option.isSome_iff_exists.mp hfound
  exact ⟨updated, hupdated, by simpa using List.find?_some hupdated⟩

/-- What an update that is let through does. -/
theorem handleUpdate_ok {caller : Caller} {owner name : JsString} {fields : Store JsString Unknown}
    {row : StoredVolume} {patch : VolumePatch} (now : ℕ) (hcaller : caller.email ≠ [])
    (hrow : rows.getByOwnerName s.casing (trim owner) (trim name) = some row) (howner : s.isVolumeOwner caller row = true)
    (hpatch : parseVolumePatch (patchFields fields) = .ok patch)
    (hsome : ¬ ((patchFields fields).description = .undefined ∧ (patchFields fields).isPrivate = .undefined ∧
      (patchFields fields).hrefPrefixMode = .undefined)) :
    ∃ updated, updated.id = row.id ∧
      s.handleUpdateVolume rows caller owner name now (.object fields) =
        (.ok updated, rows.update row.id patch now) := by
  have hguard : s.guarded rows caller owner name = .ok row := by
    unfold VolumeService.guarded requireUser
    rw [if_neg hcaller, hrow]
    simp [bind, Except.bind, howner]
  have hplan : s.plannedUpdate rows caller row.owner row.name (patchFields fields) = .ok (row, patch) := by
    unfold VolumeService.plannedUpdate
    rw [hpatch, getByOwnerName_again hrow]
    simp [bind, Except.bind, howner, hsome]
  obtain ⟨updated, hupdated, hid⟩ := getById_update (List.mem_of_find?_eq_some hrow) patch now
  refine ⟨updated, hid, ?_⟩
  unfold VolumeService.handleUpdateVolume VolumeService.updateVolume
  rw [hguard]
  dsimp only [updateBody]
  rw [hplan]
  dsimp only
  rw [hupdated]

theorem guarded_ok {caller : Caller} {owner name : JsString} {row : StoredVolume}
    (h : s.guarded rows caller owner name = .ok row) :
    caller.email ≠ [] ∧ rows.getByOwnerName s.casing (trim owner) (trim name) = some row ∧
      s.isVolumeOwner caller row = true := by
  unfold VolumeService.guarded requireUser at h
  by_cases hcaller : caller.email = []
  · rw [if_pos hcaller] at h
    cases h
  · rw [if_neg hcaller] at h
    simp only [bind, Except.bind] at h
    split at h
    · cases h
    · rename_i found hfound
      split at h
      · cases h
      · rename_i howner
        obtain rfl := Except.ok.inj h
        exact ⟨hcaller, hfound, by simpa using howner⟩

theorem plannedUpdate_ok {caller : Caller} {owner name : JsString} {input : VolumePatchInput} {row : StoredVolume}
    {patch : VolumePatch} (h : s.plannedUpdate rows caller owner name input = .ok (row, patch)) :
    parseVolumePatch input = .ok patch ∧ rows.getByOwnerName s.casing owner name = some row ∧
      ¬ (input.description = .undefined ∧ input.isPrivate = .undefined ∧ input.hrefPrefixMode = .undefined) := by
  unfold VolumeService.plannedUpdate at h
  cases hparse : parseVolumePatch input with
  | error e =>
    rw [hparse] at h
    cases h
  | ok parsed =>
    rw [hparse] at h
    simp only [bind, Except.bind] at h
    split at h
    · cases h
    · rename_i found hfound
      split at h
      · cases h
      · split at h
        · cases h
        · rename_i hsome
          obtain ⟨rfl, rfl⟩ := Prod.mk.inj (Except.ok.inj h)
          exact ⟨rfl, hfound, hsome⟩

theorem handleUpdate_cases (caller : Caller) (owner name : JsString) (now : ℕ) (body : JsonBody) :
    (∃ e, s.handleUpdateVolume rows caller owner name now body = (.error e, rows)) ∨
    ∃ fields row patch updated, caller.email ≠ [] ∧ body = .object fields ∧
      rows.getByOwnerName s.casing (trim owner) (trim name) = some row ∧ s.isVolumeOwner caller row = true ∧
      parseVolumePatch (patchFields fields) = .ok patch ∧
      ¬ ((patchFields fields).description = .undefined ∧ (patchFields fields).isPrivate = .undefined ∧
        (patchFields fields).hrefPrefixMode = .undefined) ∧ updated.id = row.id ∧
      s.handleUpdateVolume rows caller owner name now body = (.ok updated, rows.update row.id patch now) := by
  cases hguard : s.guarded rows caller owner name with
  | error e =>
    left
    unfold VolumeService.handleUpdateVolume
    rw [hguard]
    exact ⟨e, rfl⟩
  | ok row =>
    obtain ⟨hcaller, hrow, howner⟩ := guarded_ok hguard
    cases body with
    | oversized =>
      left
      unfold VolumeService.handleUpdateVolume
      rw [hguard]
      exact ⟨_, rfl⟩
    | malformed =>
      left
      unfold VolumeService.handleUpdateVolume
      rw [hguard]
      exact ⟨_, rfl⟩
    | plain value =>
      left
      unfold VolumeService.handleUpdateVolume
      rw [hguard]
      exact ⟨_, rfl⟩
    | object fields =>
      cases hplan : s.plannedUpdate rows caller row.owner row.name (patchFields fields) with
      | error e =>
        left
        unfold VolumeService.handleUpdateVolume VolumeService.updateVolume
        rw [hguard]
        dsimp only [updateBody]
        rw [hplan]
        exact ⟨e, rfl⟩
      | ok planned =>
        obtain ⟨volume, patch⟩ := planned
        obtain ⟨hpatch, -, hsome⟩ := plannedUpdate_ok hplan
        obtain ⟨updated, hid, hrun⟩ := handleUpdate_ok now hcaller hrow howner hpatch hsome
        exact .inr ⟨fields, row, patch, updated, hcaller, rfl, hrow, howner, hpatch, hsome, hid, hrun⟩

theorem parse_initial {input : VolumePatchInput} {patch : VolumePatch} (h : parseVolumePatch input = .ok patch) :
    (⟨patch.description.getD none, patch.isPrivate.getD true, patch.hrefPrefixMode.getD .base⟩ : VolumeSettings) =
      VolumeSettings.initial.naming input := by
  obtain ⟨description, isPrivate, mode, hdescription, hprivate, hmode, rfl⟩ := parse_cases h
  unfold VolumeSettings.naming VolumeSettings.initial
  rw [VolumeSettings.mk.injEq]
  refine ⟨?_, readIsPrivate_named hprivate true, ?_⟩
  · rcases readDescription_named hdescription with ⟨hvalue, rfl⟩ | ⟨-, hnamed⟩
    · rw [hvalue]
      rfl
    · exact (hnamed none).symm
  · rw [readHrefPrefixMode_named hmode]

theorem newVolume_ok {caller : Caller} {id : JsString} {now : ℕ} {fields : Store JsString Unknown}
    {row : StoredVolume} (h : s.newVolume rows caller id now fields = .ok row) :
    row.id = id ∧ row.settings = VolumeSettings.initial.naming (patchFields fields) := by
  unfold VolumeService.newVolume at h
  obtain ⟨patch, hpatch, h⟩ := except_bind h
  obtain ⟨owner, -, h⟩ := except_bind h
  split at h
  · cases h
  · obtain ⟨name, -, h⟩ := except_bind h
    split at h
    · cases h
    · obtain ⟨account, -, h⟩ := except_bind h
      obtain ⟨callerUsername, -, h⟩ := except_bind h
      split at h
      · cases h
      · split at h
        · cases h
        · split at h
          · cases h
          · obtain rfl := Except.ok.inj h
            exact ⟨rfl, parse_initial hpatch⟩

/-- A creation leaves the table or adds one row to it, of a fresh id and as the request asks. -/
theorem handleCreate_cases (caller : Caller) (id : JsString) (now : ℕ) (body : JsonBody) :
    (∃ e, s.handleCreateVolume rows caller id now body = (.error e, rows)) ∨
    ∃ row, row.id = id ∧ (∀ r ∈ rows, r.id ≠ id) ∧ row.settings = VolumeSettings.initial.naming body.input ∧
      s.handleCreateVolume rows caller id now body = (.ok row, rows ++ [row]) := by
  unfold VolumeService.handleCreateVolume
  cases hbody : requireUser caller >>= fun _ => createBody body with
  | error e => exact .inl ⟨e, rfl⟩
  | ok fields =>
    dsimp only
    split
    · exact .inl ⟨_, rfl⟩
    · rename_i hnames
      obtain ⟨-, -, hfields⟩ := except_bind hbody
      have hinput : body.input = patchFields fields := by
        cases body with
        | oversized => cases hfields
        | malformed => cases hfields
        | plain value =>
          cases value <;> cases hfields <;> exact absurd (.inl rfl) hnames
        | object found =>
          obtain rfl := Except.ok.inj hfields
          rfl
      rw [hinput]
      unfold VolumeService.createVolume
      cases hrow : s.newVolume rows caller id now fields with
      | error e => exact .inl ⟨e, rfl⟩
      | ok row =>
        obtain ⟨hid, hsettings⟩ := newVolume_ok hrow
        unfold StoredVolumes.create
        dsimp only
        split_ifs with htaken
        · exact .inl ⟨_, rfl⟩
        · have hfresh : ∀ r ∈ rows, r.id ≠ id := by
            intro r hr hsame
            apply htaken
            left
            rw [List.any_eq_true]
            exact ⟨r, hr, by simp [hsame, hid]⟩
          have hfound : StoredVolumes.getById (rows ++ [row]) id = some row := by
            unfold StoredVolumes.getById
            rw [List.find?_append, List.find?_eq_none.mpr (by simpa using hfresh)]
            simp [hid]
          right
          dsimp only
          rw [hfound]
          exact ⟨row, hid, hfresh, hsettings, rfl⟩

theorem patched_settings {input : VolumePatchInput} {patch : VolumePatch} (h : parseVolumePatch input = .ok patch)
    (r : StoredVolume) (now : ℕ) : (r.patched patch now).settings = r.settings.naming input ↔
      (input.description = .undefined → r.description = none) := by
  obtain ⟨description, isPrivate, mode, hdescription, hprivate, hmode, rfl⟩ := parse_cases h
  obtain rfl := readHrefPrefixMode_named hmode
  unfold StoredVolume.settings StoredVolume.patched VolumeSettings.naming
  rw [VolumeSettings.mk.injEq]
  dsimp only [Option.getD_some]
  rw [readIsPrivate_named hprivate r.isPrivate]
  rcases readDescription_named hdescription with ⟨hvalue, rfl⟩ | ⟨hvalue, hnamed⟩
  · rw [hvalue]
    unfold namedDescription
    simp [eq_comm]
  · rw [hnamed]
    simp [hvalue]

/-- A well-formed update without a description is let through if it has another field. -/
theorem LeavesDescription.parse {input : VolumePatchInput} (h : input.LeavesDescription) :
    ∃ patch, parseVolumePatch input = .ok patch := by
  obtain ⟨isPrivate, hprivate⟩ := readIsPrivate_ok.mpr h.isPrivate
  obtain ⟨mode, hmode⟩ := readHrefPrefixMode_ok.mpr h.hrefPrefixMode
  unfold parseVolumePatch
  rw [h.description, hprivate, hmode]
  exact ⟨_, rfl⟩

theorem leavesDescription_of_parse {input : VolumePatchInput} {patch : VolumePatch}
    (h : parseVolumePatch input = .ok patch) (hdescription : input.description = .undefined)
    (hsome : ¬ (input.description = .undefined ∧ input.isPrivate = .undefined ∧ input.hrefPrefixMode = .undefined)) :
    input.LeavesDescription := by
  obtain ⟨-, isPrivate, mode, -, hprivate, hmode, -⟩ := parse_cases h
  exact ⟨hdescription, readIsPrivate_ok.mp ⟨_, hprivate⟩, readHrefPrefixMode_ok.mp ⟨_, hmode⟩, by tauto⟩

theorem agrees_create {row : StoredVolume} (h : Agrees rows asked) (hfresh : ∀ r ∈ rows, r.id ≠ row.id)
    {settings : VolumeSettings} (hrow : row.settings = settings) :
    Agrees (rows ++ [row]) (Function.update asked row.id settings) := by
  intro r hr
  rcases List.mem_append.mp hr with hr | hr
  · rw [Function.update_of_ne (hfresh r hr)]
    exact h r hr
  · rw [List.mem_singleton.mp hr, Function.update_self]
    exact hrow

theorem agrees_update {input : VolumePatchInput} {patch : VolumePatch} {row : StoredVolume} (h : Agrees rows asked)
    (hrow : row ∈ rows) (hpatch : parseVolumePatch input = .ok patch) (now : ℕ) :
    Agrees (rows.update row.id patch now) (Function.update asked row.id ((asked row.id).naming input)) ↔
      (input.description = .undefined → row.description = none) := by
  constructor
  · intro hagrees
    have hmem : row.patched patch now ∈ rows.update row.id patch now :=
      List.mem_map.mpr ⟨row, hrow, if_pos rfl⟩
    have hsettings := hagrees _ hmem
    change _ = Function.update asked row.id _ row.id at hsettings
    rw [Function.update_self, ← h row hrow] at hsettings
    exact (patched_settings hpatch row now).mp hsettings
  · intro hnone r hr
    obtain ⟨old, hold, rfl⟩ := List.mem_map.mp hr
    by_cases hid : old.id = row.id
    · rw [if_pos hid]
      change _ = Function.update asked row.id _ old.id
      have hsame : old.settings = row.settings := by rw [h old hold, h row hrow, hid]
      have hdescription : old.description = row.description := congrArg VolumeSettings.description hsame
      rw [hid, Function.update_self, ← h row hrow, ← hsame]
      exact (patched_settings hpatch old now).mpr fun hundefined => hdescription.trans (hnone hundefined)
    · rw [if_neg hid, Function.update_of_ne hid]
      exact h old hold

/-- One request keeps the rows to what was asked for unless it erases a description. -/
theorem serve_agrees (h : Agrees rows asked) (r : VolumeRequest) :
    Agrees (s.serve rows r).2 (asked.note r (s.serve rows r).1) ↔ ¬ r.Erases s rows := by
  cases r with
  | create caller id now body =>
    refine iff_of_true ?_ not_false
    change Agrees (s.handleCreateVolume rows caller id now body).2
      (asked.note _ (s.handleCreateVolume rows caller id now body).1)
    rcases handleCreate_cases caller id now body with ⟨e, hrun⟩ | ⟨row, hid, hfresh, hsettings, hrun⟩
    · rw [hrun]
      exact h
    · rw [hrun]
      exact agrees_create h (hid ▸ hfresh) hsettings
  | update caller owner name now body =>
    change Agrees (s.handleUpdateVolume rows caller owner name now body).2
      (asked.note _ (s.handleUpdateVolume rows caller owner name now body).1) ↔ _
    rcases handleUpdate_cases caller owner name now body with ⟨e, hrun⟩ |
      ⟨fields, row, patch, updated, hcaller, rfl, hrow, howner, hpatch, hsome, hid, hrun⟩
    · rw [hrun]
      refine iff_of_true h ?_
      rintro ⟨hcaller, fields, row, rfl, hrow, howner, -, hleaves⟩
      obtain ⟨patch, hpatch⟩ := LeavesDescription.parse hleaves
      obtain ⟨updated, -, hok⟩ := handleUpdate_ok now hcaller hrow howner hpatch fun hnone =>
        hleaves.some.elim (fun hne => hne hnone.2.1) (fun hne => hne hnone.2.2)
      rw [hok] at hrun
      cases hrun
    · rw [hrun]
      change Agrees _ (Function.update asked updated.id ((asked updated.id).naming (patchFields fields))) ↔ _
      rw [hid, agrees_update h (List.mem_of_find?_eq_some hrow) hpatch now]
      constructor
      · rintro hnone ⟨-, fields', row', hbody, hrow', -, hdescription, hleaves⟩
        obtain rfl := JsonBody.object.inj hbody
        obtain rfl := Option.some.inj (hrow.symm.trans hrow')
        exact hdescription (hnone hleaves.description)
      · intro hspared hundefined
        by_contra hdescription
        exact hspared ⟨hcaller, fields, row, rfl, hrow, howner, hdescription,
          leavesDescription_of_parse hpatch hundefined hsome⟩

theorem follows_iff (h : Agrees rows asked) (rs : List VolumeRequest) :
    Follows s rows asked rs ↔ Spared s rows rs := by
  induction rs generalizing rows asked with
  | nil => exact iff_of_true h trivial
  | cons r rs ih =>
    by_cases hstep : r.Erases s rows
    · refine iff_of_false ?_ fun hspared => hspared.1 hstep
      rintro ⟨-, hrest⟩
      have hagrees : Agrees (s.serve rows r).2 (asked.note r (s.serve rows r).1) := by
        cases rs with
        | nil => exact hrest
        | cons _ _ => exact hrest.1
      exact (serve_agrees h r).mp hagrees hstep
    · have hnext := (serve_agrees h r).mpr hstep
      constructor
      · rintro ⟨-, hrest⟩
        exact ⟨hstep, (ih hnext).mp hrest⟩
      · rintro ⟨-, hrest⟩
        exact ⟨h, (ih hnext).mpr hrest⟩

end Settings

/-- The settings of every volume are what was last asked for, in every run from an empty table, exactly where no
update of the privacy or the mode meets a volume with a description. -/
theorem settings_follow (s : VolumeService) (asked : Asked) (rs : List VolumeRequest) :
    Follows s [] asked rs ↔ Spared s [] rs :=
  follows_iff (List.forall_mem_nil _) rs

/-! ### A description that is lost -/

def settingsService : VolumeService := ⟨asciiCasing, 10⟩

def alice : Caller := ⟨js "a@b", some (js "1"), some ⟨js "1", js "a@b", js "alice"⟩⟩

def createDescribed : VolumeRequest :=
  .create alice (js "v1") 1 (.object [(js "owner", .string (js "alice")), (js "name", .string (js "v")),
    (js "description", .string (js "notes"))])

def makePublic : VolumeRequest :=
  .update alice (js "alice") (js "v") 2 (.object [(js "isPrivate", .boolean false)])

def describedRows : StoredVolumes := (settingsService.serve [] createDescribed).2

/-- A volume that is made public loses its description. -/
theorem description_lost :
    describedRows.map StoredVolume.description = [some (js "notes")] ∧
    (settingsService.serve describedRows makePublic).2.map StoredVolume.description = [none] ∧
    ¬ Follows settingsService [] (fun _ => VolumeSettings.initial) [createDescribed, makePublic] := by
  refine ⟨by decide, by decide, ?_⟩
  intro h
  have hspared := (follows_iff (List.forall_mem_nil _) _).mp h
  apply hspared.2.1
  have hrow : describedRows.getByOwnerName asciiCasing (trim (js "alice")) (trim (js "v")) =
      some ⟨⟨js "v1", js "1", js "alice", js "v", true, .base⟩, js "a@b", some (js "notes"), 1, 1⟩ := rfl
  exact ⟨by decide, _, _, rfl, hrow, by decide, by decide, rfl, .inr ⟨false, rfl⟩, .inl rfl, .inl (by decide)⟩

end DurableDav.Front
