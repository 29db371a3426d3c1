import DurableDav.Front.DavAuth
import DurableDav.Front.HonestVerdicts

namespace DurableDav.Front

open Library
open Dav (Platform)

/-- A credential that admits a request to a volume: active, bound to it, accepting the password that was sent. -/
structure Admits (D : Digests) (db : Database) (now : ℕ) (volume : DavVolumeRow) (basic : BasicCredentials)
    (needWrite : Bool) (credential : DavCredentialRow) : Prop where
  known : credential ∈ db.credentials
  username : credential.username = basic.username
  active : now < credential.expiresAt
  accepts : D.accepts basic.password credential.passwordHash = true
  bound : credential.volumeId = volume.id
  writable : needWrite = true → credential.readOnly = false

/-- What a request needs to be handed to the object of a volume, and what it may do there. -/
structure Authorised (D : Digests) (C : Casing) (db : Database) (now : ℕ) (r : DavRequest) (f : Forwarded)
    (volume : DavVolumeRow) : Prop where
  addressed : db.volumes.getByOwnerName C r.owner r.volume = some volume
  key : f.key = normalizeVolumeKey C r.owner r.volume
  method : f.method = r.method
  credential : ∀ basic, getBasicCredentials C (r.headers.get (js "authorization")) = some basic →
    ∃ credential, Admits D db now volume basic (requiresWrite r.method) credential
  anonymous : getBasicCredentials C (r.headers.get (js "authorization")) = none →
    requiresWrite r.method = false ∧ volume.isPrivate = false
  destination : ∀ d, f.headers.get (js "destination") = some d → (r.method = js "COPY" ∨ r.method = js "MOVE") ∧
    ∃ origin inner, d = origin ++ pathBaseOf volume.owner volume.name ++ slash :: inner
  others : ∀ other ∈ db.volumes,
    ¬ (C.toLowerCase other.owner = C.toLowerCase r.owner ∧ C.toLowerCase other.name = C.toLowerCase r.volume) →
      ∀ (V : Type) (object : Forwarded → V → V) (objects : JsString → V),
        deliver object f objects (normalizeVolumeKey C other.owner other.name) =
          objects (normalizeVolumeKey C other.owner other.name)

section Credentials

variable {D : Digests} {C : Casing} {w : Deployment} {n now : ℕ} {db : Database} {volume : DavVolumeRow}
  {basic : BasicCredentials} {needWrite : Bool}

theorem verdictOf_honest (h : w.Honest D) {body : VerifyRequestBody} {o : VerifyOutcome}
    (ho : w.verdictOf n body = some o) : o.True D body := by
  obtain ⟨call, hcall, ho⟩ := Option.bind_eq_some_iff.mp ho
  obtain ⟨hbody, ho⟩ := Option.ite_none_right_eq_some.mp ho
  cases hphase : call.phase with
  | done o' =>
    rw [hphase] at ho
    rw [← hbody, ← Option.some.inj ho]
    exact h.answers n call o' hcall hphase
  | fingerprinting => simp [hphase] at ho
  | asking => simp [hphase] at ho
  | verifying => simp [hphase] at ho
  | rehashing => simp [hphase] at ho

theorem active_found {credential : DavCredentialRow} {username : JsString}
    (h : db.getActiveByUsername now username = .ok (some credential)) :
    credential ∈ db.credentials ∧ credential.username = username ∧ now < credential.expiresAt := by
  unfold Database.getActiveByUsername at h
  split at h
  · cases h
  · have hfind := Except.ok.inj h
    have hprop := List.find?_some hfind
    exact ⟨List.mem_of_find?_eq_some hfind, of_decide_eq_true hprop⟩

theorem authByCredential_admits (h : w.Honest D) {auth : DavAuthResult}
    (ha : authByCredential w n db now volume basic needWrite = .ok auth) :
    (∃ credential, Admits D db now volume basic needWrite credential) ∧ auth.owner = volume.owner ∧
      auth.volume = volume.name := by
  unfold authByCredential at ha
  split at ha
  · cases ha
  · cases ha
  · rename_i credential hactive
    obtain ⟨hknown, husername, hexpires⟩ := active_found hactive
    split at ha
    · cases ha
    · rename_i o ho
      by_cases hok : o.ok = true
      · by_cases hbound : credential.volumeId = volume.id
        · by_cases hwrite : (needWrite && credential.readOnly) = true
          · simp [hok, hbound, hwrite] at ha
          · simp only [hok, hbound, hwrite, Bool.not_true, Bool.false_eq_true, ↓reduceIte, ne_eq,
              not_true_eq_false, Except.ok.injEq] at ha
            refine ⟨⟨credential, hknown, husername, hexpires, (verdictOf_honest h ho).mp hok, hbound, ?_⟩, ?_⟩
            · intro hneed
              simpa [hneed] using hwrite
            · rw [← ha]
              exact ⟨rfl, rfl⟩
        · simp [hok, hbound] at ha
      · simp [hok] at ha

theorem getVolume_found {owner name : JsString} (h : db.getVolume C owner name = .ok (some volume)) :
    db.volumes.getByOwnerName C owner name = some volume := by
  unfold Database.getVolume at h
  split at h
  · cases h
  · exact Except.ok.inj h

/-- What has been established about a volume when `davAuthForVolume` lets a request pass. -/
theorem davAuth_admits (h : w.Honest D) {owner volumeName : JsString} {authorization : Option JsString}
    {auth : DavAuthResult} (ha : davAuthForVolume C w n db now owner volumeName authorization needWrite = .ok auth) :
    ∃ volume, db.volumes.getByOwnerName C owner volumeName = some volume ∧ auth.owner = volume.owner ∧
      auth.volume = volume.name ∧
      (∀ basic, getBasicCredentials C authorization = some basic →
        ∃ credential, Admits D db now volume basic needWrite credential) ∧
      (getBasicCredentials C authorization = none → needWrite = false ∧ volume.isPrivate = false) := by
  unfold davAuthForVolume at ha
  split at ha
  · cases ha
  · cases ha
  · rename_i volume hvolume
    refine ⟨volume, getVolume_found hvolume, ?_⟩
    cases hbasic : getBasicCredentials C authorization with
    | some basic =>
      rw [hbasic] at ha
      obtain ⟨hcredential, howner, hname⟩ := authByCredential_admits h ha
      refine ⟨howner, hname, ?_, by simp⟩
      intro basic' heq
      rw [← Option.some.inj heq]
      exact hcredential
    | none =>
      rw [hbasic] at ha
      by_cases hopen : (!needWrite && !volume.isPrivate) = true
      · simp only [hopen, ↓reduceIte, Except.ok.injEq] at ha
        refine ⟨by rw [← ha]; rfl, by rw [← ha]; rfl, by simp, fun _ => ?_⟩
        simpa using hopen
      · simp [hopen] at ha

end Credentials

section Forwarding

variable {p : Platform} {C : Casing}

theorem forward_destination (source : Headers) (base inner : JsString) (mode : HrefPrefixMode)
    (userEmail destination : Option JsString) :
    (applyDavForwardHeaders source base inner mode userEmail destination).get (js "destination") = destination := by
  unfold applyDavForwardHeaders
  cases destination with
  | some d => simp
  | none => simp

theorem resolved_within {header : Option JsString} {requestUrl base destination : JsString} {mode : HrefPrefixMode}
    (h : resolveDestination p header requestUrl base mode = .ok destination) :
    ∃ origin inner, destination = origin ++ base ++ slash :: inner := by
  unfold resolveDestination at h
  split at h
  · cases h
  · split at h
    · cases h
    · split at h
      · cases h
      · split at h
        · split at h
          · cases h
          · split at h
            · cases h
            · split at h
              · rename_i inner _
                exact ⟨_, inner, (Except.ok.inj h).symm⟩
              · cases h
        · cases h

/-- What is handed on goes to the object of the volume that was let through, as the method it came with. -/
theorem handleDav_reaches {w : Deployment} {n now : ℕ} {db : Database} {r : DavRequest} {f : Forwarded}
    (h : (handleDav p C w n db now r).reaches = some f) :
    ∃ auth, davAuthForVolume C w n db now r.owner r.volume (r.headers.get (js "authorization"))
        (requiresWrite r.method) = .ok auth ∧
      f.key = normalizeVolumeKey C auth.owner auth.volume ∧ f.method = r.method ∧
      ∀ d, f.headers.get (js "destination") = some d → (r.method = js "COPY" ∨ r.method = js "MOVE") ∧
        ∃ origin inner, d = origin ++ pathBaseOf auth.owner auth.volume ++ slash :: inner := by
  unfold handleDav at h
  split at h
  · cases h
  · split at h
    · cases h
    · rename_i auth hauth
      refine ⟨auth, hauth, ?_⟩
      split at h
      · obtain rfl := Option.some.inj h
        exact ⟨rfl, rfl, fun d hd => by simp [forward_destination] at hd⟩
      · split at h
        · rename_i hcopy
          dsimp only at h
          split at h
          · cases h
          · rename_i destination hresolve
            obtain rfl := Option.some.inj h
            refine ⟨rfl, rfl, fun d hd => ⟨hcopy, ?_⟩⟩
            rw [forward_destination, Option.some.injEq] at hd
            exact hd ▸ resolved_within hresolve
        · obtain rfl := Option.some.inj h
          exact ⟨rfl, rfl, fun d hd => by simp [forward_destination] at hd⟩

theorem addressed_names {rows : Volumes} {owner name : JsString} {volume : DavVolumeRow}
    (h : rows.getByOwnerName C owner name = some volume) :
    volume ∈ rows ∧ C.toLowerCase volume.owner = C.toLowerCase owner ∧
      C.toLowerCase volume.name = C.toLowerCase name := by
  unfold Volumes.getByOwnerName at h
  have hprop := List.find?_some h
  exact ⟨List.mem_of_find?_eq_some h, of_decide_eq_true hprop⟩

/-- Whatever a request presents, what reaches a volume's object is authorised for it, in every run of the verification
in which no request waits for the derivation of another stored hash. -/
theorem requests_are_authorised (D : Digests) (hD : D.Faithful) (ttlMs : ℕ) (es : List Happening) (w : Deployment)
    (hagree : Deployment.start.Agreeing D ttlMs es) (hrun : Deployment.start.run D ttlMs es = some w) (n now : ℕ)
    (db : Database) (hdb : ∀ row ∈ db.volumes, isValidUsername row.owner = true) (r : DavRequest) (f : Forwarded)
    (hreach : (route p C w n db now r).reaches = some f) : ∃ volume, Authorised D C db now r f volume := by
  have honest : w.Honest D := honest_of_sound (sound_run hD ttlMs es sound_start hagree hrun)
  unfold route at hreach
  split at hreach
  · obtain ⟨auth, hauth, hkey, hmethod, hdestination⟩ := handleDav_reaches hreach
    obtain ⟨volume, haddressed, howner, hname, hcredential, hanonymous⟩ := davAuth_admits honest hauth
    obtain ⟨hmem, hlowerOwner, hlowerName⟩ := addressed_names haddressed
    rw [howner, hname] at hkey hdestination
    refine ⟨volume, haddressed, ?_, hmethod, hcredential, hanonymous, hdestination, ?_⟩
    · rw [hkey, normalizeVolumeKey, normalizeVolumeKey, hlowerOwner, hlowerName]
    · intro other hother hdiffers V object objects
      apply Function.update_of_ne
      intro heq
      rw [hkey] at heq
      obtain ⟨ho, hn⟩ := key_inj (hdb other hother) (hdb volume hmem) heq
      exact hdiffers ⟨ho.trans hlowerOwner, hn.trans hlowerName⟩
  · cases hreach

end Forwarding

/-! ### A write with a password that was changed -/

def aliceVolume : DavVolumeRow := ⟨js "1", js "a", js "alice", js "v", true, .base⟩

/-- The credential of `u` has got the hash of a new password. -/
def rotatedDatabase : Database where
  volumes := [aliceVolume]
  credentials := [⟨js "c", js "1", js "u", js "pbkdf2-sha256$new", 9, false⟩]
  ownerEmail := fun _ => js "e"
  volumesFault := none
  credentialsFault := none

def oldPasswordPut : DavRequest where
  method := js "PUT"
  owner := js "alice"
  volume := js "v"
  inner := js "f"
  url := js "http://h/alice/v/f"
  headers := [(js "authorization", js "Basic dTpvbGQ=")]

theorem old_password_writes : plainDigests.Faithful ∧ ∃ w, Deployment.start.run plainDigests 60000 rotation = some w ∧
    ∃ f, (route Dav.plainPlatform asciiCasing w 1 rotatedDatabase 0 oldPasswordPut).reaches = some f ∧
      ∀ volume, ¬ Authorised plainDigests asciiCasing rotatedDatabase 0 oldPasswordPut f volume := by
  refine ⟨plain_faithful, (Deployment.start.run plainDigests 60000 rotation).get (by decide), by simp, ?_⟩
  have hreach : ((route Dav.plainPlatform asciiCasing ((Deployment.start.run plainDigests 60000 rotation).get (by decide)) 1
      rotatedDatabase 0 oldPasswordPut).reaches).isSome = true := by decide
  obtain ⟨f, hf⟩ := Option.isSome_iff_exists.mp hreach
  refine ⟨f, hf, fun volume h => ?_⟩
  obtain ⟨credential, hadmits⟩ := h.credential ⟨js "u", js "old"⟩ (by decide)
  have hknown := List.mem_singleton.mp hadmits.known
  have haccepts := hadmits.accepts
  rw [hknown] at haccepts
  exact absurd haccepts (by decide)

def currentDatabase : Database :=
  { rotatedDatabase with credentials := [⟨js "c", js "1", js "u", js "pbkdf2-sha256$old", 9, false⟩] }

theorem login_is_authorised : ∃ w f volume, Deployment.start.run plainDigests 60000 plainLogin = some w ∧
    (route Dav.plainPlatform asciiCasing w 0 currentDatabase 0 oldPasswordPut).reaches = some f ∧
    Authorised plainDigests asciiCasing currentDatabase 0 oldPasswordPut f volume := by
  have hagree : Deployment.start.Agreeing plainDigests 60000 plainLogin := by decide
  have hreach : ((route Dav.plainPlatform asciiCasing ((Deployment.start.run plainDigests 60000 plainLogin).get (by decide)) 0
      currentDatabase 0 oldPasswordPut).reaches).isSome = true := by decide
  obtain ⟨f, hf⟩ := Option.isSome_iff_exists.mp hreach
  have hrun : Deployment.start.run plainDigests 60000 plainLogin =
      some ((Deployment.start.run plainDigests 60000 plainLogin).get (by decide)) := by simp
  have howners : ∀ row ∈ currentDatabase.volumes, isValidUsername row.owner = true :=
    List.forall_mem_singleton.mpr (by decide)
  obtain ⟨volume, h⟩ := requests_are_authorised plainDigests plain_faithful 60000 plainLogin _ hagree hrun 0 0
    currentDatabase howners oldPasswordPut f hf
  exact ⟨_, f, volume, hrun, hf, h⟩

end DurableDav.Front
