import DurableDav.Replication.VolumeReplicationService

namespace DurableDav.Replication

open Library
open Front (Casing Volumes colon)

/-! ### What the owner supplied -/

def Unknown.text : Unknown → JsString
  | .string s => s
  | _ => []

structure Supplied where
  kind : ReplicationAuthKind
  username : Unknown
  secret : Unknown

def Supplied.header (supplied : Supplied) : RemoteAuth :=
  match supplied.kind with
  | .none => .none
  | .basic => .basic (bytesToBase64 (textEncode (supplied.username.text ++ colon :: supplied.secret.text)))
  | .bearer => .bearer supplied.secret.text

/-- The kind a target was created with, and the credential of the last call that succeeded on it. -/
structure Ledger where
  created : ReplicationAuthKind
  last : Supplied

/-- The kind a call names, or the one it stands for where it names none. -/
def namedKind (value : Unknown) (otherwise : ReplicationAuthKind) : ReplicationAuthKind :=
  match oneOf ReplicationAuthKind.name value replicationAuthKinds (js "authKind") (some otherwise) with
  | .ok kind => kind
  | .error _ => otherwise

/-! ### Runs of the two calls -/

inductive CredentialCall
  | create (call : CreateCall)
  | rotate (call : RotateCall)

structure Credentials where
  rows : Replications
  ledger : JsString → Option Ledger

def noCredentials : Credentials := ⟨[], fun _ => none⟩

def Ledger.rotated (call : RotateCall) (l : Ledger) : Ledger :=
  { l with last := ⟨namedKind call.authKind l.created, call.username, call.secret⟩ }

def CreateCall.opened (call : CreateCall) : Ledger :=
  ⟨namedKind call.input.authKind .none,
    namedKind call.input.authKind .none, call.input.username, call.input.secret⟩

namespace ReplicationService

variable (s : ReplicationService)

/-- A call that fails changes nothing. -/
def credentialStep (state : Credentials) : CallContext × CredentialCall → Credentials
  | (context, .create call) =>
    match s.createReplication context state.rows call with
    | .ok rows => ⟨rows, Function.update state.ledger call.replicationId (some call.opened)⟩
    | .error _ => state
  | (context, .rotate call) =>
    match s.rotateSecret context state.rows call with
    | .ok rows => ⟨rows, Function.update state.ledger call.replicationId
        ((state.ledger call.replicationId).map (Ledger.rotated call))⟩
    | .error _ => state

def after (calls : List (CallContext × CredentialCall)) : Credentials := calls.foldl s.credentialStep noCredentials

/-- Every target is shown exactly what its owner supplied last. -/
def PresentsLast (state : Credentials) : Prop :=
  ∀ row ∈ state.rows, ∃ l, state.ledger row.replicationId = some l ∧ s.presented row = .ok l.last.header

end ReplicationService

/-- The last credential is of the kind the target was created with, and no white space surrounds its username. -/
def Ledger.Fits (l : Ledger) : Prop :=
  l.last.kind = l.created ∧ (l.last.kind = .basic → trim l.last.username.text = l.last.username.text)

/-! ### What a call seals -/

theorem badRequest_ne {α : Type} {message : JsString} {a : α} (h : badRequest message = .ok a) : False := by
  cases h

theorem boundedText_ok {value : Unknown} {field t : JsString} {limit : ℕ} {read : JsString → JsString}
    (hread : read [] = []) (h : boundedText value field limit read = .ok t) : t = read value.text := by
  unfold boundedText at h
  cases value with
  | undefined | null =>
    cases h
    exact hread.symm
  | string s =>
    dsimp only at h
    split at h
    · exact (badRequest_ne h).elim
    · exact (Except.ok.inj h).symm
  | boolean b => exact (badRequest_ne h).elim
  | number n => exact (badRequest_ne h).elim
  | other => exact (badRequest_ne h).elim

/-- The plaintext by its kind; a username holds no colon. -/
def IsPlaintext (username secret : Unknown) (p : JsString) : ReplicationAuthKind → Prop
  | .none => p = []
  | .bearer => p = secret.text
  | .basic => p = trim username.text ++ colon :: secret.text ∧ colon ∉ trim username.text

theorem plaintext_ok {kind : ReplicationAuthKind} {username secret : Unknown} {p : JsString}
    (h : credentialPlaintext kind username secret = .ok p) : IsPlaintext username secret p kind := by
  obtain ⟨name, hname, h⟩ := except_bind h
  have hname := boundedText_ok rfl hname
  obtain ⟨value, hvalue, h⟩ := except_bind h
  split at h
  · exact (badRequest_ne h).elim
  · split at h
    · exact (badRequest_ne h).elim
    · unfold credentialValue at hvalue
      unfold sealableSecret at h
      cases kind with
      | none =>
        rw [if_pos rfl] at hvalue
        rw [if_pos (by decide)] at h
        rw [← Except.ok.inj h]
        exact (Except.ok.inj hvalue).symm
      | bearer =>
        rw [if_neg (by decide)] at hvalue
        rw [if_pos (by decide)] at h
        rw [← Except.ok.inj h]
        exact boundedText_ok rfl hvalue
      | basic =>
        rw [if_neg (by decide)] at hvalue
        rw [if_neg (by decide), hname, boundedText_ok rfl hvalue] at h
        split at h
        · exact (badRequest_ne h).elim
        · rename_i hcolon
          exact ⟨(Except.ok.inj h).symm, hcolon⟩

theorem cutAt_colon {username password : JsString} (h : colon ∉ username) :
    cutAt colon (username ++ colon :: password) = some (username, password) := by
  have hhead : ∀ c ∈ username, decide (c ≠ colon) = true := by
    intro c hc
    exact decide_eq_true fun he => h (he ▸ hc)
  rw [cutAt, if_pos (by simp), List.takeWhile_append_of_pos hhead, List.dropWhile_append_of_pos hhead]
  simp

theorem basic_header {username secret : JsString} (h : colon ∉ username) :
    authHeader .basic (username ++ colon :: secret) =
      .ok (.basic (bytesToBase64 (textEncode (username ++ colon :: secret)))) := by
  simp only [authHeader, cutAt_colon h, basicAuthValue, if_neg h]
  rfl

theorem basic_text_iff {username secret : JsString} :
    bytesToBase64 (textEncode (trim username ++ colon :: secret)) =
      bytesToBase64 (textEncode (username ++ colon :: secret)) ↔ trim username = username := by
  constructor
  · intro h
    have hoctets := bytesToBase64_injective (textEncode_lt _) (textEncode_lt _) h
    have hplain : isSurrogate colon.val = false := by decide
    rw [textEncode_append_plain hplain, textEncode_append_plain hplain] at hoctets
    exact trim_eq_of_encoded (List.append_cancel_right hoctets)
  · intro h
    rw [h]

/-! ### What a row holds -/

/-- The row kept its kind, and its envelope opens to what the last call sealed. -/
def ReplicationService.Holds (s : ReplicationService) (row : DavReplicationRow) (l : Ledger) : Prop :=
  row.authKind = l.created ∧
    ∃ p, credentialPlaintext l.last.kind l.last.username l.last.secret = .ok p ∧ s.decryptSecret row = .ok p

namespace ReplicationService

variable {s : ReplicationService}

theorem presented_iff {row : DavReplicationRow} {l : Ledger} (h : s.Holds row l) :
    s.presented row = .ok l.last.header ↔ l.Fits := by
  obtain ⟨hkind, p, hplain, hopen⟩ := h
  have hpresented : s.presented row = authHeader l.created p := by
    unfold presented
    rw [hopen, hkind]
    rfl
  rw [hpresented]
  obtain ⟨created, kind, username, secret⟩ := l
  have hp := plaintext_ok hplain
  -- a kind the row does not have yields another header, or none at all
  cases created with
  | none => cases kind <;> simp [authHeader, Supplied.header, Ledger.Fits]
  | bearer =>
    cases kind with
    | none | basic => simp [authHeader, Supplied.header, Ledger.Fits]
    | bearer => simp [authHeader, Supplied.header, Ledger.Fits, show p = secret.text from hp]
  | basic =>
    cases kind with
    | none | bearer =>
      simp only [Supplied.header, Ledger.Fits, reduceCtorEq, false_and, iff_false]
      intro h
      unfold authHeader at h
      cases hcut : cutAt colon p with
      | none => simp [hcut] at h
      | some parts =>
        rw [hcut] at h
        dsimp only at h
        cases hvalue : basicAuthValue parts.1 parts.2 <;> simp [hvalue, Except.map] at h
    | basic =>
      rw [hp.1, basic_header hp.2]
      simp only [Supplied.header, Ledger.Fits, Except.ok.injEq, RemoteAuth.basic.injEq, true_and, forall_const]
      exact basic_text_iff

/-! ### Calls keep the ledger true -/

theorem namedKind_ok {value : Unknown} {otherwise kind : ReplicationAuthKind} {fallback : Option ReplicationAuthKind}
    (hfallback : ∀ k, fallback = some k → k = otherwise)
    (h : oneOf ReplicationAuthKind.name value replicationAuthKinds (js "authKind") fallback = .ok kind) :
    namedKind value otherwise = kind := by
  unfold namedKind
  cases value with
  | undefined | null =>
    cases fallback with
    | none => cases h
    | some k =>
      obtain rfl := Except.ok.inj h
      exact (hfallback _ rfl).symm
  | string text =>
    have hsame : oneOf ReplicationAuthKind.name (.string text) replicationAuthKinds (js "authKind") (some otherwise) =
        .ok kind := h
    rw [hsame]
  | boolean b => cases h
  | number n => cases h
  | other => cases h

theorem sealed_opens {context : CallContext} {plaintext : JsString} {envelope : Option Envelope} {row : DavReplicationRow}
    (h : s.sealed context plaintext = .ok envelope) (hsecret : row.encryptedSecret = envelope.map Envelope.ciphertext)
    (hiv : row.secretIv = envelope.map Envelope.iv) : s.decryptSecret row = .ok plaintext := by
  unfold sealed at h
  unfold decryptSecret
  rw [hsecret, hiv]
  split at h
  · rename_i hnone
    cases h
    rw [hnone]
    rfl
  · split at h
    · cases h
      simp only [Option.map_some, s.cipher.decrypt_encrypt]
    · cases h

/-- A created row is the only one of its name, and holds what the call supplied. -/
theorem create_ok {context : CallContext} {rows rows' : Replications} {call : CreateCall}
    (h : s.createReplication context rows call = .ok rows') :
    ∃ row, rows' = rows ++ [row] ∧ row.replicationId = call.replicationId ∧
      (∀ r ∈ rows, r.replicationId ≠ call.replicationId) ∧ s.Holds row call.opened := by
  unfold createReplication at h
  obtain ⟨mode, -, h⟩ := except_bind h
  obtain ⟨mirrorDeletions, -, h⟩ := except_bind h
  obtain ⟨authKind, hkind, h⟩ := except_bind h
  obtain ⟨intervalMinutes, -, h⟩ := except_bind h
  obtain ⟨enabled, -, h⟩ := except_bind h
  obtain ⟨target, -, h⟩ := except_bind h
  obtain ⟨plaintext, hplain, h⟩ := except_bind h
  split at h
  · exact (badRequest_ne h).elim
  · split at h
    · exact (badRequest_ne h).elim
    · obtain ⟨envelope, henvelope, h⟩ := except_bind h
      have hnamed : namedKind call.input.authKind .none = authKind :=
        namedKind_ok (fun k hk => (Option.some.inj hk).symm) hkind
      dsimp only at h
      split at h
      · rename_i created hcreated
        unfold Replications.create at hcreated
        obtain ⟨hfresh, hrows⟩ := Option.ite_none_left_eq_some.mp hcreated
        simp only [not_or, List.any_eq_true, decide_eq_true_eq, not_exists, not_and] at hfresh
        refine ⟨_, (Except.ok.inj h) ▸ (Option.some.inj hrows).symm, rfl, hfresh.1, ?_⟩
        refine ⟨hnamed.symm, plaintext, ?_, sealed_opens henvelope rfl rfl⟩
        unfold CreateCall.opened
        rw [hnamed]
        exact hplain
      · cases h

/-- A rotation finds the target, and seals what it supplied under the kind it names. -/
theorem rotate_ok {context : CallContext} {rows rows' : Replications} {call : RotateCall}
    (h : s.rotateSecret context rows call = .ok rows') :
    ∃ existing ∈ rows, existing.replicationId = call.replicationId ∧ ∃ plaintext envelope,
      credentialPlaintext (namedKind call.authKind existing.authKind) call.username call.secret = .ok plaintext ∧
      s.sealed context plaintext = .ok envelope ∧
      rows' = rows.setSecret call.replicationId (envelope.map Envelope.ciphertext) (envelope.map Envelope.iv)
        context.now := by
  unfold rotateSecret at h
  obtain ⟨existing, hexisting, h⟩ := except_bind h
  obtain ⟨authKind, hkind, h⟩ := except_bind h
  obtain ⟨plaintext, hplain, h⟩ := except_bind h
  obtain ⟨envelope, henvelope, h⟩ := except_bind h
  unfold requireReplication at hexisting
  split at hexisting
  · rename_i row hrow
    cases hexisting
    have hfound := (Option.filter_eq_some_iff.mp hrow).1
    refine ⟨existing, List.mem_of_find?_eq_some hfound, by simpa using List.find?_some hfound, plaintext, envelope, ?_,
      henvelope, (Except.ok.inj h).symm⟩
    have hfallback : ∀ k, (if existing.authKind = .none then none else some existing.authKind) = some k →
        k = existing.authKind := fun k hk => (Option.some.inj (Option.ite_none_left_eq_some.mp hk).2).symm
    rw [namedKind_ok hfallback hkind]
    exact hplain
  · cases hexisting

/-- Each row holds what the ledger has of it. -/
def Kept (s : ReplicationService) (state : Credentials) : Prop :=
  ∀ row ∈ state.rows, ∃ l, state.ledger row.replicationId = some l ∧ s.Holds row l

theorem Kept.create {state : Credentials} (h : s.Kept state) {row : DavReplicationRow} {call : CreateCall}
    (hid : row.replicationId = call.replicationId) (hfresh : ∀ r ∈ state.rows, r.replicationId ≠ call.replicationId)
    (hholds : s.Holds row call.opened) :
    s.Kept ⟨state.rows ++ [row], Function.update state.ledger call.replicationId (some call.opened)⟩ := by
  intro r hr
  rcases List.mem_append.mp hr with hr | hr
  · obtain ⟨l, hl, hrow⟩ := h r hr
    exact ⟨l, by simpa only [Function.update_of_ne (hfresh r hr)] using hl, hrow⟩
  · obtain rfl := List.mem_singleton.mp hr
    exact ⟨call.opened, by simp only [hid, Function.update_self], hholds⟩

theorem Kept.rotate {state : Credentials} (h : s.Kept state) {existing : DavReplicationRow} {call : RotateCall}
    {context : CallContext} {plaintext : JsString} {envelope : Option Envelope} (hmem : existing ∈ state.rows)
    (hid : existing.replicationId = call.replicationId)
    (hplain : credentialPlaintext (namedKind call.authKind existing.authKind) call.username call.secret = .ok plaintext)
    (hsealed : s.sealed context plaintext = .ok envelope) :
    s.Kept ⟨state.rows.setSecret call.replicationId (envelope.map Envelope.ciphertext) (envelope.map Envelope.iv)
      context.now, Function.update state.ledger call.replicationId
        ((state.ledger call.replicationId).map (Ledger.rotated call))⟩ := by
  intro row hrow
  obtain ⟨r, hr, rfl⟩ := List.mem_map.mp hrow
  obtain ⟨l, hl, hkind, hholds⟩ := h r hr
  split
  · rename_i hsame
    obtain ⟨l', hl', hkind', -⟩ := h existing hmem
    rw [hid, ← hsame, hl] at hl'
    cases hl'
    refine ⟨l.rotated call, ?_, hkind, plaintext, ?_, sealed_opens hsealed rfl rfl⟩
    · simp only [hsame, Function.update_self]
      rw [← hsame, hl]
      rfl
    · rw [hkind'] at hplain
      exact hplain
  · rename_i hother
    exact ⟨l, by simpa only [Function.update_of_ne hother] using hl, hkind, hholds⟩

theorem step_kept {state : Credentials} (h : s.Kept state) (call : CallContext × CredentialCall) :
    s.Kept (s.credentialStep state call) := by
  obtain ⟨context, call⟩ := call
  cases call with
  | create call =>
    dsimp only [credentialStep]
    cases hrun : s.createReplication context state.rows call with
    | error e => exact h
    | ok rows =>
      obtain ⟨row, rfl, hid, hfresh, hholds⟩ := create_ok hrun
      exact h.create hid hfresh hholds
  | rotate call =>
    dsimp only [credentialStep]
    cases hrun : s.rotateSecret context state.rows call with
    | error e => exact h
    | ok rows =>
      obtain ⟨existing, hmem, hid, plaintext, envelope, hplain, hsealed, rfl⟩ := rotate_ok hrun
      exact h.rotate hmem hid hplain hsealed

theorem after_kept (calls : List (CallContext × CredentialCall)) : s.Kept (s.after calls) := by
  unfold after
  have hrun (state : Credentials) (h : s.Kept state) : s.Kept (calls.foldl s.credentialStep state) := by
    induction calls generalizing state with
    | nil => exact h
    | cons call calls ih => exact ih _ (step_kept h call)
  exact hrun noCredentials fun row hrow => (List.not_mem_nil hrow).elim

/-- After any calls a target is shown what its owner supplied last exactly where that is of the kind it was created
with, and its username is one that is read as it was written. -/
theorem presents_last_iff (s : ReplicationService) (calls : List (CallContext × CredentialCall)) :
    ∀ row ∈ (s.after calls).rows, ∃ l, (s.after calls).ledger row.replicationId = some l ∧
      (s.presented row = .ok l.last.header ↔ l.Fits) := by
  intro row hrow
  obtain ⟨l, hl, hholds⟩ := after_kept calls row hrow
  exact ⟨l, hl, presented_iff hholds⟩

/-! ### A target that learns to authenticate too late -/

def plainService : ReplicationService :=
  ⟨Front.asciiCasing, .ok, 10, plainCipher⟩

def oneVolume : CallContext := ⟨[⟨js "v", js "u", js "alice", js "photos", false, .base⟩], 0, 0, true⟩

def openTarget : ReplicationCreateInput where
  targetKind := .string (js "dav")
  remoteUrl := .string (js "https://dav.example.com/f")

def openedThenSecured : List (CallContext × CredentialCall) :=
  [(oneVolume, .create ⟨js "v", js "alice/photos", openTarget, js "a", js "r"⟩),
    (oneVolume, .rotate ⟨js "v", js "r", .string (js "bearer"), .undefined, .string (js "token")⟩)]

theorem presents_last_secured : ∃ row ∈ (plainService.after openedThenSecured).rows,
    ∃ l, (plainService.after openedThenSecured).ledger row.replicationId = some l ∧
      (plainService.presented row = .ok l.last.header ↔ l.Fits) := by
  have hsome : ((plainService.after openedThenSecured).rows.head?).isSome = true := by decide
  obtain ⟨row, hhead⟩ := Option.isSome_iff_exists.mp hsome
  have hrow := List.mem_of_head? hhead
  exact ⟨row, hrow, presents_last_iff plainService openedThenSecured row hrow⟩

theorem rotated_kind_is_lost : ¬ ∀ s calls, ReplicationService.PresentsLast s (s.after calls) := by
  intro h
  have hrows : ((plainService.after openedThenSecured).rows.map fun row =>
      (row.replicationId, (plainService.presented row).toOption)) = [(js "r", some .none)] := by
    decide
  have hledger : ((plainService.after openedThenSecured).ledger (js "r")).map (fun l => l.last.header) =
      some (.bearer (js "token")) := by
    decide
  obtain ⟨row, hrow, heq⟩ := List.mem_map.mp (hrows ▸ List.mem_cons_self)
  obtain ⟨hid, hshown⟩ := Prod.mk.inj heq
  obtain ⟨l, hl, hpresented⟩ := h plainService openedThenSecured row hrow
  rw [hid] at hl
  rw [hl, Option.map_some, Option.some.injEq] at hledger
  rw [hpresented, hledger] at hshown
  cases hshown

end ReplicationService

end DurableDav.Replication
