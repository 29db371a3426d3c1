import DurableDav.Dav.CopyMove

namespace DurableDav.Dav

open Library
open Replication (Bytes isValidInnerPath parentOf)

/-! ### What a step leaves of a session -/

/-- No statement on the metadata tables fails. -/
def Env.Stores (env : Env) : Prop := ∀ st n, env.fails (.exec st) n = none

/-- Since `s` only calls of one kind were made. -/
def Session.Calls (P : Op → Prop) (s s' : Session) : Prop := ∃ ops, s'.calls = ops ++ s.calls ∧ ∀ op ∈ ops, P op

def Op.IsExec (op : Op) : Prop := ∃ st, op = .exec st

section Calls

variable {P Q : Op → Prop} {s s₁ s₂ : Session} {op : Op}

theorem calls_refl (s : Session) : s.Calls P s := ⟨[], rfl, by simp⟩

theorem Session.Calls.trans (h : s.Calls P s₁) (h' : s₁.Calls P s₂) : s.Calls P s₂ := by
  obtain ⟨ops, he, hops⟩ := h
  obtain ⟨ops', he', hops'⟩ := h'
  refine ⟨ops' ++ ops, by rw [he', he, List.append_assoc], fun op hop => ?_⟩
  rcases List.mem_append.mp hop with hop | hop
  · exact hops' op hop
  · exact hops op hop

theorem Session.Calls.mono (h : s.Calls P s₁) (hPQ : ∀ op, P op → Q op) : s.Calls Q s₁ := by
  obtain ⟨ops, he, hops⟩ := h
  exact ⟨ops, he, fun op hop => hPQ op (hops op hop)⟩

theorem calls_record (h : P op) : s.Calls P (s.record op) := ⟨[op], rfl, by simpa using h⟩

theorem Session.Calls.count (h : s.Calls P s₁) (hop : ¬ P op) : s₁.calls.count op = s.calls.count op := by
  obtain ⟨ops, he, hops⟩ := h
  rw [he, List.count_append, List.count_eq_zero.mpr (fun hm => hop (hops op hm)), Nat.zero_add]

end Calls

/-! ### The calls -/

section Steps

variable {env : Env} {s : Session} {path : JsString}

theorem run_call {α : Type} (op : Op) (body : Serve α) (s : Session) :
    (env.call op body).run s = match env.fails op (s.calls.count op) with
      | some e => (.error e, s.record op)
      | none => body.run (s.record op) := rfl

theorem call_run {α : Type} {op : Op} {body : Serve α} (h : env.fails op (s.calls.count op) = none) :
    (env.call op body).run s = body.run (s.record op) := by
  rw [run_call, h]

theorem call_run_fails {α : Type} {op : Op} {body : Serve α} {e : Failure}
    (h : env.fails op (s.calls.count op) = some e) : (env.call op body).run s = (.error e, s.record op) := by
  rw [run_call, h]

/-- What the `n`-th look at a path shows. -/
def Env.sees (env : Env) (v : Volume) (path : JsString) (n : ℕ) : StatResult :=
  if env.fails (.stat path) n = none then (v.files.stat path).getD missingStat else missingStat

theorem statInner_run (env : Env) (path : JsString) (s : Session) :
    (env.statInner path).run s = (.ok (env.sees s.volume path (s.calls.count (.stat path))), s.record (.stat path)) := by
  unfold Env.statInner Env.sees
  cases hf : env.fails (.stat path) (s.calls.count (.stat path)) with
  | some e =>
    have hrun : (env.stat path).run s = (.error e, s.record (.stat path)) := call_run_fails hf
    rw [Act.run_bind_ok (show (env.stat path).attempt.run s = (.ok (.error e), s.record (.stat path)) by
      rw [Act.run_attempt, hrun])]
    rfl
  | none =>
    have hrun : (env.stat path).run s = _ := call_run hf
    cases hst : s.volume.files.stat path with
    | none =>
      have hbody : (env.stat path).run s = (.error (.of "ENOENT"), s.record (.stat path)) := by
        rw [hrun]
        simp only [Act.run_bind, Act.run_read]
        rw [show (s.record (.stat path)).volume.files.stat path = none from hst]
        rfl
      rw [Act.run_bind_ok (show (env.stat path).attempt.run s = (.ok (.error (.of "ENOENT")), s.record (.stat path)) by
        rw [Act.run_attempt, hbody])]
      rfl
    | some st =>
      have hbody : (env.stat path).run s = (.ok st, s.record (.stat path)) := by
        rw [hrun]
        simp only [Act.run_bind, Act.run_read]
        rw [show (s.record (.stat path)).volume.files.stat path = some st from hst]
        rfl
      rw [Act.run_bind_ok (show (env.stat path).attempt.run s = (.ok (.ok st), s.record (.stat path)) by
        rw [Act.run_attempt, hbody])]
      rfl

theorem exec_run {α : Type} {st : Statement} {body : Serve α} (h : env.Stores) :
    (env.exec st body).run s = body.run (s.record (.exec st)) := call_run (h st _)

/-! ### The guards -/

def Env.lockAnswer (env : Env) (v : Volume) (r : Request) (path : JsString) : Option Response :=
  if r.hasAlwaysFalseIfCondition env.platform then some .preconditionFailed
  else if v.blocking env.now (r.getRequestLockTokens env.platform) path = [] then none else some .locked

theorem assertLock_run (h : env.Stores) (r : Request) (path : JsString) (s : Session) :
    ∃ s', (env.assertLock r path).run s = (.ok (env.lockAnswer s.volume r path), s') ∧ s'.volume = s.volume ∧
      s.Calls Op.IsExec s' := by
  unfold Env.assertLock Env.lockAnswer
  by_cases hf : r.hasAlwaysFalseIfCondition env.platform = true
  · rw [if_pos hf, if_pos hf]
    exact ⟨s, rfl, rfl, calls_refl s⟩
  · rw [if_neg hf, if_neg hf, exec_run h]
    refine ⟨s.record (.exec (.selectLocks path)), ?_, rfl, calls_record ⟨_, rfl⟩⟩
    simp only [Act.run_bind, Act.run_read, Session.record]
    split <;> rfl

def Volume.lockedBelow (v : Volume) (now : ℕ) (tokens : List JsString) (path : JsString) (names : List JsString) : Bool :=
  names.any (fun name => v.activeTokens now tokens (Env.childInner path name) ≠ [])

theorem anyLocked_run (h : env.Stores) (path : JsString) (tokens names : List JsString) (s : Session) :
    ∃ s', (env.anyLocked path tokens names).run s = (.ok (s.volume.lockedBelow env.now tokens path names), s') ∧
      s'.volume = s.volume ∧ s.Calls Op.IsExec s' := by
  induction names generalizing s with
  | nil => exact ⟨s, rfl, rfl, calls_refl s⟩
  | cons name names ih =>
    have hstep : (env.activeTokensForPath (Env.childInner path name) tokens).run s =
        (.ok (s.volume.activeTokens env.now tokens (Env.childInner path name)),
          s.record (.exec (.selectLocks (Env.childInner path name)))) := by
      unfold Env.activeTokensForPath
      rw [exec_run h]
      rfl
    obtain ⟨s', hrun, hvol, hcalls⟩ := ih (s.record (.exec (.selectLocks (Env.childInner path name))))
    have hrecord : s.Calls Op.IsExec (s.record (.exec (.selectLocks (Env.childInner path name)))) := calls_record ⟨_, rfl⟩
    unfold Env.anyLocked
    rw [Act.run_bind_ok hstep]
    by_cases hactive : s.volume.activeTokens env.now tokens (Env.childInner path name) = []
    · refine ⟨s', ?_, hvol, hrecord.trans hcalls⟩
      rw [if_pos hactive, hrun]
      simp only [Volume.lockedBelow, List.any_cons, hactive, ne_eq, not_true_eq_false, decide_false, Bool.false_or]
      rfl
    · refine ⟨s.record (.exec (.selectLocks (Env.childInner path name))), ?_, rfl, hrecord⟩
      rw [if_neg hactive]
      simp only [Volume.lockedBelow, List.any_cons, ne_eq, hactive, not_false_eq_true, decide_true, Bool.true_or]
      rfl

/-- What stands in the way of removing or moving a whole collection, with `n` listings of it made before. -/
def Env.refusal (env : Env) (v : Volume) (r : Request) (path : JsString) (n : ℕ) : Option Response :=
  match env.fails (.listDir path true) n with
  | some e => if Env.isMissingPath e then none else some .internalServerError
  | none =>
    if v.files.found path ∧ v.lockedBelow env.now (r.getRequestLockTokens env.platform) path
      ((v.files.below path).map (Files.relative path)) then some .locked else none

theorem listDir_run (h : env.fails (.listDir path true) (s.calls.count (.listDir path true)) = none) :
    (env.listDir path true).run s = (if s.volume.files.found path then
      .ok ((s.volume.files.below path).map (Files.relative path)) else .error (.of "ENOENT"),
        s.record (.listDir path true)) := by
  rw [show (env.listDir path true).run s = _ from call_run h, Act.run_bind, Act.run_read]
  cases hf : s.volume.files.found path with
  | true =>
    simp only [Session.record, hf, Bool.not_true, Bool.false_eq_true, ↓reduceIte]
    rfl
  | false =>
    simp only [Session.record, hf, Bool.not_false, Bool.false_eq_true, ↓reduceIte]
    rfl

theorem requireRecursive_run (env : Env) (path : JsString) (s : Session) :
    (env.requireRecursive path).run s = (match env.fails (.listDir path true) (s.calls.count (.listDir path true)) with
      | some e => if Env.isMissingPath e then .ok [] else .error e
      | none => .ok (if s.volume.files.found path then (s.volume.files.below path).map (Files.relative path) else []),
      s.record (.listDir path true)) := by
  unfold Env.requireRecursive
  cases hf : env.fails (.listDir path true) (s.calls.count (.listDir path true)) with
  | some e =>
    have hrun : (env.listDir path true).attempt.run s = (.ok (.error e), s.record (.listDir path true)) := by
      rw [Act.run_attempt, show (env.listDir path true).run s = _ from call_run_fails hf]
    rw [Act.run_bind_ok hrun]
    dsimp only
    split <;> rfl
  | none =>
    by_cases hfound : s.volume.files.found path = true
    · have hrun : (env.listDir path true).attempt.run s =
          (.ok (.ok ((s.volume.files.below path).map (Files.relative path))), s.record (.listDir path true)) := by
        rw [Act.run_attempt, listDir_run hf, if_pos hfound]
      rw [Act.run_bind_ok hrun, if_pos hfound]
      rfl
    · have hrun : (env.listDir path true).attempt.run s =
          (.ok (.error (.of "ENOENT")), s.record (.listDir path true)) := by
        rw [Act.run_attempt, listDir_run hf, if_neg hfound]
      rw [Act.run_bind_ok hrun, if_neg hfound]
      have hmissing : Env.isMissingPath (.of "ENOENT") = true := by decide
      dsimp only
      rw [if_pos hmissing]
      rfl

theorem refuseSubtree_run (h : env.Stores) (r : Request) (path : JsString) (s : Session) :
    ∃ s', (env.refuseSubtree r path).run s =
        (.ok (env.refusal s.volume r path (s.calls.count (.listDir path true))), s') ∧ s'.volume = s.volume ∧
      s.Calls (fun op => op.IsExec ∨ op = .listDir path true) s' := by
  have hlist := requireRecursive_run env path s
  have hrecord : s.Calls (fun op => op.IsExec ∨ op = .listDir path true) (s.record (.listDir path true)) :=
    calls_record (.inr rfl)
  have hscan (names : List JsString) (hrun : (env.requireRecursive path).run s = (.ok names, s.record (.listDir path true))) :
      ∃ s', (env.refuseSubtree r path).run s = (.ok (if s.volume.lockedBelow env.now
          (r.getRequestLockTokens env.platform) path names then some .locked else none), s') ∧
        s'.volume = s.volume ∧ s.Calls (fun op => op.IsExec ∨ op = .listDir path true) s' := by
    obtain ⟨s', hany, hvol, hcalls⟩ :=
      anyLocked_run h path (r.getRequestLockTokens env.platform) names (s.record (.listDir path true))
    refine ⟨s', ?_, hvol, hrecord.trans (hcalls.mono (fun op => .inl))⟩
    unfold Env.refuseSubtree
    rw [Act.run_bind_ok (show (env.requireRecursive path).attempt.run s = (.ok (.ok names), s.record (.listDir path true)) by
      rw [Act.run_attempt, hrun])]
    dsimp only
    rw [Act.run_bind_ok (show _ = (Except.ok (s.volume.lockedBelow env.now (r.getRequestLockTokens env.platform) path names), s')
      from hany)]
    by_cases hl : s.volume.lockedBelow env.now (r.getRequestLockTokens env.platform) path names = true
    · rw [if_pos hl, if_pos hl]
      rfl
    · rw [if_neg hl, if_neg hl]
      rfl
  unfold Env.refusal
  cases hf : env.fails (.listDir path true) (s.calls.count (.listDir path true)) with
  | some e =>
    rw [hf] at hlist
    by_cases hm : Env.isMissingPath e = true
    · simp only [hm, ↓reduceIte] at hlist ⊢
      obtain ⟨s', hrun, hvol, hcalls⟩ := hscan [] hlist
      exact ⟨s', hrun, hvol, hcalls⟩
    · simp only [hm, Bool.false_eq_true, ↓reduceIte] at hlist ⊢
      refine ⟨s.record (.listDir path true), ?_, rfl, hrecord⟩
      unfold Env.refuseSubtree
      rw [Act.run_bind_ok (show (env.requireRecursive path).attempt.run s =
        (.ok (.error e), s.record (.listDir path true)) by rw [Act.run_attempt, hlist])]
      rfl
  | none =>
    rw [hf] at hlist
    by_cases hfound : s.volume.files.found path = true
    · simp only [hfound, ↓reduceIte] at hlist
      obtain ⟨s', hrun, hvol, hcalls⟩ := hscan _ hlist
      refine ⟨s', ?_, hvol, hcalls⟩
      rw [hrun]
      simp only [hfound, true_and]
    · simp only [hfound, Bool.false_eq_true, ↓reduceIte] at hlist
      obtain ⟨s', hrun, hvol, hcalls⟩ := hscan [] hlist
      refine ⟨s', ?_, hvol, hcalls⟩
      rw [hrun]
      simp only [hfound, Bool.false_eq_true, false_and, ↓reduceIte]
      rfl

/-! ### Removing a resource -/

namespace Volume

/-- The volume without the metadata and the locks of a subtree. -/
def cleared (v : Volume) (path : JsString) : Volume :=
  ((v.deleteRows path .davNodes).deleteRows path .davProps).deleteRows path .davLocks

def withoutCollection (v : Volume) (path : JsString) : Volume :=
  Volume.cleared { v with files := Store.removeWhere v.files (fun q => q = path ∨ Below slash path q) } path

def withoutFile (v : Volume) (path : JsString) : Volume :=
  Volume.cleared { v with files := Store.remove v.files path } path

end Volume

theorem deleteCascade_run (h : env.Stores) (path : JsString) (s : Session) :
    ∃ s', (env.deleteCascade path).run s = (.ok (), s') ∧ s'.volume = s.volume.cleared path ∧ s.Calls Op.IsExec s' := by
  have hstep (t : Table) (s : Session) :
      (env.exec (.deleteRows t path) (Env.modifyVolume (fun v => v.deleteRows path t))).run s =
        (.ok (), ⟨s.volume.deleteRows path t, .exec (.deleteRows t path) :: s.calls⟩) := by
    rw [exec_run h]
    rfl
  let ops : List Op := [.exec (.deleteRows .davLocks path), .exec (.deleteRows .davProps path),
    .exec (.deleteRows .davNodes path)]
  have hrun : (env.deleteNodeCascade path).run s = (.ok (), ⟨s.volume.cleared path, ops ++ s.calls⟩) := by
    unfold Env.deleteNodeCascade cascadeTables
    simp only [Act.each_cons, Act.each_nil]
    rw [Act.run_bind_ok (hstep _ _), Act.run_bind_ok (hstep _ _), Act.run_bind_ok (hstep _ _)]
    rfl
  refine ⟨⟨s.volume.cleared path, ops ++ s.calls⟩, ?_, rfl, ops, rfl, by simp [ops, Op.IsExec]⟩
  unfold Env.deleteCascade
  rw [Act.run_bind_ok (show (env.deleteNodeCascade path).attempt.run s = _ by rw [Act.run_attempt, hrun])]
  rfl

/-- What removing a path comes to, when `n` looks at it were made before. -/
def Env.removal (env : Env) (v : Volume) (r : Request) (path : JsString) (n : ℕ) : Except Response Volume :=
  if path = [] then .error .forbidden
  else if !(env.sees v path n).found then .error .notFound
  else match env.lockAnswer v r path with
    | some response => .error response
    | none =>
      if (env.sees v path n).isDirectory then match env.refusal v r path 0 with
        | some response => .error response
        | none =>
          if env.fails (.rmdir path) 0 = none ∧ v.files.isDirectory path then .ok (v.withoutCollection path)
          else .error .internalServerError
      else if env.fails (.unlink path) 0 = none ∧ !v.files.isDirectory path ∧ v.files.found path then
        .ok (v.withoutFile path)
      else .error .notFound

def Op.Removes (path : JsString) (op : Op) : Prop :=
  op.IsExec ∨ op = .stat path ∨ op = .listDir path true ∨ op = .rmdir path ∨ op = .unlink path

/-- An answer, and the volume it leaves. -/
def Removed (v : Volume) : Except Response Volume → Response → Volume → Prop
  | .error response, response', v' => response' = response ∧ v' = v
  | .ok v₁, response', v' => response' = .noContent ∧ v' = v₁

theorem deleteCollection_run (h : env.Stores) (r : Request) (path : JsString) (s : Session)
    (hlist : s.calls.count (.listDir path true) = 0) (hrmdir : s.calls.count (.rmdir path) = 0) :
    ∃ response s', (env.deleteCollection r path).run s = (.ok response, s') ∧ s.Calls (Op.Removes path) s' ∧
      Removed s.volume (match env.refusal s.volume r path 0 with
        | some response => .error response
        | none =>
          if env.fails (.rmdir path) 0 = none ∧ s.volume.files.isDirectory path then .ok (s.volume.withoutCollection path)
          else .error .internalServerError) response s'.volume := by
  obtain ⟨s₁, hrun₁, hvol₁, hcalls₁⟩ := refuseSubtree_run h r path s
  rw [hlist] at hrun₁
  have hcalls : s.Calls (Op.Removes path) s₁ := by
    apply hcalls₁.mono
    rintro op (hop | hop)
    · exact .inl hop
    · exact .inr (.inr (.inl hop))
  unfold Env.deleteCollection
  rw [Act.run_bind_ok hrun₁]
  cases href : env.refusal s.volume r path 0 with
  | some response => exact ⟨response, s₁, rfl, hcalls, rfl, hvol₁⟩
  | none =>
    have hcount : s₁.calls.count (.rmdir path) = 0 := by
      rw [hcalls₁.count (by rintro (⟨st, hst⟩ | hst) <;> simp at hst), hrmdir]
    have hrecord : s.Calls (Op.Removes path) (s₁.record (.rmdir path)) :=
      hcalls.trans (calls_record (.inr (.inr (.inr (.inl rfl)))))
    dsimp only
    have failed (e : Failure) (hrun : (env.rmdir path).run s₁ = (.error e, s₁.record (.rmdir path))) :
        (env.rmdir path).attempt.run s₁ = (.ok (.error e), s₁.record (.rmdir path)) := by rw [Act.run_attempt, hrun]
    cases hf : env.fails (.rmdir path) 0 with
    | some e =>
      have hrun := failed e (call_run_fails (by rw [hcount]; exact hf))
      rw [Act.run_bind_ok hrun]
      refine ⟨.internalServerError, s₁.record (.rmdir path), rfl, hrecord, ?_⟩
      rw [if_neg (by simp)]
      exact ⟨rfl, hvol₁⟩
    | none =>
      have hcall : (env.rmdir path).run s₁ = _ := call_run (by rw [hcount]; exact hf)
      rw [Act.run_bind, Act.run_read] at hcall
      cases hdir : s.volume.files.isDirectory path with
      | false =>
        have hrun := failed (.of "ENOTDIR") (by
          rw [hcall]
          simp only [Session.record, hvol₁, hdir, Bool.not_false, ↓reduceIte]
          rfl)
        rw [Act.run_bind_ok hrun]
        refine ⟨.internalServerError, s₁.record (.rmdir path), rfl, hrecord, ?_⟩
        rw [if_neg (by simp)]
        exact ⟨rfl, hvol₁⟩
      | true =>
        let s₂ : Session := ⟨{ s.volume with
          files := Store.removeWhere s.volume.files (fun q => q = path ∨ Below slash path q) }, .rmdir path :: s₁.calls⟩
        have hrun : (env.rmdir path).attempt.run s₁ = (.ok (.ok ()), s₂) := by
          rw [Act.run_attempt, hcall]
          simp only [Session.record, hvol₁, hdir, Bool.not_true, Bool.false_eq_true, ↓reduceIte]
          simp only [modifyFiles, Act.run_modify]
          rfl
        obtain ⟨s₃, hrun₃, hvol₃, hcalls₃⟩ := deleteCascade_run h path s₂
        rw [Act.run_bind_ok hrun]
        dsimp only
        rw [Act.run_bind_ok hrun₃]
        have hto : s.Calls (Op.Removes path) s₂ := hrecord
        refine ⟨.noContent, s₃, rfl, hto.trans (hcalls₃.mono (fun op => .inl)), ?_⟩
        rw [if_pos ⟨rfl, rfl⟩]
        exact ⟨rfl, hvol₃⟩

theorem deleteFile_run (h : env.Stores) (path : JsString) (s : Session) (hunlink : s.calls.count (.unlink path) = 0) :
    ∃ response s', (env.deleteFile path).run s = (.ok response, s') ∧ s.Calls (Op.Removes path) s' ∧
      Removed s.volume (if env.fails (.unlink path) 0 = none ∧ !s.volume.files.isDirectory path ∧ s.volume.files.found path
        then .ok (s.volume.withoutFile path) else .error .notFound) response s'.volume := by
  have hrecord : s.Calls (Op.Removes path) (s.record (.unlink path)) := calls_record (.inr (.inr (.inr (.inr rfl))))
  have failed (e : Failure) (hrun : (env.unlink path).run s = (.error e, s.record (.unlink path))) :
      (env.deleteFile path).run s = (.ok .notFound, s.record (.unlink path)) := by
    unfold Env.deleteFile
    rw [Act.run_bind_ok (show (env.unlink path).attempt.run s = (.ok (.error e), s.record (.unlink path)) by
      rw [Act.run_attempt, hrun])]
    rfl
  cases hf : env.fails (.unlink path) 0 with
  | some e =>
    refine ⟨.notFound, _, failed e (call_run_fails (by rw [hunlink]; exact hf)), hrecord, ?_⟩
    rw [if_neg (by simp)]
    exact ⟨rfl, rfl⟩
  | none =>
    have hcall : (env.unlink path).run s = _ := call_run (by rw [hunlink]; exact hf)
    rw [Act.run_bind, Act.run_read] at hcall
    cases hdir : s.volume.files.isDirectory path with
    | true =>
      refine ⟨.notFound, _, failed (.of "EISDIR") ?_, hrecord, ?_⟩
      · rw [hcall]
        simp only [Session.record, hdir, ↓reduceIte]
        rfl
      · rw [if_neg (by simp)]
        exact ⟨rfl, rfl⟩
    | false =>
      cases hfound : s.volume.files.found path with
      | false =>
        refine ⟨.notFound, _, failed (.of "ENOENT") ?_, hrecord, ?_⟩
        · rw [hcall]
          simp only [Session.record, hdir, hfound, Bool.false_eq_true, Bool.not_false, ↓reduceIte]
          rfl
        · rw [if_neg (by simp)]
          exact ⟨rfl, rfl⟩
      | true =>
        let s₂ : Session := ⟨{ s.volume with files := Store.remove s.volume.files path }, .unlink path :: s.calls⟩
        have hrun : (env.unlink path).attempt.run s = (.ok (.ok ()), s₂) := by
          rw [Act.run_attempt, hcall]
          simp only [Session.record, hdir, hfound, Bool.false_eq_true, Bool.not_true, ↓reduceIte]
          simp only [modifyFiles, Act.run_modify]
          rfl
        obtain ⟨s₃, hrun₃, hvol₃, hcalls₃⟩ := deleteCascade_run h path s₂
        have hto : s.Calls (Op.Removes path) s₂ := hrecord
        refine ⟨.noContent, s₃, ?_, hto.trans (hcalls₃.mono (fun op => .inl)), ?_⟩
        · unfold Env.deleteFile
          rw [Act.run_bind_ok hrun]
          dsimp only
          rw [Act.run_bind_ok hrun₃]
          rfl
        · rw [if_pos ⟨rfl, by simp⟩]
          exact ⟨rfl, hvol₃⟩

theorem handleDelete_run (h : env.Stores) (r : Request) (path : JsString) (s : Session)
    (hlist : s.calls.count (.listDir path true) = 0) (hrmdir : s.calls.count (.rmdir path) = 0)
    (hunlink : s.calls.count (.unlink path) = 0) :
    ∃ response s', (env.handleDelete r path).run s = (.ok response, s') ∧ s.Calls (Op.Removes path) s' ∧
      Removed s.volume (env.removal s.volume r path (s.calls.count (.stat path))) response s'.volume := by
  unfold Env.handleDelete Env.removal
  by_cases hp : path = []
  · rw [if_pos hp, if_pos hp]
    exact ⟨.forbidden, s, rfl, calls_refl s, rfl, rfl⟩
  · rw [if_neg hp, if_neg hp, Act.run_bind_ok (statInner_run env path s)]
    have hstat : s.Calls (Op.Removes path) (s.record (.stat path)) := calls_record (.inr (.inl rfl))
    generalize env.sees s.volume path (s.calls.count (.stat path)) = st
    cases hfound : st.found with
    | false => exact ⟨.notFound, _, rfl, hstat, rfl, rfl⟩
    | true =>
      obtain ⟨s₁, hrun₁, hvol₁, hcalls₁⟩ := assertLock_run h r path (s.record (.stat path))
      have hto : s.Calls (Op.Removes path) s₁ := hstat.trans (hcalls₁.mono (fun op => .inl))
      simp only [Bool.not_true, Bool.false_eq_true, ↓reduceIte]
      rw [Act.run_bind_ok (show (env.assertLock r path).run (s.record (.stat path)) =
        (.ok (env.lockAnswer s.volume r path), s₁) from hrun₁)]
      cases hlock : env.lockAnswer s.volume r path with
      | some response => exact ⟨response, s₁, rfl, hto, rfl, hvol₁⟩
      | none =>
        have hcount (op : Op) (hne : ¬ op.IsExec) (hst : op ≠ .stat path) : s₁.calls.count op = s.calls.count op := by
          rw [hcalls₁.count hne]
          exact List.count_cons_of_ne hst.symm
        have hvol : s₁.volume = s.volume := hvol₁
        dsimp only
        cases hdir : st.isDirectory with
        | true =>
          obtain ⟨response, s₂, hrun₂, hcalls₂, hremoved⟩ := deleteCollection_run h r path s₁
            (by rw [hcount _ (by rintro ⟨st, hst⟩; simp at hst) (by simp), hlist])
            (by rw [hcount _ (by rintro ⟨st, hst⟩; simp at hst) (by simp), hrmdir])
          refine ⟨response, s₂, hrun₂, hto.trans hcalls₂, ?_⟩
          rw [hvol] at hremoved
          exact hremoved
        | false =>
          obtain ⟨response, s₂, hrun₂, hcalls₂, hremoved⟩ := deleteFile_run h path s₁
            (by rw [hcount _ (by rintro ⟨st, hst⟩; simp at hst) (by simp), hunlink])
          refine ⟨response, s₂, hrun₂, hto.trans hcalls₂, ?_⟩
          rw [hvol] at hremoved
          exact hremoved

theorem not_ok {response : Response} (h : 400 ≤ response.status) : ¬ response.ok = true := by
  simp only [Response.ok, decide_eq_true_eq, not_and]
  omega

theorem lockAnswer_status {v : Volume} {r : Request} {response : Response} (h : env.lockAnswer v r path = some response) :
    400 ≤ response.status := by
  unfold Env.lockAnswer at h
  split at h
  · obtain rfl := Option.some_inj.mp h
    decide
  · split at h
    · simp at h
    · obtain rfl := Option.some_inj.mp h
      decide

theorem refusal_status {v : Volume} {r : Request} {n : ℕ} {response : Response} (h : env.refusal v r path n = some response) :
    400 ≤ response.status := by
  unfold Env.refusal at h
  split at h
  · split at h
    · simp at h
    · obtain rfl := Option.some_inj.mp h
      decide
  · split at h
    · obtain rfl := Option.some_inj.mp h
      decide
    · simp at h

theorem removal_error {v : Volume} {r : Request} {n : ℕ} {response : Response}
    (h : env.removal v r path n = .error response) : 400 ≤ response.status := by
  unfold Env.removal at h
  split at h
  · obtain rfl : Response.forbidden = response := by simpa using h
    decide
  · split at h
    · obtain rfl : Response.notFound = response := by simpa using h
      decide
    · split at h
      · rename_i answer ha
        obtain rfl : answer = response := by simpa using h
        exact lockAnswer_status ha
      · split at h
        · split at h
          · rename_i answer ha
            obtain rfl : answer = response := by simpa using h
            exact refusal_status ha
          · split at h
            · simp at h
            · obtain rfl : Response.internalServerError = response := by simpa using h
              decide
        · split at h
          · simp at h
          · obtain rfl : Response.notFound = response := by simpa using h
            decide

/-! ### Removing what is overwritten -/

theorem tokens_forward (p : Platform) (r : Request) :
    r.forwardLockHeaders.getRequestLockTokens p = r.getRequestLockTokens p := by
  unfold Request.getRequestLockTokens Request.forwardLockHeaders
  have hif : parseIfHeader p (r.ifHeader.filter (fun h => h ≠ [])) = parseIfHeader p r.ifHeader := by
    cases hh : r.ifHeader with
    | none => rfl
    | some header =>
      by_cases hn : header = []
      · subst hn
        rfl
      · simp [Option.filter, hn]
  rw [hif]
  cases hl : r.lockToken with
  | none => rfl
  | some token =>
    by_cases hn : token = []
    · subst hn
      rfl
    · simp [Option.filter, hn]

theorem alwaysFalse_forward (p : Platform) (r : Request) :
    r.forwardLockHeaders.hasAlwaysFalseIfCondition p = r.hasAlwaysFalseIfCondition p := by
  unfold Request.hasAlwaysFalseIfCondition Request.forwardLockHeaders
  cases hh : r.ifHeader with
  | none => rfl
  | some header =>
    by_cases hn : header = []
    · subst hn
      rfl
    · simp [Option.filter, hn]

theorem removal_forward (v : Volume) (r : Request) (n : ℕ) :
    env.removal v r.forwardLockHeaders path n = env.removal v r path n := by
  unfold Env.removal Env.lockAnswer Env.refusal
  rw [tokens_forward, alwaysFalse_forward]

/-- The overwritten resource is gone and the request goes on, or nothing has changed. -/
theorem removeExisting_run (h : env.Stores) (r : Request) (path : JsString) (destExists : Bool) (s : Session)
    (hlist : s.calls.count (.listDir path true) = 0) (hrmdir : s.calls.count (.rmdir path) = 0)
    (hunlink : s.calls.count (.unlink path) = 0) :
    ∃ answer s', (env.removeExisting r path destExists).run s = (.ok answer, s') ∧ s.Calls (Op.Removes path) s' ∧
      if destExists then match env.removal s.volume r path (s.calls.count (.stat path)) with
        | .error response => answer = some response ∧ s'.volume = s.volume
        | .ok v => answer = none ∧ s'.volume = v
      else answer = none ∧ s' = s := by
  unfold Env.removeExisting
  cases destExists with
  | false => exact ⟨none, s, rfl, calls_refl s, rfl, rfl⟩
  | true =>
    obtain ⟨response, s', hrun, hcalls, hremoved⟩ := handleDelete_run h r.forwardLockHeaders path s hlist hrmdir hunlink
    rw [removal_forward] at hremoved
    have hrun' : (env.deleteDestination r path).run s = (.ok (if response.ok then none else some response), s') := by
      unfold Env.deleteDestination
      rw [Act.run_bind_ok hrun]
      rfl
    refine ⟨_, s', hrun', hcalls, ?_⟩
    simp only [↓reduceIte]
    cases hr : env.removal s.volume r path (s.calls.count (.stat path)) with
    | error answer =>
      rw [hr] at hremoved
      obtain ⟨rfl, hvol⟩ := hremoved
      have hstatus := removal_error hr
      have hok : ¬ response.ok = true := by
        simp only [Response.ok, decide_eq_true_eq, not_and]
        omega
      exact ⟨if_neg hok, hvol⟩
    | ok v =>
      rw [hr] at hremoved
      obtain ⟨rfl, hvol⟩ := hremoved
      exact ⟨rfl, hvol⟩

end Steps

end DurableDav.Dav
