import DurableDav.Dav.Tasks

namespace DurableDav.Dav

open Library
open Replication (Bytes isValidInnerPath parentOf)

/-! ### A task that is never left does what the request does -/

section Requests

variable {env : Env} {path source target : JsString} {bases : DavBases}

theorem does_putTask (r : Incoming) (path : JsString) (maxFileBytes : ℕ) :
    Thread.Does env (putTask r path maxFileBytes) (env.handlePut r path maxFileBytes) := by
  refine Thread.does_checked (fun plan => ?_) fun _ _ => rfl
  refine Thread.does_checked (fun _ => ?_) fun _ _ => rfl
  exact Thread.does_segment

/-! ### COPY -/

theorem does_copyFileTask {rest : Task} {β : Type} {f : Except Failure Unit → Serve β} (hfailed : ∀ e, Thread.Does env rest (f (.error e)))
    (hcopied : Thread.Does env (.of (.records target [.selectNode source, .upsertNode target])
      (fun env => env.copyMeta source target false) fun _ => rest) (f (.ok ()))) :
    Thread.Does env (copyFileTask source target rest) ((env.copyBytes source target).attempt >>= f) := by
  refine Thread.does_next ?_
  rintro (e | u)
  · exact hfailed e
  · exact hcopied

theorem does_copyChildrenTask (names : List JsString) :
    Thread.Does env (copyChildrenTask source target names) (env.copyChildren bases source target names) := by
  induction names with
  | nil => exact Thread.does_pure _
  | cons name rest ih =>
    have hrest (failure : Option MultiStatusFailure) : Thread.Does env (copyChildrenTask source target rest)
        (env.copyChildren bases source target rest >>= fun failures => pure (failure.toList ++ failures)) := ih.answers _
    unfold copyChildrenTask Env.copyChildren Env.copyChild
    rw [Act.bind_assoc]
    refine Thread.does_of fun st => ?_
    by_cases hdir : st.isDirectory = true
    · rw [if_pos hdir, if_pos hdir]
      have hcopied : Thread.Does env (.of .other (fun env => env.copyCollectionAt (Env.childInner source name)
          (Env.targetOf source target (Env.childInner source name))) fun _ => copyChildrenTask source target rest)
          (env.copyCollectionAt (Env.childInner source name) (Env.targetOf source target (Env.childInner source name)) >>= fun _ =>
            env.copyChildren bases source target rest >>= fun failures => pure ((none : Option MultiStatusFailure).toList ++ failures)) :=
        Thread.does_of fun _ => hrest none
      unfold Env.copyCollectionAt at hcopied
      simp only [Act.bind_assoc] at hcopied ⊢
      exact hcopied
    · rw [if_neg hdir, if_neg hdir, Act.bind_assoc]
      refine does_copyFileTask (fun e => hrest _) ?_
      dsimp only
      rw [Act.bind_assoc]
      exact Thread.does_of fun _ => hrest none

/-- What a COPY does once it is to copy. -/
def Env.copyBeyond (env : Env) (r : Request) (source : JsString) (bases : DavBases) : Except Response CopyPlan → Serve Response
  | .error response => pure response
  | .ok plan =>
    if plan.isCollection then env.makeTarget bases (r.depth.getD (js "infinity")) source plan.target plan.destExists
    else do
      match ← (env.copyBytes source plan.target).attempt with
      | .error e => pure (Env.copyFailed e)
      | .ok _ => do
        env.copyMeta source plan.target false
        pure (env.doneResponse bases plan.target false plan.destExists)

/-- What a COPY does with what is in a collection. -/
def Env.copyInto (env : Env) (r : Request) (source : JsString) (bases : DavBases) (plan : CopyPlan) : Except Response Unit → Serve Response
  | .error response => pure response
  | .ok _ =>
    if r.depth.getD (js "infinity") = js "infinity" then env.copyDescendants bases source plan.target plan.destExists
    else pure (env.doneResponse bases plan.target true plan.destExists)

theorem handleCopy_eq (r : Request) (source : JsString) (bases : DavBases) :
    env.handleCopy r source bases = env.copyAdmit r source bases >>= env.copyBeyond r source bases := by
  unfold Env.handleCopy Env.copyAdmit
  cases resolveDestination env.platform r bases.pathBase source with
  | none => rfl
  | some target =>
    dsimp only
    rw [Act.bind_assoc]
    refine congrArg _ (funext fun locked => ?_)
    cases locked with
    | some response => rfl
    | none =>
      dsimp only
      rw [Act.bind_assoc]
      refine congrArg _ (funext fun sourceStat => ?_)
      by_cases hmissing : (!sourceStat.found) = true
      · rw [if_pos hmissing, if_pos hmissing]
        rfl
      rw [if_neg hmissing, if_neg hmissing, Act.bind_assoc]
      refine congrArg _ (funext fun orphaned => ?_)
      by_cases horphaned : orphaned = true
      · rw [if_pos horphaned, if_pos horphaned]
        rfl
      rw [if_neg horphaned, if_neg horphaned, Act.bind_assoc]
      refine congrArg _ (funext fun targetStat => ?_)
      by_cases hrefused : !r.isOverwriteAllowed env.platform ∧ targetStat.found
      · rw [if_pos hrefused, if_pos hrefused]
        rfl
      rw [if_neg hrefused, if_neg hrefused]
      by_cases hdir : sourceStat.isDirectory = true
      · rw [if_pos hdir]
        unfold Env.copyCollection
        dsimp only
        by_cases hdepth : r.depth.getD (js "infinity") ≠ js "0" ∧ r.depth.getD (js "infinity") ≠ js "infinity"
        · rw [if_pos hdepth, if_pos ⟨hdir, hdepth⟩]
          rfl
        rw [if_neg hdepth, if_neg (fun h => hdepth h.2), Act.bind_assoc]
        refine congrArg _ (funext fun refusal => ?_)
        cases refusal with
        | some response => rfl
        | none => exact (if_pos hdir).symm
      · rw [if_neg hdir, if_neg (fun h => hdir h.1), Act.bind_assoc]
        refine congrArg _ (funext fun refusal => ?_)
        cases refusal with
        | some response => rfl
        | none => exact (if_neg hdir).symm

theorem does_copyTask (r : Request) (source : JsString) (bases : DavBases) :
    Thread.Does env (copyTask r source bases) (env.handleCopy r source bases) := by
  rw [handleCopy_eq]
  refine Thread.does_checked (fun plan => ?_) fun _ _ => rfl
  unfold Env.copyBeyond
  dsimp only
  by_cases hdir : plan.isCollection = true
  · rw [if_pos hdir, if_pos hdir]
    have hroot : env.makeTarget bases (r.depth.getD (js "infinity")) source plan.target plan.destExists =
        env.copyRoot source plan.target plan.destExists >>= env.copyInto r source bases plan := by
      unfold Env.makeTarget Env.copyRoot
      rw [Act.bind_assoc]
      refine congrArg _ (funext fun made => ?_)
      by_cases hfailed : made.toOption.isNone ∧ !plan.destExists
      · rw [if_pos hfailed, if_pos hfailed]
        rfl
      · rw [if_neg hfailed, if_neg hfailed, Act.bind_assoc]
        rfl
    rw [hroot]
    refine Thread.does_checked (fun _ => ?_) fun _ _ => rfl
    unfold Env.copyInto
    dsimp only
    by_cases hdeep : r.depth.getD (js "infinity") = js "infinity"
    · rw [if_pos hdeep, if_pos hdeep]
      exact Thread.does_of fun names => (does_copyChildrenTask names).answers _
    · rw [if_neg hdeep, if_neg hdeep]
      exact Thread.does_pure _
  · rw [if_neg hdir, if_neg hdir]
    exact does_copyFileTask (fun e => Thread.does_pure _) (Thread.does_of fun _ => Thread.does_pure _)

/-! ### MOVE -/

/-- What a MOVE does once it is to rename. -/
def Env.moveBeyond (env : Env) (source : JsString) (bases : DavBases) : Except Response CopyPlan → Serve Response
  | .error response => pure response
  | .ok plan => do
    match ← (env.rename source plan.target).attempt with
    | .error _ => pure .internalServerError
    | .ok _ => do
      env.renameCascade source plan.target
      pure (env.doneResponse bases plan.target plan.isCollection plan.destExists)

theorem moveTo_eq (r : Request) (source target : JsString) (bases : DavBases) (isCollection : Bool) :
    env.moveTo r bases source target isCollection = env.moveInto r target isCollection >>= env.moveBeyond source bases := by
  unfold Env.moveTo Env.moveInto
  rw [Act.bind_assoc]
  refine congrArg _ (funext fun orphaned => ?_)
  by_cases horphaned : orphaned = true
  · rw [if_pos horphaned, if_pos horphaned]
    rfl
  rw [if_neg horphaned, if_neg horphaned, Act.bind_assoc]
  refine congrArg _ (funext fun targetStat => ?_)
  by_cases hrefused : !r.isOverwriteAllowed env.platform ∧ targetStat.found
  · rw [if_pos hrefused, if_pos hrefused]
    rfl
  rw [if_neg hrefused, if_neg hrefused, Act.bind_assoc]
  refine congrArg _ (funext fun refusal => ?_)
  cases refusal with
  | some response => rfl
  | none => rfl

theorem handleMove_eq (r : Request) (source : JsString) (bases : DavBases) :
    env.handleMove r source bases = env.moveAdmit r source bases >>= env.moveBeyond source bases := by
  unfold Env.handleMove Env.moveAdmit
  cases resolveDestination env.platform r bases.pathBase source with
  | none => rfl
  | some target =>
    dsimp only
    rw [Act.bind_assoc]
    refine congrArg _ (funext fun locked => ?_)
    cases locked with
    | some response => rfl
    | none =>
      dsimp only
      rw [Act.bind_assoc]
      refine congrArg _ (funext fun targetLocked => ?_)
      cases targetLocked with
      | some response => rfl
      | none =>
        dsimp only
        rw [Act.bind_assoc]
        refine congrArg _ (funext fun sourceStat => ?_)
        by_cases hmissing : (!sourceStat.found) = true
        · rw [if_pos hmissing, if_pos hmissing]
          rfl
        rw [if_neg hmissing, if_neg hmissing]
        by_cases hdepth : (r.depth.any fun d => env.platform.toLowerCase (trim d) ≠ js "infinity") = true
        · rw [if_pos hdepth, if_pos hdepth]
          rfl
        rw [if_neg hdepth, if_neg hdepth]
        by_cases hdir : sourceStat.isDirectory = true
        · rw [if_pos hdir, if_pos hdir, Act.bind_assoc]
          refine congrArg _ (funext fun refusal => ?_)
          cases refusal with
          | some response => rfl
          | none => exact moveTo_eq r source target bases true
        · rw [if_neg hdir, if_neg hdir]
          exact moveTo_eq r source target bases false

theorem does_moveTask (r : Request) (source : JsString) (bases : DavBases) :
    Thread.Does env (moveTask r source bases) (env.handleMove r source bases) := by
  rw [handleMove_eq]
  refine Thread.does_checked (fun plan => ?_) fun _ _ => rfl
  intro s
  refine (Thread.does_segment s).trans ?_
  unfold Env.carry Env.moveBeyond
  dsimp only
  rw [Act.run_bind, Act.run_bind, Act.run_attempt]
  cases (env.rename source plan.target).run s with
  | mk renamed s' =>
    cases renamed with
    | error e => rfl
    | ok _ =>
      dsimp only
      rw [Act.run_bind]
      cases (env.renameCascade source plan.target).run s' with
      | mk answer s'' => cases answer <;> rfl

/-! ### LOCK -/

/-- What a LOCK does once there is something to lock. -/
def Env.lockAfterEnsuring (env : Env) (uuid : Uuid) (path : JsString) (bases : DavBases) :
    Except Response (Env.LockPlan × Env.Lockable) → Serve Response
  | .error response => pure response
  | .ok (_, .refused response) => pure response
  | .ok (plan, .there) => env.lockGrant uuid bases plan
  | .ok (plan, .created) => do
    env.recordLockNull path
    env.lockGrant uuid bases plan

theorem handleLock_eq (uuid : Uuid) (r : Incoming) (path : JsString) (bases : DavBases) :
    env.handleLock uuid r path bases = env.lockEnsure r path >>= env.lockAfterEnsuring uuid path bases := by
  unfold Env.handleLock Env.lockEnsure
  rw [Act.bind_assoc]
  refine congrArg _ (funext fun admitted => ?_)
  cases admitted with
  | error response => rfl
  | ok plan =>
    dsimp only
    rw [Act.bind_assoc]
    refine congrArg _ (funext fun lockable => ?_)
    cases lockable <;> rfl

theorem does_lockTask (uuid : Uuid) (r : Incoming) (path : JsString) (bases : DavBases) :
    Thread.Does env (lockTask uuid r path bases) (env.handleLock uuid r path bases) := by
  rw [handleLock_eq]
  intro s
  cases hrun : (env.lockEnsure r path).run s with
  | mk ensured s' =>
    unfold lockTask Thread.alone
    rw [hrun]
    cases ensured with
    | error e =>
      rw [Act.run_bind_error hrun]
      rfl
    | ok ensured =>
      rw [Act.run_bind_ok hrun]
      rcases ensured with response | ⟨plan, lockable⟩
      · rfl
      · cases lockable with
        | there => exact Thread.does_segment s'
        | created => exact Thread.does_of (fun _ => Thread.does_segment) s'
        | refused response => rfl

/-! ### The requests -/

theorem does_task (x : Exchange) : Thread.Does env x.task (env.serve x) := by
  have hhandle : isValidInnerPath x.path = true → Thread.Does env x.task (env.handle x) := by
    intro hvalid
    unfold Exchange.task
    rw [hvalid, if_neg (by simp)]
    obtain ⟨verb, r, path, bases⟩ := x
    cases verb with
    | put maxFileBytes => exact does_putTask r path maxFileBytes
    | delete => exact Thread.does_segment
    | mkcol => exact Thread.does_segment
    | proppatch => exact Thread.does_segment.answers _
    | copy => exact does_copyTask r.toRequest path bases
    | move => exact does_moveTask r.toRequest path bases
    | lock uuid => exact does_lockTask uuid r path bases
    | unlock => exact Thread.does_segment
  unfold Env.serve
  cases hvalid : isValidInnerPath x.path with
  | false =>
    unfold Exchange.task
    rw [hvalid]
    exact Thread.does_pure _
  | true =>
    rw [if_neg (by simp)]
    intro s
    rw [hhandle hvalid s, Act.run_bind, Act.run_attempt]
    dsimp only
    cases ((env.handle x).run s).1 <;> rfl

end Requests

end DurableDav.Dav
