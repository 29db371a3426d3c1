import DurableDav.Dav.Reached

namespace DurableDav.Dav

open Library
open Replication (Bytes isValidInnerPath parentOf)

/-! ### A handler by its parts

What holds of the sessions where the parts of a handler end, which change something, holds where the handler ends. -/

/-- What leaves the volume as it is keeps a predicate of sessions. -/
def Steady (P : Session → Prop) : Prop := ∀ s s', s'.volume = s.volume → P s → P s'

section Meeting

variable {P M N E : Session → Prop} {env : Env} {r : Request} {path target : JsString} {bases : DavBases}

theorem Steady.makes {α : Type} (hP : Steady P) (hPE : ∀ s, P s → E s) {x : Serve α} (hx : Makes (fun _ => False) x) :
    Act.Meets P x (fun _ => P) E := by
  refine (Act.Within.meets hx fun s s' hs hlead => ?_).weaken (fun _ h => h) (fun _ _ h => h) hPE
  exact hP _ _ (leads_keeps (I := fun v => v = s.volume) (fun _ _ _ he => he.elim) hlead rfl) hs

theorem meets_handleDelete (hP : Steady P) (hPE : ∀ s, P s → E s)
    (hcollection : Act.Meets P (env.deleteCollection r path) (fun _ => E) E)
    (hfile : Act.Meets P (env.deleteFile path) (fun _ => E) E) : Act.Meets P (env.handleDelete r path) (fun _ => E) E := by
  unfold Env.handleDelete
  split
  · exact Act.meets_pure hPE
  · refine Act.meets_bind (hP.makes hPE makes_statInner) fun st => ?_
    split
    · exact Act.meets_pure hPE
    · refine Act.meets_bind (hP.makes hPE makes_assertLock) fun locked => ?_
      split
      · exact Act.meets_pure hPE
      · split
        · exact hcollection
        · exact hfile

theorem meets_removeExisting (hPM : ∀ s, P s → M s) (h : Act.Meets P (env.handleDelete r.forwardLockHeaders path) (fun _ => M) E)
    {destExists : Bool} : Act.Meets P (env.removeExisting r path destExists) (fun _ => M) E := by
  unfold Env.removeExisting
  split
  · exact Act.meets_bind h fun _ => Act.meets_pure fun _ h => h
  · exact Act.meets_pure hPM

theorem meets_makeTarget {depth : JsString} {destExists : Bool} (hM : Steady M) (hME : ∀ s, M s → E s)
    (hmake : Act.Meets M (env.mkdir target) (fun _ => M) M) (hmeta : Act.Meets M (env.copyMeta path target true) (fun _ => M) E)
    (hchildren : depth = js "infinity" → ∀ names s s', M s → (env.listRecursive path).run s = (.ok names, s') →
      Act.Meets M (env.copyChildren bases path target names) (fun _ => E) E) :
    Act.Meets M (env.makeTarget bases depth path target destExists) (fun _ => E) E := by
  refine Act.meets_bind (R := fun _ => M) ?_ fun made => ?_
  · exact (Act.meets_attempt hmake).weaken (fun _ h => h) (fun made s h => by cases made <;> exact h) fun _ h => h.elim
  · split
    · exact Act.meets_pure hME
    · refine Act.meets_bind hmeta fun _ => ?_
      split
      · rename_i hdepth
        refine Act.meets_bind_of_run (hM.makes hME makes_listRecursive) fun names s s' hs hrun => ?_
        exact Act.meets_bind (hchildren hdepth names s s' hs hrun) fun _ => Act.meets_pure fun _ h => h
      · exact Act.meets_pure hME

theorem meets_handleCopy (hP : Steady P) (hPE : ∀ s, P s → E s) (hME : ∀ s, M s → E s)
    (h : ∀ target, resolveDestination env.platform r bases.pathBase path = some target →
      (∀ destExists, Act.Meets P (env.removeExisting r target destExists) (fun _ => M) E) ∧
      (∀ destExists, Act.Meets M (env.makeTarget bases (r.depth.getD (js "infinity")) path target destExists) (fun _ => E) E) ∧
      Act.Meets M (env.copyBytes path target) (fun _ => M) E ∧ Act.Meets M (env.copyMeta path target false) (fun _ => E) E) :
    Act.Meets P (env.handleCopy r path bases) (fun _ => E) E := by
  unfold Env.handleCopy
  split
  · exact Act.meets_pure hPE
  · rename_i target hd
    obtain ⟨hremove, hmake, hbytes, hmeta⟩ := h target hd
    refine Act.meets_bind (hP.makes hPE makes_assertLock) fun locked => ?_
    split
    · exact Act.meets_pure hPE
    · refine Act.meets_bind (hP.makes hPE makes_statInner) fun source => ?_
      split
      · exact Act.meets_pure hPE
      · refine Act.meets_bind (hP.makes hPE makes_orphaned) fun orphan => ?_
        split
        · exact Act.meets_pure hPE
        · refine Act.meets_bind (hP.makes hPE makes_statInner) fun destination => ?_
          split
          · exact Act.meets_pure hPE
          · split
            · unfold Env.copyCollection
              dsimp only
              split
              · exact Act.meets_pure hPE
              · refine Act.meets_bind (hremove _) fun refusal => ?_
                split
                · exact Act.meets_pure hME
                · exact hmake _
            · refine Act.meets_bind (hremove _) fun refusal => ?_
              split
              · exact Act.meets_pure hME
              · refine Act.meets_bind (Act.meets_attempt hbytes |>.weaken (fun _ h => h) (fun _ _ h => h) fun _ h => h.elim)
                  fun copied => ?_
                cases copied with
                | error e => exact Act.meets_pure fun _ h => h
                | ok _ => exact Act.meets_bind hmeta fun _ => Act.meets_pure fun _ h => h

theorem meets_handleMove (hP : Steady P) (hPE : ∀ s, P s → E s)
    (h : ∀ target, resolveDestination env.platform r bases.pathBase path = some target → ∀ isCollection destExists,
      Act.Meets P (env.moveOver r bases path target isCollection destExists) (fun _ => E) E) :
    Act.Meets P (env.handleMove r path bases) (fun _ => E) E := by
  unfold Env.handleMove
  split
  · exact Act.meets_pure hPE
  · rename_i target hd
    have hmove : ∀ isCollection, Act.Meets P (env.moveTo r bases path target isCollection) (fun _ => E) E := by
      intro isCollection
      refine Act.meets_bind (hP.makes hPE makes_orphaned) fun orphan => ?_
      split
      · exact Act.meets_pure hPE
      · refine Act.meets_bind (hP.makes hPE makes_statInner) fun destination => ?_
        split
        · exact Act.meets_pure hPE
        · exact h target hd _ _
    refine Act.meets_bind (hP.makes hPE makes_assertLock) fun locked => ?_
    split
    · exact Act.meets_pure hPE
    · refine Act.meets_bind (hP.makes hPE makes_assertLock) fun locked => ?_
      split
      · exact Act.meets_pure hPE
      · refine Act.meets_bind (hP.makes hPE makes_statInner) fun source => ?_
        split
        · exact Act.meets_pure hPE
        · split
          · exact Act.meets_pure hPE
          · split
            · refine Act.meets_bind (hP.makes hPE makes_refuseSubtree) fun refusal => ?_
              split
              · exact Act.meets_pure hPE
              · exact hmove true
            · exact hmove false

theorem meets_moveOver {isCollection destExists : Bool} (hME : ∀ s, M s → E s)
    (hremove : Act.Meets P (env.removeExisting r target destExists) (fun _ => M) E)
    (hrename : Act.Meets M (env.rename path target) (fun _ => N) E)
    (hcascade : Act.Meets N (env.renameCascade path target) (fun _ => E) E) :
    Act.Meets P (env.moveOver r bases path target isCollection destExists) (fun _ => E) E := by
  refine Act.meets_bind hremove fun refusal => ?_
  split
  · exact Act.meets_pure hME
  · refine Act.meets_bind (Act.meets_attempt hrename |>.weaken (fun _ h => h) (fun _ _ h => h) fun _ h => h.elim) fun renamed => ?_
    cases renamed with
    | error e => exact Act.meets_pure fun _ h => h
    | ok _ => exact Act.meets_bind hcascade fun _ => Act.meets_pure fun _ h => h

end Meeting

/-! ### Relations that hold of handlers -/

/-- What leaves the volume as it is keeps to the relation. -/
def Quiet (R : Session → Session → Prop) : Prop := ∀ s s', s'.volume = s.volume → R s s'

section Handling

variable {R : Session → Session → Prop} {env : Env} {r : Request} {path : JsString} {bases : DavBases}

theorem Quiet.makes {α : Type} (hq : Quiet R) {x : Serve α} (hx : Makes (fun _ => False) x) : Act.Within R x :=
  fun s => hq _ _ (leads_keeps (I := fun v => v = s.volume) (fun _ _ _ he => he.elim) (hx s) rfl)

variable [IsPreorder Session R]

theorem Quiet.steady (hq : Quiet R) (s : Session) : Steady (R s) := fun _ _ hvol h => trans_of R h (hq _ _ hvol)

theorem within_handleDelete (hq : Quiet R) (hcollection : Act.Within R (env.deleteCollection r path))
    (hfile : Act.Within R (env.deleteFile path)) : Act.Within R (env.handleDelete r path) :=
  Act.within_of_meets fun s => meets_handleDelete (hq.steady s) (fun _ h => h) (hcollection.keeps s) (hfile.keeps s)

theorem within_removeExisting (h : Act.Within R (env.handleDelete r.forwardLockHeaders path)) {destExists : Bool} :
    Act.Within R (env.removeExisting r path destExists) :=
  Act.within_of_meets fun s => meets_removeExisting (fun _ h => h) (h.keeps s)

theorem within_makeTarget {target depth : JsString} {destExists : Bool} (hq : Quiet R)
    (hmake : Act.Within R (env.mkdir target)) (hmeta : Act.Within R (env.copyMeta path target true))
    (hchildren : ∀ names, Act.Within R (env.copyChildren bases path target names)) :
    Act.Within R (env.makeTarget bases depth path target destExists) :=
  Act.within_of_meets fun s => meets_makeTarget (hq.steady s) (fun _ h => h) (hmake.keeps s) (hmeta.keeps s)
    fun _ names _ _ _ _ => (hchildren names).keeps s

theorem within_handleCopy (hq : Quiet R) (h : ∀ target, resolveDestination env.platform r bases.pathBase path = some target →
    (∀ destExists, Act.Within R (env.removeExisting r target destExists)) ∧
    (∀ depth destExists, Act.Within R (env.makeTarget bases depth path target destExists)) ∧
    Act.Within R (env.copyBytes path target) ∧ Act.Within R (env.copyMeta path target false)) :
    Act.Within R (env.handleCopy r path bases) := by
  refine Act.within_of_meets fun s => meets_handleCopy (hq.steady s) (fun _ h => h) (fun _ h => h) fun target hd => ?_
  obtain ⟨hremove, hmake, hbytes, hmeta⟩ := h target hd
  exact ⟨fun _ => (hremove _).keeps s, fun _ => (hmake _ _).keeps s, hbytes.keeps s, hmeta.keeps s⟩

theorem within_handleMove (hq : Quiet R) (h : ∀ target, resolveDestination env.platform r bases.pathBase path = some target →
    ∀ isCollection destExists, Act.Within R (env.moveOver r bases path target isCollection destExists)) :
    Act.Within R (env.handleMove r path bases) :=
  Act.within_of_meets fun s => meets_handleMove (hq.steady s) (fun _ h => h) fun target hd isCollection destExists =>
    (h target hd isCollection destExists).keeps s

theorem within_moveOver {target : JsString} {isCollection destExists : Bool}
    (hremove : Act.Within R (env.removeExisting r target destExists)) (hrename : Act.Within R (env.rename path target))
    (hcascade : Act.Within R (env.renameCascade path target)) :
    Act.Within R (env.moveOver r bases path target isCollection destExists) :=
  Act.within_of_meets fun s => meets_moveOver (fun _ h => h) (hremove.keeps s) (hrename.keeps s) (hcascade.keeps s)

theorem within_dropLockNull (hq : Quiet R) (hundo : Act.Within R (env.undoCreation path)) :
    Act.Within R (env.dropLockNull path) := by
  refine Act.within_bind (hq.makes makes_readLocks) fun remaining => ?_
  split
  · refine Act.within_bind (hq.makes (Act.within_bind makes_readMeta fun _ => Act.within_pure _)) fun lockNull => ?_
    split
    · exact hundo
    · exact Act.within_pure _
  · exact Act.within_pure _

theorem within_handleUnlock (hq : Quiet R) (hundo : Act.Within R (env.undoCreation path))
    (hrelease : ∀ token, Act.Within R (env.releaseLock path token)) : Act.Within R (env.handleUnlock r path) := by
  refine Act.within_bind (hq.makes makes_statInner) fun st => ?_
  split
  · exact Act.within_pure _
  · split
    · exact Act.within_pure _
    · refine Act.within_bind (Act.within_attempt (hrelease _)) fun released => ?_
      split
      · dsimp only
        split
        · exact Act.within_bind (within_dropLockNull hq hundo) fun _ => Act.within_pure _
        · exact Act.within_pure _
      · exact Act.within_pure _

theorem serve_within {x : Exchange} (h : Act.Within R (env.handle x)) : Act.Within R (env.serve x) := by
  unfold Env.serve
  split
  · exact Act.within_pure _
  · refine Act.within_bind (Act.within_attempt h) fun answer => ?_
    split <;> exact Act.within_pure _

end Handling

/-! ### What a call comes to -/

/-- A call fails with nothing changed, or it makes its one change. -/
def Comes {α : Type} (x : Serve α) (s : Session) (P : Volume → Prop) : Prop :=
  (∃ e s', x.run s = (.error e, s') ∧ s'.volume = s.volume) ∨ ∃ a s', x.run s = (.ok a, s') ∧ P s'.volume

section Outcomes

variable {env : Env} {path : JsString}

theorem comes_call {α : Type} {op : Op} {body : Serve α} {s : Session} {P : Volume → Prop}
    (h : Comes body (s.record op) P) : Comes (env.call op body) s P := by
  cases hf : env.fails op (s.calls.count op) with
  | some e => exact .inl ⟨e, _, call_run_fails hf, rfl⟩
  | none =>
    rcases h with ⟨e, s', hrun, hvol⟩ | ⟨a, s', hrun, hP⟩
    · exact .inl ⟨e, s', by rw [call_run hf, hrun], hvol⟩
    · exact .inr ⟨a, s', by rw [call_run hf, hrun], hP⟩

variable (env path) in
theorem comes_unlink (s : Session) : Comes (env.unlink path) s fun v => s.volume.files.isDirectory path = false ∧
    v = { s.volume with files := Store.remove s.volume.files path } := by
  apply comes_call
  unfold Comes
  rw [Act.run_bind, Act.run_read]
  dsimp only
  split
  · exact .inl ⟨_, _, rfl, rfl⟩
  · split
    · exact .inl ⟨_, _, rfl, rfl⟩
    · rename_i hfile _
      exact .inr ⟨_, _, rfl, Bool.eq_false_iff.mpr hfile, rfl⟩

variable (env path) in
theorem comes_rmdir (s : Session) : Comes (env.rmdir path) s fun v =>
    v = { s.volume with files := Store.removeWhere s.volume.files (fun q => q = path ∨ Below slash path q) } := by
  apply comes_call
  unfold Comes
  rw [Act.run_bind, Act.run_read]
  dsimp only
  split
  · exact .inl ⟨_, _, rfl, rfl⟩
  · exact .inr ⟨_, _, rfl, rfl⟩

variable (env path) in
theorem comes_writeFile (data : Bytes) (s : Session) : Comes (env.writeFile path data) s fun v =>
    s.volume.files.isDirectory path = false ∧
      v = { s.volume with files := Store.put s.volume.files path ⟨some data, env.now⟩ } := by
  apply comes_call
  unfold Comes
  rw [Act.run_bind, Act.run_read]
  dsimp only
  split
  · exact .inl ⟨_, _, rfl, rfl⟩
  · split
    · exact .inl ⟨_, _, rfl, rfl⟩
    · rename_i hfile _
      exact .inr ⟨_, _, rfl, Bool.eq_false_iff.mpr hfile, rfl⟩

theorem comes_rename {target : JsString} (ht : Apart path target) (s : Session) : Comes (env.rename path target) s fun v =>
    Change s.volume (.rename path target) v := by
  apply comes_call
  unfold Comes
  rw [Act.run_bind, Act.run_read]
  dsimp only
  split
  · exact .inl ⟨_, _, rfl, rfl⟩
  · split
    · exact .inl ⟨_, _, rfl, rfl⟩
    · split
      · exact .inl ⟨_, _, rfl, rfl⟩
      · split
        · rename_i files hfiles
          exact .inr ⟨_, _, rfl, .rename path target files ht.source_ne_nil ht.ne ht.outside (by simp_all [Session.record])
            (by simp_all [Session.record]) (by simp_all [Session.record]) hfiles⟩
        · exact .inl ⟨_, _, rfl, rfl⟩

end Outcomes

end DurableDav.Dav
