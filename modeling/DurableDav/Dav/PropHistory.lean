import DurableDav.Dav.PropShown
import DurableDav.Dav.CopyComplete

namespace DurableDav.Dav

open Library
open Replication (isValidInnerPath parentOf)

/-! ### What touches a property -/

/-- The row of a property is written, or goes with those of a path. -/
def Effect.TouchesProp (key : PropKey) : Effect → Prop
  | setProp k _ => k = key
  | removeProp k => k = key
  | deleteRows path _ => deletePredicate path key.path = true
  | updatePaths source _ _ => subtreePredicate source key.path = true
  | _ => False

/-- A property that is recorded stays so. -/
def KeepsProp (key : PropKey) (s s' : Session) : Prop :=
  ∀ row, Store.get s.volume.props key = some row → Store.get s'.volume.props key = some row

instance (key : PropKey) : IsPreorder Session (KeepsProp key) where
  refl _ _ h := h
  trans _ _ _ h h' row hrow := h' row (h row hrow)

section Touching

variable {env : Env} {v v' : Volume} {effect : Effect} {key : PropKey} {α : Type}

theorem change_keeps_prop (hc : Change v effect v') (h : ¬ effect.TouchesProp key) {row : PropRow}
    (hrow : Store.get v.props key = some row) : Store.get v'.props key = some row := by
  cases hc with
  | make => exact hrow
  | write => exact hrow
  | unlink => exact hrow
  | remove => exact hrow
  | rename => exact hrow
  | node => exact hrow
  | setProp k =>
    rw [Store.get_put, if_neg (Ne.symm h)]
    exact hrow
  | removeProp k =>
    rw [Store.get_remove, if_neg (Ne.symm h)]
    exact hrow
  | grant => exact hrow
  | extend => exact hrow
  | release => exact hrow
  | noted => exact hrow
  | deleteRows path t =>
    cases t with
    | davProps =>
      have hget := Store.get_removeWhere v.props (fun k => deletePredicate path k.path) key
      rw [if_neg (show ¬ deletePredicate path key.path = true from h), hrow] at hget
      exact hget
    | davNodes => exact hrow
    | davLocks => exact hrow
    | davReplicaState => exact hrow
  | updatePaths source target t v' ht hpaths =>
    cases t with
    | davProps =>
      obtain ⟨props, hprops, rfl⟩ := Option.map_eq_some_iff.mp hpaths
      have hget := rekey_get hprops (Store.mem_keys.mpr (by rw [hrow]; rfl))
      have hsame : ({ key with path := repath source target key.path } : PropKey) = key := by
        unfold repath
        rw [if_neg (show ¬ subtreePredicate source key.path = true from h)]
      rw [hsame, hrow] at hget
      exact hget
    | davNodes =>
      obtain ⟨_, _, rfl⟩ := Option.map_eq_some_iff.mp hpaths
      exact hrow
    | davLocks =>
      obtain rfl := Option.some.inj hpaths
      exact hrow
    | davReplicaState =>
      obtain ⟨_, _, rfl⟩ := Option.map_eq_some_iff.mp hpaths
      exact hrow

theorem keeps_prop {L : Effect → Prop} (h : ∀ e, L e → ¬ e.TouchesProp key) {x : Serve α} (hx : Makes L x) :
    Act.Within (KeepsProp key) x := by
  intro s row hrow
  exact leads_keeps (I := fun v => Store.get v.props key = some row)
    (fun e _ _ he hc hrow => change_keeps_prop hc (h e he) hrow) (hx s) hrow

theorem descendant_of_predicate {path q : JsString} (h : deletePredicate path q = true) :
    isSameOrDescendantPath path q = true := by
  rw [isSameOrDescendantPath_iff]
  by_cases hp : path = []
  · subst hp
    by_cases hq : q = []
    · exact .inl hq
    · exact .inr (below_root.mpr hq)
  · exact subtreePredicate_inside hp (by rwa [deletePredicate_of_ne hp] at h)

theorem creates_untouched {path : JsString} {e : Effect} (h : e.Creates path) : ¬ e.TouchesProp key := by
  cases e <;> simp_all [Effect.Creates, Effect.TouchesProp]

theorem destroys_untouched {path : JsString} (hkey : isSameOrDescendantPath path key.path = false) {e : Effect}
    (h : e.Destroys path) : ¬ e.TouchesProp key := by
  intro ht
  cases e with
  | deleteRows q t =>
    obtain rfl : q = path := h
    rw [descendant_of_predicate ht] at hkey
    simp at hkey
  | _ => simp_all [Effect.Destroys, Effect.TouchesProp]

theorem edits_key {k : PropKey} {e : Effect} (h : e.EditsKey k) (ht : e.TouchesProp key) : k = key := by
  cases e with
  | setProp k' => exact (show k' = k from h).symm.trans ht
  | removeProp k' => exact (show k' = k from h).symm.trans ht
  | _ => simp [Effect.EditsKey] at h

theorem locks_untouched {path : JsString} {e : Effect} (h : e.LocksAt path) : ¬ e.TouchesProp key := by
  cases e <;> simp_all [Effect.LocksAt, Effect.TouchesProp]

end Touching

/-! ### A lock that is undone takes its resource with it -/

/-- A property is kept, unless what had it is gone. -/
def KeepsOrLoses (path : JsString) (key : PropKey) (s s' : Session) : Prop :=
  KeepsProp key s s' ∨ s'.volume.files.found path = false

section Undone

variable {env : Env} {path : JsString} {key : PropKey} {α β : Type}

theorem keepsOrLoses_after {x : Serve α} {f : α → Serve β} (hx : Act.Within (KeepsProp key) x)
    (hf : ∀ a s s', x.run s = (.ok a, s') → Act.Within (KeepsOrLoses path key) (f a)) :
    Act.Within (KeepsOrLoses path key) (x >>= f) := by
  refine Act.within_bind_trans hx hf (fun _ _ => .inl) ?_
  rintro s s' t h (h' | hgone)
  · exact .inl (trans_of (KeepsProp key) h h')
  · exact .inr hgone

theorem keepsOrLoses_before {x : Serve α} {b : β} (hx : Act.Within (KeepsOrLoses path key) x) :
    Act.Within (KeepsOrLoses path key) (x >>= fun _ => pure b) :=
  Act.within_bind_trans (T := fun s s' => s' = s) hx (fun _ _ _ _ _ => rfl) (fun _ _ h => h)
    (fun _ _ _ h ht => ht ▸ h)

theorem keepsOrLoses_of {x : Serve α} (hx : Act.Within (KeepsProp key) x) : Act.Within (KeepsOrLoses path key) x :=
  hx.mono fun _ _ => .inl

theorem deleteCascade_files (s : Session) : ((env.deleteCascade path).run s).2.volume.files = s.volume.files :=
  leads_keeps (L := fun e => ∃ t, e = .deleteRows path t) (I := fun v => v.files = s.volume.files)
    (by
      rintro e v v' ⟨t, rfl⟩ hc hfiles
      cases hc
      cases t <;> exact hfiles)
    (makes_attempted (Act.within_each fun t ht =>
      makes_call (makes_modify ⟨t, rfl⟩ fun _ => .deleteRows path t ht)) s) rfl

theorem unlink_ok {s s' : Session} {u : Unit} (h : (env.unlink path).run s = (.ok u, s')) :
    s.volume.files.isDirectory path = false ∧ s'.volume.files = Store.remove s.volume.files path := by
  unfold Env.unlink at h
  rw [run_call] at h
  cases hf : env.fails (.unlink path) (s.calls.count (.unlink path)) with
  | some e =>
    rw [hf] at h
    simp at h
  | none =>
    rw [hf, Act.run_bind, Act.run_read] at h
    dsimp only at h
    split at h
    · simp at h
    · rename_i hfile
      split at h
      · simp at h
      · obtain rfl : _ = s' := congrArg Prod.snd h
        exact ⟨Bool.eq_false_iff.mpr hfile, rfl⟩

theorem undoCreation_loses : Act.Within (KeepsOrLoses path key) (env.undoCreation path) := by
  unfold Env.undoCreation
  apply keepsOrLoses_before
  apply Act.within_attempt
  intro s
  rw [Act.run_bind]
  cases hrun : (env.unlink path).run s with
  | mk r s' =>
    have hkept : KeepsProp key s s' :=
      (keeps_prop (L := fun e => e = .unlink path) (by rintro e rfl; simp [Effect.TouchesProp]) (makes_unlink rfl)).of_run hrun
    cases r with
    | error e => exact .inl hkept
    | ok u =>
      right
      change ((env.deleteCascade path).run s').2.volume.files.found path = false
      unfold Files.found
      rw [deleteCascade_files]
      obtain ⟨hfile, hfiles⟩ := unlink_ok hrun
      rw [hfiles]
      have hroot : path ≠ [] := by
        rintro rfl
        simp [Files.isDirectory] at hfile
      simp [hroot]

theorem lockGrant_loses {uuid : Uuid} {bases : DavBases} {plan : Env.LockPlan} (hplan : plan.Targets path) :
    Act.Within (KeepsOrLoses path key) (env.lockGrant uuid bases plan) := by
  have hquiet : ∀ {β : Type} {x : Serve β}, Makes (fun _ => False) x → Act.Within (KeepsProp key) x :=
    fun hx => keeps_prop (fun _ h => h.elim) hx
  obtain ⟨rfl, hactive⟩ := hplan
  refine keepsOrLoses_after (hquiet makes_checkScopeConflict) fun conflict _ _ _ => ?_
  split
  · exact keepsOrLoses_of (Act.within_pure _)
  · refine keepsOrLoses_after (hquiet makes_statInner) fun st _ _ _ =>
      keepsOrLoses_after (hquiet makes_rejectsInfinityDepth) fun rejected _ _ _ => ?_
    split
    · dsimp only
      split
      · exact keepsOrLoses_of (Act.within_bind (Act.within_pure _) fun _ => Act.within_pure _)
      · exact keepsOrLoses_before undoCreation_loses
    · refine keepsOrLoses_of (keeps_prop (L := fun e => e.LocksAt plan.path) (fun e he => locks_untouched he) ?_)
      refine Act.within_bind makes_statInner fun _ =>
        Act.within_bind (Act.within_attempt (makes_writeLock hactive fun _ he => he)) fun written => ?_
      split <;> exact Act.within_pure _

theorem handleLock_loses {uuid : Uuid} {r : Incoming} {bases : DavBases} :
    Act.Within (KeepsOrLoses path key) (env.handleLock uuid r path bases) := by
  have hcreates : ∀ {β : Type} {x : Serve β}, Makes (Effect.Creates path) x → Act.Within (KeepsProp key) x :=
    fun hx => keeps_prop (fun _ h => creates_untouched h) hx
  refine keepsOrLoses_after (hcreates makes_lockAdmit) fun admitted s s' hrun => ?_
  split
  · exact keepsOrLoses_of (Act.within_pure _)
  · rename_i plan
    have hplan := lockAdmit_plan hrun
    refine keepsOrLoses_after (hcreates (makes_ensureLockableResource hplan.1))
      fun lockable _ _ _ => ?_
    split
    · exact keepsOrLoses_of (Act.within_pure _)
    · exact lockGrant_loses hplan
    · exact keepsOrLoses_after (hcreates (makes_recordLockNull fun _ _ => rfl)) fun _ _ _ _ => lockGrant_loses hplan

theorem dropLockNull_loses : Act.Within (KeepsOrLoses path key) (env.dropLockNull path) := by
  have hquiet : ∀ {β : Type} {x : Serve β}, Makes (fun _ => False) x → Act.Within (KeepsProp key) x :=
    fun hx => keeps_prop (fun _ h => h.elim) hx
  refine keepsOrLoses_after (hquiet makes_readLocks) fun remaining _ _ _ => ?_
  split
  · refine keepsOrLoses_after (hquiet (Act.within_bind makes_readMeta fun _ => Act.within_pure _)) fun lockNull _ _ _ => ?_
    split
    · exact undoCreation_loses
    · exact keepsOrLoses_of (Act.within_pure _)
  · exact keepsOrLoses_of (Act.within_pure _)

theorem handleUnlock_loses {r : Request} : Act.Within (KeepsOrLoses path key) (env.handleUnlock r path) := by
  have hlocks : ∀ {β : Type} {x : Serve β}, Makes (Effect.LocksAt path) x → Act.Within (KeepsProp key) x :=
    fun hx => keeps_prop (fun _ h => locks_untouched h) hx
  refine keepsOrLoses_after (hlocks makes_statInner) fun st _ _ _ => ?_
  split
  · exact keepsOrLoses_of (Act.within_pure _)
  · split
    · exact keepsOrLoses_of (Act.within_pure _)
    · refine keepsOrLoses_after (hlocks (Act.within_attempt (makes_releaseLock fun _ => trivial))) fun released _ _ _ => ?_
      split
      · dsimp only
        split
        · exact keepsOrLoses_before dropLockNull_loses
        · exact keepsOrLoses_of (Act.within_pure _)
      · exact keepsOrLoses_of (Act.within_pure _)

end Undone

/-! ### What leaves a property alone -/

/-- The request changes a property, or takes away or replaces the resource that has it. -/
def Exchange.Alters (env : Env) (x : Exchange) (v : Volume) (key : PropKey) : Prop := match x.verb with
  | .put _ => False
  | .mkcol => False
  | .delete => isSameOrDescendantPath x.path key.path = true
  | .proppatch => ∃ ops, x.request.propOperations env.platform = some ops ∧ ∃ op ∈ ops, PropKey.of x.path op.property = key
  | .copy => ∃ target, resolveDestination env.platform x.request.toRequest x.bases.pathBase x.path = some target ∧
      isSameOrDescendantPath target key.path = true
  | .move => isSameOrDescendantPath x.path key.path = true ∨
      ∃ target, resolveDestination env.platform x.request.toRequest x.bases.pathBase x.path = some target ∧
        isSameOrDescendantPath target key.path = true
  -- a file that was made for the lock goes with it
  | .lock _ | .unlock => isSameOrDescendantPath x.path key.path = true ∧
      (Env.after (env.serve x) v).files.found x.path = false

def ReplicaOperation.Alters (op : ReplicaOperation) (key : PropKey) : Prop := match op with
  | mkdir _ => False
  | write _ _ _ => False
  | unlink path _ => isSameOrDescendantPath path key.path = true
  | copy _ target => target = key.path

def VolumeEntry.Alters (e : VolumeEntry) (key : PropKey) : Prop := ∃ d ∈ e.props, PropKey.of e.path d = key

section Alone

variable {env : Env} {v : Volume} {key : PropKey} {row : PropRow}

theorem copies_untouched {target : JsString} (hkey : isSameOrDescendantPath target key.path = false) {e : Effect}
    (h : e.Copies target) : ¬ e.TouchesProp key := by
  have hout : ¬ (key.path = target ∨ Below slash target key.path) := by
    rw [← isSameOrDescendantPath_iff, hkey]
    simp
  rcases h with hd | hc | ⟨k, hk, he⟩ | ⟨q, hq, hc | ⟨k, hk, he⟩⟩
  · exact destroys_untouched hkey hd
  · exact creates_untouched hc
  · intro ht
    obtain rfl := edits_key he ht
    exact hout (.inl hk)
  · exact creates_untouched hc
  · intro ht
    obtain rfl := edits_key he ht
    exact hout (.inr (hk ▸ hq))

theorem createsUpTo_untouched {path : JsString} {e : Effect} (h : e.CreatesUpTo path) : ¬ e.TouchesProp key := by
  obtain ⟨q, _, he⟩ := h
  exact creates_untouched he

theorem allows_untouched {x : Exchange} (hx : ¬ x.Alters env v key)
    (hout : x.verb = .unlock ∨ (∃ uuid, x.verb = .lock uuid) → isSameOrDescendantPath x.path key.path = false) {e : Effect}
    (he : x.Allows env.platform e) : ¬ e.TouchesProp key := by
  rcases x with ⟨verb, request, path, bases⟩
  cases verb with
  | put => exact creates_untouched he
  | mkcol => exact creates_untouched he
  | delete => exact destroys_untouched (Bool.eq_false_iff.mpr hx) he
  | proppatch =>
    obtain ⟨ops, hops, op, hop, hedit⟩ := he
    exact fun ht => hx ⟨ops, hops, op, hop, edits_key hedit ht⟩
  | copy =>
    obtain ⟨target, hd, hcopies⟩ := he
    exact copies_untouched (Bool.eq_false_iff.mpr fun hin => hx ⟨target, hd, hin⟩) hcopies
  | move =>
    obtain ⟨target, hd, hdestroys | hcarries⟩ := he
    · exact destroys_untouched (Bool.eq_false_iff.mpr fun hin => hx (.inr ⟨target, hd, hin⟩)) hdestroys
    · intro ht
      cases e with
      | updatePaths source q t =>
        obtain ⟨rfl, rfl⟩ := hcarries
        exact hx (.inl (descendant_of_predicate (deletePredicate_of_subtree ht)))
      | _ => simp_all [Effect.Carries, Effect.TouchesProp]
  | lock uuid =>
    rcases he with hc | hd | hl
    · exact creates_untouched hc
    · exact destroys_untouched (hout (.inr ⟨uuid, rfl⟩)) hd
    · exact locks_untouched hl
  | unlock =>
    rcases he with hd | ⟨token, rfl⟩
    · exact destroys_untouched (hout (.inl rfl)) hd
    · simp [Effect.TouchesProp]

theorem serve_keeps_prop {x : Exchange} (hx : ¬ x.Alters env v key) (hrow : Store.get v.props key = some row) :
    Store.get (Env.after (env.serve x) v).props key = some row := by
  by_cases hout : x.verb = .unlock ∨ (∃ uuid, x.verb = .lock uuid) → isSameOrDescendantPath x.path key.path = false
  · exact keeps_prop (fun e he => allows_untouched hx hout he) (makes_serve x) ⟨v, []⟩ row hrow
  · obtain ⟨hverb, hin⟩ := Classical.not_imp.mp hout
    have hin' : isSameOrDescendantPath x.path key.path = true := by simpa using hin
    have hhandle : Act.Within (KeepsOrLoses x.path key) (env.handle x) := by
      rcases x with ⟨verb, request, path, bases⟩
      rcases hverb with h | ⟨uuid, h⟩
      · obtain rfl : verb = .unlock := h
        exact handleUnlock_loses
      · obtain rfl : verb = .lock uuid := h
        exact handleLock_loses
    have hloses : Act.Within (KeepsOrLoses x.path key) (env.serve x) := by
      unfold Env.serve
      split
      · exact keepsOrLoses_of (Act.within_pure _)
      · refine Act.within_bind_trans (T := fun s s' => s' = s) (Act.within_attempt hhandle) ?_
          (fun _ _ h => h) (fun _ _ _ h ht => ht ▸ h)
        intro answer _ _ _ s
        split <;> rfl
    rcases hloses ⟨v, []⟩ with hkept | hgone
    · exact hkept row hrow
    · refine absurd ?_ hx
      unfold Exchange.Alters
      rcases hverb with h | ⟨uuid, h⟩ <;> rw [h] <;> exact ⟨hin', hgone⟩

theorem applyOne_keeps_prop {op : ReplicaOperation} (h : ¬ op.Alters key) (hrow : Store.get v.props key = some row) :
    Store.get (Env.after (env.applyOne op) v).props key = some row := by
  refine keeps_prop (fun e he => ?_) (makes_applyOne op) ⟨v, []⟩ row hrow
  cases op with
  | mkdir => exact createsUpTo_untouched he
  | write => exact createsUpTo_untouched he
  | unlink path =>
    rcases he with hd | ⟨q, rfl⟩
    · exact destroys_untouched (Bool.eq_false_iff.mpr h) hd
    · simp [Effect.TouchesProp]
  | copy source target =>
    rcases he with hc | ⟨k, hk, he⟩
    · exact createsUpTo_untouched hc
    · intro ht
      obtain rfl := edits_key he ht
      exact h hk.symm

theorem writeEntry_keeps_prop {e : VolumeEntry} (hmint : ∀ tag, e.etag = some tag → IsMinted tag) (h : ¬ e.Alters key)
    (hrow : Store.get v.props key = some row) : Store.get (Env.after (env.writeEntry e) v).props key = some row := by
  refine keeps_prop (fun c hc => ?_) (makes_writeEntry e hmint) ⟨v, []⟩ row hrow
  rcases hc with hup | ⟨d, hd, hedit⟩
  · exact createsUpTo_untouched hup
  · exact fun ht => h ⟨d, hd, edits_key hedit ht⟩

end Alone

end DurableDav.Dav
