import DurableDav.Dav.OneEtag
import DurableDav.Dav.Handling
import DurableDav.Dav.Covering

namespace DurableDav.Dav

open Library
open Replication (Bytes isValidInnerPath parentOf)

/-! ### Where locks sit -/

namespace Volume

variable (v : Volume)

def LockedAt (q : JsString) : Prop := ∃ e ∈ v.locks, e.2.path = q

/-- Every lock sits on a path that exists, or on the root. -/
def Anchored : Prop := ∀ e ∈ v.locks, v.files.found e.2.path = true

instance : Decidable v.Anchored := by
  unfold Anchored
  infer_instance

theorem anchored_iff : v.Anchored ↔ ∀ q, v.LockedAt q → v.files.found q = true := by
  constructor
  · rintro h q ⟨e, he, rfl⟩
    exact h e he
  · exact fun h e he => h _ ⟨e, he, rfl⟩

/-- The tree has no holes, and locks sit on paths of it, of a certain kind. -/
structure Sound (H : JsString → Prop) : Prop where
  rooted : v.files.Rooted
  anchored : ∀ q, v.LockedAt q → v.files.found q = true
  kind : ∀ q, v.LockedAt q → H q

end Volume

/-- Locks stay where something is. -/
def StaysSound (H : JsString → Prop) (s s' : Session) : Prop := s.volume.Sound H → s'.volume.Sound H

instance (H : JsString → Prop) : IsPreorder Session (StaysSound H) where
  refl _ h := h
  trans _ _ _ h h' hs := h' (h hs)

/-- What is there stays, and no lock is added. -/
def Effect.Builds : Effect → Prop
  | unlink _ | remove _ | rename _ _ | grant _ _ => False
  | _ => True

/-- No lock is added or made to last longer. -/
def Effect.Frees : Effect → Prop
  | grant _ _ | extend _ => False
  | _ => True

section Anchors

variable {H : JsString → Prop} {env : Env} {v v' : Volume} {effect : Effect} {path : JsString}

theorem found_put {f : Files} {q : JsString} {i : Inode} (h : f.found q = true) : Files.found (Store.put f path i) q = true := by
  rcases found_iff.mp h with hroot | hget
  · exact found_iff.mpr (.inl hroot)
  · refine found_iff.mpr (.inr ?_)
    rw [Store.get_put]
    split
    · rfl
    · exact hget

theorem lockedAt_of_subset (h : ∀ e ∈ v'.locks, e ∈ v.locks) {q : JsString} (hq : v'.LockedAt q) : v.LockedAt q := by
  obtain ⟨e, he, hpath⟩ := hq
  exact ⟨e, h e he, hpath⟩

theorem change_builds (hc : Change v effect v') (he : effect.Builds) :
    (∀ q, v.files.found q = true → v'.files.found q = true) ∧ ∀ q, v'.LockedAt q → v.LockedAt q := by
  cases hc with
  | make => exact ⟨fun q => found_put, fun q => id⟩
  | write => exact ⟨fun q => found_put, fun q => id⟩
  | node | setProp | removeProp | noted => exact ⟨fun q => id, fun q => id⟩
  | unlink | remove | rename | grant => exact he.elim
  | extend d =>
    refine ⟨fun q => id, fun q hq => ?_⟩
    obtain ⟨e, he, rfl⟩ := hq
    obtain ⟨old, hold, rfl⟩ := List.mem_map.mp he
    refine ⟨old, hold, ?_⟩
    split <;> rfl
  | release => exact ⟨fun q => id, fun q => lockedAt_of_subset fun e he => List.mem_of_mem_filter he⟩
  | deleteRows path t =>
    cases t with
    | davLocks => exact ⟨fun q => id, fun q => lockedAt_of_subset fun e he => List.mem_of_mem_filter he⟩
    | davNodes | davProps | davReplicaState => exact ⟨fun q => id, fun q => id⟩
  | updatePaths source target t v' ht hpaths =>
    suffices hsame : v'.files = v.files ∧ v'.locks = v.locks by
      rw [hsame.1]
      exact ⟨fun q => id, fun q => lockedAt_of_subset fun e he => hsame.2 ▸ he⟩
    cases t with
    | davLocks => simp [renameCascadeTables] at ht
    | davNodes =>
      obtain ⟨_, _, rfl⟩ := Option.map_eq_some_iff.mp hpaths
      exact ⟨rfl, rfl⟩
    | davProps =>
      obtain ⟨_, _, rfl⟩ := Option.map_eq_some_iff.mp hpaths
      exact ⟨rfl, rfl⟩
    | davReplicaState =>
      obtain ⟨_, _, rfl⟩ := Option.map_eq_some_iff.mp hpaths
      exact ⟨rfl, rfl⟩

theorem builds_keeps (hc : Change v effect v') (he : effect.Builds) (hv : v.Sound H) : v'.Sound H := by
  obtain ⟨hfound, hlocked⟩ := change_builds hc he
  exact ⟨change_rooted hc hv.rooted, fun q hq => hfound q (hv.anchored q (hlocked q hq)), fun q hq => hv.kind q (hlocked q hq)⟩

theorem builds_sound {L : Effect → Prop} (hL : ∀ e, L e → e.Builds) {α : Type} {x : Serve α} (hx : Makes L x) :
    Act.Within (StaysSound H) x :=
  fun s hs => leads_keeps (I := fun v => v.Sound H) (fun e _ _ he hc => builds_keeps hc (hL e he)) (hx s) hs

theorem makes_rooted {L : Effect → Prop} {α : Type} {x : Serve α} (hx : Makes L x) (s : Session)
    (h : s.volume.files.Rooted) : (x.run s).2.volume.files.Rooted :=
  leads_keeps (I := fun v => v.files.Rooted) (fun _ _ _ _ => change_rooted) (hx s) h

theorem stays_quiet : Quiet (StaysSound H) := by
  intro s s' hvol hs
  rwa [hvol]

/-! ### What is removed takes its locks along -/

/-- The statements that delete the rows of a path work. -/
def Env.Cascades (env : Env) (path : JsString) : Prop :=
  ∀ t ∈ cascadeTables, ∀ n, env.fails (.exec (.deleteRows t path)) n = none

theorem cascade_run (h : env.Cascades path) (s : Session) :
    ∃ s', (env.deleteCascade path).run s = (.ok (), s') ∧ s'.volume = s.volume.cleared path := by
  have hstep (t : Table) (ht : t ∈ cascadeTables) (s : Session) :
      (env.exec (.deleteRows t path) (Env.modifyVolume (fun v => v.deleteRows path t))).run s =
        (.ok (), ⟨s.volume.deleteRows path t, .exec (.deleteRows t path) :: s.calls⟩) := by
    rw [Env.exec, call_run (h t ht _)]
    rfl
  have hrun : ∃ s', (env.deleteNodeCascade path).run s = (.ok (), s') ∧ s'.volume = s.volume.cleared path := by
    unfold Env.deleteNodeCascade cascadeTables
    simp only [Act.each_cons, Act.each_nil]
    rw [Act.run_bind_ok (hstep _ (by simp [cascadeTables]) _), Act.run_bind_ok (hstep _ (by simp [cascadeTables]) _),
      Act.run_bind_ok (hstep _ (by simp [cascadeTables]) _)]
    exact ⟨_, rfl, rfl⟩
  obtain ⟨s', hrun, hvol⟩ := hrun
  refine ⟨s', ?_, hvol⟩
  unfold Env.deleteCascade
  rw [Act.run_bind_ok (show (env.deleteNodeCascade path).attempt.run s = (.ok (.ok ()), s') by
    rw [Act.run_attempt, hrun])]
  rfl

theorem cleared_lockedAt {q : JsString} : (v.cleared path).LockedAt q ↔ v.LockedAt q ∧ deletePredicate path q = false := by
  unfold Volume.LockedAt Volume.cleared Volume.deleteRows Store.removeWhere
  simp only [List.mem_filter]
  constructor
  · rintro ⟨e, ⟨he, hsel⟩, rfl⟩
    exact ⟨⟨e, he, rfl⟩, by simpa using hsel⟩
  · rintro ⟨⟨e, he, rfl⟩, hsel⟩
    exact ⟨e, ⟨he, by simpa using hsel⟩, rfl⟩

/-- The rows of what is removed are deleted, wherever they are selected. -/
theorem removed_sound {files : Files} (hv : v.Sound H) (hrooted : files.Rooted)
    (hfound : ∀ q, v.files.found q = true → ¬ (q = path ∨ Below slash path q) → files.found q = true)
    (hsel : ∀ q, v.LockedAt q → Below slash path q → subtreePredicate path q = true) :
    (Volume.cleared { v with files := files } path).Sound H := by
  refine ⟨hrooted, fun q hq => ?_, fun q hq => ?_⟩
  · obtain ⟨hlocked, hout⟩ := cleared_lockedAt.mp hq
    refine hfound q (hv.anchored q hlocked) ?_
    rintro (rfl | hb)
    · simp [deletePredicate, subtreePredicate] at hout
    · rw [deletePredicate_of_subtree (hsel q hlocked hb)] at hout
      simp at hout
  · exact hv.kind q (cleared_lockedAt.mp hq).1

/-- Nothing sits below a file. -/
theorem Volume.Sound.nothing_below {q : JsString} (hv : v.Sound H) (hfile : v.files.isDirectory path = false) (hq : v.LockedAt q) :
    ¬ Below slash path q := by
  intro hb
  rcases found_iff.mp (hv.anchored q hq) with rfl | hget
  · exact hb.ne_nil rfl
  · have hdir := hv.rooted.above hget hb
    rw [hfile] at hdir
    simp at hdir

theorem unlink_sound (hc : env.Cascades path) (s : Session) (hs : s.volume.Sound H) :
    (∃ e s', (env.unlink path).run s = (.error e, s') ∧ s'.volume = s.volume) ∨
      ∃ a s', (env.unlink path).run s = (.ok a, s') ∧ ((env.deleteCascade path).run s').2.volume.Sound H := by
  rcases comes_unlink env path s with hfails | ⟨a, s', hrun, hfile, hvol⟩
  · exact .inl hfails
  · refine .inr ⟨a, s', hrun, ?_⟩
    obtain ⟨s'', hcascade, hvol'⟩ := cascade_run hc s'
    rw [hcascade, hvol', hvol]
    have hrooted : Files.Rooted (Store.remove s.volume.files path) := by
      have hmakes : Makes (fun _ => True) (env.unlink path) := makes_unlink trivial
      have hkept := makes_rooted hmakes s hs.rooted
      rw [hrun, hvol] at hkept
      exact hkept
    refine removed_sound hs hrooted (fun q hq hout => ?_) (fun q hq hb => absurd hb (hs.nothing_below hfile hq))
    have hne : q ≠ path := fun he => hout (.inl he)
    simpa [Files.found, hne] using hq

theorem rmdir_sound (hc : env.Cascades path) (hsel : ∀ q, H q → Below slash path q → subtreePredicate path q = true)
    (s : Session) (hs : s.volume.Sound H) :
    (∃ e s', (env.rmdir path).run s = (.error e, s') ∧ s'.volume = s.volume) ∨
      ∃ a s', (env.rmdir path).run s = (.ok a, s') ∧ ((env.deleteCascade path).run s').2.volume.Sound H := by
  rcases comes_rmdir env path s with hfails | ⟨a, s', hrun, hvol⟩
  · exact .inl hfails
  · refine .inr ⟨a, s', hrun, ?_⟩
    obtain ⟨s'', hcascade, hvol'⟩ := cascade_run hc s'
    rw [hcascade, hvol', hvol]
    have hmakes : Makes (fun _ => True) (env.rmdir path) := makes_rmdir trivial
    have hrooted := makes_rooted hmakes s hs.rooted
    rw [hrun, hvol] at hrooted
    refine removed_sound hs hrooted (fun q hq hout => ?_) (fun q hq hb => hsel q (hs.kind q hq) hb)
    simpa [Files.found, hout] using hq

theorem undoCreation_sound (hc : env.Cascades path) : Act.Within (StaysSound H) (env.undoCreation path) := by
  intro s hs
  rcases unlink_sound hc s hs with ⟨e, s', hrun, hvol⟩ | ⟨a, s', hrun, hsound⟩
  · have hundo : ((env.undoCreation path).run s).2 = s' := by
      unfold Env.undoCreation
      rw [Act.run_bind, Act.run_attempt, Act.run_bind_error hrun]
      rfl
    rw [hundo, hvol]
    exact hs
  · have hundo : ((env.undoCreation path).run s).2 = ((env.deleteCascade path).run s').2 := by
      unfold Env.undoCreation
      rw [Act.run_bind, Act.run_attempt, Act.run_bind_ok hrun]
      rfl
    rw [hundo]
    exact hsound

theorem deleteFile_sound (hc : env.Cascades path) : Act.Within (StaysSound H) (env.deleteFile path) := by
  intro s hs
  unfold Env.deleteFile
  rw [Act.run_bind, Act.run_attempt]
  rcases unlink_sound hc s hs with ⟨e, s', hrun, hvol⟩ | ⟨a, s', hrun, hsound⟩
  · rw [hrun]
    show s'.volume.Sound H
    rwa [hvol]
  · rw [hrun]
    exact builds_sound (L := fun _ => False) (fun _ he => he.elim) (Act.within_pure _) _ hsound

theorem deleteCollection_sound {r : Request} (hc : env.Cascades path)
    (hsel : ∀ q, H q → Below slash path q → subtreePredicate path q = true) :
    Act.Within (StaysSound H) (env.deleteCollection r path) := by
  refine Act.within_bind (stays_quiet.makes makes_refuseSubtree) fun refusal => ?_
  split
  · exact Act.within_pure _
  · intro s hs
    rw [Act.run_bind, Act.run_attempt]
    rcases rmdir_sound hc hsel s hs with ⟨e, s', hrun, hvol⟩ | ⟨a, s', hrun, hsound⟩
    · rw [hrun]
      show s'.volume.Sound H
      rwa [hvol]
    · rw [hrun]
      exact hsound

theorem removeExisting_sound {r : Request} {destExists : Bool} (hc : env.Cascades path)
    (hsel : ∀ q, H q → Below slash path q → subtreePredicate path q = true) :
    Act.Within (StaysSound H) (env.removeExisting r path destExists) :=
  within_removeExisting (within_handleDelete stays_quiet (deleteCollection_sound hc hsel) (deleteFile_sound hc))

theorem rename_sound {target : JsString} (ht : Apart path target) (hfree : ∀ q, H q → q ≠ path ∧ ¬ Below slash path q) :
    Act.Within (StaysSound H) (env.rename path target) := by
  intro s hs
  have hmakes : Makes (fun e => e = .rename path target) (env.rename path target) := makes_rename ht rfl
  refine leads_keeps (I := fun v => v.Sound H) (fun e v v' he hc hI => ?_) (hmakes s) hs
  obtain rfl := he
  have hrooted := change_rooted hc hI.rooted
  cases hc with
  | rename _ _ files hroot hne hout hfound hfree' hparent hfiles =>
    refine ⟨hrooted, fun q hq => ?_, hI.kind⟩
    obtain ⟨hne', hout'⟩ := hfree q (hI.kind q hq)
    rcases found_iff.mp (hI.anchored q hq) with hroot | hget
    · exact found_iff.mpr (.inl hroot)
    · have hkept := rekey_get hfiles (Store.mem_keys.mpr hget)
      rw [if_neg (not_or.mpr ⟨hne', hout'⟩)] at hkept
      exact found_iff.mpr (.inr (by rw [hkept]; exact hget))

/-! ### The requests -/

theorem creates_builds {e : Effect} (h : e.Creates path) : e.Builds := by
  cases e <;> trivial

theorem edits_builds {e : Effect} (h : e.Edits path) : e.Builds := by
  obtain ⟨_, _, h⟩ := h
  cases e <;> trivial

theorem fills_builds {e : Effect} (h : e.Fills path) : e.Builds := by
  obtain ⟨_, _, h | h⟩ := h
  · exact creates_builds h
  · exact edits_builds h

theorem handleCopy_sound {r : Request} {bases : DavBases}
    (h : ∀ target, resolveDestination env.platform r bases.pathBase path = some target → env.Cascades target ∧
      ∀ q, H q → Below slash target q → subtreePredicate target q = true) :
    Act.Within (StaysSound H) (env.handleCopy r path bases) := by
  refine within_handleCopy stays_quiet fun target hd => ?_
  obtain ⟨hc, hsel⟩ := h target hd
  have hmeta : ∀ isCollection, Act.Within (StaysSound H) (env.copyMeta path target isCollection) := fun _ =>
    builds_sound (L := Effect.Builds) (fun _ => id) (makes_copyMeta (fun _ he => creates_builds he.creates) (fun _ => edits_builds))
  refine ⟨fun _ => removeExisting_sound hc hsel, fun depth destExists => ?_, ?_, hmeta false⟩
  · refine within_makeTarget stays_quiet ?_ (hmeta true) fun names => ?_
    · exact builds_sound (L := Effect.Builds) (fun _ => id) (makes_mkdir trivial)
    · exact builds_sound (L := Effect.Builds) (fun _ => id) (makes_fills fun _ => fills_builds)
  · exact builds_sound (L := Effect.Builds) (fun _ => id) (makes_copyBytes fun _ => creates_builds)

theorem handleMove_sound {r : Request} {bases : DavBases}
    (h : ∀ target, resolveDestination env.platform r bases.pathBase path = some target → env.Cascades target ∧
      (∀ q, H q → Below slash target q → subtreePredicate target q = true) ∧
      ∀ q, H q → q ≠ path ∧ ¬ Below slash path q) :
    Act.Within (StaysSound H) (env.handleMove r path bases) := by
  refine within_handleMove stays_quiet fun target hd _ _ => ?_
  obtain ⟨hc, hsel, hfree⟩ := h target hd
  refine within_moveOver (removeExisting_sound hc hsel) (rename_sound (resolveDestination_apart hd) hfree) ?_
  exact builds_sound (L := Effect.Builds) (fun _ => id) (makes_renameCascade fun _ => trivial)

theorem granted_sound {uuid : Uuid} {row : LockRow} (hv : v.Sound H) (hfound : v.files.found row.path = true)
    (hkind : H row.path) : (v.insertLock uuid.val row).Sound H := by
  have hlocked : ∀ q, (v.insertLock uuid.val row).LockedAt q → q = row.path ∨ v.LockedAt q := by
    rintro q ⟨e, he, rfl⟩
    rcases List.mem_cons.mp he with rfl | he
    · exact .inl rfl
    · exact .inr ⟨e, List.mem_of_mem_filter he, rfl⟩
  refine ⟨hv.rooted, fun q hq => ?_, fun q hq => ?_⟩
  · rcases hlocked q hq with rfl | hq
    · exact hfound
    · exact hv.anchored q hq
  · rcases hlocked q hq with rfl | hq
    · exact hkind
    · exact hv.kind q hq

theorem writeLock_sound {uuid : Uuid} {existing : Option LockDetails} {d : LockDetails} {q : JsString}
    (hq : existing = none → q = path) (hkind : H path) :
    Act.Meets (fun s => s.volume.Sound H ∧ s.volume.files.found path = true) (env.writeLock uuid existing q d)
      (fun _ s => s.volume.Sound H) (fun s => s.volume.Sound H) := by
  rintro s ⟨hs, hfound⟩
  unfold Env.writeLock
  cases existing with
  | some old =>
    have hsound : ((env.exec (.updateLock d.token) (Env.modifyVolume (fun v => v.updateLock d))).run s).2.volume.Sound H :=
      builds_sound (L := Effect.Builds) (fun _ => id) (makes_call (makes_modify (e := .extend d) trivial fun _ => .extend d)) s hs
    dsimp only
    generalize (env.exec _ _).run s = out at hsound
    rcases out with ⟨_ | _, s'⟩ <;> exact hsound
  | none =>
    obtain rfl := hq rfl
    dsimp only
    rw [Env.exec, run_call]
    cases env.fails (.exec (.insertLock uuid.val)) (s.calls.count (.exec (.insertLock uuid.val))) with
    | some e => exact hs
    | none =>
      dsimp only
      rw [Act.run_bind, Act.run_read]
      dsimp only
      split
      · exact hs
      · exact granted_sound hs hfound hkind

theorem quiet_meets {α : Type} {P : Volume → Prop} {x : Serve α} (hx : Makes (fun _ => False) x) :
    Act.Meets (fun s => P s.volume) x (fun _ s => P s.volume) (fun s => P s.volume) :=
  Act.Within.meets hx fun _ _ hP hlead => leads_keeps (I := P) (fun _ _ _ he => he.elim) hlead hP

theorem lockGrant_sound {uuid : Uuid} {bases : DavBases} {plan : Env.LockPlan} (hplan : plan.Targets path)
    (hc : env.Cascades path) (hkind : H path) :
    Act.Meets (fun s => s.volume.Sound H ∧ s.volume.files.found path = true) (env.lockGrant uuid bases plan)
      (fun _ s => s.volume.Sound H) (fun s => s.volume.Sound H) := by
  have hquiet : ∀ {α : Type} {x : Serve α}, Makes (fun _ => False) x →
      Act.Meets (fun s => s.volume.Sound H ∧ s.volume.files.found path = true) x
        (fun _ s => s.volume.Sound H ∧ s.volume.files.found path = true) (fun s => s.volume.Sound H) := fun hx =>
    (quiet_meets (P := fun v => v.Sound H ∧ v.files.found path = true) hx).weaken (fun _ h => h) (fun _ _ h => h)
      (fun _ h => h.1)
  obtain ⟨rfl, hactive⟩ := hplan
  refine Act.meets_bind (hquiet makes_checkScopeConflict) fun conflict => ?_
  split
  · exact Act.meets_pure fun _ h => h.1
  · refine Act.meets_bind (hquiet makes_statInner) fun st => Act.meets_bind (hquiet makes_rejectsInfinityDepth) fun rejected => ?_
    split
    · have hundone : Act.Within (StaysSound H) (do
          if plan.wasPresent then pure ()
          else env.undoCreation plan.path
          pure Response.badRequest) := by
        split
        · exact Act.within_bind (Act.within_pure _) fun _ => Act.within_pure _
        · exact Act.within_bind (undoCreation_sound hc) fun _ => Act.within_pure _
      exact Act.Within.meets hundone fun s s' hs hstays => hstays hs.1
    · refine Act.meets_bind (hquiet makes_statInner) fun _ => ?_
      refine Act.meets_bind (R := fun _ s => s.volume.Sound H) ?_ fun written => ?_
      · exact (Act.meets_attempt (writeLock_sound hactive hkind)).weaken (fun _ h => h)
          (fun written s h => by cases written <;> exact h) (fun _ h => h.elim)
      · split <;> exact Act.meets_pure fun _ h => h

def Env.Lockable.Usable : Env.Lockable → Prop
  | there | created => True
  | refused _ => False

theorem ensureLockable_sound {plan : Env.LockPlan} : Act.Meets (fun s => s.volume.Sound H) (env.ensureLockableResource plan)
    (fun l s => s.volume.Sound H ∧ (l.Usable → s.volume.files.found plan.path = true)) (fun s => s.volume.Sound H) := by
  refine Act.meets_bind (R := fun st s => s.volume.Sound H ∧ (st.found = true → s.volume.files.found plan.path = true))
    ?_ fun st => ?_
  · intro s hs
    rw [statInner_run]
    exact ⟨hs, fun hfound => (sees_found hfound).1⟩
  · split
    · rename_i hst
      exact Act.meets_pure fun s h => ⟨h.1, fun _ => h.2 hst⟩
    · split
      · exact Act.meets_pure fun s h => ⟨h.1, False.elim⟩
      · refine Act.meets_bind (R := fun _ s => s.volume.Sound H) ?_ fun orphan => ?_
        · exact (quiet_meets (P := fun v => v.Sound H) makes_orphaned).weaken (fun _ h => h.1) (fun _ _ h => h) (fun _ h => h)
        · split
          · exact Act.meets_pure fun s h => ⟨h, False.elim⟩
          · split
            · exact Act.meets_pure fun s h => ⟨h, False.elim⟩
            · intro s hs
              have hmakes : Makes Effect.Builds (env.writeFile plan.path []) := makes_writeFile trivial
              have hkept := builds_sound (H := H) (fun _ => id) hmakes s hs
              rcases comes_writeFile env plan.path [] s with
                ⟨e, s', hrun, _⟩ | ⟨a, s', hrun, _, hvol⟩
              · rw [hrun] at hkept
                rw [Act.run_bind, Act.run_attempt, hrun]
                exact ⟨hkept, False.elim⟩
              · rw [hrun] at hkept
                rw [Act.run_bind, Act.run_attempt, hrun]
                refine ⟨hkept, fun _ => ?_⟩
                show s'.volume.files.found plan.path = true
                rw [hvol]
                simp [Files.found]

theorem handleLock_sound {uuid : Uuid} {r : Incoming} {bases : DavBases} (hc : env.Cascades path) (hkind : H path) :
    Act.Within (StaysSound H) (env.handleLock uuid r path bases) := by
  refine Act.within_bind_of_run (stays_quiet.makes makes_lockAdmit) fun admitted s s' hrun => ?_
  split
  · exact Act.within_pure _
  · rename_i plan
    have hplan := lockAdmit_plan hrun
    refine fun s hs => Act.Meets.after (P := fun s : Session => s.volume.Sound H) (E := fun s : Session => s.volume.Sound H) ?_ hs
    refine Act.meets_bind ensureLockable_sound fun lockable => ?_
    rw [hplan.1]
    cases lockable with
    | refused response => exact Act.meets_pure fun s h => h.1
    | there => exact (lockGrant_sound hplan hc hkind).weaken (fun s h => ⟨h.1, h.2 trivial⟩) (fun _ _ h => h) (fun _ h => h)
    | created =>
      refine Act.meets_bind (R := fun _ s => s.volume.Sound H ∧ s.volume.files.found path = true) ?_ fun _ =>
        lockGrant_sound hplan hc hkind
      have hnull : Makes (fun e => ∃ row, e = .node path row) (env.recordLockNull path) :=
        makes_recordLockNull fun row _ => ⟨row, rfl⟩
      have hkeeps : Act.Meets (fun s => s.volume.Sound H ∧ s.volume.files.found path = true) (env.recordLockNull path)
          (fun _ s => s.volume.Sound H ∧ s.volume.files.found path = true)
          (fun s => s.volume.Sound H ∧ s.volume.files.found path = true) := by
        refine Act.Within.meets hnull fun s s' hs hlead => leads_keeps
          (I := fun v => v.Sound H ∧ v.files.found path = true) (fun e v v' he hc hI => ?_) hlead hs
        obtain ⟨row, rfl⟩ := he
        exact ⟨builds_keeps hc trivial hI.1, (change_builds hc trivial).1 path hI.2⟩
      exact hkeeps.weaken (fun s h => ⟨h.1, h.2 trivial⟩) (fun _ _ h => h) (fun _ h => h.1)

theorem handleUnlock_sound {r : Request} (hc : env.Cascades path) : Act.Within (StaysSound H) (env.handleUnlock r path) :=
  within_handleUnlock stays_quiet (undoCreation_sound hc) fun _ =>
    builds_sound (L := Effect.Builds) (fun _ => id) (makes_releaseLock fun _ => trivial)

end Anchors

/-! ### Runs of requests -/

/-- The path that a request clears, if it is carried out. -/
def Exchange.clears (p : Platform) (x : Exchange) : Option JsString := match x.verb with
  | .delete => some x.path
  | .copy | .move => resolveDestination p x.request.toRequest x.bases.pathBase x.path
  | _ => none

/-- The path of a file that is dropped with its last lock. -/
def Exchange.undoes (x : Exchange) : Option JsString := match x.verb with
  | .lock _ | .unlock => some x.path
  | _ => none

/-- A request takes the rows of the locks along with what it removes, and nothing locked is moved. -/
structure Exchange.Tidy (env : Env) (v : Volume) (x : Exchange) : Prop where
  cascades : ∀ d, x.clears env.platform = some d ∨ x.undoes = some d → env.Cascades d
  selects : ∀ d, x.clears env.platform = some d → ∀ q, v.LockedAt q → Below slash d q → subtreePredicate d q = true
  leaves : x.verb = .move → ∀ target, x.clears env.platform = some target →
    (env.Stores → env.moveGuard v x.request.toRequest x.path target = none) →
      ∀ q, v.LockedAt q → q ≠ x.path ∧ ¬ Below slash x.path q

def Tidy : Volume → List (Env × Exchange) → Prop
  | _, [] => True
  | v, (env, x) :: rest => x.Tidy env v ∧ Tidy (Env.after (env.serve x) v) rest

/-- The holder of a lock can release it. -/
def Volume.Releasable (v : Volume) : Prop := ∀ e ∈ v.locks, ∀ (env : Env) (r : Request), (∀ op n, env.fails op n = none) →
  r.lockToken = some e.1 → v.statusOf (env.handleUnlock r e.2.path) = some 204 ∧
    ∀ e' ∈ (Env.after (env.handleUnlock r e.2.path) v).locks, e'.1 ≠ e.1

/-- A MOVE that succeeds leaves no lock behind. -/
def Exchange.LeavesNone (env : Env) (v : Volume) (x : Exchange) : Prop := x.verb = .move →
  ∀ response s, (env.serve x).run ⟨v, []⟩ = (.ok response, s) → response.ok = true →
    ∀ q, s.volume.LockedAt q → q ≠ x.path ∧ ¬ Below slash x.path q

/-- In no state of the run is a lock stranded. -/
def NeverStranded : Volume → List (Env × Exchange) → Prop
  | v, [] => v.Anchored ∧ v.Releasable
  | v, (env, x) :: rest => v.Anchored ∧ v.Releasable ∧ x.LeavesNone env v ∧ NeverStranded (Env.after (env.serve x) v) rest

section Runs

variable {env : Env} {v v' : Volume} {effect : Effect} {x : Exchange}

theorem sound_of {H : JsString → Prop} (hv : Reached v) (ha : v.Anchored) (hkind : ∀ q, v.LockedAt q → H q) : v.Sound H :=
  ⟨reached_rooted hv, v.anchored_iff.mp ha, hkind⟩

/-- Where locks may sit when a request is carried out. -/
def Exchange.Kind (p : Platform) (x : Exchange) (q : JsString) : Prop := ∀ d, x.clears p = some d →
  (Below slash d q → subtreePredicate d q = true) ∧ (x.verb = .move → q ≠ x.path ∧ ¬ Below slash x.path q)

theorem handle_sound (htidy : x.Tidy env v) : Act.Within (StaysSound (x.Kind env.platform)) (env.handle x) := by
  have hsel : ∀ d, x.clears env.platform = some d → ∀ q, x.Kind env.platform q → Below slash d q →
      subtreePredicate d q = true := fun d hd q hq => (hq d hd).1
  have hnone : x.clears env.platform = none → x.Kind env.platform x.path := fun hc d hd => by
    rw [hc] at hd
    simp at hd
  rcases x with ⟨verb, request, path, bases⟩
  cases verb with
  | put => exact builds_sound (L := Effect.Builds) (fun _ => id) (makes_handlePut fun _ => creates_builds)
  | mkcol => exact builds_sound (L := Effect.Builds) (fun _ => id) (makes_handleMkcol (creates_builds rfl) fun _ he => creates_builds he.creates)
  | proppatch =>
    refine builds_sound (L := Effect.Builds) (fun _ => id) (Act.within_bind (makes_handleProppatch fun _ _ op _ e he =>
      edits_builds ⟨.of path op.property, rfl, he⟩) fun _ => Act.within_pure _)
  | delete =>
    exact within_handleDelete stays_quiet (deleteCollection_sound (htidy.cascades _ (.inl rfl)) (hsel _ rfl))
      (deleteFile_sound (htidy.cascades _ (.inl rfl)))
  | copy => exact handleCopy_sound fun target hd => ⟨htidy.cascades _ (.inl hd), hsel _ hd⟩
  | move => exact handleMove_sound fun target hd => ⟨htidy.cascades _ (.inl hd), hsel _ hd, fun q hq => (hq target hd).2 rfl⟩
  | lock => exact handleLock_sound (htidy.cascades _ (.inr rfl)) (hnone rfl)
  | unlock => exact handleUnlock_sound (htidy.cascades _ (.inr rfl))

/-- What is carried out leaves the locks anchored; a MOVE leaves its source without any. -/
theorem serve_sound (hv : Reached v) (ha : v.Anchored) (htidy : x.Tidy env v) (hgo : x.verb = .move →
    ∀ target, x.clears env.platform = some target → env.Stores → env.moveGuard v x.request.toRequest x.path target = none) :
    (Env.after (env.serve x) v).Sound (x.Kind env.platform) := by
  refine serve_within (handle_sound htidy) ⟨v, []⟩ ⟨reached_rooted hv, v.anchored_iff.mp ha, ?_⟩
  exact fun q hq d hd => ⟨htidy.selects d hd q hq, fun hmove => htidy.leaves hmove d hd (hgo hmove d hd) q hq⟩

theorem serve_run {response : Response} {s : Session} (hvalid : isValidInnerPath x.path = true)
    (hrun : (env.handle x).run ⟨v, []⟩ = (.ok response, s)) : (env.serve x).run ⟨v, []⟩ = (.ok response, s) := by
  unfold Env.serve
  rw [hvalid]
  simp only [Bool.not_true, Bool.false_eq_true, ↓reduceIte]
  rw [Act.run_bind_ok (show (env.handle x).attempt.run ⟨v, []⟩ = (.ok (.ok response), s) by rw [Act.run_attempt, hrun])]
  rfl

theorem serve_invalid (hvalid : isValidInnerPath x.path = false) :
    (env.serve x).run ⟨v, []⟩ = (.ok .badRequest, ⟨v, []⟩) := by
  unfold Env.serve
  rw [hvalid]
  rfl

/-- A MOVE that a check refuses changes nothing. -/
theorem serve_refused {target : JsString} {response : Response} (hmove : x.verb = .move)
    (hd : x.clears env.platform = some target) (hstores : env.Stores)
    (hguard : env.moveGuard v x.request.toRequest x.path target = some response) :
    ∃ answer s, (env.serve x).run ⟨v, []⟩ = (.ok answer, s) ∧ s.volume = v ∧ 400 ≤ answer.status := by
  rcases x with ⟨verb, request, path, bases⟩
  obtain rfl : verb = .move := hmove
  have hcourse := handleMove_course (v := v) hstores hd
  rw [hguard] at hcourse
  obtain ⟨s, hrun, hvol⟩ := hcourse
  cases hvalid : isValidInnerPath path with
  | false => exact ⟨_, _, serve_invalid hvalid, rfl, by simp [Response.badRequest, Response.text]⟩
  | true => exact ⟨response, s, serve_run hvalid hrun, hvol, moveGuard_status hguard⟩

theorem serve_nowhere (hmove : x.verb = .move) (hd : x.clears env.platform = none) :
    (env.serve x).run ⟨v, []⟩ = (.ok .badRequest, ⟨v, []⟩) := by
  rcases x with ⟨verb, request, path, bases⟩
  obtain rfl : verb = .move := hmove
  have hrun : (env.handleMove request.toRequest path bases).run ⟨v, []⟩ = (.ok .badRequest, ⟨v, []⟩) := by
    unfold Env.handleMove
    rw [show resolveDestination env.platform request.toRequest bases.pathBase path = none from hd]
    rfl
  cases hvalid : isValidInnerPath path with
  | false => exact serve_invalid hvalid
  | true => exact serve_run hvalid hrun

theorem serve_anchored (hv : Reached v) (ha : v.Anchored) (htidy : x.Tidy env v) :
    (Env.after (env.serve x) v).Anchored ∧ x.LeavesNone env v := by
  by_cases hgo : x.verb = .move → ∀ target, x.clears env.platform = some target → env.Stores →
      env.moveGuard v x.request.toRequest x.path target = none
  · have hsound := serve_sound hv ha htidy hgo
    refine ⟨(Volume.anchored_iff _).mpr hsound.anchored, fun hmove response s hrun hok q hq => ?_⟩
    have hvol : Env.after (env.serve x) v = s.volume := by
      unfold Env.after
      rw [hrun]
    rw [hvol] at hsound
    cases hd : x.clears env.platform with
    | none =>
      obtain rfl : Response.badRequest = response :=
        Except.ok.inj (congrArg Prod.fst ((serve_nowhere hmove hd).symm.trans hrun))
      exact absurd hok (by decide)
    | some target => exact (hsound.kind q hq target hd).2 hmove
  · push Not at hgo
    obtain ⟨hmove, target, hd, hstores, hguard⟩ := hgo
    obtain ⟨response, hguard⟩ := Option.ne_none_iff_exists'.mp hguard
    obtain ⟨answer, s, hrun, hvol, hstatus⟩ := serve_refused hmove hd hstores hguard
    refine ⟨?_, fun _ response' s' hrun' hok => ?_⟩
    · unfold Env.after
      rw [hrun, hvol]
      exact ha
    · obtain rfl : answer = response' := Except.ok.inj (congrArg Prod.fst (hrun.symm.trans hrun'))
      exact absurd hok (not_ok hstatus)

/-! ### The release of a lock -/

theorem uuid_units {t : JsString} (h : isUuid t = true) : t ≠ [] ∧ ∀ c ∈ t,
    (48 ≤ c.val ∧ c.val ≤ 57) ∨ (97 ≤ c.val ∧ c.val ≤ 102) ∨ c.val = 45 := by
  simp only [isUuid, Bool.decide_and, Bool.and_eq_true, decide_eq_true_eq, List.all_eq_true] at h
  refine ⟨?_, fun c hc => ?_⟩
  · rintro rfl
    simp at h
  · have hunit := h.2 c hc
    simp only [isDigitUnit, decide_eq_true_eq] at hunit
    rcases hunit with hdigit | hletter | hdash
    · exact .inl hdigit
    · exact .inr (.inl hletter)
    · exact .inr (.inr (by rw [hdash]; rfl))

theorem uuid_not_whiteSpace {t : JsString} (h : isUuid t = true) {c : CodeUnit} (hc : c ∈ t) : isWhiteSpace c = false := by
  have hunit := (uuid_units h).2 c hc
  simp only [isWhiteSpace, decide_eq_false_iff_not, List.mem_cons, List.not_mem_nil, or_false]
  omega

/-- A token is what it is called by. -/
theorem normalize_uuid {t : JsString} (h : isUuid t = true) : normalizeLockToken t = t := by
  obtain ⟨hne, hunits⟩ := uuid_units h
  have hstart : ∀ (text : JsString) c, text.head? = some c → c.val = 60 ∨ 102 < c.val → ¬ text <+: t := by
    intro text c hc hval hp
    obtain ⟨rest, rfl⟩ := hp
    have hmem : c ∈ text := List.mem_of_mem_head? hc
    have hunit := hunits c (List.mem_append_left _ hmem)
    omega
  have htrim : trim t = t := by
    have hleft : t.dropWhile isWhiteSpace = t := by
      cases t with
      | nil => rfl
      | cons c rest => simp [uuid_not_whiteSpace h List.mem_cons_self]
    have hright : t.reverse.dropWhile isWhiteSpace = t.reverse := by
      cases hr : t.reverse with
      | nil => rfl
      | cons c rest =>
        have hc : c ∈ t := List.mem_reverse.mp (hr ▸ List.mem_cons_self)
        simp [uuid_not_whiteSpace h hc]
    unfold trim
    rw [hleft, hright, List.reverse_reverse]
  have hlast : t.getLast? ≠ some 62 := by
    intro hlast
    have hunit := hunits 62 (List.mem_of_getLast? hlast)
    have hval : (62 : CodeUnit).val = 62 := rfl
    omega
  unfold normalizeLockToken
  rw [htrim]
  unfold stripStart
  rw [if_neg (hstart [60] 60 rfl (.inl rfl))]
  dsimp only
  rw [if_neg hlast, if_neg (hstart _ 117 rfl (.inr (by decide))), if_neg (hstart _ 111 rfl (.inr (by decide)))]

theorem change_frees (hc : Change v effect v') (he : effect.Frees) : ∀ e ∈ v'.locks, e ∈ v.locks := by
  cases hc with
  | grant | extend => exact he.elim
  | make | write | unlink | remove | rename | node | setProp | removeProp | noted => exact fun _ h => h
  | release token => exact fun _ h => List.mem_of_mem_filter h
  | deleteRows path t =>
    cases t with
    | davLocks => exact fun _ h => List.mem_of_mem_filter h
    | davNodes | davProps | davReplicaState => exact fun _ h => h
  | updatePaths source target t v' ht hpaths =>
    cases t with
    | davLocks => simp [renameCascadeTables] at ht
    | davNodes | davProps | davReplicaState =>
      obtain ⟨_, _, rfl⟩ := Option.map_eq_some_iff.mp hpaths
      exact fun _ h => h

theorem leads_frees {L : Effect → Prop} (hL : ∀ e, L e → e.Frees) {s s' : Session} (h : Leads L s s') :
    ∀ e ∈ s'.volume.locks, e ∈ s.volume.locks :=
  leads_keeps (I := fun v => ∀ e ∈ v.locks, e ∈ s.volume.locks)
    (fun e _ _ he hc hI l hl => hI l (change_frees hc (hL e he) l hl)) h fun _ h => h

theorem destroys_frees {path : JsString} {e : Effect} (h : e.Destroys path) : e.Frees := by
  cases e <;> trivial

theorem readLocks_run (env : Env) (path : JsString) (s : Session) : ∃ locks,
    (env.readLocks path).run s = (.ok locks, s.record (.exec (.readLocks path))) ∧
      (env.fails (.exec (.readLocks path)) (s.calls.count (.exec (.readLocks path))) = none →
        locks = (s.volume.locksAt env.now path).filterMap (fun e => lockDetailsFromRow env.now e.1 e.2 e.2.root)) := by
  unfold Env.readLocks
  rw [Act.run_bind, Act.run_attempt, Env.exec, run_call]
  cases env.fails (.exec (.readLocks path)) (s.calls.count (.exec (.readLocks path))) with
  | some failure => exact ⟨[], rfl, fun h => absurd h (by simp)⟩
  | none => exact ⟨_, rfl, fun _ => rfl⟩

theorem readMeta_answers (env : Env) (path : JsString) (s : Session) : ∃ row s', (env.readMeta path).run s = (.ok row, s') := by
  unfold Env.readMeta
  rw [Act.run_bind, Act.run_attempt]
  dsimp only
  split <;> exact ⟨_, _, rfl⟩

theorem dropLockNull_answers (env : Env) (path : JsString) (s : Session) : ∃ s', (env.dropLockNull path).run s = (.ok (), s') := by
  obtain ⟨locks, hread, _⟩ := readLocks_run env path s
  obtain ⟨row, s₂, hmeta⟩ := readMeta_answers env path (s.record (.exec (.readLocks path)))
  have hnull : (env.isLockNull path).run (s.record (.exec (.readLocks path))) = (.ok (row.any NodeRow.lockNull), s₂) := by
    unfold Env.isLockNull
    rw [Act.run_bind_ok hmeta]
    rfl
  unfold Env.dropLockNull
  rw [Act.run_bind_ok hread]
  split
  · rw [Act.run_bind_ok hnull]
    split <;> exact ⟨_, rfl⟩
  · exact ⟨_, rfl⟩

theorem find_token {tokens : List JsString} {token : JsString} (huuids : ∀ t ∈ tokens, isUuid t = true) (hmem : token ∈ tokens) :
    tokens.find? (fun t => t ≠ [] ∧ (t = normalizeLockToken token ∨ normalizeLockToken t = normalizeLockToken token)) =
      some token := by
  have hself := normalize_uuid (huuids token hmem)
  rw [hself]
  cases hfind : tokens.find? (fun t => t ≠ [] ∧ (t = token ∨ normalizeLockToken t = token)) with
  | none =>
    have hnone := List.find?_eq_none.mp hfind token hmem
    simp [hself, (uuid_units (huuids token hmem)).1] at hnone
  | some t =>
    have hin : t ∈ tokens := List.mem_of_find?_eq_some hfind
    have hpasses := List.find?_some hfind
    have hsel : t ≠ [] ∧ (t = token ∨ normalizeLockToken t = token) := by simpa using hpasses
    rw [normalize_uuid (huuids t hin), or_self] at hsel
    rw [hsel.2]

/-- The lock that is named is the one that is released. -/
theorem releaseLock_run {e : JsString × LockRow} {s : Session} (hcalm : ∀ op n, env.fails op n = none)
    (huuids : s.volume.HoldsUuids) (he : e ∈ s.volume.locks) :
    ∃ s', (env.releaseLock e.2.path (normalizeLockToken e.1)).run s = (.ok true, s') ∧
      s'.volume = s.volume.deleteLock e.1 := by
  let tokens := (s.volume.locks.filter (fun e' => e'.2.path = e.2.path)).map Prod.fst
  have hmem : e.1 ∈ tokens := List.mem_map.mpr ⟨e, List.mem_filter.mpr ⟨he, by simp⟩, rfl⟩
  have hall : ∀ t ∈ tokens, isUuid t = true := by
    intro t ht
    obtain ⟨e', he', rfl⟩ := List.mem_map.mp ht
    exact huuids e' (List.mem_of_mem_filter he')
  have hselect : (env.exec (.selectTokens e.2.path) (do
      let s ← .read
      pure ((s.volume.locks.filter (fun e' => e'.2.path = e.2.path)).map Prod.fst))).run s =
        (.ok tokens, s.record (.exec (.selectTokens e.2.path))) := call_run (hcalm _ _)
  have hdelete : (env.exec (.deleteLock e.1) (Env.modifyVolume (fun v => v.deleteLock e.1))).run
      (s.record (.exec (.selectTokens e.2.path))) =
        (.ok (), ⟨s.volume.deleteLock e.1, .exec (.deleteLock e.1) :: .exec (.selectTokens e.2.path) :: s.calls⟩) :=
    call_run (hcalm _ _)
  suffices hrun : (env.releaseLock e.2.path (normalizeLockToken e.1)).run s = (.ok true,
      ⟨s.volume.deleteLock e.1, .exec (.deleteLock e.1) :: .exec (.selectTokens e.2.path) :: s.calls⟩) from ⟨_, hrun, rfl⟩
  unfold Env.releaseLock
  rw [Act.run_bind_ok hselect, find_token hall hmem]
  dsimp only
  rw [Act.run_bind_ok hdelete]
  rfl

/-- Where locks are anchored the holder of a token releases the lock. -/
theorem releasable_of (hv : Reached v) (ha : v.Anchored) : v.Releasable := by
  intro e he env r hcalm htoken
  have huuids := reached_uuids hv
  have hne : e.1 ≠ [] := (uuid_units (huuids e he)).1
  have hfound : (env.sees v e.2.path 0).found = true := by
    rw [Env.sees, if_pos (hcalm _ _), stat_found]
    exact ha e he
  obtain ⟨s₁, hrelease, hvol⟩ := releaseLock_run (s := Session.record ⟨v, []⟩ (.stat e.2.path)) hcalm huuids he
  have hgone : ∀ e' ∈ s₁.volume.locks, e'.1 ≠ e.1 := by
    intro e' he' heq
    rw [hvol] at he'
    have hkept := (List.mem_filter.mp he').2
    simp [heq] at hkept
  have hrun : ∃ s', (env.handleUnlock r e.2.path).run ⟨v, []⟩ = (.ok .noContent, s') ∧
      ∀ e' ∈ s'.volume.locks, e' ∈ s₁.volume.locks := by
    unfold Env.handleUnlock
    rw [Act.run_bind_ok (statInner_first env v e.2.path)]
    simp only [hfound, Bool.not_true, Bool.false_eq_true, and_false, ↓reduceIte, htoken]
    rw [show (some e.1).filter (fun t => t ≠ []) = some e.1 by simp [hne]]
    dsimp only
    rw [Act.run_bind_ok (show (env.releaseLock e.2.path (normalizeLockToken e.1)).attempt.run _ = (.ok (.ok true), s₁) by
      rw [Act.run_attempt, hrelease])]
    dsimp only
    split
    · obtain ⟨s', hdrop⟩ := dropLockNull_answers env e.2.path s₁
      have hmakes : Makes (Effect.Destroys e.2.path) (env.dropLockNull e.2.path) := makes_dropLockNull fun _ h => h
      have hlead := hmakes s₁
      rw [hdrop] at hlead
      rw [Act.run_bind_ok hdrop]
      exact ⟨s', rfl, leads_frees (fun _ => destroys_frees) hlead⟩
    · exact ⟨s₁, rfl, fun _ h => h⟩
  obtain ⟨s', hrun, hsub⟩ := hrun
  unfold Volume.statusOf Env.after
  rw [hrun]
  exact ⟨rfl, fun e' he' => hgone e' (hsub e' he')⟩

/-- No lock is stranded in a run whose requests are tidy. -/
theorem never_stranded_from {turns : List (Env × Exchange)} (hv : Reached v) (ha : v.Anchored) (h : Tidy v turns) :
    NeverStranded v turns := by
  induction turns generalizing v with
  | nil => exact ⟨ha, releasable_of hv ha⟩
  | cons turn rest ih =>
    obtain ⟨env, x⟩ := turn
    obtain ⟨htidy, hrest⟩ := h
    obtain ⟨ha', hleaves⟩ := serve_anchored hv ha htidy
    exact ⟨ha, releasable_of hv ha, hleaves, ih (.request env x hv) ha' hrest⟩

theorem never_stranded (turns : List (Env × Exchange)) (h : Tidy emptyVolume turns) : NeverStranded emptyVolume turns :=
  never_stranded_from .empty (by simp [Volume.Anchored, emptyVolume]) h

end Runs

/-! ### A lock that a MOVE leaves behind -/

def lockedRequest : Incoming := { plainIncoming (js "http://h/o/v/f") with
  destination := some (js "http://h/o/v/g"), ifHeader := some (js "(<" ++ lockUuid.val ++ js ">)") }

def deleteLocked : Exchange where
  verb := .delete
  request := lockedRequest
  path := js "f"
  bases := plainBases

def moveLocked : Exchange where
  verb := .move
  request := lockedRequest
  path := js "f"
  bases := plainBases

theorem deleted_lock_released : NeverStranded emptyVolume [(calmEnv, lockFile), (calmEnv, deleteLocked)] := by
  refine never_stranded _ ⟨⟨fun _ _ _ _ _ => rfl, fun d hd => (nomatch hd), fun h => (nomatch h)⟩,
    ⟨fun _ _ _ _ _ => rfl, fun d hd q hq hb => ?_, fun h => (nomatch h)⟩, trivial⟩
  obtain rfl := Option.some.inj hd
  obtain ⟨e, he, rfl⟩ := hq
  have hpaths : ∀ e ∈ (Env.after (calmEnv.serve lockFile) emptyVolume).locks, e.2.path = js "f" := by decide
  exact absurd (hpaths e he).symm hb.ne

/-- The lock stays on a path that there is no more. -/
theorem moved_lock_stranded : ¬ NeverStranded emptyVolume [(calmEnv, lockFile), (calmEnv, moveLocked)] := by
  rintro ⟨_, _, _, _, _, _, hanchored, _⟩
  revert hanchored
  decide

end DurableDav.Dav
