import DurableDav.Dav.Reached

namespace DurableDav.Dav

open Library
open Replication (Bytes isValidInnerPath parentOf)

/-! ### Programs that ask nothing of a kind -/

/-- The volume is the same, and a call was not made once more. -/
def Session.Spares (op : Op) (s s' : Session) : Prop := s'.volume = s.volume ∧ s'.calls.count op = s.calls.count op

instance (op : Op) : IsPreorder Session (Session.Spares op) where
  refl _ := ⟨rfl, rfl⟩
  trans _ _ _ h h' := ⟨h'.1.trans h.1, h'.2.trans h.2⟩

section Spares

variable {env : Env} {op : Op} {α : Type} {path : JsString}

theorem spares_call {asked : Op} {body : Serve α} (hne : asked ≠ op) (h : Act.Within (Session.Spares op) body) :
    Act.Within (Session.Spares op) (env.call asked body) := by
  intro s
  have hrecord : s.Spares op (s.record asked) := ⟨rfl, List.count_cons_of_ne hne⟩
  rw [run_call]
  cases env.fails asked (s.calls.count asked) with
  | some e => exact hrecord
  | none => exact trans_of _ hrecord (h (s.record asked))

theorem spares_statInner (hne : Op.stat path ≠ op) : Act.Within (Session.Spares op) (env.statInner path) := by
  intro s
  rw [statInner_run]
  exact ⟨rfl, List.count_cons_of_ne hne⟩

theorem spares_assertLock {r : Request} (hne : Op.exec (.selectLocks path) ≠ op) :
    Act.Within (Session.Spares op) (env.assertLock r path) := by
  unfold Env.assertLock
  split
  · exact Act.within_pure _
  · refine spares_call hne (Act.within_bind Act.within_read fun s => ?_)
    split <;> exact Act.within_pure _

theorem spares_orphaned (hne : ∀ q, Op.stat q ≠ op) : Act.Within (Session.Spares op) (env.orphaned path) := by
  unfold Env.orphaned
  split
  · exact Act.within_pure _
  · exact Act.within_bind (spares_statInner (hne _)) fun _ => Act.within_pure _

end Spares

/-! ### A resource as it is described -/

namespace Env

variable (env : Env)

/-- Nothing keeps PROPFIND from describing a path. -/
structure Describes (path : JsString) : Prop where
  looks : env.fails (.stat path) 0 = none
  locks : env.fails (.exec (.discoverLocks path)) 0 = none
  props : env.fails (.exec (.selectProps path)) 0 = none

/-- The row as it is read at the first attempt. -/
def rowRead (v : Volume) (path : JsString) : Option NodeRow :=
  if env.fails (.exec (.selectNode path)) 0 = none then Store.get v.nodes path else none

def described (v : Volume) (path hrefBase : JsString) : DavNodeInfo :=
  nodeOf path (env.sees v path 0) (env.rowRead v path) (v.applicableLocks env.platform env.now path hrefBase)
    ((v.deadProperties path).map deadProperty)

end Env

section Described

variable {env : Env} {v : Volume} {path base : JsString}

theorem readMeta_run {s : Session} (hcount : s.calls.count (.exec (.selectNode path)) = 0) :
    (env.readMeta path).run s = (.ok (env.rowRead s.volume path), s.record (.exec (.selectNode path))) := by
  unfold Env.readMeta Env.rowRead
  rw [Act.run_bind, Act.run_attempt, Env.exec, run_call, hcount]
  cases env.fails (.exec (.selectNode path)) 0 <;> rfl

theorem statInner_first (env : Env) (v : Volume) (path : JsString) :
    (env.statInner path).run ⟨v, []⟩ = (.ok (env.sees v path 0), Session.record ⟨v, []⟩ (.stat path)) :=
  statInner_run env path ⟨v, []⟩

theorem applicableLocks_run {s : Session}
    (h : env.fails (.exec (.discoverLocks path)) (s.calls.count (.exec (.discoverLocks path))) = none) :
    (env.applicableLocks path base).run s =
      (.ok (s.volume.applicableLocks env.platform env.now path base), s.record (.exec (.discoverLocks path))) :=
  call_run h

theorem getDeadProperties_run {s : Session}
    (h : env.fails (.exec (.selectProps path)) (s.calls.count (.exec (.selectProps path))) = none) :
    (env.getDeadProperties path).run s =
      (.ok ((s.volume.deadProperties path).map deadProperty), s.record (.exec (.selectProps path))) :=
  call_run h

variable (base) in
theorem nodeInfo_run (h : env.Describes path) (hfound : (env.sees v path 0).found = true) :
    ∃ s, (env.nodeInfo path base).run ⟨v, []⟩ = (.ok (some (env.described v path base)), s) ∧ s.volume = v := by
  let s₁ := (Session.record ⟨v, []⟩ (.stat path)).record (.exec (.selectNode path))
  have hlocks : env.fails (.exec (.discoverLocks path)) (s₁.calls.count (.exec (.discoverLocks path))) = none := by
    simpa [s₁, Session.record] using h.locks
  let s₂ := s₁.record (.exec (.discoverLocks path))
  have hprops : env.fails (.exec (.selectProps path)) (s₂.calls.count (.exec (.selectProps path))) = none := by
    simpa [s₂, s₁, Session.record] using h.props
  unfold Env.nodeInfo
  rw [Act.run_bind_ok (statInner_first env v path)]
  simp only [hfound, Bool.not_true, Bool.false_eq_true, ↓reduceIte]
  rw [Act.run_bind_ok (readMeta_run (by simp [Session.record])), Act.run_bind_ok (applicableLocks_run hlocks),
    Act.run_bind_ok (getDeadProperties_run hprops)]
  exact ⟨_, rfl, rfl⟩

/-- A node is only ever put together when nothing failed. -/
theorem nodeInfo_elim {node : DavNodeInfo} {s : Session} (h : (env.nodeInfo path base).run ⟨v, []⟩ = (.ok (some node), s)) :
    env.Describes path ∧ (env.sees v path 0).found = true ∧ node = env.described v path base := by
  have hfound : (env.sees v path 0).found = true := by
    unfold Env.nodeInfo at h
    rw [Act.run_bind_ok (statInner_first env v path)] at h
    cases hfound : (env.sees v path 0).found with
    | false => simp [hfound] at h
    | true => rfl
  have hd : env.Describes path := by
    have hlooks : env.fails (.stat path) 0 = none := by
      by_contra hfails
      simp [Env.sees, hfails, missingStat] at hfound
    unfold Env.nodeInfo at h
    rw [Act.run_bind_ok (statInner_first env v path)] at h
    simp only [hfound, Bool.not_true, Bool.false_eq_true, ↓reduceIte] at h
    rw [Act.run_bind_ok (readMeta_run (by simp [Session.record]))] at h
    obtain ⟨locks, s₁, hlocks, h⟩ := Act.of_run_bind h
    have hlocks' : env.fails (.exec (.discoverLocks path)) 0 = none := by
      by_contra hfails
      obtain ⟨failure, hfailure⟩ := Option.ne_none_iff_exists'.mp hfails
      rw [Env.applicableLocks, Env.exec, call_run_fails (by simpa [Session.record] using hfailure)] at hlocks
      simp at hlocks
    rw [applicableLocks_run (by simpa [Session.record] using hlocks')] at hlocks
    obtain rfl : _ = s₁ := congrArg Prod.snd hlocks
    obtain ⟨dead, s₂, hdead, _⟩ := Act.of_run_bind h
    have hdead' : env.fails (.exec (.selectProps path)) 0 = none := by
      by_contra hfails
      obtain ⟨failure, hfailure⟩ := Option.ne_none_iff_exists'.mp hfails
      rw [Env.getDeadProperties, Env.exec, call_run_fails (by simpa [Session.record] using hfailure)] at hdead
      simp at hdead
    exact ⟨hlooks, hlocks', hdead'⟩
  obtain ⟨s', hrun, _⟩ := nodeInfo_run base hd hfound
  rw [hrun] at h
  exact ⟨hd, hfound, (Option.some.inj (Except.ok.inj (congrArg Prod.fst h))).symm⟩

theorem described_sees (h : env.Describes path) : env.sees v path 0 = (v.files.stat path).getD missingStat := if_pos h.looks

theorem nodeAt_elim (hp : path ≠ []) {node : DavNodeInfo} {s : Session}
    (h : (env.nodeAt path base).run ⟨v, []⟩ = (.ok (some node), s)) :
    env.Describes path ∧ node = env.described v path base := by
  unfold Env.nodeAt at h
  rw [if_neg hp] at h
  exact ⟨(nodeInfo_elim h).1, (nodeInfo_elim h).2.2⟩

variable (base) in
theorem nodeAt_run (hp : path ≠ []) (h : env.Describes path) (hfound : v.files.found path = true) :
    ∃ s, (env.nodeAt path base).run ⟨v, []⟩ = (.ok (some (env.described v path base)), s) := by
  have hst : (env.sees v path 0).found = true := by rw [described_sees h, stat_found, hfound]
  obtain ⟨s, hrun, _⟩ := nodeInfo_run base h hst
  unfold Env.nodeAt
  rw [if_neg hp]
  exact ⟨s, hrun⟩

end Described

end DurableDav.Dav
