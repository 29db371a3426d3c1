import DurableDav.Replication.PlanExecutor

namespace DurableDav.Replication

open Library

/-! ### The reads that forgetting a path rests on -/

def BaseUpdate.forgets : BaseUpdate → Bool
  | .forget => true
  | _ => false

namespace Env

variable (env : Env)

/-- A listing of the parent that covered it does not show the path. -/
def LacksLocally (w : World) (p : JsString) : Prop :=
  ∃ listing, ((env.listReplicaChildren (parentOf p)).run w).1 = .ok listing ∧ listing.complete = true ∧
    listing.entries.find? (fun e => e.path = p) = none

/-- The remote was read, the read covered the path, and the path was not there. -/
def LacksRemotely (w : World) (p : JsString) : Prop :=
  ((env.stat p).run w).1 = .ok none ∧ ∀ keep, env.answer w.calls ≠ .cut keep

/-- The world in which the remote is read. -/
def afterListing (w : World) (p : JsString) : World := ((env.listReplicaChildren (parentOf p)).run w).2

/-- Both sides were read in full and neither has the path. -/
def GoneFromBoth (w : World) (p : JsString) : Prop := env.LacksLocally w p ∧ env.LacksRemotely (env.afterListing w p) p

/-- The read of the remote is rejected, or is cut short without showing the path. -/
def RemoteUnread (w : World) (p : JsString) : Prop :=
  match env.answer w.calls with
  | .rejects _ => True
  | .cut keep => keep p = false ∨ w.remoteTree.describe p = none
  | _ => False

/-- The paths in the order in which they are read again, each with the world it is read in. -/
def turns : List JsString → World → List (JsString × World)
  | [], _ => []
  | p :: ps, w => (p, w) :: turns ps ((env.baseUpdate p).run w).2

/-- The paths whose rows are dropped. -/
def forgotten (touched : List JsString) (w : World) : List JsString :=
  (((env.baseUpdates touched).run w).1.toOption.map Prod.snd).getD []

/-- Only what both sides were seen to lack is forgotten. -/
def ForgetsOnEvidence (touched : List JsString) (w : World) : Prop :=
  ∀ t ∈ env.turns touched w, t.1 ∈ env.forgotten touched w → env.GoneFromBoth t.2 t.1

end Env

section Reads

variable {env : Env} {w : World} {p : JsString}

theorem rereadLocal_run (env : Env) (w : World) (p : JsString) :
    ∃ l, (env.rereadLocal p).run w = (.ok l, env.afterListing w p) ∧ (l = (none, true) ↔ env.LacksLocally w p) ∧
      (l.2 = false → l.1 = none) := by
  unfold Env.rereadLocal Env.LacksLocally Env.afterListing
  cases hlist : (env.listReplicaChildren (parentOf p)).run w with
  | mk r w' =>
    have hattempt : (env.listReplicaChildren (parentOf p)).attempt.run w = (.ok r, w') := by
      rw [Act.run_attempt, hlist]
    rw [Act.run_bind_ok hattempt]
    cases r with
    | error e => exact ⟨_, rfl, by simp, fun _ => rfl⟩
    | ok listing =>
      cases hcomplete : listing.complete with
      | false =>
        refine ⟨(none, false), by simp [hcomplete], ?_, fun _ => rfl⟩
        simp only [Prod.mk.injEq, Bool.false_eq_true, and_false, Except.ok.injEq, false_iff, not_exists, not_and]
        rintro _ rfl hc
        rw [hcomplete] at hc
        exact Bool.noConfusion hc
      | true =>
        refine ⟨(listing.entries.find? (fun e => e.path = p), true), by simp [hcomplete], ?_, fun h => nomatch h⟩
        simp [hcomplete]

theorem stat_answers (env : Env) (w : World) (p : JsString) : ((env.stat p).run w).1 = match env.answer w.calls with
    | .rejects reason => .error reason
    | .cut keep => if keep p then .ok (w.remoteTree.describe p)
      else if env.sibling then .error (js "listing on the sibling volume was incomplete") else .ok none
    | _ => .ok (w.remoteTree.describe p) := by
  unfold Env.stat Env.call
  dsimp only
  cases h : env.answer w.calls with
  | rejects reason => rfl
  | performs => rfl
  | blank => rfl
  | cut keep =>
    dsimp only [carryOut, Act.run_bind, Act.run_read, World.tick]
    cases keep p with
    | true => rfl
    | false => cases env.sibling <;> rfl

/-- An answer that is not there stands both for what is absent and for what could not be read. -/
theorem rereadRemote_run (env : Env) (w : World) (p : JsString) : ∃ r, (env.rereadRemote p).run w =
    (.ok r, ((env.stat p).run w).2) ∧ (r = none ↔ env.LacksRemotely w p ∨ env.RemoteUnread w p) := by
  unfold Env.rereadRemote Env.LacksRemotely Env.RemoteUnread
  have hattempt : (env.stat p).attempt.run w = (.ok ((env.stat p).run w).1, ((env.stat p).run w).2) := rfl
  rw [Act.run_bind_ok hattempt, stat_answers]
  cases h : env.answer w.calls with
  | rejects reason => exact ⟨none, rfl, by simp⟩
  | performs => exact ⟨w.remoteTree.describe p, rfl, by simp⟩
  | blank => exact ⟨w.remoteTree.describe p, rfl, by simp⟩
  | cut keep =>
    dsimp only
    cases hkeep : keep p with
    | true => exact ⟨w.remoteTree.describe p, by simp, by simp⟩
    | false => cases env.sibling <;> exact ⟨none, by simp, by simp⟩

theorem baseUpdate_run (env : Env) (w : World) (p : JsString) : ∃ u, ((env.baseUpdate p).run w).1 = .ok u ∧
    (u.forgets = true ↔ env.LacksLocally w p ∧
      (env.LacksRemotely (env.afterListing w p) p ∨ env.RemoteUnread (env.afterListing w p) p)) := by
  obtain ⟨l, hlocal, hl, hunread⟩ := rereadLocal_run env w p
  obtain ⟨r, hremote, hr⟩ := rereadRemote_run env (env.afterListing w p) p
  unfold Env.baseUpdate
  rw [Act.run_bind_ok hlocal, Act.run_bind_ok hremote, ← hl, ← hr]
  rcases l with ⟨_ | entry, _ | _⟩
  · exact ⟨.leave, by cases r <;> rfl, by simp [BaseUpdate.forgets]⟩
  · cases r with
    | none => exact ⟨.forget, rfl, by simp [BaseUpdate.forgets]⟩
    | some e => exact ⟨.leave, rfl, by simp [BaseUpdate.forgets]⟩
  · exact absurd (hunread rfl) (by simp)
  · cases r with
    | none => exact ⟨.leave, rfl, by simp [BaseUpdate.forgets]⟩
    | some e => exact ⟨_, rfl, by simp [BaseUpdate.forgets]⟩

end Reads

section Turns

variable {env : Env} {touched : List JsString}

theorem turns_paths (env : Env) (touched : List JsString) (w : World) :
    (env.turns touched w).map Prod.fst = touched := by
  induction touched generalizing w with
  | nil => rfl
  | cons p ps ih => rw [Env.turns, List.map_cons, ih]

theorem baseUpdates_run (env : Env) (touched : List JsString) (w : World) : ∃ records forget w',
    (env.baseUpdates touched).run w = (.ok (records, forget), w') ∧ ∀ p, p ∈ forget ↔
      ∃ t ∈ env.turns touched w, t.1 = p ∧ ((env.baseUpdate p).run t.2).1.toOption.any BaseUpdate.forgets = true := by
  induction touched generalizing w with
  | nil => exact ⟨[], [], w, rfl, by simp [Env.turns]⟩
  | cons p ps ih =>
    obtain ⟨u, hu, -⟩ := baseUpdate_run env w p
    obtain ⟨records, forget, w', hrest, hforget⟩ := ih ((env.baseUpdate p).run w).2
    have hfirst : (env.baseUpdate p).run w = (.ok u, ((env.baseUpdate p).run w).2) := by rw [← hu]
    have hturn : ∀ q, (∃ t ∈ env.turns (p :: ps) w, t.1 = q ∧
        ((env.baseUpdate q).run t.2).1.toOption.any BaseUpdate.forgets = true) ↔
          p = q ∧ u.forgets = true ∨ q ∈ forget := by
      intro q
      rw [hforget, Env.turns]
      simp only [List.mem_cons, exists_eq_or_imp]
      refine or_congr_left (and_congr_right ?_)
      rintro rfl
      rw [hu]
      rfl
    simp only [hturn]
    rw [Env.baseUpdates, Act.run_bind_ok hfirst, Act.run_bind_ok hrest]
    cases u with
    | record row => exact ⟨_, _, _, rfl, by simp [BaseUpdate.forgets]⟩
    | forget => exact ⟨_, _, _, rfl, by simp [BaseUpdate.forgets, eq_comm]⟩
    | leave => exact ⟨_, _, _, rfl, by simp [BaseUpdate.forgets]⟩

theorem mem_forgotten (htouched : touched.Nodup) {w : World} {t : JsString × World} (ht : t ∈ env.turns touched w) :
    t.1 ∈ env.forgotten touched w ↔ env.LacksLocally t.2 t.1 ∧
      (env.LacksRemotely (env.afterListing t.2 t.1) t.1 ∨ env.RemoteUnread (env.afterListing t.2 t.1) t.1) := by
  obtain ⟨records, forget, w', hrun, hforget⟩ := baseUpdates_run env touched w
  obtain ⟨u, hu, hforgets⟩ := baseUpdate_run env t.2 t.1
  have hmem : t.1 ∈ env.forgotten touched w ↔ t.1 ∈ forget := by
    unfold Env.forgotten
    rw [hrun]
    rfl
  rw [hmem, hforget, ← hforgets]
  constructor
  · rintro ⟨t', ht', hpath, hany⟩
    have hsame : t' = t := by
      refine List.inj_on_of_nodup_map (f := Prod.fst) ?_ ht' ht hpath
      rw [turns_paths]
      exact htouched
    rw [hsame, hu] at hany
    exact hany
  · intro hu'
    exact ⟨t, ht, rfl, by rw [hu]; exact hu'⟩

theorem forgetsOnEvidence_iff (htouched : touched.Nodup) (w : World) : env.ForgetsOnEvidence touched w ↔
    ∀ t ∈ env.turns touched w, ¬ (env.LacksLocally t.2 t.1 ∧ env.RemoteUnread (env.afterListing t.2 t.1) t.1) := by
  refine forall₂_congr fun t ht => ?_
  rw [mem_forgotten htouched ht]
  have hapart : env.RemoteUnread (env.afterListing t.2 t.1) t.1 → ¬ env.LacksRemotely (env.afterListing t.2 t.1) t.1 := by
    rintro hunread ⟨hread, hcut⟩
    unfold Env.RemoteUnread at hunread
    rw [stat_answers] at hread
    cases h : env.answer (env.afterListing t.2 t.1).calls with
    | rejects reason => simp [h] at hread
    | performs => simp [h] at hunread
    | blank => simp [h] at hunread
    | cut keep => exact hcut keep h
  constructor
  · rintro h ⟨hlocal, hunread⟩
    exact hapart hunread (h ⟨hlocal, .inr hunread⟩).2
  · rintro h ⟨hlocal, hremote⟩
    exact ⟨hlocal, hremote.resolve_right fun hunread => h ⟨hlocal, hunread⟩⟩

/-- What is saved are the paths named here. -/
theorem recordBase_run (env : Env) (touched : List JsString) (w : World) : ∃ records w',
    (env.recordBase touched).run w = (if records.isEmpty ∧ (env.forgotten touched w).isEmpty then pure ()
      else env.saveReplicaState records (env.forgotten touched w)).run w' := by
  obtain ⟨records, forget, w', hrun, -⟩ := baseUpdates_run env touched w
  have hforgotten : env.forgotten touched w = forget := by
    unfold Env.forgotten
    rw [hrun]
    rfl
  refine ⟨records, w', ?_⟩
  rw [hforgotten, Env.recordBase, Act.run_bind_ok hrun]

end Turns

/-! ### Runs -/

def keptRow : ReplicaStateRow := ⟨⟨js "f", false, none, some 1, some 1, none, some 1, some 1, none⟩, 0⟩

-- `f` is gone from the local side only
def halfGoneWorld : World := { World.ofTrees [] [(js "f", .file [0] 1)] with rows := [(js "f", keptRow)] }

def refusedStat : Env := { Env.calm with answer := fun n => if n = 1 then .rejects (js "PROPFIND") else .performs }

theorem unread_remote_is_forgotten : refusedStat.forgotten [js "f"] halfGoneWorld = [js "f"] ∧
    ((refusedStat.recordBase [js "f"]).run halfGoneWorld).2.rows = [] ∧
      halfGoneWorld.remoteTree.content (js "f") = some (some [0]) ∧
        ¬ refusedStat.ForgetsOnEvidence [js "f"] halfGoneWorld := by
  refine ⟨by decide, by decide, by decide, fun h => ?_⟩
  have hgone := h (js "f", halfGoneWorld) (by simp [Env.turns]) (by decide)
  have hread := hgone.2.1
  rw [stat_answers] at hread
  exact nomatch hread

theorem calm_forgets_on_evidence : Env.calm.ForgetsOnEvidence [js "f"] { halfGoneWorld with remoteTree := [] } := by
  refine (forgetsOnEvidence_iff (by decide) _).mpr fun t _ h => ?_
  exact h.2

end DurableDav.Replication
