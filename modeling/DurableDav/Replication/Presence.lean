import DurableDav.Replication.Sight

namespace DurableDav.Replication

open Library

namespace Tree

/-- Whatever was there still is. -/
def Retains (t t' : Tree) : Prop := ∀ q, t.content q ≠ none → t'.content q ≠ none

instance : IsPreorder Tree Retains where
  refl _ := fun _ => id
  trans _ _ _ h h' := fun q hq => h' q (h q hq)

variable {p : JsString}

theorem put_retains (r : Resource) (t : Tree) : Retains t (Store.put t p r) := by
  intro q hq
  rw [content_put]
  split
  · simp
  · exact hq

theorem mkdir_retains (now : ℕ) : Act.Within Retains (mkdir p now) := by
  unfold mkdir
  split
  · exact Act.within_throw _
  · intro t q hq
    rcases content_mkdirAll t p now q with h | ⟨hn, _, _⟩
    · rw [Act.run_modify, h]
      exact hq
    · exact absurd hn hq

theorem mkcol_retains (r : Resource) : Act.Within Retains (mkcol p r) := by
  refine Act.within_bind Act.within_read (fun _ => ?_)
  split
  · exact Act.within_pure _
  · split
    · exact put_retains _
    · exact Act.within_throw _

theorem writeFile_retains (r : Resource) : Act.Within Retains (writeFile p r) := by
  refine Act.within_bind Act.within_read (fun _ => ?_)
  split
  · exact put_retains r
  · exact Act.within_throw _

theorem write_retains (contentType : Option JsString) (data : Bytes) (now : ℕ) :
    Act.Within Retains (write p contentType data now) := by
  unfold write
  split
  · exact Act.within_throw _
  · refine Act.within_bind ?_ (fun _ => writeFile_retains _)
    unfold mkdirParent
    split
    · exact Act.within_pure _
    · exact mkdir_retains now

end Tree

/-- Nothing is gone but what `X` allows. -/
def World.Loses (X : Side → JsString → Prop) (w w' : World) : Prop :=
  ∀ s q, (w.tree s).content q ≠ none → (w'.tree s).content q ≠ none ∨ X s q

namespace World.Loses

variable {X : Side → JsString → Prop} {s : Side}

instance : Silent (World.Loses X) where
  refl _ := fun _ _ => .inl
  trans _ _ _ h h' := fun s q hq => (h s q hq).elim (h' s q) .inr
  tick w := fun s q hq => .inl (by rwa [tree_tick])
  note w e _ := fun s q hq => .inl (by rwa [tree_note])

theorem of_onSide {α : Type} {x : Act Tree JsString α} (hx : Act.Within Tree.Retains x) :
    Act.Within (World.Loses X) (onSide s x) := by
  intro w s' q hq
  left
  rw [show ((onSide s x).run w).2.tree s' = if s' = s then (x.run (w.tree s)).2 else w.tree s' from
    World.tree_setTree _ _ _ _]
  by_cases hs : s' = s
  · subst hs
    simpa using hx (w.tree s') q hq
  · simpa [hs] using hq

theorem of_moves {w w' : World} (h : World.Moves X w w') : World.Loses X w w' := by
  intro s q hq
  rcases h s q with he | hX | ⟨hn, _⟩
  · exact .inl (by rwa [he])
  · exact .inr hX
  · exact absurd hn hq

end World.Loses

/-- What a change takes away, if it is a removal. -/
def Mutation.Takes : Mutation → Side → JsString → Prop
  | .unlink side path recursive, s, q => (Mutation.unlink side path recursive).Reaches s q
  | _, _, _ => False

def ReplicationDecision.Takes (d : ReplicationDecision) (s : Side) (q : JsString) : Prop := ∃ m ∈ d.asks, m.Takes s q

theorem mutation_loses (env : Env) (m : Mutation) : Admits (World.Loses m.Takes) env m := by
  cases m with
  | mkdir s p =>
    exact admits_mkdir (fun now => World.Loses.of_onSide (Tree.mkdir_retains now))
      (fun r => World.Loses.of_onSide (Tree.mkcol_retains r))
  | write s p =>
    exact admits_write (fun _ _ _ => World.Loses.of_onSide (Tree.write_retains _ _ _))
      (fun _ r _ => World.Loses.of_onSide (Tree.writeFile_retains r))
  | unlink s p recursive =>
    exact fun contentType data => (mutation_moves (T := (Mutation.unlink s p recursive).Reaches) (fun _ _ h => h)
      contentType data).mono (fun _ _ => World.Loses.of_moves)

/-! ### Rows of what is gone -/

def Event.isFault : Event → Bool
  | .rejected _ | .blank _ | .cut _ | .failed _ => true
  | _ => false

/-- Nothing goes wrong between two worlds of a run. -/
def World.Faultless (w w' : World) : Prop := ∀ e ∈ World.events w w', e.isFault = false

theorem World.Faultless.split {w w₁ w' : World} (h : w.Faultless w') (h₁ : w.Extends w₁) (h₂ : w₁.Extends w') :
    w.Faultless w₁ ∧ w₁.Faultless w' := by
  unfold World.Faultless at h ⊢
  rw [World.events_trans h₁ h₂] at h
  exact ⟨fun e he => h e (List.mem_append_right _ he), fun e he => h e (List.mem_append_left _ he)⟩

section Forgetting

variable {env : Env} {p : JsString} {w w' : World}

theorem rereadLocal_gone {l : Option PlanSide × Bool} (h : (env.rereadLocal p).run w = (.ok l, w'))
    (hv : isValidInnerPath (parentOf p) = true) (hgone : w.contents p .localSide = none) (hf : w.Faultless w') :
    l = (none, true) := by
  have hsees := (rereadLocal_meets (C := w.contents) (p := p)).ok (fun _ => rfl) h
  have hnone : l.1 = none := by
    by_contra hsome
    exact hsees.2.1 (Option.isSome_iff_ne_none.mpr hsome) hgone
  obtain ⟨r, e, hlist, _⟩ := listSide_answered env .localSide (parentOf p) w
  unfold Env.rereadLocal at h
  rw [Act.run_bind_ok (show (env.listReplicaChildren (parentOf p)).attempt.run w = (.ok r, _) from hlist)] at h
  have hlog : w' = w.tick.note e := by
    cases r with
    | error reason => exact (Act.of_run_pure h).2.symm
    | ok listing =>
      dsimp only at h
      split at h
      · exact (Act.of_run_pure h).2.symm
      · exact (Act.of_run_pure h).2.symm
  subst hlog
  have hsound : ¬ Missed .localSide (parentOf p) [e] := by
    have he : e.isFault = false := hf e (by rw [World.events_eq (show _ = [e] ++ w.log from rfl)]; simp)
    rintro (hm | hm)
    · rw [← List.mem_singleton.mp hm] at he
      simp [Event.isFault] at he
    · rw [← List.mem_singleton.mp hm] at he
      simp [Event.isFault] at he
  obtain ⟨_, listing, rfl, hcomplete⟩ := listSide_complete hlist hv hsound
  dsimp only at h
  rw [if_pos hcomplete] at h
  obtain ⟨rfl, _⟩ := Act.of_run_pure h
  exact Prod.ext hnone rfl

theorem baseUpdate_forgets {u : BaseUpdate} (h : (env.baseUpdate p).run w = (.ok u, w'))
    (hv : isValidInnerPath (parentOf p) = true) (hgone : ∀ s, w.contents p s = none) (hf : w.Faultless w') :
    u = .forget := by
  obtain ⟨l, w₁, hlocal, h⟩ := Act.of_run_bind h
  obtain ⟨r, w₂, hremote, h⟩ := Act.of_run_bind h
  have hstands := (rereadLocal_meets (C := w.contents) (p := p)).ok (fun _ => rfl) hlocal
  have hsees := (rereadRemote_meets (C := w.contents) (p := p)).ok hstands.1 hremote
  have hr : r = none := by
    by_contra hsome
    exact hsees.2.1 (Option.isSome_iff_ne_none.mpr hsome) (hgone .remoteSide)
  have hfirst : w.Extends w₁ := by
    refine Act.Within.of_run (Act.within_bind (Act.within_attempt listReplicaChildren_within) (fun listing => ?_)) hlocal
    split
    · exact Act.within_pure _
    · split <;> exact Act.within_pure _
  have hsecond : w₁.Extends w₂ := by
    refine Act.Within.of_run (Act.within_bind (Act.within_attempt stat_within) (fun entry => ?_)) hremote
    split <;> exact Act.within_pure _
  have hlast : w₂ = w' := by
    subst hr
    obtain ⟨l, trusted⟩ := l
    cases l <;> cases trusted <;> exact (Act.of_run_pure h).2
  subst hlast
  obtain rfl := rereadLocal_gone hlocal hv (hgone .localSide) (hf.split hfirst hsecond).1
  subst hr
  exact (Act.of_run_pure h).1.symm

theorem baseUpdates_forgets {paths : List JsString} {us : List ReplicaStateRow × List JsString} (hp : p ∈ paths)
    (h : (env.baseUpdates paths).run w = (.ok us, w')) (hv : isValidInnerPath (parentOf p) = true)
    (hgone : ∀ s, w.contents p s = none) (hf : w.Faultless w') : p ∈ us.2 := by
  induction paths generalizing w us with
  | nil => simp at hp
  | cons q qs ih =>
    obtain ⟨u, w₁, hfirst, h⟩ := Act.of_run_bind h
    obtain ⟨rest, w₂, hrest, h⟩ := Act.of_run_bind h
    have hext₁ : w.Extends w₁ := (baseUpdate_within q).of_run hfirst
    have hext₂ : w₁.Extends w₂ := (baseUpdates_within qs).of_run hrest
    have hlast : w₂ = w' := by
      cases u <;> exact (Act.of_run_pure h).2
    subst hlast
    obtain ⟨hf₁, hf₂⟩ := hf.split hext₁ hext₂
    have hsame : w₁.contents p = w.contents p :=
      funext (fun s => congrFun ((baseUpdate_meets (C := w.contents)).ok (fun _ => rfl) hfirst |>.1 p) s)
    rcases List.mem_cons.mp hp with rfl | hp
    · obtain rfl := baseUpdate_forgets hfirst hv hgone hf₁
      obtain ⟨rfl, _⟩ := Act.of_run_pure h
      exact List.mem_cons_self
    · have hmem := ih hp hrest (fun s => by rw [hsame]; exact hgone s) hf₂
      cases u with
      | record row | leave =>
        obtain ⟨rfl, _⟩ := Act.of_run_pure h
        exact hmem
      | forget =>
        obtain ⟨rfl, _⟩ := Act.of_run_pure h
        exact List.mem_cons_of_mem _ hmem

theorem saveReplicaState_ok {records : List ReplicaStateRow} {forget : List JsString}
    (h : (env.saveReplicaState records forget).run w = (.ok (), w')) : w'.rows =
      Store.removeWhere (records.foldl (fun s row => Store.put s row.path row) w.rows) (fun q => q ∈ forget) := by
  unfold Env.saveReplicaState Env.call at h
  cases ha : env.answer w.calls with
  | rejects reason => simp [ha] at h
  | performs | blank | cut keep =>
    simp only [ha] at h
    obtain rfl : _ = w' := congrArg Prod.snd h
    rfl

/-- The row of a touched path that is gone from both sides is dropped. -/
theorem recordBase_forgets {touched : List JsString} (hp : p ∈ touched)
    (h : (env.recordBase touched).run w = (.ok (), w')) (hv : isValidInnerPath (parentOf p) = true)
    (hgone : ∀ s, w.contents p s = none) (hf : w.Faultless w') : Store.get w'.rows p = none := by
  obtain ⟨us, w₁, hupdates, h⟩ := Act.of_run_bind h
  obtain ⟨records, forget⟩ := us
  have hext : w.Extends w₁ := (baseUpdates_within touched).of_run hupdates
  have hmem (hlater : w₁.Extends w') : p ∈ forget := baseUpdates_forgets hp hupdates hv hgone (hf.split hext hlater).1
  dsimp only at h
  split at h
  · rename_i hempty
    obtain rfl := (Act.of_run_pure h).2
    have hnil := List.isEmpty_iff.mp hempty.2
    simp [hnil] at hmem
    exact absurd (refl_of World.Extends w₁) hmem
  · have hsave : Act.Within World.Extends (env.saveReplicaState records forget) :=
      within_call intact_within (fun _ _ _ => ⟨[], rfl⟩)
    rw [saveReplicaState_ok h, Store.get_removeWhere, if_pos (by simpa using hmem (hsave.of_run h))]

end Forgetting

end DurableDav.Replication
