import DurableDav.Dav.Reached

namespace DurableDav.Dav

open Library
open Replication (Bytes isValidInnerPath parentOf)

/-- No call to the storage fails. -/
def Env.Calm (env : Env) : Prop := ∀ op n, env.fails op n = none

/-- Whatever was called before, the program answers `r` of the one volume and leaves the other. -/
def Runs {α : Type} (x : Serve α) (v : Volume) (r : Except Failure α) (v' : Volume) : Prop :=
  ∀ s : Session, s.volume = v → ∃ s', x.run s = (r, s') ∧ s'.volume = v'

section Programs

variable {α β : Type} {x : Serve α} {f : α → Serve β} {v v₁ v' : Volume}

theorem runs_pure (a : α) : Runs (pure a) v (.ok a) v := fun s hs => ⟨s, rfl, hs⟩

theorem runs_throw (e : Failure) : Runs (.throw e : Serve α) v (.error e) v := fun s hs => ⟨s, rfl, hs⟩

theorem runs_bind {a : α} {r : Except Failure β} (hx : Runs x v (.ok a) v₁) (hf : Runs (f a) v₁ r v') :
    Runs (x >>= f) v r v' := by
  intro s hs
  obtain ⟨s₁, hrun, hs₁⟩ := hx s hs
  rw [Act.run_bind_ok hrun]
  exact hf s₁ hs₁

theorem runs_attempt {r : Except Failure α} (hx : Runs x v r v') : Runs x.attempt v (.ok r) v' := by
  intro s hs
  obtain ⟨s', hrun, hs'⟩ := hx s hs
  exact ⟨s', by rw [Act.run_attempt, hrun], hs'⟩

theorem runs_read_bind {f : Session → Serve β} {r : Except Failure β}
    (hf : ∀ s : Session, s.volume = v → Runs (f s) v r v') : Runs (.read >>= f) v r v' := by
  intro s hs
  exact hf s hs s hs

theorem runs_modifyVolume (f : Volume → Volume) : Runs (Env.modifyVolume f) v (.ok ()) (f v) := by
  intro s hs
  exact ⟨_, rfl, congrArg f hs⟩

theorem runs_modifyFiles (f : Files → Files) : Runs (modifyFiles f) v (.ok ()) { v with files := f v.files } := by
  intro s hs
  refine ⟨_, rfl, ?_⟩
  subst hs
  rfl

theorem runs_call {env : Env} (hcalm : env.Calm) {op : Op} {r : Except Failure α} (hx : Runs x v r v') :
    Runs (env.call op x) v r v' := by
  intro s hs
  rw [call_run (hcalm _ _)]
  exact hx _ hs

theorem after_of_runs {r : Except Failure α} (h : Runs x v r v') : Env.after x v = v' := by
  obtain ⟨s', hrun, hs'⟩ := h ⟨v, []⟩ rfl
  rw [Env.after, hrun]
  exact hs'

theorem runs_each {γ : Type} {g : γ → Serve Unit} {I : Volume → Prop} {cs : List γ}
    (hstep : ∀ c ∈ cs, ∀ w, I w → ∃ w', Runs (g c) w (.ok ()) w' ∧ I w') (hv : I v) :
    ∃ v', Runs (Act.each g cs) v (.ok ()) v' ∧ I v' := by
  induction cs generalizing v with
  | nil => exact ⟨v, runs_pure (), hv⟩
  | cons c cs ih =>
    obtain ⟨v₁, hrun, hv₁⟩ := hstep c (by simp) v hv
    obtain ⟨v', hrest, hv'⟩ := ih (fun c' hc' => hstep c' (by simp [hc'])) hv₁
    exact ⟨v', runs_bind hrun hrest, hv'⟩

end Programs

/-! ### The calls of a volume's object -/

section Calls

variable {env : Env} {v : Volume} {path : JsString} (hcalm : env.Calm)

include hcalm

theorem runs_statInner : Runs (env.statInner path) v (.ok ((v.files.stat path).getD missingStat)) v := by
  cases hst : v.files.stat path with
  | none =>
    have hstat : ∃ e, Runs (env.stat path) v (.error e) v :=
      ⟨_, runs_call hcalm (runs_read_bind fun s hs => by rw [hs, hst]; exact runs_throw _)⟩
    obtain ⟨e, hrun⟩ := hstat
    exact runs_bind (runs_attempt hrun) (runs_pure missingStat)
  | some st =>
    have hrun : Runs (env.stat path) v (.ok st) v :=
      runs_call hcalm (runs_read_bind fun s hs => by rw [hs, hst]; exact runs_pure st)
    exact runs_bind (runs_attempt hrun) (runs_pure st)

theorem runs_readMeta : Runs (env.readMeta path) v (.ok (Store.get v.nodes path)) v := by
  refine runs_bind (runs_attempt (r := .ok (Store.get v.nodes path)) (runs_call hcalm ?_)) (runs_pure _)
  refine runs_read_bind fun s hs => ?_
  rw [hs]
  exact runs_pure _

theorem runs_getDeadProperties :
    Runs (env.getDeadProperties path) v (.ok ((v.deadProperties path).map deadProperty)) v := by
  refine runs_call hcalm (runs_read_bind fun s hs => ?_)
  rw [hs]
  exact runs_pure _

theorem runs_listDir (hfound : v.files.found path = true) (recursive : Bool) :
    Runs (env.listDir path recursive) v (.ok ((if recursive then v.files.below path
      else (v.files.below path).filter (Files.isChild path)).map (Files.relative path))) v := by
  refine runs_call hcalm (runs_read_bind fun s hs => ?_)
  rw [hs, if_neg (by simp [hfound])]
  cases recursive with
  | true => exact runs_pure _
  | false => exact runs_pure _

theorem runs_read {data : Bytes} {m : ℕ} (h : Store.get v.files path = some ⟨some data, m⟩) :
    Runs (env.read path) v (.ok data) v := by
  refine runs_call hcalm (runs_read_bind fun s hs => ?_)
  rw [hs, h]
  exact runs_pure _

theorem runs_upsertNode (row : NodeRow) : Runs (env.upsertNode path row) v (.ok ()) (v.upsertNode path row) :=
  runs_bind (runs_attempt (runs_call hcalm (runs_modifyVolume _))) (runs_pure ())

theorem runs_mkdir_found (h : v.files.found path = true) : Runs (env.mkdir path) v (.error (.of "EEXIST")) v := by
  refine runs_call hcalm (runs_read_bind fun s hs => ?_)
  rw [hs, if_pos h]
  exact runs_throw _

theorem runs_mkdir (h : v.files.found path = false) (hparent : v.files.isDirectory (parentOf path) = true) :
    Runs (env.mkdir path) v (.ok ()) { v with files := Store.put v.files path ⟨none, env.now⟩ } := by
  refine runs_call hcalm (runs_read_bind fun s hs => ?_)
  rw [hs, if_neg (by simp [h]), if_neg (by simp [hparent])]
  exact runs_modifyFiles _

theorem runs_writeFile {data : Bytes} (h : v.files.isDirectory path = false)
    (hparent : v.files.isDirectory (parentOf path) = true) :
    Runs (env.writeFile path data) v (.ok ()) { v with files := Store.put v.files path ⟨some data, env.now⟩ } := by
  refine runs_call hcalm (runs_read_bind fun s hs => ?_)
  rw [hs, if_neg (by simp [h]), if_neg (by simp [hparent])]
  exact runs_modifyFiles _

/-- Where all the collections are there, none is made. -/
theorem runs_mkdirAll (h : ∀ q ∈ prefixes slash path, v.files.isDirectory q = true) :
    Runs (env.mkdirAll path) v (.ok ()) v := by
  refine runs_call hcalm (runs_read_bind fun s hs => ?_)
  have hdirs : ∀ q ∈ (prefixes slash path).filter (fun q => q ≠ []), v.files.found q = true ∧ v.files.isDirectory q = true :=
    fun q hq => ⟨found_of_isDirectory (h q (List.mem_of_mem_filter hq)), h q (List.mem_of_mem_filter hq)⟩
  have hany : ((prefixes slash path).filter (fun q => q ≠ [])).any
      (fun q => v.files.found q ∧ !v.files.isDirectory q) = false := by
    rw [List.any_eq_false]
    intro q hq
    simp [hdirs q hq]
  have hnone : ((prefixes slash path).filter (fun q => q ≠ [])).filter (fun q => !v.files.found q) = [] := by
    rw [List.filter_eq_nil_iff]
    intro q hq
    simp [hdirs q hq]
  rw [hs]
  dsimp only
  rw [hany, if_neg (by simp)]
  have hrun := runs_modifyFiles (v := v) (fun f => (((prefixes slash path).filter (fun q => q ≠ [])).filter
    (fun q => !f.found q)).foldl (fun f q => Store.put f q ⟨none, env.now⟩) f)
  rwa [hnone] at hrun

end Calls

end DurableDav.Dav
