import DurableDav.Dav.TaskRefinement
import DurableDav.Dav.Footprint

namespace DurableDav.Dav

open Library
open Replication (Bytes isValidInnerPath parentOf)

/-! ### Files, and the rows that say a file only holds a lock -/

namespace Volume

variable (v : Volume)

def isFile (q : JsString) : Bool := (Store.get v.files q).any (fun i => i.bytes.isSome)

def flagged (q : JsString) : Bool := (Store.get v.nodes q).any NodeRow.lockNull

end Volume

/-- New files and new marks are only where they may be. -/
structure Grown (F N : JsString → Prop) (v v' : Volume) : Prop where
  files : ∀ q, v'.isFile q = true → v.isFile q = true ∨ F q
  flags : ∀ q, v'.flagged q = true → v.flagged q = true ∨ N q
  rooted : v.files.Rooted → v'.files.Rooted

def Grows (F N : JsString → Prop) (s s' : Session) : Prop := Grown F N s.volume s'.volume

def nowhere : JsString → Prop := fun _ => False

instance (F N : JsString → Prop) : IsPreorder Session (Grows F N) where
  refl _ := ⟨fun _ => .inl, fun _ => .inl, id⟩
  trans _ _ _ h h' := ⟨fun q hq => (h'.files q hq).elim (h.files q) .inr, fun q hq => (h'.flags q hq).elim (h.flags q) .inr,
    fun hroot => h'.rooted (h.rooted hroot)⟩

/-- What makes no file and marks none, but where it may. -/
def Effect.Tame (F N : JsString → Prop) : Effect → Prop
  | .write q => F q
  | .node q row => row.lockNull = true → N q
  | .rename _ _ | .updatePaths _ _ _ => False
  | _ => True

section Tame

variable {F N : JsString → Prop} {v v' : Volume} {e : Effect} {env : Env} {path target : JsString}

theorem isFile_put {f : Files} {i : Inode} {q : JsString} (h : (Store.get (Store.put f path i) q).any (fun i => i.bytes.isSome) = true) :
    (Store.get f q).any (fun i => i.bytes.isSome) = true ∨ q = path ∧ i.bytes.isSome = true := by
  rw [Store.get_put] at h
  split at h
  · exact .inr ⟨by assumption, by simpa using h⟩
  · exact .inl h

theorem grown_of_files {f : Files} (h : ∀ q, (Store.get f q).any (fun i => i.bytes.isSome) = true → v.isFile q = true ∨ F q)
    (hroot : v.files.Rooted → f.Rooted) : Grown F N v { v with files := f } :=
  ⟨h, fun _ => .inl, hroot⟩

theorem grown_change (hc : Change v e v') (he : e.Tame F N) : Grown F N v v' := by
  have hroot := change_rooted hc
  cases hc with
  | make p mtime hfree hparent =>
    refine grown_of_files (fun q hq => ?_) hroot
    exact (isFile_put hq).imp id fun h => by simp at h
  | write p data mtime hfile hparent =>
    refine grown_of_files (fun q hq => ?_) hroot
    exact (isFile_put hq).imp id fun (h : q = p ∧ _) => h.1 ▸ he
  | unlink p hfile hfound =>
    refine grown_of_files (fun q hq => .inl ?_) hroot
    rw [Store.get_remove] at hq
    split at hq
    · cases hq
    · exact hq
  | remove p hdir =>
    refine grown_of_files (fun q hq => .inl ?_) hroot
    rw [Store.get_removeWhere] at hq
    split at hq
    · cases hq
    · exact hq
  | rename => exact he.elim
  | node p row =>
    refine ⟨fun _ => .inl, fun q hq => ?_, hroot⟩
    unfold Volume.flagged Volume.upsertNode at hq
    rw [Store.get_put] at hq
    split at hq
    · rename_i hqp
      exact .inr (hqp ▸ he hq)
    · exact .inl hq
  | setProp | removeProp | grant | extend | release | noted => exact ⟨fun _ => .inl, fun _ => .inl, hroot⟩
  | deleteRows p t =>
    cases t with
    | davNodes =>
      refine ⟨fun _ => .inl, fun q hq => .inl ?_, hroot⟩
      change (Store.get (Store.removeWhere v.nodes _) q).any NodeRow.lockNull = true at hq
      rw [Store.get_removeWhere] at hq
      split at hq
      · cases hq
      · exact hq
    | davProps | davLocks | davReplicaState => exact ⟨fun _ => .inl, fun _ => .inl, hroot⟩
  | updatePaths => exact he.elim

theorem tame_within {α : Type} {x : Serve α} (hx : Makes (Effect.Tame F N) x) : Act.Within (Grows F N) x := by
  intro s
  refine leads_keeps (I := fun v => Grows F N s ⟨v, []⟩) (fun e v v' he hc h => ?_) (hx s) (refl_of (Grows F N) s)
  exact trans_of (Grows F N) h (b := ⟨v, []⟩) (c := ⟨v', []⟩) (grown_change hc he)

theorem tame_destroys (e : Effect) (h : e.Destroys path) : e.Tame F N := by
  cases e with
  | unlink | remove | deleteRows => trivial
  | _ => exact h.elim

theorem tame_notes (e : Effect) (h : e.Notes path) : e.Tame F N := by
  cases e with
  | node q row => exact fun hnull => absurd (h.2.symm.trans hnull) (by simp)
  | _ => exact h.elim

theorem tame_edits (e : Effect) (h : e.Edits path) : e.Tame F N := by
  obtain ⟨key, -, h⟩ := h
  cases e with
  | setProp | removeProp => trivial
  | _ => exact h.elim

theorem tame_lays (e : Effect) (h : e.LaysUpTo path) : e.Tame F N := by
  cases e with
  | make q => trivial
  | node q row => exact fun hnull => absurd (h.2.symm.trans hnull) (by simp)
  | _ => exact h.elim

theorem tame_locks (e : Effect) (h : e.LocksAt path) : e.Tame F N := by
  cases e with
  | grant | extend | release => trivial
  | _ => exact h.elim

end Tame

/-! ### What a turn of a task does -/

abbrev Turned := Thread.Turned Env Session Failure Work Volume

def enter (v : Volume) : Session := ⟨v, []⟩

/-- The path that has been written and whose row is still to be. -/
def Work.owed : Work → Option JsString
  | .appends path _ | .records path _ => some path
  | _ => none

def Task.owed (task : Task) : Option JsString := (Thread.label task).bind Work.owed

/-- What a rename takes along of the files; rows stay where they are, or go with them. -/
structure Carried (source target : JsString) (v v' : Volume) : Prop where
  files : ∀ q, v'.isFile q = true → v.isFile q = true ∧ ¬ Inside source q ∧ ¬ Inside target q ∨
    ∃ k, Inside source k ∧ v.isFile k = true ∧ q = moved source target k
  flags : ∀ q, v'.flagged q = true → v.flagged q = true ∨ ∃ k, v.flagged k = true ∧ q = repath source target k

/-- A lock on the path bears the token that is given up. -/
def Volume.names (v : Volume) (path : JsString) (r : Request) : Bool :=
  (r.lockToken.filter (fun t => t ≠ [])).any fun token =>
    ((v.locks.filter (fun e => e.2.path = path)).map Prod.fst).any
      fun t => t ≠ [] ∧ (t = normalizeLockToken token ∨ normalizeLockToken t = normalizeLockToken token)

def Work.Does (w : Work) (env : Env) (v : Volume) (t : Turned) : Prop :=
  match w with
  | .other => Grown nowhere nowhere v t.state
  | .creates path => Grown (fun q => q = path ∧ t.did = true) nowhere v t.state
  | .marks path => Grown nowhere (fun q => q = path) v t.state
  | .writes path => Grown (fun q => q = path ∧ t.did = true) nowhere v t.state ∧
      (t.did = true → Task.owed t.rest = some path)
  | .appends path fits => Grown nowhere nowhere v t.state ∧ (t.did = true → Task.owed t.rest = some path) ∧
      (fits = true → env.fails (.writeFile path) 0 = none → v.isFile path = true → t.did = true)
  | .records path statements => Grown nowhere nowhere v t.state ∧
      ((∀ st ∈ statements, env.fails (.exec st) 0 = none) → t.state.flagged path = false)
  | .unlocks r path => Grown nowhere nowhere v t.state ∧ ∀ q, v.isFile q = true → t.state.isFile q = false →
      q = path ∧ v.names path r = true ∧ v.flagged path = true ∧ (Store.get v.files path).bind Inode.bytes = some []
  | .moves source target => (t.did = false → Grown nowhere nowhere v t.state) ∧ (v.files.Rooted →
      t.state.files.Rooted ∧ (t.did = true → source ≠ [] ∧ Carried source target v t.state))

/-- Every segment of the task does what its label says. -/
abbrev Honest (task : Task) : Prop := Thread.Obeys enter Session.volume Work.Does task

section Honest

variable {env : Env} {path source target : JsString} {rest : Task}

theorem honest_other {α : Type} {segment : Env → Serve α} {rest : α → Task}
    (hquiet : ∀ env, Makes (Effect.Tame nowhere nowhere) (segment env)) (hrest : ∀ a, Honest (rest a)) :
    Honest (.of .other segment rest) := by
  refine .next (fun env v => tame_within (hquiet env) (enter v)) fun env v => ?_
  cases ((segment env).run (enter v)).1 with
  | ok a => exact hrest a
  | error e => exact .done

theorem honest_checked {α ρ : Type} {segment : Env → Serve (Except ρ α)} {rest : α → Task}
    (hquiet : ∀ env, Makes (Effect.Tame nowhere nowhere) (segment env))
    (hrest : ∀ env s a s', (segment env).run s = (.ok (.ok a), s') → Honest (rest a)) :
    Honest (.checked .other segment rest) := by
  refine .next (fun env v => tame_within (hquiet env) (enter v)) fun env v => ?_
  cases hrun : (segment env).run (enter v) with
  | mk r s' =>
    rcases r with e | answer
    · exact .done
    · cases answer with
      | ok a => exact hrest env _ a s' hrun
      | error response => exact .done

end Honest

/-! ### Writing and creating -/

/-- A new file is there only if it is at the path, and the outcome tells of it. -/
def Puts {α : Type} (path : JsString) (did : Except Failure α → Bool) (x : Serve α) : Prop :=
  ∀ s, Grown (fun q => q = path ∧ did (x.run s).1 = true) nowhere s.volume (x.run s).2.volume

section Puts

variable {α β : Type} {env : Env} {path source : JsString} {x : Serve α} {did : Except Failure α → Bool} {did' : Except Failure β → Bool}

theorem Grown.mono {F N F' N' : JsString → Prop} {v v' : Volume} (h : Grown F N v v') (hF : ∀ q, F q → F' q) (hN : ∀ q, N q → N' q) :
    Grown F' N' v v' :=
  ⟨fun q hq => (h.files q hq).imp id (hF q), fun q hq => (h.flags q hq).imp id (hN q), h.rooted⟩

theorem Grown.idle {F : JsString → Prop} {v v' : Volume} (h : Grown nowhere nowhere v v') : Grown F nowhere v v' :=
  h.mono (fun _ => False.elim) fun _ => id

theorem Grown.trans {F N : JsString → Prop} {v v' v'' : Volume} (h : Grown F N v v') (h' : Grown F N v' v'') : Grown F N v v'' :=
  trans_of (Grows F N) (a := ⟨v, []⟩) (b := ⟨v', []⟩) (c := ⟨v'', []⟩) h h'

theorem Grown.same {F N : JsString → Prop} {v v' : Volume} (h : v' = v) : Grown F N v v' :=
  h ▸ refl_of (Grows F N) ⟨v, []⟩

theorem puts_quiet (h : Makes (Effect.Tame nowhere nowhere) x) : Puts path did x :=
  fun s => Grown.idle (tame_within h s)

theorem puts_throw (e : Failure) : Puts path did (.throw e) := fun _ => .same rfl

theorem puts_bind_of_run {f : α → Serve β} (hx : Makes (Effect.Tame nowhere nowhere) x)
    (hf : ∀ a s s', x.run s = (.ok a, s') → Puts path did' (f a)) : Puts path did' (x >>= f) := by
  intro s
  have hquiet := tame_within hx s
  rw [Act.run_bind]
  cases hrun : x.run s with
  | mk r s' =>
    rw [hrun] at hquiet
    cases r with
    | error e => exact Grown.idle hquiet
    | ok a => exact (Grown.idle hquiet).trans (hf a s s' hrun s')

theorem puts_bind {f : α → Serve β} (hx : Makes (Effect.Tame nowhere nowhere) x) (hf : ∀ a, Puts path did' (f a)) :
    Puts path did' (x >>= f) := puts_bind_of_run hx fun a _ _ _ => hf a

/-- What comes after a write leaves the tree alone, and its outcome still tells of the write. -/
theorem puts_then {f : α → Serve β} (hx : Puts path did x) (hf : ∀ a, Makes (Effect.Tame nowhere nowhere) (f a))
    (hok : ∀ a s, did (.ok a) = true → did' ((f a).run s).1 = true) (herror : ∀ e, did (.error e) = true → did' (.error e) = true) :
    Puts path did' (x >>= f) := by
  intro s
  have hput := hx s
  rw [Act.run_bind]
  cases hrun : x.run s with
  | mk r s' =>
    rw [hrun] at hput
    cases r with
    | error e => exact hput.mono (fun q hq => ⟨hq.1, herror e hq.2⟩) fun _ => id
    | ok a =>
      exact (hput.mono (fun q hq => ⟨hq.1, hok a s' hq.2⟩) fun _ => id).trans (Grown.idle (tame_within (hf a) s'))

theorem puts_attempt (h : Puts path did x) : Puts path (fun r => r.toOption.any did) x.attempt := h

/-- The call that puts a file fails with nothing changed. -/
theorem puts_comes {P : Volume → Prop} (hcomes : ∀ s, Comes x s P) (hx : Makes (Effect.Tame (fun q => q = path) nowhere) x) :
    Puts path (fun r => r.toOption.isSome) x := by
  intro s
  have hquiet := tame_within hx s
  rcases hcomes s with ⟨e, s', hrun, hvol⟩ | ⟨a, s', hrun, -⟩
  · rw [hrun]
    exact .same hvol
  · rw [hrun] at hquiet ⊢
    exact hquiet.mono (fun q hq => ⟨hq, rfl⟩) fun _ => id

theorem puts_writeFile (data : Bytes) : Puts path (fun r => r.toOption.isSome) (env.writeFile path data) :=
  puts_comes (P := fun _ => True) (fun s => (comes_writeFile env path data s).imp id fun ⟨a, s', hrun, _⟩ => ⟨a, s', hrun, trivial⟩)
    (makes_writeFile rfl)

theorem puts_putWrite (plan : Env.PutPlan) (maxFileBytes : ℕ) :
    Puts plan.path (fun r => r.toOption.any fun answer => answer.toOption.isSome) (env.putWrite plan maxFileBytes) := by
  unfold Env.putWrite
  split
  · exact puts_quiet (Act.within_pure _)
  · refine puts_then (puts_attempt (puts_writeFile _)) (fun a => ?_) (fun a s hdid => ?_) fun e => id
    · split <;> exact Act.within_pure _
    · cases a with
      | error e => cases hdid
      | ok a => rfl

theorem puts_copyBytes : Puts path (fun r => r.toOption.isSome) (env.copyBytes source path) :=
  puts_bind makes_readFile fun _ => puts_writeFile _

theorem makes_reclaimed {L : Effect → Prop} : Makes L (env.reclaimed path) := by
  refine Act.within_bind (Act.within_attempt makes_stat) fun r => ?_
  split <;> exact Act.within_pure _

theorem makes_create {L : Effect → Prop} (h : L (.write path)) : Makes L (env.create path) := by
  refine makes_call fun s => ?_
  rw [Act.run_bind, Act.run_read]
  dsimp only
  split
  · exact .refl
  · rename_i hfree
    split
    · exact .refl
    · refine leads_files h (.write path [] env.now ?_ (by simp_all))
      exact Bool.eq_false_iff.mpr fun hdir => hfree (found_of_isDirectory hdir)

theorem puts_create : Puts path (fun r => r.toOption.isSome) (env.create path) := by
  refine puts_comes (P := fun _ => True) (fun s => comes_call ?_) (makes_create rfl)
  unfold Comes
  rw [Act.run_bind, Act.run_read]
  dsimp only
  split
  · exact .inl ⟨_, _, rfl, rfl⟩
  · split
    · exact .inl ⟨_, _, rfl, rfl⟩
    · exact .inr ⟨_, _, rfl, trivial⟩

theorem puts_replaceFile : Puts path (fun r => r.toOption.isSome) (env.replaceFile path) := by
  refine puts_bind (Act.within_attempt (makes_unlink trivial)) fun removed => ?_
  split
  · exact puts_create
  · split
    · exact puts_create
    · exact puts_throw _

theorem puts_openData (d : Device) (data : ReplicaData) : Puts path (fun r => r.toOption.isSome) (env.openData d path data) := by
  refine puts_bind makes_reclaimed fun freed => puts_bind Act.within_read fun s => ?_
  dsimp only
  split
  · exact puts_throw _
  · exact puts_then puts_replaceFile (fun _ => Act.within_pure _) (fun _ _ => id) fun _ => id

theorem puts_replicaCopyBytes : Puts path (fun r => r.toOption.any Option.isSome) (env.replicaCopyBytes source path) := by
  have hlay {q : JsString} : ∀ e : Effect, e.LaysUpTo q → e.Tame nowhere nowhere := tame_lays
  unfold Env.replicaCopyBytes
  split
  · exact puts_throw _
  · refine puts_bind makes_statInner fun st => ?_
    split
    · exact puts_throw _
    · refine puts_bind makes_readMeta fun row => ?_
      split
      · refine puts_quiet (Act.within_bind (makes_replicaMkdir hlay) fun _ => Act.within_bind makes_getDeadProperties fun props =>
          Act.within_bind (Act.within_each fun p _ => makes_copyProp tame_notes tame_edits) fun _ => Act.within_pure _)
      · refine puts_bind makes_readFile fun data => puts_bind (makes_replicaMkdir hlay) fun _ => ?_
        exact puts_then (puts_writeFile data) (fun _ => Act.within_pure _) (fun _ _ _ => rfl) fun _ h => by cases h

theorem puts_ensureLockableResource (plan : Env.LockPlan) : Puts plan.path
    (fun r => r.toOption.any fun l => match l with | .created => true | _ => false) (env.ensureLockableResource plan) := by
  refine puts_bind makes_statInner fun st => ?_
  split
  · exact puts_quiet (Act.within_pure _)
  · split
    · exact puts_quiet (Act.within_pure _)
    · refine puts_bind makes_orphaned fun orphan => ?_
      split
      · exact puts_quiet (Act.within_pure _)
      · split
        · exact puts_quiet (Act.within_pure _)
        · refine puts_then (puts_attempt (puts_writeFile _)) (fun a => ?_) (fun a s hdid => ?_) fun e h => ?_
          · split <;> exact Act.within_pure _
          · cases a with
            | error e => cases hdid
            | ok a => rfl
          · cases h

end Puts

/-! ### Recording, appending and renaming -/

section Records

variable {env : Env} {v v' : Volume} {s : Session} {path source target : JsString}

theorem flagged_upsert (v : Volume) (path : JsString) (row : NodeRow) : (v.upsertNode path row).flagged path = row.lockNull := by
  unfold Volume.flagged
  rw [upsertNode_get, if_pos rfl]
  rfl

theorem upsertNode_unflags {row : NodeRow} (hnull : row.lockNull = false)
    (h : env.fails (.exec (.upsertNode path)) (s.calls.count (.exec (.upsertNode path))) = none) :
    ((env.upsertNode path row).run s).2.volume.flagged path = false := by
  have hrun : (env.exec (.upsertNode path) (Env.modifyVolume (fun v => v.upsertNode path row))).run s =
      (.ok (), ⟨s.volume.upsertNode path row, .exec (.upsertNode path) :: s.calls⟩) := call_run h
  unfold Env.upsertNode
  rw [Act.run_bind, Act.run_attempt, hrun]
  exact (flagged_upsert s.volume path row).trans hnull

theorem putRecord_unflags (plan : Env.PutPlan) (h : env.fails (.exec (.upsertNode plan.path)) 0 = none) :
    ((env.putRecord plan).run (enter v)).2.volume.flagged plan.path = false := by
  unfold Env.putRecord Env.upsertFileNode
  dsimp only
  rw [Act.run_bind]
  have hnote : ((env.upsertNode plan.path ⟨false, some (plan.request.contentType.getD (js "application/octet-stream")),
      some (mintEtag plan.request.body.length env.now), env.now, (plan.previous.map NodeRow.crtime).getD env.now, false⟩).run
      (enter v)).2.volume.flagged plan.path = false := upsertNode_unflags rfl h
  revert hnote
  cases Act.run _ (enter v) with
  | mk r s' => cases r <;> exact id

theorem copyMeta_unflags {isCollection : Bool} (hselect : env.fails (.exec (.selectNode source)) 0 = none)
    (hupsert : env.fails (.exec (.upsertNode target)) 0 = none) :
    ((env.copyMeta source target isCollection).run (enter v)).2.volume.flagged target = false := by
  have hprops : Makes (Effect.Tame nowhere nowhere) (do
      let props ← env.exec (.selectProps source) do
        let s ← .read
        pure (s.volume.deadProperties source)
      Act.each (fun e => env.upsertDeadProperty { e.1 with path := target } e.2) props) :=
    Act.within_bind (makes_call (makes_answer _)) fun _ => Act.within_each fun _ _ => makes_upsertDeadProperty trivial
  have hread : (env.exec (.selectNode source) (do
      let s ← .read
      pure (Store.get s.volume.nodes source))).run (enter v) =
        (.ok (Store.get v.nodes source), (enter v).record (.exec (.selectNode source))) := call_run hselect
  unfold Env.copyMeta
  rw [Act.run_bind, Act.run_attempt]
  change ((env.copyRows source target isCollection).run (enter v)).2.volume.flagged target = false
  unfold Env.copyRows
  rw [Act.run_bind_ok hread]
  have hwritten (row : NodeRow) : (env.exec (.upsertNode target) (Env.modifyVolume fun v => v.upsertNode target row)).run
      ((enter v).record (.exec (.selectNode source))) = (.ok (), ⟨v.upsertNode target row,
        [.exec (.upsertNode target), .exec (.selectNode source)]⟩) := call_run hupsert
  rw [Act.run_bind_ok (hwritten _)]
  rw [Bool.eq_false_iff]
  intro hmarked
  rcases (tame_within hprops _).flags target hmarked with h | h
  · exact absurd ((flagged_upsert v target _).symm.trans h) (by simp)
  · exact h

/-- More is written to a file that is there. -/
theorem write_keeps {bytes : Bytes} {offset : ℕ} : Act.Within (Grows nowhere nowhere) (env.write path bytes offset) := by
  intro s
  rw [Env.write, run_call]
  cases env.fails (.writeFile path) (s.calls.count (.writeFile path)) with
  | some e => exact .same rfl
  | none =>
    rw [Act.run_bind, Act.run_read]
    dsimp only
    cases hold : (s.record (.writeFile path)).volume.files.content path with
    | none => exact .same rfl
    | some old =>
      obtain ⟨i, hget, hbytes⟩ := Option.bind_eq_some_iff.mp hold
      have hfile : s.volume.isFile path = true := by
        unfold Volume.isFile
        rw [show Store.get s.volume.files path = some i from hget]
        exact Option.isSome_iff_exists.mpr ⟨old, hbytes⟩
      refine grown_of_files (v := s.volume) (fun q hq => .inl ?_) fun hroot => ?_
      · rcases isFile_put hq with h | ⟨rfl, -⟩
        · exact h
        · exact hfile
      · refine put_rooted hroot (hroot path (Option.isSome_iff_exists.mpr ⟨i, hget⟩)) fun q hq => ?_
        by_cases hqp : q = path
        · have hdir : s.volume.files.isDirectory path = true := hqp ▸ hq
          unfold Files.isDirectory at hdir ⊢
          rw [show Store.get s.volume.files path = some i from hget] at hdir
          have hroot : path = [] := by simpa [hbytes] using hdir
          simp [hqp, hroot]
        · rwa [isDirectory_put hqp]

theorem write_goes {bytes : Bytes} {offset : ℕ} (h : env.fails (.writeFile path) 0 = none) (hfile : v.isFile path = true) :
    ((env.write path bytes offset).run (enter v)).1 = .ok () := by
  have hthere : ∃ old, v.files.content path = some old := by
    obtain ⟨i, hget, hbytes⟩ := (Option.any_eq_true _ _).mp hfile
    obtain ⟨old, hold⟩ := Option.isSome_iff_exists.mp hbytes
    exact ⟨old, Option.bind_eq_some_iff.mpr ⟨i, hget, hold⟩⟩
  obtain ⟨old, hold⟩ := hthere
  have hcall : env.fails (.writeFile path) ((enter v).calls.count (.writeFile path)) = none := h
  rw [Env.write, run_call, hcall]
  dsimp only
  rw [Act.run_bind, Act.run_read]
  dsimp only
  rw [show ((enter v).record (.writeFile path)).volume.files.content path = some old from hold]
  rfl

end Records

/-! ### Moves -/

section Moves

variable {env : Env} {v v' : Volume} {s : Session} {source target : JsString}

theorem moveInto_plan {r : Request} {isCollection : Bool} {plan : CopyPlan} {s s' : Session}
    (h : (env.moveInto r target isCollection).run s = (.ok (.ok plan), s')) : plan.target = target := by
  unfold Env.moveInto at h
  obtain ⟨orphan, s₁, -, h⟩ := Act.of_run_bind h
  split at h
  · simp at h
  · obtain ⟨st, s₂, -, h⟩ := Act.of_run_bind h
    split at h
    · simp at h
    · obtain ⟨refusal, s₃, -, h⟩ := Act.of_run_bind h
      split at h
      · simp at h
      · obtain rfl := Except.ok.inj (Act.of_run_pure h).1
        rfl

/-- A tree is only renamed to a place that is not in it. -/
theorem moveAdmit_plan {r : Request} {bases : DavBases} {plan : CopyPlan} {s s' : Session}
    (h : (env.moveAdmit r source bases).run s = (.ok (.ok plan), s')) : Apart source plan.target := by
  unfold Env.moveAdmit at h
  split at h
  · simp at h
  · rename_i target hd
    suffices htarget : plan.target = target from htarget ▸ resolveDestination_apart hd
    obtain ⟨locked, s₁, -, h⟩ := Act.of_run_bind h
    split at h
    · simp at h
    · obtain ⟨targetLocked, s₂, -, h⟩ := Act.of_run_bind h
      split at h
      · simp at h
      · obtain ⟨sourceStat, s₃, -, h⟩ := Act.of_run_bind h
        split at h
        · simp at h
        · split at h
          · simp at h
          · split at h
            · obtain ⟨refusal, s₄, -, h⟩ := Act.of_run_bind h
              split at h
              · simp at h
              · exact moveInto_plan h
            · exact moveInto_plan h

/-- The rows of a table get their new paths, or nothing is done to them. -/
theorem updateTable_either (env : Env) (source target : JsString) (t : Table) (s : Session) :
    ((env.updateTable source target t).run s).2.volume = s.volume ∨
      s.volume.updatePaths source target t = some ((env.updateTable source target t).run s).2.volume := by
  rw [Env.updateTable, Env.exec, run_call]
  cases env.fails (.exec (.updatePaths t source target)) (s.calls.count (.exec (.updatePaths t source target))) with
  | some e => exact .inl rfl
  | none =>
    rw [Act.run_bind, Act.run_read]
    dsimp only
    cases hpaths : (s.record (.exec (.updatePaths t source target))).volume.updatePaths source target t with
    | none => exact .inl rfl
    | some v => exact .inr hpaths

theorem updatePaths_others {t : Table} (ht : t ≠ .davNodes) (h : v.updatePaths source target t = some v') :
    v'.files = v.files ∧ v'.nodes = v.nodes := by
  cases t with
  | davNodes => exact absurd rfl ht
  | davLocks =>
    obtain rfl := Option.some.inj h
    exact ⟨rfl, rfl⟩
  | davProps | davReplicaState =>
    obtain ⟨rows, -, rfl⟩ := Option.map_eq_some_iff.mp h
    exact ⟨rfl, rfl⟩

/-- The tree stays, and the node rows stay or all get their new paths. -/
def Repathed (source target : JsString) (v v' : Volume) : Prop :=
  v'.files = v.files ∧ (v'.nodes = v.nodes ∨ rekey v.nodes (repath source target) = some v'.nodes)

theorem updateTable_repathed (env : Env) (source target : JsString) (s : Session) :
    Repathed source target s.volume ((env.updateTable source target .davNodes).run s).2.volume := by
  rcases updateTable_either env source target .davNodes s with hsame | hpaths
  · rw [hsame]
    exact ⟨rfl, .inl rfl⟩
  · refine ⟨?_, updatePaths_nodes hpaths⟩
    obtain ⟨nodes, -, hvol⟩ := Option.map_eq_some_iff.mp hpaths
    rw [← hvol]

theorem renameCascade_repathed (env : Env) (source target : JsString) :
    Act.Within (fun s s' => Repathed source target s.volume s'.volume) (env.renameCascade source target) := by
  have hlater : Makes (fun e => ∃ t, t ≠ .davNodes ∧ e = .updatePaths source target t)
      (Act.each (env.updateTable source target) [.davProps, .davReplicaState]) := by
    refine Act.within_each fun t ht => makes_updateTable (List.mem_cons_of_mem _ ht) ⟨t, fun he => ?_, rfl⟩
    rw [he] at ht
    cases ht with
    | tail _ ht => cases ht with
      | tail _ ht => cases ht
  have htables : Act.Within (fun s s' => Repathed source target s.volume s'.volume) (env.renameNodeCascade source target) := by
    have hfirst : Act.Within (fun s s' => Repathed source target s.volume s'.volume) (env.updateTable source target .davNodes) :=
      updateTable_repathed env source target
    refine Act.within_bind_trans hfirst (fun _ _ _ _ => hlater) (fun _ _ => id) fun s s' t hs hlead => ?_
    refine leads_keeps (I := fun v => Repathed source target s.volume v) (fun e v v' he hc hv => ?_) hlead hs
    obtain ⟨t, ht, rfl⟩ := he
    cases hc with
    | updatePaths _ _ _ _ _ hpaths =>
      obtain ⟨hfiles, hnodes⟩ := updatePaths_others ht hpaths
      exact ⟨hfiles.trans hv.1, by rw [hnodes]; exact hv.2⟩
  exact Act.within_bind_trans (T := fun s s' => s = s') (Act.within_attempt htables) (fun _ _ _ _ _ => rfl) (fun _ _ => id)
    fun _ _ _ hs he => he ▸ hs

/-- Where a rename takes the files, and where their rows may be then. -/
theorem carried_of_rename {v₁ : Volume} (hroot : v.files.Rooted) (hc : Change v (.rename source target) v₁)
    (hpaths : Repathed source target v₁ v') : Carried source target v v' := by
  cases hc with
  | rename _ _ files hsource hne hout hfound hfree hparent hfiles =>
    obtain ⟨hvfiles, hvnodes⟩ := hpaths
    refine ⟨fun q hq => ?_, fun q hq => ?_⟩
    · obtain ⟨i, hget, hbytes⟩ := (Option.any_eq_true _ _).mp hq
      rw [hvfiles] at hget
      obtain ⟨k, hto, hk⟩ := rekeyed_from hfiles hget
      have hfile : v.isFile k = true := (Option.any_eq_true _ _).mpr ⟨i, hk, hbytes⟩
      by_cases hin : k = source ∨ Below slash source k
      · exact .inr ⟨k, hin, hfile, hto.symm⟩
      · rw [if_neg hin] at hto
        subst hto
        refine .inl ⟨hfile, hin, fun htarget => ?_⟩
        have hnot : v.files.found target ≠ true := by simp [hfree]
        rcases htarget with rfl | hb
        · exact hnot (found_iff.mpr (.inr (by rw [hk]; rfl)))
        · exact hnot (found_of_isDirectory (hroot.above (by rw [hk]; rfl) hb))
    · obtain ⟨row, hget, hnull⟩ := (Option.any_eq_true _ _).mp hq
      rcases hvnodes with hsame | hrekey
      · rw [hsame] at hget
        exact .inl ((Option.any_eq_true _ _).mpr ⟨row, hget, hnull⟩)
      · obtain ⟨k, hto, hk⟩ := rekeyed_from hrekey hget
        exact .inr ⟨k, (Option.any_eq_true _ _).mpr ⟨row, hk, hnull⟩, hto.symm⟩

end Moves

/-! ### UNLOCK -/

section Unlocking

variable {env : Env} {v : Volume} {path : JsString}

/-- The tree and the node rows are as they were. -/
def Same (v : Volume) (s : Session) : Prop := s.volume.files = v.files ∧ s.volume.nodes = v.nodes

theorem Same.flagged {s : Session} (h : Same v s) (path : JsString) : s.volume.flagged path = v.flagged path := by
  unfold Volume.flagged
  rw [h.2]

/-- Nothing that UNLOCK does before it takes a file away is seen in the tree or in the node rows. -/
def Effect.Releases : Effect → Prop
  | .release _ => True
  | _ => False

theorem same_makes {α : Type} {x : Serve α} (hx : Makes Effect.Releases x) : Act.Meets (Same v) x (fun _ => Same v) (Same v) := by
  refine hx.meets fun s s' hs hlead => ?_
  refine leads_keeps (I := fun w => w.files = v.files ∧ w.nodes = v.nodes) (fun e w w' he hc hw => ?_) hlead hs
  cases hc with
  | release => exact hw
  | _ => exact he.elim

/-- Files are gone, but only one that was marked. -/
def Unmarks (v : Volume) (path : JsString) (w : Volume) : Prop :=
  ∀ q, v.isFile q = true → w.isFile q = false → q = path ∧ v.flagged path = true

theorem unmarks_same {s : Session} (h : Same v s) : Unmarks v path s.volume := by
  intro q hq hgone
  unfold Volume.isFile at hq hgone
  rw [h.1, hq] at hgone
  cases hgone

theorem meets_isLockNull : Act.Meets (Same v) (env.isLockNull path)
    (fun marked s => Same v s ∧ (marked = true → v.flagged path = true)) (fun _ => False) := by
  refine Act.meets_bind (R := fun row s => Same v s ∧ (row.any NodeRow.lockNull = true → v.flagged path = true)) ?_ fun row =>
    Act.meets_pure fun s hs => hs
  intro s hs
  unfold Env.readMeta
  rw [Act.run_bind, Act.run_attempt, Env.exec, run_call]
  cases env.fails (.exec (.selectNode path)) (s.calls.count (.exec (.selectNode path))) with
  | some e => exact ⟨hs, fun h => by cases h⟩
  | none => exact ⟨hs, fun h => (hs.flagged path).symm.trans h⟩

theorem meets_dropLockNull : Act.Meets (Same v) (env.dropLockNull path) (fun _ s => Unmarks v path s.volume)
    (fun s => Unmarks v path s.volume) := by
  have hsame : ∀ s, Same v s → Unmarks v path s.volume := fun s => unmarks_same
  refine Act.meets_bind ((same_makes makes_readLocks).weaken (fun _ => id) (fun _ _ => id) hsame) fun remaining => ?_
  split
  · refine Act.meets_bind (meets_isLockNull.weaken (fun _ => id) (fun _ _ => id) fun _ => False.elim) fun marked => ?_
    split
    · rename_i hmarked
      have hundo : Makes (fun e => e = .unlink path ∨ ∃ t, e = .deleteRows path t) (env.undoCreation path) :=
        makes_undoCreation (.inl rfl) fun t => .inr ⟨t, rfl⟩
      refine Act.Within.meets hundo fun s s' hs hlead q hq hgone => ?_
      refine ⟨?_, hs.2 hmarked⟩
      by_contra hne
      have hstays : s'.volume.isFile q = true := by
        refine leads_keeps (I := fun w => w.isFile q = true) (fun e w w' he hc hw => ?_) hlead ?_
        · rcases he with rfl | ⟨t, rfl⟩
          · cases hc with
            | unlink =>
              unfold Volume.isFile
              rwa [Store.get_remove, if_neg hne]
          · cases hc with
            | deleteRows => cases t <;> exact hw
        · unfold Volume.isFile
          rwa [hs.1.1]
      rw [hstays] at hgone
      cases hgone
    · exact Act.meets_pure fun s hs => hsame s hs.1
  · exact Act.meets_pure hsame

/-- The token that is given up is that of a lock on the path. -/
theorem meets_releaseLock {token : JsString} : Act.Meets (fun s => s.volume = v) (env.releaseLock path (normalizeLockToken token))
    (fun released s => Same v s ∧ (released = true → ((v.locks.filter (fun e => e.2.path = path)).map Prod.fst).any
      (fun t => t ≠ [] ∧ (t = normalizeLockToken token ∨ normalizeLockToken t = normalizeLockToken token)) = true)) (Same v) := by
  refine Act.meets_bind (R := fun tokens s => Same v s ∧ tokens = (v.locks.filter (fun e => e.2.path = path)).map Prod.fst) ?_
    fun tokens => ?_
  · rintro s rfl
    rw [Env.exec, run_call]
    cases env.fails (.exec (.selectTokens path)) (s.calls.count (.exec (.selectTokens path))) with
    | some e => exact ⟨rfl, rfl⟩
    | none => exact ⟨⟨rfl, rfl⟩, rfl⟩
  · split
    · exact Act.meets_pure fun s hs => ⟨hs.1, fun h => by cases h⟩
    · rename_i held hfind
      have hrelease : Makes Effect.Releases (env.exec (.deleteLock held) (Env.modifyVolume fun v => v.deleteLock held)) :=
        makes_call (makes_modify (e := .release held) trivial fun _ => .release held)
      refine Act.meets_bind (R := fun _ s => Same v s ∧ tokens = (v.locks.filter (fun e => e.2.path = path)).map Prod.fst) ?_ fun _ =>
        Act.meets_pure fun s hs => ⟨hs.1, fun _ => ?_⟩
      · intro s hs
        have hmade := same_makes hrelease s hs.1
        cases hrun : (env.exec (.deleteLock held) (Env.modifyVolume fun v => v.deleteLock held)).run s with
        | mk r s' =>
          rw [hrun] at hmade
          cases r with
          | error e => exact hmade
          | ok u => exact ⟨hmade, hs.2⟩
      · rw [← hs.2]
        exact List.any_eq_true.mpr ⟨held, List.mem_of_find?_eq_some hfind, by simpa using List.find?_some hfind⟩

/-- What is taken away was marked and empty, and its lock was given up. -/
def GivesUp (r : Request) (path : JsString) (v w : Volume) : Prop := ∀ q, v.isFile q = true → w.isFile q = false →
  q = path ∧ v.names path r = true ∧ v.flagged path = true ∧ (Store.get v.files path).bind Inode.bytes = some []

theorem sees_empty {n : ℕ} (hpath : path ≠ []) (hfound : (env.sees v path n).found = true)
    (hdir : (env.sees v path n).isDirectory = false) (hsize : (env.sees v path n).size = 0) :
    (Store.get v.files path).bind Inode.bytes = some [] := by
  unfold Env.sees Files.stat at hfound hdir hsize
  split at hfound
  · rename_i hcalm
    rw [if_pos hcalm, if_neg hpath] at hdir hsize
    cases hget : Store.get v.files path with
    | none =>
      rw [hget] at hfound
      cases hfound
    | some i =>
      rw [hget] at hdir hsize
      cases hbytes : i.bytes with
      | none => simp [hbytes] at hdir
      | some bytes => simpa [hbytes] using hsize
  · cases hfound

theorem meets_handleUnlock (r : Request) : Act.Meets (fun s => s.volume = v) (env.handleUnlock r path)
    (fun _ s => GivesUp r path v s.volume) (fun s => GivesUp r path v s.volume) := by
  have hsame {s : Session} (hs : Same v s) : GivesUp r path v s.volume := by
    intro q hq hgone
    unfold Volume.isFile at hq hgone
    rw [hs.1, hq] at hgone
    cases hgone
  have hnow {s : Session} (hs : s.volume = v) : GivesUp r path v s.volume := hsame ⟨congrArg Volume.files hs, congrArg Volume.nodes hs⟩
  refine Act.meets_bind (R := fun st s => s.volume = v ∧ ∃ n, st = env.sees v path n) ?_ fun st => ?_
  · rintro s rfl
    rw [statInner_run]
    exact ⟨rfl, _, rfl⟩
  · split
    · exact Act.meets_pure fun s hs => hnow hs.1
    · rename_i hthere
      split
      · exact Act.meets_pure fun s hs => hnow hs.1
      · rename_i token htoken
        refine Act.meets_bind (R := fun released s => Same v s ∧ (∃ n, st = env.sees v path n) ∧
          (released = .ok true → v.names path r = true)) ?_ fun released => ?_
        · intro s hs
          have hmeets := @meets_releaseLock env v path token s hs.1
          rw [Act.run_attempt]
          cases hrun : (env.releaseLock path (normalizeLockToken token)).run s with
          | mk answer s' =>
            rw [hrun] at hmeets
            cases answer with
            | error e => exact ⟨hmeets, hs.2, fun h => by cases h⟩
            | ok b =>
              refine ⟨hmeets.1, hs.2, fun h => ?_⟩
              unfold Volume.names
              rw [htoken]
              exact hmeets.2 (Except.ok.inj h)
        · split
          · dsimp only
            split
            · rename_i hempty
              obtain ⟨hpath, hdir, hsize⟩ := hempty
              have hfound : st.found = true := by simpa [hpath] using hthere
              refine Act.meets_bind (R := fun _ s => GivesUp r path v s.volume) ?_ fun _ => Act.meets_pure fun _ => id
              rintro s ⟨hs, ⟨n, rfl⟩, hnames⟩
              have hbytes := sees_empty hpath hfound (by simpa using hdir) hsize
              have hgives {s : Session} (h : Unmarks v path s.volume) : GivesUp r path v s.volume :=
                fun q hq hgone => ⟨(h q hq hgone).1, hnames rfl, (h q hq hgone).2, hbytes⟩
              exact (meets_dropLockNull.weaken (fun _ => id) (fun _ _ => hgives) fun _ => hgives) s hs
            · exact Act.meets_bind (R := fun _ s => GivesUp r path v s.volume) (Act.meets_pure fun s hs => hsame hs.1) fun _ =>
                Act.meets_pure fun _ => id
          · exact Act.meets_pure fun s hs => hsame hs.1

end Unlocking

/-! ### Every task is honest -/

section Tasks

variable {path source target : JsString} {rest : Task}

theorem honest_records {α : Type} {segment : Env → Serve α} {rest : α → Task} {statements : List Statement}
    (hquiet : ∀ env, Makes (Effect.Tame nowhere nowhere) (segment env))
    (hclears : ∀ (env : Env) v, (∀ st ∈ statements, env.fails (.exec st) 0 = none) →
      ((segment env).run (enter v)).2.volume.flagged path = false) (hrest : ∀ a, Honest (rest a)) :
    Honest (.of (.records path statements) segment rest) := by
  refine .next (fun env v => ⟨tame_within (hquiet env) (enter v), hclears env v⟩) fun env v => ?_
  cases ((segment env).run (enter v)).1 with
  | ok a => exact hrest a
  | error e => exact .done

/-- What writes a file has its row to write next. -/
theorem honest_writes {α : Type} {did : Except Failure α → Bool} {segment : Env → Serve α} {rest : Except Failure α → Task}
    (hputs : ∀ env, Puts path did (segment env)) (howed : ∀ r, did r = true → Task.owed (rest r) = some path)
    (hrest : ∀ r, Honest (rest r)) : Honest (.next (.writes path) did segment rest) :=
  .next (fun env v => ⟨hputs env (enter v), howed _⟩) fun _ _ => hrest _

theorem honest_putTask (r : Incoming) (path : JsString) (maxFileBytes : ℕ) : Honest (putTask r path maxFileBytes) := by
  refine honest_checked (fun env => makes_putAdmit) fun _ _ plan _ _ => ?_
  refine honest_writes (fun env => puts_putWrite plan maxFileBytes) (fun r hdid => ?_) fun r => ?_
  · rcases r with e | _ | u
    · cases hdid
    · cases hdid
    · rfl
  · rcases r with e | _ | u
    · exact .done
    · exact .done
    · refine honest_records (fun env => makes_putRecord tame_notes) (fun env v h => ?_) fun _ => .done
      exact putRecord_unflags plan (h _ (List.mem_singleton.mpr rfl))

theorem honest_copyFileTask (hrest : Honest rest) : Honest (copyFileTask source target rest) := by
  refine honest_writes (fun env => puts_copyBytes) (fun r hdid => ?_) fun r => ?_
  · cases r with
    | error e => cases hdid
    | ok u => rfl
  · cases r with
    | error e => exact hrest
    | ok u =>
      refine honest_records (fun env => makes_copyMeta tame_notes tame_edits) (fun env v h => ?_) fun _ => hrest
      exact copyMeta_unflags (h _ (by simp)) (h _ (by simp))

theorem honest_copyChildrenTask (names : List JsString) : Honest (copyChildrenTask source target names) := by
  induction names with
  | nil => exact .done
  | cons name rest ih =>
    refine honest_other (fun env => makes_statInner) fun st => ?_
    split
    · refine honest_other (fun env => ?_) fun _ => ih
      exact Act.within_bind (Act.within_attempt (makes_mkdir trivial)) fun _ => makes_copyMeta tame_notes tame_edits
    · exact honest_copyFileTask ih

theorem makes_copyAdmit {env : Env} {r : Request} {bases : DavBases} : Makes (Effect.Tame nowhere nowhere) (env.copyAdmit r source bases) := by
  unfold Env.copyAdmit
  split
  · exact Act.within_pure _
  · refine Act.within_bind makes_assertLock fun locked => ?_
    split
    · exact Act.within_pure _
    · refine Act.within_bind makes_statInner fun sourceStat => ?_
      split
      · exact Act.within_pure _
      · refine Act.within_bind makes_orphaned fun orphan => ?_
        split
        · exact Act.within_pure _
        · refine Act.within_bind makes_statInner fun targetStat => ?_
          split
          · exact Act.within_pure _
          · split
            · exact Act.within_pure _
            · refine Act.within_bind (makes_removeExisting tame_destroys) fun refusal => ?_
              split <;> exact Act.within_pure _

theorem makes_copyRoot {env : Env} {destExists : Bool} : Makes (Effect.Tame nowhere nowhere) (env.copyRoot source target destExists) := by
  refine Act.within_bind (Act.within_attempt (makes_mkdir trivial)) fun made => ?_
  split
  · exact Act.within_pure _
  · exact Act.within_bind (makes_copyMeta tame_notes tame_edits) fun _ => Act.within_pure _

theorem honest_copyTask (r : Request) (source : JsString) (bases : DavBases) : Honest (copyTask r source bases) := by
  refine honest_checked (fun env => makes_copyAdmit) fun _ _ plan _ _ => ?_
  split
  · refine honest_checked (fun env => makes_copyRoot) fun _ _ _ _ _ => ?_
    split
    · exact honest_other (fun env => makes_listRecursive) fun names => honest_copyChildrenTask names
    · exact .done
  · exact honest_copyFileTask .done

theorem makes_moveInto {env : Env} {r : Request} {isCollection : Bool} :
    Makes (Effect.Tame nowhere nowhere) (env.moveInto r target isCollection) := by
  refine Act.within_bind makes_orphaned fun orphan => ?_
  split
  · exact Act.within_pure _
  · refine Act.within_bind makes_statInner fun targetStat => ?_
    split
    · exact Act.within_pure _
    · refine Act.within_bind (makes_removeExisting tame_destroys) fun refusal => ?_
      split <;> exact Act.within_pure _

theorem makes_moveAdmit {env : Env} {r : Request} {bases : DavBases} : Makes (Effect.Tame nowhere nowhere) (env.moveAdmit r source bases) := by
  unfold Env.moveAdmit
  split
  · exact Act.within_pure _
  · refine Act.within_bind makes_assertLock fun locked => ?_
    split
    · exact Act.within_pure _
    · refine Act.within_bind makes_assertLock fun targetLocked => ?_
      split
      · exact Act.within_pure _
      · refine Act.within_bind makes_statInner fun sourceStat => ?_
        split
        · exact Act.within_pure _
        · split
          · exact Act.within_pure _
          · split
            · refine Act.within_bind makes_refuseSubtree fun refusal => ?_
              split
              · exact Act.within_pure _
              · exact makes_moveInto
            · exact makes_moveInto

theorem carry_does (env : Env) (ht : Apart source target) (v : Volume) :
    (((env.carry source target).run (enter v)).1.toOption.isSome = false → Grown nowhere nowhere v
      ((env.carry source target).run (enter v)).2.volume) ∧ (v.files.Rooted →
        ((env.carry source target).run (enter v)).2.volume.files.Rooted ∧
          (((env.carry source target).run (enter v)).1.toOption.isSome = true → source ≠ [] ∧
            Carried source target v ((env.carry source target).run (enter v)).2.volume)) := by
  rcases @comes_rename env source target ht (enter v) with ⟨e, s', hrun, hvol⟩ | ⟨u, s', hrun, hc⟩
  · have hcarry : (env.carry source target).run (enter v) = (.error e, s') := Act.run_bind_error hrun
    have hstays : s'.volume = v := hvol
    rw [hcarry]
    refine ⟨fun _ => .same hstays, fun hroot => ⟨?_, fun hdid => by cases hdid⟩⟩
    rwa [show s'.volume = v from hvol]
  · have hcarry : (env.carry source target).run (enter v) = (env.renameCascade source target).run s' := Act.run_bind_ok hrun
    have hcascade := renameCascade_repathed env source target s'
    have hanswers : ((env.renameCascade source target).run s').1.toOption.isSome = true := rfl
    rw [hcarry]
    refine ⟨fun hdid => ?_, fun hroot => ⟨?_, fun _ => ⟨ht.source_ne_nil, carried_of_rename hroot hc hcascade⟩⟩⟩
    · rw [hanswers] at hdid
      cases hdid
    · rw [hcascade.1]
      exact change_rooted hc hroot

theorem honest_moveTask (r : Request) (source : JsString) (bases : DavBases) : Honest (moveTask r source bases) := by
  refine honest_checked (fun env => makes_moveAdmit) fun _ _ plan _ hrun => ?_
  have ht := moveAdmit_plan hrun
  refine .next (fun env v => ?_) fun env v => ?_
  · exact carry_does env ht v
  · cases ((env.carry source plan.target).run (enter v)).1 with
    | ok a => exact .done
    | error e => exact .done

/-! ### LOCK -/

theorem puts_lockEnsure {env : Env} (r : Incoming) (path : JsString) : Puts path hasCreated (env.lockEnsure r path) := by
  refine puts_bind_of_run makes_lockAdmit fun admitted s s' hrun => ?_
  split
  · exact puts_quiet (Act.within_pure _)
  · rename_i plan
    have hplan := lockAdmit_plan hrun
    have hensure := @puts_ensureLockableResource env plan
    rw [hplan.1] at hensure
    refine puts_then hensure (fun _ => Act.within_pure _) (fun l s hdid => ?_) fun e h => by cases h
    cases l with
    | there => cases hdid
    | created => rfl
    | refused response => cases hdid

theorem lockEnsure_plan {env : Env} {r : Incoming} {plan : Env.LockPlan} {lockable : Env.Lockable} {s s' : Session}
    (h : (env.lockEnsure r path).run s = (.ok (.ok (plan, lockable)), s')) : plan.Targets path := by
  unfold Env.lockEnsure at h
  obtain ⟨admitted, s₁, hadmitted, h⟩ := Act.of_run_bind h
  split at h
  · simp at h
  · obtain ⟨l, s₂, -, h⟩ := Act.of_run_bind h
    obtain ⟨rfl, -⟩ := Prod.mk.inj (Except.ok.inj (Act.of_run_pure h).1)
    exact lockAdmit_plan hadmitted

theorem honest_grantTask {uuid : Uuid} {bases : DavBases} {plan : Env.LockPlan} (hplan : plan.Targets path) :
    Honest (grantTask uuid bases plan) :=
  honest_other (fun _ => makes_lockGrant hplan tame_destroys tame_locks) fun _ => .done

theorem honest_lockTask (uuid : Uuid) (r : Incoming) (path : JsString) (bases : DavBases) : Honest (lockTask uuid r path bases) := by
  refine .next (fun _ v => puts_lockEnsure r path (enter v)) fun env v => ?_
  cases hrun : (env.lockEnsure r path).run (enter v) with
  | mk answer s' =>
    rcases answer with e | response | ⟨plan, lockable⟩
    · exact .done
    · exact .done
    · have hgrant : Honest (grantTask uuid bases plan) := honest_grantTask (lockEnsure_plan hrun)
      cases lockable with
      | there => exact hgrant
      | refused response => exact .done
      | created =>
        refine .next (fun _ v => tame_within (makes_recordLockNull (L := Effect.Tame nowhere fun q => q = path) fun _ _ _ => rfl) (enter v)) fun env v => ?_
        cases ((env.recordLockNull path).run (enter v)).1 with
        | ok a => exact hgrant
        | error e => exact .done

theorem honest_unlock (r : Request) (path : JsString) :
    Honest (.of (.unlocks r path) (fun env => env.handleUnlock r path) fun _ => .done) := by
  refine .next (fun env v => ⟨tame_within (makes_handleUnlock tame_destroys fun _ => trivial) (enter v), ?_⟩) fun env v => ?_
  · exact (meets_handleUnlock r).after rfl
  · cases ((env.handleUnlock r path).run (enter v)).1 with
    | ok a => exact .done
    | error e => exact .done

theorem honest_task (x : Exchange) : Honest x.task := by
  unfold Exchange.task
  split
  · exact .done
  · split
    · exact honest_putTask ..
    · exact honest_other (fun env => makes_handleDelete tame_destroys) fun _ => .done
    · exact honest_other (fun env => makes_handleMkcol trivial tame_notes) fun _ => .done
    · refine honest_other (fun env => makes_handleProppatch fun ops _ op _ e he => ?_) fun _ => .done
      exact tame_edits e ⟨PropKey.of x.path op.property, rfl, he⟩
    · exact honest_copyTask ..
    · exact honest_moveTask ..
    · exact honest_lockTask ..
    · exact honest_unlock ..

/-! ### The writes of a replication -/

theorem appendPiece_keeps {env : Env} {d : Device} {spaceUsed offset total : ℕ} {bytes : Bytes} :
    Act.Within (Grows nowhere nowhere) (env.appendPiece d path spaceUsed offset total bytes) := by
  unfold Env.appendPiece
  split
  · exact Act.within_throw _
  · exact write_keeps

theorem owed_drainTask (d : Device) (spaceUsed : ℕ) (howed : Task.owed rest = some path) (pieces : List Piece) (offset total : ℕ) :
    Task.owed (drainTask d path spaceUsed rest offset total pieces) = some path := by
  induction pieces with
  | nil => exact howed
  | cons piece pieces ih =>
    cases piece with
    | nothing => exact ih
    | failure e => rfl
    | value bytes => rfl

theorem honest_drainTask (d : Device) (spaceUsed : ℕ) (howed : Task.owed rest = some path) (hrest : Honest rest)
    (pieces : List Piece) : ∀ offset total, Honest (drainTask d path spaceUsed rest offset total pieces) := by
  induction pieces with
  | nil => exact fun _ _ => hrest
  | cons piece pieces ih =>
    intro offset total
    cases piece with
    | nothing => exact ih offset total
    | failure e => exact .next (fun _ v => ⟨.same rfl, fun h => (by cases h), fun h => by cases h⟩) fun _ _ => .done
    | value bytes =>
      refine .next (fun env v => ⟨appendPiece_keeps (enter v), fun hdid => ?_, fun hfits hcalm hfile => ?_⟩) fun env v => ?_
      · refine (congrArg Task.owed ?_).trans (owed_drainTask d spaceUsed howed pieces (offset + bytes.length) (total + bytes.length))
        cases hrun : ((env.appendPiece d path spaceUsed offset total bytes).run (enter v)).1 with
        | ok a => exact Thread.of_goes hrun
        | error e =>
          change ((env.appendPiece d path spaceUsed offset total bytes).run (enter v)).1.toOption.isSome = true at hdid
          rw [hrun] at hdid
          cases hdid
      · change ((env.appendPiece d path spaceUsed offset total bytes).run (enter v)).1.toOption.isSome = true
        unfold Env.appendPiece
        rw [if_neg (by simpa using hfits), write_goes hcalm hfile]
        rfl
      · cases ((env.appendPiece d path spaceUsed offset total bytes).run (enter v)).1 with
        | ok a => exact ih _ _
        | error e => exact .done

theorem honest_streamTask (d : Device) (path : JsString) (contentType : Option JsString) (data : ReplicaData) :
    Honest (streamTask d path contentType data) := by
  unfold streamTask
  split
  · exact .done
  · refine honest_other (fun env => ?_) fun _ => ?_
    · unfold Env.leadingTo
      split
      · exact Act.within_pure _
      · exact makes_replicaMkdir tame_lays
    · refine honest_writes (fun env => puts_openData d data) (fun r hdid => ?_) fun r => ?_
      · cases r with
        | error e => cases hdid
        | ok spaceUsed => exact owed_drainTask d spaceUsed rfl data.pieces 0 0
      · cases r with
        | error e => exact .done
        | ok spaceUsed =>
          refine honest_drainTask d spaceUsed rfl (honest_records (fun env => makes_upsertFileNode tame_notes) (fun env v h => ?_)
            fun _ => .done) data.pieces 0 0
          exact upsertNode_unflags rfl (h _ (List.mem_singleton.mpr rfl))

theorem honest_job (job : ReplicaJob) : Honest job.task := by
  cases job with
  | mkdir path => exact honest_other (fun env => makes_replicaMkdir tame_lays) fun _ => .done
  | write d path contentType data => exact honest_streamTask d path contentType data
  | unlink path recursive => exact honest_other (fun env => makes_replicaUnlink tame_destroys fun _ => trivial) fun _ => .done
  | copy source target =>
    refine honest_writes (fun env => puts_replicaCopyBytes) (fun r hdid => ?_) fun r => ?_
    · rcases r with e | _ | ⟨contentType, size⟩
      · cases hdid
      · cases hdid
      · rfl
    · rcases r with e | _ | ⟨contentType, size⟩
      · exact .done
      · exact .done
      · refine honest_records (fun env => makes_upsertFileNode tame_notes) (fun env v h => ?_) fun _ => .done
        exact upsertNode_unflags rfl (h _ (List.mem_singleton.mpr rfl))

end Tasks

end DurableDav.Dav
