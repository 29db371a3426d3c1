import DurableDav.Library.Runs
import DurableDav.Dav.HonestTasks
import DurableDav.Dav.LockRefresh

namespace DurableDav.Dav

open Library
open Replication (Bytes isValidInnerPath parentOf)

/-! ### Tasks that share a volume -/

/-- A volume and the tasks in flight, with the files that a LOCK has made and nobody has written since,
and those that an UNLOCK has taken away though they were not among them. -/
structure Shared where
  volume : Volume
  tasks : List Task
  fresh : List JsString
  wronged : List JsString

inductive Shared.Turn
  | arrives (x : Exchange)
  | replicates (job : ReplicaJob)
  | resumes (env : Env) (i : ℕ)

def Work.freshened (did : Bool) (fresh : List JsString) : Work → List JsString
  | .creates path => if did then path :: fresh else fresh
  | .writes path | .appends path _ => if did then fresh.filter (fun q => q ≠ path) else fresh
  | .moves source target => if did then fresh.map (moved source target) else fresh
  | _ => fresh

def Work.wrongs (v v' : Volume) (fresh : List JsString) : Work → List JsString
  | .unlocks _ _ => (Store.keys v.files).filter (fun q => v.isFile q ∧ !v'.isFile q ∧ q ∉ fresh)
  | _ => []

namespace Shared

def start : Shared := ⟨emptyVolume, [], [], []⟩

variable (s : Shared)

/-- The task runs from its await to the next. -/
def goesOn (i : ℕ) (t : Turned) (w : Work) : Shared where
  volume := t.state
  tasks := s.tasks.set i t.rest
  fresh := (w.freshened t.did s.fresh).filter t.state.isFile
  wronged := s.wronged ++ w.wrongs s.volume t.state s.fresh

def step (s : Shared) : Turn → Option Shared
  | .arrives x => some { s with tasks := s.tasks ++ [x.task] }
  | .replicates job => some { s with tasks := s.tasks ++ [job.task] }
  | .resumes env i => (s.tasks[i]?).bind fun task => (Thread.label task).map fun w =>
      s.goesOn i (Thread.turn enter Session.volume env s.volume task) w

/-! ### When the mark of a file is true -/

/-- Another task has written the file, and is to record it. -/
def owesBut (i : ℕ) (q : JsString) : Bool := (List.range s.tasks.length).any fun j =>
  j ≠ i ∧ (s.tasks[j]?).any fun task => Task.owed task = some q

def owes (q : JsString) : Bool := s.tasks.any fun task => Task.owed task = some q

/-- A file is marked though it has been written. -/
def Stale (q : JsString) : Prop := s.volume.isFile q = true ∧ s.volume.flagged q = true ∧ q ∉ s.fresh

instance (q : JsString) : Decidable (s.Stale q) := inferInstanceAs (Decidable (_ ∧ _))

/-- What is to hold when a task goes on, for the marks of the files to stay true. -/
def Fits (env : Env) (i : ℕ) : Work → Prop
  -- a file that was made to hold a lock is marked before it is written, or before that is recorded
  | .marks path => s.volume.isFile path = true → path ∈ s.fresh ∨ s.owes path = true
  -- who writes over the mark takes it away, unless somebody else is going to
  | .appends path fits => s.Stale path → s.owesBut i path = false → fits = true ∧ env.fails (.writeFile path) 0 = none
  | .records path statements => s.Stale path → s.owesBut i path = false →
      ∀ st ∈ statements, env.fails (.exec st) 0 = none
  | .unlocks r path => s.Stale path → s.volume.names path r = true → (Store.get s.volume.files path).bind Inode.bytes ≠ some []
  -- no file is taken to where a mark is left or brought
  | .moves source target => ∀ k ∈ Store.keys s.volume.files, Inside source k → s.volume.isFile k = true → k ∉ s.fresh →
      ∀ j ∈ Store.keys s.volume.nodes, s.volume.flagged j = true → moved source target k ≠ j ∧ moved source target k ≠ repath source target j
  | _ => True

instance (env : Env) (i : ℕ) : ∀ w, Decidable (s.Fits env i w)
  | .marks _ => inferInstanceAs (Decidable (_ = true → _ ∈ _ ∨ _ = true))
  | .appends _ _ => inferInstanceAs (Decidable (s.Stale _ → _ = false → _ = true ∧ _ = none))
  | .records _ _ => inferInstanceAs (Decidable (s.Stale _ → _ = false → ∀ st ∈ _, _ = none))
  | .unlocks _ _ => inferInstanceAs (Decidable (s.Stale _ → _ = true → _ ≠ some []))
  | .moves _ _ => inferInstanceAs (Decidable (∀ k ∈ _, Inside _ k → _ = true → _ → ∀ j ∈ _, _ = true → _ ∧ _))
  | .other | .creates _ | .writes _ => inferInstanceAs (Decidable True)

def Admits (s : Shared) : Turn → Prop
  | .resumes env i => ∀ w ∈ (s.tasks[i]?).bind Thread.label, s.Fits env i w
  | _ => True

instance (s : Shared) : ∀ turn, Decidable (s.Admits turn)
  | .arrives _ | .replicates _ => inferInstanceAs (Decidable True)
  | .resumes env i => inferInstanceAs (Decidable (∀ w ∈ (s.tasks[i]?).bind Thread.label, s.Fits env i w))

/-- What holds while every task that goes on is one that fits. -/
structure Sound : Prop where
  rooted : s.volume.files.Rooted
  honest : ∀ task ∈ s.tasks, Honest task
  marked : ∀ q, s.volume.isFile q = true → s.volume.flagged q = true → q ∈ s.fresh ∨ s.owes q = true
  kept : s.wronged = []

end Shared

section Owing

variable {s : Shared} {i : ℕ} {task : Task} {t : Turned} {w : Work} {q : JsString}

theorem owesBut_goesOn (h : s.owesBut i q = true) : (s.goesOn i t w).owes q = true := by
  obtain ⟨j, -, hj⟩ := List.any_eq_true.mp h
  obtain ⟨hne, howed⟩ : j ≠ i ∧ ((s.tasks[j]?).any fun task => Task.owed task = some q) = true := by simpa using hj
  obtain ⟨task, hget, howed⟩ := (Option.any_eq_true _ _).mp howed
  refine List.any_eq_true.mpr ⟨task, ?_, howed⟩
  apply List.mem_of_getElem? (i := j)
  change (s.tasks.set i t.rest)[j]? = some task
  rwa [List.getElem?_set_ne (Ne.symm hne)]

theorem owes_rest (htask : s.tasks[i]? = some task) (h : Task.owed t.rest = some q) : (s.goesOn i t w).owes q = true := by
  obtain ⟨hi, -⟩ := List.getElem?_eq_some_iff.mp htask
  refine List.any_eq_true.mpr ⟨t.rest, ?_, by simpa using h⟩
  apply List.mem_of_getElem? (i := i)
  change (s.tasks.set i t.rest)[i]? = some t.rest
  rw [List.getElem?_set_self hi]

/-- What is owed is owed by the task that goes on, or by another. -/
theorem owes_split (htask : s.tasks[i]? = some task) (h : s.owes q = true) : Task.owed task = some q ∨ s.owesBut i q = true := by
  obtain ⟨other, hmem, howed⟩ := List.any_eq_true.mp h
  obtain ⟨j, hj⟩ := List.mem_iff_getElem?.mp hmem
  by_cases hji : j = i
  · rw [hji, htask] at hj
    obtain rfl := Option.some.inj hj
    exact .inl (by simpa using howed)
  · refine .inr (List.any_eq_true.mpr ⟨j, ?_, ?_⟩)
    · obtain ⟨hlt, -⟩ := List.getElem?_eq_some_iff.mp hj
      exact List.mem_range.mpr hlt
    · rw [hj]
      simpa [hji] using howed

end Owing

/-! ### The marks stay true -/

section Steps

variable {s : Shared} {env : Env} {i : ℕ} {task : Task} {t : Turned} {w : Work} {q path : JsString}

theorem fresh_creates (h : q ∈ s.fresh) : q ∈ (Work.creates path).freshened t.did s.fresh := by
  rw [Work.freshened]
  split
  · exact List.mem_cons_of_mem _ h
  · exact h

theorem fresh_others (h : q ∈ s.fresh) (hne : ¬ (q = path ∧ t.did = true)) :
    q ∈ if t.did = true then s.fresh.filter (fun q => q ≠ path) else s.fresh := by
  split
  · rename_i hdid
    refine List.mem_filter.mpr ⟨h, ?_⟩
    simpa using fun he => hne ⟨he, hdid⟩
  · exact h

theorem mem_fresh (hfile : t.state.isFile q = true) (h : q ∈ w.freshened t.did s.fresh) : q ∈ (s.goesOn i t w).fresh :=
  List.mem_filter.mpr ⟨h, hfile⟩

/-- A mark that is true stays so, unless the task that goes on is the one that was to take it away. -/
theorem marked_stays (hs : s.Sound) (htask : s.tasks[i]? = some task) (howed : Task.owed task ≠ some q)
    (hfresh : q ∈ s.fresh → q ∈ w.freshened t.did s.fresh) (hfile : s.volume.isFile q = true)
    (hflag : s.volume.flagged q = true) (hfile' : t.state.isFile q = true) :
    q ∈ (s.goesOn i t w).fresh ∨ (s.goesOn i t w).owes q = true := by
  rcases hs.marked q hfile hflag with h | h
  · exact .inl (mem_fresh hfile' (hfresh h))
  · exact .inr (owesBut_goesOn ((owes_split htask h).resolve_left howed))

theorem owed_of_label (hlabel : Thread.label task = some w) : Task.owed task = w.owed := by
  unfold Task.owed
  rw [hlabel]
  rfl

theorem owed_ne (hlabel : Thread.label task = some w) (hw : w.owed ≠ some q) : Task.owed task ≠ some q := by
  rwa [owed_of_label hlabel]

/-- Whoever is to write a row goes on: the row is written, or somebody else is going to write it, or the file is fresh. -/
theorem marked_owed (hs : s.Sound) (htask : s.tasks[i]? = some task) (hlabel : Thread.label task = some w) (hw : w.owed = some path)
    (hgrown : Grown nowhere nowhere s.volume t.state)
    (hfresh : ∀ q, q ∈ s.fresh → q ≠ path → q ∈ w.freshened t.did s.fresh)
    (hkept : path ∈ s.fresh → path ∈ w.freshened t.did s.fresh ∨ Task.owed t.rest = some path)
    (hloose : s.Stale path → s.owesBut i path = false → t.state.flagged path = false ∨ Task.owed t.rest = some path)
    (hfile : t.state.isFile q = true) (hflag : t.state.flagged q = true) :
    q ∈ (s.goesOn i t w).fresh ∨ (s.goesOn i t w).owes q = true := by
  have hfile₀ := (hgrown.files q hfile).resolve_right id
  have hflag₀ := (hgrown.flags q hflag).resolve_right id
  by_cases hq : q = path
  · subst hq
    by_cases hmem : q ∈ s.fresh
    · exact (hkept hmem).imp (mem_fresh hfile) (owes_rest htask)
    · cases hother : s.owesBut i q with
      | true => exact .inr (owesBut_goesOn hother)
      | false =>
        rcases hloose ⟨hfile₀, hflag₀, hmem⟩ hother with hclear | howes
        · rw [hclear] at hflag
          cases hflag
        · exact .inr (owes_rest htask howes)
  · refine marked_stays hs htask (owed_ne hlabel ?_) (fun h => hfresh q h hq) hfile₀ hflag₀ hfile
    rw [hw]
    exact fun he => hq (Option.some.inj he).symm

theorem marked_moves {source target : JsString} (hs : s.Sound) (htask : s.tasks[i]? = some task)
    (hlabel : Thread.label task = some (.moves source target)) (hfits : s.Fits env i (.moves source target))
    (hsource : source ≠ []) (hcarried : Carried source target s.volume t.state) (hdid : t.did = true)
    (hfile : t.state.isFile q = true) (hflag : t.state.flagged q = true) :
    q ∈ (s.goesOn i t (.moves source target)).fresh ∨ (s.goesOn i t (.moves source target)).owes q = true := by
  have hfresh : ∀ k ∈ s.fresh, moved source target k ∈ (Work.moves source target).freshened t.did s.fresh := by
    intro k hk
    rw [Work.freshened, if_pos hdid]
    exact List.mem_map_of_mem hk
  have hkeys {k : JsString} {α : Type} {f : Store JsString α} {p : α → Bool} (h : (Store.get f k).any p = true) : k ∈ Store.keys f := by
    obtain ⟨a, ha, -⟩ := (Option.any_eq_true _ _).mp h
    exact Store.mem_keys.mpr (by rw [ha]; rfl)
  rcases hcarried.files q hfile with ⟨hfile₀, hout, hfree⟩ | ⟨k, hin, hk, rfl⟩
  · have hflag₀ : s.volume.flagged q = true := by
      rcases hcarried.flags q hflag with h | ⟨j, hj, hto⟩
      · exact h
      · by_cases hsel : subtreePredicate source j = true
        · exact absurd (hto ▸ repath_inside_target hsource hsel) hfree
        · rw [repath, if_neg hsel] at hto
          exact hto ▸ hj
    refine marked_stays hs htask (owed_ne hlabel (by simp [Work.owed])) (fun h => ?_) hfile₀ hflag₀ hfile
    have hmem := hfresh q h
    rwa [moved_outside hout] at hmem
  · by_cases hmem : k ∈ s.fresh
    · exact .inl (mem_fresh hfile (hfresh k hmem))
    · have hclear := hfits k (hkeys hk) hin hk hmem
      rcases hcarried.flags _ hflag with h | ⟨j, hj, hto⟩
      · exact absurd rfl (hclear _ (hkeys h) h).1
      · exact absurd hto (hclear j (hkeys hj) hj).2

theorem marked_step (hs : s.Sound) (htask : s.tasks[i]? = some task) (hlabel : Thread.label task = some w) (hfits : s.Fits env i w)
    (hdoes : w.Does env s.volume t) (hfile : t.state.isFile q = true) (hflag : t.state.flagged q = true) :
    q ∈ (s.goesOn i t w).fresh ∨ (s.goesOn i t w).owes q = true := by
  have hidle (hgrown : Grown nowhere nowhere s.volume t.state) (hw : w.owed ≠ some q)
      (hfresh : q ∈ s.fresh → q ∈ w.freshened t.did s.fresh) : q ∈ (s.goesOn i t w).fresh ∨ (s.goesOn i t w).owes q = true :=
    marked_stays hs htask (owed_ne hlabel hw) hfresh ((hgrown.files q hfile).resolve_right id)
      ((hgrown.flags q hflag).resolve_right id) hfile
  cases w with
  | other => exact hidle hdoes (by simp [Work.owed]) id
  | unlocks r path => exact hidle hdoes.1 (by simp [Work.owed]) id
  | creates path =>
    have hgrown : Grown (fun q => q = path ∧ t.did = true) nowhere s.volume t.state := hdoes
    rcases hgrown.files q hfile with hfile₀ | ⟨rfl, hdid⟩
    · exact marked_stays hs htask (owed_ne hlabel (by simp [Work.owed])) fresh_creates hfile₀
        ((hgrown.flags q hflag).resolve_right id) hfile
    · refine .inl (mem_fresh hfile ?_)
      rw [Work.freshened, if_pos hdid]
      exact List.mem_cons_self
  | marks path =>
    have hgrown : Grown nowhere (fun q => q = path) s.volume t.state := hdoes
    have hfile₀ := (hgrown.files q hfile).resolve_right id
    have howes : q ∈ s.fresh ∨ s.owes q = true := by
      rcases hgrown.flags q hflag with hflag₀ | rfl
      · exact hs.marked q hfile₀ hflag₀
      · exact hfits hfile₀
    rcases howes with h | h
    · exact .inl (mem_fresh hfile h)
    · exact .inr (owesBut_goesOn ((owes_split htask h).resolve_left (owed_ne hlabel (by simp [Work.owed]))))
  | writes path =>
    obtain ⟨hgrown, hrest⟩ : Grown (fun q => q = path ∧ t.did = true) nowhere s.volume t.state ∧
      (t.did = true → Task.owed t.rest = some path) := hdoes
    by_cases hq : q = path ∧ t.did = true
    · exact .inr (owes_rest htask (hq.1 ▸ hrest hq.2))
    · exact marked_stays hs htask (owed_ne hlabel (by simp [Work.owed])) (fun h => fresh_others h hq)
        ((hgrown.files q hfile).resolve_right hq) ((hgrown.flags q hflag).resolve_right id) hfile
  | appends path fits =>
    obtain ⟨hgrown, hrest, hgoes⟩ : Grown nowhere nowhere s.volume t.state ∧ (t.did = true → Task.owed t.rest = some path) ∧
      (fits = true → env.fails (.writeFile path) 0 = none → s.volume.isFile path = true → t.did = true) := hdoes
    refine marked_owed hs htask hlabel rfl hgrown (fun q h hne => fresh_others h fun he => hne he.1) (fun h => ?_)
      (fun hstale hother => ?_) hfile hflag
    · by_cases hdid : t.did = true
      · exact .inr (hrest hdid)
      · exact .inl (fresh_others h fun he => hdid he.2)
    · obtain ⟨hspace, hcalm⟩ := hfits hstale hother
      exact .inr (hrest (hgoes hspace hcalm hstale.1))
  | records path statements =>
    obtain ⟨hgrown, hclears⟩ : Grown nowhere nowhere s.volume t.state ∧
      ((∀ st ∈ statements, env.fails (.exec st) 0 = none) → t.state.flagged path = false) := hdoes
    exact marked_owed hs htask hlabel rfl hgrown (fun q h _ => h) .inl (fun hstale hother => .inl (hclears (hfits hstale hother)))
      hfile hflag
  | moves source target =>
    obtain ⟨hidles, hmoves⟩ : (t.did = false → Grown nowhere nowhere s.volume t.state) ∧ (s.volume.files.Rooted →
      t.state.files.Rooted ∧ (t.did = true → source ≠ [] ∧ Carried source target s.volume t.state)) := hdoes
    cases hdid : t.did with
    | false =>
      refine hidle (hidles hdid) (by simp [Work.owed]) fun h => ?_
      rw [Work.freshened, hdid]
      exact h
    | true =>
      obtain ⟨hsource, hcarried⟩ := (hmoves hs.rooted).2 hdid
      exact marked_moves hs htask hlabel hfits hsource hcarried hdid hfile hflag

theorem does_rooted (hdoes : w.Does env s.volume t) (h : s.volume.files.Rooted) : t.state.files.Rooted := by
  cases w with
  | other | creates _ | marks _ => exact Grown.rooted hdoes h
  | writes _ | appends _ _ | records _ _ | unlocks _ _ => exact hdoes.1.rooted h
  | moves _ _ => exact (hdoes.2 h).1

/-- What is taken away with a lock was made for it. -/
theorem nothing_wronged (hfits : s.Fits env i w) (hdoes : w.Does env s.volume t) : w.wrongs s.volume t.state s.fresh = [] := by
  cases w with
  | unlocks r path =>
    refine List.filter_eq_nil_iff.mpr fun q _ hq => ?_
    obtain ⟨hfile, hgone, hold⟩ : s.volume.isFile q = true ∧ t.state.isFile q = false ∧ q ∉ s.fresh := by simpa using hq
    obtain ⟨rfl, hnames, hflag, hempty⟩ := hdoes.2 q hfile hgone
    exact hfits ⟨hfile, hflag, hold⟩ hnames hempty
  | _ => rfl

theorem sound_step {turn : Shared.Turn} {s' : Shared} (hs : s.Sound) (hadmits : s.Admits turn) (hstep : s.step turn = some s') : s'.Sound := by
  have harrives (task : Task) (h : Honest task) : Shared.Sound { s with tasks := s.tasks ++ [task] } := by
    refine ⟨hs.rooted, fun other hmem => ?_, fun q hfile hflag => ?_, hs.kept⟩
    · rcases List.mem_append.mp hmem with h' | h'
      · exact hs.honest other h'
      · exact List.mem_singleton.mp h' ▸ h
    · refine (hs.marked q hfile hflag).imp id fun h => ?_
      obtain ⟨other, hmem, howed⟩ := List.any_eq_true.mp h
      exact List.any_eq_true.mpr ⟨other, List.mem_append_left _ hmem, howed⟩
  cases turn with
  | arrives x =>
    obtain rfl := Option.some.inj hstep
    exact harrives _ (honest_task x)
  | replicates job =>
    obtain rfl := Option.some.inj hstep
    exact harrives _ (honest_job job)
  | resumes env i =>
    obtain ⟨task, htask, hstep⟩ := Option.bind_eq_some_iff.mp hstep
    obtain ⟨w, hlabel, rfl⟩ := Option.map_eq_some_iff.mp hstep
    have hfits : s.Fits env i w := hadmits w (by rw [htask]; exact hlabel)
    have hhonest := hs.honest task (List.mem_of_getElem? htask)
    have hdoes := hhonest.does hlabel env s.volume
    refine ⟨does_rooted hdoes hs.rooted, fun other hmem => ?_, fun q hfile hflag => ?_, ?_⟩
    · rcases List.mem_or_eq_of_mem_set hmem with h | h
      · exact hs.honest other h
      · exact h ▸ hhonest.turn env s.volume
    · exact marked_step hs htask hlabel hfits hdoes hfile hflag
    · change s.wronged ++ _ = []
      rw [hs.kept, nothing_wronged hfits hdoes]
      rfl

end Steps

theorem sound_start : Shared.Sound .start where
  rooted := reached_rooted .empty
  honest := fun _ h => by cases h
  marked := fun _ h => by cases h
  kept := rfl

/-- However the tasks come in between one another, an UNLOCK takes away only what a LOCK has made and nobody has written,
and a file is marked only if it is such a file or its row is about to be written. -/
theorem unlock_spares {turns : List Shared.Turn} {s : Shared} (hadmitted : Admitted Shared.step Shared.Admits .start turns)
    (hrun : run Shared.step .start turns = some s) :
    s.wronged = [] ∧ ∀ q, s.volume.isFile q = true → s.volume.flagged q = true → q ∈ s.fresh ∨ s.owes q = true := by
  have hs : s.Sound := run_preserves (fun _ _ _ => sound_step) sound_start hadmitted hrun
  exact ⟨hs.kept, hs.marked⟩

/-! ### An empty file that is put over a lock -/

def holdingToken : Incoming := { plainIncoming (js "http://h/o/v/f") with lockToken := some (tokenOf lockUuid) }

def emptyPut : Exchange where
  verb := .put 100
  request := holdingToken
  path := js "f"
  bases := plainBases

def unlockFile : Exchange where
  verb := .unlock
  request := holdingToken
  path := js "f"
  bases := plainBases

/-- A LOCK is answered, then an empty PUT, then an UNLOCK. -/
def oneAfterTheOther : List Shared.Turn :=
  [.arrives lockFile, .resumes calmEnv 0, .resumes calmEnv 0, .resumes calmEnv 0,
    .arrives emptyPut, .resumes calmEnv 1, .resumes calmEnv 1, .resumes calmEnv 1, .arrives unlockFile, .resumes calmEnv 2]

theorem put_file_spared : ∃ s, run Shared.step .start oneAfterTheOther = some s ∧ s.volume.isFile (js "f") = true ∧ s.wronged = [] := by
  have hends : (run Shared.step .start oneAfterTheOther).any (fun s => s.volume.isFile (js "f")) = true := by decide
  obtain ⟨s, hrun, hfile⟩ := (Option.any_eq_true _ _).mp hends
  exact ⟨s, hrun, hfile, (unlock_spares (by decide) hrun).1⟩

/-- The LOCK marks the file after the PUT has recorded it. -/
def crossed : List Shared.Turn :=
  [.arrives lockFile, .resumes calmEnv 0, .arrives emptyPut, .resumes calmEnv 1, .resumes calmEnv 1, .resumes calmEnv 1,
    .resumes calmEnv 0, .resumes calmEnv 0, .arrives unlockFile, .resumes calmEnv 2]

example : (run Shared.step .start crossed).map Shared.wronged = some [js "f"] := by decide

end DurableDav.Dav
