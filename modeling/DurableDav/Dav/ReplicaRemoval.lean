import DurableDav.Dav.Cascades
import DurableDav.Dav.Range

namespace DurableDav.Dav

open Library
open Replication (isValidInnerPath)

/-! ### What a removal is to leave and what it is to take -/

structure Volume.KeptOutside (v : Volume) (p : JsString) (v' : Volume) : Prop where
  rows : v.Confined (Inside p) (Inside p) v'
  locks : ∀ e : JsString × LockRow, ¬ Inside p e.2.path → (e ∈ v'.locks ↔ e ∈ v.locks)

structure Volume.ClearedOf (v : Volume) (p : JsString) : Prop where
  files : ∀ q, Inside p q → Store.get v.files q = none
  nodes : ∀ q, Inside p q → Store.get v.nodes q = none
  props : ∀ key : PropKey, Inside p key.path → Store.get v.props key = none
  locks : ∀ e ∈ v.locks, ¬ Inside p e.2.path

/-- Whatever fails, what lies outside stays; and where nothing fails and the removal succeeds, nothing is left inside. -/
structure UnlinksSubtree (v : Volume) (p : JsString) (recursive : Bool) : Prop where
  keeps : ∀ env : Env, v.KeptOutside p (Env.after (env.replicaUnlink p recursive) v)
  clears : ∀ env : Env, env.Calm → ∀ v', Runs (env.replicaUnlink p recursive) v (.ok ()) v' → v'.ClearedOf p

/-! ### When it does -/

def Files.isFile (f : Files) (q : JsString) : Bool := f.found q && !f.isDirectory q

/-- No name below the collection is the path of a file elsewhere in the tree. -/
def Files.Distinct (f : Files) (p : JsString) : Prop :=
  ∀ q ∈ f.below p, f.isFile (Files.relative p q) = true → Inside p (Files.relative p q)

def Files.Refuses (f : Files) (p : JsString) (recursive : Bool) : Prop :=
  recursive = false ∧ f.isDirectory p = true ∧ f.below p ≠ []

structure Volume.Unlinkable (v : Volume) (p : JsString) (recursive : Bool) : Prop where
  distinct : recursive = true → v.files.isDirectory p = true → v.files.Distinct p
  selected : isBasic p = true ∨ v.Bare p ∨ v.files.Refuses p recursive

section Keeping

variable {α : Type} {env : Env} {v : Volume} {p : JsString} {recursive : Bool}

theorem meets_call {I : Volume → Prop} {op : Op} {body : Serve α} {Q : α → Session → Prop}
    (h : Act.Meets (fun s => I s.volume) body Q (fun s => I s.volume)) :
    Act.Meets (fun s => I s.volume) (env.call op body) Q (fun s => I s.volume) := by
  intro s hs
  rw [run_call]
  cases env.fails op (s.calls.count op) with
  | some e => exact hs
  | none => exact h _ hs

/-- Nothing outside has changed, and what there is of the tree is as it was. -/
structure Volume.Thinned (v : Volume) (p : JsString) (w : Volume) : Prop where
  kept : v.KeptOutside p w
  same : ∀ q, (Store.get w.files q).isSome → Store.get w.files q = Store.get v.files q

theorem thinned_refl (v : Volume) (p : JsString) : v.Thinned p v :=
  ⟨⟨confined_refl .., fun _ _ => Iff.rfl⟩, fun _ _ => rfl⟩

variable {w : Volume}

theorem Volume.Thinned.isFile {q : JsString} (h : v.Thinned p w) (hfile : w.files.isFile q = true) : v.files.isFile q = true := by
  unfold Files.isFile at hfile ⊢
  have hne : q ≠ [] := by
    rintro rfl
    simp [Files.isDirectory] at hfile
  have hsome : (Store.get w.files q).isSome := by
    simp only [Bool.and_eq_true, found_iff, hne, false_or] at hfile
    exact hfile.1
  simpa [Files.found, Files.isDirectory, hne, h.same q hsome] using hfile

theorem Volume.Thinned.unlink {q : JsString} (h : v.Thinned p w) (hdir : w.files.isDirectory q = false)
    (hfound : w.files.found q = true) (hin : Inside p q) : v.Thinned p { w with files := Store.remove w.files q } := by
  refine ⟨⟨h.kept.rows.change (.unlink q hdir hfound) (fun r hr => hr.1 ▸ hin) (fun r hr => hr.elim), h.kept.locks⟩, ?_⟩
  intro r hr
  rw [Store.get_remove] at hr ⊢
  split at hr
  · cases hr
  · rename_i hne
    rw [if_neg hne]
    exact h.same r hr

theorem Volume.Thinned.remove (h : v.Thinned p w) (hdir : w.files.isDirectory p = true) :
    v.Thinned p { w with files := Store.removeWhere w.files (fun q => q = p ∨ Below slash p q) } := by
  refine ⟨⟨h.kept.rows.change (.remove p hdir) (fun r hr => hr.1) (fun r hr => hr.elim), h.kept.locks⟩, ?_⟩
  intro r hr
  rw [Store.get_removeWhere] at hr ⊢
  split at hr
  · cases hr
  · rename_i hne
    rw [if_neg hne]
    exact h.same r hr

theorem Volume.Thinned.removeOne (h : v.Thinned p w) : v.Thinned p { w with files := Store.remove w.files p } := by
  refine ⟨⟨⟨fun r hr => ?_, h.kept.rows.nodes, h.kept.rows.props⟩, h.kept.locks⟩, fun r hr => ?_⟩
  · rw [Store.get_remove] at hr
    split at hr
    · rename_i he
      exact .inl he
    · exact h.kept.rows.files r hr
  · rw [Store.get_remove] at hr ⊢
    split at hr
    · cases hr
    · rename_i hne
      rw [if_neg hne]
      exact h.same r hr

theorem Volume.Thinned.deleteRows {t : Table} (ht : t ∈ cascadeTables) (h : v.Thinned p w) : v.Thinned p (w.deleteRows p t) := by
  have hrows : v.Confined (Inside p) (Inside p) (w.deleteRows p t) :=
    h.kept.rows.change (.deleteRows p t ht) (fun r hr => hr.elim) (fun r hr => deletePredicate_inside hr)
  have hfiles : (w.deleteRows p t).files = w.files := by cases t <;> rfl
  refine ⟨⟨hrows, fun e he => ?_⟩, fun q hq => ?_⟩
  · cases t with
    | davLocks =>
      unfold Volume.deleteRows
      rw [List.mem_filter, h.kept.locks e he]
      refine and_iff_left ?_
      cases hsel : deletePredicate p e.2.path with
      | false => rfl
      | true => exact absurd (deletePredicate_inside hsel) he
    | davNodes | davProps | davReplicaState => exact h.kept.locks e he
  · rw [hfiles] at hq ⊢
    exact h.same q hq

/-- A program that keeps it, whatever fails. -/
abbrev Thins (v : Volume) (p : JsString) (x : Serve α) : Prop :=
  Act.Meets (fun s => v.Thinned p s.volume) x (fun _ s => v.Thinned p s.volume) (fun s => v.Thinned p s.volume)

theorem thins_steady {x : Serve α} (hx : Makes (fun _ => False) x) : Thins v p x :=
  Steady.makes (P := fun s => v.Thinned p s.volume) (fun _ _ hvol hs => (congrArg (v.Thinned p) hvol).mpr hs) (fun _ h => h) hx

theorem thins_attempt {x : Serve α} (hx : Thins v p x) : Thins v p x.attempt :=
  (Act.meets_attempt hx).weaken (fun _ h => h) (fun r s h => by cases r <;> exact h) (fun _ h => h.elim)

theorem thins_unlink {q : JsString} (hin : v.files.isFile q = true → Inside p q) : Thins v p (env.unlink q) := by
  refine meets_call (Act.meets_read_bind fun r hr => ?_)
  split
  · exact Act.meets_throw fun s hs => hs ▸ hr
  · split
    · exact Act.meets_throw fun s hs => hs ▸ hr
    · rename_i hdir hfound
      refine Act.meets_modify fun s hs => ?_
      subst hs
      have hdir' : s.volume.files.isDirectory q = false := by simpa using hdir
      have hfound' : s.volume.files.found q = true := by simpa using hfound
      exact hr.unlink hdir' hfound' (hin (hr.isFile (by simp [Files.isFile, hdir', hfound'])))

theorem thins_removeCollection : Thins v p (env.removeCollection p recursive) := by
  unfold Env.removeCollection
  split
  · refine meets_call (Act.meets_read_bind fun r hr => ?_)
    split
    · exact Act.meets_throw fun s hs => hs ▸ hr
    · rename_i hdir
      refine Act.meets_modify fun s hs => ?_
      subst hs
      exact hr.remove (by simpa using hdir)
  · refine meets_call (Act.meets_read_bind fun r hr => ?_)
    split
    · exact Act.meets_throw fun s hs => hs ▸ hr
    · split
      · exact Act.meets_throw fun s hs => hs ▸ hr
      · refine Act.meets_modify fun s hs => ?_
        subst hs
        exact hr.removeOne

theorem thins_deleteNodeCascade : Thins v p (env.deleteNodeCascade p) := by
  have hstep : ∀ t ∈ cascadeTables,
      Thins v p (env.exec (.deleteRows t p) (Env.modifyVolume (fun v => v.deleteRows p t))) :=
    fun t ht => meets_call (Act.meets_modify fun s hs => hs.deleteRows ht)
  unfold Env.deleteNodeCascade
  generalize cascadeTables = tables at hstep
  induction tables with
  | nil => exact Act.meets_pure fun _ h => h
  | cons t rest ih =>
    exact Act.meets_bind (hstep t List.mem_cons_self) fun _ => ih fun t' ht' => hstep t' (List.mem_cons_of_mem _ ht')

theorem thins_unlinkEach {names : List JsString} (hin : ∀ n ∈ names, v.files.isFile n = true → Inside p n) :
    Thins v p (env.unlinkEach names) := by
  induction names with
  | nil => exact Act.meets_pure fun _ h => h
  | cons n rest ih =>
    have hrest := ih fun n' hn' => hin n' (List.mem_cons_of_mem _ hn')
    refine Act.meets_bind (thins_steady makes_statInner) fun st => ?_
    split
    · exact Act.meets_bind (thins_attempt (thins_unlink (hin n List.mem_cons_self))) fun _ => hrest
    · exact hrest

theorem thins_replicaUnlink (htree : v.files.WellFormed)
    (hdistinct : recursive = true → v.files.isDirectory p = true → v.files.Distinct p) :
    Thins v p (env.replicaUnlink p recursive) := by
  unfold Env.replicaUnlink
  split
  · exact Act.meets_throw fun _ h => h
  · refine Act.meets_bind (thins_steady makes_statInner) fun st => ?_
    split
    · exact thins_deleteNodeCascade
    · split
      · dsimp only
        have hlast : Thins v p (do env.removeCollection p recursive; env.deleteNodeCascade p) :=
          Act.meets_bind thins_removeCollection fun _ => thins_deleteNodeCascade
        split
        · rename_i hrec
          refine Act.meets_bind_of_run (thins_steady makes_listRecursive) fun names s s' hs hrun => ?_
          refine Act.meets_bind (thins_unlinkEach fun n hn hfile => ?_) fun _ => hlast
          obtain ⟨q, hq, rfl⟩ := listed_below hrun n hn
          obtain ⟨hsome, hbelow⟩ := mem_below.mp hq
          rw [hs.same q hsome] at hsome
          exact hdistinct hrec (htree.above hsome hbelow) q (mem_below.mpr ⟨hsome, hbelow⟩) hfile
        · exact hlast
      · exact Act.meets_bind (thins_unlink fun _ => .inl rfl) fun _ => thins_deleteNodeCascade

end Keeping

section Clearing

variable {env : Env} {v : Volume} {p q : JsString} {recursive : Bool} (hcalm : env.Calm)

theorem isFile_iff {f : Files} : f.isFile q = true ↔ f.found q = true ∧ f.isDirectory q = false := by simp [Files.isFile]

include hcalm

theorem runs_unlink (h : v.files.isFile q = true) :
    Runs (env.unlink q) v (.ok ()) { v with files := Store.remove v.files q } := by
  obtain ⟨hfound, hdir⟩ := isFile_iff.mp h
  refine runs_call hcalm (runs_read_bind fun s hs => ?_)
  rw [hs, if_neg (by simp [hdir]), if_neg (by simp [hfound])]
  exact runs_modifyFiles _

theorem runs_unlinkEach (names : List JsString) (v : Volume) : ∃ files : Files,
    Runs (env.unlinkEach names) v (.ok ()) { v with files := files } ∧
      ∀ q, Store.get files q = if q ∈ names ∧ v.files.isFile q = true then none else Store.get v.files q := by
  induction names generalizing v with
  | nil => exact ⟨v.files, runs_pure (), by simp⟩
  | cons n rest ih =>
    by_cases hfile : v.files.isFile n = true
    · obtain ⟨files, hrun, hget⟩ := ih { v with files := Store.remove v.files n }
      refine ⟨files, runs_bind (runs_statInner hcalm) ?_, fun q => ?_⟩
      · rw [stat_found, stat_isDirectory, if_pos (by simpa using isFile_iff.mp hfile)]
        exact runs_bind (runs_attempt (runs_unlink hcalm hfile)) hrun
      · have hother : ∀ q, q ≠ n → Files.isFile (Store.remove v.files n) q = v.files.isFile q := by
          intro q hq
          simp [Files.isFile, Files.found, Files.isDirectory, Store.get_remove, hq]
        rw [hget, Store.get_remove]
        by_cases hq : q = n
        · simp [hq, hfile]
        · rw [hother q hq, if_neg hq]
          simp [hq]
    · obtain ⟨files, hrun, hget⟩ := ih v
      refine ⟨files, runs_bind (runs_statInner hcalm) ?_, fun q => ?_⟩
      · rw [stat_found, stat_isDirectory, if_neg (by simpa using mt isFile_iff.mpr hfile)]
        exact hrun
      · rw [hget]
        by_cases hq : q = n
        · simp [hq, hfile]
        · simp [hq]

theorem runs_listRecursive (hfound : v.files.found p = true) :
    Runs (env.listRecursive p) v (.ok ((v.files.below p).map (Files.relative p))) v :=
  runs_bind (runs_attempt (runs_listDir hcalm hfound true)) (runs_pure _)

theorem runs_rmdir (hdir : v.files.isDirectory p = true) : Runs (env.rmdir p) v (.ok ())
    { v with files := Store.removeWhere v.files (fun q => q = p ∨ Below slash p q) } := by
  refine runs_call hcalm (runs_read_bind fun s hs => ?_)
  rw [hs, if_neg (by simp [hdir])]
  exact runs_modifyFiles _

theorem runs_removeEmpty (hdir : v.files.isDirectory p = true) (hempty : v.files.below p = []) :
    Runs (env.removeCollection p false) v (.ok ()) { v with files := Store.remove v.files p } := by
  refine runs_call hcalm (runs_read_bind fun s hs => ?_)
  rw [hs, if_neg (by simp [hdir]), if_neg (by simp [hempty])]
  exact runs_modifyFiles _

theorem runs_refused (hp : p ≠ []) (hvalid : isValidInnerPath p = true) (h : v.files.Refuses p recursive) :
    Runs (env.replicaUnlink p recursive) v (.error (.of "ENOTEMPTY")) v := by
  obtain ⟨rfl, hdir, hfull⟩ := h
  have hrefuses : Runs (env.removeCollection p false) v (.error (.of "ENOTEMPTY")) v := by
    refine runs_call hcalm (runs_read_bind fun s hs => ?_)
    rw [hs, if_neg (by simp [hdir]), if_pos hfull]
    exact runs_throw _
  unfold Env.replicaUnlink
  rw [if_neg (by simp [hp, hvalid])]
  refine runs_bind (runs_statInner hcalm) ?_
  rw [stat_found, stat_isDirectory, found_of_isDirectory hdir, hdir]
  exact runs_bind_error hrefuses

/-- Where nothing fails and the removal is not refused, what lies inside goes, and with it the files that the names below hit. -/
theorem runs_replicaUnlink (htree : v.files.WellFormed) (hp : p ≠ []) (hvalid : isValidInnerPath p = true)
    (h : ¬ v.files.Refuses p recursive) : ∃ files : Files,
    Runs (env.replicaUnlink p recursive) v (.ok ())
      ((({ v with files := files }.deleteRows p .davNodes).deleteRows p .davProps).deleteRows p .davLocks) ∧
    (∀ q, Inside p q → Store.get files q = none) ∧
    (recursive = true → v.files.isDirectory p = true →
      ∀ q ∈ (v.files.below p).map (Files.relative p), v.files.isFile q = true → Store.get files q = none) := by
  have hlast : ∀ files : Files, Runs (env.deleteNodeCascade p) { v with files := files } (.ok ())
      ((({ v with files := files }.deleteRows p .davNodes).deleteRows p .davProps).deleteRows p .davLocks) :=
    fun files => runs_deleteNodeCascade hcalm
  unfold Env.replicaUnlink
  rw [if_neg (by simp [hp, hvalid])]
  cases hdir : v.files.isDirectory p with
  | false =>
    have hnone : ∀ q, Below slash p q → Store.get v.files q = none := fun q hq => htree.nothing_below hdir hq
    cases hfound : v.files.found p with
    | false =>
      refine ⟨v.files, runs_bind (runs_statInner hcalm) ?_, ?_, fun _ hd => by cases hd⟩
      · rw [stat_found, hfound]
        exact hlast v.files
      · rintro q (rfl | hq)
        · by_contra hsome
          rw [found_iff.mpr (.inr (Option.isSome_iff_ne_none.mpr hsome))] at hfound
          cases hfound
        · exact hnone q hq
    | true =>
      refine ⟨Store.remove v.files p, runs_bind (runs_statInner hcalm) ?_, ?_, fun _ hd => by cases hd⟩
      · rw [stat_found, stat_isDirectory, hfound, hdir]
        exact runs_bind (runs_unlink hcalm (isFile_iff.mpr ⟨hfound, hdir⟩)) (hlast _)
      · rintro q (rfl | hq)
        · rw [Store.get_remove, if_pos rfl]
        · rw [Store.get_remove, hnone q hq]
          split <;> rfl
  | true =>
    have hfound := found_of_isDirectory hdir
    cases recursive with
    | false =>
      have hempty : v.files.below p = [] := by
        by_contra hfull
        exact h ⟨rfl, hdir, hfull⟩
      refine ⟨Store.remove v.files p, runs_bind (runs_statInner hcalm) ?_, ?_, fun hrec => by cases hrec⟩
      · rw [stat_found, stat_isDirectory, hfound, hdir]
        exact runs_bind (runs_removeEmpty hcalm hdir hempty) (hlast _)
      · rintro q (rfl | hq)
        · rw [Store.get_remove, if_pos rfl]
        · have hnone : Store.get v.files q = none := by
            by_contra hsome
            have hmem : q ∈ v.files.below p := mem_below.mpr ⟨Option.isSome_iff_ne_none.mpr hsome, hq⟩
            rw [hempty] at hmem
            cases hmem
          rw [Store.get_remove, hnone]
          split <;> rfl
    | true =>
      obtain ⟨files, hrun, hget⟩ := runs_unlinkEach hcalm ((v.files.below p).map (Files.relative p)) v
      have hstill : Files.isDirectory files p = true := by
        have hsame : Store.get files p = Store.get v.files p := by
          rw [hget, if_neg]
          rintro ⟨-, hfile⟩
          rw [(isFile_iff.mp hfile).2] at hdir
          cases hdir
        unfold Files.isDirectory at hdir ⊢
        rwa [hsame]
      refine ⟨Store.removeWhere files (fun q => q = p ∨ Below slash p q), runs_bind (runs_statInner hcalm) ?_, ?_, ?_⟩
      · rw [stat_found, stat_isDirectory, hfound, hdir]
        exact runs_bind (runs_listRecursive hcalm hfound) (runs_bind hrun (runs_bind (runs_rmdir hcalm hstill) (hlast _)))
      · intro q hq
        rw [Store.get_removeWhere, if_pos (by simpa [Inside] using hq)]
      · intro _ _ q hq hfile
        have hnone : Store.get files q = none := by rw [hget, if_pos ⟨hq, hfile⟩]
        rw [Store.get_removeWhere, hnone]
        split <;> rfl

end Clearing

section Unlinking

variable {v : Volume} {p q : JsString} {recursive : Bool}

theorem inside_iff (hp : p ≠ []) : Inside p q ↔ InSubtree p q := by
  unfold Inside InSubtree Rooted Below
  simp only [hp, ↓reduceIte, false_or]

theorem selected_inside (hp : p ≠ []) (h : deletePredicate p q = true) : InSubtree p q := (inside_iff hp).mp (deletePredicate_inside h)

/-- Of the rows, the statements leave none exactly if they select all of the subtree. -/
theorem cleared_iff {files : Files} (hp : p ≠ []) (hfiles : ∀ q, Inside p q → Store.get files q = none) :
    ((({ v with files := files }.deleteRows p .davNodes).deleteRows p .davProps).deleteRows p .davLocks).ClearedOf p ↔
      isBasic p = true ∨ v.Bare p := by
  have hbare : { v with files := files }.Bare p ↔ v.Bare p :=
    ⟨fun h => ⟨h.nodes, h.props, h.locks⟩, fun h => ⟨h.nodes, h.props, h.locks⟩⟩
  have hdeletes := deletes_iff (v := { v with files := files }) (p := p)
  rw [hbare] at hdeletes
  simp only [hp, false_or] at hdeletes
  rw [← hdeletes]
  constructor
  · intro h
    refine ⟨pruned_iff.mpr fun q hq => ⟨selected_inside hp, fun hin => ?_⟩,
      pruned_iff.mpr fun key hkey => ⟨selected_inside hp, fun hin => ?_⟩,
      kept_iff.mpr fun e he => ⟨selected_inside hp, fun hin => ?_⟩, rfl, rfl⟩
    · have hnone : Store.get (Store.removeWhere v.nodes (deletePredicate p)) q = none := h.nodes q ((inside_iff hp).mpr hin)
      rw [Store.get_removeWhere] at hnone
      by_contra hsel
      rw [if_neg hsel] at hnone
      exact absurd hnone (Option.isSome_iff_ne_none.mp hq)
    · have hnone : Store.get (Store.removeWhere v.props (fun k => deletePredicate p k.path)) key = none :=
        h.props key ((inside_iff hp).mpr hin)
      rw [Store.get_removeWhere] at hnone
      by_contra hsel
      rw [if_neg hsel] at hnone
      exact absurd hnone (Option.isSome_iff_ne_none.mp hkey)
    · by_contra hsel
      exact h.locks e (List.mem_filter.mpr ⟨he, by simpa using hsel⟩) ((inside_iff hp).mpr hin)
  · intro h
    refine ⟨hfiles, fun q hq => ?_, fun key hkey => ?_, fun e he hin => ?_⟩
    · by_contra hsome
      obtain ⟨row, hrow⟩ := Option.ne_none_iff_exists'.mp hsome
      exact ((h.nodes q row).mp hrow).2 ((inside_iff hp).mp hq)
    · by_contra hsome
      obtain ⟨row, hrow⟩ := Option.ne_none_iff_exists'.mp hsome
      exact ((h.props key row).mp hrow).2 ((inside_iff hp).mp hkey)
    · exact ((h.locks e).mp he).2 ((inside_iff hp).mp hin)

theorem runs_invalid {env : Env} (hp : p = []) :
    Runs (env.replicaUnlink p recursive) v (.error (Env.invalidPath "replication unlink: invalid path " p)) v := by
  unfold Env.replicaUnlink
  rw [if_pos (.inl hp)]
  exact runs_throw _

/-- A removal touches its subtree alone and takes all of it, unless a name below the collection is the path of a file elsewhere,
or the rows below the path are missed. -/
theorem replicaUnlink_iff (v : Volume) (htree : v.files.WellFormed) (p : JsString) (hvalid : isValidInnerPath p = true)
    (recursive : Bool) : UnlinksSubtree v p recursive ↔ p = [] ∨ v.Unlinkable p recursive := by
  by_cases hp : p = []
  · refine iff_of_true ⟨fun env => ?_, fun env _ v' hrun => ?_⟩ (.inl hp)
    · rw [after_of_runs (runs_invalid hp)]
      exact (thinned_refl v p).kept
    · have hr := (runs_unique hrun (runs_invalid hp)).1
      cases hr
  have hcalm : calmEnv.Calm := fun _ _ => rfl
  simp only [hp, false_or]
  constructor
  · intro h
    by_cases href : v.files.Refuses p recursive
    · refine ⟨fun hrec => ?_, .inr (.inr href)⟩
      rw [href.1] at hrec
      cases hrec
    · obtain ⟨files, hrun, hgone, hhit⟩ := runs_replicaUnlink hcalm htree hp hvalid href
      refine ⟨fun hrec hdir q hq hfile => ?_, ?_⟩
      · by_contra hout
        have hnone := hhit hrec hdir _ (List.mem_map_of_mem hq) hfile
        have hkept := h.keeps calmEnv
        rw [after_of_runs hrun] at hkept
        apply hout
        apply hkept.rows.files
        have hsame : Store.get files (Files.relative p q) ≠ Store.get v.files (Files.relative p q) := by
          rw [hnone]
          intro he
          have hne : Files.relative p q ≠ [] := by
            intro hroot
            rw [hroot] at hfile
            exact absurd (isFile_iff.mp hfile).2 (by simp [Files.isDirectory])
          have hsome := (found_iff.mp (isFile_iff.mp hfile).1).resolve_left hne
          rw [← he] at hsome
          cases hsome
        exact hsame
      · have hcleared := h.clears calmEnv hcalm _ hrun
        exact ((cleared_iff hp hgone).mp hcleared).imp_right .inl
  · intro h
    refine ⟨fun env => ?_, fun env henv v' hrun => ?_⟩
    · have hthins : Thins v p (env.replicaUnlink p recursive) := thins_replicaUnlink htree h.distinct
      exact (hthins.after (s := ⟨v, []⟩) (thinned_refl v p)).kept
    · by_cases href : v.files.Refuses p recursive
      · have hr := (runs_unique hrun (runs_refused henv hp hvalid href)).1
        cases hr
      · obtain ⟨files, hrun', hgone, -⟩ := runs_replicaUnlink henv htree hp hvalid href
        rw [(runs_unique hrun hrun').2]
        refine (cleared_iff hp hgone).mpr ?_
        rcases h.selected with hbasic | hbare | hno
        · exact .inl hbasic
        · exact .inr hbare
        · exact absurd hno href

end Unlinking

/-! ### A name that occurs twice -/

def shelfOf (names : List JsString) : Volume := { nestedVolume with
  files := (js "d", ⟨none, 1⟩) :: names.map (fun q => (q, ⟨some [1], 2⟩)) }

theorem shelf_unlinks : UnlinksSubtree (shelfOf [js "d/f"]) (js "d") true := by
  apply (replicaUnlink_iff (shelfOf [js "d/f"]) (wellFormed_of_keys (by decide)) (js "d") (by decide) true).mpr
  refine .inr ⟨fun _ _ => ?_, .inl (by decide)⟩
  unfold Files.Distinct
  decide

/-- A file in the collection, and one of the same name beside the collection. -/
theorem namesake_unlinked : ¬ UnlinksSubtree (shelfOf [js "d/f", js "f"]) (js "d") true := by
  intro h
  have hkept := (h.keeps calmEnv).rows.files (js "f")
  have hgone : Store.get (Env.after (calmEnv.replicaUnlink (js "d") true) (shelfOf [js "d/f", js "f"])).files (js "f") = none := by
    decide
  rw [hgone] at hkept
  exact absurd (hkept (by decide)) (by decide)

end DurableDav.Dav
