import DurableDav.Dav.Serving

namespace DurableDav.Dav

open Library
open Replication (Bytes isValidInnerPath parentOf)

/-! ### What there is that a program can do to a volume -/

inductive Effect
  | make (path : JsString)
  | write (path : JsString)
  | unlink (path : JsString)
  | remove (path : JsString)
  | rename (source target : JsString)
  | node (path : JsString) (row : NodeRow)
  | setProp (key : PropKey) (row : PropRow)
  | removeProp (key : PropKey)
  | grant (uuid : Uuid) (row : LockRow)
  | extend (d : LockDetails)
  | release (token : JsString)
  | noted
  | deleteRows (path : JsString) (t : Table)
  | updatePaths (source target : JsString) (t : Table)

def IsMinted (e : JsString) : Prop := ∃ size now, e = mintEtag size now

/-- A validator is minted, or it is recorded already. -/
def Volume.Records (v : Volume) (row : NodeRow) : Prop :=
  ∀ e, row.etag = some e → IsMinted e ∨ ∃ q row', Store.get v.nodes q = some row' ∧ row'.etag = some e

inductive Change (v : Volume) : Effect → Volume → Prop
  | make (path : JsString) (mtime : ℕ) (hfree : v.files.found path = false)
      (hparent : v.files.isDirectory (parentOf path) = true) :
      Change v (.make path) { v with files := Store.put v.files path ⟨none, mtime⟩ }
  | write (path : JsString) (data : Bytes) (mtime : ℕ) (hfile : v.files.isDirectory path = false)
      (hparent : v.files.isDirectory (parentOf path) = true) :
      Change v (.write path) { v with files := Store.put v.files path ⟨some data, mtime⟩ }
  | unlink (path : JsString) (hfile : v.files.isDirectory path = false) (hfound : v.files.found path = true) :
      Change v (.unlink path) { v with files := Store.remove v.files path }
  | remove (path : JsString) (hdir : v.files.isDirectory path = true) :
      Change v (.remove path) { v with files := Store.removeWhere v.files (fun q => q = path ∨ Below slash path q) }
  | rename (source target : JsString) (files : Files) (hroot : source ≠ []) (hne : target ≠ source)
      (hout : ¬ Below slash source target) (hfound : v.files.found source = true) (hfree : v.files.found target = false)
      (hparent : v.files.isDirectory (parentOf target) = true)
      (hfiles : rekey v.files (fun q => if q = source ∨ Below slash source q then rebase source target q else q) =
        some files) : Change v (.rename source target) { v with files := files }
  | node (path : JsString) (row : NodeRow) (h : v.Records row) : Change v (.node path row) (v.upsertNode path row)
  | setProp (key : PropKey) (row : PropRow) : Change v (.setProp key row) { v with props := Store.put v.props key row }
  | removeProp (key : PropKey) : Change v (.removeProp key) { v with props := Store.remove v.props key }
  | grant (uuid : Uuid) (row : LockRow) (h : Store.get v.locks uuid.val = none) :
      Change v (.grant uuid row) (v.insertLock uuid.val row)
  | extend (d : LockDetails) : Change v (.extend d) (v.updateLock d)
  | release (token : JsString) : Change v (.release token) (v.deleteLock token)
  | noted (rows : Store ReplicaKey Replication.ReplicaStateRow) : Change v .noted { v with replicaState := rows }
  | deleteRows (path : JsString) (t : Table) (ht : t ∈ cascadeTables) : Change v (.deleteRows path t) (v.deleteRows path t)
  | updatePaths (source target : JsString) (t : Table) (v' : Volume) (ht : t ∈ renameCascadeTables)
      (h : v.updatePaths source target t = some v') : Change v (.updatePaths source target t) v'

/-- A session leads to another by changes of its volume, each of a kind that is allowed. -/
def Leads (L : Effect → Prop) (s s' : Session) : Prop :=
  Relation.ReflTransGen (fun v v' => ∃ e, L e ∧ Change v e v') s.volume s'.volume

instance (L : Effect → Prop) : IsPreorder Session (Leads L) where
  refl _ := .refl
  trans _ _ _ := .trans

abbrev Makes (L : Effect → Prop) {α : Type} (x : Serve α) : Prop := Act.Within (Leads L) x

/-- What every change preserves holds wherever a program that only makes changes ends. -/
theorem leads_keeps {L : Effect → Prop} {I : Volume → Prop} (hI : ∀ e v v', L e → Change v e v' → I v → I v')
    {s s' : Session} (hlead : Leads L s s') (h : I s.volume) : I s'.volume := by
  unfold Leads at hlead
  generalize s'.volume = v' at hlead ⊢
  induction hlead with
  | refl => exact h
  | tail _ hc ih =>
    obtain ⟨e, he, hc⟩ := hc
    exact hI e _ _ he hc ih

theorem makes_keeps {L : Effect → Prop} {α : Type} {I : Volume → Prop} (hI : ∀ e v v', L e → Change v e v' → I v → I v')
    {x : Serve α} (hx : Makes L x) {v : Volume} (h : I v) : I (Env.after x v) := leads_keeps hI (hx ⟨v, []⟩) h

/-! ### What handlers may do -/

namespace Effect

/-- Something is put at a path, and its row is written. -/
def Creates (path : JsString) : Effect → Prop
  | make q => q = path
  | write q => q = path
  | node q _ => q = path
  | _ => False

/-- What is at a path is taken away, with the rows of all below it. -/
def Destroys (path : JsString) : Effect → Prop
  | unlink q => q = path
  | remove q => q = path
  | deleteRows q _ => q = path
  | _ => False

def EditsKey (key : PropKey) : Effect → Prop
  | setProp k _ => k = key
  | removeProp k => k = key
  | _ => False

def Edits (path : JsString) (e : Effect) : Prop := ∃ key, key.path = path ∧ EditsKey key e

def Fills (target : JsString) (e : Effect) : Prop := ∃ q, Below slash target q ∧ (Creates q e ∨ Edits q e)

/-- A destination is cleared, made and filled. -/
def Copies (target : JsString) (e : Effect) : Prop := Destroys target e ∨ Creates target e ∨ Edits target e ∨ Fills target e

def Carries (source target : JsString) : Effect → Prop
  | rename p q => p = source ∧ q = target
  | updatePaths p q _ => p = source ∧ q = target
  | _ => False

def LocksAt (path : JsString) : Effect → Prop
  | grant _ row => row.path = path
  | extend _ => True
  | release _ => True
  | _ => False

/-- Something is made at a path, or at one above it. -/
def CreatesUpTo (path : JsString) (e : Effect) : Prop := ∃ q ∈ prefixes slash path, Creates q e

/-- A collection is made at a path, or at one above it. -/
def MakesUpTo (path : JsString) : Effect → Prop
  | make q | node q _ => q ∈ prefixes slash path
  | _ => False

/-- A row is written that marks nothing. -/
def Notes (path : JsString) : Effect → Prop
  | node q row => q = path ∧ row.lockNull = false
  | _ => False

theorem Notes.creates {path : JsString} {e : Effect} (h : e.Notes path) : e.Creates path := by
  cases e with
  | node q row => exact h.1
  | _ => exact h.elim

/-- A collection is made at a path, or at one above it, and its row marks nothing. -/
def LaysUpTo (path : JsString) : Effect → Prop
  | make q => q ∈ prefixes slash path
  | node q row => q ∈ prefixes slash path ∧ row.lockNull = false
  | _ => False

theorem LaysUpTo.makes {path : JsString} {e : Effect} (h : e.LaysUpTo path) : e.MakesUpTo path := by
  cases e with
  | make q => exact h
  | node q row => exact h.1
  | _ => exact h.elim

theorem MakesUpTo.creates {path : JsString} {e : Effect} (h : e.MakesUpTo path) : e.CreatesUpTo path := by
  cases e with
  | make q => exact ⟨q, h, rfl⟩
  | node q row => exact ⟨q, h, rfl⟩
  | _ => exact h.elim

end Effect

/-- What a PROPPATCH asks for. -/
def Incoming.propOperations (p : Platform) (r : Incoming) : Option (List ProppatchOperation) :=
  (r.readCappedText maxXmlBodyBytes).bind (parseProppatchRequest p)

/-- What a request may do to a volume. -/
def Exchange.Allows (p : Platform) (x : Exchange) (e : Effect) : Prop := match x.verb with
  | .put _ => e.Creates x.path
  | .delete => e.Destroys x.path
  | .mkcol => e.Creates x.path
  | .proppatch => ∃ ops, x.request.propOperations p = some ops ∧ ∃ op ∈ ops, e.EditsKey (.of x.path op.property)
  | .copy => ∃ target, resolveDestination p x.request.toRequest x.bases.pathBase x.path = some target ∧ e.Copies target
  | .move => ∃ target, resolveDestination p x.request.toRequest x.bases.pathBase x.path = some target ∧
      (e.Destroys target ∨ e.Carries x.path target)
  | .lock _ => e.Creates x.path ∨ e.Destroys x.path ∨ e.LocksAt x.path
  | .unlock => e.Destroys x.path ∨ ∃ token, e = .release token

def ReplicaOperation.Allows : ReplicaOperation → Effect → Prop
  | mkdir path, e => e.CreatesUpTo path
  | write path _ _, e => e.CreatesUpTo path
  -- names are taken for paths, and any file can be unlinked
  | unlink path _, e => e.Destroys path ∨ ∃ q, e = .unlink q
  | copy _ target, e => e.CreatesUpTo target ∨ e.Edits target

def VolumeEntry.Allows (entry : VolumeEntry) (e : Effect) : Prop :=
  e.CreatesUpTo entry.path ∨ ∃ d ∈ entry.props, e.EditsKey (.of entry.path d)

/-- What writing an entry does: only a file is written, and only at its own path. -/
def VolumeEntry.Brings (entry : VolumeEntry) (e : Effect) : Prop := e.LaysUpTo entry.path ∨
  (entry.isCollection = false ∧ match e with
    | .write q => q = entry.path
    | .node q _ => q = entry.path
    | _ => False) ∨ ∃ d ∈ entry.props, e.EditsKey (.of entry.path d)

section Calls

variable {env : Env} {α : Type} {L : Effect → Prop}

theorem makes_mono {L' : Effect → Prop} (h : ∀ e, L e → L' e) {x : Serve α} (hx : Makes L x) : Makes L' x :=
  fun s => Relation.ReflTransGen.mono (fun _ _ ⟨e, he, hc⟩ => ⟨e, h e he, hc⟩) _ _ (hx s)

theorem makes_call {op : Op} {body : Serve α} (h : Makes L body) : Makes L (env.call op body) := by
  intro s
  rw [run_call]
  cases env.fails op (s.calls.count op) with
  | some e => exact .refl
  | none => exact h (s.record op)

theorem makes_read {body : Session → Serve α} (h : ∀ s, Makes L (body s)) : Makes L (Act.read >>= body : Serve α) :=
  Act.within_bind Act.within_read h

theorem makes_answer (f : Session → α) : Makes L (do let s ← (Act.read : Serve Session); pure (f s)) :=
  makes_read (fun _ => Act.within_pure _)

/-- Whether the program fails or not, it is done with. -/
theorem makes_attempted {x : Serve α} (h : Makes L x) : Makes L (do let _ ← x.attempt; pure ()) :=
  Act.within_bind (Act.within_attempt h) (fun _ => Act.within_pure ())

theorem makes_modify {f : Volume → Volume} {e : Effect} (he : L e) (h : ∀ v, Change v e (f v)) :
    Makes L (Env.modifyVolume f) :=
  fun s => .single ⟨e, he, h s.volume⟩

/-- One change, under the conditions it is made under. -/
theorem leads_files {s : Session} {f : Files → Files} {e : Effect} (he : L e)
    (h : Change s.volume e { s.volume with files := f s.volume.files }) : Leads L s ((modifyFiles f).run s).2 :=
  .single ⟨e, he, h⟩

end Calls

/-! ### The file system -/

section Files

variable {env : Env} {path : JsString} {L : Effect → Prop}

theorem makes_stat : Makes L (env.stat path) := by
  refine makes_call (makes_read fun s => ?_)
  split
  · exact Act.within_pure _
  · exact Act.within_throw _

theorem makes_listDir {recursive : Bool} : Makes L (env.listDir path recursive) := by
  refine makes_call (makes_read fun s => ?_)
  split
  · exact Act.within_throw _
  · split <;> exact Act.within_pure _

theorem makes_mkdir (h : L (.make path)) : Makes L (env.mkdir path) := by
  refine makes_call fun s => ?_
  rw [Act.run_bind, Act.run_read]
  dsimp only
  split
  · exact .refl
  · split
    · exact .refl
    · exact leads_files h (.make path env.now (by simp_all) (by simp_all))

theorem makes_rmdir (h : L (.remove path)) : Makes L (env.rmdir path) := by
  refine makes_call fun s => ?_
  rw [Act.run_bind, Act.run_read]
  dsimp only
  split
  · exact .refl
  · exact leads_files h (.remove path (by simp_all))

theorem makes_unlink (h : L (.unlink path)) : Makes L (env.unlink path) := by
  refine makes_call fun s => ?_
  rw [Act.run_bind, Act.run_read]
  dsimp only
  split
  · exact .refl
  · split
    · exact .refl
    · exact leads_files h (.unlink path (by simp_all) (by simp_all))

theorem makes_readFile : Makes L (env.read path) := by
  refine makes_call (makes_read fun s => ?_)
  split
  · exact Act.within_pure _
  · exact Act.within_throw _
  · exact Act.within_throw _

theorem makes_writeFile {data : Bytes} (h : L (.write path)) : Makes L (env.writeFile path data) := by
  refine makes_call fun s => ?_
  rw [Act.run_bind, Act.run_read]
  dsimp only
  split
  · exact .refl
  · split
    · exact .refl
    · exact leads_files h (.write path data env.now (by simp_all) (by simp_all))

/-- A path is not taken into itself: what calls for a rename has seen to that. -/
theorem makes_rename {target : JsString} (ht : Apart path target) (h : L (.rename path target)) :
    Makes L (env.rename path target) := by
  refine makes_call fun s => ?_
  rw [Act.run_bind, Act.run_read]
  dsimp only
  split
  · exact .refl
  · split
    · exact .refl
    · split
      · exact .refl
      · split
        · rename_i files hfiles
          exact leads_files h (.rename path target files ht.source_ne_nil ht.ne ht.outside (by simp_all) (by simp_all)
            (by simp_all) hfiles)
        · exact .refl

theorem makes_statInner : Makes L (env.statInner path) := by
  refine Act.within_bind (Act.within_attempt makes_stat) fun r => ?_
  split <;> exact Act.within_pure _

theorem makes_listRecursive : Makes L (env.listRecursive path) := by
  refine Act.within_bind (Act.within_attempt makes_listDir) fun r => ?_
  split <;> exact Act.within_pure _

theorem makes_listChildren : Makes L (env.listChildren path) := by
  refine Act.within_bind (Act.within_attempt makes_listDir) fun r => ?_
  split <;> exact Act.within_pure _

theorem makes_requireRecursive : Makes L (env.requireRecursive path) := by
  refine Act.within_bind (Act.within_attempt makes_listDir) fun r => ?_
  split
  · exact Act.within_pure _
  · split
    · exact Act.within_pure _
    · exact Act.within_throw _

theorem makes_orphaned : Makes L (env.orphaned path) := by
  unfold Env.orphaned
  split
  · exact Act.within_pure _
  · exact Act.within_bind makes_statInner fun _ => Act.within_pure _

end Files

/-! ### Collections on the way to a path -/

section Ways

variable {env : Env} {path : JsString} {L : Effect → Prop}

theorem prefixes_sorted (q : JsString) : (prefixes slash q).Pairwise (fun a b => a.length < b.length) := by
  induction q with
  | nil => simp [prefixes]
  | cons x xs ih =>
    have hmap : ((prefixes slash xs).map (x :: ·)).Pairwise (fun a b => a.length < b.length) := by
      rw [List.pairwise_map]
      exact ih.imp (by simp)
    unfold prefixes
    split
    · refine List.pairwise_cons.mpr ⟨fun b hb => ?_, hmap⟩
      obtain ⟨a, _, rfl⟩ := List.mem_map.mp hb
      simp
    · exact hmap

theorem parent_mem_prefixes {p q : JsString} (h : p ∈ prefixes slash q) (hp : parentOf p ≠ []) :
    parentOf p ∈ prefixes slash q := by
  obtain ⟨rest, hrest⟩ := (below_of_ne hp).mp (below_parentSegments hp)
  apply mem_prefixes.mpr
  rcases mem_prefixes.mp h with rfl | ⟨more, hmore⟩
  · exact .inr ⟨rest, hrest⟩
  · refine .inr ⟨rest ++ slash :: more, ?_⟩
    rw [hmore]
    nth_rewrite 1 [hrest]
    simp

/-- Collections are made from the top down, each in one that is there. -/
theorem leads_made {v : Volume} {mtime : ℕ} {qs : List JsString} (hL : ∀ q ∈ qs, L (.make q))
    (hfree : ∀ q ∈ qs, v.files.found q = false) (hsorted : qs.Pairwise (fun a b => a.length < b.length))
    (hparent : ∀ q ∈ qs, v.files.isDirectory (parentOf q) = true ∨ parentOf q ∈ qs) :
    Relation.ReflTransGen (fun v v' => ∃ e, L e ∧ Change v e v') v
      { v with files := qs.foldl (fun f q => Store.put f q ⟨none, mtime⟩) v.files } := by
  induction qs generalizing v with
  | nil => exact .refl
  | cons q rest ih =>
    obtain ⟨hshort, hsorted⟩ := List.pairwise_cons.mp hsorted
    have hq : q ≠ [] := by
      rintro rfl
      simpa [Files.found] using hfree [] (by simp)
    have hup : v.files.isDirectory (parentOf q) = true := by
      rcases hparent q (by simp) with hdir | hmem
      · exact hdir
      · have hlt : (parentOf q).length < q.length := parentSegments_length_lt hq
        rcases List.mem_cons.mp hmem with he | hmem
        · rw [he] at hlt
          exact absurd hlt (lt_irrefl _)
        · have := hshort _ hmem
          omega
    have hmade : ∀ p, v.files.isDirectory p = true ∨ p = q →
        Files.isDirectory (Store.put v.files q ⟨none, mtime⟩) p = true := by
      rintro p (hdir | rfl)
      · by_cases hpq : p = q
        · simp [Files.isDirectory, hpq]
        · simpa [Files.isDirectory, hpq] using hdir
      · simp [Files.isDirectory]
    refine .head ⟨.make q, hL q (by simp), .make q mtime (hfree q (by simp)) hup⟩ ?_
    apply ih (v := { v with files := Store.put v.files q ⟨none, mtime⟩ }) (fun p hp => hL p (by simp [hp]))
    · intro p hp
      have hne : p ≠ q := fun he => absurd (hshort p hp) (by simp [he])
      have := hfree p (by simp [hp])
      simpa [Files.found, hne] using this
    · exact hsorted
    · intro p hp
      rcases hparent p (by simp [hp]) with hdir | hmem
      · exact .inl (hmade _ (.inl hdir))
      · rcases List.mem_cons.mp hmem with he | hmem
        · exact .inl (hmade _ (.inr he))
        · exact .inr hmem

theorem makes_mkdirAll (h : ∀ q ∈ prefixes slash path, L (.make q)) : Makes L (env.mkdirAll path) := by
  refine makes_call fun s => ?_
  rw [Act.run_bind, Act.run_read]
  dsimp only
  split
  · exact .refl
  · rename_i hfile
    refine leads_made (v := s.volume) ?_ ?_ ?_ ?_
    · intro q hq
      exact h q (List.mem_of_mem_filter (List.mem_of_mem_filter hq))
    · intro q hq
      simpa using (List.mem_filter.mp hq).2
    · exact ((prefixes_sorted path).filter _).filter _
    · intro q hq
      simp only [List.mem_filter, decide_eq_true_eq, Bool.not_eq_true'] at hq ⊢
      by_cases hroot : parentOf q = []
      · exact .inl (by simp [Files.isDirectory, hroot])
      · have hmem := parent_mem_prefixes hq.1.1 hroot
        cases hfound : s.volume.files.found (parentOf q) with
        | false => exact .inr ⟨⟨hmem, hroot⟩, rfl⟩
        | true =>
          left
          by_contra hdir
          apply hfile
          rw [List.any_eq_true]
          exact ⟨parentOf q, by simp [hmem, hroot], by simp [hfound, hdir]⟩

theorem nothing_below {f : Files} (h : f.below path = []) : ∀ e ∈ f, ¬ Below slash path e.1 := by
  intro e he hb
  have hmem : e.1 ∈ f.below path := by
    unfold Files.below
    rw [Replication.mem_sweepSort, List.mem_filter]
    refine ⟨?_, by simpa using hb⟩
    simpa [Store.keys] using ⟨e.2, he⟩
  simp [h] at hmem

theorem makes_removeCollection {recursive : Bool} (h : L (.remove path)) : Makes L (env.removeCollection path recursive) := by
  unfold Env.removeCollection
  split
  · exact makes_rmdir h
  · refine makes_call fun s => ?_
    rw [Act.run_bind, Act.run_read]
    dsimp only
    split
    · exact .refl
    · rename_i hdir
      split
      · exact .refl
      · rename_i hempty
        have hsame : Store.remove s.volume.files path =
            Store.removeWhere s.volume.files (fun q => q = path ∨ Below slash path q) := by
          apply List.filter_congr
          intro e he
          have hout := nothing_below (not_not.mp hempty) e he
          simp [hout]
        refine leads_files h ?_
        have hremove := Change.remove (v := s.volume) path (by simpa using hdir)
        rwa [← hsame] at hremove

end Ways

/-! ### The tables -/

section Tables

variable {env : Env} {path : JsString} {L : Effect → Prop}

theorem makes_readMeta : Makes L (env.readMeta path) := by
  refine Act.within_bind (Act.within_attempt (makes_call (makes_answer _))) fun r => ?_
  split <;> exact Act.within_pure _

theorem makes_upsertNode {row : NodeRow} (hL : L (.node path row)) (h : ∀ v : Volume, v.Records row) :
    Makes L (env.upsertNode path row) :=
  makes_attempted (makes_call (makes_modify hL fun v => .node path row (h v)))

theorem records_none {v : Volume} {row : NodeRow} (h : row.etag = none) : v.Records row := by
  intro e he
  rw [h] at he
  exact absurd he (by simp)

theorem makes_upsertFileNode {contentType : JsString} {size crtime : ℕ} (h : ∀ e, e.Notes path → L e) :
    Makes L (env.upsertFileNode path contentType (mintEtag size env.now) crtime) :=
  makes_upsertNode (h _ ⟨rfl, rfl⟩) fun _ _ he => .inl ⟨size, env.now, (Option.some.inj he).symm⟩

theorem makes_upsertCollectionNode (h : ∀ e, e.Notes path → L e) : Makes L (env.upsertCollectionNode path) :=
  makes_upsertNode (h _ ⟨rfl, rfl⟩) fun _ => records_none rfl

/-- The row of a file that holds a lock has no validator. -/
theorem makes_recordLockNull (h : ∀ row : NodeRow, row.etag = none → L (.node path row)) :
    Makes L (env.recordLockNull path) :=
  makes_upsertNode (h _ rfl) fun _ => records_none rfl

theorem makes_upsertDeadProperty {key : PropKey} {row : PropRow} (h : L (.setProp key row)) :
    Makes L (env.upsertDeadProperty key row) :=
  makes_call (makes_modify h fun _ => .setProp key row)

theorem makes_deleteNodeCascade (h : ∀ t, L (.deleteRows path t)) : Makes L (env.deleteNodeCascade path) :=
  Act.within_each fun t ht => makes_call (makes_modify (h t) fun _ => .deleteRows path t ht)

theorem makes_deleteCascade (h : ∀ t, L (.deleteRows path t)) : Makes L (env.deleteCascade path) :=
  makes_attempted (makes_deleteNodeCascade h)

theorem makes_updateTable {target : JsString} {t : Table} (ht : t ∈ renameCascadeTables) (h : L (.updatePaths path target t)) :
    Makes L (env.updateTable path target t) := by
  refine makes_call fun s => ?_
  rw [Act.run_bind, Act.run_read]
  dsimp only
  cases hpaths : s.volume.updatePaths path target t with
  | none => exact .refl
  | some v => exact .single ⟨.updatePaths path target t, h, .updatePaths path target t v ht hpaths⟩

theorem makes_renameCascade {target : JsString} (h : ∀ t, L (.updatePaths path target t)) :
    Makes L (env.renameCascade path target) :=
  makes_attempted (Act.within_each fun t ht => makes_updateTable ht (h t))

/-- The validator that is copied is read from a row. -/
theorem makes_copyRows {target : JsString} {isCollection : Bool} (hc : ∀ e, e.Notes target → L e)
    (hp : ∀ e, e.Edits target → L e) : Makes L (env.copyRows path target isCollection) := by
  intro s₀
  have hmeets : Act.Meets (fun s => s = s₀) (env.copyRows path target isCollection) (fun _ => Leads L s₀) (Leads L s₀) := by
    refine Act.meets_bind (R := fun row s => row = Store.get s₀.volume.nodes path ∧ s.volume = s₀.volume) ?_ fun row => ?_
    · rintro s rfl
      rw [Env.exec, run_call]
      cases env.fails (.exec (.selectNode path)) (s.calls.count (.exec (.selectNode path))) with
      | some _ => exact .refl
      | none => exact ⟨rfl, rfl⟩
    · refine Act.meets_bind (R := fun _ => Leads L s₀) ?_ fun _ => ?_
      · rintro s ⟨rfl, hvol⟩
        rw [Env.exec, run_call]
        cases env.fails (.exec (.upsertNode target)) (s.calls.count (.exec (.upsertNode target))) with
        | some e =>
          change Relation.ReflTransGen _ _ s.volume
          rw [hvol]
        | none =>
          change Relation.ReflTransGen _ _ (s.volume.upsertNode target _)
          rw [hvol]
          refine .single ⟨.node target _, hc _ ⟨rfl, rfl⟩, .node target _ fun _ he => .inr ?_⟩
          obtain ⟨row, hrow, hetag⟩ := Option.bind_eq_some_iff.mp he
          exact ⟨path, row, hrow, hetag⟩
      · have hprops : Makes L (do
            let props ← env.exec (.selectProps path) do
              let s ← .read
              pure (s.volume.deadProperties path)
            Act.each (fun e => env.upsertDeadProperty { e.1 with path := target } e.2) props) :=
          Act.within_bind (makes_call (makes_answer _)) fun _ => Act.within_each fun _ _ =>
            makes_upsertDeadProperty (hp (.setProp _ _) ⟨_, rfl, rfl⟩)
        exact Act.Within.meets hprops (fun _ _ hs hlead => hs.trans hlead)
  exact Act.Meets.after hmeets rfl

theorem makes_copyMeta {target : JsString} {isCollection : Bool} (hc : ∀ e, e.Notes target → L e)
    (hp : ∀ e, e.Edits target → L e) : Makes L (env.copyMeta path target isCollection) :=
  makes_attempted (makes_copyRows hc hp)

theorem makes_assertLock {r : Request} : Makes L (env.assertLock r path) := by
  unfold Env.assertLock
  split
  · exact Act.within_pure _
  · refine makes_call (makes_read fun s => ?_)
    split <;> exact Act.within_pure _

theorem makes_assertLockSharing {r : Request} {ignoreShared : Bool} :
    Makes L (env.assertLockSharing r path ignoreShared) := by
  unfold Env.assertLockSharing
  split
  · exact Act.within_pure _
  · refine makes_call (makes_read fun s => ?_)
    split <;> exact Act.within_pure _

theorem makes_anyLocked {tokens names : List JsString} : Makes L (env.anyLocked path tokens names) := by
  induction names with
  | nil => exact Act.within_pure _
  | cons name rest ih =>
    refine Act.within_bind (makes_call (makes_answer _)) fun active => ?_
    split
    · exact ih
    · exact Act.within_pure _

theorem makes_readLocks : Makes L (env.readLocks path) := by
  refine Act.within_bind (Act.within_attempt (makes_call (makes_answer _))) fun r => ?_
  split <;> exact Act.within_pure _

theorem makes_undoCreation (hu : L (.unlink path)) (hr : ∀ t, L (.deleteRows path t)) : Makes L (env.undoCreation path) :=
  makes_attempted (Act.within_bind (makes_unlink hu) fun _ => makes_deleteCascade hr)

end Tables

/-! ### DELETE, COPY and MOVE -/

section CopyMove

variable {env : Env} {r : Request} {path target : JsString} {bases : DavBases} {L : Effect → Prop}

theorem makes_refuseSubtree : Makes L (env.refuseSubtree r path) := by
  refine Act.within_bind (Act.within_attempt makes_requireRecursive) fun names => ?_
  split
  · exact Act.within_pure _
  · refine Act.within_bind makes_anyLocked fun locked => ?_
    split <;> exact Act.within_pure _

theorem makes_deleteCollection (h : ∀ e, e.Destroys path → L e) : Makes L (env.deleteCollection r path) := by
  refine Act.within_bind makes_refuseSubtree fun refusal => ?_
  split
  · exact Act.within_pure _
  · refine Act.within_bind (Act.within_attempt (makes_rmdir (h _ rfl))) fun removed => ?_
    split
    · exact Act.within_pure _
    · exact Act.within_bind (makes_deleteCascade fun t => h (.deleteRows path t) rfl) fun _ => Act.within_pure _

theorem makes_deleteFile (h : ∀ e, e.Destroys path → L e) : Makes L (env.deleteFile path) := by
  refine Act.within_bind (Act.within_attempt (makes_unlink (h _ rfl))) fun removed => ?_
  split
  · exact Act.within_pure _
  · exact Act.within_bind (makes_deleteCascade fun t => h (.deleteRows path t) rfl) fun _ => Act.within_pure _

theorem makes_handleDelete (h : ∀ e, e.Destroys path → L e) : Makes L (env.handleDelete r path) := by
  unfold Env.handleDelete
  split
  · exact Act.within_pure _
  · refine Act.within_bind makes_statInner fun st => ?_
    split
    · exact Act.within_pure _
    · refine Act.within_bind makes_assertLock fun locked => ?_
      split
      · exact Act.within_pure _
      · split
        · exact makes_deleteCollection h
        · exact makes_deleteFile h

theorem makes_removeExisting {destExists : Bool} (h : ∀ e, e.Destroys path → L e) :
    Makes L (env.removeExisting r path destExists) := by
  unfold Env.removeExisting
  split
  · exact Act.within_bind (makes_handleDelete h) fun _ => Act.within_pure _
  · exact Act.within_pure _

theorem makes_copyBytes (h : ∀ e, e.Creates target → L e) : Makes L (env.copyBytes path target) :=
  Act.within_bind makes_readFile fun _ => makes_writeFile (h _ rfl)

theorem targetOf_below (source target child : JsString) : Below slash target (Env.targetOf source target child) := by
  unfold Env.targetOf
  by_cases ht : target = []
  · subst ht
    exact below_root.mpr (by simp)
  · exact (below_of_ne ht).mpr ⟨_, rfl⟩

theorem makes_copyChild {name : JsString} (h : ∀ e, e.Creates (Env.targetOf path target (Env.childInner path name)) ∨
    e.Edits (Env.targetOf path target (Env.childInner path name)) → L e) : Makes L (env.copyChild bases path target name) := by
  have hc : ∀ e, e.Creates (Env.targetOf path target (Env.childInner path name)) → L e := fun e he => h e (.inl he)
  have hmeta : ∀ isCollection, Makes L (env.copyMeta (Env.childInner path name)
      (Env.targetOf path target (Env.childInner path name)) isCollection) :=
    fun _ => makes_copyMeta (fun e he => hc e he.creates) (fun e he => h e (.inr he))
  refine Act.within_bind makes_statInner fun st => ?_
  split
  · exact Act.within_bind (Act.within_attempt (makes_mkdir (hc _ rfl))) fun _ =>
      Act.within_bind (hmeta true) fun _ => Act.within_pure _
  · refine Act.within_bind (Act.within_attempt (makes_copyBytes hc)) fun copied => ?_
    split
    · exact Act.within_pure _
    · exact Act.within_bind (hmeta false) fun _ => Act.within_pure _

theorem makes_copyChildren {names : List JsString} (h : ∀ name ∈ names, ∀ e,
    e.Creates (Env.targetOf path target (Env.childInner path name)) ∨
      e.Edits (Env.targetOf path target (Env.childInner path name)) → L e) :
    Makes L (env.copyChildren bases path target names) := by
  induction names with
  | nil => exact Act.within_pure _
  | cons name rest ih =>
    exact Act.within_bind (makes_copyChild (h name (List.mem_cons_self ..))) fun _ =>
      Act.within_bind (ih fun other hother => h other (List.mem_cons_of_mem _ hother)) fun _ => Act.within_pure _

/-- What copies are made of goes below the target. -/
theorem makes_fills {names : List JsString} (h : ∀ e, e.Fills target → L e) :
    Makes L (env.copyChildren bases path target names) :=
  makes_copyChildren fun name _ e he => h e ⟨_, targetOf_below path target (Env.childInner path name), he⟩

theorem makes_makeTarget {depth : JsString} {destExists : Bool} (h : ∀ e, e.Copies target → L e) :
    Makes L (env.makeTarget bases depth path target destExists) := by
  have hc : ∀ e, e.Creates target → L e := fun e he => h e (.inr (.inl he))
  have hp : ∀ e, e.Edits target → L e := fun e he => h e (.inr (.inr (.inl he)))
  have hf : ∀ e, e.Fills target → L e := fun e he => h e (.inr (.inr (.inr he)))
  refine Act.within_bind (Act.within_attempt (makes_mkdir (hc _ rfl))) fun made => ?_
  split
  · exact Act.within_pure _
  · refine Act.within_bind (makes_copyMeta (fun e he => hc e he.creates) hp) fun _ => ?_
    split
    · exact Act.within_bind makes_listRecursive fun _ => Act.within_bind (makes_fills hf) fun _ => Act.within_pure _
    · exact Act.within_pure _

theorem makes_copyCollection {destExists : Bool} (h : ∀ e, e.Copies target → L e) :
    Makes L (env.copyCollection r bases path target destExists) := by
  unfold Env.copyCollection
  dsimp only
  split
  · exact Act.within_pure _
  · refine Act.within_bind (makes_removeExisting fun e he => h e (.inl he)) fun refusal => ?_
    split
    · exact Act.within_pure _
    · exact makes_makeTarget h

theorem makes_copyFile {destExists : Bool} (h : ∀ e, e.Copies target → L e) :
    Makes L (env.copyFile r bases path target destExists) := by
  have hc : ∀ e, e.Creates target → L e := fun e he => h e (.inr (.inl he))
  have hp : ∀ e, e.Edits target → L e := fun e he => h e (.inr (.inr (.inl he)))
  refine Act.within_bind (makes_removeExisting fun e he => h e (.inl he)) fun refusal => ?_
  split
  · exact Act.within_pure _
  · refine Act.within_bind (Act.within_attempt (makes_copyBytes hc)) fun copied => ?_
    split
    · exact Act.within_pure _
    · exact Act.within_bind (makes_copyMeta (fun e he => hc e he.creates) hp) fun _ => Act.within_pure _

theorem makes_handleCopy (h : ∀ target, resolveDestination env.platform r bases.pathBase path = some target →
    ∀ e, e.Copies target → L e) : Makes L (env.handleCopy r path bases) := by
  unfold Env.handleCopy
  split
  · exact Act.within_pure _
  · rename_i target hd
    refine Act.within_bind makes_assertLock fun locked => ?_
    split
    · exact Act.within_pure _
    · refine Act.within_bind makes_statInner fun source => ?_
      split
      · exact Act.within_pure _
      · refine Act.within_bind makes_orphaned fun orphan => ?_
        split
        · exact Act.within_pure _
        · refine Act.within_bind makes_statInner fun destination => ?_
          split
          · exact Act.within_pure _
          · split
            · exact makes_copyCollection (h target hd)
            · exact makes_copyFile (h target hd)

theorem makes_moveOver {isCollection destExists : Bool} (ht : Apart path target) (hd : ∀ e, e.Destroys target → L e)
    (hc : ∀ e, e.Carries path target → L e) : Makes L (env.moveOver r bases path target isCollection destExists) := by
  refine Act.within_bind (makes_removeExisting hd) fun refusal => ?_
  split
  · exact Act.within_pure _
  · refine Act.within_bind (Act.within_attempt (makes_rename ht (hc _ ⟨rfl, rfl⟩))) fun renamed => ?_
    split
    · exact Act.within_pure _
    · exact Act.within_bind (makes_renameCascade fun _ => hc _ ⟨rfl, rfl⟩) fun _ => Act.within_pure _

theorem makes_moveTo {isCollection : Bool} (ht : Apart path target) (hd : ∀ e, e.Destroys target → L e)
    (hc : ∀ e, e.Carries path target → L e) : Makes L (env.moveTo r bases path target isCollection) := by
  refine Act.within_bind makes_orphaned fun orphan => ?_
  split
  · exact Act.within_pure _
  · refine Act.within_bind makes_statInner fun destination => ?_
    split
    · exact Act.within_pure _
    · exact makes_moveOver ht hd hc

theorem makes_handleMove (h : ∀ target, resolveDestination env.platform r bases.pathBase path = some target →
    ∀ e : Effect, e.Destroys target ∨ e.Carries path target → L e) : Makes L (env.handleMove r path bases) := by
  unfold Env.handleMove
  split
  · exact Act.within_pure _
  · rename_i target hd
    have hmove : ∀ isCollection, Makes L (env.moveTo r bases path target isCollection) := fun _ =>
      makes_moveTo (resolveDestination_apart hd) (fun e he => h target hd e (.inl he)) (fun e he => h target hd e (.inr he))
    refine Act.within_bind makes_assertLock fun locked => ?_
    split
    · exact Act.within_pure _
    · refine Act.within_bind makes_assertLock fun locked => ?_
      split
      · exact Act.within_pure _
      · refine Act.within_bind makes_statInner fun source => ?_
        split
        · exact Act.within_pure _
        · split
          · exact Act.within_pure _
          · split
            · refine Act.within_bind makes_refuseSubtree fun refusal => ?_
              split
              · exact Act.within_pure _
              · exact hmove true
            · exact hmove false

end CopyMove

/-! ### PUT, MKCOL and PROPPATCH -/

section Writing

variable {env : Env} {r : Incoming} {path : JsString} {bases : DavBases} {L : Effect → Prop}

theorem makes_putAdmit : Makes L (env.putAdmit r path) := by
  unfold Env.putAdmit
  split
  · exact Act.within_pure _
  · refine Act.within_bind makes_assertLock fun locked => ?_
    split
    · exact Act.within_pure _
    · refine Act.within_bind makes_orphaned fun orphan => ?_
      split
      · exact Act.within_pure _
      · refine Act.within_bind makes_statInner fun existing => ?_
        split
        · exact Act.within_pure _
        · refine Act.within_bind makes_readMeta fun previous => ?_
          split <;> exact Act.within_pure _

theorem makes_putWrite {plan : Env.PutPlan} {maxFileBytes : ℕ} (h : L (.write plan.path)) :
    Makes L (env.putWrite plan maxFileBytes) := by
  unfold Env.putWrite
  split
  · exact Act.within_pure _
  · refine Act.within_bind (Act.within_attempt (makes_writeFile h)) fun written => ?_
    split <;> exact Act.within_pure _

theorem makes_putRecord {plan : Env.PutPlan} (h : ∀ e, e.Notes plan.path → L e) : Makes L (env.putRecord plan) :=
  Act.within_bind (makes_upsertFileNode h) fun _ => Act.within_pure _

/-- What an admitted PUT remembers of its request. -/
theorem putAdmit_plan {plan : Env.PutPlan} {s s' : Session} (h : (env.putAdmit r path).run s = (.ok (.ok plan), s')) :
    plan.path = path ∧ plan.request = r := by
  unfold Env.putAdmit at h
  split at h
  · simp at h
  · obtain ⟨locked, s₁, _, h⟩ := Act.of_run_bind h
    split at h
    · simp at h
    · obtain ⟨orphan, s₂, _, h⟩ := Act.of_run_bind h
      split at h
      · simp at h
      · obtain ⟨existing, s₃, _, h⟩ := Act.of_run_bind h
        split at h
        · simp at h
        · obtain ⟨previous, s₄, _, h⟩ := Act.of_run_bind h
          split at h
          · simp at h
          · obtain rfl := Except.ok.inj (Act.of_run_pure h).1
            exact ⟨rfl, rfl⟩

theorem makes_handlePut {maxFileBytes : ℕ} (h : ∀ e, e.Creates path → L e) : Makes L (env.handlePut r path maxFileBytes) := by
  refine Act.within_bind_of_run makes_putAdmit fun admitted s s' hrun => ?_
  split
  · exact Act.within_pure _
  · rename_i plan
    obtain ⟨rfl, _⟩ := putAdmit_plan hrun
    refine Act.within_bind (makes_putWrite (h _ rfl)) fun written => ?_
    split
    · exact Act.within_pure _
    · exact makes_putRecord fun e he => h e he.creates

theorem makes_handleMkcol (hm : L (.make path)) (hn : ∀ e, e.Notes path → L e) : Makes L (env.handleMkcol r path) := by
  unfold Env.handleMkcol
  split
  · exact Act.within_pure _
  · split
    · exact Act.within_pure _
    · split
      · exact Act.within_pure _
      · refine Act.within_bind makes_assertLock fun locked => ?_
        split
        · exact Act.within_pure _
        · refine Act.within_bind makes_statInner fun st => ?_
          split
          · exact Act.within_pure _
          · refine Act.within_bind makes_orphaned fun orphan => ?_
            split
            · exact Act.within_pure _
            · refine Act.within_bind (Act.within_attempt (makes_mkdir hm)) fun made => ?_
              split
              · exact Act.within_pure _
              · exact Act.within_bind (makes_upsertCollectionNode hn) fun _ => Act.within_pure _

theorem makes_getDeadProperties : Makes L (env.getDeadProperties path) := makes_call (makes_answer _)

theorem makes_nodeInfo {hrefBase : JsString} : Makes L (env.nodeInfo path hrefBase) := by
  refine Act.within_bind makes_statInner fun st => ?_
  split
  · exact Act.within_pure _
  · exact Act.within_bind makes_readMeta fun _ => Act.within_bind (makes_call (makes_answer _)) fun _ =>
      Act.within_bind makes_getDeadProperties fun _ => Act.within_pure _

theorem makes_nodeAt {hrefBase : JsString} : Makes L (env.nodeAt path hrefBase) := by
  unfold Env.nodeAt
  split
  · exact Act.within_pure _
  · exact makes_nodeInfo

theorem makes_writeEach {write : DeadProperty → Serve Unit} {ps : List DeadProperty} (h : ∀ p ∈ ps, Makes L (write p)) :
    Makes L (Env.writeEach write ps) := by
  induction ps with
  | nil => exact Act.within_pure _
  | cons p rest ih =>
    exact Act.within_bind (Act.within_attempt (h p (by simp))) fun _ =>
      Act.within_bind (ih fun q hq => h q (by simp [hq])) fun _ => Act.within_pure _

theorem makes_setDeadProperty {p : DeadProperty} (h : ∀ e, e.EditsKey (.of path p) → L e) :
    Makes L (env.setDeadProperty path p) :=
  makes_upsertDeadProperty (h (.setProp _ _) rfl)

theorem makes_removeDeadProperty {p : DeadProperty} (h : ∀ e, e.EditsKey (.of path p) → L e) :
    Makes L (env.removeDeadProperty path p) :=
  makes_call (makes_modify (h (.removeProp (.of path p)) rfl) fun _ => .removeProp _)

theorem mem_propertiesOf {action : PropAction} {ops : List ProppatchOperation} {p : DeadProperty}
    (h : p ∈ Env.propertiesOf action ops) : ⟨action, p⟩ ∈ ops := by
  obtain ⟨⟨action', p'⟩, hop, rfl⟩ := List.mem_map.mp h
  obtain ⟨hmem, haction⟩ := List.mem_filter.mp hop
  obtain rfl : action' = action := by simpa using haction
  exact hmem

theorem makes_applyOperations {ops : List ProppatchOperation}
    (h : ∀ op ∈ ops, ∀ e : Effect, e.EditsKey (.of path op.property) → L e) : Makes L (env.applyOperations path ops) := by
  unfold Env.applyOperations
  dsimp only
  split
  · exact Act.within_pure _
  · exact Act.within_bind (makes_writeEach fun p hp => makes_setDeadProperty (h _ (mem_propertiesOf hp))) fun _ =>
      Act.within_bind (makes_writeEach fun p hp => makes_removeDeadProperty (h _ (mem_propertiesOf hp))) fun _ =>
        Act.within_pure _

theorem makes_handleProppatch (h : ∀ ops, r.propOperations env.platform = some ops → ∀ op ∈ ops,
    ∀ e : Effect, e.EditsKey (.of path op.property) → L e) : Makes L (env.handleProppatch r path bases) := by
  refine Act.within_bind makes_assertLock fun locked => ?_
  split
  · exact Act.within_pure _
  · refine Act.within_bind makes_nodeAt fun node => ?_
    split
    · exact Act.within_pure _
    · split
      · exact Act.within_pure _
      · rename_i xml hxml
        split
        · exact Act.within_pure _
        · rename_i ops hops
          have hparsed : r.propOperations env.platform = some ops := by
            unfold Incoming.propOperations
            rw [hxml]
            exact hops
          exact Act.within_bind (makes_applyOperations (h ops hparsed)) fun _ => Act.within_pure _

end Writing

/-! ### LOCK and UNLOCK -/

section Locking

variable {env : Env} {r : Incoming} {path : JsString} {bases : DavBases} {L : Effect → Prop}

theorem makes_refreshableAmong {tokens paths : List JsString} : Makes L (env.refreshableAmong path tokens paths) := by
  induction paths with
  | nil => exact Act.within_pure _
  | cons cur rest ih =>
    refine Act.within_bind (makes_call (makes_answer _)) fun details => ?_
    split
    · exact Act.within_pure _
    · exact ih

theorem makes_findRefreshableLock {tokens : List JsString} : Makes L (env.findRefreshableLock path tokens) := by
  refine Act.within_bind (Act.within_attempt makes_refreshableAmong) fun found => ?_
  split <;> exact Act.within_pure _

theorem makes_anyConflicting {tokens names : List JsString} {scope : LockScope} :
    Makes L (env.anyConflicting path tokens scope names) := by
  induction names with
  | nil => exact Act.within_pure _
  | cons name rest ih =>
    refine Act.within_bind (makes_call (makes_answer _)) fun active => ?_
    split
    · exact ih
    · exact Act.within_pure _

theorem makes_checkDescendantConflicts {r : Request} {depth : Option LockDepth} {scope : LockScope} :
    Makes L (env.checkDescendantConflicts r path depth scope) := by
  unfold Env.checkDescendantConflicts
  split
  · exact Act.within_pure _
  · refine Act.within_bind makes_statInner fun st => ?_
    split
    · exact Act.within_pure _
    · refine Act.within_bind (Act.within_attempt makes_requireRecursive) fun names => ?_
      split
      · exact Act.within_pure _
      · refine Act.within_bind makes_anyConflicting fun locked => ?_
        split <;> exact Act.within_pure _

theorem makes_refreshTarget {parsed : LockRequest} {wasPresent : Bool} :
    Makes L (env.refreshTarget r path parsed wasPresent) := by
  unfold Env.refreshTarget
  split
  · exact Act.within_pure _
  · refine Act.within_bind makes_findRefreshableLock fun found => ?_
    split <;> exact Act.within_pure _

theorem makes_lockAdmit : Makes L (env.lockAdmit r path) := by
  unfold Env.lockAdmit
  split
  · exact Act.within_pure _
  · refine Act.within_bind makes_assertLockSharing fun locked => ?_
    split
    · exact Act.within_pure _
    · refine Act.within_bind makes_checkDescendantConflicts fun conflict => ?_
      split
      · exact Act.within_pure _
      · exact Act.within_bind makes_statInner fun _ => Act.within_bind makes_refreshTarget fun _ => Act.within_pure _

/-- A lock that is not refreshed is taken on the path of the request. -/
def Env.LockPlan.Targets (plan : Env.LockPlan) (path : JsString) : Prop :=
  plan.path = path ∧ (plan.existing = none → plan.activePath = path)

theorem refreshTarget_plan {parsed : LockRequest} {wasPresent : Bool} {plan : Env.LockPlan} {s s' : Session}
    (h : (env.refreshTarget r path parsed wasPresent).run s = (.ok plan, s')) : plan.Targets path := by
  unfold Env.refreshTarget at h
  split at h
  · obtain ⟨rfl, _⟩ := Act.of_run_pure h
    exact ⟨rfl, fun _ => rfl⟩
  · obtain ⟨found, s₁, _, h⟩ := Act.of_run_bind h
    split at h
    · obtain ⟨rfl, _⟩ := Act.of_run_pure h
      split
      · exact ⟨rfl, fun hnone => absurd hnone (by simp)⟩
      · exact ⟨rfl, fun _ => rfl⟩
    · obtain ⟨rfl, _⟩ := Act.of_run_pure h
      exact ⟨rfl, fun _ => rfl⟩

theorem lockAdmit_plan {plan : Env.LockPlan} {s s' : Session} (h : (env.lockAdmit r path).run s = (.ok (.ok plan), s')) :
    plan.Targets path := by
  unfold Env.lockAdmit at h
  split at h
  · simp at h
  · obtain ⟨locked, s₁, _, h⟩ := Act.of_run_bind h
    split at h
    · simp at h
    · obtain ⟨conflict, s₂, _, h⟩ := Act.of_run_bind h
      split at h
      · simp at h
      · obtain ⟨st, s₃, _, h⟩ := Act.of_run_bind h
        obtain ⟨plan', s₄, hplan, h⟩ := Act.of_run_bind h
        obtain rfl := Except.ok.inj (Act.of_run_pure h).1
        exact refreshTarget_plan hplan

theorem makes_ensureLockableResource {plan : Env.LockPlan} (h : L (.write plan.path)) :
    Makes L (env.ensureLockableResource plan) := by
  refine Act.within_bind makes_statInner fun st => ?_
  split
  · exact Act.within_pure _
  · split
    · exact Act.within_pure _
    · refine Act.within_bind makes_orphaned fun orphan => ?_
      split
      · exact Act.within_pure _
      · split
        · exact Act.within_pure _
        · refine Act.within_bind (Act.within_attempt (makes_writeFile h)) fun written => ?_
          split <;> exact Act.within_pure _

theorem makes_checkScopeConflict {scope : LockScope} {existing : Option LockDetails} :
    Makes L (env.checkScopeConflict path scope existing) := by
  unfold Env.checkScopeConflict
  split
  · exact Act.within_pure _
  · refine Act.within_bind makes_readLocks fun current => ?_
    split <;> exact Act.within_pure _

theorem makes_rejectsInfinityDepth {depth : Option LockDepth} : Makes L (env.rejectsInfinityDepth path depth) := by
  unfold Env.rejectsInfinityDepth
  split
  · exact Act.within_pure _
  · exact Act.within_bind makes_statInner fun _ => Act.within_pure _

/-- A lock that is granted is not in the table yet. -/
theorem makes_writeLock {uuid : Uuid} {existing : Option LockDetails} {d : LockDetails} {q : JsString}
    (hq : existing = none → path = q) (h : ∀ e, e.LocksAt q → L e) : Makes L (env.writeLock uuid existing path d) := by
  unfold Env.writeLock
  split
  · exact makes_call (makes_modify (h (.extend d) trivial) fun _ => .extend d)
  · refine makes_call ?_
    intro s
    rw [Act.run_bind, Act.run_read]
    dsimp only
    split
    · exact .refl
    · rename_i hfree
      refine .single ⟨.grant uuid ⟨path, _, _, _, _, _, _⟩, h (.grant uuid _) (hq rfl), .grant uuid _ ?_⟩
      rwa [Bool.not_eq_true, Option.isSome_eq_false_iff, Option.isNone_iff_eq_none] at hfree

theorem makes_lockGrant {uuid : Uuid} {plan : Env.LockPlan} (hplan : plan.Targets path) (hd : ∀ e, e.Destroys path → L e)
    (hl : ∀ e, e.LocksAt path → L e) : Makes L (env.lockGrant uuid bases plan) := by
  obtain ⟨rfl, hactive⟩ := hplan
  refine Act.within_bind makes_checkScopeConflict fun conflict => ?_
  split
  · exact Act.within_pure _
  · refine Act.within_bind makes_statInner fun st => Act.within_bind makes_rejectsInfinityDepth fun rejected => ?_
    split
    · dsimp only
      split
      · exact Act.within_pure _
      · exact Act.within_bind (makes_undoCreation (hd _ rfl) fun t => hd (.deleteRows _ t) rfl) fun _ => Act.within_pure _
    · refine Act.within_bind makes_statInner fun _ =>
        Act.within_bind (Act.within_attempt (makes_writeLock hactive hl)) fun written => ?_
      split <;> exact Act.within_pure _

theorem makes_handleLock {uuid : Uuid} (hw : L (.write path)) (hn : ∀ row : NodeRow, row.etag = none → L (.node path row))
    (hd : ∀ e, e.Destroys path → L e) (hl : ∀ e, e.LocksAt path → L e) :
    Makes L (env.handleLock uuid r path bases) := by
  refine Act.within_bind_of_run makes_lockAdmit fun admitted s s' hrun => ?_
  split
  · exact Act.within_pure _
  · rename_i plan
    have hplan := lockAdmit_plan hrun
    have hgrant : Makes L (env.lockGrant uuid bases plan) := makes_lockGrant hplan hd hl
    refine Act.within_bind (makes_ensureLockableResource (by rwa [hplan.1])) fun lockable => ?_
    split
    · exact Act.within_pure _
    · exact hgrant
    · exact Act.within_bind (makes_recordLockNull hn) fun _ => hgrant

theorem makes_releaseLock {normalized : JsString} (h : ∀ token, L (.release token)) :
    Makes L (env.releaseLock path normalized) := by
  refine Act.within_bind (makes_call (makes_answer _)) fun tokens => ?_
  split
  · exact Act.within_pure _
  · exact Act.within_bind (makes_call (makes_modify (h _) fun _ => .release _)) fun _ => Act.within_pure _

theorem makes_dropLockNull (h : ∀ e, e.Destroys path → L e) : Makes L (env.dropLockNull path) := by
  refine Act.within_bind makes_readLocks fun remaining => ?_
  split
  · refine Act.within_bind (Act.within_bind makes_readMeta fun _ => Act.within_pure _) fun lockNull => ?_
    split
    · exact makes_undoCreation (h _ rfl) fun t => h (.deleteRows path t) rfl
    · exact Act.within_pure _
  · exact Act.within_pure _

theorem makes_handleUnlock {r : Request} (hd : ∀ e, e.Destroys path → L e) (hl : ∀ token, L (.release token)) :
    Makes L (env.handleUnlock r path) := by
  refine Act.within_bind makes_statInner fun st => ?_
  split
  · exact Act.within_pure _
  · split
    · exact Act.within_pure _
    · refine Act.within_bind (Act.within_attempt (makes_releaseLock hl)) fun released => ?_
      split
      · dsimp only
        split
        · exact Act.within_bind (makes_dropLockNull hd) fun _ => Act.within_pure _
        · exact Act.within_pure _
      · exact Act.within_pure _

end Locking

/-! ### Requests and replications -/

section Serving

variable {env : Env} {L : Effect → Prop}

theorem makes_handle (x : Exchange) : Makes (x.Allows env.platform) (env.handle x) := by
  rcases x with ⟨verb, request, path, bases⟩
  cases verb with
  | put => exact makes_handlePut fun _ h => h
  | delete => exact makes_handleDelete fun _ h => h
  | mkcol => exact makes_handleMkcol rfl fun _ h => h.creates
  | proppatch =>
    exact Act.within_bind (makes_handleProppatch fun ops hops op hop _ h => ⟨ops, hops, op, hop, h⟩) fun _ => Act.within_pure _
  | copy => exact makes_handleCopy fun target hd _ h => ⟨target, hd, h⟩
  | move => exact makes_handleMove fun target hd _ h => ⟨target, hd, h⟩
  | lock => exact makes_handleLock (.inl rfl) (fun _ _ => .inl rfl) (fun _ h => .inr (.inl h)) (fun _ h => .inr (.inr h))
  | unlock => exact makes_handleUnlock (fun _ h => .inl h) (fun token => .inr ⟨token, rfl⟩)

theorem makes_serve (x : Exchange) : Makes (x.Allows env.platform) (env.serve x) := by
  unfold Env.serve
  split
  · exact Act.within_pure _
  · refine Act.within_bind (Act.within_attempt (makes_handle x)) fun answer => ?_
    split <;> exact Act.within_pure _

theorem makes_upsertAncestors {parent : JsString} (h : ∀ e : Effect, e.LaysUpTo parent → L e) :
    Makes L (env.upsertAncestors parent) := by
  unfold Env.upsertAncestors
  split
  · exact Act.within_pure _
  · exact Act.within_bind (Act.within_attempt (makes_mkdirAll fun q hq => h (.make q) hq)) fun _ =>
      Act.within_each fun q hq => makes_upsertNode (h (.node q _) ⟨hq, rfl⟩) fun _ => records_none rfl

theorem prefixes_parent {path q : JsString} (hpath : isValidInnerPath path = true)
    (hq : q ∈ prefixes slash (getParentPath path)) (hroot : getParentPath path ≠ []) : q ∈ prefixes slash path := by
  rw [getParentPath_eq hpath] at hq hroot
  obtain ⟨rest, hrest⟩ := (below_of_ne hroot).mp (below_parentSegments hroot)
  apply mem_prefixes.mpr
  rcases mem_prefixes.mp hq with rfl | ⟨more, hmore⟩
  · exact .inr ⟨rest, hrest⟩
  · refine .inr ⟨more ++ slash :: rest, ?_⟩
    rw [hrest]
    nth_rewrite 1 [hmore]
    simp

theorem laysUpTo_parent {path : JsString} (hpath : isValidInnerPath path = true) {e : Effect}
    (h : e.LaysUpTo (getParentPath path)) (hroot : getParentPath path ≠ []) : e.LaysUpTo path := by
  cases e with
  | make q => exact prefixes_parent hpath h hroot
  | node q row => exact ⟨prefixes_parent hpath h.1 hroot, h.2⟩
  | _ => exact h.elim

theorem makes_replicaMkdir {path : JsString} (h : ∀ e : Effect, e.LaysUpTo path → L e) :
    Makes L (env.replicaMkdir path) := by
  unfold Env.replicaMkdir
  split
  · exact Act.within_throw _
  · rename_i hvalid
    have hself : path ∈ prefixes slash path := mem_prefixes.mpr (.inl rfl)
    have hup : Makes L (env.upsertAncestors (getParentPath path)) := by
      by_cases hroot : getParentPath path = []
      · unfold Env.upsertAncestors
        rw [if_pos hroot]
        exact Act.within_pure _
      · exact makes_upsertAncestors fun e he => h e (laysUpTo_parent (by simp_all) he hroot)
    exact Act.within_bind hup fun _ => Act.within_bind (Act.within_attempt (makes_mkdir (h (.make path) hself))) fun _ =>
      makes_upsertNode (h (.node path _) ⟨hself, rfl⟩) fun _ => records_none rfl

theorem makes_replicaWrite {path : JsString} {contentType : Option JsString} {data : Env.Payload}
    (h : ∀ e : Effect, e.MakesUpTo path → L e) (hw : L (.write path)) :
    Makes L (env.replicaWrite path contentType data) := by
  unfold Env.replicaWrite
  split
  · exact Act.within_throw _
  · rename_i hvalid
    have hself : path ∈ prefixes slash path := mem_prefixes.mpr (.inl rfl)
    have hwrite : Makes L (do
        env.writeFile path data.bytes
        env.upsertFileNode path (contentType.getD (js "application/octet-stream")) (mintEtag data.size env.now) env.now) :=
      Act.within_bind (makes_writeFile hw) fun _ => makes_upsertNode (h (.node path _) hself)
        fun _ _ he => .inl ⟨data.size, env.now, (Option.some.inj he).symm⟩
    dsimp only
    split
    · exact hwrite
    · rename_i hroot
      exact Act.within_bind (makes_replicaMkdir fun e he => h e (laysUpTo_parent (by simp_all) he hroot).makes) fun _ => hwrite

theorem makes_unlinkEach {names : List JsString} (h : ∀ q, L (.unlink q)) : Makes L (env.unlinkEach names) := by
  induction names with
  | nil => exact Act.within_pure _
  | cons child rest ih =>
    refine Act.within_bind makes_statInner fun st => ?_
    split
    · exact Act.within_bind (Act.within_attempt (makes_unlink (h child))) fun _ => ih
    · exact ih

theorem makes_replicaUnlink {path : JsString} {recursive : Bool} (hd : ∀ e, e.Destroys path → L e)
    (hu : ∀ q, L (.unlink q)) : Makes L (env.replicaUnlink path recursive) := by
  unfold Env.replicaUnlink
  split
  · exact Act.within_throw _
  · refine Act.within_bind makes_statInner fun st => ?_
    split
    · exact makes_deleteNodeCascade fun t => hd (.deleteRows path t) rfl
    · split
      · have hremove : Makes L (do
            env.removeCollection path recursive
            env.deleteNodeCascade path) :=
          Act.within_bind (makes_removeCollection (hd _ rfl)) fun _ => makes_deleteNodeCascade fun t => hd (.deleteRows path t) rfl
        dsimp only
        split
        · exact Act.within_bind makes_listRecursive fun _ => Act.within_bind (makes_unlinkEach hu) fun _ => hremove
        · exact hremove
      · exact Act.within_bind (makes_unlink (hd _ rfl)) fun _ => makes_deleteNodeCascade fun t => hd (.deleteRows path t) rfl

theorem makes_copyProp {target : JsString} {p : DeadProperty} (hn : ∀ e, e.Notes target → L e) (hp : ∀ e, e.Edits target → L e) :
    Makes L (env.copyProp target p) :=
  Act.within_bind (makes_call (makes_modify (hn (.node target _) ⟨rfl, rfl⟩) fun _ => .node target _ (records_none rfl))) fun _ =>
    makes_setDeadProperty fun e he => hp e ⟨_, rfl, he⟩

theorem makes_replicaCopy {source target : JsString} (hc : ∀ e : Effect, e.CreatesUpTo target → L e)
    (hp : ∀ e, e.Edits target → L e) : Makes L (env.replicaCopy source target) := by
  have hself : ∀ e, e.Creates target → L e := fun e he => hc e ⟨target, mem_prefixes.mpr (.inl rfl), he⟩
  unfold Env.replicaCopy
  split
  · exact Act.within_throw _
  · rename_i hvalid
    refine Act.within_bind makes_statInner fun st => ?_
    split
    · exact Act.within_throw _
    · refine Act.within_bind makes_readMeta fun row => ?_
      split
      · refine Act.within_bind (makes_replicaMkdir fun e he => hc e he.makes.creates) fun _ => Act.within_bind makes_getDeadProperties fun _ =>
          Act.within_each fun p _ => makes_copyProp (fun e he => hself e he.creates) hp
      · have hup : Makes L (env.replicaMkdir (getParentPath target)) := by
          by_cases hroot : getParentPath target = []
          · unfold Env.replicaMkdir
            rw [if_pos (.inl hroot)]
            exact Act.within_throw _
          · exact makes_replicaMkdir fun e he => hc e (laysUpTo_parent (by simp_all) he hroot).makes.creates
        exact Act.within_bind makes_readFile fun _ => Act.within_bind hup fun _ =>
          Act.within_bind (makes_writeFile (hself _ rfl)) fun _ => makes_upsertFileNode fun e he => hself e he.creates

theorem makes_applyOne (op : ReplicaOperation) : Makes op.Allows (env.applyOne op) := by
  cases op with
  | mkdir path => exact makes_replicaMkdir fun _ h => h.makes.creates
  | write path contentType data =>
    exact makes_replicaWrite (fun _ h => h.creates) ⟨path, mem_prefixes.mpr (.inl rfl), rfl⟩
  | unlink path recursive => exact makes_replicaUnlink (fun _ h => .inl h) (fun q => .inr ⟨q, rfl⟩)
  | copy source target => exact makes_replicaCopy (fun _ h => .inl h) (fun _ h => .inr h)

/-- An entry brings the validator it had in the volume it comes from. -/
theorem makes_brought (e : VolumeEntry) (h : ∀ tag, e.etag = some tag → IsMinted tag) :
    Makes e.Brings (env.writeEntry e) := by
  unfold Env.writeEntry
  split
  · exact Act.within_throw _
  · rename_i hvalid
    have hup : Makes e.Brings (env.upsertAncestors (getParentPath e.path)) := by
      by_cases hroot : getParentPath e.path = []
      · unfold Env.upsertAncestors
        rw [if_pos hroot]
        exact Act.within_pure _
      · exact makes_upsertAncestors fun c hc => .inl (laysUpTo_parent (by simp_all) hc hroot)
    refine Act.within_bind hup fun _ => Act.within_bind ?_ fun _ =>
      Act.within_each fun d hd => makes_attempted (makes_setDeadProperty fun _ hc => .inr (.inr ⟨d, hd, hc⟩))
    have hself : e.path ∈ prefixes slash e.path := mem_prefixes.mpr (.inl rfl)
    unfold Env.writeContent
    split
    · exact Act.within_bind (Act.within_attempt (makes_mkdir (.inl hself))) fun _ =>
        makes_upsertNode (.inl ⟨hself, rfl⟩) fun _ => records_none rfl
    · rename_i hfile
      have hkind : e.isCollection = false := Bool.eq_false_iff.mpr hfile
      refine Act.within_bind (makes_writeFile (.inr (.inl ⟨hkind, rfl⟩))) fun _ =>
        makes_upsertNode (.inr (.inl ⟨hkind, rfl⟩)) fun v tag htag => .inl ?_
      cases hown : e.etag with
      | none =>
        rw [hown] at htag
        exact ⟨e.data.length, env.now, (Option.some.inj htag).symm⟩
      | some own =>
        rw [hown] at htag
        obtain rfl : own = tag := Option.some.inj htag
        exact h own hown

theorem makes_writeEntry (e : VolumeEntry) (h : ∀ tag, e.etag = some tag → IsMinted tag) :
    Makes e.Allows (env.writeEntry e) := by
  refine makes_mono (fun c hc => ?_) (makes_brought e h)
  rcases hc with hlay | ⟨-, hwrite⟩ | hedit
  · exact .inl hlay.makes.creates
  · refine .inl ⟨e.path, mem_prefixes.mpr (.inl rfl), ?_⟩
    cases c with
    | write q => exact hwrite
    | node q row => exact hwrite
    | _ => exact hwrite.elim
  · exact .inr hedit

end Serving

end DurableDav.Dav
