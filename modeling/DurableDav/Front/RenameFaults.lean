import DurableDav.Dav.LockAnchors
import DurableDav.Front.Rename

namespace DurableDav.Front

open Library Dav
open Replication (Bytes isValidInnerPath parentOf)

/-! ### What a move must not lose -/

def Volume.Holds (v : Volume) (q : JsString) (data : Bytes) : Prop :=
  (Store.get v.files q).map Inode.bytes = some (some data)

/-- Each file that can be addressed is in the other object, with its bytes. -/
def KeptIn (v t : Volume) : Prop :=
  ∀ q data, q ≠ [] → isValidInnerPath q = true → Volume.Holds v q data → Volume.Holds t q data

/-- What is so of every object that requests, replications and moves have worked on. -/
structure Volume.Fit (v : Volume) : Prop where
  tree : v.files.WellFormed
  minted : v.AllMinted

/-- The object shows its files when it is listed; what is recorded of them may be missed. -/
def Shows (env : Env) : Prop :=
  (∀ n, env.fails (.listDir [] true) n = none) ∧ ∀ q n, env.fails (.stat q) n = none

/-- A source is purged with an answer that comes back, or not at all. -/
structure MoveEnvs.Safe (E : MoveEnvs) : Prop where
  shows : Shows E.listing
  purged : ∀ reason, E.delivery .purge ≠ .unheard reason

theorem KeptIn.trans {u v t : Volume} (h : KeptIn u v) (h' : KeptIn v t) : KeptIn u t :=
  fun q data hq hvalid hold => h' q data hq hvalid (h q data hq hvalid hold)

theorem KeptIn.refl (v : Volume) : KeptIn v v := fun _ _ _ _ hold => hold

section Changes

variable {v v' : Volume} {effect : Effect} {entry : VolumeEntry} {q : JsString} {data : Bytes}

theorem holds_iff : Volume.Holds v q data ↔ ∃ m, Store.get v.files q = some ⟨some data, m⟩ := by
  unfold Volume.Holds
  rw [Option.map_eq_some_iff]
  constructor
  · rintro ⟨⟨bytes, m⟩, hget, rfl⟩
    exact ⟨m, hget⟩
  · rintro ⟨m, hget⟩
    exact ⟨_, hget, rfl⟩

theorem Volume.Holds.found (h : Volume.Holds v q data) : v.files.found q = true := by
  obtain ⟨m, hget⟩ := holds_iff.mp h
  exact found_iff.mpr (.inr (by rw [hget]; rfl))

theorem holds_put {path : JsString} {i : Inode} (hne : q ≠ path) (h : Volume.Holds v q data) :
    Volume.Holds { v with files := Store.put v.files path i } q data := by
  unfold Volume.Holds
  rw [Store.get_put, if_neg hne]
  exact h

/-- An entry that is written leaves the files at other paths, and its own when it is a collection. -/
theorem change_holds (hc : Change v effect v') (he : entry.Brings effect) (hq : q ≠ entry.path ∨ entry.isCollection = true)
    (h : Volume.Holds v q data) : Volume.Holds v' q data := by
  have hwrite : ∀ path, entry.isCollection = false ∧ path = entry.path → q ≠ path := by
    rintro path ⟨hkind, rfl⟩
    rcases hq with hne | hcollection
    · exact hne
    · rw [hkind] at hcollection
      cases hcollection
  cases hc with
  | make path mtime hfree hparent =>
    apply holds_put _ h
    rintro rfl
    rw [h.found] at hfree
    cases hfree
  | write path bytes mtime hfile hparent =>
    apply holds_put _ h
    rcases he with he | ⟨hkind, he⟩ | ⟨d, -, he⟩
    · exact he.elim
    · exact hwrite path ⟨hkind, he⟩
    · exact he.elim
  | node path row hrow => exact h
  | setProp key row => exact h
  | removeProp key => exact h
  | noted rows => exact h
  | grant uuid row hfree => exact h
  | extend d => exact h
  | release token => exact h
  | unlink path | remove path | rename source target | deleteRows path t | updatePaths source target t =>
    rcases he with he | ⟨-, he⟩ | ⟨d, -, he⟩
    · exact he.elim
    · exact he.elim
    · exact he.elim

/-- Nothing is renamed, and no path with an empty name is made. -/
def Effect.Names : Effect → Prop
  | .make q | .write q => ∀ name ∈ q.splitOn slash, name ≠ []
  | .rename _ _ | .updatePaths _ _ _ => False
  | _ => True

theorem change_fit (hc : Change v effect v') (he : Effect.Names effect) (h : Volume.Fit v) : Volume.Fit v' := by
  refine ⟨fun q hq => ⟨?_, change_rooted hc h.tree.rooted q hq⟩, change_minted hc h.minted⟩
  have hput (path : JsString) (i : Inode) (hnames : ∀ name ∈ path.splitOn slash, name ≠ [])
      (hq : (Store.get (Store.put v.files path i) q).isSome) : ∀ name ∈ q.splitOn slash, name ≠ [] := by
    rw [Store.get_put] at hq
    split at hq
    · rename_i heq
      rw [heq]
      exact hnames
    · exact (h.tree q hq).1
  cases hc with
  | make path mtime => exact hput path _ he hq
  | write path data mtime => exact hput path _ he hq
  | unlink path =>
    rw [Store.get_remove] at hq
    split at hq
    · cases hq
    · exact (h.tree q hq).1
  | remove path =>
    rw [Store.get_removeWhere] at hq
    split at hq
    · cases hq
    · exact (h.tree q hq).1
  | node | setProp | removeProp | grant | extend | release | noted => exact (h.tree q hq).1
  | deleteRows path t =>
    cases t <;> exact (h.tree q hq).1
  | rename | updatePaths => exact he.elim

/-- The root is there already: it is not among what is made on the way. -/
theorem brought_names (hc : Change v effect v') (hvalid : isValidInnerPath entry.path = true) (hroot : entry.path ≠ [])
    (he : entry.Brings effect) : Effect.Names effect := by
  have hself : ∀ name ∈ entry.path.splitOn slash, name ≠ [] := Replication.valid_segments hvalid hroot
  cases hc with
  | make path mtime hfree hparent =>
    have hpath : path ≠ [] := by
      rintro rfl
      cases hfree
    rcases he with he | ⟨-, he⟩ | ⟨d, -, he⟩
    · rcases eq_or_below_of_mem_prefixes he with rfl | hbelow
      · exact hself
      · exact Replication.valid_segments (Replication.valid_above hpath hbelow hvalid) hpath
    · exact he.elim
    · exact he.elim
  | write path data mtime =>
    rcases he with he | ⟨-, he⟩ | ⟨d, -, he⟩
    · exact he.elim
    · exact he ▸ hself
    · exact he.elim
  | unlink | remove | node | setProp | removeProp | grant | extend | release | noted | deleteRows => trivial
  | rename source target | updatePaths source target t =>
    rcases he with he | ⟨-, he⟩ | ⟨d, -, he⟩
    · exact he.elim
    · exact he.elim
    · exact he.elim

end Changes

/-! ### An entry -/

section Entries

variable {env : Env} {v t : Volume} {entry : VolumeEntry} {done : List JsString}

/-- The object is fit, and has the files at these paths. -/
structure Has (v : Volume) (done : List JsString) (t : Volume) : Prop where
  fit : Volume.Fit t
  files : ∀ q ∈ done, ∀ data, q ≠ [] → Volume.Holds v q data → Volume.Holds t q data

theorem writeContent_holds (hkind : entry.isCollection = false) (hmint : ∀ tag, entry.etag = some tag → IsMinted tag)
    {s s' : Session} (hrun : (env.writeContent entry).run s = (.ok (), s')) : Volume.Holds s'.volume entry.path entry.data := by
  unfold Env.writeContent at hrun
  rw [if_neg (by simp [hkind])] at hrun
  obtain ⟨_, s₁, hwrite, hrow⟩ := Act.of_run_bind hrun
  have hwritten : Volume.Holds s₁.volume entry.path entry.data := by
    rcases comes_writeFile env entry.path entry.data s with ⟨e, _, hfails, -⟩ | ⟨_, s₂, hdone, -, hvol⟩
    · rw [hfails] at hwrite
      cases hwrite
    · rw [hdone] at hwrite
      obtain rfl : s₂ = s₁ := congrArg Prod.snd hwrite
      rw [hvol, Volume.Holds, Store.get_put, if_pos rfl]
      rfl
  have hnoted : Makes (fun c => ∃ row, c = .node entry.path row) (env.upsertFileNode entry.path
      (entry.contentType.getD (js "application/octet-stream")) (entry.etag.getD (mintEtag entry.data.length env.now)) env.now) := by
    refine makes_upsertNode ⟨_, rfl⟩ fun w tag htag => .inl ?_
    cases hown : entry.etag with
    | none =>
      rw [hown] at htag
      exact ⟨entry.data.length, env.now, (Option.some.inj htag).symm⟩
    | some own =>
      rw [hown] at htag
      obtain rfl : own = tag := Option.some.inj htag
      exact hmint own hown
  refine leads_keeps (I := fun w => Volume.Holds w entry.path entry.data) ?_ (hnoted.of_run hrow) hwritten
  rintro c w w' ⟨row, rfl⟩ hc hw
  cases hc
  exact hw

theorem meets_writeEntry (hmint : ∀ tag, entry.etag = some tag → IsMinted tag)
    (hbytes : ∀ data, Volume.Holds v entry.path data → entry.isCollection = false ∧ entry.data = data) :
    Act.Meets (fun s => Has v done s.volume) (env.writeEntry entry) (fun _ s => Has v (entry.path :: done) s.volume)
      (fun s => Volume.Fit s.volume) := by
  intro s hs
  by_cases hpath : !isValidInnerPath entry.path ∨ entry.path = []
  · unfold Env.writeEntry
    rw [if_pos hpath]
    exact hs.fit
  have hvalid : isValidInnerPath entry.path = true := by simpa using (not_or.mp hpath).1
  have hroot : entry.path ≠ [] := (not_or.mp hpath).2
  have hmade : Makes entry.Brings (env.writeEntry entry) := makes_brought entry hmint
  have hfit : Volume.Fit ((env.writeEntry entry).run s).2.volume := leads_keeps (I := Volume.Fit)
    (fun c w w' he hc hw => change_fit hc (brought_names hc hvalid hroot he) hw) (hmade s) hs.fit
  have hkept (q : JsString) (data : Bytes) (hq : q ≠ entry.path ∨ entry.isCollection = true)
      (h : Volume.Holds s.volume q data) : Volume.Holds ((env.writeEntry entry).run s).2.volume q data :=
    leads_keeps (I := fun w => Volume.Holds w q data) (fun c w w' he hc hw => change_holds hc he hq hw) (hmade s) h
  cases hrun : (env.writeEntry entry).run s with
  | mk r s' =>
    rw [hrun] at hfit hkept
    cases r with
    | error e => exact hfit
    | ok u =>
      refine ⟨hfit, fun q hq data hne hold => ?_⟩
      by_cases hself : q = entry.path
      · rw [hself] at hold ⊢
        obtain ⟨hkind, rfl⟩ := hbytes data hold
        unfold Env.writeEntry at hrun
        rw [if_neg hpath] at hrun
        obtain ⟨_, s₁, -, hrun⟩ := Act.of_run_bind hrun
        obtain ⟨_, s₂, hcontent, hprops⟩ := Act.of_run_bind hrun
        have hholds := writeContent_holds hkind hmint hcontent
        have hlater : Makes (fun c => ∃ key, c.EditsKey key) (Act.each (fun p => do
            let _ ← (env.setDeadProperty entry.path p).attempt
            pure ()) entry.props) :=
          Act.within_each fun d _ => makes_attempted (makes_setDeadProperty fun _ hc => ⟨_, hc⟩)
        refine leads_keeps (I := fun w => Volume.Holds w entry.path entry.data) ?_ (hlater.of_run hprops) hholds
        rintro c w w' ⟨key, he⟩ hc hw
        cases hc with
        | setProp | removeProp => exact hw
        | _ => exact he.elim
      · exact hkept q data (.inl hself) (hs.files q ((List.mem_cons.mp hq).resolve_left hself) data hne hold)

end Entries

/-! ### What is listed and read of the source -/

section Source

variable {env : Env} {v : Volume} {q : JsString}

/-- What an entry says of a path is so, as far as it says anything. -/
structure Tells (v : Volume) (e : ListedEntry) : Prop where
  held : ∃ inode, Store.get v.files e.path = some inode ∧ e.isCollection = inode.bytes.isNone
  etag : ∀ tag, e.etag = some tag → IsMinted tag

def Listed (v : Volume) (names : List JsString) (es : List ListedEntry) : Prop :=
  (∀ e ∈ es, Tells v e) ∧ ∀ q ∈ names, isValidInnerPath q = true → (Store.get v.files q).isSome → ∃ e ∈ es, e.path = q

theorem meets_same {α : Type} {x : Serve α} (hx : Makes (fun _ => False) x) :
    Act.Meets (fun s => s.volume = v) x (fun _ s => s.volume = v) (fun s => s.volume = v) :=
  quiet_meets (P := fun w => w = v) hx

theorem meets_statInner (h : Shows env) : Act.Meets (fun s => s.volume = v) (env.statInner q)
    (fun st s => st = (v.files.stat q).getD missingStat ∧ s.volume = v) (fun s => s.volume = v) := by
  rintro s rfl
  unfold Env.statInner Env.stat
  rw [Act.run_bind, Act.run_attempt, run_call, h.2]
  dsimp only
  rw [Act.run_bind, Act.run_read]
  dsimp only [Session.record]
  cases s.volume.files.stat q with
  | none => exact ⟨rfl, rfl⟩
  | some st => exact ⟨rfl, rfl⟩

theorem meets_readMeta : Act.Meets (fun s => s.volume = v) (env.readMeta q)
    (fun row s => (∀ r, row = some r → Store.get v.nodes q = some r) ∧ s.volume = v) (fun s => s.volume = v) := by
  rintro s rfl
  unfold Env.readMeta Env.exec
  rw [Act.run_bind, Act.run_attempt, run_call]
  cases env.fails (.exec (.selectNode q)) (s.calls.count (.exec (.selectNode q))) with
  | some e => exact ⟨nofun, rfl⟩
  | none => exact ⟨fun _ hr => hr, rfl⟩

theorem meets_listEntry (hfit : Volume.Fit v) (h : Shows env) (hroot : q ≠ []) :
    Act.Meets (fun s => s.volume = v) (env.listEntry q) (fun r s => ((∀ e, r = some e → e.path = q ∧ Tells v e) ∧
      (r = none → isValidInnerPath q = true → Store.get v.files q = none)) ∧ s.volume = v) (fun s => s.volume = v) := by
  unfold Env.listEntry
  cases hvalid : isValidInnerPath q with
  | false => exact Act.meets_pure fun s hs => ⟨⟨fun e he => (by cases he), fun _ hq => (by cases hq)⟩, hs⟩
  | true =>
    simp only [Bool.not_true, Bool.false_eq_true, ↓reduceIte]
    refine Act.meets_bind (meets_statInner h) fun st => ?_
    rw [Files.stat, if_neg hroot]
    cases hget : Store.get v.files q with
    | none =>
      rintro s ⟨rfl, hs⟩
      exact ⟨⟨fun e he => (by cases he), fun _ _ => rfl⟩, hs⟩
    | some inode =>
      rintro s ⟨rfl, hs⟩
      refine Act.meets_bind meets_readMeta (fun row => ?_) s hs
      refine Act.meets_bind_of_run (R := fun s => s.volume = v) ?_ fun props s₁ s₂ hrow _ => ?_
      · exact (meets_same (Act.within_attempt makes_getDeadProperties)).weaken (fun _ h => h.2) (fun _ _ h => h) (fun _ h => h)
      · refine Act.meets_pure fun s₃ hs₃ => ⟨⟨?_, fun he => by cases he⟩, hs₃⟩
        rintro e ⟨⟩
        refine ⟨rfl, ⟨inode, hget, rfl⟩, fun tag htag => ?_⟩
        obtain ⟨r, rfl, hetag⟩ := Option.bind_eq_some_iff.mp htag
        exact hfit.minted q r tag (hrow.1 r rfl) hetag

theorem meets_listEach (hfit : Volume.Fit v) (h : Shows env) (names : List JsString)
    (hnames : ∀ q ∈ names, q ≠ [] ∧ Env.childInner [] q = q) :
    Act.Meets (fun s => s.volume = v) (env.listEach names) (fun es s => Listed v names es ∧ s.volume = v)
      (fun s => s.volume = v) := by
  induction names with
  | nil => exact Act.meets_pure fun s hs => ⟨⟨by simp, by simp⟩, hs⟩
  | cons name rest ih =>
    obtain ⟨hroot, hname⟩ := hnames name (by simp)
    unfold Env.listEach
    rw [hname]
    refine Act.meets_bind (meets_listEntry hfit h hroot) fun r => ?_
    rintro s ⟨⟨htells, hnone⟩, hs⟩
    refine Act.meets_bind (ih fun q hq => hnames q (by simp [hq])) (fun es => ?_) s hs
    refine Act.meets_pure ?_
    rintro s' ⟨⟨hes, hall⟩, hs'⟩
    refine ⟨⟨fun e he => ?_, fun q hq hvalid hsome => ?_⟩, hs'⟩
    · rcases List.mem_append.mp he with he | he
      · exact (htells e (by simpa using he)).2
      · exact hes e he
    · rcases List.mem_cons.mp hq with rfl | hq
      · cases hr : r with
        | none =>
          rw [hnone hr hvalid] at hsome
          cases hsome
        | some e => exact ⟨e, by simp, (htells e hr).1⟩
      · obtain ⟨e, he, hpath⟩ := hall q hq hvalid hsome
        exact ⟨e, by simp [he], hpath⟩

theorem meets_listVolumeEntries (hfit : Volume.Fit v) (h : Shows env) : Act.Meets (fun s => s.volume = v)
    env.listVolumeEntries (fun es s => Listed v (v.files.below []) es ∧ s.volume = v) (fun s => s.volume = v) := by
  have hnames : Act.Meets (fun s => s.volume = v) (env.listRecursive [])
      (fun names s => names = v.files.below [] ∧ s.volume = v) (fun s => s.volume = v) := by
    rintro s rfl
    unfold Env.listRecursive Env.listDir
    rw [Act.run_bind, Act.run_attempt, run_call, h.1]
    dsimp only
    rw [Act.run_bind, Act.run_read]
    refine ⟨?_, rfl⟩
    conv_rhs => rw [← List.map_id (s.volume.files.below [])]
    exact List.map_congr_left fun q _ => if_pos rfl
  refine Act.meets_bind hnames fun names => ?_
  rintro s ⟨rfl, hs⟩
  refine meets_listEach hfit h _ (fun q hq => ?_) s hs
  obtain ⟨hget, hbelow⟩ := mem_below.mp hq
  exact ⟨hbelow.ne_nil, childInner_root (hfit.tree q hget).1⟩

/-- What is read of a file are its bytes. -/
theorem meets_readVolumeFile : Act.Meets (fun s => s.volume = v) (env.readVolumeFile q)
    (fun file s => (∀ f, file = some f → Volume.Holds v q f.1) ∧ s.volume = v) (fun s => s.volume = v) := by
  unfold Env.readVolumeFile
  split
  · exact Act.meets_pure fun s hs => ⟨nofun, hs⟩
  · refine Act.meets_bind (meets_same makes_statInner) fun st => ?_
    split
    · exact Act.meets_pure fun s hs => ⟨nofun, hs⟩
    · have hread : Act.Meets (fun s => s.volume = v) (env.read q).attempt
          (fun r s => (∀ data, r = .ok data → Volume.Holds v q data) ∧ s.volume = v) (fun s => s.volume = v) := by
        rintro s rfl
        unfold Env.read
        rw [Act.run_attempt, run_call]
        cases env.fails (.read q) (s.calls.count (.read q)) with
        | some e => exact ⟨nofun, rfl⟩
        | none =>
          dsimp only
          rw [Act.run_bind, Act.run_read]
          dsimp only [Session.record]
          cases hget : Store.get s.volume.files q with
          | none => exact ⟨nofun, rfl⟩
          | some inode =>
            obtain ⟨bytes, m⟩ := inode
            cases bytes with
            | none => exact ⟨nofun, rfl⟩
            | some data =>
              refine ⟨?_, rfl⟩
              rintro _ ⟨⟩
              exact holds_iff.mpr ⟨m, hget⟩
      refine Act.meets_bind hread fun r => ?_
      cases r with
      | error e => exact Act.meets_pure fun s hs => ⟨nofun, hs.2⟩
      | ok data =>
        rintro s ⟨hholds, hs⟩
        refine Act.meets_bind (meets_same makes_readMeta) (fun row => ?_) s hs
        refine Act.meets_pure fun s' hs' => ⟨?_, hs'⟩
        rintro _ ⟨⟩
        exact hholds data rfl

end Source

/-! ### A move -/

section Move

variable {E : MoveEnvs} {v : Volume} {done : List JsString}

theorem meets_rpc {α : Type} {P : Moving → Prop} {Q : α → Moving → Prop} {F : Moving → Prop} {x : Transfer α} {d : Delivery}
    (h : Act.Meets P x Q F) (hP : ∀ m, P m → F m) (hQ : ∀ reason, d = .unheard reason → ∀ a m, Q a m → F m) :
    Act.Meets P (d.rpc x) Q F := by
  cases d with
  | heard => exact h
  | dropped reason => exact Act.meets_throw hP
  | unheard reason =>
    refine Act.meets_bind (R := fun _ => F) ?_ fun _ => Act.meets_throw fun _ hm => hm
    intro m hm
    exact (h.weaken (fun _ h => h) (hQ reason rfl) (fun _ h => h)).after hm

theorem meets_onSource {α : Type} {P R : Volume → Prop} {Q : α → Volume → Prop} {T : Volume → Prop} {x : Serve α}
    (h : Act.Meets (fun s => P s.volume) x (fun a s => Q a s.volume) (fun s => R s.volume)) :
    Act.Meets (fun m => P m.source ∧ T m.target) (onSource x) (fun a m => Q a m.source ∧ T m.target)
      (fun m => R m.source ∧ T m.target) := by
  intro m hm
  have hx := h ⟨m.source, []⟩ hm.1
  change Act.Ends _ _ ((x.run ⟨m.source, []⟩).1, { m with source := (x.run ⟨m.source, []⟩).2.volume })
  cases hrun : x.run ⟨m.source, []⟩ with
  | mk r s =>
    rw [hrun] at hx
    cases r with
    | error e => exact ⟨hx, hm.2⟩
    | ok a => exact ⟨hx, hm.2⟩

theorem meets_onTarget {α : Type} {P R : Volume → Prop} {Q : α → Volume → Prop} {T : Volume → Prop} {x : Serve α}
    (h : Act.Meets (fun s => P s.volume) x (fun a s => Q a s.volume) (fun s => R s.volume)) :
    Act.Meets (fun m => T m.source ∧ P m.target) (onTarget x) (fun a m => T m.source ∧ Q a m.target)
      (fun m => T m.source ∧ R m.target) := by
  intro m hm
  have hx := h ⟨m.target, []⟩ hm.2
  change Act.Ends _ _ ((x.run ⟨m.target, []⟩).1, { m with target := (x.run ⟨m.target, []⟩).2.volume })
  cases hrun : x.run ⟨m.target, []⟩ with
  | mk r s =>
    rw [hrun] at hx
    cases r with
    | error e => exact ⟨hm.1, hx⟩
    | ok a => exact ⟨hm.1, hx⟩

/-- The source is as it was, and the target fit. -/
def Untouched (v : Volume) (m : Moving) : Prop := m.source = v ∧ Volume.Fit m.target

theorem meets_moveEntry {e : ListedEntry} (he : Tells v e) :
    Act.Meets (fun m => m.source = v ∧ Has v done m.target) (moveEntry E e)
      (fun _ m => m.source = v ∧ Has v (e.path :: done) m.target) (Untouched v) := by
  obtain ⟨inode, hget, hkind⟩ := he.held
  unfold moveEntry
  split
  · rename_i hroot
    refine Act.meets_pure fun m hm => ⟨hm.1, hm.2.fit, fun q hq data hne hold => ?_⟩
    exact hm.2.files q ((List.mem_cons.mp hq).resolve_left (fun he => hne (he.trans hroot))) data hne hold
  · split
    · rename_i hcollection
      refine meets_rpc (meets_onTarget (T := fun w => w = v) (meets_writeEntry nofun fun data hold => ?_))
        (fun m hm => ⟨hm.1, hm.2.fit⟩) (fun _ _ _ m hm => ⟨hm.1, hm.2.fit⟩)
      obtain ⟨m, hfile⟩ := holds_iff.mp hold
      rw [hfile] at hget
      rw [← Option.some.inj hget, hcollection] at hkind
      cases hkind
    · have hread : Act.Meets (fun m => m.source = v ∧ Has v done m.target)
          ((E.delivery (.read e.path)).rpc (onSource ((E.reading e.path).readVolumeFile e.path)))
          (fun file m => ((∀ f, file = some f → Volume.Holds v e.path f.1) ∧ m.source = v) ∧ Has v done m.target)
          (Untouched v) := by
        refine meets_rpc ?_ (fun m hm => ⟨hm.1, hm.2.fit⟩) (fun _ _ _ m hm => ⟨hm.1.2, hm.2.fit⟩)
        exact (meets_onSource (P := fun w => w = v) (R := fun w => w = v) (T := Has v done)
          (Q := fun file w => (∀ f, file = some f → Volume.Holds v e.path f.1) ∧ w = v) meets_readVolumeFile).weaken
          (fun _ h => h) (fun _ _ h => h) (fun _ h => ⟨h.1, h.2.fit⟩)
      refine Act.meets_bind hread fun file => ?_
      cases file with
      | none => exact Act.meets_throw fun m hm => ⟨hm.1.2, hm.2.fit⟩
      | some file =>
        intro m hm
        have hbytes := hm.1.1 file rfl
        refine meets_rpc (meets_onTarget (T := fun w => w = v) (meets_writeEntry he.etag fun data hold => ⟨rfl, ?_⟩))
          (fun m hm => ⟨hm.1, hm.2.fit⟩) (fun _ _ _ m hm => ⟨hm.1, hm.2.fit⟩) m ⟨hm.1.2, hm.2⟩
        unfold Volume.Holds at hbytes hold
        rw [hbytes] at hold
        exact Option.some.inj (Option.some.inj hold)

theorem meets_moveEach (entries : List ListedEntry) (htells : ∀ e ∈ entries, Tells v e) :
    Act.Meets (fun m => m.source = v ∧ Has v done m.target) (Act.each (moveEntry E) entries)
      (fun _ m => m.source = v ∧ Has v ((entries.map ListedEntry.path).reverse ++ done) m.target) (Untouched v) := by
  induction entries generalizing done with
  | nil => exact Act.meets_pure fun m hm => hm
  | cons e rest ih =>
    refine Act.meets_bind (meets_moveEntry (htells e (by simp))) fun _ => ?_
    refine (@ih (e.path :: done) fun e' he' => htells e' (by simp [he'])).weaken (fun _ h => h) (fun _ m h => ?_) (fun _ h => h)
    rw [List.map_cons, List.reverse_cons, List.append_assoc]
    exact h

/-- An object is fit after it has been emptied, as far as that went. -/
theorem meets_deleteVolume {env : Env} :
    Act.Meets (fun s => Volume.Fit s.volume) (deleteVolume env) (fun _ s => Volume.Fit s.volume) (fun _ => False) := by
  have hfiles : Act.Meets (fun s => Volume.Fit s.volume) (env.rmdir []) (fun _ s => Volume.Fit s.volume)
      (fun s => Volume.Fit s.volume) := by
    refine (makes_rmdir (L := fun c => c = .remove []) rfl).meets fun s s' hs hlead => ?_
    refine leads_keeps (I := Volume.Fit) ?_ hlead hs
    rintro c w w' rfl hc hw
    exact change_fit hc trivial hw
  have htables : Act.Meets (fun s => Volume.Fit s.volume) (clearTables env) (fun _ s => Volume.Fit s.volume)
      (fun s => Volume.Fit s.volume) := by
    have heach : Act.Within (fun s s' => Volume.Fit s.volume → Volume.Fit s'.volume) (clearTables env) := by
      have : IsPreorder Session (fun s s' => Volume.Fit s.volume → Volume.Fit s'.volume) :=
        { refl := fun _ h => h, trans := fun _ _ _ h h' hs => h' (h hs) }
      refine Act.within_each fun t _ s hs => ?_
      rw [Env.exec, run_call]
      cases env.fails (.exec (.deleteRows t [])) (s.calls.count (.exec (.deleteRows t []))) with
      | some e => exact hs
      | none =>
        cases t with
        | davNodes => exact ⟨hs.tree, fun q row e hget => by cases hget⟩
        | davProps | davLocks | davReplicaState => exact ⟨hs.tree, hs.minted⟩
    exact heach.meets fun _ _ hs h => h hs
  unfold deleteVolume
  refine Act.meets_bind (Act.meets_attempt hfiles) fun r => ?_
  refine Act.meets_bind (R := fun _ s => Volume.Fit s.volume) ?_ fun _ => Act.meets_pure fun _ h => h
  refine (Act.meets_attempt htables).weaken (fun s hs => ?_) (fun r s hs => ?_) (fun _ h => h)
  · cases r <;> exact hs
  · cases r <;> exact hs

/-- Whatever fails, the files are where they were, unless they have all arrived. -/
theorem meets_moveOneVolume (hE : E.Safe) (hv : Volume.Fit v) :
    Act.Meets (Untouched v) (moveOneVolume E)
      (fun _ m => Volume.Fit m.source ∧ Volume.Fit m.target ∧ KeptIn v m.target) (Untouched v) := by
  have hlist : Act.Meets (Untouched v) ((E.delivery .list).rpc (onSource E.listing.listVolumeEntries))
      (fun es m => (Listed v (v.files.below []) es ∧ m.source = v) ∧ Volume.Fit m.target) (Untouched v) :=
    meets_rpc (meets_onSource (P := fun w => w = v) (R := fun w => w = v) (T := Volume.Fit)
      (Q := fun es w => Listed v (v.files.below []) es ∧ w = v) (meets_listVolumeEntries hv hE.shows)) (fun _ h => h)
      (fun _ _ _ _ h => ⟨h.1.2, h.2⟩)
  have hpurge (done : List JsString) : Act.Meets (fun m => m.source = v ∧ Has v done m.target)
      ((E.delivery .purge).rpc (onSource (deleteVolume E.purging)))
      (fun _ m => Volume.Fit m.source ∧ Has v done m.target) (Untouched v) := by
    refine meets_rpc ?_ (fun m hm => ⟨hm.1, hm.2.fit⟩) fun reason hlost => absurd hlost (hE.purged reason)
    refine (meets_onSource (P := Volume.Fit) (R := fun _ => False) (T := Has v done) meets_deleteVolume).weaken
      (fun m hm => ?_) (fun _ _ h => h) (fun _ h => h.1.elim)
    rw [hm.1]
    exact ⟨hv, hm.2⟩
  have hundo : Act.Meets (Untouched v) ((E.delivery .undo).rpc (onTarget (deleteVolume E.undoing))).attempt
      (fun _ => Untouched v) (Untouched v) := by
    have hcall : Act.Meets (Untouched v) ((E.delivery .undo).rpc (onTarget (deleteVolume E.undoing)))
        (fun _ => Untouched v) (Untouched v) := by
      refine meets_rpc ?_ (fun _ h => h) (fun _ _ _ _ h => h)
      exact (meets_onTarget (P := Volume.Fit) (R := fun _ => False) (T := fun w => w = v) meets_deleteVolume).weaken
        (fun _ h => h) (fun _ _ h => h) (fun _ h => h.2.elim)
    refine (Act.meets_attempt hcall).weaken (fun _ h => h) (fun r m hm => ?_) (fun _ h => h.elim)
    cases r <;> exact hm
  unfold moveOneVolume
  refine Act.meets_bind hlist fun es => ?_
  rintro m ⟨⟨⟨htells, hall⟩, hsource⟩, hfit⟩
  have hsorted : ∀ e ∈ es.insertionSort Precedes, Tells v e :=
    fun e he => htells e ((List.perm_insertionSort Precedes es).mem_iff.mp he)
  have hentries : Act.Meets (fun m => m.source = v ∧ Has v [] m.target) (moveEntries E es)
      (fun _ m => Volume.Fit m.source ∧ Has v (((es.insertionSort Precedes).map ListedEntry.path).reverse ++ []) m.target)
      (Untouched v) := by
    unfold moveEntries
    exact Act.meets_bind (meets_moveEach _ hsorted) fun _ => hpurge _
  refine Act.meets_bind (Act.meets_attempt hentries |>.weaken (fun _ h => h) (fun _ _ h => h) (fun _ h => h.elim)) (fun r => ?_)
    m ⟨hsource, hfit, by simp⟩
  cases r with
  | error e => exact Act.meets_bind hundo fun _ => Act.meets_throw fun _ h => h
  | ok u =>
    refine Act.meets_pure ?_
    rintro m' ⟨hfit', hhas⟩
    refine ⟨hfit', hhas.fit, fun q data hroot hvalid hold => ?_⟩
    obtain ⟨t, hget⟩ := holds_iff.mp hold
    have hsome : (Store.get v.files q).isSome := by rw [hget]; rfl
    obtain ⟨e, he, rfl⟩ := hall q (mem_below.mpr ⟨hsome, below_root.mpr hroot⟩) hvalid hsome
    refine hhas.files e.path ?_ data hroot hold
    rw [List.append_nil, List.mem_reverse, List.mem_map]
    exact ⟨e, (List.perm_insertionSort Precedes es).mem_iff.mpr he, rfl⟩

end Move

/-! ### All the volumes of an owner -/

/-- The files of a volume are all where it was, or all where it is moved to. -/
def Stands (C : Casing) (old new : JsString) (v : Volume) (objects : Objects) (name : JsString) : Prop :=
  KeptIn v (objects (normalizeVolumeKey C old name)) ∨ KeptIn v (objects (normalizeVolumeKey C new name))

structure RenameEnvs.Safe (envs : RenameEnvs) : Prop where
  there : ∀ name, (envs.there name).Safe
  back : ∀ name, (envs.back name).Safe

section Volumes

variable {C : Casing} {envs : RenameEnvs} {old new name : JsString} {objects : Objects}

/-- Between two objects: all others stay, and at an error so do the files of the one they lie in. -/
theorem moveBetween_ends {E : MoveEnvs} (hE : E.Safe) (hkeys : normalizeVolumeKey C old name ≠ normalizeVolumeKey C new name)
    (hfit : ∀ k, Volume.Fit (objects k)) : ∃ r after, (moveBetween C E old new name).run objects = (r, after) ∧
      (∀ k, Volume.Fit (after k)) ∧
      (∀ k, k ≠ normalizeVolumeKey C old name → k ≠ normalizeVolumeKey C new name → after k = objects k) ∧
      (∀ empty, r = .ok empty → KeptIn (objects (normalizeVolumeKey C old name)) (after (normalizeVolumeKey C new name))) ∧
      ∀ e, r = .error e → after (normalizeVolumeKey C old name) = objects (normalizeVolumeKey C old name) := by
  have hmove := meets_moveOneVolume hE (hfit (normalizeVolumeKey C old name))
    ⟨objects (normalizeVolumeKey C old name), objects (normalizeVolumeKey C new name)⟩ ⟨rfl, hfit _⟩
  unfold moveBetween
  cases hrun : (moveOneVolume E).run ⟨objects (normalizeVolumeKey C old name), objects (normalizeVolumeKey C new name)⟩ with
  | mk r m =>
    rw [hrun] at hmove
    dsimp only
    rw [hrun]
    have hother (k : JsString) (hold : k ≠ normalizeVolumeKey C old name) (hnew : k ≠ normalizeVolumeKey C new name) :
        Function.update (Function.update objects (normalizeVolumeKey C old name) m.source) (normalizeVolumeKey C new name)
          m.target k = objects k := by
      rw [Function.update_of_ne hnew, Function.update_of_ne hold]
    have hall (hsource : Volume.Fit m.source) (htarget : Volume.Fit m.target) (k : JsString) :
        Volume.Fit (Function.update (Function.update objects (normalizeVolumeKey C old name) m.source)
          (normalizeVolumeKey C new name) m.target k) := by
      by_cases hnew : k = normalizeVolumeKey C new name
      · rw [hnew, Function.update_self]
        exact htarget
      · by_cases hold : k = normalizeVolumeKey C old name
        · rw [Function.update_of_ne hnew, hold, Function.update_self]
          exact hsource
        · rw [hother k hold hnew]
          exact hfit k
    refine ⟨r, _, rfl, ?_, hother, ?_, ?_⟩
    · cases r with
      | ok empty => exact hall hmove.1 hmove.2.1
      | error e =>
        apply hall _ hmove.2
        rw [hmove.1]
        exact hfit _
    · rintro empty rfl
      rw [Function.update_self]
      exact hmove.2.2
    · rintro e rfl
      rw [Function.update_of_ne hkeys, Function.update_self]
      exact hmove.1

/-- A volume that is moved back is back, or has stayed where it was moved to. -/
theorem moveBack_run (hsafe : envs.Safe) (hkeys : normalizeVolumeKey C old name ≠ normalizeVolumeKey C new name)
    (hfit : ∀ k, Volume.Fit (objects k)) {v : Volume} (h : KeptIn v (objects (normalizeVolumeKey C new name))) :
    ∃ after, (moveBack C envs ⟨old, new, name⟩).run objects = (.ok (), after) ∧ (∀ k, Volume.Fit (after k)) ∧
      Stands C old new v after name ∧
      ∀ k, k ≠ normalizeVolumeKey C old name → k ≠ normalizeVolumeKey C new name → after k = objects k := by
  obtain ⟨r, after, hrun, hall, hother, hok, herror⟩ := moveBetween_ends (hsafe.back name) (Ne.symm hkeys) hfit
  refine ⟨after, ?_, hall, ?_, fun k hold hnew => hother k hnew hold⟩
  · unfold moveBack
    have hattempt : (moveBetween C (envs.back name) new old name).attempt.run objects = (.ok r, after) := by
      rw [Act.run_attempt, hrun]
    rw [Act.run_bind_ok hattempt]
    rfl
  · cases r with
    | ok empty => exact .inl (h.trans (hok empty rfl))
    | error e =>
      right
      rw [herror e rfl]
      exact h

variable (hold : isValidUsername old = true) (hnew : isValidUsername new = true)
  (hne : C.toLowerCase old ≠ C.toLowerCase new)

include hold hnew hne

theorem moveBacks_run (hsafe : envs.Safe) (names : List JsString) (hdistinct : (names.map C.toLowerCase).Nodup)
    (hfit : ∀ k, Volume.Fit (objects k)) {u : JsString → Volume}
    (h : ∀ n ∈ names, KeptIn (u n) (objects (normalizeVolumeKey C new n))) : ∃ after,
    (Act.each (moveBack C envs) (names.map (VolumeMoveItem.mk old new))).run objects = (.ok (), after) ∧
      (∀ k, Volume.Fit (after k)) ∧ (∀ n ∈ names, Stands C old new (u n) after n) ∧
      ∀ k, (∀ n ∈ names, k ≠ normalizeVolumeKey C old n ∧ k ≠ normalizeVolumeKey C new n) → after k = objects k := by
  induction names generalizing objects with
  | nil => exact ⟨objects, rfl, hfit, by simp, fun _ _ => rfl⟩
  | cons name rest ih =>
    rw [List.map_cons, List.nodup_cons] at hdistinct
    have hapart : ∀ n ∈ rest, C.toLowerCase n ≠ C.toLowerCase name := fun n hn heq =>
      hdistinct.1 (List.mem_map.mpr ⟨n, hn, heq⟩)
    obtain ⟨mid, hrun, hmid, hstands, hother⟩ := moveBack_run hsafe (key_ne hold hnew hne) hfit (h name (by simp))
    have hlater : ∀ n ∈ rest, KeptIn (u n) (mid (normalizeVolumeKey C new n)) := by
      intro n hn
      rw [hother _ (key_ne hnew hold (Ne.symm hne)) (key_name_ne hnew (hapart n hn))]
      exact h n (by simp [hn])
    obtain ⟨after, hrest, hafter, hall, hframe⟩ := ih hdistinct.2 hmid hlater
    refine ⟨after, ?_, hafter, fun n hn => ?_, fun k hk => ?_⟩
    · rw [List.map_cons, Act.each_cons, Act.run_bind_ok hrun]
      exact hrest
    · rcases List.mem_cons.mp hn with rfl | hn
      · unfold Stands
        rw [hframe _ fun n' hn' => ⟨key_name_ne hold (Ne.symm (hapart n' hn')), key_ne hold hnew hne⟩,
          hframe _ fun n' hn' => ⟨key_ne hnew hold (Ne.symm hne), key_name_ne hnew (Ne.symm (hapart n' hn'))⟩]
        exact hstands
      · exact hall n hn
    · obtain ⟨h₁, h₂⟩ := hk name (by simp)
      rw [hframe k fun n hn => hk n (by simp [hn]), hother k h₁ h₂]

/-- Those moved so far are at the new handle, the others at the old one. -/
theorem moveVolumes_kept (hsafe : envs.Safe) (names completed : List JsString)
    (hdistinct : ((completed ++ names).map C.toLowerCase).Nodup) (hfit : ∀ k, Volume.Fit (objects k)) {u : JsString → Volume}
    (hdone : ∀ n ∈ completed, KeptIn (u n) (objects (normalizeVolumeKey C new n)))
    (hleft : ∀ n ∈ names, KeptIn (u n) (objects (normalizeVolumeKey C old n))) : ∃ r after,
    (moveVolumeDosForRename C envs (names.map (VolumeMoveItem.mk old new)) (completed.map (VolumeMoveItem.mk old new))).run
        objects = (r, after) ∧
      (∀ n, n ∈ completed ∨ n ∈ names → Stands C old new (u n) after n) ∧
      (r = .ok () → ∀ n, n ∈ completed ∨ n ∈ names → KeptIn (u n) (after (normalizeVolumeKey C new n))) ∧
      ∀ k, (∀ n, n ∈ completed ∨ n ∈ names → k ≠ normalizeVolumeKey C old n ∧ k ≠ normalizeVolumeKey C new n) →
        after k = objects k := by
  induction names generalizing objects completed with
  | nil =>
    refine ⟨.ok (), objects, rfl, fun n hn => ?_, fun _ n hn => ?_, fun _ _ => rfl⟩
    · exact .inr (hdone n (by simpa using hn))
    · exact hdone n (by simpa using hn)
  | cons name rest ih =>
    have hkeys : normalizeVolumeKey C old name ≠ normalizeVolumeKey C new name := key_ne hold hnew hne
    obtain ⟨r, mid, hrun, hmid, hother, hok, herror⟩ := moveBetween_ends (hsafe.there name) hkeys hfit
    have hperm : ((name :: completed) ++ rest).Perm (completed ++ name :: rest) := List.perm_middle.symm
    have hdistinct' : (((name :: completed) ++ rest).map C.toLowerCase).Nodup := (hperm.map _).nodup_iff.mpr hdistinct
    have hapart : ∀ n, n ∈ completed ∨ n ∈ rest → C.toLowerCase n ≠ C.toLowerCase name := by
      intro n hn heq
      rw [List.cons_append, List.map_cons, List.nodup_cons] at hdistinct'
      exact hdistinct'.1 (List.mem_map.mpr ⟨n, List.mem_append.mpr hn, heq⟩)
    have hattempt : (moveBetween C (envs.there name) old new name).attempt.run objects = (.ok r, mid) := by
      rw [Act.run_attempt, hrun]
    rw [List.map_cons, moveVolumeDosForRename, if_neg (fun heq => hne (congrArg _ heq)), Act.run_bind_ok hattempt]
    have hkeptOld : ∀ n, n ∈ completed ∨ n ∈ rest → mid (normalizeVolumeKey C old n) = objects (normalizeVolumeKey C old n) :=
      fun n hn => hother _ (key_name_ne hold (hapart n hn)) (key_ne hold hnew hne)
    have hkeptNew : ∀ n, n ∈ completed ∨ n ∈ rest → mid (normalizeVolumeKey C new n) = objects (normalizeVolumeKey C new n) :=
      fun n hn => hother _ (key_ne hnew hold (Ne.symm hne)) (key_name_ne hnew (hapart n hn))
    cases r with
    | ok empty =>
      obtain ⟨r, after, hrest, hstands, hall, hframe⟩ := ih (name :: completed) hdistinct' hmid
        (fun n hn => by
          rcases List.mem_cons.mp hn with rfl | hn
          · exact (hleft n (by simp)).trans (hok empty rfl)
          · rw [hkeptNew n (.inl hn)]
            exact hdone n hn)
        (fun n hn => by
          rw [hkeptOld n (.inr hn)]
          exact hleft n (by simp [hn]))
      have hmem : ∀ n, n ∈ completed ∨ n ∈ name :: rest → n ∈ name :: completed ∨ n ∈ rest := by
        intro n hn
        simp only [List.mem_cons] at hn ⊢
        tauto
      refine ⟨r, after, hrest, fun n hn => hstands n (hmem n hn), fun hr n hn => hall hr n (hmem n hn), fun k hk => ?_⟩
      obtain ⟨h₁, h₂⟩ := hk name (by simp)
      rw [hframe k fun n hn => hk n (by simp only [List.mem_cons] at hn ⊢; tauto), hother k h₁ h₂]
    | error e =>
      have hdone' : ∀ n ∈ completed, KeptIn (u n) (mid (normalizeVolumeKey C new n)) := fun n hn => by
        rw [hkeptNew n (.inl hn)]
        exact hdone n hn
      obtain ⟨after, hback, hafter, hstands, hframe⟩ := moveBacks_run hold hnew hne hsafe completed
        (hdistinct.sublist ((List.sublist_append_left completed (name :: rest)).map _)) hmid hdone'
      refine ⟨.error e, after, ?_, fun n hn => ?_, fun hr => (by cases hr), fun k hk => ?_⟩
      · dsimp only
        rw [Act.run_bind_ok hback]
        rfl
      · have hstays (hn : n ∈ name :: rest) : after (normalizeVolumeKey C old n) = mid (normalizeVolumeKey C old n) := by
          apply hframe
          intro n' hn'
          refine ⟨key_name_ne hold fun heq => ?_, key_ne hold hnew hne⟩
          rw [List.map_append, List.nodup_append] at hdistinct
          exact hdistinct.2.2 _ (List.mem_map.mpr ⟨n', hn', rfl⟩) _ (List.mem_map.mpr ⟨n, hn, rfl⟩) heq.symm
        rcases hn with hn | hn
        · exact hstands n hn
        · left
          rw [hstays hn]
          rcases List.mem_cons.mp hn with rfl | hin
          · rw [herror e rfl]
            exact hleft n hn
          · rw [hkeptOld n (.inr hin)]
            exact hleft n hn
      · obtain ⟨h₁, h₂⟩ := hk name (by simp)
        rw [hframe k fun n hn => hk n (.inl hn), hother k h₁ h₂]

end Volumes

/-- The new object has no room for the file in the collection. -/
def smallTarget : MoveEnvs where
  delivery := fun _ => .heard
  listing := calmEnv
  reading := fun _ => calmEnv
  writing := fun _ => { calmEnv with fails := fun op _ => if op = .writeFile (js "d/g") then some (.of "ENOSPC") else none }
  purging := calmEnv
  undoing := calmEnv

theorem smallTarget_safe : smallTarget.Safe := ⟨⟨fun _ => rfl, fun _ _ => rfl⟩, nofun⟩

theorem photos_minted : photos.AllMinted := by
  intro q row e hget hetag
  obtain ⟨rfl, rfl⟩ : js "a" = q ∧ ⟨false, some (js "image/png"), some (mintEtag 2 5), 5, 5, false⟩ = row := by
    simpa [photos, Store.get] using hget
  exact ⟨2, 5, (Option.some.inj hetag).symm⟩

theorem alicePhotos_fit (k : JsString) : Volume.Fit (alicePhotos.objects k) := by
  unfold alicePhotos
  dsimp only
  by_cases hk : k = js "alice/photos"
  · rw [hk, Function.update_self]
    exact ⟨photos_wellFormed, photos_minted⟩
  · rw [Function.update_of_ne hk]
    exact ⟨wellFormed_of_keys (by decide), nofun⟩

/-- The source is purged, but the answer is lost. -/
def lostAnswer : MoveEnvs where
  delivery := fun call => if call = .purge then .unheard (.of "lost") else .heard
  listing := calmEnv
  reading := fun _ => calmEnv
  writing := fun _ => calmEnv
  purging := calmEnv
  undoing := calmEnv

/-- Without the condition on the purge nothing is left: the target is purged as well. -/
example : ((moveOneVolume lostAnswer).run ⟨photos, emptyVolume⟩).2.source.files = [] ∧
    ((moveOneVolume lostAnswer).run ⟨photos, emptyVolume⟩).2.target.files = [] := by
  decide

end DurableDav.Front
