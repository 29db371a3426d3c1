import DurableDav.Dav.PropHistory
import DurableDav.Dav.OneEtag

namespace DurableDav.Dav

open Library
open Replication (isValidInnerPath parentOf)

/-! ### Setting a property -/

def DeadProperty.row (p : DeadProperty) : PropRow := ⟨p.nsPrefix, p.valueXml⟩

section Setting

variable {env : Env} {path : JsString} {p : DeadProperty} {s s' : Session}

theorem key_eq_iff {d : DeadProperty} : PropKey.of path d = PropKey.of path p ↔ p.SameName d := by
  simp [PropKey.of, DeadProperty.SameName]

theorem setDeadProperty_ok {u : Unit} (h : (env.setDeadProperty path p).run s = (.ok u, s')) :
    Store.get s'.volume.props (.of path p) = some p.row := by
  unfold Env.setDeadProperty Env.upsertDeadProperty Env.exec at h
  rw [run_call] at h
  cases hf : env.fails (.exec (.upsertProp (.of path p))) (s.calls.count (.exec (.upsertProp (.of path p)))) with
  | some e =>
    rw [hf] at h
    simp at h
  | none =>
    rw [hf] at h
    obtain rfl : _ = s' := congrArg Prod.snd h
    change Store.get (Store.put s.volume.props (.of path p) p.row) (.of path p) = some p.row
    simp

theorem writeEach_elsewhere {write : DeadProperty → Serve Unit} {ds : List DeadProperty}
    (hwrite : ∀ d ∈ ds, Makes (fun e => e.EditsKey (.of path d)) (write d)) (hds : ∀ d ∈ ds, ¬ p.SameName d) :
    Act.Within (KeepsProp (.of path p)) (Env.writeEach write ds) := by
  refine keeps_prop (L := fun e => ∃ d ∈ ds, e.EditsKey (.of path d)) ?_
    (makes_writeEach fun d hd => makes_mono (fun e he => ⟨d, hd, he⟩) (hwrite d hd))
  rintro e ⟨d, hd, he⟩ ht
  exact hds d hd (key_eq_iff.mp (edits_key he ht))

/-- The last of the properties of a name that is set is the one that is recorded. -/
theorem writeEach_sets {before after done failed : List DeadProperty}
    (h : (Env.writeEach (env.setDeadProperty path) (before ++ p :: after)).run s = (.ok (done, failed), s'))
    (hfail : p ∉ failed) (hlast : ∀ d ∈ after, ¬ p.SameName d) : Store.get s'.volume.props (.of path p) = some p.row := by
  induction before generalizing s done failed with
  | nil =>
    obtain ⟨outcome, s₁, hset, h⟩ := Act.of_run_bind h
    obtain ⟨⟨done', failed'⟩, s₂, hrest, h⟩ := Act.of_run_bind h
    obtain ⟨hanswer, rfl⟩ := Act.of_run_pure h
    have hset' : Store.get s₁.volume.props (.of path p) = some p.row := by
      rw [Act.run_attempt] at hset
      cases houtcome : (env.setDeadProperty path p).run s with
      | mk r s₃ =>
        rw [houtcome] at hset
        obtain ⟨rfl, rfl⟩ : r = outcome ∧ s₃ = s₁ := by simpa using hset
        cases r with
        | error e =>
          have hfailed : (done', p :: failed') = (done, failed) := hanswer
          rw [← (Prod.mk.inj hfailed).2] at hfail
          simp at hfail
        | ok u => exact setDeadProperty_ok houtcome
    exact (writeEach_elsewhere (fun d _ => makes_setDeadProperty fun _ he => he) hlast).of_run hrest _ hset'
  | cons d rest ih =>
    obtain ⟨outcome, s₁, _, h⟩ := Act.of_run_bind h
    obtain ⟨⟨done', failed'⟩, s₂, hrest, h⟩ := Act.of_run_bind h
    obtain ⟨hanswer, rfl⟩ := Act.of_run_pure h
    refine ih hrest fun hmem => hfail ?_
    split at hanswer <;> obtain ⟨_, rfl⟩ := Prod.mk.inj hanswer <;> simp [hmem]

/-- What an update reports as done is recorded, if the update does not itself undo it. -/
theorem handleProppatch_sets {r : Incoming} {bases : DavBases} {before after : List ProppatchOperation} {href : JsString}
    {outcome : Env.PropOutcome} (hops : r.propOperations env.platform = some (before ++ ⟨.set, p⟩ :: after))
    (hlast : ∀ op ∈ after, ¬ p.SameName op.property) (hkept : ∀ op ∈ before, op.action = .remove → ¬ p.SameName op.property)
    (hdone : p ∈ outcome.applied) (hfail : p ∉ outcome.dependent)
    (hrun : (env.handleProppatch r path bases).run s = (.ok (.multistatus href outcome), s')) :
    Store.get s'.volume.props (.of path p) = some p.row := by
  obtain ⟨xml, hxml, hparsed⟩ := Option.bind_eq_some_iff.mp hops
  unfold Env.handleProppatch at hrun
  obtain ⟨locked, s₁, _, hrun⟩ := Act.of_run_bind hrun
  cases locked with
  | some response => simp at hrun
  | none =>
    obtain ⟨node, s₂, _, hrun⟩ := Act.of_run_bind hrun
    cases node with
    | none => simp at hrun
    | some node =>
      dsimp only at hrun
      rw [hxml] at hrun
      dsimp only at hrun
      rw [hparsed] at hrun
      obtain ⟨result, s₃, happly, hrun⟩ := Act.of_run_bind hrun
      obtain ⟨hanswer, rfl⟩ := Act.of_run_pure hrun
      obtain ⟨_, rfl⟩ := Env.ProppatchAnswer.multistatus.inj hanswer
      unfold Env.applyOperations at happly
      dsimp only at happly
      split at happly
      · obtain ⟨rfl, _⟩ := Act.of_run_pure happly
        simp at hdone
      · obtain ⟨⟨done, failed⟩, s₄, hsets, happly⟩ := Act.of_run_bind happly
        obtain ⟨⟨removed, kept⟩, s₅, hremoves, happly⟩ := Act.of_run_bind happly
        obtain ⟨rfl, rfl⟩ := Act.of_run_pure happly
        have hsplit : Env.propertiesOf .set (before ++ ⟨.set, p⟩ :: after) =
            Env.propertiesOf .set before ++ p :: Env.propertiesOf .set after := by
          simp [Env.propertiesOf]
        rw [hsplit] at hsets
        have hset := writeEach_sets hsets (fun hmem => hfail (List.mem_append_left _ hmem))
          fun d hd => hlast _ (mem_propertiesOf hd)
        have hnone : ∀ d ∈ Env.propertiesOf .remove (before ++ ⟨.set, p⟩ :: after), ¬ p.SameName d := by
          intro d hd
          rcases List.mem_append.mp (mem_propertiesOf hd) with hmem | hmem
          · exact hkept _ hmem rfl
          · rcases List.mem_cons.mp hmem with he | hmem
            · simp at he
            · exact hlast _ hmem
        exact (writeEach_elsewhere (fun d _ => makes_removeDeadProperty fun _ he => he) hnone).of_run hremoves _ hset

end Setting

/-! ### Taking a property along -/

section Carrying

variable {env : Env} {v v₁ : Volume} {r : Request} {path target : JsString} {bases : DavBases} {p : DeadProperty}
  {response : Response} {s : Session}

theorem removal_tables {n : ℕ} (h : env.removal v r target n = .ok v₁) : target ≠ [] ∧
    v₁.nodes = Store.removeWhere v.nodes (deletePredicate target) ∧
    v₁.props = Store.removeWhere v.props (fun k => deletePredicate target k.path) := by
  unfold Env.removal at h
  split at h
  · simp at h
  · rename_i hroot
    split at h
    · simp at h
    · split at h
      · simp at h
      · split at h
        · split at h
          · simp at h
          · split at h
            · obtain rfl := Except.ok.inj h
              exact ⟨hroot, rfl, rfl⟩
            · simp at h
        · split at h
          · obtain rfl := Except.ok.inj h
            exact ⟨hroot, rfl, rfl⟩
          · simp at h

/-- A destination that is not above a resource takes none of its properties with it. -/
theorem overwritten_prop {destExists : Bool} (h : env.overwritten v r target destExists = .ok v₁) (ht : Apart path target)
    (hab : ¬ Below slash target path) (hrow : Store.get v.props (.of path p) = some p.row) :
    Store.get v₁.props (.of path p) = some p.row := by
  unfold Env.overwritten at h
  cases destExists with
  | false =>
    obtain rfl := Except.ok.inj h
    exact hrow
  | true =>
    obtain ⟨hroot, _, hprops⟩ := removal_tables h
    have hout : ¬ deletePredicate target path = true := by
      intro hpred
      rw [deletePredicate_of_ne hroot] at hpred
      rcases subtreePredicate_inside hroot hpred with he | hb
      · exact ht.ne he.symm
      · exact hab hb
    rw [hprops, Store.get_removeWhere, if_neg (show ¬ deletePredicate target (PropKey.of path p).path = true from hout)]
    exact hrow

theorem copyMeta_sets {isCollection : Bool} (hrow : Store.get v.props (.of path p) = some p.row) :
    Store.get (v.copyMeta env.now path target isCollection).props (.of target p) = some p.row := by
  have hget : Store.get (v.copyMeta env.now path target isCollection).props ⟨target, p.namespaceURI, p.localName⟩ = _ :=
    copyMeta_props env.now isCollection
  rw [show Store.get v.props ⟨path, p.namespaceURI, p.localName⟩ = some p.row from hrow] at hget
  exact hget

/-- No row stands where the rows of a resource are to go, once the destination is removed. -/
def Env.RowsCanFollow (env : Env) (v : Volume) (path target : JsString) : Prop :=
  ((env.withoutDestination v target).updatePaths path target .davNodes).isSome ∧
    ((env.withoutDestination v target).updatePaths path target .davProps).isSome

theorem overwritten_tables (h : env.overwritten v r target (env.sees v target 0).found = .ok v₁) :
    v₁.nodes = (env.withoutDestination v target).nodes ∧ v₁.props = (env.withoutDestination v target).props := by
  unfold Env.overwritten at h
  unfold Env.withoutDestination
  cases hfound : (env.sees v target 0).found with
  | false =>
    rw [hfound] at h
    obtain rfl := Except.ok.inj h
    exact ⟨rfl, rfl⟩
  | true =>
    rw [hfound] at h
    exact (removal_tables h).2

theorem overwritten_status {destExists : Bool} (h : env.overwritten v r target destExists = .error response) :
    400 ≤ response.status := by
  unfold Env.overwritten at h
  split at h
  · exact removal_error h
  · simp at h

theorem move_carries (h : env.Stores) (hd : resolveDestination env.platform r bases.pathBase path = some target)
    (hab : ¬ Below slash target path) (hfollow : env.RowsCanFollow v path target)
    (hrow : Store.get v.props (.of path p) = some p.row)
    (hrun : (env.handleMove r path bases).run ⟨v, []⟩ = (.ok response, s)) (hok : response.ok = true) :
    Store.get s.volume.props (.of target p) = some p.row := by
  have ht := resolveDestination_apart hd
  have hcourse := handleMove_course (v := v) h hd
  cases hguard : env.moveGuard v r path target with
  | some answer =>
    rw [hguard] at hcourse
    obtain ⟨s', hrun', _⟩ := hcourse
    obtain rfl : response = answer := Except.ok.inj (congrArg Prod.fst (hrun.symm.trans hrun'))
    exact absurd hok (not_ok (moveGuard_status hguard))
  | none =>
    rw [hguard] at hcourse
    obtain ⟨s₁, haccepted, hgo⟩ := hcourse
    obtain ⟨answer, s', hrun', hend⟩ := moveOver_run (r := r) bases h haccepted ht.ne (env.sees v path 0).isDirectory
      (env.sees v target 0).found
    obtain ⟨rfl, rfl⟩ : response = answer ∧ s = s' := by
      have hsame := hrun.symm.trans (hgo.trans hrun')
      exact ⟨Except.ok.inj (congrArg Prod.fst hsame), congrArg Prod.snd hsame⟩
    cases ho : env.overwritten v r target (env.sees v target 0).found with
    | error refused =>
      rw [ho] at hend
      obtain ⟨rfl, _⟩ := hend
      exact absurd hok (not_ok (overwritten_status ho))
    | ok v₁ =>
      rw [ho] at hend
      dsimp only at hend
      cases hrenamed : env.renamed v₁ path target with
      | none =>
        rw [hrenamed] at hend
        obtain ⟨rfl, _⟩ := hend
        exact absurd hok (by decide)
      | some v₂ =>
        rw [hrenamed] at hend
        obtain ⟨_, hvol⟩ := hend
        obtain ⟨_, _, _, files, _, rfl⟩ := renamed_some hrenamed
        obtain ⟨hnodes, hprops⟩ := overwritten_tables ho
        obtain ⟨hnodesOk, hpropsOk⟩ := hfollow
        simp only [Volume.updatePaths, Option.isSome_map] at hnodesOk hpropsOk
        rw [← hnodes] at hnodesOk
        rw [← hprops] at hpropsOk
        obtain ⟨props, hrekey⟩ := Option.isSome_iff_exists.mp hpropsOk
        have hkept := overwritten_prop ho ht hab hrow
        have hget := rekey_get hrekey (Store.mem_keys.mpr (by rw [hkept]; rfl))
        have hkey : ({ PropKey.of path p with path := repath path target (PropKey.of path p).path } : PropKey) =
            .of target p := by
          simp [PropKey.of, repath_source]
        rw [hkey, hkept] at hget
        rw [hvol, renameTables_eq]
        simp only [hnodesOk, ↓reduceIte, hrekey, Option.getD_some]
        exact hget

/-- What is copied below the destination leaves the properties of the destination alone. -/
theorem fills_untouched {e : Effect} (he : e.Fills target) : ¬ e.TouchesProp (.of target p) := by
  obtain ⟨q, hq, hc | ⟨k, hk, he⟩⟩ := he
  · exact creates_untouched hc
  · intro ht
    obtain rfl := edits_key he ht
    exact hq.ne hk

theorem copyCollection_carries (h : env.Stores) {s₁ : Session} (haccepted : Accepted v path target s₁)
    (ht : Apart path target) (hab : ¬ Below slash target path) (hrow : Store.get v.props (.of path p) = some p.row)
    {destExists : Bool} (hrun : (env.copyCollection r bases path target destExists).run s₁ = (.ok response, s))
    (hok : response.ok = true) : Store.get s.volume.props (.of target p) = some p.row := by
  unfold Env.copyCollection at hrun
  dsimp only at hrun
  split at hrun
  · obtain ⟨rfl, _⟩ := Act.of_run_pure hrun
    exact absurd hok (by decide)
  · obtain ⟨answer, s₂, hremove, _, hend⟩ := overwriting_run (r := r) h haccepted ht.ne destExists
    rw [Act.run_bind_ok hremove] at hrun
    cases ho : env.overwritten v r target destExists with
    | error refused =>
      rw [ho] at hend
      obtain ⟨rfl, _⟩ := hend
      obtain ⟨rfl, _⟩ := Act.of_run_pure hrun
      exact absurd hok (not_ok (overwritten_status ho))
    | ok v₁ =>
      rw [ho] at hend
      obtain ⟨rfl, rfl⟩ := hend
      dsimp only at hrun
      have hkept := overwritten_prop ho ht hab hrow
      unfold Env.makeTarget at hrun
      obtain ⟨made, s₃, hmade, hrun⟩ := Act.of_run_bind hrun
      have hkept₃ := (keeps_prop (L := Effect.Creates target) (fun _ he => creates_untouched he)
        (Act.within_attempt (makes_mkdir rfl))).of_run hmade _ hkept
      split at hrun
      · obtain ⟨rfl, _⟩ := Act.of_run_pure hrun
        exact absurd hok (by decide)
      · obtain ⟨s₄, hmeta, hvol, _⟩ := copyMeta_run h path target true s₃
        rw [Act.run_bind_ok hmeta] at hrun
        have hset : Store.get s₄.volume.props (.of target p) = some p.row := by
          rw [hvol]
          exact copyMeta_sets hkept₃
        have hrest : ∀ {x : Serve Response}, Makes (Effect.Fills target) x → x.run s₄ = (.ok response, s) →
            Store.get s.volume.props (.of target p) = some p.row :=
          fun hx hend => (keeps_prop (fun _ he => fills_untouched he) hx).of_run hend _ hset
        split at hrun
        · exact hrest (Act.within_bind makes_listRecursive fun _ =>
            Act.within_bind (makes_fills fun _ he => he) fun _ => Act.within_pure _) hrun
        · exact hrest (Act.within_pure _) hrun

theorem copy_carries (h : env.Stores) (hd : resolveDestination env.platform r bases.pathBase path = some target)
    (hab : ¬ Below slash target path) (hrow : Store.get v.props (.of path p) = some p.row)
    (hrun : (env.handleCopy r path bases).run ⟨v, []⟩ = (.ok response, s)) (hok : response.ok = true) :
    Store.get s.volume.props (.of target p) = some p.row := by
  have ht := resolveDestination_apart hd
  have hcourse := handleCopy_course (v := v) h hd
  cases hguard : env.copyGuard v r path target with
  | some answer =>
    rw [hguard] at hcourse
    obtain ⟨s', hrun', _⟩ := hcourse
    obtain rfl : response = answer := Except.ok.inj (congrArg Prod.fst (hrun.symm.trans hrun'))
    exact absurd hok (not_ok (copyGuard_status hguard))
  | none =>
    rw [hguard] at hcourse
    obtain ⟨s₁, haccepted, _, hgo⟩ := hcourse
    rw [hrun] at hgo
    cases hdir : (env.sees v path 0).isDirectory with
    | false =>
      rw [hdir, if_neg (by simp)] at hgo
      obtain ⟨answer, s', hrun', hend⟩ := copyFile_run (r := r) bases h haccepted ht.ne (env.sees v target 0).found
      obtain ⟨rfl, rfl⟩ : response = answer ∧ s = s' := by
        have hsame := hgo.trans hrun'
        exact ⟨Except.ok.inj (congrArg Prod.fst hsame), congrArg Prod.snd hsame⟩
      cases ho : env.overwritten v r target (env.sees v target 0).found with
      | error refused =>
        rw [ho] at hend
        obtain ⟨rfl, _⟩ := hend
        exact absurd hok (not_ok (overwritten_status ho))
      | ok v₁ =>
        rw [ho] at hend
        dsimp only at hend
        cases hcopied : env.bytesCopied v₁ path target 0 0 with
        | error e =>
          rw [hcopied] at hend
          obtain ⟨rfl, _⟩ := hend
          exact absurd hok (not_ok (copyFailed_status e))
        | ok v₂ =>
          rw [hcopied] at hend
          obtain ⟨_, hvol⟩ := hend
          obtain ⟨data, mtime, _, rfl⟩ := bytesCopied_ok hcopied
          have hkept := overwritten_prop ho ht hab hrow
          rw [hvol]
          exact copyMeta_sets hkept
    | true =>
      rw [hdir, if_pos rfl] at hgo
      exact copyCollection_carries h haccepted ht hab hrow hgo.symm hok

end Carrying

/-! ### What a client has set -/

/-- An update has set a property of a resource, and since then nothing has changed the property or taken the resource
away; a COPY or a MOVE has taken it to its destination. -/
inductive Held (p : DeadProperty) : JsString → Volume → Prop
  | set {env : Env} {r : Incoming} {path : JsString} {bases : DavBases} {v : Volume} {before after : List ProppatchOperation}
      {href : JsString} {outcome : Env.PropOutcome} {s : Session}
      (hops : r.propOperations env.platform = some (before ++ ⟨.set, p⟩ :: after))
      (hlast : ∀ op ∈ after, ¬ p.SameName op.property)
      (hkept : ∀ op ∈ before, op.action = .remove → ¬ p.SameName op.property)
      (hdone : p ∈ outcome.applied) (hfail : p ∉ outcome.dependent)
      (hrun : (env.handleProppatch r path bases).run ⟨v, []⟩ = (.ok (.multistatus href outcome), s)) :
      Held p path s.volume
  | request {path : JsString} {v : Volume} (env : Env) (x : Exchange) (hx : ¬ x.Alters env v (.of path p)) :
      Held p path v → Held p path (Env.after (env.serve x) v)
  | replica {path : JsString} {v : Volume} (env : Env) (op : ReplicaOperation) (hop : ¬ op.Alters (.of path p)) :
      Held p path v → Held p path (Env.after (env.applyOne op) v)
  | transfer {path : JsString} {v : Volume} (env : Env) (e : VolumeEntry) (hmint : ∀ tag, e.etag = some tag → IsMinted tag)
      (he : ¬ e.Alters (.of path p)) : Held p path v → Held p path (Env.after (env.writeEntry e) v)
  | noted {path : JsString} {v : Volume} (rows : Store ReplicaKey Replication.ReplicaStateRow) :
      Held p path v → Held p path { v with replicaState := rows }
  | moved {env : Env} {r : Request} {path target : JsString} {bases : DavBases} {v : Volume} {response : Response} {s : Session}
      (hstores : env.Stores) (hd : resolveDestination env.platform r bases.pathBase path = some target)
      (hab : ¬ Below slash target path) (hfollow : env.RowsCanFollow v path target)
      (hrun : (env.handleMove r path bases).run ⟨v, []⟩ = (.ok response, s)) (hok : response.ok = true) :
      Held p path v → Held p target s.volume
  | copied {env : Env} {r : Request} {path target : JsString} {bases : DavBases} {v : Volume} {response : Response} {s : Session}
      (hstores : env.Stores) (hd : resolveDestination env.platform r bases.pathBase path = some target)
      (hab : ¬ Below slash target path)
      (hrun : (env.handleCopy r path bases).run ⟨v, []⟩ = (.ok response, s)) (hok : response.ok = true) :
      Held p path v → Held p target s.volume

theorem held_recorded {p : DeadProperty} {path : JsString} {v : Volume} (h : Held p path v) :
    Store.get v.props (.of path p) = some p.row := by
  induction h with
  | set hops hlast hkept hdone hfail hrun => exact handleProppatch_sets hops hlast hkept hdone hfail hrun
  | request env x hx _ ih => exact serve_keeps_prop hx ih
  | replica env op hop _ ih => exact applyOne_keeps_prop hop ih
  | transfer env e hmint he _ ih => exact writeEntry_keeps_prop hmint he ih
  | noted rows _ ih => exact ih
  | moved hstores hd hab hfollow hrun hok _ ih => exact move_carries hstores hd hab hfollow ih hrun hok
  | copied hstores hd hab hrun hok _ ih => exact copy_carries hstores hd hab ih hrun hok

/-- Whoever asks for a property that was set gets it, exactly where the resource is not the root and no live property has
its name. -/
theorem held_shows_iff {env : Env} {p : DeadProperty} {path : JsString} {v : Volume} (h : Held p path v)
    (hfound : v.files.found path = true) : env.Shows v path p ↔ (path = [] ∨ env.Describes path →
      path ≠ [] ∧ ¬ (p.namespaceURI = davNamespace ∧ p.localName ∈ env.liveNames v path)) :=
  shows_iff (held_recorded h) hfound

/-! ### A property of the root -/

def colour : DeadProperty := ⟨js "urn:x", js "colour", none, js "red"⟩

def updateText : JsString :=
  js "<propertyupdate xmlns=\"DAV:\"><set><prop><colour xmlns=\"urn:x\">red</colour></prop></set></propertyupdate>"

def updateDocument : XmlElement :=
  .node (some davNamespace) none (some (js "propertyupdate"))
    [.node (some davNamespace) none (some (js "set"))
      [.node (some davNamespace) none (some (js "prop"))
        [.node (some (js "urn:x")) none (some (js "colour")) [] (js "red")]
        (js "<colour xmlns=\"urn:x\">red</colour>")]
      (js "<prop xmlns=\"DAV:\"><colour xmlns=\"urn:x\">red</colour></prop>")]
    (js "<set xmlns=\"DAV:\"><prop><colour xmlns=\"urn:x\">red</colour></prop></set>")

def updatingEnv : Env :=
  { calmEnv with platform :=
    { plainPlatform with parseXmlDocument := fun body => if body = updateText then some updateDocument else none } }

def setColour (url : JsString) : Incoming := { plainIncoming url with text := updateText }

set_option maxRecDepth 4000 in
theorem setColour_operations (url : JsString) :
    (setColour url).propOperations updatingEnv.platform = some ([] ++ ⟨.set, colour⟩ :: []) := rfl

theorem colour_held (url path : JsString) (v : Volume) {href : JsString} {outcome : Env.PropOutcome} {s : Session}
    (hdone : colour ∈ outcome.applied) (hfail : colour ∉ outcome.dependent)
    (hrun : (updatingEnv.handleProppatch (setColour url) path plainBases).run ⟨v, []⟩ = (.ok (.multistatus href outcome), s)) :
    Held colour path s.volume :=
  .set (setColour_operations url) (by simp) (by simp) hdone hfail hrun

def colouredFile : Session :=
  ((updatingEnv.handleProppatch (setColour (js "http://h/o/v/f")) (js "f") plainBases).run
    ⟨Env.after (calmEnv.serve putFile) emptyVolume, []⟩).2

set_option maxRecDepth 4000 in
theorem file_shows_colour : updatingEnv.Shows colouredFile.volume (js "f") colour := by
  have hrun : (updatingEnv.handleProppatch (setColour (js "http://h/o/v/f")) (js "f") plainBases).run
      ⟨Env.after (calmEnv.serve putFile) emptyVolume, []⟩ =
      (.ok (.multistatus (js "/o/v/f") ⟨[colour], [], []⟩), colouredFile) := rfl
  apply (held_shows_iff (colour_held _ _ _ (by simp) (by simp) hrun) (by decide)).mpr
  intro _
  refine ⟨by decide, fun h => ?_⟩
  exact absurd h.1 (by decide)

def colouredRoot : Session :=
  ((updatingEnv.handleProppatch (setColour (js "http://h/o/v/")) [] plainBases).run ⟨emptyVolume, []⟩).2

set_option maxRecDepth 4000 in
/-- The update of the root is reported as done, and nothing of it is ever shown. -/
theorem root_hides_colour : Held colour [] colouredRoot.volume ∧ ¬ updatingEnv.Shows colouredRoot.volume [] colour := by
  have hrun : (updatingEnv.handleProppatch (setColour (js "http://h/o/v/")) [] plainBases).run ⟨emptyVolume, []⟩ =
      (.ok (.multistatus (js "/o/v/") ⟨[colour], [], []⟩), colouredRoot) := rfl
  have hheld := colour_held _ _ _ (by simp) (by simp) hrun
  refine ⟨hheld, fun hshows => ?_⟩
  exact ((shows_iff (held_recorded hheld) rfl).mp hshows (.inl rfl)).1 rfl

end DurableDav.Dav
