import DurableDav.Dav.Described

namespace DurableDav.Dav

open Library

/-! ### The properties of a resource that are shown -/

def DeadProperty.SameName (p d : DeadProperty) : Prop := d.namespaceURI = p.namespaceURI ∧ d.localName = p.localName

instance (p d : DeadProperty) : Decidable (p.SameName d) := inferInstanceAs (Decidable (_ ∧ _))

/-- An element is called as a property is. -/
def Element.Names (p : DeadProperty) : Element → Prop
  | live name _ => davNamespace = p.namespaceURI ∧ name = p.localName
  | property d => p.SameName d
  | empty d => p.SameName d

instance (p : DeadProperty) : DecidablePred (Element.Names p) := fun e => by
  cases e <;> exact inferInstanceAs (Decidable (_ ∧ _))

namespace PropfindRequest

/-- All properties are asked for, or this one by its name and once. -/
def AsksFor (p : DeadProperty) : PropfindRequest → Prop
  | allprop => True
  | propname => False
  | prop ds => (ds.filter (fun d => p.SameName d)).length = 1

end PropfindRequest

def Incoming.propfindMode (p : Platform) (r : Incoming) : Option PropfindRequest :=
  (r.readCappedText maxXmlBodyBytes).bind (parsePropfindRequest p)

namespace Env

variable (env : Env)

/-- Whoever asks for a property of a resource gets it once, and as it is. -/
def Shows (v : Volume) (path : JsString) (p : DeadProperty) : Prop :=
  ∀ r bases mode entry rest s, r.propfindMode env.platform = some mode → mode.AsksFor p →
    (env.handlePropfind r path bases).run ⟨v, []⟩ = (.ok (.multistatus (entry :: rest)), s) →
    entry.ok.filter (fun e => e.Names p) = [.property p]

/-- The names of the live properties of a resource. -/
def liveNames (v : Volume) (path : JsString) : List JsString :=
  [js "creationdate", js "displayname"] ++
    (if v.files.isDirectory path then []
      else [js "getcontentlength"] ++
        (if ((env.rowRead v path).bind NodeRow.contentType).isSome then [js "getcontenttype"] else []) ++ [js "getetag"]) ++
    [js "getlastmodified", js "resourcetype", js "supportedlock", js "lockdiscovery"]

end Env

section Shown

variable {env : Env} {v : Volume} {path base : JsString} {p : DeadProperty}

theorem filter_rows (props : Store PropKey PropRow) (ks : List PropKey) :
    (((ks.filter (fun k => k.path = path)).filterMap (fun k => (Store.get props k).map (fun row => (k, row)))).map
      deadProperty).filter (fun d => p.SameName d) =
      (ks.filter (fun k => k = .of path p)).filterMap (fun k => (Store.get props k).map (fun row => deadProperty (k, row))) := by
  induction ks with
  | nil => rfl
  | cons k rest ih =>
    obtain ⟨q, ns, name⟩ := k
    by_cases hq : q = path
    · subst hq
      cases hget : Store.get props ⟨q, ns, name⟩ with
      | none =>
        by_cases hname : (⟨q, ns, name⟩ : PropKey) = .of q p
        · rw [List.filter_cons_of_pos (by simp), List.filter_cons_of_pos (by simpa using hname)]
          simp [hget, ih]
        · rw [List.filter_cons_of_pos (by simp), List.filter_cons_of_neg (by simpa using hname)]
          simp [hget, ih]
      | some row =>
        rw [List.filter_cons_of_pos (by simp)]
        simp only [List.filterMap_cons, hget, Option.map_some, List.map_cons]
        by_cases hname : ns = p.namespaceURI ∧ name = p.localName
        · rw [List.filter_cons_of_pos (by simp [deadProperty, DeadProperty.SameName, hname]), ih,
            List.filter_cons_of_pos (by simp [PropKey.of, hname])]
          simp only [List.filterMap_cons, hget, Option.map_some]
        · rw [List.filter_cons_of_neg (by rw [decide_eq_true_iff]; exact hname), ih,
            List.filter_cons_of_neg (by simpa [PropKey.of, -not_and] using hname)]
    · rw [List.filter_cons_of_neg (by simpa using hq), List.filter_cons_of_neg (by simp [PropKey.of, hq]), ih]

theorem filter_deadProperties {row : PropRow} (hrow : Store.get v.props (.of path p) = some row) :
    ((v.deadProperties path).map deadProperty).filter (fun d => p.SameName d) =
      [⟨p.namespaceURI, p.localName, row.nsPrefix, row.valueXml⟩] := by
  have hmem : PropKey.of path p ∈ Store.keys v.props := Store.mem_keys.mpr (by simp [hrow])
  have hone : (Store.keys v.props).filter (fun k => k = .of path p) = [.of path p] := by
    rw [List.filter_eq, List.count_eq_one_of_mem (Store.keys_nodup _) hmem]
    rfl
  unfold Volume.deadProperties
  rw [filter_rows, hone]
  simp only [List.filterMap_cons, hrow, Option.map_some, List.filterMap_nil]
  rfl

theorem lookup_join_eq_some {l : List (JsString × Option JsString)} (h : (l.map Prod.fst).Nodup) {name value : JsString} :
    (l.lookup name).join = some value ↔ (name, some value) ∈ l := by
  induction l with
  | nil => simp
  | cons e rest ih =>
    obtain ⟨key, stored⟩ := e
    obtain ⟨hnew, hrest⟩ := List.nodup_cons.mp h
    rw [List.lookup_cons, List.mem_cons, Prod.mk.injEq]
    by_cases hname : name = key
    · subst hname
      have hnot : (name, some value) ∉ rest := fun hmem => hnew (List.mem_map.mpr ⟨_, hmem, rfl⟩)
      simp [hnot, eq_comm]
    · rw [show (name == key) = false by simpa using hname]
      simp [hname, ih hrest]

variable (base) in
/-- A live property is there under exactly the names that say so. -/
theorem live_names (hroot : path ≠ []) (hd : env.Describes path) :
    (toLiveProperties env.platform (env.described v path base) base).filterMap (fun e => e.2.map (fun _ => e.1)) =
      env.liveNames v path := by
  have hdir : (env.sees v path 0).isDirectory = v.files.isDirectory path := by rw [described_sees hd, stat_isDirectory]
  unfold toLiveProperties Env.liveNames
  simp only [Env.described, nodeOf, hdir, if_neg hroot]
  cases v.files.isDirectory path with
  | true => rfl
  | false =>
    cases (env.rowRead v path).bind NodeRow.contentType <;> rfl

variable (base) in
/-- Where a live property has the name of a dead one, nobody gets to see the dead one alone. -/
theorem live_defined (hroot : path ≠ []) (hd : env.Describes path) {name : JsString} :
    name ∈ env.liveNames v path ↔
      ∃ value, (name, some value) ∈ toLiveProperties env.platform (env.described v path base) base := by
  rw [← live_names base hroot hd, List.mem_filterMap]
  constructor
  · rintro ⟨⟨key, stored⟩, hmem, hname⟩
    obtain ⟨value, rfl, rfl⟩ := Option.map_eq_some_iff.mp hname
    exact ⟨value, hmem⟩
  · rintro ⟨value, hmem⟩
    exact ⟨(name, some value), hmem, rfl⟩

theorem liveValue_none (hroot : path ≠ []) (hd : env.Describes path)
    (h : ¬ (p.namespaceURI = davNamespace ∧ p.localName ∈ env.liveNames v path)) {d : DeadProperty} (hname : p.SameName d) :
    getLivePropertyValue env.platform (env.described v path base) d base = none := by
  unfold getLivePropertyValue
  split
  · rfl
  · rename_i hns
    rw [Option.eq_none_iff_forall_ne_some]
    intro value hvalue
    have hnodup : ((toLiveProperties env.platform (env.described v path base) base).map Prod.fst).Nodup := by
      rw [show (toLiveProperties env.platform (env.described v path base) base).map Prod.fst =
        [js "creationdate", js "displayname", js "getcontentlength", js "getcontenttype", js "getetag",
          js "getlastmodified", js "resourcetype", js "supportedlock", js "lockdiscovery"] from rfl]
      decide
    have hmem := (lookup_join_eq_some hnodup).mp hvalue
    rw [hname.2] at hmem
    exact h ⟨by rw [← hname.1]; simpa using hns, (live_defined _ hroot hd).mpr ⟨value, hmem⟩⟩

theorem named_shown (hroot : path ≠ []) (hd : env.Describes path)
    (hrow : Store.get v.props (.of path p) = some ⟨p.nsPrefix, p.valueXml⟩)
    (h : ¬ (p.namespaceURI = davNamespace ∧ p.localName ∈ env.liveNames v path)) {d : DeadProperty} (hname : p.SameName d) :
    namedProperty env.platform (env.described v path base) base d = some (.property p) := by
  have hfind : (env.described v path base).deadProperties.find? (fun e =>
      decide (e.namespaceURI = d.namespaceURI ∧ e.localName = d.localName)) = some p := by
    have hsame : (fun e : DeadProperty => decide (e.namespaceURI = d.namespaceURI ∧ e.localName = d.localName)) =
        fun e => decide (p.SameName e) := by
      funext e
      rw [hname.1, hname.2]
      exact decide_eq_decide.mpr Iff.rfl
    rw [hsame, ← List.head?_filter, Env.described, nodeOf, filter_deadProperties hrow]
    rfl
  unfold namedProperty
  rw [liveValue_none hroot hd h hname]
  simp only [hfind, Option.map_some]

/-- An element is called as the property that was asked for. -/
theorem namedProperty_names {node : DavNodeInfo} {d : DeadProperty} {e : Element}
    (h : namedProperty env.platform node base d = some e) : e.Names p ↔ p.SameName d := by
  unfold namedProperty at h
  split at h
  · rename_i value hvalue
    obtain rfl := Option.some.inj h
    unfold getLivePropertyValue at hvalue
    split at hvalue
    · simp at hvalue
    · rename_i hns
      simp only [Element.Names, DeadProperty.SameName, not_not.mp hns]
  · obtain ⟨found, hfound, rfl⟩ := Option.map_eq_some_iff.mp h
    have hsame := List.find?_some hfound
    simp only [decide_eq_true_eq] at hsame
    simp only [Element.Names, DeadProperty.SameName, hsame.1, hsame.2]

theorem filter_named {node : DavNodeInfo} (ds : List DeadProperty) :
    (ds.filterMap (namedProperty env.platform node base)).filter (fun e => e.Names p) =
      (ds.filter (fun d => p.SameName d)).filterMap (namedProperty env.platform node base) := by
  induction ds with
  | nil => rfl
  | cons d rest ih =>
    cases hnamed : namedProperty env.platform node base d with
    | none =>
      by_cases hname : p.SameName d
      · rw [List.filter_cons_of_pos (by simpa using hname), List.filterMap_cons_none hnamed, List.filterMap_cons_none hnamed, ih]
      · rw [List.filter_cons_of_neg (by simpa using hname), List.filterMap_cons_none hnamed, ih]
    | some e =>
      have hiff := namedProperty_names (p := p) hnamed
      rw [List.filterMap_cons_some hnamed]
      by_cases hname : p.SameName d
      · rw [List.filter_cons_of_pos (by simpa using hiff.mpr hname), List.filter_cons_of_pos (by simpa using hname),
          List.filterMap_cons_some hnamed, ih]
      · rw [List.filter_cons_of_neg (by simpa using mt hiff.mp hname), List.filter_cons_of_neg (by simpa using hname), ih]

/-- With all properties asked for, the live ones of the name come before the dead one. -/
theorem filter_all (hroot : path ≠ []) (hd : env.Describes path)
    (hrow : Store.get v.props (.of path p) = some ⟨p.nsPrefix, p.valueXml⟩) :
    ((propfindEntry env.platform (env.described v path base) .allprop base).ok.filter (fun e => e.Names p) = [.property p]) ↔
      ¬ (p.namespaceURI = davNamespace ∧ p.localName ∈ env.liveNames v path) := by
  have hdead : ((env.described v path base).deadProperties.map Element.property).filter (fun e => e.Names p) = [.property p] := by
    rw [List.filter_map]
    have hsame : ((fun e : Element => decide (e.Names p)) ∘ Element.property) = fun d => decide (p.SameName d) := by
      funext d
      exact decide_eq_decide.mpr Iff.rfl
    rw [hsame, Env.described, nodeOf, filter_deadProperties hrow]
    rfl
  unfold propfindEntry
  simp only [List.filter_append, hdead]
  rw [List.append_left_eq_self, List.filter_eq_nil_iff, live_defined base hroot hd]
  constructor
  · rintro h ⟨hns, value, hmem⟩
    refine h (.live p.localName value) (List.mem_filterMap.mpr ⟨_, hmem, rfl⟩) ?_
    simp [Element.Names, hns]
  · intro h e he hname
    obtain ⟨⟨key, stored⟩, hmem, hlive⟩ := List.mem_filterMap.mp he
    obtain ⟨value, rfl, rfl⟩ := Option.map_eq_some_iff.mp hlive
    obtain ⟨hns, rfl⟩ : davNamespace = p.namespaceURI ∧ key = p.localName := of_decide_eq_true hname
    exact h ⟨hns.symm, value, hmem⟩

/-- The entry of the resource itself comes first. -/
theorem handlePropfind_entry {r : Incoming} {bases : DavBases} {mode : PropfindRequest} {entry : PropfindEntry}
    {rest : List PropfindEntry} {s : Session} (hmode : r.propfindMode env.platform = some mode)
    (hrun : (env.handlePropfind r path bases).run ⟨v, []⟩ = (.ok (.multistatus (entry :: rest)), s)) :
    ∃ node s₁, (env.nodeAt path bases.hrefBase).run ⟨v, []⟩ = (.ok (some node), s₁) ∧
      entry = propfindEntry env.platform node mode bases.hrefBase := by
  obtain ⟨xml, hxml, hparsed⟩ := Option.bind_eq_some_iff.mp hmode
  unfold Env.handlePropfind at hrun
  rw [hxml] at hrun
  dsimp only at hrun
  rw [hparsed] at hrun
  obtain ⟨answer, s₁, hnode, hrun⟩ := Act.of_run_bind hrun
  cases answer with
  | none => simp at hrun
  | some node =>
    refine ⟨node, s₁, hnode, ?_⟩
    dsimp only at hrun
    split at hrun
    · have hanswer := Env.PropfindAnswer.multistatus.inj (Act.of_run_pure hrun).1
      exact (List.cons.inj hanswer).1.symm
    · split at hrun
      · simp at hrun
      · obtain ⟨entries, s₂, _, hrun⟩ := Act.of_run_bind hrun
        have hanswer := Env.PropfindAnswer.multistatus.inj (Act.of_run_pure hrun).1
        exact (List.cons.inj hanswer).1.symm

def askAll : Incoming := { plainIncoming [] with depth := some (js "0") }

theorem askAll_mode (p : Platform) : askAll.propfindMode p = some .allprop := rfl

theorem handlePropfind_all (bases : DavBases) {node : DavNodeInfo} {s₁ : Session}
    (hnode : (env.nodeAt path bases.hrefBase).run ⟨v, []⟩ = (.ok (some node), s₁)) :
    ∃ s, (env.handlePropfind askAll path bases).run ⟨v, []⟩ =
      (.ok (.multistatus [propfindEntry env.platform node .allprop bases.hrefBase]), s) := by
  unfold Env.handlePropfind
  rw [show askAll.readCappedText maxXmlBodyBytes = some [] from rfl]
  dsimp only
  rw [show parsePropfindRequest env.platform [] = some .allprop from rfl]
  dsimp only
  rw [Act.run_bind_ok hnode]
  dsimp only
  split
  · exact ⟨s₁, rfl⟩
  · rw [if_neg (by decide)]
    exact ⟨s₁, rfl⟩

/-- A dead property that is recorded is shown, exactly where the resource is not the root and no live property has its
name. -/
theorem shows_iff (hrow : Store.get v.props (.of path p) = some ⟨p.nsPrefix, p.valueXml⟩) (hfound : v.files.found path = true) :
    env.Shows v path p ↔ (path = [] ∨ env.Describes path →
      path ≠ [] ∧ ¬ (p.namespaceURI = davNamespace ∧ p.localName ∈ env.liveNames v path)) := by
  constructor
  · intro h hd
    by_cases hroot : path = []
    · subst hroot
      have hnode : (env.nodeAt [] ([] : JsString)).run ⟨v, []⟩ = (.ok (some env.rootNode), ⟨v, []⟩) := rfl
      obtain ⟨s, hrun⟩ := handlePropfind_all ⟨[], []⟩ hnode
      have hshown := h _ _ _ _ _ s (askAll_mode _) trivial hrun
      have hdead : ∀ e ∈ (propfindEntry env.platform env.rootNode .allprop []).ok, e ≠ .property p := by
        intro e he
        obtain ⟨⟨key, stored⟩, _, hlive⟩ : ∃ l ∈ toLiveProperties env.platform env.rootNode [],
            l.2.map (Element.live l.1) = some e := by
          simpa [propfindEntry, Env.rootNode] using he
        obtain ⟨value, _, rfl⟩ := Option.map_eq_some_iff.mp hlive
        simp
      have hmem : Element.property p ∈ (propfindEntry env.platform env.rootNode .allprop []).ok.filter (fun e => e.Names p) := by
        rw [hshown]
        simp
      exact absurd rfl (hdead _ (List.mem_of_mem_filter hmem))
    · have hd := hd.resolve_left hroot
      obtain ⟨s₁, hnode⟩ := nodeAt_run [] hroot hd hfound
      obtain ⟨s, hrun⟩ := handlePropfind_all ⟨[], []⟩ hnode
      exact ⟨hroot, (filter_all hroot hd hrow).mp (h _ _ _ _ _ s (askAll_mode _) trivial hrun)⟩
  · intro h r bases mode entry rest s hmode hasks hrun
    obtain ⟨node, s₁, hnode, rfl⟩ := handlePropfind_entry hmode hrun
    by_cases hroot : path = []
    · exact absurd hroot (h (.inl hroot)).1
    · obtain ⟨hd, rfl⟩ := nodeAt_elim hroot hnode
      have hfree := (h (.inr hd)).2
      cases mode with
      | allprop => exact (filter_all hroot hd hrow).mpr hfree
      | propname => exact absurd hasks (by simp [PropfindRequest.AsksFor])
      | prop ds =>
        obtain ⟨d, hone⟩ := List.length_eq_one_iff.mp hasks
        have hname : p.SameName d := by
          have hmem : d ∈ ds.filter (fun d => p.SameName d) := by simp [hone]
          simpa using (List.mem_filter.mp hmem).2
        simp only [propfindEntry, filter_named, hone]
        rw [List.filterMap_cons_some (named_shown hroot hd hrow hfree hname), List.filterMap_nil]

end Shown

end DurableDav.Dav
