import DurableDav.Dav.DavVolumeRemote
import DurableDav.Replication.Coverage

namespace DurableDav.Dav

open Library
open Replication (isValidInnerPath parentOf PlanSide ReplicaListing RemoteError RemoteListing childPath names)
open Replication (parentOf_childPath names_childPath valid_iff valid_of_above names_append names_of_ne)

/-! ### The two coordinate systems -/

namespace DavVolumeRemote

/-- The path in the sibling's volume. -/
def inner (c : DavVolumeRemote) (path : JsString) : JsString :=
  if c.root = [] then path else if path = [] then c.root else c.root ++ slash :: path

end DavVolumeRemote

def IsName (name : JsString) : Prop := name ≠ [] ∧ slash ∉ name

section Paths

variable {c : DavVolumeRemote} {p name : JsString}

theorem withRoot_valid (hp : isValidInnerPath p = true) : c.withRoot p = .ok (c.inner p) := by
  have hdots : ((p.splitOn slash).any fun segment => segment = js ".." ∨ segment = js ".") = false := by
    by_cases hne : p = []
    · subst hne
      decide
    · have hsegments := (valid_iff.mp hp).2
      rw [names_of_ne hne] at hsegments
      rw [List.any_eq_false]
      intro s hs
      obtain ⟨-, hone, htwo⟩ := hsegments s hs
      simp [hone, htwo]
  unfold DavVolumeRemote.withRoot
  rw [hdots]
  rfl

theorem rooted_valid {α : Type} (hp : isValidInnerPath p = true) (f : JsString → Sibling α) :
    c.rooted p f = f (c.inner p) := by
  unfold DavVolumeRemote.rooted
  rw [withRoot_valid hp]

theorem inner_childPath (hname : name ≠ []) : c.inner (childPath p name) = childPath (c.inner p) name := by
  unfold DavVolumeRemote.inner childPath
  by_cases hroot : c.root = []
  · simp [hroot]
  · by_cases hp : p = []
    · simp [hroot, hp, hname]
    · simp [hroot, hp]

theorem valid_of_inner (h : isValidInnerPath (c.inner p) = true) : isValidInnerPath p = true := by
  unfold DavVolumeRemote.inner at h
  split_ifs at h with hroot hp
  · exact h
  · rw [hp]
    rfl
  · rw [valid_iff, names_append hroot, ← names_of_ne hp, List.length_append] at h
    exact valid_iff.mpr ⟨by omega, fun s hs => h.2 s (List.mem_append_right _ hs)⟩

/-- A path is that of a name in the collection it is in. -/
theorem exists_name (hp : isValidInnerPath p = true) (hne : p ≠ []) :
    ∃ name, IsName name ∧ p = childPath (parentOf p) name := by
  have hsegments := (valid_iff.mp hp).2
  by_cases hslash : slash ∈ p
  · obtain ⟨name, hsplit, hname⟩ := parentSegments_spec hslash
    have hparent : parentOf p ≠ [] := by
      intro hnil
      have hpar : parentSegments slash p = [] := hnil
      rw [hpar] at hsplit
      rw [names_of_ne hne, hsplit, List.splitOn_append_cons_self] at hsegments
      exact (hsegments [] (List.mem_append_left _ List.mem_cons_self)).1 rfl
    have hnonempty : name ≠ [] := by
      rintro rfl
      rw [names_of_ne hne, hsplit, List.splitOn_append_cons_self] at hsegments
      exact (hsegments [] (List.mem_append_right _ List.mem_cons_self)).1 rfl
    refine ⟨name, ⟨hnonempty, hname⟩, ?_⟩
    unfold childPath
    rw [if_neg hparent]
    exact hsplit
  · have hparent : parentOf p = [] := parentSegments_of_notMem hslash
    refine ⟨p, ⟨hne, hslash⟩, ?_⟩
    rw [hparent]
    rfl

theorem inner_ne_nil (hne : p ≠ []) : c.inner p ≠ [] := by
  unfold DavVolumeRemote.inner
  split_ifs with hroot
  · exact hne
  · simp

theorem parentOf_inner (hp : isValidInnerPath p = true) (hne : p ≠ []) : parentOf (c.inner p) = c.inner (parentOf p) := by
  obtain ⟨name, ⟨hname, hslash⟩, heq⟩ := exists_name hp hne
  conv_lhs => rw [heq, inner_childPath hname]
  exact parentOf_childPath hslash

theorem valid_parent (hp : isValidInnerPath p = true) (hne : p ≠ []) : isValidInnerPath (parentOf p) = true := by
  obtain ⟨name, ⟨hname, hslash⟩, heq⟩ := exists_name hp hne
  apply valid_of_above hp
  conv_rhs => rw [heq, names_childPath hname hslash]
  exact List.prefix_append _ _

theorem valid_of_child (hname : IsName name) (h : isValidInnerPath (childPath p name) = true) : isValidInnerPath p = true := by
  apply valid_of_above h
  rw [names_childPath hname.1 hname.2]
  exact List.prefix_append _ _

end Paths

/-! ### Listing and looking up -/

/-- Whatever was asked before, the answer is `r`, and it leaves the volume as it is. -/
def Yields {α : Type} (x : Sibling α) (v : Volume) (r : Except RemoteError α) : Prop :=
  ∀ s : Session, s.volume = v → ∃ s', x.run s = (r, s') ∧ s'.volume = v

/-- What the volume has under the name in a collection. -/
def Volume.Holds (v : Volume) (collection name : JsString) (entry : PlanSide) : Prop :=
  IsName name ∧ v.tree.describe (childPath collection name) = some entry

section Listing

variable {c : DavVolumeRemote} {env : Env} {v : Volume} {p q : JsString} {e : PlanSide}

theorem yields_bind {α β : Type} {x : Sibling α} {f : α → Sibling β} {a : α} {r : Except RemoteError β}
    (hx : Yields x v (.ok a)) (hf : Yields (f a) v r) : Yields (x >>= f) v r := by
  intro s hs
  obtain ⟨s₁, hrun, hs₁⟩ := hx s hs
  rw [Act.run_bind_ok hrun]
  exact hf s₁ hs₁

theorem yields_pure {α : Type} (a : α) : Yields (pure a) v (.ok a) := fun s hs => ⟨s, rfl, hs⟩

theorem yields_throw {α : Type} (e : RemoteError) : Yields (.throw e : Sibling α) v (.error e) := fun s hs => ⟨s, rfl, hs⟩

theorem yields_unique {α : Type} {x : Sibling α} {r r' : Except RemoteError α} (h : Yields x v r) (h' : Yields x v r') :
    r = r' := by
  obtain ⟨s, hrun, -⟩ := h ⟨v, []⟩ rfl
  obtain ⟨s', hrun', -⟩ := h' ⟨v, []⟩ rfl
  exact congrArg Prod.fst (hrun.symm.trans hrun')

theorem yields_of_runs {α : Type} {x : Serve α} {f : Failure → RemoteError} {a : α} (h : Runs x v (.ok a) v) :
    Yields (x.mapError f) v (.ok a) := by
  intro s hs
  obtain ⟨s', hrun, hs'⟩ := h s hs
  refine ⟨s', ?_, hs'⟩
  change ((x.run s).1.mapError f, (x.run s).2) = _
  rw [hrun]
  rfl

theorem describe_path (h : v.tree.describe q = some e) : e.path = q ∧ isValidInnerPath q = true := by
  obtain ⟨r, hr, rfl⟩ := Option.map_eq_some_iff.mp h
  rw [v.get_tree] at hr
  exact ⟨rfl, (Option.ite_none_right_eq_some.mp hr).1.2⟩

theorem holds_path {name : JsString} (h : v.Holds q name e) : e.path = childPath q name ∧ parentOf e.path = q ∧ e.path ≠ q := by
  obtain ⟨hname, hdescribe⟩ := h
  have hpath := (describe_path hdescribe).1
  have hparent : parentOf e.path = q := hpath ▸ parentOf_childPath hname.2
  refine ⟨hpath, hparent, ?_⟩
  intro hself
  have hne : e.path ≠ [] := by
    rw [hpath]
    unfold childPath
    split
    · exact hname.1
    · simp
  rw [← hself] at hparent
  exact parent_ne_self hne hparent

variable (hcalm : env.Calm) (htree : v.files.WellFormed)

include hcalm htree

/-- The children of a collection, with its own entry among them; none of a path that is not valid. -/
theorem children_listed (q : JsString) : ∃ listing, Yields (DavVolumeRemote.listChildren env q) v (.ok listing) ∧
    listing.complete = isValidInnerPath q ∧ ∀ e, e ∈ listing.entries ∧ e.path ≠ q ↔ ∃ name, v.Holds q name e := by
  by_cases hvalid : isValidInnerPath q = true
  · obtain ⟨listing, hrun, hcomplete, hmem⟩ := listing_shows_tree hcalm htree hvalid
    refine ⟨listing, yields_of_runs hrun, hcomplete.trans hvalid.symm, ?_⟩
    intro e
    constructor
    · rintro ⟨he, hother⟩
      rcases (hmem e).mp he with hself | hchild
      · unfold Replication.Tree.selfEntry at hself
        split at hself
        · cases hself
        · exact absurd (describe_path (Option.mem_toList.mp hself)).1 hother
      · obtain ⟨hne, hparent, hdescribe⟩ := Replication.Tree.mem_childEntries.mp hchild
        obtain ⟨name, hname, heq⟩ := exists_name (describe_path hdescribe).2 hne
        rw [hparent] at heq
        exact ⟨name, hname, heq ▸ hdescribe⟩
    · rintro ⟨name, h⟩
      obtain ⟨hpath, hparent, hother⟩ := holds_path h
      refine ⟨(hmem e).mpr (.inr (Replication.Tree.mem_childEntries.mpr ⟨?_, hparent, hpath ▸ h.2⟩)), hother⟩
      intro hnil
      rw [hnil] at hparent hother
      exact hother hparent
  · refine ⟨⟨[], false⟩, yields_of_runs ?_, (Bool.eq_false_iff.mpr hvalid).symm, ?_⟩
    · unfold Env.listReplicaChildren
      rw [if_pos (by simpa using hvalid)]
      exact runs_pure _
    · intro e
      refine iff_of_false (fun h => absurd h.1 List.not_mem_nil) ?_
      rintro ⟨name, hname, hdescribe⟩
      exact hvalid (valid_of_child hname (describe_path hdescribe).2)

/-- A listing of a path shows what the collection under the root holds, each in the caller's coordinates. -/
theorem list_yields (hp : isValidInnerPath p = true) : ∃ listing, Yields (c.list env p) v (.ok listing) ∧
    listing.complete = isValidInnerPath (c.inner p) ∧ ∀ e, e ∈ listing.entries ↔
      ∃ name entry, v.Holds (c.inner p) name entry ∧ e = { entry with path := childPath p name } := by
  obtain ⟨children, hchildren, hcomplete, hmem⟩ := children_listed hcalm htree (c.inner p)
  unfold DavVolumeRemote.list
  rw [rooted_valid hp]
  refine ⟨_, yields_bind hchildren (yields_pure _), hcomplete, ?_⟩
  have hrenamed {name : JsString} {entry : PlanSide} (h : v.Holds (c.inner p) name entry) :
      (if p = [] then [] else p ++ [slash]) ++
        entry.path.drop (if c.inner p = [] then ([] : JsString) else c.inner p ++ [slash]).length = childPath p name := by
    have hdrop : entry.path.drop (if c.inner p = [] then ([] : JsString) else c.inner p ++ [slash]).length = name := by
      rw [(holds_path h).1]
      unfold childPath
      split
      · rfl
      · have hsplit : c.inner p ++ slash :: name = (c.inner p ++ [slash]) ++ name := by simp
        rw [hsplit, List.drop_left]
    rw [hdrop]
    unfold childPath
    split
    · rfl
    · simp
  intro e
  dsimp only
  simp only [List.mem_map, List.mem_filter, ne_eq, decide_eq_true_eq]
  constructor
  · rintro ⟨entry, hentry, rfl⟩
    obtain ⟨name, h⟩ := (hmem entry).mp hentry
    exact ⟨name, entry, h, by rw [hrenamed h]⟩
  · rintro ⟨name, entry, h, rfl⟩
    exact ⟨entry, (hmem entry).mpr ⟨name, h⟩, by rw [hrenamed h]⟩

/-- What is looked up is found where the collection that it is in is listed with it. -/
theorem stat_yields (hp : isValidInnerPath p = true) (hne : p ≠ []) (found : PlanSide) :
    Yields (c.stat env p) v (.ok (some found)) ↔ ∃ listing, Yields (c.list env (parentOf p)) v (.ok listing) ∧
      found ∈ listing.entries ∧ found.path = p := by
  obtain ⟨listing, hlisting, -, hlisted⟩ := list_yields (c := c) hcalm htree (valid_parent hp hne)
  obtain ⟨siblings, hsiblings, -, hmem⟩ := children_listed hcalm htree (c.inner (parentOf p))
  obtain ⟨name, hname, heq⟩ := exists_name hp hne
  have hinner : c.inner p = childPath (c.inner (parentOf p)) name := by
    conv_lhs => rw [heq, inner_childPath hname.1]
  have hparent := parentOf_inner (c := c) hp hne
  have hother : c.inner p ≠ c.inner (parentOf p) := by
    rw [← hparent]
    exact (parent_ne_self (inner_ne_nil hne)).symm
  have hentries : found ∈ listing.entries ∧ found.path = p ↔
      ∃ entry, v.Holds (c.inner (parentOf p)) name entry ∧ found = { entry with path := p } := by
    rw [hlisted]
    constructor
    · rintro ⟨⟨name', entry, h, rfl⟩, hpath⟩
      have hsame : name' = name := by
        have hnames := congrArg names (hpath.trans heq)
        change names (childPath (parentOf p) name') = _ at hnames
        rw [names_childPath h.1.1 h.1.2, names_childPath hname.1 hname.2] at hnames
        exact List.singleton_inj.mp (List.append_cancel_left hnames)
      subst hsame
      exact ⟨entry, h, by rw [← heq]⟩
    · rintro ⟨entry, h, rfl⟩
      exact ⟨⟨name, entry, h, by rw [← heq]⟩, rfl⟩
  have hsought (entry : PlanSide) : entry ∈ siblings.entries ∧ entry.path = c.inner p ↔
      v.Holds (c.inner (parentOf p)) name entry := by
    constructor
    · rintro ⟨hentry, hpath⟩
      obtain ⟨name', h⟩ := (hmem entry).mp ⟨hentry, hpath ▸ hother⟩
      have hdescribe := h.2
      rw [← (holds_path h).1, hpath, hinner] at hdescribe
      exact ⟨hname, hdescribe⟩
    · intro h
      exact ⟨((hmem entry).mpr ⟨name, h⟩).1, (holds_path h).1.trans hinner.symm⟩
  have hright : (∃ listing, Yields (c.list env (parentOf p)) v (.ok listing) ∧ found ∈ listing.entries ∧ found.path = p) ↔
      ∃ entry, v.Holds (c.inner (parentOf p)) name entry ∧ found = { entry with path := p } := by
    rw [← hentries]
    constructor
    · rintro ⟨listing', hlisting', hfound⟩
      obtain rfl := Except.ok.inj (yields_unique hlisting' hlisting)
      exact hfound
    · exact fun hfound => ⟨listing, hlisting, hfound⟩
  rw [hright]
  unfold DavVolumeRemote.stat
  rw [if_neg hne, rooted_valid hp, hparent]
  cases hfind : siblings.entries.find? (fun entry => entry.path = c.inner p) with
  | none =>
    have hnone : ∃ r : Except RemoteError (Option PlanSide), (∀ e, r ≠ .ok (some e)) ∧
        Yields (DavVolumeRemote.pick p (c.inner p) siblings) v r := by
      unfold DavVolumeRemote.pick
      rw [hfind]
      dsimp only
      by_cases hcomplete : siblings.complete = true
      · rw [if_neg (by simp [hcomplete])]
        refine ⟨_, ?_, yields_pure none⟩
        intro e h
        cases h
      · rw [if_pos (by simpa using hcomplete)]
        refine ⟨_, ?_, yields_throw _⟩
        intro e h
        cases h
    obtain ⟨r, hr, hpick⟩ := hnone
    refine iff_of_false ?_ ?_
    · intro hyields
      exact hr found (yields_unique (yields_bind hsiblings hpick) hyields)
    · rintro ⟨entry, h, -⟩
      obtain ⟨hentry, hpath⟩ := (hsought entry).mpr h
      exact List.find?_eq_none.mp hfind entry hentry (by simpa using hpath)
  | some entry =>
    have hentry := (hsought entry).mp ⟨List.mem_of_find?_eq_some hfind, by simpa using List.find?_some hfind⟩
    have hpick : Yields (DavVolumeRemote.pick p (c.inner p) siblings) v (.ok (some { entry with path := p })) := by
      unfold DavVolumeRemote.pick
      rw [hfind]
      exact yields_pure _
    have hyields := yields_bind hsiblings hpick
    constructor
    · intro h
      obtain rfl := Option.some.inj (Except.ok.inj (yields_unique h hyields))
      exact ⟨entry, hentry, rfl⟩
    · rintro ⟨entry', h', rfl⟩
      obtain rfl := Option.some.inj (hentry.2.symm.trans h'.2)
      exact hyields

end Listing

end DurableDav.Dav
