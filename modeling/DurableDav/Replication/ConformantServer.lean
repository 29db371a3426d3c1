import DurableDav.Replication.ListedResponses
import DurableDav.Replication.RemovalOrder

namespace DurableDav.Replication

open Library
open Dav (Url)

/-! ### What stands on a server -/

def Named (path : JsString) : Prop := ∀ s ∈ path.splitOn slash, s ≠ [] ∧ s ≠ js "." ∧ s ≠ js ".."

instance (path : JsString) : Decidable (Named path) := inferInstanceAs (Decidable (∀ s ∈ path.splitOn slash, _))

/-- The resources below the root of a target; of each, whether it is a collection. -/
structure ServerTree where
  kind : JsString → Option Bool
  parent : ∀ path, path ≠ [] → (kind path).isSome → kind (parentSegments slash path) = some true
  named : ∀ path, path ≠ [] → (kind path).isSome → Named path ∧ (encodedNames path).isSome

namespace ServerTree

variable (t : ServerTree)

def Member (path q : JsString) : Prop := q ≠ [] ∧ (t.kind q).isSome ∧ parentSegments slash q = path

/-- What may be left of the tree when so much was asked for and answered. -/
def LeftBy (log : List RemovalEvent) (t' : ServerTree) : Prop :=
  (∀ q, t'.kind q = t.kind q ∨ t'.kind q = none ∧ ∃ p m, .asked p m ∈ log ∧ (p = q ∨ Below slash p q)) ∧
    ∀ p, .deleted p ∈ log → t'.kind p = none

end ServerTree

/-- The path is the one that the root and the names make up; the root itself may come without its slash. -/
def AddressOf (root q pathname : JsString) : Prop :=
  Addresses root q pathname ∨ q = [] ∧ pathname ++ [slash] = root

/-- The body of an answer of depth one: a response for the resource itself and one for each of its members. -/
def Describes (m : MultistatusPlatform) (root : JsString) (baseUrl : Url) (t : ServerTree) (path body : JsString) : Prop :=
  ∃ responses members, m.responsesOf body = some responses ∧ members.Nodup ∧
    (∀ q, q ∈ members ↔ q = path ∨ t.Member path q) ∧
    List.Forall₂ (fun q r => ¬ m.Throws r ∧ ∃ pathname, m.pathnameOf baseUrl r = some pathname ∧ AddressOf root q pathname)
      members responses

/-- A target with the server behind it, which answers by what stands on it. -/
structure Served where
  target : DavHttpRemote
  platform : MultistatusPlatform
  respond : ServerTree → Sent → Response

namespace Served

variable (v : Served)

/-- The target's root is one that it could be constructed with. -/
def Made : Prop := stripSlashes v.target.rootInner = v.target.rootInner ∧ (encodedNames v.target.rootInner).isSome

/-- The target while the tree stands still. -/
def still (t : ServerTree) : DavHttpRemote := { v.target with answer := fun log => log.getLast?.map (v.respond t) }

/-- The answer to a listing, as the code reads it; `none` where it throws. -/
def listed (t : ServerTree) (path : JsString) : Option (List JsString) :=
  (((v.still t).listParsed v.platform path).run []).1.toOption.map fun listing => listing.entries.map PlanSide.path

/-- For whatever is left of the tree, a listing of depth one is answered as it is prescribed. -/
def Conforms (tree : ServerTree) : Prop :=
  ∀ t : ServerTree, (∀ q, t.kind q = tree.kind q ∨ t.kind q = none) → ∀ path baseUrl, (t.kind path).isSome →
    joinUrl v.target.base [v.target.rootInner, path] = some baseUrl →
      (v.respond t ⟨DavHttpRemote.listRequest, baseUrl, v.target.authHeader.authorization⟩).status = 207 ∧
        Describes v.platform v.target.rootPathname baseUrl t path
          (v.respond t ⟨DavHttpRemote.listRequest, baseUrl, v.target.authHeader.authorization⟩).text

/-- The turns of a removal from this server, which deletes what it is asked to delete. -/
def Plays (tree : ServerTree) (s : Removal) : RemovalTurn → Prop
  | .listed i children => ∃ call t, s.calls[i]? = some call ∧ tree.LeftBy s.log t ∧ v.listed t call.path = some children
  | .unlisted i => ∃ call t, s.calls[i]? = some call ∧ tree.LeftBy s.log t ∧ v.listed t call.path = none
  | .undeleted _ => False
  | .works _ _ | .joined _ | .deleted _ => True

/-- A listing does not have the collection in itself; and a recursive removal comes to its end without having thrown,
having asked for the resource and all below it, each once and below first. -/
structure RemovesWhole (tree : ServerTree) (path : JsString) (ifMatch : Option JsString) : Prop where
  outside : ∀ children, v.listed tree path = some children → path ∉ children
  removes : ∀ turns s, Admitted (RemoveRecursiveOptions.step ⟨path, ifMatch, true⟩) (v.Plays tree)
      (RemoveRecursiveOptions.initial ⟨path, ifMatch, true⟩) turns →
    run (RemoveRecursiveOptions.step ⟨path, ifMatch, true⟩) (RemoveRecursiveOptions.initial ⟨path, ifMatch, true⟩) turns =
      some s →
    (∀ turn, v.Plays tree s turn → RemoveRecursiveOptions.step ⟨path, ifMatch, true⟩ s turn = none) →
    (∃ call, s.calls[0]? = some call ∧ call.phase = .resolved) ∧
      (∀ q, (∃ m, .asked q m ∈ s.log) ↔ (tree.kind q).isSome ∧ (q = path ∨ Below slash path q)) ∧
      (s.log.filterMap RemovalEvent.asks).Nodup ∧
      ∀ before q m after, s.log = before ++ .asked q m :: after →
        ∀ p, (tree.kind p).isSome → Below slash q p → .deleted p ∈ before

end Served

/-! ### What a listing says of the server -/

section Listing

variable {v : Served} {t tree : ServerTree} {root path q pathname : JsString}

theorem address_entry (hq : q ≠ [] → Named q) (h : AddressOf root q pathname) :
    toInnerEntry pathname root = if q = [] then none else some q := by
  rcases h with ⟨before, after, hbefore, hafter, rfl, -⟩ | ⟨rfl, rfl⟩
  · have hstrip : stripSlashes (before ++ q ++ after) = stripSlashes q := strip_around hbefore hafter q
    rw [List.append_assoc, List.append_assoc, ← List.append_assoc before, toInnerEntry_append, hstrip]
    by_cases hnil : q = []
    · subst hnil
      rfl
    · have hnamed := hq hnil
      have hdots : ((q.splitOn slash).any fun segment => segment = js ".." ∨ segment = js ".") = false := by
        rw [List.any_eq_false]
        intro s hs
        obtain ⟨-, hone, htwo⟩ := hnamed s hs
        simp [hone, htwo]
      rw [strip_named fun s hs => (hnamed s hs).1, if_neg hnil, if_neg hnil, hdots]
      rfl
  · rw [if_pos rfl]
    apply entry_outside
    left
    intro hfront
    have hlength := hfront.length_le
    rw [List.length_append, List.length_singleton] at hlength
    omega

/-- A request that is not redirected is answered at once. -/
theorem request_run (c : DavHttpRemote) {init : RequestInit} {target : Url} {response : Response} {log : List Sent}
    (htarget : joinUrl c.base [c.rootInner, path] = some target)
    (hanswer : c.answer (log ++ [⟨init, target, c.authHeader.authorization⟩]) = some response)
    (hredirect : response.redirect = none) :
    (c.request path init).run log = (.ok response, log ++ [⟨init, target, c.authHeader.authorization⟩]) := by
  have hfetch : (c.fetch init target 0).run log = (.ok response, log ++ [⟨init, target, c.authHeader.authorization⟩]) := by
    unfold DavHttpRemote.fetch
    rw [if_neg (fun h => Nat.lt_irrefl 0 h.1), Act.run_bind_ok (Act.run_modify _ log), Act.run_bind_ok (Act.run_read _),
      hanswer]
    rfl
  have hhops : (c.hops init path c.maxRedirects target [target]).run log =
      (.ok response, log ++ [⟨init, target, c.authHeader.authorization⟩]) := by
    cases hbudget : c.maxRedirects with
    | zero =>
      unfold DavHttpRemote.hops
      rw [hbudget, Act.run_bind_ok hfetch, hredirect]
      rfl
    | succ budget =>
      unfold DavHttpRemote.hops
      rw [hbudget, Nat.sub_self, Act.run_bind_ok hfetch, hredirect]
      rfl
  unfold DavHttpRemote.request
  rw [htarget]
  exact hhops

theorem redirect_none {r : Response} (h : r.status < 300 ∨ 400 ≤ r.status) : r.redirect = none := if_pos h

/-- What is listed of a body are the paths of its addresses below the root. -/
theorem mem_listing {c : DavHttpRemote} {m : MultistatusPlatform} {baseUrl : Url} {body : JsString}
    {responses : List XmlNode} (hresponses : m.responsesOf body = some responses) (hfine : ∀ r ∈ responses, ¬ m.Throws r) :
    ∃ listing, c.readListing m path baseUrl body = .ok listing ∧ ∀ q, q ∈ listing.entries.map PlanSide.path ↔
      ∃ r ∈ responses, ∃ pathname, m.pathnameOf baseUrl r = some pathname ∧
        toInnerEntry pathname c.rootPathname = some q := by
  obtain ⟨resources, hresources⟩ : ∃ resources, responses.mapM (m.readResource baseUrl) = .ok resources := by
    apply mapM_ok_iff.mpr
    intro r hr
    exact (readResource_ok_iff baseUrl r).mpr fun _ => hfine r hr
  refine ⟨_, readListing_ok hresponses hresources, ?_⟩
  intro q
  constructor
  · intro hq
    obtain ⟨e, he, rfl⟩ := List.mem_map.mp hq
    obtain ⟨resource, hresource, hentry⟩ := List.mem_filterMap.mp he
    obtain ⟨r, hr, hresult⟩ := (mem_resources hresources).mp hresource
    exact ⟨r, hr, resource.pathname, (readResource_some hresult).1, toEntry_path hentry⟩
  · rintro ⟨r, hr, pathname, hpathname, hinner⟩
    obtain ⟨result, hresult⟩ := mapM_ok_iff.mp ⟨resources, hresources⟩ r hr
    obtain ⟨resource, rfl, rfl, -⟩ := readResource_of_pathname hpathname hresult
    obtain ⟨e, he⟩ : ∃ e, c.toEntry resource = some e := by
      rw [← Option.isSome_iff_exists, toEntry_isSome, hinner]
      rfl
    have hsame : e.path = q := Option.some.inj ((toEntry_path he).symm.trans hinner)
    exact List.mem_map.mpr ⟨e, List.mem_filterMap.mpr ⟨resource, (mem_resources hresources).mpr ⟨r, hr, hresult⟩, he⟩, hsame⟩

theorem forall₂_mem_right {α β : Type} {R : α → β → Prop} {xs : List α} {ys : List β} (h : List.Forall₂ R xs ys) :
    (∀ x ∈ xs, ∃ y ∈ ys, R x y) ∧ ∀ y ∈ ys, ∃ x ∈ xs, R x y := by
  induction h with
  | nil => exact ⟨nofun, nofun⟩
  | @cons x y xs ys hxy _ ih =>
    constructor
    · intro x' hx'
      rcases List.mem_cons.mp hx' with rfl | hx'
      · exact ⟨y, List.mem_cons_self, hxy⟩
      · obtain ⟨y', hy', hxy'⟩ := ih.1 x' hx'
        exact ⟨y', List.mem_cons_of_mem y hy', hxy'⟩
    · intro y' hy'
      rcases List.mem_cons.mp hy' with rfl | hy'
      · exact ⟨x, List.mem_cons_self, hxy⟩
      · obtain ⟨x', hx', hxy'⟩ := ih.2 y' hy'
        exact ⟨x', List.mem_cons_of_mem x hx', hxy'⟩

/-- A described collection is listed with itself, the root alone is not. -/
theorem described_listing {c : DavHttpRemote} {m : MultistatusPlatform} {baseUrl : Url} {body : JsString}
    (h : Describes m c.rootPathname baseUrl t path body) (hpath : (t.kind path).isSome) :
    ∃ listing, c.readListing m path baseUrl body = .ok listing ∧
      ∀ q, q ∈ listing.entries.map PlanSide.path ↔ q ≠ [] ∧ (q = path ∨ t.Member path q) := by
  obtain ⟨responses, members, hresponses, -, hmembers, hall⟩ := h
  obtain ⟨hdown, hup⟩ := forall₂_mem_right hall
  have hfine : ∀ r ∈ responses, ¬ m.Throws r := by
    intro r hr
    obtain ⟨q, -, hthrows, -⟩ := hup r hr
    exact hthrows
  have hnamed : ∀ q ∈ members, q ≠ [] → Named q := by
    intro q hq hne
    rcases (hmembers q).mp hq with rfl | hmember
    · exact (t.named q hne hpath).1
    · exact (t.named q hne hmember.2.1).1
  obtain ⟨listing, hlisting, hmem⟩ := @mem_listing path c m baseUrl _ _ hresponses hfine
  refine ⟨listing, hlisting, fun q => (hmem q).trans ?_⟩
  constructor
  · rintro ⟨r, hr, pathname, hpathname, hinner⟩
    obtain ⟨q', hq', -, pathname', hpathname', haddress⟩ := hup r hr
    obtain rfl := Option.some.inj (hpathname.symm.trans hpathname')
    rw [address_entry (hnamed q' hq') haddress] at hinner
    split_ifs at hinner with hnil
    obtain rfl := Option.some.inj hinner
    exact ⟨hnil, (hmembers q').mp hq'⟩
  · rintro ⟨hne, hq⟩
    have hmember := (hmembers q).mpr hq
    obtain ⟨r, hr, -, pathname, hpathname, haddress⟩ := hdown q hmember
    refine ⟨r, hr, pathname, hpathname, ?_⟩
    rw [address_entry (hnamed q hmember) haddress, if_neg hne]

theorem made_url (hmade : v.Made) (hpath : path ≠ [] → Named path ∧ (encodedNames path).isSome) :
    ∃ baseUrl, joinUrl v.target.base [v.target.rootInner, path] = some baseUrl := by
  have hstrip : stripSlashes path = path := by
    by_cases hnil : path = []
    · rw [hnil]
      rfl
    · exact strip_named fun s hs => ((hpath hnil).1 s hs).1
  have hnames : (encodedNames path).isSome := by
    by_cases hnil : path = []
    · rw [hnil]
      rfl
    · exact (hpath hnil).2
  obtain ⟨es, hes⟩ := Option.isSome_iff_exists.mp hmade.2
  obtain ⟨ps, hps⟩ := Option.isSome_iff_exists.mp hnames
  rw [joinUrl_eq hmade.1 hstrip, hes, hps]
  exact ⟨_, rfl⟩

theorem listed_spec (hmade : v.Made) (hconforms : v.Conforms tree) (ht : ∀ q, t.kind q = tree.kind q ∨ t.kind q = none)
    (hpath : (t.kind path).isSome) :
    ∃ children, v.listed t path = some children ∧ ∀ q, q ∈ children ↔ q ≠ [] ∧ (q = path ∨ t.Member path q) := by
  obtain ⟨baseUrl, hbase⟩ := made_url hmade fun hne => t.named path hne hpath
  obtain ⟨hstatus, hdescribes⟩ := hconforms t ht path baseUrl hpath hbase
  have hlogged : (v.still t).answer ([] ++ [⟨DavHttpRemote.listRequest, baseUrl, (v.still t).authHeader.authorization⟩]) =
      some (v.respond t ⟨DavHttpRemote.listRequest, baseUrl, v.target.authHeader.authorization⟩) := rfl
  have hrequest := request_run (v.still t) hbase hlogged (redirect_none (.inl (by rw [hstatus]; decide)))
  obtain ⟨listing, hlisting, hmem⟩ := described_listing (c := v.still t) hdescribes hpath
  refine ⟨listing.entries.map PlanSide.path, ?_, hmem⟩
  unfold Served.listed
  rw [listParsed_run hrequest hstatus hbase, hlisting]
  rfl

end Listing

/-! ### A removal that meets its own collection -/

/-- So far only listings were answered, and nothing can be asked for before what is listed is gone. -/
structure Blocked (tree : ServerTree) (s : Removal) : Prop where
  quiet : ∀ e ∈ s.log, ∃ p cs, e = RemovalEvent.listed p cs
  calls : ∀ c ∈ s.calls, (tree.kind c.path).isSome ∧ (c.phase ≠ .deleting ∧ c.phase ≠ .resolved) ∧
    (c.phase = .joining → c.children ≠ []) ∧ ∀ child ∈ c.children, (tree.kind child).isSome

section Blocking

variable {v : Served} {tree t : ServerTree} {o : RemoveRecursiveOptions} {s s' : Removal} {path q : JsString}

theorem left_quiet {log : List RemovalEvent} (hleft : tree.LeftBy log t) (hquiet : ∀ e ∈ log, ∃ p cs, e = RemovalEvent.listed p cs)
    (q : JsString) : t.kind q = tree.kind q := by
  rcases hleft.1 q with hsame | ⟨-, p, m, hasked, -⟩
  · exact hsame
  · obtain ⟨p', cs, heq⟩ := hquiet _ hasked
    cases heq

/-- Where there is anything but the root, the root has a member. -/
theorem root_member (hne : q ≠ []) (hq : (tree.kind q).isSome) : ∃ p, tree.Member [] p := by
  induction hn : q.length using Nat.strong_induction_on generalizing q with
  | _ n ih =>
  by_cases htop : parentSegments slash q = []
  · exact ⟨q, hne, hq, htop⟩
  · have hsep : slash ∈ q := by
      by_contra hsep
      exact htop (parentSegments_of_notMem hsep)
    obtain ⟨name, hsplit, -⟩ := parentSegments_spec hsep
    have hlength := congrArg List.length hsplit
    rw [List.length_append, List.length_cons] at hlength
    refine ih (parentSegments slash q).length (by omega) htop ?_ rfl
    rw [tree.parent q hne hq]
    rfl

theorem children_present (hmade : v.Made) (hconforms : v.Conforms tree) (hmember : ∃ p, tree.Member [] p)
    (ht : ∀ q, t.kind q = tree.kind q) (hpath : (tree.kind path).isSome) {children : List JsString}
    (hlisted : v.listed t path = some children) :
    children ≠ [] ∧ ∀ child ∈ children, (tree.kind child).isSome := by
  obtain ⟨children', hlisted', hmem⟩ := listed_spec hmade hconforms (fun q => .inl (ht q)) ((ht path).symm ▸ hpath)
  obtain rfl := Option.some.inj (hlisted.symm.trans hlisted')
  constructor
  · by_cases hne : path = []
    · obtain ⟨p, hp, hthere, hparent⟩ := hmember
      refine List.ne_nil_of_mem ((hmem p).mpr ⟨hp, .inr ⟨hp, ?_, hparent.trans hne.symm⟩⟩)
      rw [ht]
      exact hthere
    · exact List.ne_nil_of_mem ((hmem path).mpr ⟨hne, .inl rfl⟩)
  · intro child hchild
    rcases ((hmem child).mp hchild).2 with rfl | ⟨-, hthere, -⟩
    · exact hpath
    · rwa [ht] at hthere

theorem blocked_entered (hrecursive : o.recursive = true) (hs : Blocked tree s) (hq : (tree.kind q).isSome)
    (caller : Option ℕ) (depth : ℕ) : Blocked tree (o.removeRecursive s caller q depth) := by
  have hnew (phase : RemovalPhase) (hphase : phase = .refused ∨ phase = .listing) :
      ∀ c ∈ s.calls ++ [⟨q, depth, caller, phase, [], 0, []⟩], (tree.kind c.path).isSome ∧
        (c.phase ≠ .deleting ∧ c.phase ≠ .resolved) ∧
        (c.phase = .joining → c.children ≠ []) ∧ ∀ child ∈ c.children, (tree.kind child).isSome := by
    intro c hc
    rcases List.mem_append.mp hc with hold | hlast
    · exact hs.calls c hold
    · obtain rfl := List.mem_singleton.mp hlast
      rcases hphase with rfl | rfl
      · exact ⟨hq, ⟨nofun, nofun⟩, nofun, nofun⟩
      · exact ⟨hq, ⟨nofun, nofun⟩, nofun, nofun⟩
  unfold RemoveRecursiveOptions.removeRecursive
  split_ifs with hvisited hdepth hplain
  · exact ⟨hs.quiet, hnew .refused (.inl rfl)⟩
  · exact ⟨hs.quiet, hnew .refused (.inl rfl)⟩
  · rw [hrecursive] at hplain
    cases hplain
  · exact ⟨hs.quiet, hnew .listing (.inr rfl)⟩

theorem blocked_set {i : ℕ} {c' : Removing} {events : List RemovalEvent} (hs : Blocked tree s)
    (hevents : ∀ e ∈ events, ∃ p cs, e = RemovalEvent.listed p cs)
    (hc' : (tree.kind c'.path).isSome ∧ (c'.phase ≠ .deleting ∧ c'.phase ≠ .resolved) ∧
      (c'.phase = .joining → c'.children ≠ []) ∧ ∀ child ∈ c'.children, (tree.kind child).isSome) :
    Blocked tree { s.update i c' with log := s.log ++ events } := by
  constructor
  · intro e he
    exact (List.mem_append.mp he).elim (hs.quiet e) (hevents e)
  · intro c hc
    rcases List.mem_or_eq_of_mem_set hc with hold | rfl
    · exact hs.calls c hold
    · exact hc'

theorem work_cases {i j : ℕ} {c : Removing} {w : RemovalWorker} (h : o.work s i j c w = some s') :
    (∃ w', s' = s.update i (c.works j w')) ∨ ∃ child ∈ c.children,
      s' = o.removeRecursive (s.update i (c.takes j s.calls.length)) (some i) child (c.depth + 1) := by
  cases w with
  | ready =>
    unfold RemoveRecursiveOptions.work at h
    cases hchild : c.children[c.index]? with
    | none =>
      rw [hchild] at h
      exact .inl ⟨_, (Option.some.inj h).symm⟩
    | some child =>
      rw [hchild] at h
      exact .inr ⟨child, List.mem_of_getElem? hchild, (Option.some.inj h).symm⟩
  | awaiting k =>
    obtain ⟨awaited, -, h⟩ := Option.bind_eq_some_iff.mp h
    split_ifs at h
    · exact .inl ⟨_, (Option.some.inj h).symm⟩
    · exact .inl ⟨_, (Option.some.inj h).symm⟩
  | finished => cases h
  | failed => cases h

theorem blocked_step (hmade : v.Made) (hconforms : v.Conforms tree)
    (hmember : ∃ p, tree.Member [] p) (hrecursive : o.recursive = true) (hsound : s.Sound)
    (hs : Blocked tree s) {turn : RemovalTurn} (hplays : v.Plays tree s turn) (h : o.step s turn = some s') : Blocked tree s' := by
  have hquiet (i : ℕ) (c : Removing) : s.update i c = { s.update i c with log := s.log ++ [] } := by
    rw [List.append_nil]
    rfl
  have hin {i : ℕ} {c : Removing} (hc : s.calls[i]? = some c) := hs.calls c (List.mem_of_getElem? hc)
  have hkept {i : ℕ} {c : Removing} (hc : s.calls[i]? = some c) (c' : Removing) (hpath : c'.path = c.path)
      (hphase : c'.phase = c.phase ∨ c'.phase = .rejected) (hchildren : c'.children = c.children) :
      (tree.kind c'.path).isSome ∧ (c'.phase ≠ .deleting ∧ c'.phase ≠ .resolved) ∧
        (c'.phase = .joining → c'.children ≠ []) ∧ ∀ child ∈ c'.children, (tree.kind child).isSome := by
    obtain ⟨hthere, hunasked, hfull, hchild⟩ := hin hc
    rw [hpath, hchildren]
    rcases hphase with heq | heq
    · rw [heq]
      exact ⟨hthere, hunasked, hfull, hchild⟩
    · rw [heq]
      exact ⟨hthere, ⟨nofun, nofun⟩, nofun, hchild⟩
  cases turn with
  | listed i children =>
    obtain ⟨c, hc, rfl⟩ := Option.map_eq_some_iff.mp h
    obtain ⟨hc, hphase⟩ := inPhase_eq_some.mp hc
    obtain ⟨c', t, hc', hleft, hlisted⟩ := hplays
    obtain rfl := Option.some.inj (hc.symm.trans hc')
    obtain ⟨hfull, hthere⟩ := children_present hmade hconforms hmember (left_quiet hleft hs.quiet) (hin hc).1 hlisted
    refine blocked_set hs ?_ ⟨(hin hc).1, ⟨nofun, nofun⟩, fun _ => hfull, hthere⟩
    intro e he
    exact ⟨c.path, children, List.mem_singleton.mp he⟩
  | unlisted i =>
    obtain ⟨c, hc, rfl⟩ := Option.map_eq_some_iff.mp h
    obtain ⟨hc, -⟩ := inPhase_eq_some.mp hc
    rw [hquiet]
    exact blocked_set hs nofun (hkept hc _ rfl (.inr rfl) rfl)
  | works i j =>
    obtain ⟨c, hc, h⟩ := Option.bind_eq_some_iff.mp h
    obtain ⟨w, -, h⟩ := Option.bind_eq_some_iff.mp h
    rcases work_cases h with ⟨w', rfl⟩ | ⟨child, hchild, rfl⟩
    · rw [hquiet]
      exact blocked_set hs nofun (hkept hc _ rfl (.inl rfl) rfl)
    · apply blocked_entered hrecursive _ ((hin hc).2.2.2 child hchild)
      rw [hquiet]
      exact blocked_set hs nofun (hkept hc _ rfl (.inl rfl) rfl)
  | joined i =>
    obtain ⟨c, hc, h⟩ := Option.bind_eq_some_iff.mp h
    obtain ⟨hc, hphase⟩ := inPhase_eq_some.mp hc
    split_ifs at h with hfailed hall
    · obtain rfl := Option.some.inj h
      rw [hquiet]
      exact blocked_set hs nofun (hkept hc _ rfl (.inr rfl) rfl)
    · -- what was listed would have to be deleted by now
      obtain ⟨child, hchild⟩ := List.exists_mem_of_ne_nil _ ((hin hc).2.2.1 hphase)
      obtain ⟨p, cs, heq⟩ := hs.quiet _ (children_deleted hsound hc hphase hall child hchild)
      cases heq
  | deleted i =>
    obtain ⟨c, hc, rfl⟩ := Option.map_eq_some_iff.mp h
    obtain ⟨hc, hphase⟩ := inPhase_eq_some.mp hc
    exact absurd hphase (hin hc).2.1.1
  | undeleted i => exact hplays.elim

/-- Where there is anything but the root, nothing is ever asked for. -/
theorem never_resolved (hmade : v.Made) (hconforms : v.Conforms tree) (hmember : ∃ p, tree.Member [] p)
    (hpath : (tree.kind path).isSome) {ifMatch : Option JsString} {turns : List RemovalTurn}
    (hplays : Admitted (RemoveRecursiveOptions.step ⟨path, ifMatch, true⟩) (v.Plays tree)
      (RemoveRecursiveOptions.initial ⟨path, ifMatch, true⟩) turns)
    (hrun : run (RemoveRecursiveOptions.step ⟨path, ifMatch, true⟩) (RemoveRecursiveOptions.initial ⟨path, ifMatch, true⟩)
      turns = some s) : Blocked tree s := by
  have hstart : Blocked tree (RemoveRecursiveOptions.initial ⟨path, ifMatch, true⟩) :=
    blocked_entered rfl ⟨fun e he => absurd he List.not_mem_nil, fun c hc => absurd hc List.not_mem_nil⟩ hpath none 0
  exact (run_preserves (P := fun s => (s.Sound ∧ BottomUp s.log) ∧ Blocked tree s)
    (fun s turn s' hs hturn hstep =>
      ⟨step_kept hs.1 hstep, blocked_step hmade hconforms hmember rfl hs.1.1 hs.2 hturn hstep⟩)
    ⟨⟨initial_sound _, initial_bottomUp _⟩, hstart⟩ hplays hrun).2

end Blocking

/-! ### The removal of an empty root -/

/-- What was logged when the one call has come so far; it is never refused and does not throw. -/
def emptyingLog (ifMatch : Option JsString) : RemovalPhase → Option (List RemovalEvent)
  | .listing => some []
  | .joining => some [.listed [] []]
  | .deleting => some [.listed [] [], .asked [] ifMatch]
  | .resolved => some [.listed [] [], .asked [] ifMatch, .deleted []]
  | .refused | .rejected => none

def Emptying (ifMatch : Option JsString) (s : Removal) : Prop :=
  ∃ phase workers, s.calls = [⟨[], 0, none, phase, [], 0, workers⟩] ∧
    (∀ w ∈ workers, w = RemovalWorker.ready ∨ w = .finished) ∧ emptyingLog ifMatch phase = some s.log

section Emptying

variable {v : Served} {tree t : ServerTree} {s s' : Removal} {ifMatch : Option JsString}

theorem root_listed (hmade : v.Made) (hconforms : v.Conforms tree) (hroot : (tree.kind []).isSome)
    (honly : ∀ q, (tree.kind q).isSome → q = []) (hleft : tree.LeftBy [] t) : v.listed t [] = some [] := by
  have hsame (q : JsString) : t.kind q = tree.kind q := left_quiet hleft (fun e he => absurd he List.not_mem_nil) q
  obtain ⟨children, hlisted, hmem⟩ := listed_spec hmade hconforms (fun q => .inl (hsame q)) ((hsame []).symm ▸ hroot)
  have hnone : children = [] := by
    rw [List.eq_nil_iff_forall_not_mem]
    intro q hq
    obtain ⟨hne, hself | ⟨-, hthere, -⟩⟩ := (hmem q).mp hq
    · exact hne hself
    · rw [hsame] at hthere
      exact hne (honly q hthere)
  rw [hlisted, hnone]

theorem get_single {α : Type} {a b : α} {i : ℕ} (h : [a][i]? = some b) : i = 0 ∧ b = a := by
  cases i with
  | zero => exact ⟨rfl, (Option.some.inj h).symm⟩
  | succ i => cases h

theorem emptying_step (hmade : v.Made) (hconforms : v.Conforms tree) (hroot : (tree.kind []).isSome)
    (honly : ∀ q, (tree.kind q).isSome → q = []) {turn : RemovalTurn} (hs : Emptying ifMatch s)
    (hplays : v.Plays tree s turn) (h : RemoveRecursiveOptions.step ⟨[], ifMatch, true⟩ s turn = some s') :
    Emptying ifMatch s' := by
  obtain ⟨phase, workers, hcalls, hworkers, hlog⟩ := hs
  have hsole {i : ℕ} {c : Removing} (hc : s.calls[i]? = some c) : i = 0 ∧ c = ⟨[], 0, none, phase, [], 0, workers⟩ := by
    rw [hcalls] at hc
    exact get_single hc
  have hupdate (c : Removing) : (s.update 0 c).calls = [c] := by
    change s.calls.set 0 c = [c]
    rw [hcalls]
    rfl
  have hasked (i : ℕ) {t : ServerTree} (hphase : phase = .listing) {call : Removing} (hcall : s.calls[i]? = some call)
      (hleft : tree.LeftBy s.log t) : v.listed t call.path = some [] := by
    obtain ⟨-, rfl⟩ := hsole hcall
    rw [hphase] at hlog
    rw [← Option.some.inj hlog] at hleft
    exact root_listed hmade hconforms hroot honly hleft
  cases turn with
  | listed i children =>
    obtain ⟨c, hc, rfl⟩ := Option.map_eq_some_iff.mp h
    obtain ⟨hc, hphase⟩ := inPhase_eq_some.mp hc
    obtain ⟨call, t, hcall, hleft, hlisted⟩ := hplays
    obtain ⟨rfl, rfl⟩ := hsole hc
    rw [hasked 0 hphase hcall hleft] at hlisted
    obtain rfl := Option.some.inj hlisted
    rw [show phase = .listing from hphase] at hlog
    refine ⟨.joining, [.ready], hupdate _, by simp, ?_⟩
    change _ = some (s.log ++ _)
    rw [← Option.some.inj hlog]
    rfl
  | unlisted i =>
    obtain ⟨c, hc, rfl⟩ := Option.map_eq_some_iff.mp h
    obtain ⟨hc, hphase⟩ := inPhase_eq_some.mp hc
    obtain ⟨call, t, hcall, hleft, hlisted⟩ := hplays
    obtain ⟨rfl, rfl⟩ := hsole hc
    rw [hasked 0 hphase hcall hleft] at hlisted
    cases hlisted
  | works i j =>
    obtain ⟨c, hc, h⟩ := Option.bind_eq_some_iff.mp h
    obtain ⟨w, hw, h⟩ := Option.bind_eq_some_iff.mp h
    obtain ⟨rfl, rfl⟩ := hsole hc
    rcases hworkers w (List.mem_of_getElem? hw) with rfl | rfl
    · obtain rfl := Option.some.inj h
      refine ⟨phase, workers.set j .finished, hupdate _, ?_, hlog⟩
      intro w hmem
      exact (List.mem_or_eq_of_mem_set hmem).elim (hworkers w) .inr
    · cases h
  | joined i =>
    obtain ⟨c, hc, h⟩ := Option.bind_eq_some_iff.mp h
    obtain ⟨hc, hphase⟩ := inPhase_eq_some.mp hc
    obtain ⟨rfl, rfl⟩ := hsole hc
    split_ifs at h with hfailed hall
    · rcases hworkers _ hfailed with h | h <;> cases h
    · obtain rfl := Option.some.inj h
      rw [show phase = .joining from hphase] at hlog
      refine ⟨.deleting, workers, hupdate _, hworkers, ?_⟩
      change _ = some (s.log ++ _)
      rw [← Option.some.inj hlog]
      rfl
  | deleted i =>
    obtain ⟨c, hc, rfl⟩ := Option.map_eq_some_iff.mp h
    obtain ⟨hc, hphase⟩ := inPhase_eq_some.mp hc
    obtain ⟨rfl, rfl⟩ := hsole hc
    rw [show phase = .deleting from hphase] at hlog
    refine ⟨.resolved, workers, hupdate _, hworkers, ?_⟩
    change _ = some (s.log ++ _)
    rw [← Option.some.inj hlog]
    rfl
  | undeleted i => exact hplays.elim

/-- As long as the call is not resolved there is a turn. -/
theorem emptying_goes_on (hmade : v.Made) (hconforms : v.Conforms tree) (hroot : (tree.kind []).isSome)
    (honly : ∀ q, (tree.kind q).isSome → q = []) (hs : Emptying ifMatch s)
    (hstuck : ∀ turn, v.Plays tree s turn → RemoveRecursiveOptions.step ⟨[], ifMatch, true⟩ s turn = none) :
    ∃ workers, s.calls = [⟨[], 0, none, .resolved, [], 0, workers⟩] ∧
      s.log = [.listed [] [], .asked [] ifMatch, .deleted []] := by
  obtain ⟨phase, workers, hcalls, hworkers, hlog⟩ := hs
  have hcall : s.calls[0]? = some ⟨[], 0, none, phase, [], 0, workers⟩ := by
    rw [hcalls]
    rfl
  have hin : s.inPhase 0 phase = some ⟨[], 0, none, phase, [], 0, workers⟩ := inPhase_eq_some.mpr ⟨hcall, rfl⟩
  cases phase with
  | listing =>
    have hleft : tree.LeftBy s.log tree := by
      rw [← Option.some.inj hlog]
      exact ⟨fun q => .inl rfl, fun p hp => absurd hp List.not_mem_nil⟩
    have hlisted := root_listed hmade hconforms hroot honly ((Option.some.inj hlog).symm ▸ hleft)
    have hnone := hstuck (.listed 0 []) ⟨_, tree, hcall, hleft, hlisted⟩
    change (s.inPhase 0 .listing).map _ = none at hnone
    rw [hin] at hnone
    cases hnone
  | joining =>
    by_cases hall : ∀ w ∈ workers, w = .finished
    · have hnone := hstuck (.joined 0) trivial
      change (s.inPhase 0 .joining).bind _ = none at hnone
      rw [hin, Option.bind_some, if_neg (fun h => by cases hall _ h), if_pos hall] at hnone
      cases hnone
    · push Not at hall
      obtain ⟨w, hw, hunfinished⟩ := hall
      obtain rfl := (hworkers w hw).resolve_right hunfinished
      obtain ⟨j, hj, hget⟩ := List.getElem_of_mem hw
      have hnone := hstuck (.works 0 j) trivial
      change (s.calls[0]?.bind _) = none at hnone
      rw [hcalls] at hnone
      change (workers[j]?.bind _) = none at hnone
      rw [List.getElem?_eq_getElem hj, hget] at hnone
      cases hnone
  | deleting =>
    have hnone := hstuck (.deleted 0) trivial
    change (s.inPhase 0 .deleting).map _ = none at hnone
    rw [hin] at hnone
    cases hnone
  | resolved => exact ⟨workers, hcalls, (Option.some.inj hlog).symm⟩
  | refused => cases hlog
  | rejected => cases hlog

end Emptying

/-- A recursive removal does what it says of the empty root alone: every other collection is listed in itself, which
the removal takes for a cycle. -/
theorem removes_whole_iff {v : Served} (hmade : v.Made) {tree : ServerTree} (hconforms : v.Conforms tree) {path : JsString}
    (hpath : (tree.kind path).isSome) (ifMatch : Option JsString) :
    v.RemovesWhole tree path ifMatch ↔ path = [] ∧ ∀ q, (tree.kind q).isSome → q = [] := by
  constructor
  · intro hremoves
    by_contra hno
    obtain ⟨p, hp⟩ : ∃ p, tree.Member [] p := by
      by_cases hnil : path = []
      · obtain ⟨q, hq, hne⟩ : ∃ q, (tree.kind q).isSome ∧ q ≠ [] := by
          by_contra hall
          push Not at hall
          exact hno ⟨hnil, hall⟩
        exact root_member hne hq
      · exact root_member hnil hpath
    obtain ⟨turns, s, hplays, hrun, hstuck⟩ := @exists_stuck_run _ _ _ (v.Plays tree)
      (turns_end ⟨path, ifMatch, true⟩) (RemoveRecursiveOptions.initial ⟨path, ifMatch, true⟩)
    obtain ⟨⟨call, hcall, hresolved⟩, -⟩ := hremoves.removes turns s hplays hrun hstuck
    have hblocked := never_resolved hmade hconforms ⟨p, hp⟩ hpath hplays hrun
    exact (hblocked.calls call (List.mem_of_getElem? hcall)).2.1.2 hresolved
  · rintro ⟨rfl, honly⟩
    refine ⟨?_, ?_⟩
    · intro children hlisted hmem
      obtain ⟨children', hlisted', hspec⟩ := listed_spec hmade hconforms (fun q => .inl rfl) hpath
      obtain rfl := Option.some.inj (hlisted.symm.trans hlisted')
      exact ((hspec []).mp hmem).1 rfl
    · intro turns s hplays hrun hstuck
      have hemptying : Emptying ifMatch s := run_preserves
        (fun s turn s' hs hturn hstep => emptying_step hmade hconforms hpath honly hs hturn hstep)
        ⟨.listing, [], rfl, nofun, rfl⟩ hplays hrun
      obtain ⟨workers, hcalls, hlog⟩ := emptying_goes_on hmade hconforms hpath honly hemptying hstuck
      refine ⟨⟨_, by rw [hcalls]; rfl, rfl⟩, ?_, (reaches_kept ⟨turns, hrun⟩).2.once, ?_⟩
      · intro q
        rw [hlog]
        constructor
        · rintro ⟨m, hm⟩
          simp only [List.mem_cons, RemovalEvent.asked.injEq, reduceCtorEq, List.not_mem_nil, or_false, false_or] at hm
          obtain ⟨rfl, -⟩ := hm
          exact ⟨hpath, .inl rfl⟩
        · rintro ⟨hq, -⟩
          rw [honly q hq]
          exact ⟨ifMatch, by simp⟩
      · intro before q m after _ p hp hbelow
        rw [honly p hp] at hbelow
        exact absurd hbelow (by unfold Below; split <;> simp_all)

/-! ### A root with and without a file -/

def rootTree : ServerTree where
  kind := fun q => if q = [] then some true else none
  parent := fun q hne hq => by simp [hne] at hq
  named := fun q hne hq => by simp [hne] at hq

def fileTree : ServerTree where
  kind := fun q => if q = [] then some true else if q = js "f" then some false else none
  parent := by
    intro q hne hq
    rw [if_neg hne] at hq
    split_ifs at hq with hfile
    · subst hfile
      decide
    · cases hq
  named := by
    intro q hne hq
    rw [if_neg hne] at hq
    split_ifs at hq with hfile
    · subst hfile
      decide
    · cases hq

/-- A server of at most one file, whose bodies tell by their texts what is in them. -/
def smallServer : Served where
  target := { answering with parseMultiStatus := fun _ => none }
  platform :=
    { oneBody [] with
      parseXmlDocument := fun text => some (.element (some (js "multistatus")) []
        (if text = js "both" then [found (js "/d/") [], found (js "/d/f") []]
          else if text = js "root" then [found (js "/d/") []] else [found (js "/d/f") []])) }
  respond := fun t sent =>
    { status := 207
      text := if sent.url.pathname = js "/d/f" then js "file" else if (t.kind (js "f")).isSome then js "both" else js "root" }

theorem small_made : smallServer.Made := ⟨rfl, rfl⟩

/-- The response of a resource, with its address. -/
theorem small_responses (baseUrl : Url) :
    (¬ smallServer.platform.Throws (found (js "/d/") []) ∧
      ∃ pathname, smallServer.platform.pathnameOf baseUrl (found (js "/d/") []) = some pathname ∧
        AddressOf (js "/d/") [] pathname) ∧
    ¬ smallServer.platform.Throws (found (js "/d/f") []) ∧
      ∃ pathname, smallServer.platform.pathnameOf baseUrl (found (js "/d/f") []) = some pathname ∧
        AddressOf (js "/d/") (js "f") pathname := by
  have hroot : smallServer.platform.pathnameOf baseUrl (found (js "/d/") []) = some (js "/d/") := rfl
  have hfile : smallServer.platform.pathnameOf baseUrl (found (js "/d/f") []) = some (js "/d/f") := rfl
  refine ⟨⟨(readResource_ok_iff baseUrl _).mp ⟨_, rfl⟩ (hroot ▸ rfl), _, hroot, .inl ?_⟩,
    (readResource_ok_iff baseUrl _).mp ⟨_, rfl⟩ (hfile ▸ rfl), _, hfile, .inl ?_⟩
  · exact ⟨[], [], List.forall_mem_nil _, List.forall_mem_nil _, rfl, .inl rfl⟩
  · exact ⟨[], [], List.forall_mem_nil _, List.forall_mem_nil _, rfl, .inr (.inr (by decide))⟩

theorem small_conforms {tree : ServerTree} (htree : ∀ q, (tree.kind q).isSome → q = [] ∨ q = js "f") :
    smallServer.Conforms tree := by
  intro t ht path baseUrl hpath hbase
  have hsmall (q : JsString) (hq : (t.kind q).isSome) : q = [] ∨ q = js "f" := by
    rcases ht q with hsame | hnone
    · exact htree q (hsame ▸ hq)
    · rw [hnone] at hq
      cases hq
  have htop : parentSegments slash (js "f") = [] := by decide
  obtain ⟨hself, hfile⟩ := small_responses baseUrl
  refine ⟨rfl, ?_⟩
  rcases hsmall path hpath with rfl | rfl
  · have hurl : joinUrl smallServer.target.base [smallServer.target.rootInner, []] = some ⟨js "https://h", js "/d/"⟩ := rfl
    obtain rfl := Option.some.inj (hurl.symm.trans hbase)
    by_cases hthere : (t.kind (js "f")).isSome
    · refine ⟨[found (js "/d/") [], found (js "/d/f") []], [[], js "f"], ?_, by decide, ?_, .cons hself (.cons hfile .nil)⟩
      · change smallServer.platform.responsesOf
          (if js "/d/" = js "/d/f" then js "file" else if (t.kind (js "f")).isSome then js "both" else js "root") = _
        rw [if_neg (by decide), if_pos hthere]
        rfl
      · intro q
        rw [List.mem_cons, List.mem_singleton]
        refine or_congr_right ⟨?_, ?_⟩
        · rintro rfl
          exact ⟨by decide, hthere, htop⟩
        · rintro ⟨hne, hq, -⟩
          exact (hsmall q hq).resolve_left hne
    · refine ⟨[found (js "/d/") []], [[]], ?_, by decide, ?_, .cons hself .nil⟩
      · change smallServer.platform.responsesOf
          (if js "/d/" = js "/d/f" then js "file" else if (t.kind (js "f")).isSome then js "both" else js "root") = _
        rw [if_neg (by decide), if_neg hthere]
        rfl
      · intro q
        rw [List.mem_singleton]
        refine ⟨.inl, ?_⟩
        rintro (rfl | ⟨hne, hq, -⟩)
        · rfl
        · obtain rfl := (hsmall q hq).resolve_left hne
          exact absurd hq hthere
  · have hurl : joinUrl smallServer.target.base [smallServer.target.rootInner, js "f"] =
        some ⟨js "https://h", js "/d/f"⟩ := rfl
    obtain rfl := Option.some.inj (hurl.symm.trans hbase)
    refine ⟨[found (js "/d/f") []], [js "f"], rfl, by decide, ?_, .cons hfile .nil⟩
    intro q
    rw [List.mem_singleton]
    refine ⟨.inl, ?_⟩
    rintro (rfl | ⟨hne, hq, hparent⟩)
    · rfl
    · obtain rfl := (hsmall q hq).resolve_left hne
      rfl

theorem rootTree_small (q : JsString) (hq : (rootTree.kind q).isSome) : q = [] := by
  by_contra hne
  change (if q = [] then some true else none : Option Bool).isSome at hq
  rw [if_neg hne] at hq
  cases hq

theorem fileTree_small (q : JsString) (hq : (fileTree.kind q).isSome) : q = [] ∨ q = js "f" := by
  by_contra hno
  push Not at hno
  change (if q = [] then some true else if q = js "f" then some false else none : Option Bool).isSome at hq
  rw [if_neg hno.1, if_neg hno.2] at hq
  cases hq

theorem empty_root_removed : smallServer.RemovesWhole rootTree [] none :=
  (removes_whole_iff small_made (small_conforms fun q hq => .inl (rootTree_small q hq)) rfl none).mpr
    ⟨rfl, rootTree_small⟩

/-- A file is listed in itself, and its removal ends without a request to delete anything. -/
theorem file_not_removed :
    smallServer.Conforms fileTree ∧ (fileTree.kind (js "f")).isSome ∧
      smallServer.listed fileTree (js "f") = some [js "f"] ∧
      (run (RemoveRecursiveOptions.step ⟨js "f", none, true⟩) (RemoveRecursiveOptions.initial ⟨js "f", none, true⟩)
        [.listed 0 [js "f"], .works 0 0, .works 0 0, .joined 0]).map (fun s => (s.calls.map Removing.phase, s.log)) =
        some ([.rejected, .refused], [.listed (js "f") [js "f"]]) ∧
      ¬ smallServer.RemovesWhole fileTree (js "f") none := by
  have hlisted : smallServer.listed fileTree (js "f") = some [js "f"] := rfl
  refine ⟨small_conforms fileTree_small, rfl, hlisted, by decide, ?_⟩
  intro hremoves
  exact hremoves.outside _ hlisted List.mem_cons_self

end DurableDav.Replication
