import Mathlib.Data.Prod.Lex
import Mathlib.Data.List.Sort
import DurableDav.Library.Paging
import DurableDav.Dav.Described
import DurableDav.Dav.ReplicaListing

namespace DurableDav.Dav

open Library
open Replication (isValidInnerPath parentOf)

/-! ### The pages of a listing -/

def defaultPageSize : ℕ := 100

def maxPageSize : ℕ := 250

/-- `requested` is the number that is asked for without its fraction, and `none` where it is not finite. -/
def clampPageSize (requested : Option ℤ) : ℕ :=
  match requested with
  | none => defaultPageSize
  | some n => if n ≤ 0 then defaultPageSize else min n.toNat maxPageSize

def clampPageNumber (requested : Option ℤ) : ℕ :=
  match requested with
  | none => 1
  | some n => max n.toNat 1

def pageCountFor (total pageSize : ℕ) : ℕ := if total ≤ 0 then 1 else max 1 (slicesOf (max 1 pageSize) total)

def clampPageToCollection (page total pageSize : ℕ) : ℕ := if total ≤ 0 then 1 else min page (pageCountFor total pageSize)

def offsetForPage (page pageSize : ℕ) : ℕ := (page - 1) * max 1 pageSize

/-- The two headers by which a listing is asked for in pages. -/
structure PageHeaders where
  page : Option JsString
  limit : Option JsString

structure DavPaging where
  page : ℕ
  limit : ℕ
  offset : ℕ
  total : ℕ
  deriving DecidableEq

def readPagingHeaders (headers : PageHeaders) : Option PageHeaders :=
  if headers.page = none ∧ headers.limit = none then none else some headers

/-- `number` reads a text as a number and cuts its fraction off. A header that is missing reads as zero. -/
def requestedNumber (number : JsString → Option ℤ) (header : Option JsString) : Option ℤ :=
  header.elim (some 0) number

def resolvePaging (number : JsString → Option ℤ) (requested : PageHeaders) (total : ℕ) : DavPaging :=
  let limit := clampPageSize (requestedNumber number requested.limit)
  let page := clampPageToCollection (clampPageNumber (requestedNumber number requested.page)) total limit
  ⟨page, limit, offsetForPage page limit, total⟩

def pagingHeaders (paging : DavPaging) : List (JsString × JsString) :=
  [(js "X-Dav-Page-Count", decimal paging.total), (js "X-Dav-Page", decimal paging.page),
    (js "X-Dav-Page-Limit", decimal paging.limit)]

/-! ### The page query -/

structure DirEntry where
  name : JsString
  isDirectory : Bool
  deriving DecidableEq

/-- The two collations of the query, as the bytes that are compared. -/
structure Collations where
  nocase : JsString → List ℕ
  binary : JsString → List ℕ
  binary_injective : Function.Injective binary

/-- What the query orders by: collections first, then the name without its case, then the name. -/
def Collations.key (c : Collations) (e : DirEntry) : Bool ×ₗ (List ℕ ×ₗ List ℕ) :=
  toLex (!e.isDirectory, toLex (c.nocase e.name, c.binary e.name))

/-- An order the database may put the rows of a query in. -/
structure QueryOrder (c : Collations) where
  orderBy : List DirEntry → List DirEntry
  perm : ∀ rows, (orderBy rows).Perm rows
  sorted : ∀ rows, (orderBy rows).Pairwise fun a b => c.key a ≤ c.key b

/-- The rows that have the collection as their parent. -/
def Files.childRows (f : Files) (path : JsString) : List DirEntry :=
  ((f.below path).filter (Files.isChild path)).map fun q => ⟨Files.relative path q, f.isDirectory q⟩

namespace Env

variable (env : Env)

def countChildren (path : JsString) : Serve ℕ := do
  let s ← .read
  if !s.volume.files.found path then pure 0 else pure (s.volume.files.childRows path).length

def listChildPage {c : Collations} (o : QueryOrder c) (path : JsString) (offset limit : ℕ) : Serve (List DirEntry) := do
  let s ← .read
  if !s.volume.files.found path then pure []
  else pure (((o.orderBy (s.volume.files.childRows path)).drop offset).take limit)

/-- The names of the direct children, without the two that stand for the collection and its parent. -/
def listNames (path : JsString) : Serve (List JsString) := do
  let names ← env.listChildren path
  pure (names.filter fun name => name ≠ js "." ∧ name ≠ js "..")

/-- The direct children, in full or one page of them. -/
def directChildren {c : Collations} (o : QueryOrder c) (path : JsString) : Option DavPaging → Serve (List JsString)
  | none => env.listNames path
  | some paging => do
    let rows ← listChildPage o path paging.offset paging.limit
    pure (rows.map DirEntry.name)

def pagingOf (number : JsString → Option ℤ) (headers : PageHeaders) (path depth : JsString) : Serve (Option DavPaging) :=
  match readPagingHeaders headers with
  | none => pure none
  | some requested =>
    if depth ≠ js "1" then pure none
    else do
      let total ← countChildren path
      pure (some (resolvePaging number requested total))

/-- PROPFIND with the headers that ask for a page, and the headers that say which one is served. -/
def propfindPage (number : JsString → Option ℤ) {c : Collations} (o : QueryOrder c) (r : Incoming)
    (headers : PageHeaders) (path : JsString) (bases : DavBases) :
    Serve (PropfindAnswer × List (JsString × JsString)) :=
  match r.readCappedText maxXmlBodyBytes with
  | none => pure (.refused .payloadTooLarge, [])
  | some xml => match parsePropfindRequest env.platform xml with
    | none => pure (.refused .badRequest, [])
    | some mode => do
      match ← env.nodeAt path bases.hrefBase with
      | none => pure (.refused .notFound, [])
      | some node =>
        let own := propfindEntry env.platform node mode bases.hrefBase
        let depth := r.depth.getD (js "infinity")
        if !node.isCollection then pure (.multistatus [own], [])
        else if depth ≠ js "0" ∧ depth ≠ js "1" ∧ depth ≠ js "infinity" then pure (.refused .badRequest, [])
        else do
          let paging ← pagingOf number headers path depth
          let shown := (paging.map pagingHeaders).getD []
          if depth = js "0" then pure (.multistatus [own], shown)
          else do
            let names ← env.directChildren o path paging
            let children := names.map (childInner path)
            let entries ← env.entriesOf mode bases.hrefBase children
            if depth ≠ js "infinity" then pure (.multistatus (own :: entries), shown)
            else do
              let all ← env.listRecursive path
              let deeper ← env.entriesOf mode bases.hrefBase ((all.map (childInner path)).filter (fun q => q ∉ children))
              pure (.multistatus (own :: entries ++ deeper), shown)

end Env

/-! ### One order, whatever the database -/

section Orders

variable {c : Collations} {rows : List DirEntry}

theorem Collations.key_injective (c : Collations) : Function.Injective c.key := by
  rintro ⟨name, isDirectory⟩ ⟨name', isDirectory'⟩ h
  obtain ⟨hkind, hnames⟩ := Prod.mk.inj (toLex.injective h)
  obtain ⟨-, hname⟩ := Prod.mk.inj (toLex.injective hnames)
  rw [DirEntry.mk.injEq]
  exact ⟨c.binary_injective hname, Bool.not_inj hkind⟩

/-- No two rows tie, so every order the query may come back in is the same. -/
theorem orderBy_eq (o o' : QueryOrder c) (rows : List DirEntry) : o.orderBy rows = o'.orderBy rows := by
  have hperm := (o.perm rows).trans (o'.perm rows).symm
  apply hperm.eq_of_pairwise _ (o.sorted rows) (o'.sorted rows)
  intro a b _ _ hab hba
  exact c.key_injective (le_antisymm hab hba)

def sortedOrder (c : Collations) : QueryOrder c where
  orderBy rows := rows.mergeSort fun a b => decide (c.key a ≤ c.key b)
  perm rows := List.mergeSort_perm rows _
  sorted rows := by
    have hsorted := @List.pairwise_mergeSort _ (fun a b => decide (c.key a ≤ c.key b))
      (fun a b d hab hbd => by simpa using le_trans (of_decide_eq_true hab) (of_decide_eq_true hbd))
      (fun a b => by simpa using le_total (c.key a) (c.key b)) rows
    simpa using hsorted

end Orders

/-! ### What is listed -/

/-- No member of the collection has one of the two names that a listing leaves out. -/
def Files.Plain (f : Files) (path : JsString) : Prop := ∀ e ∈ f.childRows path, e.name ≠ js "." ∧ e.name ≠ js ".."

instance (f : Files) (path : JsString) : Decidable (f.Plain path) := inferInstanceAs (Decidable (∀ e ∈ _, _))

/-- A request for the direct members whose body reads as `mode`. -/
structure Incoming.AsksMembers (r : Incoming) (p : Platform) (mode : PropfindRequest) : Prop where
  depth : r.depth = some (js "1")
  body : ∃ xml, r.readCappedText maxXmlBodyBytes = some xml ∧ parsePropfindRequest p xml = some mode

namespace Env

variable (env : Env) (v : Volume)

def describedAt (path hrefBase : JsString) : DavNodeInfo :=
  if path = [] then env.rootNode else env.described v path hrefBase

/-- The multistatus of a collection with so many of its members. -/
def listing (mode : PropfindRequest) (hrefBase path : JsString) (members : List JsString) : PropfindAnswer :=
  .multistatus ((env.describedAt v path hrefBase :: members.map fun q => env.described v q hrefBase).map fun node =>
    propfindEntry env.platform node mode hrefBase)

end Env

section Listing

variable {env : Env} {v : Volume} {path q base : JsString} {mode : PropfindRequest}

theorem runs_applicableLocks (hcalm : env.Calm) :
    Runs (env.applicableLocks path base) v (.ok (v.applicableLocks env.platform env.now path base)) v := by
  refine runs_call hcalm (runs_read_bind fun s hs => ?_)
  rw [hs]
  exact runs_pure _

theorem runs_nodeInfo (hcalm : env.Calm) (hfound : v.files.found path = true) :
    Runs (env.nodeInfo path base) v (.ok (some (env.described v path base))) v := by
  have hsees : (v.files.stat path).getD missingStat = env.sees v path 0 := by
    unfold Env.sees
    rw [if_pos (hcalm _ _)]
  have hread : env.rowRead v path = Store.get v.nodes path := if_pos (hcalm _ _)
  refine runs_bind (runs_statInner hcalm) ?_
  rw [stat_found, hfound, if_neg (by simp)]
  refine runs_bind (runs_readMeta hcalm) (runs_bind (runs_applicableLocks hcalm)
    (runs_bind (runs_getDeadProperties hcalm) ?_))
  unfold Env.described
  rw [hsees, hread]
  exact runs_pure _

theorem runs_nodeAt (hcalm : env.Calm) (hfound : v.files.found path = true) :
    Runs (env.nodeAt path base) v (.ok (some (env.describedAt v path base))) v := by
  unfold Env.nodeAt Env.describedAt
  split
  · exact runs_pure _
  · exact runs_nodeInfo hcalm hfound

theorem runs_entriesOf (hcalm : env.Calm) {qs : List JsString} (hfound : ∀ q ∈ qs, v.files.found q = true) :
    Runs (env.entriesOf mode base qs) v
      (.ok (qs.map fun q => propfindEntry env.platform (env.described v q base) mode base)) v := by
  induction qs with
  | nil => exact runs_pure _
  | cons q qs ih =>
    refine runs_bind (runs_nodeInfo hcalm (hfound q (by simp))) ?_
    refine runs_bind (ih fun q' hq' => hfound q' (by simp [hq'])) ?_
    exact runs_pure _

theorem described_isCollection (hcalm : env.Calm) (hcollection : v.files.isDirectory path = true) :
    (env.describedAt v path base).isCollection = true := by
  unfold Env.describedAt
  split
  · rfl
  · unfold Env.described nodeOf Env.sees
    rw [if_pos (hcalm _ _)]
    exact (stat_isDirectory _ _).trans hcollection

variable {number : JsString → Option ℤ} {c : Collations} {o : QueryOrder c} {r : Incoming} {headers : PageHeaders}
  {bases : DavBases} {paging : Option DavPaging} {names : List JsString}

theorem runs_propfindPage (hcalm : env.Calm) (hcollection : v.files.isDirectory path = true)
    (hasks : r.AsksMembers env.platform mode) (hpaging : Runs (Env.pagingOf number headers path (js "1")) v (.ok paging) v)
    (hnames : Runs (env.directChildren o path paging) v (.ok names) v)
    (hfound : ∀ q ∈ names.map (Env.childInner path), v.files.found q = true) :
    Runs (env.propfindPage number o r headers path bases) v
      (.ok (env.listing v mode bases.hrefBase path (names.map (Env.childInner path)),
        (paging.map pagingHeaders).getD [])) v := by
  obtain ⟨xml, hxml, hmode⟩ := hasks.body
  unfold Env.propfindPage
  rw [hxml]
  dsimp only
  rw [hmode]
  refine runs_bind (runs_nodeAt hcalm (found_of_isDirectory hcollection)) ?_
  dsimp only
  rw [if_neg (by simp [described_isCollection hcalm hcollection]), hasks.depth, Option.getD_some, if_neg (by decide)]
  refine runs_bind hpaging ?_
  rw [if_neg (by decide)]
  refine runs_bind hnames (runs_bind (runs_entriesOf hcalm hfound) ?_)
  rw [if_pos (by decide)]
  unfold Env.listing
  simp only [List.map_cons, List.map_map]
  exact runs_pure _

end Listing

/-! ### The pages of a collection -/

section Pages

variable {env : Env} {v : Volume} {path : JsString}

def Files.members (f : Files) (path : JsString) : List JsString := (f.below path).filter (Files.isChild path)

theorem members_found {q : JsString} (h : q ∈ v.files.members path) : v.files.found q = true :=
  found_iff.mpr (.inr (mem_below.mp (List.mem_of_mem_filter h)).1)

theorem childRows_members (htree : v.files.WellFormed) :
    (v.files.childRows path).map (Env.childInner path ∘ DirEntry.name) = v.files.members path := by
  unfold Files.childRows
  rw [List.map_map]
  exact map_childInner htree

theorem runs_unpaged (hcalm : env.Calm) (hfound : v.files.found path = true) (hplain : v.files.Plain path) :
    Runs (env.listNames path) v (.ok ((v.files.childRows path).map DirEntry.name)) v := by
  have hlist : Runs (env.listChildren path) v (.ok ((v.files.members path).map (Files.relative path))) v :=
    runs_bind (runs_attempt (runs_listDir hcalm hfound false)) (runs_pure _)
  refine runs_bind hlist ?_
  have hnames : (v.files.childRows path).map DirEntry.name = (v.files.members path).map (Files.relative path) := by
    unfold Files.childRows Files.members
    rw [List.map_map]
    rfl
  rw [← hnames, List.filter_eq_self.mpr]
  · exact runs_pure _
  · intro name hname
    obtain ⟨e, he, rfl⟩ := List.mem_map.mp hname
    exact decide_eq_true (hplain e he)

theorem runs_countChildren (hfound : v.files.found path = true) :
    Runs (Env.countChildren path) v (.ok (v.files.childRows path).length) v := by
  refine runs_read_bind fun s hs => ?_
  rw [hs, hfound, if_neg (by simp)]
  exact runs_pure _

theorem runs_listChildPage {c : Collations} (o : QueryOrder c) (hfound : v.files.found path = true) (offset limit : ℕ) :
    Runs (Env.listChildPage o path offset limit) v
      (.ok (((o.orderBy (v.files.childRows path)).drop offset).take limit)) v := by
  refine runs_read_bind fun s hs => ?_
  rw [hs, hfound, if_neg (by simp)]
  exact runs_pure _

end Pages

/-! ### The arithmetic -/

section Clamps

variable {page limit total : ℕ}

theorem clampPageSize_pos (requested : Option ℤ) : 0 < clampPageSize requested := by
  unfold clampPageSize
  cases requested with
  | none => decide
  | some n =>
    dsimp only
    split
    · decide
    · unfold maxPageSize
      omega

theorem pageCountFor_eq (hlimit : 0 < limit) (htotal : 0 < total) : pageCountFor total limit = slicesOf limit total := by
  have hfirst : 0 < slicesOf limit total := (lt_slicesOf_iff hlimit).mpr (by omega)
  unfold pageCountFor
  rw [if_neg (by omega), Nat.max_eq_right (by omega : 1 ≤ limit), Nat.max_eq_right hfirst]

theorem pageCountFor_pos (total limit : ℕ) : 1 ≤ pageCountFor total limit := by
  unfold pageCountFor
  split <;> omega

theorem slicesOf_le (hlimit : 0 < limit) : slicesOf limit total ≤ pageCountFor total limit := by
  rcases Nat.eq_zero_or_pos total with rfl | htotal
  · by_contra hlt
    have hzero := (lt_slicesOf_iff (k := 0) hlimit).mp (by omega : 0 < slicesOf limit 0)
    omega
  · exact (pageCountFor_eq hlimit htotal).ge

/-- A page that is served is one of the collection's pages. -/
theorem clamped_mem (requested : Option ℤ) (total limit : ℕ) :
    1 ≤ clampPageToCollection (clampPageNumber requested) total limit ∧
      clampPageToCollection (clampPageNumber requested) total limit ≤ pageCountFor total limit := by
  have hcount := pageCountFor_pos total limit
  have hpage : 1 ≤ clampPageNumber requested := by
    unfold clampPageNumber
    cases requested with
    | none => exact le_rfl
    | some n => exact le_max_right _ _
  unfold clampPageToCollection
  split
  · exact ⟨le_rfl, hcount⟩
  · exact ⟨le_min hpage hcount, min_le_right _ _⟩

/-- A page that there is is served as it is asked for. -/
theorem clamped_self {n : ℤ} (hfirst : 1 ≤ n) (hlast : n ≤ pageCountFor total limit) :
    (clampPageToCollection (clampPageNumber (some n)) total limit : ℤ) = n := by
  unfold clampPageToCollection clampPageNumber
  dsimp only
  by_cases htotal : total ≤ 0
  · rw [if_pos htotal]
    unfold pageCountFor at hlast
    rw [if_pos htotal] at hlast
    omega
  · rw [if_neg htotal]
    omega

end Clamps

/-! ### Pages partition the collection -/

section Partition

variable {env : Env} {v : Volume} {path : JsString} {mode : PropfindRequest} {bases : DavBases} {r : Incoming}
  {number : JsString → Option ℤ} {c : Collations}

/-- The members in the one order of the page query. -/
def Files.ordered (f : Files) (c : Collations) (path : JsString) : List JsString :=
  ((sortedOrder c).orderBy (f.childRows path)).map (Env.childInner path ∘ DirEntry.name)

theorem ordered_perm (htree : v.files.WellFormed) (c : Collations) :
    (v.files.ordered c path).Perm (v.files.members path) := by
  rw [← childRows_members htree]
  exact ((sortedOrder c).perm _).map _

theorem ordered_length (c : Collations) :
    (v.files.childRows path).length = (v.files.ordered c path).length := by
  unfold Files.ordered
  rw [List.length_map, ((sortedOrder c).perm _).length_eq]

theorem serves_unpaged (hcalm : env.Calm) (htree : v.files.WellFormed) (hcollection : v.files.isDirectory path = true)
    (hplain : v.files.Plain path) (hasks : r.AsksMembers env.platform mode) (o : QueryOrder c) :
    Runs (env.propfindPage number o r ⟨none, none⟩ path bases) v
      (.ok (env.listing v mode bases.hrefBase path (v.files.members path), [])) v := by
  have hfound := found_of_isDirectory hcollection
  have hrun := @runs_propfindPage _ _ _ _ number _ o _ ⟨none, none⟩ bases none _ hcalm hcollection hasks (runs_pure none) (runs_unpaged hcalm hfound hplain) ?_
  · rw [List.map_map, childRows_members htree] at hrun
    exact hrun
  · rw [List.map_map, childRows_members htree]
    exact fun q hq => members_found hq

theorem runs_pagingOf {headers : PageHeaders} (hasked : ¬ (headers.page = none ∧ headers.limit = none))
    (hfound : v.files.found path = true) : Runs (Env.pagingOf number headers path (js "1")) v
      (.ok (some (resolvePaging number headers (v.files.childRows path).length))) v := by
  unfold Env.pagingOf readPagingHeaders
  rw [if_neg hasked]
  dsimp only
  rw [if_neg (by decide)]
  exact runs_bind (runs_countChildren hfound) (runs_pure _)

theorem serves_page (hcalm : env.Calm) (htree : v.files.WellFormed) (hcollection : v.files.isDirectory path = true)
    (hasks : r.AsksMembers env.platform mode) {headers : PageHeaders}
    (hasked : ¬ (headers.page = none ∧ headers.limit = none)) (o : QueryOrder c) {paging : DavPaging}
    (hpaging : resolvePaging number headers (v.files.childRows path).length = paging) :
    Runs (env.propfindPage number o r headers path bases) v
      (.ok (env.listing v mode bases.hrefBase path
        (sliceAt paging.limit (paging.page - 1) (v.files.ordered c path)), pagingHeaders paging)) v := by
  have hfound := found_of_isDirectory hcollection
  have hlimit : 0 < paging.limit := by
    rw [← hpaging]
    exact clampPageSize_pos _
  have hoffset : paging.offset = (paging.page - 1) * paging.limit := by
    rw [← hpaging]
    unfold resolvePaging offsetForPage
    dsimp only
    rw [Nat.max_eq_right (clampPageSize_pos _)]
  have hslice : (((o.orderBy (v.files.childRows path)).drop paging.offset).take paging.limit).map DirEntry.name =
      (sliceAt paging.limit (paging.page - 1) ((sortedOrder c).orderBy (v.files.childRows path))).map DirEntry.name := by
    rw [orderBy_eq o (sortedOrder c), hoffset]
    rfl
  have hmembers : ((sliceAt paging.limit (paging.page - 1) ((sortedOrder c).orderBy (v.files.childRows path))).map
      DirEntry.name).map (Env.childInner path) = sliceAt paging.limit (paging.page - 1) (v.files.ordered c path) := by
    unfold sliceAt Files.ordered
    rw [List.map_map, List.map_take, List.map_drop]
  have hnames : Runs (env.directChildren o path (some paging)) v (.ok ((sliceAt paging.limit (paging.page - 1)
      ((sortedOrder c).orderBy (v.files.childRows path))).map DirEntry.name)) v := by
    refine runs_bind (runs_listChildPage o hfound paging.offset paging.limit) ?_
    rw [hslice]
    exact runs_pure _
  have hrun := @runs_propfindPage _ _ _ _ _ _ _ _ _ bases _ _ hcalm hcollection hasks
    (hpaging ▸ runs_pagingOf hasked hfound) hnames ?_
  · rw [hmembers] at hrun
    exact hrun
  · rw [hmembers]
    intro q hq
    apply members_found
    apply (ordered_perm htree c).mem_iff.mp
    exact List.mem_of_mem_drop (List.mem_of_mem_take hq)

/-- A request without the headers is answered as PROPFIND is. -/
theorem runs_handlePropfind (hcalm : env.Calm) (htree : v.files.WellFormed)
    (hcollection : v.files.isDirectory path = true) (hasks : r.AsksMembers env.platform mode) :
    Runs (env.handlePropfind r path bases) v
      (.ok (env.listing v mode bases.hrefBase path (v.files.members path))) v := by
  obtain ⟨xml, hxml, hmode⟩ := hasks.body
  have hfound := found_of_isDirectory hcollection
  have hlist : Runs (env.listChildren path) v (.ok ((v.files.members path).map (Files.relative path))) v :=
    runs_bind (runs_attempt (runs_listDir hcalm hfound false)) (runs_pure _)
  have hentries := @runs_entriesOf _ _ bases.hrefBase mode hcalm _
    fun q (hq : q ∈ v.files.members path) => members_found hq
  unfold Env.handlePropfind
  rw [hxml]
  dsimp only
  rw [hmode]
  refine runs_bind (runs_nodeAt hcalm hfound) ?_
  dsimp only
  rw [if_neg (by simp [described_isCollection hcalm hcollection]), hasks.depth, Option.getD_some, if_neg (by decide)]
  unfold Env.memberEntries
  rw [if_neg (by decide)]
  refine runs_bind (runs_bind hlist ?_) (runs_pure _)
  rw [List.map_map, show (v.files.members path).map (Env.childInner path ∘ Files.relative path) =
    v.files.members path from map_childInner htree, List.map_map]
  refine runs_bind hentries ?_
  rw [if_pos (by decide)]
  exact runs_pure _

theorem members_nodup (f : Files) (path : JsString) : (f.members path).Nodup := by
  have hpairwise := (below_pairwise f path).filter (Files.isChild path)
  apply hpairwise.imp
  rintro a b hlt rfl
  exact lt_irrefl _ hlt

theorem members_length (htree : v.files.WellFormed) :
    (v.files.childRows path).length = (v.files.members path).length := by
  rw [← childRows_members htree, List.length_map]

end Partition

/-- The whole listing, and the pages of one size. -/
structure ListsInPages (p : Platform) (v : Volume) (path : JsString) (mode : PropfindRequest) (bases : DavBases)
    (number : JsString → Option ℤ) (c : Collations) (limit : JsString) (members : List JsString)
    (pages : ℕ → List JsString) : Prop where
  -- no member is listed twice when all are
  nodup : members.Nodup
  unpaged : ∀ (env : Env) (r : Incoming) (o : QueryOrder c), env.Calm → env.platform = p → r.AsksMembers p mode →
    Runs (env.propfindPage number o r ⟨none, none⟩ path bases) v
      (.ok (env.listing v mode bases.hrefBase path members, [])) v
  -- any text for the page is answered with a page there is, the one it names if there is one
  paged : ∀ (env : Env) (r : Incoming) (o : QueryOrder c) (raw : Option JsString), env.Calm → env.platform = p →
    r.AsksMembers p mode → ∃ k, 1 ≤ k ∧ k ≤ pageCountFor members.length (clampPageSize (number limit)) ∧
      (∀ n : ℤ, raw.bind number = some n → 1 ≤ n → n ≤ pageCountFor members.length (clampPageSize (number limit)) →
        (k : ℤ) = n) ∧
      Runs (env.propfindPage number o r ⟨raw, some limit⟩ path bases) v
        (.ok (env.listing v mode bases.hrefBase path (pages k), pagingHeaders ⟨k, clampPageSize (number limit),
          offsetForPage k (clampPageSize (number limit)), members.length⟩)) v
  whole : ((List.range (pageCountFor members.length (clampPageSize (number limit)))).flatMap
    fun k => pages (k + 1)).Perm members
  filled : members ≠ [] → ∀ k, 1 ≤ k → k ≤ pageCountFor members.length (clampPageSize (number limit)) → pages k ≠ []

def unitCollations : Collations where
  nocase name := (name.map asciiLower).map Fin.val
  binary name := name.map Fin.val
  binary_injective := List.map_injective_iff.mpr Fin.val_injective

def casedVolume : Volume where
  files := [(js "d", ⟨none, 1⟩), (js "d/a", ⟨some [1], 2⟩), (js "d/A", ⟨some [2], 3⟩), (js "d/b", ⟨none, 4⟩)]
  nodes := []
  props := []
  locks := []
  replicaState := []

theorem casedVolume_wellFormed : casedVolume.files.WellFormed := wellFormed_of_keys (by decide)

end DurableDav.Dav
