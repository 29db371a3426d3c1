import DurableDav.Dav.Handling
import DurableDav.Dav.CopyWalk

namespace DurableDav.Dav

open Library
open Replication (Bytes isValidInnerPath parentOf)

/-! ### Where a change is felt -/

def Inside (path r : JsString) : Prop := r = path ∨ Below slash path r

instance (path r : JsString) : Decidable (Inside path r) := inferInstanceAs (Decidable (_ ∨ _))

/-- Something below the source is taken here. -/
def Lands (f : Files) (source target r : JsString) : Prop :=
  ∃ q, Below slash source q ∧ f.found q = true ∧ moved source target q = r

namespace Effect

/-- The entries of the tree that may be others after a change. -/
def Touches (f : Files) (r : JsString) : Effect → Prop
  | make q | write q => r = q
  | unlink q => r = q ∧ f.found r = true
  | remove q => Inside q r ∧ f.found r = true
  | rename source target => Inside source r ∧ f.found r = true ∨
      ∃ q, Inside source q ∧ f.found q = true ∧ moved source target q = r
  | _ => False

/-- The paths whose rows may be others after a change. -/
def Rewrites (r : JsString) : Effect → Prop
  | node q _ => r = q
  | setProp key _ | removeProp key => r = key.path
  | deleteRows q _ => deletePredicate q r = true
  | updatePaths source target _ => ∃ q, subtreePredicate source q = true ∧ (r = q ∨ r = repath source target q)
  | _ => False

end Effect

/-- Two volumes agree on the tree but at some entries, and on the rows of all but some paths. -/
structure Volume.Confined (v : Volume) (F R : JsString → Prop) (v' : Volume) : Prop where
  files : ∀ r, Store.get v'.files r ≠ Store.get v.files r → F r
  nodes : ∀ r, Store.get v'.nodes r ≠ Store.get v.nodes r → R r
  props : ∀ key, Store.get v'.props key ≠ Store.get v.props key → R key.path

section Footprint

variable {κ α : Type} [DecidableEq κ] {v v' v'' : Volume} {e : Effect} {r : JsString} {F R : JsString → Prop}

/-- Where the keys are replaced, an entry is another only at a key that is left or taken. -/
theorem rekey_differs {s s' : Store κ α} {f : κ → κ} {k : κ} (h : rekey s f = some s')
    (hne : Store.get s' k ≠ Store.get s k) :
    (∃ k', f k' = k ∧ f k' ≠ k' ∧ (Store.get s k').isSome) ∨ f k ≠ k ∧ (Store.get s k).isSome := by
  cases hk : Store.get s k with
  | some a =>
    refine .inr ⟨fun hfix => hne ?_, rfl⟩
    have hget := rekey_get h (Store.mem_keys.mpr (show (Store.get s k).isSome by rw [hk]; rfl))
    rwa [hfix] at hget
  | none =>
    cases hk' : Store.get s' k with
    | none => exact absurd (hk'.trans hk.symm) hne
    | some a =>
      obtain ⟨k', hto, hget⟩ := rekeyed_from h hk'
      refine .inl ⟨k', hto, fun hfix => ?_, by rw [hget]; rfl⟩
      rw [show k' = k from hfix.symm.trans hto, hk] at hget
      simp at hget

theorem change_touches (hc : Change v e v') (h : Store.get v'.files r ≠ Store.get v.files r) : e.Touches v.files r := by
  cases hc with
  | make path | write path =>
    show r = path
    by_contra hr
    exact h (by rw [Store.get_put, if_neg hr])
  | unlink path hfile hfound =>
    have hr : r = path := by
      by_contra hr
      exact h (by rw [Store.get_remove, if_neg hr])
    exact ⟨hr, hr ▸ hfound⟩
  | remove path hdir =>
    rw [Store.get_removeWhere] at h
    by_cases hin : r = path ∨ Below slash path r
    · refine ⟨hin, found_iff.mpr (.inr ?_)⟩
      rw [if_pos (by simpa using hin)] at h
      exact Option.isSome_iff_ne_none.mpr h.symm
    · exact absurd (if_neg (by simpa using hin)) h
  | rename source target files hroot hne hout hfound hfree hparent hfiles =>
    rcases rekey_differs hfiles h with ⟨q, hto, hmoves, hq⟩ | ⟨hmoves, hr⟩
    · refine .inr ⟨q, ?_, found_iff.mpr (.inr hq), hto⟩
      by_contra hout
      exact hmoves (if_neg hout)
    · refine .inl ⟨?_, found_iff.mpr (.inr hr)⟩
      by_contra hout
      exact hmoves (if_neg hout)
  | node | setProp | removeProp | grant | extend | release | noted => exact absurd rfl h
  | deleteRows path t => cases t <;> exact absurd rfl h
  | updatePaths source target t v' ht hpaths =>
    cases t with
    | davLocks => exact absurd (congrArg (fun v => Store.get v.files r) (Option.some.inj hpaths).symm) h
    | davNodes | davProps | davReplicaState =>
      obtain ⟨_, _, rfl⟩ := Option.map_eq_some_iff.mp hpaths
      exact absurd rfl h

theorem rewritten_path {source target q : JsString} (h : repath source target q ≠ q) : subtreePredicate source q = true := by
  by_contra hsel
  exact h (if_neg hsel)

theorem change_rewrites_nodes (hc : Change v e v') (h : Store.get v'.nodes r ≠ Store.get v.nodes r) : e.Rewrites r := by
  cases hc with
  | node path row =>
    show r = path
    by_contra hr
    exact h (by rw [upsertNode_get, if_neg hr])
  | deleteRows path t =>
    cases t with
    | davNodes =>
      show deletePredicate path r = true
      by_contra hr
      refine h ?_
      rw [show (v.deleteRows path .davNodes).nodes = Store.removeWhere v.nodes (deletePredicate path) from rfl,
        Store.get_removeWhere, if_neg hr]
    | davProps | davLocks | davReplicaState => exact absurd rfl h
  | updatePaths source target t v' ht hpaths =>
    cases t with
    | davLocks => simp [renameCascadeTables] at ht
    | davNodes =>
      obtain ⟨nodes, hrekey, rfl⟩ := Option.map_eq_some_iff.mp hpaths
      rcases rekey_differs hrekey h with ⟨q, rfl, hmoves, _⟩ | ⟨hmoves, _⟩
      · exact ⟨q, rewritten_path hmoves, .inr rfl⟩
      · exact ⟨r, rewritten_path hmoves, .inl rfl⟩
    | davProps | davReplicaState =>
      obtain ⟨_, _, rfl⟩ := Option.map_eq_some_iff.mp hpaths
      exact absurd rfl h
  | make | write | unlink | remove | rename | setProp | removeProp | grant | extend | release | noted => exact absurd rfl h

theorem change_rewrites_props {key : PropKey} (hc : Change v e v') (h : Store.get v'.props key ≠ Store.get v.props key) :
    e.Rewrites key.path := by
  cases hc with
  | setProp key' row =>
    by_contra hr
    refine h ?_
    rw [Store.get_put, if_neg]
    rintro rfl
    exact hr rfl
  | removeProp key' =>
    by_contra hr
    refine h ?_
    rw [Store.get_remove, if_neg]
    rintro rfl
    exact hr rfl
  | deleteRows path t =>
    cases t with
    | davProps =>
      show deletePredicate path key.path = true
      by_contra hr
      refine h ?_
      rw [show (v.deleteRows path .davProps).props = Store.removeWhere v.props (fun k => deletePredicate path k.path) from rfl,
        Store.get_removeWhere, if_neg hr]
    | davNodes | davLocks | davReplicaState => exact absurd rfl h
  | updatePaths source target t v' ht hpaths =>
    cases t with
    | davLocks => simp [renameCascadeTables] at ht
    | davProps =>
      obtain ⟨props, hrekey, rfl⟩ := Option.map_eq_some_iff.mp hpaths
      have hkey : ∀ k : PropKey, { k with path := repath source target k.path } ≠ k → repath source target k.path ≠ k.path :=
        fun k hk heq => hk (by rw [heq])
      rcases rekey_differs hrekey h with ⟨k, rfl, hmoves, _⟩ | ⟨hmoves, _⟩
      · exact ⟨k.path, rewritten_path (hkey k hmoves), .inr rfl⟩
      · exact ⟨key.path, rewritten_path (hkey key hmoves), .inl rfl⟩
    | davNodes | davReplicaState =>
      obtain ⟨_, _, rfl⟩ := Option.map_eq_some_iff.mp hpaths
      exact absurd rfl h
  | make | write | unlink | remove | rename | node | grant | extend | release | noted => exact absurd rfl h

theorem confined_refl (v : Volume) (F R : JsString → Prop) : v.Confined F R v :=
  ⟨fun _ h => absurd rfl h, fun _ h => absurd rfl h, fun _ h => absurd rfl h⟩

theorem Volume.Confined.mono {F' R' : JsString → Prop} (h : v.Confined F R v') (hF : ∀ r, F r → F' r)
    (hR : ∀ r, R r → R' r) : v.Confined F' R' v' :=
  ⟨fun r hr => hF r (h.files r hr), fun r hr => hR r (h.nodes r hr), fun key hkey => hR _ (h.props key hkey)⟩

/-- What is found was there before, or stands where the tree may be another. -/
theorem Volume.Confined.found (h : v.Confined F R v') (hfound : v'.files.found r = true) : v.files.found r = true ∨ F r := by
  by_cases hsame : Store.get v'.files r = Store.get v.files r
  · refine .inl ?_
    rw [found_iff, hsame, ← found_iff] at hfound
    exact hfound
  · exact .inr (h.files r hsame)

theorem Volume.Confined.change (h : v.Confined F R v') (hc : Change v' e v'') (hF : ∀ r, e.Touches v'.files r → F r)
    (hR : ∀ r, e.Rewrites r → R r) : v.Confined F R v'' := by
  refine ⟨fun r hne => ?_, fun r hne => ?_, fun key hne => ?_⟩
  · by_cases hsame : Store.get v''.files r = Store.get v'.files r
    · exact h.files r (hsame ▸ hne)
    · exact hF r (change_touches hc hsame)
  · by_cases hsame : Store.get v''.nodes r = Store.get v'.nodes r
    · exact h.nodes r (hsame ▸ hne)
    · exact hR r (change_rewrites_nodes hc hsame)
  · by_cases hsame : Store.get v''.props key = Store.get v'.props key
    · exact h.props key (hsame ▸ hne)
    · exact hR _ (change_rewrites_props hc hsame)

theorem destroys_touches {path : JsString} {f : Files} (he : e.Destroys path) (h : e.Touches f r) :
    Inside path r ∧ f.found r = true := by
  cases e with
  | unlink q =>
    obtain rfl : q = path := he
    exact ⟨.inl h.1, h.2⟩
  | remove q =>
    obtain rfl : q = path := he
    exact h
  | deleteRows => exact h.elim
  | _ => exact he.elim

theorem inside_root : Inside [] r := by
  by_cases hr : r = []
  · exact .inl hr
  · exact .inr (below_root.mpr hr)

theorem predicate_inside {path : JsString} (h : subtreePredicate path r = true) : Inside path r := by
  by_cases hp : path = []
  · subst hp
    exact inside_root
  · exact subtreePredicate_inside hp h

theorem deletePredicate_inside {path : JsString} (h : deletePredicate path r = true) : Inside path r := by
  by_cases hp : path = []
  · subst hp
    exact inside_root
  · exact predicate_inside (by rwa [deletePredicate_of_ne hp] at h)

theorem destroys_rewrites {path : JsString} (he : e.Destroys path) (h : e.Rewrites r) : Inside path r := by
  cases e with
  | deleteRows q t =>
    obtain rfl : q = path := he
    exact deletePredicate_inside h
  | unlink | remove => exact h.elim
  | _ => exact he.elim

theorem creates_touches {path : JsString} {f : Files} (he : e.Creates path) (h : e.Touches f r) : r = path := by
  cases e with
  | make q | write q =>
    obtain rfl : q = path := he
    exact h
  | node => exact h.elim
  | _ => exact he.elim

theorem creates_rewrites {path : JsString} (he : e.Creates path) (h : e.Rewrites r) : r = path := by
  cases e with
  | node q row =>
    obtain rfl : q = path := he
    exact h
  | make | write => exact h.elim
  | _ => exact he.elim

theorem edits_touches {key : PropKey} {f : Files} (he : e.EditsKey key) : ¬ e.Touches f r := by
  cases e <;> first | exact id | exact he.elim

theorem edits_rewrites {key : PropKey} (he : e.EditsKey key) (h : e.Rewrites r) : r = key.path := by
  cases e with
  | setProp k row =>
    obtain rfl : k = key := he
    exact h
  | removeProp k =>
    obtain rfl : k = key := he
    exact h
  | _ => exact he.elim

end Footprint

end DurableDav.Dav
