import DurableDav.Dav.Footprint
import DurableDav.Dav.SourceKept
import DurableDav.Dav.CopyFacts

namespace DurableDav.Dav

open Library
open Replication (Bytes isValidInnerPath parentOf)

/-! ### The resources that a request may change -/

/-- A resource is made, removed or given other bytes, or one that is there gets other rows. -/
def Volume.Alters (v v' : Volume) (r : JsString) : Prop := Store.get v'.files r ≠ Store.get v.files r ∨
  v'.files.found r = true ∧ (Store.get v'.nodes r ≠ Store.get v.nodes r ∨
    ∃ key : PropKey, key.path = r ∧ Store.get v'.props key ≠ Store.get v.props key)

/-- Where a request may change something of a tree. -/
def Exchange.Range (p : Platform) (f : Files) (x : Exchange) (r : JsString) : Prop := match x.verb with
  | .delete => Inside x.path r ∧ f.found r = true
  | .copy => ∃ target, resolveDestination p x.request.toRequest x.bases.pathBase x.path = some target ∧
      (r = target ∨ Inside target r ∧ f.found r = true ∨ x.request.depth ≠ some (js "0") ∧ Lands f x.path target r)
  | .move => ∃ target, resolveDestination p x.request.toRequest x.bases.pathBase x.path = some target ∧
      (Inside x.path r ∧ f.found r = true ∨ r = target ∨ Inside target r ∧ f.found r = true ∨ Lands f x.path target r)
  | .put _ | .mkcol | .proppatch | .lock _ | .unlock => r = x.path

section Ranges

variable {env : Env} {v v' : Volume} {r : Request} {path target q : JsString} {bases : DavBases} {F R : JsString → Prop}

theorem Volume.Confined.alters (h : v.Confined F R v') (ha : v.Alters v' q) :
    F q ∨ R q ∧ v.files.found q = true ∧ v'.files.found q = true := by
  rcases ha with hfile | ⟨hfound, hrows⟩
  · exact .inl (h.files q hfile)
  · have hrow : R q := by
      rcases hrows with hnode | ⟨key, rfl, hprop⟩
      · exact h.nodes q hnode
      · exact h.props key hprop
    exact (h.found hfound).symm.imp id fun hthere => ⟨hrow, hthere, hfound⟩

theorem steady_confined : Steady (fun s => v.Confined F R s.volume) := by
  intro s s' hvol h
  show v.Confined F R s'.volume
  rwa [hvol]

/-- A program whose changes keep to what may be changed. -/
theorem makes_confined {α : Type} {L : Effect → Prop} {x : Serve α} (hx : Makes L x)
    (hL : ∀ e v₁, L e → v.Confined F R v₁ → (∀ r, e.Touches v₁.files r → F r) ∧ ∀ r, e.Rewrites r → R r) :
    Act.Meets (fun s => v.Confined F R s.volume) x (fun _ s => v.Confined F R s.volume) (fun s => v.Confined F R s.volume) :=
  Act.Within.meets hx fun _ _ hs hlead => leads_keeps (I := fun v₁ => v.Confined F R v₁)
    (fun e v₁ _ he hc h => h.change hc (hL e v₁ he h).1 (hL e v₁ he h).2) hlead hs

/-- Removing a path changes what was found there and below, and the rows of all below. -/
theorem destroys_confined {α : Type} {x : Serve α} (hx : Makes (Effect.Destroys path) x)
    (hF : ∀ q, Inside path q → v.files.found q = true → F q) (hR : ∀ q, Inside path q → R q) :
    Act.Meets (fun s => v.Confined F R s.volume) x (fun _ s => v.Confined F R s.volume) (fun s => v.Confined F R s.volume) := by
  refine makes_confined hx fun e v₁ he h => ⟨fun q hq => ?_, fun q hq => hR q (destroys_rewrites he hq)⟩
  obtain ⟨hin, hfound⟩ := destroys_touches he hq
  exact (h.found hfound).elim (hF q hin) id

theorem writes_confined {α : Type} {x : Serve α} (hx : Makes (fun e => e.Creates path ∨ e.Edits path) x) (hF : F path) (hR : R path) :
    Act.Meets (fun s => v.Confined F R s.volume) x (fun _ s => v.Confined F R s.volume) (fun s => v.Confined F R s.volume) := by
  refine makes_confined hx fun e v₁ he h => ⟨fun q hq => ?_, fun q hq => ?_⟩
  · rcases he with he | ⟨key, hkey, he⟩
    · rwa [creates_touches he hq]
    · exact absurd hq (edits_touches he)
  · rcases he with he | ⟨key, hkey, he⟩
    · rwa [creates_rewrites he hq]
    · rwa [edits_rewrites he hq, hkey]

theorem lands_below {f : Files} (hs : path ≠ []) (h : Lands f path target q) : Below slash target q := by
  obtain ⟨p, hbelow, _, rfl⟩ := h
  obtain ⟨rest, rfl⟩ := (below_of_ne hs).mp hbelow
  have hto : moved path target (path ++ slash :: rest) = target ++ slash :: rest := by
    unfold moved rebase
    rw [if_pos (.inr hbelow)]
    simp
  rw [hto]
  by_cases ht : target = []
  · subst ht
    exact below_root.mpr (by simp)
  · exact (below_of_ne ht).mpr ⟨rest, rfl⟩

/-- What is listed is found. -/
theorem listed_below {names : List JsString} {s s' : Session} (h : (env.listRecursive path).run s = (.ok names, s')) :
    ∀ name ∈ names, ∃ q ∈ s.volume.files.below path, Files.relative path q = name := by
  unfold Env.listRecursive at h
  rw [Act.run_bind, Act.run_attempt] at h
  cases hf : env.fails (.listDir path true) (s.calls.count (.listDir path true)) with
  | some e =>
    rw [show (env.listDir path true).run s = _ from call_run_fails hf] at h
    obtain ⟨rfl, _⟩ := Act.of_run_pure h
    simp
  | none =>
    rw [listDir_run hf] at h
    by_cases hfound : s.volume.files.found path = true
    · rw [if_pos hfound] at h
      obtain ⟨rfl, _⟩ := Act.of_run_pure h
      exact fun name hname => List.mem_map.mp hname
    · rw [if_neg hfound] at h
      obtain ⟨rfl, _⟩ := Act.of_run_pure h
      simp

theorem handleCopy_confined (htree : v.files.WellFormed) (hd : resolveDestination env.platform r bases.pathBase path = some target) :
    Act.Meets (fun s => s.volume = v) (env.handleCopy r path bases)
      (fun _ s => v.Confined (fun q => q = target ∨ Inside target q ∧ v.files.found q = true ∨
        r.depth ≠ some (js "0") ∧ Lands v.files path target q) (Inside target) s.volume)
      (fun s => v.Confined (fun q => q = target ∨ Inside target q ∧ v.files.found q = true ∨
        r.depth ≠ some (js "0") ∧ Lands v.files path target q) (Inside target) s.volume) := by
  have ht := resolveDestination_apart hd
  set F : JsString → Prop := fun q => q = target ∨ Inside target q ∧ v.files.found q = true ∨
    r.depth ≠ some (js "0") ∧ Lands v.files path target q with hF
  set G : JsString → Prop := fun q => q = target ∨ Inside target q ∧ v.files.found q = true with hG
  have hGF : ∀ s : Session, v.Confined G (Inside target) s.volume → v.Confined F (Inside target) s.volume :=
    fun s h => h.mono (fun q hq => hq.imp id .inl) fun _ h => h
  have hmade : ∀ {α : Type} {x : Serve α}, Makes (fun e => e.Creates target ∨ e.Edits target) x →
      Act.Meets (fun s => v.Confined G (Inside target) s.volume) x (fun _ s => v.Confined G (Inside target) s.volume)
        (fun s => v.Confined G (Inside target) s.volume) := fun hx => writes_confined hx (.inl rfl) (.inl rfl)
  have hmeta : ∀ isCollection, Act.Meets (fun s => v.Confined G (Inside target) s.volume) (env.copyMeta path target isCollection)
      (fun _ s => v.Confined G (Inside target) s.volume) (fun s => v.Confined G (Inside target) s.volume) :=
    fun isCollection => hmade (makes_copyMeta (fun _ he => .inl he.creates) (fun _ => .inr))
  refine (meets_handleCopy (M := fun s => v.Confined G (Inside target) s.volume) (P := fun s => s.volume = v)
    (fun s s' hvol hs => hvol.trans hs) (fun s hs => hs ▸ confined_refl ..) hGF fun target' hd' => ?_)
  obtain rfl : target = target' := Option.some.inj (hd.symm.trans hd')
  refine ⟨fun destExists => ?_, fun destExists => ?_, (hmade ?_).weaken (fun _ h => h) (fun _ _ h => h) hGF, ?_⟩
  · exact (destroys_confined (makes_removeExisting fun _ h => h) (fun q hin hfound => .inr ⟨hin, hfound⟩) fun _ h => h).weaken
      (fun s hs => hs ▸ confined_refl ..) (fun _ _ h => h) hGF
  · refine meets_makeTarget steady_confined hGF (hmade (makes_mkdir (.inl rfl))) ?_ fun hdepth names s s' hs hrun => ?_
    · exact (hmeta true).weaken (fun _ h => h) (fun _ _ h => h) hGF
    · have hdeep : r.depth ≠ some (js "0") := by
        intro hzero
        rw [hzero] at hdepth
        exact absurd hdepth (by decide)
      have hfills : Makes (fun e => ∃ p, Lands v.files path target p ∧ (e.Creates p ∨ e.Edits p))
          (env.copyChildren bases path target names) := by
        refine makes_copyChildren fun name hname e he => ⟨_, ?_, he⟩
        obtain ⟨q, hq, rfl⟩ := listed_below hrun name hname
        obtain ⟨hsome, hbelow⟩ := mem_below.mp hq
        have hthere : v.files.found q = true := by
          rcases hs.found (found_iff.mpr (.inr hsome)) with hthere | rfl | ⟨_, hthere⟩
          · exact hthere
          · exact absurd hbelow ht.outside
          · exact hthere
        have hnames := (htree q ((found_iff.mp hthere).resolve_left hbelow.ne_nil)).1
        obtain ⟨rest, _, hrest, _, hcopy⟩ := child_shape target ht.source_ne_nil hnames hbelow
        rw [hrest]
        exact ⟨q, hbelow, hthere, hcopy.symm⟩
      refine (makes_confined hfills fun e v₁ he h => ?_).weaken hGF (fun _ _ h => h) fun _ h => h
      obtain ⟨p, hlands, he⟩ := he
      have hin : Inside target p := .inr (lands_below ht.source_ne_nil hlands)
      refine ⟨fun q hq => ?_, fun q hq => ?_⟩
      · rcases he with he | ⟨key, hkey, he⟩
        · obtain rfl := creates_touches he hq
          exact .inr (.inr ⟨hdeep, hlands⟩)
        · exact absurd hq (edits_touches he)
      · rcases he with he | ⟨key, hkey, he⟩
        · rwa [creates_rewrites he hq]
        · rwa [edits_rewrites he hq, hkey]
  · exact makes_copyBytes fun _ => .inl
  · exact (hmeta false).weaken (fun _ h => h) (fun _ s h => hGF s h) hGF

theorem repath_inside_target {p : JsString} (hs : path ≠ []) (h : subtreePredicate path p = true) :
    Inside target (repath path target p) := by
  by_cases hne : p = path
  · rw [hne, repath_source]
    exact .inl rfl
  · unfold repath
    rw [if_pos h]
    rcases Nat.lt_or_ge path.length (characters p).length with hlong | hshort
    · obtain ⟨rest, hrest⟩ := (below_of_ne hs).mp ((predicate_inside h).resolve_left hne)
      have happend := eq_append_substrFrom (substr_of_predicate hne h) hlong
      have htail : substrFrom p (path.length + 1) = slash :: rest := List.append_cancel_left (happend.symm.trans hrest)
      rw [htail]
      by_cases ht : target = []
      · subst ht
        exact .inr (below_root.mpr (by simp))
      · exact .inr ((below_of_ne ht).mpr ⟨rest, rfl⟩)
    · rw [substrFrom_short hshort, List.append_nil]
      exact .inl rfl

theorem handleMove_confined (hd : resolveDestination env.platform r bases.pathBase path = some target) :
    Act.Meets (fun s => s.volume = v) (env.handleMove r path bases)
      (fun _ s => v.Confined (fun q => Inside path q ∧ v.files.found q = true ∨ q = target ∨
        Inside target q ∧ v.files.found q = true ∨ Lands v.files path target q) (fun q => Inside path q ∨ Inside target q) s.volume)
      (fun s => v.Confined (fun q => Inside path q ∧ v.files.found q = true ∨ q = target ∨
        Inside target q ∧ v.files.found q = true ∨ Lands v.files path target q) (fun q => Inside path q ∨ Inside target q) s.volume) := by
  have ht := resolveDestination_apart hd
  set F : JsString → Prop := fun q => Inside path q ∧ v.files.found q = true ∨ q = target ∨
    Inside target q ∧ v.files.found q = true ∨ Lands v.files path target q with hF
  set R : JsString → Prop := fun q => Inside path q ∨ Inside target q with hR
  set G : JsString → Prop := fun q => Inside target q ∧ v.files.found q = true with hG
  have hGF : ∀ s : Session, v.Confined G R s.volume → v.Confined F R s.volume :=
    fun s h => h.mono (fun q hq => .inr (.inr (.inl hq))) fun _ h => h
  refine meets_handleMove (P := fun s => s.volume = v) (fun s s' hvol hs => hvol.trans hs) (fun s hs => hs ▸ confined_refl ..)
    fun target' hd' isCollection destExists => ?_
  obtain rfl : target = target' := Option.some.inj (hd.symm.trans hd')
  refine meets_moveOver (M := fun s => v.Confined G R s.volume) (N := fun s => v.Confined F R s.volume) hGF ?_ ?_ ?_
  · exact (destroys_confined (makes_removeExisting fun _ h => h) (fun q hin hfound => ⟨hin, hfound⟩) fun _ h => .inr h).weaken
      (fun s hs => hs ▸ confined_refl ..) (fun _ _ h => h) hGF
  · intro s hs
    rcases (show Comes (env.rename _ _) s _ from comes_rename ht s) with ⟨e, s', hrun, hvol⟩ | ⟨a, s', hrun, hc⟩
    · rw [hrun]
      show v.Confined F R s'.volume
      rw [hvol]
      exact hGF s hs
    · rw [hrun]
      have hthere : ∀ q, s.volume.files.found q = true → v.files.found q = true :=
        fun q hq => (hs.found hq).elim id And.right
      refine (hGF s hs).change hc (fun q hq => ?_) fun q hq => hq.elim
      rcases hq with ⟨hin, hfound⟩ | ⟨p, rfl | hbelow, hfound, rfl⟩
      · exact .inl ⟨hin, hthere q hfound⟩
      · exact .inr (.inl (moved_source p target))
      · exact .inr (.inr (.inr ⟨p, hbelow, hthere p hfound, rfl⟩))
  · have hcascade : Makes (fun e => ∃ t, e = .updatePaths path target t) (env.renameCascade path target) :=
      makes_renameCascade fun t => ⟨t, rfl⟩
    refine makes_confined hcascade fun e v₁ he h => ?_
    obtain ⟨t, rfl⟩ := he
    refine ⟨fun q hq => hq.elim, fun q hq => ?_⟩
    obtain ⟨p, hsel, rfl | rfl⟩ := hq
    · exact .inl (predicate_inside hsel)
    · exact .inr (repath_inside_target ht.source_ne_nil hsel)

end Ranges

end DurableDav.Dav
