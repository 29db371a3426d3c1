import DurableDav.Dav.Calm
import DurableDav.Dav.SourceKept
import DurableDav.Library.Rekeying

namespace DurableDav.Dav

open Library

/-! ### What the clause of a cascade selects -/

/-- The path itself, or a text that begins with it and a slash. -/
def Rooted (p q : JsString) : Prop := q = p ∨ p ++ [slash] <+: q

instance (p q : JsString) : Decidable (Rooted p q) := inferInstanceAs (Decidable (_ ∨ _))

/-- The target, followed by what comes after the source. -/
def reanchor (source target q : JsString) : JsString :=
  if Rooted source q then target ++ q.drop source.length else q

section Selecting

variable {p q t rest : JsString}

theorem slash_basic : isHighSurrogate slash = false ∧ isLowSurrogate slash = false := by decide

theorem characters_below (p rest : JsString) :
    characters (p ++ slash :: rest) = characters p ++ [slash] :: characters rest := by
  rw [characters_append p (by rintro c ⟨⟩; exact slash_basic.2), characters_cons slash_basic.1]

theorem rooted_iff : Rooted p q ↔ q = p ∨ ∃ rest, q = p ++ slash :: rest := by
  unfold Rooted
  apply or_congr_right
  constructor
  · rintro ⟨rest, rfl⟩
    exact ⟨rest, by simp⟩
  · rintro ⟨rest, rfl⟩
    exact ⟨rest, by simp⟩

theorem rooted_self (p : JsString) : Rooted p p := .inl rfl

theorem rooted_below (p rest : JsString) : Rooted p (p ++ slash :: rest) := rooted_iff.mpr (.inr ⟨rest, rfl⟩)

theorem characters_flatten_eq_nil {n : ℕ} : ((characters rest).take n).flatten = [] ↔ n = 0 ∨ rest = [] := by
  constructor
  · intro h
    by_contra hne
    obtain ⟨hn, hrest⟩ := not_or.mp hne
    obtain ⟨c, cs, hcs⟩ : ∃ c cs, characters rest = c :: cs := by
      apply List.exists_cons_of_ne_nil
      intro hnil
      exact hrest (by rw [← flatten_characters rest, hnil]; rfl)
    obtain ⟨m, rfl⟩ := Nat.exists_eq_succ_of_ne_zero hn
    have hc := characters_ne_nil rest c (by rw [hcs]; exact List.mem_cons_self)
    rw [hcs, List.take_succ_cons, List.flatten_cons] at h
    exact hc (List.append_eq_nil_iff.mp h).1
  · rintro (rfl | rfl) <;> simp [characters]

/-- The clause selects what lies below a path, unless some character of the path counts twice. -/
theorem predicate_below : subtreePredicate p (p ++ slash :: rest) = true ↔ isBasic p = true ∨ rest = [] := by
  have hle := characters_length_le p
  have htake : (characters (p ++ slash :: rest)).take (p.length + 1) =
      characters p ++ [slash] :: (characters rest).take (p.length - (characters p).length) := by
    rw [characters_below, List.take_append, List.take_of_length_le (by omega),
      show p.length + 1 - (characters p).length = p.length - (characters p).length + 1 by omega, List.take_succ_cons]
  have hsub : substr (p ++ slash :: rest) 1 (p.length + 1) =
      p ++ slash :: ((characters rest).take (p.length - (characters p).length)).flatten := by
    unfold substr
    rw [Nat.sub_self, List.drop_zero, htake, List.flatten_append, flatten_characters, List.flatten_cons]
    rfl
  have hne : p ++ slash :: rest ≠ p := by simp
  unfold subtreePredicate isBasic
  rw [hsub]
  simp only [hne, false_or, List.append_cancel_left_eq, List.cons.injEq, true_and, decide_eq_true_eq,
    characters_flatten_eq_nil]
  apply or_congr_left
  omega

theorem predicate_self : subtreePredicate p p = true := by simp [subtreePredicate]

theorem predicate_rooted (h : subtreePredicate p q = true) : Rooted p q := by
  unfold subtreePredicate at h
  rcases of_decide_eq_true h with he | hsub
  · exact .inl he
  · exact .inr (hsub ▸ substr_prefix q _)

/-- What the clause selects is the subtree, or no more than the path of it. -/
theorem predicate_iff : subtreePredicate p q = true ↔
    Rooted p q ∧ (isBasic p = true ∨ q = p ∨ q = p ++ [slash]) := by
  constructor
  · intro h
    refine ⟨predicate_rooted h, ?_⟩
    rcases rooted_iff.mp (predicate_rooted h) with he | ⟨rest, rfl⟩
    · exact .inr (.inl he)
    · exact (predicate_below.mp h).imp_right fun hrest => .inr (by rw [hrest])
  · rintro ⟨hroot, h⟩
    rcases rooted_iff.mp hroot with rfl | ⟨rest, rfl⟩
    · exact predicate_self
    · refine predicate_below.mpr (h.imp_right ?_)
      rintro (he | he)
      · simp at he
      · simpa using he

/-! ### The path that a row gets -/

theorem reanchor_self (p t : JsString) : reanchor p t p = t := by
  unfold reanchor
  rw [if_pos (rooted_self p), List.drop_length, List.append_nil]

theorem reanchor_below (p t rest : JsString) : reanchor p t (p ++ slash :: rest) = t ++ slash :: rest := by
  unfold reanchor
  rw [if_pos (rooted_below p rest), List.drop_left]

theorem repath_self (p t : JsString) : repath p t p = t := by
  unfold repath
  rw [if_pos predicate_self, substrFrom_short (characters_length_le p), List.append_nil]

theorem repath_below : repath p t (p ++ slash :: rest) = if isBasic p then t ++ slash :: rest
    else if rest = [] then t else p ++ slash :: rest := by
  have hle := characters_length_le p
  unfold repath
  by_cases hbasic : isBasic p = true
  · rw [if_pos (predicate_below.mpr (.inl hbasic)), if_pos hbasic]
    have hlen : (characters p).length = p.length := of_decide_eq_true hbasic
    congr 1
    unfold substrFrom
    rw [Nat.add_sub_cancel, characters_below, ← hlen, List.drop_left, List.flatten_cons, flatten_characters]
    rfl
  · rw [if_neg hbasic]
    have hshort : (characters p).length < p.length :=
      lt_of_le_of_ne hle fun he => hbasic (decide_eq_true he)
    by_cases hrest : rest = []
    · rw [if_pos (predicate_below.mpr (.inr hrest)), if_pos hrest, substrFrom_short, List.append_nil]
      rw [hrest, characters_below, List.length_append, show characters [] = [] from rfl, List.length_singleton]
      omega
    · rw [if_neg hrest, if_neg]
      exact fun h => (predicate_below.mp h).elim hbasic hrest

theorem repath_unrooted (h : ¬ Rooted p q) : repath p t q = q := by
  unfold repath
  rw [if_neg]
  exact fun hp => h (predicate_rooted hp)

/-- The row gets the path it is to get. -/
theorem repath_eq_iff : repath p t q = reanchor p t q ↔
    isBasic p = true ∨ (p ++ [slash] <+: q → t = p ∧ q ≠ p ++ [slash]) := by
  by_cases hroot : Rooted p q
  · rcases rooted_iff.mp hroot with rfl | ⟨rest, rfl⟩
    · rw [repath_self, reanchor_self]
      refine iff_of_true rfl (.inr fun h => ?_)
      have hlen := h.length_le
      simp at hlen
    · rw [repath_below, reanchor_below]
      have hpre : p ++ [slash] <+: p ++ slash :: rest := ⟨rest, by simp⟩
      by_cases hbasic : isBasic p = true
      · simp [hbasic]
      · rw [if_neg hbasic]
        simp only [hbasic, hpre, false_or, forall_const, Bool.false_eq_true]
        by_cases hrest : rest = []
        · subst hrest
          simp
        · rw [if_neg hrest]
          simp [hrest, eq_comm]
  · rw [repath_unrooted hroot]
    unfold reanchor
    rw [if_neg hroot]
    exact iff_of_true rfl (.inr fun h => absurd (.inr h) hroot)

theorem rooted_of_moved (h : reanchor p t q ≠ q) : Rooted p q := by
  by_contra hroot
  exact h (if_neg hroot)

theorem rooted_eq_append (h : Rooted p q) : q = p ++ q.drop p.length := by
  rcases rooted_iff.mp h with rfl | ⟨rest, rfl⟩
  · simp
  · rw [List.drop_left]

end Selecting

/-! ### One table -/

/-- The path in the keys of a table. -/
structure PathKey (κ : Type) where
  path : κ → JsString
  withPath : κ → JsString → κ
  path_withPath : ∀ k q, path (withPath k q) = q
  withPath_path : ∀ k, withPath k (path k) = k
  withPath_withPath : ∀ k q r, withPath (withPath k q) r = withPath k r

def PathKey.map {κ : Type} (K : PathKey κ) (f : JsString → JsString) (k : κ) : κ := K.withPath k (f (K.path k))

def nodeKey : PathKey JsString := ⟨id, fun _ q => q, fun _ _ => rfl, fun _ => rfl, fun _ _ _ => rfl⟩

def propKey : PathKey PropKey :=
  ⟨PropKey.path, fun k q => { k with path := q }, fun _ _ => rfl, fun _ => rfl, fun _ _ _ => rfl⟩

def replicaKey : PathKey ReplicaKey :=
  ⟨ReplicaKey.path, fun k q => { k with path := q }, fun _ _ => rfl, fun _ => rfl, fun _ _ _ => rfl⟩

/-- In whatever order the statement comes upon the rows, the table is then as a move of the subtree leaves it. -/
def PathKey.Moves {κ α : Type} [DecidableEq κ] (K : PathKey κ) (s : Store κ α) (source target : JsString) : Prop :=
  ∀ order : List κ, order.Perm (Store.keys s) → ∃ s',
    Store.rekeyInOrder (K.map (repath source target)) order s = some s' ∧
      Store.Rekeyed (K.map (reanchor source target)) s s'

/-- No row is in the way of another, and none of them is missed. -/
structure PathKey.Movable {κ α : Type} [DecidableEq κ] (K : PathKey κ) (s : Store κ α) (source target : JsString) :
    Prop where
  free : Store.Unclaimed (K.map (reanchor source target)) s
  selected : isBasic source = true ∨ ∀ k, (Store.get s k).isSome → source ++ [slash] <+: K.path k →
    target = source ∧ K.path k ≠ source ++ [slash]

section Tables

variable {κ α : Type} {K : PathKey κ} {p t rest : JsString} {k k' : κ} {f : JsString → JsString}

theorem PathKey.path_map : K.path (K.map f k) = f (K.path k) := K.path_withPath _ _

theorem PathKey.map_fixed (h : f (K.path k) = K.path k) : K.map f k = k := by
  unfold PathKey.map
  rw [h, K.withPath_path]

theorem PathKey.map_eq_iff : K.map f k = k ↔ f (K.path k) = K.path k := by
  refine ⟨fun h => ?_, map_fixed⟩
  rw [← K.path_map (f := f) (k := k), h]

theorem PathKey.eq_of_map {q : JsString} (h : K.withPath k q = K.withPath k' q) (hpath : K.path k = K.path k') : k = k' := by
  have hback : K.withPath (K.withPath k q) (K.path k) = K.withPath (K.withPath k' q) (K.path k) := by rw [h]
  rw [K.withPath_withPath, K.withPath_withPath, K.withPath_path] at hback
  rw [hback, hpath, K.withPath_path]

variable [DecidableEq κ] {s s' : Store κ α}

theorem reanchor_apart : Store.Apart (K.map (reanchor p t)) s := by
  intro k k' _ _ hk hk' h
  have hroot := rooted_of_moved (mt PathKey.map_fixed hk)
  have hroot' := rooted_of_moved (mt PathKey.map_fixed hk')
  have hpath : reanchor p t (K.path k) = reanchor p t (K.path k') := by
    rw [← K.path_map (f := reanchor p t), h, K.path_map]
  have hdrop : (K.path k).drop p.length = (K.path k').drop p.length := by
    unfold reanchor at hpath
    rw [if_pos hroot, if_pos hroot'] at hpath
    exact List.append_cancel_left hpath
  have hsame : K.path k = K.path k' := by
    rw [rooted_eq_append hroot, rooted_eq_append hroot', hdrop]
  unfold PathKey.map at h
  rw [hpath] at h
  exact PathKey.eq_of_map h hsame

/-- Rows go where they are to go, if the statement selects them. -/
theorem PathKey.Movable.moves (h : K.Movable s p t) : K.Moves s p t := by
  intro order horder
  have hsame : ∀ k ∈ order, K.map (repath p t) k = K.map (reanchor p t) k := by
    intro k hk
    unfold PathKey.map
    rw [repath_eq_iff.mpr (h.selected.imp_right fun hall => hall k (Store.mem_keys.mp (horder.mem_iff.mp hk)))]
  obtain ⟨s', hrun, hs'⟩ := Store.rekeyInOrder_rekeyed h.free reanchor_apart horder
  exact ⟨s', by rw [Store.rekeyInOrder_congr hsame]; exact hrun, hs'⟩

/-- Of finitely many rows, one has the longest path. -/
theorem no_ascent {P : κ → Prop} (hup : ∀ k, (Store.get s k).isSome → P k →
    ∃ k', (Store.get s k').isSome ∧ P k' ∧ (K.path k).length < (K.path k').length) (hk : (Store.get s k).isSome) :
    ¬ P k := by
  intro hP
  have hbound : ∀ n, ∃ k', (Store.get s k').isSome ∧ P k' ∧ n ≤ (K.path k').length := by
    intro n
    induction n with
    | zero => exact ⟨k, hk, hP, Nat.zero_le _⟩
    | succ n ih =>
      obtain ⟨k₁, hk₁, hP₁, hn⟩ := ih
      obtain ⟨k₂, hk₂, hP₂, hlt⟩ := hup k₁ hk₁ hP₁
      exact ⟨k₂, hk₂, hP₂, by omega⟩
  obtain ⟨k', hk', -, hlong⟩ := hbound (((Store.keys s).map K.path).flatten.length + 1)
  have hmem : K.path k' ∈ (Store.keys s).map K.path := List.mem_map_of_mem (Store.mem_keys.mpr hk')
  have hle := (List.sublist_flatten_of_mem hmem).length_le
  omega

/-- What a table comes to that is rewritten by the one function and by the other. -/
structure Reconciled (K : PathKey κ) (s s' : Store κ α) (p t : JsString) : Prop where
  free : Store.Unclaimed (K.map (repath p t)) s
  apart : Store.Apart (K.map (repath p t)) s
  made : Store.Rekeyed (K.map (repath p t)) s s'
  wanted : Store.Rekeyed (K.map (reanchor p t)) s s'

theorem PathKey.Moves.reconciled (h : K.Moves s p t) : ∃ s', Reconciled K s s' p t := by
  have hsome : ∀ order : List κ, order.Perm (Store.keys s) → (Store.rekeyInOrder (K.map (repath p t)) order s).isSome := by
    intro order horder
    obtain ⟨s', hrun, -⟩ := h order horder
    rw [hrun]
    rfl
  obtain ⟨hfree, hapart⟩ := Store.rekeyInOrder_isSome_iff.mp hsome
  obtain ⟨s', hrun, hwanted⟩ := h _ (List.Perm.refl _)
  obtain ⟨s₁, hrun₁, hmade⟩ := Store.rekeyInOrder_rekeyed hfree hapart (List.Perm.refl _)
  obtain rfl : s' = s₁ := Option.some.inj (hrun.symm.trans hrun₁)
  exact ⟨s', hfree, hapart, hmade, hwanted⟩

namespace Reconciled

variable (h : Reconciled K s s' p t) (hbasic : isBasic p = false) (hk : (Store.get s k).isSome)

include h hbasic hk

/-- The new place of a row that is missed is taken by a row that stays. -/
theorem place_taken (hpath : K.path k = p ++ slash :: rest) : (Store.get s (K.withPath k (t ++ slash :: rest))).isSome ∧
    K.map (repath p t) (K.withPath k (t ++ slash :: rest)) = K.withPath k (t ++ slash :: rest) := by
  obtain ⟨a, ha⟩ := Option.isSome_iff_exists.mp hk
  have hto : K.map (reanchor p t) k = K.withPath k (t ++ slash :: rest) := by
    unfold PathKey.map
    rw [hpath, reanchor_below]
  obtain ⟨k', hk', ha'⟩ := (h.made _ a).mp ((h.wanted _ a).mpr ⟨k, hto, ha⟩)
  have hnew : repath p t (K.path k') = t ++ slash :: rest := by
    rw [← K.path_map (f := repath p t), hk', K.path_withPath]
  have hstays : repath p t (K.path k') = K.path k' := by
    by_cases hroot : Rooted p (K.path k')
    · rcases rooted_iff.mp hroot with he | ⟨rest', he⟩
      · rw [he, repath_self] at hnew
        simp at hnew
      · rw [he, repath_below, if_neg (by simp [hbasic])] at hnew ⊢
        by_cases hrest : rest' = []
        · rw [if_pos hrest] at hnew
          simp at hnew
        · rw [if_neg hrest]
    · exact repath_unrooted hroot
  have hfix : K.map (repath p t) k' = k' := PathKey.map_fixed hstays
  obtain rfl : k' = K.withPath k (t ++ slash :: rest) := hfix.symm.trans hk'
  exact ⟨by rw [ha']; rfl, hfix⟩

/-- A row that is missed stands where another one is to go. -/
theorem place_wanted (hpath : K.path k = p ++ slash :: rest) (hrest : rest ≠ []) :
    ∃ k', (Store.get s k').isSome ∧ Rooted p (K.path k') ∧ K.path k = t ++ (K.path k').drop p.length := by
  obtain ⟨a, ha⟩ := Option.isSome_iff_exists.mp hk
  have hfix : K.map (repath p t) k = k := by
    apply PathKey.map_fixed
    rw [hpath, repath_below, if_neg (by simp [hbasic]), if_neg hrest]
  obtain ⟨k', hk', ha'⟩ := (h.wanted _ a).mp ((h.made _ a).mpr ⟨k, hfix, ha⟩)
  have hroot : Rooted p (K.path k') := by
    by_contra hroot
    have hsame : K.map (reanchor p t) k' = k' := PathKey.map_fixed (if_neg hroot)
    rw [← hsame, hk', hpath] at hroot
    exact hroot (rooted_below p rest)
  refine ⟨k', by rw [ha']; rfl, hroot, ?_⟩
  have hnew := congrArg K.path hk'
  rw [K.path_map] at hnew
  unfold reanchor at hnew
  rw [if_pos hroot] at hnew
  exact hnew.symm

omit hk in
/-- Below the source nothing is missed, if the target lies below it. -/
theorem nothing_missed_inside (hk : (Store.get s k).isSome) {u : JsString} (ht : t = p ++ slash :: u) :
    ¬ p ++ [slash] <+: K.path k := by
  refine no_ascent (K := K) (P := fun k => p ++ [slash] <+: K.path k) (fun k hk hpre => ?_) hk
  obtain ⟨rest, hrest⟩ := hpre
  have hpath : K.path k = p ++ slash :: rest := by rw [← hrest]; simp
  obtain ⟨hheld, -⟩ := h.place_taken hbasic hk hpath
  refine ⟨_, hheld, ?_, ?_⟩
  · rw [K.path_withPath, ht]
    exact ⟨u ++ slash :: rest, by simp⟩
  · rw [K.path_withPath, hpath, ht]
    simp only [List.length_append, List.length_cons]
    omega

omit hk in
/-- Nor is it, if the target lies elsewhere. -/
theorem nothing_missed_outside (hk : (Store.get s k).isSome) (ht : ¬ Rooted p t) :
    ¬ ∃ rest, rest ≠ [] ∧ K.path k = p ++ slash :: rest := by
  refine no_ascent (K := K) (P := fun k => ∃ rest, rest ≠ [] ∧ K.path k = p ++ slash :: rest) (fun k hk hbelow => ?_) hk
  obtain ⟨rest, hrest, hpath⟩ := hbelow
  obtain ⟨k', hk', hroot, hwanted⟩ := h.place_wanted hbasic hk hpath hrest
  have hjoin : p ++ slash :: rest = t ++ (K.path k').drop p.length := hpath.symm.trans hwanted
  have hshort : t.length < p.length := by
    by_contra hlong
    obtain ⟨x, rfl⟩ := List.prefix_of_prefix_length_le ⟨_, rfl⟩ ⟨_, hjoin.symm⟩ (not_lt.mp hlong)
    rw [List.append_assoc, List.append_cancel_left_eq] at hjoin
    cases x with
    | nil => exact ht (.inl (by simp))
    | cons c x =>
      obtain rfl : slash = c := (List.cons.inj hjoin).1
      exact ht (rooted_below p x)
  have hlen := congrArg List.length hjoin
  simp only [List.length_append, List.length_cons] at hlen
  refine ⟨k', hk', ?_, ?_⟩
  · rcases rooted_iff.mp hroot with he | ⟨rest', he⟩
    · rw [he] at hlen
      simp at hlen
      omega
    · refine ⟨rest', ?_, he⟩
      rintro rfl
      rw [he] at hlen
      simp at hlen
      omega
  · rw [List.length_drop] at hlen
    rw [hpath]
    simp only [List.length_append, List.length_cons]
    omega

end Reconciled

theorem PathKey.Moves.movable (h : K.Moves s p t) : K.Movable s p t := by
  obtain ⟨s', hr⟩ := h.reconciled
  have hselected : isBasic p = true ∨ ∀ k, (Store.get s k).isSome → p ++ [slash] <+: K.path k →
      t = p ∧ K.path k ≠ p ++ [slash] := by
    cases hbasic : isBasic p with
    | true => exact .inl rfl
    | false =>
      refine .inr fun k hk hpre => ?_
      by_cases ht : t = p
      · refine ⟨ht, fun hpath => ?_⟩
        obtain ⟨-, hfix⟩ := hr.place_taken hbasic hk hpath
        rw [ht, ← hpath, K.withPath_path, PathKey.map_eq_iff, hpath, repath_below] at hfix
        simp [hbasic] at hfix
      · exfalso
        by_cases hroot : Rooted p t
        · rcases rooted_iff.mp hroot with he | ⟨u, he⟩
          · exact ht he
          · exact hr.nothing_missed_inside hbasic hk he hpre
        · obtain ⟨rest, hrest⟩ := hpre
          have hpath : K.path k = p ++ slash :: rest := by rw [← hrest]; simp
          by_cases hnil : rest = []
          · -- the row of the path with a slash goes where only the row of the path is to go
            subst hnil
            obtain ⟨a, ha⟩ := Option.isSome_iff_exists.mp hk
            have hto : K.map (repath p t) k = K.withPath k t := by
              unfold PathKey.map
              rw [hpath, repath_below, if_neg (by simp [hbasic]), if_pos rfl]
            have hmoves : K.map (repath p t) k ≠ k := by
              rw [Ne, PathKey.map_eq_iff, hpath, repath_below, if_neg (by simp [hbasic]), if_pos rfl]
              rintro rfl
              exact hroot (rooted_below p [])
            obtain ⟨k', hk', ha'⟩ := (hr.wanted _ a).mp ((hr.made _ a).mpr ⟨k, hto, ha⟩)
            have hheld : (Store.get s k').isSome := by rw [ha']; rfl
            have hnew : reanchor p t (K.path k') = t := by
              rw [← K.path_map (f := reanchor p t), hk', K.path_withPath]
            by_cases hroot' : Rooted p (K.path k')
            · have hsource : K.path k' = p := by
                rcases rooted_iff.mp hroot' with he | ⟨rest', he⟩
                · exact he
                · rw [he, reanchor_below] at hnew
                  simp at hnew
              have hsame : K.map (repath p t) k' = K.map (repath p t) k := by
                rw [hto, ← hk']
                unfold PathKey.map
                rw [hsource, repath_self, reanchor_self]
              have hmoves' : K.map (repath p t) k' ≠ k' := by
                rw [Ne, PathKey.map_eq_iff, hsource, repath_self]
                exact ht
              have hone := hr.apart k' k hheld hk hmoves' hmoves hsame
              rw [hone, hpath] at hsource
              simp at hsource
            · have hstays : K.map (reanchor p t) k' = k' := PathKey.map_fixed (if_neg hroot')
              rcases hr.free k hk with hfix | hnone
              · exact hmoves hfix
              · rw [hto, ← hk', hstays, ha'] at hnone
                cases hnone
          · exact hr.nothing_missed_outside hbasic hk hroot ⟨rest, hnil, hpath⟩
  refine ⟨fun k hk => ?_, hselected⟩
  have hsame : K.map (repath p t) k = K.map (reanchor p t) k := by
    unfold PathKey.map
    rw [repath_eq_iff.mpr (hselected.imp_right fun hall => hall k hk)]
  rw [← hsame]
  exact hr.free k hk

/-- The statement moves the rows of a table exactly if they can be moved and all of them are selected. -/
theorem moves_iff : K.Moves s p t ↔ K.Movable s p t := ⟨PathKey.Moves.movable, PathKey.Movable.moves⟩

end Tables

/-! ### The statements on the tables -/

/-- The order in which the statements of a rename come upon the rows. -/
structure RowOrder where
  nodes : List JsString
  props : List PropKey
  replicaState : List ReplicaKey

structure RowOrder.Of (o : RowOrder) (v : Volume) : Prop where
  nodes : o.nodes.Perm (Store.keys v.nodes)
  props : o.props.Perm (Store.keys v.props)
  replicaState : o.replicaState.Perm (Store.keys v.replicaState)

/-- As `updatePaths`, but each row must be free to have its new path by the time its turn comes. -/
def Volume.rewritePaths (v : Volume) (o : RowOrder) (source target : JsString) : Table → Option Volume
  | .davNodes => (Store.rekeyInOrder (nodeKey.map (repath source target)) o.nodes v.nodes).map
      (fun nodes => { v with nodes := nodes })
  | .davProps => (Store.rekeyInOrder (propKey.map (repath source target)) o.props v.props).map
      (fun props => { v with props := props })
  | .davLocks => v.updatePaths source target .davLocks
  | .davReplicaState => (Store.rekeyInOrder (replicaKey.map (repath source target)) o.replicaState v.replicaState).map
      (fun rows => { v with replicaState := rows })

namespace Env

variable (env : Env)

def rewriteTable (o : RowOrder) (source target : JsString) (t : Table) : Serve Unit :=
  env.exec (.updatePaths t source target) do
    let s ← .read
    match s.volume.rewritePaths o source target t with
    | some v => modifyVolume (fun _ => v)
    | none => .throw (.of "UNIQUE constraint failed")

def renameNodeCascadeInOrder (o : RowOrder) (source target : JsString) : Serve Unit :=
  Act.each (env.rewriteTable o source target) renameCascadeTables

end Env

/-! ### What the cascades are to do -/

/-- All rows are in the subtree of the root. -/
def InSubtree (p q : JsString) : Prop := p = [] ∨ Rooted p q

namespace Volume

variable (v v' : Volume)

structure Pruned (p : JsString) : Prop where
  nodes : ∀ q row, Store.get v'.nodes q = some row ↔ Store.get v.nodes q = some row ∧ ¬ InSubtree p q
  props : ∀ k row, Store.get v'.props k = some row ↔ Store.get v.props k = some row ∧ ¬ InSubtree p k.path
  locks : ∀ e, e ∈ v'.locks ↔ e ∈ v.locks ∧ ¬ InSubtree p e.2.path
  files : v'.files = v.files
  replicaState : v'.replicaState = v.replicaState

structure Relocated (p t : JsString) : Prop where
  nodes : Store.Rekeyed (nodeKey.map (reanchor p t)) v.nodes v'.nodes
  props : Store.Rekeyed (propKey.map (reanchor p t)) v.props v'.props
  replicaState : Store.Rekeyed (replicaKey.map (reanchor p t)) v.replicaState v'.replicaState
  files : v'.files = v.files
  locks : v'.locks = v.locks

end Volume

structure CascadesActOnSubtree (env : Env) (v : Volume) (p t : JsString) : Prop where
  deletes : ∃ v', Runs (env.deleteNodeCascade p) v (.ok ()) v' ∧ v.Pruned v' p
  renames : ∀ o : RowOrder, o.Of v →
    ∃ v', Runs (env.renameNodeCascadeInOrder o p t) v (.ok ()) v' ∧ v.Relocated v' p t

/-! ### When they do it -/

/-- Nothing lies below the path in the tables that a delete goes through. -/
structure Volume.Bare (v : Volume) (p : JsString) : Prop where
  nodes : ∀ rest, rest ≠ [] → Store.get v.nodes (p ++ slash :: rest) = none
  props : ∀ k : PropKey, ∀ rest, k.path = p ++ slash :: rest → rest ≠ [] → Store.get v.props k = none
  locks : ∀ e ∈ v.locks, ∀ rest, e.2.path = p ++ slash :: rest → rest = []

structure Volume.Cascadable (v : Volume) (p t : JsString) : Prop where
  deletes : p = [] ∨ isBasic p = true ∨ v.Bare p
  nodes : nodeKey.Movable v.nodes p t
  props : propKey.Movable v.props p t
  replicaState : replicaKey.Movable v.replicaState p t

section Running

variable {α : Type} {env : Env} {v v' : Volume} {p t q : JsString}

theorem runs_unique {x : Serve α} {r r₁ : Except Failure α} {v₁ : Volume} (h : Runs x v r v')
    (h₁ : Runs x v r₁ v₁) : r = r₁ ∧ v' = v₁ := by
  obtain ⟨s', hrun, hs'⟩ := h ⟨v, []⟩ rfl
  obtain ⟨s₁, hrun₁, hs₁⟩ := h₁ ⟨v, []⟩ rfl
  obtain ⟨hr, hs⟩ := Prod.mk.inj (hrun.symm.trans hrun₁)
  exact ⟨hr, by rw [← hs', ← hs₁, hs]⟩

theorem runs_bind_error {β : Type} {x : Serve α} {f : α → Serve β} {e : Failure} (h : Runs x v (.error e) v') :
    Runs (x >>= f) v (.error e) v' := by
  intro s hs
  obtain ⟨s', hrun, hs'⟩ := h s hs
  exact ⟨s', Act.run_bind_error hrun, hs'⟩

theorem runs_deleteNodeCascade (hcalm : env.Calm) : Runs (env.deleteNodeCascade p) v (.ok ())
    (((v.deleteRows p .davNodes).deleteRows p .davProps).deleteRows p .davLocks) := by
  have hstep : ∀ (w : Volume) (t : Table), Runs (env.exec (.deleteRows t p) (Env.modifyVolume (fun v => v.deleteRows p t))) w
      (.ok ()) (w.deleteRows p t) := fun w t => runs_call hcalm (runs_modifyVolume _)
  exact runs_bind (hstep v _) (runs_bind (hstep _ _) (runs_bind (hstep _ _) (runs_pure ())))

end Running

section Deleting

variable {v : Volume} {p q : JsString}

theorem selected_iff : (deletePredicate p q = true ↔ InSubtree p q) ↔
    p = [] ∨ isBasic p = true ∨ ∀ rest, q = p ++ slash :: rest → rest = [] := by
  by_cases hp : p = []
  · exact iff_of_true (by simp [deletePredicate, InSubtree, hp]) (.inl hp)
  rw [deletePredicate_of_ne hp]
  unfold InSubtree
  simp only [hp, false_or]
  constructor
  · intro h
    by_contra hnot
    obtain ⟨hbasic, hrest⟩ := not_or.mp hnot
    push Not at hrest
    obtain ⟨rest, rfl, hne⟩ := hrest
    exact (predicate_below.mp (h.mpr (rooted_below p rest))).elim hbasic hne
  · intro h
    refine ⟨predicate_rooted, fun hroot => predicate_iff.mpr ⟨hroot, ?_⟩⟩
    refine h.imp_right fun hall => ?_
    rcases rooted_iff.mp hroot with he | ⟨rest, he⟩
    · exact .inl he
    · exact .inr (by rw [he, hall rest he])

theorem pruned_iff {κ α : Type} [DecidableEq κ] {s : Store κ α} {P : κ → Bool} {S : κ → Prop} :
    (∀ k a, Store.get (Store.removeWhere s P) k = some a ↔ Store.get s k = some a ∧ ¬ S k) ↔
      ∀ k, (Store.get s k).isSome → (P k = true ↔ S k) := by
  constructor
  · intro h k hk
    obtain ⟨a, ha⟩ := Option.isSome_iff_exists.mp hk
    have hrow := h k a
    rw [Store.get_removeWhere, ha] at hrow
    cases hP : P k with
    | true =>
      rw [hP] at hrow
      simpa using hrow
    | false =>
      rw [hP] at hrow
      simpa using hrow
  · intro h k a
    rw [Store.get_removeWhere]
    cases hrow : Store.get s k with
    | none => simp
    | some b =>
      have hkept := h k (by rw [hrow]; rfl)
      rw [← hkept]
      cases P k <;> simp

theorem kept_iff {γ : Type} {l : List γ} {P : γ → Bool} {S : γ → Prop} :
    (∀ e, e ∈ l.filter (fun e => !P e) ↔ e ∈ l ∧ ¬ S e) ↔ ∀ e ∈ l, (P e = true ↔ S e) := by
  simp only [List.mem_filter, Bool.not_eq_true', and_congr_right_iff, Bool.eq_false_iff, ne_eq, not_iff_not]

/-- The rows of the subtree go, unless the length counts some character of the path twice and something lies below it. -/
theorem deletes_iff : v.Pruned (((v.deleteRows p .davNodes).deleteRows p .davProps).deleteRows p .davLocks) p ↔
    p = [] ∨ isBasic p = true ∨ v.Bare p := by
  have hparts : v.Pruned (((v.deleteRows p .davNodes).deleteRows p .davProps).deleteRows p .davLocks) p ↔
      (∀ q, (Store.get v.nodes q).isSome → (deletePredicate p q = true ↔ InSubtree p q)) ∧
      (∀ k : PropKey, (Store.get v.props k).isSome → (deletePredicate p k.path = true ↔ InSubtree p k.path)) ∧
      (∀ e ∈ v.locks, (deletePredicate p e.2.path = true ↔ InSubtree p e.2.path)) := by
    constructor
    · intro h
      exact ⟨pruned_iff.mp h.nodes, pruned_iff.mp h.props, kept_iff.mp h.locks⟩
    · rintro ⟨hnodes, hprops, hlocks⟩
      exact ⟨pruned_iff.mpr hnodes, pruned_iff.mpr hprops, kept_iff.mpr hlocks, rfl, rfl⟩
  rw [hparts]
  simp only [selected_iff]
  constructor
  · rintro ⟨hnodes, hprops, hlocks⟩
    by_cases hp : p = []
    · exact .inl hp
    by_cases hbasic : isBasic p = true
    · exact .inr (.inl hbasic)
    simp only [hp, hbasic, false_or, Bool.false_eq_true] at hnodes hprops hlocks
    refine .inr (.inr ⟨fun rest hrest => ?_, fun k rest hk hrest => ?_, fun e he rest => hlocks e he rest⟩)
    · by_contra hrow
      exact hrest (hnodes _ (Option.isSome_iff_ne_none.mpr hrow) rest rfl)
    · by_contra hrow
      exact hrest (hprops k (Option.isSome_iff_ne_none.mpr hrow) rest hk)
  · rintro (hp | hbasic | hbare)
    · simp [hp]
    · simp [hbasic]
    · refine ⟨fun q hq => .inr (.inr fun rest he => ?_), fun k hk => .inr (.inr fun rest he => ?_),
        fun e he => .inr (.inr fun rest hrest => hbare.locks e he rest hrest)⟩
      · by_contra hrest
        rw [he, hbare.nodes rest hrest] at hq
        cases hq
      · by_contra hrest
        rw [hbare.props k rest he hrest] at hk
        cases hk

end Deleting

section Renaming

variable {env : Env} {v v' : Volume} {p t : JsString} {o : RowOrder}

theorem runs_rewriteTable (hcalm : env.Calm) {w : Table} (h : v.rewritePaths o p t w = some v') :
    Runs (env.rewriteTable o p t w) v (.ok ()) v' := by
  refine runs_call hcalm (runs_read_bind fun s hs => ?_)
  rw [hs, h]
  exact runs_modifyVolume _

theorem runs_rewriteTable_claimed (hcalm : env.Calm) {w : Table} (h : v.rewritePaths o p t w = none) :
    Runs (env.rewriteTable o p t w) v (.error (.of "UNIQUE constraint failed")) v := by
  refine runs_call hcalm (runs_read_bind fun s hs => ?_)
  rw [hs, h]
  exact runs_throw _

/-- The rename answers exactly if each of its statements does. -/
theorem runs_renameNodeCascade_iff (hcalm : env.Calm) : Runs (env.renameNodeCascadeInOrder o p t) v (.ok ()) v' ↔
    ∃ nodes props rows, Store.rekeyInOrder (nodeKey.map (repath p t)) o.nodes v.nodes = some nodes ∧
      Store.rekeyInOrder (propKey.map (repath p t)) o.props v.props = some props ∧
      Store.rekeyInOrder (replicaKey.map (repath p t)) o.replicaState v.replicaState = some rows ∧
      v' = { v with nodes := nodes, props := props, replicaState := rows } := by
  constructor
  · intro h
    cases hnodes : Store.rekeyInOrder (nodeKey.map (repath p t)) o.nodes v.nodes with
    | none =>
      have hclaimed : v.rewritePaths o p t .davNodes = none := Option.map_eq_none_iff.mpr hnodes
      have hr := (runs_unique h (runs_bind_error (runs_rewriteTable_claimed hcalm hclaimed))).1
      cases hr
    | some nodes =>
      have hfirst : v.rewritePaths o p t .davNodes = some { v with nodes := nodes } :=
        Option.map_eq_some_iff.mpr ⟨nodes, hnodes, rfl⟩
      cases hprops : Store.rekeyInOrder (propKey.map (repath p t)) o.props v.props with
      | none =>
        have hclaimed : { v with nodes := nodes }.rewritePaths o p t .davProps = none := Option.map_eq_none_iff.mpr hprops
        have hr := (runs_unique h (runs_bind (runs_rewriteTable hcalm hfirst)
          (runs_bind_error (runs_rewriteTable_claimed hcalm hclaimed)))).1
        cases hr
      | some props =>
        have hsecond : { v with nodes := nodes }.rewritePaths o p t .davProps = some { v with nodes := nodes, props := props } :=
          Option.map_eq_some_iff.mpr ⟨props, hprops, rfl⟩
        cases hrows : Store.rekeyInOrder (replicaKey.map (repath p t)) o.replicaState v.replicaState with
        | none =>
          have hclaimed : { v with nodes := nodes, props := props }.rewritePaths o p t .davReplicaState = none :=
            Option.map_eq_none_iff.mpr hrows
          have hr := (runs_unique h (runs_bind (runs_rewriteTable hcalm hfirst) (runs_bind (runs_rewriteTable hcalm hsecond)
            (runs_bind_error (runs_rewriteTable_claimed hcalm hclaimed))))).1
          cases hr
        | some rows =>
          have hthird : { v with nodes := nodes, props := props }.rewritePaths o p t .davReplicaState =
              some { v with nodes := nodes, props := props, replicaState := rows } := Option.map_eq_some_iff.mpr ⟨rows, hrows, rfl⟩
          have hv := (runs_unique h (runs_bind (runs_rewriteTable hcalm hfirst) (runs_bind (runs_rewriteTable hcalm hsecond)
            (runs_bind (runs_rewriteTable hcalm hthird) (runs_pure ()))))).2
          exact ⟨nodes, props, rows, rfl, rfl, rfl, hv⟩
  · rintro ⟨nodes, props, rows, hnodes, hprops, hrows, rfl⟩
    have hfirst : v.rewritePaths o p t .davNodes = some { v with nodes := nodes } :=
      Option.map_eq_some_iff.mpr ⟨nodes, hnodes, rfl⟩
    have hsecond : { v with nodes := nodes }.rewritePaths o p t .davProps = some { v with nodes := nodes, props := props } :=
      Option.map_eq_some_iff.mpr ⟨props, hprops, rfl⟩
    have hthird : { v with nodes := nodes, props := props }.rewritePaths o p t .davReplicaState =
        some { v with nodes := nodes, props := props, replicaState := rows } := Option.map_eq_some_iff.mpr ⟨rows, hrows, rfl⟩
    exact runs_bind (runs_rewriteTable hcalm hfirst) (runs_bind (runs_rewriteTable hcalm hsecond)
      (runs_bind (runs_rewriteTable hcalm hthird) (runs_pure ())))

theorem renames_iff (hcalm : env.Calm) :
    (∀ o : RowOrder, o.Of v → ∃ v', Runs (env.renameNodeCascadeInOrder o p t) v (.ok ()) v' ∧ v.Relocated v' p t) ↔
      nodeKey.Movable v.nodes p t ∧ propKey.Movable v.props p t ∧ replicaKey.Movable v.replicaState p t := by
  rw [← moves_iff, ← moves_iff, ← moves_iff]
  constructor
  · intro h
    have hrun : ∀ o : RowOrder, o.Of v → ∃ nodes props rows,
        Store.rekeyInOrder (nodeKey.map (repath p t)) o.nodes v.nodes = some nodes ∧
        Store.rekeyInOrder (propKey.map (repath p t)) o.props v.props = some props ∧
        Store.rekeyInOrder (replicaKey.map (repath p t)) o.replicaState v.replicaState = some rows ∧
        v.Relocated { v with nodes := nodes, props := props, replicaState := rows } p t := by
      intro o ho
      obtain ⟨v', hruns, hmoved⟩ := h o ho
      obtain ⟨nodes, props, rows, hnodes, hprops, hrows, rfl⟩ := (runs_renameNodeCascade_iff hcalm).mp hruns
      exact ⟨nodes, props, rows, hnodes, hprops, hrows, hmoved⟩
    refine ⟨fun order horder => ?_, fun order horder => ?_, fun order horder => ?_⟩
    · obtain ⟨nodes, _, _, hnodes, _, _, hmoved⟩ := hrun ⟨order, _, _⟩ ⟨horder, .refl _, .refl _⟩
      exact ⟨nodes, hnodes, hmoved.nodes⟩
    · obtain ⟨_, props, _, _, hprops, _, hmoved⟩ := hrun ⟨_, order, _⟩ ⟨.refl _, horder, .refl _⟩
      exact ⟨props, hprops, hmoved.props⟩
    · obtain ⟨_, _, rows, _, _, hrows, hmoved⟩ := hrun ⟨_, _, order⟩ ⟨.refl _, .refl _, horder⟩
      exact ⟨rows, hrows, hmoved.replicaState⟩
  · rintro ⟨hn, hp, hr⟩ o ho
    obtain ⟨nodes, hnodes, hnodes'⟩ := hn o.nodes ho.nodes
    obtain ⟨props, hprops, hprops'⟩ := hp o.props ho.props
    obtain ⟨rows, hrows, hrows'⟩ := hr o.replicaState ho.replicaState
    exact ⟨_, (runs_renameNodeCascade_iff hcalm).mpr ⟨nodes, props, rows, hnodes, hprops, hrows, rfl⟩,
      ⟨hnodes', hprops', hrows', rfl, rfl⟩⟩

end Renaming

/-- The cascades act on the subtree of a path exactly if no character of it counts twice or nothing lies below it, and no
row is in the way of another. -/
theorem cascades_iff {env : Env} (hcalm : env.Calm) (v : Volume) (p t : JsString) :
    CascadesActOnSubtree env v p t ↔ v.Cascadable p t := by
  have hdeletes : (∃ v', Runs (env.deleteNodeCascade p) v (.ok ()) v' ∧ v.Pruned v' p) ↔
      p = [] ∨ isBasic p = true ∨ v.Bare p := by
    rw [← deletes_iff]
    constructor
    · rintro ⟨v', hrun, hpruned⟩
      rwa [← (runs_unique hrun (runs_deleteNodeCascade hcalm)).2]
    · intro h
      exact ⟨_, runs_deleteNodeCascade hcalm, h⟩
  constructor
  · intro h
    obtain ⟨hnodes, hprops, hrows⟩ := (renames_iff hcalm).mp h.renames
    exact ⟨hdeletes.mp h.deletes, hnodes, hprops, hrows⟩
  · intro h
    exact ⟨hdeletes.mpr h.deletes, (renames_iff hcalm).mpr ⟨h.nodes, h.props, h.replicaState⟩⟩

/-! ### All rows at once -/

section Together

variable {κ α : Type} [DecidableEq κ] {s : Store κ α} {f : κ → κ} {p t : JsString}

theorem rekey_rekeyed (h : Store.Unclaimed f s) (hapart : Store.Apart f s) : ∃ s', rekey s f = some s' ∧ Store.Rekeyed f s s' := by
  have hinj : ∀ k ∈ Store.keys s, ∀ k' ∈ Store.keys s, f k = f k' → k = k' := fun k hk k' hk' =>
    h.injective hapart (Store.mem_keys.mp hk) (Store.mem_keys.mp hk')
  have hrekey : rekey s f = some (s.map (fun e => (f e.1, e.2))) := rekey_eq_some_iff.mpr ⟨hinj, rfl⟩
  refine ⟨_, hrekey, fun q a => ⟨rekeyed_from hrekey, ?_⟩⟩
  rintro ⟨k, rfl, hk⟩
  rw [rekey_get hrekey (Store.mem_keys.mpr (by rw [hk]; rfl)), hk]

theorem PathKey.Movable.rekeyed {K : PathKey κ} (h : K.Movable s p t) :
    ∃ s', rekey s (K.map (repath p t)) = some s' ∧ Store.Rekeyed (K.map (reanchor p t)) s s' := by
  obtain ⟨s₀, hs₀⟩ := h.moves.reconciled
  obtain ⟨s', hrekey, hmade⟩ := rekey_rekeyed hs₀.free hs₀.apart
  exact ⟨s', hrekey, fun q a => (hmade q a).trans ((hs₀.made q a).symm.trans (hs₀.wanted q a))⟩

theorem runs_updateTable {env : Env} (hcalm : env.Calm) {v v' : Volume} {w : Table} (h : v.updatePaths p t w = some v') :
    Runs (env.updateTable p t w) v (.ok ()) v' := by
  refine runs_call hcalm (runs_read_bind fun s hs => ?_)
  rw [hs, h]
  exact runs_modifyVolume _

/-- Where no row is in the way of another, moving all of them at once comes to the same. -/
theorem renameNodeCascade_relocates {env : Env} (hcalm : env.Calm) {v : Volume} (h : v.Cascadable p t) :
    ∃ v', Runs (env.renameNodeCascade p t) v (.ok ()) v' ∧ v.Relocated v' p t := by
  obtain ⟨nodes, hnodes, hnodes'⟩ := h.nodes.rekeyed
  obtain ⟨props, hprops, hprops'⟩ := h.props.rekeyed
  obtain ⟨rows, hrows, hrows'⟩ := h.replicaState.rekeyed
  have hfirst : v.updatePaths p t .davNodes = some { v with nodes := nodes } := Option.map_eq_some_iff.mpr ⟨nodes, hnodes, rfl⟩
  have hsecond : { v with nodes := nodes }.updatePaths p t .davProps = some { v with nodes := nodes, props := props } :=
    Option.map_eq_some_iff.mpr ⟨props, hprops, rfl⟩
  have hthird : { v with nodes := nodes, props := props }.updatePaths p t .davReplicaState =
      some { v with nodes := nodes, props := props, replicaState := rows } := Option.map_eq_some_iff.mpr ⟨rows, hrows, rfl⟩
  exact ⟨_, runs_bind (runs_updateTable hcalm hfirst) (runs_bind (runs_updateTable hcalm hsecond)
    (runs_bind (runs_updateTable hcalm hthird) (runs_pure ()))), ⟨hnodes', hprops', hrows', rfl, rfl⟩⟩

end Together

/-! ### A name that counts twice -/

def described : NodeRow := ⟨false, none, none, 1, 1, false⟩

def describedPair : Volume := { nestedVolume with nodes := [(js "a", described), (js "a/b", described)] }

theorem pair_cascades : CascadesActOnSubtree calmEnv describedPair (js "a") (js "c") := by
  have hfree : Store.Unclaimed (nodeKey.map (reanchor (js "a") (js "c"))) describedPair.nodes := by
    intro k hk
    rcases List.mem_cons.mp (Store.mem_keys.mpr hk : k ∈ [js "a", js "a/b"]) with rfl | hk
    · exact .inr (by decide)
    · obtain rfl := List.mem_singleton.mp hk
      exact .inr (by decide)
  apply (cascades_iff (fun op n => rfl) describedPair (js "a") (js "c")).mpr
  refine ⟨.inr (.inl (by decide)), ⟨hfree, .inl (by decide)⟩, ⟨?_, .inl (by decide)⟩, ⟨?_, .inl (by decide)⟩⟩
  · rintro k ⟨⟩
  · rintro k ⟨⟩

/-- A face, which is two code units but one character, and a name below it. -/
def facePath : JsString := [55357, 56832]

def belowFace : Volume := { nestedVolume with nodes := [(facePath ++ js "/a", described)] }

theorem face_keeps_row : ¬ CascadesActOnSubtree calmEnv belowFace facePath (js "c") := by
  intro h
  obtain ⟨v', hrun, hpruned⟩ := h.deletes
  rw [← (runs_unique (runs_deleteNodeCascade (fun op n => rfl)) hrun).2] at hpruned
  rcases deletes_iff.mp hpruned with hp | hbasic | hbare
  · exact absurd hp (by decide)
  · exact absurd hbasic (by decide)
  · exact absurd (hbare.nodes (js "a") (by decide)) (by decide)

end DurableDav.Dav
