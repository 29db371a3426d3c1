import DurableDav.Front.UserService

namespace DurableDav.Front

open Library

/-! ### What the rules make of a handle -/

section Rules

variable {C : Casing} {s : JsString}

theorem valid_of_alphanumeric (hne : s ≠ []) (hlength : s.length ≤ usernameMaxLength)
    (hall : ∀ c ∈ s, isAlphanumeric c = true) : isValidUsername s = true := by
  simp only [isValidUsername, decide_eq_true_eq, List.all_eq_true]
  refine ⟨hne, hlength, fun c hc => .inl (hall c hc), ?_, ?_⟩
  · cases s with
    | nil => rfl
    | cons c rest => exact hall c List.mem_cons_self
  · cases hlast : s.getLast? with
    | none => rfl
    | some c => exact hall c (List.mem_of_getLast? hlast)

theorem deriveUsernameCandidate_valid (email : JsString) : isValidUsername (deriveUsernameCandidate C email) = true := by
  unfold deriveUsernameCandidate
  split
  · assumption
  · split
    · rename_i hne
      apply valid_of_alphanumeric
      · simpa [usernameMaxLength] using hne
      · simp
      · intro c hc
        have hlower := (List.mem_filter.mp (List.mem_of_mem_take hc)).2
        simp only [isLowerAlphanumeric, isAlphanumeric, decide_eq_true_eq] at hlower ⊢
        omega
    · decide

theorem ascii_of_valid (h : isValidUsername s = true) : s.all isAscii = true := by
  rw [List.all_eq_true]
  intro c hc
  rcases username_units h hc with hc | rfl
  · have := alphanumeric_bounds hc
    simp only [isAscii, decide_eq_true_eq]
    omega
  · decide

theorem asciiLower_ascii {c : CodeUnit} (h : isAscii c = true) : isAscii (asciiLower c) = true := by
  simp only [isAscii, decide_eq_true_eq, asciiLower_val] at h ⊢
  split <;> omega

theorem asciiLower_twice (c : CodeUnit) : asciiLower (asciiLower c) = asciiLower c := by
  apply Fin.ext
  rw [asciiLower_val, asciiLower_val]
  split
  · rw [if_neg (by omega)]
  · rfl

theorem lower_lower (h : isValidUsername s = true) : C.toLowerCase (C.toLowerCase s) = C.toLowerCase s := by
  rw [lower_eq (lower_username h), lower_eq h, List.map_map]
  exact List.map_congr_left fun c _ => asciiLower_twice c

theorem not_whiteSpace {c : CodeUnit} (h : isAlphanumeric c = true ∨ c = dash) : isWhiteSpace c = false := by
  rcases h with h | rfl
  · have hbounds := alphanumeric_bounds h
    simp only [isAlphanumeric, decide_eq_true_eq] at h
    simp only [isWhiteSpace, decide_eq_false_iff_not, List.mem_cons, List.not_mem_nil, or_false]
    omega
  · decide

theorem trim_valid (h : isValidUsername s = true) : trim s = s := by
  have hkeep : ∀ t : JsString, t ⊆ s → t.dropWhile isWhiteSpace = t := by
    intro t ht
    rw [List.dropWhile_eq_self_iff]
    intro hlength
    simp [not_whiteSpace (username_units h (ht (List.getElem_mem hlength)))]
  unfold trim
  rw [hkeep s (List.Subset.refl s), hkeep s.reverse fun c hc => List.mem_reverse.mp hc, List.reverse_reverse]

theorem reserved_lower (h : isValidUsername s = true) :
    isReservedNamespaceName C (C.toLowerCase s) = isReservedNamespaceName C s := by
  unfold isReservedNamespaceName
  rw [trim_valid h, trim_valid (lower_username h), lower_lower h]

/-- No reserved name has a dash in it. -/
theorem not_reserved_of_dash (hascii : s.all isAscii = true) (hdash : dash ∈ s) : isReservedNamespaceName C s = false := by
  have hplain : reservedNamespaceNames.all (fun n => !n.contains dash) = true := by decide
  have htrim : (trim s).all isAscii = true :=
    List.all_eq_true.mpr fun c hc => List.all_eq_true.mp hascii c ((trim_sublist s).subset hc)
  have hkept : dash ∈ C.toLowerCase (trim s) := by
    rw [C.ascii _ htrim]
    exact List.mem_map.mpr ⟨dash, mem_trim hdash (by decide), by decide⟩
  unfold isReservedNamespaceName
  rw [decide_eq_false_iff_not]
  intro hmem
  have hnone := List.all_eq_true.mp hplain _ hmem
  rw [List.contains_iff_mem.mpr hkept] at hnone
  exact absurd hnone (by decide)

end Rules

/-! ### What is asked of every handle, and of every turn -/

def Admissible (C : Casing) (h : JsString) : Prop := isValidUsername h = true ∧ isReservedNamespaceName C h = false

/-- A handle belongs to one account, for ever. -/
structure HandlesKept (C : Casing) (s : HandleSystem) : Prop where
  unique : ∀ a b u v, s.username a = some u → s.username b = some v → C.toLowerCase u = C.toLowerCase v → a = b
  kept : ∀ a b h, (a, h) ∈ s.held → (b, h) ∈ s.held → a = b
  recorded : ∀ a u, s.username a = some u → (a, C.toLowerCase u) ∈ s.held
  usernames : ∀ a u, s.username a = some u → Admissible C u
  namespaces : ∀ h row, Store.get s.namespaces h = some row → Admissible C h

/-- What a call has put into a row, or may have, and is still to claim. -/
def HandleCall.unclaimed : HandleCall → Option (Account × JsString)
  | .claimIgnore a handle => some (a, handle)
  | _ => none

/-- No other account has claimed the handle, or has had it and is still to claim it. -/
structure Uncontested (C : Casing) (s : HandleSystem) (a : Account) (h : JsString) : Prop where
  unclaimed : ∀ row ∈ Store.get s.namespaces h, namespaceBelongsTo C row a = true
  unwritten : ∀ w ∈ s.calls.filterMap HandleCall.unclaimed, C.toLowerCase w.2 = h → (w.1.id, h) ∈ s.held →
    w.1.id = a.id

def HandleSystem.Nameless (s : HandleSystem) (a : Account) : Prop :=
  (Store.get s.users a.id).any (fun row => row.username = none) = true

/-- A bootstrap writes a valid handle that is no other account's, and then claims it; a rename writes what its own account
has claimed, and takes back only a claim of a handle that nobody has had. -/
def HandleCall.Proper (C : Casing) (s : HandleSystem) (reply : Reply) : HandleCall → Prop
  | .ensure a handle => isValidUsername handle = true ∧
      (s.Nameless a → reply ≠ .lost ∧ (reply = .done → Uncontested C s a (C.toLowerCase handle)))
  | .claimIgnore a handle => (a.id, C.toLowerCase handle) ∈ s.held → reply ≠ .failed ∧
      ∀ row ∈ Store.get s.namespaces (C.toLowerCase handle), namespaceBelongsTo C row a = true
  | .set a handleCi _ => reply ≠ .failed →
      (Store.get s.namespaces handleCi).isSome = true ∧ Uncontested C s a handleCi
  | .release _ handleCi => reply ≠ .failed → ∀ e ∈ s.held, e.2 ≠ handleCi
  | _ => True

def Move.Proper (C : Casing) (s : HandleSystem) : Move → Prop
  | .turn i reply _ => ∀ c ∈ s.calls[i]?, c.Proper C s reply
  | _ => True

instance decidableUncontested {C : Casing} {s : HandleSystem} {a : Account} {h : JsString} :
    Decidable (Uncontested C s a h) :=
  decidable_of_iff ((∀ row ∈ Store.get s.namespaces h, namespaceBelongsTo C row a = true) ∧
    ∀ w ∈ s.calls.filterMap HandleCall.unclaimed, C.toLowerCase w.2 = h → (w.1.id, h) ∈ s.held → w.1.id = a.id)
    ⟨fun h => ⟨h.1, h.2⟩, fun h => ⟨h.unclaimed, h.unwritten⟩⟩

instance decidableNameless {s : HandleSystem} {a : Account} : Decidable (s.Nameless a) :=
  inferInstanceAs (Decidable (_ = _))

instance decidableCallProper {C : Casing} {s : HandleSystem} {reply : Reply} :
    ∀ c : HandleCall, Decidable (c.Proper C s reply)
  | .ensure _ _ => inferInstanceAs (Decidable (_ ∧ (_ → _ ∧ (_ → _))))
  | .claimIgnore _ _ => inferInstanceAs (Decidable (_ → _ ∧ _))
  | .set _ _ _ => inferInstanceAs (Decidable (_ → _ ∧ _))
  | .release _ _ => inferInstanceAs (Decidable (_ → _))
  | .resolve _ | .register _ | .probe _ _ _ _ | .lookup _ _ _ _ | .resolveRename _ _ | .inspect _ _ | .inspectTaken _ _
  | .inspectUser _ _ | .claim _ _ | .reget _ _ | .retaken _ _ | .ended => inferInstanceAs (Decidable True)

instance decidableMoveProper {C : Casing} {s : HandleSystem} : ∀ m : Move, Decidable (m.Proper C s)
  | .turn _ _ _ => inferInstanceAs (Decidable (∀ _ ∈ _, _))
  | .upsertUser _ | .renameUsername _ _ => inferInstanceAs (Decidable True)

/-! ### What a call carries -/

def HandleCall.Sound (C : Casing) : HandleCall → Prop
  | .probe _ base _ candidate | .lookup _ base _ candidate =>
    isValidUsername base = true ∧ isReservedNamespaceName C (C.toLowerCase candidate) = false
  | .ensure _ handle => isReservedNamespaceName C (C.toLowerCase handle) = false
  | .claimIgnore _ handle => Admissible C (C.toLowerCase handle)
  | .resolveRename _ ci | .inspect _ ci | .inspectTaken _ ci | .inspectUser _ ci | .claim _ ci | .reget _ ci | .retaken _ ci
  | .set _ ci _ | .release _ ci => Admissible C ci ∧ C.toLowerCase ci = ci
  | .resolve _ | .register _ | .ended => True

section Calls

variable {C : Casing} {d : Registries} {a : Account} {s : HandleSystem} {reply : Reply} {now : ℕ} {c : HandleCall}
  {base : JsString}

theorem inBase_ascii (n : ℕ) : (inBase 36 n).all isAscii = true := by
  have hunit : ∀ k < 36, isAscii (digitUnit k) = true := by decide
  rw [List.all_eq_true]
  intro c hc
  unfold inBase at hc
  split at hc
  · rw [List.mem_singleton.mp hc]
    exact hunit 0 (by omega)
  · obtain ⟨k, hk, rfl⟩ := List.mem_map.mp (List.mem_reverse.mp hc)
    exact hunit k (Nat.digits_lt_base (by omega) hk)

theorem findFreeUsername_sound (hbase : isValidUsername base = true) (left : ℕ) (candidate : JsString) :
    (findFreeUsername C now a base left candidate).Sound C := by
  induction left generalizing candidate with
  | zero =>
    have hascii : (base ++ dash :: inBase 36 now).all isAscii = true := by
      rw [List.all_append, List.all_cons, ascii_of_valid hbase, inBase_ascii]
      decide
    have hlower : ((base ++ dash :: inBase 36 now).map asciiLower).all isAscii = true := by
      rw [List.all_map, List.all_eq_true]
      exact fun c hc => asciiLower_ascii (List.all_eq_true.mp hascii c hc)
    change isReservedNamespaceName C (C.toLowerCase (base ++ dash :: inBase 36 now)) = false
    rw [C.ascii _ hascii]
    exact not_reserved_of_dash hlower (List.mem_map.mpr ⟨dash, by simp, by decide⟩)
  | succ left ih =>
    unfold findFreeUsername
    split
    · exact ih _
    · rename_i hfree
      exact ⟨hbase, by simpa using hfree⟩

theorem bootstrapUsername_sound (username : Option JsString) : (bootstrapUsername C now a username).Sound C := by
  unfold bootstrapUsername
  split
  · trivial
  · exact findFreeUsername_sound (deriveUsernameCandidate_valid _) _ _

theorem advance_sound (h : c.Sound C) (hproper : c.Proper C s reply) : (c.advance C reply now d).2.Sound C := by
  cases c with
  | resolve a =>
    rw [HandleCall.advance]
    split
    · trivial
    · split
      · exact bootstrapUsername_sound _
      · trivial
  | register a =>
    rw [HandleCall.advance]
    split
    · change (bootstrapUsername C now a none).Sound C
      exact bootstrapUsername_sound none
    · trivial
  | probe a base left candidate =>
    rw [HandleCall.advance]
    split
    · exact findFreeUsername_sound h.1 _ _
    · exact h
  | lookup a base left candidate =>
    rw [HandleCall.advance]
    split
    · exact findFreeUsername_sound h.1 _ _
    · exact h.2
  | ensure a handle =>
    rw [HandleCall.advance]
    split
    · exact ⟨lower_username hproper.1, h⟩
    · trivial
  | resolveRename a ci | inspect a ci | inspectTaken a ci | inspectUser a ci | claim a ci | reget a ci | set a ci fresh =>
    rw [HandleCall.advance]
    repeat' split
    all_goals first | exact h | trivial
  | claimIgnore a handle | retaken a ci | release a ci | ended => trivial

end Calls

/-! ### What the statements do to the registries -/

section Statements

variable {C : Casing} {d : Registries} {a : Account} {b h u : JsString}

theorem username_registerAccount : (d.registerAccount a).username b = d.username b := by
  unfold Registries.registerAccount
  split
  · rfl
  · rename_i hnone
    unfold Registries.username
    rw [Store.get_put]
    split
    · rename_i heq
      rw [heq, Option.not_isSome_iff_eq_none.mp hnone]
      rfl
    · rfl

theorem namespaces_registerAccount : (d.registerAccount a).namespaces = d.namespaces := by
  unfold Registries.registerAccount
  split <;> rfl

theorem username_setUsername (hrow : (Store.get d.users a.id).isSome = true) :
    (d.setUsername a h).username b = if b = a.id then some h else d.username b := by
  obtain ⟨row, hrow⟩ := Option.isSome_iff_exists.mp hrow
  unfold Registries.setUsername Registries.username
  rw [hrow]
  dsimp only
  rw [Store.get_put]
  split <;> rfl

theorem setUsername_absent (hrow : Store.get d.users a.id = none) : d.setUsername a h = d := by
  unfold Registries.setUsername
  rw [hrow]

theorem namespaces_setUsername : (d.setUsername a h).namespaces = d.namespaces := by
  unfold Registries.setUsername
  split <;> rfl

theorem username_claimIgnore : (d.claimIgnore a h).username b = d.username b := by
  unfold Registries.claimIgnore
  split <;> rfl

theorem namespaces_claimIgnore (k : JsString) : Store.get (d.claimIgnore a h).namespaces k =
    if k = h ∧ Store.get d.namespaces h = none then some a.claimRow else Store.get d.namespaces k := by
  unfold Registries.claimIgnore
  cases hget : Store.get d.namespaces h with
  | some row => simp
  | none => by_cases hk : k = h <;> simp [hk]

theorem namespaces_release (k : JsString) :
    Store.get (d.release h).namespaces k = if k = h then none else Store.get d.namespaces k :=
  Store.get_remove d.namespaces h k

theorem ensureUsername_kept {s : HandleSystem} (hkept : ¬ s.Nameless a) : s.ensureUsername a h = s.toRegistries := by
  unfold Registries.ensureUsername
  split
  · rename_i hnone
    cases hrow : Store.get s.users a.id with
    | none => exact setUsername_absent hrow
    | some row =>
      unfold Registries.username at hnone
      rw [hrow, Option.bind_some] at hnone
      apply absurd _ hkept
      unfold HandleSystem.Nameless
      rw [hrow, Option.any_some, hnone]
      rfl
  · rfl

theorem belongs_claimRow {b : Account} : namespaceBelongsTo C a.claimRow b = true ↔ a.id = b.id := by
  simp [namespaceBelongsTo, Account.claimRow, a.id_ne]

theorem mem_handles : (b, h) ∈ d.handles C ↔ ∃ u, d.username b = some u ∧ C.toLowerCase u = h := by
  unfold Registries.handles
  rw [List.mem_filterMap]
  constructor
  · rintro ⟨id, -, hid⟩
    obtain ⟨u, hu, hpair⟩ := Option.map_eq_some_iff.mp hid
    obtain ⟨rfl, rfl⟩ := Prod.mk.inj hpair
    exact ⟨u, hu, rfl⟩
  · rintro ⟨u, hu, rfl⟩
    obtain ⟨row, hrow, -⟩ := Option.bind_eq_some_iff.mp hu
    exact ⟨b, Store.mem_keys.mpr (by rw [hrow]; rfl), by rw [hu]; rfl⟩

end Statements

/-! ### Every handle that was ever had is claimed, or about to be -/

structure Guarded (C : Casing) (s : HandleSystem) : Prop where
  calls : ∀ c ∈ s.calls, c.Sound C
  claims : ∀ h row, Store.get s.namespaces h = some row → Admissible C h ∧ ∃ a : Account, row = a.claimRow
  named : ∀ b u, s.username b = some u → (b, C.toLowerCase u) ∈ s.held ∧ Admissible C u
  guarded : ∀ b h, (b, h) ∈ s.held → (∃ a : Account, a.id = b ∧ Store.get s.namespaces h = some a.claimRow) ∨
    ∃ a u, .claimIgnore a u ∈ s.calls ∧ a.id = b ∧ C.toLowerCase u = h
  unique : ∀ a b h, (a, h) ∈ s.held → (b, h) ∈ s.held → a = b

theorem Guarded.handlesKept {C : Casing} {s : HandleSystem} (h : Guarded C s) : HandlesKept C s := by
  refine ⟨fun a b u v hu hv huv => ?_, h.unique, fun a u hu => (h.named a u hu).1, fun a u hu => (h.named a u hu).2,
    fun k row hrow => (h.claims k row hrow).1⟩
  apply h.unique a b (C.toLowerCase u) (h.named a u hu).1
  rw [huv]
  exact (h.named b v hv).1

section Turns

variable {C : Casing} {s : HandleSystem} {i : ℕ} {c c' : HandleCall} {d' : Registries} {a : Account} {handle : JsString}

theorem mem_turned {x k : JsString} : (x, k) ∈ (s.turned C i d' c').held ↔
    (∃ u, d'.username x = some u ∧ C.toLowerCase u = k) ∨ (x, k) ∈ s.held := by
  change (x, k) ∈ d'.handles C ++ s.held ↔ _
  rw [List.mem_append, mem_handles]

theorem stays {c'' : HandleCall} (hc : s.calls[i]? = some c) (hmem : c'' ∈ s.calls) (hne : c'' ≠ c) :
    c'' ∈ s.calls.set i c' := by
  obtain ⟨j, hj⟩ := List.mem_iff_getElem?.mp hmem
  have hji : i ≠ j := by
    rintro rfl
    exact hne (Option.some.inj (hj.symm.trans hc))
  apply List.mem_iff_getElem?.mpr
  exact ⟨j, by rw [List.getElem?_set_ne hji, hj]⟩

/-- A turn that names no account anew. -/
theorem Guarded.quiet (h : Guarded C s) (hc : s.calls[i]? = some c) (hsound : c'.Sound C)
    (husers : ∀ b, d'.username b = s.username b)
    (hclaims : ∀ k row, Store.get d'.namespaces k = some row → Admissible C k ∧ ∃ a : Account, row = a.claimRow)
    (hkeeps : ∀ b k, (b, k) ∈ s.held → Store.get s.namespaces k ≠ none →
      Store.get d'.namespaces k = Store.get s.namespaces k)
    (hclaimed : ∀ a u, c = .claimIgnore a u → (a.id, C.toLowerCase u) ∈ s.held →
      ∃ a' : Account, a'.id = a.id ∧ Store.get d'.namespaces (C.toLowerCase u) = some a'.claimRow) :
    Guarded C (s.turned C i d' c') := by
  have hheld (x k : JsString) : (x, k) ∈ (s.turned C i d' c').held ↔ (x, k) ∈ s.held := by
    rw [mem_turned]
    refine or_iff_right_of_imp ?_
    rintro ⟨u, hu, rfl⟩
    exact (h.named x u ((husers x).symm.trans hu)).1
  refine ⟨fun c₁ hc₁ => ?_, hclaims, fun b u hu => ?_, fun b k hbk => ?_, fun x y k hx hy => ?_⟩
  · rcases List.mem_or_eq_of_mem_set hc₁ with hc₁ | rfl
    · exact h.calls c₁ hc₁
    · exact hsound
  · obtain ⟨hmem, hgood⟩ := h.named b u ((husers b).symm.trans hu)
    exact ⟨(hheld _ _).mpr hmem, hgood⟩
  · have hold := (hheld b k).mp hbk
    rcases h.guarded b k hold with ⟨a, ha, hget⟩ | ⟨a, u, hmem, ha, hu⟩
    · left
      refine ⟨a, ha, ?_⟩
      exact (hkeeps b k hold (by rw [hget]; simp)).trans hget
    · by_cases hthis : c = .claimIgnore a u
      · left
        rw [← ha, ← hu] at hold
        obtain ⟨a', ha', hget⟩ := hclaimed a u hthis hold
        exact ⟨a', ha'.trans ha, hu ▸ hget⟩
      · exact .inr ⟨a, u, stays hc hmem (Ne.symm hthis), ha, hu⟩
  · exact h.unique x y k ((hheld x k).mp hx) ((hheld y k).mp hy)

/-- A turn that puts a handle into the row of an account. -/
theorem Guarded.writes (h : Guarded C s) (hc : s.calls[i]? = some c) (hsound : c'.Sound C)
    (hother : ∀ a u, c ≠ .claimIgnore a u) (hgood : Admissible C handle)
    (husers : ∀ b, d'.username b = if b = a.id then some handle else s.username b)
    (hsame : d'.namespaces = s.namespaces) (hfree : Uncontested C s a (C.toLowerCase handle))
    (hguard : (Store.get s.namespaces (C.toLowerCase handle)).isSome = true ∨ c' = .claimIgnore a handle) :
    Guarded C (s.turned C i d' c') := by
  have hheld {x k : JsString} (hxk : (x, k) ∈ (s.turned C i d' c').held) :
      (x, k) ∈ s.held ∨ x = a.id ∧ k = C.toLowerCase handle := by
    rcases mem_turned.mp hxk with ⟨u, hu, rfl⟩ | hxk
    · rw [husers] at hu
      split at hu
      · rename_i hx
        exact .inr ⟨hx, by rw [Option.some.inj hu]⟩
      · exact .inl (h.named x u hu).1
    · exact .inl hxk
  -- nobody else has ever had the handle
  have hown {y : JsString} (hy : (y, C.toLowerCase handle) ∈ s.held) : y = a.id := by
    rcases h.guarded y _ hy with ⟨b, rfl, hget⟩ | ⟨b, u, hmem, rfl, hu⟩
    · exact belongs_claimRow.mp (hfree.unclaimed _ hget)
    · exact hfree.unwritten (b, u) (List.mem_filterMap.mpr ⟨_, hmem, rfl⟩) hu hy
  refine ⟨fun c₁ hc₁ => ?_, fun k row hrow => h.claims k row (hsame ▸ hrow), fun b u hu => ?_, fun b k hbk => ?_,
    fun x y k hx hy => ?_⟩
  · rcases List.mem_or_eq_of_mem_set hc₁ with hc₁ | rfl
    · exact h.calls c₁ hc₁
    · exact hsound
  · have hu' : d'.username b = some u := hu
    refine ⟨mem_turned.mpr (.inl ⟨u, hu', rfl⟩), ?_⟩
    rw [husers] at hu'
    split at hu'
    · exact Option.some.inj hu' ▸ hgood
    · exact (h.named b u hu').2
  · change (∃ a : Account, a.id = b ∧ Store.get d'.namespaces k = some a.claimRow) ∨
      ∃ a u, .claimIgnore a u ∈ s.calls.set i c' ∧ a.id = b ∧ C.toLowerCase u = k
    rw [hsame]
    rcases hheld hbk with hold | ⟨rfl, rfl⟩
    · rcases h.guarded b k hold with hget | ⟨a', u, hmem, ha', hu⟩
      · exact .inl hget
      · exact .inr ⟨a', u, stays hc hmem (Ne.symm (hother a' u)), ha', hu⟩
    · rcases hguard with hget | rfl
      · obtain ⟨row, hrow⟩ := Option.isSome_iff_exists.mp hget
        obtain ⟨-, b, rfl⟩ := h.claims _ row hrow
        exact .inl ⟨b, belongs_claimRow.mp (hfree.unclaimed _ hrow), hrow⟩
      · right
        have hi : i < s.calls.length := (List.getElem?_eq_some_iff.mp hc).1
        exact ⟨a, handle, List.mem_set hi _, rfl, rfl⟩
  · rcases hheld hx with hx | ⟨rfl, rfl⟩
    · rcases hheld hy with hy | ⟨rfl, rfl⟩
      · exact h.unique x y k hx hy
      · exact hown hx
    · rcases hheld hy with hy | ⟨rfl, -⟩
      · exact (hown hy).symm
      · rfl

variable {reply : Reply} {now : ℕ}

theorem Guarded.registers (h : Guarded C s) (hc : s.calls[i]? = some c) (hsound : c'.Sound C) {k : JsString}
    (hgood : Admissible C k) (hclaimed : ∀ a' u, c = .claimIgnore a' u → a' = a ∧ C.toLowerCase u = k ∧
      ((a.id, k) ∈ s.held → ∀ row ∈ Store.get s.namespaces k, namespaceBelongsTo C row a = true)) :
    Guarded C (s.turned C i (s.toRegistries.claimIgnore a k) c') := by
  apply h.quiet hc hsound (fun _ => username_claimIgnore)
  · intro k' row hrow
    rw [namespaces_claimIgnore] at hrow
    split at hrow
    · rename_i hk
      exact ⟨hk.1 ▸ hgood, a, (Option.some.inj hrow).symm⟩
    · exact h.claims k' row hrow
  · intro b k' _ hsome
    rw [namespaces_claimIgnore]
    apply if_neg
    rintro ⟨rfl, hnone⟩
    exact hsome hnone
  · intro a' u hthis hmem
    obtain ⟨rfl, rfl, hown⟩ := hclaimed a' u hthis
    rw [namespaces_claimIgnore]
    split
    · exact ⟨a', rfl, rfl⟩
    · rename_i hnot
      cases hget : Store.get s.namespaces (C.toLowerCase u) with
      | none => exact absurd ⟨rfl, hget⟩ hnot
      | some row =>
        obtain ⟨-, b, rfl⟩ := h.claims _ row hget
        exact ⟨b, belongs_claimRow.mp (hown hmem _ hget), rfl⟩

theorem Guarded.reads (h : Guarded C s) (hc : s.calls[i]? = some c) (hsound : c'.Sound C)
    (hother : ∀ a u, c = .claimIgnore a u → (a.id, C.toLowerCase u) ∉ s.held) :
    Guarded C (s.turned C i s.toRegistries c') :=
  h.quiet hc hsound (fun _ => rfl) h.claims (fun _ _ _ _ => rfl) fun a u hthis hmem => absurd hmem (hother a u hthis)

theorem Guarded.unchanged (h : Guarded C s) (hc : s.calls[i]? = some c)
    (hsound : (c.advance C reply now s.toRegistries).2.Sound C)
    (hother : ∀ a u, c = .claimIgnore a u → (a.id, C.toLowerCase u) ∉ s.held)
    (hsame : (c.advance C reply now s.toRegistries).1 = s.toRegistries) :
    Guarded C (s.turned C i (c.advance C reply now s.toRegistries).1 (c.advance C reply now s.toRegistries).2) := by
  rw [hsame]
  exact h.reads hc hsound hother

theorem Guarded.performs (h : Guarded C s) (hc : s.calls[i]? = some c) (hsound : c'.Sound C)
    (hfailed : reply = .failed → ∀ a u, c = .claimIgnore a u → (a.id, C.toLowerCase u) ∉ s.held)
    (heffect : reply ≠ .failed → Guarded C (s.turned C i d' c')) :
    Guarded C (s.turned C i (reply.perform s.toRegistries d') c') := by
  unfold Reply.perform
  split
  · rename_i hreply
    exact h.reads hc hsound (hfailed hreply)
  · rename_i hreply
    exact heffect hreply

/-- What one turn does that meets the conditions. -/
theorem Guarded.turn (h : Guarded C s) (hc : s.calls[i]? = some c) (hproper : c.Proper C s reply) :
    Guarded C (s.turned C i (c.advance C reply now s.toRegistries).1 (c.advance C reply now s.toRegistries).2) := by
  have hcarried := h.calls c (List.mem_of_getElem? hc)
  have hsound := @advance_sound C s.toRegistries s reply now c hcarried hproper
  cases c with
  | resolve a | probe a base left candidate | lookup a base left candidate | resolveRename a ci | inspect a ci
  | inspectTaken a ci | inspectUser a ci | reget a ci | retaken a ci | ended =>
    apply h.unchanged hc hsound (fun _ _ hthis => by simp at hthis)
    simp only [HandleCall.advance]
    repeat' split
    all_goals rfl
  | register a =>
    apply h.performs hc hsound (fun _ _ _ hthis => by simp at hthis)
    intro _
    apply h.quiet hc hsound (fun _ => username_registerAccount)
    · rw [namespaces_registerAccount]
      exact h.claims
    · intro b k _ _
      rw [namespaces_registerAccount]
    · exact fun _ _ hthis => by simp at hthis
  | ensure a handle =>
    obtain ⟨hvalid, hnameless⟩ := hproper
    have hgood : Admissible C handle := ⟨hvalid, (reserved_lower hvalid).symm.trans hcarried⟩
    apply h.performs hc hsound (fun _ _ _ hthis => by simp at hthis)
    intro hreply
    by_cases hkept : s.Nameless a
    · obtain ⟨hlost, hfree⟩ := hnameless hkept
      obtain ⟨row, hrow, hnone⟩ := Option.any_eq_true _ _ |>.mp hkept
      have hdone : reply = .done := by
        cases reply with
        | done => rfl
        | failed => exact absurd rfl hreply
        | lost => exact absurd rfl hlost
      subst hdone
      have husername : s.username a.id = none := by
        unfold Registries.username
        rw [hrow, Option.bind_some, of_decide_eq_true hnone]
      unfold Registries.ensureUsername
      rw [if_pos husername]
      apply h.writes hc hsound (fun _ _ => by simp) hgood _ namespaces_setUsername (hfree rfl) (.inr rfl)
      exact fun _ => username_setUsername (by rw [hrow]; rfl)
    · rw [ensureUsername_kept hkept]
      exact h.reads hc hsound (fun _ _ hthis => by simp at hthis)
  | claimIgnore a handle =>
    apply h.performs hc hsound
    · rintro hreply a' u ⟨rfl, rfl⟩ hmem
      exact (hproper hmem).1 hreply
    · intro _
      apply h.registers hc hsound hcarried
      rintro a' u ⟨rfl, rfl⟩
      exact ⟨rfl, rfl, fun hmem => (hproper hmem).2⟩
  | claim a ci =>
    have hclaims {c' : HandleCall} (hc' : c'.Sound C) : Guarded C (s.turned C i (s.claimIgnore a ci) c') :=
      h.registers hc hc' hcarried.1 fun _ _ hthis => by simp at hthis
    rw [HandleCall.advance]
    split
    · exact hclaims hcarried
    · exact h.performs hc hcarried (fun _ _ _ hthis => by simp at hthis) fun _ => hclaims hcarried
  | set a ci fresh =>
    apply h.performs hc hsound (fun _ _ _ hthis => by simp at hthis)
    intro hreply
    obtain ⟨hsome, hfree⟩ := hproper hreply
    rw [← hcarried.2] at hfree hsome
    cases hrow : Store.get s.users a.id with
    | none =>
      rw [setUsername_absent hrow]
      exact h.reads hc hsound (fun _ _ hthis => by simp at hthis)
    | some row =>
      apply h.writes hc hsound (fun _ _ => by simp) hcarried.1 _ namespaces_setUsername hfree (.inl hsome)
      exact fun _ => username_setUsername (by rw [hrow]; rfl)
  | release a ci =>
    apply h.performs hc hsound (fun _ _ _ hthis => by simp at hthis)
    intro hreply
    apply h.quiet hc hsound
    · exact fun _ => rfl
    · intro k row hrow
      rw [namespaces_release] at hrow
      split at hrow
      · cases hrow
      · exact h.claims k row hrow
    · intro b k hbk _
      rw [namespaces_release, if_neg]
      rintro rfl
      exact hproper hreply (b, k) hbk rfl
    · exact fun _ _ hthis => by simp at hthis

end Turns

/-! ### Runs -/

section Runs

variable {C : Casing} {s s' : HandleSystem}

theorem Guarded.begins (h : Guarded C s) {c : HandleCall} (hsound : c.Sound C) :
    Guarded C { s with calls := s.calls ++ [c] } := by
  refine ⟨fun c' hc' => ?_, h.claims, h.named, fun b k hbk => ?_, h.unique⟩
  · rcases List.mem_append.mp hc' with hc' | hc'
    · exact h.calls c' hc'
    · exact List.mem_singleton.mp hc' ▸ hsound
  · refine (h.guarded b k hbk).imp id ?_
    rintro ⟨a, u, hmem, ha, hu⟩
    exact ⟨a, u, List.mem_append_left _ hmem, ha, hu⟩

theorem guarded_step {m : Move} (h : Guarded C s) (hproper : m.Proper C s) (hstep : s.step C m = some s') :
    Guarded C s' := by
  cases m with
  | upsertUser a =>
    obtain rfl := Option.some.inj hstep
    exact h.begins trivial
  | renameUsername a newUsername =>
    unfold HandleSystem.step at hstep
    dsimp only at hstep
    split at hstep
    · rename_i hvalid
      obtain ⟨hvalid, hfree⟩ := hvalid
      obtain rfl := Option.some.inj hstep
      apply h.begins
      exact ⟨⟨lower_username hvalid, by rw [reserved_lower hvalid]; simpa using hfree⟩, lower_lower hvalid⟩
    · obtain rfl := Option.some.inj hstep
      exact h
  | turn i reply now =>
    obtain ⟨c, hc, hnext⟩ := Option.bind_eq_some_iff.mp hstep
    obtain rfl := Option.some.inj hnext
    exact h.turn hc (hproper c hc)

theorem guarded_start : Guarded C .start :=
  ⟨fun _ hc => absurd hc List.not_mem_nil, fun _ _ hrow => absurd hrow (by simp [HandleSystem.start]),
    fun _ _ hu => absurd hu (by simp [HandleSystem.start, Registries.username]),
    fun _ _ hmem => absurd hmem List.not_mem_nil, fun _ _ _ hmem => absurd hmem List.not_mem_nil⟩

/-- In every run whose turns all meet their conditions a handle belongs to one account, for ever. -/
theorem handles_kept {moves : List Move} (hproper : Admitted (HandleSystem.step C) (Move.Proper C) .start moves)
    (hrun : run (HandleSystem.step C) .start moves = some s) : HandlesKept C s :=
  (run_preserves (fun _ _ _ h hm hstep => guarded_step h hm hstep) guarded_start hproper hrun).handlesKept

end Runs

def firstAccount : Account := ⟨js "1", js "a@x", by decide⟩

def secondAccount : Account := ⟨js "2", js "a@y", by decide⟩

/-- One sign-in after the other: the second finds the handle taken, and takes the next one. -/
def signInsInTurn : List Move :=
  [.upsertUser firstAccount, .turn 0 .done 0, .turn 0 .done 0, .turn 0 .done 0, .turn 0 .done 0, .turn 0 .done 0,
    .turn 0 .done 0, .upsertUser secondAccount, .turn 1 .done 0, .turn 1 .done 0, .turn 1 .done 0, .turn 1 .done 0,
    .turn 1 .done 0, .turn 1 .done 0, .turn 1 .done 0]

theorem sign_ins_in_turn : ∃ s, run (HandleSystem.step asciiCasing) .start signInsInTurn = some s ∧
    s.username (js "1") = some (js "a") ∧ s.username (js "2") = some (js "a-1") ∧ HandlesKept asciiCasing s :=
  ⟨_, rfl, by decide, by decide, @handles_kept asciiCasing _ signInsInTurn (by decide) rfl⟩

/-- Two first sign-ins of addresses with the same local part: both look before either writes. -/
def crossingSignIns : List Move :=
  [.upsertUser firstAccount, .upsertUser secondAccount, .turn 0 .done 0, .turn 1 .done 0, .turn 0 .done 0, .turn 1 .done 0,
    .turn 0 .done 0, .turn 1 .done 0, .turn 0 .done 0, .turn 1 .done 0, .turn 0 .done 0, .turn 1 .done 0]

theorem crossing_sign_ins : ∃ s, run (HandleSystem.step asciiCasing) .start crossingSignIns = some s ∧
    s.username (js "1") = some (js "a") ∧ s.username (js "2") = some (js "a") ∧ ¬ HandlesKept asciiCasing s := by
  refine ⟨_, rfl, by decide, by decide, fun h => ?_⟩
  have hsame := h.unique (js "1") (js "2") (js "a") (js "a") (by decide) (by decide) rfl
  exact absurd hsame (by decide)

end DurableDav.Front
