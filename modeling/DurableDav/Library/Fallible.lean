import Mathlib.Order.Defs.Unbundled

namespace DurableDav.Library

/-- A program over a state `σ` that answers a value or raises `ε`.
The state survives a raised error, as effects on the outside world do. -/
structure Act (σ ε α : Type) where
  run : σ → Except ε α × σ

namespace Act

variable {σ ε α β : Type}

def ret (a : α) : Act σ ε α := ⟨fun s => (.ok a, s)⟩

def throw (e : ε) : Act σ ε α := ⟨fun s => (.error e, s)⟩

def andThen (x : Act σ ε α) (f : α → Act σ ε β) : Act σ ε β :=
  ⟨fun s => match x.run s with
    | (.ok a, s') => (f a).run s'
    | (.error e, s') => (.error e, s')⟩

instance : Monad (Act σ ε) where
  pure := ret
  bind := andThen

def attempt (x : Act σ ε α) : Act σ ε (Except ε α) :=
  ⟨fun s => (.ok (x.run s).1, (x.run s).2)⟩

/-- What is raised is raised as something else. -/
def mapError {ε' : Type} (x : Act σ ε α) (f : ε → ε') : Act σ ε' α := ⟨fun s => ((x.run s).1.mapError f, (x.run s).2)⟩

def read : Act σ ε σ := ⟨fun s => (.ok s, s)⟩

def modify (f : σ → σ) : Act σ ε Unit := ⟨fun s => (.ok (), f s)⟩

@[simp] theorem run_pure (a : α) (s : σ) : (pure a : Act σ ε α).run s = (.ok a, s) := rfl

@[simp] theorem run_throw (e : ε) (s : σ) : (throw e : Act σ ε α).run s = (.error e, s) := rfl

@[simp] theorem run_attempt (x : Act σ ε α) (s : σ) :
    x.attempt.run s = (.ok (x.run s).1, (x.run s).2) := rfl

@[simp] theorem run_read (s : σ) : (read : Act σ ε σ).run s = (.ok s, s) := rfl

@[simp] theorem run_modify (f : σ → σ) (s : σ) : (modify f : Act σ ε Unit).run s = (.ok (), f s) := rfl

theorem run_bind (x : Act σ ε α) (f : α → Act σ ε β) (s : σ) :
    (x >>= f).run s = match x.run s with
      | (.ok a, s') => (f a).run s'
      | (.error e, s') => (.error e, s') := rfl

theorem run_bind_ok {x : Act σ ε α} {f : α → Act σ ε β} {s s' : σ} {a : α}
    (h : x.run s = (.ok a, s')) : (x >>= f).run s = (f a).run s' := by
  rw [run_bind, h]

theorem run_bind_error {x : Act σ ε α} {f : α → Act σ ε β} {s s' : σ} {e : ε}
    (h : x.run s = (.error e, s')) : (x >>= f).run s = (.error e, s') := by
  rw [run_bind, h]

theorem bind_assoc {γ : Type} (x : Act σ ε α) (f : α → Act σ ε β) (g : β → Act σ ε γ) :
    x >>= f >>= g = x >>= fun a => f a >>= g := by
  change Act.mk _ = Act.mk _
  congr 1
  funext s
  dsimp only [bind, andThen]
  cases x.run s with
  | mk r s' => cases r <;> rfl

/-- A program that answers has answered at each of its parts. -/
theorem of_run_bind {x : Act σ ε α} {f : α → Act σ ε β} {s s' : σ} {b : β}
    (h : (x >>= f).run s = (.ok b, s')) : ∃ a s₁, x.run s = (.ok a, s₁) ∧ (f a).run s₁ = (.ok b, s') := by
  rw [run_bind] at h
  cases hrun : x.run s with
  | mk r s₁ =>
    rw [hrun] at h
    cases r with
    | error e => simp at h
    | ok a => exact ⟨a, s₁, rfl, h⟩

theorem of_run_pure {a b : α} {s s' : σ} (h : (pure a : Act σ ε α).run s = (.ok b, s')) : a = b ∧ s = s' :=
  ⟨Except.ok.inj (congrArg Prod.fst h), congrArg Prod.snd h⟩

def Within (R : σ → σ → Prop) (x : Act σ ε α) : Prop := ∀ s, R s (x.run s).2

section Within

variable {R : σ → σ → Prop} [IsPreorder σ R]

theorem within_pure (a : α) : Within R (pure a : Act σ ε α) := fun s => refl_of R s

theorem within_throw (e : ε) : Within R (throw e : Act σ ε α) := fun s => refl_of R s

theorem within_read : Within R (read : Act σ ε σ) := fun s => refl_of R s

omit [IsPreorder σ R] in
theorem within_attempt {x : Act σ ε α} (h : Within R x) : Within R x.attempt := h

omit [IsPreorder σ R] in
theorem within_mapError {ε' : Type} {x : Act σ ε α} {f : ε → ε'} (h : Within R x) : Within R (x.mapError f) := h

omit [IsPreorder σ R] in
/-- What two parts of a program do comes together; the second is only run on what the first answers. -/
theorem within_bind_trans {S T : σ → σ → Prop} {x : Act σ ε α} {f : α → Act σ ε β} (hx : Within S x)
    (hf : ∀ a s s', x.run s = (.ok a, s') → Within T (f a)) (hS : ∀ s s', S s s' → R s s')
    (hR : ∀ s s' t, S s s' → T s' t → R s t) : Within R (x >>= f) := by
  intro s
  have hs := hx s
  rw [run_bind]
  cases hrun : x.run s with
  | mk r s' =>
    rw [hrun] at hs
    cases r with
    | error e => exact hS s s' hs
    | ok a => exact hR s s' _ hs (hf a s s' hrun s')

theorem within_bind_of_run {x : Act σ ε α} {f : α → Act σ ε β} (hx : Within R x)
    (hf : ∀ a s s', x.run s = (.ok a, s') → Within R (f a)) : Within R (x >>= f) :=
  within_bind_trans hx hf (fun _ _ h => h) (fun _ _ _ => trans_of R)

theorem within_bind {x : Act σ ε α} {f : α → Act σ ε β} (hx : Within R x) (hf : ∀ a, Within R (f a)) :
    Within R (x >>= f) := within_bind_of_run hx (fun a _ _ _ => hf a)

omit [IsPreorder σ R] in
theorem Within.of_run {x : Act σ ε α} (h : Within R x) {s s' : σ} {r : Except ε α} (hrun : x.run s = (r, s')) :
    R s s' := by
  have hs := h s
  rwa [hrun] at hs

omit [IsPreorder σ R] in
theorem Within.mono {S : σ → σ → Prop} {x : Act σ ε α} (h : Within R x)
    (hRS : ∀ s t, R s t → S s t) : Within S x := fun s => hRS _ _ (h s)

end Within

/-! ### Pre- and postconditions -/

def Ends (Q : α → σ → Prop) (E : σ → Prop) : Except ε α × σ → Prop
  | (.ok a, s) => Q a s
  | (.error _, s) => E s

/-- Started where `P` holds, the program answers where `Q` holds or raises where `E` does. -/
def Meets (P : σ → Prop) (x : Act σ ε α) (Q : α → σ → Prop) (E : σ → Prop) : Prop :=
  ∀ s, P s → Ends Q E (x.run s)

section Meets

variable {P P' E E' : σ → Prop} {Q Q' : α → σ → Prop} {x : Act σ ε α}

theorem meets_pure {a : α} (h : ∀ s, P s → Q a s) : Meets P (pure a : Act σ ε α) Q E := h

theorem meets_throw {e : ε} (h : ∀ s, P s → E s) : Meets P (throw e : Act σ ε α) Q E := h

theorem meets_bind {R : α → σ → Prop} {Q : β → σ → Prop} {f : α → Act σ ε β} (hx : Meets P x R E)
    (hf : ∀ a, Meets (R a) (f a) Q E) : Meets P (x >>= f) Q E := by
  intro s hs
  have h := hx s hs
  rw [run_bind]
  cases hrun : x.run s with
  | mk r s' =>
    rw [hrun] at h
    cases r with
    | error e => exact h
    | ok a => exact hf a s' h

/-- The second part is only run on what the first answers. -/
theorem meets_bind_of_run {R : σ → Prop} {Q : β → σ → Prop} {f : α → Act σ ε β} (hx : Meets P x (fun _ => R) E)
    (hf : ∀ a s s', P s → x.run s = (.ok a, s') → Meets R (f a) Q E) : Meets P (x >>= f) Q E := by
  intro s hs
  have h := hx s hs
  rw [run_bind]
  cases hrun : x.run s with
  | mk r s' =>
    rw [hrun] at h
    cases r with
    | error e => exact h
    | ok a => exact hf a s s' hs hrun s' h

theorem meets_read {Q : σ → σ → Prop} (h : ∀ s, P s → Q s s) : Meets P (read : Act σ ε σ) Q E := h

theorem meets_modify {f : σ → σ} {Q : Unit → σ → Prop} (h : ∀ s, P s → Q () (f s)) :
    Meets P (modify f : Act σ ε Unit) Q E := h

/-- What is read is the state the rest starts in. -/
theorem meets_read_bind {Q : β → σ → Prop} {f : σ → Act σ ε β}
    (hf : ∀ r, P r → Meets (fun s => s = r) (f r) Q E) : Meets P (read >>= f) Q E :=
  fun s hs => hf s hs s rfl

theorem Meets.weaken (h : Meets P x Q E) (hP : ∀ s, P' s → P s) (hQ : ∀ a s, Q a s → Q' a s)
    (hE : ∀ s, E s → E' s) : Meets P' x Q' E' := by
  intro s hs
  have h' := h s (hP s hs)
  cases hrun : x.run s with
  | mk r s' =>
    rw [hrun] at h'
    cases r with
    | error e => exact hE s' h'
    | ok a => exact hQ a s' h'

theorem Meets.ok (h : Meets P x Q E) {s s' : σ} {a : α} (hs : P s) (hrun : x.run s = (.ok a, s')) : Q a s' := by
  have h' := h s hs
  rwa [hrun] at h'

theorem Meets.error (h : Meets P x Q E) {s s' : σ} {e : ε} (hs : P s) (hrun : x.run s = (.error e, s')) :
    E s' := by
  have h' := h s hs
  rwa [hrun] at h'

theorem meets_attempt (h : Meets P x Q E) : Meets P x.attempt (fun r s => match r with
    | .ok a => Q a s
    | .error _ => E s) (fun _ => False) := by
  intro s hs
  have h' := h s hs
  rw [run_attempt]
  cases hrun : x.run s with
  | mk r s' =>
    rw [hrun] at h'
    cases r <;> exact h'

theorem Meets.within {R : σ → σ → Prop} (h : Meets P x Q E) (hR : Within R x) (s : σ) :
    Meets (fun t => t = s ∧ P t) x (fun a t => Q a t ∧ R s t) (fun t => E t ∧ R s t) := by
  intro t ht
  have h' := h t ht.2
  have hr := hR t
  rw [ht.1] at h' hr ⊢
  cases hrun : x.run s with
  | mk r s' =>
    rw [hrun] at h' hr
    cases r <;> exact ⟨h', hr⟩

theorem Meets.after (h : Meets P x (fun _ => E) E) {s : σ} (hs : P s) : E (x.run s).2 := by
  have h' := h s hs
  cases hrun : x.run s with
  | mk r s' =>
    rw [hrun] at h'
    cases r <;> exact h'

/-- What holds from step to step holds however the program ends. -/
theorem Within.meets {R : σ → σ → Prop} (h : Within R x) (hP : ∀ s s', P s → R s s' → E s') :
    Meets P x (fun _ => E) E := by
  intro s hs
  have h' := hP s _ hs (h s)
  cases hrun : x.run s with
  | mk r s' =>
    rw [hrun] at h'
    cases r <;> exact h'

section Relations

variable {R : σ → σ → Prop} [IsPreorder σ R]

theorem Within.keeps (h : Within R x) (s : σ) : Meets (R s) x (fun _ => R s) (R s) :=
  h.meets fun _ _ => trans_of R

theorem within_of_meets (h : ∀ s, Meets (R s) x (fun _ => R s) (R s)) : Within R x :=
  fun s => (h s).after (refl_of R s)

end Relations

end Meets

def each (f : β → Act σ ε Unit) : List β → Act σ ε Unit
  | [] => pure ()
  | b :: bs => f b >>= fun _ => each f bs

@[simp] theorem each_nil (f : β → Act σ ε Unit) : each f [] = pure () := rfl

@[simp] theorem each_cons (f : β → Act σ ε Unit) (b : β) (bs : List β) :
    each f (b :: bs) = (f b >>= fun _ => each f bs) := rfl

theorem within_each {R : σ → σ → Prop} [IsPreorder σ R] {f : β → Act σ ε Unit} {bs : List β}
    (hf : ∀ b ∈ bs, Within R (f b)) : Within R (each f bs) := by
  induction bs with
  | nil => exact within_pure ()
  | cons b bs ih =>
    exact within_bind (hf b (by simp)) (fun _ => ih (fun c hc => hf c (by simp [hc])))

end Act

theorem except_bind {ε α β : Type} {x : Except ε α} {f : α → Except ε β} {b : β} (h : (x >>= f) = .ok b) :
    ∃ a, x = .ok a ∧ f a = .ok b := by
  cases x with
  | error e => cases h
  | ok a => exact ⟨a, rfl, h⟩

end DurableDav.Library
