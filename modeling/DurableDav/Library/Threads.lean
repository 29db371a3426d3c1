import DurableDav.Library.Fallible

namespace DurableDav.Library

/-- A program that may be left between its segments. A segment is labelled, and its outcome tells whether it did what its label says. -/
inductive Thread (η σ ε Λ : Type) : Type 1
  | done
  | next {α : Type} (label : Λ) (did : Except ε α → Bool) (segment : η → Act σ ε α) (rest : Except ε α → Thread η σ ε Λ)

namespace Thread

variable {η σ ε Λ τ : Type}

/-- The whole thread, if it is never left. -/
def alone (e : η) : Thread η σ ε Λ → σ → σ
  | done, s => s
  | next _ _ segment rest, s => (rest ((segment e).run s).1).alone e ((segment e).run s).2

/-- A segment that does its work unless it fails, and ends the thread where it does. -/
def of {α : Type} (label : Λ) (segment : η → Act σ ε α) (rest : α → Thread η σ ε Λ) : Thread η σ ε Λ :=
  .next label (fun r => r.toOption.isSome) segment fun
    | .ok a => rest a
    | .error _ => .done

/-- A segment that may also answer in place of going on. -/
def checked {α ρ : Type} (label : Λ) (segment : η → Act σ ε (Except ρ α)) (rest : α → Thread η σ ε Λ) : Thread η σ ε Λ :=
  .next label (fun r => r.toOption.any fun answer => answer.toOption.isSome) segment fun
    | .ok (.ok a) => rest a
    | _ => .done

def label : Thread η σ ε Λ → Option Λ
  | done => none
  | next label _ _ _ => some label

/-- What a turn of a thread leaves. -/
structure Turned (η σ ε Λ τ : Type) where
  state : τ
  did : Bool
  rest : Thread η σ ε Λ

section Turns

variable (enter : τ → σ) (leave : σ → τ)

/-- One segment, on the state that all threads share. -/
def turn (e : η) (t : τ) : Thread η σ ε Λ → Turned η σ ε Λ τ
  | done => ⟨t, false, done⟩
  | next _ did segment rest => ⟨leave ((segment e).run (enter t)).2, did ((segment e).run (enter t)).1,
      rest ((segment e).run (enter t)).1⟩

variable {enter leave} in
theorem of_goes {α : Type} {label : Λ} {segment : η → Act σ ε α} {rest : α → Thread η σ ε Λ} {e : η} {t : τ} {a : α}
    (h : ((segment e).run (enter t)).1 = .ok a) : ((of label segment rest).turn enter leave e t).rest = rest a := by
  unfold of turn
  dsimp only
  rw [h]

variable (P : Λ → η → τ → Turned η σ ε Λ τ → Prop)

/-- Every segment does what its label promises, from wherever it is entered. -/
inductive Obeys : Thread η σ ε Λ → Prop
  | done : Obeys .done
  | next {α : Type} {label : Λ} {did : Except ε α → Bool} {segment : η → Act σ ε α} {rest : Except ε α → Thread η σ ε Λ}
      (does : ∀ e t, P label e t ((next label did segment rest).turn enter leave e t))
      (goes : ∀ e t, Obeys (rest ((segment e).run (enter t)).1)) : Obeys (next label did segment rest)

variable {enter leave P}

theorem Obeys.turn {thread : Thread η σ ε Λ} (h : Obeys enter leave P thread) (e : η) (t : τ) :
    Obeys enter leave P (thread.turn enter leave e t).rest := by
  cases h with
  | done => exact .done
  | next does goes => exact goes e t

theorem Obeys.does {thread : Thread η σ ε Λ} {label : Λ} (h : Obeys enter leave P thread) (hlabel : thread.label = some label)
    (e : η) (t : τ) : P label e t (thread.turn enter leave e t) := by
  cases h with
  | done => cases hlabel
  | next does goes =>
    obtain rfl := Option.some.inj hlabel
    exact does e t

end Turns

theorem alone_next {α : Type} {label : Λ} {did : Except ε α → Bool} {segment : η → Act σ ε α}
    {rest : Except ε α → Thread η σ ε Λ} {e : η} {s s' : σ} {r : Except ε α} (h : (segment e).run s = (r, s')) :
    (next label did segment rest).alone e s = (rest r).alone e s' := by
  change (rest ((segment e).run s).1).alone e ((segment e).run s).2 = _
  rw [h]

/-! ### Threads that are never left -/

section Alone

variable {α β ρ : Type} {label : Λ} {did : Except ε α → Bool} {e : η} {thread : Thread η σ ε Λ} {x : Act σ ε β}

/-- Where it is never left, the thread takes the state where the program takes it. -/
def Does (e : η) (thread : Thread η σ ε Λ) (x : Act σ ε β) : Prop := ∀ s, thread.alone e s = (x.run s).2

theorem does_pure (b : β) : Does e (done : Thread η σ ε Λ) (pure b : Act σ ε β) := fun _ => rfl

theorem does_throw (failure : ε) : Does e (done : Thread η σ ε Λ) (.throw failure : Act σ ε β) := fun _ => rfl

theorem does_next {segment : η → Act σ ε α} {rest : Except ε α → Thread η σ ε Λ} {f : Except ε α → Act σ ε β}
    (h : ∀ r, Does e (rest r) (f r)) : Does e (next label did segment rest) ((segment e).attempt >>= f) :=
  fun s => h ((segment e).run s).1 ((segment e).run s).2

theorem does_of {segment : η → Act σ ε α} {rest : α → Thread η σ ε Λ} {f : α → Act σ ε β}
    (h : ∀ a, Does e (rest a) (f a)) : Does e (of label segment rest) (segment e >>= f) := by
  intro s
  cases hrun : (segment e).run s with
  | mk r s' =>
    cases r with
    | ok a => exact (alone_next hrun).trans ((h a s').trans (congrArg Prod.snd (Act.run_bind_ok hrun)).symm)
    | error failure => exact (alone_next hrun).trans (congrArg Prod.snd (Act.run_bind_error hrun)).symm

/-- A program that is never left is one segment. -/
theorem does_segment {segment : η → Act σ ε β} : Does e (of label segment fun _ => .done) (segment e) := by
  intro s
  cases hrun : (segment e).run s with
  | mk r s' =>
    cases r with
    | ok b => exact alone_next hrun
    | error failure => exact alone_next hrun

theorem does_checked {segment : η → Act σ ε (Except ρ α)} {rest : α → Thread η σ ε Λ} {f : Except ρ α → Act σ ε β}
    (h : ∀ a, Does e (rest a) (f (.ok a))) (hanswer : ∀ answer s, ((f (.error answer)).run s).2 = s) :
    Does e (checked label segment rest) (segment e >>= f) := by
  intro s
  cases hrun : (segment e).run s with
  | mk r s' =>
    cases r with
    | error failure => exact (alone_next hrun).trans (congrArg Prod.snd (Act.run_bind_error hrun)).symm
    | ok answer =>
      rw [Act.run_bind_ok hrun]
      cases answer with
      | ok a => exact (alone_next hrun).trans (h a s')
      | error answer => exact (alone_next hrun).trans (hanswer answer s').symm

/-- What is made of the answer in the end does not matter. -/
theorem Does.answers {γ : Type} (h : Does e thread x) (f : β → γ) : Does e thread (x >>= fun b => pure (f b)) := by
  intro s
  rw [h s, Act.run_bind]
  cases x.run s with
  | mk r s' => cases r <;> rfl

end Alone

end Thread

end DurableDav.Library
