import DurableDav.Replication.WellFormed

namespace DurableDav.Replication

open Library

/-! ### What an operation on a path leaves there -/

namespace Tree

variable {t : Tree} {p : JsString} {a : Option (Option Bytes)}

theorem content_mkdirAll_parent (t : Tree) (now : ℕ) (hp : parentOf p ≠ []) :
    (t.mkdirAll (parentOf p) now).content p = t.content p := by
  rcases content_mkdirAll t (parentOf p) now p with h | ⟨_, _, he | hb⟩
  · exact h
  · have hself : Below slash p p := by
      have h := parentOf_below hp
      rwa [← he] at h
    exact absurd hself.length_lt (lt_irrefl _)
  · exact absurd (hb.trans (parentOf_below hp)).length_lt (lt_irrefl _)

theorem mkdir_meets (now : ℕ) : Act.Meets (fun t => t.content p = a) (mkdir p now)
    (fun _ t => t.content p = a ∨ a = none ∧ t.content p = some none) (fun t => t.content p = a) := by
  unfold mkdir
  split
  · exact Act.meets_throw (fun _ => id)
  · intro t ht
    rcases content_mkdirAll t p now p with h | ⟨hn, hs, _⟩
    · exact .inl (h.trans ht)
    · exact .inr ⟨ht ▸ hn, hs⟩

theorem mkcol_meets (r : Resource) : Act.Meets (fun t => t.content p = a) (mkcol p r)
    (fun _ t => t.content p = a ∨ a = none ∧ t.content p = some none) (fun t => t.content p = a) := by
  refine Act.meets_read_bind (fun u hu => ?_)
  split
  · exact Act.meets_pure (fun t ht => .inl (ht ▸ hu))
  · rename_i hnew
    split
    · refine Act.meets_modify (fun t ht => .inr ?_)
      have hn : Store.get u p = none := by simpa using fun h => hnew (.inr h)
      exact ⟨hu ▸ content_eq_none.mpr hn, by simp⟩
    · exact Act.meets_throw (fun t ht => ht ▸ hu)

theorem writeFile_meets {r : Resource} {data : Bytes} (hr : r.bytes = some data) :
    Act.Meets (fun t => t.content p = a) (writeFile p r) (fun _ t => t.content p = some (some data))
      (fun t => t.content p = a) := by
  refine Act.meets_read_bind (fun u hu => ?_)
  split
  · exact Act.meets_modify (fun t _ => by simp [hr])
  · exact Act.meets_throw (fun t ht => ht ▸ hu)

theorem write_meets (contentType : Option JsString) (data : Bytes) (now : ℕ) :
    Act.Meets (fun t => t.content p = a) (write p contentType data now)
      (fun _ t => t.content p = some (some data)) (fun t => t.content p = a) := by
  unfold write
  split
  · exact Act.meets_throw (fun _ => id)
  · refine Act.meets_bind (R := fun _ t => t.content p = a) ?_ (fun _ => writeFile_meets rfl)
    unfold mkdirParent
    split
    · exact Act.meets_pure (fun _ => id)
    · rename_i hp
      unfold mkdir
      split
      · exact Act.meets_throw (fun _ => id)
      · exact fun t ht => (content_mkdirAll_parent t now hp).trans ht

theorem unlink_meets (recursive : Bool) : Act.Meets (fun t => t.content p = a) (unlink p recursive)
    (fun _ t => t.content p = none) (fun t => t.content p = a) := by
  unfold unlink
  split
  · exact Act.meets_throw (fun _ => id)
  · refine Act.meets_read_bind (fun u hu => ?_)
    split
    · exact Act.meets_modify (fun t _ => by simp)
    · split
      · exact Act.meets_modify (fun t _ => by simp)
      · split
        · exact Act.meets_modify (fun t _ => by simp)
        · exact Act.meets_throw (fun t ht => ht ▸ hu)

theorem delete_meets : Act.Meets (fun t => t.content p = a) (delete p)
    (fun _ t => t.content p = none) (fun t => t.content p = a) := by
  refine Act.meets_read_bind (fun u _ => ?_)
  split
  · exact Act.meets_modify (fun t _ => by simp)
  · exact Act.meets_modify (fun t _ => by simp)

theorem content_removeFiles (P : JsString → Bool) :
    content (Store.removeWhere t (fun k => k ∈ t.filesBelow p ∧ P k)) p = t.content p := by
  have hself : ¬ (p ∈ t.filesBelow p ∧ P p) := by
    rintro ⟨hm, _⟩
    exact absurd (mem_filesBelow.mp hm).1.length_lt (lt_irrefl _)
  simp only [content, Store.get_removeWhere, decide_eq_true_eq, hself, ↓reduceIte]

end Tree

/-! ### What a call on a path leaves there -/

namespace World

variable {p : JsString} {c : Side → Option (Option Bytes)} {w w' : World}

/-- The contents of the two sides at a path. -/
def Holds (p : JsString) (c : Side → Option (Option Bytes)) (w : World) : Prop :=
  ∀ s, (w.tree s).content p = c s

@[simp] theorem holds_tick : w.tick.Holds p c ↔ w.Holds p c := by simp [Holds]

@[simp] theorem holds_note (e : Event) : (w.note e).Holds p c ↔ w.Holds p c := by simp [Holds]

theorem Holds.setTree (h : w.Holds p c) (s : Side) (t : Tree) :
    (w.setTree s t).Holds p (Function.update c s (t.content p)) := by
  intro s'
  by_cases hs : s' = s
  · subst hs
    simp
  · simpa [hs] using h s'

theorem Holds.update_self (h : w.Holds p c) {s : Side} {v : Option (Option Bytes)} (hv : v = c s) :
    w.Holds p (Function.update c s v) := by
  subst hv
  rwa [Function.update_eq_self]

theorem Moves.holds {T : Side → JsString → Prop} (h : World.Moves T w w') (hw : w.Holds p c)
    (hT : ∀ s q, T s q → q ≠ p ∧ ¬ Below slash p q) : w'.Holds p c := by
  intro s
  rcases h s p with hc | ht | ⟨_, _, q, hq, hb⟩
  · exact hc.trans (hw s)
  · exact absurd rfl (hT s p ht).1
  · exact absurd hb (hT s q hq).2

end World

section Calls

variable {α : Type} {env : Env} {p : JsString} {c : Side → Option (Option Bytes)} {s : Side}

theorem meets_call {call : Call} {spoil : ℕ → World → World} {body : ℕ → Answer → Run α} {P E : World → Prop}
    {Q : α → World → Prop} (htick : ∀ w, P w → P w.tick)
    (hspoil : ∀ n w, P w → E ((spoil n w).note (.rejected call)))
    (hbody : ∀ n a, Act.Meets P (body n a) (fun v w => Q v (w.note (call.outcome a)))
      (fun w => E (w.note (.rejected call)))) : Act.Meets P (env.call call spoil body) Q E := by
  intro w hw
  have answered (a : Answer) : Act.Ends Q E ((carryOut call a (body w.calls a)).run w.tick) := by
    have h := hbody w.calls a w.tick (htick w hw)
    rw [run_carryOut]
    cases hrun : (body w.calls a).run w.tick with
    | mk r w' =>
      rw [hrun] at h
      cases r <;> exact h
  cases ha : env.answer w.calls with
  | rejects reason =>
    have hrun : (env.call call spoil body).run w = (.error reason, (spoil w.calls w.tick).note (.rejected call)) := by
      simp only [Env.call, ha]
    rw [hrun]
    exact hspoil _ _ (htick w hw)
  | performs | blank | cut keep =>
    have hrun : (env.call call spoil body).run w =
        (carryOut call (env.answer w.calls) (body w.calls (env.answer w.calls))).run w.tick := by
      simp only [Env.call, ha]
    rw [hrun]
    exact answered _

theorem onSide_meets {x : Act Tree JsString α} {V : Option (Option Bytes) → Prop}
    (hx : Act.Meets (fun t => t.content p = c s) x (fun _ t => V (t.content p)) (fun t => t.content p = c s)) :
    Act.Meets (World.Holds p c) (onSide s x) (fun _ w => ∃ v, V v ∧ w.Holds p (Function.update c s v))
      (World.Holds p c) := by
  intro w hw
  have h := hx (w.tree s) (hw s)
  unfold onSide
  dsimp only
  cases hrun : x.run (w.tree s) with
  | mk r t' =>
    rw [hrun] at h
    have hset := hw.setTree s t'
    cases r with
    | ok v => exact ⟨_, h, hset⟩
    | error e =>
      have he : t'.content p = c s := h
      rw [he, Function.update_eq_self] at hset
      exact hset

theorem sideCall_meets {call : Call} {spoil : ℕ → World → World} {body : ℕ → Answer → Run Unit}
    {V : Option (Option Bytes) → Prop} (hspoil : ∀ n w, w.Holds p c → (spoil n w).Holds p c)
    (hbody : ∀ n a, Act.Meets (World.Holds p c) (body n a)
      (fun _ w => ∃ v, V v ∧ w.Holds p (Function.update c s v)) (World.Holds p c)) :
    Act.Meets (World.Holds p c) (env.call call spoil body)
      (fun _ w => ∃ v, V v ∧ w.Holds p (Function.update c s v)) (World.Holds p c) := by
  refine meets_call (fun w => World.holds_tick.mpr) (fun n w hw => (World.holds_note _).mpr (hspoil n w hw))
    (fun n a => (hbody n a).weaken (fun _ => id) (fun _ w h => ?_) (fun w => (World.holds_note _).mpr))
  simpa using h

theorem mkdir_meets (contentType : Option JsString) (data : Bytes) :
    Act.Meets (World.Holds p c) ((Mutation.mkdir s p).act env contentType data)
      (fun _ w => ∃ v, (v = c s ∨ c s = none ∧ v = some none) ∧ w.Holds p (Function.update c s v))
      (World.Holds p c) := by
  cases s with
  | localSide =>
    have h : Act.Meets (World.Holds p c) (env.localMkdir p) (fun _ w => ∃ v,
        (v = c .localSide ∨ c .localSide = none ∧ v = some none) ∧ w.Holds p (Function.update c .localSide v))
        (World.Holds p c) :=
      sideCall_meets (fun _ _ => id) (fun n _ => onSide_meets (Tree.mkdir_meets _))
    exact h
  | remoteSide =>
    have h : Act.Meets (World.Holds p c) (env.makeCollection p) (fun _ w => ∃ v,
        (v = c .remoteSide ∨ c .remoteSide = none ∧ v = some none) ∧ w.Holds p (Function.update c .remoteSide v))
        (World.Holds p c) := by
      refine sideCall_meets (fun _ _ => id) (fun n _ => onSide_meets ?_)
      split
      · exact Tree.mkdir_meets _
      · exact Tree.mkcol_meets _
    exact h

theorem write_meets (contentType : Option JsString) (data : Bytes) :
    Act.Meets (World.Holds p c) ((Mutation.write s p).act env contentType data)
      (fun _ w => w.Holds p (Function.update c s (some (some data)))) (World.Holds p c) := by
  have strip {x : Run Unit} (h : Act.Meets (World.Holds p c) x
      (fun _ w => ∃ v, v = some (some data) ∧ w.Holds p (Function.update c s v)) (World.Holds p c)) :
      Act.Meets (World.Holds p c) x (fun _ w => w.Holds p (Function.update c s (some (some data))))
        (World.Holds p c) :=
    h.weaken (fun _ => id) (fun _ w ⟨v, hv, hw⟩ => hv ▸ hw) (fun _ => id)
  cases s with
  | localSide =>
    have h := strip (x := env.localWrite p contentType data)
      (sideCall_meets (fun _ _ => id) (fun n _ => onSide_meets (Tree.write_meets _ _ _)))
    exact h
  | remoteSide =>
    have h := strip (x := env.remoteWriteFile p contentType data) (by
      refine sideCall_meets (fun _ _ => id) (fun n _ => onSide_meets ?_)
      split
      · exact Tree.write_meets _ _ _
      · exact Tree.writeFile_meets rfl)
    exact h

theorem holds_partialRemoval {recursive : Bool} (n : ℕ) (w : World) (h : w.Holds p c) :
    (env.partialRemoval s p recursive n w).Holds p c := by
  cases recursive with
  | false => exact h
  | true =>
    have hset := h.setTree s (Store.removeWhere (w.tree s) (fun k => k ∈ (w.tree s).filesBelow p ∧ env.unlinked n k))
    rw [Tree.content_removeFiles, h s, Function.update_eq_self] at hset
    exact (World.holds_note _).mpr hset

theorem removal_meets {x : Act Tree JsString Unit}
    (hx : Act.Meets (fun t => t.content p = c s) x (fun _ t => t.content p = none) (fun t => t.content p = c s)) :
    Act.Meets (World.Holds p c) (Env.removal s p x)
      (fun _ w => ∃ v, v = none ∧ w.Holds p (Function.update c s v)) (World.Holds p c) := by
  refine Act.meets_read_bind (fun w hw => Act.meets_bind (P := fun u => u = w)
    ((onSide_meets (V := fun v => v = none) hx).weaken (fun u hu => hu ▸ hw) (fun _ _ => id) (fun _ => id)) (fun _ => ?_))
  refine Act.meets_read_bind (fun w' ⟨v, hv, hw'⟩ => Act.meets_modify (fun u hu => ⟨v, hv, ?_⟩))
  rw [hu]
  exact (World.holds_note _).mpr hw'

theorem unlink_meets {recursive : Bool} (hr : s = .remoteSide → recursive = true) (contentType : Option JsString)
    (data : Bytes) : Act.Meets (World.Holds p c) ((Mutation.unlink s p recursive).act env contentType data)
      (fun _ w => w.Holds p (Function.update c s none)) (World.Holds p c) := by
  have strip {x : Run Unit} (h : Act.Meets (World.Holds p c) x
      (fun _ w => ∃ v, v = none ∧ w.Holds p (Function.update c s v)) (World.Holds p c)) :
      Act.Meets (World.Holds p c) x (fun _ w => w.Holds p (Function.update c s none)) (World.Holds p c) :=
    h.weaken (fun _ => id) (fun _ w ⟨v, hv, hw⟩ => hv ▸ hw) (fun _ => id)
  cases s with
  | localSide =>
    have h := strip (x := env.localUnlink p recursive)
      (sideCall_meets holds_partialRemoval (fun n _ => removal_meets (Tree.unlink_meets _)))
    exact h
  | remoteSide =>
    have h := strip (x := env.remove p recursive) (by
      refine sideCall_meets holds_partialRemoval (fun n _ => removal_meets ?_)
      split
      · exact Tree.unlink_meets _
      · exact Tree.delete_meets)
    exact h

/-- A stream is missing where the side holds no file, or where the store answered none. -/
def Delivers (call : Call) (v : Option (Option Bytes)) (stream : Option Bytes) (w : World) : Prop :=
  stream = v.join ∨ stream = none ∧ .blank call ∈ w.log

theorem readReplicaStream_meets (hp : p ≠ []) (hv : isValidInnerPath p = true) :
    Act.Meets (World.Holds p c) (env.readReplicaStream p)
      (fun stream w => w.Holds p c ∧ Delivers (.read .localSide p) (c .localSide) stream w) (World.Holds p c) := by
  refine meets_call (fun w => World.holds_tick.mpr) (fun _ w => (World.holds_note _).mpr) (fun n a => ?_)
  refine Act.meets_read_bind (fun u hu => ?_)
  have found : Act.Meets (fun w => w = u) (pure (u.localTree.content p).join : Run (Option Bytes))
      (fun stream w => (w.note ((Call.read .localSide p).outcome a)).Holds p c ∧
        Delivers (.read .localSide p) (c .localSide) stream (w.note ((Call.read .localSide p).outcome a)))
      (fun w => (w.note (.rejected (.read .localSide p))).Holds p c) := by
    refine Act.meets_pure (fun w hw => ⟨(World.holds_note _).mpr (hw ▸ hu), .inl ?_⟩)
    rw [← hu .localSide]
    rfl
  cases a with
  | blank => exact Act.meets_pure (fun w hw => ⟨(World.holds_note _).mpr (hw ▸ hu), .inr ⟨rfl, List.mem_cons_self⟩⟩)
  | performs | rejects _ | cut _ =>
    dsimp only
    rw [if_neg (by simp [hp, hv])]
    exact found

theorem readFile_meets : Act.Meets (World.Holds p c) (env.readFile p)
    (fun stream w => w.Holds p c ∧ Delivers (.read .remoteSide p) (c .remoteSide) stream w) (World.Holds p c) := by
  refine meets_call (fun w => World.holds_tick.mpr) (fun _ w => (World.holds_note _).mpr) (fun n a => ?_)
  refine Act.meets_read_bind (fun u hu => ?_)
  have hc : u.remoteTree.content p = c .remoteSide := hu .remoteSide
  cases a with
  | blank => exact Act.meets_pure (fun w hw => ⟨(World.holds_note _).mpr (hw ▸ hu), .inr ⟨rfl, List.mem_cons_self⟩⟩)
  | performs | rejects _ | cut _ =>
    dsimp only
    have found {stream : Option Bytes} (hs : stream = (c .remoteSide).join) (e : Event) (w : World) (hw : w = u) :
        (w.note e).Holds p c ∧ Delivers (.read .remoteSide p) (c .remoteSide) stream (w.note e) :=
      ⟨(World.holds_note _).mpr (hw ▸ hu), .inl hs⟩
    split
    · rename_i hcoll
      split
      · exact Act.meets_pure (found (by rw [← hc, hcoll]; rfl) _)
      · exact Act.meets_throw (fun w hw => (World.holds_note _).mpr (hw ▸ hu))
    · rename_i data hfile
      exact Act.meets_pure (found (by rw [← hc, hfile]; rfl) _)
    · rename_i hnone
      exact Act.meets_pure (found (by rw [← hc, hnone]; rfl) _)

end Calls

/-! ### What a transfer notes, and what a removal leaves elsewhere -/

/-- Only calls and removals are noted. -/
def World.Notes (w w' : World) : Prop :=
  ∃ es, w'.log = es ++ w.log ∧ ∀ e ∈ es, e.isCall = true ∨ e.isRemoval = true

namespace World.Notes

variable {w w' : World} {s : Side}

theorem of_log_eq (h : w'.log = w.log) : World.Notes w w' := ⟨[], h, by simp⟩

theorem of_note {e : Event} (he : e.isCall = true ∨ e.isRemoval = true) : World.Notes w (w.note e) :=
  ⟨[e], rfl, by simpa using he⟩

instance : Quiet World.Notes where
  refl _ := of_log_eq rfl
  trans := by
    rintro _ _ _ ⟨es, h, he⟩ ⟨es', h', he'⟩
    refine ⟨es' ++ es, by rw [h', h, List.append_assoc], fun e hm => ?_⟩
    exact (List.mem_append.mp hm).elim (he' e) (he e)
  tick _ := of_log_eq rfl
  call _ _ he := of_note (.inl he)

theorem log_setTree (w : World) (s : Side) (t : Tree) : (w.setTree s t).log = w.log := by cases s <;> rfl

theorem of_onSide {α : Type} (x : Act Tree JsString α) : Act.Within World.Notes (onSide s x) :=
  fun w => of_log_eq (log_setTree w s _)

theorem of_removal {path : JsString} (x : Act Tree JsString Unit) :
    Act.Within World.Notes (Env.removal s path x) :=
  Act.within_bind Act.within_read fun _ => Act.within_bind (of_onSide x) fun _ =>
    Act.within_bind Act.within_read fun _ _ => of_note (.inr rfl)

theorem of_partialRemoval {env : Env} {path : JsString} {recursive : Bool} (n : ℕ) (w : World) :
    World.Notes w (env.partialRemoval s path recursive n w) := by
  cases recursive with
  | false => exact of_log_eq rfl
  | true =>
    refine ⟨[_], congrArg _ (log_setTree w s _), fun e he => .inr ?_⟩
    rw [List.mem_singleton.mp he]
    rfl

theorem mem_log (h : World.Notes w w') {e : Event} (he : e ∈ w.log) : e ∈ w'.log := by
  obtain ⟨es, hlog, _⟩ := h
  rw [hlog]
  exact List.mem_append_right _ he

theorem mem_of_decision (h : World.Notes w w') {e : Event} (hc : e.isCall = false) (hr : e.isRemoval = false)
    (he : e ∈ w'.log) : e ∈ w.log := by
  obtain ⟨es, hlog, hes⟩ := h
  rw [hlog] at he
  rcases List.mem_append.mp he with he | he
  · rcases hes e he with h | h <;> simp_all
  · exact he

end World.Notes

theorem mutation_notes (env : Env) (m : Mutation) : Admits World.Notes env m := by
  cases m with
  | mkdir s p => exact admits_mkdir (fun _ => World.Notes.of_onSide _) (fun _ => World.Notes.of_onSide _)
  | write s p => exact admits_write (fun _ _ _ => World.Notes.of_onSide _) (fun _ _ _ => World.Notes.of_onSide _)
  | unlink s p recursive =>
    exact admits_unlink (World.Notes.of_removal _) (fun _ => World.Notes.of_removal _) World.Notes.of_partialRemoval

theorem transfer_notes (ctx : TransferContext) (d : ReplicationDecision) : Act.Within World.Notes (ctx.transfer d) :=
  transfer_within (fun m _ => mutation_notes ctx.env m)

/-- A part of the world that neither the trees nor the log nor the numbering of calls show in. -/
class World.Aside {α : Type} (f : World → α) : Prop where
  setTree : ∀ w s t, f (w.setTree s t) = f w
  tick : ∀ w, f w.tick = f w
  note : ∀ w e, f (w.note e) = f w

def World.Fixes {α : Type} (f : World → α) (w w' : World) : Prop := f w' = f w

instance {α : Type} {f : World → α} [World.Aside f] : Silent (World.Fixes f) where
  refl _ := rfl
  trans _ _ _ h h' := Eq.trans h' h
  tick := World.Aside.tick
  note w e _ := World.Aside.note w e

instance : World.Aside World.rows := ⟨World.rows_setTree, fun _ => rfl, fun _ _ => rfl⟩

instance : World.Aside World.pass := ⟨World.pass_setTree, fun _ => rfl, fun _ _ => rfl⟩

theorem mutation_fixes {α : Type} (f : World → α) [World.Aside f] (env : Env) (m : Mutation) :
    Admits (World.Fixes f) env m := by
  have side {β : Type} (s : Side) (x : Act Tree JsString β) : Act.Within (World.Fixes f) (onSide s x) :=
    fun w => World.Aside.setTree w s _
  have removal (s : Side) (p : JsString) (x : Act Tree JsString Unit) :
      Act.Within (World.Fixes f) (Env.removal s p x) :=
    Act.within_bind Act.within_read fun _ => Act.within_bind (side s x) fun _ =>
      Act.within_bind Act.within_read fun _ w => World.Aside.note w _
  cases m with
  | mkdir s p => exact admits_mkdir (fun _ => side s _) (fun _ => side s _)
  | write s p => exact admits_write (fun _ _ _ => side s _) (fun _ _ _ => side s _)
  | unlink s p recursive =>
    refine admits_unlink (removal s p _) (fun _ => removal s p _) (fun n w => ?_)
    cases recursive with
    | false => exact refl_of (World.Fixes f) w
    | true => exact (World.Aside.note _ _).trans (World.Aside.setTree w s _)

def World.KeepsRows (w w' : World) : Prop := w'.rows = w.rows

instance : Silent World.KeepsRows where
  refl _ := rfl
  trans _ _ _ h h' := Eq.trans h' h
  tick _ := rfl
  note _ _ _ := rfl

theorem mutation_keepsRows (env : Env) (m : Mutation) : Admits World.KeepsRows env m := mutation_fixes World.rows env m

/-- Nothing is left changed but what is gone. -/
def Tree.Shrinks (t t' : Tree) : Prop := ∀ q, t'.content q = t.content q ∨ t'.content q = none

namespace Tree

instance : IsPreorder Tree Shrinks where
  refl _ := fun _ => .inl rfl
  trans _ _ _ h h' := fun q => (h' q).elim (fun e => (h q).imp e.trans e.trans) .inr

theorem shrinks_remove (t : Tree) (p : JsString) : Shrinks t (Store.remove t p) := by
  intro q
  rw [content_remove]
  split
  · exact .inr rfl
  · exact .inl rfl

theorem shrinks_removeSubtree (t : Tree) (p : JsString) : Shrinks t (t.removeSubtree p) := by
  intro q
  rw [content_removeSubtree]
  split
  · exact .inr rfl
  · exact .inl rfl

theorem shrinks_removeWhere (t : Tree) (P : JsString → Bool) : Shrinks t (Store.removeWhere t P) := by
  intro q
  simp only [content, Store.get_removeWhere]
  split
  · exact .inr rfl
  · exact .inl rfl

theorem unlink_shrinks (p : JsString) (recursive : Bool) : Act.Within Shrinks (unlink p recursive) := by
  unfold unlink
  split
  · exact Act.within_throw _
  · refine Act.within_bind Act.within_read (fun _ => ?_)
    split
    · exact fun t => shrinks_remove t p
    · split
      · exact fun t => shrinks_removeSubtree t p
      · split
        · exact fun t => shrinks_remove t p
        · exact Act.within_throw _

theorem delete_shrinks (p : JsString) : Act.Within Shrinks (delete p) := by
  refine Act.within_bind Act.within_read (fun _ => ?_)
  split
  · exact fun t => shrinks_removeSubtree t p
  · exact fun t => shrinks_remove t p

end Tree

def World.Shrinks (w w' : World) : Prop := ∀ s, Tree.Shrinks (w.tree s) (w'.tree s)

namespace World.Shrinks

variable {s : Side}

instance : Silent World.Shrinks where
  refl w := fun s => refl_of Tree.Shrinks (w.tree s)
  trans _ _ _ h h' := fun s => trans_of Tree.Shrinks (h s) (h' s)
  tick w := fun s => by rw [tree_tick]; exact refl_of Tree.Shrinks _
  note w e _ := fun s => by rw [tree_note]; exact refl_of Tree.Shrinks _

theorem of_setTree {w : World} {t : Tree} (h : Tree.Shrinks (w.tree s) t) : World.Shrinks w (w.setTree s t) := by
  intro s'
  by_cases hs : s' = s
  · subst hs
    simpa using h
  · simpa [hs] using refl_of Tree.Shrinks (w.tree s')

theorem of_noteRemoval (w : World) (e : Event) : World.Shrinks w (w.note e) := by
  intro s
  rw [tree_note]
  exact refl_of Tree.Shrinks _

theorem of_removal {path : JsString} {x : Act Tree JsString Unit} (hx : Act.Within Tree.Shrinks x) :
    Act.Within World.Shrinks (Env.removal s path x) :=
  Act.within_bind Act.within_read fun _ => Act.within_bind (fun w => of_setTree (hx (w.tree s))) fun _ =>
    Act.within_bind Act.within_read fun _ w => of_noteRemoval w _

theorem of_partialRemoval {env : Env} {path : JsString} {recursive : Bool} (n : ℕ) (w : World) :
    World.Shrinks w (env.partialRemoval s path recursive n w) := by
  cases recursive with
  | false => exact refl_of World.Shrinks w
  | true => exact trans_of World.Shrinks (of_setTree (Tree.shrinks_removeWhere _ _)) (of_noteRemoval _ _)

end World.Shrinks

theorem unlink_admits_shrinks (env : Env) (s : Side) (p : JsString) (recursive : Bool) :
    Admits World.Shrinks env (.unlink s p recursive) :=
  admits_unlink (World.Shrinks.of_removal (Tree.unlink_shrinks p recursive))
    (fun _ => World.Shrinks.of_removal (Tree.delete_shrinks p)) World.Shrinks.of_partialRemoval

end DurableDav.Replication
