import DurableDav.Replication.Frames

namespace DurableDav.Replication

open Library

namespace Tree

variable {t : Tree} {p q : JsString}

/-- Whatever a volume holds has a name and lies in a collection. -/
def WellFormed (t : Tree) : Prop :=
  ∀ p, t.content p ≠ none → p ≠ [] ∧ t.isDirectory (parentOf p) = true

theorem WellFormed.above (h : t.WellFormed) (hp : t.content p ≠ none) (hb : Below slash q p) (hq : q ≠ []) :
    t.content q = some none := by
  induction hn : p.length using Nat.strong_induction_on generalizing p with
  | _ n ih =>
    have hdir := isDirectory_iff.mp (h p hp).2
    rcases hb.parent hq with he | hup
    · have hpar : parentOf p = q := he.symm
      rw [hpar] at hdir
      exact hdir.resolve_left hq
    · have hne : parentOf p ≠ [] := hup.ne_nil
      have hlt : (parentOf p).length < p.length := parentSegments_length_lt (h p hp).1
      have hheld : t.content (parentOf p) ≠ none := by
        rw [hdir.resolve_left hne]
        simp
      exact ih _ (hn ▸ hlt) hheld hup rfl

/-- Nothing lies below what is not a collection. -/
theorem WellFormed.below_none (h : t.WellFormed) (hp : t.isDirectory p = false) (hb : Below slash p q) :
    t.content q = none := by
  have hne : p ≠ [] := by
    rintro rfl
    simp [isDirectory] at hp
  by_contra hq
  have hdir : t.isDirectory p = true := isDirectory_iff.mpr (.inr (h.above hq hb hne))
  rw [hdir] at hp
  exact Bool.noConfusion hp

theorem WellFormed.congr {t' : Tree} (h : t.WellFormed) (hc : ∀ q, t'.content q = t.content q) :
    t'.WellFormed := by
  intro p hp
  rw [hc p] at hp
  refine ⟨(h p hp).1, ?_⟩
  rw [isDirectory_iff, hc]
  exact isDirectory_iff.mp (h p hp).2

theorem WellFormed.put (h : t.WellFormed) (r : Resource) (hp : p ≠ []) (hdir : t.isDirectory (parentOf p) = true)
    (hkind : r.bytes = none ∨ t.isDirectory p = false) : WellFormed (Store.put t p r) := by
  have hparent : parentOf p ≠ p := fun he => by
    have hl : (parentOf p).length < p.length := parentSegments_length_lt hp
    rw [he] at hl
    omega
  intro q hq
  rw [content_put] at hq
  by_cases hqp : q = p
  · subst hqp
    refine ⟨hp, isDirectory_iff.mpr ?_⟩
    rw [content_put]
    simpa [hparent] using isDirectory_iff.mp hdir
  · have hheld := h q (by simpa [hqp] using hq)
    refine ⟨hheld.1, isDirectory_iff.mpr ?_⟩
    rw [content_put]
    by_cases hpar : parentOf q = p
    · rcases hkind with hk | hk
      · exact .inr (by simp [hpar, hk])
      · rw [hpar, hk] at hheld
        exact Bool.noConfusion hheld.2
    · simpa [hpar] using isDirectory_iff.mp hheld.2

theorem WellFormed.mkdirOne (h : t.WellFormed) : (t.mkdirOne p).WellFormed := by
  unfold Tree.mkdirOne
  split
  · rename_i hc
    exact h.put ⟨none, none, none, some 0, none⟩ hc.1 hc.2.2 (.inl rfl)
  · exact h

theorem WellFormed.mkdirAll (h : t.WellFormed) (now : ℕ) : (t.mkdirAll p now).WellFormed := by
  unfold Tree.mkdirAll
  induction prefixes slash p generalizing t with
  | nil => exact h
  | cons a as ih =>
    exact ih (h.mkdirOne.congr (fun q => content_upsertCollectionNode now))

theorem WellFormed.remove (h : t.WellFormed) (hp : ∀ q, q ≠ [] → parentOf q = p → t.content q = none) :
    WellFormed (Store.remove t p) := by
  intro q hq
  rw [content_remove] at hq
  by_cases hqp : q = p
  · simp [hqp] at hq
  · have hheld := h q (by simpa [hqp] using hq)
    refine ⟨hheld.1, isDirectory_iff.mpr ?_⟩
    have hpar : parentOf q ≠ p := fun he => hq (by simp [hqp, hp q hheld.1 he])
    rw [content_remove]
    simpa [hpar] using isDirectory_iff.mp hheld.2

theorem parentOf_below (h : parentOf q ≠ []) : Below slash (parentOf q) q := below_parentSegments h

theorem WellFormed.removeSubtree (h : t.WellFormed) : (t.removeSubtree p).WellFormed := by
  intro q hq
  rw [content_removeSubtree] at hq
  by_cases hqp : q = p ∨ Below slash p q
  · simp [hqp] at hq
  · have hheld := h q (by simpa [hqp] using hq)
    refine ⟨hheld.1, isDirectory_iff.mpr ?_⟩
    by_cases hroot : parentOf q = []
    · exact .inl hroot
    · have hup : ¬ (parentOf q = p ∨ Below slash p (parentOf q)) := by
        rintro (he | hb)
        · exact hqp (.inr (he ▸ parentOf_below hroot))
        · exact hqp (.inr (hb.trans (parentOf_below hroot)))
      rw [content_removeSubtree]
      simpa [hup] using isDirectory_iff.mp hheld.2

theorem mem_filesBelow : q ∈ t.filesBelow p ↔ Below slash p q ∧ ∃ data, t.content q = some (some data) := by
  simp only [filesBelow, List.mem_filter, Store.mem_keys, decide_eq_true_eq]
  constructor
  · rintro ⟨hs, hb, hd⟩
    refine ⟨hb, ?_⟩
    obtain ⟨r, hr⟩ := Option.isSome_iff_exists.mp hs
    cases hbytes : r.bytes with
    | none => simp [isDirectory, hr, Resource.isCollection, hbytes] at hd
    | some data => exact ⟨data, by simp [content, hr, hbytes]⟩
  · rintro ⟨hb, data, hc⟩
    have hnd : t.isDirectory q = false := by
      rw [Bool.eq_false_iff]
      intro hd
      rcases isDirectory_iff.mp hd with h | h
      · exact hb.ne_nil h
      · simp [h] at hc
    refine ⟨?_, hb, by simp [hnd]⟩
    rw [Option.isSome_iff_ne_none]
    intro hn
    simp [content, hn] at hc

theorem WellFormed.removeFiles (h : t.WellFormed) (P : JsString → Bool) :
    WellFormed (Store.removeWhere t (fun k => k ∈ t.filesBelow p ∧ P k)) := by
  have hc : ∀ q, content (Store.removeWhere t (fun k => k ∈ t.filesBelow p ∧ P k)) q =
      if q ∈ t.filesBelow p ∧ P q = true then none else t.content q := by
    intro q
    simp only [content, Store.get_removeWhere, decide_eq_true_eq]
    split <;> rfl
  intro q hq
  rw [hc] at hq
  by_cases hg : q ∈ t.filesBelow p ∧ P q = true
  · simp [hg] at hq
  · have hheld := h q (by simpa [hg] using hq)
    refine ⟨hheld.1, isDirectory_iff.mpr ?_⟩
    rcases isDirectory_iff.mp hheld.2 with hroot | hdir
    · exact .inl hroot
    · right
      have hno : ¬ (parentOf q ∈ t.filesBelow p ∧ P (parentOf q) = true) := by
        rintro ⟨hm, _⟩
        obtain ⟨_, data, hd⟩ := mem_filesBelow.mp hm
        simp [hdir] at hd
      rw [hc]
      simpa [hno] using hdir

def KeepsForm (t t' : Tree) : Prop := t.WellFormed → t'.WellFormed

instance : IsPreorder Tree KeepsForm where
  refl _ := id
  trans _ _ _ h h' := h' ∘ h

theorem mkdir_keepsForm (now : ℕ) : Act.Within KeepsForm (mkdir p now) := by
  unfold mkdir
  split
  · exact Act.within_throw _
  · exact fun t h => h.mkdirAll now

theorem writeFile_keepsForm (r : Resource) : Act.Within KeepsForm (writeFile p r) := by
  intro t h
  unfold writeFile
  rw [Act.run_bind, Act.run_read]
  dsimp only
  split
  · rename_i hc
    have hp : p ≠ [] := by
      rintro rfl
      simp [isDirectory] at hc
    have hfile : t.isDirectory p = false := by simpa using hc.2
    exact h.put r hp hc.1 (.inr hfile)
  · exact h

theorem write_keepsForm (contentType : Option JsString) (data : Bytes) (now : ℕ) :
    Act.Within KeepsForm (write p contentType data now) := by
  unfold write
  split
  · exact Act.within_throw _
  · refine Act.within_bind ?_ (fun _ => writeFile_keepsForm _)
    unfold mkdirParent
    split
    · exact Act.within_pure _
    · exact mkdir_keepsForm now

theorem unlink_keepsForm (recursive : Bool) : Act.Within KeepsForm (unlink p recursive) := by
  unfold unlink
  split
  · exact Act.within_throw _
  · intro t h
    rw [Act.run_bind, Act.run_read]
    dsimp only
    split
    · rename_i hfile
      have hnd : t.isDirectory p = false := by simpa using hfile
      refine h.remove (fun q hq hpar => h.below_none hnd ?_)
      rw [← hpar]
      apply parentOf_below
      rintro he
      rw [hpar] at he
      simp [he, isDirectory] at hnd
    · split
      · exact h.removeSubtree
      · split
        · rename_i hempty
          refine h.remove (fun q hq hpar => ?_)
          rw [content_eq_none]
          by_contra hheld
          have hm : q ∈ t.childPaths p := by
            simp only [childPaths, List.mem_filter, Store.mem_keys, decide_eq_true_eq]
            exact ⟨Option.isSome_iff_ne_none.mpr hheld, hq, hpar⟩
          rw [List.isEmpty_iff.mp hempty] at hm
          exact absurd hm List.not_mem_nil
        · exact h

theorem mkcol_keepsForm (r : Resource) : Act.Within KeepsForm (mkcol p r) := by
  intro t h
  unfold mkcol
  rw [Act.run_bind, Act.run_read]
  dsimp only
  split
  · exact h
  · rename_i hnew
    split
    · rename_i hdir
      exact h.put { r with bytes := none } (fun hp => hnew (.inl hp)) hdir (.inl rfl)
    · exact h

theorem delete_keepsForm : Act.Within KeepsForm (delete p) := by
  intro t h
  unfold delete
  rw [Act.run_bind, Act.run_read]
  dsimp only
  split
  · exact h.removeSubtree
  · rename_i hfile
    have hnd : t.isDirectory p = false := by simpa using hfile
    refine h.remove (fun q hq hpar => h.below_none hnd ?_)
    rw [← hpar]
    apply parentOf_below
    rintro he
    rw [hpar] at he
    simp [he, isDirectory] at hnd

end Tree

def World.WellFormed (w : World) : Prop := ∀ s, (w.tree s).WellFormed

def World.KeepsForm (w w' : World) : Prop := ∀ s, Tree.KeepsForm (w.tree s) (w'.tree s)

namespace World.KeepsForm

instance : Silent World.KeepsForm where
  refl _ := fun _ => id
  trans _ _ _ h h' := fun s => h' s ∘ h s
  tick w := fun s => by rw [tree_tick]; exact id
  note w e _ := fun s => by rw [tree_note]; exact id

theorem of_onSide {α : Type} {s : Side} {x : Act Tree JsString α} (hx : Act.Within Tree.KeepsForm x) :
    Act.Within World.KeepsForm (onSide s x) := by
  intro w s'
  by_cases hs : s' = s
  · subst hs
    simpa [onSide] using hx (w.tree s')
  · have hid : Tree.KeepsForm (w.tree s') (w.tree s') := id
    simpa [onSide, hs] using hid

end World.KeepsForm

theorem removal_keepsForm {path : JsString} {s : Side} {x : Act Tree JsString Unit}
    (hx : Act.Within Tree.KeepsForm x) : Act.Within World.KeepsForm (Env.removal s path x) :=
  Act.within_bind Act.within_read fun _ => Act.within_bind (World.KeepsForm.of_onSide hx) fun _ =>
    Act.within_bind Act.within_read fun _ w s => by
      rw [show ((noteEvent _).run w).2 = w.note _ from rfl, World.tree_note]
      exact id

theorem partialRemoval_keepsForm {env : Env} {path : JsString} {s : Side} {recursive : Bool} (n : ℕ)
    (w : World) : World.KeepsForm w (env.partialRemoval s path recursive n w) := by
  cases recursive with
  | false => exact refl_of World.KeepsForm w
  | true =>
    intro s' h
    by_cases hs : s' = s
    · subst hs
      simpa [Env.partialRemoval] using h.removeFiles (env.unlinked n)
    · simpa [Env.partialRemoval, hs] using h

theorem mutation_keepsForm (env : Env) (m : Mutation) : Admits World.KeepsForm env m := by
  cases m with
  | mkdir s p =>
    exact admits_mkdir (fun _ => World.KeepsForm.of_onSide (Tree.mkdir_keepsForm _))
      (fun _ => World.KeepsForm.of_onSide (Tree.mkcol_keepsForm _))
  | write s p =>
    exact admits_write (fun _ _ _ => World.KeepsForm.of_onSide (Tree.write_keepsForm _ _ _))
      (fun _ _ _ => World.KeepsForm.of_onSide (Tree.writeFile_keepsForm _))
  | unlink s p recursive =>
    exact admits_unlink (removal_keepsForm (Tree.unlink_keepsForm _)) (fun _ => removal_keepsForm Tree.delete_keepsForm)
      partialRemoval_keepsForm

theorem applyAll_wellFormed {o : ApplyOptions} {ds : List ReplicationDecision} {st : ApplyState} {w : World}
    (h : w.WellFormed) : ((o.applyAll ds st).run w).2.WellFormed := fun s =>
  applyAll_within (fun _ _ m _ => mutation_keepsForm o.env m) st w s (h s)

end DurableDav.Replication
