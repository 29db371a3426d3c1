import DurableDav.Replication.Volume

namespace DurableDav.Replication

open Library

namespace Tree

variable {t t' t'' : Tree} {p q : JsString}

@[simp] theorem content_put (r : Resource) :
    content (Store.put t p r) q = if q = p then some r.bytes else t.content q := by
  by_cases h : q = p <;> simp [content, h]

theorem content_eq_none : t.content p = none ↔ Store.get t p = none := by simp [content]

theorem isDirectory_iff : t.isDirectory p = true ↔ p = [] ∨ t.content p = some none := by
  cases h : Store.get t p <;> simp [isDirectory, content, h, Resource.isCollection]

theorem content_mkdirOne : (t.mkdirOne p).content q =
    if q = p ∧ p ≠ [] ∧ t.content p = none ∧ t.isDirectory (parentOf p) = true then some none
    else t.content q := by
  by_cases hp : p = []
  · simp [mkdirOne, hp]
  by_cases hd : t.isDirectory (parentOf p) = true
  · by_cases hn : Store.get t p = none
    · by_cases hq : q = p <;> simp [mkdirOne, hp, hn, hd, hq, content]
    · simp [mkdirOne, hn, content_eq_none]
  · simp [mkdirOne, hd]

@[simp] theorem content_upsertCollectionNode (now : ℕ) : (t.upsertCollectionNode p now).content q = t.content q := by
  cases h : Store.get t p with
  | none => simp [upsertCollectionNode, h]
  | some r =>
    by_cases hq : q = p
    · simp [upsertCollectionNode, h, hq, content]
    · simp [upsertCollectionNode, h, hq]

@[simp] theorem content_removeSubtree :
    (t.removeSubtree p).content q = if q = p ∨ Below slash p q then none else t.content q := by
  simp only [content, removeSubtree, Store.get_removeWhere, decide_eq_true_eq]
  split <;> simp_all

/-- What may differ after an operation aimed at `T`: the targets, and collections new above them. -/
def Moves (T : JsString → Prop) (t t' : Tree) : Prop :=
  ∀ q, t'.content q = t.content q ∨ T q ∨
    (t.content q = none ∧ t'.content q = some none ∧ ∃ p, T p ∧ Below slash q p)

theorem Moves.refl (T : JsString → Prop) : Moves T t t := fun _ => .inl rfl

theorem Moves.trans {T : JsString → Prop} (h : Moves T t t') (h' : Moves T t' t'') : Moves T t t'' := by
  intro q
  rcases h q with hq | hq | ⟨hn, hs, hp⟩ <;> rcases h' q with hq' | hq' | ⟨hn', hs', hp'⟩
  · exact .inl (hq'.trans hq)
  · exact .inr (.inl hq')
  · exact .inr (.inr ⟨hq ▸ hn', hs', hp'⟩)
  · exact .inr (.inl hq)
  · exact .inr (.inl hq)
  · exact .inr (.inl hq)
  · exact .inr (.inr ⟨hn, hq'.trans hs, hp⟩)
  · exact .inr (.inl hq')
  · exact .inr (.inr ⟨hn, hs', hp⟩)

instance (T : JsString → Prop) : IsPreorder Tree (Moves T) where
  refl _ := Moves.refl T
  trans _ _ _ := Moves.trans

theorem Moves.mono {T U : JsString → Prop} (h : Moves T t t') (hTU : ∀ q, T q → U q) : Moves U t t' := by
  intro q
  rcases h q with hq | hq | ⟨hn, hs, p, hp, hb⟩
  · exact .inl hq
  · exact .inr (.inl (hTU q hq))
  · exact .inr (.inr ⟨hn, hs, p, hTU p hp, hb⟩)

theorem Moves.content_eq {T : JsString → Prop} (h : Moves T t t') (hq : ¬ T q) (hc : t.content q ≠ none) :
    t'.content q = t.content q := by
  rcases h q with h | h | ⟨hn, _⟩
  · exact h
  · exact absurd h hq
  · exact absurd hn hc

theorem moves_put (r : Resource) : Moves (· = p) t (Store.put t p r) := by
  intro q
  by_cases hq : q = p
  · exact .inr (.inl hq)
  · exact .inl (by simp [hq])

@[simp] theorem content_remove : content (Store.remove t p) q = if q = p then none else t.content q := by
  simp only [content, Store.get_remove]
  split <;> rfl

theorem moves_remove : Moves (· = p) t (Store.remove t p) := by
  intro q
  by_cases hq : q = p
  · exact .inr (.inl hq)
  · exact .inl (by simp [hq])

theorem moves_removeSubtree : Moves (fun q => q = p ∨ Below slash p q) t (t.removeSubtree p) := by
  intro q
  by_cases hq : q = p ∨ Below slash p q
  · exact .inr (.inl hq)
  · exact .inl (by simp [hq])

theorem moves_removeFiles (P : JsString → Bool) :
    Moves (fun q => Below slash p q)
      t (Store.removeWhere t (fun k => k ∈ t.filesBelow p ∧ P k)) := by
  intro q
  by_cases hq : q ∈ t.filesBelow p ∧ P q
  · have hb : Below slash p q := by
      have := (List.mem_filter.mp hq.1).2
      simp only [decide_eq_true_eq] at this
      exact this.1
    exact .inr (.inl hb)
  · left
    simp only [content, Store.get_removeWhere, decide_eq_true_eq, hq, ↓reduceIte]

theorem content_mkdirAll (t : Tree) (p : JsString) (now : ℕ) (q : JsString) : (t.mkdirAll p now).content q = t.content q ∨
    (t.content q = none ∧ (t.mkdirAll p now).content q = some none ∧ (q = p ∨ Below slash q p)) := by
  have fold : ∀ (ps : List JsString) (t : Tree), (∀ a ∈ ps, a = p ∨ Below slash a p) →
      let t' := ps.foldl (fun t a => (t.mkdirOne a).upsertCollectionNode a now) t
      t'.content q = t.content q ∨
        (t.content q = none ∧ t'.content q = some none ∧ (q = p ∨ Below slash q p)) := by
    intro ps
    induction ps with
    | nil => exact fun t _ => .inl rfl
    | cons a ps ih =>
      intro t hps
      have ht := ih ((t.mkdirOne a).upsertCollectionNode a now) (fun x hx => hps x (List.mem_cons_of_mem _ hx))
      simp only [content_upsertCollectionNode, content_mkdirOne] at ht
      by_cases hq : q = a ∧ a ≠ [] ∧ t.content a = none ∧ t.isDirectory (parentOf a) = true
      · obtain ⟨rfl, hne, hn, hd⟩ := hq
        simp only [hne, ne_eq, not_false_eq_true, hn, hd, and_self, ↓reduceIte, reduceCtorEq, false_and, or_false] at ht
        exact .inr ⟨hn, ht, hps q List.mem_cons_self⟩
      · simp only [hq, ↓reduceIte] at ht
        exact ht
  exact fold _ t (fun a ha => eq_or_below_of_mem_prefixes ha)

theorem moves_mkdirAll (now : ℕ) : Moves (fun q => q = p) t (t.mkdirAll p now) := by
  intro q
  rcases content_mkdirAll t p now q with h | ⟨hn, hs, hq | hq⟩
  · exact .inl h
  · exact .inr (.inl hq)
  · exact .inr (.inr ⟨hn, hs, p, rfl, hq⟩)

theorem moves_mkdirAll_parent (now : ℕ) (hp : parentOf p ≠ []) :
    Moves (fun q => q = p) t (t.mkdirAll (parentOf p) now) := by
  have hb : Below slash (parentOf p) p := below_parentSegments hp
  intro q
  rcases content_mkdirAll t (parentOf p) now q with h | ⟨hn, hs, hq | hq⟩
  · exact .inl h
  · exact .inr (.inr ⟨hn, hs, p, rfl, hq ▸ hb⟩)
  · exact .inr (.inr ⟨hn, hs, p, rfl, hq.trans hb⟩)

/-! ### The operations -/

theorem mkdir_moves (now : ℕ) : Act.Within (Moves (fun q => q = p)) (mkdir p now) := by
  intro t
  unfold mkdir
  split
  · exact Moves.refl _
  · exact moves_mkdirAll now

theorem mkdirParent_moves (now : ℕ) : Act.Within (Moves (fun q => q = p)) (mkdirParent p now) := by
  intro t
  unfold mkdirParent
  split
  · exact Moves.refl _
  · rename_i hp
    unfold mkdir
    split
    · exact Moves.refl _
    · exact moves_mkdirAll_parent now hp

theorem writeFile_moves (r : Resource) : Act.Within (Moves (fun q => q = p)) (writeFile p r) := by
  refine Act.within_bind Act.within_read (fun a => ?_)
  split
  · exact fun t => moves_put r
  · exact fun t => Moves.refl _

theorem write_moves (contentType : Option JsString) (data : Bytes) (now : ℕ) :
    Act.Within (Moves (fun q => q = p)) (write p contentType data now) := by
  unfold write
  split
  · exact Act.within_throw _
  · exact Act.within_bind (mkdirParent_moves now) (fun _ => writeFile_moves _)

theorem unlink_moves (recursive : Bool) :
    Act.Within (Moves (fun q => q = p ∨ Below slash p q)) (unlink p recursive) := by
  unfold unlink
  split
  · exact fun t => Moves.refl _
  · refine Act.within_bind Act.within_read (fun a => ?_)
    split
    · exact fun t => moves_remove.mono (fun q hq => .inl hq)
    · split
      · exact fun t => moves_removeSubtree
      · split
        · exact fun t => moves_remove.mono (fun q hq => .inl hq)
        · exact Act.within_throw _

theorem unlink_moves_shallow : Act.Within (Moves (fun q => q = p)) (unlink p false) := by
  unfold unlink
  split
  · exact Act.within_throw _
  · refine Act.within_bind Act.within_read (fun a => ?_)
    split
    · exact fun t => moves_remove
    · rw [if_neg (by simp)]
      split
      · exact fun t => moves_remove
      · exact Act.within_throw _

theorem mkcol_moves (r : Resource) : Act.Within (Moves (fun q => q = p)) (mkcol p r) := by
  refine Act.within_bind Act.within_read (fun a => ?_)
  split
  · exact fun t => Moves.refl _
  · split
    · exact fun t => moves_put _
    · exact fun t => Moves.refl _

theorem delete_moves : Act.Within (Moves (fun q => q = p ∨ Below slash p q)) (delete p) := by
  refine Act.within_bind Act.within_read (fun a => ?_)
  split
  · exact fun t => moves_removeSubtree
  · exact fun t => moves_remove.mono (fun q hq => .inl hq)

end Tree

end DurableDav.Replication
