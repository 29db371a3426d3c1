import DurableDav.Replication.WellFormed

namespace DurableDav.Replication

open Library

namespace Tree

variable {t t' : Tree} {p f : JsString}

def IsFile (t : Tree) (f : JsString) : Prop := ∃ data, t.content f = some (some data)

theorem isFile_congr (h : t'.content f = t.content f) : t'.IsFile f ↔ t.IsFile f := by
  unfold IsFile
  rw [h]

/-- Files stay files, and new ones appear at `F` only. -/
def Writes (F : JsString → Prop) (t t' : Tree) : Prop :=
  (∀ f, t'.IsFile f → t.IsFile f ∨ F f) ∧ ∀ f, t.IsFile f → t'.IsFile f

instance (F : JsString → Prop) : IsPreorder Tree (Writes F) where
  refl _ := ⟨fun _ => .inl, fun _ => id⟩
  trans _ _ _ h h' :=
    ⟨fun f hf => (h'.1 f hf).elim (h.1 f) .inr, fun f hf => h'.2 f (h.2 f hf)⟩

theorem mkdir_writes {F : JsString → Prop} (now : ℕ) : Act.Within (Writes F) (mkdir p now) := by
  unfold mkdir
  split
  · exact Act.within_throw _
  · intro t
    have hcase (f : JsString) := content_mkdirAll t p now f
    constructor
    · rintro f ⟨data, hd⟩
      rcases hcase f with h | ⟨_, hs, _⟩
      · exact .inl ⟨data, h ▸ hd⟩
      · rw [Act.run_modify] at hd
        rw [hs] at hd
        simp at hd
    · rintro f ⟨data, hd⟩
      rcases hcase f with h | ⟨hn, _, _⟩
      · exact ⟨data, h.trans hd⟩
      · simp [hn] at hd

theorem put_writes (r : Resource) (hnew : t.IsFile p → r.bytes ≠ none) {F : JsString → Prop}
    (hF : r.bytes ≠ none → F p) : Writes F t (Store.put t p r) := by
  constructor
  · rintro f ⟨data, hd⟩
    rw [content_put] at hd
    by_cases hf : f = p
    · right
      subst hf
      apply hF
      simp_all
    · left
      exact ⟨data, by simpa [hf] using hd⟩
  · rintro f ⟨data, hd⟩
    by_cases hf : f = p
    · subst hf
      obtain ⟨data', hd'⟩ := Option.ne_none_iff_exists'.mp (hnew ⟨data, hd⟩)
      exact ⟨data', by simp [hd']⟩
    · exact ⟨data, by simpa [hf] using hd⟩

theorem mkcol_writes {F : JsString → Prop} (r : Resource) : Act.Within (Writes F) (mkcol p r) := by
  intro t
  unfold mkcol
  rw [Act.run_bind, Act.run_read]
  dsimp only
  split
  · exact refl_of (Writes F) t
  · rename_i hnew
    split
    · refine put_writes { r with bytes := none } ?_ (fun h => absurd rfl h)
      rintro ⟨data, hd⟩
      have hn : Store.get t p = none := by simpa using fun h => hnew (.inr h)
      simp [content, hn] at hd
    · exact refl_of (Writes F) t

theorem writeFile_writes {F : JsString → Prop} (hF : F p) (data : Bytes) (r : Resource) (hr : r.bytes = some data) :
    Act.Within (Writes F) (writeFile p r) := by
  refine Act.within_bind Act.within_read (fun t => ?_)
  split
  · exact fun t => put_writes r (fun _ => by simp [hr]) (fun _ => hF)
  · exact Act.within_throw _

theorem write_writes {F : JsString → Prop} (hF : F p) (contentType : Option JsString) (data : Bytes) (now : ℕ) :
    Act.Within (Writes F) (write p contentType data now) := by
  unfold write
  split
  · exact Act.within_throw _
  · refine Act.within_bind ?_ (fun _ => writeFile_writes hF data _ rfl)
    unfold mkdirParent
    split
    · exact Act.within_pure _
    · exact mkdir_writes now

/-- A removal takes away the path and, when it reaches below, files that are then no more. -/
def Clears (p : JsString) (deep : Prop) (t t' : Tree) : Prop :=
  (∀ f, t'.IsFile f → t.IsFile f) ∧
    ∀ f, t.IsFile f → t'.IsFile f ∨ f = p ∨ (deep ∧ Below slash p f ∧ t'.content f = none)

theorem clears_refl (deep : Prop) : Clears p deep t t := ⟨fun _ => id, fun _ => .inl⟩

theorem clears_remove (deep : Prop) : Clears p deep t (Store.remove t p) := by
  constructor
  · rintro f ⟨data, hd⟩
    rw [content_remove] at hd
    exact ⟨data, by by_cases hf : f = p <;> simp_all⟩
  · rintro f ⟨data, hd⟩
    by_cases hf : f = p
    · exact .inr (.inl hf)
    · exact .inl ⟨data, by simpa [hf] using hd⟩

theorem clears_removeSubtree {deep : Prop} (h : deep) : Clears p deep t (t.removeSubtree p) := by
  constructor
  · rintro f ⟨data, hd⟩
    rw [content_removeSubtree] at hd
    exact ⟨data, by by_cases hf : f = p ∨ Below slash p f <;> simp_all⟩
  · rintro f ⟨data, hd⟩
    by_cases hf : f = p
    · exact .inr (.inl hf)
    · by_cases hb : Below slash p f
      · exact .inr (.inr ⟨h, hb, by simp [hb]⟩)
      · exact .inl ⟨data, by simpa [hf, hb] using hd⟩

theorem unlink_clears (recursive : Bool) (t : Tree) :
    Clears p (recursive = true) t ((unlink p recursive).run t).2 := by
  unfold unlink
  split
  · exact clears_refl _
  · rw [Act.run_bind, Act.run_read]
    dsimp only
    split
    · exact clears_remove _
    · split
      · rename_i hr
        exact clears_removeSubtree hr
      · split
        · exact clears_remove _
        · exact clears_refl _

theorem delete_clears (t : Tree) : Clears p (true = true) t ((delete p).run t).2 := by
  unfold delete
  rw [Act.run_bind, Act.run_read]
  dsimp only
  split
  · exact clears_removeSubtree rfl
  · exact clears_remove _

theorem clears_removeFiles (P : JsString → Bool) :
    Clears p (true = true) t (Store.removeWhere t (fun k => k ∈ t.filesBelow p ∧ P k)) := by
  have hc (f : JsString) : content (Store.removeWhere t (fun k => k ∈ t.filesBelow p ∧ P k)) f =
      if f ∈ t.filesBelow p ∧ P f = true then none else t.content f := by
    simp only [content, Store.get_removeWhere, decide_eq_true_eq]
    split <;> rfl
  constructor
  · rintro f ⟨data, hd⟩
    rw [hc] at hd
    exact ⟨data, by by_cases hf : f ∈ t.filesBelow p ∧ P f = true <;> simp_all⟩
  · rintro f ⟨data, hd⟩
    by_cases hf : f ∈ t.filesBelow p ∧ P f = true
    · exact .inr (.inr ⟨rfl, (mem_filesBelow.mp hf.1).1, by rw [hc, if_pos hf]⟩)
    · exact .inl ⟨data, by rw [hc, if_neg hf, hd]⟩

theorem unlink_error (recursive : Bool) (t : Tree) (e : JsString) (h : ((unlink p recursive).run t).1 = .error e) :
    ((unlink p recursive).run t).2 = t := by
  unfold unlink at h ⊢
  split
  · rfl
  · rename_i hv
    rw [if_neg hv, Act.run_bind, Act.run_read] at h
    rw [Act.run_bind, Act.run_read]
    dsimp only at h ⊢
    split at h <;> rename_i h1
    · simp at h
    · split at h <;> rename_i h2
      · simp at h
      · split at h <;> rename_i h3
        · simp at h
        · simp [h1, h2, h3]

theorem delete_error (t : Tree) (e : JsString) (h : ((delete p).run t).1 = .error e) : ((delete p).run t).2 = t := by
  unfold delete at h
  rw [Act.run_bind, Act.run_read] at h
  dsimp only at h
  split at h <;> simp at h

theorem mem_vanished {q : JsString} : q ∈ t.vanished t' p ↔ Below slash p q ∧ t.IsFile q ∧ t'.content q = none := by
  simp only [vanished, List.mem_filter, mem_filesBelow, Option.isNone_iff_eq_none, content_eq_none, IsFile,
    and_assoc]

end Tree

def World.IsFile (w : World) (s : Side) (f : JsString) : Prop := (w.tree s).IsFile f

@[simp] theorem World.isFile_tick (w : World) (s : Side) (f : JsString) : w.tick.IsFile s f ↔ w.IsFile s f := by
  simp [IsFile]

@[simp] theorem World.isFile_note (w : World) (s : Side) (f : JsString) (e : Event) :
    (w.note e).IsFile s f ↔ w.IsFile s f := by
  simp [IsFile]

@[simp] theorem World.setTree_tree (w : World) (s : Side) : w.setTree s (w.tree s) = w := by cases s <;> rfl

@[simp] theorem World.log_setTree (w : World) (s : Side) (t : Tree) : (w.setTree s t).log = w.log := by
  cases s <;> rfl

/-- What a run may do to files: write at `F`, take away below `U` with a note, take away `X` itself. -/
structure Removes (F U X : Side → JsString → Prop) (w w' : World) : Prop where
  keeps_log : ∀ e ∈ w.log, e ∈ w'.log
  files : ∀ s f, w'.IsFile s f → w.IsFile s f ∨ F s f
  removed : ∀ s q fs, .removed s q fs ∈ w'.log → .removed s q fs ∈ w.log ∨
    ∀ f ∈ fs, U s q ∧ Below slash q f ∧ (w.IsFile s f ∨ F s f)
  gone : ∀ s f, w.IsFile s f → w'.IsFile s f ∨ X s f ∨ ∃ q fs, .removed s q fs ∈ w'.log ∧ f ∈ fs

namespace Removes

variable {F U X : Side → JsString → Prop} {w w' w'' : World} {s : Side} {p : JsString}

theorem refl (w : World) : Removes F U X w w :=
  ⟨fun _ => id, fun _ _ => .inl, fun _ _ _ => .inl, fun _ _ => .inl⟩

theorem trans (h : Removes F U X w w') (h' : Removes F U X w' w'') : Removes F U X w w'' := by
  constructor
  · exact fun e he => h'.keeps_log e (h.keeps_log e he)
  · exact fun s f hf => (h'.files s f hf).elim (h.files s f) .inr
  · intro s q fs he
    rcases h'.removed s q fs he with hold | hnew
    · exact h.removed s q fs hold
    · right
      intro f hf
      obtain ⟨hu, hb, hfile | hwritten⟩ := hnew f hf
      · exact ⟨hu, hb, h.files s f hfile⟩
      · exact ⟨hu, hb, .inr hwritten⟩
  · intro s f hf
    rcases h.gone s f hf with hstay | hx | ⟨q, fs, he, hm⟩
    · exact h'.gone s f hstay
    · exact .inr (.inl hx)
    · exact .inr (.inr ⟨q, fs, h'.keeps_log _ he, hm⟩)

instance : Silent (Removes F U X) where
  refl := refl
  trans _ _ _ := trans
  tick w := by
    refine ⟨fun _ => id, fun s f hf => .inl (by simpa using hf), fun _ _ _ => .inl, fun s f hf => .inl ?_⟩
    simpa using hf
  note w e he := by
    refine ⟨fun _ => List.mem_cons_of_mem e, fun s f hf => .inl (by simpa using hf), ?_, fun s f hf => .inl ?_⟩
    · intro s q fs hm
      rcases List.mem_cons.mp hm with rfl | hm
      · simp [Event.isRemoval] at he
      · exact .inl hm
    · simpa using hf

theorem of_onSide {α : Type} {x : Act Tree JsString α} (hx : Act.Within (Tree.Writes (F s)) x) :
    Act.Within (Removes F U X) (onSide s x) := by
  intro w
  have h := hx (w.tree s)
  have hlog : ((onSide s x).run w).2.log = w.log := World.log_setTree _ _ _
  have htree (s' : Side) : ((onSide s x).run w).2.tree s' = if s' = s then (x.run (w.tree s)).2 else w.tree s' :=
    World.tree_setTree _ _ _ _
  constructor
  · exact fun e he => hlog ▸ he
  · intro s' f hf
    unfold World.IsFile at hf ⊢
    rw [htree] at hf
    by_cases hs : s' = s
    · subst hs
      exact h.1 f (by simpa using hf)
    · exact .inl (by simpa [hs] using hf)
  · exact fun _ _ _ he => .inl (hlog ▸ he)
  · intro s' f hf
    left
    unfold World.IsFile at hf ⊢
    rw [htree]
    by_cases hs : s' = s
    · subst hs
      simpa using h.2 f hf
    · simpa [hs] using hf

/-- Replacing one side's tree by a cleared one, with the vanished files noted. -/
theorem of_clears {deep : Prop} {t' : Tree} (h : Tree.Clears p deep (w.tree s) t') (hU : deep → U s p) (hX : X s p) :
    Removes F U X w ((w.setTree s t').note (.removed s p ((w.tree s).vanished t' p))) := by
  constructor
  · intro e he
    exact List.mem_cons_of_mem _ (by simpa using he)
  · intro s' f hf
    left
    rw [World.isFile_note] at hf
    unfold World.IsFile at hf ⊢
    rw [World.tree_setTree] at hf
    by_cases hs : s' = s
    · subst hs
      exact h.1 f (by simpa using hf)
    · simpa [hs] using hf
  · intro s' q fs he
    rcases List.mem_cons.mp he with heq | hold
    · right
      obtain ⟨rfl, rfl, rfl⟩ := Event.removed.inj heq
      intro f hf
      obtain ⟨hb, hfile, hnone⟩ := Tree.mem_vanished.mp hf
      have hdeep : deep := by
        rcases h.2 f hfile with ⟨data, hd⟩ | rfl | ⟨hd, _⟩
        · simp [hd] at hnone
        · exact absurd hb Below.irrefl
        · exact hd
      exact ⟨hU hdeep, hb, .inl hfile⟩
    · exact .inl (by simpa using hold)
  · intro s' f hf
    rw [World.isFile_note]
    by_cases hs : s' = s
    · subst hs
      rcases h.2 f hf with hstay | rfl | ⟨_, hb, hnone⟩
      · left
        unfold World.IsFile
        rw [World.tree_setTree, if_pos rfl]
        exact hstay
      · exact .inr (.inl hX)
      · exact .inr (.inr ⟨p, _, List.mem_cons_self, Tree.mem_vanished.mpr ⟨hb, hf, hnone⟩⟩)
    · left
      unfold World.IsFile at hf ⊢
      simpa [hs] using hf

theorem of_removal {deep : Prop} {x : Act Tree JsString Unit} (hx : ∀ t, Tree.Clears p deep t (x.run t).2)
    (herror : ∀ t e, (x.run t).1 = .error e → (x.run t).2 = t) (hU : deep → U s p) (hX : X s p) :
    Act.Within (Removes F U X) (Env.removal s p x) := by
  intro w
  have h := of_clears (F := F) (hx (w.tree s)) hU hX
  have herr := herror (w.tree s)
  unfold Env.removal
  rw [Act.run_bind, Act.run_read]
  dsimp only
  rw [Act.run_bind]
  cases hrun : x.run (w.tree s) with
  | mk r t' =>
    rw [hrun] at h herr
    have hon : (onSide s x).run w = (r, w.setTree s t') := by simp [onSide, hrun]
    rw [hon]
    cases r with
    | error e =>
      have hsame : t' = w.tree s := herr e rfl
      rw [hsame, World.setTree_tree]
      exact refl w
    | ok u =>
      dsimp only
      rw [Act.run_bind, Act.run_read]
      simpa [noteEvent] using h

theorem of_partialRemoval {env : Env} {recursive : Bool} (hU : recursive = true → U s p) (hX : X s p) (n : ℕ)
    (w : World) : Removes F U X w (env.partialRemoval s p recursive n w) := by
  cases recursive with
  | false => exact refl w
  | true => exact of_clears (Tree.clears_removeFiles _) hU hX

end Removes

theorem mutation_removes {F U X : Side → JsString → Prop} {env : Env} {m : Mutation}
    (hF : ∀ s p, m = .write s p → F s p) (hU : ∀ s p, m = .unlink s p true → U s p)
    (hX : ∀ s p recursive, m = .unlink s p recursive → X s p)
    (hdeep : ∀ p recursive, m = .unlink .remoteSide p recursive → recursive = true) :
    Admits (Removes F U X) env m := by
  cases m with
  | mkdir s p =>
    exact admits_mkdir (fun _ => Removes.of_onSide (Tree.mkdir_writes _))
      (fun _ => Removes.of_onSide (Tree.mkcol_writes _))
  | write s p =>
    have hp : F s p := hF s p rfl
    exact admits_write (fun _ _ _ => Removes.of_onSide (Tree.write_writes hp _ _ _))
      (fun data r hr => Removes.of_onSide (Tree.writeFile_writes hp data r hr))
  | unlink s p recursive =>
    have hu : recursive = true → U s p := by
      rintro rfl
      exact hU s p rfl
    have hx : X s p := hX s p recursive rfl
    apply admits_unlink
    · exact Removes.of_removal (Tree.unlink_clears recursive) (Tree.unlink_error recursive) hu hx
    · rintro rfl
      exact Removes.of_removal Tree.delete_clears Tree.delete_error (fun _ => hu (hdeep p recursive rfl)) hx
    · exact Removes.of_partialRemoval hu hx

end DurableDav.Replication
