import DurableDav.Replication.Audit

namespace DurableDav.Replication

open Library

/-! ### Which calls are carried out -/

section Answered

variable {α : Type} {env : Env} {w w₁ w₂ : World} {c : Call} {cs : List Call} {k p : JsString}

theorem answers_trans (h : w.Extends w₁) (h' : w₁.Extends w₂) :
    w.Answers cs w₂ ↔ w.Answers cs w₁ ∨ w₁.Answers cs w₂ := by
  simp only [World.Answers, World.events_trans h h', List.mem_append]
  constructor
  · rintro ⟨c, hc, he | he⟩
    · exact .inr ⟨c, hc, he⟩
    · exact .inl ⟨c, hc, he⟩
  · rintro (⟨c, hc, he⟩ | ⟨c, hc, he⟩)
    · exact ⟨c, hc, .inr he⟩
    · exact ⟨c, hc, .inl he⟩

/-- A call that touches nothing of the log but by its outcome. -/
structure Plain (env : Env) (c : Call) (body : ℕ → Answer → Run α) : Prop where
  outcome : ∀ a, c.outcome a = .answered c
  log : ∀ n a w, ((body n a).run w).2.log = w.log

theorem plain_onSide {s : Side} (houtcome : ∀ a, c.outcome a = .answered c) (x : ℕ → Act Tree JsString α) :
    Plain env c (fun n (_ : Answer) => onSide s (x n)) :=
  ⟨houtcome, fun _ _ w => World.Notes.log_setTree w s _⟩

theorem Plain.run_log {body : ℕ → Answer → Run α} (h : Plain env c body) (w : World) :
    (∃ v w', (env.call c intact body).run w = (.ok v, w') ∧ w'.log = .answered c :: w.log ∧
        (env.answer w.calls).fails = false ∧ ∃ v, ((body w.calls (env.answer w.calls)).run w.tick).1 = .ok v) ∨
      ∃ e w', (env.call c intact body).run w = (.error e, w') ∧ w'.log = .rejected c :: w.log ∧
        ¬ ((env.answer w.calls).fails = false ∧
          ∃ v, ((body w.calls (env.answer w.calls)).run w.tick).1 = .ok v) := by
  cases hfails : (env.answer w.calls).fails with
  | true =>
    right
    cases ha : env.answer w.calls with
    | rejects reason =>
      refine ⟨reason, w.tick.note (.rejected c), ?_, rfl, by simp⟩
      simp only [Env.call, ha]
      rfl
    | performs | blank | cut keep => simp [ha, Answer.fails] at hfails
  | false =>
    have hrun : (env.call c intact body).run w =
        (carryOut c (env.answer w.calls) (body w.calls (env.answer w.calls))).run w.tick := call_answers hfails
    have hlog : ((body w.calls (env.answer w.calls)).run w.tick).2.log = w.log := h.log _ _ _
    rw [run_carryOut] at hrun
    cases hbody : (body w.calls (env.answer w.calls)).run w.tick with
    | mk x w' =>
      rw [hbody] at hrun hlog
      cases x with
      | ok v => exact .inl ⟨v, _, hrun, congrArg₂ List.cons (h.outcome _) hlog, rfl, v, rfl⟩
      | error e => exact .inr ⟨e, _, hrun, congrArg (List.cons _) hlog, by simp⟩

theorem Plain.answers_iff {body : ℕ → Answer → Run α} (h : Plain env c body) (w : World) (hc : c ∈ cs) :
    w.Answers cs ((env.call c intact body).run w).2 ↔ (env.answer w.calls).fails = false ∧
      ∃ v, ((body w.calls (env.answer w.calls)).run w.tick).1 = .ok v := by
  rcases h.run_log w with ⟨v, w', hrun, hlog, hcond⟩ | ⟨e, w', hrun, hlog, hcond⟩ <;> rw [hrun]
  · refine iff_of_true ⟨c, hc, ?_⟩ hcond
    rw [World.events_eq (show w'.log = [.answered c] ++ w.log from hlog)]
    exact List.mem_cons_self
  · refine iff_of_false ?_ hcond
    rintro ⟨c', _, he⟩
    rw [World.events_eq (show w'.log = [.rejected c] ++ w.log from hlog)] at he
    simp at he

end Answered

/-! ### Which writes a tree takes -/

namespace Tree

variable {t : Tree} {k : JsString} {now : ℕ}

theorem writeFile_ok_iff (r : Resource) (hdir : t.isDirectory (parentOf k) = true) :
    (∃ v, ((writeFile k r).run t).1 = .ok v) ↔ t.isDirectory k = false := by
  change (∃ v, ((if t.isDirectory (parentOf k) ∧ !t.isDirectory k then _ else _ : Act Tree JsString Unit).run t).1 = .ok v) ↔ _
  split
  · rename_i h
    exact iff_of_true ⟨(), rfl⟩ (by simpa using h.2)
  · rename_i h
    refine iff_of_false ?_ (by simpa [hdir] using h)
    rintro ⟨v, hv⟩
    cases hv

theorem write_ok_iff (contentType : Option JsString) (data : Bytes) (hk : k ≠ []) (hv : isValidInnerPath k = true)
    (hdir : t.isDirectory (parentOf k) = true) :
    (∃ v, ((write k contentType data now).run t).1 = .ok v) ↔ t.isDirectory k = false := by
  cases hnot : t.isDirectory k with
  | false =>
    have hok : ∃ t', (write k contentType data now).run t = (.ok (), t') :=
      (write_ok hk hv hdir hnot).imp fun _ h => h.1
    obtain ⟨t', hok⟩ := hok
    exact iff_of_true ⟨(), by rw [hok]⟩ rfl
  | true =>
    have hrefused : ∃ e t', (write k contentType data now).run t = (.error e, t') :=
      (write_refused hk hv hnot).imp fun _ h => h.imp fun _ h => h.1
    obtain ⟨e, t', hrefused⟩ := hrefused
    refine iff_of_false ?_ (by simp)
    rw [hrefused]
    simp

theorem mkcol_ok (r : Resource) (hdir : t.isDirectory (parentOf k) = true) :
    ∃ v, ((mkcol k r).run t).1 = .ok v := by
  refine ⟨(), ?_⟩
  change ((if k = [] ∨ (Store.get t k).isSome then _ else if t.isDirectory (parentOf k) then _
    else _ : Act Tree JsString Unit).run t).1 = _
  split
  · rfl
  · rfl

end Tree

section Copies

variable {env : Env} {w w' : World} {cs : List Call} {k p : JsString} {contentType : Option JsString} {data : Bytes}

theorem localWrite_answers (hc : .write .localSide k ∈ cs) (hk : k ≠ []) (hv : isValidInnerPath k = true)
    (hdir : w.localTree.isDirectory (parentOf k) = true) :
    w.Answers cs ((env.localWrite k contentType data).run w).2 ↔
      (env.answer w.calls).fails = false ∧ w.localTree.isDirectory k = false := by
  have hplain : Plain env (.write .localSide k) fun n (_ : Answer) =>
      onSide .localSide (write k contentType data (env.clock n)) := plain_onSide (fun a => by cases a <;> rfl) _
  exact (hplain.answers_iff w hc).trans (and_congr_right fun _ => Tree.write_ok_iff contentType data hk hv hdir)

theorem remoteWrite_answers (hc : .write .remoteSide k ∈ cs) (hk : k ≠ []) (hv : isValidInnerPath k = true)
    (hdir : w.remoteTree.isDirectory (parentOf k) = true) :
    w.Answers cs ((env.remoteWriteFile k contentType data).run w).2 ↔
      (env.answer w.calls).fails = false ∧ w.remoteTree.isDirectory k = false := by
  have hplain : Plain env (.write .remoteSide k) fun n (_ : Answer) =>
      onSide .remoteSide (if env.sibling then write k contentType data (env.clock n)
        else writeFile k ⟨some data, (env.mint n).etag, (env.mint n).mtime, (env.mint n).size,
          some (contentType.getD octetStream)⟩) := plain_onSide (fun a => by cases a <;> rfl) _
  refine (hplain.answers_iff w hc).trans (and_congr_right fun _ => ?_)
  cases env.sibling with
  | true => exact Tree.write_ok_iff contentType data hk hv hdir
  | false => exact Tree.writeFile_ok_iff _ hdir

theorem makeCollection_answers (hc : .mkdir .remoteSide k ∈ cs) (hk : k ≠ []) (hv : isValidInnerPath k = true)
    (hdir : w.remoteTree.isDirectory (parentOf k) = true) :
    w.Answers cs ((env.makeCollection k).run w).2 ↔ (env.answer w.calls).fails = false := by
  have hplain : Plain env (.mkdir .remoteSide k) fun n (_ : Answer) =>
      onSide .remoteSide (if env.sibling then mkdir k (env.clock n)
        else mkcol k ⟨none, (env.mint n).etag, (env.mint n).mtime, (env.mint n).size, none⟩) :=
    plain_onSide (fun a => by cases a <;> rfl) _
  refine (hplain.answers_iff w hc).trans (and_iff_left ?_)
  cases env.sibling with
  | true =>
    refine ⟨(), ?_⟩
    change ((mkdir k _).run w.remoteTree).1 = _
    rw [Tree.mkdir_run hk hv]
  | false =>
    exact Tree.mkcol_ok _ hdir

end Copies

/-! ### Which decisions leave a copy -/

/-- The call is answered, and not by nothing. -/
def Delivered (env : Env) (n : ℕ) : Prop := (env.answer n).fails = false ∧ (env.answer n).isBlank = false

/-- By the kinds of the two versions and by how the storage calls are answered: with two copies to write, one on each
side, the second is tried only where nothing was read for the first. -/
def CopiesWhen (env : Env) (w : World) (k : JsString) (both localColl remoteColl : Bool) : Prop :=
  match localColl, remoteColl with
  | true, _ => both = true ∧ (env.answer w.calls).fails = false
  | false, true => both = true ∧ Delivered env w.calls ∧ (env.answer (w.calls + 1)).fails = false ∧
      w.remoteTree.isDirectory k = false
  | false, false =>
    Delivered env w.calls ∧ (env.answer (w.calls + 1)).fails = false ∧ w.localTree.isDirectory k = false ∨
      both = true ∧ (env.answer w.calls).isBlank = true ∧ Delivered env (w.calls + 1) ∧
        (env.answer (w.calls + 2)).fails = false ∧ w.remoteTree.isDirectory k = false

/-- A path that both sides hold as the slice has listed it, and a name beside it for the copy. -/
structure Copyable (ctx : TransferContext) (w : World) (p k : JsString) (l r : PlanSide) : Prop
    extends Preservable ctx w p k l r where
  remoteForm : w.remoteTree.WellFormed

section Copying

variable {ctx : TransferContext} {w w' : World} {p k : JsString} {l r : PlanSide} {cs : List Call}

theorem Copyable.remoteParent (h : Copyable ctx w p k l r) : w.remoteTree.isDirectory (parentOf k) = true := by
  rw [h.beside]
  exact (h.remoteForm p h.tellsRemote.held).2

theorem Copyable.localParent (h : Copyable ctx w p k l r) : w.localTree.isDirectory (parentOf k) = true := by
  rw [h.beside]
  exact h.parent

/-- None of the calls is carried out between the two worlds, reads apart. -/
def World.Omits (cs : List Call) (w w' : World) : Prop :=
  ∃ es, w'.log = es ++ w.log ∧ ∀ c ∈ cs, c.isRead = false → .answered c ∉ es

theorem copies_not_read (d : ReplicationDecision) : ∀ c ∈ d.copies, c.isRead = false := by
  cases d <;> simp [ReplicationDecision.copies, Call.isRead]

namespace World.Omits

theorem of_log_eq (h : w'.log = w.log) : World.Omits cs w w' := ⟨[], h, by simp⟩

theorem of_note {e : Event} (he : ∀ c ∈ cs, c.isRead = false → e ≠ .answered c) : World.Omits cs w (w.note e) :=
  ⟨[e], rfl, fun c hc hread => by simpa [eq_comm] using he c hc hread⟩

instance : Observing (World.Omits cs) where
  refl _ := of_log_eq rfl
  trans := by
    rintro _ _ _ ⟨es, h, he⟩ ⟨es', h', he'⟩
    refine ⟨es' ++ es, by rw [h', h, List.append_assoc], fun c hc hread => ?_⟩
    rw [List.mem_append, not_or]
    exact ⟨he' c hc hread, he c hc hread⟩
  tick _ := of_log_eq rfl
  look w e c he hc := of_note fun c' hc' hread heq => by
    obtain rfl : c' = c := by simpa [heq, Event.call] using he
    rw [hread] at hc
    cases hc

theorem not_answers (hcs : ∀ c ∈ cs, c.isRead = false) (h : World.Omits cs w w') : ¬ w.Answers cs w' := by
  obtain ⟨es, hlog, hes⟩ := h
  rintro ⟨c, hc, he⟩
  rw [World.events_eq hlog] at he
  exact hes c hc (hcs c hc) he

theorem grows (h : World.Omits cs w w') : w.Extends w' := by
  obtain ⟨es, hlog, -⟩ := h
  exact ⟨es, hlog⟩

theorem of_call {α : Type} {env : Env} {c : Call} {x : ℕ → Act Tree JsString α} {s : Side} (hc : c ∉ cs) :
    Act.Within (World.Omits cs) (env.call c intact fun n _ => onSide s (x n)) := by
  refine within_named_call (fun w e he => of_note fun c' hc' _ heq => ?_) intact_within
    (fun n _ w => of_log_eq (World.Notes.log_setTree w s _))
  obtain rfl : c' = c := by simpa [heq, Event.call] using he
  exact hc hc'

end World.Omits

/-- A call whose operation is refused is not carried out. -/
theorem Plain.omits {α : Type} {env : Env} {c : Call} {body : ℕ → Answer → Run α} (h : Plain env c body)
    (hno : ¬ ∃ v, ((body w.calls (env.answer w.calls)).run w.tick).1 = .ok v) :
    World.Omits [c] w ((env.call c intact body).run w).2 := by
  rcases h.run_log w with ⟨v, w', hrun, hlog, _, hok⟩ | ⟨e, w', hrun, hlog, _⟩
  · exact absurd hok hno
  · rw [hrun]
    exact ⟨[.rejected c], hlog, by simp⟩

def Mutation.call : Mutation → Call
  | mkdir s p => .mkdir s p
  | write s p => .write s p
  | unlink s p _ => .unlink s p

theorem mutation_omits {env : Env} {m : Mutation} (hm : m.call ∉ cs) : Admits (World.Omits cs) env m := by
  intro contentType data
  cases m with
  | mkdir s q =>
    have hc : Call.mkdir s q ∉ cs := hm
    cases s with
    | localSide =>
      have h : Act.Within (World.Omits cs) (env.localMkdir q) := World.Omits.of_call hc
      exact h
    | remoteSide =>
      have h : Act.Within (World.Omits cs) (env.makeCollection q) := World.Omits.of_call hc
      exact h
  | write s q =>
    have hc : Call.write s q ∉ cs := hm
    cases s with
    | localSide =>
      have h : Act.Within (World.Omits cs) (env.localWrite q contentType data) := World.Omits.of_call hc
      exact h
    | remoteSide =>
      have h : Act.Within (World.Omits cs) (env.remoteWriteFile q contentType data) := World.Omits.of_call hc
      exact h
  | unlink s q recursive =>
    have hc : Call.unlink s q ∉ cs := hm
    have hnote (w : World) (e : Event) (he : e.call = some (.unlink s q)) : World.Omits cs w (w.note e) := by
      refine World.Omits.of_note fun c' hc' _ heq => ?_
      obtain rfl : c' = .unlink s q := by simpa [heq, Event.call] using he
      exact hc hc'
    have hside (x : Act Tree JsString Unit) : Act.Within (World.Omits cs) (onSide s x) :=
      fun w => World.Omits.of_log_eq (World.Notes.log_setTree w s _)
    have hgone (files : List JsString) (w : World) : World.Omits cs w (w.note (.removed s q files)) :=
      World.Omits.of_note (by simp)
    have hremoval (x : Act Tree JsString Unit) : Act.Within (World.Omits cs) (Env.removal s q x) :=
      Act.within_bind Act.within_read fun _ => Act.within_bind (hside x) fun _ => Act.within_bind Act.within_read
        fun _ => hgone _
    have hpartial (n : ℕ) (w : World) : World.Omits cs w (env.partialRemoval s q recursive n w) := by
      cases recursive with
      | false => exact refl_of (World.Omits cs) w
      | true => exact trans_of (World.Omits cs) (World.Omits.of_log_eq (World.Notes.log_setTree w s _)) (hgone _ _)
    cases s with
    | localSide =>
      have h : Act.Within (World.Omits cs) (env.localUnlink q recursive) :=
        within_named_call hnote hpartial (fun _ _ => hremoval _)
      exact h
    | remoteSide =>
      have h : Act.Within (World.Omits cs) (env.remove q recursive) :=
        within_named_call hnote hpartial (fun _ _ => hremoval _)
      exact h

/-- How the read of a held file ends. -/
inductive ReadEnds (env : Env) (cs : List Call) (data : Bytes) (w : World) :
    Except JsString (Option Bytes) × World → Prop
  | refused (e : JsString) (w' : World) (fails : (env.answer w.calls).fails = true) (omits : World.Omits cs w w') :
    ReadEnds env cs data w (.error e, w')
  | blank (w' : World) (blank : (env.answer w.calls).isBlank = true) (leads : w.Leads w' w.localTree)
    (omits : World.Omits cs w w') : ReadEnds env cs data w (.ok none, w')
  | delivered (w' : World) (delivered : Delivered env w.calls) (leads : w.Leads w' w.localTree)
    (omits : World.Omits cs w w') : ReadEnds env cs data w (.ok (some data), w')

section Reads

variable {env : Env} {data : Bytes}

theorem readReplicaStream_readEnds (hp : p ≠ []) (hv : isValidInnerPath p = true)
    (hfile : w.localTree.content p = some (some data)) : ReadEnds env cs data w ((env.readReplicaStream p).run w) := by
  have homits : World.Omits cs w ((env.readReplicaStream p).run w).2 := readReplicaStream_within w
  cases hfails : (env.answer w.calls).fails with
  | true =>
    obtain ⟨e, w', hrun, -⟩ := readReplicaStream_fails (p := p) hfails
    rw [hrun] at homits ⊢
    exact .refused e w' hfails homits
  | false =>
    obtain ⟨w', hrun, hleads⟩ := readReplicaStream_ends hp hv hfails
    rw [hfile] at hrun
    rw [hrun] at homits ⊢
    cases hblank : (env.answer w.calls).isBlank with
    | true => exact .blank w' hblank hleads homits
    | false => exact .delivered w' ⟨hfails, hblank⟩ hleads homits

theorem readFile_readEnds (hfile : w.remoteTree.content p = some (some data)) :
    ReadEnds env cs data w ((env.readFile p).run w) := by
  have homits : World.Omits cs w ((env.readFile p).run w).2 := readFile_within w
  cases hfails : (env.answer w.calls).fails with
  | true =>
    obtain ⟨e, w', hrun, -⟩ := readFile_fails (p := p) hfails
    rw [hrun] at homits ⊢
    exact .refused e w' hfails homits
  | false =>
    obtain ⟨w', hrun, hleads⟩ := readFile_ends hfile hfails
    rw [hrun] at homits ⊢
    cases hblank : (env.answer w.calls).isBlank with
    | true => exact .blank w' hblank hleads homits
    | false => exact .delivered w' ⟨hfails, hblank⟩ hleads homits

end Reads

theorem Copyable.congr (h : Copyable ctx w p k l r) (hlocal : w'.localTree = w.localTree)
    (hremote : w'.remoteTree = w.remoteTree) : Copyable ctx w' p k l r where
  toPreservable := { h.toPreservable with
    wellFormed := hlocal ▸ h.wellFormed
    tellsLocal := hlocal ▸ h.tellsLocal
    tellsRemote := hremote ▸ h.tellsRemote }
  remoteForm := hremote ▸ h.remoteForm

theorem copyUp_answers (h : Copyable ctx w p k l r) (hl : l.isCollection = false) (hcs : ∀ c ∈ cs, c.isRead = false)
    (hc : .write .remoteSide k ∈ cs) : w.Answers cs ((ctx.copyUp p k).run w).2 ↔
      Delivered ctx.env w.calls ∧ (ctx.env.answer (w.calls + 1)).fails = false ∧ w.remoteTree.isDirectory k = false := by
  obtain ⟨data, hfile⟩ := h.tellsLocal.file hl
  have hread : ReadEnds ctx.env cs data w ((ctx.env.readReplicaStream p).run w) :=
    readReplicaStream_readEnds h.nonempty h.valid hfile
  unfold TransferContext.copyUp
  rw [h.localEntry]
  dsimp only
  rw [if_neg (by simp [hl])]
  cases hrun : (ctx.env.readReplicaStream p).run w with
  | mk x w' =>
    rw [hrun] at hread
    cases hread with
    | refused e _ fails omits =>
      rw [Act.run_bind_error hrun]
      refine iff_of_false (omits.not_answers hcs) ?_
      rintro ⟨⟨hanswered, -⟩, -⟩
      rw [fails] at hanswered
      cases hanswered
    | blank _ blank leads omits =>
      rw [Act.run_bind_ok hrun]
      refine iff_of_false (omits.not_answers hcs) ?_
      rintro ⟨⟨-, hnot⟩, -⟩
      rw [blank] at hnot
      cases hnot
    | delivered _ delivered leads omits =>
      have h' := h.congr leads.localTree leads.remoteTree
      have hwrites : Act.Within World.Notes (ctx.env.remoteWriteFile k l.contentType data) :=
        mutation_notes ctx.env (.write .remoteSide k) l.contentType data
      rw [Act.run_bind_ok hrun, answers_trans omits.grows (hwrites w').extends,
        remoteWrite_answers hc h.conflictNonempty h.conflictValid h'.remoteParent, leads.calls, leads.remoteTree]
      simp [(omits.not_answers hcs), delivered]

theorem copyDown_answers (h : Copyable ctx w p k l r) (hr : r.isCollection = false) (hcs : ∀ c ∈ cs, c.isRead = false)
    (hc : .write .localSide k ∈ cs) : ∃ x w', (ctx.copyDown p k).run w = (x, w') ∧ w.Extends w' ∧
      (w.Answers cs w' ↔
        Delivered ctx.env w.calls ∧ (ctx.env.answer (w.calls + 1)).fails = false ∧ w.localTree.isDirectory k = false) ∧
      (w.Answers cs w' ∨ (∃ e, x = .error e) ∧ (ctx.env.answer w.calls).isBlank = false ∨
        x = .ok () ∧ (ctx.env.answer w.calls).isBlank = true ∧ w.Leads w' w.localTree) := by
  obtain ⟨data, hfile⟩ := h.tellsRemote.file hr
  have hread : ReadEnds ctx.env cs data w ((ctx.env.readFile p).run w) := readFile_readEnds hfile
  have hstream : ctx.remoteFileStream p = ctx.env.readFile p := by
    unfold TransferContext.remoteFileStream
    rw [h.remoteEntry]
    dsimp only
    rw [if_neg (by simp [hr])]
  unfold TransferContext.copyDown
  rw [hstream]
  cases hrun : (ctx.env.readFile p).run w with
  | mk x w' =>
    rw [hrun] at hread
    cases hread with
    | refused e _ fails omits =>
      rw [Act.run_bind_error hrun]
      refine ⟨_, _, rfl, omits.grows, iff_of_false (omits.not_answers hcs) ?_, .inr (.inl ⟨⟨e, rfl⟩, isBlank_of_fails fails⟩)⟩
      rintro ⟨⟨hanswered, -⟩, -⟩
      rw [fails] at hanswered
      cases hanswered
    | blank _ blank leads omits =>
      rw [Act.run_bind_ok hrun]
      refine ⟨_, _, rfl, omits.grows, iff_of_false (omits.not_answers hcs) ?_, .inr (.inr ⟨rfl, blank, leads⟩)⟩
      rintro ⟨⟨-, hnot⟩, -⟩
      rw [blank] at hnot
      cases hnot
    | delivered _ delivered leads omits =>
      have h' := h.congr leads.localTree leads.remoteTree
      rw [Act.run_bind_ok hrun]
      dsimp only
      generalize (ctx.localEntry p).bind PlanSide.contentType = contentType
      have hwrites : Act.Within World.Notes (ctx.env.localWrite k contentType data) :=
        mutation_notes ctx.env (.write .localSide k) contentType data
      have hiff : w.Answers cs ((ctx.env.localWrite k contentType data).run w').2 ↔
          Delivered ctx.env w.calls ∧ (ctx.env.answer (w.calls + 1)).fails = false ∧ w.localTree.isDirectory k = false := by
        rw [answers_trans omits.grows (hwrites w').extends,
          localWrite_answers hc h.conflictNonempty h.conflictValid h'.localParent, leads.calls, leads.localTree]
        simp [(omits.not_answers hcs), delivered]
      refine ⟨((ctx.env.localWrite k contentType data).run w').1, ((ctx.env.localWrite k contentType data).run w').2, rfl,
        trans_of World.Extends omits.grows (hwrites w').extends, hiff, ?_⟩
      have hplain : Plain ctx.env (.write .localSide k) fun n (_ : Answer) =>
          onSide .localSide (write k contentType data (ctx.env.clock n)) := plain_onSide (fun a => by cases a <;> rfl) _
      rcases hplain.run_log w' with ⟨v, w'', hok, -, hcond⟩ | ⟨e, w'', herror, -⟩
      · exact .inl ((answers_trans omits.grows (hwrites w').extends).mpr (.inr ((hplain.answers_iff w' hc).mpr hcond)))
      · exact .inr (.inl ⟨⟨e, congrArg Prod.fst herror⟩, delivered.2⟩)

theorem after_keepBoth (ctx : TransferContext) (p k : JsString) (winner : Side) (w : World) :
    ctx.after (.keepBoth p winner k) w = ((ctx.keepBoth p k).run w).2 := by
  unfold TransferContext.after TransferContext.transfer
  rw [Act.run_bind]
  cases (ctx.keepBoth p k).run w with
  | mk x w' => cases x <;> rfl

theorem after_pullAndPreserve (ctx : TransferContext) (p k : JsString) (contentType : Option JsString) (w : World) :
    ctx.after (.pullAndPreserve p k contentType) w = ((ctx.pullAndPreserve p k contentType).run w).2 := by
  unfold TransferContext.after TransferContext.transfer
  rw [Act.run_bind]
  cases (ctx.pullAndPreserve p k contentType).run w with
  | mk x w' => cases x <;> rfl

theorem keepBoth_collection (hlocal : ctx.localEntry p = some l) (hl : l.isCollection = true) (w : World) :
    ((ctx.keepBoth p k).run w).2 = ((ctx.env.makeCollection k).run w).2 := by
  unfold TransferContext.keepBoth TransferContext.preserveConflictingCollection
  rw [hlocal, if_pos (by simp [hl]), Act.run_bind, Act.run_bind]
  cases (ctx.env.makeCollection k).run w with
  | mk x w' => cases x <;> rfl

theorem keepBoth_file (hlocal : ctx.localEntry p = some l) (hl : l.isCollection = false) :
    ctx.keepBoth p k = ctx.copyDown p k >>= fun _ => ctx.copyUp p k := by
  have hnone : ctx.preserveConflictingCollection p k = pure false := by
    unfold TransferContext.preserveConflictingCollection
    rw [hlocal]
    simp [hl]
  unfold TransferContext.keepBoth
  rw [hnone]
  rfl

theorem copyDown_collection (hremote : ctx.remoteEntry p = some r) (hr : r.isCollection = true) :
    ctx.copyDown p k = pure () := by
  unfold TransferContext.copyDown TransferContext.remoteFileStream
  rw [hremote]
  dsimp only
  rw [if_pos hr]
  rfl

theorem keepBoth_copied_iff (h : Copyable ctx w p k l r) (winner : Side) :
    ctx.Copied (.keepBoth p winner k) w k ↔ CopiesWhen ctx.env w k true l.isCollection r.isCollection := by
  unfold TransferContext.Copied
  rw [after_keepBoth]
  refine (and_iff_right rfl).trans ?_
  have hcs := copies_not_read (.keepBoth p winner k)
  have hups : .write .remoteSide k ∈ (ReplicationDecision.keepBoth p winner k).copies := by simp [ReplicationDecision.copies]
  have hdowns : .write .localSide k ∈ (ReplicationDecision.keepBoth p winner k).copies := by simp [ReplicationDecision.copies]
  have hmade : .mkdir .remoteSide k ∈ (ReplicationDecision.keepBoth p winner k).copies := by simp [ReplicationDecision.copies]
  have hup : Act.Within World.Notes (ctx.copyUp p k) := copyUp_within (mutation_notes ctx.env _)
  cases hl : l.isCollection with
  | true =>
    rw [keepBoth_collection h.localEntry hl, makeCollection_answers hmade h.conflictNonempty h.conflictValid h.remoteParent]
    cases r.isCollection <;> simp [CopiesWhen]
  | false =>
    rw [keepBoth_file h.localEntry hl]
    cases hr : r.isCollection with
    | true =>
      have hrun : (ctx.copyDown p k).run w = (.ok (), w) := by
        rw [copyDown_collection h.remoteEntry hr]
        rfl
      rw [Act.run_bind_ok hrun, copyUp_answers h hl hcs hups]
      simp [CopiesWhen]
    | false =>
      obtain ⟨x, w', hrun, hgrows, hiff, hends⟩ := copyDown_answers h hr hcs hdowns
      cases x with
      | error e =>
        rw [Act.run_bind_error hrun, hiff]
        rcases hends with hwritten | ⟨-, hnot⟩ | ⟨hok, -⟩
        · exact iff_of_true (hiff.mp hwritten) (.inl (hiff.mp hwritten))
        · simp [CopiesWhen, hnot]
        · cases hok
      | ok u =>
        rw [Act.run_bind_ok hrun, answers_trans hgrows (hup w').extends]
        rcases hends with hwritten | ⟨⟨e, he⟩, -⟩ | ⟨-, hblank, hleads⟩
        · exact iff_of_true (.inl hwritten) (.inl (hiff.mp hwritten))
        · cases he
        · rw [hiff, copyUp_answers (h.congr hleads.localTree hleads.remoteTree) hl hcs hups, hleads.calls, hleads.remoteTree]
          simp [CopiesWhen, hblank]

/-- One copy, on the local side, and only of a file that meets a file. -/
theorem pullAndPreserve_copied_iff (h : Copyable ctx w p k l r) (contentType : Option JsString) :
    ctx.Copied (.pullAndPreserve p k contentType) w k ↔ CopiesWhen ctx.env w k false l.isCollection r.isCollection := by
  unfold TransferContext.Copied
  rw [after_pullAndPreserve]
  refine (and_iff_right rfl).trans ?_
  generalize hd : ReplicationDecision.pullAndPreserve p k contentType = d
  have hcopies : d.copies = [.write .localSide k] := by rw [← hd]; rfl
  have hcs : ∀ c ∈ d.copies, c.isRead = false := copies_not_read d
  have hmkdir (q : JsString) : Act.Within (World.Omits d.copies) (ctx.env.localMkdir q) :=
    mutation_omits (m := .mkdir .localSide q) (by simp [hcopies, Mutation.call]) none []
  have hwrite (data : Bytes) : Act.Within (World.Omits d.copies) (ctx.env.localWrite p contentType data) :=
    mutation_omits (m := .write .localSide p) (by simpa [hcopies, Mutation.call] using h.apart.symm) contentType data
  have hunlink : Act.Within (World.Omits d.copies) (ctx.env.localUnlink p false) :=
    mutation_omits (m := .unlink .localSide p false) (by simp [hcopies, Mutation.call]) none []
  have hpull : Act.Within (World.Omits d.copies) (ctx.remoteToLocal p contentType) := by
    refine Act.within_bind readFile_within fun stream => ?_
    split
    · exact Act.within_pure _
    · exact hwrite _
  rw [h.pull_eq]
  cases hl : l.isCollection with
  | true =>
    rw [if_pos rfl]
    have hnot : Act.Within (World.Omits d.copies)
        (if r.isCollection then ctx.env.localMkdir p else ctx.remoteToLocal p contentType) := by
      split
      · exact hmkdir p
      · exact hpull
    exact iff_of_false ((hnot w).not_answers hcs) (by cases r.isCollection <;> simp [CopiesWhen])
  | false =>
    rw [if_neg Bool.false_ne_true]
    unfold TransferContext.replacePreserved
    cases hr : r.isCollection with
    | true =>
      rw [if_pos rfl]
      have hnot := Act.within_bind (hmkdir k) fun _ => Act.within_bind hunlink fun _ => hmkdir p
      exact iff_of_false ((hnot w).not_answers hcs) (by simp [CopiesWhen])
    | false =>
      rw [if_neg Bool.false_ne_true]
      obtain ⟨data, hfile⟩ := h.tellsLocal.file hl
      have hread : ReadEnds ctx.env d.copies data w ((ctx.env.readReplicaStream p).run w) :=
        readReplicaStream_readEnds h.nonempty h.valid hfile
      cases hrun : (ctx.env.readReplicaStream p).run w with
      | mk x w' =>
        rw [hrun] at hread
        cases hread with
        | refused e _ fails omits =>
          rw [Act.run_bind_error hrun]
          exact iff_of_false (omits.not_answers hcs) (by simp [CopiesWhen, Delivered, fails])
        | blank _ blank leads omits =>
          rw [Act.run_bind_ok hrun]
          exact iff_of_false (omits.not_answers hcs) (by simp [CopiesWhen, Delivered, blank])
        | delivered _ delivered leads omits =>
          have h' := h.congr leads.localTree leads.remoteTree
          have hmem : .write .localSide k ∈ d.copies := by simp [hcopies]
          have hwrites : Act.Within World.Notes (ctx.env.localWrite k l.contentType data) :=
            mutation_notes ctx.env (.write .localSide k) l.contentType data
          have hwritten : w.Answers d.copies ((ctx.env.localWrite k l.contentType data).run w').2 ↔
              (ctx.env.answer (w.calls + 1)).fails = false ∧ w.localTree.isDirectory k = false := by
            rw [answers_trans omits.grows (hwrites w').extends,
              localWrite_answers hmem h.conflictNonempty h.conflictValid h'.localParent, leads.calls, leads.localTree]
            simp [(omits.not_answers hcs)]
          rw [Act.run_bind_ok hrun]
          dsimp only
          have hrest : w.Answers d.copies (((do
              ctx.env.localWrite k l.contentType data
              ctx.remoteToLocal p contentType : Run Unit)).run w').2 ↔
              w.Answers d.copies ((ctx.env.localWrite k l.contentType data).run w').2 := by
            rw [Act.run_bind]
            have hext := trans_of World.Extends omits.grows (hwrites w').extends
            cases hw : (ctx.env.localWrite k l.contentType data).run w' with
            | mk y w'' =>
              rw [hw] at hext
              cases y with
              | error e => rfl
              | ok u =>
                have hlast := hpull w''
                dsimp only
                rw [answers_trans hext hlast.grows]
                exact or_iff_left (hlast.not_answers hcs)
          rw [hrest, hwritten]
          simp [CopiesWhen, delivered]

end Copying


end DurableDav.Replication
