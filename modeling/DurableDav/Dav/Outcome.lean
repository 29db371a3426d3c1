import DurableDav.Dav.Steps

namespace DurableDav.Dav

open Library
open Replication (Bytes isValidInnerPath parentOf)

/-! ### What the steps of COPY and MOVE come to -/

namespace Volume

variable (v : Volume)

def addProps (target : JsString) (props : Store PropKey PropRow) (es : List (PropKey × PropRow)) : Store PropKey PropRow :=
  es.foldl (fun props e => Store.put props { e.1 with path := target } e.2) props

def copyMeta (now : ℕ) (source target : JsString) (isCollection : Bool) : Volume :=
  let row := Store.get v.nodes source
  let noted := v.upsertNode target
    ⟨isCollection, row.bind NodeRow.contentType, row.bind NodeRow.etag, now, now, false⟩
  { noted with props := addProps target v.props (v.deadProperties source) }

/-- The tables of a move, up to the first that holds a row in the way. -/
def renameTables (v : Volume) (source target : JsString) : List Table → Volume
  | [] => v
  | t :: ts => match v.updatePaths source target t with
    | none => v
    | some v' => v'.renameTables source target ts

end Volume

namespace Env

variable (env : Env) (v : Volume)

/-- The source's bytes written to the target, when `n` writes there and `m` reads were made before. -/
def bytesCopied (source target : JsString) (m n : ℕ) : Except Failure Volume :=
  match env.fails (.read source) m, Store.get v.files source with
  | some e, _ => .error e
  | none, none => .error (.of "ENOENT")
  | none, some ⟨none, _⟩ => .error (.of "EISDIR")
  | none, some ⟨some data, _⟩ => match env.fails (.writeFile target) n with
    | some e => .error e
    | none =>
      if v.files.isDirectory target then .error (.of "EISDIR")
      else if !v.files.isDirectory (parentOf target) then .error (.of "ENOENT")
      else .ok { v with files := Store.put v.files target ⟨some data, env.now⟩ }

/-- The volume with a collection made, when `n` attempts at it were made before. -/
def collectionMade (target : JsString) (n : ℕ) : Option Volume :=
  if env.fails (.mkdir target) n = none ∧ !v.files.found target ∧ v.files.isDirectory (parentOf target) then
    some { v with files := Store.put v.files target ⟨none, env.now⟩ }
  else none

def renamed (source target : JsString) : Option Volume :=
  if env.fails (.rename source target) 0 = none ∧ v.files.found source ∧ !v.files.found target ∧
      v.files.isDirectory (parentOf target) then
    (rekey v.files (fun q => if q = source ∨ Below slash source q then rebase source target q else q)).map
      (fun files => { v with files := files })
  else none

end Env

section Outcome

variable {env : Env} {s : Session} {source target : JsString}

def Op.Copies (source target : JsString) (op : Op) : Prop := op.IsExec ∨ op = .read source ∨ op = .writeFile target

theorem copyBytes_run (env : Env) (source target : JsString) (s : Session) :
    ∃ s', s.Calls (Op.Copies source target) s' ∧
      match env.bytesCopied s.volume source target (s.calls.count (.read source)) (s.calls.count (.writeFile target)) with
      | .error e => (env.copyBytes source target).run s = (.error e, s') ∧ s'.volume = s.volume
      | .ok v => (env.copyBytes source target).run s = (.ok (), s') ∧ s'.volume = v := by
  have hread : s.Calls (Op.Copies source target) (s.record (.read source)) := calls_record (.inr (.inl rfl))
  unfold Env.copyBytes Env.bytesCopied
  cases hf : env.fails (.read source) (s.calls.count (.read source)) with
  | some e =>
    refine ⟨_, hread, ?_, rfl⟩
    exact Act.run_bind_error (call_run_fails hf)
  | none =>
    have hcall : (env.read source).run s = _ := call_run hf
    rw [Act.run_bind, Act.run_read] at hcall
    rcases hget : Store.get s.volume.files source with _ | ⟨bytes, mtime⟩
    · refine ⟨_, hread, ?_, rfl⟩
      refine Act.run_bind_error (hcall.trans ?_)
      simp only [Session.record, hget]
      rfl
    · cases bytes with
      | none =>
        refine ⟨_, hread, ?_, rfl⟩
        refine Act.run_bind_error (hcall.trans ?_)
        simp only [Session.record, hget]
        rfl
      | some data =>
        have hdata : (env.read source).run s = (.ok data, s.record (.read source)) := by
          rw [hcall]
          simp only [Session.record, hget]
          rfl
        rw [Act.run_bind_ok hdata]
        have hwrite : s.Calls (Op.Copies source target) ((s.record (.read source)).record (.writeFile target)) :=
          hread.trans (calls_record (.inr (.inr rfl)))
        have hcount : (s.record (.read source)).calls.count (.writeFile target) = s.calls.count (.writeFile target) :=
          List.count_cons_of_ne (by simp)
        dsimp only
        cases hw : env.fails (.writeFile target) (s.calls.count (.writeFile target)) with
        | some e => exact ⟨_, hwrite, call_run_fails (by rw [hcount]; exact hw), rfl⟩
        | none =>
          have hput : (env.writeFile target data).run (s.record (.read source)) = _ :=
            call_run (by rw [hcount]; exact hw)
          rw [Act.run_bind, Act.run_read] at hput
          cases hdir : s.volume.files.isDirectory target with
          | true =>
            refine ⟨_, hwrite, hput.trans ?_, rfl⟩
            simp only [Session.record, hdir, ↓reduceIte]
            rfl
          | false =>
            cases hparent : s.volume.files.isDirectory (parentOf target) with
            | false =>
              refine ⟨_, hwrite, hput.trans ?_, rfl⟩
              simp only [Session.record, hdir, hparent, Bool.false_eq_true, Bool.not_false, ↓reduceIte]
              rfl
            | true =>
              let s₂ : Session := ⟨{ s.volume with files := Store.put s.volume.files target ⟨some data, env.now⟩ },
                .writeFile target :: .read source :: s.calls⟩
              have hto : s.Calls (Op.Copies source target) s₂ := hwrite
              refine ⟨s₂, hto, hput.trans ?_, rfl⟩
              simp only [Session.record, hdir, hparent, Bool.false_eq_true, Bool.not_true, ↓reduceIte]
              simp only [modifyFiles, Act.run_modify]
              rfl

theorem mkdir_run (env : Env) (target : JsString) (s : Session) :
    ∃ s', s.Calls (fun op => op = .mkdir target) s' ∧
      match env.collectionMade s.volume target (s.calls.count (.mkdir target)) with
      | none => (∃ e, (env.mkdir target).attempt.run s = (.ok (.error e), s')) ∧ s'.volume = s.volume
      | some v => (env.mkdir target).attempt.run s = (.ok (.ok ()), s') ∧ s'.volume = v := by
  have hrecord : s.Calls (fun op => op = .mkdir target) (s.record (.mkdir target)) := calls_record rfl
  unfold Env.collectionMade
  cases hf : env.fails (.mkdir target) (s.calls.count (.mkdir target)) with
  | some e =>
    refine ⟨_, hrecord, ?_⟩
    rw [if_neg (by simp)]
    refine ⟨⟨e, ?_⟩, rfl⟩
    rw [Act.run_attempt, show (env.mkdir target).run s = _ from call_run_fails hf]
  | none =>
    have hcall : (env.mkdir target).run s = _ := call_run hf
    rw [Act.run_bind, Act.run_read] at hcall
    cases hfound : s.volume.files.found target with
    | true =>
      refine ⟨_, hrecord, ?_⟩
      rw [if_neg (by simp)]
      refine ⟨⟨.of "EEXIST", ?_⟩, rfl⟩
      rw [Act.run_attempt, hcall]
      simp only [Session.record, hfound, ↓reduceIte]
      rfl
    | false =>
      cases hparent : s.volume.files.isDirectory (parentOf target) with
      | false =>
        refine ⟨_, hrecord, ?_⟩
        rw [if_neg (by simp)]
        refine ⟨⟨.of "ENOENT", ?_⟩, rfl⟩
        rw [Act.run_attempt, hcall]
        simp only [Session.record, hfound, hparent, Bool.false_eq_true, Bool.not_false, ↓reduceIte]
        rfl
      | true =>
        let s₂ : Session := ⟨{ s.volume with files := Store.put s.volume.files target ⟨none, env.now⟩ },
          .mkdir target :: s.calls⟩
        have hto : s.Calls (fun op => op = .mkdir target) s₂ := hrecord
        refine ⟨s₂, hto, ?_⟩
        rw [if_pos (by simp)]
        refine ⟨?_, rfl⟩
        rw [Act.run_attempt, hcall]
        simp only [Session.record, hfound, hparent, Bool.false_eq_true, Bool.not_true, ↓reduceIte]
        simp only [modifyFiles, Act.run_modify]
        rfl

theorem rename_run (env : Env) (source target : JsString) (s : Session) (h : s.calls.count (.rename source target) = 0) :
    ∃ s', s.Calls (fun op => op = .rename source target) s' ∧
      match env.renamed s.volume source target with
      | none => (∃ e, (env.rename source target).attempt.run s = (.ok (.error e), s')) ∧ s'.volume = s.volume
      | some v => (env.rename source target).attempt.run s = (.ok (.ok ()), s') ∧ s'.volume = v := by
  have hrecord : s.Calls (fun op => op = .rename source target) (s.record (.rename source target)) := calls_record rfl
  have failed (e : Failure) (hrun : (env.rename source target).run s = (.error e, s.record (.rename source target)))
      (hnone : env.renamed s.volume source target = none) :
      ∃ s', s.Calls (fun op => op = .rename source target) s' ∧
        match env.renamed s.volume source target with
        | none => (∃ e, (env.rename source target).attempt.run s = (.ok (.error e), s')) ∧ s'.volume = s.volume
        | some v => (env.rename source target).attempt.run s = (.ok (.ok ()), s') ∧ s'.volume = v := by
    refine ⟨_, hrecord, ?_⟩
    rw [hnone]
    exact ⟨⟨e, by rw [Act.run_attempt, hrun]⟩, rfl⟩
  cases hf : env.fails (.rename source target) 0 with
  | some e => exact failed e (call_run_fails (by rw [h]; exact hf)) (if_neg (by simp [hf]))
  | none =>
    have hcall : (env.rename source target).run s = _ := call_run (by rw [h]; exact hf)
    rw [Act.run_bind, Act.run_read] at hcall
    cases hsource : s.volume.files.found source with
    | false =>
      refine failed (.of "ENOENT") (hcall.trans ?_) (if_neg (by simp [hsource]))
      simp only [Session.record, hsource, Bool.not_false, ↓reduceIte]
      rfl
    | true =>
      cases htarget : s.volume.files.found target with
      | true =>
        refine failed (.of "EEXIST") (hcall.trans ?_) (if_neg (by simp [htarget]))
        simp only [Session.record, hsource, htarget, Bool.not_true, Bool.false_eq_true, ↓reduceIte]
        rfl
      | false =>
        cases hparent : s.volume.files.isDirectory (parentOf target) with
        | false =>
          refine failed (.of "ENOENT") (hcall.trans ?_) (if_neg (by simp [hparent]))
          simp only [Session.record, hsource, htarget, hparent, Bool.not_true, Bool.not_false, Bool.false_eq_true,
            ↓reduceIte]
          rfl
        | true =>
          cases hkeys : rekey s.volume.files (fun q =>
              if q = source ∨ Below slash source q then rebase source target q else q) with
          | none =>
            refine failed (.of "EEXIST") (hcall.trans ?_) (by simp [Env.renamed, hkeys])
            simp only [Session.record, hsource, htarget, hparent, hkeys, Bool.not_true, Bool.false_eq_true, ↓reduceIte]
            rfl
          | some files =>
            let s₂ : Session := ⟨{ s.volume with files := files }, .rename source target :: s.calls⟩
            have hto : s.Calls (fun op => op = .rename source target) s₂ := hrecord
            refine ⟨s₂, hto, ?_⟩
            have hsome : env.renamed s.volume source target = some { s.volume with files := files } := by
              simp [Env.renamed, hf, hsource, htarget, hparent, hkeys]
            rw [hsome]
            refine ⟨?_, rfl⟩
            rw [Act.run_attempt, hcall]
            simp only [Session.record, hsource, htarget, hparent, hkeys, Bool.not_true, Bool.false_eq_true, ↓reduceIte]
            simp only [modifyFiles, Act.run_modify]
            rfl

theorem renameCascade_run (h : env.Stores) (source target : JsString) (s : Session) :
    ∃ s', (env.renameCascade source target).run s = (.ok (), s') ∧
      s'.volume = s.volume.renameTables source target renameCascadeTables ∧ s.Calls Op.IsExec s' := by
  have hstep (t : Table) (s : Session) : (env.updateTable source target t).run s =
      match s.volume.updatePaths source target t with
      | none => (.error (.of "UNIQUE constraint failed"), s.record (.exec (.updatePaths t source target)))
      | some v => (.ok (), ⟨v, .exec (.updatePaths t source target) :: s.calls⟩) := by
    unfold Env.updateTable
    rw [exec_run h, Act.run_bind, Act.run_read]
    simp only [Session.record]
    cases s.volume.updatePaths source target t <;> rfl
  have heach (ts : List Table) (s : Session) : ∃ res s', (Act.each (env.updateTable source target) ts).run s = (res, s') ∧
      s'.volume = s.volume.renameTables source target ts ∧ s.Calls Op.IsExec s' := by
    induction ts generalizing s with
    | nil => exact ⟨.ok (), s, rfl, rfl, calls_refl s⟩
    | cons t ts ih =>
      have hrun := hstep t s
      have hrecord : s.Calls Op.IsExec (s.record (.exec (.updatePaths t source target))) := calls_record ⟨_, rfl⟩
      rw [Act.each_cons, Volume.renameTables]
      cases hu : s.volume.updatePaths source target t with
      | none =>
        rw [hu] at hrun
        exact ⟨_, _, Act.run_bind_error hrun, rfl, hrecord⟩
      | some v =>
        rw [hu] at hrun
        obtain ⟨res, s', hrun', hvol, hcalls⟩ := ih ⟨v, .exec (.updatePaths t source target) :: s.calls⟩
        have hto : s.Calls Op.IsExec ⟨v, .exec (.updatePaths t source target) :: s.calls⟩ := hrecord
        exact ⟨res, s', by rw [Act.run_bind_ok hrun]; exact hrun', hvol, hto.trans hcalls⟩
  obtain ⟨res, s', hrun, hvol, hcalls⟩ := heach renameCascadeTables s
  refine ⟨s', ?_, hvol, hcalls⟩
  unfold Env.renameCascade
  rw [Act.run_bind_ok (show (env.renameNodeCascade source target).attempt.run s = (.ok res, s') by
    rw [Act.run_attempt, show (env.renameNodeCascade source target).run s = (res, s') from hrun])]
  rfl

theorem copyMeta_run (h : env.Stores) (source target : JsString) (isCollection : Bool) (s : Session) :
    ∃ s', (env.copyMeta source target isCollection).run s = (.ok (), s') ∧
      s'.volume = s.volume.copyMeta env.now source target isCollection ∧ s.Calls Op.IsExec s' := by
  have hprops (es : List (PropKey × PropRow)) (s : Session) :
      ∃ s', (Act.each (fun e => env.upsertDeadProperty { e.1 with path := target } e.2) es).run s = (.ok (), s') ∧
        s'.volume = { s.volume with props := Volume.addProps target s.volume.props es } ∧ s.Calls Op.IsExec s' := by
    induction es generalizing s with
    | nil => exact ⟨s, rfl, rfl, calls_refl s⟩
    | cons e es ih =>
      let s₁ : Session := ⟨{ s.volume with props := Store.put s.volume.props { e.1 with path := target } e.2 },
        .exec (.upsertProp { e.1 with path := target }) :: s.calls⟩
      have hrun : (env.upsertDeadProperty { e.1 with path := target } e.2).run s = (.ok (), s₁) := by
        unfold Env.upsertDeadProperty
        rw [exec_run h]
        rfl
      have hto : s.Calls Op.IsExec s₁ := ⟨[.exec (.upsertProp { e.1 with path := target })], rfl, by simp [Op.IsExec]⟩
      obtain ⟨s', hrun', hvol, hcalls⟩ := ih s₁
      exact ⟨s', by rw [Act.each_cons, Act.run_bind_ok hrun]; exact hrun', hvol, hto.trans hcalls⟩
  let row := Store.get s.volume.nodes source
  let node : NodeRow := ⟨isCollection, row.bind NodeRow.contentType, row.bind NodeRow.etag, env.now, env.now, false⟩
  let s₁ : Session := s.record (.exec (.selectNode source))
  let s₂ : Session := ⟨s.volume.upsertNode target node, .exec (.upsertNode target) :: s₁.calls⟩
  let s₃ : Session := s₂.record (.exec (.selectProps source))
  have hnode : (env.exec (.selectNode source) (do
      let s ← .read
      pure (Store.get s.volume.nodes source))).run s = (.ok row, s₁) := by
    rw [exec_run h]
    rfl
  have hupsert : (env.exec (.upsertNode target) (Env.modifyVolume (fun v => v.upsertNode target node))).run s₁ =
      (.ok (), s₂) := by
    rw [exec_run h]
    rfl
  have hselect : (env.exec (.selectProps source) (do
      let s ← .read
      pure (s.volume.deadProperties source))).run s₂ = (.ok (s.volume.deadProperties source), s₃) := by
    rw [exec_run h]
    rfl
  obtain ⟨s₄, hrun, hvol, hcalls⟩ := hprops (s.volume.deadProperties source) s₃
  have hto : s.Calls Op.IsExec s₃ :=
    ⟨[.exec (.selectProps source), .exec (.upsertNode target), .exec (.selectNode source)], rfl, by simp [Op.IsExec]⟩
  refine ⟨s₄, ?_, hvol, hto.trans hcalls⟩
  have hrows : (env.copyRows source target isCollection).run s = (.ok (), s₄) := by
    unfold Env.copyRows
    rw [Act.run_bind_ok hnode, Act.run_bind_ok hupsert, Act.run_bind_ok hselect]
    exact hrun
  unfold Env.copyMeta
  rw [Act.run_bind_ok (show (env.copyRows source target isCollection).attempt.run s = (.ok (.ok ()), s₄) by
    rw [Act.run_attempt, hrows])]
  rfl

end Outcome

end DurableDav.Dav

