import DurableDav.Dav.Outcome

namespace DurableDav.Dav

open Library
open Replication (Bytes isValidInnerPath parentOf maxPathDepth)

/-! ### Source and destination -/

section Paths

variable {p : Platform} {r : Request} {base source target : JsString}

theorem isSameOrDescendantPath_iff : isSameOrDescendantPath source target = true ↔
    target = source ∨ Below slash source target := by
  simp only [isSameOrDescendantPath, Below, decide_eq_true_eq]

/-- Two paths of which the second is neither the first nor in it. -/
structure Apart (source target : JsString) : Prop where
  valid : isValidInnerPath target = true
  ne : target ≠ source
  outside : ¬ Below slash source target

theorem resolveDestination_apart (h : resolveDestination p r base source = some target) : Apart source target := by
  unfold resolveDestination at h
  simp only [Option.bind_eq_bind, Option.bind_eq_some_iff] at h
  obtain ⟨_, _, _, _, d, _, hd⟩ := h
  split at hd
  · rename_i hcond
    obtain rfl : d = target := by simpa using hd
    have hnot : ¬ (d = source ∨ Below slash source d) := by
      rw [← isSameOrDescendantPath_iff]
      simpa using hcond.2.2
    exact ⟨hcond.1, fun he => hnot (.inl he), fun hb => hnot (.inr hb)⟩
  · simp at hd

theorem Apart.source_ne_nil (h : Apart source target) : source ≠ [] := by
  rintro rfl
  by_cases ht : target = []
  · exact h.ne ht
  · exact h.outside (below_root.mpr ht)

theorem Apart.parent_ne (h : Apart source target) : parentOf target ≠ source := by
  intro he
  have hne : parentOf target ≠ [] := by
    rw [he]
    exact h.source_ne_nil
  have hb : Below slash (parentOf target) target := below_parentSegments hne
  rw [he] at hb
  exact h.outside hb

theorem getParentPath_eq (h : isValidInnerPath target = true) : getParentPath target = parentOf target := by
  unfold getParentPath
  rw [if_neg]
  intro hlast
  obtain ⟨start, he⟩ : ∃ start, target = start ++ slash :: [] :=
    ⟨target.dropLast, (List.dropLast_append_getLast? _ hlast).symm⟩
  have hne : target ≠ [] := by simp [he]
  have hsplit := Replication.valid_segments h hne []
  rw [he, List.splitOn_append_cons_self] at hsplit
  simp at hsplit

theorem parent_ne_self (h : target ≠ []) : parentOf target ≠ target := by
  intro he
  have hlt : (parentOf target).length < target.length := parentSegments_length_lt h
  rw [he] at hlt
  exact absurd hlt (lt_irrefl _)

end Paths

/-! ### The checks before anything changes -/

namespace Env

variable (env : Env) (v : Volume) (r : Request) (source target : JsString)

def isOrphan : Bool := parentOf target ≠ [] ∧ !(env.sees v (parentOf target) 0).isDirectory

def isRefusedOverwrite : Bool := !r.isOverwriteAllowed env.platform ∧ (env.sees v target 0).found

def isCopyDepth : Bool := r.depth.getD (js "infinity") = js "0" ∨ r.depth.getD (js "infinity") = js "infinity"

def isMoveDepth : Bool := r.depth.all (fun d => env.platform.toLowerCase (trim d) = js "infinity")

/-- Why a copy is refused with nothing changed, if it is. -/
def copyGuard : Option Response := match env.lockAnswer v r target with
  | some response => some response
  | none =>
    if !(env.sees v source 0).found then some .notFound
    else if env.isOrphan v target then some .conflict
    else if env.isRefusedOverwrite v r target then some .preconditionFailed
    else if (env.sees v source 0).isDirectory ∧ !isCopyDepth r then some .badRequest
    else none

/-- Why a move is refused with nothing changed, if it is. -/
def moveGuard : Option Response := match env.lockAnswer v r source with
  | some response => some response
  | none => match env.lockAnswer v r target with
    | some response => some response
    | none =>
      if !(env.sees v source 0).found then some .notFound
      else if !env.isMoveDepth r then some .badRequest
      else match if (env.sees v source 0).isDirectory then env.refusal v r source 0 else none with
        | some response => some response
        | none =>
          if env.isOrphan v target then some .conflict
          else if env.isRefusedOverwrite v r target then some .preconditionFailed
          else none

end Env

/-- The calls made before anything changes. -/
def Op.Looks (source target : JsString) (op : Op) : Prop :=
  op.IsExec ∨ op = .stat source ∨ op = .listDir source true ∨ op = .stat (parentOf target) ∨ op = .stat target

/-- The session in which the request goes on once it is accepted. -/
structure Accepted (v : Volume) (source target : JsString) (s : Session) : Prop where
  volume : s.volume = v
  fresh : ∀ op, ¬ op.Looks source target → s.calls.count op = 0
  looked : s.calls.count (.stat target) = 1

/-- The session before the destination and its parent are looked at. -/
structure Looked (v : Volume) (source target : JsString) (s : Session) : Prop where
  volume : s.volume = v
  fresh : ∀ op, ¬ op.Looks source target → s.calls.count op = 0
  parent : s.calls.count (.stat (parentOf target)) = 0
  target : s.calls.count (.stat target) = 0

section Course

variable {env : Env} {v : Volume} {r : Request} {source target : JsString} {bases : DavBases}

variable (env) in
theorem orphaned_run (hvalid : isValidInnerPath target = true) (s : Session) (hcount : s.calls.count (.stat (parentOf target)) = 0) :
    ∃ s', (env.orphaned target).run s = (.ok (env.isOrphan s.volume target), s') ∧ s'.volume = s.volume ∧
      s.Calls (fun op => op = .stat (parentOf target)) s' := by
  unfold Env.orphaned Env.isOrphan
  rw [getParentPath_eq hvalid]
  by_cases hp : parentOf target = []
  · rw [if_pos hp]
    exact ⟨s, by simp [hp], rfl, calls_refl s⟩
  · rw [if_neg hp, Act.run_bind_ok (statInner_run env _ s), hcount]
    exact ⟨s.record (.stat (parentOf target)), by simp [hp], rfl, calls_record rfl⟩

variable (env) in
/-- From the look at the parent of the destination to the look at the destination itself. -/
theorem overwrite_run (ht : Apart source target) {s : Session} (hs : Looked v source target s) : ∃ s₁,
    (env.orphaned target).run s = (.ok (env.isOrphan v target), s₁) ∧
    (env.statInner target).run s₁ = (.ok (env.sees v target 0), s₁.record (.stat target)) ∧
    s₁.volume = v ∧ Accepted v source target (s₁.record (.stat target)) ∧
    s.Calls (fun op => ∃ path, op = .stat path) (s₁.record (.stat target)) := by
  obtain ⟨s₁, hrun, hvol, hcalls⟩ := orphaned_run env ht.valid s hs.parent
  rw [hs.volume] at hrun hvol
  have hzero : s₁.calls.count (.stat target) = 0 := by
    by_cases hn : target = []
    · -- the root has no parent that would have been looked at
      subst hn
      have hsame : s₁ = s := by
        have hparent : getParentPath [] = [] := rfl
        unfold Env.orphaned at hrun
        rw [if_pos hparent] at hrun
        injection hrun with _ hs
        exact hs.symm
      rw [hsame, hs.target]
    · rw [hcalls.count (fun he => parent_ne_self hn (by simpa using he.symm)), hs.target]
  have hstat := statInner_run env target s₁
  rw [hzero, hvol] at hstat
  refine ⟨s₁, hrun, hstat, hvol, ⟨hvol, fun op hop => ?_, ?_⟩, ?_⟩
  · have hne : op ≠ .stat target := by
      rintro rfl
      exact hop (.inr (.inr (.inr (.inr rfl))))
    rw [show (s₁.record (.stat target)).calls = .stat target :: s₁.calls from rfl, List.count_cons_of_ne hne.symm,
      hcalls.count (fun he => hop (.inr (.inr (.inr (.inl he))))), hs.fresh op hop]
  · rw [show (s₁.record (.stat target)).calls = .stat target :: s₁.calls from rfl, List.count_cons_self, hzero]
  · apply (hcalls.mono _).trans (calls_record ⟨target, rfl⟩)
    exact fun op he => ⟨parentOf target, he⟩

theorem not_exec_stat (path : JsString) : ¬ (Op.stat path).IsExec := by
  rintro ⟨st, hst⟩
  simp at hst

theorem not_exec_listDir (path : JsString) : ¬ (Op.listDir path true).IsExec := by
  rintro ⟨st, hst⟩
  simp at hst

theorem looked_of_calls {s : Session} (hvol : s.volume = v)
    (hcalls : Session.Calls (fun op => op.IsExec ∨ op = .stat source ∨ op = .listDir source true) ⟨v, []⟩ s)
    (ht : Apart source target) : Looked v source target s := by
  have hcount {op : Op} (hexec : ¬ op.IsExec) (hstat : op ≠ .stat source) (hlist : op ≠ .listDir source true) :
      s.calls.count op = 0 := by
    rw [hcalls.count (by rintro (he | he | he); exacts [hexec he, hstat he, hlist he])]
    rfl
  refine ⟨hvol, fun op hop => hcount ?_ ?_ ?_, hcount (not_exec_stat _) ?_ (by simp), hcount (not_exec_stat _) ?_ (by simp)⟩
  · exact fun he => hop (.inl he)
  · exact fun he => hop (.inr (.inl he))
  · exact fun he => hop (.inr (.inr (.inl he)))
  · simpa using ht.parent_ne
  · simpa using ht.ne

/-- A copy that is refused leaves everything as it is; one that is accepted goes on. -/
theorem handleCopy_course (h : env.Stores) (hd : resolveDestination env.platform r bases.pathBase source = some target) :
    match env.copyGuard v r source target with
    | some response => ∃ s', (env.handleCopy r source bases).run ⟨v, []⟩ = (.ok response, s') ∧ s'.volume = v
    | none => ∃ s₁, Accepted v source target s₁ ∧ s₁.calls.count (.listDir source true) = 0 ∧
      (env.handleCopy r source bases).run ⟨v, []⟩ =
        (if (env.sees v source 0).isDirectory then
          env.copyCollection r bases source target (env.sees v target 0).found
        else env.copyFile r bases source target (env.sees v target 0).found).run s₁ := by
  have ht := resolveDestination_apart hd
  obtain ⟨s₁, hrun₁, hvol₁, hcalls₁⟩ := assertLock_run h r target ⟨v, []⟩
  unfold Env.copyGuard Env.handleCopy
  rw [hd]
  dsimp only
  rw [Act.run_bind_ok (show (env.assertLock r target).run ⟨v, []⟩ = (.ok (env.lockAnswer v r target), s₁) from hrun₁)]
  cases hlock : env.lockAnswer v r target with
  | some response => exact ⟨s₁, rfl, hvol₁⟩
  | none =>
    have hvol : s₁.volume = v := hvol₁
    have hcount : s₁.calls.count (.stat source) = 0 := hcalls₁.count (not_exec_stat source)
    have hsource := statInner_run env source s₁
    rw [hcount, hvol] at hsource
    dsimp only
    rw [Act.run_bind_ok hsource]
    cases hfound : (env.sees v source 0).found with
    | false => exact ⟨s₁.record (.stat source), rfl, hvol⟩
    | true =>
      have hlooked : Looked v source target (s₁.record (.stat source)) := by
        apply looked_of_calls (show (s₁.record (.stat source)).volume = v from hvol) _ ht
        exact (hcalls₁.mono (fun op => .inl)).trans (calls_record (.inr (.inl rfl)))
      obtain ⟨s₂, horphan, hstat, hvol₂, haccepted, hcalls₂⟩ := overwrite_run env ht hlooked
      simp only [Bool.not_true, Bool.false_eq_true, ↓reduceIte]
      rw [Act.run_bind_ok horphan]
      cases ho : env.isOrphan v target with
      | true => exact ⟨s₂, rfl, hvol₂⟩
      | false =>
        simp only [Bool.false_eq_true, ↓reduceIte]
        rw [Act.run_bind_ok hstat]
        by_cases hover : env.isRefusedOverwrite v r target = true
        · have hcond := hover
          simp only [Env.isRefusedOverwrite, decide_eq_true_eq] at hcond
          rw [if_pos hcond]
          simp only [hover]
          exact ⟨_, rfl, hvol₂⟩
        · have hcond := hover
          simp only [Env.isRefusedOverwrite, decide_eq_true_eq] at hcond
          rw [if_neg hcond]
          simp only [hover]
          by_cases hdepth : (env.sees v source 0).isDirectory = true ∧ (!Env.isCopyDepth r) = true
          · rw [if_pos hdepth]
            refine ⟨s₂.record (.stat target), ?_, haccepted.volume⟩
            have hbad : r.depth.getD (js "infinity") ≠ js "0" ∧ r.depth.getD (js "infinity") ≠ js "infinity" := by
              simpa [Env.isCopyDepth] using hdepth.2
            unfold Env.copyCollection
            rw [if_pos hdepth.1]
            dsimp only
            rw [if_pos hbad]
            rfl
          · rw [if_neg hdepth]
            have hlist : (s₂.record (.stat target)).calls.count (.listDir source true) = 0 := by
              rw [hcalls₂.count (by simp), show (s₁.record (.stat source)).calls = .stat source :: s₁.calls from rfl,
                List.count_cons_of_ne (by simp)]
              exact hcalls₁.count (not_exec_listDir source)
            refine ⟨_, haccepted, hlist, ?_⟩
            by_cases hdir : (env.sees v source 0).isDirectory = true
            · rw [if_pos hdir]
            · rw [if_neg hdir]

theorem moveTo_course (ht : Apart source target) {s : Session} (hs : Looked v source target s) (isCollection : Bool) :
    match (if env.isOrphan v target then some Response.conflict
      else if env.isRefusedOverwrite v r target then some .preconditionFailed else none) with
    | some response => ∃ s', (env.moveTo r bases source target isCollection).run s = (.ok response, s') ∧ s'.volume = v
    | none => ∃ s₁, Accepted v source target s₁ ∧ (env.moveTo r bases source target isCollection).run s =
        (env.moveOver r bases source target isCollection (env.sees v target 0).found).run s₁ := by
  obtain ⟨s₂, horphan, hstat, hvol₂, haccepted, _⟩ := overwrite_run env ht hs
  unfold Env.moveTo
  rw [Act.run_bind_ok horphan]
  cases ho : env.isOrphan v target with
  | true => exact ⟨s₂, rfl, hvol₂⟩
  | false =>
    simp only [Bool.false_eq_true, ↓reduceIte]
    rw [Act.run_bind_ok hstat]
    by_cases hover : env.isRefusedOverwrite v r target = true
    · have hcond := hover
      simp only [Env.isRefusedOverwrite, decide_eq_true_eq] at hcond
      rw [if_pos hcond]
      simp only [hover]
      exact ⟨_, rfl, hvol₂⟩
    · have hcond := hover
      simp only [Env.isRefusedOverwrite, decide_eq_true_eq] at hcond
      rw [if_neg hcond]
      simp only [hover]
      exact ⟨_, haccepted, rfl⟩

/-- A move that is refused leaves everything as it is; one that is accepted goes on. -/
theorem handleMove_course (h : env.Stores) (hd : resolveDestination env.platform r bases.pathBase source = some target) :
    match env.moveGuard v r source target with
    | some response => ∃ s', (env.handleMove r source bases).run ⟨v, []⟩ = (.ok response, s') ∧ s'.volume = v
    | none => ∃ s₁, Accepted v source target s₁ ∧ (env.handleMove r source bases).run ⟨v, []⟩ =
        (env.moveOver r bases source target (env.sees v source 0).isDirectory (env.sees v target 0).found).run s₁ := by
  have ht := resolveDestination_apart hd
  obtain ⟨s₁, hrun₁, hvol₁, hcalls₁⟩ := assertLock_run h r source ⟨v, []⟩
  unfold Env.moveGuard Env.handleMove
  rw [hd]
  dsimp only
  rw [Act.run_bind_ok (show (env.assertLock r source).run ⟨v, []⟩ = (.ok (env.lockAnswer v r source), s₁) from hrun₁)]
  cases hlock : env.lockAnswer v r source with
  | some response => exact ⟨s₁, rfl, hvol₁⟩
  | none =>
    have hvol : s₁.volume = v := hvol₁
    obtain ⟨s₂, hrun₂, hvol₂, hcalls₂⟩ := assertLock_run h r target s₁
    rw [hvol] at hrun₂ hvol₂
    dsimp only
    rw [Act.run_bind_ok hrun₂]
    cases hlock' : env.lockAnswer v r target with
    | some response => exact ⟨s₂, rfl, hvol₂⟩
    | none =>
      have hcalls : Session.Calls Op.IsExec ⟨v, []⟩ s₂ := hcalls₁.trans hcalls₂
      have hcount : s₂.calls.count (.stat source) = 0 := hcalls.count (not_exec_stat source)
      have hsource := statInner_run env source s₂
      rw [hcount, hvol₂] at hsource
      dsimp only
      rw [Act.run_bind_ok hsource]
      cases hfound : (env.sees v source 0).found with
      | false => exact ⟨s₂.record (.stat source), rfl, hvol₂⟩
      | true =>
        let s₃ : Session := s₂.record (.stat source)
        have hvol₃ : s₃.volume = v := hvol₂
        have hcalls₃ : Session.Calls (fun op => op.IsExec ∨ op = .stat source ∨ op = .listDir source true) ⟨v, []⟩ s₃ :=
          (hcalls.mono (fun op => .inl)).trans (calls_record (.inr (.inl rfl)))
        have hdepth : r.depth.any (fun d => env.platform.toLowerCase (trim d) ≠ js "infinity") = !env.isMoveDepth r := by
          unfold Env.isMoveDepth
          cases r.depth <;> simp
        simp only [Bool.not_true, Bool.false_eq_true, ↓reduceIte, hdepth]
        cases hd' : env.isMoveDepth r with
        | false => exact ⟨s₃, rfl, hvol₃⟩
        | true =>
          simp only [Bool.not_true, Bool.false_eq_true, ↓reduceIte]
          cases hdir : (env.sees v source 0).isDirectory with
          | false => exact moveTo_course ht (looked_of_calls hvol₃ hcalls₃ ht) false
          | true =>
            obtain ⟨s₄, hrun₄, hvol₄, hcalls₄⟩ := refuseSubtree_run h r source s₃
            have hlist : s₃.calls.count (.listDir source true) = 0 := by
              rw [show s₃.calls = .stat source :: s₂.calls from rfl, List.count_cons_of_ne (by simp)]
              exact hcalls.count (not_exec_listDir source)
            rw [hlist, hvol₃] at hrun₄
            simp only [↓reduceIte]
            rw [Act.run_bind_ok hrun₄]
            cases hrefuse : env.refusal v r source 0 with
            | some response => exact ⟨s₄, rfl, hvol₄.trans hvol₃⟩
            | none =>
              have hcalls' := hcalls₃.trans (hcalls₄.mono (fun op hop => hop.imp id .inr))
              exact moveTo_course ht (looked_of_calls (hvol₄.trans hvol₃) hcalls' ht) true

theorem copyGuard_status {response : Response} (h : env.copyGuard v r source target = some response) :
    400 ≤ response.status := by
  unfold Env.copyGuard at h
  split at h
  · rename_i answer hlock
    obtain rfl : answer = response := Option.some_inj.mp h
    exact lockAnswer_status hlock
  · split at h
    · obtain rfl := Option.some_inj.mp h
      decide
    · split at h
      · obtain rfl := Option.some_inj.mp h
        decide
      · split at h
        · obtain rfl := Option.some_inj.mp h
          decide
        · split at h
          · obtain rfl := Option.some_inj.mp h
            decide
          · simp at h

theorem moveGuard_status {response : Response} (h : env.moveGuard v r source target = some response) :
    400 ≤ response.status := by
  unfold Env.moveGuard at h
  split at h
  · rename_i answer hlock
    obtain rfl : answer = response := Option.some_inj.mp h
    exact lockAnswer_status hlock
  · split at h
    · rename_i answer hlock
      obtain rfl : answer = response := Option.some_inj.mp h
      exact lockAnswer_status hlock
    · split at h
      · obtain rfl := Option.some_inj.mp h
        decide
      · split at h
        · obtain rfl := Option.some_inj.mp h
          decide
        · split at h
          · rename_i answer hrefuse
            obtain rfl : answer = response := Option.some_inj.mp h
            split at hrefuse
            · exact refusal_status hrefuse
            · simp at hrefuse
          · split at h
            · obtain rfl := Option.some_inj.mp h
              decide
            · split at h
              · obtain rfl := Option.some_inj.mp h
                decide
              · simp at h

end Course

/-! ### What an accepted request does -/

/-- The volume without what is overwritten, or why it stays. -/
def Env.overwritten (env : Env) (v : Volume) (r : Request) (target : JsString) (destExists : Bool) :
    Except Response Volume := if destExists then env.removal v r target 1 else .ok v

section Accepted

variable {env : Env} {v : Volume} {r : Request} {source target : JsString} {bases : DavBases} {s : Session}

/-- The way from the accepted request over the removal of the destination. -/
theorem overwriting_run (h : env.Stores) (hs : Accepted v source target s) (hne : target ≠ source) (destExists : Bool) :
    ∃ answer s', (env.removeExisting r target destExists).run s = (.ok answer, s') ∧ s.Calls (Op.Removes target) s' ∧
      match env.overwritten v r target destExists with
      | .error response => answer = some response ∧ s'.volume = v
      | .ok v₁ => answer = none ∧ s'.volume = v₁ := by
  have hlooks {op : Op} (hexec : ¬ op.IsExec) (hstat : ∀ path, op ≠ .stat path) (hlist : op ≠ .listDir source true) :
      ¬ op.Looks source target := by
    rintro (he | he | he | he | he)
    exacts [hexec he, hstat _ he, hlist he, hstat _ he, hstat _ he]
  obtain ⟨answer, s', hrun, hcalls, hend⟩ := removeExisting_run h r target destExists s
    (hs.fresh _ (hlooks (by rintro ⟨st, hst⟩; simp at hst) (by simp) (by simpa using hne)))
    (hs.fresh _ (hlooks (by rintro ⟨st, hst⟩; simp at hst) (by simp) (by simp)))
    (hs.fresh _ (hlooks (by rintro ⟨st, hst⟩; simp at hst) (by simp) (by simp)))
  rw [hs.volume, hs.looked] at hend
  refine ⟨answer, s', hrun, hcalls, ?_⟩
  unfold Env.overwritten
  cases destExists with
  | true => exact hend
  | false =>
    obtain ⟨rfl, rfl⟩ := hend
    exact ⟨rfl, hs.volume⟩

/-- A call that is neither a look nor part of a removal was not made before. -/
theorem count_unmade {s' : Session} {op : Op} (hs : Accepted v source target s) (hcalls : s.Calls (Op.Removes target) s')
    (hlook : ¬ op.Looks source target) (hremove : ¬ op.Removes target) : s'.calls.count op = 0 := by
  rw [hcalls.count hremove, hs.fresh op hlook]

variable (bases) in
theorem copyFile_run (h : env.Stores) (hs : Accepted v source target s) (hne : target ≠ source) (destExists : Bool) :
    ∃ response s', (env.copyFile r bases source target destExists).run s = (.ok response, s') ∧
      match env.overwritten v r target destExists with
      | .error answer => response = answer ∧ s'.volume = v
      | .ok v₁ => match env.bytesCopied v₁ source target 0 0 with
        | .error e => response = Env.copyFailed e ∧ s'.volume = v₁
        | .ok v₂ => response = env.doneResponse bases target false destExists ∧
            s'.volume = v₂.copyMeta env.now source target false := by
  obtain ⟨answer, s₁, hrun₁, hcalls₁, hend₁⟩ := overwriting_run (r := r) h hs hne destExists
  unfold Env.copyFile
  rw [Act.run_bind_ok hrun₁]
  cases ho : env.overwritten v r target destExists with
  | error response =>
    rw [ho] at hend₁
    obtain ⟨rfl, hvol⟩ := hend₁
    exact ⟨response, s₁, rfl, rfl, hvol⟩
  | ok v₁ =>
    rw [ho] at hend₁
    obtain ⟨rfl, hvol⟩ := hend₁
    have hread : s₁.calls.count (.read source) = 0 :=
      count_unmade hs hcalls₁ (by simp [Op.Looks, Op.IsExec]) (by simp [Op.Removes, Op.IsExec])
    have hwrite : s₁.calls.count (.writeFile target) = 0 :=
      count_unmade hs hcalls₁ (by simp [Op.Looks, Op.IsExec]) (by simp [Op.Removes, Op.IsExec])
    obtain ⟨s₂, _, hend₂⟩ := copyBytes_run env source target s₁
    rw [hread, hwrite, hvol] at hend₂
    dsimp only
    cases hc : env.bytesCopied v₁ source target 0 0 with
    | error e =>
      rw [hc] at hend₂
      rw [Act.run_bind_ok (show (env.copyBytes source target).attempt.run s₁ = (.ok (.error e), s₂) by
        rw [Act.run_attempt, hend₂.1])]
      exact ⟨_, s₂, rfl, rfl, hend₂.2⟩
    | ok v₂ =>
      rw [hc] at hend₂
      obtain ⟨s₃, hrun₃, hvol₃, _⟩ := copyMeta_run h source target false s₂
      rw [Act.run_bind_ok (show (env.copyBytes source target).attempt.run s₁ = (.ok (.ok ()), s₂) by
        rw [Act.run_attempt, hend₂.1])]
      dsimp only
      rw [Act.run_bind_ok hrun₃]
      exact ⟨_, s₃, rfl, rfl, by rw [hvol₃, hend₂.2]⟩

variable (bases) in
theorem moveOver_run (h : env.Stores) (hs : Accepted v source target s) (hne : target ≠ source)
    (isCollection destExists : Bool) :
    ∃ response s', (env.moveOver r bases source target isCollection destExists).run s = (.ok response, s') ∧
      match env.overwritten v r target destExists with
      | .error answer => response = answer ∧ s'.volume = v
      | .ok v₁ => match env.renamed v₁ source target with
        | none => response = .internalServerError ∧ s'.volume = v₁
        | some v₂ => response = env.doneResponse bases target isCollection destExists ∧
            s'.volume = v₂.renameTables source target renameCascadeTables := by
  obtain ⟨answer, s₁, hrun₁, hcalls₁, hend₁⟩ := overwriting_run (r := r) h hs hne destExists
  unfold Env.moveOver
  rw [Act.run_bind_ok hrun₁]
  cases ho : env.overwritten v r target destExists with
  | error response =>
    rw [ho] at hend₁
    obtain ⟨rfl, hvol⟩ := hend₁
    exact ⟨response, s₁, rfl, rfl, hvol⟩
  | ok v₁ =>
    rw [ho] at hend₁
    obtain ⟨rfl, hvol⟩ := hend₁
    have hcount : s₁.calls.count (.rename source target) = 0 :=
      count_unmade hs hcalls₁ (by simp [Op.Looks, Op.IsExec]) (by simp [Op.Removes, Op.IsExec])
    obtain ⟨s₂, _, hend₂⟩ := rename_run env source target s₁ hcount
    rw [hvol] at hend₂
    dsimp only
    cases hr : env.renamed v₁ source target with
    | none =>
      rw [hr] at hend₂
      obtain ⟨⟨e, hrun₂⟩, hvol₂⟩ := hend₂
      rw [Act.run_bind_ok hrun₂]
      exact ⟨_, s₂, rfl, rfl, hvol₂⟩
    | some v₂ =>
      rw [hr] at hend₂
      obtain ⟨s₃, hrun₃, hvol₃, _⟩ := renameCascade_run h source target s₂
      rw [Act.run_bind_ok hend₂.1]
      dsimp only
      rw [Act.run_bind_ok hrun₃]
      exact ⟨_, s₃, rfl, rfl, by rw [hvol₃, hend₂.2]⟩

end Accepted

end DurableDav.Dav
