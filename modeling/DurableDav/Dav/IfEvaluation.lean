import DurableDav.Dav.IfHeader
import DurableDav.Dav.OneEtag
import DurableDav.Dav.Covering

namespace DurableDav.Dav

open Library
open Replication (Bytes isValidInnerPath parentOf)

/-! ### What the header says -/

section Meaning

variable (env : Env) (v : Volume) (path : JsString)

/-- A state token is true where an unexpired lock with it covers the target, an entity tag where it is the current one. -/
def Subject.Holds : Subject → Prop
  | token u => ∃ e ∈ v.locks, env.now < e.2.expiresAt ∧ e.2.Covers path ∧
      normalizeLockToken e.1 = normalizeLockToken u.text
  | etag _ e _ => v.files.found path = true ∧ (Store.get v.nodes path).bind NodeRow.etag = some e.text

instance (s : Subject) : Decidable (s.Holds env v path) := by
  cases s <;> (unfold Subject.Holds; infer_instance)

def IfTest.Holds (c : IfTest) : Prop := c.negated = false ↔ c.subject.Holds env v path

instance (c : IfTest) : Decidable (c.Holds env v path) := by
  unfold IfTest.Holds
  infer_instance

def IfList.Holds (l : IfList) : Prop := ∀ c ∈ l.first :: l.rest, c.Holds env v path

instance (l : IfList) : Decidable (l.Holds env v path) := by
  unfold IfList.Holds
  infer_instance

/-- Every list is about the target; one that holds is enough. -/
def IfHeader.Holds (h : IfHeader) : Prop := ∃ l ∈ h.lists, l.Holds env v path

instance (h : IfHeader) : Decidable (h.Holds env v path) := by
  unfold IfHeader.Holds
  infer_instance

end Meaning

/-! ### What a PUT makes of it -/

/-- The conditions that are read: one of every list of a plain header, the first. -/
def IfHeader.read (p : Platform) (h : IfHeader) : List IfCondition :=
  if h.Plain then h.lists.map (fun l => l.first.read p) else parseIfHeader p (some h.render)

def IfHeader.Unreadable (p : Platform) (h : IfHeader) : Prop := h.read p = [] ∨ .unknown ∈ h.read p

def IfHeader.readEtags (p : Platform) (h : IfHeader) : List (JsString × Bool) := (h.read p).flatMap IfCondition.etags

/-- The header is all that a request is conditional on. -/
structure Incoming.OnlyIf (r : Incoming) (h : IfHeader) : Prop where
  ifHeader : r.ifHeader = some h.render
  ifMatch : r.ifMatch = none
  ifNoneMatch : r.ifNoneMatch = none
  ifUnmodifiedSince : r.ifUnmodifiedSince = none

namespace Env

variable (env : Env) (v : Volume) (r : Incoming) (path : JsString) (h : IfHeader)

/-- The path can name a file. -/
def NamesFile : Prop := path ≠ [] ∧ r.toRequest.endsInSlash env.platform = false

/-- The locks and the tree let the request pass. -/
structure LetsPass : Prop where
  selects : env.fails (.exec (.selectLocks path)) 0 = none
  unlocked : v.blocking env.now (r.toRequest.getRequestLockTokens env.platform) path = []
  placed : env.isOrphan v path = false
  file : ((env.sees v path 0).found && (env.sees v path 0).isDirectory) = false

/-- Entity tags are read of the header, and none of them matches the recorded one. -/
def Unmatched : Prop := h.readEtags env.platform ≠ [] ∧
  ∀ c ∈ h.readEtags env.platform, Incoming.ifEtagHolds (putRepresentation (env.rowRead v path)) c = false

/-- What is read of the header comes to what it says. -/
structure Weighs : Prop where
  spared : h.Holds env v path → env.NamesFile r path →
    ¬ h.Unreadable env.platform ∧ (env.LetsPass v r path → ¬ env.Unmatched v path h)
  refused : ¬ h.Holds env v path → env.NamesFile r path ∧
    (h.Unreadable env.platform ∨ env.LetsPass v r path ∧ env.Unmatched v path h)

end Env

section Refusal

variable {env : Env} {v : Volume} {r : Incoming} {path : JsString} {h : IfHeader} {n : ℕ}

theorem read_eq (p : Platform) (h : IfHeader) : parseIfHeader p (some h.render) = h.read p := by
  unfold IfHeader.read
  split
  · exact parse_plain (by assumption)
  · rfl

theorem render_ne_nil (h : IfHeader) : h.render ≠ [] := by
  simp [IfHeader.render, IfHeader.lists, IfList.render]

theorem unreadable_iff (hr : r.OnlyIf h) :
    r.toRequest.hasAlwaysFalseIfCondition env.platform = true ↔ h.Unreadable env.platform := by
  unfold Request.hasAlwaysFalseIfCondition IfHeader.Unreadable
  rw [hr.ifHeader]
  simp [render_ne_nil, read_eq]

theorem check_onlyIf (hr : r.OnlyIf h) :
    r.check env.platform (Env.putRepresentation (env.rowRead v path)) false =
      if r.ifHeaderFails env.platform (Env.putRepresentation (env.rowRead v path)) then
        some (.preconditionFailed (js "If")) else none := by
  have hmatch : r.ifMatchFails (Env.putRepresentation (env.rowRead v path)) = false := by
    simp [Incoming.ifMatchFails, hr.ifMatch]
  have hunmodified : r.ifUnmodifiedSinceFails env.platform (Env.putRepresentation (env.rowRead v path)) = false := by
    simp [Incoming.ifUnmodifiedSinceFails, hr.ifUnmodifiedSince]
  have hnone : r.ifNoneMatchHits (Env.putRepresentation (env.rowRead v path)) = false := by
    simp [Incoming.ifNoneMatchHits, hr.ifNoneMatch]
  simp [Incoming.check, hmatch, hunmodified, hnone]

theorem ifHeaderFails_iff (hr : r.OnlyIf h) :
    r.ifHeaderFails env.platform (Env.putRepresentation (env.rowRead v path)) = true ↔ env.Unmatched v path h := by
  unfold Incoming.ifHeaderFails Env.Unmatched IfHeader.readEtags Request.getIfHeaderEtags
  rw [hr.ifHeader, read_eq]
  generalize (h.read env.platform).flatMap IfCondition.etags = tags
  simp

theorem putRecord_answer (plan : Env.PutPlan) (s : Session) :
    ∃ response s', (env.putRecord plan).run s = (.ok response, s') ∧ response.status ≠ 412 := by
  unfold Env.putRecord Env.upsertFileNode Env.upsertNode
  refine ⟨_, _, rfl, ?_⟩
  cases plan.existed <;> simp [Response.noContent, Response.createdEmpty, Response.text]

theorem putWrite_answer (plan : Env.PutPlan) (s : Session) :
    (∃ s', (env.putWrite plan n).run s = (.ok (.ok ()), s')) ∨
      ∃ response s', (env.putWrite plan n).run s = (.ok (.error response), s') ∧ response.status ≠ 412 := by
  unfold Env.putWrite
  cases plan.request.readCappedBody n with
  | none => exact .inr ⟨_, _, rfl, by simp [Response.payloadTooLarge, Response.text]⟩
  | some bytes =>
    dsimp only
    cases hwrite : (env.writeFile plan.path bytes).run s with
    | mk written s₁ =>
      have hattempt : (env.writeFile plan.path bytes).attempt.run s = (.ok written, s₁) := by
        rw [Act.run_attempt, hwrite]
      rw [Act.run_bind_ok hattempt]
      cases written with
      | error failure => exact .inr ⟨_, _, rfl, by simp [Response.insufficientStorage, Response.text]⟩
      | ok _ => exact .inl ⟨_, rfl⟩

/-- Once it is admitted a PUT is not refused for a condition. -/
theorem put_admitted {plan : Env.PutPlan} {s s₁ : Session} (hrun : (env.putAdmit r path).run s = (.ok (.ok plan), s₁)) :
    ∃ response s', (env.handlePut r path n).run s = (.ok response, s') ∧ response.status ≠ 412 := by
  unfold Env.handlePut
  rw [Act.run_bind_ok hrun]
  rcases putWrite_answer (n := n) plan s₁ with ⟨s₂, hwrite⟩ | ⟨response, s₂, hwrite, hstatus⟩
  · dsimp only
    rw [Act.run_bind_ok hwrite]
    exact putRecord_answer plan s₂
  · dsimp only
    rw [Act.run_bind_ok hwrite]
    exact ⟨response, s₂, rfl, hstatus⟩

theorem put_refused_iff : v.statusOf (env.handlePut r path n) = some 412 ↔
    ∃ response s, (env.putAdmit r path).run ⟨v, []⟩ = (.ok (.error response), s) ∧ response.status = 412 := by
  unfold Volume.statusOf
  cases hrun : (env.putAdmit r path).run ⟨v, []⟩ with
  | mk admitted s =>
    cases admitted with
    | error failure =>
      have hput : (env.handlePut r path n).run ⟨v, []⟩ = (.error failure, s) := Act.run_bind_error hrun
      simp [hput, Except.toOption]
    | ok admitted =>
      cases admitted with
      | error response =>
        have hput : (env.handlePut r path n).run ⟨v, []⟩ = (.ok response, s) := Act.run_bind_ok hrun
        simp [hput, Except.toOption]
      | ok plan =>
        obtain ⟨response, s', hput, hstatus⟩ := put_admitted (n := n) hrun
        simp [hput, Except.toOption, hstatus]

theorem orphaned_first (hvalid : isValidInnerPath path = true) (hroot : path ≠ []) {s : Session}
    (hcount : ∀ q, s.calls.count (.stat q) = 0) : ∃ s', (env.orphaned path).run s = (.ok (env.isOrphan s.volume path), s') ∧
      s.Spares (.stat path) s' ∧ s.Spares (.exec (.selectNode path)) s' := by
  have hne : Op.stat (parentOf path) ≠ .stat path := fun he => parent_ne_self hroot (Op.stat.inj he)
  unfold Env.orphaned Env.isOrphan
  rw [getParentPath_eq hvalid]
  by_cases hp : parentOf path = []
  · rw [if_pos hp]
    exact ⟨s, by simp [hp], refl_of _ s, refl_of _ s⟩
  · rw [if_neg hp, Act.run_bind_ok (statInner_run env _ s), hcount]
    refine ⟨s.record (.stat (parentOf path)), by simp [hp], ⟨rfl, List.count_cons_of_ne hne⟩, ⟨rfl, ?_⟩⟩
    exact List.count_cons_of_ne (by simp)

/-- The checks up to the conditions of a PUT, where the locks are read. -/
theorem putAdmit_checks (hvalid : isValidInnerPath path = true) (hr : r.OnlyIf h) (hn : env.NamesFile r path)
    (hread : ¬ h.Unreadable env.platform) (hselects : env.fails (.exec (.selectLocks path)) 0 = none) : ∃ s,
      (env.putAdmit r path).run ⟨v, []⟩ = (.ok (
        if v.blocking env.now (r.toRequest.getRequestLockTokens env.platform) path = [] then
          if env.isOrphan v path then .error .conflict
          else if (env.sees v path 0).found ∧ (env.sees v path 0).isDirectory then .error .methodNotAllowed
          else if r.ifHeaderFails env.platform (Env.putRepresentation (env.rowRead v path)) then
            .error (Verdict.preconditionFailed (js "If")).response
          else .ok ⟨r, path, (env.sees v path 0).found, env.rowRead v path⟩
        else .error .locked), s) := by
  have hfalse : r.toRequest.hasAlwaysFalseIfCondition env.platform = false := by
    simpa using mt (unreadable_iff hr).mp hread
  unfold Env.putAdmit
  rw [if_neg (by simp [hn.1, hn.2])]
  by_cases hlocks : v.blocking env.now (r.toRequest.getRequestLockTokens env.platform) path = []
  · have hlock : (env.assertLock r.toRequest path).run ⟨v, []⟩ =
        (.ok none, Session.record ⟨v, []⟩ (.exec (.selectLocks path))) := by
      unfold Env.assertLock
      rw [hfalse, if_neg Bool.false_ne_true, Env.exec, call_run hselects]
      simp only [Act.run_bind, Act.run_read, Session.record, hlocks, ↓reduceIte, Act.run_pure]
    obtain ⟨s₁, horphan, hstat, hnode⟩ := orphaned_first hvalid hn.1
      (s := Session.record ⟨v, []⟩ (.exec (.selectLocks path))) (fun q => by simp [Session.record])
    rw [if_pos hlocks, Act.run_bind_ok hlock]
    dsimp only
    rw [Act.run_bind_ok horphan]
    by_cases ho : env.isOrphan v path = true
    · exact ⟨s₁, by simp [Session.record, ho]⟩
    · have hvol : s₁.volume = v := hstat.1
      have hstatted : s₁.calls.count (.stat path) = 0 := by simpa [Session.record] using hstat.2
      have hasked : s₁.calls.count (.exec (.selectNode path)) = 0 := by simpa [Session.record] using hnode.2
      have hlook := statInner_run env path s₁
      rw [hvol, hstatted] at hlook
      rw [if_neg ho, if_neg (by simpa [Session.record] using ho), Act.run_bind_ok hlook]
      by_cases hdir : (env.sees v path 0).found ∧ (env.sees v path 0).isDirectory
      · rw [if_pos hdir, if_pos hdir]
        exact ⟨_, rfl⟩
      · rw [if_neg hdir, if_neg hdir, Act.run_bind_ok (readMeta_run (by simpa [Session.record] using hasked)),
          show (s₁.record (.stat path)).volume = v from hvol, check_onlyIf hr]
        by_cases hfails : r.ifHeaderFails env.platform (Env.putRepresentation (env.rowRead v path)) = true
        · exact ⟨_, by simp only [hfails, ↓reduceIte]; rfl⟩
        · exact ⟨_, by simp only [hfails, Bool.false_eq_true, ↓reduceIte]; rfl⟩
  · have hlock : (env.assertLock r.toRequest path).run ⟨v, []⟩ =
        (.ok (some .locked), Session.record ⟨v, []⟩ (.exec (.selectLocks path))) := by
      unfold Env.assertLock
      rw [hfalse, if_neg Bool.false_ne_true, Env.exec, call_run hselects]
      simp only [Act.run_bind, Act.run_read, Session.record, hlocks, ↓reduceIte, Act.run_pure]
    rw [if_neg hlocks, Act.run_bind_ok hlock]
    exact ⟨_, rfl⟩

/-- Where the locks cannot be read the request is not answered at all. -/
theorem putAdmit_fails (hr : r.OnlyIf h) (hn : env.NamesFile r path) (hread : ¬ h.Unreadable env.platform)
    (hselects : env.fails (.exec (.selectLocks path)) 0 ≠ none) :
    ∃ failure s, (env.putAdmit r path).run ⟨v, []⟩ = (.error failure, s) := by
  obtain ⟨failure, hfails⟩ := Option.ne_none_iff_exists'.mp hselects
  have hfalse : r.toRequest.hasAlwaysFalseIfCondition env.platform = false := by
    simpa using mt (unreadable_iff hr).mp hread
  have hlock : (env.assertLock r.toRequest path).run ⟨v, []⟩ =
      (.error failure, Session.record ⟨v, []⟩ (.exec (.selectLocks path))) := by
    unfold Env.assertLock
    rw [hfalse, if_neg Bool.false_ne_true, Env.exec, call_run_fails hfails]
  unfold Env.putAdmit
  rw [if_neg (by simp [hn.1, hn.2]), Act.run_bind_error hlock]
  exact ⟨_, _, rfl⟩

theorem putAdmit_unreadable (hr : r.OnlyIf h) (hn : env.NamesFile r path) (hread : h.Unreadable env.platform) :
    ∃ s, (env.putAdmit r path).run ⟨v, []⟩ = (.ok (.error .preconditionFailed), s) := by
  have hlock : (env.assertLock r.toRequest path).run ⟨v, []⟩ = (.ok (some .preconditionFailed), ⟨v, []⟩) := by
    unfold Env.assertLock
    rw [if_pos ((unreadable_iff hr).mpr hread)]
    rfl
  unfold Env.putAdmit
  rw [if_neg (by simp [hn.1, hn.2]), Act.run_bind_ok hlock]
  exact ⟨_, rfl⟩

theorem putAdmit_improper (hn : ¬ env.NamesFile r path) :
    (env.putAdmit r path).run ⟨v, []⟩ = (.ok (.error .methodNotAllowed), ⟨v, []⟩) := by
  unfold Env.putAdmit
  rw [if_pos]
  · rfl
  · by_contra hnot
    exact hn (by simpa [Env.NamesFile, not_or] using hnot)

/-- Which PUTs are refused with 412. -/
theorem refused_iff (hvalid : isValidInnerPath path = true) (hr : r.OnlyIf h) :
    v.statusOf (env.handlePut r path n) = some 412 ↔ env.NamesFile r path ∧
      (h.Unreadable env.platform ∨ env.LetsPass v r path ∧ env.Unmatched v path h) := by
  rw [put_refused_iff]
  by_cases hn : env.NamesFile r path
  · by_cases hread : h.Unreadable env.platform
    · obtain ⟨s, hrun⟩ := putAdmit_unreadable (v := v) hr hn hread
      exact iff_of_true ⟨_, s, hrun, rfl⟩ ⟨hn, .inl hread⟩
    · by_cases hselects : env.fails (.exec (.selectLocks path)) 0 = none
      · obtain ⟨s, hrun⟩ := putAdmit_checks (v := v) hvalid hr hn hread hselects
        have hcompare : env.LetsPass v r path ∧ env.Unmatched v path h ↔
            v.blocking env.now (r.toRequest.getRequestLockTokens env.platform) path = [] ∧ env.isOrphan v path = false ∧
              ¬ ((env.sees v path 0).found ∧ (env.sees v path 0).isDirectory) ∧
              r.ifHeaderFails env.platform (Env.putRepresentation (env.rowRead v path)) = true := by
          rw [ifHeaderFails_iff hr]
          constructor
          · rintro ⟨hpass, hun⟩
            exact ⟨hpass.unlocked, hpass.placed, by simpa using hpass.file, hun⟩
          · rintro ⟨hlocks, hplaced, hfile, hun⟩
            exact ⟨⟨hselects, hlocks, hplaced, by simpa using hfile⟩, hun⟩
        rw [or_iff_right hread, and_iff_right hn, hcompare, hrun]
        -- one refusal after the other, none but the last with this status
        by_cases hlocks : v.blocking env.now (r.toRequest.getRequestLockTokens env.platform) path = []
        · by_cases ho : env.isOrphan v path = true
          · simp [hlocks, ho, Response.conflict, Response.text]
          · by_cases hdir : (env.sees v path 0).found ∧ (env.sees v path 0).isDirectory
            · simp [hlocks, ho, hdir, Response.methodNotAllowed, Response.text]
            · by_cases hfails : r.ifHeaderFails env.platform (Env.putRepresentation (env.rowRead v path)) = true
              · simp [hlocks, ho, hdir, hfails, Verdict.response]
              · simp [hlocks, ho, hdir, hfails]
        · simp [hlocks, Response.locked, Response.text]
      · obtain ⟨failure, s, hrun⟩ := putAdmit_fails (v := v) hr hn hread hselects
        refine iff_of_false ?_ ?_
        · rintro ⟨response, s', hanswer, _⟩
          rw [hrun] at hanswer
          simp at hanswer
        · rintro ⟨_, hunreadable | ⟨hpass, _⟩⟩
          · exact hread hunreadable
          · exact hselects hpass.selects
  · refine iff_of_false ?_ (fun hp => hn hp.1)
    rintro ⟨response, s', hanswer, hstatus⟩
    rw [putAdmit_improper hn] at hanswer
    obtain rfl := Except.error.inj (Except.ok.inj (congrArg Prod.fst hanswer))
    simp [Response.methodNotAllowed, Response.text] at hstatus

end Refusal

/-! ### A stale entity tag behind a token -/

def blank : Space := ⟨[], nil_blank⟩

def lockUri : Uri where
  text := js "opaquelocktoken:" ++ lockUuid.val
  valid := by
    -- code by code, not over all of them
    have h : (js "opaquelocktoken:" ++ lockUuid.val).all (fun c => c ≠ 60 ∧ c ≠ 62 ∧ isIfWhitespace c = false) = true := by
      decide
    exact fun c hc => of_decide_eq_true (List.all_eq_true.mp h c hc)

def staleTag : EntityTag := ⟨false, js "stale", by decide⟩

def staleTest : IfTest := ⟨blank, none, .etag blank staleTag blank⟩

def tokenTest : IfTest := ⟨blank, none, .token lockUri⟩

def headerOf (first : IfTest) (rest : List IfTest) : IfHeader := ⟨⟨none, blank, first, rest, blank⟩, [], nil_untagged _⟩

def conditionalPut (h : IfHeader) : Incoming := { plainIncoming (js "http://h/o/v/f") with
  ifHeader := some h.render, body := [1, 2] }

def writtenLocked : Volume := Env.after (calmEnv.serve lockFile) writtenVolume

end DurableDav.Dav
