import DurableDav.Dav.OneEtag
import DurableDav.Dav.Covering
import DurableDav.Dav.Handling

namespace DurableDav.Dav

open Library
open Replication (Bytes isValidInnerPath parentOf)

/-! ### PUTs between their awaits -/

/-- A PUT that waits for its body, or for its write to come back. -/
structure PendingPut where
  plan : Env.PutPlan
  maxFileBytes : ℕ
  written : Bool

/-- The lock table under which bytes were written. -/
structure Overwrite where
  plan : Env.PutPlan
  tokens : List JsString
  now : ℕ
  locks : List (JsString × LockRow)

structure Traffic where
  volume : Volume
  pending : List PendingPut
  succeeded : List Env.PutPlan
  overwrites : List Overwrite

/-- The requests that are served without a wait in between. -/
def Verb.Whole : Verb → Prop
  | delete | move | lock _ | unlock => True
  | _ => False

instance (verb : Verb) : Decidable verb.Whole := by
  cases verb <;> (unfold Verb.Whole; infer_instance)

inductive Turn
  | arrive (env : Env) (r : Incoming) (path : JsString) (maxFileBytes : ℕ)
  | resume (env : Env) (i : ℕ)
  | request (env : Env) (x : Exchange) (h : x.verb.Whole)

namespace Traffic

def start (v : Volume) : Traffic := ⟨v, [], [], []⟩

def arrive (t : Traffic) (env : Env) (r : Incoming) (path : JsString) (maxFileBytes : ℕ) : Traffic :=
  if !isValidInnerPath path then t
  else match (env.putAdmit r path).run ⟨t.volume, []⟩ with
    | (.ok (.ok plan), s) => { t with volume := s.volume, pending := t.pending ++ [⟨plan, maxFileBytes, false⟩] }
    | (_, s) => { t with volume := s.volume }

/-- The body is there. -/
def write (t : Traffic) (env : Env) (i : ℕ) (p : PendingPut) : Traffic :=
  match (env.putWrite p.plan p.maxFileBytes).run ⟨t.volume, []⟩ with
  | (.ok (.ok _), s) => { t with
      volume := s.volume
      pending := t.pending.set i { p with written := true }
      overwrites := ⟨p.plan, p.plan.request.toRequest.getRequestLockTokens env.platform, env.now, t.volume.locks⟩ ::
        t.overwrites }
  | (_, s) => { t with volume := s.volume, pending := t.pending.eraseIdx i }

def record (t : Traffic) (env : Env) (i : ℕ) (p : PendingPut) : Traffic := { t with
  volume := Env.after (env.putRecord p.plan) t.volume
  pending := t.pending.eraseIdx i
  succeeded := p.plan :: t.succeeded }

def step (t : Traffic) : Turn → Traffic
  | .arrive env r path maxFileBytes => t.arrive env r path maxFileBytes
  | .resume env i => match t.pending[i]? with
    | none => t
    | some p => if p.written then t.record env i p else t.write env i p
  | .request env x _ => { t with volume := Env.after (env.serve x) t.volume }

end Traffic

/-! ### What the preconditions promise -/

/-- The validator that a PUT names in If-Match, the current one when it was admitted. -/
def Env.PutPlan.named (plan : Env.PutPlan) : Option JsString :=
  if plan.request.ifMatch.any (fun header => trim header ≠ js "*") then plan.previous.bind NodeRow.etag else none

/-- A PUT is to create its file, and to overwrite none. -/
def Env.PutPlan.creates (plan : Env.PutPlan) : Bool := plan.request.ifNoneMatch.any (fun header => trim header = js "*")

namespace Traffic

/-- Of the PUTs that name a validator, and of those that create a file, one succeeds at most; none gets past a lock. -/
structure Orderly (t : Traffic) : Prop where
  matched : ∀ path e, (t.succeeded.filter (fun plan => plan.path = path ∧ plan.named = some e)).length ≤ 1
  created : ∀ path, (t.succeeded.filter (fun plan => plan.path = path ∧ plan.creates)).length ≤ 1
  respected : ∀ w ∈ t.overwrites, ∀ e ∈ w.locks, w.now < e.2.expiresAt → e.2.scope = js "exclusive" →
    e.2.Covers w.plan.path → normalizeLockToken e.1 ∈ w.tokens.map normalizeLockToken

end Traffic

def Volume.tagAt (v : Volume) (path : JsString) : Option JsString := (Store.get v.nodes path).bind NodeRow.etag

namespace Traffic

variable (t : Traffic)

/-- What a PUT was held against is still there, and the validator it mints is a new one that is recorded. -/
structure StillMatches (env : Env) (plan : Env.PutPlan) : Prop where
  same : ∀ e, plan.named = some e → t.volume.tagAt plan.path = some e
  recorded : plan.named ≠ none → env.fails (.exec (.upsertNode plan.path)) 0 = none
  minted : ∀ other ∈ plan :: t.succeeded, other.path = plan.path →
    other.named ≠ some (mintEtag plan.request.body.length env.now)

/-- The checks that a PUT passed before it waited would be passed again. -/
def Rechecks (env : Env) (p : PendingPut) : Prop :=
  if p.written then t.StillMatches env p.plan
  else env.lockAnswer t.volume p.plan.request.toRequest p.plan.path = none

/-- A MOVE takes nothing along that records a validator some PUT has replaced. -/
def MovesNew (x : Exchange) : Prop := x.verb = .move → ∀ plan ∈ t.succeeded, ∀ e q, plan.named = some e →
  subtreePredicate x.path q = true → t.volume.tagAt q ≠ some e

end Traffic

def Turn.Proper (t : Traffic) : Turn → Prop
  | arrive .. => True
  | resume env i => ∀ p, t.pending[i]? = some p → t.Rechecks env p
  | request _ x _ => t.MovesNew x

/-- Every turn is proper where it is taken. -/
def Traffic.Proper : Traffic → List Turn → Prop
  | _, [] => True
  | t, turn :: turns => turn.Proper t ∧ Proper (t.step turn) turns

/-! ### The validators in the table -/

/-- No validator is written, and only certain rows are moved. -/
def Effect.Shifts (moved : JsString → Prop) : Effect → Prop
  | node _ row => row.etag = none
  | updatePaths source _ _ => moved source
  | _ => True

section Tags

variable {env : Env} {v v' : Volume} {moved : JsString → Prop}

/-- A validator that is recorded was recorded there before, or where something was moved from. -/
def Volume.TagsFrom (v : Volume) (moved : JsString → Prop) (v' : Volume) : Prop := ∀ q e, v'.tagAt q = some e →
  v.tagAt q = some e ∨ ∃ source q', moved source ∧ subtreePredicate source q' = true ∧ v.tagAt q' = some e

theorem tagAt_elim {q e : JsString} (h : v.tagAt q = some e) : ∃ row, Store.get v.nodes q = some row ∧ row.etag = some e :=
  Option.bind_eq_some_iff.mp h

theorem tagAt_of_get {q e : JsString} {row : NodeRow} (h : Store.get v.nodes q = some row) (he : row.etag = some e) :
    v.tagAt q = some e := Option.bind_eq_some_iff.mpr ⟨row, h, he⟩

theorem change_tags {e : Effect} {v₀ : Volume} (hc : Change v e v') (he : e.Shifts moved) (h : v₀.TagsFrom moved v) :
    v₀.TagsFrom moved v' := by
  intro q tag htag
  cases hc with
  | make | write | unlink | remove | rename | setProp | removeProp | grant | extend | release | noted => exact h q tag htag
  | node path row hrow =>
    obtain ⟨row', hget, hetag⟩ := tagAt_elim htag
    rw [upsertNode_get] at hget
    split at hget
    · obtain rfl := Option.some.inj hget
      rw [show row.etag = none from he] at hetag
      exact absurd hetag (by simp)
    · exact h q tag (tagAt_of_get hget hetag)
  | deleteRows path t =>
    cases t with
    | davNodes =>
      obtain ⟨row, hget, hetag⟩ := tagAt_elim htag
      have hall := Store.get_removeWhere v.nodes (deletePredicate path) q
      rw [show Store.get (Store.removeWhere v.nodes (deletePredicate path)) q = some row from hget] at hall
      split at hall
      · exact absurd hall (by simp)
      · exact h q tag (tagAt_of_get hall.symm hetag)
    | davProps | davLocks | davReplicaState => exact h q tag htag
  | updatePaths source target t v' ht hpaths =>
    obtain ⟨row, hget, hetag⟩ := tagAt_elim htag
    rcases updatePaths_nodes hpaths with hsame | hrekey
    · rw [hsame] at hget
      exact h q tag (tagAt_of_get hget hetag)
    · obtain ⟨q', hq, hget'⟩ := rekeyed_from hrekey hget
      by_cases hsel : subtreePredicate source q' = true
      · rcases h q' tag (tagAt_of_get hget' hetag) with hhere | hmoved
        · exact .inr ⟨source, q', he, hsel, hhere⟩
        · exact .inr hmoved
      · obtain rfl : q' = q := by
          unfold repath at hq
          rwa [if_neg hsel] at hq
        exact h q' tag (tagAt_of_get hget' hetag)

variable (env v) in
theorem serve_tags (x : Exchange) (hx : x.verb.Whole) :
    v.TagsFrom (fun source => x.verb = .move ∧ source = x.path) (Env.after (env.serve x) v) := by
  have hdestroys : ∀ {moved path} {e : Effect}, e.Destroys path → e.Shifts moved := by
    intro moved path e he
    cases e <;> trivial
  have hlocks : ∀ {moved path} {e : Effect}, e.LocksAt path → e.Shifts moved := by
    intro moved path e he
    cases e <;> trivial
  have hmakes : Makes (Effect.Shifts (fun source => x.verb = .move ∧ source = x.path)) (env.handle x) := by
    rcases x with ⟨verb, request, path, bases⟩
    cases verb with
    | put | mkcol | proppatch | copy => exact hx.elim
    | delete => exact makes_handleDelete fun _ h => hdestroys h
    | unlock => exact makes_handleUnlock (fun _ h => hdestroys h) (fun _ => trivial)
    | lock => exact makes_handleLock trivial (fun _ h => h) (fun _ h => hdestroys h) (fun _ h => hlocks h)
    | move =>
      refine makes_handleMove fun target _ e he => ?_
      rcases he with he | he
      · exact hdestroys he
      · cases e with
        | updatePaths => exact ⟨rfl, he.1⟩
        | rename => trivial
        | _ => exact he.elim
  exact makes_keeps (I := v.TagsFrom _) (fun e v₁ v₂ he hc hI => change_tags hc he hI) (serve_within hmakes) (fun q e h => .inl h)

end Tags

/-! ### One turn, and a run of them -/

section Turns

variable {env : Env} {t : Traffic} {r : Incoming} {path : JsString}

theorem putAdmit_checked {plan : Env.PutPlan} {s s' : Session} (h : (env.putAdmit r path).run s = (.ok (.ok plan), s')) :
    r.check env.platform (Env.putRepresentation plan.previous) false = none := by
  unfold Env.putAdmit at h
  split at h
  · simp at h
  · obtain ⟨locked, s₁, _, h⟩ := Act.of_run_bind h
    split at h
    · simp at h
    · obtain ⟨orphan, s₂, _, h⟩ := Act.of_run_bind h
      split at h
      · simp at h
      · obtain ⟨existing, s₃, _, h⟩ := Act.of_run_bind h
        split at h
        · simp at h
        · obtain ⟨previous, s₄, _, h⟩ := Act.of_run_bind h
          split at h
          · simp at h
          · rename_i hcheck
            obtain rfl := Except.ok.inj (Act.of_run_pure h).1
            exact hcheck

/-- A PUT that is to overwrite nothing is never admitted. -/
theorem creates_of_check {plan : Env.PutPlan} {p : Platform} {c : Representation}
    (h : plan.request.check p c false = none) : plan.creates = false := by
  unfold Env.PutPlan.creates
  cases hn : plan.request.ifNoneMatch with
  | none => rfl
  | some header =>
    by_contra hstar
    have hhits : plan.request.ifNoneMatchHits c = true := by
      unfold Incoming.ifNoneMatchHits
      rw [hn]
      simp_all
    unfold Incoming.check at h
    rw [hhits] at h
    split at h
    · simp at h
    · split at h <;> simp at h

namespace Traffic

/-- Nothing that was replaced is recorded, and what waits was checked. -/
structure Kept (t : Traffic) : Prop where
  checked : ∀ p ∈ t.pending, isValidInnerPath p.plan.path = true ∧ p.plan.creates = false
  creates : ∀ plan ∈ t.succeeded, plan.creates = false
  replaced : ∀ plan ∈ t.succeeded, ∀ e, plan.named = some e → t.volume.tagAt plan.path ≠ some e
  orderly : t.Orderly

theorem kept_start (v : Volume) : (start v).Kept :=
  ⟨by simp [start], by simp [start], by simp [start], ⟨by simp [start], by simp [start], by simp [start]⟩⟩

theorem Orderly.congr {t t' : Traffic} (h : t.Orderly) (hs : t'.succeeded = t.succeeded)
    (ho : t'.overwrites = t.overwrites) : t'.Orderly :=
  ⟨hs ▸ h.matched, hs ▸ h.created, ho ▸ h.respected⟩

theorem admit_volume (env : Env) (t : Traffic) (r : Incoming) (path : JsString) :
    ((env.putAdmit r path).run ⟨t.volume, []⟩).2.volume = t.volume := by
  have hmakes : Makes (fun _ => False) (env.putAdmit r path) := makes_putAdmit
  exact leads_keeps (I := fun v => v = t.volume) (fun _ _ _ he => he.elim) (hmakes ⟨t.volume, []⟩) rfl

theorem kept_arrive (h : t.Kept) (n : ℕ) : (t.arrive env r path n).Kept := by
  have hsame := admit_volume env t r path
  unfold arrive
  split
  · exact h
  · rename_i hvalid
    split
    · rename_i plan s hrun
      have hvol : s.volume = t.volume := by rwa [hrun] at hsame
      refine ⟨?_, h.creates, by simpa only [hvol] using h.replaced, h.orderly.congr rfl rfl⟩
      intro p hp
      rcases List.mem_append.mp hp with hp | hp
      · exact h.checked p hp
      · obtain rfl := List.mem_singleton.mp hp
        have hchecked := putAdmit_checked hrun
        obtain ⟨rfl, rfl⟩ := putAdmit_plan hrun
        exact ⟨by simpa using hvalid, creates_of_check hchecked⟩
    · rename_i admitted s _ hrun
      have hvol : s.volume = t.volume := by rwa [hrun] at hsame
      exact ⟨h.checked, h.creates, by simpa only [hvol] using h.replaced, h.orderly.congr rfl rfl⟩

/-- The write of the bytes leaves the rows and the locks as they are. -/
theorem putWrite_rows (env : Env) (plan : Env.PutPlan) (n : ℕ) (v : Volume) :
    ((env.putWrite plan n).run ⟨v, []⟩).2.volume.nodes = v.nodes := by
  have hmakes : Makes (fun e => e = .write plan.path) (env.putWrite plan n) := makes_putWrite rfl
  refine leads_keeps (I := fun v' => v'.nodes = v.nodes) (fun e v₁ v₂ he hc hI => ?_) (hmakes ⟨v, []⟩) rfl
  obtain rfl := he
  cases hc
  exact hI

theorem tagAt_congr {v v' : Volume} (h : v'.nodes = v.nodes) (path : JsString) : v'.tagAt path = v.tagAt path := by
  unfold Volume.tagAt
  rw [h]

theorem kept_write {p : PendingPut} {i : ℕ} (h : t.Kept) (hp : t.pending[i]? = some p) (hre : t.Rechecks env p)
    (hwritten : p.written = false) : (t.write env i p).Kept := by
  have hmem : p ∈ t.pending := List.mem_of_getElem? hp
  have hrows := putWrite_rows env p.plan p.maxFileBytes t.volume
  have hlocks : env.lockAnswer t.volume p.plan.request.toRequest p.plan.path = none := by
    simpa [Rechecks, hwritten] using hre
  unfold write
  split
  · rename_i written s hrun
    rw [hrun] at hrows
    refine ⟨?_, h.creates, ?_, ⟨h.orderly.matched, h.orderly.created, ?_⟩⟩
    · intro q hq
      rcases List.mem_or_eq_of_mem_set hq with hq | rfl
      · exact h.checked q hq
      · exact h.checked p hmem
    · intro plan hplan e he
      rw [tagAt_congr hrows]
      exact h.replaced plan hplan e he
    · intro w hw e he hlive hscope hcovers
      rcases List.mem_cons.mp hw with rfl | hw
      · by_contra htoken
        have hblocking := (mem_blocking (h.checked p hmem).1).mpr ⟨he, hlive, hcovers, htoken⟩
        unfold Env.lockAnswer at hlocks
        split at hlocks
        · simp at hlocks
        · split at hlocks
          · rename_i hnone
            rw [hnone] at hblocking
            simp at hblocking
          · simp at hlocks
      · exact h.orderly.respected w hw e he hlive hscope hcovers
  · rename_i written s hrun
    rw [hrun] at hrows
    refine ⟨fun q hq => h.checked q (List.mem_of_mem_eraseIdx hq), h.creates, ?_, h.orderly.congr rfl rfl⟩
    intro plan hplan e he
    rw [tagAt_congr hrows]
    exact h.replaced plan hplan e he

/-- The row that a PUT leaves, if its upsert is not lost. -/
theorem putRecord_nodes (env : Env) (plan : Env.PutPlan) (v : Volume) :
    (Env.after (env.putRecord plan) v).nodes = if env.fails (.exec (.upsertNode plan.path)) 0 = none then
      (v.upsertNode plan.path ⟨false, some (plan.request.contentType.getD (js "application/octet-stream")),
        some (mintEtag plan.request.body.length env.now), env.now, (plan.previous.map NodeRow.crtime).getD env.now, false⟩).nodes
    else v.nodes := by
  unfold Env.after Env.putRecord Env.upsertFileNode Env.upsertNode
  simp only [Act.run_bind, Act.run_attempt, Act.run_pure, Env.exec, run_call, List.count_nil]
  cases env.fails (.exec (.upsertNode plan.path)) 0 <;> rfl

theorem putRecord_tagAt (env : Env) (plan : Env.PutPlan) (v : Volume) (path : JsString) :
    (Env.after (env.putRecord plan) v).tagAt path =
      if env.fails (.exec (.upsertNode plan.path)) 0 = none ∧ path = plan.path then
        some (mintEtag plan.request.body.length env.now) else v.tagAt path := by
  unfold Volume.tagAt
  rw [putRecord_nodes]
  by_cases hf : env.fails (.exec (.upsertNode plan.path)) 0 = none
  · rw [if_pos hf, upsertNode_get]
    by_cases hp : path = plan.path
    · simp [hf, hp]
    · simp [hp]
  · simp [hf]

theorem kept_record {p : PendingPut} {i : ℕ} (h : t.Kept) (hp : t.pending[i]? = some p) (hre : t.Rechecks env p)
    (hwritten : p.written = true) : (t.record env i p).Kept := by
  have hmem : p ∈ t.pending := List.mem_of_getElem? hp
  have hstill : t.StillMatches env p.plan := by simpa [Rechecks, hwritten] using hre
  obtain ⟨_, hcreates⟩ := h.checked p hmem
  have hfresh : ∀ plan ∈ t.succeeded, ∀ e, plan.named = some e → p.plan.named = some e → plan.path ≠ p.plan.path := by
    intro plan hplan e he hself hpath
    exact h.replaced plan hplan e he (hpath ▸ hstill.same e hself)
  refine ⟨fun q hq => h.checked q (List.mem_of_mem_eraseIdx hq), ?_, ?_, ⟨?_, ?_, h.orderly.respected⟩⟩
  · exact List.forall_mem_cons.mpr ⟨hcreates, h.creates⟩
  · intro plan hplan e he
    show (Env.after (env.putRecord p.plan) t.volume).tagAt plan.path ≠ some e
    rw [putRecord_tagAt]
    split
    · rename_i hput
      intro hminted
      exact hstill.minted plan hplan hput.2 (he.trans hminted.symm)
    · rename_i hnot
      rcases List.mem_cons.mp hplan with rfl | hplan
      · exact absurd ⟨hstill.recorded (by simp [he]), rfl⟩ hnot
      · exact h.replaced plan hplan e he
  · intro path e
    show ((p.plan :: t.succeeded).filter _).length ≤ 1
    rw [List.filter_cons]
    split
    · rename_i hsel
      obtain ⟨rfl, hself⟩ := of_decide_eq_true hsel
      have hnone : t.succeeded.filter (fun plan => plan.path = p.plan.path ∧ plan.named = some e) = [] := by
        apply List.filter_eq_nil_iff.mpr
        intro plan hplan hsel'
        obtain ⟨hpath, hnamed⟩ := of_decide_eq_true hsel'
        exact hfresh plan hplan e hnamed hself hpath
      rw [hnone]
      simp
    · exact h.orderly.matched path e
  · intro path
    have hnone : (p.plan :: t.succeeded).filter (fun plan => plan.path = path ∧ plan.creates) = [] := by
      apply List.filter_eq_nil_iff.mpr
      intro plan hplan
      have hno : plan.creates = false := by
        rcases List.mem_cons.mp hplan with rfl | hplan
        · exact hcreates
        · exact h.creates plan hplan
      simp [hno]
    show ((p.plan :: t.succeeded).filter _).length ≤ 1
    rw [hnone]
    simp

theorem kept_request {x : Exchange} (h : t.Kept) (hx : x.verb.Whole) (hmoves : t.MovesNew x) :
    (t.step (.request env x hx)).Kept := by
  refine ⟨h.checked, h.creates, ?_, h.orderly.congr rfl rfl⟩
  intro plan hplan e he htag
  rcases serve_tags env t.volume x hx plan.path e htag with hhere | ⟨source, q, ⟨hverb, rfl⟩, hsel, hq⟩
  · exact h.replaced plan hplan e he hhere
  · exact hmoves hverb plan hplan e q he hsel hq

/-- What a proper turn keeps. -/
theorem kept_step {turn : Turn} (h : t.Kept) (hproper : turn.Proper t) : (t.step turn).Kept := by
  cases turn with
  | arrive env r path n => exact kept_arrive h n
  | request env x hx => exact kept_request h hx hproper
  | resume env i =>
    unfold step
    dsimp only
    cases hp : t.pending[i]? with
    | none => exact h
    | some p =>
      dsimp only
      split
      · exact kept_record h hp (hproper p hp) (by assumption)
      · exact kept_write h hp (hproper p hp) (by simp_all)

theorem kept_run {turns : List Turn} (h : t.Kept) (hproper : t.Proper turns) : (turns.foldl step t).Kept := by
  induction turns generalizing t with
  | nil => exact h
  | cons turn turns ih => exact ih (kept_step h hproper.1) hproper.2

/-- In a run in which what a PUT was checked for is still so whenever it resumes, the preconditions keep their promise. -/
theorem orderly_of_proper (v : Volume) (turns : List Turn) (hproper : (start v).Proper turns) :
    (turns.foldl step (start v)).Orderly := (kept_run (kept_start v) hproper).orderly

end Traffic

end Turns

/-! ### Two PUTs that name the same validator -/

def matchingRequest : Incoming := { plainIncoming (js "http://h/o/v/f") with
  ifMatch := some (mintEtag 2 9), body := [3] }

def arrival : Turn := .arrive calmEnv matchingRequest (js "f") 100

theorem one_put_orderly :
    ([arrival, .resume calmEnv 0, .resume calmEnv 0].foldl Traffic.step (Traffic.start writtenVolume)).Orderly := by
  refine Traffic.orderly_of_proper writtenVolume _ ⟨trivial, ?_, ?_, trivial⟩
  · intro p hp
    obtain rfl := Option.some.inj hp
    show calmEnv.lockAnswer _ _ _ = none
    decide
  · intro p hp
    obtain rfl := Option.some.inj hp
    refine ⟨fun e he => ?_, fun _ => rfl, ?_⟩
    · obtain rfl := Option.some.inj he
      decide
    · decide

/-- Both arrive before either has written. -/
theorem both_puts_succeed : ¬ ([arrival, arrival, .resume calmEnv 0, .resume calmEnv 0, .resume calmEnv 0,
    .resume calmEnv 0].foldl Traffic.step (Traffic.start writtenVolume)).Orderly := by
  intro h
  have htwo := h.matched (js "f") (mintEtag 2 9)
  revert htwo
  decide

end DurableDav.Dav
