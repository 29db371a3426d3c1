import DurableDav.Dav.Described
import DurableDav.Dav.SourceKept

namespace DurableDav.Dav

open Library
open Replication (Bytes isValidInnerPath parentOf)

/-! ### The validators of one resource -/

def getetag : DeadProperty := ⟨davNamespace, js "getetag", none, []⟩

namespace Env

variable (env : Env) (v : Volume) (path base : JsString)

/-- What PROPFIND reports as the validator of a path. -/
def Reports (e : JsString) : Prop := ∃ node s, (env.nodeInfo path base).run ⟨v, []⟩ = (.ok (some node), s) ∧
  getLivePropertyValue env.platform node getetag base = some e

/-- The row of a path as each of the handlers reads it. -/
def Reads (row : Option NodeRow) : Prop := ∃ s, (env.readMeta path).run ⟨v, []⟩ = (.ok row, s)

/-- A PUT whose only condition is that the validator is this one, and whether it is refused for that. -/
def Accepts (e : JsString) : Prop := ∀ (r : Incoming) s,
  r.ifMatch = some e → r.ifNoneMatch = none → r.ifHeader = none →
    (env.putAdmit r path).run ⟨v, []⟩ ≠ (.ok (.error (Verdict.preconditionFailed (js "If-Match")).response), s)

/-- A GET that asks for the file unless the validator is this one. -/
def Revalidates (e : JsString) : Prop := ∀ (r : Incoming) headOnly,
  r.ifMatch = none → r.ifUnmodifiedSince = none → r.ifNoneMatch = some e → r.toRequest.endsInSlash env.platform = false →
    ∃ s, (env.handleGet r path headOnly).run ⟨v, []⟩ = (.ok (.conditional (.notModified (some e))), s)

/-- There is one validator for the path: the one that is reported is sent, compared with and accepted. -/
structure OneEtag : Prop where
  sent : ∀ e r headOnly file s e', env.Reports v path base e →
    (env.handleGet r path headOnly).run ⟨v, []⟩ = (.ok (.file file), s) → file.etag = some e' → e' = e
  compared : ∀ e row st, env.Reports v path base e → env.Reads v path row →
    (putRepresentation row).etag = some e ∧ (getRepresentation row st).etag = some e
  accepted : ∀ e, env.Reports v path base e → env.Accepts v path e
  revalidated : ∀ e, env.Reports v path base e → env.Revalidates v path e

/-- The metadata row of the path can be read, and it records a validator. -/
def RecordsEtag : Prop := env.fails (.exec (.selectNode path)) 0 = none ∧
  ((Store.get v.nodes path).bind NodeRow.etag).isSome

end Env

/-! ### Validators match themselves -/

section Matching

theorem comma_notMem_hexadecimal (n : ℕ) : (44 : CodeUnit) ∉ hexadecimal n ∧ ∀ c ∈ hexadecimal n, isWhiteSpace c = false := by
  have hunit : ∀ d < 16, digitUnit d ≠ 44 ∧ isWhiteSpace (digitUnit d) = false := by decide
  have hall : ∀ c ∈ hexadecimal n, c ≠ 44 ∧ isWhiteSpace c = false := by
    intro c hc
    unfold hexadecimal inBase at hc
    split at hc
    · obtain rfl := List.mem_singleton.mp hc
      exact hunit 0 (by omega)
    · obtain ⟨d, hd, rfl⟩ := List.mem_map.mp (List.mem_reverse.mp hc)
      exact hunit d (Nat.digits_lt_base (by omega) hd)
  exact ⟨fun hm => (hall 44 hm).1 rfl, fun c hc => (hall c hc).2⟩

theorem comma_notMem_minted {e : JsString} (h : IsMinted e) : (44 : CodeUnit) ∉ e := by
  obtain ⟨size, now, rfl⟩ := h
  simp [mintEtag, (comma_notMem_hexadecimal size).1, (comma_notMem_hexadecimal now).1, dash]

theorem trim_minted {e : JsString} (h : IsMinted e) : trim e = e := by
  obtain ⟨size, now, rfl⟩ := h
  have hquote : isWhiteSpace 34 = false := by decide
  simp [mintEtag, trim, hquote]

theorem minted_ne_star {e : JsString} (h : IsMinted e) : trim e ≠ js "*" := by
  rw [trim_minted h]
  obtain ⟨size, now, rfl⟩ := h
  simp [mintEtag, js]

theorem matches_itself {e : JsString} (h : (44 : CodeUnit) ∉ e) : matchesEtagList e e = true := by
  simp [matchesEtagList, List.splitOn_eq_singleton h]

end Matching

/-! ### What the handlers read -/

section Reading

variable {env : Env} {v : Volume} {path base : JsString}

theorem reads_iff {row : Option NodeRow} : env.Reads v path row ↔ row = env.rowRead v path := by
  have hrun : (env.readMeta path).run ⟨v, []⟩ = _ := readMeta_run rfl
  constructor
  · rintro ⟨s, hs⟩
    rw [hrun] at hs
    exact (Except.ok.inj (congrArg Prod.fst hs)).symm
  · rintro rfl
    exact ⟨_, hrun⟩

theorem recordsEtag_iff : env.RecordsEtag v path ↔ ∃ e, (env.rowRead v path).bind NodeRow.etag = some e := by
  unfold Env.RecordsEtag Env.rowRead
  rw [← Option.isSome_iff_exists]
  split <;> simp_all

theorem live_getetag (p : Platform) (node : DavNodeInfo) (base : JsString) :
    getLivePropertyValue p node getetag base = if node.isCollection then none else node.etag := by
  have hns : ¬ getetag.namespaceURI ≠ davNamespace := by simp [getetag]
  have hname : ∀ name ∈ ["creationdate", "displayname", "getcontentlength", "getcontenttype"],
      (js "getetag" == js name) = false := by decide
  simp only [List.forall_mem_cons, List.not_mem_nil, false_implies, implies_true, and_true] at hname
  unfold getLivePropertyValue
  rw [if_neg hns]
  simp [getetag, toLiveProperties, List.lookup_cons, hname]

/-- What PROPFIND reports is what is recorded, or else a validator of its own. -/
theorem reports_elim {e : JsString} (h : env.Reports v path base e) :
    (env.sees v path 0).found = true ∧ (env.sees v path 0).isDirectory = false ∧
      e = ((env.rowRead v path).bind NodeRow.etag).getD
        (mintEtag (env.sees v path 0).size (((env.rowRead v path).map NodeRow.mtime).getD (env.sees v path 0).mtime)) := by
  obtain ⟨node, s, hrun, hlive⟩ := h
  obtain ⟨_, hfound, rfl⟩ := nodeInfo_elim hrun
  rw [live_getetag] at hlive
  split at hlive
  · exact absurd hlive (by simp)
  · rename_i hfile
    exact ⟨hfound, by simpa [Env.described, nodeOf] using hfile, (Option.some.inj hlive).symm⟩

variable (base) in
theorem reports_of_describes (h : env.Describes path) (hfound : v.files.found path = true)
    (hfile : v.files.isDirectory path = false) : ∃ e, env.Reports v path base e := by
  have hst : (env.sees v path 0).found = true := by rw [described_sees h, stat_found, hfound]
  have hdir : (env.sees v path 0).isDirectory = false := by rw [described_sees h, stat_isDirectory, hfile]
  obtain ⟨s, hrun, _⟩ := nodeInfo_run base h hst
  refine ⟨((env.described v path base).etag).getD [], _, s, hrun, ?_⟩
  rw [live_getetag]
  simp only [Env.described, nodeOf, hdir, Bool.false_eq_true, ↓reduceIte]
  rfl

end Reading

/-! ### The validator that is recorded -/

section Recorded

variable {env : Env} {v : Volume} {path base : JsString} {e : JsString}

/-- A GET of what is reported comes to the file. -/
theorem handleGet_file (h : env.Reports v path base e) (r : Incoming) (headOnly : Bool)
    (hslash : r.toRequest.endsInSlash env.platform = false) : (env.handleGet r path headOnly).run ⟨v, []⟩ =
      (env.getFile r path headOnly (env.sees v path 0)).run (Session.record ⟨v, []⟩ (.stat path)) := by
  obtain ⟨hfound, hfile, _⟩ := reports_elim h
  have hroot : path ≠ [] := by
    rintro rfl
    by_cases hlook : env.fails (.stat []) 0 = none
    · simp [Env.sees, hlook, Files.stat] at hfile
    · simp [Env.sees, hlook, missingStat] at hfound
  unfold Env.handleGet
  rw [Act.run_bind_ok (statInner_first env v path)]
  simp [hslash, hroot, hfile, hfound]

theorem getFile_run (r : Incoming) (headOnly : Bool) (st : StatResult) {verdict : Verdict}
    (h : r.check env.platform (Env.getRepresentation (env.rowRead v path) st) true = some verdict) :
    ∃ s, (env.getFile r path headOnly st).run (Session.record ⟨v, []⟩ (.stat path)) = (.ok (.conditional verdict), s) := by
  unfold Env.getFile
  rw [Act.run_bind_ok (readMeta_run (by simp [Session.record]))]
  simp only [Session.record, h]
  exact ⟨_, rfl⟩

theorem sent_reported (h : env.Reports v path base e) {r : Incoming} {headOnly : Bool} {file : Representing} {s : Session}
    {e' : JsString} (hrun : (env.handleGet r path headOnly).run ⟨v, []⟩ = (.ok (.file file), s))
    (hsent : file.etag = some e') : e' = e := by
  obtain ⟨hfound, hfile, rfl⟩ := reports_elim h
  unfold Env.handleGet at hrun
  rw [Act.run_bind_ok (statInner_first env v path)] at hrun
  split at hrun
  · split at hrun
    · simp at hrun
    · unfold Env.getListing at hrun
      split at hrun
      · simp at hrun
      · obtain ⟨names, s₁, _, hrun⟩ := Act.of_run_bind hrun
        obtain ⟨children, s₂, _, hrun⟩ := Act.of_run_bind hrun
        simp at hrun
  · simp only [hfound, Bool.not_true, Bool.false_eq_true, ↓reduceIte] at hrun
    unfold Env.getFile at hrun
    rw [Act.run_bind_ok (readMeta_run (by simp [Session.record]))] at hrun
    have hvol : (Session.record ⟨v, []⟩ (.stat path)).volume = v := rfl
    rw [hvol] at hrun
    generalize r.check env.platform _ true = checked at hrun
    cases checked with
    | some verdict => simp at hrun
    | none =>
      dsimp only at hrun
      split at hrun
      · simp at hrun
      · obtain ⟨data, s₁, _, hrun⟩ := Act.of_run_bind hrun
        cases data with
        | error failure => simp at hrun
        | ok data =>
          obtain ⟨hanswer, _⟩ := Act.of_run_pure hrun
          obtain rfl := GetAnswer.file.inj hanswer
          obtain ⟨hetag, _⟩ := Option.filter_eq_some_iff.mp hsent
          rw [hetag]
          rfl

theorem assertLock_answers {r : Request} {s s' : Session} {response : Response}
    (h : (env.assertLock r path).run s = (.ok (some response), s')) :
    response = .preconditionFailed ∨ response = .locked := by
  unfold Env.assertLock at h
  split at h
  · exact .inl (Option.some.inj (Act.of_run_pure h).1).symm
  · rw [Env.exec, run_call] at h
    cases hf : env.fails (.exec (.selectLocks path)) (s.calls.count (.exec (.selectLocks path))) with
    | some failure =>
      rw [hf] at h
      simp at h
    | none =>
      rw [hf] at h
      obtain ⟨s₁, s₂, _, h⟩ := Act.of_run_bind h
      split at h
      · simp at h
      · exact .inr (Option.some.inj (Act.of_run_pure h).1).symm

/-- What a PUT is refused with, if not for its conditions. -/
theorem putAdmit_refusal {r : Incoming} {s : Session} {response : Response}
    (hpasses : r.check env.platform (Env.putRepresentation (env.rowRead v path)) false = none)
    (h : (env.putAdmit r path).run ⟨v, []⟩ = (.ok (.error response), s)) :
    response ∈ [Response.methodNotAllowed, .conflict, .preconditionFailed, .locked] := by
  have hinj : ∀ {answer : Response} {s' : Session},
      (pure (.error answer) : Serve (Except Response Env.PutPlan)).run s' = (.ok (.error response), s) → answer = response :=
    fun h => Except.error.inj (Act.of_run_pure h).1
  unfold Env.putAdmit at h
  split at h
  · rw [← hinj h]
    simp
  · obtain ⟨locked, s₁, hlock, h⟩ := Act.of_run_bind h
    cases locked with
    | some answer =>
      rw [← hinj h]
      rcases assertLock_answers hlock with rfl | rfl <;> simp
    | none =>
      have h₁ : Session.Spares (.exec (.selectNode path)) _ s₁ := (spares_assertLock (by simp)).of_run hlock
      dsimp only at h
      obtain ⟨orphan, s₂, horphan, h⟩ := Act.of_run_bind h
      have h₂ := trans_of _ h₁ ((spares_orphaned (fun _ => by simp)).of_run horphan)
      split at h
      · rw [← hinj h]
        simp
      · obtain ⟨existing, s₃, hstat, h⟩ := Act.of_run_bind h
        have h₃ := trans_of _ h₂ ((spares_statInner (by simp)).of_run hstat)
        split at h
        · rw [← hinj h]
          simp
        · rw [Act.run_bind_ok (readMeta_run (by simpa using h₃.2)), h₃.1] at h
          simp only [hpasses] at h
          simp at h

theorem accepts_recorded (hrow : (env.rowRead v path).bind NodeRow.etag = some e) (he : IsMinted e) : env.Accepts v path e := by
  intro r s hmatch hnone hif hrun
  have hpasses : r.check env.platform (Env.putRepresentation (env.rowRead v path)) false = none := by
    have hunmod : ∀ c, r.ifUnmodifiedSinceFails env.platform c = false := by
      intro c
      simp [Incoming.ifUnmodifiedSinceFails, hmatch]
    have hfails : r.ifMatchFails (Env.putRepresentation (env.rowRead v path)) = false := by
      simp [Incoming.ifMatchFails, hmatch, minted_ne_star he, Env.putRepresentation, hrow,
        matches_itself (comma_notMem_minted he)]
    simp [Incoming.check, hfails, hunmod, Incoming.ifNoneMatchHits, hnone, Incoming.ifHeaderFails,
      Request.getIfHeaderEtags, hif, parseIfHeader]
  have hmem := putAdmit_refusal hpasses hrun
  revert hmem
  decide

theorem revalidates_recorded (h : env.Reports v path base e) (hrow : (env.rowRead v path).bind NodeRow.etag = some e)
    (he : IsMinted e) : env.Revalidates v path e := by
  intro r headOnly hmatch hunmod hnone hslash
  have hne : e ≠ [] := by
    obtain ⟨size, now, rfl⟩ := he
    simp [mintEtag]
  have hhit : r.check env.platform (Env.getRepresentation (env.rowRead v path) (env.sees v path 0)) true =
      some (.notModified (some e)) := by
    simp [Incoming.check, Incoming.ifMatchFails, hmatch, Incoming.ifUnmodifiedSinceFails, hunmod, Incoming.ifNoneMatchHits,
      hnone, Env.getRepresentation, hrow, matches_itself (comma_notMem_minted he), hne]
  rw [handleGet_file h r headOnly hslash]
  exact getFile_run r headOnly _ hhit

/-- One validator, exactly where one is recorded and can be read. -/
theorem oneEtag_of_recorded (hv : v.AllMinted) (h : env.RecordsEtag v path) : env.OneEtag v path base := by
  obtain ⟨e₀, hrow⟩ := recordsEtag_iff.mp h
  have hmint : IsMinted e₀ := by
    obtain ⟨row, hread, hetag⟩ := Option.bind_eq_some_iff.mp hrow
    unfold Env.rowRead at hread
    split at hread
    · exact hv path row e₀ hread hetag
    · exact absurd hread (by simp)
  have hsame : ∀ {e}, env.Reports v path base e → e = e₀ := by
    intro e he
    obtain ⟨_, _, rfl⟩ := reports_elim he
    rw [hrow]
    rfl
  refine ⟨fun e r headOnly file s e' he hrun hsent => sent_reported he hrun hsent, ?_, ?_, ?_⟩
  · intro e row st he hread
    obtain rfl := reads_iff.mp hread
    obtain rfl := hsame he
    exact ⟨hrow, hrow⟩
  · intro e he
    obtain rfl := hsame he
    exact accepts_recorded hrow hmint
  · intro e he
    have hee := hsame he
    subst hee
    exact revalidates_recorded he hrow hmint

theorem recorded_of_oneEtag (h : env.OneEtag v path base) (he : env.Reports v path base e) : env.RecordsEtag v path :=
  recordsEtag_iff.mpr ⟨e, (h.compared e _ missingStat he (reads_iff.mpr rfl)).1⟩

theorem reports_describes {e : JsString} (h : env.Reports v path base e) : env.Describes path := by
  obtain ⟨node, s, hrun, _⟩ := h
  exact (nodeInfo_elim hrun).1

/-- The validators PROPFIND, GET and PUT go by are one, exactly where the metadata row of a file that is described can be
read and records one. -/
theorem one_etag_iff (hv : Reached v) (hfound : v.files.found path = true) (hfile : v.files.isDirectory path = false) :
    env.OneEtag v path base ↔ (env.Describes path → env.RecordsEtag v path) := by
  constructor
  · intro h hd
    obtain ⟨e, he⟩ := reports_of_describes base hd hfound hfile
    exact recorded_of_oneEtag h he
  · intro h
    by_cases hd : env.Describes path
    · exact oneEtag_of_recorded (reached_minted hv) (h hd)
    · have hnone : ∀ e, ¬ env.Reports v path base e := fun e he => hd (reports_describes he)
      exact ⟨fun e _ _ _ _ _ he => absurd he (hnone e), fun e _ _ he => absurd he (hnone e),
        fun e he => absurd he (hnone e), fun e he => absurd he (hnone e)⟩

end Recorded

/-! ### A file that was made to hold a lock -/

def lockUuid : Uuid := ⟨js "00000000-0000-4000-8000-000000000001", by decide⟩

def lockFile : Exchange where
  verb := .lock lockUuid
  request := { plainIncoming (js "http://h/o/v/f") with body := [60, 119, 114, 105, 116, 101, 47, 62], text := js "<write/>" }
  path := js "f"
  bases := plainBases

def putFile : Exchange where
  verb := .put 100
  request := { plainIncoming (js "http://h/o/v/f") with body := [1, 2] }
  path := js "f"
  bases := plainBases

def writtenVolume : Volume := Env.after (calmEnv.serve putFile) emptyVolume

theorem written_file_has_one : calmEnv.OneEtag (Env.after (calmEnv.serve putFile) emptyVolume) (js "f") [] :=
  (one_etag_iff (.request calmEnv putFile .empty) (by decide) (by decide)).mpr (fun _ => ⟨rfl, by decide⟩)

/-- PROPFIND makes a validator up for a file that a LOCK has created, and no precondition knows it. -/
theorem lock_null_has_none : ¬ calmEnv.OneEtag (Env.after (calmEnv.serve lockFile) emptyVolume) (js "f") [] := by
  intro h
  have hd : calmEnv.Describes (js "f") := ⟨rfl, rfl, rfl⟩
  obtain ⟨e, he⟩ := reports_of_describes [] hd
    (v := Env.after (calmEnv.serve lockFile) emptyVolume) (by decide) (by decide)
  have hrow := recorded_of_oneEtag h he
  revert hrow
  unfold Env.RecordsEtag
  decide

end DurableDav.Dav
