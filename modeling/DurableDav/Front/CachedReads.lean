import DurableDav.Front.ReadServing

namespace DurableDav.Front

open Library Dav
open Replication (Bytes isValidInnerPath)

/-! ### What a GET comes to -/

/-- The bytes as they are read at the first attempt. -/
def bytesRead (env : Env) (v : Volume) (path : JsString) : Option Bytes :=
  if env.fails (.read path) 0 = none then (Store.get v.files path).bind Inode.bytes else none

/-- The answer to a GET or HEAD of a file, without a range. -/
def fileAnswer (env : Env) (v : Volume) (r : Incoming) (path : JsString) (headOnly : Bool) : GetAnswer :=
  match r.check env.platform (Env.getRepresentation (env.rowRead v path) (env.sees v path 0)) true with
  | some verdict => .conditional verdict
  | none => match bytesRead env v path with
    | none => .refused .notFound
    | some data => .file {
        status := 200
        contentType := ((env.rowRead v path).bind NodeRow.contentType).getD octetStreamType
        contentLength := (env.sees v path 0).size
        etag := ((env.rowRead v path).bind NodeRow.etag).filter (fun e => e ≠ [])
        lastModified := (((env.rowRead v path).map NodeRow.mtime).filter (fun m => m ≠ 0)).map env.platform.toUTCString
        contentRange := none
        body := if headOnly then none else some data }

section Get

variable {env : Env} {v : Volume} {r : Incoming} {path : JsString} {headOnly : Bool}

theorem read_run (s : Session) (hcount : s.calls.count (.read path) = 0) :
    ∃ s', ((env.read path).attempt.run s) = (.ok (match bytesRead env s.volume path with
      | some data => .ok data
      | none => .error (match env.fails (.read path) 0 with
        | some e => e
        | none => if (Store.get s.volume.files path).isSome then .of "EISDIR" else .of "ENOENT")), s') := by
  unfold bytesRead
  rw [Act.run_attempt, Env.read, run_call, hcount]
  cases env.fails (.read path) 0 with
  | some e => exact ⟨_, rfl⟩
  | none =>
    rw [if_pos rfl, Act.run_bind, Act.run_read]
    simp only [Session.record]
    cases hget : Store.get s.volume.files path with
    | none => exact ⟨_, rfl⟩
    | some inode =>
      rcases inode with ⟨_ | data, m⟩
      · exact ⟨_, rfl⟩
      · exact ⟨_, rfl⟩

theorem getFile_answers (hrange : r.range = none) : ∃ s,
    (env.getFile r path headOnly (env.sees v path 0)).run (Session.record ⟨v, []⟩ (.stat path)) =
      (.ok (fileAnswer env v r path headOnly), s) := by
  unfold Env.getFile fileAnswer
  rw [Act.run_bind_ok (readMeta_run (by simp [Session.record]))]
  have hvol : (Session.record ⟨v, []⟩ (.stat path)).volume = v := rfl
  rw [hvol]
  cases r.check env.platform (Env.getRepresentation (env.rowRead v path) (env.sees v path 0)) true with
  | some verdict => exact ⟨_, rfl⟩
  | none =>
    have hfull (size : ℕ) : parseRangeHeader r.range size = fullBody := by
      rw [hrange]
      rfl
    let s₁ := (Session.record ⟨v, []⟩ (.stat path)).record (.exec (.selectNode path))
    obtain ⟨s', hread⟩ := @read_run env path s₁ (by simp [s₁, Session.record])
    simp only [hfull]
    rw [if_neg (by decide), Act.run_bind_ok hread]
    have hsame : bytesRead env s₁.volume path = bytesRead env v path := rfl
    rw [hsame]
    cases bytesRead env v path with
    | none => exact ⟨_, rfl⟩
    | some data => exact ⟨_, rfl⟩

/-- Where a path is no file, nothing of what is answered can be kept. -/
theorem handleGet_no_file (h : r.toRequest.endsInSlash env.platform = true ∨ path = [] ∨ (env.sees v path 0).isDirectory = true ∨
    (env.sees v path 0).found = false) : ∀ answer s, (env.handleGet r path headOnly).run ⟨v, []⟩ = (.ok answer, s) →
      ∀ f, answer ≠ .file f := by
  intro answer s hrun f hf
  subst hf
  unfold Env.handleGet at hrun
  rw [Act.run_bind_ok (statInner_first env v path)] at hrun
  split at hrun
  · split at hrun
    · simp at hrun
    · unfold Env.getListing at hrun
      split at hrun
      · simp at hrun
      · obtain ⟨names, s₁, _, hrun⟩ := Act.of_run_bind hrun
        obtain ⟨children, s₂, _, hrun⟩ := Act.of_run_bind hrun
        simp at hrun
  · rename_i hnav
    have hfound : (env.sees v path 0).found = false := by
      simp only [not_or] at hnav
      rcases h with h | h | h | h
      · exact absurd h hnav.1
      · exact absurd h hnav.2.1
      · exact absurd h hnav.2.2
      · exact h
    simp [hfound] at hrun

theorem handleGet_answers (hrange : r.range = none) (hslash : r.toRequest.endsInSlash env.platform = false)
    (hroot : path ≠ []) (hdir : (env.sees v path 0).isDirectory = false) (hfound : (env.sees v path 0).found = true) :
    ∃ s, (env.handleGet r path headOnly).run ⟨v, []⟩ = (.ok (fileAnswer env v r path headOnly), s) := by
  obtain ⟨s, hrun⟩ := @getFile_answers env v r path headOnly hrange
  refine ⟨s, ?_⟩
  unfold Env.handleGet
  rw [Act.run_bind_ok (statInner_first env v path)]
  simpa [hslash, hroot, hdir, hfound] using hrun

end Get

/-! ### Entries of the current state -/

/-- Some GET of the path left the entry in the cache, with the volume as it is. -/
def BuiltFrom (v : Volume) (inner path : JsString) (e : CachedFile) : Prop :=
  ∃ (env : Env) (r : Incoming), r.range = none ∧ (serveGet inner r false none (objectGet env v r path false)).2 = some e

/-- What such an entry says of the volume. -/
structure Mirrors (v : Volume) (path : JsString) (e : CachedFile) (m : ℕ) (row : NodeRow) : Prop where
  valid : isValidInnerPath path = true
  root : path ≠ []
  file : Store.get v.files path = some ⟨some e.bytes, m⟩
  recorded : Store.get v.nodes path = some row
  etag : row.etag = some e.etag
  named : e.etag ≠ []
  contentType : e.contentType = some (row.contentType.getD octetStreamType)

section Built

variable {env : Env} {v : Volume} {r : Incoming} {inner path : JsString} {headOnly : Bool} {e : CachedFile}

theorem stored_response {cached : Option CachedFile} {response : ReadResponse}
    (h : (serveGet inner r headOnly cached response).2 = some e) : fileEntry inner response = some e := by
  unfold serveGet at h
  split at h
  · cases h
  · split at h
    · cases h
    · split at h
      · dsimp only at h
        split at h
        · cases h
        · exact h
      · cases h

theorem fileEntry_elim {response : ReadResponse} (h : fileEntry inner response = some e) :
    response.status = 200 ∧ response.content = .bytes e.bytes ∧ response.etag = some e.etag ∧ e.etag ≠ [] ∧
      e.contentType = some (response.contentType.getD octetStreamType) := by
  unfold fileEntry at h
  split at h
  · rename_i data hcontent
    obtain ⟨⟨hstatus, hne, -⟩, he⟩ := Option.ite_none_right_eq_some.mp h
    obtain rfl := Option.some.inj he
    refine ⟨hstatus, hcontent, ?_, hne, rfl⟩
    cases hetag : response.etag with
    | none => simp [hetag] at hne
    | some etag => rfl
  · cases h

theorem mirrors_of_answer {f : Representing} (hvalid : isValidInnerPath path = true) (hroot : path ≠ [])
    (hf : fileAnswer env v r path false = .file f)
    (hcontent : (f.body.map Content.bytes).getD .empty = .bytes e.bytes) (hetag : f.etag = some e.etag)
    (htype : e.contentType = some f.contentType) (hne : e.etag ≠ []) : ∃ m row, Mirrors v path e m row := by
  unfold fileAnswer at hf
  split at hf
  · cases hf
  · split at hf
    · cases hf
    · rename_i data hdata
      obtain rfl := GetAnswer.file.inj hf
      obtain ⟨-, hdata⟩ := Option.ite_none_right_eq_some.mp hdata
      obtain ⟨inode, hinode, hbytes⟩ := Option.bind_eq_some_iff.mp hdata
      have hsame : data = e.bytes := by simpa using hcontent
      obtain ⟨hrecorded, -⟩ := Option.filter_eq_some_iff.mp hetag
      obtain ⟨row, hrow, hrowEtag⟩ := Option.bind_eq_some_iff.mp hrecorded
      have hget := hrow
      unfold Env.rowRead at hget
      obtain ⟨-, hget⟩ := Option.ite_none_right_eq_some.mp hget
      refine ⟨inode.mtime, row, hvalid, hroot, ?_, hget, hrowEtag, hne, ?_⟩
      · rw [hinode, ← hsame, ← hbytes]
      · rw [htype, hrow]
        rfl

theorem file_of_bytes {answer : GetAnswer} {data : Bytes} (h : (getResponse answer).content = .bytes data) :
    ∃ f, answer = .file f := by
  cases answer with
  | refused response =>
    simp only [getResponse, refusedResponse] at h
    split at h
    · simp [textResponse] at h
    · cases h
  | conditional verdict =>
    cases verdict with
    | preconditionFailed header => simp [getResponse, verdictResponse, textResponse] at h
    | notModified etag => simp [getResponse, verdictResponse] at h
  | unsatisfiable contentRange => simp [getResponse] at h
  | listing children => simp [getResponse] at h
  | headOfListing => simp [getResponse] at h
  | file f => exact ⟨f, rfl⟩

/-- An answer with bytes is that of a file. -/
theorem objectGet_bytes {data : Bytes} (hrange : r.range = none)
    (h : (objectGet env v r path headOnly).content = .bytes data) :
    isValidInnerPath path = true ∧ path ≠ [] ∧ (env.sees v path 0).isDirectory = false ∧
      ∃ f, fileAnswer env v r path headOnly = .file f ∧ objectGet env v r path headOnly = getResponse (.file f) := by
  cases hvalid : isValidInnerPath path with
  | false => simp [objectGet, hvalid, refusedResponse, Response.badRequest, Response.text, textResponse] at h
  | true =>
    simp only [objectGet, hvalid, Bool.not_true, Bool.false_eq_true, ↓reduceIte] at h ⊢
    by_cases hno : r.toRequest.endsInSlash env.platform = true ∨ path = [] ∨ (env.sees v path 0).isDirectory = true ∨
        (env.sees v path 0).found = false
    · cases hrun : (env.handleGet r path headOnly).run ⟨v, []⟩ with
      | mk result s =>
        rw [hrun] at h
        cases result with
        | error e => simp [refusedResponse, Response.internalServerError, Response.text, textResponse] at h
        | ok answer =>
          obtain ⟨f, hf⟩ := file_of_bytes h
          exact absurd hf (handleGet_no_file hno answer s hrun f)
    · simp only [not_or, Bool.not_eq_true, Bool.not_eq_false] at hno
      obtain ⟨hslash, hroot, hdir, hfound⟩ := hno
      obtain ⟨s, hrun⟩ := @handleGet_answers env v r path headOnly hrange hslash hroot hdir hfound
      rw [hrun] at h ⊢
      obtain ⟨f, hf⟩ := file_of_bytes h
      exact ⟨trivial, hroot, hdir, f, hf, by rw [hf]⟩

theorem built_mirrors (h : BuiltFrom v inner path e) : ∃ m row, Mirrors v path e m row := by
  obtain ⟨env, r, hrange, hstored⟩ := h
  obtain ⟨-, hcontent, hetag, hne, htype⟩ := fileEntry_elim (stored_response hstored)
  obtain ⟨hvalid, hroot, hdir, f, hf, hresponse⟩ := objectGet_bytes hrange hcontent
  rw [hresponse] at hcontent hetag htype
  exact mirrors_of_answer hvalid hroot hf hcontent hetag htype hne

end Built

/-! ### When the cache answers as the volume does -/

/-- What the two answers are compared by. -/
def ReadResponse.shown (a : ReadResponse) : ℕ × Content × Option JsString × Option JsString × Option JsString :=
  (a.status, a.content, a.contentType, a.etag, a.lastModified)

/-- What the volume holds conditions against. -/
def recorded (v : Volume) (path : JsString) : Representation :=
  ⟨(Store.get v.nodes path).bind NodeRow.etag, (Store.get v.nodes path).map NodeRow.mtime⟩

/-- The conditions of the request come to what the one condition comes to that the cache looks at, and where they let
the file through, the volume has no time to send with it. -/
def CacheAgrees (env : Env) (v : Volume) (r : Incoming) (path : JsString) : Prop :=
  env.fails (.stat path) 0 = none ∧ env.fails (.exec (.selectNode path)) 0 = none ∧
    r.toRequest.endsInSlash env.platform = false ∧
    r.ifMatchFails (recorded v path) = false ∧ r.ifUnmodifiedSinceFails env.platform (recorded v path) = false ∧
    (r.ifNoneMatchHits (recorded v path) = true ∧ r.ifNoneMatch ≠ some [] ∨
      isFresh r.ifNoneMatch ((recorded v path).etag.getD []) = false ∧ r.ifNoneMatchHits (recorded v path) = false ∧
        r.ifHeaderFails env.platform (recorded v path) = false ∧ r.isUnmodified env.platform (recorded v path) = false ∧
        (recorded v path).mtime = some 0 ∧ env.fails (.read path) 0 = none)

instance (env : Env) (v : Volume) (r : Incoming) (path : JsString) : Decidable (CacheAgrees env v r path) :=
  inferInstanceAs (Decidable (_ ∧ _))

section Agreement

variable {env : Env} {v : Volume} {r : Incoming} {inner path : JsString} {headOnly : Bool} {e : CachedFile} {m : ℕ}
  {row : NodeRow}

theorem mirrors_recorded (h : Mirrors v path e m row) : recorded v path = ⟨some e.etag, some row.mtime⟩ := by
  simp [recorded, h.recorded, h.etag]

theorem fresh_of_hits {etag : JsString} {mtime : Option ℕ} (hne : etag ≠ [])
    (h : r.ifNoneMatchHits ⟨some etag, mtime⟩ = true) (hheader : r.ifNoneMatch ≠ some []) :
    isFresh r.ifNoneMatch etag = true := by
  cases hinm : r.ifNoneMatch with
  | none => simp [Incoming.ifNoneMatchHits, hinm] at h
  | some header =>
    simp only [Incoming.ifNoneMatchHits, hinm, Option.any_some, decide_eq_true_eq] at h
    have hany : ∃ part ∈ header.splitOn 44, trim part = js "*" ∨ weakEtagValue (trim part) = weakEtagValue etag := by
      rcases h with hstar | hlist
      · have hcomma : (44 : CodeUnit) ∉ header := by
          intro hmem
          have hin := mem_trim hmem (by decide)
          rw [hstar] at hin
          exact absurd hin (by decide)
        rw [List.splitOn_eq_singleton hcomma]
        exact ⟨header, by simp, .inl hstar⟩
      · obtain ⟨part, hpart, heq⟩ := List.mem_map.mp (of_decide_eq_true hlist)
        refine ⟨part, hpart, .inr ?_⟩
        rw [← heq, weakEtagValue, weakEtagValue, trim_trim]
    have hheader' : header ≠ [] := fun hnil => hheader (by rw [hinm, hnil])
    simpa [isFresh, hne, hheader'] using hany

/-- Every answer of the cache carries the validator of its entry. -/
theorem cached_etag (e : CachedFile) (ifNoneMatch : Option JsString) (headOnly : Bool) :
    (respondFromCachedFile e ifNoneMatch headOnly).etag = some e.etag := by
  unfold respondFromCachedFile
  split <;> rfl

theorem cached_status (e : CachedFile) (ifNoneMatch : Option JsString) (headOnly : Bool) :
    (respondFromCachedFile e ifNoneMatch headOnly).status = if isFresh ifNoneMatch e.etag then 304 else 200 := by
  unfold respondFromCachedFile
  split <;> rfl

theorem objectGet_file (h : Mirrors v path e m row) (hrange : r.range = none)
    (hslash : r.toRequest.endsInSlash env.platform = false) (hstat : env.fails (.stat path) 0 = none) :
    objectGet env v r path headOnly = getResponse (fileAnswer env v r path headOnly) := by
  have hsees : env.sees v path 0 = ⟨true, false, e.bytes.length, m⟩ := by
    simp [Env.sees, hstat, Files.stat, h.root, h.file]
  obtain ⟨s, hrun⟩ := @handleGet_answers env v r path headOnly hrange hslash h.root (by rw [hsees]) (by rw [hsees])
  simp [objectGet, h.valid, hrun]

/-- Where the path cannot be looked at, or is asked for as a collection, the volume does not find it. -/
theorem objectGet_missing (h : Mirrors v path e m row)
    (hmiss : r.toRequest.endsInSlash env.platform = true ∨ env.fails (.stat path) 0 ≠ none) :
    (objectGet env v r path headOnly).status = 404 := by
  have hrun : ∃ s, (env.handleGet r path headOnly).run ⟨v, []⟩ = (.ok (.refused .notFound), s) := by
    unfold Env.handleGet
    rw [Act.run_bind_ok (statInner_first env v path)]
    by_cases hstat : env.fails (.stat path) 0 = none
    · have hslash : r.toRequest.endsInSlash env.platform = true := hmiss.resolve_right (by simp [hstat])
      have hsees : env.sees v path 0 = ⟨true, false, e.bytes.length, m⟩ := by
        simp [Env.sees, hstat, Files.stat, h.root, h.file]
      simp only [hslash, hsees, h.root, true_or, ↓reduceIte, ne_eq, not_false_eq_true, Bool.not_true, Bool.not_false,
        Bool.false_eq_true, or_true, and_self]
      exact ⟨_, rfl⟩
    · have hsees : env.sees v path 0 = missingStat := if_neg hstat
      simp only [hsees, missingStat, h.root, Bool.not_false, Bool.false_eq_true, or_false, ne_eq,
        not_false_eq_true, true_or, and_self, ↓reduceIte, ite_self]
      exact ⟨_, rfl⟩
  obtain ⟨s, hrun⟩ := hrun
  simp [objectGet, h.valid, hrun, getResponse, refusedResponse, Response.notFound, Response.text, textResponse]

theorem fileAnswer_blind (hmeta : env.fails (.exec (.selectNode path)) 0 ≠ none) :
    (getResponse (fileAnswer env v r path headOnly)).etag = none := by
  have hrow : env.rowRead v path = none := if_neg hmeta
  unfold fileAnswer
  rw [hrow]
  cases hcheck : r.check env.platform (Env.getRepresentation none (env.sees v path 0)) true with
  | some verdict =>
    cases verdict with
    | preconditionFailed header => rfl
    | notModified etag =>
      simp only [Incoming.check, Env.getRepresentation, Option.bind_none, Option.filter_none] at hcheck
      split at hcheck
      · cases hcheck
      · split at hcheck
        · cases hcheck
        · split at hcheck
          · obtain rfl := Verdict.notModified.inj (Option.some.inj hcheck)
            rfl
          · split at hcheck
            · cases hcheck
            · split at hcheck
              · obtain rfl := Verdict.notModified.inj (Option.some.inj hcheck)
                rfl
              · cases hcheck
  | none =>
    cases bytesRead env v path with
    | none => rfl
    | some data => rfl

/-- What the volume answers with the row at hand. -/
theorem fileAnswer_eq (h : Mirrors v path e m row) (hmeta : env.fails (.exec (.selectNode path)) 0 = none) :
    fileAnswer env v r path headOnly =
      match r.check env.platform (recorded v path) true with
      | some verdict => .conditional verdict
      | none => if env.fails (.read path) 0 = none then .file ⟨200, e.contentType.getD octetStreamType,
          (env.sees v path 0).size, some e.etag, if row.mtime = 0 then none else some (env.platform.toUTCString row.mtime),
          none, if headOnly then none else some e.bytes⟩ else .refused .notFound := by
  have hrow : env.rowRead v path = some row := by
    unfold Env.rowRead
    rw [if_pos hmeta, h.recorded]
  have hrepresentation : Env.getRepresentation (some row) (env.sees v path 0) = recorded v path := by
    rw [mirrors_recorded h]
    simp [Env.getRepresentation, h.etag]
  unfold fileAnswer
  rw [hrow, hrepresentation]
  cases r.check env.platform (recorded v path) true with
  | some verdict => rfl
  | none =>
    unfold bytesRead
    by_cases hread : env.fails (.read path) 0 = none
    · by_cases hmtime : row.mtime = 0
      · simp [hread, h.file, h.etag, h.named, h.contentType, hmtime]
      · simp [hread, h.file, h.etag, h.named, h.contentType, hmtime]
    · simp [hread]

theorem shown_status {a b : ReadResponse} (h : a.shown = b.shown) : a.status = b.status := congrArg Prod.fst h

/-- The same where nothing keeps the volume from the file: a verdict on the conditions, or the file. -/
theorem judged_iff (h : Mirrors v path e m row) (hslash : r.toRequest.endsInSlash env.platform = false)
    (hstat : env.fails (.stat path) 0 = none) (hmeta : env.fails (.exec (.selectNode path)) 0 = none) :
    (respondFromCachedFile e r.ifNoneMatch headOnly).shown = (getResponse (fileAnswer env v r path headOnly)).shown ↔
      CacheAgrees env v r path := by
  have hstatus := cached_status e r.ifNoneMatch headOnly
  have hrecorded := mirrors_recorded h
  have hetag : (recorded v path).etag.getD [] = e.etag := by rw [hrecorded]; rfl
  have hmtime : (recorded v path).mtime = some row.mtime := by rw [hrecorded]
  -- an answer of a status that the cache never sends
  have hother {a : ReadResponse} (ha : a.status ≠ 304) (ha' : a.status ≠ 200) :
      (respondFromCachedFile e r.ifNoneMatch headOnly).shown ≠ a.shown := by
    intro heq
    have hsame := shown_status heq
    rw [hstatus] at hsame
    split at hsame
    · exact ha hsame.symm
    · exact ha' hsame.symm
  have hfiltered : (recorded v path).etag.filter (fun e => e ≠ []) = some e.etag := by
    rw [hrecorded]
    simp [h.named]
  rw [fileAnswer_eq h hmeta]
  unfold CacheAgrees
  simp only [hstat, hmeta, hslash, hetag, hmtime, true_and, Option.some.injEq, Incoming.check, hfiltered]
  by_cases hmatch : r.ifMatchFails (recorded v path) = true
  · simp only [hmatch, if_true]
    exact iff_of_false (hother (by decide) (by decide)) (by simp)
  by_cases hunmodified : r.ifUnmodifiedSinceFails env.platform (recorded v path) = true
  · simp only [hmatch, hunmodified, if_true, if_false, Bool.false_eq_true]
    exact iff_of_false (hother (by decide) (by decide)) (by simp)
  rw [if_neg hmatch, if_neg hunmodified]
  simp only [Bool.not_eq_true] at hmatch hunmodified
  simp only [hmatch, hunmodified, true_and]
  by_cases hhits : r.ifNoneMatchHits (recorded v path) = true
  · rw [if_pos hhits]
    simp only [hhits, true_and, Bool.true_eq_false, false_and, and_false, or_false, if_true]
    by_cases hheader : r.ifNoneMatch = some []
    · have hstale : isFresh r.ifNoneMatch e.etag = false := by simp [hheader, isFresh]
      refine iff_of_false (fun heq => ?_) (by simp [hheader])
      have hsame := shown_status heq
      rw [hstatus, hstale] at hsame
      cases hsame
    · have hfresh : isFresh r.ifNoneMatch e.etag = true := by
        rw [hrecorded] at hhits
        exact fresh_of_hits h.named hhits hheader
      refine iff_of_true ?_ hheader
      rw [respondFromCachedFile, if_pos hfresh]
      rfl
  rw [if_neg hhits]
  simp only [Bool.not_eq_true] at hhits
  simp only [hhits, Bool.false_eq_true, false_and, false_or, true_and]
  by_cases hif : r.ifHeaderFails env.platform (recorded v path) = true
  · simp only [hif, if_true]
    exact iff_of_false (hother (by decide) (by decide)) (by simp)
  rw [if_neg hif]
  simp only [Bool.not_eq_true] at hif
  simp only [hif, true_and]
  by_cases hsince : r.isUnmodified env.platform (recorded v path) = true
  · simp only [hsince, if_true, Bool.true_eq_false, false_and, and_false]
    have hstale : isFresh r.ifNoneMatch e.etag = false := by
      cases hinm : r.ifNoneMatch with
      | none => rfl
      | some header => simp [Incoming.isUnmodified, hinm] at hsince
    refine iff_of_false (fun heq => ?_) not_false
    have hsame := shown_status heq
    rw [hstatus, hstale] at hsame
    cases hsame
  simp only [Bool.not_eq_true] at hsince
  simp only [hsince, Bool.false_eq_true, if_false, true_and]
  by_cases hread : env.fails (.read path) 0 = none
  · simp only [hread, if_true, and_true]
    by_cases hfresh : isFresh r.ifNoneMatch e.etag = true
    · refine iff_of_false (fun heq => ?_) (by simp [hfresh])
      have hsame := shown_status heq
      rw [hstatus, hfresh] at hsame
      cases hsame
    · rw [respondFromCachedFile, if_neg hfresh]
      simp only [Bool.not_eq_true] at hfresh
      simp only [hfresh, true_and]
      by_cases hzero : row.mtime = 0
      · cases headOnly <;> simp [ReadResponse.shown, getResponse, hzero]
      · simp [ReadResponse.shown, getResponse, hzero]
  · simp only [hread, if_false, and_false]
    exact iff_of_false (hother (by decide) (by decide)) not_false

theorem agrees_iff (h : Mirrors v path e m row) (hrange : r.range = none) :
    (respondFromCachedFile e r.ifNoneMatch headOnly).shown = (objectGet env v r path headOnly).shown ↔
      CacheAgrees env v r path := by
  have hstatus := cached_status e r.ifNoneMatch headOnly
  by_cases hmiss : r.toRequest.endsInSlash env.platform = true ∨ env.fails (.stat path) 0 ≠ none
  · have hmissing := @objectGet_missing env v r path headOnly e m row h hmiss
    have hno : ¬ CacheAgrees env v r path := by
      rintro ⟨hstat, -, hslash, -⟩
      rcases hmiss with hm | hm
      · rw [hslash] at hm
        exact Bool.false_ne_true hm
      · exact hm hstat
    refine ⟨fun heq => ?_, fun hagrees => absurd hagrees hno⟩
    have hsame := shown_status heq
    rw [hstatus, hmissing] at hsame
    split at hsame <;> cases hsame
  · simp only [not_or, Bool.not_eq_true, not_not] at hmiss
    obtain ⟨hslash, hstat⟩ := hmiss
    rw [objectGet_file h hrange hslash hstat]
    by_cases hmeta : env.fails (.exec (.selectNode path)) 0 = none
    · exact judged_iff h hslash hstat hmeta
    · refine ⟨fun heq => ?_, fun hagrees => absurd hagrees.2.1 hmeta⟩
      have hetag : (respondFromCachedFile e r.ifNoneMatch headOnly).etag =
          (getResponse (fileAnswer env v r path headOnly)).etag := congrArg (fun t => t.2.2.2.1) heq
      rw [cached_etag, fileAnswer_blind hmeta] at hetag
      cases hetag

end Agreement

/-- A GET or HEAD that finds an entry of the current state is answered as the volume would answer it, exactly where the
conditions of the request come to what the cache looks at. -/
theorem cached_get_agrees {env : Env} {v : Volume} {r : Incoming} {inner path : JsString} {e : CachedFile}
    (headOnly : Bool) (hbuilt : BuiltFrom v inner path e) (hrange : r.range = none) :
    (serveGet inner r headOnly (some e) (objectGet env v r path headOnly)).1.shown =
      (objectGet env v r path headOnly).shown ↔ CacheAgrees env v r path := by
  obtain ⟨m, row, h⟩ := built_mirrors hbuilt
  have hserve : (serveGet inner r headOnly (some e) (objectGet env v r path headOnly)).1 =
      respondFromCachedFile e r.ifNoneMatch headOnly := by
    simp [serveGet, hrange, h.named]
  rw [hserve]
  exact agrees_iff h hrange

/-! ### A file with a cached body -/

def shelfVolume : Volume where
  files := [(js "f", ⟨some [1], 9⟩)]
  nodes := [(js "f", ⟨false, none, some (js "t"), 9, 9, false⟩)]
  props := []
  locks := []
  replicaState := []

def shelfEntry : CachedFile := ⟨[1], some octetStreamType, js "t"⟩

def shelfRequest : Incoming := plainIncoming (js "http://h/alice/v/f")

def revalidation : Incoming := { shelfRequest with ifNoneMatch := some (js "t") }

def guardedRequest : Incoming := { shelfRequest with ifMatch := some (js "u") }

theorem shelf_built : BuiltFrom shelfVolume (js "f") (js "f") shelfEntry :=
  ⟨calmEnv, shelfRequest, rfl, by decide⟩

theorem revalidation_agrees : (serveGet (js "f") revalidation false (some shelfEntry)
      (objectGet calmEnv shelfVolume revalidation (js "f") false)).1.shown =
    (objectGet calmEnv shelfVolume revalidation (js "f") false).shown :=
  (cached_get_agrees false shelf_built rfl).mpr (by decide)

/-- The cache answers without the time of the file, and does not hear of a condition that fails. -/
theorem cache_answers_otherwise : BuiltFrom shelfVolume (js "f") (js "f") shelfEntry ∧
    (serveGet (js "f") shelfRequest false (some shelfEntry) (objectGet calmEnv shelfVolume shelfRequest (js "f") false)).1.shown ≠
      (objectGet calmEnv shelfVolume shelfRequest (js "f") false).shown ∧
    (serveGet (js "f") guardedRequest false (some shelfEntry) (objectGet calmEnv shelfVolume guardedRequest (js "f") false)).1.status =
      200 ∧ (objectGet calmEnv shelfVolume guardedRequest (js "f") false).status = 412 :=
  ⟨shelf_built, by decide, by decide, by decide⟩

end DurableDav.Front
