import DurableDav.Front.ReadServing

namespace DurableDav.Front

open Library Dav
open Replication (Bytes isValidInnerPath)

/-! ### Requests for one listing -/

/-- The two ask for the same: their Depth and their body are the same. -/
structure SameQuestion (r r' : Incoming) : Prop where
  depth : r.depth = r'.depth
  contentLength : r.contentLength = r'.contentLength
  body : r.body = r'.body
  text : r.text = r'.text

/-- What a multistatus is put together from: a state of the volume, and how its addresses are shown. -/
structure Origin where
  env : Env
  volume : Volume
  bases : DavBases

def Origin.answer (o : Origin) (r : Incoming) (path : JsString) : ReadResponse :=
  objectPropfind o.env o.volume r path o.bases

/-- The front door's view of one path of one volume. -/
structure Place where
  digest : KeyDigest
  volumeKey : JsString
  inner : JsString
  path : JsString

namespace Place

variable (P : Place)

def serve (r : Incoming) (cached : Option CachedPropfind) (response : ReadResponse) :
    ReadResponse × Option CachedPropfind :=
  servePropfind P.digest P.volumeKey P.inner r cached response

/-- The answer `r` gets is put together from `o`: the volume's own, or that of an entry the same question has left. -/
def DrawnFrom (r : Incoming) (cached : Option CachedPropfind) (response : ReadResponse) (o : Origin) : Prop :=
  if isCacheableDepth (depthOf r) ∧ cached.any (fun e => e.etag ≠ []) then
    ∃ r', SameQuestion r' r ∧ (P.serve r' none (o.answer r' P.path)).2 = cached
  else response = o.answer r P.path

def validator (r : Incoming) : JsString :=
  etagForPropfind P.digest P.volumeKey P.inner (depthOf r) (P.digest.digest128 r.text)

/-- The request sends the validator back. -/
def Revalidates (r : Incoming) (etag : JsString) : Prop :=
  ∃ header, r.ifNoneMatch = some header ∧ ∃ part ∈ header.splitOn 44, trim part = etag

end Place

section Origins

variable {P : Place} {r r' : Incoming} {o : Origin} {cached : Option CachedPropfind} {response : ReadResponse}

theorem same_depthOf (h : SameQuestion r r') : depthOf r = depthOf r' := by
  unfold depthOf
  rw [h.depth]

theorem same_answer (h : SameQuestion r r') (o : Origin) (path : JsString) : o.answer r path = o.answer r' path := by
  have hread : r.readCappedText maxXmlBodyBytes = r'.readCappedText maxXmlBodyBytes := by
    simp only [Incoming.readCappedText, Incoming.readCappedBody, Incoming.exceedsDeclaredLength, h.contentLength, h.body,
      h.text]
    rfl
  unfold Origin.answer objectPropfind Env.handlePropfind
  rw [hread, h.depth]

theorem same_validator (h : SameQuestion r r') : P.validator r = P.validator r' := by
  unfold Place.validator
  rw [same_depthOf h, h.text]

theorem refused_unvalidated (response : Response) : (refusedResponse response).etag = none ∧
    (refusedResponse response).status = response.status := by
  unfold refusedResponse
  split <;> exact ⟨rfl, rfl⟩

theorem handlePropfind_refuses {env : Env} {path : JsString} {bases : DavBases} {s s' : Session} {refusal : Response}
    (h : (env.handlePropfind r path bases).run s = (.ok (.refused refusal), s')) : refusal.status ∈ [400, 404, 413] := by
  unfold Env.handlePropfind at h
  split at h
  · obtain ⟨hr, -⟩ := Act.of_run_pure h
    obtain rfl := Env.PropfindAnswer.refused.inj hr
    decide
  · split at h
    · obtain ⟨hr, -⟩ := Act.of_run_pure h
      obtain rfl := Env.PropfindAnswer.refused.inj hr
      decide
    · obtain ⟨node, s₁, -, h⟩ := Act.of_run_bind h
      cases node with
      | none =>
        obtain ⟨hr, -⟩ := Act.of_run_pure h
        obtain rfl := Env.PropfindAnswer.refused.inj hr
        decide
      | some node =>
        dsimp only at h
        split at h
        · obtain ⟨hr, -⟩ := Act.of_run_pure h
          cases hr
        · split at h
          · obtain ⟨hr, -⟩ := Act.of_run_pure h
            obtain rfl := Env.PropfindAnswer.refused.inj hr
            decide
          · obtain ⟨entries, s₂, -, h⟩ := Act.of_run_bind h
            obtain ⟨hr, -⟩ := Act.of_run_pure h
            cases hr

/-- What the volume's object answers: a refusal, or a multistatus, and no validator with either. -/
theorem answer_cases (o : Origin) (r : Incoming) (path : JsString) :
    (o.answer r path).etag = none ∧ ((o.answer r path).status ∈ [400, 404, 413, 500] ∨
      (o.answer r path).status = 207 ∧ ∃ text, (o.answer r path).content = .text text) := by
  unfold Origin.answer objectPropfind
  split
  · exact ⟨rfl, .inl (by simp [refusedResponse, Response.badRequest, Response.text, textResponse])⟩
  · cases hrun : (o.env.handlePropfind r path o.bases).run ⟨o.volume, []⟩ with
    | mk result s =>
      cases result with
      | error e =>
        exact ⟨rfl, .inl (by simp [refusedResponse, Response.internalServerError, Response.text, textResponse])⟩
      | ok answer =>
        cases answer with
        | multistatus entries => exact ⟨rfl, .inr ⟨rfl, _, rfl⟩⟩
        | refused refusal =>
          obtain ⟨hetag, hstatus⟩ := refused_unvalidated refusal
          refine ⟨hetag, .inl ?_⟩
          have hrefuses := handlePropfind_refuses hrun
          rw [← hstatus] at hrefuses
          change (refusedResponse refusal).status ∈ [400, 404, 413, 500]
          simp only [List.mem_cons, List.not_mem_nil, or_false] at hrefuses ⊢
          omega

theorem serve_fresh {text : JsString} (hdepth : isCacheableDepth (depthOf r) = true)
    (hstatus : (o.answer r P.path).status = 207) (htext : (o.answer r P.path).content = .text text) :
    P.serve r none (o.answer r P.path) =
      (if isFresh r.ifNoneMatch (P.validator r) then notModified .propfind (P.validator r)
        else ⟨207, .text text, some xmlType, some (P.validator r), none, none, some (cacheControlFor .propfind)⟩,
        if isCacheablePath P.inner then some ⟨text, P.validator r⟩ else none) := by
  have hetag := (answer_cases o r P.path).1
  simp only [Place.serve, servePropfind, Option.any_none, Bool.false_eq_true, and_false, if_false, hdepth, hstatus,
    htext, hetag, Option.getD_none, Bool.not_true, ne_eq, not_true_eq_false, or_self]
  rfl

/-- What a request is answered with comes from the origin it is drawn from, under the one validator of its question. -/
theorem serve_drawn (h : P.DrawnFrom r cached response o) (hdepth : isCacheableDepth (depthOf r) = true) {text : JsString}
    (hstatus : (o.answer r P.path).status = 207) (htext : (o.answer r P.path).content = .text text) :
    (P.serve r cached response).1 = if isFresh r.ifNoneMatch (P.validator r) then notModified .propfind (P.validator r)
      else ⟨207, .text text, some xmlType, some (P.validator r), none, none, some (cacheControlFor .propfind)⟩ := by
  unfold Place.DrawnFrom at h
  split at h
  · rename_i hhit
    obtain ⟨r', hsame, hstored⟩ := h
    have hdepth' : isCacheableDepth (depthOf r') = true := by rw [same_depthOf hsame, hdepth]
    rw [serve_fresh hdepth' (by rw [same_answer hsame, hstatus]) (by rw [same_answer hsame, htext])] at hstored
    dsimp only at hstored
    split at hstored
    · rw [same_validator hsame] at hstored
      rw [← hstored] at hhit ⊢
      simp only [Place.serve, servePropfind, if_pos hhit, Option.getD_some, respondFromCachedPropfind]
    · rw [← hstored] at hhit
      simp at hhit
  · rename_i hmiss
    subst h
    have hfresh := serve_fresh (P := P) hdepth hstatus htext
    have hcold : P.serve r cached (o.answer r P.path) = P.serve r none (o.answer r P.path) := by
      simp only [Place.serve, servePropfind, if_neg hmiss, Option.any_none, Bool.false_eq_true, and_false, if_false]
    rw [hcold, hfresh]

/-- Where there is no multistatus, or no depth to cache it by, the answer is the object's own. -/
theorem serve_plain (h : P.DrawnFrom r cached response o)
    (hplain : isCacheableDepth (depthOf r) = false ∨ (o.answer r P.path).status ≠ 207) :
    (P.serve r cached response).1 = o.answer r P.path := by
  unfold Place.DrawnFrom at h
  split at h
  · rename_i hhit
    obtain ⟨r', hsame, hstored⟩ := h
    have hstatus : (o.answer r' P.path).status ≠ 207 := by
      rw [same_answer hsame]
      exact hplain.resolve_left (by simp [hhit.1])
    have hnone : (P.serve r' none (o.answer r' P.path)).2 = none := by
      simp [Place.serve, servePropfind, hstatus]
    rw [hnone] at hstored
    rw [← hstored] at hhit
    simp at hhit
  · rename_i hmiss
    subst h
    have hpass : (!isCacheableDepth (depthOf r)) = true ∨ (o.answer r P.path).status ≠ 207 := by simpa using hplain
    simp only [Place.serve, servePropfind, if_neg hmiss, if_pos hpass]

theorem fresh_revalidated {etag : JsString} (hne : etag ≠ []) (h : Place.Revalidates r etag) :
    isFresh r.ifNoneMatch etag = true := by
  obtain ⟨header, hinm, part, hpart, hetag⟩ := h
  have hheader : header ≠ [] := by
    rintro rfl
    obtain rfl := List.mem_singleton.mp hpart
    exact hne hetag.symm
  have hany : ∃ part ∈ header.splitOn 44, trim part = js "*" ∨ weakEtagValue (trim part) = weakEtagValue etag :=
    ⟨part, hpart, .inr (by rw [hetag])⟩
  rw [hinm]
  simpa [isFresh, hne, hheader] using hany

/-- The same request without a condition. -/
def unconditional (r : Incoming) : Incoming := { r with ifNoneMatch := none }

theorem unconditional_same (r : Incoming) : SameQuestion (unconditional r) r := ⟨rfl, rfl, rfl, rfl⟩

theorem unconditional_drawn (h : P.DrawnFrom r cached response o) : P.DrawnFrom (unconditional r) cached response o := by
  unfold Place.DrawnFrom at h ⊢
  rw [same_depthOf (unconditional_same r)]
  split at h
  · rename_i hhit
    obtain ⟨r', hsame, hstored⟩ := h
    rw [if_pos hhit]
    exact ⟨r', ⟨hsame.depth, hsame.contentLength, hsame.body, hsame.text⟩, hstored⟩
  · rename_i hmiss
    rw [if_neg hmiss, same_answer (unconditional_same r)]
    exact h

theorem validator_ne (r : Incoming) : P.validator r ≠ [] := by
  simp [Place.validator, etagForPropfind, quoted]

end Origins

def asked : Incoming := { plainIncoming (js "http://h/alice/v/f") with depth := some (js "0") }

def filePlace : Place := ⟨⟨fun s => s⟩, js "alice/v", js "f", js "f"⟩

def fileVolume (data : Bytes) : Volume := { emptyVolume with files := [(js "f", ⟨some data, 9⟩)] }

def fileOrigin (data : Bytes) : Origin := ⟨calmEnv, fileVolume data, ⟨js "/alice/v", js "/alice/v"⟩⟩

def askedAgain : Incoming := { asked with ifNoneMatch := some (filePlace.validator asked) }

theorem asked_revalidates : Place.Revalidates askedAgain (filePlace.validator asked) :=
  ⟨_, rfl, filePlace.validator asked, by decide, by decide⟩

theorem drawn_afresh (P : Place) (r : Incoming) (o : Origin) : P.DrawnFrom r none (o.answer r P.path) o := by
  unfold Place.DrawnFrom
  rw [if_neg (by simp)]

theorem same_asked : SameQuestion asked askedAgain := ⟨rfl, rfl, rfl, rfl⟩

end DurableDav.Front
