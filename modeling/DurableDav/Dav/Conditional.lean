import DurableDav.Dav.Incoming

namespace DurableDav.Dav

open Library

/-! ### Validators -/

def weakEtagValue (value : JsString) : JsString := stripStart (js "W/") (trim value)

def matchesEtagList (headerValue etag : JsString) : Bool :=
  weakEtagValue etag ∈ (headerValue.splitOn 44).map weakEtagValue

/-- The validator of a write, from the size it records and the time of it. -/
def mintEtag (size now : ℕ) : JsString := 34 :: hexadecimal size ++ dash :: hexadecimal now ++ [34]

def IfCondition.etags : IfCondition → List (JsString × Bool)
  | etag value negated => [(value, negated)]
  | _ => []

def Request.getIfHeaderEtags (p : Platform) (r : Request) : List (JsString × Bool) :=
  (parseIfHeader p r.ifHeader).flatMap IfCondition.etags

/-! ### The conditional guard -/

inductive Verdict
  | preconditionFailed (header : JsString)
  | notModified (etag : Option JsString)
  deriving DecidableEq

def Verdict.response : Verdict → Response
  | preconditionFailed header => ⟨412, .text (js "Precondition Failed: " ++ header), none⟩
  | notModified _ => ⟨304, .none, none⟩

/-- What a resource's metadata say of its representation. -/
structure Representation where
  etag : Option JsString
  mtime : Option ℕ

namespace Incoming

variable (p : Platform) (r : Incoming) (c : Representation)

def ifMatchFails : Bool := match r.ifMatch with
  | none => false
  | some header => if trim header = js "*" then c.etag.isNone else !c.etag.any (matchesEtagList header)

/-- The whole second a representation was modified in. -/
def modifiedSecond (mtime : ℕ) : ℤ := mtime / 1000 * 1000

def ifUnmodifiedSinceFails : Bool := match r.ifMatch, r.ifUnmodifiedSince.bind p.parseDate, c.mtime with
  | none, some since, some mtime => since < modifiedSecond mtime
  | _, _, _ => false

def ifNoneMatchHits : Bool := match r.ifNoneMatch with
  | none => false
  | some header => trim header = js "*" ∨ c.etag.any (matchesEtagList header)

def ifEtagHolds (condition : JsString × Bool) : Bool :=
  xor condition.2 (c.etag.any (matchesEtagList condition.1))

def ifHeaderFails : Bool :=
  r.toRequest.getIfHeaderEtags p ≠ [] ∧ !(r.toRequest.getIfHeaderEtags p).any (ifEtagHolds c)

def isUnmodified : Bool := match r.ifNoneMatch, r.ifModifiedSince.bind p.parseDate, c.mtime with
  | none, some since, some mtime => modifiedSecond mtime ≤ since
  | _, _, _ => false

def check (forRead : Bool) : Option Verdict :=
  if r.ifMatchFails c then some (.preconditionFailed (js "If-Match"))
  else if r.ifUnmodifiedSinceFails p c then some (.preconditionFailed (js "If-Unmodified-Since"))
  else if r.ifNoneMatchHits c then
    some (if forRead then .notModified (c.etag.filter (fun e => e ≠ [])) else .preconditionFailed (js "If-None-Match"))
  else if r.ifHeaderFails p c then some (.preconditionFailed (js "If"))
  else if forRead ∧ r.isUnmodified p c then some (.notModified (c.etag.filter (fun e => e ≠ [])))
  else none

end Incoming

end DurableDav.Dav
