import DurableDav.Dav.Properties
import DurableDav.Library.Rounding

namespace DurableDav.Dav

open Library
open Replication (Bytes isValidInnerPath parentOf)

/-! ### Ranges -/

structure ParsedRange where
  offset : ℕ
  length : Option ℕ
  contentRange : Option JsString
  status : ℕ
  deriving DecidableEq

def fullBody : ParsedRange := ⟨0, none, none, 200⟩

def unsatisfiable (size : ℕ) : ParsedRange := ⟨0, none, some (js "bytes */" ++ decimal size), 416⟩

def maxSafeInteger : ℕ := 2 ^ 53 - 1

def partialBody (offset length size : ℕ) : ParsedRange :=
  ⟨offset, some length, some (js "bytes " ++ decimal offset ++ dash :: decimal (offset + length - 1) ++
    slash :: decimal size), 206⟩

/-- The two numbers of a range. -/
def rangeBounds (header : JsString) : Option (JsString × JsString) := do
  let bare := trim header
  if (bare.take 6).map asciiLower = js "bytes=" then do
    let (first, last) ← cutAt dash (bare.drop 6)
    if first.all isDigitUnit ∧ last.all isDigitUnit then some (first, last) else none
  else none

/-- Digits as a number, of which a double keeps 53 bits. -/
def number (digits : JsString) : ℕ := roundBits 53 (digitsValue digits)

def suffixRange (last : JsString) (size : ℕ) : ParsedRange :=
  if last = [] then fullBody
  else if maxSafeInteger < number last ∨ number last = 0 then unsatisfiable size
  else partialBody (size - number last) (size - (size - number last)) size

def boundedRange (first last : JsString) (size : ℕ) : ParsedRange :=
  let offset := number first
  if maxSafeInteger < offset then fullBody
  else if size ≤ offset then unsatisfiable size
  else if last = [] then partialBody offset (size - offset) size
  -- the difference of two numbers is exact where it is safe
  else if maxSafeInteger < number last + 1 - offset then fullBody
  else if number last < offset then unsatisfiable size
  else partialBody offset (min (number last + 1 - offset) (size - offset)) size

def parseRangeHeader (header : Option JsString) (size : ℕ) : ParsedRange :=
  match header.filter (fun h => h ≠ []) with
  | none => fullBody
  | some text =>
    if size = 0 ∨ maxSafeInteger < size then fullBody
    else match rangeBounds text with
      | none => fullBody
      | some (first, last) => if first = [] then suffixRange last size else boundedRange first last size

/-! ### GET -/

structure Representing where
  status : ℕ
  contentType : JsString
  contentLength : ℕ
  etag : Option JsString
  lastModified : Option JsString
  contentRange : Option JsString
  -- nothing is sent for a HEAD
  body : Option Bytes

inductive GetAnswer
  | refused (response : Response)
  -- the precondition is answered with the validator, where there is one
  | conditional (verdict : Verdict)
  | unsatisfiable (contentRange : JsString)
  | listing (children : List (JsString × JsString × Bool))
  | headOfListing
  | file (representation : Representing)

namespace Env

variable (env : Env)

def kindsOf (path : JsString) : List JsString → Serve (List (JsString × JsString × Bool))
  | [] => pure []
  | name :: rest => do
    let st ← env.statInner (childInner path name)
    let kinds ← kindsOf path rest
    pure ((name, childInner path name, st.isDirectory) :: kinds)

def getListing (path : JsString) (headOnly : Bool) : Serve GetAnswer :=
  if headOnly then pure .headOfListing
  else do
    let names ← env.listChildren path
    let children ← env.kindsOf path names
    pure (.listing children)

/-- What a GET holds its conditions against. -/
def getRepresentation (row : Option NodeRow) (st : StatResult) : Representation :=
  ⟨row.bind NodeRow.etag, some ((row.map NodeRow.mtime).getD st.mtime)⟩

def getFile (r : Incoming) (path : JsString) (headOnly : Bool) (st : StatResult) : Serve GetAnswer := do
  let row ← env.readMeta path
  match r.check env.platform (getRepresentation row st) true with
  | some verdict => pure (.conditional verdict)
  | none =>
    let range := parseRangeHeader r.range st.size
    if range.status = 416 then pure (.unsatisfiable (range.contentRange.getD (js "bytes */" ++ decimal st.size)))
    else
      match ← (env.read path).attempt with
      | .error _ => pure (.refused .notFound)
      | .ok data =>
        let sent := match range.length with
          | none => data
          | some length => (data.drop range.offset).take length
        pure (.file {
          status := range.status
          contentType := (row.bind NodeRow.contentType).getD (js "application/octet-stream")
          contentLength := if range.length.isNone then st.size else sent.length
          etag := (row.bind NodeRow.etag).filter (fun e => e ≠ [])
          lastModified := ((row.map NodeRow.mtime).filter (fun m => m ≠ 0)).map env.platform.toUTCString
          contentRange := range.contentRange
          body := if headOnly then none else some sent })

def handleGet (r : Incoming) (path : JsString) (headOnly : Bool) : Serve GetAnswer := do
  let st ← env.statInner path
  if r.toRequest.endsInSlash env.platform ∨ path = [] ∨ st.isDirectory then
    if path ≠ [] ∧ (!st.found ∨ !st.isDirectory) then pure (.refused .notFound)
    else env.getListing path headOnly
  else if !st.found then pure (.refused .notFound)
  else env.getFile r path headOnly st

end Env

end DurableDav.Dav
