import DurableDav.Dav.ReplicaWrites
import DurableDav.Dav.Course

namespace DurableDav.Dav

open Library
open Replication (Bytes isValidInnerPath parentOf)

/-! ### The requests that write -/

inductive Verb
  | put (maxFileBytes : ℕ)
  | delete
  | mkcol
  | proppatch
  | copy
  | move
  | lock (uuid : Uuid)
  | unlock

structure Exchange where
  verb : Verb
  request : Incoming
  path : JsString
  bases : DavBases

namespace Env

variable (env : Env)

def handle (x : Exchange) : Serve Response := match x.verb with
  | .put maxFileBytes => env.handlePut x.request x.path maxFileBytes
  | .delete => env.handleDelete x.request.toRequest x.path
  | .mkcol => env.handleMkcol x.request x.path
  | .proppatch => do
    let answer ← env.handleProppatch x.request x.path x.bases
    pure answer.response
  | .copy => env.handleCopy x.request.toRequest x.path x.bases
  | .move => env.handleMove x.request.toRequest x.path x.bases
  | .lock uuid => env.handleLock uuid x.request x.path x.bases
  | .unlock => env.handleUnlock x.request.toRequest x.path

/-- A path that is not valid is refused, and what a handler raises is answered. -/
def serve (x : Exchange) : Serve Response :=
  if !isValidInnerPath x.path then pure .badRequest
  else do
    match ← (env.handle x).attempt with
    | .ok response => pure response
    | .error _ => pure .internalServerError

/-- The volume that a program leaves. -/
def after {α : Type} (x : Serve α) (v : Volume) : Volume := (x.run ⟨v, []⟩).2.volume

end Env

/-- The status a request is answered with. -/
def Volume.statusOf (v : Volume) (x : Serve Response) : Option ℕ := (x.run ⟨v, []⟩).1.toOption.map Response.status

end DurableDav.Dav
