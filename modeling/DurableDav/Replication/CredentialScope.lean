import DurableDav.Replication.DavHttpRemote

namespace DurableDav.Replication

open Library Act
open Dav (Url)

/-! ### Sessions -/

inductive RemoteCall
  | list (path : JsString)
  | stat (path : JsString)
  | readFile (path : JsString)
  | writeFile (path : JsString) (body : RequestBody) (contentType ifMatch : Option JsString)
  | makeCollection (path : JsString)
  | remove (path : JsString) (ifMatch : Option JsString) (recursive : Bool)
  | probe

namespace DavHttpRemote

variable (c : DavHttpRemote)

def perform : RemoteCall → Exchange Unit
  | .list path => do let _ ← c.list path
  | .stat path => do let _ ← c.stat path
  | .readFile path => do let _ ← c.readFile path
  | .writeFile path body contentType ifMatch => do let _ ← c.writeFile path body contentType ifMatch
  | .makeCollection path => c.makeCollection path
  | .remove path ifMatch recursive => c.remove path ifMatch recursive
  | .probe => do let _ ← c.probe

/-- All requests of a run of operations, whichever of them fail. -/
def log (calls : List RemoteCall) : List Sent :=
  ((each (fun call => do let _ ← (c.perform call).attempt) calls).run []).2

/-! ### Where requests go -/

/-- No credential and no byte of a file leaves the configured origin. -/
def Confined (log : List Sent) : Prop :=
  ∀ sent ∈ log, sent.authorization.isSome ∨ sent.method = .put → sent.url.origin = c.base.origin

/-- The last request was redirected there, and the egress policy let the redirect pass. -/
def Redirected (before : List Sent) (url : Url) : Prop :=
  ∃ older last response location, before = older ++ [last] ∧ c.answer before = some response ∧
    response.redirect = some location ∧ c.resolveRedirectUrl last.url location = .ok url

def Reaches (before : List Sent) (url : Url) : Prop := url.origin = c.base.origin ∨ c.Redirected before url

def Accounted (log : List Sent) : Prop :=
  ∀ before sent after, log = before ++ sent :: after →
    sent.authorization = c.authHeader.authorization ∧ c.Reaches before sent.url

/-- No redirect that was followed named another origin. -/
def StaysHome (log : List Sent) : Prop :=
  ∀ before sent after, log = before ++ sent :: after → c.Redirected before sent.url →
    sent.url.origin = c.base.origin

variable {c} {log : List Sent}

theorem Accounted.snoc {sent : Sent} (h : c.Accounted log)
    (hauth : sent.authorization = c.authHeader.authorization) (hurl : c.Reaches log sent.url) :
    c.Accounted (log ++ [sent]) := by
  intro before other after hsplit
  rcases List.eq_nil_or_concat after with rfl | ⟨rest, x, rfl⟩
  · obtain ⟨rfl, hlast⟩ := List.append_inj' hsplit rfl
    obtain rfl : sent = other := by simpa using hlast
    exact ⟨hauth, hurl⟩
  · rw [List.concat_eq_append, ← List.cons_append, ← List.append_assoc] at hsplit
    obtain ⟨hinit, -⟩ := List.append_inj' hsplit rfl
    exact h before other rest hinit

theorem Accounted.confined (h : c.Accounted log) (hhome : c.StaysHome log) : c.Confined log := by
  intro sent hsent _
  obtain ⟨before, after, rfl⟩ := List.append_of_mem hsent
  rcases (h before sent after rfl).2 with horigin | hredirected
  · exact horigin
  · exact hhome before sent after rfl hredirected

/-! ### Each operation accounts for what it asks -/

/-- A program that accounts for its requests, however it ends. -/
def Accounts {α : Type} (c : DavHttpRemote) (x : Exchange α) : Prop :=
  Meets c.Accounted x (fun _ => c.Accounted) c.Accounted

section Accounts

variable {α β : Type} {x : Exchange α} {f : α → Exchange β}

theorem accounts_pure (a : α) : c.Accounts (pure a : Exchange α) := meets_pure fun _ h => h

theorem accounts_throw (e : RemoteError) : c.Accounts (.throw e : Exchange α) := meets_throw fun _ h => h

theorem accounts_bind (hx : c.Accounts x) (hf : ∀ a, c.Accounts (f a)) : c.Accounts (x >>= f) := meets_bind hx hf

theorem accounts_ite {P : Prop} [Decidable P] {y : Exchange α} (hx : c.Accounts x) (hy : c.Accounts y) :
    c.Accounts (if P then x else y) := by
  split
  · exact hx
  · exact hy

theorem accounts_foldlM {g : β → α → Exchange β} {as : List α} {b : β} (hg : ∀ b a, c.Accounts (g b a)) :
    c.Accounts (as.foldlM g b) := by
  induction as generalizing b with
  | nil => exact accounts_pure b
  | cons a as ih => exact accounts_bind (hg b a) fun _ => ih

end Accounts

theorem fetch_meets (init : RequestInit) (target : Url) (hop : ℕ) :
    Meets (fun log => c.Accounted log ∧ c.Reaches log target) (c.fetch init target hop)
      (fun response log => c.Accounted log ∧ c.answer log = some response ∧ ∃ older last, log = older ++ [last] ∧
        last.url = target)
      c.Accounted := by
  unfold fetch
  split
  · exact meets_throw fun _ h => h.1
  · apply meets_bind (R := fun _ log => c.Accounted log ∧ ∃ older last, log = older ++ [last] ∧ last.url = target)
    · exact meets_modify fun log h => ⟨h.1.snoc rfl h.2, log, _, rfl, rfl⟩
    · intro _
      apply meets_read_bind
      intro log hlog
      cases hanswer : c.answer log with
      | none => exact meets_throw fun s hs => hs ▸ hlog.1
      | some response => exact meets_pure fun s hs => hs ▸ ⟨hlog.1, hanswer, hlog.2⟩

/-- On the hops: each starts where the configured origin or the redirect before it leads. -/
theorem hops_meets (init : RequestInit) (path : JsString) (budget : ℕ) (target : Url) (visited : List Url) :
    Meets (fun log => c.Accounted log ∧ c.Reaches log target) (c.hops init path budget target visited)
      (fun _ => c.Accounted) c.Accounted := by
  induction budget generalizing target visited with
  | zero =>
    unfold hops
    apply meets_bind (fetch_meets init target _)
    intro response
    cases response.redirect with
    | none => exact meets_pure fun _ h => h.1
    | some location => exact meets_throw fun _ h => h.1
  | succ budget ih =>
    unfold hops
    apply meets_bind (fetch_meets init target _)
    intro response
    cases hredirect : response.redirect with
    | none => exact meets_pure fun _ h => h.1
    | some location =>
      dsimp only
      cases hresolve : c.resolveRedirectUrl target location with
      | error refusal =>
        cases refusal with
        | rejected message => exact meets_throw fun _ h => h.1
        | broken message => exact meets_throw fun _ h => h.1
      | ok next =>
        dsimp only
        split
        · exact meets_throw fun _ h => h.1
        · refine (ih next (next :: visited)).weaken ?_ (fun _ _ h => h) fun _ h => h
          rintro log ⟨haccounted, hanswer, older, last, hlog, hlast⟩
          exact ⟨haccounted, .inr ⟨older, last, response, location, hlog, hanswer, hredirect, hlast ▸ hresolve⟩⟩

theorem joinUrl_origin {base url : Url} {segments : List JsString} (h : joinUrl base segments = some url) :
    url.origin = base.origin := by
  unfold joinUrl at h
  obtain ⟨encoded, -, hurl⟩ := Option.bind_eq_some_iff.mp h
  exact (congrArg Url.origin (Option.some.inj hurl)).symm

theorem request_accounts (path : JsString) (init : RequestInit) : c.Accounts (c.request path init) := by
  unfold request
  cases hjoin : joinUrl c.base [c.rootInner, path] with
  | none => exact accounts_throw _
  | some target =>
    refine (hops_meets init path c.maxRedirects target [target]).weaken ?_ (fun _ _ h => h) fun _ h => h
    intro log hlog
    exact ⟨hlog, .inl (joinUrl_origin hjoin)⟩

theorem refusedBy_accounts {α : Type} (method : Method) (path : JsString) (r : Response) :
    c.Accounts (refusedBy method path r : Exchange α) := accounts_throw _

theorem propfind_accounts (path : JsString) : c.Accounts (c.propfind path) := by
  apply accounts_bind (request_accounts path _)
  intro response
  apply accounts_ite (accounts_pure _)
  apply accounts_ite _ (refusedBy_accounts _ _ _)
  cases c.parseMultiStatus response.text with
  | none => exact accounts_throw _
  | some parsed => exact accounts_pure _

theorem deleteOne_accounts (path : JsString) (ifMatch : Option JsString) : c.Accounts (c.deleteOne path ifMatch) :=
  accounts_bind (request_accounts path _) fun _ => accounts_ite (accounts_pure _) (refusedBy_accounts _ _ _)

theorem removeRecursive_accounts (ifMatch : Option JsString) (recursive : Bool) (levels : ℕ) (path : JsString)
    (visited : List JsString) : c.Accounts (c.removeRecursive ifMatch recursive levels path visited) := by
  induction levels generalizing path visited with
  | zero =>
    unfold removeRecursive
    exact accounts_ite (accounts_throw _) (accounts_throw _)
  | succ levels ih =>
    unfold removeRecursive
    apply accounts_ite (accounts_throw _)
    apply accounts_ite
    · exact accounts_bind (deleteOne_accounts path ifMatch) fun _ => accounts_pure _
    · apply accounts_bind (propfind_accounts path)
      intro listing
      apply accounts_bind (accounts_foldlM fun visited (child : PlanSide) => ih child.path visited)
      intro visited
      exact accounts_bind (deleteOne_accounts path ifMatch) fun _ => accounts_pure _

theorem perform_accounts (call : RemoteCall) : c.Accounts (c.perform call) := by
  cases call with
  | list path => exact accounts_bind (propfind_accounts path) fun _ => accounts_pure _
  | stat path =>
    apply accounts_bind _ fun _ => accounts_pure _
    exact accounts_bind (propfind_accounts _) fun _ => accounts_pure _
  | readFile path =>
    apply accounts_bind _ fun _ => accounts_pure _
    apply accounts_bind (request_accounts path _)
    intro response
    exact accounts_ite (accounts_pure _) (accounts_ite (refusedBy_accounts _ _ _) (accounts_pure _))
  | writeFile path body contentType ifMatch =>
    apply accounts_bind _ fun _ => accounts_pure _
    apply accounts_bind (request_accounts path _)
    intro response
    exact accounts_ite (accounts_throw _) (accounts_ite (refusedBy_accounts _ _ _) (accounts_pure _))
  | makeCollection path =>
    exact accounts_bind (request_accounts path _) fun _ => accounts_ite (accounts_pure _) (refusedBy_accounts _ _ _)
  | remove path ifMatch recursive =>
    exact accounts_bind (removeRecursive_accounts ifMatch recursive _ path []) fun _ => accounts_pure _
  | probe =>
    apply accounts_bind _ fun _ => accounts_pure _
    apply accounts_bind (request_accounts [] _)
    intro response
    apply accounts_ite (refusedBy_accounts _ _ _)
    cases response.dav with
    | none => exact accounts_throw _
    | some dav => exact accounts_pure _

theorem session_accounts (calls : List RemoteCall) :
    c.Accounts (each (fun call => do let _ ← (c.perform call).attempt) calls) := by
  induction calls with
  | nil => exact accounts_pure ()
  | cons call calls ih =>
    apply accounts_bind _ fun _ => ih
    apply accounts_bind _ fun _ => accounts_pure _
    refine (meets_attempt (perform_accounts call)).weaken (fun _ h => h) ?_ fun _ h => h.elim
    intro r log hlog
    cases r <;> exact hlog

theorem log_accounted (calls : List RemoteCall) : c.Accounted (c.log calls) := by
  apply (session_accounts calls).after
  intro before sent after hsplit
  exact (List.append_ne_nil_of_right_ne_nil before (List.cons_ne_nil sent after) hsplit.symm).elim

/-- A credential, or the bytes of a file, leave the configured origin only by a redirect the egress policy accepted. -/
theorem leaves_only_by_redirect (c : DavHttpRemote) (calls : List RemoteCall) :
    c.Accounted (c.log calls) ∧ (c.StaysHome (c.log calls) → c.Confined (c.log calls)) :=
  ⟨log_accounted calls, (log_accounted calls).confined⟩

/-! ### A server that sends its visitors on -/

def lured : DavHttpRemote where
  base := ⟨js "https://dav.example.com", js "/files"⟩
  rootPathname := js "/files"
  rootInner := []
  authHeader := .bearer (js "token")
  maxRedirects := 5
  resolveRedirectUrl := fun url location =>
    if js "https://evil.example.com" <+: location then .ok ⟨js "https://evil.example.com", location.drop 24⟩
    else if js "/" <+: location then .ok ⟨url.origin, location⟩
    else .error (.rejected (js "host is not allowed"))
  parseMultiStatus := fun _ => none
  answer := fun sent =>
    if sent.length = 1 then some ⟨302, some (js "https://evil.example.com/a"), none, none, none, []⟩
    else some ⟨200, none, none, none, some [], []⟩

theorem credential_is_carried_away : ¬ ∀ c calls, DavHttpRemote.Confined c (c.log calls) := by
  intro h
  have hlog : ((lured.log [.readFile (js "a")]).map fun sent => (sent.authorization, sent.url.origin)) =
      [(some (js "Bearer token"), js "https://dav.example.com"),
        (some (js "Bearer token"), js "https://evil.example.com")] := by
    decide
  have hsent := List.mem_map.mp (hlog ▸ List.mem_cons_of_mem _ List.mem_cons_self)
  obtain ⟨sent, hmem, heq⟩ := hsent
  obtain ⟨hauth, horigin⟩ := Prod.mk.inj heq
  have hhome := h lured [.readFile (js "a")] sent hmem (.inl (by rw [hauth]; rfl))
  rw [horigin] at hhome
  revert hhome
  decide

end DavHttpRemote

end DurableDav.Replication
