import DurableDav.Library.Runs
import DurableDav.Replication.DavHttpRemote

namespace DurableDav.Replication

open Library

/-! ### The calls of `removeRecursive` and their workers -/

structure RemoveRecursiveOptions where
  root : JsString
  ifMatch : Option JsString
  recursive : Bool

def deleteFanout : ℕ := 8

inductive RemovalWorker
  | ready
  | awaiting (call : ℕ)
  | finished
  | failed
  deriving DecidableEq

/-- What a call waits for, or how it has ended; a refused one has thrown before it asked for anything. -/
inductive RemovalPhase
  | refused
  | listing
  | joining
  | deleting
  | resolved
  | rejected
  deriving DecidableEq

def RemovalPhase.Thrown (p : RemovalPhase) : Prop := p = refused ∨ p = rejected

instance (p : RemovalPhase) : Decidable p.Thrown := inferInstanceAs (Decidable (_ ∨ _))

/-- One call, with the call that awaits it. -/
structure Removing where
  path : JsString
  depth : ℕ
  caller : Option ℕ
  phase : RemovalPhase
  children : List JsString := []
  index : ℕ := 0
  workers : List RemovalWorker := []
  deriving DecidableEq

inductive RemovalEvent
  | asked (path : JsString) (ifMatch : Option JsString)
  | listed (path : JsString) (children : List JsString)
  | deleted (path : JsString)
  deriving DecidableEq

/-- The calls in the order they were made, what they share, and what was asked and answered. -/
structure Removal where
  visited : List JsString := []
  calls : List Removing := []
  log : List RemovalEvent := []
  deriving DecidableEq

/-- What happens next: an answer comes in, a worker goes on, or the workers are joined. -/
inductive RemovalTurn
  | listed (call : ℕ) (children : List JsString)
  | unlisted (call : ℕ)
  | works (call worker : ℕ)
  | joined (call : ℕ)
  | deleted (call : ℕ)
  | undeleted (call : ℕ)
  deriving DecidableEq

namespace Removing

def answered (c : Removing) (children : List JsString) : Removing :=
  { c with
    phase := .joining
    children
    workers := List.replicate (min deleteFanout (max 1 children.length)) .ready }

def works (c : Removing) (j : ℕ) (w : RemovalWorker) : Removing := { c with workers := c.workers.set j w }

def takes (c : Removing) (j call : ℕ) : Removing := { c.works j (.awaiting call) with index := c.index + 1 }

def ends (c : Removing) (phase : RemovalPhase) : Removing := { c with phase }

end Removing

namespace Removal

def update (s : Removal) (i : ℕ) (c : Removing) : Removal := { s with calls := s.calls.set i c }

def logged (s : Removal) (e : RemovalEvent) : Removal := { s with log := s.log ++ [e] }

/-- The call, if it is in the phase. -/
def inPhase (s : Removal) (i : ℕ) (phase : RemovalPhase) : Option Removing :=
  s.calls[i]?.filter fun c => c.phase = phase

end Removal

namespace RemoveRecursiveOptions

variable (o : RemoveRecursiveOptions)

/-- A call up to the point where it first waits. -/
def removeRecursive (s : Removal) (caller : Option ℕ) (path : JsString) (depth : ℕ) : Removal :=
  if path ∈ s.visited then { s with calls := s.calls ++ [⟨path, depth, caller, .refused, [], 0, []⟩] }
  else if maxRemoveDepth < depth then
    { s with visited := path :: s.visited, calls := s.calls ++ [⟨path, depth, caller, .refused, [], 0, []⟩] }
  else if !o.recursive then
    { visited := path :: s.visited
      calls := s.calls ++ [⟨path, depth, caller, .deleting, [], 0, []⟩]
      log := s.log ++ [.asked path o.ifMatch] }
  else { s with visited := path :: s.visited, calls := s.calls ++ [⟨path, depth, caller, .listing, [], 0, []⟩] }

def initial : Removal := o.removeRecursive {} none o.root 0

/-- A worker from one `await` to the next; one that is at the head of its loop takes the next child. -/
def work (s : Removal) (i j : ℕ) (c : Removing) : RemovalWorker → Option Removal
  | .ready => match c.children[c.index]? with
    | some child =>
      some (o.removeRecursive (s.update i (c.takes j s.calls.length)) (some i) child (c.depth + 1))
    | none => some (s.update i (c.works j .finished))
  | .awaiting k => s.calls[k]?.bind fun awaited =>
    if awaited.phase = .resolved then some (s.update i (c.works j .ready))
    else if awaited.phase.Thrown then some (s.update i (c.works j .failed))
    else none
  | .finished | .failed => none

def step (s : Removal) : RemovalTurn → Option Removal
  | .listed i children => (s.inPhase i .listing).map fun c =>
    (s.update i (c.answered children)).logged (.listed c.path children)
  | .unlisted i => (s.inPhase i .listing).map fun c => s.update i (c.ends .rejected)
  | .works i j => s.calls[i]?.bind fun c => c.workers[j]?.bind (o.work s i j c)
  | .joined i => (s.inPhase i .joining).bind fun c =>
    if .failed ∈ c.workers then some (s.update i (c.ends .rejected))
    else if ∀ w ∈ c.workers, w = .finished then
      some ((s.update i (c.ends .deleting)).logged (.asked c.path o.ifMatch))
    else none
  | .deleted i => (s.inPhase i .deleting).map fun c =>
    (s.update i (c.ends .resolved)).logged (.deleted c.path)
  | .undeleted i => (s.inPhase i .deleting).map fun c => s.update i (c.ends .rejected)

/-- What some order of turns leads to. -/
def Reaches (s : Removal) : Prop := ∃ turns, run o.step o.initial turns = some s

end RemoveRecursiveOptions

/-! ### What a turn does -/

/-- A turn of one call: what it was, what becomes of it, and what is logged. -/
inductive Turned (o : RemoveRecursiveOptions) (s : Removal) (i : ℕ) (c : Removing) : Removing → List RemovalEvent → Prop
  | listed (children : List JsString) : c.phase = .listing →
      Turned o s i c (c.answered children) [.listed c.path children]
  | unlisted : c.phase = .listing → Turned o s i c (c.ends .rejected) []
  | finished (j : ℕ) : c.workers[j]? = some .ready → c.children.length ≤ c.index →
      Turned o s i c (c.works j .finished) []
  | resumed (j k : ℕ) (awaited : Removing) : c.workers[j]? = some (.awaiting k) → s.calls[k]? = some awaited →
      awaited.phase = .resolved → Turned o s i c (c.works j .ready) []
  | failed (j k : ℕ) (awaited : Removing) : c.workers[j]? = some (.awaiting k) → s.calls[k]? = some awaited →
      awaited.phase.Thrown → Turned o s i c (c.works j .failed) []
  | broken : c.phase = .joining → .failed ∈ c.workers → Turned o s i c (c.ends .rejected) []
  | joined : c.phase = .joining → (∀ w ∈ c.workers, w = .finished) →
      Turned o s i c (c.ends .deleting) [.asked c.path o.ifMatch]
  | deleted : c.phase = .deleting → Turned o s i c (c.ends .resolved) [.deleted c.path]
  | undeleted : c.phase = .deleting → Turned o s i c (c.ends .rejected) []

section Steps

variable {o : RemoveRecursiveOptions} {s s' : Removal} {i : ℕ} {c : Removing} {phase : RemovalPhase}

theorem inPhase_eq_some : s.inPhase i phase = some c ↔ s.calls[i]? = some c ∧ c.phase = phase := by
  simp [Removal.inPhase, Option.filter_eq_some_iff]

/-- A turn changes one call, or a worker of one takes a child and calls for it. -/
theorem step_cases {t : RemovalTurn} (h : o.step s t = some s') :
    (∃ i c c' events, s.calls[i]? = some c ∧ Turned o s i c c' events ∧
      s' = { s.update i c' with log := s.log ++ events }) ∨
    ∃ i c j child, s.calls[i]? = some c ∧ c.workers[j]? = some .ready ∧ c.children[c.index]? = some child ∧
      s' = o.removeRecursive (s.update i (c.takes j s.calls.length)) (some i) child (c.depth + 1) := by
  have hquiet (i : ℕ) (c : Removing) : s.update i c = { s.update i c with log := s.log ++ [] } := by
    rw [List.append_nil]
    rfl
  cases t with
  | listed i children =>
    obtain ⟨c, hc, rfl⟩ := Option.map_eq_some_iff.mp h
    obtain ⟨hc, hphase⟩ := inPhase_eq_some.mp hc
    exact .inl ⟨i, c, _, _, hc, .listed children hphase, rfl⟩
  | unlisted i =>
    obtain ⟨c, hc, rfl⟩ := Option.map_eq_some_iff.mp h
    obtain ⟨hc, hphase⟩ := inPhase_eq_some.mp hc
    exact .inl ⟨i, c, _, _, hc, .unlisted hphase, hquiet _ _⟩
  | works i j =>
    obtain ⟨c, hc, h⟩ := Option.bind_eq_some_iff.mp h
    obtain ⟨w, hw, h⟩ := Option.bind_eq_some_iff.mp h
    cases w with
    | ready =>
      unfold RemoveRecursiveOptions.work at h
      cases hchild : c.children[c.index]? with
      | none =>
        rw [hchild] at h
        obtain rfl := Option.some.inj h
        exact .inl ⟨i, c, _, _, hc, .finished j hw (List.getElem?_eq_none_iff.mp hchild), hquiet _ _⟩
      | some child =>
        rw [hchild] at h
        obtain rfl := Option.some.inj h
        exact .inr ⟨i, c, j, child, hc, hw, hchild, rfl⟩
    | awaiting k =>
      obtain ⟨awaited, hk, h⟩ := Option.bind_eq_some_iff.mp h
      split_ifs at h with hresolved hthrown
      · obtain rfl := Option.some.inj h
        exact .inl ⟨i, c, _, _, hc, .resumed j k awaited hw hk hresolved, hquiet _ _⟩
      · obtain rfl := Option.some.inj h
        exact .inl ⟨i, c, _, _, hc, .failed j k awaited hw hk hthrown, hquiet _ _⟩
    | finished => cases h
    | failed => cases h
  | joined i =>
    obtain ⟨c, hc, h⟩ := Option.bind_eq_some_iff.mp h
    obtain ⟨hc, hphase⟩ := inPhase_eq_some.mp hc
    split_ifs at h with hfailed hall
    · obtain rfl := Option.some.inj h
      exact .inl ⟨i, c, _, _, hc, .broken hphase hfailed, hquiet _ _⟩
    · obtain rfl := Option.some.inj h
      exact .inl ⟨i, c, _, _, hc, .joined hphase hall, rfl⟩
  | deleted i =>
    obtain ⟨c, hc, rfl⟩ := Option.map_eq_some_iff.mp h
    obtain ⟨hc, hphase⟩ := inPhase_eq_some.mp hc
    exact .inl ⟨i, c, _, _, hc, .deleted hphase, rfl⟩
  | undeleted i =>
    obtain ⟨c, hc, rfl⟩ := Option.map_eq_some_iff.mp h
    obtain ⟨hc, hphase⟩ := inPhase_eq_some.mp hc
    exact .inl ⟨i, c, _, _, hc, .undeleted hphase, hquiet _ _⟩

/-- What a call is at its start. -/
theorem removeRecursive_eq (s : Removal) (caller : Option ℕ) (path : JsString) (depth : ℕ) :
    ∃ phase visited events, o.removeRecursive s caller path depth =
        ⟨visited, s.calls ++ [⟨path, depth, caller, phase, [], 0, []⟩], s.log ++ events⟩ ∧
      (path ∈ visited ∧ s.visited ⊆ visited) ∧
      ((phase = .refused ∧ events = []) ∨
        path ∉ s.visited ∧ depth ≤ maxRemoveDepth ∧
          (phase = .listing ∧ events = [] ∨ phase = .deleting ∧ events = [.asked path o.ifMatch])) := by
  unfold RemoveRecursiveOptions.removeRecursive
  split_ifs with hvisited hdepth hrecursive
  · exact ⟨.refused, s.visited, [], by simp, ⟨hvisited, List.Subset.refl _⟩, .inl ⟨rfl, rfl⟩⟩
  · exact ⟨.refused, path :: s.visited, [], by simp, ⟨by simp, by simp⟩, .inl ⟨rfl, rfl⟩⟩
  · exact ⟨.deleting, path :: s.visited, _, rfl, ⟨by simp, by simp⟩, .inr ⟨hvisited, by omega, .inr ⟨rfl, rfl⟩⟩⟩
  · exact ⟨.listing, path :: s.visited, [], by simp, ⟨by simp, by simp⟩, .inr ⟨hvisited, by omega, .inl ⟨rfl, rfl⟩⟩⟩

end Steps

end DurableDav.Replication
