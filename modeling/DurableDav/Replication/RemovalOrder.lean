import Mathlib.Logic.Relation
import DurableDav.Replication.RemovalInvariant

namespace DurableDav.Replication

open Library

/-! ### What is asked of the server, and in which order -/

def RemovalEvent.asks : RemovalEvent → Option JsString
  | asked p _ => some p
  | _ => none

/-- A resource is asked to be deleted when all that was listed in it is deleted, and not twice. -/
structure BottomUp (log : List RemovalEvent) : Prop where
  ordered : ∀ before p m after, log = before ++ .asked p m :: after →
    ∀ cs, .listed p cs ∈ log → ∀ c ∈ cs, .deleted c ∈ before
  once : (log.filterMap RemovalEvent.asks).Nodup

section Order

variable {o : RemoveRecursiveOptions} {s s' : Removal} {i : ℕ} {c c' : Removing}
variable {log events : List RemovalEvent} {e : RemovalEvent}

theorem mem_asks {p : JsString} : p ∈ log.filterMap RemovalEvent.asks ↔ ∃ m, .asked p m ∈ log := by
  rw [List.mem_filterMap]
  constructor
  · rintro ⟨e, he, hasks⟩
    cases e with
    | asked q m =>
      obtain rfl := Option.some.inj hasks
      exact ⟨m, he⟩
    | listed q cs => cases hasks
    | deleted q => cases hasks
  · rintro ⟨m, hm⟩
    exact ⟨_, hm, rfl⟩

theorem bottomUp_concat (h : BottomUp log)
    (hasked : ∀ p m, e = .asked p m → (∀ cs, .listed p cs ∈ log → ∀ c ∈ cs, .deleted c ∈ log) ∧ ∀ m', .asked p m' ∉ log)
    (hlisted : ∀ p cs, e = .listed p cs → ∀ m, .asked p m ∉ log) : BottomUp (log ++ [e]) := by
  constructor
  · intro before p m after heq cs hcs c hc
    rcases List.eq_nil_or_concat after with rfl | ⟨after, e', rfl⟩
    · obtain ⟨rfl, hlast⟩ := List.append_inj' heq rfl
      obtain rfl := List.singleton_inj.mp hlast
      have hold : .listed p cs ∈ log := (List.mem_append.mp hcs).resolve_right (by simp)
      exact (hasked p m rfl).1 cs hold c hc
    · rw [List.concat_eq_append, ← List.cons_append, ← List.append_assoc] at heq
      obtain ⟨rfl, -⟩ := List.append_inj' heq rfl
      rcases List.mem_append.mp hcs with hold | hnew
      · exact h.ordered before p m after rfl cs hold c hc
      · exact absurd (by simp) (hlisted p cs (List.mem_singleton.mp hnew).symm m)
  · rw [List.filterMap_append, List.nodup_append]
    refine ⟨h.once, ?_, ?_⟩
    · cases e with
      | asked p m => exact List.nodup_singleton p
      | listed p cs => exact List.nodup_nil
      | deleted p => exact List.nodup_nil
    · rintro p hp q hq rfl
      obtain ⟨m, hm⟩ := mem_asks.mp hq
      obtain ⟨m', hm'⟩ := mem_asks.mp hp
      exact (hasked p m (List.mem_singleton.mp hm).symm).2 m' hm'

/-- When all workers of a call are finished, what it listed is deleted. -/
theorem children_deleted (hs : s.Sound) (hc : s.calls[i]? = some c) (hphase : c.phase = .joining)
    (hall : ∀ w ∈ c.workers, w = .finished) : ∀ child ∈ c.children, .deleted child ∈ s.log := by
  intro child hchild
  have hsound := hs.calls i c hc
  obtain ⟨w, hw⟩ := List.exists_mem_of_ne_nil _ (hsound.manned hphase)
  have hend := hsound.exhausted (hall w hw ▸ hw)
  obtain ⟨n, hn, hget⟩ := List.getElem_of_mem hchild
  obtain ⟨k, d, hd, hcaller, rfl⟩ := hs.started i c hc n (by omega) child (by rw [← hget]; exact List.getElem?_eq_getElem hn)
  obtain ⟨-, c₀, hc₀, hstate⟩ := hs.awaited k d i hd hcaller
  obtain rfl := Option.some.inj (hc.symm.trans hc₀)
  rcases hstate with hdone | hwaits | hfailed
  · exact hs.resolved k d hd hdone
  · cases hall _ hwaits
  · cases hall _ hfailed

/-- A call that has not asked yet is the only one that could. -/
theorem unasked (hs : s.Sound) (hc : s.calls[i]? = some c) (hphase : c.phase = .listing ∨ c.phase = .joining)
    (m : Option JsString) : .asked c.path m ∉ s.log := by
  intro hlog
  obtain ⟨k, d, hd, ⟨hasked, -⟩, hpath⟩ := hs.asked c.path m hlog
  have hentered : c.phase ≠ .refused := by rcases hphase with h | h <;> rw [h] <;> nofun
  have hentered' : d.phase ≠ .refused := by rcases hasked with h | h | h <;> rw [h] <;> nofun
  obtain rfl := hs.alone i c hc hentered k d hd hentered' hpath.symm
  obtain rfl := Option.some.inj (hc.symm.trans hd)
  rcases hphase with h | h <;> rw [h] at hasked <;> rcases hasked with h | h | h <;> cases h

theorem bottomUp_turned (hs : s.Sound) (hlog : BottomUp s.log) (hc : s.calls[i]? = some c)
    (h : Turned o s i c c' events) : BottomUp (s.log ++ events) := by
  have hquiet : BottomUp (s.log ++ []) := by rwa [List.append_nil]
  cases h with
  | listed children hphase =>
    refine bottomUp_concat hlog nofun ?_
    intro p cs heq m
    obtain ⟨rfl, -⟩ := RemovalEvent.listed.inj heq
    exact unasked hs hc (.inl hphase) m
  | joined hphase hall =>
    refine bottomUp_concat hlog ?_ nofun
    intro p m heq
    obtain ⟨rfl, -⟩ := RemovalEvent.asked.inj heq
    refine ⟨?_, unasked hs hc (.inr hphase)⟩
    intro cs hcs child hchild
    obtain ⟨k, d, hd, ⟨hentered, -⟩, hpath, rfl⟩ := hs.listed _ cs hcs
    obtain rfl := hs.alone i c hc (by rw [hphase]; nofun) k d hd hentered hpath.symm
    obtain rfl := Option.some.inj (hc.symm.trans hd)
    exact children_deleted hs hc hphase hall child hchild
  | deleted hphase => exact bottomUp_concat hlog nofun nofun
  | _ => exact hquiet

theorem bottomUp_entered {child : JsString} {phase : RemovalPhase} (hs : s.Sound) (hlog : BottomUp s.log)
    (hcases : phase = .refused ∧ events = [] ∨ child ∉ s.visited ∧
      (phase = .listing ∧ events = [] ∨ phase = .deleting ∧ events = [.asked child o.ifMatch])) :
    BottomUp (s.log ++ events) := by
  rcases hcases with ⟨-, rfl⟩ | ⟨hno, ⟨-, rfl⟩ | ⟨-, rfl⟩⟩
  · rwa [List.append_nil]
  · rwa [List.append_nil]
  · refine bottomUp_concat hlog ?_ nofun
    intro p m heq
    obtain ⟨rfl, -⟩ := RemovalEvent.asked.inj heq
    constructor
    · intro cs hcs
      obtain ⟨k, d, hd, ⟨hentered, -⟩, rfl, -⟩ := hs.listed _ cs hcs
      exact absurd (hs.entered k d hd hentered) hno
    · intro m' hm'
      obtain ⟨k, d, hd, ⟨hasked, -⟩, rfl⟩ := hs.asked _ m' hm'
      exact hno (hs.entered k d hd (by rcases hasked with h | h | h <;> rw [h] <;> nofun))

theorem step_kept {t : RemovalTurn} (hs : s.Sound ∧ BottomUp s.log) (h : o.step s t = some s') :
    s'.Sound ∧ BottomUp s'.log := by
  rcases step_cases h with ⟨i, c, c', events, hc, hturned, rfl⟩ | ⟨i, c, j, child, hc, hw, hchild, rfl⟩
  · exact ⟨sound_turned hs.1 hc hturned, bottomUp_turned hs.1 hs.2 hc hturned⟩
  · refine ⟨sound_taken hs.1 hc hw hchild, ?_⟩
    obtain ⟨phase, visited, events, heq, -, hcases⟩ := removeRecursive_eq (o := o)
      (s.update i (c.takes j s.calls.length)) (some i) child (c.depth + 1)
    rw [heq]
    exact bottomUp_entered (s := s) hs.1 hs.2 (hcases.imp id fun h => ⟨h.1, h.2.2⟩)

theorem initial_bottomUp (o : RemoveRecursiveOptions) : BottomUp o.initial.log := by
  obtain ⟨phase, visited, events, heq, -, hcases⟩ := removeRecursive_eq (o := o) {} none o.root 0
  have hnone : BottomUp [] := ⟨fun before p m after h => by simp at h, List.nodup_nil⟩
  unfold RemoveRecursiveOptions.initial
  rw [heq]
  rcases hcases with ⟨-, rfl⟩ | ⟨-, -, ⟨-, rfl⟩ | ⟨-, rfl⟩⟩
  · exact hnone
  · exact hnone
  · exact bottomUp_concat hnone (fun p m _ => ⟨fun cs hcs => absurd hcs List.not_mem_nil, fun _ => List.not_mem_nil⟩) nofun

theorem reaches_kept (h : o.Reaches s) : s.Sound ∧ BottomUp s.log := by
  obtain ⟨turns, hrun⟩ := h
  have hadmitted : ∀ (ts : List RemovalTurn) (s : Removal), Admitted o.step (fun _ _ => True) s ts := by
    intro ts
    induction ts with
    | nil => exact fun _ => trivial
    | cons t ts ih => exact fun s => ⟨trivial, fun s' _ => ih s'⟩
  exact run_preserves (P := fun s => s.Sound ∧ BottomUp s.log) (fun s t s' hs _ hstep => step_kept hs hstep)
    ⟨initial_sound o, initial_bottomUp o⟩ (hadmitted turns _) hrun

end Order

/-! ### How a removal ends -/

def RemovalPhase.Settled (p : RemovalPhase) : Prop := p = resolved ∨ p.Thrown

/-- One call was made for the other, if by way of others. -/
def Removal.Below (s : Removal) : ℕ → ℕ → Prop :=
  Relation.TransGen fun i k => ∃ d, s.calls[k]? = some d ∧ d.caller = some i

section Ends

variable {o : RemoveRecursiveOptions} {s : Removal} {i k : ℕ} {c d : Removing}

/-- A worker that is neither finished nor failed can go on, if what it waits for is settled. -/
theorem works_on {j : ℕ} {w : RemovalWorker} (hs : s.Sound) (hc : s.calls[i]? = some c) (hw : c.workers[j]? = some w)
    (hfinished : w ≠ .finished) (hfailed : w ≠ .failed)
    (hsettled : ∀ k d, i < k → s.calls[k]? = some d → d.phase.Settled) : o.step s (.works i j) ≠ none := by
  have hstep : o.step s (.works i j) = o.work s i j c w := by
    change (s.calls[i]?.bind fun c => c.workers[j]?.bind (o.work s i j c)) = _
    rw [hc, Option.bind_some, hw, Option.bind_some]
  rw [hstep]
  cases w with
  | ready =>
    unfold RemoveRecursiveOptions.work
    cases c.children[c.index]? <;> simp
  | awaiting k =>
    obtain ⟨hlt, hk⟩ := hs.waits i c hc k (List.mem_of_getElem? hw)
    have hd := List.getElem?_eq_getElem hk
    change (s.calls[k]?.bind _) ≠ none
    rw [hd, Option.bind_some]
    rcases hsettled k _ hlt hd with hresolved | hthrown
    · rw [if_pos hresolved]
      simp
    · rw [if_pos hthrown]
      split <;> simp
  | finished => exact absurd rfl hfinished
  | failed => exact absurd rfl hfailed

/-- Where no turn is left, every call has settled. -/
theorem stuck_settled (hs : s.Sound) (hstuck : ∀ t, o.step s t = none) (hc : s.calls[i]? = some c) :
    c.phase.Settled := by
  induction hn : s.calls.length - i using Nat.strong_induction_on generalizing i c with
  | _ n ih =>
  have hlater : ∀ k d, i < k → s.calls[k]? = some d → d.phase.Settled := by
    intro k d hik hd
    have hk := (List.getElem?_eq_some_iff.mp hd).1
    exact ih (s.calls.length - k) (by omega) hd rfl
  have hin {phase : RemovalPhase} (hphase : c.phase = phase) : s.inPhase i phase = some c :=
    inPhase_eq_some.mpr ⟨hc, hphase⟩
  cases hphase : c.phase with
  | refused => exact .inr (.inl rfl)
  | resolved => exact .inl rfl
  | rejected => exact .inr (.inr rfl)
  | listing =>
    have hnone : (s.inPhase i .listing).map _ = none := hstuck (.unlisted i)
    rw [hin hphase] at hnone
    cases hnone
  | deleting =>
    have hnone : (s.inPhase i .deleting).map _ = none := hstuck (.undeleted i)
    rw [hin hphase] at hnone
    cases hnone
  | joining =>
    have hnone : (s.inPhase i .joining).bind _ = none := hstuck (.joined i)
    rw [hin hphase, Option.bind_some] at hnone
    split_ifs at hnone with hfailed hall
    push Not at hall
    obtain ⟨w, hw, hunfinished⟩ := hall
    obtain ⟨j, hj, hget⟩ := List.getElem_of_mem hw
    have hunfailed : w ≠ .failed := by
      rintro rfl
      exact hfailed hw
    have hworker : c.workers[j]? = some w := by rw [← hget]; exact List.getElem?_eq_getElem hj
    exact absurd (hstuck (.works i j)) (works_on hs hc hworker hunfinished hunfailed hlater)

/-- A call that waits for one that is not done has not asked for anything. -/
theorem caller_unasked (hs : s.Sound) (hd : s.calls[k]? = some d) (hopen : d.phase ≠ .resolved)
    (hcaller : d.caller = some i) :
    ∃ c, s.calls[i]? = some c ∧ c.phase ≠ .resolved ∧ ∀ m, .asked c.path m ∉ s.log := by
  obtain ⟨-, c, hc, hstate⟩ := hs.awaited k d i hd hcaller
  have hsound := hs.calls i c hc
  obtain ⟨w, hw, hunfinished⟩ : ∃ w ∈ c.workers, w ≠ .finished := by
    rcases hstate with hdone | hwaits | hfailed
    · exact absurd hdone hopen
    · exact ⟨_, hwaits, nofun⟩
    · exact ⟨_, hfailed, nofun⟩
  refine ⟨c, hc, ?_, ?_⟩
  · intro hphase
    exact hunfinished (hsound.done (.inr hphase) w hw)
  · intro m hlog
    have hentered : c.phase ≠ .refused := by
      intro hphase
      rw [(hsound.unmanned (.inr hphase)).1] at hw
      cases hw
    obtain ⟨l, e, he, ⟨hasked, hall⟩, hpath⟩ := hs.asked c.path m hlog
    have hentered' : e.phase ≠ .refused := by rcases hasked with h | h | h <;> rw [h] <;> nofun
    obtain rfl := hs.alone i c hc hentered l e he hentered' hpath.symm
    obtain rfl := Option.some.inj (hc.symm.trans he)
    exact hunfinished (hall w hw)

theorem ancestor_unasked (hs : s.Sound) (hd : s.calls[k]? = some d) (hopen : d.phase ≠ .resolved) (h : s.Below i k) :
    ∃ c, s.calls[i]? = some c ∧ c.phase ≠ .resolved ∧ ∀ m, .asked c.path m ∉ s.log := by
  induction h using Relation.TransGen.head_induction_on with
  | single h =>
    obtain ⟨d', hd', hcaller⟩ := h
    obtain rfl := Option.some.inj (hd.symm.trans hd')
    exact caller_unasked hs hd hopen hcaller
  | head h _ ih =>
    obtain ⟨e, he, hcaller⟩ := h
    obtain ⟨e', he', hopen', -⟩ := ih
    obtain rfl := Option.some.inj (he.symm.trans he')
    exact caller_unasked hs he hopen' hcaller

/-- Every call is made for the first, which is not done before it. -/
theorem root_unresolved (hs : s.Sound) (hd : s.calls[k]? = some d) (hopen : d.phase ≠ .resolved)
    (hc : s.calls[0]? = some c) : c.phase ≠ .resolved := by
  induction k using Nat.strong_induction_on generalizing d with
  | _ k ih =>
  rcases Nat.eq_zero_or_pos k with rfl | hpos
  · obtain rfl := Option.some.inj (hc.symm.trans hd)
    exact hopen
  · obtain ⟨i, hcaller⟩ := Option.ne_none_iff_exists'.mp (hs.rooted k d hd hpos)
    have hlt := (hs.awaited k d i hd hcaller).1
    obtain ⟨e, he, hopen', -⟩ := caller_unasked hs hd hopen hcaller
    exact ih i hlt he hopen'

/-- However the answers and the workers' turns come: there is no endless order of them, and where none is left the
call has settled; no resource is asked to be deleted twice, nor before all that was listed in it is deleted; and
what has thrown leaves every call it was made for unasked, and the first without success. -/
theorem removal_bottom_up (h : o.Reaches s) :
    Acc (fun s' s => ∃ t, o.step s t = some s') s ∧
    ((∀ t, o.step s t = none) → ∃ c, s.calls[0]? = some c ∧ c.phase.Settled) ∧
    (s.log.filterMap RemovalEvent.asks).Nodup ∧
    (∀ before p m after, s.log = before ++ .asked p m :: after →
      ∀ cs, .listed p cs ∈ s.log → ∀ c ∈ cs, .deleted c ∈ before) ∧
    ∀ (k : ℕ) (d : Removing), s.calls[k]? = some d → d.phase.Thrown →
      (∀ i, s.Below i k → ∃ c, s.calls[i]? = some c ∧ ∀ m, .asked c.path m ∉ s.log) ∧
      ∀ c, s.calls[0]? = some c → c.phase ≠ .resolved := by
  obtain ⟨hs, hlog⟩ := reaches_kept h
  refine ⟨(turns_end o).apply s, ?_, hlog.once, hlog.ordered, ?_⟩
  · intro hstuck
    have hroot := List.getElem?_eq_getElem hs.begun
    exact ⟨_, hroot, stuck_settled hs hstuck hroot⟩
  · intro k d hd hthrown
    have hopen : d.phase ≠ .resolved := by rcases hthrown with h | h <;> rw [h] <;> nofun
    refine ⟨?_, fun c hc => root_unresolved hs hd hopen hc⟩
    intro i hbelow
    obtain ⟨c, hc, -, hunasked⟩ := ancestor_unasked hs hd hopen hbelow
    exact ⟨c, hc, hunasked⟩

end Ends

def wholeTree : RemoveRecursiveOptions := ⟨js "r", none, true⟩

/-- Two children at once, of which the second cannot be deleted. -/
def failingTurns : List RemovalTurn :=
  [.listed 0 [js "r/a", js "r/b"], .works 0 0, .works 0 1, .listed 2 [], .listed 1 [], .works 1 0, .works 2 0, .joined 2,
    .undeleted 2, .works 0 1, .joined 0, .joined 1, .deleted 1, .works 0 0, .works 0 0]

def failedRemoval : Removal where
  visited := [js "r/b", js "r/a", js "r"]
  calls := [⟨js "r", 0, none, .rejected, [js "r/a", js "r/b"], 2, [.finished, .failed]⟩,
    ⟨js "r/a", 1, some 0, .resolved, [], 0, [.finished]⟩, ⟨js "r/b", 1, some 0, .rejected, [], 0, [.finished]⟩]
  log := [.listed (js "r") [js "r/a", js "r/b"], .listed (js "r/b") [], .listed (js "r/a") [], .asked (js "r/b") none,
    .asked (js "r/a") none, .deleted (js "r/a")]

theorem failed_child_keeps_root :
    run wholeTree.step wholeTree.initial failingTurns = some failedRemoval ∧
      (failedRemoval.log.filterMap RemovalEvent.asks).Nodup ∧
      ∀ c, failedRemoval.calls[0]? = some c → c.phase ≠ .resolved := by
  have hrun : run wholeTree.step wholeTree.initial failingTurns = some failedRemoval := by decide
  obtain ⟨-, -, honce, -, hthrown⟩ := removal_bottom_up ⟨failingTurns, hrun⟩
  exact ⟨hrun, honce, (hthrown 2 _ rfl (by decide)).2⟩

end DurableDav.Replication
