import Mathlib.Data.Multiset.Replicate
import DurableDav.Library.Descent
import DurableDav.Replication.RemovalWorkers

namespace DurableDav.Replication

open Library Multiset

/-! ### Every order of turns comes to an end -/

def Removing.level (c : Removing) : ℕ := maxRemoveDepth + 1 - c.depth

def RemovalPhase.work (level : ℕ) : RemovalPhase → Multiset ℕ
  | listing => {3 * level + 2}
  | joining => replicate 2 (3 * level)
  | deleting => replicate 1 (3 * level)
  | refused | resolved | rejected => 0

def RemovalWorker.work (level : ℕ) : RemovalWorker → Multiset ℕ
  | ready => replicate 1 (3 * level)
  | awaiting _ => replicate 2 (3 * level)
  | finished | failed => 0

/-- What is left to do in a call: a listing weighs more than what comes of it in the call, and a child that is not
taken more than the call that takes it. -/
def Removing.work (c : Removing) : Multiset ℕ :=
  (c.workers.map (RemovalWorker.work c.level)).sum +
    (replicate (c.children.length - c.index) (3 * c.level + 1) + c.phase.work c.level)

def Removal.work (s : Removal) : Multiset ℕ := (s.calls.map Removing.work).sum

section Descent

variable {o : RemoveRecursiveOptions} {s s' : Removal} {i j : ℕ} {c c' : Removing} {w : RemovalWorker}

theorem fewer (level : ℕ) {m n : ℕ} (h : m < n) : IsDershowitzMannaLT (replicate m level) (replicate n level) := by
  obtain ⟨k, rfl⟩ := Nat.exists_eq_add_of_lt h
  have hsplit : replicate (m + k + 1) level = replicate m level + replicate (k + 1) level := by
    rw [add_assoc, replicate_add]
  have hrest : IsDershowitzMannaLT 0 (replicate (k + 1) level) := lighter (by simp) (by simp)
  have hframe := lighter_add (replicate m level) hrest
  rwa [add_zero, ← hsplit] at hframe

theorem works_work (h : c.workers[j]? = some w) :
    ∃ rest, c.work = rest + w.work c.level ∧ ∀ w', (c.works j w').work = rest + w'.work c.level := by
  obtain ⟨before, after, hworkers, hset⟩ := exists_around h
  refine ⟨(before.map (RemovalWorker.work c.level)).sum + (after.map (RemovalWorker.work c.level)).sum +
    (replicate (c.children.length - c.index) (3 * c.level + 1) + c.phase.work c.level), ?_, ?_⟩
  · unfold Removing.work
    rw [hworkers]
    simp only [List.map_append, List.map_cons, List.sum_append, List.sum_cons]
    abel
  · intro w'
    change ((c.workers.set j w').map (RemovalWorker.work c.level)).sum +
      (replicate (c.children.length - c.index) (3 * c.level + 1) + c.phase.work c.level) = _
    rw [hset]
    simp only [List.map_append, List.map_cons, List.sum_append, List.sum_cons]
    abel

theorem works_lighter (hw : c.workers[j]? = some w) {w' : RemovalWorker}
    (h : IsDershowitzMannaLT (w'.work c.level) (w.work c.level)) : IsDershowitzMannaLT (c.works j w').work c.work := by
  obtain ⟨rest, hwork, hworks⟩ := works_work hw
  rw [hwork, hworks]
  exact lighter_add rest h

theorem ends_lighter {phase : RemovalPhase} (h : IsDershowitzMannaLT (phase.work c.level) (c.phase.work c.level)) :
    IsDershowitzMannaLT (c.ends phase).work c.work := lighter_add _ (lighter_add _ h)

theorem answered_lighter (h : c.phase = .listing) (children : List JsString) :
    IsDershowitzMannaLT (c.answered children).work c.work := by
  apply lighter
  · intro hnil
    simp [Removing.work, h, RemovalPhase.work] at hnil
  · intro y hy
    refine ⟨3 * c.level + 2, by simp [Removing.work, h, RemovalPhase.work], ?_⟩
    have hlevel : (c.answered children).level = c.level := rfl
    unfold Removing.work at hy
    rw [hlevel] at hy
    simp only [Removing.answered, List.map_replicate, List.sum_replicate, RemovalWorker.work, RemovalPhase.work, mem_add,
      mem_replicate, mem_nsmul] at hy
    omega

theorem turned_lighter {events : List RemovalEvent} (h : Turned o s i c c' events) :
    IsDershowitzMannaLT c'.work c.work := by
  cases h with
  | listed children hphase => exact answered_lighter hphase children
  | unlisted hphase =>
    exact ends_lighter (by rw [hphase]; exact lighter (by simp [RemovalPhase.work]) (by simp [RemovalPhase.work]))
  | finished j hw hend => exact works_lighter hw (fewer _ (m := 0) Nat.one_pos)
  | resumed j k awaited hw hk hresolved => exact works_lighter hw (fewer _ Nat.one_lt_two)
  | failed j k awaited hw hk hthrown => exact works_lighter hw (fewer _ (m := 0) Nat.two_pos)
  | broken hphase hfailed => exact ends_lighter (by rw [hphase]; exact fewer _ (m := 0) Nat.two_pos)
  | joined hphase hall => exact ends_lighter (by rw [hphase]; exact fewer _ Nat.one_lt_two)
  | deleted hphase => exact ends_lighter (by rw [hphase]; exact fewer _ (m := 0) Nat.one_pos)
  | undeleted hphase => exact ends_lighter (by rw [hphase]; exact fewer _ (m := 0) Nat.one_pos)

/-- The call that a worker makes weighs less than the child it takes. -/
theorem takes_lighter {child : JsString} {phase : RemovalPhase} {depth : ℕ} {caller : Option ℕ} {call : ℕ}
    (hw : c.workers[j]? = some .ready) (hchild : c.children[c.index]? = some child) (hdepth : depth = c.depth + 1)
    (hphase : phase = .refused ∨ depth ≤ maxRemoveDepth ∧ (phase = .listing ∨ phase = .deleting)) :
    IsDershowitzMannaLT ((c.takes j call).work + ([⟨child, depth, caller, phase, [], 0, []⟩].map Removing.work).sum)
      c.work := by
  obtain ⟨hindex, -⟩ := List.getElem?_eq_some_iff.mp hchild
  obtain ⟨rest, hwork, hworks⟩ := works_work (c := { c with index := c.index + 1 }) hw
  have htaken : (c.takes j call).work = rest + replicate 2 (3 * c.level) := hworks (.awaiting call)
  have hbefore : c.work = rest + (replicate 1 (3 * c.level) + replicate 1 (3 * c.level + 1)) := by
    have hcount : c.children.length - c.index = c.children.length - (c.index + 1) + 1 := by omega
    have hrest : c.work = { c with index := c.index + 1 }.work + replicate 1 (3 * c.level + 1) := by
      change _ = (c.workers.map (RemovalWorker.work c.level)).sum +
        (replicate (c.children.length - (c.index + 1)) (3 * c.level + 1) + c.phase.work c.level) + _
      unfold Removing.work
      rw [hcount, replicate_add]
      abel
    rw [hrest, hwork, add_assoc]
    rfl
  rw [htaken, hbefore, add_assoc]
  refine lighter_add rest ?_
  have htwo : replicate 2 (3 * c.level) = replicate 1 (3 * c.level) + replicate 1 (3 * c.level) := by
    rw [← replicate_add]
  rw [htwo, add_assoc]
  refine lighter_add _ (lighter (by simp) ?_)
  intro y hy
  refine ⟨3 * c.level + 1, by simp, ?_⟩
  rcases mem_add.mp hy with hy | hy
  · rw [eq_of_mem_replicate hy]
    omega
  · simp only [List.map_cons, List.map_nil, List.sum_cons, List.sum_nil, add_zero, Removing.work, List.length_nil,
      Nat.zero_sub, replicate_zero, zero_add, Removing.level, hdepth] at hy
    rcases hphase with rfl | ⟨hle, rfl | rfl⟩
    · simp [RemovalPhase.work] at hy
    · simp only [RemovalPhase.work, mem_singleton] at hy
      unfold Removing.level
      omega
    · simp only [RemovalPhase.work, mem_replicate] at hy
      unfold Removing.level
      omega

theorem step_lighter {t : RemovalTurn} (h : o.step s t = some s') : IsDershowitzMannaLT s'.work s.work := by
  rcases step_cases h with ⟨i, c, c', events, hc, hturned, rfl⟩ | ⟨i, c, j, child, hc, hw, hchild, rfl⟩
  · have hset := lighter_set Removing.work [] hc (b := c') (by simpa using turned_lighter hturned)
    rwa [List.append_nil] at hset
  · obtain ⟨phase, visited, events, heq, -, hphase⟩ := removeRecursive_eq (o := o)
      (s.update i (c.takes j s.calls.length)) (some i) child (c.depth + 1)
    rw [heq]
    refine lighter_set Removing.work _ hc (takes_lighter hw hchild rfl ?_)
    rcases hphase with ⟨rfl, -⟩ | ⟨-, hdepth, ⟨rfl, -⟩ | ⟨rfl, -⟩⟩
    · exact .inl rfl
    · exact .inr ⟨hdepth, .inl rfl⟩
    · exact .inr ⟨hdepth, .inr rfl⟩

/-- There is no endless order of turns. -/
theorem turns_end (o : RemoveRecursiveOptions) : WellFounded fun s' s => ∃ t, o.step s t = some s' :=
  Subrelation.wf (fun ⟨_, h⟩ => step_lighter h) (InvImage.wf Removal.work wellFounded_isDershowitzMannaLT)

end Descent

end DurableDav.Replication
