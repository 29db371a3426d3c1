import DurableDav.Dav.OneEtag
import DurableDav.Front.CacheTraffic

namespace DurableDav.Front

open Library Dav

/-! ### What a write changes -/

/-- No GET, HEAD or PROPFIND tells the two volumes apart. -/
structure SameReads (v v' : Volume) : Prop where
  get : ∀ env r path headOnly, objectGet env v r path headOnly = objectGet env v' r path headOnly
  propfind : ∀ env r path bases, objectPropfind env v r path bases = objectPropfind env v' r path bases

def WriteRecord.Visible (w : WriteRecord) : Prop := ¬ SameReads w.before w.after

/-- The purge of this domain is still to come. -/
def WriterPhase.owes (d : Domain) : WriterPhase → Bool
  | .asking => true
  | .purging _ purged => d ∉ purged
  | .done => false

namespace Traffic

def Owes (s : Traffic) (d : Domain) (n : ℕ) : Prop := ∃ w, s.writers n = some w ∧ w.phase.owes d = true

/-- Whatever has changed since is by requests that have the purge before them. -/
def Covered (s : Traffic) (d : Domain) (built : ℕ) : Prop :=
  ∀ k w, s.writes[k]? = some w → built ≤ k → w.Visible → s.Owes d w.writer

/-- No read was answered from an entry that is older than a change by a request that had completed when it came. -/
def Coherent (s : Traffic) : Prop :=
  ∀ n r answer built, s.readers n = some r → r.phase = .answered answer (some built) →
    ∀ k ∈ r.settled, ∀ w, s.writes[k]? = some w → w.Visible → k < built

/-- A read stores what it fetched only while what has changed since is yet to be purged, and a request completes with a
purge left out only if the cache holds nothing from before what it changed. -/
def Orderly (K : KeyDigest) (s : Traffic) : Event → Prop
  | .store n true => ∀ r kept built answer, s.readers n = some r → r.phase = .storing kept built answer →
      s.Covered (r.query.key K).domain built
  | .finish n => ∀ key e, s.cache.get key = some e → s.Owes key.domain n →
      ∀ k w, s.writes[k]? = some w → w.writer = n → w.Visible → k < e.built
  | _ => True

/-! ### What every step keeps -/

structure Current (s : Traffic) : Prop where
  cache : ∀ key e, s.cache.get key = some e → s.Covered key.domain e.built
  settled : ∀ n r, s.readers n = some r → ∀ k ∈ r.settled, ∃ w, s.writes[k]? = some w ∧ s.isDone w.writer = true
  coherent : s.Coherent

section Steps

variable {K : KeyDigest} {volumeKey : JsString} {s s' : Traffic} {d : Domain} {n : ℕ}

theorem isDone_iff : s.isDone n = true ↔ ∃ w, s.writers n = some w ∧ w.phase = .done := by
  simp [isDone, Option.any_eq_true]

theorem not_owes_of_done (h : s.isDone n = true) : ¬ s.Owes d n := by
  rintro ⟨w, hw, howes⟩
  obtain ⟨w', hw', hdone⟩ := isDone_iff.mp h
  obtain rfl := Option.some.inj (hw.symm.trans hw')
  simp [hdone, WriterPhase.owes] at howes

theorem settled_done {k : ℕ} (h : k ∈ s.settled) : ∃ w, s.writes[k]? = some w ∧ s.isDone w.writer = true := by
  have hany := (List.mem_filter.mp h).2
  cases hk : s.writes[k]? with
  | none => simp [hk] at hany
  | some w => exact ⟨w, rfl, by simpa [hk] using hany⟩

theorem write_wrote {after : Volume} {k : ℕ} {w : WriteRecord} (h : (s.wrote n after).writes[k]? = some w) :
    s.writes[k]? = some w ∨ k = s.writes.length ∧ w = ⟨n, s.volume, after⟩ := by
  have hlist : (s.wrote n after).writes = s.writes ++ [⟨n, s.volume, after⟩] := rfl
  rw [hlist, List.getElem?_append] at h
  split at h
  · exact .inl h
  · obtain ⟨hlast, hw⟩ := List.getElem?_eq_some_iff.mp h
    have hzero : k - s.writes.length = 0 := by simpa using hlast
    exact .inr ⟨by omega, by simpa using hw.symm⟩

theorem write_kept {after : Volume} {k : ℕ} {w : WriteRecord} (h : s.writes[k]? = some w) :
    (s.wrote n after).writes[k]? = some w := by
  have hlt := (List.getElem?_eq_some_iff.mp h).1
  change (s.writes ++ _)[k]? = some w
  rw [List.getElem?_append_left hlt, h]

theorem owes_putWriter {w : Writer} {m : ℕ} :
    (s.putWriter n w).Owes d m ↔ if m = n then w.phase.owes d = true else s.Owes d m := by
  unfold Owes putWriter
  by_cases hm : m = n
  · subst hm
    simp
  · simp [hm]

theorem isDone_putWriter {w : Writer} {m : ℕ} (hopen : s.isDone n = false) (h : s.isDone m = true) :
    (s.putWriter n w).isDone m = true := by
  have hm : m ≠ n := by
    rintro rfl
    simp [hopen] at h
  simpa [isDone, putWriter, hm] using h

/-! ### One lemma for each way in which a step changes the state -/

theorem current_start (v : Volume) : (start v).Current where
  cache key e h := by simp [start] at h
  settled n r h := by simp [start] at h
  coherent n r answer built h := by simp [start] at h

theorem current_putReader {r : Reader} (h : s.Current)
    (hsettled : ∀ k ∈ r.settled, ∃ w, s.writes[k]? = some w ∧ s.isDone w.writer = true)
    (hanswered : ∀ answer built, r.phase = .answered answer (some built) →
      ∀ k ∈ r.settled, ∀ w, s.writes[k]? = some w → w.Visible → k < built) : (s.putReader n r).Current where
  cache := h.cache
  settled m r' hr' := by
    change Function.update s.readers n (some r) m = some r' at hr'
    by_cases hm : m = n
    · subst hm
      obtain rfl : r = r' := by simpa using hr'
      exact hsettled
    · rw [Function.update_of_ne hm] at hr'
      exact h.settled m r' hr'
  coherent m r' answer built hr' := by
    change Function.update s.readers n (some r) m = some r' at hr'
    by_cases hm : m = n
    · subst hm
      obtain rfl : r = r' := by simpa using hr'
      exact hanswered answer built
    · rw [Function.update_of_ne hm] at hr'
      exact h.coherent m r' answer built hr'

theorem current_putCache {cache : Cache} (h : s.Current)
    (hcache : ∀ key e, cache.get key = some e → s.Covered key.domain e.built) : (s.putCache cache).Current where
  cache := hcache
  settled := h.settled
  coherent := h.coherent

/-- A request moves on: the entries it no longer owes a purge for are none that it made old. -/
theorem current_putWriter {w : Writer} (h : s.Current) (hopen : s.isDone n = false)
    (hcache : ∀ key e, s.cache.get key = some e → s.Owes key.domain n → w.phase.owes key.domain = false →
      ∀ k w, s.writes[k]? = some w → w.writer = n → w.Visible → k < e.built) : (s.putWriter n w).Current where
  cache key e he k record hk hle hvisible := by
    have howes := h.cache key e he k record hk hle hvisible
    rw [owes_putWriter]
    split
    · rename_i hn
      by_contra hnot
      have hlt := hcache key e he (hn ▸ howes) (by simpa using hnot) k record hk hn hvisible
      omega
    · exact howes
  settled m r hr k hk := by
    obtain ⟨record, hrecord, hdone⟩ := h.settled m r hr k hk
    exact ⟨record, hrecord, isDone_putWriter hopen hdone⟩
  coherent := h.coherent

theorem current_wrote {after : Volume} (h : s.Current) (howes : ∀ d, s.Owes d n) : (s.wrote n after).Current where
  cache key e he k w hk hle hvisible := by
    rcases write_wrote hk with hk | ⟨-, rfl⟩
    · exact h.cache key e he k w hk hle hvisible
    · exact howes _
  settled m r hr k hk := by
    obtain ⟨w, hw, hdone⟩ := h.settled m r hr k hk
    exact ⟨w, write_kept hw, hdone⟩
  coherent m r answer built hr hphase k hk w hw hvisible := by
    obtain ⟨w', hw', -⟩ := h.settled m r hr k hk
    obtain rfl : w' = w := Option.some.inj ((write_kept hw').symm.trans hw)
    exact h.coherent m r answer built hr hphase k hk w' hw' hvisible

/-! ### The steps -/

theorem current_read (h : s.Current) (q : Query) : (s.read n q).Current := by
  apply current_putReader h
  · exact fun k hk => settled_done hk
  · intro answer built hphase
    dsimp only at hphase
    split at hphase <;> cases hphase

/-- A read that has not been answered from an entry moves on. -/
theorem current_unanswered {r : Reader} {phase : ReaderPhase} (h : s.Current) (hr : s.readers n = some r)
    (hphase : ∀ answer built, phase ≠ .answered answer (some built)) : (s.putReader n { r with phase }).Current := by
  apply current_putReader h
  · exact h.settled n r hr
  · intro answer built heq
    exact absurd heq (hphase answer built)

theorem found_covered {q : Query} {e : Stamped} (h : s.Current) (hfound : s.found K q = some e) :
    s.Covered (q.key K).domain e.built :=
  h.cache _ e (Option.ite_none_right_eq_some.mp hfound).2

theorem current_lookUp {r : Reader} {ok : Bool} (h : s.Current) (hr : s.readers n = some r) :
    (s.lookUp K n r ok).Current := by
  have hsettled := h.settled n r hr
  unfold lookUp
  dsimp only
  split
  · rename_i answer built hhit
    refine current_putReader h (by exact hsettled) ?_
    intro answer' built' hphase k hk w hw hvisible
    obtain ⟨rfl, hbuilt⟩ := ReaderPhase.answered.inj hphase
    obtain rfl := Option.some.inj hbuilt
    obtain ⟨-, hhit⟩ := Option.ite_none_right_eq_some.mp hhit
    obtain ⟨e, hfound, hserved⟩ := Option.bind_eq_some_iff.mp hhit
    obtain ⟨answer'', -, hpair⟩ := Option.map_eq_some_iff.mp hserved
    obtain ⟨-, rfl⟩ := Prod.mk.inj hpair
    -- a change after the entry was built is by a request that is not done
    by_contra hle
    obtain ⟨w', hw', hdone⟩ := hsettled k hk
    obtain rfl := Option.some.inj (hw'.symm.trans hw)
    exact not_owes_of_done hdone (found_covered h hfound k w' hw (by omega) hvisible)
  · exact current_unanswered h hr fun answer built => by simp

theorem current_ask {r : Reader} {env : Env} (h : s.Current) (hr : s.readers n = some r) :
    (s.ask K volumeKey n r env).Current := by
  unfold ask
  split
  · exact current_unanswered h hr fun answer built => by simp
  · exact current_unanswered h hr fun answer built => by simp

theorem current_store {r : Reader} {kept : Kept} {built : ℕ} {answer : ReadResponse} {ok : Bool} (h : s.Current)
    (hr : s.readers n = some r) (hcovered : ok = true → s.Covered (r.query.key K).domain built) :
    (s.store K n r kept built answer ok).Current := by
  have hreader : (s.putReader n { r with phase := .answered answer none }).Current :=
    current_unanswered h hr fun answer built => by simp
  unfold store
  dsimp only
  split
  · rename_i hok
    apply current_putCache hreader
    intro key e he
    change (s.cache.put (r.query.key K) ⟨kept, built⟩).get key = some e at he
    rw [Store.get_put] at he
    split at he
    · rename_i hkey
      subst hkey
      obtain rfl := Option.some.inj he
      exact hcovered hok
    · exact h.cache key e he
  · exact hreader

theorem owes_asking {w : Writer} (hw : s.writers n = some w) (hphase : w.phase = .asking) (d : Domain) : s.Owes d n :=
  ⟨w, hw, by rw [hphase]; rfl⟩

theorem open_of_phase {w : Writer} (hw : s.writers n = some w) (hphase : w.phase ≠ .done) : s.isDone n = false := by
  simpa [isDone, hw] using hphase

/-- A request that has written begins to purge, and owes all of it. -/
theorem current_end {w : Writer} {work : Work} {rest : List Domain} (h : s.Current) (hw : s.writers n = some w)
    (hphase : w.phase = .asking) : (s.putWriter n ⟨work, .purging rest []⟩).Current := by
  apply current_putWriter h (open_of_phase hw (by simp [hphase]))
  intro key e _ _ hnone
  simp [WriterPhase.owes] at hnone

theorem current_purge {w : Writer} {rest purged : List Domain} {ok : Bool} (h : s.Current) (hw : s.writers n = some w)
    (hphase : w.phase = .purging (d :: rest) purged) : (s.purge n w.work d rest purged ok).Current := by
  have hopen := open_of_phase hw (by simp [hphase])
  unfold purge
  split
  · have hcache : (s.putCache (Front.purge s.cache d)).Current := by
      apply current_putCache h
      intro key e he
      rw [Front.purge, Store.get_removeWhere] at he
      split at he
      · cases he
      · exact h.cache key e he
    apply current_putWriter hcache hopen
    intro key e he howes hnone
    -- the domain just purged holds nothing, and another one is owed as before
    change (Front.purge s.cache d).get key = some e at he
    rw [Front.purge, Store.get_removeWhere] at he
    obtain ⟨w', hw', howes⟩ := howes
    obtain rfl := Option.some.inj (hw.symm.trans hw')
    simp only [hphase, WriterPhase.owes, List.mem_cons, not_or, decide_eq_true_eq, decide_eq_false_iff_not,
      not_and, not_not] at howes hnone
    by_cases hd : key.domain = d
    · simp [hd] at he
    · exact absurd (hnone hd) howes
  · apply current_putWriter h hopen
    intro key e he howes hnone
    obtain ⟨w', hw', howes⟩ := howes
    obtain rfl := Option.some.inj (hw.symm.trans hw')
    rw [hphase] at howes
    exact absurd (howes.symm.trans hnone) (by simp)

theorem current_finish {w : Writer} (h : s.Current) (hw : s.writers n = some w) (hphase : w.phase ≠ .done)
    (horderly : s.Orderly K (.finish n)) : (s.putWriter n ⟨w.work, .done⟩).Current :=
  current_putWriter h (open_of_phase hw hphase) fun key e he howes _ => horderly key e he howes

theorem current_step (h : s.Current) {x : Event} (horderly : s.Orderly K x) (hstep : s.step K volumeKey x = some s') :
    s'.Current := by
  cases x with
  | read n q =>
    obtain ⟨-, hs⟩ := Option.ite_none_left_eq_some.mp hstep
    obtain rfl := Option.some.inj hs
    exact current_read h q
  | lookUp n ok =>
    obtain ⟨r, hr, hs⟩ := Option.bind_eq_some_iff.mp hstep
    split at hs
    · obtain rfl := Option.some.inj hs
      exact current_lookUp h hr
    · cases hs
  | ask n env =>
    obtain ⟨r, hr, hs⟩ := Option.bind_eq_some_iff.mp hstep
    split at hs
    · obtain rfl := Option.some.inj hs
      exact current_ask h hr
    · cases hs
  | store n ok =>
    obtain ⟨r, hr, hs⟩ := Option.bind_eq_some_iff.mp hstep
    split at hs
    · rename_i kept built answer hphase
      obtain rfl := Option.some.inj hs
      apply current_store h hr
      rintro rfl
      exact horderly r kept built answer hr hphase
    · cases hs
  | write n work =>
    obtain ⟨hnew, hs⟩ := Option.ite_none_left_eq_some.mp hstep
    obtain rfl := Option.some.inj hs
    have hnone : s.writers n = none := by simpa using hnew
    apply current_putWriter h (by simp [isDone, hnone])
    intro key e _ _ hnot
    cases hnot
  | apply n env replied =>
    obtain ⟨w, hw, hs⟩ := Option.bind_eq_some_iff.mp hstep
    split at hs
    · rename_i y _ hphase
      obtain rfl := Option.some.inj hs
      exact current_end (current_wrote h (owes_asking hw hphase)) hw hphase
    · cases hs
  | sliceWrite n env operation =>
    obtain ⟨w, hw, hs⟩ := Option.bind_eq_some_iff.mp hstep
    split at hs
    · rename_i hphase
      obtain rfl := Option.some.inj hs
      exact current_wrote h (owes_asking hw hphase)
    · cases hs
  | sliceEnd n ok =>
    obtain ⟨w, hw, hs⟩ := Option.bind_eq_some_iff.mp hstep
    split at hs
    · rename_i hphase
      obtain rfl := Option.some.inj hs
      exact current_end h hw hphase
    · cases hs
  | purge n ok =>
    obtain ⟨w, hw, hs⟩ := Option.bind_eq_some_iff.mp hstep
    split at hs
    · rename_i hphase
      obtain rfl := Option.some.inj hs
      exact current_purge h hw hphase
    · cases hs
  | finish n =>
    obtain ⟨w, hw, hs⟩ := Option.bind_eq_some_iff.mp hstep
    split at hs
    · rename_i hphase
      obtain rfl := Option.some.inj hs
      exact current_finish h hw (by simp [hphase]) horderly
    · cases hs
  | expire key =>
    obtain rfl := Option.some.inj hstep
    apply current_putCache h
    intro key' e he
    rw [Store.get_remove] at he
    exact h.cache key' e (Option.ite_none_left_eq_some.mp he).2

end Steps

/-! ### Every run -/

/-- Nothing was written since the read was made, and the request that completes has purged everything. -/
def Quiet (s : Traffic) : Event → Prop
  | .store n true => ∀ r ∈ s.readers n, match r.phase with
    | .storing _ built _ => s.writes.length ≤ built
    | _ => True
  | .finish n => ∀ w ∈ s.writers n, ∀ d ∈ contentDomains, w.phase.owes d = false
  | _ => True

instance (s : Traffic) (x : Event) : Decidable (s.Quiet x) := by
  unfold Quiet
  split
  · exact @Option.decidableForallMem _ _ (fun r => by split <;> infer_instance) _
  · infer_instance
  · infer_instance

theorem mem_contentDomains (d : Domain) : d ∈ contentDomains := by cases d <;> decide

theorem orderly_of_quiet (K : KeyDigest) (s : Traffic) (x : Event) (h : s.Quiet x) : s.Orderly K x := by
  unfold Orderly
  split
  · intro r kept built answer hr hphase k w hw hle _
    have hlength : s.writes.length ≤ built := by simpa [hphase] using h r hr
    have hlt := (List.getElem?_eq_some_iff.mp hw).1
    omega
  · rintro key e _ ⟨w, hw, howes⟩
    have hnone := h w hw key.domain (mem_contentDomains _)
    exact absurd (howes.symm.trans hnone) (by simp)
  · trivial

end Traffic

def putOther : Exchange := { putFile with request := { plainIncoming (js "http://h/o/v/f") with body := [3] } }

def completed (n : ℕ) (x : Exchange) : List Event :=
  [.write n (.request x), .apply n calmEnv true, .purge n true, .purge n true, .finish n]

def getFile : Query := ⟨false, .get false, plainIncoming (js "http://h/o/v/f"), js "f", js "f"⟩

def keptRead (n : ℕ) (q : Query) : List Event := [.read n q, .lookUp n true, .ask n calmEnv, .store n true]

def plainDigest : KeyDigest := ⟨fun s => s⟩

def inTurn : List Event :=
  completed 0 putFile ++ keptRead 0 getFile ++ completed 1 putOther ++ keptRead 1 getFile ++ [.read 2 getFile, .lookUp 2 true]

/-- The read was answered from before that write, which the query makes out. -/
def Traffic.stale (s : Traffic) (n k : ℕ) (q : Query) : Bool :=
  (s.readers n).any fun r => s.writes[k]?.any fun w =>
    k ∈ r.settled ∧ (match r.phase with
      | .answered _ (some built) => built ≤ k
      | _ => false) = true ∧ q.object calmEnv w.before ≠ q.object calmEnv w.after

theorem Query.visible {q : Query} {w : WriteRecord} {env : Env} (h : q.object env w.before ≠ q.object env w.after) :
    w.Visible := by
  intro hsame
  apply h
  unfold Query.object
  split
  · exact hsame.get _ _ _ _
  · exact hsame.propfind _ _ _ _

theorem Traffic.incoherent_of_stale {s : Traffic} {n k : ℕ} {q : Query} (h : s.stale n k q = true) : ¬ s.Coherent := by
  intro hcoherent
  simp only [stale, Option.any_eq_true, Option.any_eq_true, decide_eq_true_eq] at h
  obtain ⟨r, hr, w, hw, hk, hphase, hdiffer⟩ := h
  split at hphase
  · rename_i answer built hanswered
    have hlt := hcoherent n r answer built hr hanswered k hk w hw (Query.visible hdiffer)
    have hle : built ≤ k := by simpa using hphase
    omega
  · cases hphase

theorem stale_run {xs : List Event} {n k : ℕ} {q : Query}
    (h : (run (Traffic.step plainDigest (js "o/v")) (Traffic.start emptyVolume) xs).any (fun s => s.stale n k q) = true) :
    ∃ s, run (Traffic.step plainDigest (js "o/v")) (Traffic.start emptyVolume) xs = some s ∧ ¬ s.Coherent := by
  cases hrun : run (Traffic.step plainDigest (js "o/v")) (Traffic.start emptyVolume) xs with
  | none => simp [hrun] at h
  | some s => exact ⟨s, rfl, Traffic.incoherent_of_stale (by simpa [hrun] using h)⟩

/-- A write completes between the fetch of a read and its store. -/
def overtaken : List Event :=
  completed 0 putFile ++ [.read 0 getFile, .lookUp 0 true, .ask 0 calmEnv] ++ completed 1 putOther ++
    [.store 0 true, .read 1 getFile, .lookUp 1 true]

def listFile : Query :=
  ⟨false, .propfind ⟨js "/o/v", js "/o/v"⟩, { plainIncoming (js "http://h/o/v/f") with depth := some (js "0") }, js "f", js "f"⟩

def lockUnseen : List Event :=
  completed 0 putFile ++ keptRead 0 listFile ++ [.write 1 (.request lockFile), .apply 1 calmEnv true, .finish 1,
    .read 1 listFile, .lookUp 1 true]

/-- A slice writes and then fails. -/
def failedSlice : List Event :=
  completed 0 putFile ++ keptRead 0 getFile ++ [.write 1 .slice,
    .sliceWrite 1 calmEnv (.write (js "f") none ⟨[3], true⟩), .sliceEnd 1 false, .finish 1,
    .read 1 getFile, .lookUp 1 true]

end DurableDav.Front
