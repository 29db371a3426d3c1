import DurableDav.Replication.RemovalEnds

namespace DurableDav.Replication

open Library

/-! ### What holds in every state of a removal -/

structure Removing.Sound (c : Removing) : Prop where
  exhausted : .finished ∈ c.workers → c.children.length ≤ c.index
  manned : c.phase = .joining → c.workers ≠ []
  unmanned : c.phase = .listing ∨ c.phase = .refused → c.workers = [] ∧ c.index = 0
  done : c.phase = .deleting ∨ c.phase = .resolved → ∀ w ∈ c.workers, w = .finished

/-- The call has asked for its resource to be deleted. -/
def Removing.Asked (c : Removing) : Prop :=
  (c.phase = .deleting ∨ c.phase = .resolved ∨ c.phase = .rejected) ∧ ∀ w ∈ c.workers, w = .finished

structure Removal.Sound (s : Removal) : Prop where
  calls : ∀ (i : ℕ) (c : Removing), s.calls[i]? = some c → c.Sound
  entered : ∀ (i : ℕ) (c : Removing), s.calls[i]? = some c → c.phase ≠ .refused → c.path ∈ s.visited
  alone : ∀ (i : ℕ) (c : Removing), s.calls[i]? = some c → c.phase ≠ .refused →
    ∀ (j : ℕ) (d : Removing), s.calls[j]? = some d → d.phase ≠ .refused → c.path = d.path → i = j
  /-- A child that was taken was called for. -/
  started : ∀ (i : ℕ) (c : Removing), s.calls[i]? = some c → ∀ n < c.index, ∀ p, c.children[n]? = some p →
    ∃ (k : ℕ) (d : Removing), s.calls[k]? = some d ∧ d.caller = some i ∧ d.path = p
  /-- What was called for is done, or a worker waits for it, or some worker has failed. -/
  awaited : ∀ (k : ℕ) (d : Removing) (i : ℕ), s.calls[k]? = some d → d.caller = some i →
    i < k ∧ ∃ c : Removing, s.calls[i]? = some c ∧ (d.phase = .resolved ∨ .awaiting k ∈ c.workers ∨ .failed ∈ c.workers)
  waits : ∀ (i : ℕ) (c : Removing), s.calls[i]? = some c → ∀ k, .awaiting k ∈ c.workers → i < k ∧ k < s.calls.length
  rooted : ∀ (k : ℕ) (d : Removing), s.calls[k]? = some d → 0 < k → d.caller ≠ none
  listed : ∀ p cs, .listed p cs ∈ s.log →
    ∃ (i : ℕ) (c : Removing), s.calls[i]? = some c ∧ (c.phase ≠ .refused ∧ c.phase ≠ .listing) ∧ c.path = p ∧ c.children = cs
  asked : ∀ p m, .asked p m ∈ s.log → ∃ (i : ℕ) (c : Removing), s.calls[i]? = some c ∧ c.Asked ∧ c.path = p
  resolved : ∀ (i : ℕ) (c : Removing), s.calls[i]? = some c → c.phase = .resolved → .deleted c.path ∈ s.log
  begun : 0 < s.calls.length

section Turns

variable {o : RemoveRecursiveOptions} {s : Removal} {i j k : ℕ} {c c' d : Removing} {w v v' : RemovalWorker}
variable {events : List RemovalEvent} {added : List Removing}

theorem get_grown (h : s.calls[i]? = some c) : (s.calls.set i c' ++ added)[k]? = some d ↔
    (k = i ∧ d = c') ∨ (k ≠ i ∧ s.calls[k]? = some d) ∨ ∃ n, k = s.calls.length + n ∧ added[n]? = some d := by
  obtain ⟨hi, -⟩ := List.getElem?_eq_some_iff.mp h
  rw [List.getElem?_append, List.length_set]
  by_cases hk : k < s.calls.length
  · rw [if_pos hk, List.getElem?_set]
    by_cases hik : i = k
    · subst hik
      simp only [↓reduceIte, hi, Option.some.injEq, true_and, ne_eq, not_true_eq_false, false_and, false_or]
      constructor
      · exact fun hd => .inl hd.symm
      · rintro (rfl | ⟨n, hn, -⟩)
        · rfl
        · omega
    · rw [if_neg hik]
      constructor
      · exact fun hd => .inr (.inl ⟨Ne.symm hik, hd⟩)
      · rintro (⟨rfl, -⟩ | ⟨-, hd⟩ | ⟨n, hn, -⟩)
        · exact absurd rfl hik
        · exact hd
        · omega
  · rw [if_neg hk]
    constructor
    · exact fun hd => .inr (.inr ⟨k - s.calls.length, by omega, hd⟩)
    · rintro (⟨rfl, -⟩ | ⟨-, hd⟩ | ⟨n, rfl, hd⟩)
      · omega
      · exact absurd (List.getElem?_eq_some_iff.mp hd).1 hk
      · rwa [Nat.add_sub_cancel_left]

theorem mem_works (h : c.workers[j]? = some v) (hw : w ∈ c.workers) (hne : w ≠ v) : w ∈ (c.works j v').workers := by
  obtain ⟨before, after, hworkers, hset⟩ := exists_around h
  rw [hworkers] at hw
  unfold Removing.works
  rw [hset]
  rcases List.mem_append.mp hw with hw | hw
  · exact List.mem_append_left _ hw
  · rcases List.mem_cons.mp hw with rfl | hw
    · exact absurd rfl hne
    · exact List.mem_append_right _ (List.mem_cons_of_mem _ hw)

theorem of_mem_works (hw : w ∈ (c.works j v').workers) : w ∈ c.workers ∨ w = v' := List.mem_or_eq_of_mem_set hw

theorem works_sound (hc : c.Sound) (h : c.workers[j]? = some v) (hv : v ≠ .finished)
    (hend : v' = .finished → c.children.length ≤ c.index) : (c.works j v').Sound := by
  have hmem := List.mem_of_getElem? h
  refine ⟨?_, ?_, ?_, ?_⟩
  · intro hfinished
    rcases of_mem_works hfinished with hold | hnew
    · exact hc.exhausted hold
    · exact hend hnew.symm
  · intro hphase hnil
    exact hc.manned hphase ((List.set_eq_nil_iff j v').mp hnil)
  · intro hphase
    rw [(hc.unmanned hphase).1] at hmem
    exact absurd hmem List.not_mem_nil
  · intro hphase
    exact absurd (hc.done hphase v hmem) hv

theorem turned_sound (hc : c.Sound) (h : Turned o s i c c' events) : c'.Sound := by
  have hrejected : (c.ends .rejected).Sound := ⟨hc.exhausted, nofun, (by rintro (h | h) <;> cases h), (by rintro (h | h) <;> cases h)⟩
  cases h with
  | listed children hphase =>
    refine ⟨?_, ?_, (by rintro (h | h) <;> cases h), (by rintro (h | h) <;> cases h)⟩
    · intro hfinished
      cases List.eq_of_mem_replicate hfinished
    · intro _ hnil
      have hcount := (List.replicate_eq_nil_iff _).mp hnil
      unfold deleteFanout at hcount
      omega
  | unlisted hphase => exact hrejected
  | finished j hw hend => exact works_sound hc hw nofun fun _ => hend
  | resumed j k awaited hw hk hresolved => exact works_sound hc hw nofun nofun
  | failed j k awaited hw hk hthrown => exact works_sound hc hw nofun nofun
  | broken hphase hfailed => exact hrejected
  | joined hphase hall => exact ⟨hc.exhausted, nofun, (by rintro (h | h) <;> cases h), fun _ => hall⟩
  | deleted hphase => exact ⟨hc.exhausted, nofun, (by rintro (h | h) <;> cases h), fun _ => hc.done (.inl hphase)⟩
  | undeleted hphase => exact hrejected

/-- What a turn of a call leaves as it is. -/
theorem turned_kept (h : Turned o s i c c' events) : c'.path = c.path ∧ c'.caller = c.caller ∧
    (c'.phase = .refused ↔ c.phase = .refused) ∧ (c.phase = .resolved → c'.phase = .resolved) := by
  cases h with
  | listed children hphase => simp [Removing.answered, hphase]
  | finished j hw hend => simp [Removing.works]
  | resumed j k awaited hw hk hresolved => simp [Removing.works]
  | failed j k awaited hw hk hthrown => simp [Removing.works]
  | unlisted hphase | broken hphase hfailed | joined hphase hall | deleted hphase | undeleted hphase =>
    simp [Removing.ends, hphase]

theorem turned_children (h : Turned o s i c c' events) :
    c.phase = .listing ∨ c'.children = c.children ∧ c'.index = c.index ∧ (c'.phase = .listing → c.phase = .listing) := by
  cases h with
  | listed children hphase => exact .inl hphase
  | unlisted hphase => exact .inl hphase
  | finished j hw hend => exact .inr ⟨rfl, rfl, id⟩
  | resumed j k awaited hw hk hresolved => exact .inr ⟨rfl, rfl, id⟩
  | failed j k awaited hw hk hthrown => exact .inr ⟨rfl, rfl, id⟩
  | broken hphase hfailed | joined hphase hall | deleted hphase | undeleted hphase => exact .inr ⟨rfl, rfl, nofun⟩

theorem turned_index (hc : c.Sound) (h : Turned o s i c c' events) :
    c'.index = 0 ∨ c'.children = c.children ∧ c'.index = c.index := by
  cases h with
  | listed children hphase => exact .inl (hc.unmanned (.inl hphase)).2
  | unlisted hphase => exact .inr ⟨rfl, rfl⟩
  | finished j hw hend => exact .inr ⟨rfl, rfl⟩
  | resumed j k awaited hw hk hresolved => exact .inr ⟨rfl, rfl⟩
  | failed j k awaited hw hk hthrown => exact .inr ⟨rfl, rfl⟩
  | broken hphase hfailed | joined hphase hall | deleted hphase | undeleted hphase => exact .inr ⟨rfl, rfl⟩

/-- A worker stops waiting for what is done, or it fails. -/
theorem turned_waits (hc : c.Sound) (h : Turned o s i c c' events) (hk : .awaiting k ∈ c.workers ∨ .failed ∈ c.workers) :
    (∃ d, s.calls[k]? = some d ∧ d.phase = .resolved) ∨ .awaiting k ∈ c'.workers ∨ .failed ∈ c'.workers := by
  cases h with
  | listed children hphase =>
    rw [(hc.unmanned (.inl hphase)).1] at hk
    simp at hk
  | finished j hw hend => exact .inr (hk.imp (mem_works hw · nofun) (mem_works hw · nofun))
  | resumed j k' awaited hw hd hresolved =>
    by_cases hsame : k = k'
    · exact .inl ⟨awaited, hsame ▸ hd, hresolved⟩
    · exact .inr (hk.imp (mem_works hw · (by simpa using hsame)) (mem_works hw · nofun))
  | failed j k' awaited hw hd hthrown =>
    have hset : RemovalWorker.failed ∈ (c.works j .failed).workers := by
      obtain ⟨hj, -⟩ := List.getElem?_eq_some_iff.mp hw
      exact List.mem_set hj _
    exact .inr (.inr hset)
  | unlisted hphase | broken hphase hfailed | joined hphase hall | deleted hphase | undeleted hphase => exact .inr hk

theorem turned_awaits (h : Turned o s i c c' events) (hk : .awaiting k ∈ c'.workers) : .awaiting k ∈ c.workers := by
  cases h with
  | listed children hphase => cases List.eq_of_mem_replicate hk
  | finished j hw hend => exact (of_mem_works hk).resolve_right nofun
  | resumed j k' awaited hw hd hresolved => exact (of_mem_works hk).resolve_right nofun
  | failed j k' awaited hw hd hthrown => exact (of_mem_works hk).resolve_right nofun
  | unlisted hphase | broken hphase hfailed | joined hphase hall | deleted hphase | undeleted hphase => exact hk

theorem turned_asked (h : Turned o s i c c' events) (hc : c.Asked) : c'.Asked := by
  obtain ⟨hphase, hall⟩ := hc
  have hbusy {j : ℕ} {w : RemovalWorker} (hw : c.workers[j]? = some w) : w = .finished := hall w (List.mem_of_getElem? hw)
  cases h with
  | listed children hp | unlisted hp | broken hp hfailed | joined hp hall => simp [hp] at hphase
  | finished j hw hend => cases hbusy hw
  | resumed j k awaited hw hk hresolved => cases hbusy hw
  | failed j k awaited hw hk hthrown => cases hbusy hw
  | deleted hp => exact ⟨.inr (.inl rfl), hall⟩
  | undeleted hp => exact ⟨.inr (.inr rfl), hall⟩

theorem turned_listed {p : JsString} {cs : List JsString} (h : Turned o s i c c' events) (hlog : .listed p cs ∈ events) :
    (c.phase = .listing ∧ c'.phase = .joining) ∧ c'.path = p ∧ c'.children = cs := by
  cases h with
  | listed children hphase =>
    obtain ⟨rfl, rfl⟩ := RemovalEvent.listed.inj (List.mem_singleton.mp hlog)
    exact ⟨⟨hphase, rfl⟩, rfl, rfl⟩
  | joined hphase hall | deleted hphase => cases List.mem_singleton.mp hlog
  | _ => cases hlog

theorem turned_asks {p : JsString} {m : Option JsString} (h : Turned o s i c c' events) (hlog : .asked p m ∈ events) :
    (c.phase = .joining ∧ ∀ w ∈ c.workers, w = .finished) ∧ c'.Asked ∧ c'.path = p := by
  cases h with
  | joined hphase hall =>
    obtain ⟨rfl, -⟩ := RemovalEvent.asked.inj (List.mem_singleton.mp hlog)
    exact ⟨⟨hphase, hall⟩, ⟨.inl rfl, hall⟩, rfl⟩
  | listed children hphase => cases List.mem_singleton.mp hlog
  | deleted hphase => cases List.mem_singleton.mp hlog
  | _ => cases hlog

theorem turned_resolved (h : Turned o s i c c' events) (hc' : c'.phase = .resolved) :
    c.phase = .resolved ∨ .deleted c'.path ∈ events := by
  cases h with
  | deleted hphase => exact .inr (List.mem_singleton.mpr rfl)
  | finished j hw hend => exact .inl hc'
  | resumed j k awaited hw hk hresolved => exact .inl hc'
  | failed j k awaited hw hk hthrown => exact .inl hc'
  | _ => cases hc'

/-- A turn of one call keeps the invariant. -/
theorem sound_turned (hs : s.Sound) (hc : s.calls[i]? = some c) (h : Turned o s i c c' events) :
    Removal.Sound { s.update i c' with log := s.log ++ events } := by
  obtain ⟨hpath, hcaller, hrefused, hresolved⟩ := turned_kept h
  have hsound := hs.calls i c hc
  have hget {k : ℕ} {d : Removing} : (s.calls.set i c')[k]? = some d ↔
      (k = i ∧ d = c') ∨ (k ≠ i ∧ s.calls[k]? = some d) := by
    have hgrown := @get_grown _ _ k _ c' d [] hc
    rw [List.append_nil] at hgrown
    simpa using hgrown
  -- every call has another in its place, which is the same up to the turn
  have hold {k : ℕ} {d : Removing} (hd : s.calls[k]? = some d) : ∃ d', (s.calls.set i c')[k]? = some d' ∧
      d'.path = d.path ∧ d'.caller = d.caller ∧ (d'.phase = .refused ↔ d.phase = .refused) ∧
      (d.phase = .resolved → d'.phase = .resolved) := by
    by_cases hk : k = i
    · subst hk
      obtain rfl := Option.some.inj (hc.symm.trans hd)
      exact ⟨c', hget.mpr (.inl ⟨rfl, rfl⟩), hpath, hcaller, hrefused, hresolved⟩
    · exact ⟨d, hget.mpr (.inr ⟨hk, hd⟩), rfl, rfl, Iff.rfl, id⟩
  have hnew {k : ℕ} {d' : Removing} (hd : (s.calls.set i c')[k]? = some d') : ∃ d, s.calls[k]? = some d ∧
      d'.path = d.path ∧ d'.caller = d.caller ∧ (d'.phase = .refused ↔ d.phase = .refused) := by
    rcases hget.mp hd with ⟨rfl, rfl⟩ | ⟨hk, hd⟩
    · exact ⟨c, hc, hpath, hcaller, hrefused⟩
    · exact ⟨d', hd, rfl, rfl, Iff.rfl⟩
  refine ⟨?_, ?_, ?_, ?_, ?_, ?_, ?_, ?_, ?_, ?_, ?_⟩
  · intro k d hd
    rcases hget.mp hd with ⟨rfl, rfl⟩ | ⟨-, hd⟩
    · exact turned_sound hsound h
    · exact hs.calls k d hd
  · intro k d hd hphase
    obtain ⟨d₀, hd₀, hsame, -, hiff⟩ := hnew hd
    rw [hsame]
    exact hs.entered k d₀ hd₀ (mt hiff.mpr hphase)
  · intro k d hd hphase l e he hphase' hequal
    obtain ⟨d₀, hd₀, hsame, -, hiff⟩ := hnew hd
    obtain ⟨e₀, he₀, hsame', -, hiff'⟩ := hnew he
    exact hs.alone k d₀ hd₀ (mt hiff.mpr hphase) l e₀ he₀ (mt hiff'.mpr hphase') (hsame ▸ hsame' ▸ hequal)
  · intro k d hd n hn p hp
    have hbefore : ∃ (l : ℕ) (e : Removing), s.calls[l]? = some e ∧ e.caller = some k ∧ e.path = p := by
      rcases hget.mp hd with ⟨rfl, rfl⟩ | ⟨-, hd⟩
      · rcases turned_index hsound h with hzero | ⟨hchildren, hindex⟩
        · omega
        · exact hs.started k c hc n (hindex ▸ hn) p (hchildren ▸ hp)
      · exact hs.started k d hd n hn p hp
    obtain ⟨l, e, he, hecaller, hepath⟩ := hbefore
    obtain ⟨e', he', hpath', hcaller', -⟩ := hold he
    exact ⟨l, e', he', hcaller'.trans hecaller, hpath'.trans hepath⟩
  · intro k d i₀ hd hd₀
    obtain ⟨e, he, -, hsame, -⟩ := hnew hd
    obtain ⟨hlt, ci, hci, hstate⟩ := hs.awaited k e i₀ he (hsame ▸ hd₀)
    have hresolved' : e.phase = .resolved → d.phase = .resolved := by
      obtain ⟨d', hd', -, -, -, hkeep⟩ := hold he
      obtain rfl := Option.some.inj (hd'.symm.trans hd)
      exact hkeep
    refine ⟨hlt, ?_⟩
    by_cases hi₀ : i₀ = i
    · subst hi₀
      obtain rfl := Option.some.inj (hc.symm.trans hci)
      refine ⟨c', hget.mpr (.inl ⟨rfl, rfl⟩), ?_⟩
      rcases hstate with hdone | hwaits
      · exact .inl (hresolved' hdone)
      · rcases turned_waits hsound h hwaits with ⟨f, hf, hdone⟩ | hwaits
        · obtain rfl := Option.some.inj (hf.symm.trans he)
          exact .inl (hresolved' hdone)
        · exact .inr hwaits
    · exact ⟨ci, hget.mpr (.inr ⟨hi₀, hci⟩), hstate.imp hresolved' id⟩
  · intro k d hd l hl
    have hlength : (s.calls.set i c').length = s.calls.length := List.length_set
    change _ ∧ l < (s.calls.set i c').length
    rw [hlength]
    rcases hget.mp hd with ⟨rfl, rfl⟩ | ⟨-, hd⟩
    · exact hs.waits k c hc l (turned_awaits h hl)
    · exact hs.waits k d hd l hl
  · intro k d hd hpos
    obtain ⟨e, he, -, hsame, -⟩ := hnew hd
    rw [hsame]
    exact hs.rooted k e he hpos
  · intro p cs hlog
    rcases List.mem_append.mp hlog with hlog | hlog
    · obtain ⟨k, d, hd, ⟨hphase, hlisting⟩, hdpath, hchildren⟩ := hs.listed p cs hlog
      by_cases hk : k = i
      · subst hk
        obtain rfl := Option.some.inj (hc.symm.trans hd)
        rcases turned_children h with hlisting' | ⟨hsame, -, hkeep⟩
        · exact absurd hlisting' hlisting
        · exact ⟨k, c', hget.mpr (.inl ⟨rfl, rfl⟩), ⟨mt hrefused.mp hphase, mt hkeep hlisting⟩,
            hpath.trans hdpath, hsame.trans hchildren⟩
      · exact ⟨k, d, hget.mpr (.inr ⟨hk, hd⟩), ⟨hphase, hlisting⟩, hdpath, hchildren⟩
    · obtain ⟨⟨-, hphase⟩, hsame, hchildren⟩ := turned_listed h hlog
      exact ⟨i, c', hget.mpr (.inl ⟨rfl, rfl⟩), by rw [hphase]; exact ⟨nofun, nofun⟩, hsame, hchildren⟩
  · intro p m hlog
    rcases List.mem_append.mp hlog with hlog | hlog
    · obtain ⟨k, d, hd, hasked, hdpath⟩ := hs.asked p m hlog
      by_cases hk : k = i
      · subst hk
        obtain rfl := Option.some.inj (hc.symm.trans hd)
        exact ⟨k, c', hget.mpr (.inl ⟨rfl, rfl⟩), turned_asked h hasked, hpath.trans hdpath⟩
      · exact ⟨k, d, hget.mpr (.inr ⟨hk, hd⟩), hasked, hdpath⟩
    · obtain ⟨-, hasked, hsame⟩ := turned_asks h hlog
      exact ⟨i, c', hget.mpr (.inl ⟨rfl, rfl⟩), hasked, hsame⟩
  · intro k d hd hphase
    apply List.mem_append.mpr
    rcases hget.mp hd with ⟨rfl, rfl⟩ | ⟨-, hd⟩
    · exact (turned_resolved h hphase).imp (fun hdone => hpath ▸ hs.resolved k c hc hdone) id
    · exact .inl (hs.resolved k d hd hphase)
  · change 0 < (s.calls.set i c').length
    rw [List.length_set]
    exact hs.begun

theorem fresh_sound {path : JsString} {depth : ℕ} {caller : Option ℕ} {phase : RemovalPhase}
    (h : phase = .refused ∨ phase = .listing ∨ phase = .deleting) :
    (Removing.mk path depth caller phase [] 0 []).Sound := by
  refine ⟨nofun, ?_, fun _ => ⟨rfl, rfl⟩, fun _ => List.forall_mem_nil _⟩
  rintro rfl
  rcases h with h | h | h <;> cases h

theorem takes_sound (hc : c.Sound) (hw : c.workers[j]? = some .ready) (hindex : c.index < c.children.length) (call : ℕ) :
    (c.takes j call).Sound := by
  have hmem := List.mem_of_getElem? hw
  refine ⟨?_, ?_, ?_, ?_⟩
  · intro hfinished
    have hend := hc.exhausted ((of_mem_works hfinished).resolve_right nofun)
    omega
  · intro hphase hnil
    exact hc.manned hphase ((List.set_eq_nil_iff _ _).mp hnil)
  · intro hphase
    rw [(hc.unmanned hphase).1] at hmem
    exact absurd hmem List.not_mem_nil
  · intro hphase
    cases hc.done hphase _ hmem

/-- A call that a worker makes for the next child keeps the invariant. -/
theorem sound_taken {child : JsString} (hs : s.Sound) (hc : s.calls[i]? = some c) (hw : c.workers[j]? = some .ready)
    (hchild : c.children[c.index]? = some child) :
    (o.removeRecursive (s.update i (c.takes j s.calls.length)) (some i) child (c.depth + 1)).Sound := by
  obtain ⟨hi, -⟩ := List.getElem?_eq_some_iff.mp hc
  obtain ⟨hindex, -⟩ := List.getElem?_eq_some_iff.mp hchild
  obtain ⟨phase, visited, events, heq, ⟨hvisited, hsubset⟩, hcases⟩ := removeRecursive_eq (o := o)
    (s.update i (c.takes j s.calls.length)) (some i) child (c.depth + 1)
  have hsound := hs.calls i c hc
  rw [heq]
  generalize hnewcall : Removing.mk child (c.depth + 1) (some i) phase [] 0 [] = fresh
  have hget {k : ℕ} {d : Removing} : (s.calls.set i (c.takes j s.calls.length) ++ [fresh])[k]? = some d ↔
      (k = i ∧ d = c.takes j s.calls.length) ∨ (k ≠ i ∧ s.calls[k]? = some d) ∨ (k = s.calls.length ∧ d = fresh) := by
    rw [get_grown hc]
    refine or_congr Iff.rfl (or_congr Iff.rfl ?_)
    constructor
    · rintro ⟨n, rfl, hn⟩
      cases n with
      | zero => exact ⟨rfl, (Option.some.inj hn).symm⟩
      | succ n => cases hn
    · rintro ⟨rfl, rfl⟩
      exact ⟨0, rfl, rfl⟩
  have hold {k : ℕ} {d : Removing} (hd : s.calls[k]? = some d) :
      ∃ d', (s.calls.set i (c.takes j s.calls.length) ++ [fresh])[k]? = some d' ∧ d'.path = d.path ∧
        d'.caller = d.caller ∧ d'.phase = d.phase := by
    by_cases hk : k = i
    · subst hk
      obtain rfl := Option.some.inj (hc.symm.trans hd)
      exact ⟨_, hget.mpr (.inl ⟨rfl, rfl⟩), rfl, rfl, rfl⟩
    · exact ⟨d, hget.mpr (.inr (.inl ⟨hk, hd⟩)), rfl, rfl, rfl⟩
  have hnew {k : ℕ} {d' : Removing}
      (hd : (s.calls.set i (c.takes j s.calls.length) ++ [fresh])[k]? = some d') :
      (∃ d, s.calls[k]? = some d ∧ d'.path = d.path ∧ d'.caller = d.caller ∧ d'.phase = d.phase) ∨
        k = s.calls.length ∧ d' = fresh := by
    rcases hget.mp hd with ⟨rfl, rfl⟩ | ⟨-, hd⟩ | hlast
    · exact .inl ⟨c, hc, rfl, rfl, rfl⟩
    · exact .inl ⟨d', hd, rfl, rfl, rfl⟩
    · exact .inr hlast
  have hfresh : fresh.phase ≠ .refused → child ∉ s.visited := by
    subst hnewcall
    intro hphase
    rcases hcases with ⟨rfl, -⟩ | ⟨hno, -⟩
    · exact absurd rfl hphase
    · exact hno
  have hpath : fresh.path = child := hnewcall ▸ rfl
  have hcaller : fresh.caller = some i := hnewcall ▸ rfl
  refine ⟨?_, ?_, ?_, ?_, ?_, ?_, ?_, ?_, ?_, ?_, ?_⟩
  · intro k d hd
    rcases hget.mp hd with ⟨rfl, rfl⟩ | ⟨-, hd⟩ | ⟨rfl, rfl⟩
    · exact takes_sound hsound hw hindex _
    · exact hs.calls k d hd
    · rw [← hnewcall]
      apply fresh_sound
      rcases hcases with ⟨rfl, -⟩ | ⟨-, -, ⟨rfl, -⟩ | ⟨rfl, -⟩⟩
      · exact .inl rfl
      · exact .inr (.inl rfl)
      · exact .inr (.inr rfl)
  · intro k d hd hphase
    rcases hnew hd with ⟨e, he, hsame, -, hsame'⟩ | ⟨rfl, rfl⟩
    · exact hsubset (hsame ▸ hs.entered k e he (hsame' ▸ hphase))
    · rw [hpath]
      exact hvisited
  · intro k d hd hphase l e he hphase' hequal
    rcases hnew hd with ⟨d₀, hd₀, hsame, -, hphases⟩ | ⟨rfl, rfl⟩
    · rcases hnew he with ⟨e₀, he₀, hsame', -, hphases'⟩ | ⟨rfl, rfl⟩
      · exact hs.alone k d₀ hd₀ (hphases ▸ hphase) l e₀ he₀ (hphases' ▸ hphase') (hsame ▸ hsame' ▸ hequal)
      · have hentered := hs.entered k d₀ hd₀ (hphases ▸ hphase)
        rw [← hsame, hequal, hpath] at hentered
        exact absurd hentered (hfresh hphase')
    · rcases hnew he with ⟨e₀, he₀, hsame', -, hphases'⟩ | ⟨rfl, rfl⟩
      · have hentered := hs.entered l e₀ he₀ (hphases' ▸ hphase')
        rw [← hsame', ← hequal, hpath] at hentered
        exact absurd hentered (hfresh hphase)
      · rfl
  · intro k d hd n hn p hp
    have hkept {m : ℕ} (hbefore : ∃ (l : ℕ) (e : Removing), s.calls[l]? = some e ∧ e.caller = some m ∧ e.path = p) :
        ∃ (l : ℕ) (e : Removing), (s.calls.set i (c.takes j s.calls.length) ++ [fresh])[l]? = some e ∧
          e.caller = some m ∧ e.path = p := by
      obtain ⟨l, e, he, hecaller, hepath⟩ := hbefore
      obtain ⟨e', he', hpath', hcaller', -⟩ := hold he
      exact ⟨l, e', he', hcaller'.trans hecaller, hpath'.trans hepath⟩
    rcases hget.mp hd with ⟨rfl, rfl⟩ | ⟨-, hd⟩ | ⟨rfl, rfl⟩
    · -- the child that is just taken is what the new call is for
      by_cases hlast : n = c.index
      · subst hlast
        obtain rfl := Option.some.inj (hchild.symm.trans hp)
        exact ⟨s.calls.length, fresh, hget.mpr (.inr (.inr ⟨rfl, rfl⟩)), hcaller, hpath⟩
      · have hless : n < c.index + 1 := hn
        exact hkept (hs.started k c hc n (by omega) p hp)
    · exact hkept (hs.started k d hd n hn p hp)
    · subst hnewcall
      exact absurd hn (Nat.not_lt_zero n)
  · intro k d i₀ hd hd₀
    have hwaits {v : RemovalWorker} (hv : v ∈ c.workers) (hne : v ≠ .ready) :
        v ∈ (c.takes j s.calls.length).workers := mem_works hw hv hne
    rcases hnew hd with ⟨e, he, -, hsame, hphases⟩ | ⟨rfl, rfl⟩
    · obtain ⟨hlt, ci, hci, hstate⟩ := hs.awaited k e i₀ he (hsame ▸ hd₀)
      refine ⟨hlt, ?_⟩
      rw [hphases]
      by_cases hi₀ : i₀ = i
      · subst hi₀
        obtain rfl := Option.some.inj (hc.symm.trans hci)
        exact ⟨_, hget.mpr (.inl ⟨rfl, rfl⟩), hstate.imp id (Or.imp (hwaits · nofun) (hwaits · nofun))⟩
      · exact ⟨ci, hget.mpr (.inr (.inl ⟨hi₀, hci⟩)), hstate⟩
    · obtain rfl := Option.some.inj (hcaller.symm.trans hd₀)
      have hset : RemovalWorker.awaiting s.calls.length ∈ (c.takes j s.calls.length).workers :=
        List.mem_set (List.getElem?_eq_some_iff.mp hw).1 _
      exact ⟨hi, _, hget.mpr (.inl ⟨rfl, rfl⟩), .inr (.inl hset)⟩
  · intro k d hd l hl
    change _ ∧ l < (s.calls.set i (c.takes j s.calls.length) ++ [fresh]).length
    rw [List.length_append, List.length_set, List.length_singleton]
    rcases hget.mp hd with ⟨rfl, rfl⟩ | ⟨-, hd⟩ | ⟨rfl, rfl⟩
    · rcases of_mem_works hl with hl | hl
      · obtain ⟨hlt, hl⟩ := hs.waits k c hc l hl
        exact ⟨hlt, by omega⟩
      · obtain rfl := RemovalWorker.awaiting.inj hl
        exact ⟨hi, by omega⟩
    · obtain ⟨hlt, hl⟩ := hs.waits k d hd l hl
      exact ⟨hlt, by omega⟩
    · subst hnewcall
      exact absurd hl List.not_mem_nil
  · intro k d hd hpos
    rcases hnew hd with ⟨e, he, -, hsame, -⟩ | ⟨rfl, rfl⟩
    · rw [hsame]
      exact hs.rooted k e he hpos
    · rw [hcaller]
      exact nofun
  · intro p cs hlog
    rcases List.mem_append.mp hlog with hlog | hlog
    · obtain ⟨k, d, hd, hphase, hdpath, hchildren⟩ := hs.listed p cs hlog
      by_cases hk : k = i
      · subst hk
        obtain rfl := Option.some.inj (hc.symm.trans hd)
        exact ⟨k, _, hget.mpr (.inl ⟨rfl, rfl⟩), hphase, hdpath, hchildren⟩
      · exact ⟨k, d, hget.mpr (.inr (.inl ⟨hk, hd⟩)), hphase, hdpath, hchildren⟩
    · rcases hcases with ⟨-, rfl⟩ | ⟨-, -, ⟨-, rfl⟩ | ⟨-, rfl⟩⟩
      · cases hlog
      · cases hlog
      · cases List.mem_singleton.mp hlog
  · intro p m hlog
    rcases List.mem_append.mp hlog with hlog | hlog
    · obtain ⟨k, d, hd, hasked, hdpath⟩ := hs.asked p m hlog
      by_cases hk : k = i
      · subst hk
        obtain rfl := Option.some.inj (hc.symm.trans hd)
        cases hasked.2 _ (List.mem_of_getElem? hw)
      · exact ⟨k, d, hget.mpr (.inr (.inl ⟨hk, hd⟩)), hasked, hdpath⟩
    · rcases hcases with ⟨-, rfl⟩ | ⟨-, -, ⟨-, rfl⟩ | ⟨rfl, rfl⟩⟩
      · cases hlog
      · cases hlog
      · obtain ⟨rfl, -⟩ := RemovalEvent.asked.inj (List.mem_singleton.mp hlog)
        exact ⟨_, _, hget.mpr (.inr (.inr ⟨rfl, rfl⟩)), hnewcall ▸ ⟨.inl rfl, List.forall_mem_nil _⟩, hpath⟩
  · intro k d hd hphase
    apply List.mem_append_left
    rcases hnew hd with ⟨e, he, hsame, -, hphases⟩ | ⟨rfl, rfl⟩
    · rw [hsame]
      exact hs.resolved k e he (hphases ▸ hphase)
    · subst hnewcall
      rcases hcases with ⟨rfl, -⟩ | ⟨-, -, ⟨rfl, -⟩ | ⟨rfl, -⟩⟩ <;> cases hphase
  · change 0 < (s.calls.set i (c.takes j s.calls.length) ++ [fresh]).length
    rw [List.length_append]
    exact Nat.succ_pos _

theorem initial_sound (o : RemoveRecursiveOptions) : o.initial.Sound := by
  obtain ⟨phase, visited, events, heq, ⟨hvisited, -⟩, hcases⟩ := removeRecursive_eq (o := o) {} none o.root 0
  unfold RemoveRecursiveOptions.initial
  rw [heq]
  generalize hroot : Removing.mk o.root 0 none phase [] 0 [] = root
  have hget {k : ℕ} {d : Removing} (hd : [root][k]? = some d) : k = 0 ∧ d = root := by
    cases k with
    | zero => exact ⟨rfl, (Option.some.inj hd).symm⟩
    | succ k => cases hd
  have hlog : events = [] ∨ phase = .deleting ∧ events = [.asked o.root o.ifMatch] := by
    rcases hcases with ⟨-, rfl⟩ | ⟨-, -, ⟨-, rfl⟩ | ⟨rfl, rfl⟩⟩
    · exact .inl rfl
    · exact .inl rfl
    · exact .inr ⟨rfl, rfl⟩
  refine ⟨?_, ?_, ?_, ?_, ?_, ?_, ?_, ?_, ?_, ?_, ?_⟩
  · intro k d hd
    obtain ⟨-, rfl⟩ := hget hd
    rw [← hroot]
    apply fresh_sound
    rcases hcases with ⟨rfl, -⟩ | ⟨-, -, ⟨rfl, -⟩ | ⟨rfl, -⟩⟩
    · exact .inl rfl
    · exact .inr (.inl rfl)
    · exact .inr (.inr rfl)
  · intro k d hd _
    obtain ⟨-, rfl⟩ := hget hd
    exact hroot ▸ hvisited
  · intro k d hd _ l e he _ _
    rw [(hget hd).1, (hget he).1]
  · intro k d hd n hn
    obtain ⟨-, rfl⟩ := hget hd
    subst hroot
    exact absurd hn (Nat.not_lt_zero n)
  · intro k d i hd hcaller
    obtain ⟨-, rfl⟩ := hget hd
    subst hroot
    cases hcaller
  · intro k d hd l hl
    obtain ⟨-, rfl⟩ := hget hd
    subst hroot
    exact absurd hl List.not_mem_nil
  · intro k d hd hpos
    exact absurd (hget hd).1 (Nat.ne_of_gt hpos)
  · intro p cs hmem
    rcases hlog with rfl | ⟨-, rfl⟩
    · cases hmem
    · cases List.mem_singleton.mp hmem
  · intro p m hmem
    rcases hlog with rfl | ⟨rfl, rfl⟩
    · cases hmem
    · obtain ⟨rfl, -⟩ := RemovalEvent.asked.inj (List.mem_singleton.mp hmem)
      exact ⟨0, root, rfl, hroot ▸ ⟨.inl rfl, List.forall_mem_nil _⟩, hroot ▸ rfl⟩
  · intro k d hd hphase
    obtain ⟨-, rfl⟩ := hget hd
    subst hroot
    rcases hcases with ⟨rfl, -⟩ | ⟨-, -, ⟨rfl, -⟩ | ⟨rfl, -⟩⟩ <;> cases hphase
  · exact Nat.one_pos

end Turns

end DurableDav.Replication
