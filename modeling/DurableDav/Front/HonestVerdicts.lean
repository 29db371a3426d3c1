import DurableDav.Front.CredentialVerifier

namespace DurableDav.Front

open Library

/-- What is known of the fingerprint: it tells passwords apart and is spelled without a colon. -/
structure Digests.Faithful (D : Digests) : Prop where
  injective : Function.Injective D.passwordFingerprint
  colonless : ∀ password, colon ∉ D.passwordFingerprint password

/-- Every entry under a credential's key was verified with the password of that key. -/
def Digests.Certified (D : Digests) (entries : Verified) : Prop :=
  ∀ e ∈ entries, ∀ username password, e.1 = D.key username password → D.accepts password e.2.passwordHash

def VerifyRequestBody.Verifies (D : Digests) (body : VerifyRequestBody) : Prop :=
  D.accepts body.password body.passwordHash = true

instance (D : Digests) (body : VerifyRequestBody) : Decidable (body.Verifies D) :=
  inferInstanceAs (Decidable (_ = true))

/-- An answer says what the verification of that very password against that very hash says. -/
def VerifyOutcome.True (D : Digests) (o : VerifyOutcome) (body : VerifyRequestBody) : Prop :=
  o.ok = true ↔ body.Verifies D

structure Deployment.Honest (D : Digests) (w : Deployment) : Prop where
  answers : ∀ n call o, w.calls n = some call → call.phase = .done o → o.True D call.body
  verdicts : ∀ a ask r, w.asks a = some ask → ask.phase = .answered r → r.True D ask.body
  memos : ∀ isolate, D.Certified (w.memos isolate)

/-! ### Keys -/

theorem append_colon_injective {u u' f f' : JsString} (hf : colon ∉ f) (hf' : colon ∉ f')
    (h : u ++ colon :: f = u' ++ colon :: f') : f = f' := by
  rcases List.append_eq_append_iff.mp h with ⟨m, -, hm⟩ | ⟨m, -, hm⟩
  · cases m with
    | nil => simpa using hm
    | cons c m =>
      have hmem : colon ∈ f := by
        rw [(List.cons.inj hm).2]
        simp
      exact absurd hmem hf
  · cases m with
    | nil => simpa using hm.symm
    | cons c m =>
      have hmem : colon ∈ f' := by
        rw [(List.cons.inj hm).2]
        simp
      exact absurd hmem hf'

theorem Digests.Faithful.password_eq {D : Digests} (hD : D.Faithful) {u u' p p' : JsString}
    (h : D.key u p = D.key u' p') : p = p' :=
  hD.injective (append_colon_injective (hD.colonless p) (hD.colonless p') h)

/-! ### Caches -/

section Caches

variable {D : Digests} {entries : Verified}

theorem certified_subset {entries' : Verified} (h : D.Certified entries) (hsub : ∀ e ∈ entries', e ∈ entries) :
    D.Certified entries' := fun e he => h e (hsub e he)

theorem certified_remember (hD : D.Faithful) (h : D.Certified entries) (ttlMs maxEntries now : ℕ)
    (body : VerifyRequestBody) (hbody : body.Verifies D) :
    D.Certified (remember ttlMs maxEntries entries (D.key body.username body.password) body.passwordHash now) := by
  intro e he username password hkey
  rcases Store.mem_set he with he | rfl
  · refine h e ?_ username password hkey
    split at he
    · exact List.mem_of_mem_tail he
    · exact he
  · rw [← hD.password_eq hkey]
    exact hbody

theorem certified_deletePrefix (h : D.Certified entries) (start : JsString) :
    D.Certified (deletePrefix entries start) :=
  certified_subset h (fun _ he => Store.mem_of_mem_removeWhere he)

theorem certified_remove (h : D.Certified entries) (key : JsString) : D.Certified (entries.remove key) :=
  certified_subset h (fun _ he => Store.mem_of_mem_removeWhere he)

theorem certified_hit (h : D.Certified entries) (body : VerifyRequestBody) (hit : CacheEntry)
    (hget : entries.get (D.key body.username body.password) = some hit)
    (hhash : hit.passwordHash = body.passwordHash) : body.Verifies D := by
  have hmem := h _ (Store.mem_of_get hget) body.username body.password rfl
  rwa [hhash] at hmem

theorem cache_get (h : D.Certified entries) (body : VerifyRequestBody) (now : ℕ) :
    let hit := VerificationCache.get entries (D.key body.username body.password) body.passwordHash now
    D.Certified hit.2 ∧ (hit.1 = true → body.Verifies D) := by
  intro hit
  simp only [hit, VerificationCache.get]
  split
  · exact ⟨h, by simp⟩
  · rename_i found hget
    split
    · exact ⟨certified_remove h _, by simp⟩
    · refine ⟨h, fun hsame => certified_hit h body found hget ?_⟩
      simpa using hsame

theorem memo_get (h : D.Certified entries) (body : VerifyRequestBody) (now : ℕ) :
    let hit := lookupCredentialMemo entries (D.key body.username body.password) body.passwordHash now
    D.Certified hit.2 ∧ (hit.1 = true → body.Verifies D) := by
  intro hit
  simp only [hit, lookupCredentialMemo]
  split
  · exact ⟨h, by simp⟩
  · rename_i found hget
    split
    · exact ⟨certified_remove h _, by simp⟩
    · split
      · exact ⟨certified_remove h _, by simp⟩
      · rename_i hsame
        exact ⟨h, fun _ => certified_hit h body found hget (not_not.mp hsame)⟩

end Caches

/-! ### The invariant -/

section Invariant

variable {D : Digests} {w : Deployment}

def Ask.Upright (D : Digests) (asks : ℕ → Option Ask) (ask : Ask) : Prop :=
  match ask.phase with
  | .joined pending => ∃ other, asks pending = some other ∧ (other.body.Verifies D → ask.body.Verifies D)
  | .rehashing => ask.body.Verifies D
  | .settled r => r.True D ask.body
  | .answered r => r.True D ask.body
  | _ => True

def Call.Upright (D : Digests) (asks : ℕ → Option Ask) (call : Call) : Prop :=
  match call.phase with
  | .asking a => ∃ ask, asks a = some ask ∧ ask.body = call.body
  | .rehashing => call.body.Verifies D
  | .done o => o.True D call.body
  | _ => True

structure Deployment.Sound (D : Digests) (w : Deployment) : Prop where
  memos : ∀ isolate, D.Certified (w.memos isolate)
  caches : ∀ home, D.Certified (w.verifiers home).cache
  pending : ∀ home, ∀ e ∈ (w.verifiers home).inflight, (w.asks e.2).isSome
  asks : ∀ a ask, w.asks a = some ask → ask.Upright D w.asks
  calls : ∀ n call, w.calls n = some call → call.Upright D w.asks

theorem honest_of_sound (h : w.Sound D) : w.Honest D where
  answers n call o hcall hdone := by
    have hup := h.calls n call hcall
    simpa only [Call.Upright, hdone] using hup
  verdicts a ask r hask hdone := by
    have hup := h.asks a ask hask
    simpa only [Ask.Upright, hdone] using hup
  memos := h.memos

theorem sound_start : Deployment.start.Sound D where
  memos _ := by simp [Deployment.start, Digests.Certified]
  caches _ := by simp [Deployment.start, Digests.Certified]
  pending _ := by simp [Deployment.start]
  asks _ _ h := by simp [Deployment.start] at h
  calls _ _ h := by simp [Deployment.start] at h

/-- Requests stay, with what they asked. -/
def Keeps (asks asks' : ℕ → Option Ask) : Prop :=
  ∀ a ask, asks a = some ask → ∃ ask', asks' a = some ask' ∧ ask'.body = ask.body

theorem ask_keeps {asks asks' : ℕ → Option Ask} (hkeep : Keeps asks asks') {ask : Ask}
    (h : ask.Upright D asks) : ask.Upright D asks' := by
  unfold Ask.Upright at h ⊢
  split at h
  · obtain ⟨other, hother, himp⟩ := h
    obtain ⟨other', hother', hbody⟩ := hkeep _ other hother
    exact ⟨other', hother', by rwa [hbody]⟩
  all_goals exact h

theorem call_keeps {asks asks' : ℕ → Option Ask} (hkeep : Keeps asks asks') {call : Call}
    (h : call.Upright D asks) : call.Upright D asks' := by
  unfold Call.Upright at h ⊢
  split at h
  · obtain ⟨ask, hask, hsame⟩ := h
    obtain ⟨ask', hask', hbody⟩ := hkeep _ ask hask
    exact ⟨ask', hask', hbody.trans hsame⟩
  all_goals exact h

theorem sound_putMemo (h : w.Sound D) (isolate : ℕ) {memo : Verified} (hmemo : D.Certified memo) :
    (w.putMemo isolate memo).Sound D where
  memos i := by
    by_cases hi : i = isolate
    · subst hi
      simpa [Deployment.putMemo] using hmemo
    · simpa [Deployment.putMemo, hi] using h.memos i
  caches := h.caches
  pending := h.pending
  asks := h.asks
  calls := h.calls

theorem sound_putVerifier (h : w.Sound D) (home : Instance) {v : Verifier} (hcache : D.Certified v.cache)
    (hpending : ∀ e ∈ v.inflight, (w.asks e.2).isSome) : (w.putVerifier home v).Sound D where
  memos := h.memos
  caches home' := by
    by_cases hh : home' = home
    · subst hh
      simpa [Deployment.putVerifier] using hcache
    · simpa [Deployment.putVerifier, hh] using h.caches home'
  pending home' := by
    by_cases hh : home' = home
    · subst hh
      simpa [Deployment.putVerifier] using hpending
    · simpa [Deployment.putVerifier, hh] using h.pending home'
  asks := h.asks
  calls := h.calls

theorem sound_putCache (h : w.Sound D) (home : Instance) {cache : Verified} (hcache : D.Certified cache) :
    (w.putCache home cache).Sound D :=
  sound_putVerifier h home hcache (h.pending home)

theorem sound_putInflight (h : w.Sound D) (home : Instance) {inflight : Store JsString ℕ}
    (hpending : ∀ e ∈ inflight, (w.asks e.2).isSome) : (w.putInflight home inflight).Sound D :=
  sound_putVerifier h home (h.caches home) hpending

theorem keeps_putAsk (a : ℕ) {ask : Ask} (hbody : ∀ old, w.asks a = some old → ask.body = old.body) :
    Keeps w.asks (w.putAsk a ask).asks := by
  intro b old hold
  by_cases hb : b = a
  · subst hb
    exact ⟨ask, by simp [Deployment.putAsk], hbody old hold⟩
  · exact ⟨old, by simpa [Deployment.putAsk, hb] using hold, rfl⟩

theorem sound_putAsk (h : w.Sound D) (a : ℕ) {ask : Ask}
    (hbody : ∀ old, w.asks a = some old → ask.body = old.body) (hup : ask.Upright D w.asks) :
    (w.putAsk a ask).Sound D where
  memos := h.memos
  caches := h.caches
  pending home e he := by
    obtain ⟨old, hold⟩ := Option.isSome_iff_exists.mp (h.pending home e he)
    obtain ⟨ask', hask', -⟩ := keeps_putAsk a hbody e.2 old hold
    exact Option.isSome_iff_exists.mpr ⟨ask', hask'⟩
  asks b other hother := by
    apply ask_keeps (keeps_putAsk a hbody)
    by_cases hb : b = a
    · subst hb
      have hsame : ask = other := by simpa [Deployment.putAsk] using hother
      rwa [← hsame]
    · exact h.asks b other (by simpa [Deployment.putAsk, hb] using hother)
  calls n call hcall := call_keeps (keeps_putAsk a hbody) (h.calls n call hcall)

theorem sound_putCall (h : w.Sound D) (n : ℕ) {call : Call} (hup : call.Upright D w.asks) :
    (w.putCall n call).Sound D where
  memos := h.memos
  caches := h.caches
  pending := h.pending
  asks := h.asks
  calls m other hother := by
    by_cases hm : m = n
    · subst hm
      have hsame : call = other := by simpa [Deployment.putCall] using hother
      rwa [← hsame]
    · exact h.calls m other (by simpa [Deployment.putCall, hm] using hother)

/-! ### One step -/

theorem sound_fetch (h : w.Sound D) {a : ℕ} (hfresh : w.asks a = none) (home : Instance)
    (body : VerifyRequestBody) : (w.fetch a home body).Sound D := by
  apply sound_putAsk h
  · intro old hold
    rw [hfresh] at hold
    exact nomatch hold
  · by_cases hempty : body.username = [] ∨ body.password = [] ∨ body.passwordHash = []
    · rw [if_pos hempty]
      trivial
    · rw [if_neg hempty]
      trivial

theorem sound_reask (h : w.Sound D) {a : ℕ} {ask : Ask} (hask : w.asks a = some ask) {phase : AskPhase}
    (hup : ({ ask with phase := phase } : Ask).Upright D w.asks) :
    (w.putAsk a { ask with phase := phase }).Sound D := by
  apply sound_putAsk h a _ hup
  intro old hold
  rw [Option.some.inj (hask.symm.trans hold)]

theorem sound_derive (h : w.Sound D) {a : ℕ} {ask : Ask} (hask : w.asks a = some ask) :
    (w.derive D a ask).Sound D := by
  have hv : (w.putInflight ask.home ((w.verifiers ask.home).inflight.set
      (D.key ask.body.username ask.body.password) a)).Sound D := by
    apply sound_putInflight h ask.home
    intro e he
    rcases Store.mem_set he with he | rfl
    · exact h.pending ask.home e he
    · exact Option.isSome_iff_exists.mpr ⟨ask, hask⟩
  exact sound_reask hv hask trivial

/-- The pending derivation that `verify` would wait for. -/
def Deployment.joins (D : Digests) (w : Deployment) (ask : Ask) : Option ℕ :=
  let v := w.verifiers ask.home
  let key := D.key ask.body.username ask.body.password
  if (VerificationCache.get v.cache key ask.body.passwordHash w.now).1 then none else v.inflight.get key

/-- Whoever waits for a derivation under another stored hash would be accepted under its own if that one is. -/
def Deployment.Agrees (D : Digests) (w : Deployment) : Happening → Prop
  | .consult a => ∀ ask ∈ w.asks a, ∀ pending ∈ w.joins D ask, ∀ other ∈ w.asks pending,
      other.body.Verifies D → ask.body.Verifies D
  | _ => True

instance (D : Digests) (w : Deployment) (e : Happening) : Decidable (w.Agrees D e) := by
  cases e <;> (unfold Deployment.Agrees; infer_instance)

theorem sound_consult (h : w.Sound D) {a : ℕ} {ask : Ask} (hask : w.asks a = some ask)
    (hagree : w.Agrees D (.consult a)) : (w.consult D a ask).Sound D := by
  obtain ⟨hcache, hhit⟩ := cache_get (h.caches ask.home) ask.body w.now
  have hv := sound_putCache h ask.home hcache
  simp only [Deployment.consult]
  split
  · rename_i hfound
    apply sound_reask hv hask
    simpa [Ask.Upright, VerifyOutcome.True, VerifyOutcome.known] using hhit hfound
  · rename_i hmiss
    split
    · rename_i pending hpending
      apply sound_reask hv hask
      have hjoin : w.joins D ask = some pending := by
        simpa only [Deployment.joins, if_neg hmiss] using hpending
      obtain ⟨other, hother⟩ := Option.isSome_iff_exists.mp
        (h.pending ask.home _ (Store.mem_of_get hpending))
      exact ⟨other, hother, hagree ask hask pending hjoin other hother⟩
    · exact sound_derive hv hask

theorem sound_settle (hD : D.Faithful) (h : w.Sound D) {a : ℕ} {ask : Ask} (hask : w.asks a = some ask)
    (hok : ask.body.Verifies D) (ttlMs : ℕ) (needsRehash : Bool) (upgradedHash : Option JsString) :
    (w.settle D ttlMs a ask needsRehash upgradedHash).Sound D := by
  have hv := sound_putCache h ask.home
    (certified_remember hD (h.caches ask.home) ttlMs VerificationCache.maxCacheEntries w.now ask.body hok)
  apply sound_reask hv hask
  simpa [Ask.Upright, VerifyOutcome.True] using hok

theorem sound_derived (hD : D.Faithful) (h : w.Sound D) {a : ℕ} {ask : Ask} (hask : w.asks a = some ask)
    (ttlMs : ℕ) : (w.derived D ttlMs a ask).Sound D := by
  simp only [Deployment.derived]
  split
  · rename_i hno
    apply sound_reask h hask
    have hnot : ¬ ask.body.Verifies D := by
      simpa [VerifyRequestBody.Verifies, Digests.accepts] using hno
    simpa [Ask.Upright, VerifyOutcome.True, VerifyOutcome.rejected] using hnot
  · rename_i hyes
    have hok : ask.body.Verifies D := by
      simpa [VerifyRequestBody.Verifies, Digests.accepts] using hyes
    split
    · exact sound_reask h hask hok
    · exact sound_settle hD h hask hok _ _ _

theorem promised_true (h : w.Sound D) {a : ℕ} {r : VerifyOutcome} (hr : w.promised a = some r) :
    ∃ ask, w.asks a = some ask ∧ r.True D ask.body := by
  unfold Deployment.promised at hr
  split at hr
  · rename_i r' hphase
    obtain ⟨ask, hask, hp⟩ := Option.map_eq_some_iff.mp hphase
    have hup := h.asks a ask hask
    simp only [Ask.Upright, hp] at hup
    exact ⟨ask, hask, Option.some.inj hr ▸ hup⟩
  · rename_i r' hphase
    obtain ⟨ask, hask, hp⟩ := Option.map_eq_some_iff.mp hphase
    have hup := h.asks a ask hask
    simp only [Ask.Upright, hp] at hup
    exact ⟨ask, hask, Option.some.inj hr ▸ hup⟩
  · simp at hr

theorem sound_heard (h : w.Sound D) {a pending : ℕ} {ask : Ask} (hask : w.asks a = some ask)
    (hphase : ask.phase = .joined pending) {r : VerifyOutcome} (hr : w.promised pending = some r) :
    (w.heard D a ask r).Sound D := by
  have hup := h.asks a ask hask
  simp only [Ask.Upright, hphase] at hup
  obtain ⟨other, hother, himp⟩ := hup
  obtain ⟨other', hother', htrue⟩ := promised_true h hr
  obtain rfl : other = other' := Option.some.inj (hother.symm.trans hother')
  simp only [Deployment.heard]
  split
  · rename_i hok
    apply sound_reask h hask
    simpa [Ask.Upright, VerifyOutcome.True, VerifyOutcome.known] using himp (htrue.mp hok)
  · exact sound_derive h hask

theorem sound_finish (h : w.Sound D) {a : ℕ} {ask : Ask} (hask : w.asks a = some ask) {r : VerifyOutcome}
    (hphase : ask.phase = .settled r) : (w.finish D a ask r).Sound D := by
  have hup := h.asks a ask hask
  simp only [Ask.Upright, hphase] at hup
  have hpending : ∀ e ∈ (w.verifiers ask.home).inflight.remove (D.key ask.body.username ask.body.password),
      (w.asks e.2).isSome := fun e he => h.pending ask.home e (Store.mem_of_mem_removeWhere he)
  have hv := sound_putInflight h ask.home hpending
  exact sound_reask hv hask hup

theorem sound_conclude (hD : D.Faithful) (h : w.Sound D) (n : ℕ) {call : Call} {o : VerifyOutcome}
    (ho : o.True D call.body) : (w.conclude D n call o).Sound D := by
  simp only [Deployment.conclude]
  split
  · rename_i hok
    have hm := sound_putMemo h call.isolate
      (certified_remember hD (h.memos call.isolate) defaultTtlMs maxEntries w.now call.body (ho.mp hok))
    exact sound_putCall hm n ho
  · exact sound_putCall h n ho

theorem sound_lookUp (h : w.Sound D) (n : ℕ) (call : Call) (stub : Option (ℕ × ℕ))
    (hfresh : ¬ stub.any (fun s => (w.asks s.2).isSome)) : (w.lookUp D n call stub).Sound D := by
  obtain ⟨hmemo, hhit⟩ := memo_get (h.memos call.isolate) call.body w.now
  have hm := sound_putMemo h call.isolate hmemo
  simp only [Deployment.lookUp]
  split
  · rename_i hfound
    apply sound_putCall hm
    simpa [Call.Upright, VerifyOutcome.True, VerifyOutcome.known] using hhit hfound
  · split
    · exact sound_putCall hm n trivial
    · rename_i life a
      have hnone : w.asks a = none := by simpa using hfresh
      apply sound_putCall (sound_fetch hm hnone _ _)
      exact ⟨_, Function.update_self a _ _, rfl⟩

theorem sound_verifiedLocally (hD : D.Faithful) (h : w.Sound D) (n : ℕ) (call : Call) :
    (w.verifiedLocally D n call).Sound D := by
  simp only [Deployment.verifiedLocally]
  split
  · rename_i hno
    apply sound_conclude hD h
    simpa [VerifyOutcome.True, VerifyOutcome.rejected, VerifyRequestBody.Verifies, Digests.accepts] using hno
  · rename_i hyes
    have hok : call.body.Verifies D := by
      simpa [VerifyRequestBody.Verifies, Digests.accepts] using hyes
    split
    · exact sound_putCall h n hok
    · apply sound_conclude hD h
      simpa [VerifyOutcome.True, VerifyOutcome.known] using hok

theorem sound_replied (hD : D.Faithful) (h : w.Sound D) (n : ℕ) (call : Call) (reply : Option VerifyOutcome)
    (hreply : ∀ o, reply = some o → o.True D call.body) : (w.replied D n call reply).Sound D := by
  cases reply with
  | none => exact sound_putCall h n trivial
  | some o => exact sound_conclude hD h n (hreply o rfl)

theorem of_atCall {n : ℕ} {f : Call → Option Deployment} {w' : Deployment} (h : w.atCall n f = some w') :
    ∃ call, w.calls n = some call ∧ f call = some w' := Option.bind_eq_some_iff.mp h

theorem of_atAsk {a : ℕ} {f : Ask → Option Deployment} {w' : Deployment} (h : w.atAsk a f = some w') :
    ∃ ask, w.asks a = some ask ∧ f ask = some w' := Option.bind_eq_some_iff.mp h

theorem sound_reply (hD : D.Faithful) (h : w.Sound D) {n : ℕ} {ttlMs : ℕ} {w' : Deployment}
    (hstep : w.step D ttlMs (.reply n) = some w') : w'.Sound D := by
  obtain ⟨call, hcall, hstep⟩ := of_atCall hstep
  split at hstep
  · rename_i a hphase
    have hup := h.calls n call hcall
    simp only [Call.Upright, hphase] at hup
    obtain ⟨ask', hask', hbody⟩ := hup
    obtain ⟨ask, hask, hstep⟩ := of_atAsk hstep
    obtain rfl : ask' = ask := Option.some.inj (hask'.symm.trans hask)
    have htrue := h.asks a ask' hask
    split at hstep
    · obtain rfl := Option.some.inj hstep
      exact sound_replied hD h n call none (by simp)
    · rename_i r hanswered
      obtain rfl := Option.some.inj hstep
      apply sound_replied hD h n call (some r)
      intro o ho
      simp only [Ask.Upright, hanswered] at htrue
      rwa [← Option.some.inj ho, ← hbody]
    · exact nomatch hstep
  · exact nomatch hstep

theorem sound_resume (h : w.Sound D) {a ttlMs : ℕ} {w' : Deployment}
    (hstep : w.step D ttlMs (.resume a) = some w') : w'.Sound D := by
  obtain ⟨ask, hask, hstep⟩ := of_atAsk hstep
  split at hstep
  · rename_i pending hphase
    obtain ⟨r, hr, rfl⟩ := Option.map_eq_some_iff.mp hstep
    exact sound_heard h hask hphase hr
  · rename_i r hphase
    obtain rfl := Option.some.inj hstep
    exact sound_finish h hask hphase
  · exact nomatch hstep

theorem sound_step (hD : D.Faithful) (h : w.Sound D) {ttlMs : ℕ} {e : Happening} {w' : Deployment}
    (hagree : w.Agrees D e) (hstep : w.step D ttlMs e = some w') : w'.Sound D := by
  cases e with
  | clock now =>
    obtain rfl := Option.some.inj hstep
    exact ⟨h.memos, h.caches, h.pending, h.asks, h.calls⟩
  | present n isolate body =>
    obtain ⟨-, hw⟩ := Option.ite_none_left_eq_some.mp hstep
    obtain rfl := Option.some.inj hw
    exact sound_putCall h n trivial
  | lookUp n stub =>
    obtain ⟨hfresh, hstep⟩ := Option.ite_none_left_eq_some.mp hstep
    obtain ⟨call, hcall, hstep⟩ := of_atCall hstep
    obtain ⟨-, hw⟩ := Option.ite_none_right_eq_some.mp hstep
    obtain rfl := Option.some.inj hw
    exact sound_lookUp h n call stub hfresh
  | reply n => exact sound_reply hD h hstep
  | lost n =>
    obtain ⟨call, hcall, hstep⟩ := of_atCall hstep
    split at hstep
    · obtain rfl := Option.some.inj hstep
      exact sound_replied hD h n call none (by simp)
    · exact nomatch hstep
  | verified n =>
    obtain ⟨call, hcall, hstep⟩ := of_atCall hstep
    obtain ⟨-, hw⟩ := Option.ite_none_right_eq_some.mp hstep
    obtain rfl := Option.some.inj hw
    exact sound_verifiedLocally hD h n call
  | rehashed n upgradedHash =>
    obtain ⟨call, hcall, hstep⟩ := of_atCall hstep
    obtain ⟨hphase, hw⟩ := Option.ite_none_right_eq_some.mp hstep
    obtain rfl := Option.some.inj hw
    have hup := h.calls n call hcall
    simp only [Call.Upright, hphase] at hup
    apply sound_conclude hD h
    simpa [VerifyOutcome.True] using hup
  | forgetCredential isolate username =>
    obtain rfl := Option.some.inj hstep
    exact sound_putMemo h isolate (certified_deletePrefix (h.memos isolate) _)
  | fetch a home body =>
    obtain ⟨hfresh, hw⟩ := Option.ite_none_left_eq_some.mp hstep
    obtain rfl := Option.some.inj hw
    exact sound_fetch h (by simpa using hfresh) home body
  | consult a =>
    obtain ⟨ask, hask, hstep⟩ := of_atAsk hstep
    obtain ⟨-, hw⟩ := Option.ite_none_right_eq_some.mp hstep
    obtain rfl := Option.some.inj hw
    exact sound_consult h hask hagree
  | derived a =>
    obtain ⟨ask, hask, hstep⟩ := of_atAsk hstep
    obtain ⟨-, hw⟩ := Option.ite_none_right_eq_some.mp hstep
    obtain rfl := Option.some.inj hw
    exact sound_derived hD h hask ttlMs
  | upgraded a upgradedHash =>
    obtain ⟨ask, hask, hstep⟩ := of_atAsk hstep
    obtain ⟨hphase, hw⟩ := Option.ite_none_right_eq_some.mp hstep
    obtain rfl := Option.some.inj hw
    have hup := h.asks a ask hask
    simp only [Ask.Upright, hphase] at hup
    exact sound_settle hD h hask hup _ _ _
  | resume a => exact sound_resume h hstep
  | invalidate home username =>
    obtain rfl := Option.some.inj hstep
    exact sound_putCache h home (certified_deletePrefix (h.caches home) _)

end Invariant

/-! ### Runs -/

def Deployment.run (D : Digests) (ttlMs : ℕ) (w : Deployment) (es : List Happening) : Option Deployment :=
  es.foldlM (Deployment.step D ttlMs) w

/-- No step of the run waits for a derivation that the stored hash of its own request disagrees with. -/
def Deployment.Agreeing (D : Digests) (ttlMs : ℕ) (w : Deployment) : List Happening → Prop
  | [] => True
  | e :: es => w.Agrees D e ∧ ∀ w' ∈ w.step D ttlMs e, w'.Agreeing D ttlMs es

instance decideAgreeing (D : Digests) (ttlMs : ℕ) :
    (w : Deployment) → (es : List Happening) → Decidable (w.Agreeing D ttlMs es)
  | _, [] => isTrue trivial
  | w, e :: es =>
    have (w' : Deployment) : Decidable (w'.Agreeing D ttlMs es) := decideAgreeing D ttlMs w' es
    inferInstanceAs (Decidable (w.Agrees D e ∧ ∀ w' ∈ w.step D ttlMs e, w'.Agreeing D ttlMs es))

theorem sound_run {D : Digests} (hD : D.Faithful) (ttlMs : ℕ) (es : List Happening) {w w' : Deployment}
    (h : w.Sound D) (hagree : w.Agreeing D ttlMs es) (hrun : w.run D ttlMs es = some w') : w'.Sound D := by
  induction es generalizing w with
  | nil => exact Option.some.inj hrun ▸ h
  | cons e es ih =>
    obtain ⟨hnow, hlater⟩ := hagree
    simp only [Deployment.run, List.foldlM_cons] at hrun
    obtain ⟨mid, hstep, hrest⟩ := Option.bind_eq_some_iff.mp hrun
    exact ih (sound_step hD h hnow hstep) (hlater mid hstep) hrest

theorem verdicts_are_honest (D : Digests) (hD : D.Faithful) (ttlMs : ℕ) (es : List Happening) (w : Deployment)
    (hagree : Deployment.start.Agreeing D ttlMs es) (hrun : Deployment.start.run D ttlMs es = some w) :
    w.Honest D :=
  honest_of_sound (sound_run hD ttlMs es sound_start hagree hrun)

/-! ### A rotation while the derivation for the old hash is pending -/

def spelled (password : JsString) : JsString :=
  password.flatMap fun c => [Fin.ofNat 65536 (c.val / 256 + 97), Fin.ofNat 65536 (c.val % 256 + 97)]

def plainDigests : Digests where
  passwordFingerprint := spelled
  sha256Hex := spelled
  verifyPbkdf2 password stored := stored = js "pbkdf2-sha256$" ++ password

theorem spelled_injective : Function.Injective spelled := by
  intro p
  induction p with
  | nil =>
    intro p' h
    cases p' with
    | nil => rfl
    | cons c p' => simp [spelled] at h
  | cons c p ih =>
    intro p' h
    cases p' with
    | nil => simp [spelled] at h
    | cons c' p' =>
      simp only [spelled, List.flatMap_cons, List.cons_append, List.nil_append, List.cons.injEq, Fin.ofNat,
        Fin.mk.injEq] at h
      obtain ⟨hhigh, hlow, hrest⟩ := h
      have hc : c = c' := by
        apply Fin.ext
        omega
      rw [hc, ih hrest]

theorem spelled_colonless (password : JsString) : colon ∉ spelled password := by
  simp only [spelled, List.mem_flatMap, not_exists, not_and, List.mem_cons, List.not_mem_nil, or_false, not_or]
  intro c _
  constructor <;> (rw [colon, Fin.ext_iff]; simp only [Fin.ofNat]; omega)

theorem plain_faithful : plainDigests.Faithful := ⟨spelled_injective, spelled_colonless⟩

def oldLogin : VerifyRequestBody := ⟨js "u", js "old", js "pbkdf2-sha256$old"⟩

/-- The old password again, after the row has got the hash of a new one. -/
def staleLogin : VerifyRequestBody := ⟨js "u", js "old", js "pbkdf2-sha256$new"⟩

def rotation : List Happening :=
  [.present 0 0 oldLogin, .lookUp 0 (some (0, 0)), .consult 0, .present 1 1 staleLogin, .lookUp 1 (some (0, 1)),
    .consult 1, .derived 0, .resume 0, .resume 1, .reply 0, .reply 1, .present 2 1 staleLogin, .lookUp 2 none]

theorem rotated_hash_is_accepted : plainDigests.Faithful ∧
    ∃ w, Deployment.start.run plainDigests 60000 rotation = some w ∧ ¬ w.Honest plainDigests ∧
      (w.calls 1).map Call.phase = some (.done .known) ∧ (w.calls 2).map Call.phase = some (.done .known) ∧
      (w.memos 1).map Prod.snd = [⟨staleLogin.passwordHash, 60000⟩] ∧
      plainDigests.accepts staleLogin.password staleLogin.passwordHash = false := by
  refine ⟨plain_faithful, (Deployment.start.run plainDigests 60000 rotation).get (by decide), by simp, ?_,
    by decide, by decide, by decide, by decide⟩
  intro h
  have hdone := h.answers 1 ⟨staleLogin, 1, .done .known⟩ .known (by decide) rfl
  exact absurd (hdone.mp rfl) (by decide)

def plainLogin : List Happening :=
  [.present 0 0 oldLogin, .lookUp 0 (some (0, 0)), .consult 0, .derived 0, .resume 0, .reply 0]

theorem login_is_honest : ∃ w, Deployment.start.run plainDigests 60000 plainLogin = some w ∧
    w.Honest plainDigests := by
  have hagree : Deployment.start.Agreeing plainDigests 60000 plainLogin := by decide
  exact ⟨_, rfl, verdicts_are_honest plainDigests plain_faithful 60000 plainLogin _ hagree rfl⟩

end DurableDav.Front
