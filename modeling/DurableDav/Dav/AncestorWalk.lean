import DurableDav.Dav.LockCourse
import DurableDav.Dav.LockDiscovery
import DurableDav.Replication.Coverage
import DurableDav.Replication.SlicedSweep

namespace DurableDav.Dav

open Library
open Replication (isValidInnerPath parentOf maxPathDepth names names_nil names_of_ne names_child valid_of_above)

/-! ### The chain of a path -/

/-- A path and all above it, nearest first: each is made of the first names of the next. -/
def chainOf (path : JsString) : List JsString := (names path).inits.reverse.map [slash].intercalate

section Chain

variable {path : JsString} {fuel : ℕ}

theorem join_names (path : JsString) : [slash].intercalate (names path) = path := by
  by_cases hp : path = []
  · rw [hp]
    rfl
  · rw [names_of_ne hp, List.intercalate_splitOn]

theorem chainOf_root : chainOf [] = [[]] := rfl

theorem chainOf_child (hvalid : isValidInnerPath path = true) (hp : path ≠ []) :
    chainOf path = path :: chainOf (parentOf path) := by
  obtain ⟨name, hname⟩ := names_child hvalid hp
  have hjoin := join_names path
  rw [hname] at hjoin
  unfold chainOf
  rw [hname, List.inits_append, List.reverse_append, List.map_append]
  simp [hjoin]

theorem ancestorsFrom_chain (hvalid : isValidInnerPath path = true) (hfuel : (names path).length < fuel) :
    ancestorsFrom fuel path = chainOf path := by
  induction fuel generalizing path with
  | zero => omega
  | succ fuel ih =>
    by_cases hp : path = []
    · subst hp
      rfl
    · obtain ⟨name, hname⟩ := names_child hvalid hp
      have hlength := congrArg List.length hname
      rw [List.length_append, List.length_singleton] at hlength
      have hparent : isValidInnerPath (parentOf path) = true :=
        valid_of_above hvalid (hname ▸ List.prefix_append _ _)
      rw [chainOf_child hvalid hp, ancestorsFrom, if_neg hp, (named_of_valid hvalid).parent_eq, ih hparent (by omega)]

end Chain

/-! ### The three readers of the lock table -/

section Readers

variable {env : Env} {v : Volume} {path base : JsString} {tokens paths : List JsString} {e : JsString × LockRow}

theorem ancestorsOf_chain (hvalid : isValidInnerPath path = true) : ancestorsOf path = chainOf path := by
  apply ancestorsFrom_chain hvalid
  by_cases hp : path = []
  · rw [hp]
    decide
  · have hdepth := (Replication.valid_iff.mp hvalid).1
    omega

theorem mem_locksAffecting (hvalid : isValidInnerPath path = true) :
    e ∈ v.locksAffecting env.now path ↔ e ∈ v.locks ∧ env.now < e.2.expiresAt ∧ e.2.path ∈ chainOf path := by
  unfold Volume.locksAffecting
  rw [ancestorsOf_chain hvalid]
  simp only [List.mem_filter, decide_eq_true_eq]
  tauto

theorem mem_applicableLocks {d : LockDetails} : d ∈ v.applicableLocks env.platform env.now path base ↔
    ∃ e ∈ v.locksAffecting env.now path, e.1 ≠ [] ∧ (e.2.path = path ∨ e.2.depth = js "infinity") ∧
      d = rowDetails e.1 e.2 (hrefOf env.platform base e.2.path true) := by
  have hlive {e : JsString × LockRow} (he : e ∈ v.locksAffecting env.now path) (root : JsString) :
      lockDetailsFromRow env.now e.1 e.2 root = some (rowDetails e.1 e.2 root) := by
    simp only [Volume.locksAffecting, List.mem_filter, decide_eq_true_eq] at he
    exact lockDetails_live he.2.2
  unfold Volume.applicableLocks
  simp only [List.mem_filterMap, List.mem_filter, decide_eq_true_eq]
  constructor
  · rintro ⟨e, ⟨he, hne, hcovers⟩, hd⟩
    rw [hlive he, Option.some.injEq] at hd
    exact ⟨e, he, hne, hcovers, hd.symm⟩
  · rintro ⟨e, he, hne, hcovers, rfl⟩
    exact ⟨e, ⟨he, hne, hcovers⟩, hlive he _⟩

/-- What can be refreshed, when every row can be read. -/
theorem refreshableIn_isSome (hread : ∀ q, env.fails (.exec (.readLocks q)) 0 = none) :
    (env.refreshableIn v path tokens paths).isSome = true ↔
      ∃ e ∈ v.locks, env.now < e.2.expiresAt ∧ e.2.path ∈ paths ∧ e.1 ∈ tokens ∧
        (e.2.path = path ∨ e.2.depth = js "infinity") := by
  induction paths with
  | nil => simp [Env.refreshableIn]
  | cons cur rest ih =>
    unfold Env.refreshableIn
    rw [if_pos (hread cur), Option.isSome_or, Bool.or_eq_true, ih, List.find?_isSome]
    simp only [Volume.locksAt, List.mem_filter, decide_eq_true_eq, List.mem_cons]
    constructor
    · rintro (⟨e, ⟨he, rfl, hlive⟩, htoken, hcovers⟩ | ⟨e, he, hlive, hpath, htoken, hcovers⟩)
      · exact ⟨e, he, hlive, .inl rfl, htoken, hcovers⟩
      · exact ⟨e, he, hlive, .inr hpath, htoken, hcovers⟩
    · rintro ⟨e, he, hlive, rfl | hpath, htoken, hcovers⟩
      · exact .inl ⟨e, ⟨he, rfl, hlive⟩, htoken, hcovers⟩
      · exact .inr ⟨e, he, hlive, hpath, htoken, hcovers⟩

theorem findRefreshableLock_run (env : Env) (v : Volume) (path : JsString) (tokens : List JsString) : ∃ s',
    (env.findRefreshableLock path tokens).run ⟨v, []⟩ = (.ok ((env.refreshableIn v path tokens (ancestorsOf path)).map
      (fun e => ⟨e.2.path, rowDetails e.1 e.2 e.2.root⟩)), s') := by
  obtain ⟨res, s', hrun, -, -, -, hres⟩ := refreshableAmong_run env path tokens (s := ⟨v, []⟩)
    (ancestorsFrom_nodup (maxPathDepth + 1) path) (fun cur _ => rfl)
  refine ⟨s', ?_⟩
  unfold Env.findRefreshableLock
  rw [Act.run_bind, Act.run_attempt]
  unfold ancestorsOf
  rw [hrun, ← hres]
  cases res <;> rfl

end Readers

/-- The walk gives a path and all above it, and whoever reads the lock table for the path reads the rows of these. -/
theorem ancestors_exact {path : JsString} (hvalid : isValidInnerPath path = true) :
    ancestorsOf path = chainOf path ∧ (ancestorsOf path).Nodup ∧ ∀ (env : Env) (v : Volume),
      (∀ e, e ∈ v.locksAffecting env.now path ↔ e ∈ v.locks ∧ env.now < e.2.expiresAt ∧ e.2.path ∈ chainOf path) ∧
      (∀ base d, d ∈ v.applicableLocks env.platform env.now path base ↔ ∃ e ∈ v.locksAffecting env.now path, e.1 ≠ [] ∧
        (e.2.path = path ∨ e.2.depth = js "infinity") ∧ d = rowDetails e.1 e.2 (hrefOf env.platform base e.2.path true)) ∧
      (∀ tokens, ∃ found s', (env.findRefreshableLock path tokens).run ⟨v, []⟩ = (.ok found, s') ∧
        (∀ f, found = some f → ∃ e ∈ v.locksAffecting env.now path, e.1 ∈ tokens ∧
          (e.2.path = path ∨ e.2.depth = js "infinity") ∧ f = ⟨e.2.path, rowDetails e.1 e.2 e.2.root⟩) ∧
        ((∀ q, env.fails (.exec (.readLocks q)) 0 = none) → (found.isSome = true ↔
          ∃ e ∈ v.locksAffecting env.now path, e.1 ∈ tokens ∧ (e.2.path = path ∨ e.2.depth = js "infinity")))) ∧
      (∀ e ∈ v.locks, env.now < e.2.expiresAt → e.2.depth = js "infinity" → e.2.path ∈ chainOf path →
        ∀ tokens, e ∈ v.blocking env.now tokens path ↔ normalizeLockToken e.1 ∉ tokens.map normalizeLockToken) := by
  refine ⟨ancestorsOf_chain hvalid, ancestorsFrom_nodup _ path, fun env v => ⟨fun e => mem_locksAffecting hvalid,
    fun base d => mem_applicableLocks, fun tokens => ?_, ?_⟩⟩
  · obtain ⟨s', hrun⟩ := findRefreshableLock_run env v path tokens
    refine ⟨_, s', hrun, ?_, ?_⟩
    · intro f hf
      obtain ⟨e, he, rfl⟩ := Option.map_eq_some_iff.mp hf
      obtain ⟨hlock, htoken, hlive, hchain, hcovers⟩ := refreshableIn_some he
      rw [ancestorsOf_chain hvalid] at hchain
      exact ⟨e, (mem_locksAffecting hvalid).mpr ⟨hlock, hlive, hchain⟩, htoken, hcovers, rfl⟩
    · intro hread
      rw [Option.isSome_map, refreshableIn_isSome hread, ancestorsOf_chain hvalid]
      constructor
      · rintro ⟨e, he, hlive, hchain, htoken, hcovers⟩
        exact ⟨e, (mem_locksAffecting hvalid).mpr ⟨he, hlive, hchain⟩, htoken, hcovers⟩
      · rintro ⟨e, he, htoken, hcovers⟩
        obtain ⟨hlock, hlive, hchain⟩ := (mem_locksAffecting hvalid).mp he
        exact ⟨e, hlock, hlive, hchain, htoken, hcovers⟩
  · intro e he hlive hdeep hchain tokens
    have haffects := (@mem_locksAffecting env _ _ _ hvalid).mpr ⟨he, hlive, hchain⟩
    simp [Volume.blocking, haffects, hdeep]

/-- The walk from the deepest path still reaches the root. -/
theorem deepest_reaches_root : [] ∈ ancestorsOf (Replication.deepPath maxPathDepth) := by
  have hchain := (ancestors_exact (Replication.valid_deepPath (n := maxPathDepth) le_rfl)).1
  rw [hchain]
  exact List.mem_map.mpr ⟨[], List.mem_reverse.mpr ((List.mem_inits _ _).mpr List.nil_prefix), rfl⟩

end DurableDav.Dav
