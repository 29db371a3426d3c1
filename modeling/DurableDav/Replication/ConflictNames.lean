import DurableDav.Replication.Coverage

namespace DurableDav.Replication

open Library

/-! ### The last name of a path -/

/-- What follows the last slash. -/
def lastName (path : JsString) : JsString :=
  match lastIndexOf slash path with
  | none => path
  | some i => path.drop (i + 1)

/-- The name of a conflict copy, where nothing beside the path has it yet. -/
def conflictName (path : JsString) (nowSeconds : ℕ) : JsString :=
  (lastName path).take maxConflictStemLength ++ js ".conflict-" ++ decimal nowSeconds

section Names

variable {path q a : JsString} {now : ℕ}

theorem slash_notMem_lastName (path : JsString) : slash ∉ lastName path := by
  unfold lastName
  cases hi : lastIndexOf slash path with
  | none => exact lastIndexOf_eq_none.mp hi
  | some i => exact (lastIndexOf_eq_some hi).2

theorem slash_notMem_conflictName (path : JsString) (now : ℕ) : slash ∉ conflictName path now := by
  unfold conflictName
  rw [List.mem_append, List.mem_append]
  rintro ((h | h) | h)
  · exact slash_notMem_lastName path (List.mem_of_mem_take h)
  · exact absurd h (by decide)
  · exact slash_notMem_decimal now h

theorem conflictName_long (path : JsString) (now : ℕ) : 2 < (conflictName path now).length := by
  have hinfix : (js ".conflict-").length = 10 := by decide
  unfold conflictName
  rw [List.length_append, List.length_append, hinfix]
  omega

theorem childPath_append (q a tail : JsString) : childPath q a ++ tail = childPath q (a ++ tail) := by
  unfold childPath
  split
  · rfl
  · simp

theorem valid_childPath (hq : isValidInnerPath q = true) (hdepth : (names q).length < maxPathDepth)
    (hlong : 2 < a.length) (hslash : slash ∉ a) : isValidInnerPath (childPath q a) = true := by
  have ha : a ≠ [] := List.ne_nil_of_length_pos (by omega)
  rw [valid_iff] at hq ⊢
  rw [names_childPath ha hslash, List.length_append]
  refine ⟨by simpa [Nat.succ_le_iff] using hdepth, fun s hs => ?_⟩
  rcases List.mem_append.mp hs with hs | hs
  · exact hq.2 s hs
  · rw [List.mem_singleton.mp hs]
    refine ⟨ha, ?_, ?_⟩
    · rintro rfl
      exact absurd hlong (by decide)
    · rintro rfl
      exact absurd hlong (by decide)

theorem take_ne_nil (hv : isValidInnerPath path = true) {i : ℕ} (hi : lastIndexOf slash path = some i) :
    path.take i ≠ [] := by
  intro hnil
  have hpath := (lastIndexOf_eq_some hi).1
  rw [hnil, List.nil_append] at hpath
  have hp : path ≠ [] := by
    rw [hpath]
    simp
  have hempty : [] ∈ names path := by
    rw [names_of_ne hp, hpath]
    simp [List.splitOn_cons_eq_if_modifyHead]
  exact (((valid_iff.mp hv).2 _ hempty).1) rfl

theorem conflictBase_child (hv : isValidInnerPath path = true) (now : ℕ) :
    conflictBase path now = childPath (parentOf path) (conflictName path now) := by
  unfold conflictBase conflictName lastName
  cases hi : lastIndexOf slash path with
  | none =>
    have hparent : parentOf path = [] := parentSegments_of_notMem (lastIndexOf_eq_none.mp hi)
    simp [childPath, hparent]
  | some i =>
    have hparent : parentOf path = path.take i := by simp [parentOf, parentSegments, hi]
    have htake : path.take (i + 1) = path.take i ++ [slash] := by
      rw [List.take_add_one, lastIndexOf_getElem? hi]
      rfl
    simp [childPath, hparent, take_ne_nil hv hi, htake]

theorem conflictPathFor_child (hv : isValidInnerPath path = true) (taken : List JsString) (now : ℕ)
    (random : JsString) : ∃ tail, (tail = [] ∨ (∃ n, tail = dash :: decimal n) ∨ tail = dash :: random) ∧
      conflictPathFor path taken now random = childPath (parentOf path) (conflictName path now ++ tail) := by
  unfold conflictPathFor
  dsimp only
  split
  · split
    · rename_i c hc
      obtain ⟨n, rfl⟩ := freeSuffix_eq hc
      exact ⟨_, .inr (.inl ⟨n, rfl⟩), by rw [conflictBase_child hv, childPath_append]⟩
    · exact ⟨_, .inr (.inr rfl), by rw [conflictBase_child hv, childPath_append]⟩
  · exact ⟨[], .inl rfl, by rw [conflictBase_child hv, List.append_nil]⟩

theorem valid_conflictPathFor (hv : isValidInnerPath path = true) (hp : path ≠ []) {random : JsString}
    (hr : slash ∉ random) (taken : List JsString) (now : ℕ) :
    isValidInnerPath (conflictPathFor path taken now random) = true ∧ conflictPathFor path taken now random ≠ [] := by
  obtain ⟨tail, htail, heq⟩ := conflictPathFor_child hv taken now random
  obtain ⟨a, ha⟩ := names_child hv hp
  have hdepth : (names (parentOf path)).length < maxPathDepth := by
    have hlen := (valid_iff.mp hv).1
    rw [ha, List.length_append] at hlen
    exact hlen
  have habove : isValidInnerPath (parentOf path) = true := valid_of_above hv (ha ▸ List.prefix_append _ _)
  have hslash : slash ∉ conflictName path now ++ tail := by
    rw [List.mem_append]
    rintro (h | h)
    · exact slash_notMem_conflictName path now h
    · rcases htail with rfl | ⟨n, rfl⟩ | rfl
      · exact absurd h List.not_mem_nil
      · rcases List.mem_cons.mp h with h | h
        · exact absurd h (by decide)
        · exact slash_notMem_decimal n h
      · rcases List.mem_cons.mp h with h | h
        · exact absurd h (by decide)
        · exact hr h
  have hlong : 2 < (conflictName path now ++ tail).length := by
    have := conflictName_long path now
    rw [List.length_append]
    omega
  rw [heq]
  refine ⟨valid_childPath habove hdepth hlong hslash, fun hnil => ?_⟩
  have hnames : names (childPath (parentOf path) (conflictName path now ++ tail)) =
      names (parentOf path) ++ [conflictName path now ++ tail] :=
    names_childPath (List.ne_nil_of_length_pos (by omega)) hslash
  rw [hnil] at hnames
  simp at hnames

/-- A conflict copy of a valid path has a valid path. -/
theorem conflictPath_valid {input : BuildPlanInput} {d : ReplicationDecision} {k : JsString}
    (hsegment : ∀ p, slash ∉ input.random p) (hd : d ∈ (buildReplicationPlan input).decisions) (hk : d.conflictPath = some k)
    (hv : isValidInnerPath d.path = true) : isValidInnerPath k = true ∧ k ≠ [] := by
  obtain ⟨hmem, taken, _, hg⟩ := decisions_grounds hd
  have hp := path_ne_nil hmem
  cases d with
  | keepBoth x w c =>
    obtain rfl : c = k := by simpa [ReplicationDecision.conflictPath] using hk
    rw [hg.2.2.1]
    exact valid_conflictPathFor hv hp (hsegment x) taken _
  | pullAndPreserve x c ct =>
    obtain rfl : c = k := by simpa [ReplicationDecision.conflictPath] using hk
    rw [hg.2.1]
    exact valid_conflictPathFor hv hp (hsegment x) taken _
  | _ => simp [ReplicationDecision.conflictPath] at hk

end Names

end DurableDav.Replication
