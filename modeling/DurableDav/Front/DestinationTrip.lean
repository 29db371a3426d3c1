import DurableDav.Front.Destination
import DurableDav.Replication.SweepWindow
import Mathlib.Data.List.TakeWhile

namespace DurableDav.Front

open Library
open Dav (Platform Url hrefOf parseDestinationPath stripBase decodeResourcePath)
open Replication (isValidInnerPath names names_of_ne slash_notMem_segments intercalate_append)

/-! ### Names joined by slashes -/

/-- Names that a path can be put together of. -/
def Named (ns : List JsString) : Prop := ∀ s ∈ ns, s ≠ [] ∧ slash ∉ s

section Joined

variable {ns : List JsString}

theorem split_join (h : Named ns) (hne : ns ≠ []) : ([slash].intercalate ns).splitOn slash = ns :=
  List.splitOn_intercalate slash (fun s hs => (h s hs).2) hne

theorem join_injective {ms : List JsString} (h : Named ns) (h' : Named ms)
    (heq : [slash].intercalate ns = [slash].intercalate ms) : ns = ms := by
  have hnil {xs : List JsString} (hx : Named xs) (he : [slash].intercalate xs = []) : xs = [] := by
    by_contra hne
    have hsplit := split_join hx hne
    rw [he] at hsplit
    exact (hx [] (by rw [← hsplit]; simp)).1 rfl
  by_cases hns : ns = []
  · rw [hns] at heq ⊢
    exact (hnil h' heq.symm).symm
  · by_cases hms : ms = []
    · rw [hms] at heq
      exact absurd (hnil h heq) hns
    · rw [← split_join h hns, ← split_join h' hms, heq]

theorem join_ends (h : Named ns) (hne : ns ≠ []) :
    ([slash].intercalate ns).head? ≠ some slash ∧ ([slash].intercalate ns).getLast? ≠ some slash ∧
      [slash].intercalate ns ≠ [] := by
  have hone {s : JsString} (hs : slash ∉ s) : s.head? ≠ some slash ∧ s.getLast? ≠ some slash :=
    ⟨fun he => hs (List.mem_of_head? he), fun he => hs (List.mem_of_getLast? he)⟩
  induction ns with
  | nil => exact absurd rfl hne
  | cons s ns ih =>
    obtain ⟨⟨hs, hslash⟩, hns⟩ := List.forall_mem_cons.mp h
    cases ns with
    | nil =>
      rw [List.intercalate_singleton]
      exact ⟨(hone hslash).1, (hone hslash).2, hs⟩
    | cons t ns =>
      obtain ⟨-, hlast, hne'⟩ := ih hns (by simp)
      rw [List.intercalate_cons_cons, List.append_assoc]
      refine ⟨?_, ?_, by simp [hs]⟩
      · rw [List.head?_append_of_ne_nil s hs]
        exact (hone hslash).1
      · rw [List.getLast?_append_of_ne_nil s (by simp), List.getLast?_append_of_ne_nil _ hne']
        exact hlast

theorem strip_between {s t : JsString} (hne : s ≠ []) (hhead : s.head? ≠ some slash) (hlast : s.getLast? ≠ some slash)
    (ht : ∀ c ∈ t, c = slash) : stripSlashes (slash :: (s ++ t)) = s := by
  have hdrop {u v : JsString} (hu : u ≠ []) (hh : u.head? ≠ some slash) :
      (u ++ v).dropWhile (fun c => decide (c = slash)) = u ++ v := by
    obtain ⟨c, u, rfl⟩ := List.exists_cons_of_ne_nil hu
    have hc : c ≠ slash := by simpa using hh
    simp [hc]
  have hall : t.reverse.dropWhile (fun c => decide (c = slash)) = [] := by
    rw [List.dropWhile_eq_nil_iff]
    intro c hc
    simpa using ht c (List.mem_reverse.mp hc)
  have hrev : s.reverse.dropWhile (fun c => decide (c = slash)) = s.reverse := by
    have h := hdrop (u := s.reverse) (v := []) (by simpa using hne) (by simpa using hlast)
    simpa using h
  unfold stripSlashes
  rw [List.dropWhile_cons_of_pos (by simp), hdrop hne hhead, List.reverse_append,
    List.dropWhile_append, hall]
  simp [hrev]

theorem strip_join (h : Named ns) (hne : ns ≠ []) (trailing : Bool) :
    stripSlashes (slash :: ([slash].intercalate ns ++ if trailing then [slash] else [])) = [slash].intercalate ns := by
  obtain ⟨hhead, hlast, hjoin⟩ := join_ends h hne
  apply strip_between hjoin hhead hlast
  cases trailing <;> simp

end Joined

/-! ### Encoded names -/

/-- Names as they stand in an address, none of which stands for a dot segment. -/
def Coded (p : Platform) (es : List JsString) : Prop :=
  ∀ e ∈ es, e ≠ [] ∧ (∀ c ∈ e, isUriUnit c = true) ∧ decodeName p e ≠ js "." ∧ decodeName p e ≠ js ".."

section Coded

variable {p : Platform} {es : List JsString}

theorem uriUnit_ne {c : CodeUnit} (h : isUriUnit c = true) : c ≠ slash ∧ c ≠ colon := by
  have hval : isUnescaped c.val = true ∨ c = percent := by simpa [isUriUnit] using h
  rcases hval with hval | rfl
  · constructor
    · rintro rfl
      exact absurd hval (by decide)
    · rintro rfl
      exact absurd hval (by decide)
  · constructor <;> decide

theorem coded_named (h : Coded p es) : Named es := by
  intro e he
  obtain ⟨hne, hunits, -⟩ := h e he
  exact ⟨hne, fun hmem => (uriUnit_ne (hunits _ hmem)).1 rfl⟩

theorem decodeName_nil (hp : Standard p) : decodeName p [] = [] := by
  unfold decodeName
  rw [hp.decode]
  rfl

theorem splitOn_address (h : Coded p es) (hne : es ≠ []) (trailing : Bool) :
    (slash :: ([slash].intercalate es ++ if trailing then [slash] else [])).splitOn slash =
      [] :: (es ++ if trailing then [[]] else []) := by
  have hcons (t : JsString) : (slash :: t).splitOn slash = [] :: t.splitOn slash := by
    have happend := List.splitOn_append_cons_self (a := slash) [] t
    simpa using happend
  rw [hcons]
  congr 1
  cases trailing with
  | false => simpa using split_join (coded_named h) hne
  | true =>
    rw [if_pos rfl, if_pos rfl]
    have happend := List.splitOn_append_cons_self (a := slash) ([slash].intercalate es) []
    rw [split_join (coded_named h) hne] at happend
    simpa using happend

theorem address_units (h : Coded p es) (trailing : Bool) :
    ∀ c ∈ slash :: ([slash].intercalate es ++ if trailing then [slash] else []), isUriUnit c = true ∨ c = slash := by
  have hjoin : ∀ c ∈ [slash].intercalate es, isUriUnit c = true ∨ c = slash := by
    induction es with
    | nil => simp
    | cons e es ih =>
      obtain ⟨⟨-, hunits, -⟩, hes⟩ := List.forall_mem_cons.mp h
      cases es with
      | nil =>
        rw [List.intercalate_singleton]
        exact fun c hc => .inl (hunits c hc)
      | cons f es =>
        rw [List.intercalate_cons_cons]
        intro c hc
        simp only [List.append_assoc, List.mem_append, List.mem_singleton] at hc
        rcases hc with hc | hc | hc
        · exact .inl (hunits c hc)
        · exact .inr hc
        · exact ih hes c hc
  intro c hc
  rcases List.mem_cons.mp hc with rfl | hc
  · exact .inr rfl
  · rcases List.mem_append.mp hc with hc | hc
    · exact hjoin c hc
    · cases trailing with
      | false => simp at hc
      | true => exact .inr (by simpa using hc)

theorem address_plain (hp : Standard p) (h : Coded p es) (hne : es ≠ []) (trailing : Bool) :
    PlainPath p (slash :: ([slash].intercalate es ++ if trailing then [slash] else [])) where
  absolute := rfl
  hostless := by
    obtain ⟨hhead, -, hjoin⟩ := join_ends (coded_named h) hne
    rw [List.tail_cons, List.head?_append_of_ne_nil _ hjoin]
    exact hhead
  units := address_units h trailing
  undotted := by
    unfold hasDotSegment
    rw [splitOn_address h hne, List.any_cons, decodeName_nil hp, List.any_append, Bool.or_eq_false_iff,
      Bool.or_eq_false_iff]
    refine ⟨by decide, ?_, ?_⟩
    · rw [List.any_eq_false]
      intro e he
      obtain ⟨-, -, hdot, hdots⟩ := h e he
      simp [hdot, hdots]
    · cases trailing with
      | false => rfl
      | true =>
        simp only [↓reduceIte, List.any_cons, List.any_nil, decodeName_nil hp]
        decide

theorem rawPathOf_address {path : JsString} (h : PlainPath p path) : rawPathOf path = some path := by
  have hcolon : colon ∉ path := by
    intro hmem
    rcases h.units _ hmem with hc | hc
    · exact (uriUnit_ne hc).2 rfl
    · exact absurd hc (by decide)
  have hnone : indexOf (js "://") path 0 = none := by
    unfold indexOf
    rw [List.find?_eq_none]
    intro i _
    simp only [decide_eq_true_eq, not_and]
    intro _ hfront
    have hmem : colon ∈ path.drop i := hfront.subset (by decide)
    exact hcolon (List.mem_of_mem_drop hmem)
  unfold rawPathOf
  rw [hnone]
  simp only [h.absolute, ↓reduceIte]

end Coded

/-! ### The two halves of the way -/

section Halves

variable {p : Platform} {es : List JsString} {requestUrl : JsString} {request : Url}

/-- An address of the volume's own host passes the checks, and is then cut down to what it is about. -/
theorem resolve_address (hreq : Requests p requestUrl request) {path : JsString} (hpath : PlainPath p path)
    (pathBase : JsString) (mode : HrefPrefixMode) :
    resolveDestination p (some path) requestUrl pathBase mode =
      match (browserInnerFrom path).or (innerFromPathname p path pathBase mode) with
      | some inner => .ok (request.origin ++ pathBase ++ slash :: inner)
      | none => .error .invalid := by
  have hne : path ≠ [] := by
    rintro rfl
    exact absurd hpath.absolute (by simp)
  cases hinner : (browserInnerFrom path).or (innerFromPathname p path pathBase mode) <;>
    simp only [resolveDestination, if_neg hne, rawPathOf_address hpath, Option.any_some, hpath.undotted,
      hreq.reference path hpath, hreq.self, hinner, ne_eq, not_true_eq_false, Bool.false_eq_true, ↓reduceIte]

theorem decode_address (h : Coded p es) (hne : es ≠ []) (trailing : Bool) :
    decodeResourcePath p (slash :: ([slash].intercalate es ++ if trailing then [slash] else [])) =
      [slash].intercalate (es.map (decodeName p)) := by
  obtain ⟨-, hlast, hjoin⟩ := join_ends (coded_named h) hne
  have hbare : (if ([slash].intercalate es ++ if trailing then [slash] else []).getLast? = some slash then
      ([slash].intercalate es ++ if trailing then [slash] else []).dropLast
      else [slash].intercalate es ++ if trailing then [slash] else []) = [slash].intercalate es := by
    cases trailing with
    | false => simp [hlast]
    | true => simp
  unfold decodeResourcePath
  simp only [List.drop_succ_cons, List.drop_zero, hbare, if_neg hjoin, split_join (coded_named h) hne]
  rfl

end Halves

end DurableDav.Front
