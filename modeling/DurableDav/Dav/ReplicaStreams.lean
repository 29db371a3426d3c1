import Mathlib.Algebra.BigOperators.Group.Finset.Basic
import DurableDav.Dav.SiblingWrites

namespace DurableDav.Library

variable {α : Type}

/-- A sequence with some values put over it at an offset. -/
def splice (blank : α) (old : List α) (offset : ℕ) (value : List α) : List α :=
  old.take offset ++ List.replicate (offset - old.length) blank ++ value ++ old.drop (offset + value.length)

theorem splice_length (blank : α) (old value : List α) : splice blank old old.length value = old ++ value := by
  simp [splice]

end DurableDav.Library

namespace DurableDav.Dav

open Library
open Replication (Bytes isValidInnerPath parentOf)

/-! ### What there is to write -/

/-- Some of the bytes of a buffer. -/
structure BufferView where
  buffer : Bytes
  byteOffset : ℕ
  byteLength : ℕ
  inside : byteOffset + byteLength ≤ buffer.length

def BufferView.bytes (d : BufferView) : Bytes := (d.buffer.drop d.byteOffset).take d.byteLength

/-- What the reader of a stream answers, until it is done. -/
inductive Piece
  | value (bytes : Bytes)
  | nothing
  | failure (e : Failure)

inductive ReplicaData
  | view (data : BufferView)
  | stream (pieces : List Piece)

def Piece.bytes : Piece → Bytes
  | .value bytes => bytes
  | .nothing => []
  | .failure _ => []

namespace ReplicaData

/-- The whole payload. -/
def bytes : ReplicaData → Bytes
  | .view data => data.bytes
  | .stream pieces => pieces.flatMap Piece.bytes

def byteLength : ReplicaData → ℕ
  | .view data => data.byteLength
  | .stream _ => 0

/-- What is written piece by piece: the buffer that a view is of comes as one. -/
def pieces : ReplicaData → List Piece
  | .view data => [.value data.buffer]
  | .stream pieces => pieces

end ReplicaData

/-! ### The device -/

def Files.content (f : Files) (path : JsString) : Option Bytes := (Store.get f path).bind Inode.bytes

/-- A file takes space, and a collection none. -/
structure Device where
  size : ℕ
  spaceUsed : Files → ℕ
  spaceUsed_content : ∀ f f' : Files, (∀ q, f.content q = f'.content q) → spaceUsed f = spaceUsed f'

/-- The buffer of a view is checked as a whole while the old file is there. -/
def ReplicaData.tooLarge (d : Device) (spaceUsed : ℕ) : ReplicaData → Bool
  | .view data => d.size < spaceUsed + data.buffer.length
  | .stream _ => false

namespace Env

variable (env : Env) (d : Device)

def create (path : JsString) : Serve Unit := env.call (.writeFile path) do
  let s ← .read
  if s.volume.files.found path then .throw (.of "EEXIST")
  else if !s.volume.files.isDirectory (parentOf path) then .throw (.of "ENOENT")
  else modifyFiles (fun f => Store.put f path ⟨some [], env.now⟩)

def write (path : JsString) (value : Bytes) (offset : ℕ) : Serve Unit := env.call (.writeFile path) do
  let s ← .read
  match s.volume.files.content path with
  | none => .throw (.of "ENOENT")
  | some old => modifyFiles (fun f => Store.put f path ⟨some (splice 0 old offset value), env.now⟩)

/-- Every piece is checked when it comes, after the old file is gone. -/
def drain (path : JsString) (spaceUsed : ℕ) : ℕ → ℕ → List Piece → Serve Unit
  | _, _, [] => pure ()
  | offset, total, .nothing :: rest => drain path spaceUsed offset total rest
  | _, _, .failure e :: _ => .throw e
  | offset, total, .value bytes :: rest =>
    if d.size < spaceUsed + total + bytes.length then .throw (.of "ENOSPC")
    else do
      env.write path bytes offset
      drain path spaceUsed (offset + bytes.length) (total + bytes.length) rest

/-- The file that is there is removed, and an empty one is made. -/
def replaceFile (path : JsString) : Serve Unit := do
  match ← (env.unlink path).attempt with
  | .ok _ => env.create path
  | .error e => if e.message = js "ENOENT" then env.create path else .throw e

def reclaimed (path : JsString) : Serve ℕ := do
  match ← (env.stat path).attempt with
  | .ok st => pure st.size
  | .error _ => pure 0

/-- The buffer of a view is checked as a whole while the old file is there. -/
def writeBeside (path : JsString) (spaceUsed : ℕ) : ReplicaData → Serve Unit
  | .view data =>
    if d.size < spaceUsed + data.buffer.length then .throw (.of "ENOSPC")
    else do
      env.replaceFile path
      env.write path data.buffer 0
  | .stream pieces => do
    env.replaceFile path
    env.drain d path spaceUsed 0 0 pieces

def writeData (path : JsString) (data : ReplicaData) : Serve Unit := do
  let freed ← env.reclaimed path
  let s ← .read
  env.writeBeside d path (d.spaceUsed s.volume.files - freed) data

/-- The collections that lead to a file. -/
def leadingTo (path : JsString) : Serve Unit :=
  if getParentPath path = [] then pure () else env.replicaMkdir (getParentPath path)

/-- The write of a replica, call by call of the device. -/
def replicaStream (path : JsString) (contentType : Option JsString) (data : ReplicaData) : Serve Unit :=
  if path = [] ∨ !isValidInnerPath path then .throw (invalidPath "replication write: invalid path " path)
  else do
    env.leadingTo path
    env.writeData d path data
    env.upsertFileNode path (contentType.getD (js "application/octet-stream")) (mintEtag data.byteLength env.now) env.now

end Env

/-! ### What is there before the file is written -/

/-- Collections that lead to a path are made, and their rows are written. -/
structure Volume.Furnished (v : Volume) (path : JsString) (v' : Volume) : Prop where
  kept : ∀ q, (Store.get v.files q).isSome → Store.get v'.files q = Store.get v.files q
  made : ∀ q, Store.get v.files q = none →
    Store.get v'.files q = none ∨ q ∈ prefixes slash path ∧ ∃ m, Store.get v'.files q = some ⟨none, m⟩
  nodes : ∀ q, q ∉ prefixes slash path → Store.get v'.nodes q = Store.get v.nodes q
  rooted : v'.files.Rooted

section Furnishing

variable {v v' w w' : Volume} {e : Effect} {path q : JsString}

theorem rooted_make {f : Files} {p : JsString} {m : ℕ} (h : f.Rooted) (hparent : f.isDirectory (parentOf p) = true) :
    Files.Rooted (Store.put f p ⟨none, m⟩) := by
  have hstill {q : JsString} (hq : f.isDirectory q = true) : Files.isDirectory (Store.put f p ⟨none, m⟩) q = true := by
    unfold Files.isDirectory at hq ⊢
    rw [Store.get_put]
    by_cases hqp : q = p
    · simp [hqp]
    · simpa [hqp] using hq
  intro q hq
  rw [Store.get_put] at hq
  by_cases hqp : q = p
  · exact hqp ▸ hstill hparent
  · rw [if_neg hqp] at hq
    exact hstill (h q hq)

theorem furnished_refl (h : v.files.Rooted) (path : JsString) : v.Furnished path v :=
  ⟨fun _ _ => rfl, fun _ hq => .inl hq, fun _ _ => rfl, h⟩

theorem furnished_change (he : e.MakesUpTo path) (hc : Change w e w') (h : v.Furnished path w) : v.Furnished path w' := by
  cases hc with
  | make p mtime hfree hparent =>
    have hget (q : JsString) : Store.get (Store.put w.files p ⟨none, mtime⟩) q = if q = p then some ⟨none, mtime⟩ else Store.get w.files q :=
      Store.get_put ..
    have hmissing : Store.get w.files p = none := by
      by_contra hsome
      rw [found_iff.mpr (.inr (Option.isSome_iff_ne_none.mpr hsome))] at hfree
      cases hfree
    refine ⟨?_, ?_, h.nodes, rooted_make h.rooted hparent⟩
    · intro q hq
      have hsame := h.kept q hq
      have hother : q ≠ p := by
        rintro rfl
        rw [hmissing] at hsame
        rw [← hsame] at hq
        cases hq
      exact ((hget q).trans (if_neg hother)).trans hsame
    · intro q hq
      by_cases hqp : q = p
      · subst hqp
        exact .inr ⟨he, mtime, (hget q).trans (if_pos rfl)⟩
      · have hsame := (hget q).trans (if_neg hqp)
        exact (h.made q hq).imp hsame.trans (And.imp_right fun ⟨m, hm⟩ => ⟨m, hsame.trans hm⟩)
  | node p row hrow =>
    refine ⟨h.kept, h.made, ?_, h.rooted⟩
    intro q hq
    change Store.get (Store.put w.nodes p _) q = _
    rw [Store.get_put, if_neg]
    · exact h.nodes q hq
    · rintro rfl
      exact hq he
  | _ => exact he.elim

theorem furnished_content (h : v.Furnished path v') (q : JsString) : v'.files.content q = v.files.content q := by
  unfold Files.content
  cases hget : Store.get v.files q with
  | some i => rw [h.kept q (by simp [hget]), hget]
  | none =>
    rcases h.made q hget with hnone | ⟨-, m, hm⟩
    · rw [hnone]
    · rw [hm]
      rfl

theorem furnished_directory (h : v.Furnished path v') (hq : q ∉ prefixes slash path) :
    v'.files.isDirectory q = v.files.isDirectory q := by
  unfold Files.isDirectory
  cases hget : Store.get v.files q with
  | some i => rw [h.kept q (by simp [hget]), hget]
  | none => rw [(h.made q hget).resolve_right fun hin => hq hin.1]

theorem furnished_free (h : v.Furnished path v') (hdir : v'.files.isDirectory path = true) : v.files.Free path := by
  intro q hq hfound
  by_cases hroot : q = []
  · simp [Files.isDirectory, hroot]
  · have hthere : v'.files.isDirectory q = true := by
      rcases eq_or_below_of_mem_prefixes hq with rfl | hbelow
      · exact hdir
      · rcases isDirectory_iff.mp hdir with hnil | ⟨i, hi, -⟩
        · exact absurd hnil hbelow.ne_nil
        · exact h.rooted.above (by simp [hi]) hbelow
    have hsame := h.kept q ((found_iff.mp hfound).resolve_left hroot)
    unfold Files.isDirectory at hthere ⊢
    rwa [hsame] at hthere

end Furnishing

section Leading

variable {env : Env} {v : Volume} {path : JsString} (hcalm : env.Calm)

include hcalm

theorem runs_mkdirAll_any : ∃ r v', Runs (env.mkdirAll path) v r v' := by
  by_cases hfree : v.files.Free path
  · obtain ⟨files, hrun, -⟩ := runs_mkdirAll_made hcalm hfree
    exact ⟨_, _, hrun⟩
  · have hany : ((prefixes slash path).filter (fun q => q ≠ [])).any (fun q => v.files.found q ∧ !v.files.isDirectory q) = true := by
      unfold Files.Free at hfree
      push Not at hfree
      obtain ⟨q, hq, hfound, hfile⟩ := hfree
      have hroot : q ≠ [] := by
        rintro rfl
        simp [Files.isDirectory] at hfile
      exact List.any_eq_true.mpr ⟨q, List.mem_filter.mpr ⟨hq, by simpa using hroot⟩, by simp [hfound, hfile]⟩
    refine ⟨.error (.of "ENOTDIR"), v, runs_call hcalm (runs_read_bind fun s hs => ?_)⟩
    rw [hs]
    dsimp only
    rw [if_pos hany]
    exact runs_throw _

theorem runs_mkdir_any : ∃ r v', Runs (env.mkdir path) v r v' := by
  cases hfound : v.files.found path with
  | true => exact ⟨_, v, runs_mkdir_found hcalm hfound⟩
  | false =>
    cases hparent : v.files.isDirectory (parentOf path) with
    | true => exact ⟨_, _, runs_mkdir hcalm hfound hparent⟩
    | false =>
      refine ⟨.error (.of "ENOENT"), v, runs_call hcalm (runs_read_bind fun s hs => ?_)⟩
      rw [hs, if_neg (by simp [hfound]), if_pos (by simp [hparent])]
      exact runs_throw _

theorem runs_replicaMkdir_any (hpath : path ≠ []) (hvalid : isValidInnerPath path = true) :
    ∃ v', Runs (env.replicaMkdir path) v (.ok ()) v' := by
  have hup : ∃ v₁, Runs (env.upsertAncestors (getParentPath path)) v (.ok ()) v₁ := by
    unfold Env.upsertAncestors
    split
    · exact ⟨v, runs_pure ()⟩
    · obtain ⟨r, v₁, hmade⟩ := @runs_mkdirAll_any _ v (getParentPath path) hcalm
      obtain ⟨v', hrows, -⟩ := runs_upsertCollections hcalm (prefixes slash (getParentPath path)) v₁
      exact ⟨v', runs_bind (runs_attempt hmade) hrows⟩
  obtain ⟨v₁, hancestors⟩ := hup
  obtain ⟨r, v₂, hmade⟩ := @runs_mkdir_any _ v₁ path hcalm
  unfold Env.replicaMkdir
  rw [if_neg (by simp [hpath, hvalid])]
  exact ⟨_, runs_bind hancestors (runs_bind (runs_attempt hmade) (runs_upsertNode hcalm _))⟩

/-- What is made for a file: all that leads to it, unless a file is in the way. -/
theorem runs_leadingTo (htree : v.files.WellFormed) (hpath : path ≠ []) (hvalid : isValidInnerPath path = true) :
    ∃ v', Runs (env.leadingTo path) v (.ok ()) v' ∧ v.Furnished (parentOf path) v' ∧
      (v'.files.isDirectory (parentOf path) = true ↔ v.files.Free (parentOf path)) := by
  have hparent := getParentPath_eq hvalid
  have hgoal : ∃ v', Runs (env.leadingTo path) v (.ok ()) v' ∧ v.Furnished (parentOf path) v' ∧
      (v.files.Free (parentOf path) → v'.files.isDirectory (parentOf path) = true) := by
    unfold Env.leadingTo
    rw [hparent]
    split
    · rename_i hroot
      refine ⟨v, runs_pure (), furnished_refl htree.rooted _, ?_⟩
      intro _
      simp [Files.isDirectory, hroot]
    · rename_i hroot
      obtain ⟨v', hrun⟩ := runs_replicaMkdir_any (v := v) hcalm hroot (valid_parent hvalid hpath)
      refine ⟨v', hrun, ?_, ?_⟩
      · have hkeeps := makes_keeps (I := v.Furnished (parentOf path)) (fun _ _ _ he hc h => furnished_change he hc h)
          (@makes_replicaMkdir env _ _ fun _ h => h.makes) (furnished_refl htree.rooted _)
        rwa [after_of_runs hrun] at hkeeps
      · intro hfree
        obtain ⟨v₁, hrun₁, hled⟩ := runs_replicaMkdir hcalm hroot (valid_parent hvalid hpath) hfree
        obtain rfl := (runs_unique hrun hrun₁).2
        exact (hled _).1.mpr (.inr (mem_prefixes.mpr (.inl rfl)))
  obtain ⟨v', hrun, hfurnished, hmade⟩ := hgoal
  exact ⟨v', hrun, hfurnished, furnished_free hfurnished, hmade⟩

end Leading

/-! ### The file is written -/

/-- The bytes before the first piece that fails or does not fit any more. -/
def Device.brokenAfter (d : Device) (spaceUsed : ℕ) : Bytes → List Piece → Option Bytes
  | _, [] => none
  | came, .nothing :: rest => d.brokenAfter spaceUsed came rest
  | came, .failure _ :: _ => some came
  | came, .value bytes :: rest =>
    if d.size < spaceUsed + came.length + bytes.length then some came else d.brokenAfter spaceUsed (came ++ bytes) rest

/-- The space that is used beside the file. -/
def Device.others (d : Device) (f : Files) (path : JsString) : ℕ := d.spaceUsed f - ((f.content path).getD []).length

section Writing

variable {env : Env} {d : Device} {v : Volume} {path : JsString} (hcalm : env.Calm)

include hcalm

theorem runs_reclaimed (hpath : path ≠ []) :
    Runs (env.reclaimed path) v (.ok ((v.files.content path).getD []).length) v := by
  cases hget : Store.get v.files path with
  | none =>
    have hstat : Runs (env.stat path) v (.error (.of "ENOENT")) v :=
      runs_call hcalm (runs_read_bind fun s hs => by
        rw [hs]
        simp only [Files.stat, hpath, hget, ↓reduceIte, Option.map_none]
        exact runs_throw _)
    have hcontent : v.files.content path = none := by simp [Files.content, hget]
    rw [hcontent]
    exact runs_bind (runs_attempt hstat) (runs_pure 0)
  | some i =>
    have hstat : Runs (env.stat path) v (.ok ⟨true, i.bytes.isNone, (i.bytes.getD []).length, i.mtime⟩) v :=
      runs_call hcalm (runs_read_bind fun s hs => by
        rw [hs]
        simp only [Files.stat, hpath, hget, ↓reduceIte, Option.map_some]
        exact runs_pure _)
    have hcontent : v.files.content path = i.bytes := by simp [Files.content, hget]
    rw [hcontent]
    exact runs_bind (runs_attempt hstat) (runs_pure _)

theorem runs_create (hfound : v.files.found path = false) (hparent : v.files.isDirectory (parentOf path) = true) :
    Runs (env.create path) v (.ok ()) { v with files := Store.put v.files path ⟨some [], env.now⟩ } := by
  refine runs_call hcalm (runs_read_bind fun s hs => ?_)
  rw [hs, if_neg (by simp [hfound]), if_neg (by simp [hparent])]
  exact runs_modifyFiles _

theorem runs_write {old value : Bytes} (h : v.files.content path = some old) :
    ∃ v', Runs (env.write path value old.length) v (.ok ()) v' ∧ v'.files.content path = some (old ++ value) ∧
      v'.nodes = v.nodes := by
  refine ⟨{ v with files := Store.put v.files path ⟨some (splice 0 old old.length value), env.now⟩ },
    runs_call hcalm (runs_read_bind fun s hs => ?_), ?_, rfl⟩
  · rw [hs, h]
    exact runs_modifyFiles _
  · simp [Files.content, Store.get_put, splice_length]

/-- A file is emptied, or made, where its collection is there. -/
theorem runs_replaceFile (hfile : v.files.isDirectory path = false) (hparent : v.files.isDirectory (parentOf path) = true)
    (hpath : path ≠ []) : ∃ v', Runs (env.replaceFile path) v (.ok ()) v' ∧ v'.files.content path = some [] ∧
      v'.nodes = v.nodes := by
  cases hfound : v.files.found path with
  | true =>
    have hunlink := runs_unlink (q := path) hcalm (isFile_iff.mpr ⟨hfound, hfile⟩)
    have hother : parentOf path ≠ path := parent_ne_self hpath
    have hgone : Files.found (Store.remove v.files path) path = false := by simp [Files.found, hpath, Store.get_remove]
    have hstill : Files.isDirectory (Store.remove v.files path) (parentOf path) = true := by
      unfold Files.isDirectory at hparent ⊢
      rwa [Store.get_remove, if_neg hother]
    exact ⟨_, runs_bind (runs_attempt hunlink) (runs_create hcalm hgone hstill), by simp [Files.content, Store.get_put], rfl⟩
  | false =>
    have hunlink : Runs (env.unlink path) v (.error (.of "ENOENT")) v := by
      refine runs_call hcalm (runs_read_bind fun s hs => ?_)
      rw [hs, if_neg (by simp [hfile]), if_pos (by simp [hfound])]
      exact runs_throw _
    refine ⟨{ v with files := Store.put v.files path ⟨some [], env.now⟩ }, runs_bind (runs_attempt hunlink) ?_,
      by simp [Files.content, Store.get_put], rfl⟩
    dsimp only
    rw [if_pos (by decide)]
    exact runs_create hcalm hfound hparent

/-- A collection is not replaced, and nothing is made where its collection is not there. -/
theorem runs_replaceFile_refused (hrooted : v.files.Rooted) (hpath : path ≠ [])
    (h : ¬ (v.files.isDirectory path = false ∧ v.files.isDirectory (parentOf path) = true)) :
    ∃ e, Runs (env.replaceFile path) v (.error e) v := by
  cases hdir : v.files.isDirectory path with
  | true =>
    have hunlink : Runs (env.unlink path) v (.error (.of "EISDIR")) v := by
      refine runs_call hcalm (runs_read_bind fun s hs => ?_)
      rw [hs, if_pos hdir]
      exact runs_throw _
    refine ⟨.of "EISDIR", runs_bind (runs_attempt hunlink) ?_⟩
    dsimp only
    rw [if_neg (by decide)]
    exact runs_throw _
  | false =>
    have hparent : v.files.isDirectory (parentOf path) = false := by simpa [hdir] using h
    have hfound : v.files.found path = false := by
      rw [Bool.eq_false_iff]
      intro hfound
      rw [hrooted path ((found_iff.mp hfound).resolve_left hpath)] at hparent
      cases hparent
    have hunlink : Runs (env.unlink path) v (.error (.of "ENOENT")) v := by
      refine runs_call hcalm (runs_read_bind fun s hs => ?_)
      rw [hs, if_neg (by simp [hdir]), if_pos (by simp [hfound])]
      exact runs_throw _
    refine ⟨.of "ENOENT", runs_bind (runs_attempt hunlink) ?_⟩
    dsimp only
    rw [if_pos (by decide)]
    refine runs_call hcalm (runs_read_bind fun s hs => ?_)
    rw [hs, if_neg (by simp [hfound]), if_pos (by simp [hparent])]
    exact runs_throw _

/-- A stream is written up to where it breaks, if it does. -/
theorem runs_drain (spaceUsed : ℕ) (pieces : List Piece) (came : Bytes) (h : v.files.content path = some came) :
    ∃ r v', Runs (env.drain d path spaceUsed came.length came.length pieces) v r v' ∧ v'.nodes = v.nodes ∧
      (r = .ok () ∧ d.brokenAfter spaceUsed came pieces = none ∧
          v'.files.content path = some (came ++ pieces.flatMap Piece.bytes) ∨
        ∃ e b, r = .error e ∧ d.brokenAfter spaceUsed came pieces = some b ∧ v'.files.content path = some b) := by
  induction pieces generalizing v came with
  | nil => exact ⟨_, v, runs_pure (), rfl, .inl ⟨rfl, rfl, by simpa using h⟩⟩
  | cons piece rest ih =>
    cases piece with
    | nothing => exact ih came h
    | failure e => exact ⟨_, v, runs_throw e, rfl, .inr ⟨e, came, rfl, rfl, h⟩⟩
    | value bytes =>
      by_cases hfull : d.size < spaceUsed + came.length + bytes.length
      · refine ⟨.error (.of "ENOSPC"), v, ?_, rfl, .inr ⟨_, came, rfl, ?_, h⟩⟩
        · unfold Env.drain
          rw [if_pos hfull]
          exact runs_throw _
        · unfold Device.brokenAfter
          rw [if_pos hfull]
      · obtain ⟨v₁, hwrite, hcontent, hnodes⟩ := @runs_write _ _ _ hcalm _ bytes h
        obtain ⟨r, v', hrest, hnodes', hend⟩ := ih (came ++ bytes) hcontent
        rw [List.length_append] at hrest
        refine ⟨r, v', ?_, hnodes'.trans hnodes, ?_⟩
        · unfold Env.drain
          rw [if_neg hfull]
          exact runs_bind hwrite hrest
        · unfold Device.brokenAfter
          rw [if_neg hfull]
          rw [List.append_assoc] at hend
          exact hend

theorem runs_writeData {data : ReplicaData} {r : Except Failure Unit} {v' : Volume} (hpath : path ≠ [])
    (h : Runs (env.writeBeside d path (d.others v.files path) data) v r v') : Runs (env.writeData d path data) v r v' := by
  refine runs_bind (runs_reclaimed hcalm hpath) (runs_read_bind fun s hs => ?_)
  rw [hs]
  exact h

theorem runs_writeData_refused (hrooted : v.files.Rooted) (hpath : path ≠ []) (data : ReplicaData)
    (h : ¬ (v.files.isDirectory path = false ∧ v.files.isDirectory (parentOf path) = true)) :
    ∃ e, Runs (env.writeData d path data) v (.error e) v := by
  obtain ⟨e, hreplace⟩ := runs_replaceFile_refused hcalm hrooted hpath h
  cases data with
  | stream pieces => exact ⟨e, runs_writeData hcalm hpath (runs_bind_error hreplace)⟩
  | view data =>
    by_cases hfull : d.size < d.others v.files path + data.buffer.length
    · refine ⟨.of "ENOSPC", runs_writeData hcalm hpath ?_⟩
      unfold Env.writeBeside
      dsimp only
      rw [if_pos hfull]
      exact runs_throw _
    · refine ⟨e, runs_writeData hcalm hpath ?_⟩
      unfold Env.writeBeside
      dsimp only
      rw [if_neg hfull]
      exact runs_bind_error hreplace

theorem runs_writeData_view (hpath : path ≠ []) (hfile : v.files.isDirectory path = false)
    (hparent : v.files.isDirectory (parentOf path) = true) (data : BufferView) : ∃ r v',
    Runs (env.writeData d path (.view data)) v r v' ∧ v'.nodes = v.nodes ∧
      (d.size < d.others v.files path + data.buffer.length ∧ r = .error (.of "ENOSPC") ∧ v' = v ∨
        ¬ d.size < d.others v.files path + data.buffer.length ∧ r = .ok () ∧ v'.files.content path = some data.buffer) := by
  by_cases hfull : d.size < d.others v.files path + data.buffer.length
  · refine ⟨_, v, runs_writeData hcalm hpath ?_, rfl, .inl ⟨hfull, rfl, rfl⟩⟩
    unfold Env.writeBeside
    dsimp only
    rw [if_pos hfull]
    exact runs_throw _
  · obtain ⟨v₁, hreplace, hempty, hnodes⟩ := runs_replaceFile hcalm hfile hparent hpath
    obtain ⟨v', hwrite, hcontent, hnodes'⟩ := @runs_write _ _ _ hcalm _ data.buffer hempty
    refine ⟨_, v', runs_writeData hcalm hpath ?_, hnodes'.trans hnodes, .inr ⟨hfull, rfl, hcontent⟩⟩
    unfold Env.writeBeside
    dsimp only
    rw [if_neg hfull]
    exact runs_bind hreplace hwrite

theorem runs_writeData_stream (hpath : path ≠ []) (hfile : v.files.isDirectory path = false)
    (hparent : v.files.isDirectory (parentOf path) = true) (pieces : List Piece) : ∃ r v',
    Runs (env.writeData d path (.stream pieces)) v r v' ∧ v'.nodes = v.nodes ∧
      (r = .ok () ∧ d.brokenAfter (d.others v.files path) [] pieces = none ∧
          v'.files.content path = some (pieces.flatMap Piece.bytes) ∨
        ∃ e b, r = .error e ∧ d.brokenAfter (d.others v.files path) [] pieces = some b ∧ v'.files.content path = some b) := by
  obtain ⟨v₁, hreplace, hempty, hnodes⟩ := runs_replaceFile hcalm hfile hparent hpath
  obtain ⟨r, v', hdrain, hnodes', hend⟩ := runs_drain (d := d) hcalm (d.others v.files path) pieces [] hempty
  exact ⟨r, v', runs_writeData hcalm hpath (runs_bind hreplace hdrain), hnodes'.trans hnodes, hend⟩

end Writing

/-! ### A failed write -/

/-- A file can be put at the path. -/
structure Volume.Writable (v : Volume) (path : JsString) : Prop where
  named : path ≠ []
  valid : isValidInnerPath path = true
  file : v.files.isDirectory path = false
  free : v.files.Free (parentOf path)

/-- A view is of its whole buffer unless the buffer does not fit, and a stream breaks only after the bytes of the old file. -/
def Device.Keeps (d : Device) (v : Volume) (path : JsString) : ReplicaData → Prop
  | .view data => d.size < d.others v.files path + data.buffer.length ∨ data.buffer = data.bytes
  | .stream pieces => ∀ b, d.brokenAfter (d.others v.files path) [] pieces = some b → v.files.content path = some b

/-- A write that fails leaves the bytes and the row, and one that succeeds puts the whole payload. -/
structure WritesWhole (d : Device) (env : Env) (v : Volume) (path : JsString) (contentType : Option JsString)
    (data : ReplicaData) : Prop where
  failed : ∀ (s s' : Session) (e : Failure), s.volume = v →
    (env.replicaStream d path contentType data).run s = (.error e, s') →
      s'.volume.files.content path = v.files.content path ∧ Store.get s'.volume.nodes path = Store.get v.nodes path
  written : ∀ s s' : Session, s.volume = v → (env.replicaStream d path contentType data).run s = (.ok (), s') →
    s'.volume.files.content path = some data.bytes

section Failing

variable {d : Device} {env : Env} {v v' : Volume} {path : JsString} {contentType : Option JsString} {data : ReplicaData}

theorem writesWhole_of_error {e : Failure} (h : Runs (env.replicaStream d path contentType data) v (.error e) v') :
    WritesWhole d env v path contentType data ↔
      v'.files.content path = v.files.content path ∧ Store.get v'.nodes path = Store.get v.nodes path := by
  constructor
  · intro hwhole
    obtain ⟨s', hrun, hs'⟩ := h ⟨v, []⟩ rfl
    exact hs' ▸ hwhole.failed _ s' e rfl hrun
  · intro hkept
    refine ⟨?_, ?_⟩
    · intro s s' e' hs hrun
      obtain ⟨s₁, hrun₁, hs₁⟩ := h s hs
      obtain rfl := (Prod.mk.inj (hrun.symm.trans hrun₁)).2
      rwa [hs₁]
    · intro s s' hs hrun
      obtain ⟨s₁, hrun₁, -⟩ := h s hs
      cases (Prod.mk.inj (hrun.symm.trans hrun₁)).1

theorem writesWhole_of_ok (h : Runs (env.replicaStream d path contentType data) v (.ok ()) v') :
    WritesWhole d env v path contentType data ↔ v'.files.content path = some data.bytes := by
  constructor
  · intro hwhole
    obtain ⟨s', hrun, hs'⟩ := h ⟨v, []⟩ rfl
    exact hs' ▸ hwhole.written _ s' rfl hrun
  · intro hwritten
    refine ⟨?_, ?_⟩
    · intro s s' e hs hrun
      obtain ⟨s₁, hrun₁, -⟩ := h s hs
      cases (Prod.mk.inj (hrun.symm.trans hrun₁)).1
    · intro s s' hs hrun
      obtain ⟨s₁, hrun₁, hs₁⟩ := h s hs
      obtain rfl := (Prod.mk.inj (hrun.symm.trans hrun₁)).2
      rwa [hs₁]

end Failing

/-! ### A stream that breaks -/

/-- A device that counts the bytes of its files. -/
def Device.counting (size : ℕ) : Device where
  size := size
  spaceUsed f := ∑ q ∈ (Store.keys f).toFinset, ((f.content q).getD []).length
  spaceUsed_content := by
    intro f f' h
    have hmissing (g : Files) (q : JsString) (hq : q ∉ (Store.keys g).toFinset) : ((g.content q).getD []).length = 0 := by
      have hnone : Store.get g q = none := by
        by_contra hsome
        exact hq (List.mem_toFinset.mpr (Store.mem_keys.mpr (Option.isSome_iff_ne_none.mpr hsome)))
      simp [Files.content, hnone]
    have hunion (g g' : Files) : ∑ q ∈ (Store.keys g).toFinset, ((g.content q).getD []).length =
        ∑ q ∈ (Store.keys g).toFinset ∪ (Store.keys g').toFinset, ((g.content q).getD []).length :=
      Finset.sum_subset Finset.subset_union_left fun q _ hq => hmissing g q hq
    rw [hunion f f', hunion f' f, Finset.union_comm]
    exact Finset.sum_congr rfl fun q _ => by rw [h q]

def heldFile : Volume := ⟨[(js "f", ⟨some [1, 2], 2⟩)], [], [], [], []⟩

end DurableDav.Dav
