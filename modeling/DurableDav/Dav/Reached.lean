import DurableDav.Dav.Changes
import DurableDav.Dav.FileTree

namespace DurableDav.Dav

open Library
open Replication (Bytes isValidInnerPath parentOf)

/-! ### The volumes there can be -/

def emptyVolume : Volume := ⟨[], [], [], [], []⟩

/-- A volume after any requests, replications and transfers, whatever of them failed. -/
inductive Reached : Volume → Prop
  | empty : Reached emptyVolume
  | request {v : Volume} (env : Env) (x : Exchange) : Reached v → Reached (Env.after (env.serve x) v)
  | replica {v : Volume} (env : Env) (op : ReplicaOperation) : Reached v → Reached (Env.after (env.applyOne op) v)
  | noted {v : Volume} (rows : Store ReplicaKey Replication.ReplicaStateRow) : Reached v →
      Reached { v with replicaState := rows }
  | transfer {v : Volume} (env : Env) (e : VolumeEntry) (h : ∀ tag, e.etag = some tag → IsMinted tag) : Reached v →
      Reached (Env.after (env.writeEntry e) v)

/-- What every change preserves holds of every volume there can be. -/
theorem Reached.keeps {I : Volume → Prop} (hempty : I emptyVolume) (hI : ∀ e v v', Change v e v' → I v → I v')
    {v : Volume} (h : Reached v) : I v := by
  induction h with
  | empty => exact hempty
  | request env x _ ih => exact makes_keeps (fun e v v' _ => hI e v v') (makes_serve x) ih
  | replica env op _ ih => exact makes_keeps (fun e v v' _ => hI e v v') (makes_applyOne op) ih
  | noted rows _ ih => exact hI _ _ _ (.noted rows) ih
  | transfer env e he _ ih => exact makes_keeps (fun e v v' _ => hI e v v') (makes_writeEntry e he) ih

def Volume.AllMinted (v : Volume) : Prop := ∀ q row e, Store.get v.nodes q = some row → row.etag = some e → IsMinted e

section Minted

variable {v v' : Volume} {effect : Effect}

theorem rekeyed_from {κ α : Type} [DecidableEq κ] {s s' : Store κ α} {f : κ → κ} {k : κ} {a : α}
    (h : rekey s f = some s') (hget : Store.get s' k = some a) : ∃ k', f k' = k ∧ Store.get s k' = some a := by
  by_cases hk : ∃ k' ∈ Store.keys s, f k' = k
  · obtain ⟨k', hmem, rfl⟩ := hk
    exact ⟨k', rfl, by rw [← rekey_get h hmem, hget]⟩
  · push Not at hk
    rw [rekey_get_none h hk] at hget
    exact absurd hget (by simp)

theorem updatePaths_nodes {source target : JsString} {t : Table} (h : v.updatePaths source target t = some v') :
    v'.nodes = v.nodes ∨ rekey v.nodes (repath source target) = some v'.nodes := by
  cases t with
  | davNodes =>
    obtain ⟨nodes, hnodes, rfl⟩ := Option.map_eq_some_iff.mp h
    exact .inr hnodes
  | davProps =>
    obtain ⟨props, _, rfl⟩ := Option.map_eq_some_iff.mp h
    exact .inl rfl
  | davLocks =>
    obtain rfl := Option.some.inj h
    exact .inl rfl
  | davReplicaState =>
    obtain ⟨rows, _, rfl⟩ := Option.map_eq_some_iff.mp h
    exact .inl rfl

theorem upsertNode_get (path q : JsString) (row : NodeRow) : Store.get (v.upsertNode path row).nodes q =
    if q = path then some { row with crtime := ((Store.get v.nodes path).map NodeRow.crtime).getD row.crtime }
    else Store.get v.nodes q := Store.get_put ..

theorem change_minted (hc : Change v effect v') (h : v.AllMinted) : v'.AllMinted := by
  intro q row e hget hetag
  cases hc with
  | make => exact h q row e hget hetag
  | write => exact h q row e hget hetag
  | unlink => exact h q row e hget hetag
  | remove => exact h q row e hget hetag
  | rename => exact h q row e hget hetag
  | node path row' hrow =>
    rw [upsertNode_get] at hget
    split at hget
    · obtain rfl := Option.some.inj hget
      rcases hrow e hetag with hmint | ⟨q', row'', hget', hetag'⟩
      · exact hmint
      · exact h q' row'' e hget' hetag'
    · exact h q row e hget hetag
  | setProp => exact h q row e hget hetag
  | removeProp => exact h q row e hget hetag
  | grant => exact h q row e hget hetag
  | extend => exact h q row e hget hetag
  | release => exact h q row e hget hetag
  | noted => exact h q row e hget hetag
  | deleteRows path t =>
    cases t with
    | davNodes =>
      have hall := Store.get_removeWhere v.nodes (deletePredicate path) q
      rw [show Store.get (Store.removeWhere v.nodes (deletePredicate path)) q = some row from hget] at hall
      split at hall
      · exact absurd hall (by simp)
      · exact h q row e hall.symm hetag
    | davProps => exact h q row e hget hetag
    | davLocks => exact h q row e hget hetag
    | davReplicaState => exact h q row e hget hetag
  | updatePaths source target t v' _ hpaths =>
    rcases updatePaths_nodes hpaths with hsame | hrekey
    · rw [hsame] at hget
      exact h q row e hget hetag
    · obtain ⟨q', _, hget'⟩ := rekeyed_from hrekey hget
      exact h q' row e hget' hetag

theorem reached_minted (h : Reached v) : v.AllMinted :=
  h.keeps (I := Volume.AllMinted) (fun q row e hget => absurd hget (by simp [emptyVolume])) fun _ _ _ => change_minted

end Minted

/-! ### The tree of files -/

section Rooted

variable {v v' : Volume} {effect : Effect}

theorem put_rooted {f : Files} {path : JsString} {i : Inode} (h : f.Rooted) (hparent : f.isDirectory (parentOf path) = true)
    (hkept : ∀ q, f.isDirectory q = true → Files.isDirectory (Store.put f path i) q = true) :
    Files.Rooted (Store.put f path i) := by
  intro q hq
  rw [Store.get_put] at hq
  split at hq
  · rename_i he
    rw [he]
    exact hkept _ hparent
  · exact hkept _ (h q hq)

theorem isDirectory_put {f : Files} {path q : JsString} {i : Inode} (hne : q ≠ path) :
    Files.isDirectory (Store.put f path i) q = f.isDirectory q := by
  simp [Files.isDirectory, hne]

theorem renamed_rooted {f files : Files} {source target : JsString} (h : f.Rooted) (hroot : source ≠ [])
    (hout : ¬ Below slash source target) (hne : target ≠ source) (hparent : f.isDirectory (parentOf target) = true)
    (hfiles : rekey f (moved source target) = some files) : files.Rooted := by
  -- collections outside the source stay where they are
  have hkept : ∀ p, ¬ (p = source ∨ Below slash source p) → f.isDirectory p = true → files.isDirectory p = true := by
    intro p hp hdir
    rcases isDirectory_iff.mp hdir with hnil | ⟨i, hi, hbytes⟩
    · exact isDirectory_iff.mpr (.inl hnil)
    · have hget := rekey_get hfiles (Store.mem_keys.mpr (by rw [hi]; rfl))
      rw [moved_outside hp, hi] at hget
      exact isDirectory_iff.mpr (.inr ⟨i, hget, hbytes⟩)
  intro q hq
  obtain ⟨i, hi⟩ := Option.isSome_iff_exists.mp hq
  obtain ⟨q', rfl, hq'⟩ := rekeyed_from hfiles hi
  have hup := h q' (by rw [hq']; rfl)
  by_cases hb : Below slash source q'
  · rw [moved_parent hroot hb]
    rcases isDirectory_iff.mp hup with hnil | ⟨j, hj, hbytes⟩
    · rcases hb.parent hroot with he | hin
      · exact absurd (he.trans hnil) hroot
      · exact absurd hnil hin.ne_nil
    · have hget := rekey_get hfiles (Store.mem_keys.mpr (by rw [hj]; rfl))
      exact isDirectory_iff.mpr (.inr ⟨j, hget.trans hj, hbytes⟩)
  · by_cases he : q' = source
    · subst he
      have hto : moved q' target q' = target := by simp [moved, rebase]
      rw [hto]
      refine hkept _ ?_ hparent
      rintro (he | hin)
      · have hparent_ne : parentOf target ≠ [] := by rwa [he]
        exact hout (he ▸ below_parentSegments hparent_ne)
      · exact hout (hin.trans (below_parentSegments hin.ne_nil))
    · have hstays : ¬ (q' = source ∨ Below slash source q') := by
        rintro (h | h)
        · exact he h
        · exact hb h
      rw [moved_outside hstays]
      refine hkept _ ?_ hup
      rintro (hsource | hin)
      · have hparent_ne : parentOf q' ≠ [] := by rwa [hsource]
        exact hb (hsource ▸ below_parentSegments hparent_ne)
      · exact hb (hin.trans (below_parentSegments hin.ne_nil))

theorem change_rooted (hc : Change v effect v') (h : v.files.Rooted) : v'.files.Rooted := by
  cases hc with
  | make path mtime hfree hparent =>
    refine put_rooted h hparent fun q hq => ?_
    by_cases he : q = path
    · simp [Files.isDirectory, he]
    · rwa [isDirectory_put he]
  | write path data mtime hfile hparent =>
    refine put_rooted h hparent fun q hq => ?_
    rwa [isDirectory_put]
    rintro rfl
    rw [hfile] at hq
    simp at hq
  | unlink path hfile hfound =>
    intro q hq
    rw [Store.get_remove] at hq
    split at hq
    · simp at hq
    · have hup := h q hq
      have hne : parentOf q ≠ path := by
        rintro rfl
        rw [hfile] at hup
        simp at hup
      simpa [Files.isDirectory, hne] using hup
  | remove path hdir =>
    intro q hq
    rw [Store.get_removeWhere] at hq
    split at hq
    · simp at hq
    · rename_i hout
      have hup := h q hq
      by_cases hroot : parentOf q = []
      · exact isDirectory_iff.mpr (.inl hroot)
      · have hkept : ¬ (parentOf q = path ∨ Below slash path (parentOf q)) := by
          rintro (he | hb)
          · exact hout (decide_eq_true (.inr (he ▸ below_parentSegments hroot)))
          · exact hout (decide_eq_true (.inr (hb.trans (below_parentSegments hroot))))
        simpa [Files.isDirectory, hkept, hroot] using hup
  | rename source target files hroot hne hout _ _ hparent hfiles => exact renamed_rooted h hroot hout hne hparent hfiles
  | node => exact h
  | setProp => exact h
  | removeProp => exact h
  | grant => exact h
  | extend => exact h
  | release => exact h
  | noted => exact h
  | deleteRows path t =>
    cases t <;> exact h
  | updatePaths source target t v' ht hpaths =>
    suffices hsame : v'.files = v.files from hsame ▸ h
    cases t <;> simp only [Volume.updatePaths, Option.map_eq_some_iff, Option.some.injEq] at hpaths
    · obtain ⟨_, _, rfl⟩ := hpaths
      rfl
    · obtain ⟨_, _, rfl⟩ := hpaths
      rfl
    · rw [← hpaths]
    · obtain ⟨_, _, rfl⟩ := hpaths
      rfl

theorem reached_rooted (h : Reached v) : v.files.Rooted :=
  h.keeps (I := fun v => v.files.Rooted) (by simp [Files.Rooted, emptyVolume]) fun _ _ _ => change_rooted

end Rooted

/-! ### The tokens of locks -/

def Volume.HoldsUuids (v : Volume) : Prop := ∀ e ∈ v.locks, isUuid e.1 = true

section Tokens

variable {v v' : Volume} {effect : Effect}

theorem change_uuids (hc : Change v effect v') (h : v.HoldsUuids) : v'.HoldsUuids := by
  intro e he
  cases hc with
  | make => exact h e he
  | write => exact h e he
  | unlink => exact h e he
  | remove => exact h e he
  | rename => exact h e he
  | node => exact h e he
  | setProp => exact h e he
  | removeProp => exact h e he
  | grant uuid row =>
    rcases List.mem_cons.mp he with rfl | hold
    · exact uuid.property
    · exact h e (List.mem_of_mem_filter hold)
  | extend d =>
    obtain ⟨old, hold, rfl⟩ := List.mem_map.mp he
    split
    · exact h old hold
    · exact h old hold
  | release => exact h e (List.mem_of_mem_filter he)
  | noted => exact h e he
  | deleteRows path t =>
    cases t with
    | davLocks => exact h e (List.mem_of_mem_filter he)
    | davNodes => exact h e he
    | davProps => exact h e he
    | davReplicaState => exact h e he
  | updatePaths source target t v' ht hpaths =>
    suffices hsame : v'.locks = v.locks from h e (hsame ▸ he)
    cases t with
    | davLocks => simp [renameCascadeTables] at ht
    | davNodes =>
      obtain ⟨nodes, _, rfl⟩ := Option.map_eq_some_iff.mp hpaths
      rfl
    | davProps =>
      obtain ⟨props, _, rfl⟩ := Option.map_eq_some_iff.mp hpaths
      rfl
    | davReplicaState =>
      obtain ⟨rows, _, rfl⟩ := Option.map_eq_some_iff.mp hpaths
      rfl

theorem reached_uuids (h : Reached v) : v.HoldsUuids :=
  h.keeps (I := Volume.HoldsUuids) (by simp [emptyVolume, Volume.HoldsUuids]) fun _ _ _ => change_uuids

end Tokens

end DurableDav.Dav
