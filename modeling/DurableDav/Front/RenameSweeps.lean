import DurableDav.Front.Rename

namespace DurableDav.Front

open Library Dav
open Replication (Tree PlanSide ReplicationMode ReplicaStateRow PassRow World BuildPlanInput isValidInnerPath parentOf
  buildReplicationPlan provablyIdentical)

/-! ### What a replication compares -/

inductive SyncTarget
  /-- Another server, and what it holds below the configured address. -/
  | http (tree : Tree)
  | davVolume (remoteOwner remoteVolume remotePath : JsString)

structure DavReplicationRow where
  replicationId : JsString
  volumeId : JsString
  mode : ReplicationMode
  mirrorDeletions : Bool
  target : SyncTarget
  pass : PassRow

def withRoot (root path : JsString) : JsString := if root = [] then path else root ++ slash :: path

/-- What lies below a collection, under the paths it has there. -/
def subtree (root : JsString) (t : Tree) : Tree :=
  (((Store.keys t).map (fun k => if root = [] then k else k.drop (root.length + 1))).filter fun q =>
    q ≠ [] ∧ isValidInnerPath q).filterMap fun q => (Store.get t (withRoot root q)).map (q, ·)

/-- The rows of one replication, under their paths. -/
def rowsOf (v : Volume) (replicationId : JsString) : Store JsString ReplicaStateRow :=
  (v.replicaState.filter fun e => e.1.replicationId = replicationId).map fun e => (e.1.path, e.2)

namespace Fleet

variable (C : Casing)

/-- `none` where the table has no such volume, which a run refuses to replicate into. -/
def remoteTree (fleet : Fleet) : SyncTarget → Option Tree
  | .http tree => some tree
  | .davVolume owner volume path => (fleet.volumes.getByOwnerName C owner volume).map fun _ =>
    subtree (stripSlashes path) (fleet.objects (normalizeVolumeKey C owner volume)).tree

def localRow (fleet : Fleet) (rep : DavReplicationRow) : Option DavVolumeRow :=
  fleet.volumes.find? fun r => r.id = rep.volumeId

def localObject (fleet : Fleet) (row : DavVolumeRow) : Volume := fleet.objects (normalizeVolumeKey C row.owner row.name)

/-- What the next sweep of a replication finds. -/
def sweepWorld (fleet : Fleet) (rep : DavReplicationRow) : Option World :=
  (fleet.localRow rep).bind fun row => (fleet.remoteTree C rep.target).map fun remote =>
    ⟨(fleet.localObject C row).tree, remote, rowsOf (fleet.localObject C row) rep.replicationId, rep.pass, [], 0, []⟩

end Fleet

/-- The planner's input of a sweep that listed all there is. -/
def DavReplicationRow.sweepInput (rep : DavReplicationRow) (hashOnAmbiguous : Bool) (now : ℕ) (random : JsString → JsString)
    (w : World) : BuildPlanInput :=
  { w.view w.collections rep.mode with
    hashOnAmbiguous := hashOnAmbiguous, mirrorDeletions := rep.mirrorDeletions, now := now, random := random }

/-- All there is can be listed. -/
def Sweepable (w : World) : Prop := w.WellFormed ∧ ∀ s p, (w.tree s).content p ≠ none → isValidInnerPath p = true

/-- The next complete sweep plans nothing but agreement. -/
def Fleet.InSync (C : Casing) (fleet : Fleet) (rep : DavReplicationRow) : Prop := ∃ w, fleet.sweepWorld C rep = some w ∧
  Sweepable w ∧ ∀ hashOnAmbiguous now random,
    (buildReplicationPlan (rep.sweepInput hashOnAmbiguous now random w)).OnlyAgrees

end DurableDav.Front
