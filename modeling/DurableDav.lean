import DurableDav.Library.Fallible
import DurableDav.Library.Segments
import DurableDav.Library.Store
import DurableDav.Replication.Accounts
import DurableDav.Replication.BaseAgreement
import DurableDav.Replication.Collisions
import DurableDav.Replication.Forgetting
import DurableDav.Replication.KeepBoth
import DurableDav.Replication.RecursiveDeletion
import DurableDav.Replication.RemovalOrder
import DurableDav.Replication.Removals
import DurableDav.Replication.OneWay
import DurableDav.Replication.PlanOrder
import DurableDav.Replication.CredentialScope
import DurableDav.Replication.PresentedCredential
import DurableDav.Replication.ListedResponses
import DurableDav.Replication.Conservative
import DurableDav.Replication.MirrorDeletions
import DurableDav.Replication.Preserving
import DurableDav.Replication.RunReport
import DurableDav.Replication.StaleRows
import DurableDav.Dav.Cascades
import DurableDav.Dav.HonestCopy
import DurableDav.Dav.OneEtag
import DurableDav.Dav.LockDiscovery
import DurableDav.Dav.LockCourse
import DurableDav.Dav.LockRefresh
import DurableDav.Dav.LockRejection
import DurableDav.Dav.AncestorWalk
import DurableDav.Dav.PropShown
import DurableDav.Dav.PropfindWellFormed
import DurableDav.Dav.Preconditions
import DurableDav.Dav.PropUpdates
import DurableDav.Dav.IfEvaluation
import DurableDav.Dav.IfGrammar
import DurableDav.Dav.LockOwner
import DurableDav.Dav.TaskRefinement
import DurableDav.Dav.LockNull
import DurableDav.Dav.PutRace
import DurableDav.Dav.LockAnchors
import DurableDav.Dav.LockCompat
import DurableDav.Dav.RangeSelection
import DurableDav.Dav.ReplicaStreams
import DurableDav.Dav.SiblingAddressing
import DurableDav.Front.Authorisation
import DurableDav.Front.CacheCoherence
import DurableDav.Front.CachedReads
import DurableDav.Front.OneResource
import DurableDav.Front.PropfindValidators
import DurableDav.Front.RenameFaults
import DurableDav.Front.RenameSweeps
import DurableDav.Front.RoundTrip
import DurableDav.Front.VolumeMove
import DurableDav.Front.VolumeObjects
import DurableDav.Front.VolumeSettings
import DurableDav.Front.HandleOwners
import DurableDav.Front.HttpReplica
import DurableDav.Replication.ConformantServer
import DurableDav.Replication.AbandonedResume
import DurableDav.Replication.SweepSchedule
