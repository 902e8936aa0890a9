import PrSearch.Annotate.Labels
import PrSearch.Annotate.Turns
import PrSearch.Authz.Invalidation
import PrSearch.Authz.Logout
import PrSearch.Authz.RefreshCap
import PrSearch.Authz.Revocation
import PrSearch.Authz.TeamScope
import PrSearch.Bus.Partition
import PrSearch.DeadLetter.Truthful
import PrSearch.Documents.Reports
import PrSearch.GhCli.Bound
import PrSearch.GhCli.Chunks
import PrSearch.GhCli.Written
import PrSearch.GitHub.Quarantine
import PrSearch.GitHub.RawWindow
import PrSearch.GitHub.SchedulerRuns
import PrSearch.Graph.Fallback
import PrSearch.Graph.Walk
import PrSearch.Index.Scripts
import PrSearch.Index.SequenceProjection
import PrSearch.Jobs.Backfill
import PrSearch.Links.Recollection
import PrSearch.Links.StaysQueued
import PrSearch.MergeNumber.Guarded
import PrSearch.MergeNumber.LookedAt
import PrSearch.MergeNumber.Replay
import PrSearch.Project.Announced
import PrSearch.Query.DayStart
import PrSearch.Query.Offsets
import PrSearch.Reconcile.Covered
import PrSearch.Reindex.Charges
import PrSearch.Reindex.NoLoss
import PrSearch.Relation.Convergence
import PrSearch.Relation.Cycles
import PrSearch.Relation.Generated
import PrSearch.Relation.StackHistory
import PrSearch.Release.Containment
import PrSearch.Release.Latest
import PrSearch.Release.Timeline
import PrSearch.Search.Distribution
import PrSearch.Search.Fingerprint
import PrSearch.Search.Fragments
import PrSearch.Search.Groups
import PrSearch.Sequence.RepairRuns
import PrSearch.Source.FileWhole
import PrSearch.Source.LineageWhole
import PrSearch.Source.TreePages
import PrSearch.Work.Coverage
import PrSearch.Work.Exclusion
