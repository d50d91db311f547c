import Valseg.Lib.Effect
import Valseg.Lib.Throwing
import Valseg.Lib.Ensures
import Valseg.Lib.TypedStore
import Valseg.Lib.Steps
import Valseg.Lib.Segment
import Valseg.Lib.TagTree
import Valseg.Lib.TagLoad
import Valseg.Lib.Allocation
import Valseg.Lib.RangeAdds
import Valseg.Lib.SegmentAction
import Valseg.Lib.Frontier
import Valseg.Lib.FrontierBounds
import Valseg.Lib.CanonicalSegments
import Valseg.Lib.Loop
import Valseg.Lib.FrontierSums
import Valseg.Detail
import Valseg.Policy
import Valseg.SignedEvaluation
import Valseg.SumAddDomain
import Valseg.CheckedTree
import Valseg.CheckedDomain
import Valseg.VersionedTrees
import Valseg.NumericDomain
import Valseg.Engine
import Valseg.Layout
import Valseg.Arena
import Valseg.Slots
import Valseg.LazySegmentTree
import Valseg.CheckpointingSegmentTree
import Valseg.CheckpointedSums
import Valseg.StampedArena
import Valseg.FatNodePersistentSegmentTree
import Valseg.BufferedPathCopyingSegmentTree
import Valseg.PathCopying
import Valseg.PersistentLazySegmentTree
import Valseg.CopyOnPushSegmentTree
import Valseg.FullCopyPersistentSegmentTree
import Valseg.CommonDomain
import Valseg.ExactGuards
import Valseg.RetainedEngines
import Valseg.PointOnlyPersistentSegmentTree
import Valseg.BruteForceArray
import Valseg.UntaggedEngines
import Valseg.SmallLoads
import Valseg.SmallRuns
import Valseg.FlawlessRuns
import Valseg.AllocatingEngine
import Valseg.AllocatingPathCopying
import Valseg.AllocatingBuffers
import Valseg.AllocatingFatNodes
import Valseg.AllocatingCheckpoints
import Valseg.StrongGuarantee
import Valseg.PolicyTrees
import Valseg.MeasuredTemplates
import Valseg.ActionArrays
import Valseg.CommutativityBoundary
import Valseg.PushedLazyTree
import Valseg.OrderPreserving
import Valseg.RecordTrees
import Valseg.Frontier
import Valseg.StructuralCounts
import Valseg.ArenaGrowth
import Valseg.FrontierExtrema
import Valseg.IntersectingNodes
import Valseg.FrontierClosedForm
import Valseg.FrontierSums
import Valseg.FatNodeSpace
import Valseg.PushIdentity
import Valseg.PushFrontier
import Valseg.TreeOrder
import Valseg.StreamReplays
import Valseg.ReplayedEntries
import Valseg.UpdatePreflights
import Valseg.Trials
import Valseg.ReplayOrder
import Valseg.FinishedTrials
import Valseg.Traces
import Valseg.SafeCounts
import Valseg.SafeReplays
import Valseg.Numerals
import Valseg.TraceGrammar
import Valseg.Workloads
import Valseg.Lib.MultipleTesting
import Valseg.Corrections
import Valseg.AffineWords
import Valseg.PolicyLaws
import Valseg.ArenaShapes
import Valseg.CopySafety
import Valseg.WellFormedArenas
import Valseg.FatNodeStamps
import Valseg.BufferedGrowth
import Valseg.PolicyImages
import Valseg.UnreducedWords
import Valseg.PreorderLayout
import Valseg.HeapStorage
import Valseg.BufferedSnapshots
import Valseg.PerSegTree
import Valseg.NodeSpans
import Valseg.NodeCalls
import Valseg.PerSegTreeRuns
import Valseg.Adapters
import Valseg.AdapterChecksums
import Valseg.Campaign
import Valseg.CampaignVisits
import Valseg.CampaignChecks
import Valseg.CampaignRows
import Valseg.CampaignShards
import Valseg.StructuralRows
import Valseg.RegisteredChecks
import Valseg.CommandLine
import Valseg.Schedule
import Valseg.ScheduledProcesses
import Valseg.CampaignFailures
import Valseg.Lib.Resumption
import Valseg.Orchestration
