import GitBranchManager.Diff.Clipping
import GitBranchManager.Diff.HunkRoundTrip
import GitBranchManager.Stage.StaleSelection
import GitBranchManager.Graph.TrunkLane
import GitBranchManager.Graph.StraightChains
import GitBranchManager.Status.RetainedDiffs
import GitBranchManager.Status.PorcelainRecords
import GitBranchManager.Status.FreshLineCounts
import GitBranchManager.Session.NewestReply
import GitBranchManager.Graph.Bookkeeping
import GitBranchManager.Graph.LaneColors
import GitBranchManager.Graph.MergedParents
import GitBranchManager.Graph.Streaming
import GitBranchManager.Operations.CancelledOperations
import GitBranchManager.Operations.AnsweredRequests
import GitBranchManager.Library.Batches
import GitBranchManager.Refresh.CoalescedRequests
import GitBranchManager.Refresh.NoLostRequest
import GitBranchManager.Conflict.KeptMarkers
import GitBranchManager.Objects.AlignedBatch
import GitBranchManager.DiffPane.DiffBlockOrder
import GitBranchManager.DiffPane.WholeFile
import GitBranchManager.Sidebar.NoLostBranch
import GitBranchManager.Sidebar.ClaimedRefs
import GitBranchManager.Status.PathTree
import GitBranchManager.Log.UrlCredentials
import GitBranchManager.Log.OperationLog
import GitBranchManager.Log.NativeErrorCoalescer
import GitBranchManager.Panes.SplitPane
import GitBranchManager.Panes.CommitRowColumns
import GitBranchManager.Panes.ListSelection
import GitBranchManager.Panes.TabStrip
import GitBranchManager.Draft.CommitMarker
import GitBranchManager.Draft.DraftConverges
import GitBranchManager.Refs.RefsReread
import GitBranchManager.Refs.CountedTips
import GitBranchManager.Refs.DeletedBranches
import GitBranchManager.Operations.SparedOperations
import GitBranchManager.Operations.WatchedPrompts
import GitBranchManager.Refresh.SharedReadPool
import GitBranchManager.Refresh.AutoFetch
import GitBranchManager.Stash.ChosenStash
import GitBranchManager.Session.NewestStatus
import GitBranchManager.Operations.RemoteHalf
import GitBranchManager.Prunes.SilentPrunes
import GitBranchManager.Prunes.AttributedPreviews
import GitBranchManager.Operations.RefusedCancels
import GitBranchManager.Operations.AnsweredPrompts
import GitBranchManager.Refs.UndoneHead
import GitBranchManager.Refs.UndoJournal
import GitBranchManager.Prunes.DeferredPrunes
import GitBranchManager.Discovery.FullScan
import GitBranchManager.Discovery.IncrementalScan
import GitBranchManager.Discovery.TouchedSubtree
import GitBranchManager.Codec.ReadPayloads
import GitBranchManager.Draft.PreparedFills
import GitBranchManager.Base.ErrorPatterns
import GitBranchManager.Clone.CloneDestination
import GitBranchManager.Clone.MovedRows
import GitBranchManager.Compare.LandedCounts
import GitBranchManager.Conflict.ConflictBatch
import GitBranchManager.Conflict.ConflictLineOrder
import GitBranchManager.Conflict.CountedMarkers
import GitBranchManager.Conflict.WholeResolutions
import GitBranchManager.Diff.CountedFiles
import GitBranchManager.Diff.MarkedEnds
import GitBranchManager.Diff.PathHeaders
import GitBranchManager.Diff.QuotedPaths
import GitBranchManager.Graph.LinearHistory
import GitBranchManager.Refs.RefFormat
import GitBranchManager.Refs.RefListing
import GitBranchManager.Base.CarriageReturns
import GitBranchManager.Objects.CommitMeta
import GitBranchManager.History.BlameStore
import GitBranchManager.History.FileHistoryStore
import GitBranchManager.Submodules.SubmoduleStore
import GitBranchManager.Operations.RebasePlan
import GitBranchManager.Graph.SpanQueries
import GitBranchManager.Graph.FindRow
import GitBranchManager.Graph.SnapshotView
import GitBranchManager.Library.Cuts
import GitBranchManager.Library.Recent
import GitBranchManager.Diff.LruByBytes
import GitBranchManager.DiffPane.SideBySide
import GitBranchManager.DiffPane.ScopePartition
import GitBranchManager.DiffPane.ListIndex
import GitBranchManager.DiffPane.ListOfBlocks
import GitBranchManager.DiffPane.SlotHeights
import GitBranchManager.DiffPane.SyncSegments
import GitBranchManager.Launch.DetachedProcess
import GitBranchManager.Update.UpdateFlow
