import Sirius.Aggregate.SumSafety
import Sirius.Aggregate.SumWidths
import Sirius.Common.Actors
import Sirius.Common.Agreement
import Sirius.Common.BitWords
import Sirius.Common.Bitmap
import Sirius.Common.Blocks
import Sirius.Common.Bytes
import Sirius.Common.CasLoop
import Sirius.Common.Checked
import Sirius.Common.Crc32
import Sirius.Common.Distinct
import Sirius.Common.Gather
import Sirius.Common.HashTally
import Sirius.Common.Interleaving
import Sirius.Common.Keyed
import Sirius.Common.OrderedMap
import Sirius.Common.PackedWord
import Sirius.Common.Ranking
import Sirius.Common.RetentionMask
import Sirius.Common.Rotation
import Sirius.Common.Run
import Sirius.Common.SumTree
import Sirius.Common.Table
import Sirius.Common.Text
import Sirius.Common.Wire
import Sirius.Compression.BitjoinLayout
import Sirius.Compression.CompactionForecast
import Sirius.Compression.Hpln
import Sirius.Compression.HplnRead
import Sirius.Compression.HplnReferences
import Sirius.Compression.HplnRoundTrip
import Sirius.Compression.PlanBuild
import Sirius.Compression.PlanDsl
import Sirius.Compression.PlanRoundTrip
import Sirius.Compression.PlanSteps
import Sirius.Compression.PlanText
import Sirius.Compression.PlanTree
import Sirius.Compression.ReadyChunk
import Sirius.Compression.ScanPushdown
import Sirius.Compression.SelectionMask
import Sirius.Doris.ResultEncoder
import Sirius.Doris.ResultSlot
import Sirius.Exec.AdmissionControl
import Sirius.Exec.BatchStream
import Sirius.Exec.BatchStreamHooks
import Sirius.Exec.CompletionHandler
import Sirius.Exec.MultiIndexRefinement
import Sirius.Exec.PipelineFinish
import Sirius.Exec.PromiseOwnership
import Sirius.Exec.QueryAdmission
import Sirius.Exec.QueryLifecycle
import Sirius.Exec.QueryLifecycleWakeups
import Sirius.Exec.RetireLaneContract
import Sirius.Exec.ScopedDispatcherContract
import Sirius.Exec.SemiFutureStages
import Sirius.Exec.SemiFutureWaits
import Sirius.Io.ContentRange
import Sirius.Io.GroupedCoordinator
import Sirius.Io.ListPage
import Sirius.Io.RedactedUri
import Sirius.Io.RestRanges
import Sirius.Io.SlotPool
import Sirius.Io.UringPlan
import Sirius.IoCache.Cache
import Sirius.IoCache.CacheExtents
import Sirius.IoCache.CacheInvariant
import Sirius.IoCache.CacheReclaim
import Sirius.IoCache.CacheSubscribers
import Sirius.IoCache.ChunkCoverage
import Sirius.IoCache.ChunkFill
import Sirius.IoCache.ChunkPins
import Sirius.IoCache.ChunkState
import Sirius.IoCache.PrefetchChunks
import Sirius.Memory.BlocksAccessor
import Sirius.Planner.JoinKeyNullability
import Sirius.Planner.LateMat
import Sirius.Planner.LateMatRide
import Sirius.Planner.LogicalPlan
import Sirius.Planner.PinUniqueness
import Sirius.Planner.PipelinePriorities
import Sirius.Planner.PrefetchOrder
import Sirius.Planner.ScanColumnOrigin
import Sirius.Planner.SubstraitScanRanges
import Sirius.Scan.BatchLayout
import Sirius.Scan.CompositeDriver
import Sirius.Scan.CompositeScan
import Sirius.Scan.DeletionVectorAgreement
import Sirius.Scan.DeletionVectorFormat
import Sirius.Scan.DynamicFilterMerge
import Sirius.Scan.DynamicFilterStrategies
import Sirius.Scan.FieldIdMapping
import Sirius.Scan.IcebergDeleteKeys
import Sirius.Scan.IcebergPaths
import Sirius.Scan.MvccVisibility
import Sirius.Scan.NativeCoalescer
import Sirius.Scan.NativeSegments
import Sirius.Scan.ParquetByteRange
import Sirius.Scan.PositionalVisibility
import Sirius.Scan.PuffinContainer
import Sirius.Scan.ScanPlanOutput
import Sirius.ScanManager.Admission
import Sirius.ScanManager.AdmissionEnvelope
import Sirius.ScanManager.CoordinatorPool
import Sirius.ScanManager.CoordinatorPoolRuns
import Sirius.ScanManager.FanOutJoin
import Sirius.ScanManager.LedgerBounds
import Sirius.ScanManager.LedgerRetire
import Sirius.ScanManager.LedgerRollback
import Sirius.ScanManager.MvccMaskCache
import Sirius.ScanManager.MvccMaskJob
import Sirius.ScanManager.MvccMaskRuns
import Sirius.ScanManager.PrefetchingScheduler
import Sirius.ScanManager.PrefetchingSchedulerRuns
import Sirius.ScanManager.PreparationLedger
import Sirius.ScanManager.Readahead
import Sirius.ScanManager.ReadaheadRuns
import Sirius.ScanManager.ReadaheadSlots
import Sirius.ScanManager.SharedScanBudget
import Sirius.Transparent.ReadViewComparison
