import LightRAG.Distributed.Coordinator.Barrier
import LightRAG.Distributed.Coordinator.ResourceLocks
import LightRAG.Distributed.Release.Sources
import LightRAG.Distributed.Release.Closing
import LightRAG.Pipeline.IngressHistory
import LightRAG.Pipeline.ScanJobHistory
import LightRAG.Storage.ConcurrencyGate
import LightRAG.Storage.KeyedLock
import LightRAG.Distributed.Retries.Runs
import LightRAG.Pipeline.Ownership
import LightRAG.Distributed.Delivery.Deliveries
import LightRAG.Storage.KeyedContextGuarantee
import LightRAG.Pipeline.EnqueueRuns
import LightRAG.Knowledge.DanglingReferences
import LightRAG.Query.AccountingRuns
import LightRAG.Storage.UploadSessions
import LightRAG.Query.PromptBudget
import LightRAG.Query.RerankChunks
import LightRAG.Storage.SchedulingSweepRuns
import LightRAG.Storage.SidecarRebuildRuns
import LightRAG.Storage.CacheReachabilityRuns
import LightRAG.Storage.CommitSubmissionRuns
import LightRAG.Chunking.Conservation
import LightRAG.Query.LlmCacheRuns
import LightRAG.Knowledge.GraphExtraction
import LightRAG.Storage.JsonStatusSweepRuns
import LightRAG.Storage.VectorStoreReads
import LightRAG.Storage.EmbeddedStorePublished
import LightRAG.Storage.FaissPublicationRuns
import LightRAG.Pipeline.FeederRuns
import LightRAG.Chunking.SafeSplitTokens
import LightRAG.Chunking.HardSplitProvenance
import LightRAG.Knowledge.TrackingAhead
import LightRAG.Pipeline.SourceNames
import LightRAG.Pipeline.StoredDirectives
import LightRAG.Knowledge.DescriptionSummaries
import LightRAG.Knowledge.CustomKgOutcomes
import LightRAG.Knowledge.MergingRenameOutcomes
import LightRAG.Knowledge.GraphInvariants
import LightRAG.Query.WeightedPolling
import LightRAG.Api.LoginRateLimiterRuns
import LightRAG.Parsing.DocxTableGrid
import LightRAG.Parsing.HtmlTableSlices
import LightRAG.Parsing.ContentPreservation
import LightRAG.Chunking.LevelMergeRuns
import LightRAG.Chunking.SeparatorSkips
import LightRAG.Chunking.RecursiveSpans
import LightRAG.Chunking.TokenSize
import LightRAG.Knowledge.CutEdits
import LightRAG.Storage.JsonKv
import LightRAG.Parsing.DocxNumbering
