import Toktier.Lib.Fallible
import Toktier.Lib.Bytes
import Toktier.Lib.Utf8
import Toktier.Lib.Decode
import Toktier.Lib.Sha256
import Toktier.Lib.Blake2b
import Toktier.Lib.Occurrences
import Toktier.StoreCore.Basic
import Toktier.StoreCore.Tail
import Toktier.StoreCore.Primitives
import Toktier.StoreCore.Format
import Toktier.StoreCore.RecordCodec
import Toktier.StoreCore.Sidecar
import Toktier.StoreCore.Recovery
import Toktier.StoreCore.Session
import Toktier.StoreCore.Sealing
import Toktier.StoreCore.SealingLaws
import Toktier.StoreCore.Store
import Toktier.StoreCore.StoreLaws
import Toktier.StoreCore.AppendLaws
import Toktier.StoreCore.AppendAtomic
import Toktier.StoreCore.Transport
import Toktier.StoreCore.TransportLaws
import Toktier.StoreCore.Creation
import Toktier.StoreCore.Chain
import Toktier.StoreCore.VerifiedHits
import Toktier.StoreCore.Runs
import Toktier.StoreCore.HashChain
import Toktier.StoreCore.Isolation
import Toktier.Serving.Pool
import Toktier.Serving.SessionOrder
import Toktier.Serving.NoWedge
import Toktier.Routing.Boundary
import Toktier.Routing.Repair
import Toktier.Routing.RepairLaws
import Toktier.Pretok.Laguna
import Toktier.Pretok.NfcQuickCheck
import Toktier.Pretok.Utf8Decode
import Toktier.Pretok.Kernel
import Toktier.Pretok.DeepSeek
import Toktier.Pretok.Runs
import Toktier.Pretok.Segments
import Toktier.Pretok.Cl100k
import Toktier.StoreCore.RowMemory
import Toktier.StoreCore.ChainReady
import Toktier.StoreCore.LazySpansLaws
import Toktier.StoreCore.AppendText
import Toktier.StoreCore.SealCuts
import Toktier.StoreCore.SidecarCodec
import Toktier.StoreCore.Tracking
import Toktier.StoreCore.RecoveryCodec
import Toktier.StoreCore.LazySpans
import Toktier.StoreCore.Checkpoints
import Toktier.StoreCore.SidecarImport
import Toktier.Chunked.GuardLaws
import Toktier.Chunked.Planner
import Toktier.Chunked.Certificates
import Toktier.Chunked.Survival
import Toktier.Chunked.Window
import Toktier.Chunked.EncodeLaws
import Toktier.Chunked.PlanLaws
import Toktier.Chunked.Encode
import Toktier.Chunked.Python
import Toktier.Chunked.Admission
import Toktier.Chunked.Agreement
import Toktier.Gigatoken.MergeScan
import Toktier.Gigatoken.Merge
import Toktier.Gigatoken.MergeOrder
import Toktier.Gigatoken.MergeHeap
import Toktier.Gigatoken.PairRank
import Toktier.Facade.Failures
import Toktier.Facade.BundleImport
import Toktier.Facade.JcsLaws
import Toktier.Facade.Session
import Toktier.Facade.JitLabels
import Toktier.Facade.EntryStore
import Toktier.Facade.BindingAgreement
import Toktier.Facade.EntryRuns
import Toktier.Facade.EntryCalls
import Toktier.Facade.Jcs
import Toktier.Facade.BundleLaws
import Toktier.Facade.RecoveryBinding
import Toktier.Facade.SessionLaws
import Toktier.Facade.Records
import Toktier.Facade.Jit
import Toktier.Facade.EntryLaws
import Toktier.Facade.Bundle
import Toktier.Routing.EntryMoves
import Toktier.Routing.Gpu
import Toktier.Routing.BatchSlices
import Toktier.Routing.EntryOpening
import Toktier.Routing.RouterLaws
import Toktier.Routing.Plan
import Toktier.Routing.MatchOptimal
import Toktier.Routing.Scans
import Toktier.Routing.Guarded
import Toktier.Routing.EntryBudget
import Toktier.Routing.EntryStore
import Toktier.Routing.RepairAgreement
import Toktier.Routing.BoundarySearch
import Toktier.Routing.EntryServing
import Toktier.Routing.BatchLaws
import Toktier.Routing.PlanLaws
import Toktier.Routing.BoundarySeals
import Toktier.Routing.IndexRows
import Toktier.Routing.ExecuteLaws
import Toktier.Routing.RepairPython
import Toktier.Routing.Execute
import Toktier.Routing.Router
import Toktier.Routing.ScanFloor
import Toktier.Routing.WindowedSearch
import Toktier.Routing.Spans
import Toktier.Lib.JsonCanonical
import Toktier.Lib.CharReader
import Toktier.Lib.Decimals
import Toktier.Lib.SharedRows
import Toktier.Lib.FileTree
import Toktier.Lib.RankTies
import Toktier.Lib.RankMerging
import Toktier.Lib.Probing
import Toktier.Lib.Compaction
import Toktier.Lib.Normalization
import Toktier.Lib.Utf8Slices
import Toktier.Lib.Totals
import Toktier.Lib.PairMerging
import Toktier.Lib.Pieces
import Toktier.Lib.LinkedCells
import Toktier.Lib.BlockScan
import Toktier.Lib.Canonical
import Toktier.Lib.Maps
import Toktier.Lib.Hex
import Toktier.Lib.Regex
import Toktier.Lib.Utf8Starts
import Toktier.Lib.JsonText
import Toktier.Integrations.SchedTasks
import Toktier.Integrations.SchedSubmit
import Toktier.Integrations.SchedAnswers
import Toktier.Integrations.SchedHomes
import Toktier.Integrations.SchedLaws
import Toktier.Integrations.SglangLaws
import Toktier.Integrations.Sglang
import Toktier.Integrations.SchedRuns
import Toktier.Integrations.Sched
import Toktier.Serving.Completion
import Toktier.Serving.Accounting
import Toktier.Frontend.Added
import Toktier.Frontend.Prefilter
import Toktier.Bpe.ExportFaithful
import Toktier.Bpe.Export
import Toktier.Bpe.Exact
import Toktier.Bpe.Rounds
import Toktier.Bpe.BitVectors
import Toktier.Bpe.WarpRounds
import Toktier.Bpe.MemoRuns
import Toktier.Bpe.Warp
import Toktier.Bpe.Routines
import Toktier.Bpe.ExportLaws
import Toktier.Bpe.Tables
