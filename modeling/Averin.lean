import Averin.Core.Unicode
import Averin.Core.Attempt
import Averin.Core.Sorting
import Averin.Core.Cursor
import Averin.Core.Framing
import Averin.Core.Kahn
import Averin.Core.Outcome
import Averin.Core.Worklist
import Averin.Core.Growing
import Averin.Core.Cycles
import Averin.Core.Heads
import Averin.Core.Sha256
import Averin.Core.B64
import Averin.Canon.Value
import Averin.Canon.Text
import Averin.Canon.Sort
import Averin.Canon.Write
import Averin.Canon.Parse
import Averin.Canon.Grammar
import Averin.Canon.Tokens
import Averin.Canon.Strings
import Averin.Canon.Soundness
import Averin.Canon.Completeness
import Averin.Canon.RoundTrip
import Averin.Canon.Equivalence
import Averin.Record.Preimage
import Averin.Dag.Build
import Averin.Dag.Graph
import Averin.Dag.Copies
import Averin.Checkpoint.Chain
import Averin.Checkpoint.Coverage
import Averin.Verify.GrantLog
import Averin.Verify.LogIndex
import Averin.Verify.LogCursor
import Averin.Verify.CursorInvariant
import Averin.Verify.HeadChain
import Averin.Verify.BrokerTrust
import Averin.Verify.Transparency
import Averin.Verify.Reexport
import Averin.Verify.FederationTrust
import Averin.Verify.FederationIsolation
import Averin.Verify.Uses
import Averin.Verify.UseLedger
import Averin.Verify.AnchorRemoval
import Averin.Verify.AnchorTimes
import Averin.Verify.CommittedAt
import Averin.Verify.KeyRotations
import Averin.Verify.RevocationSources
import Averin.Core.Merkle
import Averin.Verify.HexText
import Averin.Verify.RevocationTree
import Averin.Verify.RevocationProof
import Averin.Verify.Verdict
import Averin.Sign.Signature
import Averin.Authority.Evidence
import Averin.Authority.Binding
import Averin.Core.Layout
import Averin.Sign.Challenges
import Averin.Checkpoint.Seal
import Averin.Checkpoint.SealRoundTrip
import Averin.Segment.Chain
import Averin.Segment.Completeness
import Averin.Segment.Months
import Averin.Segment.Overcount
import Averin.Checkpoint.Reorder
import Averin.Sign.Families
import Averin.Broker.Approvals
import Averin.Broker.ApprovalsVerified
import Averin.Verify.Delegation
import Averin.Broker.RevocationTree
import Averin.Core.Float64
import Averin.Core.Table
import Averin.Resource.Shim
import Averin.Server.Receipts
import Averin.Server.RecoveryRuns
import Averin.Server.RevocationList
import Averin.Store.Records
import Averin.Server.VerifyFlights
import Averin.Core.Time
import Averin.Server.GrantLog
import Averin.Server.Refusals
import Averin.Server.UseRetry
import Averin.Core.Cells
import Averin.Store.ThreadValues
import Averin.Core.B64Lenient
import Averin.Canon.Json
import Averin.Core.Wrapping
import Averin.Store.Paging
import Averin.Server.IncrementalRead
import Averin.Server.KeyLineage
import Averin.Server.LineageStatements
import Averin.Server.LineageVerified
import Averin.Server.LineageGraph
import Averin.Canon.Primitives
import Averin.Canon.MemberOrder
import Averin.Canon.Units
import Averin.Server.StoredGrant
import Averin.Store.CountedStore
import Averin.Server.ProjectTx
import Averin.Server.QuotaCallbacks
import Averin.Server.Quota
import Averin.Server.SurrogateScan
import Averin.Core.Decimal
import Averin.Canon.Marshal
import Averin.Server.Otel
import Averin.Server.OtelBodies
import Averin.Verify.Headline
import Averin.Segment.ChainState
import Averin.Segment.ChainRun
import Averin.Segment.ChainWhole
import Averin.Segment.Rebuild
import Averin.Server.KeyedMutex
import Averin.Server.CheckpointCut
import Averin.Server.CutAgreement
import Averin.Server.CutProtocol
import Averin.Server.HonestHistory
import Averin.Store.TrackedStore
import Averin.Server.Committed
import Averin.Server.GrantRecord
import Averin.Store.ThreadRuns
