import CrossSafety.Proofs.Cluster.Progress
import CrossSafety.Proofs.Cluster.Failed
import CrossSafety.Proofs.Cluster.Closure
import CrossSafety.Proofs.Cluster.Agreement
import CrossSafety.Table
import CrossSafety.Bytes.Hex
import CrossSafety.Bytes.Decimal
import CrossSafety.Json.Reader
import CrossSafety.Message
import CrossSafety.DependencySet
import CrossSafety.StorageError
import CrossSafety.LogStore.File
import CrossSafety.Chain.Store
import CrossSafety.Report
import CrossSafety.Proofs.Chain.Moves
import CrossSafety.Proofs.Chain.Consistent
import CrossSafety.Proofs.Chain.Growth
import CrossSafety.Proofs.Chain.Finalized
import CrossSafety.Proofs.Chain.Recovery
import CrossSafety.Proofs.Chain.Interrupted
import CrossSafety.Proofs.LogStore.Cut
import CrossSafety.Proofs.LogStore.Format
import CrossSafety.Proofs.LogStore.Survivors
import CrossSafety.Proofs.LogStore.Acceptance
import CrossSafety.Proofs.LogStore.Reads
import CrossSafety.Proofs.LogStore.Closest
import CrossSafety.Proofs.LogStore.Bisection
import CrossSafety.Proofs.LogStore.Undo
import CrossSafety.Proofs.Chain.LostTail
import CrossSafety.Proofs.Chain.Torn
import CrossSafety.Proofs.Chain.SealedLogs
import CrossSafety.Proofs.Chain.Answers
import CrossSafety.Proofs.Chain.Atomic
import CrossSafety.Proofs.Chain.Rewound
import CrossSafety.Proofs.Chain.Repeated
import CrossSafety.Proofs.Chain.Candidate
import CrossSafety.Proofs.Chain.Awaiting
import CrossSafety.Proofs.Rewind.Parent
import CrossSafety.Proofs.Rewind.Reorg
