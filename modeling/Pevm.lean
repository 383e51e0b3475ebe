import Pevm.Lib.Machine
import Pevm.Lib.Saturating
import Pevm.Lib.Ranking
import Pevm.Lib.Simulation
import Pevm.Lib.AssocList
import Pevm.Primitives
import Pevm.MvMemory
import Pevm.Scheduler
import Pevm.Evm
import Pevm.Chain
import Pevm.Worker
import Pevm.Vm
import Pevm.Evaluation
import Pevm.Transfer
import Pevm.Execute
import Pevm.Sequential
import Pevm.AlloyBlock
import Pevm.RpcStorage
import Pevm.Proofs.Step
import Pevm.Proofs.Bounds
import Pevm.Proofs.Ownership
import Pevm.Proofs.Locks
import Pevm.Proofs.Versions
import Pevm.Proofs.Counter
import Pevm.Proofs.Aborts
import Pevm.Proofs.NextTask
import Pevm.Proofs.Progress
import Pevm.Proofs.Reuse
import Pevm.Proofs.Writes
import Pevm.Proofs.Record
import Pevm.Proofs.Reads
import Pevm.Proofs.LazyReads
import Pevm.Proofs.Validation
import Pevm.Proofs.Execution
import Pevm.Proofs.Estimates
import Pevm.Proofs.Snapshot
import Pevm.Proofs.Recorded
import Pevm.Proofs.Journal
import Pevm.Proofs.Alone
import Pevm.Proofs.TransferWrites
import Pevm.Proofs.TransferResults
import Pevm.Proofs.Rewards
import Pevm.Proofs.Outcome
import Pevm.Proofs.ReadBack
import Pevm.Proofs.CodeWrites
import Pevm.Proofs.FullWrites
import Pevm.Proofs.LazyAccounts
import Pevm.Proofs.LastExecution
import Pevm.Proofs.SelfDestruct
import Pevm.Proofs.Indices
import Pevm.Proofs.PostProcessing
import Pevm.Proofs.LazyPath
import Pevm.Proofs.PathsAgree
import Pevm.Proofs.Serial
import Pevm.Proofs.FullBlocks
import Pevm.Proofs.SameValues
import Pevm.Proofs.Serializability
import Pevm.Proofs.Commit
import Pevm.Proofs.SerialCommit
import Pevm.Proofs.SequentialRun
import Pevm.Proofs.SequentialResults
import Pevm.Proofs.ParallelSequential
import Pevm.Proofs.AbortedRuns
import Pevm.Proofs.Failures
import Pevm.Proofs.StorageFailures
