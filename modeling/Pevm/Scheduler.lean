import Pevm.Primitives
import Pevm.Lib.Machine

/-!
# The collaborative scheduler

`scheduler.rs`, one step function per operation. A step performs at most one access to an
atomic (`execution_idx`, `validation_idx`, `min_validation_idx`, `num_validated`, `aborted`)
or one mutex acquisition; what only touches data guarded by a mutex the worker holds is part
of the same step. A critical section that makes no other shared access (`try_execute`,
`set_ready_status`, the status test of `next_task`) is therefore one step.

A mutex is its holder: `statusHolder i` and `dependentsHolder i` name the worker inside the
critical section of `transactions_status[i]` and `transactions_dependents[i]`. A step that
needs a held mutex is `none`: the worker is blocked.

The atomics are read and written in one global order (sequential consistency).
-/

namespace Pevm

open Interleaving

structure Scheduler where
  blockSize : Nat
  transactionsStatus : Nat → TxStatus
  transactionsDependents : Nat → List Nat
  executionIdx : Nat
  validationIdx : Nat
  minValidationIdx : Nat
  numValidated : Nat
  aborted : Bool
  statusHolder : Nat → Option WorkerId
  dependentsHolder : Nat → Option WorkerId

namespace Scheduler

/-- `Scheduler::new`. -/
def new (blockSize : Nat) : Scheduler where
  blockSize := blockSize
  transactionsStatus := fun _ => ⟨0, .readyToExecute⟩
  transactionsDependents := fun _ => []
  executionIdx := 0
  validationIdx := blockSize
  minValidationIdx := blockSize
  numValidated := 0
  aborted := false
  statusHolder := fun _ => none
  dependentsHolder := fun _ => none

/-- Write the status of `i`, its incarnation unchanged. -/
def setStatus (s : Scheduler) (i : Nat) (status : IncarnationStatus) : Scheduler :=
  { s with
    transactionsStatus :=
      Function.update s.transactionsStatus i { s.transactionsStatus i with status := status } }

/-- The body of `set_ready_status`: ready again, as the next incarnation. -/
def setReady (s : Scheduler) (i : Nat) : Scheduler :=
  { s with
    transactionsStatus := Function.update s.transactionsStatus i
      ⟨(s.transactionsStatus i).incarnation + 1, .readyToExecute⟩ }

def setDependents (s : Scheduler) (i : Nat) (dependents : List Nat) : Scheduler :=
  { s with transactionsDependents := Function.update s.transactionsDependents i dependents }

def holdStatus (s : Scheduler) (i : Nat) (w : Option WorkerId) : Scheduler :=
  { s with statusHolder := Function.update s.statusHolder i w }

def holdDependents (s : Scheduler) (i : Nat) (w : Option WorkerId) : Scheduler :=
  { s with dependentsHolder := Function.update s.dependentsHolder i w }

/-- `Scheduler::abort`. -/
def abort (s : Scheduler) : Scheduler :=
  { s with aborted := true }

/-- The version of `i` at its current incarnation. -/
def version (s : Scheduler) (i : Nat) : TxVersion :=
  ⟨i, (s.transactionsStatus i).incarnation⟩

/-- `matches!(status, Executed | Validated)`. -/
def isExecutedOrValidated : IncarnationStatus → Bool
  | .executed | .validated => true
  | _ => false

/-- The critical section of `try_execute` on an index below the block size. -/
def tryExecute (s : Scheduler) (i : Nat) : Option (Scheduler × Option TxVersion) :=
  match s.statusHolder i with
  | some _ => none
  | none =>
    if (s.transactionsStatus i).status = .readyToExecute then
      some (s.setStatus i .executing, some (s.version i))
    else some (s, none)

/-! ## `next_task` -/

inductive NextTaskPc where
  /-- `while !self.aborted.load()` -/
  | loop
  | loadExecutionIdx
  | loadValidationIdx (executionIdx : Nat)
  | loadNumValidated
  | loadMinValidationIdx (numValidated : Nat)
  /-- `validation_idx.fetch_add(1)` -/
  | takeValidationIdx
  /-- the status test of a fetched validation index below the block size -/
  | checkStatus (txIdx : Nat)
  /-- `execution_idx.fetch_add(1)` -/
  | takeExecutionIdx
  /-- `try_execute` of a fetched execution index below the block size -/
  | tryExecute (txIdx : Nat)

def nextTaskStep (s : Scheduler) :
    NextTaskPc → Option (Scheduler × Control NextTaskPc (Option Task))
  | .loop => some (s, if s.aborted then .ret none else .goto .loadExecutionIdx)
  | .loadExecutionIdx => some (s, .goto (.loadValidationIdx s.executionIdx))
  | .loadValidationIdx executionIdx =>
    if executionIdx ≥ s.blockSize ∧ s.validationIdx ≥ s.blockSize then
      some (s, .goto .loadNumValidated)
    -- prioritize a validation task to minimize re-execution
    else if s.validationIdx < executionIdx then some (s, .goto .takeValidationIdx)
    else some (s, .goto .takeExecutionIdx)
  | .loadNumValidated => some (s, .goto (.loadMinValidationIdx s.numValidated))
  | .loadMinValidationIdx numValidated =>
    if numValidated ≥ s.blockSize - s.minValidationIdx then some (s, .ret none)
    else some (s, .goto .loop)
  | .takeValidationIdx =>
    some ({ s with validationIdx := s.validationIdx + 1 },
      if s.validationIdx < s.blockSize then .goto (.checkStatus s.validationIdx)
      else .goto .takeExecutionIdx)
  | .checkStatus i =>
    match s.statusHolder i with
    | some _ => none
    | none =>
      match (s.transactionsStatus i).status with
      -- "steal" the execution job while holding the lock
      | .readyToExecute => some (s.setStatus i .executing, .ret (some (.execution (s.version i))))
      | .executed | .validated => some (s, .ret (some (.validation (s.version i))))
      | .aborting => some (s, .goto .loop)
      -- fall back to an execution job
      | .executing => some (s, .goto .takeExecutionIdx)
  | .takeExecutionIdx =>
    some ({ s with executionIdx := s.executionIdx + 1 },
      if s.executionIdx < s.blockSize then .goto (.tryExecute s.executionIdx) else .goto .loop)
  | .tryExecute i =>
    match s.tryExecute i with
    | none => none
    | some (s', some version) => some (s', .ret (some (.execution version)))
    | some (s', none) => some (s', .goto .loop)

/-! ## `add_dependency` -/

inductive AddDependencyPc where
  | lockBlocking
  | lockTx
  | push

def addDependencyStep (w : WorkerId) (txIdx blockingTxIdx : Nat) (s : Scheduler) :
    AddDependencyPc → Option (Scheduler × Control AddDependencyPc Bool)
  | .lockBlocking =>
    match s.statusHolder blockingTxIdx with
    | some _ => none
    | none =>
      if isExecutedOrValidated (s.transactionsStatus blockingTxIdx).status then some (s, .ret false)
      else some (s.holdStatus blockingTxIdx (some w), .goto .lockTx)
  | .lockTx =>
    match s.statusHolder txIdx with
    | some _ => none
    | none => some ((s.holdStatus txIdx (some w)).setStatus txIdx .aborting, .goto .push)
  | .push =>
    match s.dependentsHolder blockingTxIdx with
    | some _ => none
    | none =>
      -- the guards are dropped on return
      some (((s.setDependents blockingTxIdx
        (s.transactionsDependents blockingTxIdx ++ [txIdx])).holdStatus txIdx none).holdStatus
        blockingTxIdx none, .ret true)

/-! ## `finish_execution` -/

inductive FinishExecutionPc where
  | lock
  | lockDependents
  /-- `for tx_idx in dependents.drain(..)` with `set_ready_status` -/
  | drain
  /-- `execution_idx.fetch_min` of a resumed dependent -/
  | lowerExecutionIdx (dependent : Nat)
  | readMinValidationIdx
  /-- `validation_idx.fetch_min(min_validation_idx)` -/
  | lowerToMin (minValidationIdx : Nat)
  | loadValidationIdx
  /-- `validation_idx.fetch_min(tx_idx + 1)` -/
  | lowerToNext
  /-- the status decision of the branch between the minimum and the validation index -/
  | validateFrom
  /-- the final status decision; `again` when the branch above fell through to it -/
  | settle (again : Bool)

/-- Release both guards of `finish_execution`. -/
def releaseFinish (s : Scheduler) (i : Nat) : Scheduler :=
  (s.holdStatus i none).holdDependents i none

/-- `tx.status = Validated; num_validated.fetch_add(1)`. -/
def markValidated (s : Scheduler) (i : Nat) : Scheduler :=
  { s.setStatus i .validated with numValidated := s.numValidated + 1 }

def finishExecutionStep (w : WorkerId) (v : TxVersion) (flags : FinishExecFlags)
    (s : Scheduler) :
    FinishExecutionPc → Option (Scheduler × Control FinishExecutionPc (Option Task))
  | .lock =>
    match s.statusHolder v.txIdx with
    | some _ => none
    | none => some (s.holdStatus v.txIdx (some w), .goto .lockDependents)
  | .lockDependents =>
    match s.dependentsHolder v.txIdx with
    | some _ => none
    | none => some (s.holdDependents v.txIdx (some w), .goto .drain)
  | .drain =>
    match s.transactionsDependents v.txIdx with
    | [] => some (s, .goto .readMinValidationIdx)
    | dependent :: rest =>
      match s.statusHolder dependent with
      | some _ => none
      | none =>
        some ((s.setDependents v.txIdx rest).setReady dependent,
          .goto (.lowerExecutionIdx dependent))
  | .lowerExecutionIdx dependent =>
    some ({ s with executionIdx := min s.executionIdx dependent }, .goto .drain)
  | .readMinValidationIdx =>
    let minValidationIdx :=
      if flags.needValidation then min s.minValidationIdx v.txIdx else s.minValidationIdx
    some ({ s with minValidationIdx := minValidationIdx },
      if minValidationIdx < s.blockSize then
        -- must re-validate from min as this transaction is lower
        if v.txIdx < minValidationIdx then
          if flags.wroteNewLocation then .goto (.lowerToMin minValidationIdx)
          else .goto (.settle false)
        else .goto .loadValidationIdx
      else .goto (.settle false))
  | .lowerToMin minValidationIdx =>
    some ({ s with validationIdx := min s.validationIdx minValidationIdx }, .goto (.settle false))
  | .loadValidationIdx =>
    some (s,
      if v.txIdx < s.validationIdx then
        if flags.wroteNewLocation then .goto .lowerToNext else .goto .validateFrom
      -- the validation index is lower or equal and will catch up later
      else .goto (.settle false))
  | .lowerToNext =>
    some ({ s with validationIdx := min s.validationIdx (v.txIdx + 1) }, .goto .validateFrom)
  | .validateFrom =>
    if flags.needValidation then
      some ((s.setStatus v.txIdx .executed).releaseFinish v.txIdx, .ret (some (.validation v)))
    else some (s.markValidated v.txIdx, .goto (.settle true))
  | .settle _ =>
    if flags.needValidation then
      some ((s.setStatus v.txIdx .executed).releaseFinish v.txIdx, .ret none)
    else some ((s.markValidated v.txIdx).releaseFinish v.txIdx, .ret none)

/-! ## `try_validation_abort` -/

inductive TryValidationAbortPc where
  | lock
  | abort

def tryValidationAbortStep (w : WorkerId) (v : TxVersion) (s : Scheduler) :
    TryValidationAbortPc → Option (Scheduler × Control TryValidationAbortPc Bool)
  | .lock =>
    match s.statusHolder v.txIdx with
    | some _ => none
    | none => some (s.holdStatus v.txIdx (some w), .goto .abort)
  | .abort =>
    let status := (s.transactionsStatus v.txIdx).status
    let s := if status = .validated then { s with numValidated := s.numValidated - 1 } else s
    if isExecutedOrValidated status then
      some ((s.setStatus v.txIdx .aborting).holdStatus v.txIdx none, .ret true)
    else some (s.holdStatus v.txIdx none, .ret false)

/-! ## `finish_validation` -/

inductive FinishValidationPc where
  /-- `set_ready_status`, entered when the validation aborted the transaction -/
  | setReady
  | lowerValidationIdx
  | loadExecutionIdx
  | tryExecute
  /-- entered when it did not -/
  | lock
  | validate

/-- Where `finish_validation` starts. -/
def FinishValidationPc.start (aborted : Bool) : FinishValidationPc :=
  if aborted then .setReady else .lock

def finishValidationStep (w : WorkerId) (v : TxVersion) (s : Scheduler) :
    FinishValidationPc → Option (Scheduler × Control FinishValidationPc (Option Task))
  | .setReady =>
    match s.statusHolder v.txIdx with
    | some _ => none
    | none => some (s.setReady v.txIdx, .goto .lowerValidationIdx)
  | .lowerValidationIdx =>
    some ({ s with validationIdx := min s.validationIdx (v.txIdx + 1) }, .goto .loadExecutionIdx)
  | .loadExecutionIdx =>
    some (s, if s.executionIdx > v.txIdx then .goto .tryExecute else .ret none)
  | .tryExecute =>
    match s.tryExecute v.txIdx with
    | none => none
    | some (s', version) => some (s', .ret (version.map .execution))
  | .lock =>
    match s.statusHolder v.txIdx with
    | some _ => none
    | none =>
      if (s.transactionsStatus v.txIdx).status = .executed then
        some (s.holdStatus v.txIdx (some w), .goto .validate)
      else some (s, .ret none)
  | .validate => some ((s.markValidated v.txIdx).holdStatus v.txIdx none, .ret none)

end Scheduler

end Pevm
