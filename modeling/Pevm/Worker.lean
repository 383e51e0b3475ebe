import Pevm.Scheduler
import Pevm.MvMemory

/-!
# The worker loop

The threads that `execute_revm_parallel` spawns (`pevm.rs`): each asks the scheduler for a
task, runs it (`try_execute`, `try_validate`) and goes on with the task this returned or
with `next_task`, until `next_task` returns none or an abort reason is set.

The machine is generic in what an execution computes. An `Executor` is the part of
`Vm::execute` before `MvMemory::record`: a process of atomic steps that reads the
multi-version memory and ends with a read set, a write set, a result and whether validation
is needed, or with an error. `Pevm.Vm` gives the executor of the source.

`System.log` is a history variable. No step reads it; it records the calls of `record`, the
writes of result slots, the status writes of `finish_execution` and the successful aborts, so
that properties of whole runs can be stated on the state reached.
-/

namespace Pevm

open Interleaving Scheduler MvMemory

inductive VmExecutionError (E : Type) where
  | retry
  | fallbackToSequential
  | blocking (txIdx : Nat)
  | executionError (err : E)

inductive AbortReason (E : Type) where
  | fallbackToSequential
  | executionError (err : E)

/-- What one atomic step of an execution does. -/
inductive ExecStep (X R E : Type) where
  /-- reads of the multi-version memory and of the storage -/
  | run (x : X)
  | addNewBytecode (hash : B256) (code : Bytecode) (x : X)
  | addLazyAddresses (addresses : List Address) (x : X)
  /-- the execution succeeded and is about to call `MvMemory::record` -/
  | record (readSet : ReadSet) (writeSet : WriteSet) (needValidation : Bool) (result : R)
  | error (err : VmExecutionError E)

/-- `Vm::execute` up to `MvMemory::record`, with local state `X`. A read is only ever blocked
by a lower transaction. -/
structure Executor (X R E : Type) where
  start : TxVersion → X
  step : TxVersion → MvMemory → X → ExecStep X R E
  blocking_lt : ∀ v m x blockingTxIdx,
    step v m x = .error (.blocking blockingTxIdx) → blockingTxIdx < v.txIdx

inductive Pc (X R E : Type) where
  | nextTask (pc : NextTaskPc)
  /-- `try_execute`: inside `Vm::execute`, before `record` -/
  | execute (v : TxVersion) (x : X)
  | record (v : TxVersion) (readSet : ReadSet) (writeSet : WriteSet) (needValidation : Bool)
      (result : R) (pc : RecordPc)
  /-- about to write the result slot -/
  | writeResult (v : TxVersion) (flags : FinishExecFlags) (result : R)
  | finishExecution (v : TxVersion) (flags : FinishExecFlags) (pc : FinishExecutionPc)
  /-- `abort_reason.get().is_none()` before another attempt -/
  | retry (v : TxVersion)
  | addDependency (v : TxVersion) (blockingTxIdx : Nat) (pc : AddDependencyPc)
  /-- `scheduler.abort()` -/
  | abort (v : TxVersion) (reason : AbortReason E)
  /-- `abort_reason.get_or_init` -/
  | setAbortReason (reason : AbortReason E)
  /-- `try_validate`: inside `validate_read_locations` -/
  | validate (v : TxVersion) (pc : ValidatePc)
  | tryValidationAbort (v : TxVersion) (pc : TryValidationAbortPc)
  | convertWrites (v : TxVersion) (pc : ConvertPc)
  | finishValidation (v : TxVersion) (pc : FinishValidationPc)
  /-- `abort_reason.get().is_some()` after a task, holding the task it returned -/
  | checkAbortReason (task : Option Task)
  | left

/-- An entry of the history. -/
inductive Event where
  /-- `MvMemory::record` was called for this version -/
  | recorded (v : TxVersion)
  /-- the result slot of this transaction was written -/
  | wroteResult (txIdx : Nat)
  /-- `finish_execution` moved the version from Executing to Executed or Validated -/
  | finished (v : TxVersion) (flags : FinishExecFlags)
  /-- `finish_execution` counted the version as validated a second time -/
  | recounted (v : TxVersion)
  /-- the validation task of version `task` aborted incarnation `incarnation` -/
  | validationAborted (task : TxVersion) (incarnation : Nat)
  deriving DecidableEq

structure System (X R E : Type) where
  scheduler : Scheduler
  mvMemory : MvMemory
  executionResults : Nat → Option R
  abortReason : Option (AbortReason E)
  pc : WorkerId → Pc X R E
  /-- what happened so far, newest first -/
  log : List Event

/-- One call of `execute_revm_parallel`: the block, the number of workers and the initial
multi-version memory of the chain. -/
structure Config (X R E : Type) where
  executor : Executor X R E
  blockSize : Nat
  concurrencyLevel : Nat
  estimatedLocations : List (MemoryLocationHash × List Nat)
  lazyAddresses : List Address

namespace System

variable {X R E : Type}

def goto (s : System X R E) (w : WorkerId) (pc : Pc X R E) : System X R E :=
  { s with pc := Function.update s.pc w pc }

def withScheduler (s : System X R E) (scheduler : Scheduler) : System X R E :=
  { s with scheduler := scheduler }

def withMemory (s : System X R E) (mvMemory : MvMemory) : System X R E :=
  { s with mvMemory := mvMemory }

def record (s : System X R E) (events : List Event) : System X R E :=
  { s with log := events ++ s.log }

end System

/-- Dispatch on a task. -/
def startTask {X R E : Type} (executor : Executor X R E) : Task → Pc X R E
  | .execution v => .execute v (executor.start v)
  | .validation v => .validate v .lock

/-- What the history keeps of a step of `finish_execution`. -/
def finishEvents (v : TxVersion) (flags : FinishExecFlags) : FinishExecutionPc → List Event
  | .validateFrom | .settle false => [.finished v flags]
  | .settle true => [.recounted v]
  | _ => []

/-- What the history keeps of a step of `record`. -/
def recordEvents (v : TxVersion) : RecordPc → List Event
  | .lock => [.recorded v]
  | _ => []

section Step

variable {X R E : Type} (cfg : Config X R E)

/-- How an execution continues after one of its own atomic steps. -/
def executeStep (w : WorkerId) (v : TxVersion) (s : System X R E) :
    ExecStep X R E → System X R E
  | .run x => s.goto w (.execute v x)
  | .addNewBytecode hash code x =>
    (s.withMemory (s.mvMemory.addNewBytecode hash code)).goto w (.execute v x)
  | .addLazyAddresses addresses x =>
    (s.withMemory (s.mvMemory.addLazyAddresses addresses)).goto w (.execute v x)
  | .record readSet writeSet needValidation result =>
    s.goto w (.record v readSet writeSet needValidation result .lock)
  | .error .retry => s.goto w (.retry v)
  | .error .fallbackToSequential => s.goto w (.abort v .fallbackToSequential)
  | .error (.blocking blockingTxIdx) => s.goto w (.addDependency v blockingTxIdx .lockBlocking)
  | .error (.executionError err) => s.goto w (.abort v (.executionError err))

/-- The next atomic step of worker `w`. -/
def workerStep (w : WorkerId) (s : System X R E) : Option (System X R E) :=
  match s.pc w with
  | .nextTask pc =>
    match s.scheduler.nextTaskStep pc with
    | none => none
    | some (scheduler, .goto pc') => some ((s.withScheduler scheduler).goto w (.nextTask pc'))
    | some (scheduler, .ret (some task)) =>
      some ((s.withScheduler scheduler).goto w (startTask cfg.executor task))
    | some (scheduler, .ret none) => some ((s.withScheduler scheduler).goto w .left)
  | .execute v x => some (executeStep w v s (cfg.executor.step v s.mvMemory x))
  | .record v readSet writeSet needValidation result pc =>
    match s.mvMemory.recordStep w v readSet writeSet pc with
    | none => none
    | some (mvMemory, .goto pc') =>
      some (((s.withMemory mvMemory).record (recordEvents v pc)).goto w
        (.record v readSet writeSet needValidation result pc'))
    | some (mvMemory, .ret wroteNewLocation) =>
      some ((s.withMemory mvMemory).goto w
        (.writeResult v ⟨needValidation, wroteNewLocation⟩ result))
  | .writeResult v flags result =>
    some (({ s with
      executionResults := Function.update s.executionResults v.txIdx (some result) }.record
        [.wroteResult v.txIdx]).goto w (.finishExecution v flags .lock))
  | .finishExecution v flags pc =>
    match s.scheduler.finishExecutionStep w v flags pc with
    | none => none
    | some (scheduler, .goto pc') =>
      some (((s.withScheduler scheduler).record (finishEvents v flags pc)).goto w
        (.finishExecution v flags pc'))
    | some (scheduler, .ret task) =>
      some (((s.withScheduler scheduler).record (finishEvents v flags pc)).goto w
        (.checkAbortReason task))
  | .retry v =>
    match s.abortReason with
    | none => some (s.goto w (.execute v (cfg.executor.start v)))
    | some _ => some (s.goto w (.checkAbortReason none))
  | .addDependency v blockingTxIdx pc =>
    match s.scheduler.addDependencyStep w v.txIdx blockingTxIdx pc with
    | none => none
    | some (scheduler, .goto pc') =>
      some ((s.withScheduler scheduler).goto w (.addDependency v blockingTxIdx pc'))
    -- the blocking transaction was re-executed by the time the dependency could be added
    | some (scheduler, .ret false) => some ((s.withScheduler scheduler).goto w (.retry v))
    | some (scheduler, .ret true) =>
      some ((s.withScheduler scheduler).goto w (.checkAbortReason none))
  | .abort _ reason =>
    some ((s.withScheduler s.scheduler.abort).goto w (.setAbortReason reason))
  | .setAbortReason reason =>
    some ({ s with abortReason := some (s.abortReason.getD reason) }.goto w
      (.checkAbortReason none))
  | .validate v pc =>
    match s.mvMemory.validateStep w v.txIdx pc with
    | none => none
    | some (mvMemory, .goto pc') => some ((s.withMemory mvMemory).goto w (.validate v pc'))
    | some (mvMemory, .ret true) =>
      some ((s.withMemory mvMemory).goto w (.finishValidation v (.start false)))
    | some (mvMemory, .ret false) =>
      some ((s.withMemory mvMemory).goto w (.tryValidationAbort v .lock))
  | .tryValidationAbort v pc =>
    match s.scheduler.tryValidationAbortStep w v pc with
    | none => none
    | some (scheduler, .goto pc') =>
      some ((s.withScheduler scheduler).goto w (.tryValidationAbort v pc'))
    | some (scheduler, .ret true) =>
      some (((s.withScheduler scheduler).record
        [.validationAborted v (s.scheduler.transactionsStatus v.txIdx).incarnation]).goto w
        (.convertWrites v .lock))
    | some (scheduler, .ret false) =>
      some ((s.withScheduler scheduler).goto w (.finishValidation v (.start false)))
  | .convertWrites v pc =>
    match s.mvMemory.convertStep w v.txIdx pc with
    | none => none
    | some (mvMemory, .goto pc') => some ((s.withMemory mvMemory).goto w (.convertWrites v pc'))
    | some (mvMemory, .ret ()) =>
      some ((s.withMemory mvMemory).goto w (.finishValidation v (.start true)))
  | .finishValidation v pc =>
    match s.scheduler.finishValidationStep w v pc with
    | none => none
    | some (scheduler, .goto pc') =>
      some ((s.withScheduler scheduler).goto w (.finishValidation v pc'))
    | some (scheduler, .ret task) =>
      some ((s.withScheduler scheduler).goto w (.checkAbortReason task))
  | .checkAbortReason task =>
    match s.abortReason, task with
    | some _, _ => some (s.goto w .left)
    | none, some task => some (s.goto w (startTask cfg.executor task))
    | none, none => some (s.goto w (.nextTask .loop))
  | .left => none

/-- The workers about to call `next_task` on a fresh scheduler. Result slots may still hold
results of earlier blocks. -/
def initial (s : System X R E) : Prop :=
  s.scheduler = Scheduler.new cfg.blockSize ∧
  s.mvMemory = MvMemory.new cfg.estimatedLocations cfg.lazyAddresses ∧
  s.abortReason = none ∧ (∀ w, s.pc w = .nextTask .loop) ∧ s.log = []

/-- The machine of the spawned workers. -/
def workers : Machine (System X R E) WorkerId where
  init := initial cfg
  step := fun w s => if w < cfg.concurrencyLevel then workerStep cfg w s else none

end Step

end Pevm
