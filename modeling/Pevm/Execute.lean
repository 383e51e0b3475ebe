import Pevm.Evaluation

/-!
# `execute_revm_parallel`

One call on a `Pevm` value, which keeps its result slots and its abort reason from one block to the
next: the workers run on the slots as earlier blocks left them, the abort reason is taken, the slots
are taken in order and the lazily written accounts are evaluated.

A call is a function of the interleaving of its workers. It has no outcome for a list of workers that
is not a whole run. `execute_revm_sequential`, which a call falls back to, does not see the `Pevm`: a
block carries what it returns.
-/

namespace Pevm

open Interleaving MvMemory

/-- `PevmResult`. -/
abbrev PevmResult := Except PevmError (List PevmTxExecutionResult)

/-- What a call is given. -/
structure Block (T : Type) where
  vm : Vm T
  concurrencyLevel : Nat
  /-- `execute_revm_sequential` on the same chain, storage and transactions -/
  sequential : PevmResult

/-- The fields of a `Pevm`. Slots past the length of the buffer are the empty ones that `grow_to` adds. -/
structure PevmState where
  executionResults : Nat → Option PevmTxExecutionResult
  abortReason : Option (AbortReason ExecutionError)

namespace PevmState

/-- `Pevm::default`. -/
def default : PevmState :=
  ⟨fun _ => none, none⟩

/-- The state in which the workers are spawned. -/
def spawn {T : Type} (p : PevmState) (block : Block T) :
    System Vm.Execution PevmTxExecutionResult ExecutionError where
  scheduler := Scheduler.new block.vm.blockSize
  mvMemory := MvMemory.new (block.vm.config block.concurrencyLevel).estimatedLocations
    (block.vm.config block.concurrencyLevel).lazyAddresses
  executionResults := p.executionResults
  abortReason := p.abortReason
  pc := fun _ => .nextTask .loop
  log := []

/-- `take_slot` of every transaction; `none` where a slot is empty, which the source does not
check. -/
def takeSlots (executionResults : Nat → Option PevmTxExecutionResult) (blockSize : Nat) :
    Option (List PevmTxExecutionResult) :=
  (List.range blockSize).mapM executionResults

/-- After the workers have been joined. -/
def collect {T : Type} (block : Block T)
    (s : System Vm.Execution PevmTxExecutionResult ExecutionError) : Option PevmResult × PevmState :=
  -- `abort_reason.take()`
  match s.abortReason with
  | some .fallbackToSequential => (some block.sequential, ⟨s.executionResults, none⟩)
  | some (.executionError err) => (some (.error (.executionError err)), ⟨s.executionResults, none⟩)
  | none =>
    ((takeSlots s.executionResults block.vm.blockSize).map (block.vm.evaluateResults s.mvMemory),
      ⟨fun i => if i < block.vm.blockSize then none else s.executionResults i, none⟩)

/-- Every spawned worker has left. -/
def joined {T : Type} (block : Block T)
    (s : System Vm.Execution PevmTxExecutionResult ExecutionError) : Bool :=
  (List.range block.concurrencyLevel).all fun w =>
    match s.pc w with
    | .left => true
    | _ => false

/-- `execute_revm_parallel` with the given interleaving of its workers: what it returns (`none` where
an empty slot is taken), and the `Pevm` it leaves. -/
def executeRevmParallel {T : Type} (p : PevmState) (block : Block T) (schedule : List WorkerId) :
    Option (Option PevmResult × PevmState) :=
  if block.vm.blockSize = 0 then some (some (.ok []), p)
  else
    ((workers (block.vm.config block.concurrencyLevel)).run schedule (p.spawn block)).bind fun s =>
      if joined block s then some (collect block s) else none

/-- The write of a result slot in `Vm::execute`: the receipt and the state of an old result are
overwritten in place. -/
def writeSlot (slot : Option PevmTxExecutionResult) (result : PevmTxExecutionResult) :
    Option PevmTxExecutionResult :=
  match slot with
  | some old =>
    let slot := { old with receipt := result.receipt }
    -- `slot.state.clear(); slot.state.extend(state)`
    let slot := { slot with state := [] }
    some { slot with state := slot.state ++ result.state }
  | none => some result

/-- A recycled slot holds nothing of the old result. -/
theorem writeSlot_eq (slot : Option PevmTxExecutionResult) (result : PevmTxExecutionResult) :
    writeSlot slot result = some result := by
  cases slot <;> rfl

end PevmState

end Pevm
