import Pevm.Vm

/-!
# The results of a block

The end of `execute_revm_parallel` (`pevm.rs`), after the workers have left without an abort. The
result slots are taken in order, and every account that was written lazily is evaluated forward
through its write history: the balance and nonce of the account after each of its writers go into
the result of that writer.
-/

namespace Pevm

open MvMemory Saturating

/-- The errors of `execute_revm_parallel` after the workers. `panic` is `unreachable!()`. -/
inductive PevmError where
  | nonceMismatch (txIdx : Nat) (txNonce executedNonce : BitVec 64)
  | storageError (message : String)
  | executionError (err : ExecutionError)
  | unreachableError
  | panic
  deriving DecidableEq

/-- The fee a sender must be able to pay on top of the value. -/
def TxEnv.maxFee (tx : TxEnv) : U256 :=
  let maxFee := saturatingAdd
    (saturatingMul (tx.gasLimit.setWidth 256) (tx.gasPrice.setWidth 256)) tx.value
  saturatingAdd maxFee
    (saturatingMul (tx.totalBlobGas.setWidth 256) (tx.maxFeePerBlobGas.setWidth 256))

/-- Apply one entry of the write history to the account before it. The sender of a lazy transaction
was mocked, so that its funds are checked here. -/
def evaluateEntry (tx : TxEnv) (account : AccountBasic) : MemoryEntry → Except PevmError AccountBasic
  | .data _ (.basic info) => .ok info
  | .data _ (.lazyRecipient addition) =>
    .ok { account with balance := saturatingAdd account.balance addition }
  | .data _ (.lazySender subtraction) =>
    if account.balance < tx.maxFee then
      .error (.executionError (.evm (.transaction
        (.lackOfFundForMaxFee tx.maxFee account.balance))))
    else .ok ⟨saturatingSub account.balance subtraction, account.nonce + 1⟩
  | _ => .error .panic

/-- The values that stand for the balance and nonce of an account. -/
def MemoryValue.isBasic : MemoryValue → Bool
  | .basic _ | .lazyRecipient _ | .lazySender _ => true
  | .codeHash _ | .storage _ | .selfDestructed => false

/-- An account after a write of its balance and nonce. -/
def AccountBasic.after (account : AccountBasic) : Option MemoryValue → AccountBasic
  | some (.basic info) => info
  | some (.lazyRecipient addition) =>
    { account with balance := saturatingAdd account.balance addition }
  | some (.lazySender subtraction) =>
    ⟨saturatingSub account.balance subtraction, account.nonce + 1⟩
  | _ => account

/-- The account an entry leaves, where it is one of an account. -/
theorem evaluateEntry_eq {tx : TxEnv} {account account' : AccountBasic} {incarnation : Nat}
    {value : MemoryValue} (h : evaluateEntry tx account (.data incarnation value) = .ok account') :
    account' = account.after value := by
  cases value with
  | lazySender subtraction =>
    unfold evaluateEntry at h
    split_ifs at h
    cases h
    rfl
  | _ => cases h <;> rfl

/-- The nonce of the caller after its transaction. -/
def checkExecutedNonce (txIdx : Nat) (tx : TxEnv) (address : Address) (nonce : BitVec 64) :
    Except PevmError Unit :=
  if tx.caller = address then
    if nonce = 0 then .error .unreachableError
    else if tx.nonce ≠ nonce - 1 then .error (.nonceMismatch txIdx tx.nonce (nonce - 1))
    else .ok ()
  else .ok ()

/-- The account of a result with the evaluated balance and nonce. An explicit write keeps its code
and storage; an implicit one has the code from the storage. -/
def writeAccount (isEip161Enabled : Bool) (codeHash : Option B256) (code : Option Bytecode)
    (evaluated : AccountBasic) (account : Option EvmAccount) : Option EvmAccount :=
  if isEip161Enabled && codeHash.isNone && evaluated.nonce = 0 && evaluated.balance = 0 then none
  else
    match account with
    | some account =>
      some { account with balance := evaluated.balance, nonce := evaluated.nonce }
    | none => some ⟨evaluated.balance, evaluated.nonce, codeHash, code, []⟩

/-- `state.entry(address).or_default()`, changed by `f`. -/
def EvmStateTransitions.modifyEntry (address : Address) (f : Option EvmAccount → Option EvmAccount) :
    EvmStateTransitions → EvmStateTransitions
  | [] => [(address, f none)]
  | (a, account) :: rest =>
    if a = address then (a, f account) :: rest
    else (a, account) :: modifyEntry address f rest

/-- The receipts carry the gas used up to and including their transaction. -/
def cumulateGas (cumulativeGasUsed : BitVec 64) :
    List PevmTxExecutionResult → List PevmTxExecutionResult
  | [] => []
  | result :: rest =>
    let cumulativeGasUsed := saturatingAdd cumulativeGasUsed result.receipt.cumulativeGasUsed
    { result with
      receipt := { result.receipt with cumulativeGasUsed := cumulativeGasUsed } } ::
      cumulateGas cumulativeGasUsed rest

namespace Vm

variable {T : Type} (vm : Vm T)

/-- The write history of a location, lowest transaction first. -/
def writeHistory (history : WriteHistory) : List (Nat × MemoryEntry) :=
  (List.range vm.blockSize).filterMap fun i => (history i).map fun entry => (i, entry)

/-- The account the evaluation starts from: the storage, unless the first entry is absolute. A
failing storage counts as an empty account. -/
def evaluationStart (address : Address) (entries : List (Nat × MemoryEntry)) : AccountBasic :=
  match entries.head? with
  | some (_, .data _ (.basic _)) => .default
  | _ =>
    match vm.storage.basic address with
    | .ok (some account) => account
    | _ => .default

/-- The loop over the write history of one address. -/
def evaluateHistory (address : Address) (codeHash : Option B256) (code : Option Bytecode) :
    List (Nat × MemoryEntry) → AccountBasic → List PevmTxExecutionResult →
      Except PevmError (List PevmTxExecutionResult)
  | [], _, results => .ok results
  | (txIdx, entry) :: rest, account, results => do
    let tx := vm.chain.txEnv (vm.txs txIdx)
    let account ← evaluateEntry tx account entry
    checkExecutedNonce txIdx tx address account.nonce
    evaluateHistory address codeHash code rest account
      (results.modify txIdx fun result =>
        { result with
          state := EvmStateTransitions.modifyEntry address
            (writeAccount vm.isEip161Enabled codeHash code account) result.state })

/-- The evaluation of one lazy address. -/
def evaluateAddress (m : MvMemory) (results : List PevmTxExecutionResult) (address : Address) :
    Except PevmError (List PevmTxExecutionResult) :=
  match m.data (vm.hash (.basic address)) with
  | none => .ok results
  | some history => do
    let entries := vm.writeHistory history
    let codeHash ← (vm.storage.codeHash address).mapError .storageError
    let code ←
      match codeHash with
      | some hash => (vm.storage.codeByHash hash).mapError .storageError
      | none => .ok none
    vm.evaluateHistory address codeHash code entries (vm.evaluationStart address entries) results

/-- From the results of the workers to the results of the block. -/
def evaluateResults (m : MvMemory) (results : List PevmTxExecutionResult) :
    Except PevmError (List PevmTxExecutionResult) :=
  m.lazyAddresses.foldlM (vm.evaluateAddress m) (cumulateGas 0 results)

end Vm

end Pevm
