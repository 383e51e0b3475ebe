import Pevm.Primitives

/-!
# The EVM and its database

What pevm uses of revm and of the chain storage (`storage.rs`): accounts, transaction and
block environments, the `Storage` interface, and the execution of one transaction.

revm itself is not part of this repository. Its run of one transaction is a deterministic
function of the answers of its `Database`, and is taken as such: an `EvmProgram` is either
about to ask the database a question, with the continuation for every answer, or has ended.
-/

namespace Pevm

/-- The code hash of an account without code. -/
def keccakEmpty : B256 := 0xc5d2460186f7233c927e7db2dcc703c0e500b653ca82273b7bfad8045d85a470

/-- `Bytecode::default`. -/
def Bytecode.default : Bytecode := .legacy ⟨[0], 0⟩

structure AccountInfo where
  balance : U256
  nonce : BitVec 64
  codeHash : B256
  code : Option Bytecode
  deriving DecidableEq

namespace AccountInfo

def isEmptyCodeHash (info : AccountInfo) : Bool :=
  info.codeHash = keccakEmpty

def isEmpty (info : AccountInfo) : Bool :=
  (info.isEmptyCodeHash || info.codeHash = 0) && info.balance = 0 && info.nonce = 0

end AccountInfo

structure StorageSlot where
  originalValue : U256
  presentValue : U256
  deriving DecidableEq

/-- An account of the journal after a transaction. -/
structure Account where
  info : AccountInfo
  storage : List (U256 × StorageSlot)
  isTouched : Bool
  isSelfdestructed : Bool
  deriving DecidableEq

namespace Account

def isEmpty (account : Account) : Bool :=
  account.info.isEmpty

def changedStorageSlots (account : Account) : List (U256 × StorageSlot) :=
  account.storage.filter fun p => p.2.originalValue ≠ p.2.presentValue

end Account

/-- The journal of a finished transaction, one entry per address, in iteration order. -/
abbrev EvmState := List (Address × Account)

inductive TxKind where
  | create
  | call (recipient : Address)
  deriving DecidableEq, Inhabited

/-- `TxKind::to`. -/
def TxKind.recipient : TxKind → Option Address
  | .create => none
  | .call recipient => some recipient

/-- An entry of an EIP-7702 authorization list; the authority is missing when it cannot be
recovered from the signature. -/
structure Authorization where
  chainId : U256
  address : Address
  nonce : BitVec 64
  authority : Option Address
  deriving DecidableEq

structure TxEnv where
  caller : Address
  gasLimit : BitVec 64
  gasPrice : BitVec 128
  gasPriorityFee : Option (BitVec 128)
  kind : TxKind
  value : U256
  nonce : BitVec 64
  blobHashes : List B256
  maxFeePerBlobGas : BitVec 128
  authorizationList : List Authorization
  deriving DecidableEq, Inhabited

/-- `GAS_PER_BLOB` per blob. -/
def TxEnv.totalBlobGas (tx : TxEnv) : BitVec 64 :=
  BitVec.ofNat 64 (131072 * tx.blobHashes.length)

structure BlockEnv where
  beneficiary : Address
  basefee : BitVec 64

structure Log where
  address : Address
  topics : List B256
  data : List (BitVec 8)
  deriving DecidableEq

structure ExecutionResult where
  isSuccess : Bool
  txGasUsed : BitVec 64
  logs : List Log
  deriving DecidableEq

inductive InvalidTransaction where
  | lackOfFundForMaxFee (fee balance : U256)
  | nonceTooHigh (tx state : BitVec 64)
  | nonceTooLow (tx state : BitVec 64)
  | rejectCallerWithCode
  | other (message : String)
  deriving DecidableEq

/-- The errors of revm that do not come from its database. -/
inductive EvmError where
  | transaction (err : InvalidTransaction)
  | header (message : String)
  | custom (message : String)
  deriving DecidableEq

/-- The run of one transaction by revm. -/
inductive EvmProgram where
  | basic (address : Address) (next : Option AccountInfo → EvmProgram)
  | codeByHash (codeHash : B256) (next : Bytecode → EvmProgram)
  | storage (address : Address) (index : U256) (next : U256 → EvmProgram)
  | blockHash (number : BitVec 64) (next : B256 → EvmProgram)
  | finish (result : ExecutionResult) (state : EvmState)
  | fail (err : EvmError)

/-- The `Storage` interface. The error of a query is its message. -/
structure Storage where
  basic : Address → Except String (Option AccountBasic)
  codeHash : Address → Except String (Option B256)
  codeByHash : B256 → Except String (Option Bytecode)
  storage : Address → U256 → Except String U256
  blockHash : BitVec 64 → Except String B256

/-! ## Results -/

structure EvmAccount where
  balance : U256
  nonce : BitVec 64
  codeHash : Option B256
  code : Option Bytecode
  storage : List (U256 × U256)
  deriving DecidableEq

/-- `EvmAccount::from(Account)`. -/
def EvmAccount.ofAccount (account : Account) : EvmAccount :=
  let hasCode := !account.info.isEmptyCodeHash
  { balance := account.info.balance
    nonce := account.info.nonce
    codeHash := if hasCode then some account.info.codeHash else none
    code := if hasCode then account.info.code else none
    storage := account.storage.map fun p => (p.1, p.2.presentValue) }

structure Receipt where
  status : Bool
  cumulativeGasUsed : BitVec 64
  logs : List Log
  deriving DecidableEq

/-- The accounts a transaction changed; `none` marks an account for removal. -/
abbrev EvmStateTransitions := List (Address × Option EvmAccount)

structure PevmTxExecutionResult where
  receipt : Receipt
  state : EvmStateTransitions
  deriving DecidableEq

def receiptFromRevm (result : ExecutionResult) : Receipt :=
  ⟨result.isSuccess, result.txGasUsed, result.logs⟩

def stateTransitionsFromRevm (isEip161Enabled : Bool) (state : EvmState) : EvmStateTransitions :=
  (state.filter fun p => p.2.isTouched).map fun (address, account) =>
    if account.isSelfdestructed || account.isEmpty && isEip161Enabled then (address, none)
    else (address, some (EvmAccount.ofAccount account))

end Pevm
