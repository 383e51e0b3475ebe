import Pevm.Execute
import Pevm.Sequential

/-!
# `Pevm::execute`

The entry point (`pevm.rs`) takes a block in Alloy's format. The chain gives its header a spec id
(`get_block_spec`) and its transactions their environments (`get_tx_env`), and the block is executed
sequentially or in parallel.

Alloy's types have the fields and accessors that are read. `get_block_spec` of neither chain fails
(its error type is `Infallible`), so that it is a plain function here.
-/

namespace Pevm

open Interleaving

/-! ## Blocks -/

structure Header where
  number : BitVec 64
  timestamp : BitVec 64
  beneficiary : Address
  gasUsed : BitVec 64
  baseFeePerGas : Option (BitVec 64)

inductive BlockTransactions (R : Type) where
  | full (txs : List R)
  | hashes (hashes : List B256)
  | uncle

/-- `Block` of Alloy. -/
structure AlloyBlock (R : Type) where
  header : Header
  transactions : BlockTransactions R

/-- `get_block_env`. The other fields only go into revm. -/
def getBlockEnv (header : Header) : BlockEnv :=
  ⟨header.beneficiary, header.baseFeePerGas.getD 0⟩

/-! ## Transactions -/

/-- `EthereumTransactionParsingError` and `RiseTransactionParsingError`. -/
inductive TransactionParsingError where
  | missingGasPrice
  deriving DecidableEq

inductive TxType where
  | legacy
  | eip2930
  | eip1559
  | eip4844
  | eip7702
  deriving DecidableEq

inductive OpTxType where
  | legacy
  | eip2930
  | eip1559
  | eip7702
  | deposit
  | postExec
  deriving DecidableEq

/-- A transaction as its accessors return it. -/
structure RpcTransaction (K : Type) where
  txType : K
  signer : Address
  gasLimit : BitVec 64
  gasPrice : Option (BitVec 128)
  maxFeePerGas : BitVec 128
  maxPriorityFeePerGas : Option (BitVec 128)
  kind : TxKind
  value : U256
  nonce : BitVec 64
  blobVersionedHashes : Option (List B256)
  maxFeePerBlobGas : Option (BitVec 128)
  authorizationList : Option (List Authorization)

structure OpRpcTransaction extends RpcTransaction OpTxType where
  /-- the mint of `as_deposit` -/
  depositMint : Option (BitVec 128)

/-- `ok_or(MissingGasPrice)`. -/
def gasPriceOrMissing (gasPrice : Option (BitVec 128)) :
    Except TransactionParsingError (BitVec 128) :=
  match gasPrice with
  | some gasPrice => .ok gasPrice
  | none => .error .missingGasPrice

def getEthereumGasPrice (tx : RpcTransaction TxType) :
    Except TransactionParsingError (BitVec 128) :=
  match tx.txType with
  | .legacy | .eip2930 => gasPriceOrMissing tx.gasPrice
  | .eip1559 | .eip4844 | .eip7702 => .ok tx.maxFeePerGas

def getGasPrice (tx : OpRpcTransaction) : Except TransactionParsingError (BitVec 128) :=
  match tx.txType with
  | .legacy | .eip2930 => gasPriceOrMissing tx.gasPrice
  | .eip1559 | .eip7702 => .ok tx.maxFeePerGas
  | .deposit | .postExec => .ok 0

/-- The `TxEnv` of `get_tx_env`, which is the same for both chains but for the gas price. -/
def RpcTransaction.txEnv {K : Type} (tx : RpcTransaction K) (gasPrice : BitVec 128) : TxEnv where
  caller := tx.signer
  gasLimit := tx.gasLimit
  gasPrice := gasPrice
  gasPriorityFee := tx.maxPriorityFeePerGas
  kind := tx.kind
  value := tx.value
  nonce := tx.nonce
  blobHashes := tx.blobVersionedHashes.getD []
  maxFeePerBlobGas := tx.maxFeePerBlobGas.getD 0
  authorizationList := tx.authorizationList.getD []

def PevmEthereum.getTxEnv (tx : RpcTransaction TxType) : Except TransactionParsingError TxEnv := do
  let gasPrice ← getEthereumGasPrice tx
  .ok (tx.txEnv gasPrice)

def PevmRise.getTxEnv (tx : OpRpcTransaction) : Except TransactionParsingError OpTransaction := do
  let gasPrice ← getGasPrice tx
  .ok ⟨tx.txEnv gasPrice, decide (tx.txType = .deposit), tx.depositMint⟩

/-! ## Spec ids -/

/-- The spec ids of revm that the blocks of mainnet have, from the earliest to the latest. -/
structure MainnetSpecs (S : Type) [LinearOrder S] extends HardForks S where
  frontier : S
  homestead : S
  tangerine : S
  byzantium : S
  petersburg : S
  istanbul : S
  berlin : S
  merge : S
  shanghai : S
  cancun : S
  increasing : [frontier, homestead, tangerine, spuriousDragon, byzantium, petersburg, istanbul,
    berlin, london, merge, shanghai, cancun].Pairwise (· < ·)

def PevmEthereum.getBlockSpec {S : Type} [LinearOrder S] (specs : MainnetSpecs S)
    (header : Header) : S :=
  if 1710338135 ≤ header.timestamp then specs.cancun
  else if 1681338455 ≤ header.timestamp then specs.shanghai
  else if 15537394 ≤ header.number then specs.merge
  else if 12965000 ≤ header.number then specs.london
  else if 12244000 ≤ header.number then specs.berlin
  else if 9069000 ≤ header.number then specs.istanbul
  else if 7280000 ≤ header.number then specs.petersburg
  else if 4370000 ≤ header.number then specs.byzantium
  else if 2675000 ≤ header.number then specs.spuriousDragon
  else if 2463000 ≤ header.number then specs.tangerine
  else if 1150000 ≤ header.number then specs.homestead
  else specs.frontier

/-- RISE launched as `JOVIAN`. -/
def PevmRise.getBlockSpec {S : Type} (jovian : S) (_ : Header) : S := jovian

/-! ## The entry point -/

/-- What `Pevm::execute` is given besides the block: the chain with its revm, and the storage. -/
structure Node (R T S D : Type) where
  chain : PevmChain T
  getBlockSpec : Header → S
  getTxEnv : R → Except TransactionParsingError T
  isEip161Enabled : S → Bool
  storage : Storage
  /-- `hash_deterministic` of a memory location -/
  hash : MemoryLocation → MemoryLocationHash
  /-- revm's run of a transaction, as the workers use it -/
  evm : S → Header → T → EvmProgram
  /-- revm on a `CacheDB`, as `execute_revm_sequential` uses it -/
  sequentialEvm : S → Header → SequentialEvm T D

/-- The errors of `Pevm::execute`. -/
inductive BlockError where
  | missingTransactionData
  | invalidTransaction (err : TransactionParsingError)
  | pevm (err : PevmError)

namespace Node

variable {R T S D : Type} [Inhabited T] (node : Node R T S D)

/-- The execution of the transactions of a block. -/
def vm (header : Header) (txs : List T) : Vm T where
  chain := node.chain
  isEip161Enabled := node.isEip161Enabled (node.getBlockSpec header)
  blockEnv := getBlockEnv header
  blockSize := txs.length
  txs i := txs.getD i default
  storage := node.storage
  hash := node.hash
  evm := node.evm (node.getBlockSpec header) header

def sequential (header : Header) (txs : List T) : PevmResult :=
  (node.vm header txs).executeRevmSequential
    (node.sequentialEvm (node.getBlockSpec header) header)

/-- The transactions of a block, if they are there and can be converted. -/
def txEnvs (block : AlloyBlock R) : Except BlockError (List T) :=
  match block.transactions with
  | .full txs => (txs.mapM node.getTxEnv).mapError .invalidTransaction
  | .hashes _ | .uncle => .error .missingTransactionData

end Node

namespace PevmState

variable {R T S D : Type} [Inhabited T]

/-- One call, with the given interleaving of the workers if there are any. The outer options are those
of `executeRevmParallel`. -/
def execute (p : PevmState) (node : Node R T S D) (block : AlloyBlock R) (concurrencyLevel : Nat)
    (forceSequential : Bool) (schedule : List WorkerId) :
    Option (Option (Except BlockError (List PevmTxExecutionResult)) × PevmState) :=
  match node.txEnvs block with
  | .error err => some (some (.error err), p)
  | .ok txs =>
    if forceSequential || decide (txs.length < concurrencyLevel) ||
        decide (block.header.gasUsed < 4000000) then
      some (some ((node.sequential block.header txs).mapError .pevm), p)
    else
      (p.executeRevmParallel
        ⟨node.vm block.header txs, concurrencyLevel, node.sequential block.header txs⟩ schedule).map
          fun (result, p) => (result.map (Except.mapError .pevm), p)

end PevmState

end Pevm
