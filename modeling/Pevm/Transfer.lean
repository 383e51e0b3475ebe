import Pevm.Evaluation

/-!
# Raw transfers

A call to an address without code, the only kind of transaction that `set_tx` makes lazy, executed
on its own: once with `is_lazy` set, so that `VmDb::basic` mocks its sender and recipient and the
write set has their lazy updates, and once without, so that it is fully evaluated.

`Revm` is what is assumed of revm, which is not in this repository, about such a transaction. The
sender is checked, pays the effective gas cost and its nonce grows by one; each valid
authorization of an EIP-7702 transaction raises the nonce of its authority by one and sets its
code; the value moves from the sender to the recipient. `NoBeneficiaryHandler` runs the defaults of
the mainnet handler, so that this is so of a deposit of the OP stack as well: it mints nothing, and
all that sets it apart is that `has_nonce` has disabled the check of its nonce. The fee rewards are
not part of it: `Vm::execute` adds them to the write set.
-/

namespace Pevm

open Interleaving MvMemory Saturating

/-- An account that the database does not have. -/
def AccountInfo.empty : AccountInfo := ⟨0, 0, keccakEmpty, none⟩

/-- Whether the code of the account delegates to another address. -/
def AccountInfo.isDelegated (info : AccountInfo) : Bool :=
  match info.code with
  | some (.eip7702 _) => true
  | _ => false

/-- What a transaction pays for a unit of gas. -/
def TxEnv.effectiveGasPrice (tx : TxEnv) (basefee : BitVec 64) : BitVec 128 :=
  match tx.gasPriorityFee with
  | some priorityFee =>
    let feeCap := saturatingAdd priorityFee (basefee.setWidth 128)
    if tx.gasPrice ≤ feeCap then tx.gasPrice else feeCap
  | none => tx.gasPrice

/-- The most a transaction can cost its sender. -/
def TxEnv.maxBalanceSpending (tx : TxEnv) : Nat :=
  tx.gasLimit.toNat * tx.gasPrice.toNat + tx.value.toNat +
    tx.totalBlobGas.toNat * tx.maxFeePerBlobGas.toNat

/-! ## The journal -/

/-- An account of the journal. -/
def EvmState.info (state : EvmState) (address : Address) : AccountInfo :=
  ((state.lookup address).map Account.info).getD .empty

/-- Write an account that the journal has loaded. -/
def EvmState.write (state : EvmState) (address : Address) (info : AccountInfo) : EvmState :=
  state.map fun p => if p.1 = address then (p.1, { p.2 with info := info, isTouched := true }) else p

/-- Load an account into the journal, from the database unless it is there. -/
def EvmState.load (state : EvmState) (address : Address) (next : EvmState → EvmProgram) :
    EvmProgram :=
  match state.lookup address with
  | some _ => next state
  | none =>
    .basic address fun info => next (state ++ [(address, ⟨info.getD .empty, [], false, false⟩)])

/-! ## Assumptions on revm -/

/-- What is assumed of revm in a block: the parts that pevm does not see, and what it relies on. -/
structure Revm (blockEnv : BlockEnv) where
  /-- the checks of a transaction, with or without a nonce, that look at no account -/
  check : Bool → TxEnv → Option InvalidTransaction
  gasUsed : TxEnv → BitVec 64
  /-- the price of the blobs -/
  blobFee : TxEnv → U256
  /-- the authority, when it can be recovered and the authorization is one for this chain -/
  authority : Authorization → Option Address
  /-- the code hash of a delegation -/
  delegationHash : Address → B256
  maxFee_lt : ∀ hasNonce tx, check hasNonce tx = none → tx.maxBalanceSpending < 2 ^ 256
  /-- the price of gas is checked of the types of transactions that have a nonce -/
  basefee_le : ∀ tx, check true tx = none → blockEnv.basefee.toNat ≤ tx.gasPrice.toNat
  gasUsed_le : ∀ hasNonce tx, check hasNonce tx = none → (gasUsed tx).toNat ≤ tx.gasLimit.toNat
  blobFee_le : ∀ hasNonce tx, check hasNonce tx = none →
    (blobFee tx).toNat ≤ tx.totalBlobGas.toNat * tx.maxFeePerBlobGas.toNat
  authority_nonce : ∀ auth a, authority auth = some a → auth.nonce ≠ BitVec.allOnes 64
  delegationHash_ne : ∀ a, delegationHash a ≠ keccakEmpty

namespace Revm

variable {blockEnv : BlockEnv} (revm : Revm blockEnv)

/-- The checks of the sender. The nonce is not checked of a transaction without one. -/
def checkSender (tx : TxEnv) (hasNonce : Bool) (sender : AccountInfo) : Option InvalidTransaction :=
  if !sender.isEmptyCodeHash && !sender.isDelegated then some .rejectCallerWithCode
  else if hasNonce && sender.nonce < tx.nonce then some (.nonceTooHigh tx.nonce sender.nonce)
  else if hasNonce && tx.nonce < sender.nonce then some (.nonceTooLow tx.nonce sender.nonce)
  else if sender.balance.toNat < tx.maxBalanceSpending then
    some (.lackOfFundForMaxFee (BitVec.ofNat 256 tx.maxBalanceSpending) sender.balance)
  else none

/-- The effective gas cost. -/
def cost (tx : TxEnv) : U256 :=
  (tx.effectiveGasPrice blockEnv.basefee).setWidth 256 * (revm.gasUsed tx).setWidth 256 +
    revm.blobFee tx

/-- The sender after it was charged. -/
def charge (tx : TxEnv) (sender : AccountInfo) : AccountInfo :=
  { sender with
    balance := sender.balance - revm.cost tx
    nonce := sender.nonce + 1 }

/-- Whether an authorization is valid for its authority. -/
def accepts (auth : Authorization) (authority : AccountInfo) : Bool :=
  (authority.isEmptyCodeHash || authority.isDelegated) && authority.nonce = auth.nonce

/-- The authority after a valid authorization. A delegation to the zero address clears it. -/
def delegate (auth : Authorization) (authority : AccountInfo) : AccountInfo :=
  { authority with
    nonce := authority.nonce + 1
    codeHash := if auth.address = 0 then keccakEmpty else revm.delegationHash auth.address
    code := some (if auth.address = 0 then .default else .eip7702 auth.address) }

/-- Apply the authorization list. -/
def authorize : List Authorization → EvmState → (EvmState → EvmProgram) → EvmProgram
  | [], state, next => next state
  | auth :: rest, state, next =>
    match revm.authority auth with
    | none => authorize rest state next
    | some authority =>
      state.load authority fun state =>
        if accepts auth (state.info authority) then
          authorize rest (state.write authority (revm.delegate auth (state.info authority))) next
        else authorize rest state next

/-- Move the value from the sender to the recipient. -/
def moveValue (tx : TxEnv) (recipient : Address) (state : EvmState) : EvmState :=
  let sender := state.info tx.caller
  let state := state.write tx.caller { sender with balance := sender.balance - tx.value }
  let account := state.info recipient
  state.write recipient { account with balance := account.balance + tx.value }

/-- The run of a raw transfer. -/
def transfer (tx : TxEnv) (hasNonce : Bool) (recipient : Address) : EvmProgram :=
  match revm.check hasNonce tx with
  | some err => .fail (.transaction err)
  | none =>
    EvmState.load [] tx.caller fun state =>
      let sender := state.info tx.caller
      match checkSender tx hasNonce sender with
      | some err => .fail (.transaction err)
      | none =>
        revm.authorize tx.authorizationList
          (state.write tx.caller (revm.charge tx sender)) fun state =>
          state.load recipient fun state =>
            -- a call without the funds for its value fails; those that passed the checks have them
            if (state.info tx.caller).balance < tx.value then
              .finish ⟨false, revm.gasUsed tx, []⟩ state
            else .finish ⟨true, revm.gasUsed tx, []⟩ (moveValue tx recipient state)

end Revm

/-! ## A transfer on its own -/

/-- The accounts before a transaction. -/
structure PreState where
  basic : Address → Option AccountBasic
  codeHash : Address → Option B256
  code : B256 → Option Bytecode

/-- A storage with these accounts that never fails. -/
def PreState.storage (pre : PreState) : Storage where
  basic := fun address => .ok (pre.basic address)
  codeHash := fun address => .ok (pre.codeHash address)
  codeByHash := fun hash => .ok (pre.code hash)
  storage := fun _ _ => .ok 0
  blockHash := fun _ => .ok 0

/-- The balance and nonce of an account, zero when there is none. -/
def PreState.account (pre : PreState) (address : Address) : AccountBasic :=
  (pre.basic address).getD .default

/-- The chains of this repository, with whether EIP-161 is enabled: on Ethereum this depends on the
spec. -/
inductive SourceChain : {T : Type} → PevmChain T → Bool → Prop where
  | ethereum (isEip161Enabled : Bool) : SourceChain PevmEthereum isEip161Enabled
  | rise : SourceChain PevmRise true

/-- The locations of the accounts of these addresses. -/
def accountLocations (addresses : List Address) : Set MemoryLocation :=
  { l | ∃ a ∈ addresses, l = .basic a ∨ l = .codeHash a }

/-- A transaction that `set_tx` may make lazy, with the accounts before it. -/
structure Transfer (T : Type) where
  chain : PevmChain T
  isEip161Enabled : Bool
  source : SourceChain chain isEip161Enabled
  blockEnv : BlockEnv
  revm : Revm blockEnv
  tx : T
  recipient : Address
  kind : (chain.txEnv tx).kind = .call recipient
  /-- a deposit carries no authorizations -/
  depositPlain : chain.hasNonce tx = false → (chain.txEnv tx).authorizationList = []
  pre : PreState
  /-- the nonce of the sender can grow by one -/
  senderNonce : (pre.account (chain.txEnv tx).caller).nonce ≠ BitVec.allOnes 64
  recipientCode : pre.codeHash recipient = none
  /-- the recipient can gain the value -/
  recipientGains : recipient ≠ (chain.txEnv tx).caller →
    (pre.account recipient).balance.toNat + (chain.txEnv tx).value.toNat < 2 ^ 256
  hash : MemoryLocation → MemoryLocationHash
  hashInjective : Set.InjOn hash (accountLocations ((chain.txEnv tx).caller :: recipient ::
    ((chain.txEnv tx).authorizationList.filterMap revm.authority ++ chain.lazyAddresses blockEnv)))

namespace Transfer

variable {T : Type} (t : Transfer T)

def env : TxEnv := t.chain.txEnv t.tx

/-- A transaction without a nonce is a deposit. -/
def hasNonce : Bool := t.chain.hasNonce t.tx

/-- The accounts the transaction may touch: sender, recipient, authorities and fee recipients. -/
def accounts : List Address :=
  t.env.caller :: t.recipient ::
    (t.env.authorizationList.filterMap t.revm.authority ++ t.chain.lazyAddresses t.blockEnv)

/-- The block of this one transaction. -/
def vm : Vm T where
  chain := t.chain
  isEip161Enabled := t.isEip161Enabled
  blockEnv := t.blockEnv
  blockSize := 1
  txs := fun _ => t.tx
  storage := t.pre.storage
  hash := t.hash
  evm := fun tx => t.revm.transfer (t.chain.txEnv tx) (t.chain.hasNonce tx) t.recipient

end Transfer

/-- What an execution ends with: an error, or the arguments of `record` and the result. -/
abbrev ExecutionOutcome :=
  Except (VmExecutionError ExecutionError) (ReadSet × WriteSet × PevmTxExecutionResult)

/-- An execution with no other worker in between, as an operation on the memory. -/
def Vm.executeAlone {T : Type} (vm : Vm T) (v : TxVersion) (m : MvMemory) (x : Vm.Execution) :
    Option (MvMemory × Control Vm.Execution ExecutionOutcome) :=
  match vm.executeStep v m x with
  | .run x => some (m, .goto x)
  | .addNewBytecode hash code x => some (m.addNewBytecode hash code, .goto x)
  | .addLazyAddresses addresses x => some (m.addLazyAddresses addresses, .goto x)
  | .record readSet writeSet _ result => some (m, .ret (.ok (readSet, writeSet, result)))
  | .error err => some (m, .ret (.error err))

namespace Transfer

variable {T : Type} (t : Transfer T)

/-- The version of the only transaction. -/
def version : TxVersion := ⟨0, 0⟩

/-- The initial multi-version memory of the block. -/
def memory : MvMemory :=
  MvMemory.new (t.chain.estimatedLocations t.hash t.blockEnv [t.tx])
    (t.chain.lazyAddresses t.blockEnv)

/-- The execution after `set_tx` read the code hash of the recipient and decided on `is_lazy`. -/
def execution (isLazy : Bool) : Vm.Execution where
  db :=
    { t.vm.startDb version with
      isLazy := isLazy
      readSet := [(t.hash (.codeHash t.recipient), [.storage])] }
  pc := .run (t.vm.evm t.tx)

/-- The transaction executes, is recorded as the first incarnation and its results are evaluated:
the block is accepted with this memory and these results. -/
structure Accepted (isLazy : Bool) (m : MvMemory) (results : List PevmTxExecutionResult) :
    Prop where
  accepted : ∃ m₁ readSet writeSet result wroteNewLocation,
    Completes (t.vm.executeAlone version) t.memory (t.execution isLazy) m₁
      (.ok (readSet, writeSet, result)) ∧
    Completes (fun m pc => m.recordStep 0 version readSet writeSet pc) m₁ .lock m
      wroteNewLocation ∧
    t.vm.evaluateResults m [result] = .ok results

/-- The balance and nonce that the memory has for an account after the transaction. -/
def recordedBasic (m : MvMemory) (address : Address) : AccountBasic :=
  match m.entry (t.hash (.basic address)) 0 with
  | some (.data _ (.basic account)) => account
  | some (.data _ (.lazyRecipient addition)) =>
    { t.pre.account address with
      balance := saturatingAdd (t.pre.account address).balance addition }
  | some (.data _ (.lazySender subtraction)) =>
    ⟨saturatingSub (t.pre.account address).balance subtraction, (t.pre.account address).nonce + 1⟩
  | _ => t.pre.account address

/-- The code hash that the memory has for an account after the transaction. -/
def recordedCodeHash (m : MvMemory) (address : Address) : Option B256 :=
  match m.entry (t.hash (.codeHash address)) 0 with
  | some (.data _ (.codeHash codeHash)) => some codeHash
  | _ => t.pre.codeHash address

/-- What the results say about an account: nothing, that it is removed, or what it is. -/
def returned (results : List PevmTxExecutionResult) (address : Address) :
    Option (Option EvmAccount) :=
  results.head?.bind fun result => result.state.lookup address

/-- **The two paths agree**: the lazy path accepts the transaction exactly when the full path does,
and then both return and record the same balance, nonce and code of every account. -/
structure PathsAgree : Prop where
  accepted : (∃ m results, t.Accepted true m results) ↔ ∃ m results, t.Accepted false m results
  returned : ∀ m results m' results', t.Accepted true m results → t.Accepted false m' results' →
    ∀ a, returned results a = returned results' a
  recorded : ∀ m results m' results', t.Accepted true m results → t.Accepted false m' results' →
    ∀ a ∈ t.accounts, t.recordedBasic m a = t.recordedBasic m' a ∧
      t.recordedCodeHash m a = t.recordedCodeHash m' a

end Transfer

end Pevm
