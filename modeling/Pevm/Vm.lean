import Pevm.Chain
import Pevm.Worker

/-!
# The execution of one transaction

`vm.rs`: `VmDb`, the database that answers the reads of one transaction from the multi-version
memory and the storage and keeps its read set, and `Vm::execute`, which runs the transaction on
it and turns the outcome into a write set.

`Vm.executor` is `Vm::execute` up to `MvMemory::record` as an `Executor`. Every access to the
multi-version memory is one atomic step: the entries of a location below the transaction are
read under one guard, a code hash and a new bytecode under another.
-/

namespace Pevm

open Interleaving MvMemory Saturating

inductive ReadError where
  | storageError (message : String)
  | blocking (txIdx : Nat)
  | inconsistentRead
  | invalidNonce (txIdx : Nat)
  | selfDestructedAccount
  | invalidMemoryValueType
  deriving DecidableEq

/-- `EVMError<ReadError>`. -/
inductive ExecutionError where
  | evm (err : EvmError)
  | database (err : ReadError)
  deriving DecidableEq

/-- `VmExecutionError::from(ReadError)`. -/
def VmExecutionError.ofReadError : ReadError → VmExecutionError ExecutionError
  | .inconsistentRead => .retry
  | .selfDestructedAccount => .fallbackToSequential
  | .blocking txIdx => .blocking txIdx
  | err => .executionError (.database err)

/-- The state a database keeps for its transaction. The index of the transaction is an argument
of the reads. -/
structure VmDb where
  tx : TxEnv
  fromHash : MemoryLocationHash
  toHash : Option MemoryLocationHash
  toCodeHash : Option B256
  /-- whether this transaction is updated lazily -/
  isLazy : Bool
  hasNonce : Bool
  readSet : ReadSet
  readAccounts : List (MemoryLocationHash × (AccountBasic × Option B256))

/-- The block-level state of a `Vm`. The transactions are indexed without a check. -/
structure Vm (T : Type) where
  chain : PevmChain T
  isEip161Enabled : Bool
  blockEnv : BlockEnv
  blockSize : Nat
  txs : Nat → T
  storage : Storage
  /-- `hash_deterministic` of a memory location -/
  hash : MemoryLocation → MemoryLocationHash
  /-- revm's run of a transaction, without the reward of the beneficiary -/
  evm : T → EvmProgram

/-- Push a new origin. An origin that differs from the one already there forces a
re-execution. -/
def pushOrigin (readOrigins : ReadOrigins) (origin : ReadOrigin) : Except ReadError ReadOrigins :=
  match readOrigins.getLast? with
  | some prevOrigin => if prevOrigin ≠ origin then .error .inconsistentRead else .ok readOrigins
  | none => .ok (readOrigins ++ [origin])

/-- The mock of the sender of a lazy transaction. -/
def VmDb.mockSender (db : VmDb) : AccountInfo where
  balance := U256.max
  nonce := db.tx.nonce
  codeHash := keccakEmpty
  code := none

/-- What `basic` accumulates while it walks down the entries of an account. -/
structure LazyEvaluation where
  newOrigins : ReadOrigins
  finalAccount : Option AccountBasic
  balanceAddition : U256
  positiveAddition : Bool
  nonceAddition : BitVec 64

namespace LazyEvaluation

def start : LazyEvaluation := ⟨[], none, 0, true, 0⟩

/-- Add the addition of a lazy recipient. -/
def addRecipient (acc : LazyEvaluation) (addition : U256) : LazyEvaluation :=
  if acc.positiveAddition then
    { acc with balanceAddition := saturatingAdd acc.balanceAddition addition }
  else
    { acc with
      positiveAddition := acc.balanceAddition ≤ addition
      balanceAddition := absDiff acc.balanceAddition addition }

/-- Add the subtraction of a lazy sender. -/
def addSender (acc : LazyEvaluation) (subtraction : U256) : LazyEvaluation :=
  if acc.positiveAddition then
    { acc with
      positiveAddition := subtraction ≤ acc.balanceAddition
      balanceAddition := absDiff acc.balanceAddition subtraction
      nonceAddition := acc.nonceAddition + 1 }
  else
    { acc with
      balanceAddition := saturatingAdd acc.balanceAddition subtraction
      nonceAddition := acc.nonceAddition + 1 }

/-- The loop of `basic` over the entries below the reader. The new origins must agree with the
previous ones if there are any. -/
def walk (readOrigins : ReadOrigins) :
    List (Nat × MemoryEntry) → LazyEvaluation → Except ReadError LazyEvaluation
  | [], acc => .ok acc
  | (blockingIdx, .estimate) :: _, _ => .error (.blocking blockingIdx)
  | (closestIdx, .data txIncarnation value) :: entries, acc =>
    let origin := ReadOrigin.mvMemory ⟨closestIdx, txIncarnation⟩
    if readOrigins ≠ [] ∧ readOrigins[acc.newOrigins.length]? ≠ some origin then
      .error .inconsistentRead
    else
      let acc := { acc with newOrigins := acc.newOrigins ++ [origin] }
      match value with
      | .basic account => .ok { acc with finalAccount := some account }
      | .lazyRecipient addition => walk readOrigins entries (acc.addRecipient addition)
      | .lazySender subtraction => walk readOrigins entries (acc.addSender subtraction)
      | _ => .error .invalidMemoryValueType

/-- The lazy updates applied to the account they start from. -/
def apply (eval : LazyEvaluation) (account : AccountBasic) : AccountBasic where
  balance :=
    if eval.positiveAddition then saturatingAdd account.balance eval.balanceAddition
    else saturatingSub account.balance eval.balanceAddition
  nonce := account.nonce + eval.nonceAddition

end LazyEvaluation

namespace Vm

variable {T : Type} (vm : Vm T)

/-! ## `VmDb` -/

def hashBasic (db : VmDb) (address : Address) : MemoryLocationHash :=
  if address = db.tx.caller then db.fromHash
  else if db.tx.kind.recipient = some address then db.toHash.getD 0
  else vm.hash (.basic address)

def getCodeHash (m : MvMemory) (txIdx : Nat) (db : VmDb) (address : Address) :
    Except ReadError (VmDb × Option B256) := do
  let location := vm.hash (.codeHash address)
  let readOrigins := db.readSet.origins location
  let fallback : Except ReadError (VmDb × Option B256) := do
    let readOrigins ← pushOrigin readOrigins .storage
    let codeHash ← (vm.storage.codeHash address).mapError .storageError
    .ok ({ db with readSet := db.readSet.insert location readOrigins }, codeHash)
  match (m.entriesBelow location txIdx).head? with
  | some (closestIdx, .data txIncarnation value) =>
    match value with
    | .selfDestructed => .error .selfDestructedAccount
    | .codeHash codeHash => do
      let readOrigins ← pushOrigin readOrigins (.mvMemory ⟨closestIdx, txIncarnation⟩)
      .ok ({ db with readSet := db.readSet.insert location readOrigins }, some codeHash)
    | _ => fallback
  | _ => fallback

/-- Fall back to the storage when the walk found no absolute value. -/
def fallBackToStorage (readOrigins : ReadOrigins) (address : Address) (eval : LazyEvaluation) :
    Except ReadError LazyEvaluation :=
  match eval.finalAccount with
  | some _ => .ok eval
  | none =>
    let newOrigins := eval.newOrigins ++ [.storage]
    -- populate the storage origin on the first read, else the origins must end in it
    if readOrigins ≠ [] ∧ (readOrigins.length ≠ newOrigins.length ∨
        readOrigins.getLast? ≠ some .storage) then
      .error .inconsistentRead
    else
      match vm.storage.basic address with
      | .ok (some account) =>
        .ok { eval with newOrigins := newOrigins, finalAccount := some account }
      | .ok none =>
        .ok { eval with
          newOrigins := newOrigins
          finalAccount := if 0 < eval.balanceAddition then some .default else none }
      | .error message => .error (.storageError message)

/-- The sender must have the nonce of the transaction. -/
def checkNonce (txIdx : Nat) (db : VmDb) (location : MemoryLocationHash) (nonce : BitVec 64) :
    Except ReadError Unit :=
  if db.hasNonce ∧ location = db.fromHash ∧ db.tx.nonce ≠ nonce then
    if 0 < txIdx then .error (.blocking (txIdx - 1)) else .error (.invalidNonce txIdx)
  else .ok ()

/-- `basic` up to the code of the account: the account with every lazy update applied. -/
def readBasic (m : MvMemory) (txIdx : Nat) (db : VmDb) (address : Address) :
    Except ReadError (VmDb × Option AccountBasic) := do
  let location := vm.hashBasic db address
  let readOrigins := db.readSet.origins location
  let eval ← LazyEvaluation.walk readOrigins (m.entriesBelow location txIdx) .start
  let eval ← vm.fallBackToStorage readOrigins address eval
  let db :=
    if readOrigins = [] then { db with readSet := db.readSet.insert location eval.newOrigins }
    else db
  match eval.finalAccount with
  | none => .ok (db, none)
  | some account => do
    let account := eval.apply account
    checkNonce txIdx db location account.nonce
    .ok (db, some account)

/-- The code of a hash found by `basic`: deployed in this block, or from storage. -/
def readCode (m : MvMemory) (codeHash : Option B256) : Except ReadError (Option Bytecode) :=
  match codeHash with
  | none => .ok none
  | some hash =>
    match m.newBytecodes hash with
    | some code => .ok (some code)
    | none => (vm.storage.codeByHash hash).mapError .storageError

/-- `VmDb::basic` with nothing interleaved. -/
def basic (m : MvMemory) (txIdx : Nat) (db : VmDb) (address : Address) :
    Except ReadError (VmDb × Option AccountInfo) := do
  let location := vm.hashBasic db address
  if db.isLazy ∧ location = db.fromHash then .ok (db, some db.mockSender)
  else if db.isLazy ∧ some location = db.toHash then .ok (db, none)
  else
    let (db, account) ← vm.readBasic m txIdx db address
    match account with
    | none => .ok (db, none)
    | some account => do
      let (db, codeHash) ←
        if some location = db.toHash then .ok (db, db.toCodeHash)
        else vm.getCodeHash m txIdx db address
      let code ← vm.readCode m codeHash
      .ok ({ db with readAccounts := (location, (account, codeHash)) :: db.readAccounts },
        some ⟨account.balance, account.nonce, codeHash.getD keccakEmpty, code⟩)

/-- `code_by_hash`. -/
def codeByHash (hash : B256) : Except ReadError Bytecode := do
  let code ← (vm.storage.codeByHash hash).mapError .storageError
  .ok (code.getD .default)

def readStorage (m : MvMemory) (txIdx : Nat) (db : VmDb) (address : Address) (index : U256) :
    Except ReadError (VmDb × U256) := do
  let location := vm.hash (.storage address index)
  let readOrigins := db.readSet.origins location
  match (m.entriesBelow location txIdx).head? with
  | some (closestIdx, .data txIncarnation (.storage value)) => do
    let readOrigins ← pushOrigin readOrigins (.mvMemory ⟨closestIdx, txIncarnation⟩)
    .ok ({ db with readSet := db.readSet.insert location readOrigins }, value)
  | some (closestIdx, .estimate) => .error (.blocking closestIdx)
  | some _ => .error .invalidMemoryValueType
  | none => do
    let readOrigins ← pushOrigin readOrigins .storage
    let value ← (vm.storage.storage address index).mapError .storageError
    .ok ({ db with readSet := db.readSet.insert location readOrigins }, value)

/-! ## The write set -/

/-- The account had no code when it was read (or was not read) and has one now. -/
def isNewCode (db : VmDb) (address : Address) (account : Account) : Bool :=
  !account.info.isEmptyCodeHash &&
    match db.readAccounts.lookup (vm.hash (.basic address)) with
    | none => true
    | some (_, codeHash) => codeHash.isNone

/-- The account has another balance or nonce than when it was read, or was not read. -/
def isChanged (db : VmDb) (address : Address) (account : Account) : Bool :=
  match db.readAccounts.lookup (vm.hash (.basic address)) with
  | none => true
  | some (basic, _) => basic.nonce ≠ account.info.nonce ∨ basic.balance ≠ account.info.balance

/-- The write of the balance and nonce of a touched account. -/
def basicWrites (db : VmDb) (address : Address) (account : Account) : WriteSet :=
  let location := vm.hash (.basic address)
  if vm.isNewCode db address account || vm.isChanged db address account then
    if db.isLazy then
      if location = db.fromHash then [(location, .lazySender (U256.max - account.info.balance))]
      else if some location = db.toHash then [(location, .lazyRecipient db.tx.value)]
      else []
    -- an empty account is cleared, not written
    else if !vm.isEip161Enabled || !account.isEmpty then
      [(location, .basic ⟨account.info.balance, account.info.nonce⟩)]
    else []
  else []

/-- The writes of one account of the journal. -/
def accountWrites (db : VmDb) (address : Address) (account : Account) : WriteSet :=
  if account.isSelfdestructed then [(vm.hash (.codeHash address), .selfDestructed)]
  else
    (if account.isTouched then
      vm.basicWrites db address account ++
        if vm.isNewCode db address account then
          [(vm.hash (.codeHash address), .codeHash account.info.codeHash)]
        else []
    else []) ++
    account.changedStorageSlots.map fun (slot, value) =>
      (vm.hash (.storage address slot), .storage value.presentValue)

/-- The bytecodes a transaction deployed. -/
def newBytecodes (db : VmDb) (state : EvmState) : List (B256 × Bytecode) :=
  state.filterMap fun (address, account) =>
    if !account.isSelfdestructed && account.isTouched && vm.isNewCode db address account then
      account.info.code.map fun code => (account.info.codeHash, code)
    else none

/-- The price the rewards are computed with. -/
def rewardGasPrice (tx : TxEnv) : BitVec 128 :=
  let basefee := vm.blockEnv.basefee.setWidth 128
  let gasPrice :=
    match tx.gasPriorityFee with
    | some priorityFee =>
      let feeCap := saturatingAdd priorityFee basefee
      if tx.gasPrice ≤ feeCap then tx.gasPrice else feeCap
    | none => tx.gasPrice
  if vm.isEip161Enabled then saturatingSub gasPrice basefee else gasPrice

/-- Add a reward to the write of its recipient, or write it lazily. -/
def addReward (recipient : MemoryLocationHash) (amount : U256) :
    WriteSet → Except ReadError WriteSet
  | [] => .ok [(recipient, .lazyRecipient amount)]
  | (location, value) :: rest =>
    if location = recipient then
      match value with
      | .basic account =>
        .ok ((location, .basic { account with balance := saturatingAdd account.balance amount }) ::
          rest)
      | .lazySender subtraction =>
        .ok ((location, .lazySender (saturatingSub subtraction amount)) :: rest)
      | .lazyRecipient addition =>
        .ok ((location, .lazyRecipient (saturatingAdd addition amount)) :: rest)
      | _ => .error .invalidMemoryValueType
    else (addReward recipient amount rest).map ((location, value) :: ·)

/-- The write set of a finished transaction, rewards included. -/
def writeSet (db : VmDb) (tx : T) (result : ExecutionResult) (state : EvmState) :
    Except ReadError WriteSet :=
  let rewards := vm.chain.getRewards vm.hash (vm.hash (.basic vm.blockEnv.beneficiary))
    (result.txGasUsed.setWidth 256) ((vm.rewardGasPrice db.tx).setWidth 256) vm.blockEnv.basefee tx
  rewards.foldlM (fun writes (recipient, amount) => addReward recipient amount writes)
    (state.flatMap fun (address, account) => vm.accountWrites db address account)

/-! ## `execute` -/

inductive ExecutePc where
  /-- `set_tx`: the code hash of the recipient -/
  | toCodeHash (recipient : Address)
  /-- `set_tx`: whether the sender is in the multi-version memory -/
  | containsFrom
  /-- `set_tx`: whether the recipient is -/
  | containsTo
  | run (program : EvmProgram)
  /-- inside `basic`, about to read the code hash -/
  | basicCodeHash (address : Address) (account : AccountBasic)
      (next : Option AccountInfo → EvmProgram)
  /-- inside `basic`, about to read the code -/
  | basicCode (address : Address) (account : AccountBasic) (codeHash : Option B256)
      (next : Option AccountInfo → EvmProgram)
  /-- the transaction ended, with bytecodes left to register -/
  | finish (result : ExecutionResult) (state : EvmState) (bytecodes : List (B256 × Bytecode))
  /-- about to register the lazy addresses -/
  | addLazyAddresses (result : ExecutionResult) (state : EvmState) (writes : WriteSet)
  | record (result : ExecutionResult) (state : EvmState) (writes : WriteSet)

structure Execution where
  db : VmDb
  pc : ExecutePc

/-- The state `set_tx` starts from. -/
def startDb (v : TxVersion) : VmDb :=
  let tx := vm.chain.txEnv (vm.txs v.txIdx)
  { tx := tx
    fromHash := vm.hash (.basic tx.caller)
    toHash := tx.kind.recipient.map fun a => vm.hash (.basic a)
    toCodeHash := none
    isLazy := false
    hasNonce := vm.chain.hasNonce (vm.txs v.txIdx)
    readSet := []
    readAccounts := [] }

def start (v : TxVersion) : Execution where
  db := vm.startDb v
  pc :=
    match (vm.chain.txEnv (vm.txs v.txIdx)).kind with
    | .call recipient => .toCodeHash recipient
    | .create => .run (vm.evm (vm.txs v.txIdx))

/-- An error of the EVM. A sender without funds or with a nonce gap may be waiting for a lower
transaction. -/
def evmError (v : TxVersion) (err : EvmError) : VmExecutionError ExecutionError :=
  match err with
  | .transaction (.lackOfFundForMaxFee _ _) | .transaction (.nonceTooHigh _ _) =>
    if 0 < v.txIdx then .blocking (v.txIdx - 1) else .executionError (.evm err)
  | _ => .executionError (.evm err)

/-- One step of an execution. -/
def executeStep (v : TxVersion) (m : MvMemory) (x : Execution) :
    ExecStep Execution PevmTxExecutionResult ExecutionError :=
  match x.pc with
  | .toCodeHash recipient =>
    match vm.getCodeHash m v.txIdx x.db recipient with
    | .error err => .error (.ofReadError err)
    | .ok (db, codeHash) =>
      let db := { db with toCodeHash := codeHash }
      match codeHash with
      | some _ => .run ⟨db, .run (vm.evm (vm.txs v.txIdx))⟩
      | none => .run ⟨db, .containsFrom⟩
  | .containsFrom =>
    if (m.data x.db.fromHash).isSome then
      .run ⟨{ x.db with isLazy := true }, .run (vm.evm (vm.txs v.txIdx))⟩
    else .run ⟨x.db, .containsTo⟩
  | .containsTo =>
    let isLazy := x.db.toHash.any fun location => (m.data location).isSome
    .run ⟨{ x.db with isLazy := isLazy }, .run (vm.evm (vm.txs v.txIdx))⟩
  | .run (.basic address next) =>
    let location := vm.hashBasic x.db address
    if x.db.isLazy ∧ location = x.db.fromHash then
      .run ⟨x.db, .run (next (some x.db.mockSender))⟩
    else if x.db.isLazy ∧ some location = x.db.toHash then .run ⟨x.db, .run (next none)⟩
    else
      match vm.readBasic m v.txIdx x.db address with
      | .error err => .error (.ofReadError err)
      | .ok (db, none) => .run ⟨db, .run (next none)⟩
      | .ok (db, some account) =>
        if some location = db.toHash then .run ⟨db, .basicCode address account db.toCodeHash next⟩
        else .run ⟨db, .basicCodeHash address account next⟩
  | .basicCodeHash address account next =>
    match vm.getCodeHash m v.txIdx x.db address with
    | .error err => .error (.ofReadError err)
    | .ok (db, codeHash) => .run ⟨db, .basicCode address account codeHash next⟩
  | .basicCode address account codeHash next =>
    match vm.readCode m codeHash with
    | .error err => .error (.ofReadError err)
    | .ok code =>
      let location := vm.hashBasic x.db address
      let db := { x.db with readAccounts := (location, (account, codeHash)) :: x.db.readAccounts }
      .run ⟨db, .run (next (some
        ⟨account.balance, account.nonce, codeHash.getD keccakEmpty, code⟩))⟩
  | .run (.codeByHash hash next) =>
    match vm.codeByHash hash with
    | .error err => .error (.ofReadError err)
    | .ok code => .run ⟨x.db, .run (next code)⟩
  | .run (.storage address index next) =>
    match vm.readStorage m v.txIdx x.db address index with
    | .error err => .error (.ofReadError err)
    | .ok (db, value) => .run ⟨db, .run (next value)⟩
  | .run (.blockHash number next) =>
    match vm.storage.blockHash number with
    | .error message => .error (.ofReadError (.storageError message))
    | .ok hash => .run ⟨x.db, .run (next hash)⟩
  | .run (.finish result state) =>
    .run ⟨x.db, .finish result state (vm.newBytecodes x.db state)⟩
  | .run (.fail err) => .error (evmError v err)
  | .finish result state ((codeHash, code) :: rest) =>
    .addNewBytecode codeHash code ⟨x.db, .finish result state rest⟩
  | .finish result state [] =>
    match vm.writeSet x.db (vm.txs v.txIdx) result state with
    | .error err => .error (.ofReadError err)
    | .ok writes =>
      if x.db.isLazy then .run ⟨x.db, .addLazyAddresses result state writes⟩
      else .run ⟨x.db, .record result state writes⟩
  | .addLazyAddresses result state writes =>
    .addLazyAddresses (x.db.tx.caller :: x.db.tx.kind.recipient.toList)
      ⟨x.db, .record result state writes⟩
  | .record result state writes =>
    .record x.db.readSet writes (0 < v.txIdx && !x.db.isLazy)
      { receipt := receiptFromRevm result
        state := stateTransitionsFromRevm vm.isEip161Enabled state }

/-! ## The executor

A read is only ever blocked by a lower transaction: by one whose entry lies below the reader,
or by the transaction right before it. -/

theorem walk_blocking {readOrigins : ReadOrigins} {b : Nat} :
    ∀ {entries : List (Nat × MemoryEntry)} {acc : LazyEvaluation},
      LazyEvaluation.walk readOrigins entries acc = .error (.blocking b) → ∃ e, (b, e) ∈ entries
  | [], acc, h => by cases h
  | (i, .estimate) :: entries, acc, h => by
    obtain rfl : i = b := by simpa [LazyEvaluation.walk] using h
    exact ⟨_, List.mem_cons_self⟩
  | (i, .data k value) :: entries, acc, h => by
    simp only [LazyEvaluation.walk] at h
    split_ifs at h with hprev
    · cases h
    cases value with
    | lazyRecipient addition | lazySender subtraction =>
      obtain ⟨e, he⟩ := walk_blocking h
      exact ⟨e, List.mem_cons_of_mem _ he⟩
    | basic _ | codeHash _ | storage _ | selfDestructed => cases h

theorem bind_eq_error {ε α β : Type} {x : Except ε α} {f : α → Except ε β} {e : ε} :
    (x >>= f) = .error e ↔ x = .error e ∨ ∃ a, x = .ok a ∧ f a = .error e := by
  cases x <;> simp [bind, Except.bind]

theorem bind_eq_ok {ε α β : Type} {x : Except ε α} {f : α → Except ε β} {b : β} :
    (x >>= f) = .ok b ↔ ∃ a, x = .ok a ∧ f a = .ok b := by
  cases x <;> simp [bind, Except.bind]

theorem mapError_eq_ok {ε ε' α : Type} {x : Except ε α} {f : ε → ε'} {a : α} :
    x.mapError f = .ok a ↔ x = .ok a := by
  cases x <;> simp [Except.mapError]

theorem mapError_ne_blocking {α : Type} {x : Except String α} {b : Nat} :
    x.mapError ReadError.storageError ≠ .error (.blocking b) := by
  cases x <;> simp [Except.mapError]

theorem pushOrigin_ne_blocking {os : ReadOrigins} {o : ReadOrigin} {b : Nat} :
    pushOrigin os o ≠ .error (.blocking b) := by
  unfold pushOrigin
  split
  · split_ifs <;> simp
  · simp

theorem getCodeHash_ne_blocking {m : MvMemory} {txIdx : Nat} {db : VmDb} {address : Address}
    {b : Nat} : vm.getCodeHash m txIdx db address ≠ .error (.blocking b) := by
  intro h
  have hfallback : ∀ os location, (do
      let readOrigins ← pushOrigin os .storage
      let codeHash ← (vm.storage.codeHash address).mapError .storageError
      .ok ({ db with readSet := db.readSet.insert location readOrigins }, codeHash) :
      Except ReadError (VmDb × Option B256)) ≠ .error (.blocking b) := by
    intro os location h
    simp [bind_eq_error, pushOrigin_ne_blocking, mapError_ne_blocking] at h
  unfold getCodeHash at h
  simp only at h
  split at h
  · split at h
    · cases h
    · simp [bind_eq_error, pushOrigin_ne_blocking] at h
    · exact hfallback _ _ h
  · exact hfallback _ _ h

theorem readCode_ne_blocking {m : MvMemory} {codeHash : Option B256} {b : Nat} :
    vm.readCode m codeHash ≠ .error (.blocking b) := by
  unfold readCode
  repeat' split
  all_goals first | exact mapError_ne_blocking | simp

theorem codeByHash_ne_blocking {hash : B256} {b : Nat} :
    vm.codeByHash hash ≠ .error (.blocking b) := by
  intro h
  simp [codeByHash, bind_eq_error, mapError_ne_blocking] at h

theorem readStorage_blocking {m : MvMemory} {txIdx : Nat} {db : VmDb} {address : Address}
    {index : U256} {b : Nat} (h : vm.readStorage m txIdx db address index = .error (.blocking b)) :
    b < txIdx := by
  unfold readStorage at h
  simp only at h
  split at h
  · simp [bind_eq_error, pushOrigin_ne_blocking] at h
  · next closestIdx heq =>
    obtain rfl : closestIdx = b := by simpa using h
    exact lt_of_mem_entriesBelow (List.mem_of_mem_head? heq)
  · cases h
  · simp [bind_eq_error, pushOrigin_ne_blocking, mapError_ne_blocking] at h

theorem fallBackToStorage_ne_blocking {os : ReadOrigins} {address : Address}
    {eval : LazyEvaluation} {b : Nat} :
    vm.fallBackToStorage os address eval ≠ .error (.blocking b) := by
  unfold fallBackToStorage
  split
  · simp
  · simp only
    split_ifs
    · simp
    all_goals split <;> simp

theorem checkNonce_blocking {txIdx : Nat} {db : VmDb} {location : MemoryLocationHash}
    {nonce : BitVec 64} {b : Nat} (h : checkNonce txIdx db location nonce = .error (.blocking b)) :
    b < txIdx := by
  unfold checkNonce at h
  split_ifs at h with hn hi
  · obtain rfl : txIdx - 1 = b := by simpa using h
    omega
  · cases h

theorem readBasic_blocking {m : MvMemory} {txIdx : Nat} {db : VmDb} {address : Address} {b : Nat}
    (h : vm.readBasic m txIdx db address = .error (.blocking b)) : b < txIdx := by
  unfold readBasic at h
  simp only [bind_eq_error, vm.fallBackToStorage_ne_blocking, false_or] at h
  rcases h with h | ⟨eval, -, eval', -, h⟩
  · obtain ⟨e, he⟩ := walk_blocking h
    exact lt_of_mem_entriesBelow he
  · split at h
    · cases h
    · simp only [bind_eq_error, reduceCtorEq, and_false, exists_false, or_false] at h
      exact checkNonce_blocking h

theorem addReward_ne_blocking {recipient : MemoryLocationHash} {amount : U256} {b : Nat} :
    ∀ {writes : WriteSet}, addReward recipient amount writes ≠ .error (.blocking b)
  | [] => by simp [addReward]
  | (location, value) :: rest => by
    unfold addReward
    split_ifs
    · split <;> simp
    · intro h
      cases hrest : addReward recipient amount rest with
      | ok writes => simp [hrest, Except.map] at h
      | error err =>
        obtain rfl : err = .blocking b := by simpa [hrest, Except.map] using h
        exact addReward_ne_blocking hrest

theorem writeSet_ne_blocking {db : VmDb} {tx : T} {result : ExecutionResult} {state : EvmState}
    {b : Nat} : vm.writeSet db tx result state ≠ .error (.blocking b) := by
  have hrewards : ∀ (rewards : List (MemoryLocationHash × U256)) (writes : WriteSet),
      rewards.foldlM (fun writes (recipient, amount) => addReward recipient amount writes) writes ≠
        .error (.blocking b) := by
    intro rewards
    induction rewards with
    | nil => simp [pure, Except.pure]
    | cons reward rewards ih =>
      intro writes h
      simp only [List.foldlM_cons, bind_eq_error] at h
      rcases h with h | ⟨writes', -, h⟩
      · exact addReward_ne_blocking h
      · exact ih writes' h
  exact hrewards _ _

theorem ofReadError_blocking {err : ReadError} {b : Nat}
    (h : VmExecutionError.ofReadError err = .blocking b) : err = .blocking b := by
  cases err <;> simp_all [VmExecutionError.ofReadError]

theorem evmError_blocking {v : TxVersion} {err : EvmError} {b : Nat}
    (h : evmError v err = .blocking b) : b < v.txIdx := by
  unfold evmError at h
  split at h
  · split_ifs at h with hi
    obtain rfl : v.txIdx - 1 = b := by simpa using h
    omega
  · split_ifs at h with hi
    obtain rfl : v.txIdx - 1 = b := by simpa using h
    omega
  · cases h

theorem executeStep_blocking {v : TxVersion} {m : MvMemory} {x : Execution} {b : Nat}
    (h : vm.executeStep v m x = .error (.blocking b)) : b < v.txIdx := by
  have hread : ∀ {err : ReadError}, ExecStep.error (.ofReadError err) =
      (.error (.blocking b) : ExecStep Execution PevmTxExecutionResult ExecutionError) →
      err = .blocking b := by
    intro err herr
    simp only [ExecStep.error.injEq] at herr
    exact ofReadError_blocking herr
  unfold executeStep at h
  split at h
  · split at h
    · next hget => exact absurd (hread h ▸ hget) vm.getCodeHash_ne_blocking
    · split at h <;> cases h
  · split_ifs at h
  · cases h
  · simp only at h
    split_ifs at h
    split at h
    · next hget => exact vm.readBasic_blocking (hread h ▸ hget)
    · cases h
    · split_ifs at h
  · split at h
    · next hget => exact absurd (hread h ▸ hget) vm.getCodeHash_ne_blocking
    · cases h
  · split at h
    · next hget => exact absurd (hread h ▸ hget) vm.readCode_ne_blocking
    · cases h
  · split at h
    · next hget => exact absurd (hread h ▸ hget) vm.codeByHash_ne_blocking
    · cases h
  · split at h
    · next hget => exact vm.readStorage_blocking (hread h ▸ hget)
    · cases h
  · split at h
    · cases hread h
    · cases h
  · cases h
  · simp only [ExecStep.error.injEq] at h
    exact evmError_blocking h
  · cases h
  · split at h
    · next hget => exact absurd (hread h ▸ hget) vm.writeSet_ne_blocking
    · split_ifs at h
  · cases h
  · cases h

/-- `Vm::execute` up to `MvMemory::record`. -/
def executor : Executor Execution PevmTxExecutionResult ExecutionError where
  start := vm.start
  step := vm.executeStep
  blocking_lt := fun _ _ _ _ h => vm.executeStep_blocking h

/-- One call of `execute_revm_parallel` on the block of the `Vm`. -/
def config (concurrencyLevel : Nat) :
    Config Execution PevmTxExecutionResult ExecutionError where
  executor := vm.executor
  blockSize := vm.blockSize
  concurrencyLevel := concurrencyLevel
  estimatedLocations := vm.chain.estimatedLocations vm.hash vm.blockEnv
    ((List.range vm.blockSize).map vm.txs)
  lazyAddresses := vm.chain.lazyAddresses vm.blockEnv

end Vm

/-! ## A sample block

Three transactions of distinct senders that pay no fees. The first two call a contract that
increments its slot 0, so that the second reads what the first writes; the third is a transfer
from the beneficiary, whose location is in the multi-version memory from the start, so that it
is lazy. -/

namespace Sample

def beneficiary : Address := 4
def counter : Address := 3

/-- `PUSH0 SLOAD PUSH1 1 ADD PUSH0 SSTORE STOP`. -/
def counterCode : Bytecode := .legacy ⟨[0x5f, 0x54, 0x60, 0x01, 0x01, 0x5f, 0x55, 0x00], 8⟩

/-- An account that is read as missing. -/
def orEmpty (info : Option AccountInfo) : AccountInfo :=
  info.getD ⟨0, 0, keccakEmpty, none⟩

def touched (info : AccountInfo) (storage : List (U256 × StorageSlot)) : Account :=
  ⟨info, storage, true, false⟩

/-- The run of a call of the counter. -/
def callCounter (caller : Address) : EvmProgram :=
  .basic caller fun sender => .basic counter fun callee => .storage counter 0 fun value =>
    .finish ⟨true, if value = 0 then 43110 else 26010, []⟩
      [(caller, touched { orEmpty sender with nonce := (orEmpty sender).nonce + 1 } []),
        (counter, touched (orEmpty callee) [(0, ⟨value, value + 1⟩)])]

/-- The run of a transfer of `value`. -/
def transfer (caller recipient : Address) (value : U256) : EvmProgram :=
  .basic caller fun sender => .basic recipient fun callee =>
    .finish ⟨true, 21000, []⟩
      [(caller, touched { orEmpty sender with
          balance := (orEmpty sender).balance - value
          nonce := (orEmpty sender).nonce + 1 } []),
        (recipient, touched { orEmpty callee with
          balance := (orEmpty callee).balance + value } [])]

def tx (caller recipient : Address) (value : U256) : TxEnv where
  caller := caller
  gasLimit := 50000
  gasPrice := 0
  gasPriorityFee := none
  kind := .call recipient
  value := value
  nonce := 0
  blobHashes := []
  maxFeePerBlobGas := 0
  authorizationList := []

/-- Every account but 5 exists, and only the counter has code. -/
def storage : Storage where
  basic := fun address => .ok (if address = 5 then none else some ⟨1000, 0⟩)
  codeHash := fun address => .ok (if address = counter then some 7 else none)
  codeByHash := fun hash => .ok (if hash = 7 then some counterCode else none)
  storage := fun _ _ => .ok 0
  blockHash := fun _ => .ok 0

/-- Injective on the locations of small addresses and slots. -/
def hash : MemoryLocation → MemoryLocationHash
  | .basic address => address.setWidth 64 * 4
  | .codeHash address => address.setWidth 64 * 4 + 1
  | .storage address slot => address.setWidth 64 * 4 + 2 + slot.setWidth 64 * 65536

def vm : Vm TxEnv where
  chain := PevmEthereum
  isEip161Enabled := true
  blockEnv := ⟨beneficiary, 0⟩
  blockSize := 3
  txs := fun
    | 0 => tx 1 counter 0
    | 1 => tx 2 counter 0
    | _ => tx beneficiary 5 1
  storage := storage
  hash := hash
  evm := fun tx =>
    match tx.kind with
    | .call recipient =>
      if recipient = counter then callCounter tx.caller else transfer tx.caller recipient tx.value
    | .create => .fail (.custom "no creation in this block")

/-- Two workers on the sample block. -/
def config : Config Vm.Execution PevmTxExecutionResult ExecutionError :=
  vm.config 2

/-- The state before the workers start, with empty result slots. -/
def start {X R E : Type} (cfg : Config X R E) : System X R E where
  scheduler := Scheduler.new cfg.blockSize
  mvMemory := MvMemory.new cfg.estimatedLocations cfg.lazyAddresses
  executionResults := fun _ => none
  abortReason := none
  pc := fun _ => .nextTask .loop
  log := []

theorem start_initial {X R E : Type} (cfg : Config X R E) : initial cfg (start cfg) :=
  ⟨rfl, rfl, rfl, fun _ => rfl, rfl⟩

/-- The interleaving in which each worker in turn takes the given number of steps. -/
def schedule (turns : List (WorkerId × Nat)) : List WorkerId :=
  turns.flatMap fun (w, k) => List.replicate k w

/-- What can be evaluated to hold at the end of an interleaving that meets `C` holds in a state
reachable that way. -/
theorem exists_reachableVia {X R E : Type} (cfg : Config X R E)
    (C : WorkerId → System X R E → Bool) (turns : List (WorkerId × Nat))
    (p : System X R E → Bool)
    (h : ((workers cfg).runVia C (schedule turns) (start cfg)).any p = true) :
    ∃ s, (workers cfg).ReachableVia (fun w s => C w s = true) s ∧ p s = true :=
  Machine.exists_reachable_of_run (start_initial cfg) h

/-- What can be evaluated to hold at the end of an interleaving holds in a reachable state. -/
theorem exists_reachable {X R E : Type} (cfg : Config X R E) (turns : List (WorkerId × Nat))
    (p : System X R E → Bool)
    (h : ((workers cfg).run (schedule turns) (start cfg)).any p = true) :
    ∃ s, (workers cfg).Reachable s ∧ p s = true := by
  obtain ⟨s, hs, hp⟩ := exists_reachableVia cfg _ turns p h
  exact ⟨s, hs.reachable, hp⟩

end Sample

end Pevm
