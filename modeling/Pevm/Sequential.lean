import Pevm.Evaluation

/-!
# `execute_revm_sequential`

The transactions of a block one after the other (`pevm.rs`), on a `CacheDB` over the storage
(`StorageWrapper` in `storage.rs`).

revm and its `CacheDB` are not part of this repository: `SequentialEvm` has what the loop calls of
them, and what is assumed of them is said where it is used.
-/

namespace Pevm

open Saturating

/-- `StorageWrapper::basic_ref`. -/
def Storage.basicRef (storage : Storage) (address : Address) :
    Except String (Option AccountInfo) := do
  match ← storage.basic address with
  | none => .ok none
  | some basic =>
    let codeHash ← storage.codeHash address
    let code ←
      match codeHash with
      | some hash => storage.codeByHash hash
      | none => .ok none
    .ok (some ⟨basic.balance, basic.nonce, codeHash.getD keccakEmpty, code⟩)

/-- The EVM that `build_evm` returns for the sequential execution, with the state of its `CacheDB`. -/
structure SequentialEvm (T D : Type) where
  /-- `CacheDB::new(StorageWrapper(storage))` -/
  newDb : Storage → D
  /-- `Database::basic` of the cache -/
  basic : D → Address → Except String (Option AccountInfo)
  /-- revm's run of a transaction, the rewards of the fee recipients included -/
  transact : D → T → Except String (ExecutionResult × EvmState)
  commit : D → EvmState → D

namespace SequentialEvm

variable {T D : Type} (evm : SequentialEvm T D)

/-- The balance and nonce of an account, zero when there is none. -/
def account (db : D) (address : Address) : AccountBasic :=
  match evm.basic db address with
  | .ok (some info) => ⟨info.balance, info.nonce⟩
  | _ => .default

/-- The loop over the transactions. -/
def executeAll (isEip161Enabled : Bool) :
    List T → D → (cumulativeGasUsed : BitVec 64) → Except PevmError (List PevmTxExecutionResult)
  | [], _, _ => .ok []
  | tx :: txs, db, cumulativeGasUsed => do
    let (result, state) ← (evm.transact db tx).mapError fun message =>
      .executionError (.evm (.custom message))
    let receipt := receiptFromRevm result
    let cumulativeGasUsed := saturatingAdd cumulativeGasUsed receipt.cumulativeGasUsed
    let results ← executeAll isEip161Enabled txs (evm.commit db state) cumulativeGasUsed
    .ok (⟨{ receipt with cumulativeGasUsed := cumulativeGasUsed },
      stateTransitionsFromRevm isEip161Enabled state⟩ :: results)

/-- The cache after a transaction, unchanged by one that is rejected. -/
def next (db : D) (tx : T) : D :=
  match evm.transact db tx with
  | .ok (_, state) => evm.commit db state
  | .error _ => db

theorem next_eq {db : D} {tx : T} {result : ExecutionResult} {state : EvmState}
    (h : evm.transact db tx = .ok (result, state)) : evm.next db tx = evm.commit db state := by
  unfold next
  rw [h]

/-- An accepted list of transactions is accepted one by one, each on the cache that the lower ones
leave. -/
theorem executeAll_eq_ok {isEip161Enabled : Bool} {i : Nat} {tx : T} :
    ∀ {txs : List T} {db : D} {gas : BitVec 64} {results : List PevmTxExecutionResult},
      evm.executeAll isEip161Enabled txs db gas = .ok results → txs[i]? = some tx →
      ∃ result state, evm.transact ((txs.take i).foldl evm.next db) tx = .ok (result, state) ∧
        (results[i]?).map PevmTxExecutionResult.state =
          some (stateTransitionsFromRevm isEip161Enabled state)
  | [], _, _, _, _, hi => by cases hi
  | tx₀ :: txs, db, gas, results, h, hi => by
    rw [executeAll] at h
    obtain ⟨⟨result, state⟩, htransact, h⟩ := Vm.bind_eq_ok.mp h
    obtain ⟨rest, hrest, h⟩ := Vm.bind_eq_ok.mp h
    cases h
    have hok : evm.transact db tx₀ = .ok (result, state) := Vm.mapError_eq_ok.mp htransact
    cases i with
    | zero =>
      cases hi
      exact ⟨result, state, hok, rfl⟩
    | succ i =>
      obtain ⟨result', state', htransact', hstate⟩ := executeAll_eq_ok hrest hi
      refine ⟨result', state', ?_, hstate⟩
      rw [List.take_succ_cons, List.foldl_cons, evm.next_eq hok]
      exact htransact'

end SequentialEvm

namespace Vm

variable {T D : Type} (vm : Vm T) (evm : SequentialEvm T D)

def executeRevmSequential : Except PevmError (List PevmTxExecutionResult) :=
  evm.executeAll vm.isEip161Enabled ((List.range vm.blockSize).map vm.txs) (evm.newDb vm.storage) 0

/-- The cache before transaction `i`. -/
def dbAt : Nat → D
  | 0 => evm.newDb vm.storage
  | i + 1 => evm.next (dbAt i) (vm.txs i)

/-- What the sequential execution of transaction `i` says of its accounts. -/
structure SequentialStep (results : List PevmTxExecutionResult) (i : Nat)
    (result : ExecutionResult) (state : EvmState) : Prop where
  transact : evm.transact (vm.dbAt evm i) (vm.txs i) = .ok (result, state)
  commit : vm.dbAt evm (i + 1) = evm.commit (vm.dbAt evm i) state
  transitions : (results[i]?).map PevmTxExecutionResult.state =
    some (stateTransitionsFromRevm vm.isEip161Enabled state)

variable {vm evm}

theorem dbAt_eq_foldl {i : Nat} (hi : i ≤ vm.blockSize) :
    vm.dbAt evm i =
      ((((List.range vm.blockSize).map vm.txs).take i).foldl evm.next (evm.newDb vm.storage)) := by
  induction i with
  | zero => rfl
  | succ i ih =>
    have hget : ((List.range vm.blockSize).map vm.txs)[i]? = some (vm.txs i) := by
      simp [List.getElem?_range (Nat.lt_of_succ_le hi)]
    rw [dbAt, ih (Nat.le_of_succ_le hi), List.take_add_one, hget, List.foldl_append]
    rfl

/-- Every transaction of an accepted block is accepted. -/
theorem sequentialStep_of_ok {results : List PevmTxExecutionResult}
    (h : vm.executeRevmSequential evm = .ok results) {i : Nat} (hi : i < vm.blockSize) :
    ∃ result state, vm.SequentialStep evm results i result state := by
  have hget : ((List.range vm.blockSize).map vm.txs)[i]? = some (vm.txs i) := by
    simp [List.getElem?_range hi]
  obtain ⟨result, state, htransact, hstate⟩ := evm.executeAll_eq_ok h hget
  rw [← dbAt_eq_foldl hi.le] at htransact
  exact ⟨result, state, htransact, evm.next_eq htransact, hstate⟩

end Vm

end Pevm
