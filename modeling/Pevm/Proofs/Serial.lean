import Pevm.Proofs.FullWrites
import Pevm.Proofs.SelfDestruct
import Pevm.Proofs.PostProcessing

/-!
# Serial execution

What the parallel execution of a block is held against: the transactions run one after the other,
each to its end, and each is shown what the lower ones have written (`Vm.serial`). The specification
has no incarnations, no read sets and no interleaving.

The bridge to `Vm::execute` is `Vm.rest`, the outcome of what is left of an execution when its
remaining reads are answered with what the serial execution shows:

* a step whose read returns what is shown leaves the rest as it is (`rest_run`);
* the rest of a fresh execution is the serial execution (`rest_start`), that of one that is about to
  call `record` is what it records.

So an execution all of whose reads return what is shown records what the serial execution of its
transaction computes, whatever happened to the memory between the reads.
-/

namespace Pevm

open Interleaving MvMemory

/-- What a transaction is shown of the state before it; `none` where a read fails. -/
structure Shown where
  basic : Address → Option (Option AccountBasic)
  codeHash : Address → Option (Option B256)
  storage : Address → U256 → Option U256

/-- The accounts that were read, newest first, at their locations. -/
abbrev ReadAccounts := List (MemoryLocationHash × (AccountBasic × Option B256))

namespace Vm

section Specification

variable {T : Type} (vm : Vm T) (codes : B256 → Bytecode)

/-- What transaction `i` finds in a memory. -/
def shown (m : MvMemory) (i : Nat) : Shown where
  basic address := (vm.basicAt m i address).toOption
  codeHash address := (vm.codeHashAt m i address).toOption
  storage address index := (vm.slotAt m i address index).toOption

/-- The account is that of the sender and has another nonce than the transaction. -/
def wrongNonce (i : Nat) (address : Address) (account : AccountBasic) : Bool :=
  vm.chain.hasNonce (vm.txs i) && decide (address = (vm.chain.txEnv (vm.txs i)).caller) &&
    decide ((vm.chain.txEnv (vm.txs i)).nonce ≠ account.nonce)

/-- An account with its code. -/
def infoOf (account : AccountBasic) (codeHash : Option B256) : AccountInfo :=
  ⟨account.balance, account.nonce, codeHash.getD keccakEmpty, codeHash.map codes⟩

/-- The run of transaction `i` on what it is shown: its result, its journal and the accounts it has
read. -/
def evaluate (i : Nat) (shown : Shown) :
    EvmProgram → ReadAccounts → Option (ExecutionResult × EvmState × ReadAccounts)
  | .basic address next, accounts =>
    match shown.basic address with
    | none => none
    | some none => evaluate i shown (next none) accounts
    | some (some account) =>
      if vm.wrongNonce i address account then none
      else
        match shown.codeHash address with
        | none => none
        | some codeHash =>
          evaluate i shown (next (some (infoOf codes account codeHash)))
            ((vm.hash (.basic address), (account, codeHash)) :: accounts)
  | .codeByHash hash next, accounts =>
    match vm.codeByHash hash with
    | .error _ => none
    | .ok code => evaluate i shown (next code) accounts
  | .storage address index next, accounts =>
    match shown.storage address index with
    | none => none
    | some value => evaluate i shown (next value) accounts
  | .blockHash number next, accounts =>
    match vm.storage.blockHash number with
    | .error _ => none
    | .ok hash => evaluate i shown (next hash) accounts
  | .finish result state, accounts => some (result, state, accounts)
  | .fail _, _ => none

/-- The write set and the result of a finished run. -/
def settle (i : Nat) (run : ExecutionResult × EvmState × ReadAccounts) :
    Option (WriteSet × PevmTxExecutionResult) :=
  match vm.writeSet { vm.startDb ⟨i, 0⟩ with readAccounts := run.2.2 } (vm.txs i) run.1 run.2.1 with
  | .error _ => none
  | .ok writes =>
    some (writes, ⟨receiptFromRevm run.1, stateTransitionsFromRevm vm.isEip161Enabled run.2.1⟩)

/-- The serial execution of transaction `i`, a creation or a call of an account with code. -/
def serialExecute (i : Nat) (shown : Shown) : Option (WriteSet × PevmTxExecutionResult) :=
  match (vm.chain.txEnv (vm.txs i)).kind with
  | .create => (vm.evaluate codes i shown (vm.evm (vm.txs i)) []).bind (vm.settle i)
  | .call recipient =>
    match shown.codeHash recipient with
    | some (some _) => (vm.evaluate codes i shown (vm.evm (vm.txs i)) []).bind (vm.settle i)
    | _ => none

/-- The memory that the lower transactions leave, each with one incarnation. -/
def serialMemory (done : List (WriteSet × PevmTxExecutionResult)) : MvMemory :=
  { MvMemory.new [] (vm.chain.lazyAddresses vm.blockEnv) with
    data := fun l => some fun j =>
      (done[j]?).bind fun outcome => (AssocList.lookupLast outcome.1 l).map (.data 0) }

/-- The first `n` transactions of the block, one after the other. -/
def serial : Nat → Option (List (WriteSet × PevmTxExecutionResult))
  | 0 => some []
  | n + 1 =>
    (serial n).bind fun done =>
      (vm.serialExecute codes n (vm.shown (vm.serialMemory done) n)).map fun outcome =>
        done ++ [outcome]

/-- The result of the block: the results of the transactions, with the fee recipients evaluated. -/
def serialResult : Option (Except PevmError (List PevmTxExecutionResult)) :=
  (vm.serial codes vm.blockSize).map fun done =>
    vm.evaluateResults (vm.serialMemory done) (done.map Prod.snd)

/-- The outcome of what is left of an execution that is not lazy, on what it is shown. -/
def rest (i : Nat) (shown : Shown) (x : Execution) : Option (WriteSet × PevmTxExecutionResult) :=
  match x.pc with
  | .toCodeHash recipient =>
    match shown.codeHash recipient with
    | some (some _) =>
      (vm.evaluate codes i shown (vm.evm (vm.txs i)) x.db.readAccounts).bind (vm.settle i)
    | _ => none
  | .run program => (vm.evaluate codes i shown program x.db.readAccounts).bind (vm.settle i)
  | .basicCodeHash address account next =>
    match shown.codeHash address with
    | none => none
    | some codeHash =>
      (vm.evaluate codes i shown (next (some (infoOf codes account codeHash)))
        ((vm.hash (.basic address), (account, codeHash)) :: x.db.readAccounts)).bind (vm.settle i)
  | .basicCode address account codeHash next =>
    (vm.evaluate codes i shown (next (some (infoOf codes account codeHash)))
      ((vm.hash (.basic address), (account, codeHash)) :: x.db.readAccounts)).bind (vm.settle i)
  | .finish result state _ => vm.settle i (result, state, x.db.readAccounts)
  | .record result state writes =>
    some (writes, ⟨receiptFromRevm result, stateTransitionsFromRevm vm.isEip161Enabled state⟩)
  -- only the transactions that may be lazy come here
  | .containsFrom | .containsTo | .addLazyAddresses _ _ _ => none

end Specification

variable {T : Type} {vm : Vm T} {codes : B256 → Bytecode} {U : Set MemoryLocation} {v : TxVersion}
  {m : MvMemory} {i : Nat} {shown : Shown} {x x' : Execution}

theorem rest_start : vm.rest codes v.txIdx shown (vm.start v) =
    vm.serialExecute codes v.txIdx shown := by
  unfold rest serialExecute start
  cases (vm.chain.txEnv (vm.txs v.txIdx)).kind <;> rfl

/-! ## Steps -/

/-- The execution is not lazy and is not going to be. -/
def IsFull (x : Execution) : Prop :=
  x.db.isLazy = false ∧
    match x.pc with
    | .containsFrom | .containsTo | .addLazyAddresses _ _ _ => False
    | _ => True

/-- The reads between two states of the database return what is shown. -/
structure ReadsShown (vm : Vm T) (U : Set MemoryLocation) (m : MvMemory) (i : Nat) (shown : Shown)
    (db db' : VmDb) : Prop where
  basic : ∀ {db₁ address account}, vm.readBasic m i db address = .ok (db₁, account) →
    db₁.readSet = db'.readSet → shown.basic address = some account
  codeHash : ∀ {db₁ address codeHash}, .codeHash address ∈ U →
    vm.getCodeHash m i db address = .ok (db₁, codeHash) →
    db₁.readSet = db'.readSet → shown.codeHash address = some codeHash
  storage : ∀ {db₁ address index value}, .storage address index ∈ U →
    vm.readStorage m i db address index = .ok (db₁, value) →
    db₁.readSet = db'.readSet → shown.storage address index = some value

/-- An account that was read has the right nonce. -/
theorem wrongNonce_of_readBasic (hdb : vm.Started v x.db)
    (hnonce : x.db.hasNonce = vm.chain.hasNonce (vm.txs v.txIdx)) {db' : VmDb} {address : Address}
    {account : AccountBasic}
    (h : vm.readBasic m v.txIdx x.db address = .ok (db', some account)) :
    vm.wrongNonce v.txIdx address account = false := by
  have hdb' := readBasic_db h
  obtain ⟨eval, eval', -, -, -, haccount, hcheck⟩ := readBasic_eq_ok_iff.mp h
  obtain ⟨base, hbase, rfl⟩ := Option.map_eq_some_iff.mp haccount.symm
  have hok := hcheck base hbase
  unfold checkNonce at hok
  rw [hdb'] at hok
  by_contra hwrong
  simp only [wrongNonce, Bool.not_eq_false, Bool.and_eq_true, decide_eq_true_eq] at hwrong
  obtain ⟨⟨hhas, hcaller⟩, hne⟩ := hwrong
  have hlocation : vm.hashBasic x.db address = x.db.fromHash := by
    rw [hcaller, ← hdb.tx]
    exact if_pos rfl
  rw [if_pos ⟨hnonce.trans hhas, hlocation, by rw [hdb.tx]; exact hne⟩] at hok
  split at hok <;> cases hok

/-- The write set depends on the transaction and on the accounts that were read. -/
theorem writeSet_started {db : VmDb} (hdb : vm.Started v db) (hfull : db.isLazy = false)
    {result : ExecutionResult} {state : EvmState} :
    vm.writeSet { vm.startDb ⟨v.txIdx, 0⟩ with readAccounts := db.readAccounts } (vm.txs v.txIdx)
      result state = vm.writeSet db (vm.txs v.txIdx) result state := by
  obtain ⟨tx, fromHash, toHash, toCodeHash, isLazy, hasNonce, readSet, readAccounts⟩ := db
  obtain ⟨htx, hfrom, hto, -⟩ := hdb
  simp only at htx hfrom hto hfull
  subst htx hfrom hto hfull
  rfl

/-- **A step that reads what is shown leaves the rest as it is.** -/
theorem rest_run (hU : vm.Separates U) (hv : v.txIdx < vm.blockSize) (hC : Confined U v x)
    (hdb : vm.Started v x.db) (hnonce : x.db.hasNonce = vm.chain.hasNonce (vm.txs v.txIdx))
    (hto : (∀ recipient, x.pc ≠ .toCodeHash recipient) →
      ∀ recipient, x.db.tx.kind.recipient = some recipient →
        shown.codeHash recipient = some x.db.toCodeHash)
    (hcode : ∀ address account codeHash next code, x.pc = .basicCode address account codeHash next →
      vm.readCode m codeHash = .ok code → code = codeHash.map codes)
    (hreading : ∀ address account next, x.pc = .basicCodeHash address account next →
      .codeHash address ∈ U)
    (hslot : ∀ address index next, x.pc = .run (.storage address index next) →
      .storage address index ∈ U)
    (hreads : vm.ReadsShown U m v.txIdx shown x.db x'.db) (hfull : IsFull x) (hfull' : IsFull x')
    (h : vm.RunStep v m x x') :
    vm.rest codes v.txIdx shown x = vm.rest codes v.txIdx shown x' := by
  cases h with
  | @toCode db db' recipient codeHash hget =>
    have hshown := hreads.codeHash (hC.toCodeHash _ rfl) hget rfl
    have haccounts : db'.readAccounts = db.readAccounts := by rw [getCodeHash_db hget]
    simp only [rest, hshown, haccounts]
  | toNoCode hget => exact hfull'.2.elim
  | containsFrom hdata => exact hfull.2.elim
  | notContainsFrom hdata => exact hfull.2.elim
  | containsTo => exact hfull.2.elim
  | mockSender hlazy hfrom => rw [hfull.1] at hlazy; cases hlazy
  | mockRecipient hlazy hfrom hto => rw [hfull.1] at hlazy; cases hlazy
  | @missing db db' address next hreal hread =>
    have hshown := hreads.basic hread rfl
    have haccounts : db'.readAccounts = db.readAccounts := by rw [readBasic_db hread]
    simp only [rest, evaluate, hshown, haccounts]
  | @recipient db db' address account next hreal hread hto' =>
    have hshown := hreads.basic hread rfl
    have hnonce' := wrongNonce_of_readBasic hdb hnonce hread
    have hdb' := readBasic_db hread
    -- the account is the one whose code hash was read by `set_tx`
    obtain ⟨a, ha, hhash⟩ : ∃ a, db.tx.kind.recipient = some a ∧
        vm.hash (.basic a) = vm.hash (.basic address) := by
      rw [hdb', hdb.hashBasic, hdb.toHash] at hto'
      obtain ⟨a, ha, hhash⟩ := Option.map_eq_some_iff.mp hto'.symm
      exact ⟨a, ha, hhash⟩
    have hin : .basic a ∈ U := hU.recipient v.txIdx hv a (by rw [← hdb.tx]; exact ha)
    obtain rfl : a = address := MemoryLocation.basic.inj
      (hU.injective hin (hC.within.2 _ _ rfl) hhash)
    have hcodeHash := hto (by simp) a ha
    have haccounts : db'.readAccounts = db.readAccounts := by rw [hdb']
    have htoCodeHash : db'.toCodeHash = db.toCodeHash := by rw [hdb']
    simp only [rest, evaluate, hshown, hnonce', hcodeHash, haccounts, htoCodeHash]
    rfl
  | @account db db' address account next hreal hread =>
    have hshown := hreads.basic hread rfl
    have hnonce' := wrongNonce_of_readBasic hdb hnonce hread
    have haccounts : db'.readAccounts = db.readAccounts := by rw [readBasic_db hread]
    simp only [rest, evaluate, hshown, hnonce', haccounts]
    cases shown.codeHash address <;> rfl
  | @codeHash db db' address account codeHash next hget =>
    have hshown := hreads.codeHash (hreading _ _ _ rfl) hget rfl
    have haccounts : db'.readAccounts = db.readAccounts := by rw [getCodeHash_db hget]
    simp only [rest, hshown, haccounts]
  | @code db address account codeHash code next hread =>
    have hcode' := hcode _ _ _ _ _ rfl hread
    simp only [rest, infoOf, hcode', hdb.hashBasic]
  | codeByHash hread => simp only [rest, evaluate, hread]
  | @storage db db' address index value next hread =>
    have hshown := hreads.storage (hslot _ _ _ rfl) hread rfl
    have haccounts : db'.readAccounts = db.readAccounts := by rw [readStorage_db hread]
    simp only [rest, evaluate, hshown, haccounts]
  | blockHash hread => simp only [rest, evaluate, hread]
  | finish => simp only [rest, evaluate, Option.bind_some]
  | lazyWrites hwrites hlazy => rw [hfull.1] at hlazy; cases hlazy
  | @fullWrites db result state writes hwrites hlazy =>
    simp only [rest, settle]
    rw [writeSet_started hdb hlazy, hwrites]

end Vm

end Pevm
