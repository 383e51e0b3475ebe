import Pevm.Sequential
import Pevm.Proofs.LazyAccounts
import Pevm.Proofs.LazyPath

/-!
# The results against the sequential execution

The evaluation of the lazy accounts re-does the checks of a sender that was mocked, and asserts the
nonce of every sender it evaluates. It also puts the code of an account together, from the result
of the transaction and from the storage as it was before the block. Here both are compared with
`execute_revm_sequential`.
-/

namespace Pevm

open Interleaving Scheduler MvMemory Saturating

/-- No query of the storage fails. -/
structure Storage.NeverFails (storage : Storage) : Prop where
  basic : ∀ address, ∃ account, storage.basic address = .ok account
  codeHash : ∀ address, ∃ codeHash, storage.codeHash address = .ok codeHash
  codeByHash : ∀ hash, ∃ code, storage.codeByHash hash = .ok code
  blockHash : ∀ number, ∃ hash, storage.blockHash number = .ok hash
  storage : ∀ address index, ∃ value, storage.storage address index = .ok value

/-- The code of an account of a result. -/
def EvmAccount.codeParts (account : EvmAccount) : Option B256 × Option Bytecode :=
  (account.codeHash, account.code)

/-- The errors with which the evaluation rejects a block. -/
def PevmError.rejects : PevmError → Bool
  | .nonceMismatch _ _ _ | .unreachableError => true
  | .executionError (.evm (.transaction (.lackOfFundForMaxFee _ _))) => true
  | _ => false

namespace Vm

variable {T : Type} {vm : Vm T} {a address : Address} {codeHash : Option B256}
  {code : Option Bytecode} {i : Nat}

/-! ## When the evaluation accepts -/

/-- The checks of the loop at an entry of `address`. -/
def EntryPasses (vm : Vm T) (address : Address) (p : Nat × MemoryEntry) (account : AccountBasic) :
    Prop :=
  ∃ account', evaluateEntry (vm.chain.txEnv (vm.txs p.1)) account p.2 = .ok account' ∧
    checkExecutedNonce p.1 (vm.chain.txEnv (vm.txs p.1)) address account'.nonce = .ok ()

theorem evaluateEntry_afterEntry {tx : TxEnv} {account account' : AccountBasic}
    {entry : MemoryEntry} (h : evaluateEntry tx account entry = .ok account') :
    account' = account.afterEntry entry := by
  cases entry with
  | estimate => cases h
  | data incarnation value => exact evaluateEntry_eq h

/-- The loop ends iff every entry passes its checks. -/
theorem evaluateHistory_ok_iff {entries : List (Nat × MemoryEntry)} {account : AccountBasic}
    {results : List PevmTxExecutionResult} (hsorted : entries.Pairwise fun p q => p.1 < q.1) :
    (∃ results', vm.evaluateHistory address codeHash code entries account results = .ok results') ↔
      ∀ p ∈ entries, vm.EntryPasses address p
        (account.forward (entries.filter fun q => q.1 < p.1)) := by
  induction entries generalizing account results with
  | nil => exact ⟨fun _ p hp => (by cases hp), fun _ => ⟨results, rfl⟩⟩
  | cons p rest ih =>
    obtain ⟨j, entry⟩ := p
    obtain ⟨hfirst, hrest⟩ := List.pairwise_cons.mp hsorted
    -- nothing is below the first entry, and the first entry is below all others
    have hhead : ((j, entry) :: rest).filter (fun q => q.1 < j) = [] := by
      refine List.filter_eq_nil_iff.mpr fun q hq => ?_
      rcases List.mem_cons.mp hq with rfl | hq
      · simp
      · have hlt := hfirst q hq
        simp only [decide_eq_true_eq]
        omega
    have htail : ∀ q ∈ rest, ((j, entry) :: rest).filter (fun q' => q'.1 < q.1) =
        (j, entry) :: rest.filter fun q' => q'.1 < q.1 :=
      fun q hq => List.filter_cons_of_pos (by simpa using hfirst q hq)
    rw [List.forall_mem_cons, hhead]
    constructor
    · rintro ⟨results', h⟩
      rw [evaluateHistory] at h
      obtain ⟨account', hentry, h⟩ := bind_eq_ok.mp h
      obtain ⟨⟨⟩, hcheck, hloop⟩ := bind_eq_ok.mp h
      refine ⟨⟨account', hentry, hcheck⟩, fun q hq => ?_⟩
      have hpasses := (ih hrest).mp ⟨results', hloop⟩ q hq
      rw [htail q hq]
      rw [evaluateEntry_afterEntry hentry] at hpasses
      exact hpasses
    · rintro ⟨⟨account', hentry, hcheck⟩, hall⟩
      have hrec : ∀ q ∈ rest, vm.EntryPasses address q
          (account'.forward (rest.filter fun q' => q'.1 < q.1)) := by
        intro q hq
        have hpasses := hall q hq
        rw [htail q hq] at hpasses
        rw [evaluateEntry_afterEntry hentry]
        exact hpasses
      obtain ⟨results', hloop⟩ := (ih hrest).mpr hrec
      refine ⟨results', ?_⟩
      rw [evaluateHistory]
      exact bind_eq_ok.mpr ⟨account', hentry, bind_eq_ok.mpr ⟨(), hcheck, hloop⟩⟩

/-- The account in the storage, zero when there is none. -/
def storageAccount (vm : Vm T) (address : Address) : AccountBasic :=
  match vm.storage.basic address with
  | .ok (some account) => account
  | _ => .default

/-- An absolute value passes its checks whatever is below it. -/
theorem entryPasses_basic {k : Nat} {info account account' : AccountBasic} :
    vm.EntryPasses address (i, .data k (.basic info)) account ↔
      vm.EntryPasses address (i, .data k (.basic info)) account' :=
  Iff.rfl

/-- The checks may start from the storage: where the source does not read it, the first entry is
absolute. -/
theorem entryPasses_evaluationStart {entries : List (Nat × MemoryEntry)} {p : Nat × MemoryEntry}
    (hsorted : entries.Pairwise fun p q => p.1 < q.1) (hp : p ∈ entries) :
    vm.EntryPasses address p ((vm.evaluationStart address entries).forward
        (entries.filter fun q => q.1 < p.1)) ↔
      vm.EntryPasses address p ((vm.storageAccount address).forward
        (entries.filter fun q => q.1 < p.1)) := by
  cases entries with
  | nil => cases hp
  | cons first rest =>
    obtain ⟨j, entry⟩ := first
    unfold evaluationStart
    split
    · next _ k info hhead =>
      obtain ⟨rfl, rfl⟩ := Prod.mk.inj (Option.some.inj hhead)
      rcases List.mem_cons.mp hp with rfl | hp
      · exact entryPasses_basic
      · rw [List.filter_cons_of_pos (by simpa using (List.pairwise_cons.mp hsorted).1 p hp)]
        exact Iff.rfl
    · exact Iff.rfl

/-- The evaluation of one address ends iff every entry passes its checks. -/
theorem evaluateAddress_ok_iff (hstorage : vm.storage.NeverFails) {m : MvMemory}
    {results : List PevmTxExecutionResult} :
    (∃ results', vm.evaluateAddress m results a = .ok results') ↔
      ∀ history, m.data (vm.hash (.basic a)) = some history →
        ∀ p ∈ vm.writeHistory history, vm.EntryPasses a p ((vm.storageAccount a).forward
          ((vm.writeHistory history).filter fun q => q.1 < p.1)) := by
  unfold evaluateAddress
  cases hm : m.data (vm.hash (.basic a)) with
  | none => exact ⟨fun _ _ h => (by cases h), fun _ => ⟨results, rfl⟩⟩
  | some history =>
    have hsorted : (vm.writeHistory history).Pairwise fun p q => p.1 < q.1 :=
      writeHistory_sorted history
    have hloop : ∀ codeHash code, (∃ results', vm.evaluateHistory a codeHash code
        (vm.writeHistory history) (vm.evaluationStart a (vm.writeHistory history)) results =
          .ok results') ↔ ∀ p ∈ vm.writeHistory history, vm.EntryPasses a p
            ((vm.storageAccount a).forward
              ((vm.writeHistory history).filter fun q => q.1 < p.1)) := by
      intro codeHash code
      rw [evaluateHistory_ok_iff hsorted]
      exact forall₂_congr fun p hp => entryPasses_evaluationStart hsorted hp
    obtain ⟨codeHash, hcodeHash⟩ := hstorage.codeHash a
    simp only [hcodeHash, Except.mapError, Option.some.injEq, forall_eq']
    cases codeHash with
    | none => exact hloop none none
    | some hash =>
      obtain ⟨code, hcode⟩ := hstorage.codeByHash hash
      show (∃ results', (Except.mapError PevmError.storageError (vm.storage.codeByHash hash) >>= _) =
        .ok results') ↔ _
      rw [hcode]
      exact hloop (some hash) code

/-- **The evaluation accepts** iff every entry of every lazy address passes its checks, evaluated
forward from the storage. -/
theorem evaluateResults_ok_iff (hstorage : vm.storage.NeverFails) {m : MvMemory}
    {results : List PevmTxExecutionResult} :
    (∃ results', vm.evaluateResults m results = .ok results') ↔
      ∀ a ∈ m.lazyAddresses, ∀ history, m.data (vm.hash (.basic a)) = some history →
        ∀ p ∈ vm.writeHistory history, vm.EntryPasses a p ((vm.storageAccount a).forward
          ((vm.writeHistory history).filter fun q => q.1 < p.1)) := by
  unfold evaluateResults
  generalize cumulateGas 0 results = results₀
  generalize m.lazyAddresses = addresses
  induction addresses generalizing results₀ with
  | nil => exact ⟨fun _ b hb => (by cases hb), fun _ => ⟨results₀, rfl⟩⟩
  | cons b addresses ih =>
    rw [List.forall_mem_cons, List.foldlM_cons]
    have hfirst : (∃ results', vm.evaluateAddress m results₀ b = .ok results') ↔ _ :=
      evaluateAddress_ok_iff hstorage
    rw [← hfirst]
    constructor
    · rintro ⟨results', h⟩
      obtain ⟨results₁, hone, hrest⟩ := bind_eq_ok.mp h
      exact ⟨⟨results₁, hone⟩, (ih results₁).mp ⟨results', hrest⟩⟩
    · rintro ⟨⟨results₁, hone⟩, hall⟩
      obtain ⟨results', hrest⟩ := (ih results₁).mpr hall
      exact ⟨results', bind_eq_ok.mpr ⟨results₁, hone, hrest⟩⟩

/-! ## The errors of the evaluation -/

theorem evaluateHistory_error {entries : List (Nat × MemoryEntry)} {account : AccountBasic}
    {results : List PevmTxExecutionResult} {err : PevmError}
    (h : vm.evaluateHistory address codeHash code entries account results = .error err) :
    err.rejects = true ∨ err = .panic := by
  induction entries generalizing account results with
  | nil => cases h
  | cons p rest ih =>
    obtain ⟨j, entry⟩ := p
    rw [evaluateHistory] at h
    rcases bind_eq_error.mp h with herr | ⟨account', -, h⟩
    · unfold evaluateEntry at herr
      split at herr
      · cases herr
      · cases herr
      · split_ifs at herr
        cases herr
        exact .inl rfl
      · cases herr
        exact .inr rfl
    · rcases bind_eq_error.mp h with herr | ⟨-, -, hloop⟩
      · unfold checkExecutedNonce at herr
        split_ifs at herr <;> cases herr <;> exact .inl rfl
      · exact ih hloop

theorem evaluateAddress_error (hstorage : vm.storage.NeverFails) {m : MvMemory}
    {results : List PevmTxExecutionResult} {err : PevmError}
    (h : vm.evaluateAddress m results a = .error err) : err.rejects = true ∨ err = .panic := by
  unfold evaluateAddress at h
  split at h
  · cases h
  · obtain ⟨codeHash, hcodeHash⟩ := hstorage.codeHash a
    simp only [hcodeHash, Except.mapError] at h
    cases codeHash with
    | none => exact evaluateHistory_error h
    | some hash =>
      obtain ⟨code, hcode⟩ := hstorage.codeByHash hash
      rcases bind_eq_error.mp h with herr | ⟨codeHash', hok, h⟩
      · cases herr
      cases hok
      rcases bind_eq_error.mp h with herr | ⟨code', -, h⟩
      · simp only [hcode] at herr
        cases herr
      · exact evaluateHistory_error h

/-- Over a storage that does not fail, the evaluation rejects the block or panics if it fails. -/
theorem evaluateResults_error (hstorage : vm.storage.NeverFails) {m : MvMemory}
    {results : List PevmTxExecutionResult} {err : PevmError}
    (h : vm.evaluateResults m results = .error err) : err.rejects = true ∨ err = .panic := by
  unfold evaluateResults at h
  generalize cumulateGas 0 results = results₀ at h
  generalize m.lazyAddresses = addresses at h
  induction addresses generalizing results₀ with
  | nil => cases h
  | cons b addresses ih =>
    rw [List.foldlM_cons] at h
    rcases bind_eq_error.mp h with herr | ⟨results₁, -, hrest⟩
    · exact evaluateAddress_error hstorage herr
    · exact ih results₁ hrest

/-! ## Histories -/

/-- The entries below `i`. -/
theorem writeHistory_filter {history : WriteHistory} (hi : i ≤ vm.blockSize) :
    (vm.writeHistory history).filter (fun p => p.1 < i) =
      (List.range i).filterMap fun j => (history j).map fun entry => (j, entry) := by
  obtain ⟨k, hk⟩ := Nat.exists_eq_add_of_le hi
  unfold writeHistory
  rw [hk, List.range_add, List.filterMap_append, List.filter_append]
  have hbelow : ((List.range i).filterMap fun j => (history j).map fun entry => (j, entry)).filter
      (fun p => p.1 < i) =
      (List.range i).filterMap fun j => (history j).map fun entry => (j, entry) := by
    refine List.filter_eq_self.mpr fun p hp => ?_
    obtain ⟨j, hj, hentry⟩ := List.mem_filterMap.mp hp
    obtain ⟨e, -, rfl⟩ := Option.map_eq_some_iff.mp hentry
    simpa using hj
  have habove : (((List.range k).map (i + ·)).filterMap fun j =>
      (history j).map fun entry => (j, entry)).filter (fun p => p.1 < i) = [] := by
    refine List.filter_eq_nil_iff.mpr fun p hp => ?_
    obtain ⟨j, hj, hentry⟩ := List.mem_filterMap.mp hp
    obtain ⟨e, -, rfl⟩ := Option.map_eq_some_iff.mp hentry
    obtain ⟨j', -, rfl⟩ := List.mem_map.mp hj
    simp
  rw [hbelow, habove, List.append_nil]

/-- One more transaction. -/
theorem forward_filter_succ {history : WriteHistory} {account : AccountBasic}
    (hi : i < vm.blockSize) :
    account.forward ((vm.writeHistory history).filter fun p => p.1 < i + 1) =
      let before := account.forward ((vm.writeHistory history).filter fun p => p.1 < i)
      ((history i).map before.afterEntry).getD before := by
  rw [writeHistory_filter hi, writeHistory_filter hi.le, List.range_succ, List.filterMap_append,
    AccountBasic.forward, List.foldl_append]
  cases hentry : history i with
  | none => simp [hentry, AccountBasic.forward]
  | some entry => simp [hentry, AccountBasic.forward]

/-! ## The sequential accounts -/

section Sequential

variable {D : Type} {evm : SequentialEvm T D}

/-- The memory records what the sequential execution does to the accounts in `lazy_addresses`: an
account without an entry keeps its balance and nonce, an entry is the change by its transaction. -/
def RecordsSequential (vm : Vm T) (evm : SequentialEvm T D) (m : MvMemory) : Prop :=
  ∀ a ∈ m.lazyAddresses, ∀ i, i < vm.blockSize →
    let before := evm.account (vm.dbAt evm i) a
    evm.account (vm.dbAt evm (i + 1)) a =
      ((m.entry (vm.hash (.basic a)) i).map before.afterEntry).getD before

/-- The forward evaluation goes through the sequential accounts. -/
theorem RecordsSequential.forward {m : MvMemory} (h : vm.RecordsSequential evm m)
    (hnew : evm.account (evm.newDb vm.storage) a = vm.storageAccount a)
    (ha : a ∈ m.lazyAddresses) {history : WriteHistory}
    (hm : m.data (vm.hash (.basic a)) = some history) (hi : i ≤ vm.blockSize) :
    (vm.storageAccount a).forward ((vm.writeHistory history).filter fun p => p.1 < i) =
      evm.account (vm.dbAt evm i) a := by
  induction i with
  | zero =>
    rw [writeHistory_filter hi]
    exact hnew.symm
  | succ i ih =>
    have hentry : m.entry (vm.hash (.basic a)) i = history i := by
      rw [MvMemory.entry, hm]
      rfl
    rw [forward_filter_succ (Nat.lt_of_succ_le hi), ih (Nat.le_of_succ_le hi),
      h a ha i (Nat.lt_of_succ_le hi), hentry]

/-! ## Senders -/

/-- How often the authorizations of a list raise the nonce of an authority that has `nonce`: each
valid one by one. -/
def raises (authority : Authorization → Option Address) (a : Address) :
    BitVec 64 → List Authorization → Nat
  | _, [] => 0
  | nonce, auth :: rest =>
    if authority auth = some a ∧ auth.nonce = nonce then raises authority a (nonce + 1) rest + 1
    else raises authority a nonce rest

theorem raises_eq_zero_iff {authority : Authorization → Option Address} {nonce : BitVec 64} :
    ∀ {auths : List Authorization}, raises authority a nonce auths = 0 ↔
      ∀ auth ∈ auths, authority auth = some a → auth.nonce ≠ nonce
  | [] => by simp [raises]
  | auth :: rest => by
    rw [List.forall_mem_cons, raises]
    split_ifs with hvalid
    · simp [hvalid.1, hvalid.2]
    · rw [raises_eq_zero_iff]
      exact ⟨fun h => ⟨fun ha hn => hvalid ⟨ha, hn⟩, h⟩, fun h => h.2⟩

/-- What is assumed of revm about the senders of a block: the cache starts from the storage; the
sender of a transaction that has a nonce is checked; its nonce grows by one, by one more for each
valid authorization of its own, and for each contract that its own code creates in the transaction
(`creations`). The nonce of a deposit is not checked, and it carries no authorizations. -/
structure ChecksSenders (vm : Vm T) (evm : SequentialEvm T D)
    (authority : Authorization → Option Address) (creations : Nat → Nat) : Prop where
  newDb : ∀ a, evm.basic (evm.newDb vm.storage) a = vm.storage.basicRef a
  checked : ∀ i result state, i < vm.blockSize →
    evm.transact (vm.dbAt evm i) (vm.txs i) = .ok (result, state) →
    vm.chain.hasNonce (vm.txs i) = true →
    let tx := vm.chain.txEnv (vm.txs i)
    let sender := evm.account (vm.dbAt evm i) tx.caller
    sender.nonce = tx.nonce ∧ tx.maxBalanceSpending ≤ sender.balance.toNat
  raised : ∀ i result state, i < vm.blockSize →
    evm.transact (vm.dbAt evm i) (vm.txs i) = .ok (result, state) →
    let tx := vm.chain.txEnv (vm.txs i)
    let sender := evm.account (vm.dbAt evm i) tx.caller
    (evm.account (evm.commit (vm.dbAt evm i) state) tx.caller).nonce.toNat =
      sender.nonce.toNat + 1 + creations i +
        if vm.chain.hasNonce (vm.txs i) then
          raises authority tx.caller (sender.nonce + 1) tx.authorizationList
        else 0

/-- What makes the evaluation accept the sender of transaction `i`. -/
def AcceptsSender (vm : Vm T) (evm : SequentialEvm T D)
    (authority : Authorization → Option Address) (creations : Nat → Nat) (m : MvMemory) (i : Nat) :
    Prop :=
  let tx := vm.chain.txEnv (vm.txs i)
  let sender := evm.account (vm.dbAt evm i) tx.caller
  if vm.chain.hasNonce (vm.txs i) then
    -- no valid authorization of its own, and no contract created by its own code
    (∀ auth ∈ tx.authorizationList, authority auth = some tx.caller → auth.nonce ≠ tx.nonce + 1) ∧
      creations i = 0
  else
    tx.nonce.toNat = sender.nonce.toNat + creations i ∧
      ∀ k subtraction, m.entry (vm.hash (.basic tx.caller)) i = some (.data k (.lazySender subtraction)) →
        tx.maxFee ≤ sender.balance

theorem account_newDb (hstorage : vm.storage.NeverFails)
    (hnew : evm.basic (evm.newDb vm.storage) a = vm.storage.basicRef a) :
    evm.account (evm.newDb vm.storage) a = vm.storageAccount a := by
  unfold SequentialEvm.account storageAccount
  rw [hnew, Storage.basicRef]
  obtain ⟨account, haccount⟩ := hstorage.basic a
  obtain ⟨codeHash, hcodeHash⟩ := hstorage.codeHash a
  rw [haccount]
  cases account with
  | none => rfl
  | some account =>
    simp only [bind, Except.bind, hcodeHash]
    cases codeHash with
    | none => rfl
    | some hash =>
      obtain ⟨code, hcode⟩ := hstorage.codeByHash hash
      simp only [hcode]

theorem checkExecutedNonce_ok_iff {tx : TxEnv} {nonce : BitVec 64} :
    checkExecutedNonce i tx a nonce = .ok () ↔
      (tx.caller = a → nonce.toNat = tx.nonce.toNat + 1) := by
  unfold checkExecutedNonce
  split_ifs with hcaller hzero hne
  · simp [hcaller, hzero]
  · simp only [hcaller, true_imp_iff, false_iff]
    bv_omega
  · simp only [hcaller, true_imp_iff, true_iff]
    bv_omega
  · simp [hcaller]

/-- The checks at an entry of the sender of its transaction. -/
theorem entryPasses_caller {k : Nat} {value : MemoryValue} (hbasic : value.isBasic = true)
    {account : AccountBasic} :
    vm.EntryPasses (vm.chain.txEnv (vm.txs i)).caller (i, .data k value) account ↔
      (∀ subtraction, value = .lazySender subtraction →
        (vm.chain.txEnv (vm.txs i)).maxFee ≤ account.balance) ∧
      (account.after value).nonce.toNat = (vm.chain.txEnv (vm.txs i)).nonce.toNat + 1 := by
  unfold EntryPasses
  cases value with
  | codeHash _ | storage _ | selfDestructed => cases hbasic
  | basic info => simp [evaluateEntry, checkExecutedNonce_ok_iff, AccountBasic.after]
  | lazyRecipient addition =>
    simp [evaluateEntry, checkExecutedNonce_ok_iff, AccountBasic.after]
  | lazySender subtraction =>
    simp only [evaluateEntry, checkExecutedNonce_ok_iff, AccountBasic.after]
    by_cases hfunds : account.balance < (vm.chain.txEnv (vm.txs i)).maxFee
    · simp [hfunds, BitVec.not_le.mpr hfunds]
    · simp [hfunds, BitVec.not_lt.mp hfunds]

/-- The checks at an entry of another account. -/
theorem entryPasses_of_ne_caller {k : Nat} {value : MemoryValue} (hbasic : value.isBasic = true)
    (hsender : ∀ subtraction, value ≠ .lazySender subtraction) {account : AccountBasic}
    (ha : (vm.chain.txEnv (vm.txs i)).caller ≠ a) :
    vm.EntryPasses a (i, .data k value) account := by
  refine ⟨account.after value, ?_, checkExecutedNonce_ok_iff.mpr fun h => absurd h ha⟩
  cases value with
  | codeHash _ | storage _ | selfDestructed => cases hbasic
  | basic info | lazyRecipient addition => rfl
  | lazySender subtraction => exact absurd rfl (hsender subtraction)

end Sequential

section Runs

variable {U : Set MemoryLocation} {concurrencyLevel : Nat} {D : Type}
  {evm : SequentialEvm T D} {s : System Execution PevmTxExecutionResult ExecutionError}

/-- The end of a run without an abort, in which only the locations in `U` were written. -/
structure Ended (vm : Vm T) (U : Set MemoryLocation) (concurrencyLevel : Nat)
    (s : System Execution PevmTxExecutionResult ExecutionError) : Prop where
  reachable : vm.ReachableUsing U concurrencyLevel s
  level : 0 < concurrencyLevel
  left : ∀ w, w < concurrencyLevel → s.pc w = .left
  abortReason : s.abortReason = none

theorem Ended.finished (h : vm.Ended U concurrencyLevel s) (hi : i < vm.blockSize) :
    isExecutedOrValidated (s.scheduler.transactionsStatus i).status = true := by
  rw [validated_of_left h.reachable.reachable h.level h.left h.abortReason hi]
  rfl

/-- No empty slot is taken. -/
theorem Ended.takeSlots (h : vm.Ended U concurrencyLevel s) :
    ∃ results, PevmState.takeSlots s.executionResults vm.blockSize = some results := by
  have hslot : ∀ i, i < vm.blockSize → (s.executionResults i).isSome := by
    intro i hi
    obtain ⟨writes, r, -, -, hr⟩ :=
      (recorded_reachable keeps_known h.reachable).finished i (h.finished hi)
    rw [hr]
    rfl
  obtain ⟨results, hresults, -⟩ := PevmState.takeSlots_congr hslot fun _ _ => rfl
  exact ⟨results, hresults⟩

/-- The entries of the lazy addresses when the workers have left: values of accounts, and that of a
lazy sender only at the sender of the transaction. -/
theorem Ended.entry (h : vm.Ended U concurrencyLevel s)
    (hsource : SourceChain vm.chain vm.isEip161Enabled) (hU : vm.Separates U)
    (hi : i < vm.blockSize) (ha : a ∈ s.mvMemory.lazyAddresses) {e : MemoryEntry}
    (he : s.mvMemory.entry (vm.hash (.basic a)) i = some e) :
    ∃ k value, e = .data k value ∧ value.isBasic = true ∧
      ∀ subtraction, value = .lazySender subtraction → (vm.chain.txEnv (vm.txs i)).caller = a := by
  have haU := lazyAddresses_used hU h.reachable a ha
  obtain ⟨hdata, hwrite⟩ := finished_entries hsource h.reachable (h.finished hi)
  obtain ⟨writes, r, ⟨db, result, state, hout⟩, hS, -⟩ :=
    (recorded_reachable keeps_known h.reachable).finished i (h.finished hi)
  obtain ⟨value, hmem, rfl⟩ := entry_of_stored hS (fun l => (hwrite l).mp) he
  obtain ⟨location, hlocation, hhash, hholds⟩ := hout.holds hsource hU hmem
  refine ⟨_, value, rfl, ?_, ?_⟩
  · rw [← hU.injective haU hlocation hhash] at hholds
    exact hholds
  · rintro subtraction rfl
    have hcaller := (hout.lazySender hmem).2
    rw [hout.tx] at hcaller
    cases hU.injective haU (hU.caller i hi) hcaller
    rfl

/-- At the end of a run the evaluation rejects the block unless it accepts it. -/
theorem Ended.not_rejects_iff (h : vm.Ended U concurrencyLevel s)
    (hsource : SourceChain vm.chain vm.isEip161Enabled) (hU : vm.Separates U)
    (hstorage : vm.storage.NeverFails) (results : List PevmTxExecutionResult) :
    (∀ err, vm.evaluateResults s.mvMemory results = .error err → err.rejects = false) ↔
      ∃ results', vm.evaluateResults s.mvMemory results = .ok results' := by
  cases heval : vm.evaluateResults s.mvMemory results with
  | ok results' => exact ⟨fun _ => ⟨results', rfl⟩, fun _ err herr => (by cases herr)⟩
  | error err =>
    refine ⟨fun hno => ?_, fun ⟨results', hok⟩ => (by cases hok)⟩
    rcases evaluateResults_error hstorage heval with hrejects | rfl
    · rw [hno err rfl] at hrejects
      cases hrejects
    · refine absurd heval (evaluateResults_ne_panic (fun a ha j entry hj he => ?_) results)
      obtain ⟨k, value, rfl, hbasic, -⟩ := h.entry hsource hU hj ha he
      exact ⟨k, value, rfl, hbasic⟩

/-- The checks at an entry of a sender, where the memory records the sequential execution. -/
theorem entryPasses_iff {authority : Authorization → Option Address} {creations : Nat → Nat}
    {results : List PevmTxExecutionResult} (hseq : vm.executeRevmSequential evm = .ok results)
    (hrevm : vm.ChecksSenders evm authority creations) {m : MvMemory}
    (hrecords : vm.RecordsSequential evm m) (hi : i < vm.blockSize)
    (hcaller : (vm.chain.txEnv (vm.txs i)).caller ∈ m.lazyAddresses) {k : Nat} {value : MemoryValue}
    (hbasic : value.isBasic = true)
    (he : m.entry (vm.hash (.basic (vm.chain.txEnv (vm.txs i)).caller)) i = some (.data k value)) :
    vm.EntryPasses (vm.chain.txEnv (vm.txs i)).caller (i, .data k value)
        (evm.account (vm.dbAt evm i) (vm.chain.txEnv (vm.txs i)).caller) ↔
      vm.AcceptsSender evm authority creations m i := by
  obtain ⟨result, state, hstep⟩ := sequentialStep_of_ok hseq hi
  have hraised := hrevm.raised i result state hi hstep.transact
  have hafter := hrecords _ hcaller i hi
  simp only [he, Option.map_some, Option.getD_some, AccountBasic.afterEntry] at hafter
  dsimp only at hraised
  rw [← hstep.commit, hafter] at hraised
  rw [entryPasses_caller hbasic, hraised]
  unfold AcceptsSender
  simp only [he, Option.some.injEq, MemoryEntry.data.injEq]
  cases hnonce : vm.chain.hasNonce (vm.txs i) with
  | true =>
    obtain ⟨hsender, hfunds⟩ := hrevm.checked i result state hi hstep.transact hnonce
    have hmaxFee : (vm.chain.txEnv (vm.txs i)).maxFee ≤
        (evm.account (vm.dbAt evm i) (vm.chain.txEnv (vm.txs i)).caller).balance := by
      rw [BitVec.le_def, TxEnv.toNat_maxFee (lt_of_le_of_lt hfunds (BitVec.isLt _))]
      exact hfunds
    rw [if_pos rfl, if_pos rfl, hsender, ← raises_eq_zero_iff]
    constructor
    · rintro ⟨-, hsum⟩
      omega
    · rintro ⟨hraises, hcreations⟩
      exact ⟨fun _ _ => hmaxFee, by omega⟩
  | false =>
    rw [if_neg Bool.false_ne_true, if_neg Bool.false_ne_true]
    constructor
    · rintro ⟨hfunds, hsum⟩
      exact ⟨by omega, fun k' subtraction heq => hfunds subtraction heq.2⟩
    · rintro ⟨hsum, hfunds⟩
      exact ⟨fun subtraction heq => hfunds k subtraction ⟨rfl, heq⟩, by omega⟩

/-- **The evaluation accepts what the sequential execution accepts**, for a run whose memory records
the sequential execution at the lazy addresses, iff every sender among them meets `AcceptsSender`: a
transaction with a nonce has no valid authorization of its own sender, and a deposit carries the
nonce of its sender and can pay the maximal fee if it was written lazily. -/
theorem post_processing_accepts_iff (hsource : SourceChain vm.chain vm.isEip161Enabled)
    (hU : vm.Separates U) (h : vm.Ended U concurrencyLevel s) (hstorage : vm.storage.NeverFails)
    {seqResults : List PevmTxExecutionResult}
    (hseq : vm.executeRevmSequential evm = .ok seqResults)
    {authority : Authorization → Option Address} {creations : Nat → Nat}
    (hrevm : vm.ChecksSenders evm authority creations)
    (hrecords : vm.RecordsSequential evm s.mvMemory) :
    (∀ results err, PevmState.takeSlots s.executionResults vm.blockSize = some results →
      vm.evaluateResults s.mvMemory results = .error err → err.rejects = false) ↔
    ∀ i, i < vm.blockSize → (vm.chain.txEnv (vm.txs i)).caller ∈ s.mvMemory.lazyAddresses →
      vm.AcceptsSender evm authority creations s.mvMemory i := by
  obtain ⟨results, hslots⟩ := h.takeSlots
  have hrejects : (∀ results err, PevmState.takeSlots s.executionResults vm.blockSize = some results →
      vm.evaluateResults s.mvMemory results = .error err → err.rejects = false) ↔
      ∀ err, vm.evaluateResults s.mvMemory results = .error err → err.rejects = false := by
    refine ⟨fun hall err => hall results err hslots, fun hno results' err hslots' => ?_⟩
    obtain rfl : results = results' := Option.some.inj (hslots.symm.trans hslots')
    exact hno err
  rw [hrejects, h.not_rejects_iff hsource hU hstorage, evaluateResults_ok_iff hstorage]
  constructor
  · intro hall i hi hcaller
    -- the nonce of the sender changes, so that it has an entry
    obtain ⟨result, state, hstep⟩ := sequentialStep_of_ok hseq hi
    have hafter := hrecords _ hcaller i hi
    cases hentry : s.mvMemory.entry (vm.hash (.basic (vm.chain.txEnv (vm.txs i)).caller)) i with
    | none =>
      have hraised := hrevm.raised i result state hi hstep.transact
      simp only [hentry, Option.map_none, Option.getD_none] at hafter
      dsimp only at hraised
      rw [← hstep.commit, hafter] at hraised
      omega
    | some e =>
      obtain ⟨k, value, rfl, hbasic, -⟩ := h.entry hsource hU hi hcaller hentry
      obtain ⟨history, hm, hi'⟩ := Option.bind_eq_some_iff.mp hentry
      have hpasses := hall _ hcaller history hm _ (mem_writeHistory.mpr ⟨hi, hi'⟩)
      rw [hrecords.forward (account_newDb hstorage (hrevm.newDb _)) hcaller hm hi.le] at hpasses
      exact (entryPasses_iff hseq hrevm hrecords hi hcaller hbasic hentry).mp hpasses
  · intro hall a ha history hm p hp
    obtain ⟨i, e⟩ := p
    obtain ⟨hi, hi'⟩ := mem_writeHistory.mp hp
    have hentry : s.mvMemory.entry (vm.hash (.basic a)) i = some e := by
      rw [MvMemory.entry, hm]
      exact hi'
    obtain ⟨k, value, rfl, hbasic, hsender⟩ := h.entry hsource hU hi ha hentry
    rw [hrecords.forward (account_newDb hstorage (hrevm.newDb _)) ha hm hi.le]
    by_cases hcaller : (vm.chain.txEnv (vm.txs i)).caller = a
    · subst hcaller
      exact (entryPasses_iff hseq hrevm hrecords hi ha hbasic hentry).mpr (hall i hi ha)
    · exact entryPasses_of_ne_caller hbasic (fun sub hvalue => hcaller (hsender sub hvalue)) hcaller

/-! ## Code -/

theorem accountAt_cumulateGas {results : List PevmTxExecutionResult} {gas : BitVec 64} :
    accountAt (cumulateGas gas results) a i = accountAt results a i := by
  unfold accountAt
  induction results generalizing gas i with
  | nil => rfl
  | cons result rest ih =>
    cases i with
    | zero => rfl
    | succ i => exact ih

theorem foldlM_frame {m : MvMemory} {addresses : List Address}
    {results results' : List PevmTxExecutionResult}
    (h : addresses.foldlM (vm.evaluateAddress m) results = .ok results') (ha : a ∉ addresses) :
    accountAt results' a i = accountAt results a i := by
  induction addresses generalizing results with
  | nil =>
    cases h
    rfl
  | cons b addresses ih =>
    rw [List.foldlM_cons] at h
    obtain ⟨results₁, hone, hrest⟩ := bind_eq_ok.mp h
    rw [ih hrest fun hmem => ha (List.mem_cons_of_mem _ hmem),
      evaluateAddress_frame hone fun hab => ha (hab ▸ List.mem_cons_self)]

/-- What the evaluation leaves of a lazy address in the result of a transaction of its history. -/
theorem evaluateResults_accountAt {m : MvMemory} (hnodup : m.lazyAddresses.Nodup)
    {history : WriteHistory} {entry : MemoryEntry}
    (hm : m.data (vm.hash (.basic a)) = some history) (hi : i < vm.blockSize)
    (hentry : history i = some entry) {results results' : List PevmTxExecutionResult}
    (h : vm.evaluateResults m results = .ok results') (ha : a ∈ m.lazyAddresses) :
    ∃ codeHash code, vm.storedCode a = .ok (codeHash, code) ∧
      accountAt results' a i = (accountAt results a i).map fun old =>
        some (writeAccount vm.isEip161Enabled codeHash code (vm.evaluatedAt a history i)
          (old.getD none)) := by
  have hgas : accountAt (cumulateGas 0 results) a i = accountAt results a i := accountAt_cumulateGas
  rw [← hgas]
  unfold evaluateResults at h
  generalize cumulateGas 0 results = results₀ at h hgas ⊢
  clear hgas
  generalize m.lazyAddresses = addresses at h ha hnodup
  induction addresses generalizing results₀ with
  | nil => cases ha
  | cons b addresses ih =>
    rw [List.foldlM_cons] at h
    obtain ⟨results₁, hone, hrest⟩ := bind_eq_ok.mp h
    obtain ⟨hb, hnodup⟩ := List.nodup_cons.mp hnodup
    rcases List.mem_cons.mp ha with rfl | ha
    · -- the other addresses leave it as it is
      rw [foldlM_frame hrest hb]
      exact evaluateAddress_accountAt hone hm hi hentry
    · obtain ⟨codeHash, code, hstored, haccount⟩ := ih results₁ hrest ha hnodup
      refine ⟨codeHash, code, hstored, ?_⟩
      rw [haccount, evaluateAddress_frame hone fun hab => hb (hab ▸ ha)]

/-- Every lazy address is registered once. -/
theorem lazyAddresses_nodup (h : (workers (vm.config concurrencyLevel)).Reachable s) :
    s.mvMemory.lazyAddresses.Nodup := by
  refine invariant_of_step (P := fun s => s.mvMemory.lazyAddresses.Nodup)
    (fun s hs => ?_) (fun w s s' _ _ _ hstep ih => ?_) h
  · rw [hs.2.1]
    exact nodup_insertLazyAddresses List.nodup_nil
  · rcases hstep with hstep | hstep | hstep | hstep | hstep <;> cases hstep
    case execute.addLazyAddresses v x x' addresses hpc hx => exact nodup_insertLazyAddresses ih
    case execute.addNewBytecode v x x' hash code hpc hx =>
      simp only [System.goto_mvMemory, System.withMemory_mvMemory, addNewBytecode]
      split <;> exact ih
    all_goals exact ih

/-- Both results of transaction `i` have the account: removed, or kept with the same code. -/
def SameCode (results results' : List PevmTxExecutionResult) (a : Address) (i : Nat) : Prop :=
  ∃ account account', accountAt results a i = some (some account) ∧
    accountAt results' a i = some (some account') ∧
    account.map EvmAccount.codeParts = account'.map EvmAccount.codeParts

/-- The account that an execution left for `a` in the slot of transaction `i`. -/
def slotAccount (slots : List PevmTxExecutionResult) (a : Address) (i : Nat) : Option EvmAccount :=
  (accountAt slots a i).join.join

/-- Nothing is left of `a` after transaction `i`: it has no code in the storage and its write history
up to `i` leaves neither balance nor nonce. -/
def Vanishes (vm : Vm T) (m : MvMemory) (stored : Option B256 × Option Bytecode) (a : Address)
    (i : Nat) : Prop :=
  vm.isEip161Enabled = true ∧ stored.1 = none ∧
    ∃ history, m.data (vm.hash (.basic a)) = some history ∧ vm.evaluatedAt a history i = .default

/-- Transaction `i` was executed with a mock of its sender `a`, and carries no authorization of it. -/
def Mocked (vm : Vm T) (m : MvMemory) (authority : Authorization → Option Address) (a : Address)
    (i : Nat) : Prop :=
  (∃ k subtraction, m.entry (vm.hash (.basic a)) i = some (.data k (.lazySender subtraction))) ∧
    ∀ auth ∈ (vm.chain.txEnv (vm.txs i)).authorizationList, authority auth ≠ some a

/-- What is assumed of revm about the code of a sender: without an authorization of its own, it is
returned with the code that the run was given for it. -/
def ReturnsGivenCode (vm : Vm T) (authority : Authorization → Option Address) : Prop :=
  ∀ i, i < vm.blockSize →
    let tx := vm.chain.txEnv (vm.txs i)
    (∀ auth ∈ tx.authorizationList, authority auth ≠ some tx.caller) →
    ∀ given result state account, (vm.evm (vm.txs i)).Given given (.finish result state) →
      (tx.caller, account) ∈ state → ∃ info, (tx.caller, info) ∈ given ∧
        account.info.codeHash = (info.map AccountInfo.codeHash).getD keccakEmpty

/-- The code that the sequential execution has for `a` after transaction `i` is the one that the
workers leave: where the execution of `i` left no account for `a` the code from before the block,
for a mocked sender no code, and else the code of the account it left. -/
structure CodeRecorded (vm : Vm T) (m : MvMemory) (authority : Authorization → Option Address)
    (slots : List PevmTxExecutionResult) (stored : Option B256 × Option Bytecode) (a : Address)
    (i : Nat) (account : EvmAccount) : Prop where
  implicit : slotAccount slots a i = none → account.codeParts = stored
  mocked : (slotAccount slots a i).isSome → vm.Mocked m authority a i →
    account.codeParts = (none, none)
  explicit : ∀ left, slotAccount slots a i = some left → ¬ vm.Mocked m authority a i →
    account.codeParts = left.codeParts

/-- What revm reports of an account in the sequential execution of transaction `i`. -/
def sequentialAccount (vm : Vm T) (evm : SequentialEvm T D) (a : Address) (i : Nat) :
    Option (Option EvmAccount) :=
  match evm.transact (vm.dbAt evm i) (vm.txs i) with
  | .ok (_, state) => (stateTransitionsFromRevm vm.isEip161Enabled state).lookup a
  | .error _ => none

/-- In the sequential execution of transaction `i` the account `a` is self-destructed or empty, and it
vanishes; or it is kept, does not vanish and has the code that the workers leave. -/
def PresenceRecorded (vm : Vm T) (evm : SequentialEvm T D) (m : MvMemory)
    (authority : Authorization → Option Address) (slots : List PevmTxExecutionResult) (a : Address)
    (i : Nat) : Prop :=
  ∀ stored, vm.storedCode a = .ok stored →
    (vm.sequentialAccount evm a i = some none ∧ vm.Vanishes m stored a i) ∨
    ∃ account, vm.sequentialAccount evm a i = some (some account) ∧
      ¬ vm.Vanishes m stored a i ∧ vm.CodeRecorded m authority slots stored a i account

theorem accountAt_sequential {seqResults : List PevmTxExecutionResult}
    (hseq : vm.executeRevmSequential evm = .ok seqResults) (hi : i < vm.blockSize) :
    accountAt seqResults a i = some (vm.sequentialAccount evm a i) := by
  obtain ⟨result, state, hstep⟩ := sequentialStep_of_ok hseq hi
  obtain ⟨r, hr, hstate⟩ := Option.map_eq_some_iff.mp hstep.transitions
  rw [accountAt, hr, Option.map_some, hstate, sequentialAccount, hstep.transact]

/-- The code and the presence of an evaluated account. -/
theorem codeParts_writeAccount {isEip161Enabled : Bool} {evaluated : AccountBasic}
    {account : Option EvmAccount} :
    (writeAccount isEip161Enabled codeHash code evaluated account).map EvmAccount.codeParts =
      if isEip161Enabled = true ∧ codeHash = none ∧ evaluated = .default then none
      else some ((account.map EvmAccount.codeParts).getD (codeHash, code)) := by
  obtain ⟨balance, nonce⟩ := evaluated
  have hempty : (isEip161Enabled && codeHash.isNone && nonce = 0 && balance = 0) = true ↔
      isEip161Enabled = true ∧ codeHash = none ∧ (⟨balance, nonce⟩ : AccountBasic) = .default := by
    simp only [Bool.and_eq_true, Option.isNone_iff_eq_none, decide_eq_true_eq, AccountBasic.default,
      AccountBasic.mk.injEq, and_assoc, and_comm (a := nonce = 0)]
  unfold writeAccount
  by_cases h : isEip161Enabled = true ∧ codeHash = none ∧
      (⟨balance, nonce⟩ : AccountBasic) = .default
  · rw [if_pos h, if_pos (hempty.mpr h)]
    rfl
  · rw [if_neg h, if_neg fun hand => h (hempty.mp hand)]
    cases account <;> rfl

/-- A mocked sender is left without code. -/
theorem Ended.codeParts_mocked (h : vm.Ended U concurrencyLevel s)
    (hsource : SourceChain vm.chain vm.isEip161Enabled) (hU : vm.Separates U)
    {authority : Authorization → Option Address} (hrevm : vm.ReturnsGivenCode authority)
    {slots : List PevmTxExecutionResult}
    (hslots : PevmState.takeSlots s.executionResults vm.blockSize = some slots)
    (hi : i < vm.blockSize) (ha : a ∈ s.mvMemory.lazyAddresses)
    (hmocked : vm.Mocked s.mvMemory authority a i) {left : EvmAccount}
    (hleft : slotAccount slots a i = some left) : left.codeParts = (none, none) := by
  obtain ⟨⟨k, subtraction, he⟩, hauth⟩ := hmocked
  obtain ⟨-, hwrite⟩ := finished_entries hsource h.reachable (h.finished hi)
  obtain ⟨writes, r, ⟨db, result, state, hout⟩, hS, hslot⟩ :=
    (recorded_reachable keeps_known h.reachable).finished i (h.finished hi)
  obtain ⟨value, hmem, hvalue⟩ := entry_of_stored hS (fun l => (hwrite l).mp) he
  cases hvalue
  obtain ⟨hlazy, hhash⟩ := hout.lazySender hmem
  obtain rfl : a = db.tx.caller := by
    rw [hout.tx] at hhash ⊢
    cases hU.injective (lazyAddresses_used hU h.reachable a ha) (hU.caller i hi) hhash
    rfl
  -- the account in the slot is one of the journal
  have hlookup : r.state.lookup db.tx.caller = some (some left) := by
    unfold slotAccount accountAt at hleft
    rw [PevmState.takeSlots_getElem? hslots hi, hslot] at hleft
    cases hfound : r.state.lookup db.tx.caller with
    | none => simp [hfound] at hleft
    | some account => simpa [hfound] using hleft
  have hstate := AssocList.mem_of_lookup_eq_some hlookup
  rw [hout.result] at hstate
  obtain ⟨⟨b, account⟩, haccount, heq⟩ := List.mem_map.mp hstate
  simp only at heq
  split_ifs at heq
  · cases heq
  obtain ⟨rfl, hleft⟩ := Prod.mk.inj heq
  obtain rfl := Option.some.inj hleft
  -- its code is that of the mock
  obtain ⟨given, hrun, hmock⟩ := hout.run
  have hcaller := hout.tx
  obtain ⟨info, hgiven, hcode⟩ := hrevm i hi (by rw [← hcaller] at hauth ⊢; exact hauth) given result state
    account hrun (by rw [← hcaller]; exact (List.mem_filter.mp haccount).1)
  rw [← hcaller] at hgiven
  rw [hmock hlazy info hgiven] at hcode
  have hempty : account.info.isEmptyCodeHash = true := decide_eq_true hcode
  simp [EvmAccount.codeParts, EvmAccount.ofAccount, hempty]

/-- The code that the workers leave is the one that the evaluation returns. -/
theorem codeRecorded_iff {m : MvMemory} {authority : Authorization → Option Address}
    {slots : List PevmTxExecutionResult} {stored : Option B256 × Option Bytecode}
    (hmocked : vm.Mocked m authority a i → ∀ left, slotAccount slots a i = some left →
      left.codeParts = (none, none)) {account : EvmAccount} :
    vm.CodeRecorded m authority slots stored a i account ↔
      account.codeParts = ((slotAccount slots a i).map EvmAccount.codeParts).getD stored := by
  cases hslot : slotAccount slots a i with
  | none =>
    refine ⟨fun h => h.implicit hslot, fun h => ⟨fun _ => h, fun hsome => ?_, fun left hleft => ?_⟩⟩
    · rw [hslot] at hsome
      cases hsome
    · rw [hslot] at hleft
      cases hleft
  | some left =>
    simp only [Option.map_some, Option.getD_some]
    constructor
    · intro h
      by_cases hm : vm.Mocked m authority a i
      · rw [h.mocked (by rw [hslot]; rfl) hm, hmocked hm left hslot]
      · exact h.explicit left hslot hm
    · intro h
      refine ⟨fun hnone => ?_, fun _ hm => h.trans (hmocked hm left hslot), fun left' hleft _ => ?_⟩
      · rw [hslot] at hnone
        cases hnone
      · rw [hslot] at hleft
        cases hleft
        exact h

/-- **The code and presence of evaluated accounts.** For every lazy address and every transaction of
its write history, the account in the results of the block is present or removed and has its code as
in the sequential results, iff the workers have left it so. -/
theorem post_processed_code_iff (hsource : SourceChain vm.chain vm.isEip161Enabled)
    (hU : vm.Separates U) (h : vm.Ended U concurrencyLevel s)
    {slots results seqResults : List PevmTxExecutionResult}
    (hslots : PevmState.takeSlots s.executionResults vm.blockSize = some slots)
    (hok : vm.evaluateResults s.mvMemory slots = .ok results)
    (hseq : vm.executeRevmSequential evm = .ok seqResults)
    {authority : Authorization → Option Address} (hrevm : vm.ReturnsGivenCode authority)
    (ha : a ∈ s.mvMemory.lazyAddresses) (hi : i < vm.blockSize)
    (hentry : (s.mvMemory.entry (vm.hash (.basic a)) i).isSome) :
    SameCode results seqResults a i ↔
      vm.PresenceRecorded evm s.mvMemory authority slots a i := by
  obtain ⟨e, he⟩ := Option.isSome_iff_exists.mp hentry
  obtain ⟨history, hm, hhistory⟩ := Option.bind_eq_some_iff.mp he
  obtain ⟨codeHash, code, hstored, haccount⟩ := evaluateResults_accountAt
    (lazyAddresses_nodup h.reachable.reachable) hm hi hhistory hok ha
  obtain ⟨slot, hslot⟩ : ∃ slot, accountAt slots a i = some slot := by
    have hlength := PevmState.takeSlots_length hslots
    exact ⟨_, by rw [accountAt, List.getElem?_eq_getElem (hlength ▸ hi)]; rfl⟩
  have hparts : (writeAccount vm.isEip161Enabled codeHash code (vm.evaluatedAt a history i)
      (slot.getD none)).map EvmAccount.codeParts =
      if vm.isEip161Enabled = true ∧ codeHash = none ∧ vm.evaluatedAt a history i = .default then none
      else some (((slotAccount slots a i).map EvmAccount.codeParts).getD (codeHash, code)) := by
    rw [codeParts_writeAccount, slotAccount, hslot]
    cases slot <;> rfl
  have hvanishes : vm.Vanishes s.mvMemory (codeHash, code) a i ↔
      vm.isEip161Enabled = true ∧ codeHash = none ∧ vm.evaluatedAt a history i = .default := by
    simp [Vanishes, hm]
  have hmocked : vm.Mocked s.mvMemory authority a i → ∀ left, slotAccount slots a i = some left →
      left.codeParts = (none, none) :=
    fun hmocked left => h.codeParts_mocked hsource hU hrevm hslots hi ha hmocked
  have hsequential := accountAt_sequential (a := a) hseq hi
  simp only [SameCode, hsequential, Option.some.injEq, PresenceRecorded, hstored, Except.ok.injEq,
    forall_eq', hvanishes, codeRecorded_iff hmocked]
  rw [hslot, Option.map_some] at haccount
  constructor
  · rintro ⟨account, account', hpost, hseqAccount, hcode⟩
    obtain rfl := Option.some.inj (Option.some.inj (haccount.symm.trans hpost))
    rw [hparts] at hcode
    split_ifs at hcode with hnothing
    · obtain rfl : account' = none := by simpa using hcode.symm
      exact .inl ⟨hseqAccount, hnothing⟩
    · obtain ⟨kept, rfl, hkept⟩ := Option.map_eq_some_iff.mp hcode.symm
      exact .inr ⟨kept, hseqAccount, hnothing, hkept⟩
  · rintro (⟨hseqAccount, hnothing⟩ | ⟨account, hseqAccount, hkept, hcode⟩)
    · refine ⟨_, none, haccount, hseqAccount, ?_⟩
      rw [hparts, if_pos hnothing]
      rfl
    · refine ⟨_, some account, haccount, hseqAccount, ?_⟩
      rw [hparts, if_neg hkept, Option.map_some, hcode]

end Runs

end Vm

/-! ## Blocks of one transaction -/

namespace Sample

/-- A cache as what it answers with. -/
structure Cache where
  accounts : Address → Option AccountInfo
  slots : Address → U256 → U256

namespace Cache

/-- The run of a program on the cache. -/
def run (cache : Cache) : EvmProgram → Except String (ExecutionResult × EvmState)
  | .basic address next => cache.run (next (cache.accounts address))
  | .codeByHash _ next => cache.run (next counterCode)
  | .storage address index next => cache.run (next (cache.slots address index))
  | .blockHash _ next => cache.run (next 0)
  | .finish result state => .ok (result, state)
  | .fail _ => .error "rejected"

/-- The beneficiary is touched; no transaction here pays a fee. -/
def reward (cache : Cache) (state : EvmState) : EvmState :=
  if (state.lookup beneficiary).isSome then state
  else state ++ [(beneficiary, touched (orEmpty (cache.accounts beneficiary)) [])]

def commit (cache : Cache) (state : EvmState) : Cache :=
  (state.filter fun p => p.2.isTouched).foldl
    (fun cache (address, account) =>
      { accounts := Function.update cache.accounts address
          (if account.isSelfdestructed then none else some account.info)
        slots := Function.update cache.slots address fun index =>
          ((account.storage.lookup index).map StorageSlot.presentValue).getD
            (cache.slots address index) })
    cache

end Cache

def sequential (evm : TxEnv → EvmProgram) : SequentialEvm TxEnv Cache where
  newDb storage :=
    ⟨fun address => (storage.basicRef address).toOption.join,
      fun address index => (storage.storage address index).toOption.getD 0⟩
  basic cache address := .ok (cache.accounts address)
  transact cache tx :=
    (cache.run (evm tx)).map fun (result, state) => (result, cache.reward state)
  commit := Cache.commit

/-- The block of one transaction. -/
def single (tx : TxEnv) (storage : Storage) (program : EvmProgram) : Vm TxEnv :=
  { vm with blockSize := 1, txs := fun _ => tx, storage := storage, evm := fun _ => program }

theorem single_separates {tx : TxEnv} {storage : Storage} {program : EvmProgram}
    (hcaller : .basic tx.caller ∈ locations)
    {recipient : Address} (hkind : tx.kind = .call recipient)
    (hrecipient : .basic recipient ∈ locations) :
    (single tx storage program).Separates { l | l ∈ locations } := by
  refine ⟨separates.injective, separates.fees, fun _ _ => hcaller, fun _ _ a ha => ?_⟩
  have hcall : tx.kind.recipient = some a := ha
  rw [hkind] at hcall
  cases hcall
  exact hrecipient

theorem exists_ended {v : Vm TxEnv} (k : Nat)
    (p : System Vm.Execution PevmTxExecutionResult ExecutionError → Bool)
    (h : ((workers (v.config 1)).runVia usesOnly (schedule [(0, k)]) (start (v.config 1))).any
      (fun s => (s.pc 0).hasLeft && s.abortReason.isNone && p s) = true) :
    ∃ s, v.Ended { l | l ∈ locations } 1 s ∧ p s = true := by
  obtain ⟨s, hs, hp⟩ := exists_reachableVia (v.config 1) usesOnly [(0, k)] _ h
  simp only [Bool.and_eq_true, Option.isNone_iff_eq_none] at hp
  obtain ⟨⟨hleft, hnone⟩, hp⟩ := hp
  refine ⟨s, ⟨hs.mono fun _ _ => usesOnly_sound, by decide, fun w hw => ?_, hnone⟩, hp⟩
  obtain rfl : w = 0 := Nat.lt_one_iff.mp hw
  exact Pc.hasLeft_iff.mp hleft

theorem storage_neverFails : storage.NeverFails :=
  ⟨fun _ => ⟨_, rfl⟩, fun _ => ⟨_, rfl⟩, fun _ => ⟨_, rfl⟩, fun _ => ⟨_, rfl⟩, fun _ _ => ⟨_, rfl⟩⟩

/-- The memory records the sequential execution. -/
def records (v : Vm TxEnv) (s : System Vm.Execution PevmTxExecutionResult ExecutionError) : Bool :=
  s.mvMemory.lazyAddresses.all fun a => (List.range v.blockSize).all fun i =>
    let evm := sequential v.evm
    let before := evm.account (v.dbAt evm i) a
    evm.account (v.dbAt evm (i + 1)) a =
      ((s.mvMemory.entry (v.hash (.basic a)) i).map before.afterEntry).getD before

theorem records_sound {v : Vm TxEnv} {s : System Vm.Execution PevmTxExecutionResult ExecutionError}
    (h : records v s = true) : v.RecordsSequential (sequential v.evm) s.mvMemory := by
  intro a ha i hi
  have hall := List.all_eq_true.mp (List.all_eq_true.mp h a ha) i (List.mem_range.mpr hi)
  simpa using hall

theorem newDb_basic {storage : Storage} (h : storage.NeverFails) (evm : TxEnv → EvmProgram)
    (a : Address) :
    (sequential evm).basic ((sequential evm).newDb storage) a = storage.basicRef a := by
  obtain ⟨account, haccount⟩ := h.basic a
  obtain ⟨codeHash, hcodeHash⟩ := h.codeHash a
  show Except.ok (storage.basicRef a).toOption.join = storage.basicRef a
  unfold Storage.basicRef
  rw [haccount]
  cases account with
  | none => rfl
  | some account =>
    simp only [bind, Except.bind, hcodeHash]
    cases codeHash with
    | none => rfl
    | some hash =>
      obtain ⟨code, hcode⟩ := h.codeByHash hash
      simp only [hcode]
      rfl

/-- A transfer from the beneficiary, which is lazy. -/
def lazyTransfer : Vm TxEnv :=
  single (tx beneficiary 5 1) storage (transfer beneficiary 5 1)

/-- A call of the counter by the beneficiary that carries an authorization of its own sender. -/
def authorizedCall : Vm TxEnv :=
  single
    { tx beneficiary counter 0 with
      gasLimit := 100000
      authorizationList := [⟨1, 5, 1, some beneficiary⟩] }
    storage
    (.basic beneficiary fun sender => .basic counter fun callee => .storage counter 0 fun value =>
      .finish ⟨true, 55610, []⟩
        [(beneficiary, touched { orEmpty sender with
            nonce := (orEmpty sender).nonce + 2
            codeHash := 9
            code := some (.eip7702 5) } []),
          (counter, touched (orEmpty callee) [(0, ⟨value, value + 1⟩)])])

theorem lazyTransfer_checksSenders : lazyTransfer.ChecksSenders (sequential lazyTransfer.evm)
    Authorization.authority fun _ => 0 where
  newDb := newDb_basic storage_neverFails _
  checked
    | 0, _, _, _, _, _ => by decide +kernel
  raised
    | 0, result, state, _, h => by
      dsimp only
      rw [← (sequential lazyTransfer.evm).next_eq h]
      decide +kernel

theorem authorizedCall_checksSenders : authorizedCall.ChecksSenders (sequential authorizedCall.evm)
    Authorization.authority fun _ => 0 where
  newDb := newDb_basic storage_neverFails _
  checked
    | 0, _, _, _, _, _ => by decide +kernel
  raised
    | 0, result, state, _, h => by
      dsimp only
      rw [← (sequential authorizedCall.evm).next_eq h]
      decide +kernel

/-- The sequential execution accepts the block. -/
theorem exists_sequential {v : Vm TxEnv}
    (h : (v.executeRevmSequential (sequential v.evm)).toBool = true) :
    ∃ results, v.executeRevmSequential (sequential v.evm) = .ok results := by
  cases hresults : v.executeRevmSequential (sequential v.evm) with
  | ok results => exact ⟨results, rfl⟩
  | error err =>
    rw [hresults] at h
    cases h

end Sample

/-- The evaluation accepts a lazy transfer of the beneficiary. -/
theorem post_processing_accepts_sample : ∃ s, Sample.lazyTransfer.Ended { l | l ∈ Sample.locations } 1 s ∧
    Sample.beneficiary ∈ s.mvMemory.lazyAddresses ∧
    ∀ results err, PevmState.takeSlots s.executionResults 1 = some results →
      Sample.lazyTransfer.evaluateResults s.mvMemory results = .error err → err.rejects = false := by
  obtain ⟨s, hs, hp⟩ := Sample.exists_ended (v := Sample.lazyTransfer) 30
    (fun s => Sample.records Sample.lazyTransfer s && s.mvMemory.lazyAddresses.contains Sample.beneficiary)
    (by decide +kernel)
  obtain ⟨hrecords, hmem⟩ := Bool.and_eq_true_iff.mp hp
  obtain ⟨seqResults, hseq⟩ := Sample.exists_sequential (v := Sample.lazyTransfer) (by decide +kernel)
  refine ⟨s, hs, List.contains_iff_mem.mp hmem, ?_⟩
  refine (Vm.post_processing_accepts_iff (.ethereum true)
    (Sample.single_separates (by decide) rfl (by decide)) hs Sample.storage_neverFails hseq
    Sample.lazyTransfer_checksSenders (Sample.records_sound hrecords)).mpr ?_
  intro i hi _
  exact ⟨fun auth hauth => (by cases hauth), rfl⟩

/-- The sequential execution accepts a call with an authorization of its own sender, the memory
records it, and the evaluation rejects it for the nonce that the authorization raised. -/
theorem post_processing_rejects_authorized_sender : ∃ s,
    Sample.authorizedCall.Ended { l | l ∈ Sample.locations } 1 s ∧
    Sample.authorizedCall.Separates { l | l ∈ Sample.locations } ∧
    Sample.authorizedCall.storage.NeverFails ∧
    Sample.authorizedCall.ChecksSenders (Sample.sequential Sample.authorizedCall.evm)
      Authorization.authority (fun _ => 0) ∧
    Sample.authorizedCall.RecordsSequential (Sample.sequential Sample.authorizedCall.evm)
      s.mvMemory ∧
    (∃ seqResults, Sample.authorizedCall.executeRevmSequential
      (Sample.sequential Sample.authorizedCall.evm) = .ok seqResults) ∧
    ∃ results, PevmState.takeSlots s.executionResults 1 = some results ∧
      Sample.authorizedCall.evaluateResults s.mvMemory results = .error (.nonceMismatch 0 0 1) := by
  obtain ⟨s, hs, hp⟩ := Sample.exists_ended (v := Sample.authorizedCall) 34
    (fun s => Sample.records Sample.authorizedCall s &&
      ((PevmState.takeSlots s.executionResults 1).any fun results =>
        match Sample.authorizedCall.evaluateResults s.mvMemory results with
        | .error err => err = .nonceMismatch 0 0 1
        | .ok _ => false))
    (by decide +kernel)
  obtain ⟨hrecords, hrejects⟩ := Bool.and_eq_true_iff.mp hp
  obtain ⟨results, hslots, herr⟩ := (Option.any_eq_true _ _).mp hrejects
  refine ⟨s, hs, Sample.single_separates (by decide) rfl (by decide), Sample.storage_neverFails,
    Sample.authorizedCall_checksSenders, Sample.records_sound hrecords,
    Sample.exists_sequential (by decide +kernel), results, hslots, ?_⟩
  cases heval : Sample.authorizedCall.evaluateResults s.mvMemory results with
  | ok _ => simp [heval] at herr
  | error err =>
    simp only [heval, decide_eq_true_eq] at herr
    rw [herr]

namespace Sample

/-- The beneficiary delegates its code. -/
def delegatedStorage : Storage :=
  { storage with
    codeHash := fun address =>
      .ok (if address = counter then some 7 else if address = beneficiary then some 8 else none)
    codeByHash := fun hash =>
      .ok (if hash = 7 then some counterCode else if hash = 8 then some (.eip7702 5) else none) }

/-- A lazy transfer from a sender that delegates its code. -/
def delegatedTransfer : Vm TxEnv :=
  single (tx beneficiary 5 1) delegatedStorage (transfer beneficiary 5 1)

/-- What a transfer has been given. -/
theorem transfer_given {caller recipient : Address} {value : U256} {program : EvmProgram}
    {given : List (Address × Option AccountInfo)}
    (h : (transfer caller recipient value).Given given program) :
    (given = [] ∧ program = transfer caller recipient value) ∨
    (∃ sender next, given = [(caller, sender)] ∧ transfer caller recipient value = .basic caller next ∧
      program = next sender) ∨
    ∃ sender callee, given = [(recipient, callee), (caller, sender)] ∧
      program = .finish ⟨true, 21000, []⟩
        [(caller, touched { orEmpty sender with
            balance := (orEmpty sender).balance - value
            nonce := (orEmpty sender).nonce + 1 } []),
          (recipient, touched { orEmpty callee with
            balance := (orEmpty callee).balance + value } [])] := by
  induction h with
  | start => exact .inl ⟨rfl, rfl⟩
  | basic h info ih =>
    rcases ih with ⟨rfl, hprogram⟩ | ⟨sender, next, rfl, htransfer, hprogram⟩ | ⟨_, _, -, hprogram⟩
    · cases hprogram
      exact .inr (.inl ⟨info, _, rfl, rfl, rfl⟩)
    · cases htransfer
      cases hprogram
      exact .inr (.inr ⟨sender, info, rfl, rfl⟩)
    · cases hprogram
  | codeByHash _ _ ih | storage _ _ ih | blockHash _ _ ih =>
    rcases ih with ⟨-, hprogram⟩ | ⟨_, _, -, htransfer, hprogram⟩ | ⟨_, _, -, hprogram⟩
    · cases hprogram
    · cases htransfer
      cases hprogram
    · cases hprogram

/-- A transfer returns the sender with the code it was given. -/
theorem single_returnsGivenCode {storage : Storage} :
    (single (tx beneficiary 5 1) storage (transfer beneficiary 5 1)).ReturnsGivenCode
      Authorization.authority := by
  intro i _ tx _ given result state account hrun hmem
  rcases transfer_given hrun with ⟨-, hprogram⟩ | ⟨_, _, -, htransfer, hprogram⟩ |
    ⟨sender, callee, rfl, hprogram⟩
  · cases hprogram
  · cases htransfer
    cases hprogram
  · obtain ⟨-, rfl⟩ := EvmProgram.finish.inj hprogram
    refine ⟨sender, List.mem_cons_of_mem _ List.mem_cons_self, ?_⟩
    rcases List.mem_cons.mp hmem with heq | hmem
    · obtain ⟨-, rfl⟩ := Prod.mk.inj heq
      cases sender <;> rfl
    · obtain ⟨hfalse, -⟩ := Prod.mk.inj (List.mem_singleton.mp hmem)
      exact absurd (show beneficiary = 5 from hfalse) (by decide)

/-- The end of a lazy transfer of the beneficiary: its result is evaluated, and what it says of the
code of the sender. -/
theorem exists_transferred {v : Vm TxEnv} {c : Option B256}
    (h : ((workers (v.config 1)).runVia usesOnly (schedule [(0, 30)]) (start (v.config 1))).any
      (fun s => (s.pc 0).hasLeft && s.abortReason.isNone &&
        (s.mvMemory.lazyAddresses.contains beneficiary &&
          ((s.mvMemory.data (v.hash (.basic beneficiary))).any fun history =>
            (history 0).isSome && v.evaluatedAt beneficiary history 0 ≠ .default) &&
          ((PevmState.takeSlots s.executionResults v.blockSize).any fun slots =>
            ((Vm.slotAccount slots beneficiary 0).map EvmAccount.codeParts = some (none, none)) &&
            match v.evaluateResults s.mvMemory slots with
            | .ok results =>
              (Vm.accountAt results beneficiary 0).join.map (Option.map EvmAccount.codeHash) =
                some (some c)
            | .error _ => false))) = true) :
    ∃ s slots results, v.Ended { l | l ∈ locations } 1 s ∧
      beneficiary ∈ s.mvMemory.lazyAddresses ∧
      (∃ history, s.mvMemory.data (v.hash (.basic beneficiary)) = some history ∧
        (history 0).isSome ∧ v.evaluatedAt beneficiary history 0 ≠ .default) ∧
      PevmState.takeSlots s.executionResults v.blockSize = some slots ∧
      (Vm.slotAccount slots beneficiary 0).map EvmAccount.codeParts = some (none, none) ∧
      v.evaluateResults s.mvMemory slots = .ok results ∧
      (Vm.accountAt results beneficiary 0).join.map (Option.map EvmAccount.codeHash) =
        some (some c) := by
  obtain ⟨s, hs, hp⟩ := exists_ended 30 _ h
  obtain ⟨hp, hresults⟩ := Bool.and_eq_true_iff.mp hp
  obtain ⟨hmem, hentry⟩ := Bool.and_eq_true_iff.mp hp
  obtain ⟨history, hhistory, hevaluated⟩ := (Option.any_eq_true _ _).mp hentry
  obtain ⟨hsome, hne⟩ := Bool.and_eq_true_iff.mp hevaluated
  obtain ⟨slots, hslots, hp⟩ := (Option.any_eq_true _ _).mp hresults
  obtain ⟨hcode, hp⟩ := Bool.and_eq_true_iff.mp hp
  cases heval : v.evaluateResults s.mvMemory slots with
  | error err => simp [heval] at hp
  | ok results =>
    simp only [heval, decide_eq_true_eq] at hp
    exact ⟨s, slots, results, hs, List.contains_iff_mem.mp hmem,
      ⟨history, hhistory, hsome, of_decide_eq_true hne⟩, hslots,
      of_decide_eq_true hcode, heval, hp⟩

end Sample

/-- The sender of a lazy transfer without code keeps none. -/
theorem post_processed_code_sample : ∃ s slots results seqResults,
    Sample.lazyTransfer.Ended { l | l ∈ Sample.locations } 1 s ∧
    PevmState.takeSlots s.executionResults 1 = some slots ∧
    Sample.lazyTransfer.evaluateResults s.mvMemory slots = .ok results ∧
    Sample.lazyTransfer.executeRevmSequential (Sample.sequential Sample.lazyTransfer.evm) =
      .ok seqResults ∧
    Sample.beneficiary ∈ s.mvMemory.lazyAddresses ∧
    Vm.SameCode results seqResults Sample.beneficiary 0 := by
  obtain ⟨s, slots, results, hs, hmem, ⟨history, hhistory, hsome, hne⟩, hslots, hslot, hok, hcode⟩ :=
    Sample.exists_transferred (v := Sample.lazyTransfer) (c := none) (by decide +kernel)
  obtain ⟨seqResults, hseq⟩ := Sample.exists_sequential (v := Sample.lazyTransfer) (by decide +kernel)
  have hentry : (s.mvMemory.entry (Sample.lazyTransfer.hash (.basic Sample.beneficiary)) 0).isSome := by
    rw [MvMemory.entry, hhistory]
    exact hsome
  have hsequential : (Sample.lazyTransfer.sequentialAccount (Sample.sequential Sample.lazyTransfer.evm)
      Sample.beneficiary 0).map (Option.map EvmAccount.codeParts) = some (some (none, none)) := by
    decide +kernel
  refine ⟨s, slots, results, seqResults, hs, hslots, hok, hseq, hmem, ?_⟩
  refine (Vm.post_processed_code_iff (.ethereum true)
    (Sample.single_separates (by decide) rfl (by decide)) hs hslots hok hseq
    Sample.single_returnsGivenCode hmem (by decide) hentry).mpr fun stored hstored => .inr ?_
  obtain ⟨kept, hkept, hmap⟩ := Option.map_eq_some_iff.mp hsequential
  obtain ⟨account, rfl, hparts⟩ := Option.map_eq_some_iff.mp hmap
  refine ⟨account, hkept, ?_, fun hnone => ?_, fun _ _ => hparts, fun left hleft _ => ?_⟩
  · rintro ⟨-, -, history', hhistory', hempty⟩
    obtain rfl : history = history' := Option.some.inj (hhistory.symm.trans hhistory')
    exact hne hempty
  · rw [hnone] at hslot
    cases hslot
  · rw [hleft] at hslot
    exact hparts.trans (Option.some.inj hslot).symm

/-- The delegation of the sender of a lazy transfer is dropped from the result: its mock has no
code. -/
theorem post_processing_drops_delegation : ∃ s slots results seqResults,
    Sample.delegatedTransfer.Ended { l | l ∈ Sample.locations } 1 s ∧
    Sample.delegatedTransfer.Separates { l | l ∈ Sample.locations } ∧
    Sample.delegatedTransfer.ReturnsGivenCode Authorization.authority ∧
    PevmState.takeSlots s.executionResults 1 = some slots ∧
    Sample.delegatedTransfer.evaluateResults s.mvMemory slots = .ok results ∧
    Sample.delegatedTransfer.executeRevmSequential
      (Sample.sequential Sample.delegatedTransfer.evm) = .ok seqResults ∧
    Sample.beneficiary ∈ s.mvMemory.lazyAddresses ∧
    (s.mvMemory.entry (Sample.delegatedTransfer.hash (.basic Sample.beneficiary)) 0).isSome ∧
    ¬ Vm.SameCode results seqResults Sample.beneficiary 0 := by
  obtain ⟨s, slots, results, hs, hmem, ⟨history, hhistory, hsome, -⟩, hslots, -, hok, hcode⟩ :=
    Sample.exists_transferred (v := Sample.delegatedTransfer) (c := none) (by decide +kernel)
  obtain ⟨seqResults, hseq⟩ :=
    Sample.exists_sequential (v := Sample.delegatedTransfer) (by decide +kernel)
  have hsequential : (Sample.delegatedTransfer.sequentialAccount
      (Sample.sequential Sample.delegatedTransfer.evm) Sample.beneficiary 0).map
        (Option.map EvmAccount.codeHash) = some (some (some 8)) := by
    decide +kernel
  refine ⟨s, slots, results, seqResults, hs, Sample.single_separates (by decide) rfl (by decide),
    Sample.single_returnsGivenCode, hslots, hok, hseq, hmem, ?_, ?_⟩
  · rw [MvMemory.entry, hhistory]
    exact hsome
  rintro ⟨account, account', hpost, hseqAccount, hsame⟩
  rw [Vm.accountAt_sequential hseq (by decide)] at hseqAccount
  rw [Option.some.inj hseqAccount] at hsequential
  rw [hpost] at hcode
  -- the code hashes differ
  have hhash := congrArg (Option.map Prod.fst) hsame
  simp only [Option.map_map] at hhash
  have hleft : account.map EvmAccount.codeHash = some none := Option.some.inj hcode
  have hright : account'.map EvmAccount.codeHash = some (some 8) := Option.some.inj hsequential
  exact absurd (hleft.symm.trans (hhash.trans hright)) (by decide)

end Pevm
