import Pevm.Proofs.Indices
import Pevm.Proofs.SequentialRun

/-!
# The results of the parallel and of the sequential execution

The results of the workers have the journals as the transactions left them, without the rewards; the
fee recipients are evaluated into them at the end. The results of `execute_revm_sequential` have the
rewards in the journals. Here the two are compared account by account: what the evaluation makes of a
fee recipient after a transaction is the account that revm has rewarded (`InStep.accountAt_fee`), so
that the results agree (`serial_eq_sequential`). The nonces that the evaluation asserts are those of
the same accounts (`evaluateResults_of_counted`).
-/

namespace Pevm

open Interleaving Scheduler MvMemory Saturating

/-! ## The sequential results -/

/-- What the results say of an account that the journal has. -/
theorem lookup_stateTransitionsFromRevm {isEip161Enabled : Bool} {state : EvmState}
    (hnodup : (AssocList.keys state).Nodup) (a : Address) :
    (stateTransitionsFromRevm isEip161Enabled state).lookup a =
      ((state.lookup a).filter Account.isTouched).map fun account =>
        if account.isSelfdestructed || account.isEmpty && isEip161Enabled then none
        else some (EvmAccount.ofAccount account) := by
  rw [← AssocList.lookup_map_filter hnodup]
  unfold stateTransitionsFromRevm
  refine congrArg (List.lookup a) (List.map_congr_left fun p _ => ?_)
  obtain ⟨address, account⟩ := p
  show (if _ then _ else _) = (address, if _ then _ else _)
  split_ifs <;> rfl

/-- The rewards keep the journal a map. -/
theorem EvmState.nodup_foldl_pay {codes : B256 → Bytecode} {shown : Shown}
    {pays : List (Address × U256)} {state : EvmState} (h : (AssocList.keys state).Nodup) :
    (AssocList.keys (pays.foldl (EvmState.pay codes shown) state)).Nodup := by
  induction pays generalizing state with
  | nil => exact h
  | cons p pays ih =>
    refine ih ?_
    unfold EvmState.pay
    cases hlookup : state.lookup p.1 with
    | some account =>
      have hkeys : AssocList.keys (state.map fun q =>
          if q.1 = p.1 then (q.1, q.2.paid p.2.toNat) else q) = AssocList.keys state := by
        unfold AssocList.keys
        rw [List.map_map]
        refine List.map_congr_left fun q _ => ?_
        show (if _ then _ else _ : Address × Account).1 = q.1
        split_ifs <;> rfl
      show (AssocList.keys (state.map _)).Nodup
      rw [hkeys]
      exact h
    | none =>
      show (AssocList.keys (state ++ _)).Nodup
      rw [AssocList.keys_append]
      refine List.Nodup.append h (List.nodup_singleton _) fun a hmem hone => ?_
      obtain rfl := List.mem_singleton.mp hone
      exact AssocList.lookup_eq_none_iff.mp hlookup hmem

namespace SequentialEvm

variable {T D : Type} (evm : SequentialEvm T D) (isEip161Enabled : Bool)

/-- Transactions that are all accepted are executed, and their receipts carry the gas used. -/
theorem executeAll_of_accepted : ∀ (txs : List T) (db : D) (gas : BitVec 64),
    (∀ i tx, txs[i]? = some tx → ∃ p, evm.transact ((txs.take i).foldl evm.next db) tx = .ok p) →
    ∃ plain, evm.executeAll isEip161Enabled txs db gas = .ok (cumulateGas gas plain) ∧
      plain.length = txs.length ∧ ∀ i tx result state, txs[i]? = some tx →
        evm.transact ((txs.take i).foldl evm.next db) tx = .ok (result, state) →
        plain[i]? = some ⟨receiptFromRevm result, stateTransitionsFromRevm isEip161Enabled state⟩
  | [], _, _, _ => ⟨[], rfl, rfl, fun _ _ _ _ hi => by cases hi⟩
  | tx :: txs, db, gas, haccepted => by
    obtain ⟨⟨result, state⟩, hok⟩ := haccepted 0 tx rfl
    have hok : evm.transact db tx = .ok (result, state) := hok
    -- the others run on the cache after the first
    have hrest : ∀ i tx', txs[i]? = some tx' →
        ∃ p, evm.transact ((txs.take i).foldl evm.next (evm.commit db state)) tx' = .ok p := by
      intro i tx' hi
      have hnext := haccepted (i + 1) tx' hi
      rw [List.take_succ_cons, List.foldl_cons, evm.next_eq hok] at hnext
      exact hnext
    obtain ⟨plain, hexecute, hlength, hplain⟩ := executeAll_of_accepted txs _
      (saturatingAdd gas (receiptFromRevm result).cumulativeGasUsed) hrest
    refine ⟨⟨receiptFromRevm result, stateTransitionsFromRevm isEip161Enabled state⟩ :: plain, ?_,
      congrArg (· + 1) hlength, fun i tx' result' state' hi hok' => ?_⟩
    · rw [executeAll, hok]
      show (evm.executeAll isEip161Enabled txs (evm.commit db state) _ >>= _) = _
      rw [hexecute]
      rfl
    · cases i with
      | zero =>
        cases hi
        have heq := hok.symm.trans hok'
        cases heq
        rfl
      | succ i =>
        rw [List.take_succ_cons, List.foldl_cons, evm.next_eq hok] at hok'
        exact hplain i tx' result' state' hi hok'

end SequentialEvm

/-! ## The evaluation of an account -/

theorem WriteHistory.reverse_below (history : WriteHistory) (n : Nat) :
    (history.below n).reverse =
      (List.range n).filterMap fun j => (history j).map fun entry => (j, entry) := by
  induction n with
  | zero => rfl
  | succ n ih =>
    rw [List.range_succ, List.filterMap_append, ← ih, below]
    cases hentry : history n with
    | none => simp [hentry]
    | some entry => simp [hentry]

namespace LazyEvaluation

/-- The forward evaluation of absolute values and additions. -/
theorem forward_additive {start : AccountBasic} {entries : List (Nat × MemoryEntry)}
    (hadditive : ∀ p ∈ entries, p.2.IsAdditive) :
    start.forward entries.reverse = ((base entries).getD start).plus (additions entries) := by
  induction entries with
  | nil => exact (AccountBasic.plus_zero start).symm
  | cons p entries ih =>
    obtain ⟨i, entry⟩ := p
    rw [forward_cons, ih fun q hq => hadditive q (List.mem_cons_of_mem _ hq)]
    rcases hadditive (i, entry) List.mem_cons_self with ⟨k, account, hentry⟩ | ⟨k, amount, hentry⟩
    · obtain rfl : entry = .data k (.basic account) := hentry
      exact (AccountBasic.plus_zero account).symm
    · obtain rfl : entry = .data k (.lazyRecipient amount) := hentry
      apply AccountBasic.eq_plus
      · show (saturatingAdd (AccountBasic.plus _ _).balance amount).toNat =
          min (_ + (amount.toNat + additions entries)) (2 ^ 256 - 1)
        rw [toNat_saturatingAdd, AccountBasic.toNat_plus]
        show _ = min (((base entries).getD start).balance.toNat + _) _
        omega
      · rfl

/-- Without an absolute value there are only additions. -/
theorem isLazy_of_base {entries : List (Nat × MemoryEntry)}
    (hadditive : ∀ p ∈ entries, p.2.IsAdditive) (hbase : base entries = none) :
    ∀ p ∈ entries, p.2.isLazy = true := by
  induction entries with
  | nil => exact fun p hp => by cases hp
  | cons p entries ih =>
    obtain ⟨i, entry⟩ := p
    rcases hadditive (i, entry) List.mem_cons_self with ⟨k, account, hentry⟩ | ⟨k, amount, hentry⟩
    · obtain rfl : entry = .data k (.basic account) := hentry
      cases hbase
    · obtain rfl : entry = .data k (.lazyRecipient amount) := hentry
      exact List.forall_mem_cons.mpr
        ⟨rfl, ih (fun q hq => hadditive q (List.mem_cons_of_mem _ hq)) hbase⟩

end LazyEvaluation

namespace Vm

variable {T D : Type} {vm : Vm T} {U : Set MemoryLocation} {codes : B256 → Bytecode} {i : Nat}
  {m : MvMemory} {a : Address}

/-- **The evaluation of an account up to a transaction is what the next one would read.** -/
theorem evaluatedAt_eq_basicAt {history : WriteHistory} {entry : MemoryEntry}
    {stored account : Option AccountBasic} (hm : m.data (vm.hash (.basic a)) = some history)
    (hi : i < vm.blockSize) (hentry : history i = some entry)
    (hstored : vm.storage.basic a = .ok stored)
    (hadditive : ∀ p ∈ m.entriesBelow (vm.hash (.basic a)) (i + 1), p.2.IsAdditive)
    (hread : vm.basicAt m (i + 1) a = .ok account) :
    vm.evaluatedAt a history i = account.getD .default := by
  have hhistory : m.entry (vm.hash (.basic a)) = history := by
    funext j
    rw [MvMemory.entry, hm]
    rfl
  rw [basicAt_eq, readEntries_additive hstored hadditive] at hread
  obtain rfl := Except.ok.inj hread
  rw [entriesBelow_eq, hhistory] at hadditive ⊢
  have hbelow : (vm.writeHistory history).filter (fun p => p.1 ≤ i) = (history.below (i + 1)).reverse := by
    rw [WriteHistory.reverse_below, ← writeHistory_filter hi]
    refine List.filter_congr fun p _ => ?_
    exact decide_eq_decide.mpr Nat.lt_succ_iff.symm
  unfold evaluatedAt
  rw [hbelow, LazyEvaluation.forward_additive hadditive, AccountBasic.getD_rewarded]
  cases hbase : LazyEvaluation.base (history.below (i + 1)) with
  | some account => rfl
  | none =>
    -- the first entry is one of the additions, so that the evaluation starts from the storage
    have hlazy := LazyEvaluation.isLazy_of_base hadditive hbase
    have hstart : vm.evaluationStart a (vm.writeHistory history) =
        vm.evaluationStart a (history.below (i + 1)).reverse := by
      have hhead : (vm.writeHistory history).head? = (history.below (i + 1)).reverse.head? := by
        rw [← hbelow]
        have hmem : (i, entry) ∈ vm.writeHistory history := mem_writeHistory.mpr ⟨hi, hentry⟩
        have hsorted : (vm.writeHistory history).Pairwise fun p q => p.1 < q.1 :=
          writeHistory_sorted history
        cases hentries : vm.writeHistory history with
        | nil => rfl
        | cons p rest =>
          rw [hentries] at hmem hsorted
          have hle : p.1 ≤ i := by
            rcases List.mem_cons.mp hmem with rfl | hrest
            · exact Nat.le_refl i
            · exact ((List.pairwise_cons.mp hsorted).1 _ hrest).le
          rw [List.filter_cons_of_pos (by simpa using hle)]
          rfl
      unfold evaluationStart
      rw [hhead]
    rw [hstart, evaluationStart_of_isLazy hlazy, hstored]
    cases stored <;> rfl

/-- The evaluation up to a transaction with an entry ends with that entry. -/
theorem evaluatedAt_of_entry {history : WriteHistory} {entry : MemoryEntry} (hi : i < vm.blockSize)
    (hentry : history i = some entry) :
    vm.evaluatedAt a history i = ((vm.evaluationStart a (vm.writeHistory history)).forward
      ((vm.writeHistory history).filter fun q => q.1 < i)).afterEntry entry := by
  unfold evaluatedAt
  simp only [← Nat.lt_succ_iff]
  rw [forward_filter_succ hi, hentry]
  rfl

/-! ## The results account by account -/

/-- An account is left as it is in the result of a transaction that has no entry. -/
theorem evaluateResults_of_no_entry {history : WriteHistory}
    (hm : m.data (vm.hash (.basic a)) = some history) (hentry : history i = none)
    {results results' : List PevmTxExecutionResult} (h : vm.evaluateResults m results = .ok results') :
    accountAt results' a i = accountAt results a i := by
  have hgas : accountAt (cumulateGas 0 results) a i = accountAt results a i := accountAt_cumulateGas
  rw [← hgas]
  unfold evaluateResults at h
  generalize cumulateGas 0 results = results₀ at h hgas ⊢
  clear hgas
  generalize m.lazyAddresses = addresses at h
  induction addresses generalizing results₀ with
  | nil =>
    cases h
    rfl
  | cons b addresses ih =>
    rw [List.foldlM_cons] at h
    obtain ⟨results₁, hone, hrest⟩ := bind_eq_ok.mp h
    rw [ih results₁ hrest]
    by_cases hab : a = b
    · subst hab
      obtain ⟨codeHash, code, -, hloop⟩ := evaluateAddress_eq_ok hone hm
      refine evaluateHistory_frame hloop (.inr fun p hp heq => ?_)
      obtain ⟨-, hsome⟩ := mem_writeHistory.mp hp
      rw [heq, hentry] at hsome
      cases hsome
    · exact evaluateAddress_frame hone hab

theorem evaluateHistory_receipts {codeHash : Option B256} {code : Option Bytecode}
    {entries : List (Nat × MemoryEntry)} {account : AccountBasic}
    {results results' : List PevmTxExecutionResult}
    (h : vm.evaluateHistory a codeHash code entries account results = .ok results') :
    results'.map PevmTxExecutionResult.receipt = results.map PevmTxExecutionResult.receipt := by
  induction entries generalizing account results with
  | nil =>
    cases h
    rfl
  | cons p rest ih =>
    obtain ⟨j, entry⟩ := p
    rw [ih (evaluateHistory_cons h)]
    apply List.ext_getElem?
    intro k
    rw [List.getElem?_map, List.getElem?_map, List.getElem?_modify]
    split_ifs <;> cases results[k]? <;> rfl

/-- The receipts are those of the workers, with the gas summed up. -/
theorem evaluateResults_receipts {results results' : List PevmTxExecutionResult}
    (h : vm.evaluateResults m results = .ok results') :
    results'.map PevmTxExecutionResult.receipt =
      (cumulateGas 0 results).map PevmTxExecutionResult.receipt := by
  unfold evaluateResults at h
  generalize cumulateGas 0 results = results₀ at h ⊢
  generalize m.lazyAddresses = addresses at h
  induction addresses generalizing results₀ with
  | nil =>
    cases h
    rfl
  | cons b addresses ih =>
    rw [List.foldlM_cons] at h
    obtain ⟨results₁, hone, hrest⟩ := bind_eq_ok.mp h
    rw [ih results₁ hrest]
    cases hm : m.data (vm.hash (.basic b)) with
    | none =>
      unfold evaluateAddress at hone
      rw [hm] at hone
      cases hone
      rfl
    | some history =>
      obtain ⟨codeHash, code, -, hloop⟩ := evaluateAddress_eq_ok hone hm
      exact evaluateHistory_receipts hloop

theorem cumulateGas_receipts {results results' : List PevmTxExecutionResult} {gas : BitVec 64}
    (h : results.map PevmTxExecutionResult.receipt = results'.map PevmTxExecutionResult.receipt) :
    (cumulateGas gas results).map PevmTxExecutionResult.receipt =
      (cumulateGas gas results').map PevmTxExecutionResult.receipt := by
  induction results generalizing results' gas with
  | nil =>
    cases results' with
    | nil => rfl
    | cons r' rest' => cases h
  | cons r rest ih =>
    cases results' with
    | nil => cases h
    | cons r' rest' =>
      obtain ⟨hreceipt, hrest⟩ := List.cons.inj h
      simp only [cumulateGas, List.map_cons]
      rw [hreceipt, ih hrest]

/-! ## Fee recipients -/

theorem credited_ne_none {rewards : List (MemoryLocationHash × U256)} {l : MemoryLocationHash}
    (h : l ∈ AssocList.keys rewards) (value : Option MemoryValue) :
    credited rewards l value ≠ none := by
  have hsome : ∀ (rewards : List (MemoryLocationHash × U256)) (value : MemoryValue),
      credited rewards l (some value) ≠ none := by
    intro rewards
    induction rewards with
    | nil => exact fun value => Option.some_ne_none value
    | cons p rewards ih =>
      intro value
      rw [credited_cons]
      split_ifs
      · exact ih _
      · exact ih _
  induction rewards generalizing value with
  | nil => cases h
  | cons p rewards ih =>
    rw [credited_cons]
    split_ifs with hp
    · exact hsome rewards _
    · exact ih ((List.mem_cons.mp h).resolve_left fun heq => hp heq.symm) value

/-- What the evaluation writes into a result is the account of the journal, if it clears the same
accounts and, where the result has no account, the code is the same and there are no slots. -/
theorem writeAccount_eq {codeHash : Option B256} {code : Option Bytecode} {account : Account}
    {evaluated : AccountBasic} {old : Option EvmAccount} (hne : account.info.codeHash ≠ 0)
    (hevaluated : evaluated = ⟨account.info.balance, account.info.nonce⟩)
    (hclears : account.info.balance = 0 → account.info.nonce = 0 →
      (codeHash = none ↔ account.info.codeHashOrNone = none))
    (hold : ∀ kept, old = some kept →
      { kept with balance := evaluated.balance, nonce := evaluated.nonce } = EvmAccount.ofAccount account)
    (hnone : old = none → account.isEmpty = false → account.info.codeHashOrNone = codeHash ∧
      account.storage = [] ∧ (account.info.isEmptyCodeHash = false → account.info.code = code) ∧
      (codeHash = none → code = none)) :
    writeAccount true codeHash code evaluated old =
      if account.isEmpty then none else some (EvmAccount.ofAccount account) := by
  have hempty := Account.isEmpty_iff hne
  -- the account is cleared in both
  have htest : (true && codeHash.isNone && decide (evaluated.nonce = 0) &&
      decide (evaluated.balance = 0)) = account.isEmpty := by
    rw [Bool.eq_iff_iff, hempty, hevaluated]
    simp only [Bool.true_and, Bool.and_eq_true, Option.isNone_iff_eq_none, decide_eq_true_eq,
      AccountBasic.default, AccountBasic.mk.injEq]
    constructor
    · rintro ⟨⟨hcode, hnonce⟩, hbalance⟩
      exact ⟨(hclears hbalance hnonce).mp hcode, hbalance, hnonce⟩
    · rintro ⟨hcode, hbalance, hnonce⟩
      exact ⟨⟨(hclears hbalance hnonce).mpr hcode, hnonce⟩, hbalance⟩
  unfold writeAccount
  rw [htest]
  cases hcase : account.isEmpty with
  | true => rfl
  | false =>
    rw [if_neg Bool.false_ne_true, if_neg Bool.false_ne_true]
    cases old with
    | some kept => exact congrArg some (hold kept rfl)
    | none =>
      -- an implicit write has the code of the storage
      obtain ⟨hcode, hstorage, hsome, hno⟩ := hnone rfl hcase
      refine congrArg some ?_
      unfold EvmAccount.ofAccount
      unfold AccountInfo.codeHashOrNone at hcode
      rw [hevaluated, hstorage, ← hcode]
      cases hcodeHash : account.info.isEmptyCodeHash with
      | true =>
        rw [hcodeHash, if_pos rfl] at hcode
        rw [hno hcode.symm]
        rfl
      | false =>
        rw [hsome hcodeHash]
        rfl

/-- A fee recipient has, after a transaction of its own, the nonce after that of the transaction. -/
def SendersCounted (vm : Vm T) (evm : SequentialEvm T D) : Prop :=
  ∀ i, i < vm.blockSize → ∀ result state,
    evm.transact (vm.dbAt evm i) (vm.txs i) = .ok (result, state) →
    (vm.chain.txEnv (vm.txs i)).caller ∈ vm.chain.lazyAddresses vm.blockEnv →
    ∀ account, state.lookup (vm.chain.txEnv (vm.txs i)).caller = some account →
      account.isTouched = true →
      account.info.nonce.toNat = (vm.chain.txEnv (vm.txs i)).nonce.toNat + 1

section InStep

variable {evm : SequentialEvm T D} {cache : D → Shown}
  {pays : T → BitVec 64 → List (Address × U256)}
  {done : List (WriteSet × PevmTxExecutionResult)} {r : PevmTxExecutionResult} {db : VmDb}
  {result : ExecutionResult} {state : EvmState} {slots results : List PevmTxExecutionResult}
  (hU : vm.Separates U) (heip : vm.isEip161Enabled = true) (hstorage : vm.storage.NeverFails)
  (hcodes : ∀ address hash, vm.storage.codeHash address = .ok (some hash) →
    ∀ code, vm.storage.codeByHash hash = .ok code → code = some (codes hash))
  (htracks : vm.Tracks U evm cache (vm.serialMemory done) i)
  (hstep : vm.InStep U codes evm pays (vm.serialMemory done) i r db result state)

/-- An account that is not rewarded is reported alike. -/
theorem lookup_of_not_paid (hnodup : (AssocList.keys state).Nodup) {shown : Shown}
    {paid : List (Address × U256)} (hpaid : a ∉ AssocList.keys paid) :
    (stateTransitionsFromRevm vm.isEip161Enabled
      (paid.foldl (EvmState.pay codes shown) state)).lookup a =
        (stateTransitionsFromRevm vm.isEip161Enabled state).lookup a := by
  rw [lookup_stateTransitionsFromRevm (EvmState.nodup_foldl_pay hnodup),
    lookup_stateTransitionsFromRevm hnodup, EvmState.lookup_foldl_pay_of_not_mem hpaid]

include hstep

theorem InStep.accountAt_slot (hslot : slots[i]? = some r) : accountAt slots a i =
    some ((stateTransitionsFromRevm vm.isEip161Enabled state).lookup a) := by
  unfold accountAt
  rw [hslot, hstep.outcome]
  rfl

include hU

/-- The entry of a transaction at an account is a reward or an absolute value, and the account of the
journal with the rewards is touched. -/
theorem InStep.lookup_paid_of_entry {entry : MemoryEntry} (ha : .basic a ∈ U)
    (hentry : (vm.serialMemory done).entry (vm.hash (.basic a)) i = some entry) :
    ((pays (vm.txs i) result.txGasUsed).foldl
      (EvmState.pay codes (vm.shown (vm.serialMemory done) i)) state).lookup a =
      some ((Advances.accountOf vm codes (vm.serialMemory done) i state a).paid
        (Advances.rewardOf vm (pays (vm.txs i) result.txGasUsed) a)) := by
  have hadvances := hstep.advances
  by_cases hpaid : a ∈ AssocList.keys (pays (vm.txs i) result.txGasUsed)
  · rw [hadvances.lookup_paid hU ha, if_pos hpaid]
  · -- an entry without a reward is a write of a touched account
    have hkeys : vm.hash (.basic a) ∉ AssocList.keys
        ((pays (vm.txs i) result.txGasUsed).map fun p => (vm.hash (.basic p.1), p.2)) := by
      intro hkey
      obtain ⟨_, hreward, heq⟩ := List.mem_map.mp hkey
      obtain ⟨p, hp, rfl⟩ := List.mem_map.mp hreward
      obtain rfl := MemoryLocation.basic.inj
        (hU.injective (hadvances.recipients p hp) ha heq)
      exact hpaid (List.mem_map_of_mem hp)
    rw [hstep.entry, credited_of_not_mem hkeys,
      hadvances.lookup_writes hU a ha fun b hne => by simp [Ne.symm hne]] at hentry
    rw [EvmState.lookup_foldl_pay_of_not_mem hpaid, hadvances.rewardOf_of_not_mem hU ha hpaid]
    unfold Advances.accountOf
    cases hstate : state.lookup a with
    | none =>
      rw [hstate] at hentry
      cases hentry
    | some account =>
      have hmem := AssocList.mem_of_lookup_eq_some hstate
      rw [hstate, Option.bind_some,
        lookup_accountWrites_basic hU hadvances.regular.used hmem hadvances.full] at hentry
      split_ifs at hentry with hwritten
      · simp only [Bool.and_eq_true] at hwritten
        rw [Option.getD_some, Account.paid_zero hwritten.1.1.2]
      · cases hentry

omit hU

/-- The account of the journal in the result, with another balance. -/
theorem InStep.kept_fee {kept : EvmAccount} (reward : Nat)
    (h : (stateTransitionsFromRevm vm.isEip161Enabled state).lookup a = some (some kept)) :
    let account := (Advances.accountOf vm codes (vm.serialMemory done) i state a).paid reward
    { kept with balance := account.info.balance, nonce := account.info.nonce } =
      EvmAccount.ofAccount account := by
  rw [lookup_stateTransitionsFromRevm hstep.advances.regular.nodup] at h
  obtain ⟨account, hfilter, hkept⟩ := Option.map_eq_some_iff.mp h
  obtain ⟨hlookup, -⟩ := Option.filter_eq_some_iff.mp hfilter
  split_ifs at hkept
  obtain rfl := Option.some.inj hkept
  unfold Advances.accountOf
  rw [hlookup]
  rfl

/-- An address that the result has no account for is not touched in the journal, or empty. -/
theorem InStep.unreported
    (h : ((stateTransitionsFromRevm vm.isEip161Enabled state).lookup a).getD none = none) :
    Unreported state a := by
  intro account hlookup
  rw [lookup_stateTransitionsFromRevm hstep.advances.regular.nodup, hlookup] at h
  have halive := hstep.advances.regular.alive _ (AssocList.mem_of_lookup_eq_some hlookup)
  cases htouched : account.isTouched with
  | false => exact .inl rfl
  | true =>
    right
    simp only [Option.filter, htouched, if_true, Option.map_some, Option.getD_some] at h
    split_ifs at h with hgone
    rw [show account.isSelfdestructed = false from halive] at hgone
    simp only [Bool.false_or, Bool.and_eq_true] at hgone
    exact hgone.1

/-- A fee recipient that the result has no account for has the code it was loaded with. -/
theorem InStep.code_unreported
    (hclean : ∃ before codeHash, (vm.shown (vm.serialMemory done) i).basic a = some before ∧
      (vm.shown (vm.serialMemory done) i).codeHash a = some codeHash ∧ IsClean before codeHash)
    (hunreported : Unreported state a)
    (hcode : (Advances.accountOf vm codes (vm.serialMemory done) i state a).info.isEmptyCodeHash =
      false) :
    (Advances.accountOf vm codes (vm.serialMemory done) i state a).info.code =
      (Advances.accountOf vm codes (vm.serialMemory done) i state a).info.codeHashOrNone.map codes := by
  obtain ⟨before, codeHash, hbasic, hcodeHash, hclean⟩ := hclean
  obtain ⟨-, hsame, -, hinfo⟩ := @Shown.info_spec codes _ _ _ _ hbasic hcodeHash hclean
  unfold Advances.accountOf at hcode ⊢
  cases hlookup : state.lookup a with
  | none =>
    show ((vm.shown (vm.serialMemory done) i).info codes a).code =
      ((vm.shown (vm.serialMemory done) i).info codes a).codeHashOrNone.map codes
    rw [hinfo, hsame]
  | some account =>
    have hmem := AssocList.mem_of_lookup_eq_some hlookup
    rw [hlookup] at hcode
    show account.info.code = account.info.codeHashOrNone.map codes
    cases htouched : account.isTouched with
    | false =>
      obtain ⟨hloaded, -⟩ := hstep.advances.regular.untouched _ hmem htouched
      rw [show account.info = _ from hloaded, hinfo, hsame]
    | true =>
      -- an empty account has no code
      have hempty := (hunreported account hlookup).resolve_left (by rw [htouched]; decide)
      have hnone := ((Account.isEmpty_iff (hstep.advances.regular.hash _ hmem)).mp hempty).1
      unfold AccountInfo.codeHashOrNone at hnone
      rw [show account.info.isEmptyCodeHash = false from hcode] at hnone
      cases hnone

omit hstep in
/-- The code that the evaluation reads from the storage. -/
theorem storedCode_eq (hcodes : ∀ address hash, vm.storage.codeHash address = .ok (some hash) →
      ∀ code, vm.storage.codeByHash hash = .ok code → code = some (codes hash))
    {codeHash : Option B256} {code : Option Bytecode} (h : vm.storedCode a = .ok (codeHash, code)) :
    vm.storage.codeHash a = .ok codeHash ∧ code = codeHash.map codes := by
  obtain ⟨hash, hhash, hrest⟩ := bind_eq_ok.mp h
  cases hash with
  | none =>
    obtain ⟨code', hcode, hpair⟩ := bind_eq_ok.mp hrest
    obtain ⟨rfl, rfl⟩ := Prod.mk.inj (Except.ok.inj hpair)
    exact ⟨hhash, (Except.ok.inj hcode).symm⟩
  | some hash =>
    obtain ⟨code', hcode, hpair⟩ := bind_eq_ok.mp hrest
    obtain ⟨rfl, rfl⟩ := Prod.mk.inj (Except.ok.inj hpair)
    exact ⟨hhash, hcodes a hash hhash _ hcode⟩

include hU heip hstorage

/-- The account of a journal with the reward, empty or not, has the balance and nonce that is
evaluated. -/
theorem InStep.evaluatedAt_eq (hi : i < vm.blockSize) (ha : .basic a ∈ U) {entry : MemoryEntry}
    (hentry : (vm.serialMemory done).entry (vm.hash (.basic a)) i = some entry) :
    let account := (Advances.accountOf vm codes (vm.serialMemory done) i state a).paid
      (Advances.rewardOf vm (pays (vm.txs i) result.txGasUsed) a)
    vm.evaluatedAt a ((vm.serialMemory done).entry (vm.hash (.basic a))) i =
      ⟨account.info.balance, account.info.nonce⟩ := by
  intro account
  have hadvances := hstep.advances
  have hne : account.info.codeHash ≠ 0 := hadvances.codeHash_accountOf ha
  obtain ⟨stored, hstored⟩ := hstorage.basic a
  have hdata : (vm.serialMemory done).data (vm.hash (.basic a)) =
      some ((vm.serialMemory done).entry (vm.hash (.basic a))) := rfl
  have hafter := hadvances.basic hU heip hstorage ha
  have hread : vm.basicAt (vm.serialMemory done) (i + 1) a = .ok _ := ok_of_shown hafter
  rw [evaluatedAt_eq_basicAt hdata hi hentry hstored (hadvances.additive_after hU ha) hread,
    ← Account.basic_paid]
  show (if account.isEmpty then none else some (⟨_, _⟩ : AccountBasic)).getD .default = _
  split_ifs with hempty
  · exact ((Account.isEmpty_iff hne).mp hempty).2.symm
  · rfl

/-- The entry of a fee recipient passes the checks of the evaluation, if its nonce is the one that the
sender has after its transaction. -/
theorem InStep.entryPasses (hcounted : vm.SendersCounted evm) (hi : i < vm.blockSize)
    (hfee : a ∈ vm.chain.lazyAddresses vm.blockEnv) {history : WriteHistory}
    (hhistory : (vm.serialMemory done).entry (vm.hash (.basic a)) = history) {entry : MemoryEntry}
    (hentry : history i = some entry) :
    vm.EntryPasses a (i, entry) ((vm.storageAccount a).forward
      ((vm.writeHistory history).filter fun q => q.1 < i)) := by
  subst hhistory
  have hadvances := hstep.advances
  have ha := hU.fees a hfee
  have hadditive : entry.IsAdditive := hadvances.additive_after hU ha (i, entry) (by
    rw [entriesBelow_succ, hentry]
    exact List.mem_cons_self)
  -- without lazy transactions there is no mocked sender
  obtain ⟨k, value, rfl, hbasic, hsender⟩ : ∃ k value, entry = .data k value ∧
      value.isBasic = true ∧ ∀ subtraction, value ≠ .lazySender subtraction := by
    rcases hadditive with ⟨k, account, rfl⟩ | ⟨k, amount, rfl⟩
    · exact ⟨k, _, rfl, rfl, fun _ h => by cases h⟩
    · exact ⟨k, _, rfl, rfl, fun _ h => by cases h⟩
  by_cases hcaller : (vm.chain.txEnv (vm.txs i)).caller = a
  · have hevaluated := hstep.evaluatedAt_eq hU heip hstorage hi ha hentry
    have hpaid := hstep.lookup_paid_of_entry hU ha hentry
    subst hcaller
    rw [← entryPasses_evaluationStart (writeHistory_sorted _) (mem_writeHistory.mpr ⟨hi, hentry⟩),
      entryPasses_caller hbasic]
    refine ⟨fun subtraction h => absurd h (hsender subtraction), ?_⟩
    rw [evaluatedAt_of_entry hi hentry] at hevaluated
    show (AccountBasic.afterEntry _ (.data k value)).nonce.toNat = _
    rw [hevaluated]
    exact hcounted i hi _ _ hstep.transact hfee _ hpaid rfl
  · exact entryPasses_of_ne_caller hbasic hsender hcaller

include hcodes htracks

/-- **The evaluation of a fee recipient** makes its account the one that revm has rewarded. -/
theorem InStep.accountAt_fee (hi : i < vm.blockSize) (hslot : slots[i]? = some r)
    (heval : vm.evaluateResults (vm.serialMemory done) slots = .ok results)
    (hfee : a ∈ vm.chain.lazyAddresses vm.blockEnv) {entry : MemoryEntry}
    (hentry : (vm.serialMemory done).entry (vm.hash (.basic a)) i = some entry) :
    accountAt results a i = some ((stateTransitionsFromRevm vm.isEip161Enabled
      ((pays (vm.txs i) result.txGasUsed).foldl
        (EvmState.pay codes (vm.shown (vm.serialMemory done) i)) state)).lookup a) := by
  have hadvances := hstep.advances
  have ha := hU.fees a hfee
  have hmem : a ∈ (vm.serialMemory done).lazyAddresses :=
    mem_insertLazyAddresses.mpr (.inr hfee)
  have hdata : (vm.serialMemory done).data (vm.hash (.basic a)) =
      some ((vm.serialMemory done).entry (vm.hash (.basic a))) := rfl
  obtain ⟨codeHash', code, hstoredCode, haccount⟩ := evaluateResults_accountAt
    (nodup_insertLazyAddresses List.nodup_nil) hdata hi hentry heval hmem
  rw [hstep.evaluatedAt_eq hU heip hstorage hi ha hentry, hstep.accountAt_slot hslot] at haccount
  obtain ⟨hhash, hstoredCode⟩ := storedCode_eq hcodes hstoredCode
  have hpaid := hstep.lookup_paid_of_entry hU ha hentry
  have halive := hadvances.alive hU hpaid
  have hkept := hstep.fees a hfee
  -- the account with the reward
  generalize haccountOf : (Advances.accountOf vm codes (vm.serialMemory done) i state a).paid
    (Advances.rewardOf vm (pays (vm.txs i) result.txGasUsed) a) = account at hpaid halive haccount
  have htouched : account.isTouched = true := by rw [← haccountOf]; rfl
  have hne : account.info.codeHash ≠ 0 := by
    rw [← haccountOf]
    exact hadvances.codeHash_accountOf ha
  rw [haccount, lookup_stateTransitionsFromRevm (EvmState.nodup_foldl_pay hadvances.regular.nodup),
    hpaid, Option.filter_some, if_pos htouched, Option.map_some, Option.map_some, halive, heip,
    Bool.false_or, Bool.and_true]
  refine congrArg (some ∘ some) (writeAccount_eq hne rfl ?_ ?_ ?_)
  · intro hbalance hnonce
    rw [← hkept.cleared account hpaid htouched hbalance hnonce, hhash]
    exact ⟨fun h => congrArg Except.ok h, fun h => Except.ok.inj h⟩
  · intro kept hold
    rw [← haccountOf]
    refine hstep.kept_fee _ ?_
    rw [heip]
    cases hlookup : (stateTransitionsFromRevm true state).lookup a with
    | none =>
      rw [hlookup] at hold
      cases hold
    | some old =>
      rw [hlookup] at hold
      exact congrArg some hold
  · intro hnone hempty
    rw [← heip] at hnone
    have hunreported := hstep.unreported hnone
    obtain ⟨hcodeHash, hslots⟩ := hkept.unreported hunreported account hpaid htouched hempty
    rw [hhash] at hcodeHash
    have hcodeHash := Except.ok.inj hcodeHash
    refine ⟨hcodeHash.symm, hslots, fun hsome => ?_, ?_⟩
    · rw [hstoredCode, hcodeHash, ← haccountOf]
      rw [← haccountOf] at hsome
      exact hstep.code_unreported (htracks.clean a ha) hunreported hsome
    · rintro rfl
      exact hstoredCode

/-- **The results of a transaction agree account by account.** -/
theorem InStep.accountAt_eq (hrecipients : ∀ p ∈ pays (vm.txs i) result.txGasUsed,
      p.1 ∈ vm.chain.lazyAddresses vm.blockEnv) (hi : i < vm.blockSize) (hslot : slots[i]? = some r)
    (heval : vm.evaluateResults (vm.serialMemory done) slots = .ok results) (a : Address) :
    accountAt results a i = some ((stateTransitionsFromRevm vm.isEip161Enabled
      ((pays (vm.txs i) result.txGasUsed).foldl
        (EvmState.pay codes (vm.shown (vm.serialMemory done) i)) state)).lookup a) := by
  have hnodup := hstep.advances.regular.nodup
  by_cases hfee : a ∈ vm.chain.lazyAddresses vm.blockEnv
  · cases hentry : (vm.serialMemory done).entry (vm.hash (.basic a)) i with
    | some entry =>
      exact hstep.accountAt_fee hU heip hstorage hcodes htracks hi hslot heval hfee hentry
    | none =>
      -- nothing is written, so that nothing is paid
      have hpaid : a ∉ AssocList.keys (pays (vm.txs i) result.txGasUsed) := by
        intro hpaid
        obtain ⟨p, hp, rfl⟩ := List.mem_map.mp hpaid
        rw [hstep.entry] at hentry
        refine credited_ne_none (List.mem_map.mpr ⟨_, List.mem_map_of_mem hp, rfl⟩) _
          (Option.map_eq_none_iff.mp hentry)
      have hdata : (vm.serialMemory done).data (vm.hash (.basic a)) =
          some ((vm.serialMemory done).entry (vm.hash (.basic a))) := rfl
      rw [evaluateResults_of_no_entry hdata hentry heval, hstep.accountAt_slot hslot,
        lookup_of_not_paid hnodup hpaid]
  · have hpaid : a ∉ AssocList.keys (pays (vm.txs i) result.txGasUsed) := by
      intro hpaid
      obtain ⟨p, hp, rfl⟩ := List.mem_map.mp hpaid
      exact hfee (hrecipients p hp)
    have hmem : a ∉ (vm.serialMemory done).lazyAddresses := fun hmem =>
      hfee ((mem_insertLazyAddresses.mp hmem).resolve_left List.not_mem_nil)
    unfold evaluateResults at heval
    rw [foldlM_frame heval hmem, accountAt_cumulateGas, hstep.accountAt_slot hslot,
      lookup_of_not_paid hnodup hpaid]

end InStep

/-! ## The results of a block -/

/-- The results say the same: the same receipts, and the same of every account. -/
structure SameResults (results results' : List PevmTxExecutionResult) : Prop where
  receipts : results.map PevmTxExecutionResult.receipt = results'.map PevmTxExecutionResult.receipt
  accounts : ∀ a i, accountAt results a i = accountAt results' a i

theorem SameResults.refl (results : List PevmTxExecutionResult) : SameResults results results :=
  ⟨rfl, fun _ _ => rfl⟩

theorem evaluateResults_length (h : vm.evaluateResults m slots = .ok results) :
    results.length = slots.length := by
  rw [foldlM_evaluateAddress_length h, cumulateGas_length]

section SequentialResults

variable {evm : SequentialEvm T D} {view : D → Shown} {pays : T → BitVec 64 → List (Address × U256)}
  {done : List (WriteSet × PevmTxExecutionResult)} {results : List PevmTxExecutionResult}
  (hU : vm.Separates U) (hwhole : ∀ a, .codeHash a ∈ U ↔ .basic a ∈ U)
  (heip : vm.isEip161Enabled = true) (hstorage : vm.storage.NeverFails)
  (hclean : ∀ a, .basic a ∈ U → vm.storage.shown.CleanAt a)
  (hrevm : vm.RunsBlock U codes evm view pays)
include hU hwhole heip hstorage hclean hrevm

/-- The sequential execution accepts what the serial one has executed, with the journals of the serial
one rewarded. -/
theorem sequential_of_serial (hdone : vm.serial codes vm.blockSize = some done) :
    ∃ plain, vm.executeRevmSequential evm = .ok (cumulateGas 0 plain) ∧
      plain.length = vm.blockSize ∧ ∀ i, i < vm.blockSize → ∃ outcome db result state,
        done[i]? = some outcome ∧ vm.Tracks U evm view (vm.serialMemory done) i ∧
        vm.InStep U codes evm pays (vm.serialMemory done) i outcome.2 db result state ∧
        plain[i]? = some ⟨receiptFromRevm result, stateTransitionsFromRevm vm.isEip161Enabled
          ((pays (vm.txs i) result.txGasUsed).foldl
            (EvmState.pay codes (vm.shown (vm.serialMemory done) i)) state)⟩ := by
  obtain ⟨hlength, hrun⟩ := serialRun_of_serial hdone
  have htxs : ∀ i, i < vm.blockSize → ((List.range vm.blockSize).map vm.txs)[i]? = some (vm.txs i) := by
    intro i hi
    simp [List.getElem?_range hi]
  have htracks := tracks_serial hU hwhole hrevm heip hstorage hclean hrun hlength
  -- every transaction does the same in both executions, so that every one is accepted
  have hinStep : ∀ i, i < vm.blockSize → ∃ outcome db result state, done[i]? = some outcome ∧
      vm.InStep U codes evm pays (vm.serialMemory done) i outcome.2 db result state := by
    intro i hi
    have hget : done[i]? = some done[i] := List.getElem?_eq_getElem (by omega)
    obtain ⟨db, result, state, hstep⟩ := inStep_of_tracks hU hwhole hrevm hrun hi hget (htracks i hi.le)
    exact ⟨done[i], db, result, state, hget, hstep⟩
  obtain ⟨plain, hexecute, hplainLength, hplain⟩ := evm.executeAll_of_accepted vm.isEip161Enabled
    ((List.range vm.blockSize).map vm.txs) (evm.newDb vm.storage) 0 fun i tx hi => by
      have hlt : i < vm.blockSize := by
        have hlt := (List.getElem?_eq_some_iff.mp hi).1
        simpa using hlt
      rw [htxs i hlt] at hi
      obtain rfl := Option.some.inj hi
      obtain ⟨outcome, db, result, state, -, hstep⟩ := hinStep i hlt
      rw [← dbAt_eq_foldl hlt.le]
      exact ⟨_, hstep.transact⟩
  refine ⟨plain, hexecute, by simpa using hplainLength, fun i hi => ?_⟩
  obtain ⟨outcome, db, result, state, hget, hstep⟩ := hinStep i hi
  refine ⟨outcome, db, result, state, hget, htracks i hi.le, hstep, ?_⟩
  have htransact := hstep.transact
  rw [dbAt_eq_foldl hi.le] at htransact
  exact hplain i _ _ _ (htxs i hi) htransact

/-- **The evaluation accepts** what the serial execution leaves, if the nonces of the senders are
those of their transactions. -/
theorem evaluateResults_of_counted (hcounted : vm.SendersCounted evm)
    (hdone : vm.serial codes vm.blockSize = some done) :
    ∃ results, vm.evaluateResults (vm.serialMemory done) (done.map Prod.snd) = .ok results := by
  obtain ⟨plain, -, -, hplain⟩ := sequential_of_serial hU hwhole heip hstorage hclean hrevm hdone
  refine (evaluateResults_ok_iff hstorage).mpr fun a hmem history hdata p hp => ?_
  obtain ⟨i, entry⟩ := p
  obtain ⟨hi, hentry⟩ := mem_writeHistory.mp hp
  obtain ⟨outcome, db, result, state, -, -, hstep, -⟩ := hplain i hi
  have hfee : a ∈ vm.chain.lazyAddresses vm.blockEnv :=
    (mem_insertLazyAddresses.mp hmem).resolve_left List.not_mem_nil
  exact hstep.entryPasses hU heip hstorage hcounted hi hfee (Option.some.inj hdata) hentry

/-- **The results of the serial execution are those of the sequential one.** -/
theorem serial_eq_sequential (hcodes : ∀ address hash,
      vm.storage.codeHash address = .ok (some hash) →
      ∀ code, vm.storage.codeByHash hash = .ok code → code = some (codes hash))
    (hdone : vm.serial codes vm.blockSize = some done)
    (heval : vm.evaluateResults (vm.serialMemory done) (done.map Prod.snd) = .ok results) :
    ∃ seqResults, vm.executeRevmSequential evm = .ok seqResults ∧ SameResults results seqResults := by
  obtain ⟨hlength, -⟩ := serialRun_of_serial hdone
  obtain ⟨plain, hexecute, hplainLength, hplain⟩ :=
    sequential_of_serial hU hwhole heip hstorage hclean hrevm hdone
  refine ⟨_, hexecute, ?_, fun a i => ?_⟩
  · -- the receipts are made of the same results of revm
    rw [evaluateResults_receipts heval]
    refine cumulateGas_receipts (List.ext_getElem? fun i => ?_)
    rw [List.getElem?_map, List.getElem?_map, List.getElem?_map]
    by_cases hi : i < vm.blockSize
    · obtain ⟨outcome, db, result, state, hget, -, hstep, hslot⟩ := hplain i hi
      rw [hget, hslot]
      show some outcome.2.receipt = some (receiptFromRevm result)
      rw [hstep.outcome]
    · rw [List.getElem?_eq_none (by omega), List.getElem?_eq_none (by omega)]
      rfl
  · -- the sum of the gas leaves the accounts
    rw [accountAt_cumulateGas]
    by_cases hi : i < vm.blockSize
    · obtain ⟨outcome, db, result, state, hget, htracks, hstep, hslot⟩ := hplain i hi
      have hdoneSlot : (done.map Prod.snd)[i]? = some outcome.2 := by
        rw [List.getElem?_map, hget]
        rfl
      rw [hstep.accountAt_eq hU heip hstorage hcodes htracks (hrevm.recipients i hi _) hi hdoneSlot
        heval]
      show _ = (plain[i]?).map _
      rw [hslot]
      rfl
    · -- there are no results past the block
      have hresults := evaluateResults_length heval
      rw [List.length_map] at hresults
      unfold accountAt
      rw [List.getElem?_eq_none (by omega), List.getElem?_eq_none (by omega)]

end SequentialResults

end Vm

end Pevm
