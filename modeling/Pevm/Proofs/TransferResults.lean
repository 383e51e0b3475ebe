import Pevm.Proofs.TransferWrites
import Pevm.Proofs.Record

/-!
# The results of a raw transfer

From the write set of a raw transfer to what its block returns. `records` is `MvMemory::record` for
the first incarnation of the only transaction, `evaluates` is the lazy evaluation of
`execute_revm_parallel` after it: the accounts that are evaluated, and the checks of the sender on
the way.
-/

namespace Pevm

open Interleaving MvMemory Saturating

/-! ## `record` -/

/-- `record` of a first incarnation. -/
theorem records (readSet : ReadSet) {writes : WriteSet} {m : MvMemory}
    (hholder : m.lastLocationsHolder 0 = none) (hlast : (m.lastLocations 0).write = [])
    (hnodup : (AssocList.keys writes).Nodup) :
    ∃ m' wrote, Completes (fun m pc => m.recordStep 0 ⟨0, 0⟩ readSet writes pc) m .lock m' wrote ∧
      m'.lazyAddresses = m.lazyAddresses ∧
      ∀ l, m'.entry l 0 = ((writes.lookup l).map (.data 0)).or (m.entry l 0) := by
  obtain ⟨m', wrote, hrecord, hentry, hsame, -⟩ :=
    MvMemory.records 0 ⟨0, 0⟩ readSet writes (m := m) hholder
  refine ⟨m', wrote, hrecord, hsame.lazyAddresses, fun l => ?_⟩
  have hl := hentry l
  -- nothing was written before, so that nothing is removed
  rw [if_neg (hlast ▸ List.not_mem_nil)] at hl
  rw [hl, AssocList.lookupLast_eq_lookup hnodup]

/-! ## The initial memory -/

theorem data_new {estimates : List (MemoryLocationHash × List Nat)} {lazyAddresses : List Address}
    {l : MemoryLocationHash} (h : l ∉ AssocList.keys estimates) :
    (MvMemory.new estimates lazyAddresses).data l = none := by
  refine List.foldlRecOn (motive := fun data : MemoryLocationHash → Option WriteHistory =>
    data l = none) estimates _ rfl fun data hdata p hp => ?_
  have hne : l ≠ p.1 := fun heq => h (List.mem_map.mpr ⟨p, hp, heq.symm⟩)
  rw [← hdata]
  exact Function.update_of_ne hne _ _

theorem mem_keys_pushEstimate {index : Nat} {location l : MemoryLocationHash} :
    ∀ {estimates : List (MemoryLocationHash × List Nat)},
      l ∈ AssocList.keys (pushEstimate index location estimates) →
      l = location ∨ l ∈ AssocList.keys estimates
  | [], h => by simpa [pushEstimate] using h
  | (l', is) :: rest, h => by
    unfold pushEstimate at h
    split_ifs at h
    · exact .inr h
    · rcases List.mem_cons.mp h with h | h
      · exact .inr (List.mem_cons.mpr (.inl h))
      · exact (mem_keys_pushEstimate h).imp_right (List.mem_cons_of_mem _)

/-- Only the fee recipients of transactions that pay fees have estimates. -/
theorem SourceChain.estimates {T : Type} {chain : PevmChain T} {isEip161Enabled : Bool}
    (h : SourceChain chain isEip161Enabled)
    {hash : MemoryLocation → MemoryLocationHash} {blockEnv : BlockEnv} {tx : T}
    {l : MemoryLocationHash}
    (hl : l ∈ AssocList.keys (chain.estimatedLocations hash blockEnv [tx])) :
    chain.hasNonce tx = true ∧ ∃ a ∈ chain.lazyAddresses blockEnv, l = hash (.basic a) := by
  cases h with
  | ethereum => exact ⟨rfl, blockEnv.beneficiary, List.mem_singleton_self _, by simpa [PevmEthereum] using hl⟩
  | rise =>
    cases hdeposit : tx.isDeposit with
    | true => simp [PevmRise, hdeposit] at hl
    | false =>
      refine ⟨by simp [PevmRise, hdeposit], ?_⟩
      simp only [PevmRise, List.zipIdx_cons, List.zipIdx_nil, List.foldl_cons, List.foldl_nil,
        hdeposit, Bool.false_eq_true, if_false] at hl ⊢
      rcases mem_keys_pushEstimate hl with rfl | hl
      · exact ⟨operatorFeeRecipient, by simp, rfl⟩
      rcases mem_keys_pushEstimate hl with rfl | hl
      · exact ⟨l1FeeRecipient, by simp, rfl⟩
      rcases mem_keys_pushEstimate hl with rfl | hl
      · exact ⟨baseFeeRecipient, by simp, rfl⟩
      rcases mem_keys_pushEstimate hl with rfl | hl
      · exact ⟨blockEnv.beneficiary, by simp, rfl⟩
      · simp at hl

namespace Transfer

variable {T : Type} {t : Transfer T} {isLazy : Bool} {a : Address} {fees : List (Address × U256)}

theorem isSome_credits_of_isSome {value : Option MemoryValue} (h : value.isSome) :
    (credits fees a value).isSome := by
  induction fees generalizing value with
  | nil => exact h
  | cons p fees ih =>
    obtain ⟨b, amount⟩ := p
    rw [credits_cons]
    refine ih ?_
    split_ifs
    · rfl
    · exact h

/-- A fee recipient has a write. -/
theorem isSome_credits (h : a ∈ AssocList.keys fees) (value : Option MemoryValue) :
    (credits fees a value).isSome := by
  induction fees generalizing value with
  | nil => cases h
  | cons p fees ih =>
    obtain ⟨b, amount⟩ := p
    rw [credits_cons]
    by_cases hba : b = a
    · rw [if_pos hba]
      exact isSome_credits_of_isSome rfl
    · have hrest : a ∈ AssocList.keys fees := by
        simpa [Ne.symm hba] using h
      exact ih hrest _

theorem memory_entry_basic (ha : a ∈ t.accounts)
    (h : a ∉ t.chain.lazyAddresses t.blockEnv ∨ t.hasNonce = false) :
    t.memory.entry (t.hash (.basic a)) 0 = none := by
  have hkey : t.hash (.basic a) ∉
      AssocList.keys (t.chain.estimatedLocations t.hash t.blockEnv [t.tx]) := by
    intro hl
    obtain ⟨hnonce, b, hb, heq⟩ := t.source.estimates hl
    obtain rfl := (hash_basic_inj ha (lazyAddresses_mem hb)).mp heq
    exact h.elim (fun hnot => hnot hb) fun hnot => Bool.false_ne_true (hnot.symm.trans hnonce)
  rw [entry, memory, data_new hkey]
  rfl

theorem memory_entry_codeHash (ha : a ∈ t.accounts) :
    t.memory.entry (t.hash (.codeHash a)) 0 = none := by
  have hkey : t.hash (.codeHash a) ∉
      AssocList.keys (t.chain.estimatedLocations t.hash t.blockEnv [t.tx]) := by
    intro hl
    obtain ⟨-, b, hb, heq⟩ := t.source.estimates hl
    exact hash_basic_ne_codeHash (lazyAddresses_mem hb) ha heq.symm
  rw [entry, memory, data_new hkey]
  rfl

/-- The memory has these values of the only transaction. -/
structure Recorded (t : Transfer T) (m : MvMemory) (basic code : Address → Option MemoryValue) :
    Prop where
  basic : ∀ a ∈ t.accounts, m.entry (t.hash (.basic a)) 0 = (basic a).map (.data 0)
  code : ∀ a ∈ t.accounts, m.entry (t.hash (.codeHash a)) 0 = (code a).map (.data 0)

/-- The write set is recorded, over the estimates of the fee recipients. -/
theorem Written.recorded {writes : WriteSet} {basic code : Address → Option MemoryValue}
    (h : t.Written writes (fun a => credits fees a (basic a)) code) (hpays : t.Pays fees)
    (isLazy : Bool) (readSet : ReadSet) (newBytecodes : B256 → Option Bytecode) :
    ∃ m wrote, Completes (fun m pc => m.recordStep 0 version readSet writes pc)
        (t.executedMemory isLazy newBytecodes) .lock m wrote ∧
      m.lazyAddresses = (t.executedMemory isLazy newBytecodes).lazyAddresses ∧
      t.Recorded m (fun a => credits fees a (basic a)) code := by
  obtain ⟨m, wrote, hrecord, hlazy, hentry⟩ := records readSet
    (m := t.executedMemory isLazy newBytecodes) rfl rfl h.nodup
  refine ⟨m, wrote, hrecord, hlazy, fun a ha => ?_, fun a ha => ?_⟩
  · rw [hentry, h.basic a ha]
    cases hcredits : credits fees a (basic a) with
    | some value => rfl
    | none =>
      -- the estimate of a fee recipient would have been replaced
      refine memory_entry_basic ha ?_
      by_contra hcon
      rw [not_or, Bool.not_eq_false, not_not] at hcon
      have hsome := isSome_credits ((hpays.recipients a).mpr hcon) (basic a)
      rw [hcredits] at hsome
      cases hsome
  · rw [hentry, h.code a ha]
    cases code a with
    | some value => rfl
    | none => exact memory_entry_codeHash ha

end Transfer

/-! ## Lazy evaluation -/

theorem lookup_modifyEntry {a b : Address} {f : Option EvmAccount → Option EvmAccount} :
    ∀ {state : EvmStateTransitions}, (EvmStateTransitions.modifyEntry a f state).lookup b =
      if b = a then some (f ((state.lookup a).getD none)) else state.lookup b
  | [] => by
    rw [EvmStateTransitions.modifyEntry, AssocList.lookup_cons]
    rfl
  | (c, account) :: rest => by
    unfold EvmStateTransitions.modifyEntry
    by_cases hc : c = a
    · subst hc
      rw [if_pos rfl, AssocList.lookup_cons, AssocList.lookup_cons, AssocList.lookup_cons, if_pos rfl]
      split_ifs <;> rfl
    · rw [if_neg hc, AssocList.lookup_cons, AssocList.lookup_cons, AssocList.lookup_cons,
        lookup_modifyEntry, if_neg (Ne.symm hc)]
      by_cases hb : b = c
      · rw [if_pos hb, if_pos hb, if_neg (hb ▸ hc)]
      · rw [if_neg hb, if_neg hb]

namespace Transfer

variable {T : Type} (t : Transfer T)

/-- The checks of the evaluation of an account: the sender of a lazy transaction can pay for it, and
the caller had the nonce of the transaction. -/
structure Passes (a : Address) (value : MemoryValue) : Prop where
  funds : ∀ subtraction, value = .lazySender subtraction →
    t.env.maxFee ≤ (t.pre.account a).balance
  nonce : t.env.caller = a → ((t.pre.account a).after value).nonce ≠ 0 ∧
    t.env.nonce = ((t.pre.account a).after value).nonce - 1

/-- The result of an account with the evaluated balance and nonce. -/
def evaluatedAccount (a : Address) (value : MemoryValue) (account : Option EvmAccount) :
    Option EvmAccount :=
  writeAccount t.isEip161Enabled (t.pre.codeHash a) ((t.pre.codeHash a).bind t.pre.code)
    ((t.pre.account a).after value) account

variable {t} {a : Address} {m : MvMemory}

theorem evaluateEntry_ok {value : MemoryValue} (hvalue : value.isBasic = true)
    (hfunds : ∀ subtraction, value = .lazySender subtraction →
      t.env.maxFee ≤ (t.pre.account a).balance) :
    evaluateEntry t.env (t.pre.account a) (.data 0 value) =
      .ok ((t.pre.account a).after value) := by
  cases value with
  | basic _ | lazyRecipient _ => rfl
  | lazySender subtraction =>
    rw [evaluateEntry, if_neg (BitVec.not_lt.mpr (hfunds subtraction rfl))]
    rfl
  | codeHash _ | storage _ | selfDestructed => cases hvalue

theorem evaluateEntry_error (subtraction : U256)
    (hfunds : ¬ t.env.maxFee ≤ (t.pre.account a).balance) :
    ∃ e, evaluateEntry t.env (t.pre.account a) (.data 0 (.lazySender subtraction)) = .error e :=
  ⟨_, if_pos (BitVec.not_le.mp hfunds)⟩

/-- The evaluation starts from the account before the transaction, unless it does not matter. -/
theorem evaluateEntry_start {value : MemoryValue} :
    evaluateEntry t.env (t.vm.evaluationStart a [(0, .data 0 value)]) (.data 0 value) =
      evaluateEntry t.env (t.pre.account a) (.data 0 value) := by
  have hbasic : t.vm.storage.basic a = .ok (t.pre.basic a) := rfl
  cases value with
  | basic _ => rfl
  | lazyRecipient _ | lazySender _ | codeHash _ | storage _ | selfDestructed =>
    simp only [Vm.evaluationStart, List.head?_cons, hbasic, PreState.account]
    cases t.pre.basic a <;> rfl

theorem evaluateAddress_eq {results : List PevmTxExecutionResult} {history : WriteHistory}
    (h : m.data (t.hash (.basic a)) = some history) :
    t.vm.evaluateAddress m results a =
      t.vm.evaluateHistory a (t.pre.codeHash a) ((t.pre.codeHash a).bind t.pre.code)
        (t.vm.writeHistory history) (t.vm.evaluationStart a (t.vm.writeHistory history)) results := by
  have hcodeHash : t.vm.storage.codeHash a = .ok (t.pre.codeHash a) := rfl
  unfold Vm.evaluateAddress
  rw [vm_hash, h]
  simp only [hcodeHash]
  cases t.pre.codeHash a <;> rfl

theorem evaluateAddress_none {results : List PevmTxExecutionResult}
    (h : m.entry (t.hash (.basic a)) 0 = none) : t.vm.evaluateAddress m results a = .ok results := by
  unfold entry at h
  cases hdata : m.data (t.hash (.basic a)) with
  | none => rw [Vm.evaluateAddress, vm_hash, hdata]
  | some history =>
    have hhistory : t.vm.writeHistory history = [] := by
      simpa [Vm.writeHistory, vm, hdata] using h
    rw [evaluateAddress_eq hdata, hhistory]
    rfl

/-- The evaluation of one account, whose write is the only one. -/
theorem evaluateAddress_some {result : PevmTxExecutionResult} {value : MemoryValue}
    (h : m.entry (t.hash (.basic a)) 0 = some (.data 0 value)) :
    t.vm.evaluateAddress m [result] a =
      (evaluateEntry t.env (t.pre.account a) (.data 0 value) >>= fun account =>
        checkExecutedNonce 0 t.env a account.nonce >>= fun _ =>
          .ok [{ result with
            state := EvmStateTransitions.modifyEntry a
              (writeAccount t.isEip161Enabled (t.pre.codeHash a)
                ((t.pre.codeHash a).bind t.pre.code) account) result.state }]) := by
  obtain ⟨history, hdata, hentry⟩ := Option.bind_eq_some_iff.mp h
  have hhistory : t.vm.writeHistory history = [(0, .data 0 value)] := by
    simp [Vm.writeHistory, vm, hentry]
  rw [evaluateAddress_eq hdata, hhistory, ← evaluateEntry_start]
  rfl

theorem checkExecutedNonce_ok {nonce : BitVec 64}
    (h : t.env.caller = a → nonce ≠ 0 ∧ t.env.nonce = nonce - 1) :
    checkExecutedNonce 0 t.env a nonce = .ok () := by
  unfold checkExecutedNonce
  by_cases hcaller : t.env.caller = a
  · obtain ⟨hzero, hnonce⟩ := h hcaller
    rw [if_pos hcaller, if_neg hzero, if_neg (not_not.mpr hnonce)]
  · rw [if_neg hcaller]

theorem checkExecutedNonce_error (nonce : BitVec 64) (hcaller : t.env.caller = a)
    (h : ¬ (nonce ≠ 0 ∧ t.env.nonce = nonce - 1)) :
    ∃ e, checkExecutedNonce 0 t.env a nonce = .error e := by
  unfold checkExecutedNonce
  rw [if_pos hcaller]
  by_cases hzero : nonce = 0
  · exact ⟨_, if_pos hzero⟩
  · rw [if_neg hzero]
    exact ⟨_, if_pos fun hnonce => h ⟨hzero, hnonce⟩⟩

/-- An account that passes its checks is evaluated. -/
theorem evaluateAddress_ok {result : PevmTxExecutionResult} {value : MemoryValue}
    (h : m.entry (t.hash (.basic a)) 0 = some (.data 0 value)) (hvalue : value.isBasic = true)
    (hpasses : t.Passes a value) :
    t.vm.evaluateAddress m [result] a = .ok [{ result with
      state := EvmStateTransitions.modifyEntry a (t.evaluatedAccount a value) result.state }] := by
  rw [evaluateAddress_some h, evaluateEntry_ok hvalue hpasses.funds]
  show (checkExecutedNonce 0 t.env a ((t.pre.account a).after value).nonce >>= _) = _
  rw [checkExecutedNonce_ok hpasses.nonce]
  rfl

/-- One that does not fails the block. -/
theorem evaluateAddress_error (result : PevmTxExecutionResult) {value : MemoryValue}
    (h : m.entry (t.hash (.basic a)) 0 = some (.data 0 value)) (hvalue : value.isBasic = true)
    (hpasses : ¬ t.Passes a value) : ∃ e, t.vm.evaluateAddress m [result] a = .error e := by
  rw [evaluateAddress_some h]
  by_cases hfunds : ∀ subtraction, value = .lazySender subtraction →
      t.env.maxFee ≤ (t.pre.account a).balance
  · have hnonce := mt (Passes.mk hfunds) hpasses
    push Not at hnonce
    obtain ⟨hcaller, hnonce⟩ := hnonce
    rw [evaluateEntry_ok hvalue hfunds]
    show ∃ e, (checkExecutedNonce 0 t.env a ((t.pre.account a).after value).nonce >>= _) = .error e
    obtain ⟨e, he⟩ := checkExecutedNonce_error ((t.pre.account a).after value).nonce hcaller
      (fun hok => hnonce hok.1 hok.2)
    rw [he]
    exact ⟨e, rfl⟩
  · push Not at hfunds
    obtain ⟨subtraction, rfl, hfunds⟩ := hfunds
    obtain ⟨e, he⟩ := evaluateEntry_error subtraction hfunds
    rw [he]
    exact ⟨e, rfl⟩

/-- What an account of the results becomes when it is evaluated. -/
def evaluatedEntry (t : Transfer T) (value : Option MemoryValue) (a : Address)
    (entry : Option (Option EvmAccount)) : Option (Option EvmAccount) :=
  match value with
  | some value => some (t.evaluatedAccount a value (entry.getD none))
  | none => entry

/-- **The evaluation of the lazy addresses** when all pass their checks. -/
theorem evaluates {value : Address → Option MemoryValue}
    (hbasic : ∀ a v, value a = some v → v.isBasic = true) :
    ∀ {addresses : List Address} (result : PevmTxExecutionResult), addresses.Nodup →
      (∀ a ∈ addresses, m.entry (t.hash (.basic a)) 0 = (value a).map (.data 0)) →
      (∀ a ∈ addresses, ∀ v, value a = some v → t.Passes a v) →
      ∃ result', addresses.foldlM (t.vm.evaluateAddress m) [result] = .ok [result'] ∧
        ∀ b, result'.state.lookup b =
          if b ∈ addresses then t.evaluatedEntry (value b) b (result.state.lookup b)
          else result.state.lookup b
  | [], result, _, _, _ => ⟨result, rfl, fun _ => by simp⟩
  | a :: rest, result, hnodup, hentry, hpasses => by
    obtain ⟨hmem, hnodup⟩ := List.nodup_cons.mp hnodup
    obtain ⟨result₁, hok₁, hstate₁⟩ : ∃ result₁,
        t.vm.evaluateAddress m [result] a = .ok [result₁] ∧
        ∀ b, result₁.state.lookup b =
          if b = a then t.evaluatedEntry (value b) b (result.state.lookup b)
          else result.state.lookup b := by
      have ha := hentry a List.mem_cons_self
      cases hvalue : value a with
      | none =>
        rw [hvalue] at ha
        refine ⟨result, evaluateAddress_none ha, fun b => ?_⟩
        split_ifs with hb
        · rw [hb, hvalue]
          rfl
        · rfl
      | some v =>
        rw [hvalue] at ha
        refine ⟨_, evaluateAddress_ok ha (hbasic a v hvalue)
          (hpasses a List.mem_cons_self v hvalue), fun b => ?_⟩
        rw [lookup_modifyEntry]
        split_ifs with hb
        · rw [hb, hvalue]
          rfl
        · rfl
    obtain ⟨result', hok, hstate⟩ := evaluates hbasic result₁ hnodup
      (fun b hb => hentry b (List.mem_cons_of_mem _ hb))
      (fun b hb => hpasses b (List.mem_cons_of_mem _ hb))
    refine ⟨result', ?_, fun b => ?_⟩
    · rw [List.foldlM_cons, hok₁]
      exact hok
    · rw [hstate, hstate₁]
      by_cases hb : b = a
      · subst hb
        rw [if_neg hmem, if_pos rfl, if_pos List.mem_cons_self]
      · simp [hb]

/-- The evaluation fails when an account does not pass its checks. -/
theorem evaluates_error {value : Address → Option MemoryValue}
    (hbasic : ∀ a v, value a = some v → v.isBasic = true) :
    ∀ {addresses : List Address} (result : PevmTxExecutionResult),
      (∀ a ∈ addresses, m.entry (t.hash (.basic a)) 0 = (value a).map (.data 0)) →
      (∃ a ∈ addresses, ∃ v, value a = some v ∧ ¬ t.Passes a v) →
      ∃ e, addresses.foldlM (t.vm.evaluateAddress m) [result] = .error e
  | [], _, _, h => by simp at h
  | a :: rest, result, hentry, h => by
    have ha := hentry a List.mem_cons_self
    rw [List.foldlM_cons]
    by_cases hhead : ∃ v, value a = some v ∧ ¬ t.Passes a v
    · obtain ⟨v, hvalue, hnot⟩ := hhead
      rw [hvalue] at ha
      obtain ⟨e, he⟩ := evaluateAddress_error result ha (hbasic a v hvalue) hnot
      rw [he]
      exact ⟨e, rfl⟩
    · have hrest : ∃ b ∈ rest, ∃ v, value b = some v ∧ ¬ t.Passes b v := by
        obtain ⟨b, hb, hv⟩ := h
        rcases List.mem_cons.mp hb with rfl | hb
        · exact absurd hv hhead
        · exact ⟨b, hb, hv⟩
      have hentry' := fun b hb => hentry b (List.mem_cons_of_mem a hb)
      cases hvalue : value a with
      | none =>
        rw [hvalue] at ha
        rw [evaluateAddress_none ha]
        exact evaluates_error hbasic result hentry' hrest
      | some v =>
        rw [hvalue] at ha
        have hpasses : t.Passes a v := by
          by_contra hnot
          exact hhead ⟨v, hvalue, hnot⟩
        rw [evaluateAddress_ok ha (hbasic a v hvalue) hpasses]
        exact evaluates_error hbasic _ hentry' hrest

end Transfer

/-! ## The block -/

namespace Transfer

variable {T : Type} (t : Transfer T)

/-- The addresses that are evaluated. -/
def evaluatedAddresses (isLazy : Bool) : List Address :=
  (t.executedMemory isLazy fun _ => none).lazyAddresses

/-- What the execution reports about an account. -/
def transition (isLazy : Bool) (a : Address) : Option (Option EvmAccount) :=
  if (t.settled isLazy).touched a then
    let account : Account := ⟨(t.settled isLazy).info a, [], true, false⟩
    some (if account.isEmpty && t.isEip161Enabled then none else some (.ofAccount account))
  else none

variable {t} {isLazy : Bool} {a : Address} {fees : List (Address × U256)}

theorem mem_evaluatedAddresses : a ∈ t.evaluatedAddresses isLazy ↔
    a ∈ t.chain.lazyAddresses t.blockEnv ∨ t.mocked isLazy a := by
  have hmemory : ∀ a, a ∈ t.memory.lazyAddresses ↔ a ∈ t.chain.lazyAddresses t.blockEnv := by
    intro a
    show a ∈ insertLazyAddresses [] _ ↔ _
    simp [mem_insertLazyAddresses]
  unfold evaluatedAddresses executedMemory mocked
  cases isLazy with
  | false => simp [hmemory]
  | true => simp [mem_insertLazyAddresses, hmemory]

theorem nodup_evaluatedAddresses : (t.evaluatedAddresses isLazy).Nodup := by
  have hmemory : t.memory.lazyAddresses.Nodup := nodup_insertLazyAddresses List.nodup_nil
  unfold evaluatedAddresses executedMemory
  cases isLazy with
  | false => exact hmemory
  | true => exact nodup_insertLazyAddresses hmemory

theorem evaluatedAddresses_mem (h : a ∈ t.evaluatedAddresses isLazy) : a ∈ t.accounts := by
  rcases mem_evaluatedAddresses.mp h with h | ⟨-, rfl | rfl⟩
  · exact lazyAddresses_mem h
  · exact caller_mem
  · exact recipient_mem

/-- The state transitions of the journal. -/
theorem lookup_stateTransitions {view : View} {state : EvmState} {s : Accounts}
    (hj : Journal view state s) (isEip161Enabled : Bool) :
    (stateTransitionsFromRevm isEip161Enabled state).lookup a =
      if s.touched a then
        some (if (⟨s.info a, [], true, false⟩ : Account).isEmpty && isEip161Enabled then none
          else some (.ofAccount ⟨s.info a, [], true, false⟩))
      else none := by
  let transition : Account → Option EvmAccount := fun account =>
    if account.isSelfdestructed || account.isEmpty && isEip161Enabled then none
    else some (EvmAccount.ofAccount account)
  have hmap : stateTransitionsFromRevm isEip161Enabled state =
      (state.filter fun p => p.2.isTouched).map fun p => (p.1, transition p.2) := by
    unfold stateTransitionsFromRevm
    refine List.map_congr_left fun p _ => ?_
    dsimp only [transition]
    split_ifs <;> rfl
  rw [hmap, AssocList.lookup_map_filter (p := Account.isTouched) (f := transition) hj.nodup]
  cases hlookup : state.lookup a with
  | none => simp [(hj.missing a hlookup).2]
  | some account =>
    rw [hj.found a account hlookup]
    cases htouched : s.touched a <;> simp [Option.filter, transition]

/-- What is recorded for the balance and nonce of an account. -/
def value (t : Transfer T) (fees : List (Address × U256)) (isLazy : Bool) (a : Address) :
    Option MemoryValue :=
  credits fees a (t.basicValue isLazy (t.settled isLazy) a)

theorem isBasic_credits : ∀ {fees : List (Address × U256)} {value : Option MemoryValue},
    (∀ v, value = some v → v.isBasic = true) → ∀ v, credits fees a value = some v → v.isBasic = true
  | [], _, h => h
  | (b, amount) :: fees, value, h => by
    rw [credits_cons]
    refine isBasic_credits fun v hv => ?_
    split_ifs at hv
    · rw [← Option.some.inj hv]
      exact isBasic_credit
    · exact h v hv

/-- A block is accepted in one way at most. -/
theorem Accepted.unique {m m' : MvMemory} {results results' : List PevmTxExecutionResult}
    (h : t.Accepted isLazy m results) (h' : t.Accepted isLazy m' results') :
    m = m' ∧ results = results' := by
  obtain ⟨m₁, readSet, writes, result, wrote, hexecute, hrecord, heval⟩ := h.accepted
  obtain ⟨m₁', readSet', writes', result', wrote', hexecute', hrecord', heval'⟩ := h'.accepted
  obtain ⟨rfl, houtcome⟩ := hexecute.unique hexecute'
  obtain ⟨rfl, rfl, rfl⟩ : readSet = readSet' ∧ writes = writes' ∧ result = result' := by
    simpa using houtcome
  obtain ⟨rfl, -⟩ := hrecord.unique hrecord'
  rw [heval] at heval'
  exact ⟨rfl, by simpa using heval'⟩

/-- An execution that fails is not accepted. -/
theorem not_accepted_of_fails {m₁ : MvMemory} {e : VmExecutionError ExecutionError}
    (h : Completes (t.vm.executeAlone version) t.memory (t.execution isLazy) m₁ (.error e)) :
    ¬ ∃ m results, t.Accepted isLazy m results := by
  rintro ⟨m, results, haccepted⟩
  obtain ⟨m₁', readSet, writes, result, wrote, hexecute, -, -⟩ := haccepted.accepted
  obtain ⟨-, houtcome⟩ := h.unique hexecute
  cases houtcome

section Executed

variable (hpays : t.Pays fees) (hnonce : t.NonceMatches isLazy)
  (hexecutes : t.revm.rejects t.env t.hasNonce ((t.view isLazy).info t.env.caller) = none)

include hpays hnonce hexecutes

/-- The execution up to the evaluation. -/
theorem executes_recorded : ∃ m₁ readSet writes result wroteNewLocation m,
    Completes (t.vm.executeAlone version) t.memory (t.execution isLazy) m₁
      (.ok (readSet, writes, result)) ∧
    Completes (fun m pc => m.recordStep 0 version readSet writes pc) m₁ .lock m wroteNewLocation ∧
    m.lazyAddresses = t.evaluatedAddresses isLazy ∧
    t.Recorded m (t.value fees isLazy) (t.codeValue isLazy (t.settled isLazy)) ∧
    ∀ a, result.state.lookup a = t.transition isLazy a := by
  obtain ⟨newBytecodes, readSet, writes, receipt, state, hexecute, hj, hwritten⟩ :=
    executes hpays hnonce hexecutes
  obtain ⟨m, wrote, hrecord, hlazy, hrecorded⟩ :=
    hwritten.recorded hpays isLazy readSet newBytecodes
  exact ⟨_, readSet, writes, _, wrote, m, hexecute, hrecord, hlazy, hrecorded,
    fun a => lookup_stateTransitions hj t.isEip161Enabled⟩

/-- **An accepted block**: what it records and returns. -/
theorem accepts (hpasses : ∀ a ∈ t.evaluatedAddresses isLazy, ∀ v,
      t.value fees isLazy a = some v → t.Passes a v) :
    ∃ m results, t.Accepted isLazy m results ∧
      t.Recorded m (t.value fees isLazy) (t.codeValue isLazy (t.settled isLazy)) ∧
      ∀ a, returned results a =
        if a ∈ t.evaluatedAddresses isLazy then
          t.evaluatedEntry (t.value fees isLazy a) a (t.transition isLazy a)
        else t.transition isLazy a := by
  obtain ⟨m₁, readSet, writes, result, wrote, m, hexecute, hrecord, hlazy, hrecorded, hstate⟩ :=
    executes_recorded hpays hnonce hexecutes
  have hbasic : ∀ a v, t.value fees isLazy a = some v → v.isBasic = true :=
    fun a => isBasic_credits fun v => isBasic_basicValue
  obtain ⟨result', hok, hstate'⟩ := evaluates hbasic
    { result with receipt := { result.receipt with
      cumulativeGasUsed := saturatingAdd 0 result.receipt.cumulativeGasUsed } }
    nodup_evaluatedAddresses (fun a ha => hrecorded.basic a (evaluatedAddresses_mem ha)) hpasses
  refine ⟨m, [result'], ⟨m₁, readSet, writes, result, wrote, hexecute, hrecord, ?_⟩, hrecorded,
    fun a => ?_⟩
  · rw [Vm.evaluateResults, hlazy]
    exact hok
  · show result'.state.lookup a = _
    rw [hstate', hstate]

/-- A block that fails a check of the evaluation is not accepted. -/
theorem not_accepted_of_not_passes {v : MemoryValue} (ha : a ∈ t.evaluatedAddresses isLazy)
    (hvalue : t.value fees isLazy a = some v) (hpasses : ¬ t.Passes a v) :
    ¬ ∃ m results, t.Accepted isLazy m results := by
  rintro ⟨m', results, haccepted⟩
  obtain ⟨m₁, readSet, writes, result, wrote, m, hexecute, hrecord, hlazy, hrecorded, hstate⟩ :=
    executes_recorded hpays hnonce hexecutes
  obtain ⟨m₁', readSet', writes', result', wrote', hexecute', hrecord', heval⟩ := haccepted.accepted
  obtain ⟨rfl, houtcome⟩ := hexecute.unique hexecute'
  obtain ⟨rfl, rfl, rfl⟩ : readSet = readSet' ∧ writes = writes' ∧ result = result' := by
    simpa using houtcome
  obtain ⟨rfl, -⟩ := hrecord.unique hrecord'
  have hbasic : ∀ a v, t.value fees isLazy a = some v → v.isBasic = true :=
    fun a => isBasic_credits fun v => isBasic_basicValue
  obtain ⟨e, herror⟩ := evaluates_error hbasic
    { result with receipt := { result.receipt with
      cumulativeGasUsed := saturatingAdd 0 result.receipt.cumulativeGasUsed } }
    (fun a ha => hrecorded.basic a (evaluatedAddresses_mem ha)) ⟨a, ha, v, hvalue, hpasses⟩
  rw [Vm.evaluateResults, hlazy] at heval
  exact absurd (heval.symm.trans herror) (by simp)

end Executed

end Transfer

end Pevm
