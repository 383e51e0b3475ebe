import Pevm.Proofs.Alone

/-!
# The write set of a raw transfer

The write set of a raw transfer as a function of the accounts at the end of its run: what is
written for the balance and nonce (`Transfer.basicValue`) and for the code hash
(`Transfer.codeValue`) of every account, and what the rewards add to it (`credit`). An execution
that is not rejected ends with this write set (`executes`).
-/

namespace Pevm

open Interleaving MvMemory Saturating

/-! ## Rewards -/

/-- The write of the balance and nonce of an account with a reward. -/
def credit (amount : U256) : Option MemoryValue → MemoryValue
  | some (.basic account) => .basic { account with balance := saturatingAdd account.balance amount }
  | some (.lazySender subtraction) => .lazySender (saturatingSub subtraction amount)
  | some (.lazyRecipient addition) => .lazyRecipient (saturatingAdd addition amount)
  | _ => .lazyRecipient amount

theorem isBasic_credit {amount : U256} {value : Option MemoryValue} :
    (credit amount value).isBasic = true := by
  unfold credit
  split <;> rfl

theorem addReward_spec (recipient : MemoryLocationHash) (amount : U256) :
    ∀ {writes : WriteSet}, (AssocList.keys writes).Nodup →
      (∀ value, writes.lookup recipient = some value → value.isBasic = true) →
      ∃ writes', Vm.addReward recipient amount writes = .ok writes' ∧
        (AssocList.keys writes').Nodup ∧
        ∀ l, writes'.lookup l =
          if l = recipient then some (credit amount (writes.lookup recipient)) else writes.lookup l
  | [], _, _ => by
    refine ⟨[(recipient, .lazyRecipient amount)], rfl, by simp, fun l => ?_⟩
    rw [AssocList.lookup_cons]
    rfl
  | (location, value) :: rest, hnodup, hvalue => by
    obtain ⟨hmem, hrest⟩ := List.nodup_cons.mp hnodup
    unfold Vm.addReward
    by_cases hlocation : location = recipient
    · -- the write is replaced in place
      subst hlocation
      have hlookup : List.lookup location ((location, value) :: rest) = some value := by simp
      have hreplace : ∀ value', ((AssocList.keys ((location, value') :: rest)).Nodup) ∧
          ∀ l, List.lookup l ((location, value') :: rest) =
            if l = location then some value' else List.lookup l ((location, value) :: rest) := by
        refine fun value' => ⟨hnodup, fun l => ?_⟩
        rw [AssocList.lookup_cons, AssocList.lookup_cons]
        split_ifs <;> rfl
      have hbasic := hvalue value hlookup
      rw [if_pos rfl, hlookup]
      cases value with
      | basic account => exact ⟨_, rfl, hreplace _⟩
      | lazySender subtraction => exact ⟨_, rfl, hreplace _⟩
      | lazyRecipient addition => exact ⟨_, rfl, hreplace _⟩
      | codeHash _ | storage _ | selfDestructed => cases hbasic
    · have hlookup : List.lookup recipient ((location, value) :: rest) = rest.lookup recipient := by
        rw [AssocList.lookup_cons, if_neg (Ne.symm hlocation)]
      rw [hlookup] at hvalue ⊢
      obtain ⟨rest', hok, hnodup', hlookup'⟩ := addReward_spec recipient amount hrest hvalue
      refine ⟨(location, value) :: rest', ?_, ?_, fun l => ?_⟩
      · rw [if_neg hlocation, hok]
        rfl
      · refine List.nodup_cons.mpr ⟨?_, hnodup'⟩
        show location ∉ AssocList.keys rest'
        rw [← AssocList.lookup_eq_none_iff, hlookup', if_neg hlocation,
          AssocList.lookup_eq_none_iff]
        exact hmem
      · rw [AssocList.lookup_cons, AssocList.lookup_cons, hlookup']
        by_cases hl : l = location
        · simp [hl, hlocation]
        · simp [hl]

/-! ## The writes of the accounts -/

namespace Transfer

variable {T : Type} (t : Transfer T)

/-- Whether the write set takes the code of an account for new. -/
def newCode (isLazy : Bool) (s : Accounts) (a : Address) : Bool :=
  !(s.info a).isEmptyCodeHash &&
    (t.mocked isLazy a || (t.pre.basic a).isNone || (t.pre.codeHash a).isNone)

/-- Whether the write set takes the balance or nonce of an account for changed. -/
def changed (isLazy : Bool) (s : Accounts) (a : Address) : Bool :=
  t.mocked isLazy a ||
    match t.pre.basic a with
    | none => true
    | some account => account.nonce ≠ (s.info a).nonce ∨ account.balance ≠ (s.info a).balance

/-- What is written for the balance and nonce of an account, without rewards. -/
def basicValue (isLazy : Bool) (s : Accounts) (a : Address) : Option MemoryValue :=
  if s.touched a && (t.newCode isLazy s a || t.changed isLazy s a) then
    if isLazy then
      if a = t.env.caller then some (.lazySender (U256.max - (s.info a).balance))
      else if a = t.recipient then some (.lazyRecipient t.env.value)
      else none
    else if !t.isEip161Enabled || !(s.info a).isEmpty then
      some (.basic ⟨(s.info a).balance, (s.info a).nonce⟩)
    else none
  else none

/-- What is written for the code hash of an account. -/
def codeValue (isLazy : Bool) (s : Accounts) (a : Address) : Option MemoryValue :=
  if s.touched a && t.newCode isLazy s a then some (.codeHash (s.info a).codeHash) else none

/-- At most one write of the balance and nonce, and one of the code hash. -/
def accountPiece (isLazy : Bool) (s : Accounts) (a : Address) : WriteSet :=
  ((t.basicValue isLazy s a).toList.map fun value => (t.hash (.basic a), value)) ++
    (t.codeValue isLazy s a).toList.map fun value => (t.hash (.codeHash a), value)

/-- The write set has these values for the accounts. -/
structure Written (writes : WriteSet) (basic code : Address → Option MemoryValue) : Prop where
  nodup : (AssocList.keys writes).Nodup
  basic : ∀ a ∈ t.accounts, writes.lookup (t.hash (.basic a)) = basic a
  code : ∀ a ∈ t.accounts, writes.lookup (t.hash (.codeHash a)) = code a

variable {t} {isLazy : Bool} {asked : List Address} {db : VmDb} {a : Address} {s : Accounts}

theorem vm_hash : t.vm.hash = t.hash := rfl

theorem vm_isEip161Enabled : t.vm.isEip161Enabled = t.isEip161Enabled := rfl

theorem Answers.isNewCode_eq (h : t.Answers isLazy asked db) (ha : a ∈ t.accounts)
    (hasked : a ∈ asked) {touched : Bool} :
    t.vm.isNewCode db a ⟨s.info a, [], touched, false⟩ = t.newCode isLazy s a := by
  unfold Vm.isNewCode newCode
  rw [vm_hash, h.readAccounts a ha]
  by_cases hmocked : t.mocked isLazy a
  · simp [hmocked]
  · cases hbasic : t.pre.basic a <;> simp [hmocked, hasked]

theorem Answers.isChanged_eq (h : t.Answers isLazy asked db) (ha : a ∈ t.accounts)
    (hasked : a ∈ asked) {touched : Bool} :
    t.vm.isChanged db a ⟨s.info a, [], touched, false⟩ = t.changed isLazy s a := by
  unfold Vm.isChanged changed
  rw [vm_hash, h.readAccounts a ha]
  by_cases hmocked : t.mocked isLazy a
  · simp [hmocked]
  · cases hbasic : t.pre.basic a <;> simp [hmocked, hasked]

theorem Answers.basicWrites_eq (h : t.Answers isLazy asked db) (ha : a ∈ t.accounts)
    (hasked : a ∈ asked) (htouched : s.touched a = true) :
    t.vm.basicWrites db a ⟨s.info a, [], true, false⟩ =
      (t.basicValue isLazy s a).toList.map fun value => (t.hash (.basic a), value) := by
  have hfrom : t.hash (.basic a) = db.fromHash ↔ a = t.env.caller := by
    rw [h.fromHash]
    exact hash_basic_inj ha caller_mem
  have hto : some (t.hash (.basic a)) = db.toHash ↔ a = t.recipient := by
    rw [h.toHash, Option.some.injEq]
    exact hash_basic_inj ha recipient_mem
  unfold Vm.basicWrites basicValue
  rw [h.isNewCode_eq ha hasked, h.isChanged_eq ha hasked, htouched, Bool.true_and, vm_hash,
    vm_isEip161Enabled, h.lazy, h.tx]
  dsimp only
  by_cases hwrite : (t.newCode isLazy s a || t.changed isLazy s a) = true
  · rw [if_pos hwrite, if_pos hwrite]
    cases isLazy with
    | true =>
      by_cases hcaller : a = t.env.caller
      · rw [if_pos rfl, if_pos (hfrom.mpr hcaller), if_pos rfl, if_pos hcaller]
        rfl
      · rw [if_pos rfl, if_neg (mt hfrom.mp hcaller), if_pos rfl, if_neg hcaller]
        by_cases hrecipient : a = t.recipient
        · rw [if_pos (hto.mpr hrecipient), if_pos hrecipient]
          rfl
        · rw [if_neg (mt hto.mp hrecipient), if_neg hrecipient]
          rfl
    | false =>
      rw [if_neg Bool.false_ne_true, if_neg Bool.false_ne_true]
      show (if !t.isEip161Enabled || !(s.info a).isEmpty then _ else _) = _
      split_ifs <;> rfl
  · rw [if_neg hwrite, if_neg hwrite]
    rfl

/-- The writes of one account of the journal. -/
theorem Answers.accountWrites_eq (h : t.Answers isLazy asked db) (ha : a ∈ t.accounts)
    (hasked : a ∈ asked) :
    t.vm.accountWrites db a ⟨s.info a, [], s.touched a, false⟩ = t.accountPiece isLazy s a := by
  unfold Vm.accountWrites accountPiece codeValue
  cases htouched : s.touched a with
  | false => simp [Account.changedStorageSlots, basicValue, htouched]
  | true =>
    rw [h.basicWrites_eq ha hasked htouched, h.isNewCode_eq ha hasked, vm_hash]
    cases t.newCode isLazy s a <;> simp [Account.changedStorageSlots]

theorem mem_keys_accountPiece {l : MemoryLocationHash}
    (h : l ∈ AssocList.keys (t.accountPiece isLazy s a)) :
    l = t.hash (.basic a) ∨ l = t.hash (.codeHash a) := by
  simp only [accountPiece, AssocList.keys, List.map_append, List.map_map, List.mem_append,
    List.mem_map] at h
  rcases h with ⟨value, -, rfl⟩ | ⟨value, -, rfl⟩
  · exact .inl rfl
  · exact .inr rfl

theorem nodup_accountPiece (ha : a ∈ t.accounts) :
    (AssocList.keys (t.accountPiece isLazy s a)).Nodup := by
  have hne := hash_basic_ne_codeHash ha ha
  unfold accountPiece
  cases t.basicValue isLazy s a <;> cases t.codeValue isLazy s a <;> simp [hne]

theorem lookup_accountPiece_basic (ha : a ∈ t.accounts) :
    (t.accountPiece isLazy s a).lookup (t.hash (.basic a)) = t.basicValue isLazy s a := by
  have hne := hash_basic_ne_codeHash ha ha
  unfold accountPiece
  cases t.basicValue isLazy s a <;> cases t.codeValue isLazy s a <;>
    simp [AssocList.lookup_cons, hne]

theorem lookup_accountPiece_codeHash (ha : a ∈ t.accounts) :
    (t.accountPiece isLazy s a).lookup (t.hash (.codeHash a)) = t.codeValue isLazy s a := by
  have hne := (hash_basic_ne_codeHash ha ha).symm
  unfold accountPiece
  cases t.basicValue isLazy s a <;> cases t.codeValue isLazy s a <;>
    simp [AssocList.lookup_cons, hne]

/-- Two accounts have no location in common. -/
theorem disjoint_accountPiece {b : Address} (ha : a ∈ t.accounts) (hb : b ∈ t.accounts)
    (hne : a ≠ b) {l : MemoryLocationHash} (h : l ∈ AssocList.keys (t.accountPiece isLazy s a)) :
    l ≠ t.hash (.basic b) ∧ l ≠ t.hash (.codeHash b) := by
  rcases mem_keys_accountPiece h with rfl | rfl
  · exact ⟨mt (hash_basic_inj ha hb).mp hne, hash_basic_ne_codeHash ha hb⟩
  · exact ⟨(hash_basic_ne_codeHash hb ha).symm, mt (hash_codeHash_inj ha hb).mp hne⟩

/-- The writes before the rewards. -/
theorem Answers.written {state : EvmState} (h : t.Answers isLazy state.addresses db)
    (hj : Journal (t.view isLazy) state s) (hstate : ∀ b ∈ state.addresses, b ∈ t.accounts) :
    t.Written (state.flatMap fun (address, account) => t.vm.accountWrites db address account)
      (t.basicValue isLazy s) (t.codeValue isLazy s) := by
  have hpieces : (state.flatMap fun (address, account) => t.vm.accountWrites db address account) =
      state.flatMap fun p => t.accountPiece isLazy s p.1 := by
    refine List.flatMap_congr fun p hp => ?_
    obtain ⟨a, account⟩ := p
    have hmem : a ∈ state.addresses := List.mem_map_of_mem hp
    have hfound := hj.found a account (AssocList.lookup_eq_some_of_mem hj.nodup hp)
    rw [hfound]
    exact h.accountWrites_eq (hstate a hmem) hmem
  have hmem : ∀ p ∈ state, p.1 ∈ t.accounts := fun p hp => hstate _ (List.mem_map_of_mem hp)
  -- only the piece of an account has its locations
  have hother : ∀ b ∈ t.accounts, ∀ p ∈ state, p.1 ≠ b →
      (t.accountPiece isLazy s p.1).lookup (t.hash (.basic b)) = none ∧
        (t.accountPiece isLazy s p.1).lookup (t.hash (.codeHash b)) = none := by
    intro b hb p hp hne
    rw [AssocList.lookup_eq_none_iff, AssocList.lookup_eq_none_iff]
    exact ⟨fun hl => (disjoint_accountPiece (hmem p hp) hb hne hl).1 rfl,
      fun hl => (disjoint_accountPiece (hmem p hp) hb hne hl).2 rfl⟩
  rw [hpieces]
  refine ⟨?_, fun b hb => ?_, fun b hb => ?_⟩
  · refine AssocList.nodup_keys_flatMap hj.nodup (fun p hp => nodup_accountPiece (hmem p hp)) ?_
    intro p hp q hq hne l hl hl'
    obtain ⟨hbasic, hcode⟩ := disjoint_accountPiece (hmem p hp) (hmem q hq) hne hl
    exact (mem_keys_accountPiece hl').elim hbasic hcode
  · rw [AssocList.lookup_flatMap hj.nodup fun p hp hne => (hother b hb p hp hne).1]
    cases hlookup : state.lookup b with
    | none => simp [basicValue, (hj.missing b hlookup).2]
    | some account => exact lookup_accountPiece_basic hb
  · rw [AssocList.lookup_flatMap hj.nodup fun p hp hne => (hother b hb p hp hne).2]
    cases hlookup : state.lookup b with
    | none => simp [codeValue, (hj.missing b hlookup).2]
    | some account => exact lookup_accountPiece_codeHash hb

end Transfer

/-! ## Fees -/

theorem TxEnv.effectiveGasPrice_le (tx : TxEnv) (basefee : BitVec 64) :
    (tx.effectiveGasPrice basefee).toNat ≤ tx.gasPrice.toNat := by
  unfold TxEnv.effectiveGasPrice
  cases tx.gasPriorityFee with
  | none => exact le_rfl
  | some priorityFee =>
    dsimp only
    split_ifs with h
    · exact le_rfl
    · exact (not_le.mp h).le

theorem TxEnv.le_effectiveGasPrice {tx : TxEnv} {basefee : BitVec 64}
    (h : basefee.toNat ≤ tx.gasPrice.toNat) :
    basefee.toNat ≤ (tx.effectiveGasPrice basefee).toNat := by
  unfold TxEnv.effectiveGasPrice
  cases tx.gasPriorityFee with
  | none => exact h
  | some priorityFee =>
    dsimp only
    split_ifs
    · exact h
    · have hwidth : (basefee.setWidth 128).toNat = basefee.toNat := BitVec.toNat_setWidth_of_le (by decide)
      have hlt := (basefee.setWidth 128).isLt
      rw [toNat_saturatingAdd]
      omega

namespace Revm

variable {blockEnv : BlockEnv} (revm : Revm blockEnv) {tx : TxEnv}

/-- The effective gas cost is what it says, and with the value at most `maxBalanceSpending`. -/
theorem toNat_cost {hasNonce : Bool} (h : revm.check hasNonce tx = none) : (revm.cost tx).toNat =
      (tx.effectiveGasPrice blockEnv.basefee).toNat * (revm.gasUsed tx).toNat +
        (revm.blobFee tx).toNat ∧
    (revm.cost tx).toNat + tx.value.toNat ≤ tx.maxBalanceSpending := by
  have hgas : (tx.effectiveGasPrice blockEnv.basefee).toNat * (revm.gasUsed tx).toNat ≤
      tx.gasLimit.toNat * tx.gasPrice.toNat := by
    rw [Nat.mul_comm]
    exact Nat.mul_le_mul (revm.gasUsed_le _ tx h) (tx.effectiveGasPrice_le _)
  have hblob := revm.blobFee_le _ tx h
  have hlt := revm.maxFee_lt _ tx h
  unfold TxEnv.maxBalanceSpending at hlt ⊢
  have hcost : (revm.cost tx).toNat =
      (tx.effectiveGasPrice blockEnv.basefee).toNat * (revm.gasUsed tx).toNat +
        (revm.blobFee tx).toNat := by
    unfold cost
    rw [BitVec.toNat_add, BitVec.toNat_mul, BitVec.toNat_setWidth_of_le (by decide),
      BitVec.toNat_setWidth_of_le (by decide), Nat.mod_eq_of_lt, Nat.mod_eq_of_lt]
    · omega
    · rw [Nat.mod_eq_of_lt] <;> omega
  rw [hcost]
  exact ⟨rfl, by omega⟩

end Revm
namespace Transfer

variable {T : Type} (t : Transfer T)

/-- The transaction pays these fees to these recipients. -/
structure Pays (fees : List (Address × U256)) : Prop where
  rewards : t.chain.getRewards t.hash (t.hash (.basic t.blockEnv.beneficiary))
    ((t.revm.gasUsed t.env).setWidth 256) ((t.vm.rewardGasPrice t.env).setWidth 256)
    t.blockEnv.basefee t.tx = fees.map fun p => (t.hash (.basic p.1), p.2)
  recipients : ∀ a, a ∈ AssocList.keys fees ↔
    a ∈ t.chain.lazyAddresses t.blockEnv ∧ t.hasNonce = true
  total : t.hasNonce = true → t.revm.check true t.env = none →
    (fees.map fun p => p.2.toNat).sum ≤ (t.revm.cost t.env).toNat

end Transfer

/-- The rewards of either chain. -/
theorem SourceChain.exists_fees {T : Type} {chain : PevmChain T} {isEip161Enabled : Bool}
    (h : SourceChain chain isEip161Enabled)
    (hash : MemoryLocation → MemoryLocationHash) (blockEnv : BlockEnv) (gasUsed : BitVec 64)
    (price : BitVec 128) (tx : T) :
    ∃ fees : List (Address × U256),
      chain.getRewards hash (hash (.basic blockEnv.beneficiary)) (gasUsed.setWidth 256)
        ((if isEip161Enabled then saturatingSub price (blockEnv.basefee.setWidth 128)
          else price).setWidth 256) blockEnv.basefee tx =
        fees.map (fun p => (hash (.basic p.1), p.2)) ∧
      (∀ a, a ∈ AssocList.keys fees ↔ a ∈ chain.lazyAddresses blockEnv ∧ chain.hasNonce tx = true) ∧
      (blockEnv.basefee.toNat ≤ price.toNat →
        (fees.map fun p => p.2.toNat).sum ≤ price.toNat * gasUsed.toNat) := by
  have hgas : (gasUsed.setWidth 256).toNat = gasUsed.toNat := BitVec.toNat_setWidth_of_le (by decide)
  cases h with
  | ethereum =>
    refine ⟨[(blockEnv.beneficiary, _)], rfl, by simp [PevmEthereum, AssocList.keys], fun _ => ?_⟩
    rw [List.map_singleton, List.sum_singleton]
    refine (toNat_saturatingMul_le _ _).trans (Nat.mul_le_mul ?_ hgas.le)
    rw [BitVec.toNat_setWidth_of_le (by decide)]
    split_ifs
    · rw [toNat_saturatingSub]
      omega
    · exact le_rfl
  | rise =>
    have hprice : ((saturatingSub price (blockEnv.basefee.setWidth 128)).setWidth 256).toNat =
        price.toNat - blockEnv.basefee.toNat := by
      rw [BitVec.toNat_setWidth_of_le (by decide), toNat_saturatingSub,
        BitVec.toNat_setWidth_of_le (by decide)]
    have hbasefee : (blockEnv.basefee.setWidth 256).toNat = blockEnv.basefee.toNat :=
      BitVec.toNat_setWidth_of_le (by decide)
    cases hdeposit : tx.isDeposit with
    | true => exact ⟨[], by simp [PevmRise, hdeposit], by simp [PevmRise, hdeposit], by simp⟩
    | false =>
      refine ⟨[(blockEnv.beneficiary, saturatingMul
          ((saturatingSub price (blockEnv.basefee.setWidth 128)).setWidth 256)
          (gasUsed.setWidth 256)),
        (baseFeeRecipient, saturatingMul (blockEnv.basefee.setWidth 256) (gasUsed.setWidth 256)),
        (l1FeeRecipient, 0), (operatorFeeRecipient, 0)], by simp [PevmRise, hdeposit],
        by simp [PevmRise, hdeposit, AssocList.keys], fun hle => ?_⟩
      have htip := toNat_saturatingMul_le
        ((saturatingSub price (blockEnv.basefee.setWidth 128)).setWidth 256) (gasUsed.setWidth 256)
      have hbase := toNat_saturatingMul_le (blockEnv.basefee.setWidth 256) (gasUsed.setWidth 256)
      rw [hprice, hgas] at htip
      rw [hbasefee, hgas] at hbase
      have hsplit : (price.toNat - blockEnv.basefee.toNat) * gasUsed.toNat +
          blockEnv.basefee.toNat * gasUsed.toNat = price.toNat * gasUsed.toNat := by
        rw [← Nat.add_mul, Nat.sub_add_cancel hle]
      simp only [List.map_cons, List.map_nil, List.sum_cons, List.sum_nil, BitVec.ofNat_eq_ofNat,
        BitVec.toNat_zero]
      omega

namespace Transfer

variable {T : Type} (t : Transfer T)

theorem exists_pays : ∃ fees, t.Pays fees := by
  obtain ⟨fees, hrewards, hrecipients, htotal⟩ := t.source.exists_fees t.hash t.blockEnv
    (t.revm.gasUsed t.env) (t.env.effectiveGasPrice t.blockEnv.basefee) t.tx
  refine ⟨fees, hrewards, hrecipients, fun _ hcheck => ?_⟩
  have hbasefee := TxEnv.le_effectiveGasPrice (t.revm.basefee_le t.env hcheck)
  have hcost := (t.revm.toNat_cost hcheck).1
  have := htotal hbasefee
  omega

/-- The fees an account gains, added to what is written for it. -/
def credits (fees : List (Address × U256)) (a : Address) (value : Option MemoryValue) :
    Option MemoryValue :=
  fees.foldl (fun value p => if p.1 = a then some (credit p.2 value) else value) value

theorem credits_cons {fees : List (Address × U256)} {a b : Address} {amount : U256}
    {value : Option MemoryValue} : credits ((b, amount) :: fees) a value =
      credits fees a (if b = a then some (credit amount value) else value) := rfl

variable {t}

/-- The rewards are added to the writes of the accounts. -/
theorem Written.rewards : ∀ {fees : List (Address × U256)} {writes : WriteSet}
    {basic code : Address → Option MemoryValue}, (∀ p ∈ fees, p.1 ∈ t.accounts) →
    t.Written writes basic code → (∀ a value, basic a = some value → value.isBasic = true) →
    ∃ writes', (fees.map fun p => (t.hash (.basic p.1), p.2)).foldlM
        (fun writes (recipient, amount) => Vm.addReward recipient amount writes) writes =
        .ok writes' ∧
      t.Written writes' (fun a => credits fees a (basic a)) code
  | [], writes, _, _, _, h, _ => ⟨writes, rfl, h⟩
  | (b, amount) :: fees, writes, basic, code, hfees, h, hbasic => by
    have hb : b ∈ t.accounts := hfees (b, amount) List.mem_cons_self
    obtain ⟨writes₁, hok, hnodup, hlookup⟩ := addReward_spec (t.hash (.basic b)) amount h.nodup
      (fun value hvalue => hbasic b value (h.basic b hb ▸ hvalue))
    have h₁ : t.Written writes₁ (fun a => if b = a then some (credit amount (basic a)) else basic a)
        code := by
      refine ⟨hnodup, fun a ha => ?_, fun a ha => ?_⟩
      · rw [hlookup, h.basic b hb]
        by_cases hab : b = a
        · subst hab
          rw [if_pos rfl, if_pos rfl]
        · rw [if_neg (mt (hash_basic_inj ha hb).mp (Ne.symm hab)), if_neg hab, h.basic a ha]
      · rw [hlookup, if_neg (hash_basic_ne_codeHash hb ha).symm, h.code a ha]
    have hbasic₁ : ∀ a value, (if b = a then some (credit amount (basic a)) else basic a) =
        some value → value.isBasic = true := by
      intro a value hvalue
      split_ifs at hvalue
      · rw [← Option.some.inj hvalue]
        exact isBasic_credit
      · exact hbasic a value hvalue
    obtain ⟨writes', hok', h'⟩ :=
      Written.rewards (fun p hp => hfees p (List.mem_cons_of_mem _ hp)) h₁ hbasic₁
    refine ⟨writes', ?_, h'⟩
    rw [List.map_cons, List.foldlM_cons]
    show (Vm.addReward (t.hash (.basic b)) amount writes >>= _) = _
    rw [hok]
    exact hok'

/-! ## The outcome of an execution -/

theorem isBasic_basicValue {value : MemoryValue} (h : t.basicValue isLazy s a = some value) :
    value.isBasic = true := by
  unfold basicValue at h
  split_ifs at h <;> rw [← Option.some.inj h] <;> rfl

theorem lazyAddresses_mem (h : a ∈ t.chain.lazyAddresses t.blockEnv) : a ∈ t.accounts := by
  unfold accounts
  simp [h]

/-- The write set of a run with the accounts `s` at its end. -/
theorem Answers.writeSet_eq {state : EvmState} {fees : List (Address × U256)}
    (h : t.Answers isLazy state.addresses db) (hj : Journal (t.view isLazy) state s)
    (hstate : ∀ b ∈ state.addresses, b ∈ t.accounts) (hpays : t.Pays fees) (isSuccess : Bool) :
    ∃ writes, t.vm.writeSet db t.tx ⟨isSuccess, t.revm.gasUsed t.env, []⟩ state = .ok writes ∧
      t.Written writes (fun a => credits fees a (t.basicValue isLazy s a)) (t.codeValue isLazy s) := by
  have hfees : ∀ p ∈ fees, p.1 ∈ t.accounts := fun p hp =>
    lazyAddresses_mem ((hpays.recipients p.1).mp (List.mem_map_of_mem hp)).1
  obtain ⟨writes, hok, hwritten⟩ :=
    (h.written hj hstate).rewards hfees fun a value => isBasic_basicValue
  refine ⟨writes, ?_, hwritten⟩
  unfold Vm.writeSet
  rw [← hok, ← hpays.rewards, h.tx]
  rfl

/-- Registering the new bytecodes changes nothing else. -/
theorem finish_bytecodes (result : ExecutionResult) (state : EvmState) :
    ∀ (bytecodes : List (B256 × Bytecode)) (m : MvMemory), ∃ newBytecodes,
      ∀ {m' : MvMemory} {o : ExecutionOutcome},
        Completes (t.vm.executeAlone version) { m with newBytecodes := newBytecodes }
          ⟨db, .finish result state []⟩ m' o →
        Completes (t.vm.executeAlone version) m ⟨db, .finish result state bytecodes⟩ m' o
  | [], m => ⟨m.newBytecodes, fun h => h⟩
  | (hash, code) :: rest, m => by
    obtain ⟨newBytecodes₁, hadd⟩ : ∃ newBytecodes,
        m.addNewBytecode hash code = { m with newBytecodes := newBytecodes } := by
      unfold MvMemory.addNewBytecode
      cases m.newBytecodes hash with
      | none => exact ⟨_, rfl⟩
      | some _ => exact ⟨m.newBytecodes, rfl⟩
    obtain ⟨newBytecodes, hrest⟩ :=
      finish_bytecodes result state rest { m with newBytecodes := newBytecodes₁ }
    refine ⟨newBytecodes, fun h => .goto ?_ (hrest h)⟩
    simp only [Vm.executeAlone, Vm.executeStep, hadd]

/-- The memory after the execution. -/
def executedMemory (t : Transfer T) (isLazy : Bool) (newBytecodes : B256 → Option Bytecode) :
    MvMemory :=
  { t.memory with
    newBytecodes := newBytecodes
    lazyAddresses :=
      if isLazy then insertLazyAddresses t.memory.lazyAddresses [t.env.caller, t.recipient]
      else t.memory.lazyAddresses }

/-- The end of an execution, after its bytecodes were registered. -/
theorem Answers.finish (h : t.Answers isLazy asked db) {result : ExecutionResult} {state : EvmState}
    {writes : WriteSet} (hok : t.vm.writeSet db t.tx result state = .ok writes)
    (newBytecodes : B256 → Option Bytecode) :
    Completes (t.vm.executeAlone version) { t.memory with newBytecodes := newBytecodes }
      ⟨db, .finish result state []⟩ (t.executedMemory isLazy newBytecodes)
      (.ok (db.readSet, writes,
        ⟨receiptFromRevm result, stateTransitionsFromRevm t.isEip161Enabled state⟩)) := by
  have hstep : ∀ m, t.vm.executeStep version m ⟨db, .finish result state []⟩ =
      if isLazy then .run ⟨db, .addLazyAddresses result state writes⟩
      else .run ⟨db, .record result state writes⟩ := by
    intro m
    have htx : t.vm.txs version.txIdx = t.tx := rfl
    simp only [Vm.executeStep, htx, hok, h.lazy]
  cases isLazy with
  | false => exact executeAlone_run (hstep _) (.ret rfl)
  | true =>
    have hrecord : t.vm.executeAlone version (t.executedMemory true newBytecodes)
        ⟨db, .record result state writes⟩ = some (t.executedMemory true newBytecodes,
          .ret (.ok (db.readSet, writes,
            ⟨receiptFromRevm result, stateTransitionsFromRevm t.isEip161Enabled state⟩))) := rfl
    refine executeAlone_run (hstep _) (.goto ?_ (.ret hrecord))
    simp only [Vm.executeAlone, Vm.executeStep, h.tx, recipient_env]
    rfl

/-- **The outcome of an execution** that revm does not reject: the write set of the accounts at the
end of the run. -/
theorem executes {fees : List (Address × U256)} (hpays : t.Pays fees)
    (hnonce : t.NonceMatches isLazy)
    (haccepted : t.revm.rejects t.env t.hasNonce ((t.view isLazy).info t.env.caller) = none) :
    ∃ newBytecodes readSet writes receipt state,
      Completes (t.vm.executeAlone version) t.memory (t.execution isLazy)
        (t.executedMemory isLazy newBytecodes)
        (.ok (readSet, writes, ⟨receipt, stateTransitionsFromRevm t.isEip161Enabled state⟩)) ∧
      Journal (t.view isLazy) state (t.settled isLazy) ∧
      t.Written writes (fun a => credits fees a (t.basicValue isLazy (t.settled isLazy) a))
        (t.codeValue isLazy (t.settled isLazy)) := by
  have hruns := t.revm.runs_transfer (t.view isLazy) t.hasNonce t.asked_mem
  rw [haccepted] at hruns
  obtain ⟨state, hj, hstate, hruns⟩ := hruns
  obtain ⟨db, hanswers, hrun⟩ :=
    (t.answers_start isLazy).runs hruns hnonce hstate t.memory_newBytecodes
  obtain ⟨writes, hok, hwritten⟩ := hanswers.writeSet_eq hj hstate hpays
    (t.revm.settled t.env t.recipient (t.view isLazy)).1
  obtain ⟨newBytecodes, hfinish⟩ :=
    finish_bytecodes _ state (t.vm.newBytecodes db state) t.memory
  exact ⟨newBytecodes, db.readSet, writes, _, state,
    hrun (executeAlone_run rfl (hfinish (hanswers.finish hok newBytecodes))), hj, hwritten⟩

end Transfer

end Pevm
