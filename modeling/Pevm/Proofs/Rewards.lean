import Pevm.Vm

/-!
# The fee rewards

The rewards `Vm::execute` adds to a write set, as natural numbers. The price is computed in `u128`
and the amounts in `U256` with saturating operations, none of which saturates: the fee cap that
stops at the largest word is compared with a gas price below it, the base fee is at most the
effective price, and a price below `2^128` times a gas amount below `2^64` fits.

What is left is the test of the fork. `Vm::execute` takes the base fee off the price when EIP-161
is enabled, not when EIP-1559 is, so that the beneficiary is paid too little between the two forks
(`rewards_credited_iff`).
-/

namespace Pevm

open Saturating

/-- The price a transaction pays for its gas. -/
def effectiveGasPrice (basefee : BitVec 64) (tx : TxEnv) : Nat :=
  match tx.gasPriorityFee with
  | some priorityFee => min tx.gasPrice.toNat (priorityFee.toNat + basefee.toNat)
  | none => tx.gasPrice.toNat

namespace Vm

variable {T : Type} (vm : Vm T)

/-- The rewards of a finished transaction. -/
def rewards (tx : T) (gasUsed : BitVec 64) : List (MemoryLocationHash × U256) :=
  vm.chain.getRewards vm.hash (vm.hash (.basic vm.blockEnv.beneficiary))
    (gasUsed.setWidth 256) ((vm.rewardGasPrice (vm.chain.txEnv tx)).setWidth 256)
    vm.blockEnv.basefee tx

/-- These are the rewards that go into the write set. -/
theorem writeSet_eq_rewards {db : VmDb} {tx : T} (hdb : db.tx = vm.chain.txEnv tx)
    (result : ExecutionResult) (state : EvmState) :
    vm.writeSet db tx result state = (vm.rewards tx result.txGasUsed).foldlM
      (fun writes (recipient, amount) => addReward recipient amount writes)
      (state.flatMap fun (address, account) => vm.accountWrites db address account) := by
  unfold writeSet rewards
  rw [hdb]

/-- The beneficiary is rewarded first, with the price of the gas less the base fee from EIP-1559
on. -/
def CreditsBeneficiary (isEip1559Enabled : Bool) (tx : T) (gasUsed : BitVec 64) : Prop :=
  ∃ amount rest, vm.rewards tx gasUsed = (vm.hash (.basic vm.blockEnv.beneficiary), amount) :: rest ∧
    amount.toNat =
      (effectiveGasPrice vm.blockEnv.basefee (vm.chain.txEnv tx) -
        if isEip1559Enabled then vm.blockEnv.basefee.toNat else 0) * gasUsed.toNat

/-- The saturating steps of the price change nothing. -/
theorem toNat_rewardGasPrice (tx : TxEnv) : (vm.rewardGasPrice tx).toNat =
    effectiveGasPrice vm.blockEnv.basefee tx -
      if vm.isEip161Enabled then vm.blockEnv.basefee.toNat else 0 := by
  have hwidth : (vm.blockEnv.basefee.setWidth 128).toNat = vm.blockEnv.basefee.toNat := by
    have hlt := vm.blockEnv.basefee.isLt
    rw [BitVec.toNat_setWidth, Nat.mod_eq_of_lt (by omega)]
  have hprice : ∀ gasPrice : BitVec 128, gasPrice.toNat = effectiveGasPrice vm.blockEnv.basefee tx →
      (if vm.isEip161Enabled then saturatingSub gasPrice (vm.blockEnv.basefee.setWidth 128)
        else gasPrice).toNat = effectiveGasPrice vm.blockEnv.basefee tx -
          if vm.isEip161Enabled then vm.blockEnv.basefee.toNat else 0 := by
    intro gasPrice hgas
    split_ifs
    · rw [toNat_saturatingSub, hgas, hwidth]
    · rw [hgas, Nat.sub_zero]
  apply hprice
  unfold effectiveGasPrice
  cases tx.gasPriorityFee with
  | none => rfl
  | some priorityFee =>
    -- a cap that saturates is not below the gas price
    have hcap := toNat_saturatingAdd priorityFee (vm.blockEnv.basefee.setWidth 128)
    rw [hwidth] at hcap
    have hlt := tx.gasPrice.isLt
    show (if tx.gasPrice ≤ saturatingAdd priorityFee (vm.blockEnv.basefee.setWidth 128)
      then tx.gasPrice else saturatingAdd priorityFee (vm.blockEnv.basefee.setWidth 128)).toNat =
      min tx.gasPrice.toNat (priorityFee.toNat + vm.blockEnv.basefee.toNat)
    split_ifs with hle
    · have hle : tx.gasPrice.toNat ≤
          (saturatingAdd priorityFee (vm.blockEnv.basefee.setWidth 128)).toNat := hle
      omega
    · have hle : ¬ tx.gasPrice.toNat ≤
          (saturatingAdd priorityFee (vm.blockEnv.basefee.setWidth 128)).toNat := hle
      omega

/-- A `u128` price times a `u64` amount of gas fits. -/
theorem toNat_fee {w : Nat} (hw : w ≤ 128) (price : BitVec w) (gasUsed : BitVec 64) :
    (saturatingMul (price.setWidth 256) (gasUsed.setWidth 256)).toNat =
      price.toNat * gasUsed.toNat := by
  have hprice : price.toNat < 2 ^ 128 :=
    lt_of_lt_of_le price.isLt (Nat.pow_le_pow_right (by decide) hw)
  have hgas := gasUsed.isLt
  have hmul : price.toNat * gasUsed.toNat < 2 ^ 128 * 2 ^ 64 :=
    Nat.mul_lt_mul_of_lt_of_lt hprice hgas
  rw [toNat_saturatingMul, BitVec.toNat_setWidth, BitVec.toNat_setWidth,
    Nat.mod_eq_of_lt (by omega), Nat.mod_eq_of_lt (by omega)]
  omega

/-- On Ethereum the beneficiary gets the whole price; the base fee is taken off from EIP-161 on. -/
theorem rewards_ethereum {vm : Vm TxEnv} (hchain : vm.chain = PevmEthereum) (tx : TxEnv)
    (gasUsed : BitVec 64) :
    ∃ amount, vm.rewards tx gasUsed = [(vm.hash (.basic vm.blockEnv.beneficiary), amount)] ∧
      amount.toNat = (effectiveGasPrice vm.blockEnv.basefee (vm.chain.txEnv tx) -
        if vm.isEip161Enabled then vm.blockEnv.basefee.toNat else 0) * gasUsed.toNat := by
  refine ⟨saturatingMul ((vm.rewardGasPrice (vm.chain.txEnv tx)).setWidth 256)
    (gasUsed.setWidth 256), ?_, ?_⟩
  · unfold rewards
    rw [hchain]
    rfl
  · rw [toNat_fee le_rfl, toNat_rewardGasPrice]

/-- On RISE a transaction pays the price to the beneficiary and the base fee to its recipient, and
a deposit pays nothing. -/
theorem rewards_rise {vm : Vm OpTransaction} (hchain : vm.chain = PevmRise) (tx : OpTransaction)
    (gasUsed : BitVec 64) :
    (tx.isDeposit = true → vm.rewards tx gasUsed = []) ∧
    (tx.isDeposit = false → ∃ amount fee,
      vm.rewards tx gasUsed = [(vm.hash (.basic vm.blockEnv.beneficiary), amount),
        (vm.hash (.basic baseFeeRecipient), fee), (vm.hash (.basic l1FeeRecipient), 0),
        (vm.hash (.basic operatorFeeRecipient), 0)] ∧
      amount.toNat = (effectiveGasPrice vm.blockEnv.basefee (vm.chain.txEnv tx) -
        if vm.isEip161Enabled then vm.blockEnv.basefee.toNat else 0) * gasUsed.toNat ∧
      fee.toNat = vm.blockEnv.basefee.toNat * gasUsed.toNat) := by
  constructor
  · intro hdeposit
    unfold rewards
    rw [hchain]
    exact if_pos hdeposit
  · intro hdeposit
    refine ⟨saturatingMul ((vm.rewardGasPrice (vm.chain.txEnv tx)).setWidth 256)
      (gasUsed.setWidth 256), saturatingMul (vm.blockEnv.basefee.setWidth 256)
      (gasUsed.setWidth 256), ?_, ?_, toNat_fee (by decide) _ _⟩
    · unfold rewards
      rw [hchain]
      exact if_neg (by simp [hdeposit])
    · rw [toNat_fee le_rfl, toNat_rewardGasPrice]

/-- Taking the base fee off by one test or the other comes to the same exactly when the tests
agree or nothing is paid for it. -/
theorem sub_basefee_eq_iff {price basefee gasUsed : Nat} (hle : basefee ≤ price) (a b : Bool) :
    (price - if a then basefee else 0) * gasUsed = (price - if b then basefee else 0) * gasUsed ↔
      a = b ∨ basefee = 0 ∨ gasUsed = 0 := by
  rcases Nat.eq_zero_or_pos gasUsed with rfl | hgas
  · simp
  · rw [Nat.mul_left_inj (by omega)]
    cases a <;> cases b <;> simp <;> omega

/-- **The fees of a transaction.** On Ethereum the beneficiary is credited as in sequential
execution if and only if the fork is not one from Spurious Dragon to Berlin, or the base fee or
the gas used is zero. On RISE it always is, the rewards of a transaction add up to what it pays,
and a deposit credits nothing. -/
theorem rewards_credited_iff {S : Type} [LinearOrder S] (forks : HardForks S) (specId : S) :
    (∀ (vm : Vm TxEnv) (tx : TxEnv) (gasUsed : BitVec 64), vm.chain = PevmEthereum →
      vm.isEip161Enabled = PevmEthereum.isEip161Enabled forks specId →
      vm.blockEnv.basefee.toNat ≤ effectiveGasPrice vm.blockEnv.basefee tx →
      (vm.CreditsBeneficiary (PevmEthereum.isEip1559Enabled forks specId) tx gasUsed ↔
        ¬ (forks.spuriousDragon ≤ specId ∧ specId < forks.london) ∨
          vm.blockEnv.basefee = 0 ∨ gasUsed = 0)) ∧
    (∀ (vm : Vm OpTransaction) (tx : OpTransaction) (gasUsed : BitVec 64), vm.chain = PevmRise →
      vm.isEip161Enabled = PevmRise.isEip161Enabled specId →
      (tx.isDeposit = true → vm.rewards tx gasUsed = []) ∧
      (tx.isDeposit = false →
        vm.blockEnv.basefee.toNat ≤ effectiveGasPrice vm.blockEnv.basefee tx.base →
        vm.CreditsBeneficiary (PevmRise.isEip1559Enabled specId) tx gasUsed ∧
        ((vm.rewards tx gasUsed).map fun reward => reward.2.toNat).sum =
          effectiveGasPrice vm.blockEnv.basefee tx.base * gasUsed.toNat)) := by
  constructor
  · intro vm tx gasUsed hchain hfork hle
    have hlondon := forks.spuriousDragon_le_london
    have henv : vm.chain.txEnv tx = tx := by rw [hchain]; rfl
    obtain ⟨amount, hrewards, hamount⟩ := rewards_ethereum hchain tx gasUsed
    have hcredits : vm.CreditsBeneficiary (PevmEthereum.isEip1559Enabled forks specId) tx gasUsed ↔
        amount.toNat = (effectiveGasPrice vm.blockEnv.basefee (vm.chain.txEnv tx) -
          if PevmEthereum.isEip1559Enabled forks specId then vm.blockEnv.basefee.toNat else 0) *
            gasUsed.toNat := by
      constructor
      · rintro ⟨amount', rest, hrewards', hamount'⟩
        rw [hrewards] at hrewards'
        obtain ⟨heq, -⟩ := List.cons.inj hrewards'
        rw [(Prod.mk.inj heq).2]
        exact hamount'
      · exact fun h => ⟨amount, [], hrewards, h⟩
    have hzero : ∀ {w : Nat} (x : BitVec w), x.toNat = 0 ↔ x = 0 := by
      intro w x
      exact ⟨fun h => BitVec.eq_of_toNat_eq (by simpa using h), fun h => by simp [h]⟩
    rw [hcredits, hamount, hfork, henv, sub_basefee_eq_iff hle, hzero, hzero]
    refine or_congr_left ?_
    unfold PevmEthereum.isEip161Enabled PevmEthereum.isEip1559Enabled
    rw [decide_eq_decide, not_and_or, not_lt]
    constructor
    · intro h
      by_cases hspec : forks.spuriousDragon ≤ specId
      · exact .inr (h.mp hspec)
      · exact .inl hspec
    · rintro (h | h)
      · exact ⟨fun hspec => absurd hspec h, fun hspec => absurd (hlondon.trans hspec) h⟩
      · exact ⟨fun _ => h, fun _ => hlondon.trans h⟩
  · intro vm tx gasUsed hchain hfork
    obtain ⟨hdeposit, hpays⟩ := rewards_rise hchain tx gasUsed
    refine ⟨hdeposit, fun hnot hle => ?_⟩
    have henv : vm.chain.txEnv tx = tx.base := by rw [hchain]; rfl
    obtain ⟨amount, fee, hrewards, hamount, hfee⟩ := hpays hnot
    rw [hfork] at hamount
    refine ⟨⟨amount, _, hrewards, hamount⟩, ?_⟩
    rw [henv] at hamount
    have hamount : amount.toNat = (effectiveGasPrice vm.blockEnv.basefee tx.base -
        vm.blockEnv.basefee.toNat) * gasUsed.toNat := hamount
    rw [hrewards]
    show amount.toNat + (fee.toNat + (0 + (0 + 0))) = _
    rw [hamount, hfee, Nat.add_zero, ← Nat.add_mul, Nat.sub_add_cancel hle]

end Vm

namespace Sample

/-- The forks numbered in the order in which `get_block_spec` lists them. -/
def forks : HardForks Nat := ⟨3, 8, by decide⟩

/-- A Berlin block whose environment has a base fee. -/
def berlinVm : Vm TxEnv :=
  { vm with
    isEip161Enabled := PevmEthereum.isEip161Enabled forks 7
    blockEnv := ⟨beneficiary, 7⟩ }

/-- A transaction that pays 10 for each gas. -/
def payingTx : TxEnv := { tx 1 counter 0 with gasPrice := 10 }

/-- A RISE block with a base fee. -/
def riseVm : Vm OpTransaction where
  chain := PevmRise
  isEip161Enabled := PevmRise.isEip161Enabled 0
  blockEnv := ⟨beneficiary, 7⟩
  blockSize := 1
  txs := fun _ => ⟨payingTx, false, none⟩
  storage := storage
  hash := hash
  evm := fun _ => transfer 1 counter 0

end Sample

/-- On a Berlin block with base fee 7 a transaction that pays 10 for each gas credits 3. -/
theorem rewards_of_berlin :
    7 ≤ effectiveGasPrice Sample.berlinVm.blockEnv.basefee Sample.payingTx ∧
    ¬ Sample.berlinVm.CreditsBeneficiary (PevmEthereum.isEip1559Enabled Sample.forks 7)
      Sample.payingTx 21000 := by
  refine ⟨by decide, ?_⟩
  rintro ⟨amount, rest, hrewards, hamount⟩
  have hhead : Sample.berlinVm.rewards Sample.payingTx 21000 = [(16, 63000)] := by decide +kernel
  rw [hhead] at hrewards
  obtain ⟨heq, -⟩ := List.cons.inj hrewards
  rw [← (Prod.mk.inj heq).2] at hamount
  revert hamount
  decide +kernel

/-- Without a base fee the same transaction credits all it pays; a RISE transaction that pays 10
with a base fee of 7 credits 3 to the beneficiary and 7 to the base fee recipient. -/
theorem rewards_credited_sample :
    { Sample.berlinVm with blockEnv := ⟨Sample.beneficiary, 0⟩ }.CreditsBeneficiary
      (PevmEthereum.isEip1559Enabled Sample.forks 7) Sample.payingTx 21000 ∧
    Sample.riseVm.CreditsBeneficiary (PevmRise.isEip1559Enabled 0)
      ⟨Sample.payingTx, false, none⟩ 21000 ∧
    ((Sample.riseVm.rewards ⟨Sample.payingTx, false, none⟩ 21000).map
      fun reward => reward.2.toNat).sum = 10 * 21000 := by
  constructor
  · exact ((Vm.rewards_credited_iff Sample.forks 7).1 _ Sample.payingTx 21000 rfl rfl
      (by decide)).mpr (.inr (.inl rfl))
  · exact ((Vm.rewards_credited_iff Sample.forks 0).2 Sample.riseVm ⟨Sample.payingTx, false, none⟩
      21000 rfl rfl).2 rfl (by decide)

end Pevm
