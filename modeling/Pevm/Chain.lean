import Pevm.Evm
import Pevm.MvMemory
import Pevm.Lib.Saturating
import Mathlib.Order.Defs.LinearOrder

/-!
# Chains

`chain.rs` and its two implementations, as far as the execution of a block uses them: the
base transaction environment, whether a transaction has a nonce, the estimated locations and
lazy addresses of the initial multi-version memory, and the fee rewards.

`hash_deterministic` is a parameter of what uses it. So is the `SpecId` of revm, of which a chain
uses the order and the forks it compares with (`HardForks`).
-/

namespace Pevm

open Saturating

structure PevmChain (T : Type) where
  txEnv : T → TxEnv
  hasNonce : T → Bool
  /-- what `build_mv_memory` passes to `MvMemory::new` -/
  estimatedLocations : (MemoryLocation → MemoryLocationHash) → BlockEnv → List T →
    List (MemoryLocationHash × List Nat)
  lazyAddresses : BlockEnv → List Address
  getRewards : (MemoryLocation → MemoryLocationHash) → MemoryLocationHash →
    (gasUsed gasPrice : U256) → (basefee : BitVec 64) → T → List (MemoryLocationHash × U256)

/-- `PevmEthereum`: every transaction pays the beneficiary. -/
def PevmEthereum : PevmChain TxEnv where
  txEnv := id
  hasNonce := fun _ => true
  estimatedLocations := fun hash blockEnv txs =>
    [(hash (.basic blockEnv.beneficiary), List.range txs.length)]
  lazyAddresses := fun blockEnv => [blockEnv.beneficiary]
  getRewards := fun _ beneficiaryLocationHash gasUsed gasPrice _ _ =>
    [(beneficiaryLocationHash, saturatingMul gasPrice gasUsed)]

/-- `OpTransaction`, with the parts of a deposit when it is one. -/
structure OpTransaction where
  base : TxEnv
  isDeposit : Bool
  mint : Option (BitVec 128)
  deriving DecidableEq

def baseFeeRecipient : Address := 0x4200000000000000000000000000000000000019
def l1FeeRecipient : Address := 0x420000000000000000000000000000000000001A
def operatorFeeRecipient : Address := 0x420000000000000000000000000000000000001B

/-- Push an index to the estimates of a location, `entry(location).or_insert_with(..).push(index)`. -/
def pushEstimate (index : Nat) (location : MemoryLocationHash) :
    List (MemoryLocationHash × List Nat) → List (MemoryLocationHash × List Nat)
  | [] => [(location, [index])]
  | (l, is) :: rest =>
    if l = location then (l, is ++ [index]) :: rest
    else (l, is) :: pushEstimate index location rest

/-- `PevmRise`: deposits have no nonce and pay no fees; every other transaction pays the
beneficiary and the base fee recipient and touches the other two fee recipients. -/
def PevmRise : PevmChain OpTransaction where
  txEnv := fun tx => tx.base
  hasNonce := fun tx => !tx.isDeposit
  estimatedLocations := fun hash blockEnv txs =>
    txs.zipIdx.foldl
      (fun estimates (tx, index) =>
        if tx.isDeposit then estimates
        else
          [blockEnv.beneficiary, baseFeeRecipient, l1FeeRecipient, operatorFeeRecipient].foldl
            (fun estimates address => pushEstimate index (hash (.basic address)) estimates)
            estimates)
      []
  lazyAddresses := fun blockEnv =>
    [blockEnv.beneficiary, baseFeeRecipient, l1FeeRecipient, operatorFeeRecipient]
  getRewards := fun hash beneficiaryLocationHash gasUsed gasPrice basefee tx =>
    if tx.isDeposit then []
    else
      [(beneficiaryLocationHash, saturatingMul gasPrice gasUsed),
        (hash (.basic baseFeeRecipient), saturatingMul (basefee.setWidth 256) gasUsed),
        (hash (.basic l1FeeRecipient), 0),
        (hash (.basic operatorFeeRecipient), 0)]

/-! ## Hard forks -/

/-- The spec ids that the rules of a chain compare with. A later fork is a greater spec id. -/
structure HardForks (S : Type) [LinearOrder S] where
  spuriousDragon : S
  london : S
  spuriousDragon_le_london : spuriousDragon ≤ london

section HardForks

variable {S : Type}

def PevmEthereum.isEip1559Enabled [LinearOrder S] (forks : HardForks S) (specId : S) : Bool :=
  forks.london ≤ specId

def PevmEthereum.isEip161Enabled [LinearOrder S] (forks : HardForks S) (specId : S) : Bool :=
  forks.spuriousDragon ≤ specId

def PevmRise.isEip1559Enabled (_ : S) : Bool := true

def PevmRise.isEip161Enabled (_ : S) : Bool := true

end HardForks

end Pevm
