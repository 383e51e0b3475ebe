import Pevm.Lib.AssocList
import Mathlib.Logic.Function.Basic
import Mathlib.Data.BitVec

/-!
# Shared types

The types of `lib.rs` and the account types of `storage.rs`: memory locations and the
values written to them, transaction versions and statuses, read and write sets, tasks and
the flags an execution finishes with.

Machine words keep their width (`U256`, `B256`, `Address`, the `u64` location hash). The
index of a transaction in the block (`TxIdx`) and the number of times it was re-executed
(`TxIncarnation`) are `usize` in the source and only compared and incremented; they are
`Nat` here.
-/

namespace Pevm

abbrev U256 := BitVec 256
abbrev B256 := BitVec 256
abbrev Address := BitVec 160

/-- `U256::MAX`. -/
def U256.max : U256 := BitVec.allOnes 256

/-- Basic information of an account. -/
structure AccountBasic where
  balance : U256
  nonce : BitVec 64
  deriving DecidableEq

/-- `AccountBasic::default`. -/
def AccountBasic.default : AccountBasic := ⟨0, 0⟩

/-- Analyzed legacy code. The jump table is computed from the bytecode and left out. -/
structure LegacyCode where
  bytecode : List (BitVec 8)
  originalLen : Nat
  deriving DecidableEq

/-- `EvmCode`, which `From` identifies with the `Bytecode` of revm. -/
inductive Bytecode where
  | legacy (code : LegacyCode)
  | eip7702 (delegatedAddress : Address)
  deriving DecidableEq

inductive MemoryLocation where
  | basic (address : Address)
  | codeHash (address : Address)
  | storage (address : Address) (slot : U256)
  deriving DecidableEq

/-- Locations are identified by their hash in the multi-version data, the read and the
write sets. -/
abbrev MemoryLocationHash := BitVec 64

inductive MemoryValue where
  | basic (account : AccountBasic)
  | codeHash (hash : B256)
  | storage (value : U256)
  /-- explicit balance addition -/
  | lazyRecipient (addition : U256)
  /-- explicit balance subtraction and implicit nonce increment -/
  | lazySender (subtraction : U256)
  | selfDestructed
  deriving DecidableEq

inductive MemoryEntry where
  | data (incarnation : Nat) (value : MemoryValue)
  | estimate
  deriving DecidableEq

inductive IncarnationStatus where
  | readyToExecute
  | executing
  | executed
  | validated
  | aborting
  deriving DecidableEq

structure TxStatus where
  incarnation : Nat
  status : IncarnationStatus
  deriving DecidableEq

structure TxVersion where
  txIdx : Nat
  txIncarnation : Nat
  deriving DecidableEq

inductive ReadOrigin where
  | mvMemory (version : TxVersion)
  | storage
  deriving DecidableEq

/-- Most locations have one origin; a lazily updated one lists every lazy update down to the
first absolute value. -/
abbrev ReadOrigins := List ReadOrigin

/-- The read set maps a location to its origins. The source keeps a hash map; the model lists
its entries in iteration order. -/
abbrev ReadSet := List (MemoryLocationHash × ReadOrigins)

/-- The origins of a location, none when it was not read yet. -/
def ReadSet.origins (readSet : ReadSet) (location : MemoryLocationHash) : ReadOrigins :=
  (readSet.lookup location).getD []

/-- Replace the origins of a location, or add them after those already there. -/
def ReadSet.insert : ReadSet → MemoryLocationHash → ReadOrigins → ReadSet
  | [], location, origins => [(location, origins)]
  | (l, os) :: rest, location, origins =>
    if l = location then (location, origins) :: rest
    else (l, os) :: ReadSet.insert rest location origins

theorem ReadSet.origins_insert {readSet : ReadSet} {location l : MemoryLocationHash}
    {os : ReadOrigins} : (readSet.insert location os).origins l =
      if l = location then os else readSet.origins l := by
  unfold ReadSet.origins
  induction readSet with
  | nil =>
    rw [ReadSet.insert, AssocList.lookup_cons]
    split_ifs <;> rfl
  | cons p rest ih =>
    obtain ⟨l', os'⟩ := p
    unfold ReadSet.insert
    by_cases hl' : l' = location
    · rw [if_pos hl', AssocList.lookup_cons, AssocList.lookup_cons, hl']
      split_ifs <;> rfl
    · rw [if_neg hl', AssocList.lookup_cons, AssocList.lookup_cons]
      by_cases hl : l = l'
      · simp [hl, hl']
      · simpa [hl] using ih

abbrev WriteSet := List (MemoryLocationHash × MemoryValue)

inductive Task where
  | execution (version : TxVersion)
  | validation (version : TxVersion)
  deriving DecidableEq

/-- `FinishExecFlags`, one field per bit. -/
structure FinishExecFlags where
  needValidation : Bool
  wroteNewLocation : Bool
  deriving DecidableEq

/-- Workers are numbered; the number identifies the thread that holds a mutex. -/
abbrev WorkerId := Nat

end Pevm
