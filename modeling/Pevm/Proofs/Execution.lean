import Pevm.Proofs.Validation

/-!
# The steps of an execution

`Vm::execute` read off once, step by step:

* **`RunStep`**: the steps that leave the multi-version memory alone, each with the read it made.
  Whatever is to hold along an execution is shown by cases on it.
* **`basicAt`, `codeHashAt`, `slotAt`**: what a transaction reads first. A later read of the same
  transaction compares its origins with the earlier ones and fails if they differ, so that every read
  that succeeds returns what a first one would (`basicAt_of_readBasic`, `codeHashAt_of_getCodeHash`).
-/

namespace Pevm

open Interleaving MvMemory

namespace LazyEvaluation

/-- Earlier origins can only make a walk fail. -/
theorem walk_nil_of_walk {readOrigins : ReadOrigins} {eval : LazyEvaluation} :
    ∀ {entries : List (Nat × MemoryEntry)} {acc : LazyEvaluation},
      walk readOrigins entries acc = .ok eval → walk [] entries acc = .ok eval
  | [], _, h => h
  | (i, .estimate) :: entries, _, h => h
  | (i, .data k value) :: entries, acc, h => by
    simp only [walk] at h
    split_ifs at h
    simp only [walk, ne_eq, not_true_eq_false, false_and, if_false]
    cases value with
    | lazyRecipient addition | lazySender subtraction => exact walk_nil_of_walk h
    | basic _ | codeHash _ | storage _ | selfDestructed => exact h

end LazyEvaluation

namespace Vm

variable {T : Type} {vm : Vm T} {m m' : MvMemory} {n : Nat} {db db' : VmDb} {address : Address}

/-! ## First reads -/

/-- The code hash of an account, read by a transaction that has read nothing yet. -/
def codeHashAt (vm : Vm T) (m : MvMemory) (n : Nat) (address : Address) :
    Except ReadError (Option B256) :=
  (vm.getCodeHash m n (vm.startDb ⟨n, 0⟩) address).map Prod.snd

/-- A slot, read by a transaction that has read nothing yet. -/
def slotAt (vm : Vm T) (m : MvMemory) (n : Nat) (address : Address) (index : U256) :
    Except ReadError U256 :=
  (vm.readStorage m n (vm.startDb ⟨n, 0⟩) address index).map Prod.snd

/-- The balance and nonce of an account, read by a transaction that has read nothing yet and does
not check its own nonce. -/
def basicAt (vm : Vm T) (m : MvMemory) (n : Nat) (address : Address) :
    Except ReadError (Option AccountBasic) :=
  (vm.readBasic m n { vm.startDb ⟨n, 0⟩ with hasNonce := false } address).map Prod.snd

theorem pushOrigin_nil {origin : ReadOrigin} : pushOrigin [] origin = .ok [origin] := rfl

theorem fallBackToStorage_nil_of_ok {readOrigins : ReadOrigins} {eval eval' : LazyEvaluation}
    (h : vm.fallBackToStorage readOrigins address eval = .ok eval') :
    vm.fallBackToStorage [] address eval = .ok eval' := by
  unfold fallBackToStorage at h ⊢
  split
  · next hfinal => simpa only [hfinal] using h
  · next hfinal =>
    simp only [hfinal] at h
    rw [if_neg (by simp)]
    split at h
    · cases h
    · exact h

/-- A code hash that is read is the one that a first read returns. -/
theorem codeHashAt_eq_ok_iff {codeHash : Option B256} : vm.codeHashAt m n address = .ok codeHash ↔
    ∃ origin, vm.codeHashSource address (m.entriesBelow (vm.hash (.codeHash address)) n) =
      .ok (origin, codeHash) := by
  unfold codeHashAt
  rw [map_eq_ok]
  constructor
  · rintro ⟨⟨db₁, codeHash₁⟩, hget, rfl⟩
    obtain ⟨origin, -, hsource, -, -⟩ := getCodeHash_eq_ok_iff.mp hget
    exact ⟨origin, hsource⟩
  · rintro ⟨origin, hsource⟩
    exact ⟨(_, codeHash), getCodeHash_eq_ok_iff.mpr ⟨origin, [origin], hsource, pushOrigin_nil, rfl⟩,
      rfl⟩

theorem codeHashAt_of_getCodeHash {codeHash : Option B256}
    (h : vm.getCodeHash m n db address = .ok (db', codeHash)) :
    vm.codeHashAt m n address = .ok codeHash := by
  obtain ⟨origin, origins, hsource, -, -⟩ := getCodeHash_eq_ok_iff.mp h
  exact codeHashAt_eq_ok_iff.mpr ⟨origin, hsource⟩

theorem slotAt_eq_ok_iff {index value : U256} : vm.slotAt m n address index = .ok value ↔
    ∃ origin, vm.storageSource address index
      (m.entriesBelow (vm.hash (.storage address index)) n) = .ok (origin, value) := by
  unfold slotAt
  rw [map_eq_ok]
  constructor
  · rintro ⟨⟨db₁, value₁⟩, hread, rfl⟩
    obtain ⟨origin, -, hsource, -, -⟩ := readStorage_eq_ok_iff.mp hread
    exact ⟨origin, hsource⟩
  · rintro ⟨origin, hsource⟩
    exact ⟨(_, value), readStorage_eq_ok_iff.mpr ⟨origin, [origin], hsource, pushOrigin_nil, rfl⟩,
      rfl⟩

theorem slotAt_of_readStorage {index value : U256}
    (h : vm.readStorage m n db address index = .ok (db', value)) :
    vm.slotAt m n address index = .ok value := by
  obtain ⟨origin, origins, hsource, -, -⟩ := readStorage_eq_ok_iff.mp h
  exact slotAt_eq_ok_iff.mpr ⟨origin, hsource⟩

theorem hashBasic_startDb {v : TxVersion} {hasNonce : Bool} :
    vm.hashBasic { vm.startDb v with hasNonce := hasNonce } address = vm.hash (.basic address) := by
  unfold hashBasic startDb
  simp only
  split_ifs with hcaller hrecipient
  · rw [hcaller]
  · rw [hrecipient]
    rfl
  · rfl

theorem basicAt_eq_ok_iff {account : Option AccountBasic} : vm.basicAt m n address = .ok account ↔
    ∃ eval eval', LazyEvaluation.walk [] (m.entriesBelow (vm.hash (.basic address)) n) .start =
        .ok eval ∧
      vm.fallBackToStorage [] address eval = .ok eval' ∧
      account = eval'.finalAccount.map eval'.apply := by
  unfold basicAt
  rw [map_eq_ok]
  constructor
  · rintro ⟨⟨db₁, account₁⟩, hread, rfl⟩
    obtain ⟨eval, eval', hwalk, hfall, -, haccount, -⟩ := readBasic_eq_ok_iff.mp hread
    rw [hashBasic_startDb] at hwalk hfall
    exact ⟨eval, eval', hwalk, hfall, haccount⟩
  · rintro ⟨eval, eval', hwalk, hfall, rfl⟩
    refine ⟨(_, _), readBasic_eq_ok_iff.mpr ⟨eval, eval', ?_, ?_, rfl, rfl, ?_⟩, rfl⟩
    · rw [hashBasic_startDb]
      exact hwalk
    · exact hfall
    · intro base hbase
      unfold checkNonce registered
      split_ifs <;> simp_all

/-- An account that is read is the one that a first read returns. -/
theorem basicAt_of_readBasic {account : Option AccountBasic}
    (hlocation : vm.hashBasic db address = vm.hash (.basic address))
    (h : vm.readBasic m n db address = .ok (db', account)) :
    vm.basicAt m n address = .ok account := by
  obtain ⟨eval, eval', hwalk, hfall, -, haccount, -⟩ := readBasic_eq_ok_iff.mp h
  rw [hlocation] at hwalk hfall
  exact basicAt_eq_ok_iff.mpr ⟨eval, eval', LazyEvaluation.walk_nil_of_walk hwalk,
    fallBackToStorage_nil_of_ok hfall, haccount⟩

/-! ## Steps -/

/-- The account is not answered with a mock. -/
def IsReal (vm : Vm T) (db : VmDb) (address : Address) : Prop :=
  db.isLazy = true → vm.hashBasic db address ≠ db.fromHash ∧
    some (vm.hashBasic db address) ≠ db.toHash

/-- The steps of an execution that leave the multi-version memory alone. -/
inductive RunStep (vm : Vm T) (v : TxVersion) (m : MvMemory) : Execution → Execution → Prop where
  /-- the recipient has code -/
  | toCode {db db' : VmDb} {recipient : Address} {codeHash : B256}
      (hget : vm.getCodeHash m v.txIdx db recipient = .ok (db', some codeHash)) :
      RunStep vm v m ⟨db, .toCodeHash recipient⟩
        ⟨{ db' with toCodeHash := some codeHash }, .run (vm.evm (vm.txs v.txIdx))⟩
  | toNoCode {db db' : VmDb} {recipient : Address}
      (hget : vm.getCodeHash m v.txIdx db recipient = .ok (db', none)) :
      RunStep vm v m ⟨db, .toCodeHash recipient⟩ ⟨{ db' with toCodeHash := none }, .containsFrom⟩
  | containsFrom {db : VmDb} (hdata : (m.data db.fromHash).isSome = true) :
      RunStep vm v m ⟨db, .containsFrom⟩
        ⟨{ db with isLazy := true }, .run (vm.evm (vm.txs v.txIdx))⟩
  | notContainsFrom {db : VmDb} (hdata : (m.data db.fromHash).isSome = false) :
      RunStep vm v m ⟨db, .containsFrom⟩ ⟨db, .containsTo⟩
  | containsTo {db : VmDb} : RunStep vm v m ⟨db, .containsTo⟩
      ⟨{ db with isLazy := db.toHash.any fun location => (m.data location).isSome },
        .run (vm.evm (vm.txs v.txIdx))⟩
  | mockSender {db : VmDb} {address : Address} {next : Option AccountInfo → EvmProgram}
      (hlazy : db.isLazy = true) (hfrom : vm.hashBasic db address = db.fromHash) :
      RunStep vm v m ⟨db, .run (.basic address next)⟩ ⟨db, .run (next (some db.mockSender))⟩
  | mockRecipient {db : VmDb} {address : Address} {next : Option AccountInfo → EvmProgram}
      (hlazy : db.isLazy = true) (hfrom : vm.hashBasic db address ≠ db.fromHash)
      (hto : some (vm.hashBasic db address) = db.toHash) :
      RunStep vm v m ⟨db, .run (.basic address next)⟩ ⟨db, .run (next none)⟩
  | missing {db db' : VmDb} {address : Address} {next : Option AccountInfo → EvmProgram}
      (hreal : vm.IsReal db address)
      (hread : vm.readBasic m v.txIdx db address = .ok (db', none)) :
      RunStep vm v m ⟨db, .run (.basic address next)⟩ ⟨db', .run (next none)⟩
  /-- the code hash of the recipient is known -/
  | recipient {db db' : VmDb} {address : Address} {account : AccountBasic}
      {next : Option AccountInfo → EvmProgram} (hreal : vm.IsReal db address)
      (hread : vm.readBasic m v.txIdx db address = .ok (db', some account))
      (hto : some (vm.hashBasic db address) = db'.toHash) :
      RunStep vm v m ⟨db, .run (.basic address next)⟩
        ⟨db', .basicCode address account db'.toCodeHash next⟩
  | account {db db' : VmDb} {address : Address} {account : AccountBasic}
      {next : Option AccountInfo → EvmProgram} (hreal : vm.IsReal db address)
      (hread : vm.readBasic m v.txIdx db address = .ok (db', some account)) :
      RunStep vm v m ⟨db, .run (.basic address next)⟩ ⟨db', .basicCodeHash address account next⟩
  | codeHash {db db' : VmDb} {address : Address} {account : AccountBasic}
      {codeHash : Option B256} {next : Option AccountInfo → EvmProgram}
      (hget : vm.getCodeHash m v.txIdx db address = .ok (db', codeHash)) :
      RunStep vm v m ⟨db, .basicCodeHash address account next⟩
        ⟨db', .basicCode address account codeHash next⟩
  | code {db : VmDb} {address : Address} {account : AccountBasic} {codeHash : Option B256}
      {code : Option Bytecode} {next : Option AccountInfo → EvmProgram}
      (hread : vm.readCode m codeHash = .ok code) :
      RunStep vm v m ⟨db, .basicCode address account codeHash next⟩
        ⟨{ db with
            readAccounts := (vm.hashBasic db address, (account, codeHash)) :: db.readAccounts },
          .run (next (some ⟨account.balance, account.nonce, codeHash.getD keccakEmpty, code⟩))⟩
  | codeByHash {db : VmDb} {hash : B256} {code : Bytecode} {next : Bytecode → EvmProgram}
      (hread : vm.codeByHash hash = .ok code) :
      RunStep vm v m ⟨db, .run (.codeByHash hash next)⟩ ⟨db, .run (next code)⟩
  | storage {db db' : VmDb} {address : Address} {index value : U256} {next : U256 → EvmProgram}
      (hread : vm.readStorage m v.txIdx db address index = .ok (db', value)) :
      RunStep vm v m ⟨db, .run (.storage address index next)⟩ ⟨db', .run (next value)⟩
  | blockHash {db : VmDb} {number : BitVec 64} {hash : B256} {next : B256 → EvmProgram}
      (hread : vm.storage.blockHash number = .ok hash) :
      RunStep vm v m ⟨db, .run (.blockHash number next)⟩ ⟨db, .run (next hash)⟩
  | finish {db : VmDb} {result : ExecutionResult} {state : EvmState} :
      RunStep vm v m ⟨db, .run (.finish result state)⟩
        ⟨db, .finish result state (vm.newBytecodes db state)⟩
  | lazyWrites {db : VmDb} {result : ExecutionResult} {state : EvmState} {writes : WriteSet}
      (hwrites : vm.writeSet db (vm.txs v.txIdx) result state = .ok writes)
      (hlazy : db.isLazy = true) :
      RunStep vm v m ⟨db, .finish result state []⟩ ⟨db, .addLazyAddresses result state writes⟩
  | fullWrites {db : VmDb} {result : ExecutionResult} {state : EvmState} {writes : WriteSet}
      (hwrites : vm.writeSet db (vm.txs v.txIdx) result state = .ok writes)
      (hlazy : db.isLazy = false) :
      RunStep vm v m ⟨db, .finish result state []⟩ ⟨db, .record result state writes⟩

theorem runStep_of_executeStep {v : TxVersion} {x x' : Execution}
    (h : vm.executeStep v m x = .run x') : vm.RunStep v m x x' := by
  obtain ⟨db, pc⟩ := x
  unfold executeStep at h
  cases pc with
  | toCodeHash recipient =>
    simp only at h
    split at h
    · cases h
    · next hget =>
      split at h
      · cases h
        exact .toCode hget
      · cases h
        exact .toNoCode hget
  | containsFrom =>
    simp only at h
    split_ifs at h with hdata
    · cases h
      exact .containsFrom hdata
    · cases h
      exact .notContainsFrom (by simpa using hdata)
  | containsTo =>
    cases h
    exact .containsTo
  | run program =>
    cases program with
    | basic address next =>
      simp only at h
      split_ifs at h with hfrom hto
      · cases h
        exact .mockSender hfrom.1 hfrom.2
      · cases h
        exact .mockRecipient hto.1 (fun hlocation => hfrom ⟨hto.1, hlocation⟩) hto.2
      · have hreal : vm.IsReal db address := fun hlazy =>
          ⟨fun hlocation => hfrom ⟨hlazy, hlocation⟩, fun hlocation => hto ⟨hlazy, hlocation⟩⟩
        split at h
        · cases h
        · next hread =>
          cases h
          exact .missing hreal hread
        · next hread =>
          split_ifs at h with hrecipient
          · cases h
            exact .recipient hreal hread hrecipient
          · cases h
            exact .account hreal hread
    | codeByHash hash next =>
      simp only at h
      split at h
      · cases h
      · next hread =>
        cases h
        exact .codeByHash hread
    | storage address index next =>
      simp only at h
      split at h
      · cases h
      · next hread =>
        cases h
        exact .storage hread
    | blockHash number next =>
      simp only at h
      split at h
      · cases h
      · next hread =>
        cases h
        exact .blockHash hread
    | finish result state =>
      cases h
      exact .finish
    | fail err => cases h
  | basicCodeHash address account next =>
    simp only at h
    split at h
    · cases h
    · next hget =>
      cases h
      exact .codeHash hget
  | basicCode address account codeHash next =>
    simp only at h
    split at h
    · cases h
    · next hread =>
      cases h
      exact .code hread
  | finish result state bytecodes =>
    cases bytecodes with
    | cons code rest => cases h
    | nil =>
      simp only at h
      split at h
      · cases h
      · next hwrites =>
        split_ifs at h with hlazy
        · cases h
          exact .lazyWrites hwrites hlazy
        · cases h
          exact .fullWrites hwrites (by simpa using hlazy)
  | addLazyAddresses result state writes => cases h
  | record result state writes => cases h

end Vm

end Pevm
