import Pevm.Proofs.Recorded
import Pevm.Proofs.TransferWrites
import Pevm.Proofs.Execution

/-!
# The outcome of an execution

What `Vm::execute` records (`Vm.Outcome`): the write set of the journal and of the rewards, and the
result of the journal. Of a lazy execution, whose sender was mocked, the sender and the recipient are
registered as lazy by then.

From this follow the facts about whole runs: the write set covers the ESTIMATEs of the initial
memory, lazy writes are at registered accounts, and every value is one for the location it is at.
-/

namespace Pevm

open Interleaving Scheduler MvMemory Saturating

/-- The locations of a journal. -/
def EvmState.locations (state : EvmState) : Set MemoryLocation :=
  { l | ∃ p ∈ state, l = .basic p.1 ∨ l = .codeHash p.1 ∨ ∃ q ∈ p.2.storage, l = .storage p.1 q.1 }

section Locations

variable {state : EvmState} {address : Address} {account : Account}

theorem EvmState.basic_mem_locations (h : (address, account) ∈ state) :
    .basic address ∈ EvmState.locations state :=
  ⟨_, h, .inl rfl⟩

theorem EvmState.codeHash_mem_locations (h : (address, account) ∈ state) :
    .codeHash address ∈ EvmState.locations state :=
  ⟨_, h, .inr (.inl rfl)⟩

theorem EvmState.storage_mem_locations (h : (address, account) ∈ state) {slot : U256}
    {value : StorageSlot} (hslot : (slot, value) ∈ account.storage) :
    .storage address slot ∈ EvmState.locations state :=
  ⟨_, h, .inr (.inr ⟨_, hslot, rfl⟩)⟩

end Locations

/-- The values that stand at a location. -/
def MemoryLocation.holds : MemoryLocation → MemoryValue → Bool
  | .basic _, value => value.isBasic
  | .codeHash _, .codeHash _ | .codeHash _, .selfDestructed => true
  | .storage _ _, .storage _ => true
  | _, _ => false

/-- A run of revm from one program to another, with the accounts that it was given, newest first. -/
inductive EvmProgram.Given (program : EvmProgram) :
    List (Address × Option AccountInfo) → EvmProgram → Prop where
  | start : Given program [] program
  | basic {given : List (Address × Option AccountInfo)} {address : Address}
      {next : Option AccountInfo → EvmProgram} (h : Given program given (.basic address next))
      (info : Option AccountInfo) : Given program ((address, info) :: given) (next info)
  | codeByHash {given : List (Address × Option AccountInfo)} {codeHash : B256}
      {next : Bytecode → EvmProgram} (h : Given program given (.codeByHash codeHash next))
      (code : Bytecode) : Given program given (next code)
  | storage {given : List (Address × Option AccountInfo)} {address : Address} {index : U256}
      {next : U256 → EvmProgram} (h : Given program given (.storage address index next))
      (value : U256) : Given program given (next value)
  | blockHash {given : List (Address × Option AccountInfo)} {number : BitVec 64}
      {next : B256 → EvmProgram} (h : Given program given (.blockHash number next))
      (hash : B256) : Given program given (next hash)

namespace Vm

variable {T : Type} {vm : Vm T} {U : Set MemoryLocation} {v : TxVersion} {db db' : VmDb}

/-- The locations an execution is about to write are in `U`. -/
def UsesOnly (U : Set MemoryLocation) (_ : TxVersion) (x : Execution) : Prop :=
  ∀ result state, x.pc = .finish result state [] → EvmState.locations state ⊆ U

/-- The database of an execution of this version. -/
structure Started (vm : Vm T) (v : TxVersion) (db : VmDb) : Prop where
  tx : db.tx = vm.chain.txEnv (vm.txs v.txIdx)
  fromHash : db.fromHash = vm.hash (.basic db.tx.caller)
  toHash : db.toHash = db.tx.kind.recipient.map fun a => vm.hash (.basic a)
  /-- the account of a mocked sender is not read -/
  mocked : db.isLazy = true → db.fromHash ∉ AssocList.keys db.readAccounts

/-- The run of the transaction has come to this program, and a lazy one was given the mock of its
sender. -/
def RunsTo (vm : Vm T) (v : TxVersion) (db : VmDb) (program : EvmProgram) : Prop :=
  ∃ given, (vm.evm (vm.txs v.txIdx)).Given given program ∧
    (db.isLazy = true → ∀ info, (db.tx.caller, info) ∈ given → info = some db.mockSender)

/-- What an execution writes, and where. -/
structure WritesOf (vm : Vm T) (U : Set MemoryLocation) (v : TxVersion) (db : VmDb)
    (result : ExecutionResult) (state : EvmState) (writes : WriteSet) : Prop where
  writes : vm.writeSet db (vm.txs v.txIdx) result state = .ok writes
  used : EvmState.locations state ⊆ U
  run : vm.RunsTo v db (.finish result state)

/-- The accounts of a lazy transaction are registered. -/
def Registers (db : VmDb) (lazyAddresses : List Address) : Prop :=
  db.isLazy = true → db.tx.caller ∈ lazyAddresses ∧
    ∀ a, db.tx.kind.recipient = some a → a ∈ lazyAddresses

/-- What is known of an execution while it runs. -/
def Known (vm : Vm T) (U : Set MemoryLocation) (lazyAddresses : List Address) (v : TxVersion)
    (x : Execution) : Prop :=
  vm.Started v x.db ∧
    match x.pc with
    | .toCodeHash _ | .containsFrom | .containsTo => x.db.readAccounts = []
    | .run program => vm.RunsTo v x.db program
    | .basicCodeHash address _ next | .basicCode address _ _ next =>
      vm.RunsTo v x.db (.basic address next) ∧
        (x.db.isLazy = true → vm.hashBasic x.db address ≠ x.db.fromHash)
    | .finish result state _ => vm.RunsTo v x.db (.finish result state)
    | .addLazyAddresses result state writes => vm.WritesOf U v x.db result state writes
    | .record result state writes =>
      vm.WritesOf U v x.db result state writes ∧ Registers x.db lazyAddresses

/-- What an execution records. -/
structure Outcome (vm : Vm T) (U : Set MemoryLocation) (lazyAddresses : List Address)
    (v : TxVersion) (writes : WriteSet) (r : PevmTxExecutionResult) (db : VmDb)
    (result : ExecutionResult) (state : EvmState) : Prop extends
    vm.Started v db, vm.WritesOf U v db result state writes where
  registers : Registers db lazyAddresses
  result : r = ⟨receiptFromRevm result, stateTransitionsFromRevm vm.isEip161Enabled state⟩

/-- Some execution had this outcome. -/
def HasOutcome (vm : Vm T) (U : Set MemoryLocation) (lazyAddresses : List Address)
    (v : TxVersion) (writes : WriteSet) (r : PevmTxExecutionResult) : Prop :=
  ∃ db result state, vm.Outcome U lazyAddresses v writes r db result state

theorem Started.readSet (h : vm.Started v db) (hdb : db' = { db with readSet := db'.readSet }) :
    vm.Started v db' := by
  rw [hdb]
  exact ⟨h.tx, h.fromHash, h.toHash, h.mocked⟩

theorem hashBasic_readSet (hdb : db' = { db with readSet := db'.readSet }) (address : Address) :
    vm.hashBasic db' address = vm.hashBasic db address := by
  rw [hdb]
  rfl

theorem runsTo_start (v : TxVersion) (db : VmDb) : vm.RunsTo v db (vm.evm (vm.txs v.txIdx)) :=
  ⟨[], .start, fun _ _ hmem => by cases hmem⟩

namespace RunsTo

variable {address : Address} {next : Option AccountInfo → EvmProgram}

/-- What is known of the run does not depend on the read set and the accounts read. -/
theorem congr {program : EvmProgram} (h : vm.RunsTo v db program) (htx : db'.tx = db.tx)
    (hlazy : db'.isLazy = db.isLazy) : vm.RunsTo v db' program := by
  obtain ⟨given, hrun, hmock⟩ := h
  refine ⟨given, hrun, fun h info hmem => ?_⟩
  rw [VmDb.mockSender, htx]
  rw [htx] at hmem
  exact hmock (hlazy ▸ h) info hmem

theorem readSet {program : EvmProgram} (h : vm.RunsTo v db program)
    (hdb : db' = { db with readSet := db'.readSet }) : vm.RunsTo v db' program :=
  h.congr (by rw [hdb]) (by rw [hdb])

/-- An account is given, the mock if it is that of a lazy sender. -/
theorem basic (h : vm.RunsTo v db (.basic address next)) {info : Option AccountInfo}
    (hinfo : db.isLazy = true → address = db.tx.caller → info = some db.mockSender) :
    vm.RunsTo v db (next info) := by
  obtain ⟨given, hrun, hmock⟩ := h
  refine ⟨(address, info) :: given, hrun.basic info, fun hlazy info' hmem => ?_⟩
  rcases List.mem_cons.mp hmem with heq | hmem
  · obtain ⟨hcaller, rfl⟩ := Prod.mk.inj heq
    exact hinfo hlazy hcaller.symm
  · exact hmock hlazy info' hmem

end RunsTo

/-- The account of the sender is at the hash of the sender. -/
theorem ne_caller_of_hashBasic_ne {address : Address}
    (h : vm.hashBasic db address ≠ db.fromHash) : address ≠ db.tx.caller := by
  rintro rfl
  exact h (if_pos rfl)

theorem readStorage_db {m : MvMemory} {txIdx : Nat} {address : Address} {index value : U256}
    (h : vm.readStorage m txIdx db address index = .ok (db', value)) :
    db' = { db with readSet := db'.readSet } := by
  obtain ⟨origin, origins, -, -, hdb⟩ := readStorage_eq_ok_iff.mp h
  simp only at hdb
  subst hdb
  rfl

theorem known_start (lazyAddresses : List Address) (v : TxVersion) :
    vm.Known U lazyAddresses v (vm.start v) := by
  refine ⟨⟨rfl, rfl, rfl, fun h => by cases h⟩, ?_⟩
  unfold start
  cases (vm.chain.txEnv (vm.txs v.txIdx)).kind with
  | create => exact runsTo_start v _
  | call recipient => exact rfl

/-- A step of the execution keeps what is known of it. -/
theorem known_run {lazyAddresses : List Address} {m : MvMemory} {x x' : Execution}
    (hused : UsesOnly U v x) (h : vm.Known U lazyAddresses v x)
    (hstep : vm.executeStep v m x = .run x') : vm.Known U lazyAddresses v x' := by
  obtain ⟨hdb, hpc⟩ := h
  -- the sender of a lazy transaction is not read
  have hne : ∀ {db db₁ address}, vm.IsReal db address → db₁ = { db with readSet := db₁.readSet } →
      db₁.isLazy = true → vm.hashBasic db₁ address ≠ db₁.fromHash := by
    intro db db₁ address hreal heq hlazy
    rw [hashBasic_readSet heq]
    rw [heq] at hlazy ⊢
    exact (hreal hlazy).1
  cases runStep_of_executeStep hstep with
  | toCode hget =>
    have hdb₁ := hdb.readSet (getCodeHash_db hget)
    exact ⟨⟨hdb₁.tx, hdb₁.fromHash, hdb₁.toHash, hdb₁.mocked⟩, runsTo_start v _⟩
  | @toNoCode db db₁ recipient hget =>
    have heq := getCodeHash_db hget
    have hdb₁ := hdb.readSet heq
    have hread : db₁.readAccounts = [] := by rw [heq]; exact hpc
    exact ⟨⟨hdb₁.tx, hdb₁.fromHash, hdb₁.toHash, hdb₁.mocked⟩, hread⟩
  | @containsFrom db hdata =>
    refine ⟨⟨hdb.tx, hdb.fromHash, hdb.toHash, fun _ => ?_⟩, runsTo_start v _⟩
    show _ ∉ AssocList.keys db.readAccounts
    rw [show db.readAccounts = [] from hpc]
    exact List.not_mem_nil
  | notContainsFrom hdata => exact ⟨hdb, hpc⟩
  | @containsTo db =>
    refine ⟨⟨hdb.tx, hdb.fromHash, hdb.toHash, fun _ => ?_⟩, runsTo_start v _⟩
    show _ ∉ AssocList.keys db.readAccounts
    rw [show db.readAccounts = [] from hpc]
    exact List.not_mem_nil
  | mockSender hlazy hfrom => exact ⟨hdb, RunsTo.basic hpc fun _ _ => rfl⟩
  | mockRecipient hlazy hfrom hto =>
    exact ⟨hdb, RunsTo.basic hpc fun _ hcaller => absurd hcaller (ne_caller_of_hashBasic_ne hfrom)⟩
  | missing hreal hread =>
    have heq := readBasic_db hread
    refine ⟨hdb.readSet heq, RunsTo.readSet (RunsTo.basic hpc fun hlazy hcaller => ?_) heq⟩
    exact absurd hcaller (ne_caller_of_hashBasic_ne (hreal hlazy).1)
  | recipient hreal hread hto =>
    have heq := readBasic_db hread
    exact ⟨hdb.readSet heq, RunsTo.readSet hpc heq, hne hreal heq⟩
  | account hreal hread =>
    have heq := readBasic_db hread
    exact ⟨hdb.readSet heq, RunsTo.readSet hpc heq, hne hreal heq⟩
  | codeHash hget =>
    have heq := getCodeHash_db hget
    refine ⟨hdb.readSet heq, hpc.1.readSet heq, fun hlazy => ?_⟩
    rw [hashBasic_readSet heq]
    rw [heq] at hlazy ⊢
    exact hpc.2 hlazy
  | @code db address account codeHash code next hread =>
    have hrun : ∀ info, vm.RunsTo v db (next info) := fun info =>
      hpc.1.basic fun hlazy hcaller => absurd hcaller (ne_caller_of_hashBasic_ne (hpc.2 hlazy))
    refine ⟨⟨hdb.tx, hdb.fromHash, hdb.toHash, fun hlazy hmem => ?_⟩, (hrun _).congr rfl rfl⟩
    rcases List.mem_cons.mp hmem with heq | hmem
    · exact hpc.2 hlazy heq.symm
    · exact hdb.mocked hlazy hmem
  | codeByHash hread =>
    obtain ⟨given, hrun, hmock⟩ := hpc
    exact ⟨hdb, given, hrun.codeByHash _, hmock⟩
  | storage hread =>
    obtain ⟨given, hrun, hmock⟩ := RunsTo.readSet hpc (readStorage_db hread)
    exact ⟨hdb.readSet (readStorage_db hread), given, hrun.storage _, hmock⟩
  | blockHash hread =>
    obtain ⟨given, hrun, hmock⟩ := hpc
    exact ⟨hdb, given, hrun.blockHash _, hmock⟩
  | finish => exact ⟨hdb, hpc⟩
  | lazyWrites hwrites hlazy => exact ⟨hdb, hwrites, hused _ _ rfl, hpc⟩
  | fullWrites hwrites hlazy =>
    exact ⟨hdb, ⟨hwrites, hused _ _ rfl, hpc⟩, fun h => absurd h (by simp [hlazy])⟩

/-- Bytecodes are registered when the transaction has ended. -/
theorem executeStep_addNewBytecode {m : MvMemory} {x x' : Execution} {hash : B256} {code : Bytecode}
    (h : vm.executeStep v m x = .addNewBytecode hash code x') :
    ∃ result state rest, x.pc = .finish result state ((hash, code) :: rest) ∧
      x' = ⟨x.db, .finish result state rest⟩ := by
  unfold executeStep at h
  split at h
  all_goals try dsimp only at h
  all_goals repeat' split at h
  all_goals cases h
  exact ⟨_, _, _, ‹_›, rfl⟩

/-- The accounts of a lazy transaction are registered when its write set is known. -/
theorem executeStep_addLazyAddresses {m : MvMemory} {x x' : Execution} {addresses : List Address}
    (h : vm.executeStep v m x = .addLazyAddresses addresses x') :
    ∃ result state writes, x.pc = .addLazyAddresses result state writes ∧
      addresses = x.db.tx.caller :: x.db.tx.kind.recipient.toList ∧
      x' = ⟨x.db, .record result state writes⟩ := by
  unfold executeStep at h
  split at h
  all_goals try dsimp only at h
  all_goals repeat' split at h
  all_goals cases h
  exact ⟨_, _, _, ‹_›, rfl, rfl⟩

theorem executeStep_record {m : MvMemory} {x : Execution} {rs : ReadSet} {ws : WriteSet}
    {need : Bool} {r : PevmTxExecutionResult}
    (h : vm.executeStep v m x = .record rs ws need r) :
    ∃ result state, x.pc = .record result state ws ∧
      r = ⟨receiptFromRevm result, stateTransitionsFromRevm vm.isEip161Enabled state⟩ := by
  unfold executeStep at h
  split at h
  all_goals try dsimp only at h
  all_goals repeat' split at h
  all_goals cases h
  exact ⟨_, _, ‹_›, rfl⟩

/-- An execution with its write set calls `record`. -/
theorem recording_of_step {concurrencyLevel : Nat} {w : WorkerId}
    {s s' : System Execution PevmTxExecutionResult ExecutionError} {result : ExecutionResult}
    {state : EvmState} {writes : WriteSet}
    (hpc : s.pc w = .execute v ⟨db, .record result state writes⟩)
    (hstep : workerStep (vm.config concurrencyLevel) w s = some s') :
    s'.pc w = .record v db.readSet writes (decide (0 < v.txIdx) && !db.isLazy)
      ⟨receiptFromRevm result, stateTransitionsFromRevm vm.isEip161Enabled state⟩ .lock := by
  unfold workerStep at hstep
  rw [hpc] at hstep
  cases hstep
  exact Function.update_self ..

/-- What an execution records is known to be its outcome. -/
theorem keeps_known : vm.executor.Keeps (UsesOnly U) (vm.Known U) (vm.HasOutcome U) where
  start := known_start
  mono {lazyAddresses lazyAddresses' v x} hsub h := by
    obtain ⟨hdb, hpc⟩ := h
    refine ⟨hdb, ?_⟩
    cases hx : x.pc with
    | record result state writes =>
      rw [hx] at hpc
      refine ⟨hpc.1, fun hlazy => ?_⟩
      obtain ⟨hfrom, hto⟩ := hpc.2 hlazy
      exact ⟨hsub hfrom, fun a ha => hsub (hto a ha)⟩
    | _ =>
      rw [hx] at hpc
      exact hpc
  monoRecord hsub h := by
    obtain ⟨db, result, state, h⟩ := h
    refine ⟨db, result, state, { h with registers := fun hlazy => ?_ }⟩
    obtain ⟨hfrom, hto⟩ := h.registers hlazy
    exact ⟨hsub hfrom, fun a ha => hsub (hto a ha)⟩
  run := known_run
  addNewBytecode _ h hstep := by
    obtain ⟨result, state, rest, hpc, rfl⟩ := executeStep_addNewBytecode hstep
    obtain ⟨hdb, hrun⟩ := h
    rw [hpc] at hrun
    exact ⟨hdb, hrun⟩
  addLazyAddresses _ h hstep := by
    obtain ⟨result, state, writes, hpc, rfl, rfl⟩ := executeStep_addLazyAddresses hstep
    obtain ⟨hdb, hwrites⟩ := h
    rw [hpc] at hwrites
    refine ⟨hdb, hwrites, fun _ => ⟨?_, fun a ha => ?_⟩⟩
    · exact mem_insertLazyAddresses.mpr (.inr List.mem_cons_self)
    · rw [ha]
      exact mem_insertLazyAddresses.mpr (.inr (by simp))
  record _ h hstep := by
    obtain ⟨result, state, hpc, rfl⟩ := executeStep_record hstep
    obtain ⟨hdb, hwrites⟩ := h
    rw [hpc] at hwrites
    exact ⟨_, result, state, { hdb with
      writes := hwrites.1.writes, used := hwrites.1.used, run := hwrites.1.run
      registers := hwrites.2, result := rfl }⟩

/-! ## Write sets -/

/-- What a reward does to a write set: it is added to the write of its recipient, or written. -/
theorem addReward_eq_ok {recipient : MemoryLocationHash} {amount : U256} :
    ∀ {writes writes' : WriteSet}, addReward recipient amount writes = .ok writes' →
      AssocList.keys writes ⊆ AssocList.keys writes' ∧ recipient ∈ AssocList.keys writes' ∧
      ∀ l value, (l, value) ∈ writes' → (l, value) ∈ writes ∨ l = recipient ∧
        ((∃ value₀, (l, value₀) ∈ writes ∧ value₀.isBasic = true ∧
          value = credit amount (some value₀)) ∨
        (recipient ∉ AssocList.keys writes ∧ value = .lazyRecipient amount))
  | [], writes', h => by
    cases h
    refine ⟨List.nil_subset _, List.mem_cons_self, fun l value hmem => .inr ?_⟩
    obtain ⟨rfl, rfl⟩ : l = recipient ∧ value = .lazyRecipient amount := by simpa using hmem
    exact ⟨rfl, .inr ⟨List.not_mem_nil, rfl⟩⟩
  | (location, value₀) :: rest, writes', h => by
    unfold addReward at h
    split_ifs at h with hlocation
    · subst hlocation
      -- the write is replaced in place
      have hreplace : ∀ value', value₀.isBasic = true → value' = credit amount (some value₀) →
          writes' = (location, value') :: rest → _ := fun value' hbasic hvalue hwrites =>
        show AssocList.keys ((location, value₀) :: rest) ⊆ AssocList.keys writes' ∧
            location ∈ AssocList.keys writes' ∧
            ∀ l value, (l, value) ∈ writes' → (l, value) ∈ (location, value₀) :: rest ∨
              l = location ∧
              ((∃ value₁, (l, value₁) ∈ (location, value₀) :: rest ∧ value₁.isBasic = true ∧
                value = credit amount (some value₁)) ∨
              (location ∉ AssocList.keys ((location, value₀) :: rest) ∧
                value = .lazyRecipient amount)) by
          subst hwrites
          refine ⟨List.Subset.refl _, List.mem_cons_self, fun l value hmem => ?_⟩
          rcases List.mem_cons.mp hmem with heq | hmem
          · obtain ⟨rfl, rfl⟩ := Prod.mk.inj heq
            exact .inr ⟨rfl, .inl ⟨value₀, List.mem_cons_self, hbasic, hvalue⟩⟩
          · exact .inl (List.mem_cons_of_mem _ hmem)
      cases value₀ with
      | basic account => exact hreplace _ rfl rfl (Except.ok.inj h).symm
      | lazySender subtraction => exact hreplace _ rfl rfl (Except.ok.inj h).symm
      | lazyRecipient addition => exact hreplace _ rfl rfl (Except.ok.inj h).symm
      | codeHash _ | storage _ | selfDestructed => cases h
    · obtain ⟨rest', hrest, rfl⟩ := map_eq_ok.mp h
      obtain ⟨hkeys, hmem, hvalues⟩ := addReward_eq_ok hrest
      refine ⟨List.cons_subset_cons _ hkeys, List.mem_cons_of_mem _ hmem, fun l value hl => ?_⟩
      rcases List.mem_cons.mp hl with heq | hl
      · exact .inl (heq ▸ List.mem_cons_self)
      · rcases hvalues l value hl with hold | ⟨rfl, ⟨value₁, hold, hcredit⟩ | ⟨hno, hnew⟩⟩
        · exact .inl (List.mem_cons_of_mem _ hold)
        · exact .inr ⟨rfl, .inl ⟨value₁, List.mem_cons_of_mem _ hold, hcredit⟩⟩
        · refine .inr ⟨rfl, .inr ⟨fun hmem => ?_, hnew⟩⟩
          exact (List.mem_cons.mp hmem).elim (fun heq => hlocation heq.symm) hno

/-- **The rule for rewards.** What holds of the writes of the accounts, is kept by adding a reward
and holds of a reward on its own, holds of the write set. -/
theorem rewards_rule {G : MemoryLocationHash → MemoryValue → Prop} :
    ∀ {rewards : List (MemoryLocationHash × U256)} {writes writes' : WriteSet},
      rewards.foldlM (fun writes (recipient, amount) => addReward recipient amount writes) writes =
        .ok writes' →
      (∀ l value, (l, value) ∈ writes → G l value) →
      (∀ l amount value, (l, amount) ∈ rewards → value.isBasic = true → G l value →
        G l (credit amount (some value))) →
      (∀ l amount, (l, amount) ∈ rewards → l ∉ AssocList.keys writes →
        G l (.lazyRecipient amount)) →
      AssocList.keys writes ⊆ AssocList.keys writes' ∧
        AssocList.keys rewards ⊆ AssocList.keys writes' ∧
        ∀ l value, (l, value) ∈ writes' → G l value
  | [], writes, writes', h, hold, _, _ => by
    cases h
    exact ⟨List.Subset.refl _, List.nil_subset _, hold⟩
  | (recipient, amount) :: rewards, writes, writes', h, hold, hcredit, hnew => by
    rw [List.foldlM_cons] at h
    obtain ⟨writes₁, hone, hrest⟩ := bind_eq_ok.mp h
    obtain ⟨hkeys, hmem, hvalues⟩ := addReward_eq_ok hone
    have hold₁ : ∀ l value, (l, value) ∈ writes₁ → G l value := by
      intro l value hl
      rcases hvalues l value hl with hl₀ | ⟨rfl, ⟨value₀, hl₀, hbasic, rfl⟩ | ⟨hno, rfl⟩⟩
      · exact hold l value hl₀
      · exact hcredit _ amount value₀ List.mem_cons_self hbasic (hold _ value₀ hl₀)
      · exact hnew _ amount List.mem_cons_self hno
    obtain ⟨hkeys', hrewards, hall⟩ := rewards_rule hrest hold₁
      (fun l amount value hl => hcredit l amount value (List.mem_cons_of_mem _ hl))
      (fun l amount hl hno => hnew l amount (List.mem_cons_of_mem _ hl) fun h => hno (hkeys h))
    refine ⟨fun l hl => hkeys' (hkeys hl), fun l hl => ?_, hall⟩
    rcases List.mem_cons.mp hl with rfl | hl
    · exact hkeys' hmem
    · exact hrewards hl

/-- The writes of the accounts of a journal: of balances and nonces, of codes and of slots. -/
inductive AccountWrite (vm : Vm T) (db : VmDb) (state : EvmState) :
    MemoryLocationHash → MemoryValue → Prop where
  | selfDestructed {address : Address} {account : Account} (hmem : (address, account) ∈ state) :
      AccountWrite vm db state (vm.hash (.codeHash address)) .selfDestructed
  | codeHash {address : Address} {account : Account} (hmem : (address, account) ∈ state) :
      AccountWrite vm db state (vm.hash (.codeHash address)) (.codeHash account.info.codeHash)
  | storage {address : Address} {account : Account} {slot : U256} {value : StorageSlot}
      (hmem : (address, account) ∈ state) (hslot : (slot, value) ∈ account.storage) :
      AccountWrite vm db state (vm.hash (.storage address slot)) (.storage value.presentValue)
  | lazySender {address : Address} {account : Account} (hmem : (address, account) ∈ state)
      (hlazy : db.isLazy = true) (hfrom : vm.hash (.basic address) = db.fromHash) :
      AccountWrite vm db state (vm.hash (.basic address))
        (.lazySender (U256.max - account.info.balance))
  | lazyRecipient {address : Address} {account : Account} (hmem : (address, account) ∈ state)
      (hlazy : db.isLazy = true) (hfrom : vm.hash (.basic address) ≠ db.fromHash)
      (hto : some (vm.hash (.basic address)) = db.toHash) :
      AccountWrite vm db state (vm.hash (.basic address)) (.lazyRecipient db.tx.value)
  | basic {address : Address} {account : Account} (hmem : (address, account) ∈ state)
      (hlazy : db.isLazy = false) :
      AccountWrite vm db state (vm.hash (.basic address))
        (.basic ⟨account.info.balance, account.info.nonce⟩)

theorem accountWrite_of_basicWrites {state : EvmState} {address : Address} {account : Account}
    (hmem : (address, account) ∈ state) {l : MemoryLocationHash} {value : MemoryValue}
    (h : (l, value) ∈ vm.basicWrites db address account) : vm.AccountWrite db state l value := by
  simp only [basicWrites] at h
  split_ifs at h with hchanged hlazy hfrom hto hempty
  · obtain ⟨rfl, rfl⟩ := Prod.mk.inj (List.mem_singleton.mp h)
    exact .lazySender hmem hlazy hfrom
  · obtain ⟨rfl, rfl⟩ := Prod.mk.inj (List.mem_singleton.mp h)
    exact .lazyRecipient hmem hlazy hfrom hto
  · cases h
  · obtain ⟨rfl, rfl⟩ := Prod.mk.inj (List.mem_singleton.mp h)
    exact .basic hmem (by simpa using hlazy)
  · cases h
  · cases h

theorem accountWrite_of_mem {state : EvmState} {l : MemoryLocationHash} {value : MemoryValue}
    (h : (l, value) ∈ state.flatMap fun (address, account) => vm.accountWrites db address account) :
    vm.AccountWrite db state l value := by
  obtain ⟨⟨address, account⟩, hmem, h⟩ := List.mem_flatMap.mp h
  simp only [accountWrites] at h
  by_cases hself : account.isSelfdestructed = true
  · rw [if_pos hself] at h
    obtain ⟨rfl, rfl⟩ := Prod.mk.inj (List.mem_singleton.mp h)
    exact .selfDestructed hmem
  rw [if_neg hself] at h
  rcases List.mem_append.mp h with h | h
  · by_cases htouched : account.isTouched = true
    · rw [if_pos htouched] at h
      rcases List.mem_append.mp h with h | h
      · exact accountWrite_of_basicWrites hmem h
      · split_ifs at h
        · obtain ⟨rfl, rfl⟩ := Prod.mk.inj (List.mem_singleton.mp h)
          exact .codeHash hmem
        · cases h
    · rw [if_neg htouched] at h
      cases h
  · obtain ⟨⟨slot, value'⟩, hslot, heq⟩ := List.mem_map.mp h
    obtain ⟨rfl, rfl⟩ := Prod.mk.inj heq
    exact .storage hmem (List.mem_filter.mp hslot).1

/-! ## The chains -/

/-- Rewards go to accounts that are registered as lazy from the start. -/
theorem mem_getRewards {isEip161Enabled : Bool}
    (hsource : SourceChain vm.chain isEip161Enabled) {gasUsed gasPrice : U256}
    {basefee : BitVec 64} {tx : T} {l : MemoryLocationHash} {amount : U256}
    (h : (l, amount) ∈ vm.chain.getRewards vm.hash (vm.hash (.basic vm.blockEnv.beneficiary))
      gasUsed gasPrice basefee tx) :
    ∃ a ∈ vm.chain.lazyAddresses vm.blockEnv, l = vm.hash (.basic a) := by
  generalize vm.chain = chain at hsource h ⊢
  cases hsource with
  | ethereum =>
    obtain ⟨rfl, -⟩ := Prod.mk.inj (List.mem_singleton.mp h)
    exact ⟨_, List.mem_singleton_self _, rfl⟩
  | rise =>
    cases hdeposit : tx.isDeposit with
    | true => simp [PevmRise, hdeposit] at h
    | false =>
      simp only [PevmRise, hdeposit, Bool.false_eq_true, if_false, List.mem_cons, Prod.mk.injEq,
        List.not_mem_nil, or_false] at h ⊢
      rcases h with ⟨rfl, -⟩ | ⟨rfl, -⟩ | ⟨rfl, -⟩ | ⟨rfl, -⟩
      · exact ⟨_, .inl rfl, rfl⟩
      · exact ⟨_, .inr (.inl rfl), rfl⟩
      · exact ⟨_, .inr (.inr (.inl rfl)), rfl⟩
      · exact ⟨_, .inr (.inr (.inr rfl)), rfl⟩

/-- An index pushed to the estimates. -/
theorem mem_pushEstimate {index i : Nat} {location l : MemoryLocationHash} {is : List Nat} :
    ∀ {estimates : List (MemoryLocationHash × List Nat)},
      (l, is) ∈ pushEstimate index location estimates → i ∈ is →
      (l = location ∧ i = index) ∨ ∃ is', (l, is') ∈ estimates ∧ i ∈ is'
  | [], h, hi => by
    obtain ⟨rfl, rfl⟩ := Prod.mk.inj (List.mem_singleton.mp h)
    exact .inl ⟨rfl, List.mem_singleton.mp hi⟩
  | (l', is') :: rest, h, hi => by
    unfold pushEstimate at h
    split_ifs at h with hl
    · rcases List.mem_cons.mp h with heq | h
      · obtain ⟨rfl, rfl⟩ := Prod.mk.inj heq
        rcases List.mem_append.mp hi with hi | hi
        · exact .inr ⟨is', List.mem_cons_self, hi⟩
        · exact .inl ⟨hl, List.mem_singleton.mp hi⟩
      · exact .inr ⟨is, List.mem_cons_of_mem _ h, hi⟩
    · rcases List.mem_cons.mp h with heq | h
      · exact .inr ⟨is, heq ▸ List.mem_cons_self, hi⟩
      · rcases mem_pushEstimate h hi with hnew | ⟨is₀, hmem, hi₀⟩
        · exact .inl hnew
        · exact .inr ⟨is₀, List.mem_cons_of_mem _ hmem, hi₀⟩

/-- Indices pushed to the estimates of several accounts. -/
theorem mem_foldl_pushEstimate {hash : MemoryLocation → MemoryLocationHash} {index i : Nat}
    {l : MemoryLocationHash} {is : List Nat} : ∀ {addresses : List Address}
      {estimates : List (MemoryLocationHash × List Nat)},
      (l, is) ∈ addresses.foldl (fun estimates address =>
        pushEstimate index (hash (.basic address)) estimates) estimates → i ∈ is →
      (i = index ∧ ∃ a ∈ addresses, l = hash (.basic a)) ∨ ∃ is', (l, is') ∈ estimates ∧ i ∈ is'
  | [], estimates, h, hi => .inr ⟨is, h, hi⟩
  | a :: addresses, estimates, h, hi => by
    rw [List.foldl_cons] at h
    rcases mem_foldl_pushEstimate h hi with ⟨rfl, b, hb, rfl⟩ | ⟨is₀, hmem, hi₀⟩
    · exact .inl ⟨rfl, b, List.mem_cons_of_mem _ hb, rfl⟩
    · rcases mem_pushEstimate hmem hi₀ with ⟨rfl, rfl⟩ | hold
      · exact .inl ⟨rfl, a, List.mem_cons_self, rfl⟩
      · exact .inr hold

/-- `build_mv_memory` of `PevmRise` marks the fee recipients of transactions that are not deposits. -/
theorem mem_estimates_rise {hash : MemoryLocation → MemoryLocationHash} {blockEnv : BlockEnv}
    {txs : List OpTransaction} {l : MemoryLocationHash} {is : List Nat} {i : Nat}
    (h : (l, is) ∈ PevmRise.estimatedLocations hash blockEnv txs) (hi : i ∈ is) :
    ∃ tx, txs[i]? = some tx ∧ tx.isDeposit = false ∧
      ∃ a ∈ PevmRise.lazyAddresses blockEnv, l = hash (.basic a) := by
  refine List.foldlRecOn (motive := fun estimates => ∀ is i, (l, is) ∈ estimates → i ∈ is →
    ∃ tx, txs[i]? = some tx ∧ tx.isDeposit = false ∧
      ∃ a ∈ PevmRise.lazyAddresses blockEnv, l = hash (.basic a)) txs.zipIdx _
    (fun _ _ hmem => by cases hmem) (fun estimates hold p hp is i hmem hi => ?_) is i h hi
  obtain ⟨tx, index⟩ := p
  have htx : txs[index]? = some tx := List.mem_zipIdx_iff_getElem?.mp hp
  cases hdeposit : tx.isDeposit with
  | true =>
    simp only [hdeposit, if_true] at hmem
    exact hold is i hmem hi
  | false =>
    simp only [hdeposit, Bool.false_eq_true, if_false] at hmem
    rcases mem_foldl_pushEstimate hmem hi with ⟨rfl, a, ha, rfl⟩ | ⟨is₀, hmem₀, hi₀⟩
    · exact ⟨tx, htx, hdeposit, a, ha, rfl⟩
    · exact hold is₀ i hmem₀ hi₀

/-- Every location that `build_mv_memory` marks for a transaction gets a reward from it. -/
theorem mem_keys_getRewards {isEip161Enabled : Bool}
    (hsource : SourceChain vm.chain isEip161Enabled) {concurrencyLevel : Nat}
    {l : MemoryLocationHash} {i : Nat} (h : Prefilled (vm.config concurrencyLevel) l i)
    (gasUsed gasPrice : U256) (basefee : BitVec 64) :
    l ∈ AssocList.keys (vm.chain.getRewards vm.hash (vm.hash (.basic vm.blockEnv.beneficiary))
      gasUsed gasPrice basefee (vm.txs i)) := by
  obtain ⟨e, he⟩ := Option.isSome_iff_exists.mp h
  obtain ⟨-, is, hmem, hi⟩ := new_entry he
  obtain ⟨chain, eip161, blockEnv, blockSize, txs, storage, hash, evm⟩ := vm
  cases hsource with
  | ethereum =>
    obtain ⟨rfl, rfl⟩ := Prod.mk.inj (List.mem_singleton.mp hmem)
    exact List.mem_singleton_self _
  | rise =>
    obtain ⟨tx, htx, hdeposit, a, ha, rfl⟩ := mem_estimates_rise hmem hi
    obtain ⟨-, htx'⟩ : i < blockSize ∧ txs i = tx := by simpa [List.getElem?_eq_some_iff] using htx
    rw [show (PevmRise.lazyAddresses blockEnv) = [blockEnv.beneficiary, baseFeeRecipient,
      l1FeeRecipient, operatorFeeRecipient] from rfl] at ha
    simp only [htx', hdeposit, Bool.false_eq_true, if_false, AssocList.keys_cons,
      AssocList.keys_nil, List.mem_cons, List.not_mem_nil, or_false] at ha ⊢
    rcases ha with rfl | rfl | rfl | rfl
    · exact .inl rfl
    · exact .inr (.inl rfl)
    · exact .inr (.inr (.inl rfl))
    · exact .inr (.inr (.inr rfl))

/-! ## Outcomes -/

/-- The hashes tell the locations in `U` apart, among them those of the accounts that may be written
lazily. -/
structure Separates (vm : Vm T) (U : Set MemoryLocation) : Prop where
  injective : Set.InjOn vm.hash U
  fees : ∀ a ∈ vm.chain.lazyAddresses vm.blockEnv, .basic a ∈ U
  caller : ∀ i, i < vm.blockSize → .basic (vm.chain.txEnv (vm.txs i)).caller ∈ U
  recipient : ∀ i, i < vm.blockSize → ∀ a, (vm.chain.txEnv (vm.txs i)).kind.recipient = some a →
    .basic a ∈ U

namespace Outcome

variable {isEip161Enabled : Bool} {lazyAddresses : List Address}
  {writes : WriteSet} {r : PevmTxExecutionResult} {result : ExecutionResult} {state : EvmState}
  {l : MemoryLocationHash} {value : MemoryValue}

/-- The write set covers what `build_mv_memory` marked. -/
theorem covers (hsource : SourceChain vm.chain isEip161Enabled)
    (h : vm.Outcome U lazyAddresses v writes r db result state) {concurrencyLevel : Nat}
    (hl : Prefilled (vm.config concurrencyLevel) l v.txIdx) : l ∈ AssocList.keys writes := by
  have hrule := rewards_rule (G := fun _ _ => True) h.writes (fun _ _ _ => trivial)
    (fun _ _ _ _ _ _ => trivial) (fun _ _ _ _ => trivial)
  exact hrule.2.1 (mem_keys_getRewards hsource hl _ _ _)

/-- Every write is one of the kind of its location. -/
theorem holds (hsource : SourceChain vm.chain isEip161Enabled) (hU : vm.Separates U)
    (h : vm.Outcome U lazyAddresses v writes r db result state) (hl : (l, value) ∈ writes) :
    ∃ location ∈ U, l = vm.hash location ∧ location.holds value = true := by
  refine (rewards_rule (G := fun l value => ∃ location ∈ U, l = vm.hash location ∧
    location.holds value = true) h.writes (fun l value hmem => ?_) (fun l amount value hmem hbasic hold => ?_)
    (fun l amount hmem _ => ?_)).2.2 l value hl
  · cases accountWrite_of_mem hmem with
    | selfDestructed hstate => exact ⟨_, h.used (EvmState.codeHash_mem_locations hstate), rfl, rfl⟩
    | codeHash hstate => exact ⟨_, h.used (EvmState.codeHash_mem_locations hstate), rfl, rfl⟩
    | storage hstate hslot => exact ⟨_, h.used (EvmState.storage_mem_locations hstate hslot), rfl, rfl⟩
    | lazySender hstate _ _ => exact ⟨_, h.used (EvmState.basic_mem_locations hstate), rfl, rfl⟩
    | lazyRecipient hstate _ _ _ => exact ⟨_, h.used (EvmState.basic_mem_locations hstate), rfl, rfl⟩
    | basic hstate _ => exact ⟨_, h.used (EvmState.basic_mem_locations hstate), rfl, rfl⟩
  · obtain ⟨a, ha, rfl⟩ := mem_getRewards hsource hmem
    exact ⟨.basic a, hU.fees a ha, rfl, isBasic_credit⟩
  · obtain ⟨a, ha, rfl⟩ := mem_getRewards hsource hmem
    exact ⟨.basic a, hU.fees a ha, rfl, rfl⟩

/-- A lazy write is at the account of the sender or the recipient of a lazy transaction, which are
registered by then, or of a fee recipient. -/
theorem lazy (hsource : SourceChain vm.chain isEip161Enabled) (hU : vm.Separates U)
    (h : vm.Outcome U lazyAddresses v writes r db result state) (hv : v.txIdx < vm.blockSize)
    (hl : (l, value) ∈ writes) (k : Nat) (hlazy : (MemoryEntry.data k value).isLazy = true) :
    ∃ a, l = vm.hash (.basic a) ∧ .basic a ∈ U ∧
      (a ∈ lazyAddresses ∨ a ∈ vm.chain.lazyAddresses vm.blockEnv) := by
  refine (rewards_rule (G := fun l value => (MemoryEntry.data k value).isLazy = true →
    ∃ a, l = vm.hash (.basic a) ∧ .basic a ∈ U ∧
      (a ∈ lazyAddresses ∨ a ∈ vm.chain.lazyAddresses vm.blockEnv)) h.writes
    (fun l value hmem hlazy => ?_) (fun l amount value hmem _ _ _ => ?_)
    (fun l amount hmem _ _ => ?_)).2.2 l value hl hlazy
  · cases accountWrite_of_mem hmem with
    | selfDestructed _ | codeHash _ | storage _ _ | basic _ _ => cases hlazy
    | lazySender _ hdb hfrom =>
      refine ⟨db.tx.caller, hfrom.trans h.fromHash, ?_, .inl (h.registers hdb).1⟩
      rw [h.tx]
      exact hU.caller _ hv
    | lazyRecipient _ hdb _ hto =>
      rw [h.toHash] at hto
      obtain ⟨a, ha, hhash⟩ := Option.map_eq_some_iff.mp hto.symm
      refine ⟨a, hhash.symm, ?_, .inl ((h.registers hdb).2 a ha)⟩
      rw [h.tx] at ha
      exact hU.recipient _ hv a ha
  · obtain ⟨a, ha, rfl⟩ := mem_getRewards hsource hmem
    exact ⟨a, rfl, hU.fees a ha, .inr ha⟩
  · obtain ⟨a, ha, rfl⟩ := mem_getRewards hsource hmem
    exact ⟨a, rfl, hU.fees a ha, .inr ha⟩

/-- Only the sender of a lazy transaction is written as a lazy sender. -/
theorem lazySender (h : vm.Outcome U lazyAddresses v writes r db result state) {subtraction : U256}
    (hl : (l, .lazySender subtraction) ∈ writes) :
    db.isLazy = true ∧ l = vm.hash (.basic db.tx.caller) := by
  refine (rewards_rule (G := fun l value => (∃ subtraction, value = .lazySender subtraction) →
    db.isLazy = true ∧ l = vm.hash (.basic db.tx.caller)) h.writes (fun l value hmem hsender => ?_)
    (fun l amount value _ _ hold hsender => ?_) (fun l amount _ _ hsender => ?_)).2.2 l _ hl ⟨_, rfl⟩
  · cases accountWrite_of_mem hmem with
    | lazySender _ hlazy hfrom => exact ⟨hlazy, hfrom.trans h.fromHash⟩
    | selfDestructed _ | codeHash _ | storage _ _ | basic _ _ | lazyRecipient _ _ _ _ =>
      obtain ⟨subtraction, hfalse⟩ := hsender
      cases hfalse
  · -- a reward leaves a lazy sender only where there was one
    obtain ⟨subtraction, hcredit⟩ := hsender
    cases value with
    | lazySender subtraction => exact hold ⟨subtraction, rfl⟩
    | basic _ | lazyRecipient _ | codeHash _ | storage _ | selfDestructed => cases hcredit
  · obtain ⟨subtraction, hfalse⟩ := hsender
    cases hfalse

/-- The account of a mocked sender in the result is one that is written lazily. -/
theorem mockedSender (hU : vm.Separates U)
    (h : vm.Outcome U lazyAddresses v writes r db result state) (hv : v.txIdx < vm.blockSize)
    (hlazy : db.isLazy = true) {account : EvmAccount} (hmem : (db.tx.caller, some account) ∈ r.state) :
    db.fromHash ∈ AssocList.keys writes ∧
      ∀ value, (db.fromHash, value) ∈ writes → ∃ subtraction, value = .lazySender subtraction := by
  have hcaller : .basic db.tx.caller ∈ U := by
    rw [h.tx]
    exact hU.caller _ hv
  -- the sender was touched, so that its account has a write
  have hbase : db.fromHash ∈ AssocList.keys (state.flatMap fun (address, account) =>
      vm.accountWrites db address account) := by
    rw [h.result] at hmem
    obtain ⟨⟨a, account₀⟩, hstate, heq⟩ := List.mem_map.mp hmem
    obtain ⟨hstate, htouched⟩ := List.mem_filter.mp hstate
    simp only at heq
    split_ifs at heq with hremoved
    · cases heq
    obtain rfl : a = db.tx.caller := congrArg Prod.fst heq
    have hself : ¬ account₀.isSelfdestructed = true := fun hself => hremoved (by simp [hself])
    have hlookup : db.readAccounts.lookup (vm.hash (.basic db.tx.caller)) = none := by
      rw [← h.fromHash, AssocList.lookup_eq_none_iff]
      exact h.mocked hlazy
    refine List.mem_map.mpr ⟨(db.fromHash, .lazySender (U256.max - account₀.info.balance)),
      List.mem_flatMap.mpr ⟨_, hstate, ?_⟩, rfl⟩
    simp only [accountWrites, if_neg hself, if_pos htouched]
    refine List.mem_append_left _ (List.mem_append_left _ ?_)
    have hchanged : vm.isChanged db db.tx.caller account₀ = true := by
      simp only [isChanged, hlookup]
    simp only [basicWrites, hchanged, Bool.or_true, if_true, hlazy, ← h.fromHash]
    exact List.mem_singleton_self _
  have hrule := rewards_rule (G := fun l value => l = db.fromHash →
    ∃ subtraction, value = .lazySender subtraction) h.writes (fun l value hmem hl => ?_)
    (fun l amount value _ _ hold hl => ?_) (fun l amount _ hno hl => ?_)
  · exact ⟨hrule.1 hbase, fun value hmem => hrule.2.2 _ value hmem rfl⟩
  · -- no other location has the hash of the sender's account
    rw [h.fromHash] at hl
    cases accountWrite_of_mem hmem with
    | selfDestructed hstate | codeHash hstate =>
      cases hU.injective (h.used (EvmState.codeHash_mem_locations hstate)) hcaller hl
    | storage hstate hslot =>
      cases hU.injective (h.used (EvmState.storage_mem_locations hstate hslot)) hcaller hl
    | lazySender _ _ _ => exact ⟨_, rfl⟩
    | lazyRecipient _ _ hfrom _ => exact absurd (hl.trans h.fromHash.symm) hfrom
    | basic _ hdb =>
      rw [hlazy] at hdb
      cases hdb
  · obtain ⟨subtraction, rfl⟩ := hold hl
    exact ⟨_, rfl⟩
  · exact absurd (hl ▸ hbase) hno

end Outcome

end Vm

namespace Sample

/-- The locations that the sample block uses. -/
def locations : List MemoryLocation :=
  [.basic 1, .basic 2, .basic 3, .basic 4, .basic 5, .codeHash 1, .codeHash 2, .codeHash 3,
    .codeHash 4, .codeHash 5, .storage 3 0]

theorem separates : vm.Separates { l | l ∈ locations } where
  injective := by
    have hpairs : ∀ l ∈ locations, ∀ l' ∈ locations, hash l = hash l' → l = l' := by decide +kernel
    exact fun l hl l' hl' => hpairs l hl l' hl'
  fees a ha := by
    obtain rfl := List.mem_singleton.mp ha
    decide
  caller
    | 0, _ | 1, _ | 2, _ => by decide
    | i + 3, hi => absurd hi (not_lt.mpr (Nat.le_add_left 3 i))
  recipient
    | 0, _, a, ha | 1, _, a, ha | 2, _, a, ha => by
      obtain rfl := Option.some.inj ha
      decide
    | i + 3, hi, _, _ => absurd hi (not_lt.mpr (Nat.le_add_left 3 i))

end Sample

end Pevm
