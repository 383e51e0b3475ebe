import Pevm.Proofs.ReadBack
import Pevm.Proofs.LastExecution

/-!
# Self-destructed accounts

A transaction that destroys an account writes its CodeHash location and leaves the older entries of
its balance, nonce and slots. Whoever reads the account afterwards is meant to meet the
`SelfDestructed` at its code hash, and the block falls back to sequential execution.

The argument has three parts:

* every account that an execution was given has its code hash in the read set (`SeesCode`), because
  `basic` reads the code hash of each account but the recipient, and `set_tx` has read that one;
* the version a code hash was read from never holds `SelfDestructed` there (`Barred`): a write set
  has not both at one location, and each version is recorded once;
* the read set of the last incarnation is valid at the end, so that what it read is what stands.
-/

namespace Pevm

open Interleaving Scheduler MvMemory

namespace Vm

variable {T : Type} {vm : Vm T} {U : Set MemoryLocation} {v : TxVersion} {db db' : VmDb}
  {a : Address}

/-- What an execution reads and writes is in `U`, and its journal has every account once. -/
structure Confined (U : Set MemoryLocation) (v : TxVersion) (x : Execution) : Prop where
  within : Within U v x
  toCodeHash : ∀ recipient, x.pc = .toCodeHash recipient → .codeHash recipient ∈ U
  codeHash : ∀ address next, x.pc = .run (.basic address next) → .codeHash address ∈ U
  journal : ∀ result state, x.pc = .finish result state [] → (AssocList.keys state).Nodup

/-! ## One write of a code hash -/

/-- No location is written with a code hash and as destroyed. -/
def Exclusive (writes : WriteSet) : Prop :=
  ∀ l codeHash, (l, .codeHash codeHash) ∈ writes → (l, .selfDestructed) ∉ writes

/-- A journal writes the code hash of an account, or that it was destroyed. -/
theorem codeWrite_of_mem {state : EvmState} {l : MemoryLocationHash} {value : MemoryValue}
    (h : (l, value) ∈
      state.flatMap fun (address, account) => vm.accountWrites db address account)
    (hvalue : value = .selfDestructed ∨ ∃ codeHash, value = .codeHash codeHash) :
    ∃ a account, (a, account) ∈ state ∧ l = vm.hash (.codeHash a) ∧
      (account.isSelfdestructed = true ↔ value = .selfDestructed) := by
  obtain ⟨⟨a, account⟩, hmem, h⟩ := List.mem_flatMap.mp h
  refine ⟨a, account, hmem, ?_⟩
  by_cases hself : account.isSelfdestructed = true
  · simp only [accountWrites, if_pos hself] at h
    obtain ⟨hl, hdestroyed⟩ := Prod.mk.inj (List.mem_singleton.mp h)
    exact ⟨hl, fun _ => hdestroyed, fun _ => hself⟩
  · simp only [accountWrites, if_neg hself] at h
    rcases List.mem_append.mp h with h | h
    · split at h
      · rcases List.mem_append.mp h with h | h
        · -- a balance and nonce
          unfold basicWrites at h
          simp only at h
          rcases hvalue with rfl | ⟨codeHash, rfl⟩ <;> split_ifs at h <;> simp at h
        · split at h
          · obtain ⟨hl, rfl⟩ := Prod.mk.inj (List.mem_singleton.mp h)
            exact ⟨hl, fun h => absurd h hself, fun h => by cases h⟩
          · cases h
      · cases h
    · obtain ⟨p, hp, heq⟩ := List.mem_map.mp h
      obtain ⟨-, rfl⟩ := Prod.mk.inj heq
      rcases hvalue with hvalue | ⟨codeHash, hvalue⟩ <;> cases hvalue

theorem exclusive_writeSet (hU : vm.Separates U) {tx : T} {result : ExecutionResult}
    {state : EvmState} {writes : WriteSet} (h : vm.writeSet db tx result state = .ok writes)
    (hused : EvmState.locations state ⊆ U) (hnodup : (AssocList.keys state).Nodup) :
    Exclusive writes := by
  -- what is not a balance is written by the accounts of the journal
  have hjournal := (rewards_rule (G := fun l value => value.isBasic = true ∨ (l, value) ∈
      state.flatMap fun (address, account) => vm.accountWrites db address account) h
    (fun l value hmem => .inr hmem) (fun l amount value _ _ _ => .inl isBasic_credit)
    (fun l amount _ _ => .inl rfl)).2.2
  intro l codeHash hcode hdestroyed
  have hcode := (hjournal l _ hcode).resolve_left (by nofun)
  have hdestroyed := (hjournal l _ hdestroyed).resolve_left (by nofun)
  obtain ⟨a, account, hmem, rfl, haccount⟩ := codeWrite_of_mem hcode (.inr ⟨_, rfl⟩)
  obtain ⟨b, account', hmem', hhash, haccount'⟩ := codeWrite_of_mem hdestroyed (.inl rfl)
  -- both writes are of one account of the journal
  obtain rfl : a = b := MemoryLocation.codeHash.inj (hU.injective
    (hused (EvmState.codeHash_mem_locations hmem))
    (hused (EvmState.codeHash_mem_locations hmem')) hhash)
  have hlookup := AssocList.lookup_eq_some_of_mem hnodup hmem
  rw [AssocList.lookup_eq_some_of_mem hnodup hmem'] at hlookup
  obtain rfl : account' = account := Option.some.inj hlookup
  cases haccount.mp (haccount'.mpr rfl)

/-- The write set of an execution, once it is known, is exclusive. -/
def WritesExclusive (x : Execution) : Prop :=
  match x.pc with
  | .addLazyAddresses _ _ writes | .record _ _ writes => Exclusive writes
  | _ => True

/-- What an execution records is exclusive. -/
theorem keeps_exclusive (hU : vm.Separates U) : vm.executor.Keeps (Confined U)
    (fun _ _ x => WritesExclusive x) (fun _ _ writes _ => Exclusive writes) where
  start _ v := by
    show WritesExclusive (vm.start v)
    unfold WritesExclusive start
    cases (vm.chain.txEnv (vm.txs v.txIdx)).kind <;> trivial
  mono _ h := h
  monoRecord _ h := h
  run hC h hstep := by
    cases runStep_of_executeStep hstep with
    | lazyWrites hwrites hlazy =>
      exact exclusive_writeSet hU hwrites (hC.within.1 _ _ rfl) (hC.journal _ _ rfl)
    | fullWrites hwrites hlazy =>
      exact exclusive_writeSet hU hwrites (hC.within.1 _ _ rfl) (hC.journal _ _ rfl)
    | _ => trivial
  addNewBytecode _ _ hstep := by
    obtain ⟨result, state, rest, -, rfl⟩ := executeStep_addNewBytecode hstep
    trivial
  addLazyAddresses _ h hstep := by
    obtain ⟨result, state, writes, hpc, -, rfl⟩ := executeStep_addLazyAddresses hstep
    unfold WritesExclusive at h
    rw [hpc] at h
    exact h
  record _ h hstep := by
    obtain ⟨result, state, hpc, -⟩ := executeStep_record hstep
    unfold WritesExclusive at h
    rw [hpc] at h
    exact h

/-! ## The code hashes an execution has read -/

section Reads

variable {s s' : System Execution PevmTxExecutionResult ExecutionError} {w : WorkerId}
  {l : MemoryLocationHash} {x : Execution}

/-- The code hash at this location was read from the storage, or from a version that never holds
`SelfDestructed` there. -/
def CodeSeen (s : System Execution PevmTxExecutionResult ExecutionError) (l : MemoryLocationHash)
    (readSet : ReadSet) : Prop :=
  readSet.origins l = [.storage] ∨
    ∃ u, readSet.origins l = [.mvMemory u] ∧ Barred s u l .selfDestructed

/-- An execution has read the code hash of every account it was given. -/
structure SeesCode (vm : Vm T) (U : Set MemoryLocation)
    (s : System Execution PevmTxExecutionResult ExecutionError) (x : Execution) : Prop where
  single : ∀ a, .codeHash a ∈ U → (x.db.readSet.origins (vm.hash (.codeHash a))).length ≤ 1
  setTx : ∀ recipient, x.pc = .toCodeHash recipient → x.db.tx.kind.recipient = some recipient
  recipient : (∀ recipient, x.pc ≠ .toCodeHash recipient) → ∀ a,
    x.db.tx.kind.recipient = some a → CodeSeen s (vm.hash (.codeHash a)) x.db.readSet
  reading : ∀ address account next, x.pc = .basicCodeHash address account next →
    .basic address ∈ U ∧ .codeHash address ∈ U
  read : ∀ address account codeHash next, x.pc = .basicCode address account codeHash next →
    .basic address ∈ U ∧ CodeSeen s (vm.hash (.codeHash address)) x.db.readSet
  accounts : ∀ location ∈ AssocList.keys x.db.readAccounts, ∃ a, .basic a ∈ U ∧
    location = vm.hash (.basic a) ∧ CodeSeen s (vm.hash (.codeHash a)) x.db.readSet

theorem CodeSeen.mono {readSet : ReadSet}
    (hB : ∀ u l, Barred s u l .selfDestructed → Barred s' u l .selfDestructed)
    (h : CodeSeen s l readSet) : CodeSeen s' l readSet :=
  h.imp_right fun ⟨u, horigins, hbarred⟩ => ⟨u, horigins, hB u l hbarred⟩

/-- A later read leaves the origins. -/
theorem CodeSeen.kept {query : Query} (h : CodeSeen s l db.readSet)
    (hrecords : vm.Records db db' query) : CodeSeen s l db'.readSet := by
  have hne : db.readSet.origins l ≠ [] := by
    rcases h with h | ⟨u, h, -⟩ <;> rw [h] <;> nofun
  unfold CodeSeen
  rw [hrecords.kept l hne]
  exact h

theorem SeesCode.mono {x : Execution}
    (hB : ∀ u l, Barred s u l .selfDestructed → Barred s' u l .selfDestructed)
    (h : vm.SeesCode U s x) : vm.SeesCode U s' x where
  single := h.single
  setTx := h.setTx
  recipient hpc a ha := (h.recipient hpc a ha).mono hB
  reading := h.reading
  read address account codeHash next hpc :=
    ⟨(h.read address account codeHash next hpc).1,
      (h.read address account codeHash next hpc).2.mono hB⟩
  accounts location hl := by
    obtain ⟨a, ha, hlocation, hseen⟩ := h.accounts location hl
    exact ⟨a, ha, hlocation, hseen.mono hB⟩

theorem seesCode_start : vm.SeesCode U s (vm.start v) := by
  cases hkind : (vm.chain.txEnv (vm.txs v.txIdx)).kind with
  | create =>
    have hpc : (vm.start v).pc = .run (vm.evm (vm.txs v.txIdx)) := by
      unfold start
      rw [hkind]
    have hnone : (vm.start v).db.tx.kind.recipient = none := by
      show (vm.chain.txEnv (vm.txs v.txIdx)).kind.recipient = none
      rw [hkind]
      rfl
    refine ⟨fun _ _ => Nat.zero_le 1, ?_, ?_, ?_, ?_, nofun⟩
    all_goals simp [hpc, hnone]
  | call recipient =>
    have hpc : (vm.start v).pc = .toCodeHash recipient := by
      unfold start
      rw [hkind]
    have hsome : (vm.start v).db.tx.kind.recipient = some recipient := by
      show (vm.chain.txEnv (vm.txs v.txIdx)).kind.recipient = _
      rw [hkind]
      rfl
    refine ⟨fun _ _ => Nat.zero_le 1, ?_, fun hne => absurd hpc (hne recipient), ?_, ?_, nofun⟩
    all_goals simp [hpc, hsome]

/-- A code hash from the memory is that of the closest entry. -/
theorem codeHashSource_mvMemory {entries : List (Nat × MemoryEntry)} {u : TxVersion}
    {codeHash : Option B256} (h : vm.codeHashSource a entries = .ok (.mvMemory u, codeHash)) :
    ∃ hash rest, entries = (u.txIdx, .data u.txIncarnation (.codeHash hash)) :: rest := by
  rcases isSource_codeHashSource h with ⟨u', value, rest, heq, rfl, -⟩ | ⟨heq, -⟩
  · obtain rfl : u = u' := ReadOrigin.mvMemory.inj heq
    unfold codeHashSource at h
    cases value with
    | codeHash hash => exact ⟨hash, rest, rfl⟩
    | selfDestructed => cases h
    | basic _ | storage _ | lazyRecipient _ | lazySender _ =>
      obtain ⟨_, -, hstorage⟩ := map_eq_ok.mp h
      cases hstorage
  · cases heq

/-- The code hash that was read is not going to be one of a destroyed account. -/
theorem codeSeen_of_getCodeHash {n : Nat} {codeHash : Option B256}
    (hbarred : ∀ l u hash, s.mvMemory.entry l u.txIdx = some (.data u.txIncarnation (.codeHash hash)) →
      Barred s u l .selfDestructed)
    (hsingle : (db.readSet.origins (vm.hash (.codeHash a))).length ≤ 1)
    (h : vm.getCodeHash s.mvMemory n db a = .ok (db', codeHash)) :
    CodeSeen s (vm.hash (.codeHash a)) db'.readSet := by
  obtain ⟨origin, hsource, horigins⟩ :=
    single_of_readSource hsingle (getCodeHash_eq_ok_iff.mp h)
  cases origin with
  | storage => exact .inl horigins
  | mvMemory u =>
    obtain ⟨hash, rest, hentries⟩ := codeHashSource_mvMemory hsource
    refine .inr ⟨u, horigins, hbarred _ u hash ?_⟩
    rw [entriesBelow_eq] at hentries
    exact WriteHistory.eq_of_mem_below (hentries ▸ List.mem_cons_self)

/-- A read of one origin leaves at most one. -/
theorem single_readSource {α : Type}
    {source : List (Nat × MemoryEntry) → Except ReadError (ReadOrigin × α)} {m : MvMemory} {n : Nat}
    {l' : MemoryLocationHash} {r : α} (h : readSource source m n db l' (db', r))
    (hsingle : (db.readSet.origins l).length ≤ 1) : (db'.readSet.origins l).length ≤ 1 := by
  by_cases hl : l = l'
  · subst hl
    obtain ⟨origin, -, horigins⟩ := single_of_readSource hsingle h
    rw [horigins]
    exact le_rfl
  · obtain ⟨origin, origins, -, -, hdb⟩ := h
    rw [show db' = _ from hdb, ReadSet.origins_insert, if_neg hl]
    exact hsingle

/-- An execution past `set_tx` that keeps the code hashes it has read. -/
theorem SeesCode.goto {pc pc' : ExecutePc} (h : vm.SeesCode U s ⟨db, pc⟩)
    (hpc : ∀ recipient, pc ≠ .toCodeHash recipient) (htx : db'.tx = db.tx)
    (haccounts : db'.readAccounts = db.readAccounts)
    (hsingle : ∀ a, .codeHash a ∈ U → (db'.readSet.origins (vm.hash (.codeHash a))).length ≤ 1)
    (hkept : ∀ l, CodeSeen s l db.readSet → CodeSeen s l db'.readSet)
    (hpc' : ∀ recipient, pc' ≠ .toCodeHash recipient)
    (hreading : ∀ address account next, pc' = .basicCodeHash address account next →
      .basic address ∈ U ∧ .codeHash address ∈ U)
    (hread : ∀ address account codeHash next, pc' = .basicCode address account codeHash next →
      .basic address ∈ U ∧ CodeSeen s (vm.hash (.codeHash address)) db'.readSet) :
    vm.SeesCode U s ⟨db', pc'⟩ where
  single := hsingle
  setTx recipient heq := absurd heq (hpc' recipient)
  recipient _ a ha := hkept _ (h.recipient hpc a (htx ▸ ha))
  reading := hreading
  read := hread
  accounts location hl := by
    obtain ⟨a, ha, hlocation, hseen⟩ := h.accounts location (haccounts ▸ hl)
    exact ⟨a, ha, hlocation, hkept _ hseen⟩

/-- The same, where nothing is read. -/
theorem SeesCode.idle {pc pc' : ExecutePc} (h : vm.SeesCode U s ⟨db, pc⟩)
    (hpc : ∀ recipient, pc ≠ .toCodeHash recipient) (htx : db'.tx = db.tx)
    (haccounts : db'.readAccounts = db.readAccounts) (hreadSet : db'.readSet = db.readSet)
    (hpc' : ∀ recipient, pc' ≠ .toCodeHash recipient)
    (hreading : ∀ address account next, pc' ≠ .basicCodeHash address account next)
    (hread : ∀ address account codeHash next, pc' ≠ .basicCode address account codeHash next) :
    vm.SeesCode U s ⟨db', pc'⟩ :=
  h.goto hpc htx haccounts (by rw [hreadSet]; exact h.single) (by rw [hreadSet]; exact fun _ => id)
    hpc' (fun _ _ _ heq => absurd heq (hreading _ _ _))
    (fun _ _ _ _ heq => absurd heq (hread _ _ _ _))

/-- `set_tx` reads the code hash of the recipient. -/
theorem SeesCode.setsTx {n : Nat} {recipient : Address} {codeHash toCodeHash : Option B256}
    {pc' : ExecutePc}
    (hbarred : ∀ l u hash, s.mvMemory.entry l u.txIdx = some (.data u.txIncarnation (.codeHash hash)) →
      Barred s u l .selfDestructed)
    (h : vm.SeesCode U s ⟨db, .toCodeHash recipient⟩) (hrecipient : .codeHash recipient ∈ U)
    (hget : vm.getCodeHash s.mvMemory n db recipient = .ok (db', codeHash))
    (hpc' : ∀ recipient, pc' ≠ .toCodeHash recipient)
    (hreading : ∀ address account next, pc' ≠ .basicCodeHash address account next)
    (hread : ∀ address account codeHash next, pc' ≠ .basicCode address account codeHash next) :
    vm.SeesCode U s ⟨{ db' with toCodeHash := toCodeHash }, pc'⟩ := by
  have hsource := getCodeHash_eq_ok_iff.mp hget
  have hrecords : vm.Records db db' (.codeHash recipient) := records_of_readSource rfl hsource
  have hsingle : ∀ a, .codeHash a ∈ U →
      (db'.readSet.origins (vm.hash (.codeHash a))).length ≤ 1 := fun a ha =>
    single_readSource hsource (h.single a ha)
  have hseen : CodeSeen s (vm.hash (.codeHash recipient)) db'.readSet :=
    codeSeen_of_getCodeHash hbarred (h.single recipient hrecipient) hget
  have hkept : ∀ l, CodeSeen s l db.readSet → CodeSeen s l db'.readSet := fun l hold =>
    hold.kept hrecords
  refine ⟨hsingle,
    fun _ heq => absurd heq (hpc' _), fun _ a ha => ?_, fun _ _ _ heq => absurd heq (hreading _ _ _),
    fun _ _ _ _ heq => absurd heq (hread _ _ _ _), fun location hl => ?_⟩
  · have htx : db'.tx = db.tx := by rw [hrecords.same]
    have ha : db.tx.kind.recipient = some a := htx ▸ ha
    rw [h.setTx recipient rfl] at ha
    rw [← Option.some.inj ha]
    exact hseen
  · have haccounts : db'.readAccounts = db.readAccounts := by rw [hrecords.same]
    obtain ⟨a, ha, hlocation, hold⟩ := h.accounts location (haccounts ▸ hl)
    exact ⟨a, ha, hlocation, hkept _ hold⟩

theorem SeesCode.run (hU : vm.Separates U) (hv : v.txIdx < vm.blockSize)
    (hbarred : ∀ l u hash, s.mvMemory.entry l u.txIdx = some (.data u.txIncarnation (.codeHash hash)) →
      Barred s u l .selfDestructed) {x x' : Execution} (hdb : vm.Started v x.db)
    (hC : Confined U v x) (h : vm.SeesCode U s x)
    (hstep : vm.executeStep v s.mvMemory x = .run x') : vm.SeesCode U s x' := by
  -- an account is not at the location of a code hash
  have hbasic : ∀ {db₀ db₁ address account}, vm.Started v db₀ → .basic address ∈ U →
      vm.readBasic s.mvMemory v.txIdx db₀ address = .ok (db₁, account) → ∀ a, .codeHash a ∈ U →
      (db₀.readSet.origins (vm.hash (.codeHash a))).length ≤ 1 →
      (db₁.readSet.origins (vm.hash (.codeHash a))).length ≤ 1 := by
    intro db₀ db₁ address account hdb₀ haddress hread a ha hsingle
    rw [(records_of_readBasic hread).other _ fun hlocation => ?_]
    · exact hsingle
    · have hhash : vm.hashBasic db₀ address = vm.hash (.codeHash a) := Option.some.inj hlocation
      rw [hdb₀.hashBasic] at hhash
      cases hU.injective haddress ha hhash
  have htx : ∀ {db₀ db₁ : VmDb}, db₁ = { db₀ with readSet := db₁.readSet } →
      db₁.tx = db₀.tx ∧ db₁.readAccounts = db₀.readAccounts := by
    intro db₀ db₁ heq
    constructor <;> rw [heq]
  cases runStep_of_executeStep hstep with
  | toCode hget => exact h.setsTx hbarred (hC.toCodeHash _ rfl) hget nofun nofun nofun
  | toNoCode hget => exact h.setsTx hbarred (hC.toCodeHash _ rfl) hget nofun nofun nofun
  | containsFrom hdata => exact h.idle nofun rfl rfl rfl nofun nofun nofun
  | notContainsFrom hdata => exact h.idle nofun rfl rfl rfl nofun nofun nofun
  | containsTo => exact h.idle nofun rfl rfl rfl nofun nofun nofun
  | mockSender hlazy hfrom => exact h.idle nofun rfl rfl rfl nofun nofun nofun
  | mockRecipient hlazy hfrom hto => exact h.idle nofun rfl rfl rfl nofun nofun nofun
  | @missing db db₁ address next hreal hread =>
    obtain ⟨htx₁, haccounts⟩ := htx (readBasic_db hread)
    exact h.goto nofun htx₁ haccounts
      (fun a ha => hbasic hdb (hC.within.2 _ _ rfl) hread a ha (h.single a ha))
      (fun l hseen => hseen.kept (records_of_readBasic hread)) nofun nofun nofun
  | @recipient db db₁ address account next hreal hread hto =>
    obtain ⟨htx₁, haccounts⟩ := htx (readBasic_db hread)
    have haddress := hC.within.2 _ _ rfl
    have hkept : ∀ l, CodeSeen s l db.readSet → CodeSeen s l db₁.readSet := fun l hseen =>
      hseen.kept (records_of_readBasic hread)
    refine h.goto nofun htx₁ haccounts
      (fun a ha => hbasic hdb haddress hread a ha (h.single a ha)) hkept nofun nofun ?_
    rintro _ _ _ _ ⟨⟩
    -- the code hash of the recipient was read by `set_tx`
    have htoHash : db₁.toHash = db.toHash := by rw [readBasic_db hread]
    have hrecipient := Started.eq_recipient hU hv hdb haddress (hto.trans htoHash)
    exact ⟨haddress, hkept _ (h.recipient nofun address hrecipient)⟩
  | @account db db₁ address account next hreal hread =>
    obtain ⟨htx₁, haccounts⟩ := htx (readBasic_db hread)
    have haddress := hC.within.2 _ _ rfl
    refine h.goto nofun htx₁ haccounts
      (fun a ha => hbasic hdb haddress hread a ha (h.single a ha))
      (fun l hseen => hseen.kept (records_of_readBasic hread)) nofun ?_ nofun
    rintro _ _ _ ⟨⟩
    exact ⟨haddress, hC.codeHash _ _ rfl⟩
  | @codeHash db db₁ address account codeHash next hget =>
    obtain ⟨htx₁, haccounts⟩ := htx (getCodeHash_db hget)
    obtain ⟨haddress, hcode⟩ := h.reading _ _ _ rfl
    have hsource := getCodeHash_eq_ok_iff.mp hget
    have hrecords : vm.Records db db₁ (.codeHash address) := records_of_readSource rfl hsource
    refine h.goto nofun htx₁ haccounts (fun a ha => single_readSource hsource (h.single a ha))
      (fun l hseen => hseen.kept hrecords) nofun nofun ?_
    rintro _ _ _ _ ⟨⟩
    exact ⟨haddress, codeSeen_of_getCodeHash hbarred (h.single address hcode) hget⟩
  | @code db address account codeHash code next hread =>
    obtain ⟨haddress, hseen⟩ := h.read _ _ _ _ rfl
    refine ⟨h.single, nofun, fun _ => h.recipient nofun, nofun, nofun, fun location hl => ?_⟩
    rcases List.mem_cons.mp hl with rfl | hl
    · exact ⟨address, haddress, hdb.hashBasic, hseen⟩
    · exact h.accounts location hl
  | codeByHash hread => exact h.idle nofun rfl rfl rfl nofun nofun nofun
  | @storage db db₁ address index value next hread =>
    obtain ⟨htx₁, haccounts⟩ := htx (readStorage_db hread)
    have hsource := readStorage_eq_ok_iff.mp hread
    have hrecords : vm.Records db db₁ (.storage address index) := records_of_readSource rfl hsource
    exact h.goto nofun htx₁ haccounts (fun a ha => single_readSource hsource (h.single a ha))
      (fun l hseen => hseen.kept hrecords) nofun nofun nofun
  | blockHash hread => exact h.idle nofun rfl rfl rfl nofun nofun nofun
  | finish => exact h.idle nofun rfl rfl rfl nofun nofun nofun
  | lazyWrites hwrites hlazy => exact h.idle nofun rfl rfl rfl nofun nofun nofun
  | fullWrites hwrites hlazy => exact h.idle nofun rfl rfl rfl nofun nofun nofun

section Run

variable {concurrencyLevel : Nat} (hU : vm.Separates U)
  (h : (workers (vm.config concurrencyLevel)).ReachableVia (StepsMeet (Confined U)) s)
include hU h

/-- A version that holds a code hash is barred from holding `SelfDestructed` there. -/
theorem barred_of_codeHash {u : TxVersion} {hash : B256}
    (he : s.mvMemory.entry l u.txIdx = some (.data u.txIncarnation (.codeHash hash))) :
    Barred s u l .selfDestructed :=
  .of_entry (entryVersions_reachable h.reachable) (ownership_reachable h.reachable)
    (recordedOnce_reachable h.reachable) he nofun fun w rs ws need r pc hpc hmem =>
      (carries_reachable (keeps_exclusive hU) h).record w u rs ws need r pc hpc l hash hmem

theorem barred_step (hstep : Step (vm.config concurrencyLevel) w s s') {u : TxVersion}
    (hB : Barred s u l .selfDestructed) : Barred s' u l .selfDestructed :=
  hB.step (ownership_reachable h.reachable) (recordedOnce_reachable h.reachable)
    (fun w v rs ws need r rest new hpc =>
      ((recorded_reachable (keeps_exclusive hU) h).inserting w v rs ws need r rest new hpc).1) hstep

end Run

/-- Every execution of a run sees the code of the accounts it was given. -/
theorem seesCode_reachable (hU : vm.Separates U) {concurrencyLevel : Nat}
    (h : (workers (vm.config concurrencyLevel)).ReachableVia (StepsMeet (Confined U)) s)
    (hpc : s.pc w = .execute v x) : vm.SeesCode U s x := by
  refine invariant_of_step (P := fun s => ∀ w v x, s.pc w = .execute v x → vm.SeesCode U s x)
    (fun s hs w v x hpc => ?_) (fun w s s' hb hs hC hstep ih w' v x' hpc => ?_) h w v x hpc
  · rw [hs.2.2.2.1 w] at hpc
    cases hpc
  · have hmono : vm.SeesCode U s x' → vm.SeesCode U s' x' :=
      SeesCode.mono fun u l => barred_step hU hs hstep
    apply hmono
    by_cases hw : w' = w
    · subst hw
      rcases hstep.execute_pc hpc with rfl | ⟨x, hpc₀, hx | ⟨hash, code, hx⟩ | ⟨addresses, hx⟩⟩
      · exact seesCode_start
      · have hv : v.txIdx < vm.blockSize := by
          have hin := hb.pc w'
          rw [hpc₀] at hin
          exact hin
        have hused : (workers (vm.config concurrencyLevel)).ReachableVia (StepsMeet (UsesOnly U)) s :=
          hs.mono fun _ _ hmeet v x hpc => (hmeet v x hpc).within.1
        have hknown := (carries_reachable keeps_known hused).execute w' v x hpc₀
        exact (ih w' v x hpc₀).run hU hv (fun l u hash => barred_of_codeHash hU hs) hknown.1
          (hC v x hpc₀) hx
      · obtain ⟨result, state, rest, hfinish, rfl⟩ := executeStep_addNewBytecode hx
        have hold := ih w' v x hpc₀
        obtain ⟨db, pc⟩ := x
        subst hfinish
        exact hold.idle nofun rfl rfl rfl nofun nofun nofun
      · obtain ⟨result, state, writes, hlazy, -, rfl⟩ := executeStep_addLazyAddresses hx
        have hold := ih w' v x hpc₀
        obtain ⟨db, pc⟩ := x
        subst hlazy
        exact hold.idle nofun rfl rfl rfl nofun nofun nofun
    · rw [hstep.pc_of_ne hw] at hpc
      exact ih w' v x' hpc

/-! ## The end of a block -/

/-- The closest entry below a transaction says that the account was destroyed. -/
def DestroyedBelow (vm : Vm T) (m : MvMemory) (i : Nat) (a : Address) : Prop :=
  ∃ j k, (m.entriesBelow (vm.hash (.codeHash a)) i).head? = some (j, .data k .selfDestructed)

/-- A code hash that was read and stands is not that of a destroyed account. -/
theorem CodeSeen.not_destroyed {readSet : ReadSet} {i : Nat}
    (h : CodeSeen s (vm.hash (.codeHash a)) readSet)
    (hvalid : ∀ p ∈ readSet, checkLocation s.mvMemory.data i p.1 p.2 = true) :
    ¬ vm.DestroyedBelow s.mvMemory i a := by
  rintro ⟨j, k, hhead⟩
  have hne : readSet.origins (vm.hash (.codeHash a)) ≠ [] := by
    rcases h with h | ⟨u, h, -⟩ <;> rw [h] <;> nofun
  have hcheck := checkOrigins_of_checkLocation (hvalid _ (ReadSet.mem_of_origins_ne_nil hne))
  obtain ⟨rest, hentries⟩ : ∃ rest, s.mvMemory.entriesBelow (vm.hash (.codeHash a)) i =
      (j, .data k .selfDestructed) :: rest := by
    cases hall : s.mvMemory.entriesBelow (vm.hash (.codeHash a)) i with
    | nil =>
      rw [hall] at hhead
      cases hhead
    | cons p rest =>
      rw [hall] at hhead
      exact ⟨rest, congrArg (· :: rest) (Option.some.inj hhead)⟩
  rw [hentries] at hcheck
  rcases h with h | ⟨u, h, hbarred⟩
  · -- there is an entry above the storage now
    rw [h] at hcheck
    cases hcheck
  · rw [h] at hcheck
    obtain ⟨value, rest', heq, -⟩ := checkOrigins_cons hcheck
    obtain ⟨⟨rfl, rfl, rfl⟩, -⟩ : (j = u.txIdx ∧ k = u.txIncarnation ∧ .selfDestructed = value) ∧
      rest = rest' := by simpa using heq
    apply hbarred.entry
    rw [entriesBelow_eq] at hentries
    exact WriteHistory.eq_of_mem_below (hentries ▸ List.mem_cons_self)

/-- **A self-destructed account is never observed by a later full execution.** In every run that
ends without an abort, the last incarnation of a transaction that is not lazy was given no account
that the closest lower transaction destroyed. `s₁` is the state in which this incarnation is about
to call `record`, with the accounts it was given in its `read_accounts`, and `s₂` is the end. -/
theorem self_destructed_not_observed (hU : vm.Separates U) {concurrencyLevel : Nat}
    (hlevel : 0 < concurrencyLevel)
    {s₁ s₂ : System Execution PevmTxExecutionResult ExecutionError}
    (h₁ : (workers (vm.config concurrencyLevel)).ReachableVia (StepsMeet (Confined U)) s₁)
    {result : ExecutionResult} {state : EvmState} {writes : WriteSet}
    (hpc : s₁.pc w = .execute v ⟨db, .record result state writes⟩) (hfull : db.isLazy = false)
    (h₂ : (workers (vm.config concurrencyLevel)).LeadsTo (StepsMeet (Confined U)) s₁ s₂)
    (hleft : ∀ w, w < concurrencyLevel → s₂.pc w = .left) (hnone : s₂.abortReason = none)
    (hlast : (s₂.scheduler.transactionsStatus v.txIdx).incarnation = v.txIncarnation)
    (ha : .basic a ∈ U) (hdestroyed : vm.DestroyedBelow s₂.mvMemory v.txIdx a) :
    vm.hash (.basic a) ∉ AssocList.keys db.readAccounts := by
  intro hmem
  have hseen : CodeSeen s₁ (vm.hash (.codeHash a)) db.readSet := by
    obtain ⟨b, hb, hhash, hseen⟩ := (seesCode_reachable hU h₁ hpc).accounts _ hmem
    obtain rfl : a = b := MemoryLocation.basic.inj (hU.injective ha hb hhash)
    exact hseen
  have hpos : 0 < v.txIdx := by
    obtain ⟨j, k, hhead⟩ := hdestroyed
    have hj := lt_of_mem_entriesBelow (List.mem_of_mem_head? hhead)
    omega
  -- the execution and the origin of the code hash, followed to the end
  obtain ⟨h, hfollows, hseen₂⟩ := h₂.invariant
    (P := fun t => (t.pc w = .execute v ⟨db, .record result state writes⟩ ∨ Follows v db.readSet t) ∧
      CodeSeen t (vm.hash (.codeHash a)) db.readSet) h₁ ⟨.inl hpc, hseen⟩ (by
    intro w' t t' ht _ hone hP
    obtain ⟨hfollows, hseen⟩ := hP
    have hb := bounds_reachable ht.reachable
    have hworker := (workers_step hone).2
    have hstep := step_of_workerStep hb.finishExecution_lt hworker
    refine ⟨?_, hseen.mono fun u l => barred_step hU ht hstep⟩
    rcases hfollows with hpc | hfollows
    · by_cases hw : w = w'
      · subst hw
        have hrecord := recording_of_step hpc hworker
        rw [hfull, decide_eq_true hpos] at hrecord
        exact .inr (.recording hrecord)
      · exact .inl ((hstep.pc_of_ne hw).trans hpc)
    · exact .inr (hfollows.step hb (ownership_reachable ht.reachable) hstep))
  have haborted := not_aborted_of_left h.reachable hleft hnone
  obtain ⟨hq, he, hv⟩ := past_of_left h.reachable haborted hlevel hleft
  rcases hfollows with hpc₂ | hfollows
  · have hw := hq w
    rw [hpc₂] at hw
    cases hw
  · obtain ⟨hread, flags, hfinish, hneed⟩ := hfollows.finished_of_quiescent hq hlast
    have hlt : v.txIdx < s₂.scheduler.blockSize := by
      rw [(bounds_reachable h.reachable).blockSize]
      have hin := (bounds_reachable h₁.reachable).pc w
      rw [hpc] at hin
      exact hin
    have hvalid := (staleCovered_reachable h.reachable).valid haborted hq hv hlt hfinish hneed
      (validated_of_past h.reachable haborted hq he hv hlt)
    rw [validateReadLocations_iff, hread] at hvalid
    exact hseen₂.not_destroyed hvalid hdestroyed

end Reads

end Vm

/-! ## A sample

Transaction 0 creates and destroys account 5, transaction 1 asks for it and calls the counter. -/

namespace Sample

/-- The reads and the journal of an execution are confined to these locations. -/
def confined (locations : List MemoryLocation) (x : Vm.Execution) : Bool :=
  within locations x &&
    match x.pc with
    | .toCodeHash recipient => decide (.codeHash recipient ∈ locations)
    | .run (.basic address _) => decide (.codeHash address ∈ locations)
    | .finish _ state [] => decide (AssocList.keys state).Nodup
    | _ => true

theorem confined_sound {locations : List MemoryLocation} {v : TxVersion} {x : Vm.Execution}
    (h : confined locations x = true) : Vm.Confined { l | l ∈ locations } v x := by
  obtain ⟨hwithin, hpc⟩ := Bool.and_eq_true_iff.mp h
  obtain ⟨db, pc⟩ := x
  refine ⟨within_sound hwithin, ?_, ?_, ?_⟩
  · rintro recipient rfl
    exact of_decide_eq_true hpc
  · rintro address next rfl
    exact of_decide_eq_true hpc
  · rintro result state rfl
    exact of_decide_eq_true hpc

/-- The next step of a worker is confined. -/
def stepConfined (w : WorkerId) (s : System Vm.Execution PevmTxExecutionResult ExecutionError) :
    Bool :=
  match s.pc w with
  | .execute _ x => confined locations x
  | _ => true

theorem stepConfined_sound {w : WorkerId}
    {s : System Vm.Execution PevmTxExecutionResult ExecutionError} (h : stepConfined w s = true) :
    StepsMeet (Vm.Confined { l | l ∈ locations }) w s := by
  intro v x hpc
  simp only [stepConfined, hpc] at h
  exact confined_sound h

/-- The run of a transaction that creates and destroys an account. -/
def destroy (caller created : Address) : EvmProgram :=
  .basic caller fun sender => .basic created fun info =>
    .finish ⟨true, 30000, []⟩
      [(caller, touched { orEmpty sender with nonce := (orEmpty sender).nonce + 1 } []),
        (created, { touched (orEmpty info) [] with isSelfdestructed := true })]

def destroyVm : Vm TxEnv :=
  { vm with
    blockSize := 2
    evm := fun tx =>
      if tx.caller = 1 then destroy 1 5 else .basic 5 fun _ => callCounter tx.caller }

theorem destroy_separates : destroyVm.Separates { l | l ∈ locations } where
  injective := separates.injective
  fees := separates.fees
  caller i hi := separates.caller i (Nat.lt_succ_of_lt hi)
  recipient i hi := separates.recipient i (Nat.lt_succ_of_lt hi)

/-- Worker 0 is about to record the first incarnation of transaction 1, which is not lazy and has asked
for account 5. -/
def recordsFull (s : System Vm.Execution PevmTxExecutionResult ExecutionError) : Bool :=
  match s.pc 0 with
  | .execute v ⟨db, .record _ _ _⟩ => decide (v = ⟨1, 0⟩) && !db.isLazy &&
    decide (db.readSet.origins (hash (.basic 5)) = [.storage])
  | _ => false

theorem recordsFull_sound {s : System Vm.Execution PevmTxExecutionResult ExecutionError}
    (h : recordsFull s = true) : ∃ db result state writes,
      s.pc 0 = .execute ⟨1, 0⟩ ⟨db, .record result state writes⟩ ∧ db.isLazy = false ∧
        db.readSet.origins (hash (.basic 5)) = [.storage] := by
  unfold recordsFull at h
  split at h
  · next v db result state writes hpc =>
    simp only [Bool.and_eq_true, decide_eq_true_eq, Bool.not_eq_true'] at h
    obtain ⟨⟨rfl, hlazy⟩, hasked⟩ := h
    exact ⟨db, result, state, writes, hpc, hlazy, hasked⟩
  · cases h

/-- The end of the block, with transaction 1 at its first incarnation above the destroyed account. -/
def endsDestroyed (s : System Vm.Execution PevmTxExecutionResult ExecutionError) : Bool :=
  (s.pc 0).hasLeft && s.abortReason.isNone &&
    decide ((s.scheduler.transactionsStatus 1).incarnation = 0) &&
    decide ((s.mvMemory.entriesBelow (hash (.codeHash 5)) 1).head? =
      some (0, .data 0 .selfDestructed))

end Sample

/-- Transaction 1 asked for the account that transaction 0 destroyed, and was not given it. -/
theorem self_destructed_not_observed_sample : ∃ s₁ s₂ db result state writes,
    (workers (Sample.destroyVm.config 1)).Reachable s₁ ∧
    s₁.pc 0 = .execute ⟨1, 0⟩ ⟨db, .record result state writes⟩ ∧ db.isLazy = false ∧
    db.readSet.origins (Sample.destroyVm.hash (.basic 5)) = [.storage] ∧
    (workers (Sample.destroyVm.config 1)).LeadsTo (fun _ _ => True) s₁ s₂ ∧ s₂.pc 0 = .left ∧
    s₂.abortReason = none ∧ Sample.destroyVm.DestroyedBelow s₂.mvMemory 1 5 ∧
    Sample.destroyVm.hash (.basic 5) ∉ AssocList.keys db.readAccounts := by
  obtain ⟨s₁, hs₁, hp⟩ := Sample.exists_reachableVia (Sample.destroyVm.config 1)
    Sample.stepConfined [(0, 41)]
    (fun s₁ => Sample.recordsFull s₁ && ((workers (Sample.destroyVm.config 1)).runVia
      Sample.stepConfined (Sample.schedule [(0, 32)]) s₁).any Sample.endsDestroyed)
    (by decide +kernel)
  obtain ⟨hfull, hrun⟩ := Bool.and_eq_true_iff.mp hp
  obtain ⟨s₂, hrun, hend⟩ := (Option.any_eq_true _ _).mp hrun
  obtain ⟨db, result, state, writes, hpc, hlazy, hasked⟩ := Sample.recordsFull_sound hfull
  simp only [Sample.endsDestroyed, Bool.and_eq_true, decide_eq_true_eq,
    Option.isNone_iff_eq_none] at hend
  obtain ⟨⟨⟨hleft, hnone⟩, hlast⟩, hhead⟩ := hend
  have hleads := Machine.leadsTo_of_run hrun
  have hleft := Pc.hasLeft_iff.mp hleft
  refine ⟨s₁, s₂, db, result, state, writes, hs₁.reachable, hpc, hlazy, hasked,
    hleads.mono fun _ _ _ => trivial, hleft, hnone, ⟨0, 0, hhead⟩, ?_⟩
  apply Vm.self_destructed_not_observed Sample.destroy_separates (by decide)
    (hs₁.mono fun _ _ => Sample.stepConfined_sound) hpc hlazy
    (hleads.mono fun _ _ => Sample.stepConfined_sound) _ hnone hlast (by decide) ⟨0, 0, hhead⟩
  intro w hw
  obtain rfl : w = 0 := by omega
  exact hleft

end Pevm
