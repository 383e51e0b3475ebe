import Pevm.Proofs.Outcome
import Pevm.Proofs.Record

/-!
# What a transaction leaves behind

`Vm::execute` with nothing interleaved, followed by `MvMemory::record`. The write set is computed
from the accounts that the execution read; this file says what these are in terms of the memory
below the transaction, and what the next transaction finds.

* **`ReadsBack`**: the accounts in `read_accounts` are the ones a first read returns, and an
  account that the EVM was given but that is not there was mocked or is missing.
* **`executed`**: so it is at the end of every execution. The induction is on the steps of the
  execution, each inverted by `RunStep`.
* **`recorded_entry`**: the entries of the transaction after `record`.
-/

namespace Pevm

open Interleaving MvMemory

namespace Vm

variable {T : Type} {vm : Vm T} {U : Set MemoryLocation} {v : TxVersion} {m m₁ m' : MvMemory}
  {n : Nat} {db db' : VmDb} {a : Address}

theorem codeHashAt_congr (h : m'.data = m.data) : vm.codeHashAt m' n a = vm.codeHashAt m n a := by
  simp only [codeHashAt, getCodeHash, entriesBelow, h]

theorem basicAt_congr (h : m'.data = m.data) : vm.basicAt m' n a = vm.basicAt m n a := by
  simp only [basicAt, readBasic, entriesBelow, h]

/-! ## An execution -/

/-- The accounts that an execution asks for and the locations that it writes are in `U`. -/
def Within (U : Set MemoryLocation) (v : TxVersion) (x : Execution) : Prop :=
  UsesOnly U v x ∧ ∀ address next, x.pc = .run (.basic address next) → .basic address ∈ U

/-- An execution of the version, with nothing interleaved, comes to `x`. -/
def Executes (vm : Vm T) (U : Set MemoryLocation) (v : TxVersion) (m m' : MvMemory)
    (x : Execution) : Prop :=
  Relation.ReflTransGen (fun p q : MvMemory × Execution =>
    Within U v p.2 ∧ vm.executeAlone v p.1 p.2 = some (q.1, .goto q.2)) (m, vm.start v) (m', x)

/-- `set_tx`: a transfer to an account without code is lazy when its sender or its recipient is in
the multi-version memory. -/
def isLazyAt (vm : Vm T) (m : MvMemory) (n : Nat) : Prop :=
  ∃ recipient, (vm.chain.txEnv (vm.txs n)).kind.recipient = some recipient ∧
    vm.codeHashAt m n recipient = .ok none ∧
    ((m.data (vm.hash (.basic (vm.chain.txEnv (vm.txs n)).caller))).isSome ∨
      (m.data (vm.hash (.basic recipient))).isSome)

/-- The database after `set_tx`. -/
structure TxSet (vm : Vm T) (m : MvMemory) (n : Nat) (db : VmDb) : Prop where
  isLazy : db.isLazy = true ↔ vm.isLazyAt m n
  toCodeHash : ∀ a, db.tx.kind.recipient = some a → vm.codeHashAt m n a = .ok db.toCodeHash

/-- What is in `read_accounts`, and why an account that was asked for is not. -/
structure ReadsBack (vm : Vm T) (U : Set MemoryLocation) (m : MvMemory) (n : Nat) (db : VmDb)
    (given : List (Address × Option AccountInfo)) : Prop where
  accounts : ∀ l account codeHash, (l, (account, codeHash)) ∈ db.readAccounts →
    ∃ a, .basic a ∈ U ∧ l = vm.hash (.basic a) ∧ vm.basicAt m n a = .ok (some account) ∧
      vm.codeHashAt m n a = .ok codeHash
  given : ∀ a info, (a, info) ∈ given → .basic a ∈ U ∧
    ((db.isLazy = true ∧ (a = db.tx.caller ∨ db.tx.kind.recipient = some a)) ∨
      vm.basicAt m n a = .ok none ∨ vm.hash (.basic a) ∈ AssocList.keys db.readAccounts)

/-- The state of an execution, as far as it depends on the memory below. -/
def Seen (vm : Vm T) (U : Set MemoryLocation) (m : MvMemory) (v : TxVersion) (x : Execution) :
    Prop :=
  match x.pc with
  | .toCodeHash recipient =>
    x.db.readAccounts = [] ∧ x.db.isLazy = false ∧ x.db.tx.kind.recipient = some recipient
  | .containsFrom | .containsTo =>
    x.db.readAccounts = [] ∧ x.db.toCodeHash = none ∧ (∃ recipient,
      x.db.tx.kind.recipient = some recipient ∧ vm.codeHashAt m v.txIdx recipient = .ok none) ∧
      (x.pc = .containsTo → (m.data x.db.fromHash).isSome = false)
  | .run program =>
    vm.TxSet m v.txIdx x.db ∧ ∃ given, (vm.evm (vm.txs v.txIdx)).Given given program ∧
      vm.ReadsBack U m v.txIdx x.db given
  | .basicCodeHash address account next =>
    vm.TxSet m v.txIdx x.db ∧ vm.basicAt m v.txIdx address = .ok (some account) ∧
      .basic address ∈ U ∧ ∃ given,
      (vm.evm (vm.txs v.txIdx)).Given given (.basic address next) ∧
      vm.ReadsBack U m v.txIdx x.db given
  | .basicCode address account codeHash next =>
    vm.TxSet m v.txIdx x.db ∧ vm.basicAt m v.txIdx address = .ok (some account) ∧
      .basic address ∈ U ∧ vm.codeHashAt m v.txIdx address = .ok codeHash ∧ ∃ given,
      (vm.evm (vm.txs v.txIdx)).Given given (.basic address next) ∧
      vm.ReadsBack U m v.txIdx x.db given
  | .finish result state _ | .addLazyAddresses result state _ | .record result state _ =>
    vm.TxSet m v.txIdx x.db ∧ ∃ given,
      (vm.evm (vm.txs v.txIdx)).Given given (.finish result state) ∧
      vm.ReadsBack U m v.txIdx x.db given

theorem TxSet.readSet (h : vm.TxSet m n db) (hdb : db' = { db with readSet := db'.readSet }) :
    vm.TxSet m n db' := by
  rw [hdb]
  exact ⟨h.isLazy, h.toCodeHash⟩

namespace ReadsBack

variable {given : List (Address × Option AccountInfo)}

theorem readSet (h : vm.ReadsBack U m n db given) (hdb : db' = { db with readSet := db'.readSet }) :
    vm.ReadsBack U m n db' given := by
  rw [hdb]
  exact ⟨h.accounts, h.given⟩

/-- Nothing was asked for yet. -/
theorem nil (h : db.readAccounts = []) : vm.ReadsBack U m n db [] := by
  refine ⟨fun l account codeHash hmem => ?_, fun a info hmem => by cases hmem⟩
  rw [h] at hmem
  cases hmem

/-- An account was asked for and is mocked or missing. -/
theorem cons (h : vm.ReadsBack U m n db given) (haddress : .basic a ∈ U)
    (hgiven : (db.isLazy = true ∧ (a = db.tx.caller ∨ db.tx.kind.recipient = some a)) ∨
      vm.basicAt m n a = .ok none) (info : Option AccountInfo) :
    vm.ReadsBack U m n db ((a, info) :: given) where
  accounts := h.accounts
  given b info' hmem := by
    rcases List.mem_cons.mp hmem with heq | hmem
    · obtain ⟨rfl, -⟩ := Prod.mk.inj heq
      exact ⟨haddress, hgiven.imp_right .inl⟩
    · exact h.given b info' hmem

/-- An account was asked for and is read. -/
theorem read (h : vm.ReadsBack U m n db given) {account : AccountBasic} {codeHash : Option B256}
    (haddress : .basic a ∈ U) (hbasic : vm.basicAt m n a = .ok (some account))
    (hcode : vm.codeHashAt m n a = .ok codeHash) (info : Option AccountInfo) :
    vm.ReadsBack U m n { db with
      readAccounts := (vm.hash (.basic a), (account, codeHash)) :: db.readAccounts }
      ((a, info) :: given) where
  accounts l account' codeHash' hmem := by
    rcases List.mem_cons.mp hmem with heq | hmem
    · obtain ⟨rfl, hpair⟩ := Prod.mk.inj heq
      obtain ⟨rfl, rfl⟩ := Prod.mk.inj hpair
      exact ⟨a, haddress, rfl, hbasic, hcode⟩
    · exact h.accounts l account' codeHash' hmem
  given b info' hmem := by
    rcases List.mem_cons.mp hmem with heq | hmem
    · obtain ⟨rfl, -⟩ := Prod.mk.inj heq
      exact ⟨haddress, .inr (.inr List.mem_cons_self)⟩
    · obtain ⟨hb, hmock | hmissing | hread⟩ := h.given b info' hmem
      · exact ⟨hb, .inl hmock⟩
      · exact ⟨hb, .inr (.inl hmissing)⟩
      · exact ⟨hb, .inr (.inr (List.mem_cons_of_mem _ hread))⟩

end ReadsBack

theorem Started.hashBasic (h : vm.Started v db) : vm.hashBasic db a = vm.hash (.basic a) := by
  unfold Vm.hashBasic
  split_ifs with hcaller hrecipient
  · rw [h.fromHash, hcaller]
  · rw [h.toHash, hrecipient]
    rfl
  · rfl

theorem seen_start : vm.Seen U m v (vm.start v) := by
  unfold start
  cases hkind : (vm.chain.txEnv (vm.txs v.txIdx)).kind with
  | create =>
    refine ⟨⟨⟨nofun, fun h => ?_⟩, fun a ha => ?_⟩, [], .start, .nil rfl⟩
    · obtain ⟨recipient, hrecipient, -⟩ := h
      rw [hkind] at hrecipient
      cases hrecipient
    · rw [show (vm.startDb v).tx.kind = _ from hkind] at ha
      cases ha
  | call recipient =>
    refine ⟨rfl, rfl, ?_⟩
    rw [show (vm.startDb v).tx.kind = _ from hkind]
    rfl

section Step

variable (hU : vm.Separates U) (hv : v.txIdx < vm.blockSize)
include hU hv

/-- The account at the hash of the sender is that of the sender. -/
theorem Started.eq_caller (h : vm.Started v db) (ha : .basic a ∈ U)
    (hfrom : vm.hashBasic db a = db.fromHash) : a = db.tx.caller := by
  rw [h.hashBasic, h.fromHash] at hfrom
  have hcaller : .basic db.tx.caller ∈ U := h.tx ▸ hU.caller _ hv
  exact MemoryLocation.basic.inj (hU.injective ha hcaller hfrom)

/-- The account at the hash of the recipient is that of the recipient. -/
theorem Started.eq_recipient (h : vm.Started v db) (ha : .basic a ∈ U)
    (hto : some (vm.hashBasic db a) = db.toHash) : db.tx.kind.recipient = some a := by
  rw [h.hashBasic, h.toHash] at hto
  obtain ⟨b, hb, hhash⟩ := Option.map_eq_some_iff.mp hto.symm
  have hrecipient : .basic b ∈ U := hU.recipient _ hv b (h.tx ▸ hb)
  rw [hb, MemoryLocation.basic.inj (hU.injective hrecipient ha hhash)]

/-- A step of the execution keeps what it has seen. -/
theorem seen_run {x x' : Execution} (hm : m₁.data = m.data) (hwithin : Within U v x)
    (hdb : vm.Started v x.db) (h : vm.Seen U m v x) (hstep : vm.executeStep v m₁ x = .run x') :
    vm.Seen U m v x' := by
  -- reads of the memory as it is now are reads of the memory at the start
  have hcodeHash : ∀ {db db' a codeHash}, vm.getCodeHash m₁ v.txIdx db a = .ok (db', codeHash) →
      vm.codeHashAt m v.txIdx a = .ok codeHash := fun hget =>
    (codeHashAt_congr hm).symm.trans (codeHashAt_of_getCodeHash hget)
  have hbasic : ∀ {db db' a account}, vm.Started v db →
      vm.readBasic m₁ v.txIdx db a = .ok (db', account) →
      vm.basicAt m v.txIdx a = .ok account := fun hdb hread =>
    (basicAt_congr hm).symm.trans (basicAt_of_readBasic hdb.hashBasic hread)
  cases runStep_of_executeStep hstep with
  | @toCode db db₁ recipient codeHash hget =>
    obtain ⟨hread, hlazy, hrecipient⟩ := h
    have heq := getCodeHash_db hget
    have hfalse : db₁.isLazy = false := by rw [heq]; exact hlazy
    have hempty : db₁.readAccounts = [] := by rw [heq]; exact hread
    have htx : db₁.tx = db.tx := by rw [heq]
    refine ⟨⟨⟨fun h => ?_, fun h => ?_⟩, fun a ha => ?_⟩, [], .start, .nil hempty⟩
    · exact absurd (hfalse.symm.trans h) (by simp)
    · obtain ⟨recipient', hrecipient', hnone, -⟩ := h
      rw [← hdb.tx, show db.tx.kind.recipient = _ from hrecipient] at hrecipient'
      rw [← Option.some.inj hrecipient', hcodeHash hget] at hnone
      cases hnone
    · rw [show db₁.tx.kind.recipient = db.tx.kind.recipient by rw [htx], hrecipient] at ha
      rw [← Option.some.inj ha]
      exact hcodeHash hget
  | @toNoCode db db₁ recipient hget =>
    obtain ⟨hread, hlazy, hrecipient⟩ := h
    have heq := getCodeHash_db hget
    refine ⟨?_, rfl, ⟨recipient, ?_, hcodeHash hget⟩, nofun⟩
    · rw [heq]
      exact hread
    · rw [heq]
      exact hrecipient
  | @containsFrom db hdata =>
    obtain ⟨hread, hto, ⟨recipient, hrecipient, hnone⟩, -⟩ := h
    rw [hdb.fromHash, hdb.tx, hm] at hdata
    refine ⟨⟨⟨fun _ => ?_, fun _ => rfl⟩, fun a ha => ?_⟩, [], .start, .nil hread⟩
    · exact ⟨recipient, hdb.tx ▸ hrecipient, hnone, .inl hdata⟩
    · rw [show db.tx.kind.recipient = _ from hrecipient] at ha
      rw [← Option.some.inj ha, hnone]
      exact congrArg _ hto.symm
  | @notContainsFrom db hdata =>
    obtain ⟨hread, hto, hrecipient, -⟩ := h
    exact ⟨hread, hto, hrecipient, fun _ => hm ▸ hdata⟩
  | @containsTo db =>
    obtain ⟨hread, hto, ⟨recipient, hrecipient, hnone⟩, hfrom⟩ := h
    have htoHash : db.toHash = some (vm.hash (.basic recipient)) := by
      rw [hdb.toHash, show db.tx.kind.recipient = _ from hrecipient]
      rfl
    refine ⟨⟨?_, fun a ha => ?_⟩, [], .start, .nil hread⟩
    · show (db.toHash.any fun location => (m₁.data location).isSome) = true ↔ _
      rw [htoHash, hm]
      constructor
      · exact fun hsome => ⟨recipient, hdb.tx ▸ hrecipient, hnone, .inr hsome⟩
      · rintro ⟨recipient', hrecipient', -, hsome | hsome⟩
        · have hno := hfrom rfl
          rw [hdb.fromHash, hdb.tx] at hno
          exact absurd (hno.symm.trans hsome) (by simp)
        · rw [← hdb.tx, show db.tx.kind.recipient = _ from hrecipient] at hrecipient'
          rw [← Option.some.inj hrecipient'] at hsome
          exact hsome
    · rw [show db.tx.kind.recipient = _ from hrecipient] at ha
      rw [← Option.some.inj ha, hnone]
      exact congrArg _ hto.symm
  | @mockSender db address next hlazy hfrom =>
    obtain ⟨hset, given, hrun, hback⟩ := h
    have haddress := hwithin.2 _ _ rfl
    have hcaller := Started.eq_caller hU hv hdb haddress hfrom
    exact ⟨hset, _, hrun.basic _, hback.cons haddress (.inl ⟨hlazy, .inl hcaller⟩) _⟩
  | @mockRecipient db address next hlazy hfrom hto =>
    obtain ⟨hset, given, hrun, hback⟩ := h
    have haddress := hwithin.2 _ _ rfl
    have hrecipient := Started.eq_recipient hU hv hdb haddress hto
    exact ⟨hset, _, hrun.basic _, hback.cons haddress (.inl ⟨hlazy, .inr hrecipient⟩) _⟩
  | @missing db db₁ address next hreal hread =>
    obtain ⟨hset, given, hrun, hback⟩ := h
    have heq := readBasic_db hread
    have hback₁ := hback.cons (hwithin.2 _ _ rfl) (.inr (hbasic hdb hread)) none
    exact ⟨hset.readSet heq, _, hrun.basic _, hback₁.readSet heq⟩
  | @recipient db db₁ address account next hreal hread hto =>
    obtain ⟨hset, given, hrun, hback⟩ := h
    have heq := readBasic_db hread
    have haddress := hwithin.2 _ _ rfl
    have htoHash : db₁.toHash = db.toHash := by rw [heq]
    have hrecipient := Started.eq_recipient hU hv hdb haddress (hto.trans htoHash)
    have hset₁ := hset.readSet heq
    refine ⟨hset₁, hbasic hdb hread, haddress, hset₁.toCodeHash address ?_, given, hrun,
      hback.readSet heq⟩
    rw [heq]
    exact hrecipient
  | @account db db₁ address account next hreal hread =>
    obtain ⟨hset, given, hrun, hback⟩ := h
    have heq := readBasic_db hread
    exact ⟨hset.readSet heq, hbasic hdb hread, hwithin.2 _ _ rfl, given, hrun, hback.readSet heq⟩
  | codeHash hget =>
    obtain ⟨hset, haccount, haddress, given, hrun, hback⟩ := h
    have heq := getCodeHash_db hget
    exact ⟨hset.readSet heq, haccount, haddress, hcodeHash hget, given, hrun, hback.readSet heq⟩
  | @code db address account codeHash code next hread =>
    obtain ⟨hset, haccount, haddress, hcode, given, hrun, hback⟩ := h
    refine ⟨⟨hset.isLazy, hset.toCodeHash⟩, _, hrun.basic _, ?_⟩
    rw [show vm.hashBasic db address = vm.hash (.basic address) from hdb.hashBasic]
    exact hback.read haddress haccount hcode _
  | codeByHash hread =>
    obtain ⟨hset, given, hrun, hback⟩ := h
    exact ⟨hset, given, hrun.codeByHash _, hback⟩
  | storage hread =>
    obtain ⟨hset, given, hrun, hback⟩ := h
    have heq := readStorage_db hread
    exact ⟨hset.readSet heq, given, hrun.storage _, hback.readSet heq⟩
  | blockHash hread =>
    obtain ⟨hset, given, hrun, hback⟩ := h
    exact ⟨hset, given, hrun.blockHash _, hback⟩
  | finish => exact h
  | lazyWrites hwrites hlazy => exact h
  | fullWrites hwrites hlazy => exact h

end Step

/-! ## Bytecodes -/

/-- The bytecodes after those of a list were registered: an earlier one of the same hash stays. -/
theorem newBytecodes_addNewBytecode {hash : B256} {code : Bytecode} :
    (m.addNewBytecode hash code).newBytecodes =
      fun h => (m.newBytecodes h).or (List.lookup h [(hash, code)]) := by
  funext h
  unfold addNewBytecode
  rw [AssocList.lookup_cons]
  cases hold : m.newBytecodes hash with
  | some code' =>
    show m.newBytecodes h = _
    by_cases heq : h = hash
    · rw [heq, hold]
      rfl
    · simp [heq]
  | none =>
    show Function.update m.newBytecodes hash (some code) h = _
    by_cases heq : h = hash
    · simp [heq, hold]
    · simp [heq]

/-- How far an execution has registered its bytecodes. -/
def Registering (vm : Vm T) (m m₁ : MvMemory) (x : Execution) : Prop :=
  match x.pc with
  | .finish _ state rest => ∃ done, vm.newBytecodes x.db state = done ++ rest ∧
    m₁.newBytecodes = fun h => (m.newBytecodes h).or (done.lookup h)
  | .addLazyAddresses _ state _ | .record _ state _ =>
    m₁.newBytecodes = fun h => (m.newBytecodes h).or ((vm.newBytecodes x.db state).lookup h)
  | _ => m₁.newBytecodes = m.newBytecodes

theorem registering_run {x x' : Execution} (h : vm.Registering m m₁ x)
    (hstep : vm.executeStep v m₁ x = .run x') : vm.Registering m m₁ x' := by
  have hall : ∀ {db result state}, vm.Registering m m₁ ⟨db, .finish result state []⟩ →
      m₁.newBytecodes = fun h => (m.newBytecodes h).or ((vm.newBytecodes db state).lookup h) := by
    rintro db result state ⟨done, hdone, hnew⟩
    rw [hnew, hdone, List.append_nil]
  cases runStep_of_executeStep hstep with
  | finish => exact ⟨[], rfl, Eq.trans h (funext fun _ => by simp)⟩
  | lazyWrites hwrites hlazy => exact hall h
  | fullWrites hwrites hlazy => exact hall h
  | _ => exact h

/-! ## The end of an execution -/

/-- An execution that started on the memory `m`, and the memory as it is now. -/
structure Executing (vm : Vm T) (U : Set MemoryLocation) (v : TxVersion) (m m₁ : MvMemory)
    (x : Execution) : Prop where
  data : m₁.data = m.data
  lastLocations : m₁.lastLocations = m.lastLocations
  holder : m₁.lastLocationsHolder = m.lastLocationsHolder
  known : vm.Known U m₁.lazyAddresses v x
  seen : vm.Seen U m v x
  bytecodes : vm.Registering m m₁ x

theorem executing_start : vm.Executing U v m m (vm.start v) := by
  refine ⟨rfl, rfl, rfl, known_start _ v, seen_start, ?_⟩
  unfold start
  cases (vm.chain.txEnv (vm.txs v.txIdx)).kind <;> exact rfl

theorem Executing.step (hU : vm.Separates U) (hv : v.txIdx < vm.blockSize) {m₂ : MvMemory}
    {x x' : Execution} (h : vm.Executing U v m m₁ x) (hwithin : Within U v x)
    (hstep : vm.executeAlone v m₁ x = some (m₂, .goto x')) : vm.Executing U v m m₂ x' := by
  unfold executeAlone at hstep
  split at hstep
  · next x₁ hrun =>
    cases hstep
    exact ⟨h.data, h.lastLocations, h.holder, known_run hwithin.1 h.known hrun,
      seen_run hU hv h.data hwithin h.known.1 h.seen hrun, registering_run h.bytecodes hrun⟩
  · next hash code x₁ hrun =>
    cases hstep
    have hknown := keeps_known.addNewBytecode hwithin.1 h.known hrun
    obtain ⟨result, state, rest, hpc, rfl⟩ := executeStep_addNewBytecode hrun
    have hseen := h.seen
    have hbytecodes := h.bytecodes
    simp only [Seen, hpc] at hseen
    simp only [Registering, hpc] at hbytecodes
    obtain ⟨done, hdone, hnew⟩ := hbytecodes
    have hframe : (m₁.addNewBytecode hash code).data = m₁.data ∧
        (m₁.addNewBytecode hash code).lastLocations = m₁.lastLocations ∧
        (m₁.addNewBytecode hash code).lastLocationsHolder = m₁.lastLocationsHolder ∧
        (m₁.addNewBytecode hash code).lazyAddresses = m₁.lazyAddresses := by
      unfold addNewBytecode
      split <;> exact ⟨rfl, rfl, rfl, rfl⟩
    obtain ⟨hdata, hlast, hholder, hlazy⟩ := hframe
    refine ⟨hdata.trans h.data, hlast.trans h.lastLocations, hholder.trans h.holder, ?_, hseen,
      done ++ [(hash, code)], ?_, ?_⟩
    · rw [hlazy]
      exact hknown
    · rw [hdone, List.append_assoc]
      rfl
    · rw [newBytecodes_addNewBytecode, hnew]
      funext h
      rw [AssocList.lookup_append, Option.or_assoc]
  · next addresses x₁ hrun =>
    cases hstep
    have hknown := keeps_known.addLazyAddresses hwithin.1 h.known hrun
    obtain ⟨result, state, writes, hpc, rfl, rfl⟩ := executeStep_addLazyAddresses hrun
    have hseen := h.seen
    have hbytecodes := h.bytecodes
    simp only [Seen, hpc] at hseen
    simp only [Registering, hpc] at hbytecodes
    exact ⟨h.data, h.lastLocations, h.holder, hknown, hseen, hbytecodes⟩
  · cases hstep
  · cases hstep

/-- Every execution with nothing interleaved, by induction on its steps. -/
theorem executed (hU : vm.Separates U) (hv : v.txIdx < vm.blockSize) {x : Execution}
    (h : vm.Executes U v m m₁ x) : vm.Executing U v m m₁ x := by
  refine Relation.ReflTransGen.head_induction_on (motive := fun p _ =>
    vm.Executing U v m p.1 p.2 → vm.Executing U v m m₁ x) h id ?_ executing_start
  intro p q hstep _ ih hp
  exact ih (hp.step hU hv hstep.1 hstep.2)

/-- An account that was read is the one a first read returns. -/
theorem ReadsBack.of_lookup (hU : vm.Separates U) {given : List (Address × Option AccountInfo)}
    (h : vm.ReadsBack U m n db given) (ha : .basic a ∈ U) {account : AccountBasic}
    {codeHash : Option B256}
    (hlookup : db.readAccounts.lookup (vm.hash (.basic a)) = some (account, codeHash)) :
    vm.basicAt m n a = .ok (some account) ∧ vm.codeHashAt m n a = .ok codeHash := by
  obtain ⟨b, hb, hhash, hbasic, hcode⟩ :=
    h.accounts _ _ _ (AssocList.mem_of_lookup_eq_some hlookup)
  obtain rfl : a = b := MemoryLocation.basic.inj (hU.injective ha hb hhash)
  exact ⟨hbasic, hcode⟩

/-- revm loads an account from its database before it puts it into the journal. -/
def LoadsJournal (vm : Vm T) (v : TxVersion) : Prop :=
  ∀ given result state, (vm.evm (vm.txs v.txIdx)).Given given (.finish result state) →
    ∀ a ∈ AssocList.keys state, a ∈ AssocList.keys given

/-! ## `record` -/

/-- The rewards of a transaction go to accounts, to all those that `build_mv_memory` marked among
them. -/
structure PaysAccounts (vm : Vm T) (U : Set MemoryLocation) (i : Nat) : Prop where
  account : ∀ gasUsed gasPrice basefee l amount,
    (l, amount) ∈ vm.chain.getRewards vm.hash (vm.hash (.basic vm.blockEnv.beneficiary)) gasUsed
      gasPrice basefee (vm.txs i) → ∃ a, .basic a ∈ U ∧ l = vm.hash (.basic a)
  covers : ∀ concurrencyLevel l, Prefilled (vm.config concurrencyLevel) l i →
    ∀ gasUsed gasPrice basefee, l ∈ AssocList.keys (vm.chain.getRewards vm.hash
      (vm.hash (.basic vm.blockEnv.beneficiary)) gasUsed gasPrice basefee (vm.txs i))

/-- So it is on the chains of this repository. -/
theorem paysAccounts_of_source {isEip161Enabled : Bool}
    (hsource : SourceChain vm.chain isEip161Enabled) (hU : vm.Separates U) (i : Nat) :
    vm.PaysAccounts U i where
  account gasUsed gasPrice basefee l amount hmem := by
    obtain ⟨a, ha, hl⟩ := mem_getRewards hsource hmem
    exact ⟨a, hU.fees a ha, hl⟩
  covers _ _ hl := mem_keys_getRewards hsource hl

/-- After `record` the write set is all that is left of the transaction: it covers the ESTIMATEs of
the initial memory, as every one of them is for a reward. -/
theorem replaced_of_record (hpays : vm.PaysAccounts U v.txIdx) {w : WorkerId} {concurrencyLevel : Nat}
    {result : ExecutionResult} {state : EvmState} {writes : WriteSet} {wrote : Bool}
    (hrun : vm.Executing U v m m₁ ⟨db, .record result state writes⟩)
    (hfree : m.lastLocationsHolder v.txIdx = none)
    (hreg : Registered (vm.config concurrencyLevel).estimatedLocations
      (vm.config concurrencyLevel).lazyAddresses m v.txIdx)
    (hrecord : Completes (fun m pc => m.recordStep w v db.readSet writes pc) m₁ .lock m' wrote) :
    Replaced v db.readSet writes m₁ m' := by
  have hwrites : vm.writeSet db (vm.txs v.txIdx) result state = .ok writes := hrun.known.2.1.writes
  have hcovers : ∀ l, Prefilled (vm.config concurrencyLevel) l v.txIdx →
      l ∈ AssocList.keys writes := by
    intro l hl
    have hrule := rewards_rule (G := fun _ _ => True) hwrites (fun _ _ _ => trivial)
      (fun _ _ _ _ _ _ => trivial) (fun _ _ _ _ => trivial)
    exact hrule.2.1 (hpays.covers _ l hl _ _ _)
  have hreg₁ : Registered (vm.config concurrencyLevel).estimatedLocations
      (vm.config concurrencyLevel).lazyAddresses m₁ v.txIdx := by
    refine ⟨?_, fun l hl => ?_, fun l e he hl => ?_⟩
    · rw [hrun.lastLocations]
      exact hreg.nodup
    · rw [hrun.lastLocations] at hl
      rw [entry_congr _ _ hrun.data]
      exact hreg.holds l hl
    · rw [hrun.lastLocations] at hl
      rw [entry_congr _ _ hrun.data] at he
      exact hreg.outside l e he hl
  exact replaced_of_completes (hrun.holder ▸ hfree) hreg₁ hcovers hrecord

/-- What the next transaction finds at a location. -/
theorem entriesBelow_of_replaced {writes : WriteSet} (hdata : m₁.data = m.data)
    (h : Replaced v db.readSet writes m₁ m') (l : MemoryLocationHash) :
    m'.entriesBelow l (v.txIdx + 1) =
      ((AssocList.lookupLast writes l).map fun value =>
        (v.txIdx, MemoryEntry.data v.txIncarnation value)).toList ++ m.entriesBelow l v.txIdx := by
  have hbelow : m'.entriesBelow l v.txIdx = m.entriesBelow l v.txIdx := by
    apply entriesBelow_congr
    intro j hj
    rw [h.entry_other l j (by omega), entry_congr _ _ hdata]
  rw [entriesBelow_eq, WriteHistory.below, h.entry l, ← entriesBelow_eq, hbelow]
  cases AssocList.lookupLast writes l <;> rfl

end Vm

namespace Sample

/-- The accounts that an execution asks for and the locations that it writes are among these. -/
def within (locations : List MemoryLocation) (x : Vm.Execution) : Bool :=
  match x.pc with
  | .run (.basic address _) => decide (.basic address ∈ locations)
  | .finish _ state [] =>
    state.all fun p => decide (.basic p.1 ∈ locations) && decide (.codeHash p.1 ∈ locations) &&
      p.2.storage.all fun q => decide (.storage p.1 q.1 ∈ locations)
  | _ => true

theorem within_sound {locations : List MemoryLocation} {v : TxVersion} {x : Vm.Execution}
    (h : within locations x = true) : Vm.Within { l | l ∈ locations } v x := by
  obtain ⟨db, pc⟩ := x
  constructor
  · rintro result state rfl l ⟨p, hp, hl⟩
    simp only [within, List.all_eq_true, Bool.and_eq_true, decide_eq_true_eq] at h
    obtain ⟨⟨hbasic, hcode⟩, hstorage⟩ := h p hp
    rcases hl with rfl | rfl | ⟨q, hq, rfl⟩
    · exact hbasic
    · exact hcode
    · exact hstorage q hq
  · rintro address next rfl
    simpa [within] using h

/-- An execution for a number of steps, with nothing interleaved. -/
def executeFor {T : Type} (vm : Vm T) (v : TxVersion) (locations : List MemoryLocation) :
    Nat → MvMemory → Vm.Execution → Option (MvMemory × Vm.Execution)
  | 0, m, x => some (m, x)
  | k + 1, m, x =>
    if within locations x then
      match vm.executeAlone v m x with
      | some (m', .goto x') => executeFor vm v locations k m' x'
      | _ => none
    else none

theorem executes_of_executeFor {T : Type} {vm : Vm T} {v : TxVersion}
    {locations : List MemoryLocation} {k : Nat} {m m' : MvMemory} {x x' : Vm.Execution}
    (h : executeFor vm v locations k m x = some (m', x')) :
    Relation.ReflTransGen (fun p q : MvMemory × Vm.Execution =>
      Vm.Within { l | l ∈ locations } v p.2 ∧ vm.executeAlone v p.1 p.2 = some (q.1, .goto q.2))
      (m, x) (m', x') := by
  induction k generalizing m x with
  | zero =>
    obtain ⟨rfl, rfl⟩ : m = m' ∧ x = x' := by simpa [executeFor] using h
    exact .refl
  | succ k ih =>
    unfold executeFor at h
    split at h
    · next hwithin =>
      split at h
      · next m₁ x₁ hstep => exact .head ⟨within_sound hwithin, hstep⟩ (ih h)
      · cases h
    · cases h

/-- The run of a transaction that asks for some accounts and ends. -/
def loadAll (finish : List (Address × Option AccountInfo) → ExecutionResult × EvmState) :
    List Address → List (Address × Option AccountInfo) → EvmProgram
  | [], given => .finish (finish given).1 (finish given).2
  | a :: rest, given => .basic a fun info => loadAll finish rest ((a, info) :: given)

theorem given_loadAll {finish : List (Address × Option AccountInfo) → ExecutionResult × EvmState}
    {addresses : List Address} {given : List (Address × Option AccountInfo)} {program : EvmProgram}
    (h : (loadAll finish addresses []).Given given program) :
    ∃ rest, program = loadAll finish rest given ∧
      addresses = (AssocList.keys given).reverse ++ rest := by
  induction h with
  | start => exact ⟨addresses, rfl, rfl⟩
  | @basic given address next _ info ih =>
    obtain ⟨rest, hprogram, haddresses⟩ := ih
    cases rest with
    | nil => cases hprogram
    | cons a rest =>
      cases hprogram
      exact ⟨rest, rfl, by simp [haddresses]⟩
  | codeByHash _ _ ih | storage _ _ ih | blockHash _ _ ih =>
    obtain ⟨rest, hprogram, -⟩ := ih
    cases rest <;> cases hprogram

/-- Such a run loads what it puts into the journal. -/
theorem loadsJournal_of_loadAll {T : Type} {vm : Vm T} {v : TxVersion} {addresses : List Address}
    {finish : List (Address × Option AccountInfo) → ExecutionResult × EvmState}
    (hevm : vm.evm (vm.txs v.txIdx) = loadAll finish addresses [])
    (hfinish : ∀ given, AssocList.keys (finish given).2 = AssocList.keys given) :
    vm.LoadsJournal v := by
  intro given result state hgiven a ha
  rw [hevm] at hgiven
  obtain ⟨rest, hprogram, -⟩ := given_loadAll hgiven
  cases rest with
  | nil =>
    cases hprogram
    rwa [hfinish] at ha
  | cons b rest => cases hprogram

end Sample

end Pevm
