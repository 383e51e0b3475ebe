import Pevm.Proofs.Serial

/-!
# Blocks without lazy transactions

A transaction that creates a contract or calls an account with code is not lazy, whatever the
multi-version memory is when `set_tx` runs. This file has what is known of the executions of a block
of such transactions:

* **`Steady`**: an execution keeps a single origin for each code hash and slot, and reads from the
  storage only when nothing is below it.
* **`CodesKnown`**: a code hash that an execution can come across belongs to a code that can be read,
  because the bytecodes of a transaction are registered before its write set is recorded. The code
  that is read is so the one that the hash stands for.
-/

namespace Pevm

open Interleaving Scheduler MvMemory

namespace Vm

variable {T : Type} {vm : Vm T} {U : Set MemoryLocation} {codes : B256 → Bytecode} {v : TxVersion}
  {m : MvMemory} {db db' : VmDb} {x x' : Execution}

/-- A block of transactions that are not lazy. `codes` is the code of each code hash. -/
structure FullBlock (vm : Vm T) (U : Set MemoryLocation) (codes : B256 → Bytecode) : Prop where
  separates : vm.Separates U
  /-- every call is one of an account with code in the storage -/
  callsCode : ∀ i, i < vm.blockSize → ∀ recipient,
    (vm.chain.txEnv (vm.txs i)).kind.recipient = some recipient →
      vm.storage.codeHash recipient ≠ .ok none
  /-- the code of an account of the storage is in the storage -/
  codesStored : ∀ address hash, vm.storage.codeHash address = .ok (some hash) →
    ∀ code, vm.storage.codeByHash hash = .ok code → code = some (codes hash)

/-- What is assumed of the executions of a run: what they read and write is in `U`, their journals
are maps, and a new code comes with its bytecode. -/
structure Plain (vm : Vm T) (U : Set MemoryLocation) (codes : B256 → Bytecode) (v : TxVersion)
    (x : Execution) : Prop extends Confined U v x where
  slot : ∀ address index next, x.pc = .run (.storage address index next) →
    .storage address index ∈ U
  slots : ∀ result state, x.pc = .finish result state [] →
    ∀ p ∈ state, (AssocList.keys p.2.storage).Nodup
  bytecodes : ∀ result state, x.pc = .run (.finish result state) → ∀ p ∈ state,
    p.2.isTouched = true → p.2.isSelfdestructed = false → vm.isNewCode x.db p.1 p.2 = true →
      p.2.info.code = some (codes p.2.info.codeHash)

/-! ## Steady executions -/

/-- Single origins at the code hashes and slots, and storage origins only for the first
transaction. -/
structure PlainOrigins (vm : Vm T) (U : Set MemoryLocation) (v : TxVersion) (readSet : ReadSet) :
    Prop where
  single : ∀ location ∈ U, (∀ a, location ≠ .basic a) →
    (readSet.origins (vm.hash location)).length ≤ 1
  first : v.txIdx = 0 → ∀ l, readSet.origins l = [] ∨ readSet.origins l = [.storage]

theorem PlainOrigins.readBasic (hU : vm.Separates U) (h : vm.PlainOrigins U v db.readSet)
    (hdb : vm.Started v db) {a : Address} (ha : .basic a ∈ U) {account : Option AccountBasic}
    (hread : vm.readBasic m v.txIdx db a = .ok (db', account)) :
    vm.PlainOrigins U v db'.readSet where
  single location hlocation hne := by
    rw [(records_of_readBasic hread).other _ fun heq => ?_]
    · exact h.single location hlocation hne
    · have hhash : vm.hash (.basic a) = vm.hash location := by
        rw [← hdb.hashBasic]
        exact Option.some.inj heq
      exact hne a (hU.injective ha hlocation hhash).symm
  first hzero l := by
    obtain ⟨eval, eval', hwalk, hfall, rfl, -⟩ := readBasic_eq_ok_iff.mp hread
    rw [hzero, entriesBelow_zero] at hwalk
    cases hwalk
    rw [origins_registered]
    split_ifs
    · right
      rw [(fallBackToStorage_eq_ok hfall).1]
      rfl
    · exact h.first hzero l

theorem PlainOrigins.readSource {α : Type}
    {source : List (Nat × MemoryEntry) → Except ReadError (ReadOrigin × α)} {l : MemoryLocationHash}
    {r : α} (hsource : IsSource source) (h : vm.PlainOrigins U v db.readSet)
    (hread : readSource source m v.txIdx db l (db', r)) : vm.PlainOrigins U v db'.readSet where
  single location hlocation hne := single_readSource hread (h.single location hlocation hne)
  first hzero l' := by
    obtain ⟨origin, origins, hfound, hpush, hdb⟩ := hread
    rw [hzero, entriesBelow_zero] at hfound
    have horigin : origin = .storage := by
      rcases hsource hfound with ⟨_, _, _, -, hnil, -⟩ | ⟨heq, -⟩
      · cases hnil
      · exact heq
    subst horigin
    rw [show db' = _ from hdb, ReadSet.origins_insert]
    split_ifs
    · right
      rcases h.first hzero l with hl | hl <;> rw [hl] at hpush <;> exact (Except.ok.inj hpush).symm
    · exact h.first hzero l'

/-- An execution of a transaction that is not lazy. -/
structure Steady (vm : Vm T) (U : Set MemoryLocation) (v : TxVersion) (x : Execution) : Prop where
  full : IsFull x
  hasNonce : x.db.hasNonce = vm.chain.hasNonce (vm.txs v.txIdx)
  origins : vm.PlainOrigins U v x.db.readSet
  setTx : ∀ recipient, x.pc = .toCodeHash recipient → x.db.tx.kind.recipient = some recipient
  reading : ∀ address account next, x.pc = .basicCodeHash address account next →
    .codeHash address ∈ U
  nodup : ∀ result state writes, x.pc = .record result state writes →
    (AssocList.keys writes).Nodup

theorem steady_start : vm.Steady U v (vm.start v) := by
  have horigins : vm.PlainOrigins U v (vm.start v).db.readSet :=
    ⟨fun _ _ _ => Nat.zero_le 1, fun _ _ => .inl rfl⟩
  cases hkind : (vm.chain.txEnv (vm.txs v.txIdx)).kind with
  | create =>
    have hpc : (vm.start v).pc = .run (vm.evm (vm.txs v.txIdx)) := by
      unfold start
      rw [hkind]
    refine ⟨⟨rfl, by rw [hpc]; trivial⟩, rfl, horigins, ?_, ?_, ?_⟩
    all_goals simp [hpc]
  | call recipient =>
    have hpc : (vm.start v).pc = .toCodeHash recipient := by
      unfold start
      rw [hkind]
    refine ⟨⟨rfl, by rw [hpc]; trivial⟩, rfl, horigins, fun a ha => ?_, ?_, ?_⟩
    · rw [hpc] at ha
      obtain rfl := ExecutePc.toCodeHash.inj ha
      show (vm.chain.txEnv (vm.txs v.txIdx)).kind.recipient = _
      rw [hkind]
      rfl
    all_goals simp [hpc]

/-- The execution goes on, and does not come to a program counter of which more is to be known. -/
theorem Steady.goto {pc : ExecutePc} (h : vm.Steady U v x) (hlazy : db'.isLazy = x.db.isLazy)
    (hnonce : db'.hasNonce = x.db.hasNonce) (horigins : vm.PlainOrigins U v db'.readSet)
    (hfull : IsFull ⟨x.db, pc⟩) (hset : ∀ recipient, pc ≠ .toCodeHash recipient)
    (hreading : ∀ address account next, pc = .basicCodeHash address account next →
      .codeHash address ∈ U)
    (hrecord : ∀ result state writes, pc ≠ .record result state writes) :
    vm.Steady U v ⟨db', pc⟩ where
  full := ⟨hlazy.trans h.full.1, hfull.2⟩
  hasNonce := hnonce.trans h.hasNonce
  origins := horigins
  setTx recipient heq := absurd heq (hset recipient)
  reading := hreading
  nodup _ _ _ heq := absurd heq (hrecord _ _ _)

/-- The recipient of a call has code. -/
theorem FullBlock.getCodeHash_ne_none (hB : vm.FullBlock U codes) {i : Nat} (hi : i < vm.blockSize)
    {recipient : Address} (hrecipient : (vm.chain.txEnv (vm.txs i)).kind.recipient = some recipient)
    : vm.getCodeHash m i db recipient ≠ .ok (db', none) := by
  intro hget
  obtain ⟨origin, origins, hsource, -, -⟩ := getCodeHash_eq_ok_iff.mp hget
  have hstorage : ∀ {o : ReadOrigin} {codeHash : Option B256},
      ((vm.storage.codeHash recipient).mapError ReadError.storageError).map
        (fun h => (ReadOrigin.storage, h)) = .ok (o, codeHash) → codeHash ≠ none := by
    rintro o codeHash heq rfl
    obtain ⟨codeHash', hcode, hpair⟩ := map_eq_ok.mp heq
    obtain ⟨-, rfl⟩ := Prod.mk.inj hpair
    exact hB.callsCode i hi recipient hrecipient (mapError_eq_ok.mp hcode)
  unfold codeHashSource at hsource
  split at hsource
  · cases hsource
  · cases hsource
  · exact hstorage hsource rfl

theorem steady_run (hB : vm.FullBlock U codes) (hv : v.txIdx < vm.blockSize)
    (hC : vm.Plain U codes v x) (hdb : vm.Started v x.db) (h : vm.Steady U v x)
    (hstep : vm.RunStep v m x x') : vm.Steady U v x' := by
  have hsame : ∀ {db₁ : VmDb}, db₁ = { x.db with readSet := db₁.readSet } →
      db₁.isLazy = x.db.isLazy ∧ db₁.hasNonce = x.db.hasNonce := by
    intro db₁ heq
    rw [heq]
    exact ⟨rfl, rfl⟩
  cases hstep with
  | @toCode db db₁ recipient codeHash hget =>
    obtain ⟨hlazy, hnonce⟩ := hsame (getCodeHash_db hget)
    have horigins : vm.PlainOrigins U v db₁.readSet :=
      h.origins.readSource isSource_codeHashSource (getCodeHash_eq_ok_iff.mp hget)
    exact h.goto hlazy hnonce horigins ⟨h.full.1, trivial⟩ nofun nofun nofun
  | @toNoCode db db₁ recipient hget =>
    have hrecipient := h.setTx recipient rfl
    rw [hdb.tx] at hrecipient
    exact absurd hget (hB.getCodeHash_ne_none hv hrecipient)
  | containsFrom hdata => exact h.full.2.elim
  | notContainsFrom hdata => exact h.full.2.elim
  | containsTo => exact h.full.2.elim
  | mockSender hlazy hfrom => exact absurd (h.full.1.symm.trans hlazy) nofun
  | mockRecipient hlazy hfrom hto => exact absurd (h.full.1.symm.trans hlazy) nofun
  | @missing db db₁ address next hreal hread =>
    obtain ⟨hlazy, hnonce⟩ := hsame (readBasic_db hread)
    exact h.goto hlazy hnonce (h.origins.readBasic hB.separates hdb (hC.within.2 _ _ rfl) hread)
      ⟨h.full.1, trivial⟩ nofun nofun nofun
  | @recipient db db₁ address account next hreal hread hto =>
    obtain ⟨hlazy, hnonce⟩ := hsame (readBasic_db hread)
    exact h.goto hlazy hnonce (h.origins.readBasic hB.separates hdb (hC.within.2 _ _ rfl) hread)
      ⟨h.full.1, trivial⟩ nofun nofun nofun
  | @account db db₁ address account next hreal hread =>
    obtain ⟨hlazy, hnonce⟩ := hsame (readBasic_db hread)
    refine h.goto hlazy hnonce (h.origins.readBasic hB.separates hdb (hC.within.2 _ _ rfl) hread)
      ⟨h.full.1, trivial⟩ nofun (fun a b c heq => ?_) nofun
    obtain ⟨rfl, -, -⟩ := ExecutePc.basicCodeHash.inj heq
    exact hC.codeHash _ _ rfl
  | @codeHash db db₁ address account codeHash next hget =>
    obtain ⟨hlazy, hnonce⟩ := hsame (getCodeHash_db hget)
    exact h.goto hlazy hnonce (h.origins.readSource isSource_codeHashSource
      (getCodeHash_eq_ok_iff.mp hget)) ⟨h.full.1, trivial⟩ nofun nofun nofun
  | code hread => exact h.goto rfl rfl h.origins ⟨h.full.1, trivial⟩ nofun nofun nofun
  | codeByHash hread => exact h.goto rfl rfl h.origins ⟨h.full.1, trivial⟩ nofun nofun nofun
  | @storage db db₁ address index value next hread =>
    obtain ⟨hlazy, hnonce⟩ := hsame (readStorage_db hread)
    exact h.goto hlazy hnonce (h.origins.readSource isSource_storageSource
      (readStorage_eq_ok_iff.mp hread)) ⟨h.full.1, trivial⟩ nofun nofun nofun
  | blockHash hread => exact h.goto rfl rfl h.origins ⟨h.full.1, trivial⟩ nofun nofun nofun
  | finish => exact h.goto rfl rfl h.origins ⟨h.full.1, trivial⟩ nofun nofun nofun
  | lazyWrites hwrites hlazy => exact absurd (h.full.1.symm.trans hlazy) nofun
  | @fullWrites db result state writes hwrites hlazy =>
    refine ⟨⟨h.full.1, trivial⟩, h.hasNonce, h.origins, nofun, nofun, fun _ _ _ heq => ?_⟩
    obtain ⟨-, -, rfl⟩ := ExecutePc.record.inj heq
    exact (lookup_addRewards (nodup_journalWrites hB.separates (hC.within.1 _ _ rfl)
      (hC.journal _ _ rfl) (hC.slots _ _ rfl)) hwrites).1

/-- What a steady execution records has no location twice. -/
theorem keeps_steady (hB : vm.FullBlock U codes) : vm.executor.Keeps (vm.Plain U codes)
    (fun lazyAddresses v x => vm.Known U lazyAddresses v x ∧
      (v.txIdx < vm.blockSize → vm.Steady U v x))
    (fun _ v writes _ => v.txIdx < vm.blockSize → (AssocList.keys writes).Nodup) where
  start lazyAddresses v := ⟨known_start lazyAddresses v, fun _ => steady_start⟩
  mono hsub h := ⟨keeps_known.mono hsub h.1, h.2⟩
  monoRecord _ h := h
  run hC h hstep := ⟨known_run hC.within.1 h.1 hstep, fun hv =>
    steady_run hB hv hC h.1.1 (h.2 hv) (runStep_of_executeStep hstep)⟩
  addNewBytecode hC h hstep := by
    refine ⟨keeps_known.addNewBytecode hC.within.1 h.1 hstep, fun hv => ?_⟩
    obtain ⟨result, state, rest, hpc, rfl⟩ := executeStep_addNewBytecode hstep
    exact (h.2 hv).goto rfl rfl (h.2 hv).origins ⟨(h.2 hv).full.1, trivial⟩ nofun nofun nofun
  addLazyAddresses hC h hstep := by
    refine ⟨keeps_known.addLazyAddresses hC.within.1 h.1 hstep, fun hv => ?_⟩
    obtain ⟨result, state, writes, hpc, -, rfl⟩ := executeStep_addLazyAddresses hstep
    have hfull := (h.2 hv).full.2
    rw [hpc] at hfull
    exact hfull.elim
  record _ h hstep hv := by
    obtain ⟨result, state, hpc, -⟩ := executeStep_record hstep
    exact (h.2 hv).nodup _ _ _ hpc

/-! ## Codes -/

/-- The code of a hash can be read, and is the one that the hash stands for. -/
def Available (vm : Vm T) (codes : B256 → Bytecode) (m : MvMemory) (hash : B256) : Prop :=
  m.newBytecodes hash ≠ none ∨
    ∀ code, vm.storage.codeByHash hash = .ok code → code = some (codes hash)

/-- The code hashes that an execution has come across are available. -/
def CodesSeen (vm : Vm T) (codes : B256 → Bytecode) (m : MvMemory) (x : Execution) : Prop :=
  (∀ hash, x.db.toCodeHash = some hash → vm.Available codes m hash) ∧
    match x.pc with
    | .basicCode _ _ codeHash _ => ∀ hash, codeHash = some hash → vm.Available codes m hash
    | .finish _ state bytecodes => (∀ p ∈ bytecodes, p.2 = codes p.1) ∧
        ∀ p ∈ state, p.2.isTouched = true → p.2.isSelfdestructed = false →
          vm.isNewCode x.db p.1 p.2 = true →
            m.newBytecodes p.2.info.codeHash ≠ none ∨ p.2.info.codeHash ∈ AssocList.keys bytecodes
    | .record _ _ writes => ∀ l hash, (l, .codeHash hash) ∈ writes → m.newBytecodes hash ≠ none
    | _ => True

/-- The bytecodes registered in the memory are those of their hashes, and every code hash in it has
one. -/
structure CodeMemory (codes : B256 → Bytecode) (m : MvMemory) : Prop where
  registered : ∀ hash code, m.newBytecodes hash = some code → code = codes hash
  entries : ∀ l i k hash, m.entry l i = some (.data k (.codeHash hash)) → m.newBytecodes hash ≠ none

theorem Available.mono {m' : MvMemory} {hash : B256}
    (hgrows : ∀ h, m.newBytecodes h ≠ none → m'.newBytecodes h ≠ none)
    (h : vm.Available codes m hash) : vm.Available codes m' hash :=
  h.imp_left (hgrows hash)

theorem CodesSeen.mono {m' : MvMemory}
    (hgrows : ∀ h, m.newBytecodes h ≠ none → m'.newBytecodes h ≠ none)
    (h : vm.CodesSeen codes m x) : vm.CodesSeen codes m' x := by
  obtain ⟨hto, hpc⟩ := h
  refine ⟨fun hash heq => (hto hash heq).mono hgrows, ?_⟩
  split
  · next heq =>
    rw [heq] at hpc
    exact fun hash hhash => (hpc hash hhash).mono hgrows
  · next heq =>
    rw [heq] at hpc
    exact ⟨hpc.1, fun p hp ht ha hn => (hpc.2 p hp ht ha hn).imp_left (hgrows _)⟩
  · next heq =>
    rw [heq] at hpc
    exact fun l hash hmem => hgrows hash (hpc l hash hmem)
  · trivial

/-- The code that is read is the one that its hash stands for. -/
theorem CodeMemory.readCode (hm : CodeMemory codes m) {codeHash : Option B256}
    {code : Option Bytecode} (havailable : ∀ hash, codeHash = some hash → vm.Available codes m hash)
    (h : vm.readCode m codeHash = .ok code) : code = codeHash.map codes := by
  cases codeHash with
  | none => exact (Except.ok.inj h).symm
  | some hash =>
    unfold Vm.readCode at h
    cases hnew : m.newBytecodes hash with
    | some code' =>
      simp only [hnew] at h
      rw [← Except.ok.inj h, hm.registered hash code' hnew]
      rfl
    | none =>
      simp only [hnew] at h
      exact ((havailable hash rfl).resolve_left (not_not_intro hnew)) _ (mapError_eq_ok.mp h)

/-- A code hash that is read is available. -/
theorem CodeMemory.getCodeHash (hB : vm.FullBlock U codes) (hm : CodeMemory codes m) {i : Nat}
    {a : Address} {hash : B256} (h : vm.getCodeHash m i db a = .ok (db', some hash)) :
    vm.Available codes m hash := by
  obtain ⟨origin, origins, hsource, -, -⟩ := getCodeHash_eq_ok_iff.mp h
  cases origin with
  | mvMemory u =>
    obtain ⟨hash', rest, hentries⟩ := codeHashSource_mvMemory hsource
    rw [hentries] at hsource
    obtain rfl : hash' = hash := by simpa [codeHashSource] using hsource
    rw [entriesBelow_eq] at hentries
    exact .inl (hm.entries _ _ _ _ (WriteHistory.eq_of_mem_below (hentries ▸ List.mem_cons_self)))
  | storage =>
    have hstorage := (isSource_codeHashSource hsource).resolve_left
      fun ⟨_, _, _, hmv, _⟩ => by cases hmv
    obtain ⟨codeHash, hcode, hpair⟩ := map_eq_ok.mp hstorage.2
    obtain ⟨-, rfl⟩ := Prod.mk.inj hpair
    exact .inr (hB.codesStored a hash (mapError_eq_ok.mp hcode))

/-- A code hash is written for a new code of the journal. -/
theorem newCode_of_mem {result : ExecutionResult} {state : EvmState} {writes : WriteSet}
    {l : MemoryLocationHash} {hash : B256} {tx : T}
    (h : vm.writeSet db tx result state = .ok writes) (hmem : (l, .codeHash hash) ∈ writes) :
    ∃ p ∈ state, p.2.isTouched = true ∧ p.2.isSelfdestructed = false ∧
      vm.isNewCode db p.1 p.2 = true ∧ p.2.info.codeHash = hash := by
  -- what is not a balance is written by the accounts of the journal
  have hjournal := (rewards_rule (G := fun l value => value.isBasic = true ∨ (l, value) ∈
      state.flatMap fun p => vm.accountWrites db p.1 p.2) h
    (fun l value hmem => .inr hmem) (fun l amount value _ _ _ => .inl isBasic_credit)
    (fun l amount _ _ => .inl rfl)).2.2 l _ hmem
  obtain ⟨p, hp, hwrite⟩ := List.mem_flatMap.mp (hjournal.resolve_left (by simp [MemoryValue.isBasic]))
  refine ⟨p, hp, ?_⟩
  unfold accountWrites at hwrite
  split_ifs at hwrite with hself htouched hnew
  · simp at hwrite
  · -- a touched account with a new code
    rcases List.mem_append.mp hwrite with hwrite | hwrite
    · rcases List.mem_append.mp hwrite with hwrite | hwrite
      · unfold basicWrites at hwrite
        simp only at hwrite
        split_ifs at hwrite <;> simp at hwrite
      · obtain ⟨-, hvalue⟩ := Prod.mk.inj (List.mem_singleton.mp hwrite)
        exact ⟨htouched, Bool.not_eq_true _ ▸ hself, hnew, (MemoryValue.codeHash.inj hvalue).symm⟩
    · obtain ⟨q, -, heq⟩ := List.mem_map.mp hwrite
      cases (Prod.mk.inj heq).2
  · rcases List.mem_append.mp hwrite with hwrite | hwrite
    · rcases List.mem_append.mp hwrite with hwrite | hwrite
      · unfold basicWrites at hwrite
        simp only at hwrite
        split_ifs at hwrite <;> simp at hwrite
      · cases hwrite
    · obtain ⟨q, -, heq⟩ := List.mem_map.mp hwrite
      cases (Prod.mk.inj heq).2
  · rcases List.mem_append.mp hwrite with hwrite | hwrite
    · cases hwrite
    · obtain ⟨q, -, heq⟩ := List.mem_map.mp hwrite
      cases (Prod.mk.inj heq).2

theorem codesSeen_start : vm.CodesSeen codes m (vm.start v) := by
  refine ⟨nofun, ?_⟩
  unfold start
  cases (vm.chain.txEnv (vm.txs v.txIdx)).kind <;> trivial

theorem codesSeen_run (hB : vm.FullBlock U codes) (hC : vm.Plain U codes v x)
    (hm : CodeMemory codes m) (h : vm.CodesSeen codes m x) (hstep : vm.RunStep v m x x') :
    vm.CodesSeen codes m x' := by
  have hsame : ∀ {db₁ : VmDb}, db₁ = { x.db with readSet := db₁.readSet } →
      ∀ hash, db₁.toCodeHash = some hash → vm.Available codes m hash := by
    intro db₁ heq hash hhash
    rw [heq] at hhash
    exact h.1 hash hhash
  cases hstep with
  | toCode hget =>
    refine ⟨fun hash heq => ?_, trivial⟩
    obtain rfl := Option.some.inj heq
    exact hm.getCodeHash hB hget
  | toNoCode hget => exact ⟨nofun, trivial⟩
  | containsFrom hdata => exact ⟨h.1, trivial⟩
  | notContainsFrom hdata => exact ⟨h.1, trivial⟩
  | containsTo => exact ⟨h.1, trivial⟩
  | mockSender hlazy hfrom => exact ⟨h.1, trivial⟩
  | mockRecipient hlazy hfrom hto => exact ⟨h.1, trivial⟩
  | missing hreal hread => exact ⟨hsame (readBasic_db hread), trivial⟩
  | recipient hreal hread hto =>
    exact ⟨hsame (readBasic_db hread), hsame (readBasic_db hread)⟩
  | account hreal hread => exact ⟨hsame (readBasic_db hread), trivial⟩
  | codeHash hget =>
    refine ⟨hsame (getCodeHash_db hget), fun hash heq => ?_⟩
    subst heq
    exact hm.getCodeHash hB hget
  | code hread => exact ⟨h.1, trivial⟩
  | codeByHash hread => exact ⟨h.1, trivial⟩
  | storage hread => exact ⟨hsame (readStorage_db hread), trivial⟩
  | blockHash hread => exact ⟨h.1, trivial⟩
  | @finish db result state =>
    have hlisted : ∀ p ∈ state, p.2.isTouched = true → p.2.isSelfdestructed = false →
        vm.isNewCode db p.1 p.2 = true →
        (p.2.info.codeHash, codes p.2.info.codeHash) ∈ vm.newBytecodes db state := by
      intro p hp htouched halive hnew
      refine List.mem_filterMap.mpr ⟨p, hp, ?_⟩
      simp [htouched, halive, hnew, hC.bytecodes _ _ rfl p hp htouched halive hnew]
    refine ⟨h.1, fun p hp => ?_, fun p hp htouched halive hnew =>
      .inr (List.mem_map_of_mem (hlisted p hp htouched halive hnew))⟩
    obtain ⟨⟨a, account⟩, hmem, heq⟩ := List.mem_filterMap.mp hp
    simp only at heq
    split at heq
    · next hnew =>
      simp only [Bool.and_eq_true, Bool.not_eq_true'] at hnew
      rw [hC.bytecodes _ _ rfl _ hmem hnew.1.2 hnew.1.1 hnew.2] at heq
      obtain rfl := Option.some.inj heq
      rfl
    · cases heq
  | lazyWrites hwrites hlazy => exact ⟨h.1, trivial⟩
  | fullWrites hwrites hlazy =>
    refine ⟨h.1, fun l hash hmem => ?_⟩
    obtain ⟨p, hp, htouched, halive, hnew, rfl⟩ := newCode_of_mem hwrites hmem
    exact (h.2.2 p hp htouched halive hnew).resolve_right nofun

end Vm

section Run

variable {X R E : Type} {cfg : Config X R E} {w : WorkerId} {s s' : System X R E}

/-- Bytecodes are registered by executions only. -/
theorem Step.newBytecodes (h : Step cfg w s s') :
    s'.mvMemory.newBytecodes = s.mvMemory.newBytecodes ∨ ∃ v x x' hash code,
      s.pc w = .execute v x ∧ s'.pc w = .execute v x' ∧
      cfg.executor.step v s.mvMemory x = .addNewBytecode hash code x' ∧
      s'.mvMemory = s.mvMemory.addNewBytecode hash code := by
  rcases h with h | h | h | h | h <;> cases h
  case execute.addNewBytecode v x x' hash code hpc hx =>
    exact .inr ⟨v, x, x', hash, code, hpc, Function.update_self .., hx, rfl⟩
  all_goals exact .inl rfl

/-- A bytecode stays registered. -/
theorem Step.newBytecodes_mono (h : Step cfg w s s') {hash : B256}
    (hhash : s.mvMemory.newBytecodes hash ≠ none) : s'.mvMemory.newBytecodes hash ≠ none := by
  rcases h.newBytecodes with heq | ⟨v, x, x', hash', code, -, -, -, hm⟩
  · rwa [heq]
  · rw [hm, Vm.newBytecodes_addNewBytecode]
    simp [hhash]

theorem Step.memory_addNewBytecode (h : Step cfg w s s') {v : TxVersion} {x x' : X} {hash : B256}
    {code : Bytecode} (hpc : s.pc w = .execute v x) (hpc' : s'.pc w = .execute v x')
    (hx : cfg.executor.step v s.mvMemory x = .addNewBytecode hash code x') :
    s'.mvMemory = s.mvMemory.addNewBytecode hash code := by
  rcases h with h | h | h | h | h <;> cases h
  all_goals simp_all

/-- Lazy addresses are added by executions only. -/
theorem Step.lazyAddresses (h : Step cfg w s s') :
    s'.mvMemory.lazyAddresses = s.mvMemory.lazyAddresses ∨ ∃ v x x' addresses,
      s.pc w = .execute v x ∧
      cfg.executor.step v s.mvMemory x = .addLazyAddresses addresses x' := by
  rcases h with h | h | h | h | h <;> cases h
  case execute.addLazyAddresses v x x' addresses hpc hx =>
    exact .inr ⟨v, x, x', addresses, hpc, hx⟩
  case execute.addNewBytecode v x x' hash code hpc hx =>
    left
    show (s.mvMemory.addNewBytecode hash code).lazyAddresses = _
    unfold addNewBytecode
    split <;> rfl
  all_goals exact .inl rfl

/-- A worker comes to `record` from the end of an execution, or was there. -/
theorem Step.record_origin (h : Step cfg w s s') {v : TxVersion} {rs : ReadSet} {ws : WriteSet}
    {need : Bool} {r : R} {pc : RecordPc} (hpc : s'.pc w = .record v rs ws need r pc) :
    (∃ x, s.pc w = .execute v x ∧ cfg.executor.step v s.mvMemory x = .record rs ws need r ∧
      pc = .lock) ∨ ∃ pc₀, s.pc w = .record v rs ws need r pc₀ := by
  rcases h with h | h | h | h | h <;> cases h
  all_goals simp_all

end Run

namespace Vm

variable {T : Type} {vm : Vm T} {U : Set MemoryLocation} {codes : B256 → Bytecode}
  {s s' : System Execution PevmTxExecutionResult ExecutionError} {w : WorkerId}
  {concurrencyLevel : Nat}

/-- **Every code hash that can be read has its code.** -/
structure CodesKnown (vm : Vm T) (codes : B256 → Bytecode)
    (s : System Execution PevmTxExecutionResult ExecutionError) : Prop where
  memory : CodeMemory codes s.mvMemory
  executing : ∀ w v x, s.pc w = .execute v x → vm.CodesSeen codes s.mvMemory x
  recording : ∀ w v rs ws need r pc l hash, s.pc w = .record v rs ws need r pc →
    (l, .codeHash hash) ∈ ws → s.mvMemory.newBytecodes hash ≠ none

theorem CodesKnown.executing_self (hB : vm.FullBlock U codes)
    (hC : StepsMeet (vm.Plain U codes) w s)
    (hsteady : ∀ v x, s.pc w = .execute v x → vm.Steady U v x)
    (hstep : Step (vm.config concurrencyLevel) w s s') (h : vm.CodesKnown codes s) {v : TxVersion}
    {x' : Execution} (hpc : s'.pc w = .execute v x') : vm.CodesSeen codes s'.mvMemory x' := by
  rcases hstep.execute_pc hpc with rfl | ⟨x, hpc₀, hx | ⟨hash, code, hx⟩ | ⟨addresses, hx⟩⟩
  · exact codesSeen_start
  · exact (codesSeen_run hB (hC v x hpc₀) h.memory (h.executing w v x hpc₀)
      (runStep_of_executeStep hx)).mono fun _ => hstep.newBytecodes_mono
  · obtain ⟨result, state, rest, hfinish, rfl⟩ := executeStep_addNewBytecode hx
    have hmemory := hstep.memory_addNewBytecode hpc₀ hpc hx
    have hseen := (h.executing w v x hpc₀).mono fun _ => hstep.newBytecodes_mono
    obtain ⟨hto, hstate⟩ := hseen
    rw [hfinish] at hstate
    refine ⟨hto, fun p hp => hstate.1 p (List.mem_cons_of_mem _ hp),
      fun p hp htouched halive hnew => ?_⟩
    rcases hstate.2 p hp htouched halive hnew with hknown | hkey
    · exact .inl hknown
    · rcases List.mem_cons.mp hkey with heq | hrest
      · -- the bytecode is registered by this step
        left
        rw [hmemory, newBytecodes_addNewBytecode, heq]
        simp
      · exact .inr hrest
  · obtain ⟨result, state, writes, hlazy, -, rfl⟩ := executeStep_addLazyAddresses hx
    have hfull := (hsteady v x hpc₀).full.2
    rw [hlazy] at hfull
    exact hfull.elim

theorem CodesKnown.recording_self (hstep : Step (vm.config concurrencyLevel) w s s')
    (h : vm.CodesKnown codes s) {v : TxVersion} {rs : ReadSet} {ws : WriteSet} {need : Bool}
    {r : PevmTxExecutionResult} {pc : RecordPc} (hpc : s'.pc w = .record v rs ws need r pc)
    {l : MemoryLocationHash} {hash : B256} (hmem : (l, .codeHash hash) ∈ ws) :
    s'.mvMemory.newBytecodes hash ≠ none := by
  apply hstep.newBytecodes_mono
  rcases hstep.record_origin hpc with ⟨x, hpc₀, hx, -⟩ | ⟨pc₀, hpc₀⟩
  · obtain ⟨result, state, hrecord, -⟩ := executeStep_record hx
    have hseen := (h.executing w v x hpc₀).2
    rw [hrecord] at hseen
    exact hseen l hash hmem
  · exact h.recording w v rs ws need r pc₀ l hash hpc₀ hmem

theorem CodesKnown.step (hB : vm.FullBlock U codes) (hC : StepsMeet (vm.Plain U codes) w s)
    (hsteady : ∀ v x, s.pc w = .execute v x → vm.Steady U v x)
    (hsub : ∀ w v rs ws need r rest new, s.pc w = .record v rs ws need r (.insert rest new) →
      rest ⊆ ws)
    (hstep : Step (vm.config concurrencyLevel) w s s') (h : vm.CodesKnown codes s) :
    vm.CodesKnown codes s' where
  memory := by
    constructor
    · intro hash code hcode
      rcases hstep.newBytecodes with heq | ⟨v, x, x', hash', code', hpc, -, hx, hm⟩
      · exact h.memory.registered hash code (by rwa [heq] at hcode)
      · rw [hm, newBytecodes_addNewBytecode] at hcode
        rcases Option.or_eq_some_iff.mp hcode with hold | ⟨-, hnew⟩
        · exact h.memory.registered hash code hold
        · -- the bytecode that is registered is the one of its hash
          obtain ⟨result, state, rest, hfinish, -⟩ := executeStep_addNewBytecode hx
          have hseen := (h.executing w v x hpc).2
          rw [hfinish] at hseen
          have hcodes : code' = codes hash' := hseen.1 _ List.mem_cons_self
          rw [List.lookup_cons] at hnew
          split at hnew
          · next heq =>
            rw [← Option.some.inj hnew, hcodes, beq_iff_eq.mp heq]
          · cases hnew
    · intro l i k hash he
      apply hstep.newBytecodes_mono
      rcases hstep.entry_data he with he | ⟨rs, ws, need, r, rest, new, hpc⟩
      · exact h.memory.entries l i k hash he
      · exact h.recording w _ rs ws need r _ l hash hpc
          (hsub w _ rs ws need r _ new hpc List.mem_cons_self)
  executing w' v x' hpc := by
    by_cases hw : w' = w
    · subst hw
      exact h.executing_self hB hC hsteady hstep hpc
    · rw [hstep.pc_of_ne hw] at hpc
      exact (h.executing w' v x' hpc).mono fun _ => hstep.newBytecodes_mono
  recording w' v rs ws need r pc l hash hpc hmem := by
    by_cases hw : w' = w
    · subst hw
      exact h.recording_self hstep hpc hmem
    · rw [hstep.pc_of_ne hw] at hpc
      exact hstep.newBytecodes_mono (h.recording w' v rs ws need r pc l hash hpc hmem)

section Reachable

variable (hB : vm.FullBlock U codes)
  (h : (workers (vm.config concurrencyLevel)).ReachableVia (StepsMeet (vm.Plain U codes)) s)

include hB h

/-- The executions of a block without lazy transactions are steady. -/
theorem steady_reachable {v : TxVersion} {x : Execution} (hpc : s.pc w = .execute v x) :
    v.txIdx < vm.blockSize ∧ vm.Started v x.db ∧ vm.Steady U v x := by
  have hv : v.txIdx < vm.blockSize := by
    have hbounds := (bounds_reachable h.reachable).pc w
    rw [hpc] at hbounds
    exact hbounds
  have hcarries := (carries_reachable (keeps_steady hB) h).execute w v x hpc
  exact ⟨hv, hcarries.1.1, hcarries.2 hv⟩

/-- The code that an execution reads is the one of its hash. -/
theorem codesKnown_reachable : vm.CodesKnown codes s := by
  refine invariant_of_step ?_ ?_ h
  · rintro s ⟨-, hm, -, hpc, -⟩
    refine ⟨⟨?_, ?_⟩, ?_, ?_⟩
    · intro hash code hcode
      rw [hm] at hcode
      cases hcode
    · intro l i k hash he
      rw [hm] at he
      cases (new_entry he).1
    · intro w v x hexecute
      rw [hpc] at hexecute
      cases hexecute
    · intro w v rs ws need r pc l hash hrecord
      rw [hpc] at hrecord
      cases hrecord
  · intro w t t' _ ht hC hone hP
    exact hP.step hB hC (fun v x hpc => (steady_reachable hB ht hpc).2.2)
      (fun w v rs ws need r rest new hpc =>
        ((recorded_reachable (keeps_steady hB) ht).inserting w v rs ws need r rest new hpc).1) hone

/-- The lazy addresses are those of the chain. -/
theorem lazyAddresses_reachable : s.mvMemory.lazyAddresses =
    insertLazyAddresses [] (vm.chain.lazyAddresses vm.blockEnv) := by
  refine invariant_of_step (P := fun t => t.mvMemory.lazyAddresses =
    insertLazyAddresses [] (vm.chain.lazyAddresses vm.blockEnv)) ?_ ?_ h
  · rintro t ⟨-, hm, -⟩
    rw [hm]
    rfl
  · intro w t t' _ ht _ hone hP
    rcases hone.lazyAddresses with heq | ⟨v, x, x', addresses, hpc, hx⟩
    · exact heq.trans hP
    · obtain ⟨result, state, writes, hlazy, -⟩ := executeStep_addLazyAddresses hx
      have hfull := (steady_reachable hB ht hpc).2.2.full.2
      rw [hlazy] at hfull
      exact hfull.elim

end Reachable

end Vm

end Pevm
