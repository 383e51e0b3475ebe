import Pevm.Proofs.SerialCommit

/-!
# The sequential execution alongside the serial one

`execute_revm_sequential` runs each transaction on the cache that the lower ones leave. `RunsRevm`
is what is assumed of revm there, in terms of what the cache shows (`view`): a run depends on nothing
else, the fee recipients are rewarded at its end, and the journal is committed. `FeesAlike` says when
these rewards are the ones of the workers.

The serial execution shows each transaction the same (`tracks_serial`): both start from the storage,
the same journal comes out of the same database, and both commit it.
-/

namespace Pevm

open Interleaving Scheduler MvMemory

/-! ## Runs on a database -/

/-- What the storage shows. -/
def Storage.shown (storage : Storage) : Shown where
  basic address := (storage.basic address).toOption
  codeHash address := (storage.codeHash address).toOption
  storage address index := (storage.storage address index).toOption

namespace EvmProgram

/-- The run of a program on a database that is not written meanwhile. -/
def run (storage : Storage) (codes : B256 → Bytecode) (shown : Shown) :
    EvmProgram → Option (ExecutionResult × EvmState)
  | .basic address next =>
    match shown.basic address with
    | none => none
    | some none => (next none).run storage codes shown
    | some (some account) =>
      match shown.codeHash address with
      | none => none
      | some codeHash => (next (some (Vm.infoOf codes account codeHash))).run storage codes shown
  | .codeByHash hash next => (next (codes hash)).run storage codes shown
  | .storage address index next =>
    match shown.storage address index with
    | none => none
    | some value => (next value).run storage codes shown
  | .blockHash number next =>
    match storage.blockHash number with
    | .error _ => none
    | .ok hash => (next hash).run storage codes shown
  | .finish result state => some (result, state)
  | .fail _ => none

/-- The run reads at locations in `U`, and asks for codes that are in the storage. -/
def Within (U : Set MemoryLocation) (storage : Storage) (codes : B256 → Bytecode) (shown : Shown) :
    EvmProgram → Prop
  | .basic address next => .basic address ∈ U ∧
    (shown.basic address = some none → (next none).Within U storage codes shown) ∧
    ∀ account codeHash, shown.basic address = some (some account) →
      shown.codeHash address = some codeHash →
        (next (some (Vm.infoOf codes account codeHash))).Within U storage codes shown
  | .codeByHash hash next => storage.codeByHash hash = .ok (some (codes hash)) ∧
    (next (codes hash)).Within U storage codes shown
  | .storage address index next => .storage address index ∈ U ∧
    ∀ value, shown.storage address index = some value → (next value).Within U storage codes shown
  | .blockHash number next => ∀ hash, storage.blockHash number = .ok hash →
    (next hash).Within U storage codes shown
  | .finish _ _ | .fail _ => True

end EvmProgram

namespace Vm

variable {T D : Type} {vm : Vm T} {U : Set MemoryLocation} {codes : B256 → Bytecode} {i : Nat}
  {shown view : Shown}

/-- **The serial run of a transaction is revm's run on the same database.** -/
theorem run_of_evaluate (hwhole : ∀ a, .codeHash a ∈ U ↔ .basic a ∈ U) (hsame : shown.SameOn U view)
    {program : EvmProgram} : ∀ {accounts accounts' : ReadAccounts} {result : ExecutionResult}
      {state : EvmState}, program.Within U vm.storage codes view → vm.ReadsOf U shown accounts →
      vm.evaluate codes i shown program accounts = some (result, state, accounts') →
      program.run vm.storage codes view = some (result, state) ∧ vm.ReadsOf U shown accounts' := by
  induction program with
  | finish result state =>
    rintro accounts accounts' result' state' - hreads h
    cases h
    exact ⟨rfl, hreads⟩
  | fail err =>
    intro accounts accounts' result state _ _ h
    cases h
  | basic address next ih =>
    rintro accounts accounts' result state ⟨ha, hmissing, hfound⟩ hreads h
    have hbasic := hsame.basic ha
    have hcode := hsame.codeHash ((hwhole address).mpr ha)
    rw [evaluate] at h
    rw [EvmProgram.run, ← hbasic, ← hcode]
    rw [← hbasic] at hmissing hfound
    rw [← hcode] at hfound
    cases hread : shown.basic address with
    | none =>
      rw [hread] at h
      cases h
    | some account =>
      rw [hread] at h
      cases account with
      | none => exact ih none (hmissing hread) hreads h
      | some account =>
        simp only at h
        -- the nonce check has passed
        split_ifs at h
        cases hhash : shown.codeHash address with
        | none =>
          rw [hhash] at h
          cases h
        | some codeHash =>
          rw [hhash] at h
          refine ih _ (hfound account codeHash hread hhash) ?_ h
          intro l account' codeHash' hmem
          rcases List.mem_cons.mp hmem with heq | hmem
          · cases heq
            exact ⟨address, ha, rfl, hread, hhash⟩
          · exact hreads l account' codeHash' hmem
  | codeByHash hash next ih =>
    rintro accounts accounts' result state ⟨hstored, hnext⟩ hreads h
    have hcode : vm.codeByHash hash = .ok (codes hash) := by
      unfold codeByHash
      rw [hstored]
      rfl
    rw [evaluate, hcode] at h
    exact ih _ hnext hreads h
  | storage address index next ih =>
    rintro accounts accounts' result state ⟨ha, hnext⟩ hreads h
    have hslot := hsame.storage ha
    rw [evaluate] at h
    rw [EvmProgram.run, ← hslot]
    rw [← hslot] at hnext
    cases hread : shown.storage address index with
    | none =>
      rw [hread] at h
      cases h
    | some value =>
      rw [hread] at h
      exact ih value (hnext value hread) hreads h
  | blockHash number next ih =>
    intro accounts accounts' result state hnext hreads h
    rw [evaluate] at h
    rw [EvmProgram.run]
    cases hread : vm.storage.blockHash number with
    | error err =>
      rw [hread] at h
      cases h
    | ok hash =>
      rw [hread] at h
      exact ih hash (hnext hash hread) hreads h

/-! ## The assumptions -/

/-- What is assumed of revm in the sequential execution of a block, in terms of what its cache shows.
revm does not tell an account that is empty from one that is missing, so that `view` shows it as
missing, and an account is shown with the code of its code hash. -/
structure RunsRevm (vm : Vm T) (U : Set MemoryLocation) (codes : B256 → Bytecode)
    (evm : SequentialEvm T D) (view : D → Shown) (pays : T → BitVec 64 → List (Address × U256)) :
    Prop where
  /-- the cache starts from the storage -/
  newDb : vm.storage.shown.SameOn U (view (evm.newDb vm.storage))
  /-- a transaction is run on the cache, and pays the fee recipients -/
  transact : ∀ i, i < vm.blockSize → ∀ result state,
    (vm.evm (vm.txs i)).run vm.storage codes (view (vm.dbAt evm i)) = some (result, state) →
    evm.transact (vm.dbAt evm i) (vm.txs i) = .ok (result,
      (pays (vm.txs i) result.txGasUsed).foldl (EvmState.pay codes (view (vm.dbAt evm i))) state)
  commit : ∀ i, i < vm.blockSize → ∀ result state,
    evm.transact (vm.dbAt evm i) (vm.txs i) = .ok (result, state) →
    (∀ a account, state.lookup a = some account → account.isSelfdestructed = false) →
    Commits U (view (vm.dbAt evm i)) state (view (evm.commit (vm.dbAt evm i) state))
  within : ∀ i, i < vm.blockSize →
    (vm.evm (vm.txs i)).Within U vm.storage codes (view (vm.dbAt evm i))
  regular : ∀ i, i < vm.blockSize → ∀ result state,
    (vm.evm (vm.txs i)).run vm.storage codes (view (vm.dbAt evm i)) = some (result, state) →
    Regular U codes (view (vm.dbAt evm i)) state

/-- The result of the workers has no account for an address. -/
def Unreported (state : EvmState) (a : Address) : Prop :=
  ∀ account, state.lookup a = some account → account.isTouched = false ∨ account.isEmpty = true

/-- The evaluation makes of a fee recipient what revm's journal has of it with the rewards. Where the
workers report no account it has the code of the storage and no slots, and an account of zero balance
and nonce is cleared when it has no code in the storage. -/
structure FeeKept (vm : Vm T) (state rewarded : EvmState) (a : Address) : Prop where
  unreported : Unreported state a → ∀ account, rewarded.lookup a = some account →
    account.isTouched = true → account.isEmpty = false →
    vm.storage.codeHash a = .ok account.info.codeHashOrNone ∧ account.storage = []
  cleared : ∀ account, rewarded.lookup a = some account → account.isTouched = true →
    account.info.balance = 0 → account.info.nonce = 0 →
    (vm.storage.codeHash a = .ok none ↔ account.info.codeHashOrNone = none)

/-- The fees are the same in both executions, and of the fee recipients. -/
structure FeesAlike (vm : Vm T) (codes : B256 → Bytecode) (evm : SequentialEvm T D)
    (view : D → Shown) (pays : T → BitVec 64 → List (Address × U256)) : Prop where
  /-- revm pays what `Vm::execute` computes -/
  rewards : ∀ i, i < vm.blockSize → ∀ gasUsed, vm.rewards (vm.txs i) gasUsed =
    (pays (vm.txs i) gasUsed).map fun p => (vm.hash (.basic p.1), p.2)
  recipients : ∀ i, i < vm.blockSize → ∀ gasUsed, ∀ p ∈ pays (vm.txs i) gasUsed,
    p.1 ∈ vm.chain.lazyAddresses vm.blockEnv
  kept : ∀ i, i < vm.blockSize → ∀ result state,
    (vm.evm (vm.txs i)).run vm.storage codes (view (vm.dbAt evm i)) = some (result, state) →
    ∀ a ∈ vm.chain.lazyAddresses vm.blockEnv, vm.FeeKept state
      ((pays (vm.txs i) result.txGasUsed).foldl (EvmState.pay codes (view (vm.dbAt evm i))) state) a

/-- revm, with the same fees in both executions. -/
structure RunsBlock (vm : Vm T) (U : Set MemoryLocation) (codes : B256 → Bytecode)
    (evm : SequentialEvm T D) (view : D → Shown) (pays : T → BitVec 64 → List (Address × U256)) :
    Prop extends vm.RunsRevm U codes evm view pays, vm.FeesAlike codes evm view pays

/-! ## The serial execution as a run -/

/-- The serial execution of the first transactions, each on what it is shown of the memory that all of
them leave. -/
structure SerialRun (vm : Vm T) (codes : B256 → Bytecode)
    (done : List (WriteSet × PevmTxExecutionResult)) : Prop where
  execute : ∀ {i outcome}, done[i]? = some outcome →
    vm.serialExecute codes i (vm.shown (vm.serialMemory done) i) = some outcome

theorem sameBelow_append (done more : List (WriteSet × PevmTxExecutionResult)) {n : Nat}
    (hn : n ≤ done.length) : (vm.serialMemory (done ++ more)).SameBelow (vm.serialMemory done) n := by
  intro l i hi
  have hentry : (vm.serialMemory (done ++ more)).entry l i = (vm.serialMemory done).entry l i := by
    show ((done ++ more)[i]?).bind _ = (done[i]?).bind _
    rw [List.getElem?_append_left (by omega)]
  rw [hentry]
  cases hcase : (vm.serialMemory done).entry l i with
  | none => exact .none
  | some e =>
    obtain ⟨outcome, -, hmap⟩ := Option.bind_eq_some_iff.mp
      (show (done[i]?).bind _ = some e from hcase)
    obtain ⟨value, -, rfl⟩ := Option.map_eq_some_iff.mp hmap
    exact .some .data

theorem serialRun_of_serial {n : Nat} : ∀ {done : List (WriteSet × PevmTxExecutionResult)},
    vm.serial codes n = some done → done.length = n ∧ vm.SerialRun codes done := by
  induction n with
  | zero =>
    intro done h
    cases h
    exact ⟨rfl, ⟨fun hget => by cases hget⟩⟩
  | succ n ih =>
    intro done h
    rw [serial] at h
    obtain ⟨lower, hlower, hmap⟩ := Option.bind_eq_some_iff.mp h
    obtain ⟨outcome, hexecute, rfl⟩ := Option.map_eq_some_iff.mp hmap
    obtain ⟨hlength, hrun⟩ := ih hlower
    refine ⟨by simp [hlength], ⟨fun {i outcome'} hget => ?_⟩⟩
    have hi : i < n + 1 := by
      have hlt := (List.getElem?_eq_some_iff.mp hget).1
      simpa [hlength] using hlt
    rw [shown_same (sameBelow_append lower [outcome] (by omega : i ≤ lower.length))]
    rcases Nat.lt_succ_iff_lt_or_eq.mp hi with hlt | rfl
    · rw [List.getElem?_append_left (by omega)] at hget
      exact hrun.execute hget
    · rw [← hlength, List.getElem?_concat_length] at hget
      obtain rfl := Option.some.inj hget
      exact hexecute

/-- What the serial execution of a transaction consists of. -/
theorem serialExecute_eq_some {outcome : WriteSet × PevmTxExecutionResult}
    (h : vm.serialExecute codes i shown = some outcome) : ∃ result state accounts,
      vm.evaluate codes i shown (vm.evm (vm.txs i)) [] = some (result, state, accounts) ∧
      vm.writeSet { vm.startDb ⟨i, 0⟩ with readAccounts := accounts } (vm.txs i) result state =
        .ok outcome.1 ∧
      outcome.2 = ⟨receiptFromRevm result, stateTransitionsFromRevm vm.isEip161Enabled state⟩ := by
  have hrun : (vm.evaluate codes i shown (vm.evm (vm.txs i)) []).bind (vm.settle i) = some outcome := by
    unfold serialExecute at h
    split at h
    · exact h
    · split at h
      · exact h
      · cases h
  obtain ⟨⟨result, state, accounts⟩, hevaluate, hsettle⟩ := Option.bind_eq_some_iff.mp hrun
  refine ⟨result, state, accounts, hevaluate, ?_⟩
  unfold settle at hsettle
  simp only at hsettle
  split at hsettle
  · cases hsettle
  · next writes hwrites =>
    obtain rfl := Option.some.inj hsettle
    exact ⟨hwrites, rfl⟩

theorem entry_serialMemory {done : List (WriteSet × PevmTxExecutionResult)}
    {outcome : WriteSet × PevmTxExecutionResult} (hget : done[i]? = some outcome)
    (l : MemoryLocationHash) : (vm.serialMemory done).entry l i =
      (AssocList.lookupLast outcome.1 l).map (.data 0) := by
  show (done[i]?).bind _ = _
  rw [hget]
  rfl

theorem entriesBelow_succ (m : MvMemory) (l : MemoryLocationHash) (i : Nat) :
    m.entriesBelow l (i + 1) =
      ((m.entry l i).map fun entry => (i, entry)).toList ++ m.entriesBelow l i := by
  rw [entriesBelow_eq, WriteHistory.below, ← entriesBelow_eq]
  cases m.entry l i <;> rfl

/-! ## The two executions together -/

theorem info_congr (hwhole : ∀ a, .codeHash a ∈ U ↔ .basic a ∈ U) (hsame : shown.SameOn U view)
    {a : Address} (ha : .basic a ∈ U) : shown.info codes a = view.info codes a := by
  unfold Shown.info
  rw [hsame.basic ha, hsame.codeHash ((hwhole a).mpr ha)]

theorem foldl_pay_congr (hwhole : ∀ a, .codeHash a ∈ U ↔ .basic a ∈ U) (hsame : shown.SameOn U view)
    {pays : List (Address × U256)} (hpays : ∀ p ∈ pays, .basic p.1 ∈ U) (state : EvmState) :
    pays.foldl (EvmState.pay codes shown) state = pays.foldl (EvmState.pay codes view) state := by
  induction pays generalizing state with
  | nil => rfl
  | cons p pays ih =>
    have hone : state.pay codes shown p = state.pay codes view p := by
      unfold EvmState.pay
      rw [info_congr hwhole hsame (hpays p List.mem_cons_self)]
    rw [List.foldl_cons, List.foldl_cons, hone]
    exact ih (fun q hq => hpays q (List.mem_cons_of_mem _ hq)) _

theorem regular_congr (hwhole : ∀ a, .codeHash a ∈ U ↔ .basic a ∈ U) (hsame : shown.SameOn U view)
    {state : EvmState} (h : Regular U codes view state) : Regular U codes shown state where
  used := h.used
  nodup := h.nodup
  nodupSlots := h.nodupSlots
  alive := h.alive
  hash := h.hash
  code p hp := by
    rw [hsame.codeHash (h.used (EvmState.codeHash_mem_locations hp))]
    exact h.code p hp
  untouched p hp huntouched := by
    rw [info_congr hwhole hsame (h.used (EvmState.basic_mem_locations hp))]
    exact h.untouched p hp huntouched
  slots p hp q hq heq := by
    rw [hsame.storage (h.used (EvmState.storage_mem_locations hp hq))]
    exact h.slots p hp q hq heq
  cleared p hp htouched hempty := by
    rw [hsame.basic (h.used (EvmState.basic_mem_locations hp))]
    exact h.cleared p hp htouched hempty

/-- The first transaction is shown the storage. -/
theorem shown_zero (hstorage : vm.storage.NeverFails) (m : MvMemory) : vm.shown m 0 = vm.storage.shown := by
  have hbasic : ∀ a, vm.basicAt m 0 a = .ok ((vm.storage.basic a).toOption.join) := by
    intro a
    obtain ⟨stored, hstored⟩ := hstorage.basic a
    rw [basicAt_eq, entriesBelow_zero, readEntries_additive hstored fun p hp => by cases hp]
    show Except.ok (AccountBasic.rewarded stored 0) = _
    rw [AccountBasic.rewarded_zero, hstored]
    rfl
  have hcodeHash : ∀ a, vm.codeHashAt m 0 a = .ok ((vm.storage.codeHash a).toOption.join) := by
    intro a
    obtain ⟨stored, hstored⟩ := hstorage.codeHash a
    refine codeHashAt_eq_ok_iff.mpr ⟨.storage, ?_⟩
    rw [entriesBelow_zero, hstored]
    show Except.map _ ((vm.storage.codeHash a).mapError ReadError.storageError) = _
    rw [hstored]
    rfl
  have hslot : ∀ a slot, vm.slotAt m 0 a slot = .ok (((vm.storage.storage a slot).toOption).getD 0) := by
    intro a slot
    obtain ⟨stored, hstored⟩ := hstorage.storage a slot
    refine slotAt_eq_ok_iff.mpr ⟨.storage, ?_⟩
    rw [entriesBelow_zero, hstored]
    show Except.map _ ((vm.storage.storage a slot).mapError ReadError.storageError) = _
    rw [hstored]
    rfl
  unfold shown Storage.shown
  simp only [hbasic, hcodeHash, hslot, Shown.mk.injEq]
  refine ⟨funext fun a => ?_, funext fun a => ?_, funext fun a => funext fun slot => ?_⟩
  · obtain ⟨stored, hstored⟩ := hstorage.basic a
    rw [hstored]
    rfl
  · obtain ⟨stored, hstored⟩ := hstorage.codeHash a
    rw [hstored]
    rfl
  · obtain ⟨stored, hstored⟩ := hstorage.storage a slot
    rw [hstored]
    rfl

/-- Before transaction `i` the serial execution shows what the cache shows. -/
structure Tracks (vm : Vm T) (U : Set MemoryLocation) (evm : SequentialEvm T D) (view : D → Shown)
    (m : MvMemory) (i : Nat) : Prop where
  same : (vm.shown m i).SameOn U (view (vm.dbAt evm i))
  clean : ∀ a, .basic a ∈ U → (vm.shown m i).CleanAt a
  additive : ∀ a, .basic a ∈ U → ∀ p ∈ m.entriesBelow (vm.hash (.basic a)) i, p.2.IsAdditive

/-- Transaction `i` in both executions: one journal, which the serial execution settles and revm adds
the rewards to. -/
structure InStep (vm : Vm T) (U : Set MemoryLocation) (codes : B256 → Bytecode)
    (evm : SequentialEvm T D) (pays : T → BitVec 64 → List (Address × U256)) (m : MvMemory) (i : Nat)
    (r : PevmTxExecutionResult) (db : VmDb) (result : ExecutionResult) (state : EvmState) :
    Prop where
  outcome : r = ⟨receiptFromRevm result, stateTransitionsFromRevm vm.isEip161Enabled state⟩
  transact : evm.transact (vm.dbAt evm i) (vm.txs i) = .ok (result,
    (pays (vm.txs i) result.txGasUsed).foldl (EvmState.pay codes (vm.shown m i)) state)
  /-- the writes of the journal, with the rewards added -/
  entry : ∀ l, m.entry l i =
    (credited ((pays (vm.txs i) result.txGasUsed).map fun p => (vm.hash (.basic p.1), p.2)) l
      ((state.flatMap fun (address, account) => vm.accountWrites db address account).lookup l)).map
        (.data 0)
  advances : vm.Advances U codes m i db state (pays (vm.txs i) result.txGasUsed) m
  fees : ∀ a ∈ vm.chain.lazyAddresses vm.blockEnv, vm.FeeKept state
    ((pays (vm.txs i) result.txGasUsed).foldl (EvmState.pay codes (vm.shown m i)) state) a

section Tracks

variable {evm : SequentialEvm T D} {cache : D → Shown}
  {pays : T → BitVec 64 → List (Address × U256)}
  {done : List (WriteSet × PevmTxExecutionResult)} {outcome : WriteSet × PevmTxExecutionResult}
  (hU : vm.Separates U) (hwhole : ∀ a, .codeHash a ∈ U ↔ .basic a ∈ U)
  (hrevm : vm.RunsBlock U codes evm cache pays)
include hU hwhole hrevm

/-- **Where the executions show the same, a transaction does the same.** -/
theorem inStep_of_tracks (hrun : vm.SerialRun codes done) (hi : i < vm.blockSize)
    (hget : done[i]? = some outcome) (h : vm.Tracks U evm cache (vm.serialMemory done) i) :
    ∃ db result state, vm.InStep U codes evm pays (vm.serialMemory done) i outcome.2 db result state := by
  obtain ⟨result, state, accounts, hevaluate, hwrites, houtcome⟩ :=
    serialExecute_eq_some (hrun.execute hget)
  -- revm's run on the cache is the evaluation on the memory
  obtain ⟨hran, hreads⟩ := run_of_evaluate hwhole h.same (hrevm.within i hi)
    (fun _ _ _ hmem => by cases hmem) hevaluate
  have hregular := regular_congr hwhole h.same (hrevm.regular i hi result state hran)
  have hrecipients : ∀ p ∈ pays (vm.txs i) result.txGasUsed, .basic p.1 ∈ U := fun p hp =>
    hU.fees _ (hrevm.recipients i hi _ p hp)
  have hentry : ∀ l, (vm.serialMemory done).entry l i =
      (credited ((pays (vm.txs i) result.txGasUsed).map fun p => (vm.hash (.basic p.1), p.2)) l
        ((state.flatMap fun (address, account) => vm.accountWrites
          { vm.startDb ⟨i, 0⟩ with readAccounts := accounts } address account).lookup l)).map
            (.data 0) := by
    intro l
    rw [writeSet_eq_rewards vm rfl] at hwrites
    obtain ⟨hnodup, hlookup⟩ := lookup_addRewards
      (nodup_journalWrites hU hregular.used hregular.nodup hregular.nodupSlots) hwrites
    rw [entry_serialMemory hget, AssocList.lookupLast_eq_lookup hnodup, hlookup, hrevm.rewards i hi]
  refine ⟨{ vm.startDb ⟨i, 0⟩ with readAccounts := accounts }, result, state, houtcome, ?_, hentry,
    ⟨rfl, hreads, hregular, h.clean, h.additive, hrecipients, fun l => ?_⟩, fun a ha => ?_⟩
  · rw [foldl_pay_congr hwhole h.same hrecipients]
    exact hrevm.transact i hi result state hran
  · rw [entriesBelow_succ, hentry, Option.map_map]
    rfl
  · rw [foldl_pay_congr hwhole h.same hrecipients]
    exact hrevm.kept i hi result state hran a ha

variable (heip : vm.isEip161Enabled = true) (hstorage : vm.storage.NeverFails)
include heip hstorage

/-- **A transaction keeps the executions together.** -/
theorem tracks_succ {r : PevmTxExecutionResult} {db : VmDb} {result : ExecutionResult}
    {state : EvmState} (hi : i < vm.blockSize)
    (h : vm.Tracks U evm cache (vm.serialMemory done) i)
    (hstep : vm.InStep U codes evm pays (vm.serialMemory done) i r db result state) :
    vm.Tracks U evm cache (vm.serialMemory done) (i + 1) where
  same := by
    have hcommits := hrevm.commit i hi result _ hstep.transact fun a account hlookup =>
      hstep.advances.alive hU hlookup
    rw [← evm.next_eq hstep.transact] at hcommits
    exact (hstep.advances.commits hU heip hstorage hwhole).sameOn hcommits h.same
  clean a ha := hstep.advances.clean_after hU heip hstorage ha ((hwhole a).mpr ha)
  additive a ha := hstep.advances.additive_after hU ha

/-- **The executions stay together.** -/
theorem tracks_serial (hclean : ∀ a, .basic a ∈ U → vm.storage.shown.CleanAt a)
    (hrun : vm.SerialRun codes done) (hlength : done.length = vm.blockSize) :
    ∀ i, i ≤ vm.blockSize → vm.Tracks U evm cache (vm.serialMemory done) i := by
  intro i
  induction i with
  | zero =>
    intro _
    have hzero := shown_zero hstorage (vm.serialMemory done)
    refine ⟨hzero ▸ hrevm.newDb, hzero ▸ hclean, fun a _ p hp => ?_⟩
    rw [entriesBelow_zero] at hp
    cases hp
  | succ i ih =>
    intro hi
    have htracks := ih (Nat.le_of_succ_le hi)
    have hget : done[i]? = some done[i] := List.getElem?_eq_getElem (by omega)
    obtain ⟨db, result, state, hstep⟩ := inStep_of_tracks hU hwhole hrevm hrun hi hget htracks
    exact tracks_succ hU hwhole hrevm heip hstorage hi htracks hstep

end Tracks

end Vm

end Pevm
