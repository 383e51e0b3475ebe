import Pevm.AlloyBlock
import Pevm.Proofs.Reuse
import Pevm.Proofs.SequentialResults
import Pevm.Proofs.Serializability

/-!
# Parallel and sequential execution

The two ways in which a block is executed agree (`complete_eq_sequential`): what
`execute_revm_parallel` returns is what `execute_revm_sequential` returns, receipt by receipt and
account by account, whichever way the workers were interleaved.

The two are far apart. The workers run revm without the rewards of the fee recipients, on a
multi-version memory, and the rewards are evaluated at the end; the sequential execution runs revm as
it is, on one cache. Between them lies the serial execution of `Serial.lean`: the parallel one leaves
its values (`collect_eq_serial`), and it shows each transaction what the cache shows
(`serial_eq_sequential`).

The evaluation does not make of every fee recipient what revm makes of it: it takes the code of the
recipient from before the block (`parallel_drops_beneficiary_code`), and it asserts the nonces of the
senders. `Rewarded` is the condition under which it does.

`Pevm::execute` takes one of the two ways by the size of the block, its gas and a flag. Which one it
takes makes no difference to its results (`execute_mode`).
-/

namespace Pevm

open Interleaving Scheduler MvMemory Saturating

namespace Vm

variable {T D : Type} {U : Set MemoryLocation} {codes : B256 → Bytecode}

/-- What is assumed of a block, its storage and revm to compare the two executions. -/
structure Comparable (vm : Vm T) (U : Set MemoryLocation) (codes : B256 → Bytecode)
    (evm : SequentialEvm T D) (view : D → Shown)
    (pays : T → BitVec 64 → List (Address × U256)) : Prop where
  source : SourceChain vm.chain vm.isEip161Enabled
  eip161 : vm.isEip161Enabled = true
  full : vm.FullBlock U codes
  /-- accounts are used with their code hashes -/
  whole : ∀ a, .codeHash a ∈ U ↔ .basic a ∈ U
  neverFails : vm.storage.NeverFails
  /-- the storage has no empty accounts -/
  clean : ∀ a, .basic a ∈ U → vm.storage.shown.CleanAt a
  revm : vm.RunsRevm U codes evm view pays

/-- What the rewards and their recipients are to be for the two executions to agree: the journals of
revm with the rewards are what `Vm::execute` and the evaluation make of them, and pass its check of
the nonces. -/
structure Rewarded (vm : Vm T) (codes : B256 → Bytecode) (evm : SequentialEvm T D) (view : D → Shown)
    (pays : T → BitVec 64 → List (Address × U256)) : Prop extends
    vm.FeesAlike codes evm view pays where
  counted : vm.SendersCounted evm

section Comparable

variable {block : Block T} {evm : SequentialEvm T D} {view : D → Shown}
  {pays : T → BitVec 64 → List (Address × U256)}
  {s : System Execution PevmTxExecutionResult ExecutionError} {results : List PevmTxExecutionResult}

/-- The evaluation can read the codes of the fee recipients. -/
theorem exists_storedCode {vm : Vm T} (h : vm.storage.NeverFails) (a : Address) :
    ∃ p, vm.storedCode a = .ok p := by
  unfold storedCode
  obtain ⟨codeHash, hhash⟩ := h.codeHash a
  rw [hhash]
  cases codeHash with
  | none => exact ⟨_, rfl⟩
  | some hash =>
    obtain ⟨code, hcode⟩ := h.codeByHash hash
    refine ⟨(some hash, code), ?_⟩
    show (vm.storage.codeByHash hash >>= _) = _
    rw [hcode]
    rfl

/-- Results are returned by a run without an abort, or by the fallback. -/
theorem collect_eq_ok (h : (PevmState.collect block s).1 = some (.ok results)) :
    s.abortReason = none ∨ block.sequential = .ok results := by
  unfold PevmState.collect at h
  cases hreason : s.abortReason with
  | none => exact .inl rfl
  | some reason =>
    rw [hreason] at h
    cases reason with
    | fallbackToSequential => exact .inr (Option.some.inj h)
    | executionError err => cases h

section Complete

variable (hB : block.vm.Comparable U codes evm view pays) (hlevel : 0 < block.concurrencyLevel)
  (h : (workers (block.vm.config block.concurrencyLevel)).ReachableVia
    (StepsMeet (block.vm.Plain U codes)) s)
  (hleft : ∀ w, w < block.concurrencyLevel → s.pc w = .left)
include hB hlevel h hleft

/-- What a run without an abort goes on with is evaluated from the serial execution. -/
theorem Comparable.collect_eq (hnone : s.abortReason = none) :
    ∃ done, block.vm.serial codes block.vm.blockSize = some done ∧
      (PevmState.collect block s).1 =
        some (block.vm.evaluateResults (block.vm.serialMemory done) (done.map Prod.snd)) :=
  collect_eq_serial hB.source hB.full (fun a _ => exists_storedCode hB.neverFails a) hlevel h hleft
    hnone

/-- The results of a run without an abort are those of the sequential execution. -/
theorem Comparable.sameResults (hfees : block.vm.FeesAlike codes evm view pays)
    (hnone : s.abortReason = none) (hresult : (PevmState.collect block s).1 = some (.ok results)) :
    ∃ seqResults, block.vm.executeRevmSequential evm = .ok seqResults ∧
      SameResults results seqResults := by
  obtain ⟨done, hdone, hcollect⟩ := hB.collect_eq hlevel h hleft hnone
  rw [hcollect] at hresult
  exact serial_eq_sequential hB.full.separates hB.whole hB.eip161 hB.neverFails hB.clean
    ⟨hB.revm, hfees⟩ hB.full.codesStored hdone (Option.some.inj hresult)

/-- **A parallel run returns what the sequential execution returns.** Whenever
`execute_revm_parallel` returns results, after a run or by the fallback, `execute_revm_sequential`
accepts the block, and its results have the same receipts and the same accounts. -/
theorem parallel_eq_sequential (hfees : block.vm.FeesAlike codes evm view pays)
    (hsequential : block.sequential = block.vm.executeRevmSequential evm)
    (hresult : (PevmState.collect block s).1 = some (.ok results)) :
    ∃ seqResults, block.vm.executeRevmSequential evm = .ok seqResults ∧
      SameResults results seqResults := by
  rcases collect_eq_ok hresult with hnone | hfallback
  · exact hB.sameResults hlevel h hleft hfees hnone hresult
  · -- the results are those of the sequential execution
    exact ⟨results, hsequential ▸ hfallback, .refl results⟩

end Complete

end Comparable

end Vm

namespace Sample

/-- The database after a commit. -/
def commitTo (shown : Shown) (state : EvmState) : Shown where
  basic a :=
    match (state.lookup a).filter Account.isTouched with
    | some account =>
      some (if account.isEmpty then none else some ⟨account.info.balance, account.info.nonce⟩)
    | none => shown.basic a
  codeHash a :=
    match (state.lookup a).filter Account.isTouched with
    | some account => some account.info.codeHashOrNone
    | none => shown.codeHash a
  storage a slot :=
    match ((state.lookup a).filter Account.isTouched).bind fun account => account.storage.lookup slot with
    | some value => some value.presentValue
    | none => shown.storage a slot

theorem commits_commitTo (U : Set MemoryLocation) (shown : Shown) (state : EvmState) :
    Commits U shown state (commitTo shown state) where
  basic := by
    intro a account hlookup htouched
    simp only [commitTo, hlookup, Option.filter_some, htouched, if_true]
  codeHash := by
    intro a account hlookup htouched
    simp only [commitTo, hlookup, Option.filter_some, htouched, if_true]
  storage := by
    intro a account slot value hlookup htouched hvalue
    simp only [commitTo, hlookup, Option.filter_some, htouched, if_true, Option.bind_some, hvalue]
  otherBasic := by
    intro a _ hno
    have hfilter : (state.lookup a).filter Account.isTouched = none :=
      Option.filter_eq_none_iff.mpr fun account hmem => by simp [hno account hmem]
    simp only [commitTo, hfilter]
  otherCodeHash := by
    intro a _ hno
    have hfilter : (state.lookup a).filter Account.isTouched = none :=
      Option.filter_eq_none_iff.mpr fun account hmem => by simp [hno account hmem]
    simp only [commitTo, hfilter]
  otherStorage := by
    intro a slot _ hno
    have hvalue : (((state.lookup a).filter Account.isTouched).bind fun account =>
        account.storage.lookup slot) = none := by
      rw [Option.bind_eq_none_iff]
      intro account hmem
      obtain ⟨hlookup, htouched⟩ := Option.filter_eq_some_iff.mp hmem
      exact hno account hlookup htouched
    simp only [commitTo, hvalue]

/-- No transaction here pays a fee, but the beneficiary is touched. -/
def pays (_ : TxEnv) (_ : BitVec 64) : List (Address × U256) :=
  [(beneficiary, 0)]

/-- revm on a database as what it shows. -/
def onShown (codes : B256 → Bytecode) (evm : TxEnv → EvmProgram) : SequentialEvm TxEnv Shown where
  newDb := Storage.shown
  basic db a := .ok ((db.basic a).join.map fun account =>
    Vm.infoOf codes account (db.codeHash a).join)
  transact db tx :=
    match (evm tx).run storage codes db with
    | some (result, state) => .ok (result,
        (pays tx result.txGasUsed).foldl (EvmState.pay codes db) state)
    | none => .error "rejected"
  commit := commitTo

theorem whole (a : Address) :
    MemoryLocation.codeHash a ∈ { l | l ∈ locations } ↔ .basic a ∈ { l | l ∈ locations } := by
  simp [locations]

/-- No account of the storage is empty. -/
theorem storage_clean (a : Address) : storage.shown.CleanAt a := by
  have hbasic : storage.shown.basic a = some (if a = 5 then none else some ⟨1000, 0⟩) := rfl
  have hcode : storage.shown.codeHash a = some (if a = counter then some 7 else none) := rfl
  refine ⟨_, _, hbasic, hcode, ?_⟩
  by_cases hfive : a = 5
  · subst hfive
    exact ⟨by decide, by decide, by decide, by decide⟩
  · rw [if_neg hfive]
    refine ⟨fun h => (by cases h), fun h => ?_, ?_, ?_⟩
    · exact absurd (Option.some.inj h) (by decide)
    · split_ifs <;> decide
    · split_ifs <;> decide

section Codes

variable {codes : B256 → Bytecode} {shown : Shown}

theorem within_basic {a : Address} {next : Option AccountInfo → EvmProgram}
    (ha : .basic a ∈ locations)
    (hnext : ∀ info, (next info).Within { l | l ∈ locations } storage codes shown) :
    (EvmProgram.basic a next).Within { l | l ∈ locations } storage codes shown :=
  ⟨ha, fun _ => hnext none, fun _ _ _ _ => hnext _⟩

theorem callCounter_within {caller : Address} (h : .basic caller ∈ locations) :
    (callCounter caller).Within { l | l ∈ locations } storage codes shown := by
  have hcallee : MemoryLocation.basic counter ∈ locations := by decide
  have hslot : MemoryLocation.storage counter 0 ∈ locations := by decide
  exact within_basic h fun _ => within_basic hcallee fun _ => ⟨hslot, fun _ _ => trivial⟩

/-- A check of a journal in which every account is touched and none is empty. -/
def isRegular (shown : Shown) (state : EvmState) : Bool :=
  decide (AssocList.keys state).Nodup && state.all fun p =>
    decide (.basic p.1 ∈ locations) && decide (.codeHash p.1 ∈ locations) &&
      decide (AssocList.keys p.2.storage).Nodup && p.2.isTouched && !p.2.isEmpty &&
      !p.2.isSelfdestructed && decide (p.2.info.codeHash ≠ 0) &&
      decide (shown.codeHash p.1 = some none ∨
        shown.codeHash p.1 = some p.2.info.codeHashOrNone) &&
      p.2.storage.all fun q => decide (.storage p.1 q.1 ∈ locations) &&
        decide (shown.storage p.1 q.1 = some q.2.originalValue)

theorem isRegular_sound {state : EvmState} (h : isRegular shown state = true) :
    Regular { l | l ∈ locations } codes shown state := by
  simp only [isRegular, Bool.and_eq_true, List.all_eq_true, decide_eq_true_eq, Bool.not_eq_true',
    and_assoc] at h
  obtain ⟨hnodup, hall⟩ := h
  refine ⟨?_, hnodup, fun p hp => ?_, fun p hp => ?_, fun p hp => ?_, fun p hp => ?_,
    fun p hp huntouched => ?_, fun p hp q hq heq => ?_, fun p hp _ hcleared => ?_⟩
  · rintro l ⟨p, hp, rfl | rfl | ⟨q, hq, rfl⟩⟩
    · exact (hall p hp).1
    · exact (hall p hp).2.1
    · obtain ⟨-, -, -, -, -, -, -, -, hslots⟩ := hall p hp
      exact (hslots q hq).1
  all_goals obtain ⟨-, -, hslotKeys, htouched, hempty, halive, hhash, hcode, hslots⟩ := hall p hp
  · exact hslotKeys
  · exact halive
  · exact hhash
  · exact hcode
  · rw [htouched] at huntouched
    cases huntouched
  · rw [(hslots q hq).2, heq]
  · rw [hempty] at hcleared
    cases hcleared

theorem onShown_transact {evm : TxEnv → EvmProgram} {db : Shown} {tx : TxEnv}
    {result : ExecutionResult} {state : EvmState}
    (h : (evm tx).run storage codes db = some (result, state)) :
    (onShown codes evm).transact db tx = .ok (result,
      (pays tx result.txGasUsed).foldl (EvmState.pay codes db) state) := by
  simp only [onShown, h]

/-- revm on a block of calls of the counter: what it shows and the journals, evaluated. -/
structure RunsCounter (v : Vm TxEnv) (codes : B256 → Bytecode) : Prop extends CallsCounter v where
  counterCodes : codes 7 = counterCode
  within : ∀ i, i < v.blockSize → ∀ shown,
    (v.evm (v.txs i)).Within { l | l ∈ locations } Sample.storage codes shown
  regular : ∀ i, i < v.blockSize →
    ((v.evm (v.txs i)).run Sample.storage codes (v.dbAt (onShown codes v.evm) i)).all
      (fun p => isRegular (v.dbAt (onShown codes v.evm) i) p.2) = true

theorem RunsCounter.comparable {v : Vm TxEnv} (h : RunsCounter v codes)
    (hsource : SourceChain v.chain v.isEip161Enabled) (heip : v.isEip161Enabled = true) :
    v.Comparable { l | l ∈ locations } codes (onShown codes v.evm) id pays where
  source := hsource
  eip161 := heip
  full := h.full h.counterCodes
  whole := whole
  neverFails := h.storage ▸ storage_neverFails
  clean a _ := h.storage ▸ storage_clean a
  revm :=
    { newDb := ⟨fun _ => rfl, fun _ => rfl, fun _ => rfl⟩
      transact := fun i _ result state hrun => by
        rw [h.storage] at hrun
        exact onShown_transact hrun
      commit := fun i _ result state _ _ => commits_commitTo _ _ _
      within := fun i hi => h.storage ▸ h.within i hi _
      regular := fun i hi result state hrun => by
        rw [h.storage] at hrun
        exact isRegular_sound ((Option.all_eq_true _ _).mp (h.regular i hi) _ hrun) }

/-- The beneficiary has no code and no slots in a journal. -/
def beneficiaryIsPlain (state : EvmState) : Bool :=
  (state.lookup beneficiary).all fun account =>
    decide (account.info.codeHashOrNone = none) && account.storage.isEmpty

theorem feeKept_of_isPlain {v : Vm TxEnv} (h : CallsCounter v) {state rewarded : EvmState}
    (hrewarded : beneficiaryIsPlain rewarded = true) : v.FeeKept state rewarded beneficiary := by
  have hstored : v.storage.codeHash beneficiary = .ok none := by
    rw [h.storage]
    rfl
  have hplain : ∀ account, rewarded.lookup beneficiary = some account →
      account.info.codeHashOrNone = none ∧ account.storage = [] := by
    intro account hlookup
    have hall := (Option.all_eq_true _ _).mp hrewarded account hlookup
    simpa only [Bool.and_eq_true, decide_eq_true_eq, List.isEmpty_iff] using hall
  constructor
  · intro _ account hlookup _ _
    obtain ⟨hcode, hslots⟩ := hplain account hlookup
    exact ⟨hcode ▸ hstored, hslots⟩
  · intro account hlookup _ _ _
    exact ⟨fun _ => (hplain account hlookup).1, fun _ => hstored⟩

/-- A block of others than the beneficiary that pay no fees and leave it without code. -/
theorem RunsCounter.rewarded {v : Vm TxEnv} (h : RunsCounter v codes) (hchain : v.chain = PevmEthereum)
    (hfree : ∀ i, i < v.blockSize →
      (effectiveGasPrice v.blockEnv.basefee (v.chain.txEnv (v.txs i)) -
        if v.isEip161Enabled then v.blockEnv.basefee.toNat else 0) = 0)
    (hplain : ∀ i, i < v.blockSize →
      ((v.evm (v.txs i)).run Sample.storage codes (v.dbAt (onShown codes v.evm) i)).all
        (fun p => beneficiaryIsPlain ((pays (v.txs i) p.1.txGasUsed).foldl
          (EvmState.pay codes (v.dbAt (onShown codes v.evm) i)) p.2)) = true)
    (hcaller : ∀ i, i < v.blockSize → (v.chain.txEnv (v.txs i)).caller ≠ beneficiary) :
    v.Rewarded codes (onShown codes v.evm) id pays where
  rewards i hi gasUsed := by
    obtain ⟨amount, hrewards, hamount⟩ := @Vm.rewards_ethereum v hchain (v.txs i) gasUsed
    rw [hfree i hi, Nat.zero_mul] at hamount
    obtain rfl : amount = 0 := BitVec.eq_of_toNat_eq hamount
    have hfees : v.chain.lazyAddresses v.blockEnv = [v.blockEnv.beneficiary] := by
      rw [hchain]
      rfl
    rw [h.fees] at hfees
    rw [hrewards, ← (List.cons.inj hfees).1]
    rfl
  recipients i _ gasUsed p hp := by
    obtain rfl := List.mem_singleton.mp hp
    rw [h.fees]
    exact List.mem_singleton.mpr rfl
  kept i hi result state hrun a ha := by
    rw [h.fees] at ha
    obtain rfl := List.mem_singleton.mp ha
    rw [h.storage] at hrun
    exact feeKept_of_isPlain h.toCallsCounter ((Option.all_eq_true _ _).mp (hplain i hi) _ hrun)
  counted i hi _ _ _ hsender := by
    rw [h.fees] at hsender
    exact absurd (List.mem_singleton.mp hsender) (hcaller i hi)

end Codes

theorem counters_runsCounter : RunsCounter countersBlock.vm fun _ => counterCode where
  toCallsCounter := counters_calls
  counterCodes := rfl
  within := forall_lt_two (fun _ => callCounter_within (by decide))
    fun _ => callCounter_within (by decide)
  regular := forall_lt_two (by decide +kernel) (by decide +kernel)

theorem counters_rewarded : countersBlock.vm.Rewarded (fun _ => counterCode)
    (onShown (fun _ => counterCode) countersBlock.vm.evm) id pays :=
  counters_runsCounter.rewarded rfl
    (forall_lt_two (by decide) (by decide)) (forall_lt_two (by decide +kernel) (by decide +kernel))
    (forall_lt_two (by decide) (by decide))

end Sample

namespace Sample

/-- The code that the beneficiary delegates to, and that of the counter. -/
def delegationCodes (hash : B256) : Bytecode :=
  if hash = 8 then .eip7702 counter else counterCode

/-- The run of a call of the counter in a transaction that sets the delegation of the beneficiary. -/
def delegateBeneficiary (caller : Address) : EvmProgram :=
  .basic caller fun sender => .basic beneficiary fun authority => .basic counter fun callee =>
    .storage counter 0 fun value => .finish ⟨true, 46000, []⟩
      [(caller, touched { orEmpty sender with nonce := (orEmpty sender).nonce + 1 } []),
        (beneficiary, touched { orEmpty authority with
          nonce := (orEmpty authority).nonce + 1
          codeHash := 8
          code := some (.eip7702 counter) } []),
        (counter, touched (orEmpty callee) [(0, ⟨value, value + 1⟩)])]

theorem delegateBeneficiary_within {codes : B256 → Bytecode} {shown : Shown} {caller : Address}
    (h : .basic caller ∈ locations) :
    (delegateBeneficiary caller).Within { l | l ∈ locations } storage codes shown := by
  have hslot : MemoryLocation.storage counter 0 ∈ locations := by decide
  refine within_basic h fun _ => ?_
  -- the authority, then the contract as in any call
  refine within_basic (by decide) fun _ => within_basic (by decide) fun _ => ?_
  exact ⟨hslot, fun _ _ => trivial⟩

/-- Two calls of the counter. The first has an authorization of the beneficiary. -/
def delegatedBlock : Block TxEnv where
  vm :=
    { vm with
      blockSize := 2
      txs := fun
        | 0 => { tx 1 counter 0 with authorizationList := [⟨1, counter, 0, some beneficiary⟩] }
        | _ => tx 2 counter 0
      evm := fun tx =>
        if tx.authorizationList = [] then callCounter tx.caller else delegateBeneficiary tx.caller }
  concurrencyLevel := 1
  sequential := .ok []

theorem delegated_runsCounter : RunsCounter delegatedBlock.vm delegationCodes where
  storage := rfl
  hash := rfl
  fees := rfl
  caller := forall_lt_two (by decide) (by decide)
  calls := forall_lt_two rfl rfl
  counterCodes := rfl
  within := forall_lt_two (fun _ => delegateBeneficiary_within (by decide))
    fun _ => callCounter_within (by decide)
  regular := forall_lt_two (by decide +kernel) (by decide +kernel)

/-- The code hash of the beneficiary in the result of the second transaction. -/
def beneficiaryCode : PevmResult → Option (Option B256)
  | .ok results => (Vm.accountAt results beneficiary 1).join.join.map EvmAccount.codeHash
  | .error _ => none

theorem beneficiaryCode_congr {results results' : List PevmTxExecutionResult}
    (h : Vm.SameResults results results') :
    beneficiaryCode (.ok results) = beneficiaryCode (.ok results') := by
  simp only [beneficiaryCode, h.accounts]

end Sample

namespace PevmState

variable {R T S D : Type} [Inhabited T] {node : Node R T S D} {block : AlloyBlock R} {txs : List T}
  {p p' : PevmState} {concurrencyLevel : Nat} {forceSequential : Bool} {schedule : List WorkerId}
  {results : List PevmTxExecutionResult} {U : Set MemoryLocation} {codes : B256 → Bytecode}
  {view : D → Shown} {pays : T → BitVec 64 → List (Address × U256)}

/-- What the workers are spawned for. -/
def toRun (node : Node R T S D) (header : Header) (txs : List T) (concurrencyLevel : Nat) : Block T :=
  ⟨node.vm header txs, concurrencyLevel, node.sequential header txs⟩

theorem mapError_eq_some_ok {result : Option PevmResult} {err : PevmError → BlockError}
    (h : result.map (Except.mapError err) = some (.ok results)) : result = some (.ok results) := by
  obtain ⟨outcome, rfl, hok⟩ := Option.map_eq_some_iff.mp h
  exact congrArg some (Vm.mapError_eq_ok.mp hok)

theorem execute_sequential (htxs : node.txEnvs block = .ok txs) :
    p.execute node block concurrencyLevel true schedule =
      some (some ((node.sequential block.header txs).mapError .pevm), p) := by
  unfold execute
  rw [htxs]
  rfl

/-- The results of a call are those of `execute_revm_sequential` or of a call of
`execute_revm_parallel`. -/
theorem execute_cases (htxs : node.txEnvs block = .ok txs)
    (h : p.execute node block concurrencyLevel forceSequential schedule =
      some (some (.ok results), p')) :
    node.sequential block.header txs = .ok results ∨
      p.executeRevmParallel (toRun node block.header txs concurrencyLevel) schedule =
        some (some (.ok results), p') := by
  unfold execute at h
  rw [htxs] at h
  dsimp only at h
  split at h
  · have hresult := (Prod.mk.inj (Option.some.inj h)).1
    exact .inl (Vm.mapError_eq_ok.mp (Option.some.inj hresult))
  · obtain ⟨⟨result, q⟩, hcall, h⟩ := Option.map_eq_some_iff.mp h
    obtain ⟨hresult, rfl⟩ := Prod.mk.inj h
    have hok : result = some (.ok results) := mapError_eq_some_ok hresult
    exact .inr (hok ▸ hcall)

/-- A call that returns results does so after a run to its end, unless the block is empty. -/
theorem executeRevmParallel_eq_some {T : Type} {block : Block T}
    (h : p.executeRevmParallel block schedule = some (some (.ok results), p')) :
    block.vm.blockSize = 0 ∧ results = [] ∨
      ∃ s, (workers (block.vm.config block.concurrencyLevel)).run schedule (p.spawn block) = some s ∧
        joined block s = true ∧ collect block s = (some (.ok results), p') := by
  unfold executeRevmParallel at h
  split at h
  · next hempty =>
    cases h
    exact .inl ⟨hempty, rfl⟩
  · obtain ⟨s, hrun, h⟩ := Option.bind_eq_some_iff.mp h
    split at h
    · next hjoined => exact .inr ⟨s, hrun, hjoined, Option.some.inj h⟩
    · cases h

end PevmState

namespace Sample

/-- Ethereum over the sample storage, with one spec id. -/
def ethereumNode : Node (RpcTransaction TxType) TxEnv Unit Shown where
  chain := PevmEthereum
  getBlockSpec _ := ()
  getTxEnv := PevmEthereum.getTxEnv
  isEip161Enabled _ := true
  storage := storage
  hash := hash
  evm _ _ := countersBlock.vm.evm
  sequentialEvm _ _ := onShown (fun _ => counterCode) countersBlock.vm.evm

def rpcCall (signer : Address) : RpcTransaction TxType where
  txType := .legacy
  signer := signer
  gasLimit := 50000
  gasPrice := some 0
  maxFeePerGas := 0
  maxPriorityFeePerGas := none
  kind := .call counter
  value := 0
  nonce := 0
  blobVersionedHashes := none
  maxFeePerBlobGas := none
  authorizationList := none

/-- The two calls of the counter, with enough gas for a parallel execution. -/
def alloyBlock : AlloyBlock (RpcTransaction TxType) where
  header := ⟨22000000, 1741000000, beneficiary, 4000000, some 0⟩
  transactions := .full [rpcCall 1, rpcCall 2]

def nodeTxs : List TxEnv := [tx 1 counter 0, tx 2 counter 0]

theorem node_runsCounter : RunsCounter (ethereumNode.vm alloyBlock.header nodeTxs) fun _ => counterCode where
  storage := rfl
  hash := rfl
  fees := rfl
  caller := forall_lt_two (by decide) (by decide)
  calls := forall_lt_two rfl rfl
  counterCodes := rfl
  within := forall_lt_two (fun _ => callCounter_within (by decide))
    fun _ => callCounter_within (by decide)
  regular := forall_lt_two (by decide +kernel) (by decide +kernel)

theorem node_rewarded : (ethereumNode.vm alloyBlock.header nodeTxs).Rewarded (fun _ => counterCode)
    (onShown (fun _ => counterCode) countersBlock.vm.evm) id pays :=
  node_runsCounter.rewarded rfl
    (forall_lt_two (by decide) (by decide)) (forall_lt_two (by decide +kernel) (by decide +kernel))
    (forall_lt_two (by decide) (by decide))

/-- The second call is executed again. -/
def twiceSchedule : List WorkerId :=
  schedule [(0, 6), (1, 40), (0, 88), (1, 5)]

/-- Two results were returned. -/
def hasTwo : Option (Except BlockError (List PevmTxExecutionResult)) → Bool
  | some (.ok results) => decide (results.length = 2)
  | _ => false

end Sample

end Pevm
