import Pevm.Proofs.LazyAccounts

/-!
# Unchecked indices

The source indexes the vectors of a block without a check: `index_mutex!` for the statuses, the
dependents and the recorded locations, `slot_mut` and `take_slot` for the result slots,
`txs.get_unchecked`, `fully_evaluated_results.get_unchecked_mut`, and `read_origins.get_unchecked`
inside `basic`.

The bricks:

* `ReturnsTask.lt`: a task that an operation of the scheduler returns is inside the block;
* `System.indexed_lt`: so is every index of the next step of a worker;
* `keys_reachable`: so is every key of every location's map;
* `walkUnchecked_eq`, `evaluateHistoryUnchecked_eq`: the two loops that index a list they did not
  size themselves never leave it.

The last two are about versions of the loops in which an index outside the list is an outcome of
its own, `none`.
-/

namespace Pevm

open Interleaving Scheduler MvMemory

/-! ## The scheduler -/

section Scheduler

variable {X R E : Type} {cfg : Config X R E} {w : WorkerId} {s s' : System X R E}

/-- The next step of worker `w` returns this task from `next_task`, `finish_execution` or
`finish_validation`. -/
inductive ReturnsTask (s : System X R E) (w : WorkerId) : Task → Prop where
  | nextTask {pc : NextTaskPc} {scheduler : Scheduler} {task : Task}
      (hpc : s.pc w = .nextTask pc)
      (h : s.scheduler.nextTaskStep pc = some (scheduler, .ret (some task))) : ReturnsTask s w task
  | finishExecution {v : TxVersion} {flags : FinishExecFlags} {pc : FinishExecutionPc}
      {scheduler : Scheduler} {task : Task} (hpc : s.pc w = .finishExecution v flags pc)
      (h : s.scheduler.finishExecutionStep w v flags pc = some (scheduler, .ret (some task))) :
      ReturnsTask s w task
  | finishValidation {v : TxVersion} {pc : FinishValidationPc} {scheduler : Scheduler}
      {task : Task} (hpc : s.pc w = .finishValidation v pc)
      (h : s.scheduler.finishValidationStep w v pc = some (scheduler, .ret (some task))) :
      ReturnsTask s w task

theorem ReturnsTask.lt {task : Task} (hb : Bounds cfg s) (h : ReturnsTask s w task) :
    task.version.txIdx < cfg.blockSize := by
  -- the worker holds the returned task after the step
  have hheld : ∀ s', workerStep cfg w s = some s' → (s'.pc w).InBounds cfg.blockSize :=
    fun s' hstep => (step_of_workerStep hb.finishExecution_lt hstep).inBounds hb
  cases h with
  | @nextTask pc scheduler _ hpc h =>
    have hin := hheld ((s.withScheduler scheduler).goto w (startTask cfg.executor task))
      (by simp only [workerStep, hpc, h])
    rw [System.goto_pc, Function.update_self] at hin
    cases task with
    | execution v => exact hin
    | validation v => exact hin
  | @finishExecution v flags pc scheduler _ hpc h =>
    have hin := hheld (((s.withScheduler scheduler).record (finishEvents v flags pc)).goto w
      (.checkAbortReason (some task))) (by simp only [workerStep, hpc, h])
    rw [System.goto_pc, Function.update_self] at hin
    exact hin
  | @finishValidation v pc scheduler _ hpc h =>
    have hin := hheld ((s.withScheduler scheduler).goto w (.checkAbortReason (some task)))
      (by simp only [workerStep, hpc, h])
    rw [System.goto_pc, Function.update_self] at hin
    exact hin

/-- The transactions with which the next step of worker `w` indexes `txs`, the result slots and,
through `index_mutex!`, the statuses, the dependents and the recorded locations. -/
def System.indexed (s : System X R E) (w : WorkerId) : List Nat :=
  match s.pc w with
  | .nextTask (.checkStatus i) | .nextTask (.tryExecute i) => [i]
  | .execute v _ | .record v _ _ _ _ _ | .writeResult v _ _ => [v.txIdx]
  -- `set_ready_status` of the drained dependents
  | .finishExecution v _ .drain => v.txIdx :: s.scheduler.transactionsDependents v.txIdx
  | .finishExecution v _ _ => [v.txIdx]
  | .addDependency v blockingTxIdx _ => [blockingTxIdx, v.txIdx]
  | .validate v _ | .tryValidationAbort v _ | .convertWrites v _ | .finishValidation v _ =>
    [v.txIdx]
  | _ => []

theorem System.indexed_lt (hb : Bounds cfg s) {i : Nat} (hi : i ∈ s.indexed w) :
    i < cfg.blockSize := by
  have hw := hb.pc w
  unfold System.indexed at hi
  split at hi
  case h_6 v flags heq =>
    rw [heq] at hw
    rcases List.mem_cons.mp hi with rfl | hdep
    · exact hw
    · exact (hb.dependents v.txIdx i hdep).2
  case h_7 v flags pc _ heq =>
    rw [List.mem_singleton.mp hi, ← hb.blockSize]
    exact hb.finishExecution_lt v flags pc heq
  case h_8 v b pc heq =>
    rw [heq] at hw
    -- a blocking transaction is lower than the one it blocks
    have hlt : v.txIdx < cfg.blockSize ∧ b < v.txIdx := hw
    rcases List.mem_cons.mp hi with rfl | hi
    · omega
    · rw [List.mem_singleton.mp hi]
      exact hlt.1
  case h_13 => cases hi
  all_goals
    rename_i heq
    rw [heq] at hw
    rw [List.mem_singleton.mp hi]
    exact hw

theorem minValidationIdx_reachable (h : (workers cfg).Reachable s) :
    s.scheduler.minValidationIdx ≤ cfg.blockSize :=
  invariant_of_step (P := fun s => s.scheduler.minValidationIdx ≤ cfg.blockSize)
    (fun s (hs : initial cfg s) => by
      rw [hs.1]
      exact le_rfl)
    (fun _ _ _ _ _ _ hstep hmin => hstep.minValidationIdx_le.trans hmin) h

/-! ## The keys of the multi-version memory -/

theorem entry_setEstimate_ne_none {m : MvMemory} {l l' : MemoryLocationHash} {i j : Nat}
    (h : (m.setEstimate l i).entry l' j ≠ none) : j = i ∨ m.entry l' j ≠ none := by
  by_cases hd : (m.data l).isSome
  · rw [entry_setEstimate _ _ _ _ _ hd] at h
    split_ifs at h with heq
    · exact .inl heq.2
    · exact .inr h
  · -- a location without a map gets none
    have hnone : m.data l = none := Option.not_isSome_iff_eq_none.mp hd
    refine .inr fun hentry => h ?_
    rw [← hentry, entry_congr]
    show Function.update m.data l ((m.data l).map _) = m.data
    rw [hnone, Option.map_none, ← hnone, Function.update_eq_self]

/-- A step adds keys of the transaction its worker holds, and no others. -/
theorem Step.key (h : Step cfg w s s') {l : MemoryLocationHash} {i : Nat}
    (hi : s'.mvMemory.entry l i ≠ none) : i ∈ s.indexed w ∨ s.mvMemory.entry l i ≠ none := by
  rcases h.memoryEffect with hd | ⟨-, hd⟩ | ⟨-, -, hd⟩ | ⟨hpc, -, -, hd⟩ | ⟨hpc, -, -, hd⟩ |
    ⟨hpc, -, hd⟩
  case none | lock =>
    rw [entry_congr l i hd] at hi
    exact .inr hi
  case remove =>
    rw [entry_congr l i hd, entry_removeEntry] at hi
    split_ifs at hi
    · exact absurd rfl hi
    · exact .inr hi
  case insertOld | insertNew =>
    rw [entry_congr l i hd, entry_insertEntry] at hi
    split_ifs at hi with heq
    · left
      simp [System.indexed, hpc, heq.2]
    · exact .inr hi
  case convert =>
    rw [entry_congr l i hd] at hi
    rcases entry_setEstimate_ne_none hi with rfl | hi
    · left
      simp [System.indexed, hpc]
    · exact .inr hi

theorem keys_reachable
    (hestimates : ∀ p ∈ cfg.estimatedLocations, ∀ i ∈ p.2, i < cfg.blockSize)
    (h : (workers cfg).Reachable s) {l : MemoryLocationHash} {i : Nat}
    (hi : s.mvMemory.entry l i ≠ none) : i < cfg.blockSize := by
  refine invariant_of_step
    (P := fun s => ∀ l i, s.mvMemory.entry l i ≠ none → i < cfg.blockSize)
    (fun s hs l i hi => ?_) (fun w s s' hb _ _ hstep hkeys l i hi => ?_) h l i hi
  · rw [hs.2.1] at hi
    obtain ⟨e, he⟩ := Option.ne_none_iff_exists'.mp hi
    obtain ⟨-, txIdxs, hmem, hi⟩ := new_entry he
    exact hestimates _ hmem i hi
  · rcases hstep.key hi with hheld | hold
    · exact System.indexed_lt hb hheld
    · exact hkeys l i hold

end Scheduler

/-! ## The previous origins in `basic` -/

namespace LazyEvaluation

/-- The comparison of a new origin with the previous ones. It is `none` where
`read_origins.get_unchecked(new_origins.len())` is outside the previous origins. -/
def matchesPrevOrigin (readOrigins newOrigins : ReadOrigins) (origin : ReadOrigin) : Option Bool :=
  if readOrigins = [] then some true
  -- the new origins will be longer than the previous ones
  else if readOrigins.length = newOrigins.length then some false
  else (readOrigins[newOrigins.length]?).map fun prevOrigin => decide (prevOrigin = origin)

/-- `walk` with the tests and the unchecked read of the source. -/
def walkUnchecked (readOrigins : ReadOrigins) :
    List (Nat × MemoryEntry) → LazyEvaluation → Option (Except ReadError LazyEvaluation)
  | [], acc => some (.ok acc)
  | (blockingIdx, .estimate) :: _, _ => some (.error (.blocking blockingIdx))
  | (closestIdx, .data txIncarnation value) :: entries, acc =>
    let origin := ReadOrigin.mvMemory ⟨closestIdx, txIncarnation⟩
    match matchesPrevOrigin readOrigins acc.newOrigins origin with
    | none => none
    | some false => some (.error .inconsistentRead)
    | some true =>
      let acc := { acc with newOrigins := acc.newOrigins ++ [origin] }
      match value with
      | .basic account => some (.ok { acc with finalAccount := some account })
      | .lazyRecipient addition => walkUnchecked readOrigins entries (acc.addRecipient addition)
      | .lazySender subtraction => walkUnchecked readOrigins entries (acc.addSender subtraction)
      | _ => some (.error .invalidMemoryValueType)

theorem matchesPrevOrigin_eq {readOrigins newOrigins : ReadOrigins} {origin : ReadOrigin}
    (hlength : readOrigins = [] ∨ newOrigins.length ≤ readOrigins.length) :
    matchesPrevOrigin readOrigins newOrigins origin =
      some (!decide (readOrigins ≠ [] ∧ readOrigins[newOrigins.length]? ≠ some origin)) := by
  unfold matchesPrevOrigin
  split_ifs with hnil heq
  · simp [hnil]
  · -- the position after the last previous origin holds none
    have hout : readOrigins[newOrigins.length]? = none :=
      List.getElem?_eq_none (by omega)
    simp [hnil, hout]
  · have hlt : newOrigins.length < readOrigins.length := by
      rcases hlength with h | h
      · exact absurd h hnil
      · omega
    rw [List.getElem?_eq_getElem hlt]
    simp [hnil]

/-- Every unchecked read of the previous origins is inside them. -/
theorem walkUnchecked_eq {readOrigins : ReadOrigins} : ∀ {entries : List (Nat × MemoryEntry)}
    {acc : LazyEvaluation}, (readOrigins = [] ∨ acc.newOrigins.length ≤ readOrigins.length) →
    walkUnchecked readOrigins entries acc = some (walk readOrigins entries acc)
  | [], acc, hlength => rfl
  | (i, .estimate) :: entries, acc, hlength => rfl
  | (i, .data k value) :: entries, acc, hlength => by
    unfold walkUnchecked walk
    simp only [matchesPrevOrigin_eq hlength]
    by_cases hprev : readOrigins ≠ [] ∧
        readOrigins[acc.newOrigins.length]? ≠ some (.mvMemory ⟨i, k⟩)
    · rw [decide_eq_true hprev, if_pos hprev]
      rfl
    · -- the origin is pushed where the previous origins have the same one
      have hpushed : readOrigins = [] ∨
          (acc.newOrigins ++ [ReadOrigin.mvMemory ⟨i, k⟩]).length ≤ readOrigins.length := by
        rcases not_and_or.mp hprev with hnil | hsame
        · exact .inl (not_not.mp hnil)
        · obtain ⟨hlt, -⟩ := List.getElem?_eq_some_iff.mp (not_not.mp hsame)
          exact .inr (by simpa using hlt)
      rw [decide_eq_false hprev, if_neg hprev]
      cases value with
      | lazyRecipient addition => exact walkUnchecked_eq (by simpa using hpushed)
      | lazySender subtraction => exact walkUnchecked_eq (by simpa using hpushed)
      | _ => rfl

end LazyEvaluation

/-! ## The results in the lazy evaluation -/

/-- `ExecutionResults::grow_to`: the length of the buffer afterwards. -/
def growTo (length blockSize : Nat) : Nat :=
  if blockSize > length then blockSize else length

namespace Vm

variable {T : Type} {vm : Vm T}

/-- `evaluateHistory` with the two unchecked indices of the source, `none` where one of them is
outside the transactions or the results. -/
def evaluateHistoryUnchecked (vm : Vm T) (address : Address) (codeHash : Option B256)
    (code : Option Bytecode) :
    List (Nat × MemoryEntry) → AccountBasic → List PevmTxExecutionResult →
      Option (Except PevmError (List PevmTxExecutionResult))
  | [], _, results => some (.ok results)
  | (txIdx, entry) :: rest, account, results =>
    -- `txs.get_unchecked`
    if vm.blockSize ≤ txIdx then none
    else
      let tx := vm.chain.txEnv (vm.txs txIdx)
      match evaluateEntry tx account entry with
      | .error err => some (.error err)
      | .ok account =>
        match checkExecutedNonce txIdx tx address account.nonce with
        | .error err => some (.error err)
        | .ok () =>
          -- `fully_evaluated_results.get_unchecked_mut`
          if results.length ≤ txIdx then none
          else
            evaluateHistoryUnchecked vm address codeHash code rest account
              (results.modify txIdx fun result =>
                { result with
                  state := EvmStateTransitions.modifyEntry address
                    (writeAccount vm.isEip161Enabled codeHash code account) result.state })

/-- With keys below the block size and a result for every transaction, no index is outside. -/
theorem evaluateHistoryUnchecked_eq {address : Address} {codeHash : Option B256}
    {code : Option Bytecode} : ∀ {entries : List (Nat × MemoryEntry)} {account : AccountBasic}
    {results : List PevmTxExecutionResult}, (∀ p ∈ entries, p.1 < vm.blockSize) →
    results.length = vm.blockSize →
    vm.evaluateHistoryUnchecked address codeHash code entries account results =
      some (vm.evaluateHistory address codeHash code entries account results)
  | [], account, results, hkeys, hlength => rfl
  | (i, entry) :: rest, account, results, hkeys, hlength => by
    have hi : i < vm.blockSize := hkeys _ List.mem_cons_self
    unfold evaluateHistoryUnchecked evaluateHistory
    rw [if_neg (by omega)]
    cases hentry : evaluateEntry (vm.chain.txEnv (vm.txs i)) account entry with
    | error err => simp only [hentry, bind, Except.bind]
    | ok after =>
      cases hnonce : checkExecutedNonce i (vm.chain.txEnv (vm.txs i)) address after.nonce with
      | error err => simp only [hentry, bind, Except.bind, hnonce]
      | ok u =>
        simp only [hentry, bind, Except.bind, hnonce]
        rw [if_neg (by omega)]
        exact evaluateHistoryUnchecked_eq (fun p hp => hkeys p (List.mem_cons_of_mem _ hp))
          ((List.length_modify ..).trans hlength)

theorem foldlM_evaluateAddress_length {m : MvMemory} : ∀ {addresses : List Address}
    {results results' : List PevmTxExecutionResult},
    addresses.foldlM (vm.evaluateAddress m) results = .ok results' →
    results'.length = results.length
  | [], results, results', h => by
    cases h
    rfl
  | address :: addresses, results, results', h => by
    rw [List.foldlM_cons] at h
    obtain ⟨next, hnext, h⟩ := bind_eq_ok.mp h
    exact (foldlM_evaluateAddress_length h).trans (evaluateAddress_length hnext)

/-! ## Every unchecked index -/

/-- `build_mv_memory` marks transactions of the block. -/
theorem estimates_lt {isEip161Enabled : Bool}
    (hsource : SourceChain vm.chain isEip161Enabled) (concurrencyLevel : Nat) :
    ∀ p ∈ (vm.config concurrencyLevel).estimatedLocations, ∀ i ∈ p.2, i < vm.blockSize := by
  obtain ⟨chain, eip161, blockEnv, blockSize, txs, storage, hash, evm⟩ := vm
  intro p hp i hi
  obtain ⟨l, is⟩ := p
  show i < blockSize
  cases hsource with
  | ethereum =>
    obtain ⟨rfl, rfl⟩ := Prod.mk.inj (List.mem_singleton.mp hp)
    simpa using List.mem_range.mp hi
  | rise =>
    obtain ⟨tx, htx, -⟩ := mem_estimates_rise hp hi
    obtain ⟨hlt, -⟩ := List.getElem?_eq_some_iff.mp htx
    simpa using hlt

/-- The unchecked indices of a state of the workers, and of the evaluation from it, are in range.
The statuses, the dependents, the recorded locations and the transactions have the length of the
block, and the result slots at least that. -/
structure IndicesInRange (vm : Vm T)
    (s : System Execution PevmTxExecutionResult ExecutionError) : Prop where
  /-- `Vm::new` indexes the first transaction -/
  first : 0 < vm.blockSize
  returned : ∀ w task, ReturnsTask s w task → task.version.txIdx < vm.blockSize
  blocking : ∀ w v x blockingTxIdx, s.pc w = .execute v x →
    vm.executeStep v s.mvMemory x = .error (.blocking blockingTxIdx) → blockingTxIdx < v.txIdx
  dependent : ∀ i, ∀ d ∈ s.scheduler.transactionsDependents i, d < vm.blockSize
  key : ∀ location history i, s.mvMemory.data location = some history → history i ≠ none →
    i < vm.blockSize
  blockSize : s.scheduler.blockSize = vm.blockSize
  /-- the subtraction in `next_task` -/
  minValidationIdx : s.scheduler.minValidationIdx ≤ s.scheduler.blockSize
  indexed : ∀ w, ∀ i ∈ s.indexed w, i < vm.blockSize
  /-- `slot_mut` of a transaction, and `take_slot` for `0..block_size` -/
  slot : ∀ length i, i < vm.blockSize → i < growTo length vm.blockSize
  /-- `read_origins.get_unchecked`, whatever the previous origins and the entries below -/
  prevOrigin : ∀ readOrigins entries, LazyEvaluation.walkUnchecked readOrigins entries .start =
    some (LazyEvaluation.walk readOrigins entries .start)
  /-- the evaluation of a lazy address over any entries of its map -/
  evaluated : ∀ slots evaluated address rest results history entries codeHash code account,
    PevmState.takeSlots s.executionResults vm.blockSize = some slots →
    s.mvMemory.lazyAddresses = evaluated ++ address :: rest →
    evaluated.foldlM (vm.evaluateAddress s.mvMemory) (cumulateGas 0 slots) = .ok results →
    s.mvMemory.data (vm.hash (.basic address)) = some history →
    (∀ p ∈ entries, history p.1 = some p.2) →
    vm.evaluateHistoryUnchecked address codeHash code entries account results =
      some (vm.evaluateHistory address codeHash code entries account results)

/-- **All unchecked indexing stays in bounds**, in every reachable state of every non-empty block
and every number of workers. -/
theorem indices_in_range {isEip161Enabled : Bool}
    (hsource : SourceChain vm.chain isEip161Enabled) (hn : 0 < vm.blockSize)
    {concurrencyLevel : Nat} {s : System Execution PevmTxExecutionResult ExecutionError}
    (h : (workers (vm.config concurrencyLevel)).Reachable s) : vm.IndicesInRange s := by
  have hb := bounds_reachable h
  have hkey : ∀ location history i, s.mvMemory.data location = some history →
      history i ≠ none → i < vm.blockSize := by
    intro location history i hdata hi
    have hentry : s.mvMemory.entry location i ≠ none := by
      show (s.mvMemory.data location).bind _ ≠ none
      rw [hdata]
      exact hi
    exact keys_reachable (estimates_lt hsource concurrencyLevel) h hentry
  exact {
    first := hn
    returned := fun w task htask => htask.lt hb
    blocking := fun w v x b _ hx => vm.executeStep_blocking hx
    dependent := fun i d hd => (hb.dependents i d hd).2
    key := hkey
    blockSize := hb.blockSize
    minValidationIdx := by
      rw [hb.blockSize]
      exact minValidationIdx_reachable h
    indexed := fun w i hi => System.indexed_lt hb hi
    slot := by
      intro length i hi
      unfold growTo
      split_ifs <;> omega
    prevOrigin := fun readOrigins entries =>
      LazyEvaluation.walkUnchecked_eq (.inr (Nat.zero_le _))
    evaluated := by
      intro slots evaluated address rest results history entries codeHash code account hslots _
        hresults hdata hentries
      apply evaluateHistoryUnchecked_eq
      · intro p hp
        have hentry := hentries p hp
        exact hkey _ history p.1 hdata (by simp [hentry])
      · -- a result for every slot, and the evaluation of an address keeps their number
        rw [foldlM_evaluateAddress_length hresults, cumulateGas_length]
        exact PevmState.takeSlots_length hslots }

end Vm

/-- Both workers of the sample block have run past its end, one of them about to validate its last
transaction. -/
theorem indices_in_range_sample : ∃ s, (workers Sample.config).Reachable s ∧
    Sample.vm.blockSize < s.scheduler.executionIdx ∧
    Sample.vm.blockSize < s.scheduler.validationIdx ∧ s.indexed 1 = [2] ∧
    Sample.vm.IndicesInRange s := by
  obtain ⟨s, hs, hp⟩ := Sample.exists_reachable Sample.config
    [(0, 33), (1, 27), (0, 38), (1, 2), (0, 2)]
    (fun s => decide (Sample.vm.blockSize < s.scheduler.executionIdx) &&
      decide (Sample.vm.blockSize < s.scheduler.validationIdx) && decide (s.indexed 1 = [2]))
    (by decide +kernel)
  simp only [Bool.and_eq_true, decide_eq_true_eq] at hp
  obtain ⟨⟨he, hv⟩, hi⟩ := hp
  exact ⟨s, hs, he, hv, hi,
    Vm.indices_in_range (.ethereum true) (by decide) hs⟩

end Pevm
