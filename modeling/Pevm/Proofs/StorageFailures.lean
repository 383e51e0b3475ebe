import Pevm.Sequential
import Pevm.Proofs.Failures
import Pevm.Proofs.PostProcessing

/-!
# Failures of the storage

Any call of the storage may fail, now or at the next attempt. An execution that meets a failure ends
with the error of the storage and aborts the block, and the sequential execution stops at it. What an
accepted block returns it may therefore return over the storage that never fails
(`ok_of_failing`), with one exception: the evaluation of the lazily written accounts takes a failed
`basic` for a missing account (`evaluationStart`). The exception does no harm as long as the accounts
that it takes for missing have nothing to lose (`ok_of_losesNone`).
-/

namespace Pevm

open Interleaving MvMemory

/-- The storage `failing` gives the answers of `storage`, or none. -/
structure Storage.MayFail (failing reliable : Storage) : Prop where
  basic : ∀ address, failing.basic address = reliable.basic address ∨
    ∃ message, failing.basic address = .error message
  codeHash : ∀ address, failing.codeHash address = reliable.codeHash address ∨
    ∃ message, failing.codeHash address = .error message
  codeByHash : ∀ hash, failing.codeByHash hash = reliable.codeByHash hash ∨
    ∃ message, failing.codeByHash hash = .error message
  storage : ∀ address index, failing.storage address index = reliable.storage address index ∨
    ∃ message, failing.storage address index = .error message
  blockHash : ∀ number, failing.blockHash number = reliable.blockHash number ∨
    ∃ message, failing.blockHash number = .error message

/-- The error of a failed call of the storage. -/
def StorageFailure : ExecutionError → Prop
  | .database (.storageError _) => True
  | _ => False

namespace Vm

variable {T : Type} {vm : Vm T} {failing : Storage} {m : MvMemory} {txIdx : Nat} {db : VmDb}

/-- The same block on another storage. -/
def withStorage (vm : Vm T) (storage : Storage) : Vm T :=
  { vm with storage := storage }

/-! ## The reads of an execution -/

/-- A read gives the answer it gives over the reliable storage, or fails. -/
def AnswersOrFails {α : Type} (read reliable : Except ReadError α) : Prop :=
  read = reliable ∨ ∃ message, read = .error (.storageError message)

theorem answersOrFails_bind {α β : Type} {x x' : Except ReadError α}
    {f f' : α → Except ReadError β} (hx : AnswersOrFails x' x)
    (hf : ∀ a, AnswersOrFails (f' a) (f a)) : AnswersOrFails (x' >>= f') (x >>= f) := by
  rcases hx with rfl | ⟨message, rfl⟩
  · cases x' with
    | error err => exact .inl rfl
    | ok a => exact hf a
  · exact .inr ⟨message, rfl⟩

theorem answersOrFails_mapError {α : Type} {x x' : Except String α}
    (h : x' = x ∨ ∃ message, x' = .error message) :
    AnswersOrFails (x'.mapError ReadError.storageError) (x.mapError ReadError.storageError) := by
  rcases h with rfl | ⟨message, rfl⟩
  · exact .inl rfl
  · exact .inr ⟨message, rfl⟩

theorem getCodeHash_withStorage (h : failing.MayFail vm.storage) (address : Address) :
    AnswersOrFails ((vm.withStorage failing).getCodeHash m txIdx db address)
      (vm.getCodeHash m txIdx db address) := by
  have hfallback : ∀ os location, AnswersOrFails (do
      let readOrigins ← pushOrigin os .storage
      let codeHash ← (failing.codeHash address).mapError .storageError
      .ok ({ db with readSet := db.readSet.insert location readOrigins }, codeHash)) (do
      let readOrigins ← pushOrigin os .storage
      let codeHash ← (vm.storage.codeHash address).mapError .storageError
      .ok ({ db with readSet := db.readSet.insert location readOrigins }, codeHash)) :=
    fun os location => answersOrFails_bind (.inl rfl) fun _ =>
      answersOrFails_bind (answersOrFails_mapError (h.codeHash address)) fun _ => .inl rfl
  unfold getCodeHash
  simp only [withStorage]
  split
  · split
    · exact .inl rfl
    · exact .inl rfl
    · exact hfallback _ _
  · exact hfallback _ _

theorem readCode_withStorage (h : failing.MayFail vm.storage) (codeHash : Option B256) :
    AnswersOrFails ((vm.withStorage failing).readCode m codeHash) (vm.readCode m codeHash) := by
  cases codeHash with
  | none => exact .inl rfl
  | some hash =>
    unfold readCode
    simp only [withStorage]
    split
    · exact .inl rfl
    · exact answersOrFails_mapError (h.codeByHash hash)

theorem codeByHash_withStorage (h : failing.MayFail vm.storage) (hash : B256) :
    AnswersOrFails ((vm.withStorage failing).codeByHash hash) (vm.codeByHash hash) :=
  answersOrFails_bind (answersOrFails_mapError (h.codeByHash hash)) fun _ => .inl rfl

theorem readStorage_withStorage (h : failing.MayFail vm.storage) (address : Address)
    (index : U256) : AnswersOrFails ((vm.withStorage failing).readStorage m txIdx db address index)
      (vm.readStorage m txIdx db address index) := by
  unfold readStorage
  simp only [withStorage]
  split
  · exact .inl rfl
  · exact .inl rfl
  · exact .inl rfl
  · exact answersOrFails_bind (.inl rfl) fun _ =>
      answersOrFails_bind (answersOrFails_mapError (h.storage address index)) fun _ => .inl rfl

theorem fallBackToStorage_withStorage (h : failing.MayFail vm.storage) (os : ReadOrigins)
    (address : Address) (eval : LazyEvaluation) :
    AnswersOrFails ((vm.withStorage failing).fallBackToStorage os address eval)
      (vm.fallBackToStorage os address eval) := by
  unfold fallBackToStorage
  split
  · exact .inl rfl
  · simp only [withStorage]
    rcases h.basic address with heq | ⟨message, herr⟩
    · rw [heq]
      exact .inl rfl
    · rw [herr]
      split
      · exact .inl rfl
      · exact .inr ⟨message, rfl⟩

theorem readBasic_withStorage (h : failing.MayFail vm.storage) (address : Address) :
    AnswersOrFails ((vm.withStorage failing).readBasic m txIdx db address)
      (vm.readBasic m txIdx db address) :=
  answersOrFails_bind (.inl rfl) fun eval =>
    answersOrFails_bind (fallBackToStorage_withStorage h _ address eval) fun _ => .inl rfl

/-! ## The executions -/

/-- **A step of an execution asks the storage once.** It goes on as over the reliable storage or
fails. -/
theorem executeStep_withStorage (h : failing.MayFail vm.storage) (v : TxVersion) (m : MvMemory)
    (x : Execution) : (vm.withStorage failing).executeStep v m x = vm.executeStep v m x ∨
      ∃ err, StorageFailure err ∧
        (vm.withStorage failing).executeStep v m x = .error (.executionError err) := by
  obtain ⟨db, pc⟩ := x
  have hfail : ∀ message, StorageFailure (.database (.storageError message)) := fun _ => trivial
  -- the program counters of the reads, then those that do not ask the storage
  cases pc with
  | toCodeHash recipient =>
    have hread : AnswersOrFails ((vm.withStorage failing).getCodeHash m v.txIdx db recipient)
        (vm.getCodeHash m v.txIdx db recipient) := getCodeHash_withStorage h recipient
    unfold executeStep
    rcases hread with heq | ⟨message, herr⟩
    · simp only [heq]
      exact .inl rfl
    · simp only [herr]
      exact .inr ⟨_, hfail message, rfl⟩
  | basicCodeHash address account next =>
    have hread : AnswersOrFails ((vm.withStorage failing).getCodeHash m v.txIdx db address)
        (vm.getCodeHash m v.txIdx db address) := getCodeHash_withStorage h address
    unfold executeStep
    rcases hread with heq | ⟨message, herr⟩
    · exact .inl (by simp only [heq])
    · simp only [herr]
      exact .inr ⟨_, hfail message, rfl⟩
  | basicCode address account codeHash next =>
    have hread : AnswersOrFails ((vm.withStorage failing).readCode m codeHash)
        (vm.readCode m codeHash) := readCode_withStorage h codeHash
    unfold executeStep
    rcases hread with heq | ⟨message, herr⟩
    · left
      simp only [heq]
      rfl
    · simp only [herr]
      exact .inr ⟨_, hfail message, rfl⟩
  | run program =>
    cases program with
    | basic address next =>
      have hread : AnswersOrFails ((vm.withStorage failing).readBasic m v.txIdx db address)
          (vm.readBasic m v.txIdx db address) := readBasic_withStorage h address
      have hlocation : (vm.withStorage failing).hashBasic db address = vm.hashBasic db address := rfl
      unfold executeStep
      rcases hread with heq | ⟨message, herr⟩
      · exact .inl (by simp only [heq, hlocation])
      · -- a mocked account is not read
        simp only [herr, hlocation]
        split_ifs
        · exact .inl rfl
        · exact .inl rfl
        · exact .inr ⟨_, hfail message, rfl⟩
    | codeByHash hash next =>
      have hread := codeByHash_withStorage h hash
      unfold executeStep
      rcases hread with heq | ⟨message, herr⟩
      · exact .inl (by simp only [heq])
      · simp only [herr]
        exact .inr ⟨_, hfail message, rfl⟩
    | storage address index next =>
      have hread : AnswersOrFails ((vm.withStorage failing).readStorage m v.txIdx db address index)
          (vm.readStorage m v.txIdx db address index) := readStorage_withStorage h address index
      unfold executeStep
      rcases hread with heq | ⟨message, herr⟩
      · exact .inl (by simp only [heq])
      · simp only [herr]
        exact .inr ⟨_, hfail message, rfl⟩
    | blockHash number next =>
      unfold executeStep
      rcases h.blockHash number with heq | ⟨message, herr⟩
      · simp only [withStorage, heq]
        exact .inl trivial
      · simp only [withStorage, herr]
        exact .inr ⟨_, hfail message, rfl⟩
    | finish result state => exact .inl rfl
    | fail err => exact .inl rfl
  | containsFrom => exact .inl rfl
  | containsTo => exact .inl rfl
  | finish result state bytecodes => cases bytecodes <;> exact .inl rfl
  | addLazyAddresses result state writes => exact .inl rfl
  | record result state writes => exact .inl rfl

theorem executor_mayFail (h : failing.MayFail vm.storage) :
    (vm.withStorage failing).executor.MayFail StorageFailure vm.executor where
  start := rfl
  step := executeStep_withStorage h

/-! ## The evaluation of the lazy accounts -/

/-- The evaluation starts from the storage: the first entry is not an absolute value. -/
def startsFromStorage (entries : List (Nat × MemoryEntry)) : Bool :=
  match entries.head? with
  | some (_, .data _ (.basic _)) => false
  | _ => true

/-- The evaluation of the lazy accounts, each on the storage as it finds it. The set of lazy
addresses has each of them once. -/
def evaluateFailing (vm : Vm T) (storages : Address → Storage) (m : MvMemory)
    (results : List PevmTxExecutionResult) : Except PevmError (List PevmTxExecutionResult) :=
  m.lazyAddresses.foldlM
    (fun results address => (vm.withStorage (storages address)).evaluateAddress m results address)
    (cumulateGas 0 results)

/-- The evaluation of this address asked for its account and was not answered, which it does not
see. -/
def overlooked (vm : Vm T) (storages : Address → Storage) (m : MvMemory) (address : Address) : Bool :=
  match m.data (vm.hash (.basic address)) with
  | none => false
  | some history =>
    startsFromStorage (vm.writeHistory history) && !((storages address).basic address).isOk

/-- It takes an account for missing that has a balance or a nonce. -/
def loses (vm : Vm T) (storages : Address → Storage) (m : MvMemory) (address : Address) : Bool :=
  vm.overlooked storages m address &&
    decide ((vm.storage.basic address).toOption.join.getD .default ≠ .default)

end Vm

/-- The storage without the accounts of some addresses. -/
def Storage.forgetting (storage : Storage) (forgotten : Address → Bool) : Storage :=
  { storage with
    basic := fun address => if forgotten address then .ok none else storage.basic address }

namespace Vm

variable {T : Type} {vm : Vm T} {failing : Storage} {m : MvMemory} {address : Address}

theorem evaluationStart_eq (vm : Vm T) (address : Address) (entries : List (Nat × MemoryEntry)) :
    vm.evaluationStart address entries =
      if startsFromStorage entries then ((vm.storage.basic address).toOption.join).getD .default
      else .default := by
  unfold evaluationStart startsFromStorage
  -- the three answers of the storage first, so that both sides reduce whatever the entry is
  rcases vm.storage.basic address with message | _ | account
  all_goals
    rcases entries.head? with _ | ⟨i, ⟨k, value⟩ | _⟩
    · rfl
    · cases value <;> rfl
    · rfl

/-- A failed `basic` starts the evaluation from the account of a missing one. -/
theorem evaluationStart_forgetting (h : failing.MayFail vm.storage)
    {entries : List (Nat × MemoryEntry)} {forgotten : Address → Bool}
    (hforgotten : forgotten address = (startsFromStorage entries && !(failing.basic address).isOk)) :
    (vm.withStorage (vm.storage.forgetting forgotten)).evaluationStart address entries =
      (vm.withStorage failing).evaluationStart address entries := by
  rw [evaluationStart_eq, evaluationStart_eq]
  cases hstart : startsFromStorage entries with
  | false => rfl
  | true =>
    simp only [withStorage, Storage.forgetting, hforgotten, hstart, Bool.true_and, if_true]
    rcases h.basic address with heq | ⟨message, herr⟩
    · rw [heq]
      cases vm.storage.basic address <;> rfl
    · rw [herr]
      rfl

theorem evaluateHistory_withStorage {storage : Storage} {codeHash : Option B256}
    {code : Option Bytecode} {entries : List (Nat × MemoryEntry)} {account : AccountBasic}
    {results : List PevmTxExecutionResult} :
    (vm.withStorage storage).evaluateHistory address codeHash code entries account results =
      vm.evaluateHistory address codeHash code entries account results := by
  induction entries generalizing account results with
  | nil => rfl
  | cons p rest ih =>
    unfold evaluateHistory
    simp only [ih]
    rfl

/-- What was answered is the answer. -/
theorem answer_of_ok {α : Type} {actual reliable : Except String α} {a : α}
    (h : actual = reliable ∨ ∃ message, actual = .error message) (hok : actual = .ok a) :
    reliable = .ok a := by
  rcases h with rfl | ⟨message, herr⟩
  · exact hok
  · rw [hok] at herr
    cases herr

/-- An accepted evaluation of an address is that on a storage that never fails, if it starts from the
same account. -/
theorem evaluateAddress_forgetting (h : failing.MayFail vm.storage) {forgotten : Address → Bool}
    (hstart : ∀ history, m.data (vm.hash (.basic address)) = some history →
      (vm.withStorage (vm.storage.forgetting forgotten)).evaluationStart address
          (vm.writeHistory history) =
        (vm.withStorage failing).evaluationStart address (vm.writeHistory history))
    {results results' : List PevmTxExecutionResult}
    (hok : (vm.withStorage failing).evaluateAddress m results address = .ok results') :
    (vm.withStorage (vm.storage.forgetting forgotten)).evaluateAddress m results address =
      .ok results' := by
  unfold evaluateAddress at hok ⊢
  have hlocation : ∀ storage, (vm.withStorage storage).hash (.basic address) =
      vm.hash (.basic address) := fun _ => rfl
  rw [hlocation] at hok ⊢
  cases hdata : m.data (vm.hash (.basic address)) with
  | none =>
    rw [hdata] at hok
    exact hok
  | some history =>
    rw [hdata] at hok
    obtain ⟨codeHash, hcodeHash, hok⟩ := bind_eq_ok.mp hok
    have hcodeHash' : failing.codeHash address = .ok codeHash := mapError_eq_ok.mp hcodeHash
    -- an accepted evaluation has answers for the code, so that only `basic` can have failed
    refine bind_eq_ok.mpr ⟨codeHash, mapError_eq_ok.mpr (answer_of_ok (h.codeHash address) hcodeHash'), ?_⟩
    have hwriteHistory : ∀ storage, (vm.withStorage storage).writeHistory history =
        vm.writeHistory history := fun _ => rfl
    simp only [hwriteHistory, evaluateHistory_withStorage] at hok ⊢
    rw [hstart history hdata]
    cases codeHash with
    | none => exact hok
    | some hash =>
      obtain ⟨code, hcode, hok⟩ := bind_eq_ok.mp hok
      have hcode' := answer_of_ok (h.codeByHash hash) (mapError_eq_ok.mp hcode)
      exact bind_eq_ok.mpr ⟨code, mapError_eq_ok.mpr hcode', hok⟩

theorem foldlM_of_ok {ε α β : Type} {f g : β → α → Except ε β} :
    ∀ {l : List α} {b b' : β}, (∀ a ∈ l, ∀ b b', f b a = .ok b' → g b a = .ok b') →
      l.foldlM f b = .ok b' → l.foldlM g b = .ok b'
  | [], _, _, _, h => h
  | a :: l, b, b', hfg, h => by
    rw [List.foldlM_cons, bind_eq_ok] at h ⊢
    obtain ⟨b₁, hone, hrest⟩ := h
    exact ⟨b₁, hfg a List.mem_cons_self b b₁ hone,
      foldlM_of_ok (fun a' ha' => hfg a' (List.mem_cons_of_mem _ ha')) hrest⟩

/-- **The evaluation overlooks failures of `basic` only.** An accepted evaluation is that on the
storage that never fails, but has none of the accounts whose `basic` was overlooked. -/
theorem evaluateResults_forgetting {storages : Address → Storage}
    (h : ∀ address, (storages address).MayFail vm.storage) {forgotten : Address → Bool}
    (hforgotten : ∀ address ∈ m.lazyAddresses, forgotten address = vm.overlooked storages m address)
    {results results' : List PevmTxExecutionResult}
    (hok : vm.evaluateFailing storages m results = .ok results') :
    (vm.withStorage (vm.storage.forgetting forgotten)).evaluateResults m results = .ok results' := by
  refine foldlM_of_ok (fun address haddress b b' hone => ?_) hok
  refine evaluateAddress_forgetting (h address) (fun history hdata => ?_) hone
  apply evaluationStart_forgetting (h address)
  rw [hforgotten address haddress]
  simp only [overlooked, hdata]

/-- A failed `basic` is harmless when the account has nothing to lose. -/
theorem evaluationStart_answered {storages : Address → Storage}
    (h : (storages address).MayFail vm.storage) {history : WriteHistory}
    (hdata : m.data (vm.hash (.basic address)) = some history)
    (hkept : vm.loses storages m address = false) :
    (vm.withStorage (vm.storage.forgetting fun _ => false)).evaluationStart address
        (vm.writeHistory history) =
      (vm.withStorage (storages address)).evaluationStart address (vm.writeHistory history) := by
  rw [evaluationStart_eq, evaluationStart_eq]
  show (if _ then ((vm.storage.basic address).toOption.join).getD .default else _) =
    if _ then (((storages address).basic address).toOption.join).getD .default else _
  cases hstart : startsFromStorage (vm.writeHistory history) with
  | false => rfl
  | true =>
    rcases h.basic address with heq | ⟨message, herr⟩
    · rw [heq]
    · -- the account that is not found is the one that the evaluation starts from
      have hempty : (vm.storage.basic address).toOption.join.getD .default = .default := by
        simpa [loses, overlooked, hdata, hstart, herr, Except.isOk, Except.toBool] using hkept
      rw [hempty, herr]
      rfl

/-- **Nothing is lost with accounts that have nothing.** -/
theorem evaluateResults_answered {storages : Address → Storage}
    (h : ∀ address, (storages address).MayFail vm.storage)
    (hkept : ∀ address ∈ m.lazyAddresses, vm.loses storages m address = false)
    {results results' : List PevmTxExecutionResult}
    (hok : vm.evaluateFailing storages m results = .ok results') :
    vm.evaluateResults m results = .ok results' := by
  show (vm.withStorage (vm.storage.forgetting fun _ => false)).evaluateResults m results =
    .ok results'
  refine foldlM_of_ok (fun address haddress b b' hone => ?_) hok
  apply evaluateAddress_forgetting (h address) _ hone
  intro history hdata
  exact evaluationStart_answered (h address) hdata (hkept address haddress)

end Vm

/-! ## The sequential execution -/

namespace SequentialEvm

variable {T D : Type} {evm : SequentialEvm T D} {isEip161Enabled : Bool}

/-- The EVM over a storage that may fail: revm gives up a transaction with the error of its
database. -/
structure MayFail (failing reliable : SequentialEvm T D) : Prop where
  transact : ∀ db tx, failing.transact db tx = reliable.transact db tx ∨
    ∃ message, failing.transact db tx = .error message
  commit : failing.commit = reliable.commit

/-- The loop over the transactions, each on the storage as it finds it. -/
def executeAllFailing (isEip161Enabled : Bool) : List (SequentialEvm T D × T) → D →
    (cumulativeGasUsed : BitVec 64) → Except PevmError (List PevmTxExecutionResult)
  | [], _, _ => .ok []
  | (evm, tx) :: txs, db, cumulativeGasUsed => do
    let (result, state) ← (evm.transact db tx).mapError fun message =>
      .executionError (.evm (.custom message))
    let receipt := receiptFromRevm result
    let cumulativeGasUsed := Saturating.saturatingAdd cumulativeGasUsed receipt.cumulativeGasUsed
    let results ← executeAllFailing isEip161Enabled txs (evm.commit db state) cumulativeGasUsed
    .ok (⟨{ receipt with cumulativeGasUsed := cumulativeGasUsed },
      stateTransitionsFromRevm isEip161Enabled state⟩ :: results)

/-- An accepted block is accepted without failures, with the same results. -/
theorem executeAll_of_failing :
    ∀ {txs : List (SequentialEvm T D × T)} {db : D} {gas : BitVec 64}
      {results : List PevmTxExecutionResult}, (∀ p ∈ txs, p.1.MayFail evm) →
      executeAllFailing isEip161Enabled txs db gas = .ok results →
      evm.executeAll isEip161Enabled (txs.map Prod.snd) db gas = .ok results
  | [], _, _, _, _, h => h
  | (failing, tx) :: txs, db, gas, results, hmay, h => by
    have hfirst := hmay _ List.mem_cons_self
    unfold executeAllFailing at h
    obtain ⟨⟨result, state⟩, htransact, h⟩ := Vm.bind_eq_ok.mp h
    obtain ⟨rest, hrest, h⟩ := Vm.bind_eq_ok.mp h
    have htransact' := Vm.answer_of_ok (hfirst.transact db tx) (Vm.mapError_eq_ok.mp htransact)
    rw [hfirst.commit] at hrest
    have hrest' := executeAll_of_failing (fun p hp => hmay p (List.mem_cons_of_mem _ hp)) hrest
    show evm.executeAll isEip161Enabled (tx :: txs.map Prod.snd) db gas = .ok results
    unfold executeAll
    exact Vm.bind_eq_ok.mpr ⟨(result, state), Vm.mapError_eq_ok.mpr htransact',
      Vm.bind_eq_ok.mpr ⟨rest, hrest', h⟩⟩

end SequentialEvm

/-- `execute_revm_sequential` over a storage that may fail. -/
def Vm.executeRevmSequentialFailing {T D : Type} (vm : Vm T) (evms : Nat → SequentialEvm T D)
    (db : D) : Except PevmError (List PevmTxExecutionResult) :=
  SequentialEvm.executeAllFailing vm.isEip161Enabled
    ((List.range vm.blockSize).map fun i => (evms i, vm.txs i)) db 0

/-! ## The call -/

/-- The end of a run leaves the abort reason of another, and its memory and slots if it has none. -/
structure System.SameEnd (s t : System Vm.Execution PevmTxExecutionResult ExecutionError) : Prop where
  abortReason : s.abortReason = t.abortReason
  ends : t.abortReason = none → s.mvMemory = t.mvMemory ∧ s.executionResults = t.executionResults

namespace PevmState

variable {T D : Type} {p : PevmState} {block : Block T}

/-- After the workers have been joined, over a storage that may fail. -/
def collectFailing (block : Block T) (storages : Address → Storage) (sequential : PevmResult)
    (t : System Vm.Execution PevmTxExecutionResult ExecutionError) : Option PevmResult :=
  match t.abortReason with
  | some .fallbackToSequential => some sequential
  | some (.executionError err) => some (.error (.executionError err))
  | none => (takeSlots t.executionResults block.vm.blockSize).map
      (block.vm.evaluateFailing storages t.mvMemory)

/-- What `execute_revm_parallel` returns over a storage that may fail: the interleaving of the workers
names the storage that each step finds, `storages` the ones that the evaluation finds. -/
def executeFailing (p : PevmState) (block : Block T) (schedule : List (WorkerId × Storage))
    (storages : Address → Storage) (sequential : PevmResult) : Option (Option PevmResult) :=
  if block.vm.blockSize = 0 then some (some (.ok []))
  else
    ((failingWorkers (block.vm.config block.concurrencyLevel)).run
      (schedule.map fun (w, storage) => (w, (block.vm.withStorage storage).executor))
      (p.spawn block)).bind fun t =>
        if joined block t then some (collectFailing block storages sequential t) else none

/-- The end of a call is found by an interleaving of its workers. -/
theorem exists_schedule {s : System Vm.Execution PevmTxExecutionResult ExecutionError}
    (hsize : block.vm.blockSize ≠ 0)
    (hlead : (workers (block.vm.config block.concurrencyLevel)).LeadsTo (fun _ _ => True)
      (p.spawn block) s) (hleft : ∀ w, w < block.concurrencyLevel → s.pc w = .left) :
    ∃ schedule, (workers (block.vm.config block.concurrencyLevel)).run schedule (p.spawn block) =
      some s ∧ p.executeRevmParallel block schedule = some (collect block s) := by
  obtain ⟨schedule, hrun⟩ := Machine.exists_run hlead
  refine ⟨schedule, hrun, ?_⟩
  unfold executeRevmParallel
  rw [if_neg hsize, hrun]
  exact if_pos (joined_iff.mpr hleft)

/-- The evaluation after a run that was not aborted overlooked a failed `basic` of a lazy address, and
the results are those of a storage without the accounts that it overlooked. -/
structure Overlooks (block : Block T) (storages : Address → Storage)
    (s : System Vm.Execution PevmTxExecutionResult ExecutionError)
    (results : List PevmTxExecutionResult) : Prop where
  notAborted : s.abortReason = none
  overlooked : ∃ address ∈ s.mvMemory.lazyAddresses,
    block.vm.overlooked storages s.mvMemory address = true
  results : (takeSlots s.executionResults block.vm.blockSize).map
    ((block.vm.withStorage (block.vm.storage.forgetting
      (block.vm.overlooked storages s.mvMemory))).evaluateResults s.mvMemory) = some (.ok results)

/-- A call over a failing storage that loses nothing in its evaluation is accepted as one over the
storage that never fails. -/
theorem collect_answered {storages : Address → Storage} {sequential : PevmResult}
    {results : List PevmTxExecutionResult}
    {s t : System Vm.Execution PevmTxExecutionResult ExecutionError}
    (hstorages : ∀ address, (storages address).MayFail block.vm.storage)
    (hsequential : sequential = .ok results → block.sequential = .ok results)
    (hsame : s.SameEnd t)
    (hkept : t.abortReason = none → ∀ address ∈ t.mvMemory.lazyAddresses,
      block.vm.loses storages t.mvMemory address = false)
    (h : collectFailing block storages sequential t = some (.ok results)) :
    (collect block s).1 = some (.ok results) := by
  unfold collectFailing at h
  unfold collect
  rw [hsame.abortReason]
  cases hr : t.abortReason with
  | some reason =>
    rw [hr] at h
    cases reason with
    | fallbackToSequential => exact congrArg some (hsequential (Option.some.inj h))
    | executionError err => cases h
  | none =>
    -- the slots and the memory are the same, and the evaluation starts from the same accounts
    rw [hr] at h
    obtain ⟨hmemory, hslots⟩ := hsame.ends hr
    obtain ⟨taken, htaken, hok⟩ := Option.map_eq_some_iff.mp h
    rw [hmemory, hslots]
    show (takeSlots t.executionResults block.vm.blockSize).map _ = _
    rw [htaken]
    exact congrArg some (Vm.evaluateResults_answered hstorages (hkept hr) hok)

/-- Otherwise its results are those of a storage without the accounts that were overlooked. -/
theorem collect_of_failing {storages : Address → Storage} {sequential : PevmResult}
    {results : List PevmTxExecutionResult}
    {s t : System Vm.Execution PevmTxExecutionResult ExecutionError}
    (hstorages : ∀ address, (storages address).MayFail block.vm.storage)
    (hsequential : sequential = .ok results → block.sequential = .ok results)
    (hsame : s.SameEnd t)
    (h : collectFailing block storages sequential t = some (.ok results)) :
    (collect block s).1 = some (.ok results) ∨
      Overlooks block storages s results := by
  by_cases hany : t.abortReason = none ∧ ∃ address ∈ t.mvMemory.lazyAddresses,
      block.vm.overlooked storages t.mvMemory address = true
  · right
    obtain ⟨hr, hany⟩ := hany
    obtain ⟨hmemory, hslots⟩ := hsame.ends hr
    unfold collectFailing at h
    rw [hr] at h
    obtain ⟨taken, htaken, hok⟩ := Option.map_eq_some_iff.mp h
    rw [← hmemory] at hany hok
    refine ⟨hsame.abortReason.trans hr, hany, ?_⟩
    rw [hslots, htaken]
    exact congrArg some (Vm.evaluateResults_forgetting hstorages (fun _ _ => rfl) hok)
  · left
    refine collect_answered hstorages hsequential hsame (fun hr address haddress => ?_) h
    unfold Vm.loses
    cases hseen : block.vm.overlooked storages t.mvMemory address with
    | false => rfl
    | true => exact absurd ⟨hr, address, haddress, hseen⟩ hany

/-- An accepted call over a failing storage is that on an empty block, or the end of a run. -/
theorem executeFailing_eq_ok {schedule : List (WorkerId × Storage)} {storages : Address → Storage}
    {sequential : PevmResult} {results : List PevmTxExecutionResult}
    (h : p.executeFailing block schedule storages sequential = some (some (.ok results))) :
    block.vm.blockSize = 0 ∧ results = [] ∨
    block.vm.blockSize ≠ 0 ∧ ∃ t, (failingWorkers (block.vm.config block.concurrencyLevel)).run
        (schedule.map fun (w, storage) => (w, (block.vm.withStorage storage).executor))
        (p.spawn block) = some t ∧
      joined block t = true ∧ collectFailing block storages sequential t = some (.ok results) := by
  unfold executeFailing at h
  split at h
  · next hsize =>
    cases h
    exact .inl ⟨hsize, rfl⟩
  · next hsize =>
    obtain ⟨t, hrun, h⟩ := Option.bind_eq_some_iff.mp h
    split at h
    · next hjoined => exact .inr ⟨hsize, t, hrun, hjoined, Option.some.inj h⟩
    · cases h

theorem executeRevmParallel_empty (hsize : block.vm.blockSize = 0) (schedule : List WorkerId) :
    p.executeRevmParallel block schedule = some (some (.ok []), p) := by
  unfold executeRevmParallel
  rw [if_pos hsize]

/-- Over the storage that never fails some interleaving ends like a run over a failing storage from
which results are collected. -/
theorem exists_sameEnd (hp : Reused p) (hsize : block.vm.blockSize ≠ 0)
    {schedule : List (WorkerId × Storage)} {storages : Address → Storage} {sequential : PevmResult}
    {results : List PevmTxExecutionResult}
    {t : System Vm.Execution PevmTxExecutionResult ExecutionError}
    (hschedule : ∀ q ∈ schedule, q.2.MayFail block.vm.storage)
    (hrun : (failingWorkers (block.vm.config block.concurrencyLevel)).run
      (schedule.map fun (w, storage) => (w, (block.vm.withStorage storage).executor))
      (p.spawn block) = some t)
    (hjoined : joined block t = true)
    (hcollect : collectFailing block storages sequential t = some (.ok results)) :
    ∃ schedule' s,
      (workers (block.vm.config block.concurrencyLevel)).run schedule' (p.spawn block) = some s ∧
      joined block s = true ∧ p.executeRevmParallel block schedule' = some (collect block s) ∧
      s.SameEnd t := by
  have hlead := Machine.leadsTo_of_forall
    (C := fun q => q.2.MayFail StorageFailure (block.vm.config block.concurrencyLevel).executor)
    (fun q hq => by
      obtain ⟨⟨w, storage⟩, hmem, rfl⟩ := List.mem_map.mp hq
      exact Vm.executor_mayFail (hschedule _ hmem)) hrun
  have hinit : initial (block.vm.config block.concurrencyLevel) (p.spawn block) :=
    ⟨rfl, rfl, hp.abortReason, fun _ => rfl, rfl⟩
  -- a block that fails is not accepted
  have hreason : ∀ reason, t.abortReason = some reason → ¬ reason.Names StorageFailure := by
    intro reason hr
    unfold collectFailing at hcollect
    rw [hr] at hcollect
    cases reason with
    | fallbackToSequential => exact id
    | executionError err => cases hcollect
  obtain ⟨s, hlead', hleft, hsame, hend⟩ := ends_of_failing Vm.executor_ends hinit hlead
    (joined_iff.mp hjoined) hreason
  obtain ⟨schedule', hrun', hcall⟩ := exists_schedule hsize hlead' hleft
  exact ⟨schedule', s, hrun', joined_iff.mpr hleft, hcall, hsame, hend⟩

/-- The fallback over a failing storage. -/
theorem sequential_of_failing {evm : SequentialEvm T D} {evms : Nat → SequentialEvm T D}
    {results : List PevmTxExecutionResult}
    (hsequential : block.sequential = block.vm.executeRevmSequential evm)
    (hevms : ∀ i, (evms i).MayFail evm)
    (hok : block.vm.executeRevmSequentialFailing evms (evm.newDb block.vm.storage) = .ok results) :
    block.sequential = .ok results := by
  have htxs : ((List.range block.vm.blockSize).map fun i => (evms i, block.vm.txs i)).map
      Prod.snd = (List.range block.vm.blockSize).map block.vm.txs := by
    rw [List.map_map]
    rfl
  rw [hsequential]
  unfold Vm.executeRevmSequential
  rw [← htxs]
  refine SequentialEvm.executeAll_of_failing (fun q hq => ?_) hok
  obtain ⟨i, -, rfl⟩ := List.mem_map.mp hq
  exact hevms i

/-- A single worker has one interleaving. -/
theorem executeRevmParallel_unique {schedule schedule' : List WorkerId}
    {r r' : Option PevmResult × PevmState} (hlevel : block.concurrencyLevel = 1)
    (h : p.executeRevmParallel block schedule = some r)
    (h' : p.executeRevmParallel block schedule' = some r') : r = r' := by
  -- a run to its end cannot be continued, and all of its steps are of worker 0
  have hstuck : ∀ s, joined block s = true → ∀ w,
      (workers (block.vm.config block.concurrencyLevel)).step w s = none := by
    intro s hjoined w
    show (if w < block.concurrencyLevel then workerStep _ w s else none) = none
    split_ifs with hw
    · unfold workerStep
      rw [joined_iff.mp hjoined w hw]
    · rfl
  have honly : ∀ w s, w ≠ 0 →
      (workers (block.vm.config block.concurrencyLevel)).step w s = none := by
    intro w s hw
    show (if w < block.concurrencyLevel then workerStep _ w s else none) = none
    have hnot : ¬ w < block.concurrencyLevel := by
      intro hlt
      rw [hlevel] at hlt
      exact hw (Nat.lt_one_iff.mp hlt)
    rw [if_neg hnot]
  unfold executeRevmParallel at h h'
  split at h
  · next hsize =>
    rw [if_pos hsize] at h'
    rw [h] at h'
    exact Option.some.inj h'
  · next hsize =>
    rw [if_neg hsize] at h'
    obtain ⟨s, hrun, h⟩ := Option.bind_eq_some_iff.mp h
    obtain ⟨s', hrun', h'⟩ := Option.bind_eq_some_iff.mp h'
    split at h
    · next hjoined =>
      split at h'
      · next hjoined' =>
        obtain rfl := Machine.run_unique honly hrun hrun' (hstuck s hjoined) (hstuck s' hjoined')
        exact (Option.some.inj h).symm.trans (Option.some.inj h')
      · cases h'
    · cases h

/-- **No failure of the storage is swallowed, but one kind.** What an accepted block returns over a
storage that may fail it returns over the storage that never fails, for some interleaving of the
workers; or the evaluation overlooked a failed `basic` of a lazy address, and its results are those of
a storage without the account. -/
theorem ok_of_failing (hp : Reused p) {evm : SequentialEvm T D}
    (hsequential : block.sequential = block.vm.executeRevmSequential evm)
    {schedule : List (WorkerId × Storage)} {storages : Address → Storage}
    {evms : Nat → SequentialEvm T D} {results : List PevmTxExecutionResult}
    (hschedule : ∀ q ∈ schedule, q.2.MayFail block.vm.storage)
    (hstorages : ∀ address, (storages address).MayFail block.vm.storage)
    (hevms : ∀ i, (evms i).MayFail evm)
    (h : p.executeFailing block schedule storages (block.vm.executeRevmSequentialFailing evms
      (evm.newDb block.vm.storage)) = some (some (.ok results))) :
    (∃ schedule' p', p.executeRevmParallel block schedule' = some (some (.ok results), p')) ∨
    ∃ schedule' s,
      (workers (block.vm.config block.concurrencyLevel)).run schedule' (p.spawn block) = some s ∧
      joined block s = true ∧ Overlooks block storages s results := by
  rcases executeFailing_eq_ok h with ⟨hempty, rfl⟩ | ⟨hsize, t, hrun, hjoined, hcollect⟩
  · exact .inl ⟨[], p, executeRevmParallel_empty hempty []⟩
  · obtain ⟨schedule', s, hrun', hjoined', hcall, hsame⟩ := exists_sameEnd hp hsize hschedule hrun
      hjoined hcollect
    rcases collect_of_failing hstorages (sequential_of_failing hsequential hevms) hsame hcollect
      with hsome | hoverlooked
    · refine .inl ⟨schedule', (collect block s).2, ?_⟩
      rw [hcall, ← hsome]
    · exact .inr ⟨schedule', s, hrun', hjoined', hoverlooked⟩

/-- Wherever the workers leave without an abort, the evaluation loses no account. -/
def LosesNone (p : PevmState) (block : Block T) (schedule : List (WorkerId × Storage))
    (storages : Address → Storage) : Prop :=
  ∀ t, (failingWorkers (block.vm.config block.concurrencyLevel)).run
      (schedule.map fun (w, storage) => (w, (block.vm.withStorage storage).executor))
      (p.spawn block) = some t → t.abortReason = none →
    ∀ address ∈ t.mvMemory.lazyAddresses, block.vm.loses storages t.mvMemory address = false

/-- **No failure of the storage is swallowed** as long as every account whose `basic` fails in the
evaluation is missing or has neither balance nor nonce: an accepted block is accepted, with the same
results, over the storage that never fails. -/
theorem ok_of_losesNone (hp : Reused p) {evm : SequentialEvm T D}
    (hsequential : block.sequential = block.vm.executeRevmSequential evm)
    {schedule : List (WorkerId × Storage)} {storages : Address → Storage}
    {evms : Nat → SequentialEvm T D} {results : List PevmTxExecutionResult}
    (hschedule : ∀ q ∈ schedule, q.2.MayFail block.vm.storage)
    (hstorages : ∀ address, (storages address).MayFail block.vm.storage)
    (hevms : ∀ i, (evms i).MayFail evm) (hkept : LosesNone p block schedule storages)
    (h : p.executeFailing block schedule storages (block.vm.executeRevmSequentialFailing evms
      (evm.newDb block.vm.storage)) = some (some (.ok results))) :
    ∃ schedule' p', p.executeRevmParallel block schedule' = some (some (.ok results), p') := by
  rcases executeFailing_eq_ok h with ⟨hempty, rfl⟩ | ⟨hsize, t, hrun, hjoined, hcollect⟩
  · exact ⟨[], p, executeRevmParallel_empty hempty []⟩
  · obtain ⟨schedule', s, -, -, hcall, hsame⟩ := exists_sameEnd hp hsize hschedule hrun
      hjoined hcollect
    have hsome := collect_answered hstorages (sequential_of_failing hsequential hevms) hsame
      (hkept t hrun) hcollect
    refine ⟨schedule', (collect block s).2, ?_⟩
    rw [hcall, ← hsome]

end PevmState

namespace Sample

/-- A lazy transfer. -/
def lazyPayment (recipient : Address) : Vm TxEnv :=
  { vm with blockSize := 1, txs := fun _ => tx beneficiary recipient 1 }

/-- A storage that has lost an account. -/
def losing (lost : Address) : Storage :=
  { storage with
    basic := fun address =>
      if address = lost then .error "connection lost" else storage.basic address }

def paymentBlock (recipient : Address) : Block TxEnv :=
  ⟨lazyPayment recipient, 1,
    (lazyPayment recipient).executeRevmSequential (sequential (lazyPayment recipient).evm)⟩

theorem losing_mayFail (lost : Address) : (losing lost).MayFail storage where
  basic address := by
    by_cases h : address = lost
    · exact .inr ⟨_, if_pos h⟩
    · exact .inl (if_neg h)
  codeHash _ := .inl rfl
  codeByHash _ := .inl rfl
  storage _ _ := .inl rfl
  blockHash _ := .inl rfl

/-- The fallback over the storage without failures. -/
def paymentFallback (recipient : Address) : PevmResult :=
  (lazyPayment recipient).executeRevmSequentialFailing
    (fun _ => sequential (lazyPayment recipient).evm)
    ((sequential (lazyPayment recipient).evm).newDb storage)

/-- The call on the block, with a storage that has lost the recipient throughout. -/
def paymentCall (recipient : Address) : Option (Option PevmResult) :=
  PevmState.default.executeFailing (paymentBlock recipient)
    (List.replicate 30 (0, losing recipient)) (fun _ => losing recipient)
    (paymentFallback recipient)

theorem paymentSchedule_mayFail {recipient : Address} :
    ∀ q ∈ List.replicate 30 ((0 : WorkerId), losing recipient), q.2.MayFail storage := by
  intro q hq
  rw [List.eq_of_mem_replicate hq]
  exact losing_mayFail recipient

theorem sequential_mayFail (recipient : Address) :
    SequentialEvm.MayFail (sequential (lazyPayment recipient).evm)
      (sequential (lazyPayment recipient).evm) :=
  ⟨fun _ _ => .inl rfl, rfl⟩

/-- The balances of an account in the results. -/
def balances (address : Address) (results : List PevmTxExecutionResult) : List (Option U256) :=
  results.map fun result => (result.state.lookup address).join.map EvmAccount.balance

/-- The call is accepted with results of this kind. -/
def accepts (p : List PevmTxExecutionResult → Bool) : Option (Option PevmResult) → Bool
  | some (some (.ok results)) => p results
  | _ => false

theorem exists_results {p : List PevmTxExecutionResult → Bool} {call : Option (Option PevmResult)}
    (h : accepts p call = true) : ∃ results, call = some (some (.ok results)) ∧ p results = true := by
  unfold accepts at h
  split at h
  · exact ⟨_, rfl, h⟩
  · cases h

/-- Account 6, which had 1000, is accepted to have 1 after the payment. -/
theorem paymentCall_accepts : accepts (fun results => decide (balances 6 results = [some 1]))
    (paymentCall 6) = true := by
  decide +kernel

end Sample

/-- The evaluation overlooks that the storage failed for account 6. -/
theorem ok_of_failing_sample : ∃ results,
    Sample.balances 6 results = [some 1] ∧
    ((∃ schedule p', PevmState.default.executeRevmParallel (Sample.paymentBlock 6) schedule =
      some (some (.ok results), p')) ∨
    ∃ schedule s, (workers ((Sample.lazyPayment 6).config 1)).run schedule
        (PevmState.default.spawn (Sample.paymentBlock 6)) = some s ∧
      PevmState.joined (Sample.paymentBlock 6) s = true ∧
      PevmState.Overlooks (Sample.paymentBlock 6) (fun _ => Sample.losing 6) s results) := by
  obtain ⟨results, hcall, hbalances⟩ := Sample.exists_results Sample.paymentCall_accepts
  exact ⟨results, of_decide_eq_true hbalances, PevmState.ok_of_failing .fresh rfl
    Sample.paymentSchedule_mayFail (fun _ => Sample.losing_mayFail 6)
    (fun _ => Sample.sequential_mayFail 6) hcall⟩

/-- Over the storage that never fails account 6 has 1001 in every interleaving. -/
theorem lost_account_is_accepted : Sample.storage.NeverFails ∧
    ¬ ∀ schedule storages results, (∀ q ∈ schedule, q.2.MayFail Sample.storage) →
      (∀ address, (storages address).MayFail Sample.storage) →
      PevmState.default.executeFailing (Sample.paymentBlock 6) schedule storages
        (Sample.paymentFallback 6) = some (some (.ok results)) →
      ∃ schedule' p', PevmState.default.executeRevmParallel (Sample.paymentBlock 6) schedule' =
        some (some (.ok results), p') := by
  refine ⟨Sample.storage_neverFails, fun h => ?_⟩
  obtain ⟨results, hcall, hlost⟩ := Sample.exists_results Sample.paymentCall_accepts
  obtain ⟨schedule, p', hcall'⟩ := h _ _ results Sample.paymentSchedule_mayFail
    (fun _ => Sample.losing_mayFail 6) hcall
  have hkept : (PevmState.default.executeRevmParallel (Sample.paymentBlock 6)
      (List.replicate 30 0)).any (fun r => Sample.accepts
        (fun results => decide (Sample.balances 6 results = [some 1001])) (some r.1)) = true := by
    decide +kernel
  obtain ⟨r, hcall₀, hr⟩ := (Option.any_eq_true _ _).mp hkept
  obtain rfl := PevmState.executeRevmParallel_unique rfl hcall₀ hcall'
  have hlost : Sample.balances 6 results = [some 1] := of_decide_eq_true hlost
  have hr : Sample.balances 6 results = [some 1001] := of_decide_eq_true hr
  rw [hlost] at hr
  exact absurd hr (by decide)

/-- Account 5 does not exist before it is paid, so that nothing is lost with it. -/
theorem ok_of_losesNone_sample : ∃ results schedule p',
    Sample.paymentCall 5 = some (some (.ok results)) ∧ Sample.balances 5 results = [some 1] ∧
    PevmState.default.executeRevmParallel (Sample.paymentBlock 5) schedule =
      some (some (.ok results), p') := by
  have haccepts : Sample.accepts (fun results => decide (Sample.balances 5 results = [some 1]))
      (Sample.paymentCall 5) = true := by
    decide +kernel
  have hkept : ((failingWorkers ((Sample.lazyPayment 5).config 1)).run
      ((List.replicate 30 ((0 : WorkerId), Sample.losing 5)).map fun (w, storage) =>
        (w, ((Sample.lazyPayment 5).withStorage storage).executor))
      (PevmState.default.spawn (Sample.paymentBlock 5))).all (fun t =>
        t.mvMemory.lazyAddresses.all fun address =>
          !(Sample.lazyPayment 5).loses (fun _ => Sample.losing 5) t.mvMemory address) = true := by
    decide +kernel
  obtain ⟨results, hcall, hbalances⟩ := Sample.exists_results haccepts
  have hlosesNone : PevmState.LosesNone .default (Sample.paymentBlock 5)
      (List.replicate 30 (0, Sample.losing 5)) fun _ => Sample.losing 5 := by
    intro t hrun _ address haddress
    have hall := (Option.all_eq_true _ _).mp hkept t hrun
    have hnot := List.all_eq_true.mp hall address haddress
    rw [Bool.not_eq_true'] at hnot
    exact hnot
  obtain ⟨schedule, p', hsome⟩ := PevmState.ok_of_losesNone .fresh rfl
    Sample.paymentSchedule_mayFail (fun _ => Sample.losing_mayFail 5)
    (fun _ => Sample.sequential_mayFail 5) hlosesNone hcall
  exact ⟨results, schedule, p', hcall, of_decide_eq_true hbalances, hsome⟩

end Pevm
