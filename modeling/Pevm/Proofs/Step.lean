import Pevm.Worker

/-!
# What a step can do

The inversion of `workerStep`: `Step cfg w s s'` lists, one constructor for each branch of
the step functions, the program counter and the tests under which the branch is taken and
the state it leads to. `step_of_workerStep` is the only place where the step functions are
unfolded; every invariant is proved by cases on `Step`.
-/

namespace Pevm

open Interleaving Scheduler MvMemory

section Projections

variable {X R E : Type} (s : System X R E) (w : WorkerId) (p : Pc X R E)

@[simp] theorem System.goto_pc : (s.goto w p).pc = Function.update s.pc w p := rfl
@[simp] theorem System.goto_scheduler : (s.goto w p).scheduler = s.scheduler := rfl
@[simp] theorem System.goto_mvMemory : (s.goto w p).mvMemory = s.mvMemory := rfl
@[simp] theorem System.goto_executionResults :
    (s.goto w p).executionResults = s.executionResults := rfl
@[simp] theorem System.goto_abortReason : (s.goto w p).abortReason = s.abortReason := rfl
@[simp] theorem System.goto_log : (s.goto w p).log = s.log := rfl

variable (sch : Scheduler)

@[simp] theorem System.withScheduler_pc : (s.withScheduler sch).pc = s.pc := rfl
@[simp] theorem System.withScheduler_scheduler : (s.withScheduler sch).scheduler = sch := rfl
@[simp] theorem System.withScheduler_mvMemory : (s.withScheduler sch).mvMemory = s.mvMemory := rfl
@[simp] theorem System.withScheduler_executionResults :
    (s.withScheduler sch).executionResults = s.executionResults := rfl
@[simp] theorem System.withScheduler_abortReason :
    (s.withScheduler sch).abortReason = s.abortReason := rfl
@[simp] theorem System.withScheduler_log : (s.withScheduler sch).log = s.log := rfl

variable (m : MvMemory)

@[simp] theorem System.withMemory_pc : (s.withMemory m).pc = s.pc := rfl
@[simp] theorem System.withMemory_scheduler : (s.withMemory m).scheduler = s.scheduler := rfl
@[simp] theorem System.withMemory_mvMemory : (s.withMemory m).mvMemory = m := rfl
@[simp] theorem System.withMemory_executionResults :
    (s.withMemory m).executionResults = s.executionResults := rfl
@[simp] theorem System.withMemory_abortReason :
    (s.withMemory m).abortReason = s.abortReason := rfl
@[simp] theorem System.withMemory_log : (s.withMemory m).log = s.log := rfl

variable (events : List Event)

@[simp] theorem System.record_pc : (s.record events).pc = s.pc := rfl
@[simp] theorem System.record_scheduler : (s.record events).scheduler = s.scheduler := rfl
@[simp] theorem System.record_mvMemory : (s.record events).mvMemory = s.mvMemory := rfl
@[simp] theorem System.record_executionResults :
    (s.record events).executionResults = s.executionResults := rfl
@[simp] theorem System.record_abortReason : (s.record events).abortReason = s.abortReason := rfl
@[simp] theorem System.record_log : (s.record events).log = events ++ s.log := rfl

end Projections

section Step

variable {X R E : Type}

/-- The steps of `next_task`. -/
inductive NextTaskStep (cfg : Config X R E) (w : WorkerId) (s : System X R E) :
    System X R E → Prop where
  | stop (hpc : s.pc w = .nextTask .loop) (ha : s.scheduler.aborted = true) :
      NextTaskStep cfg w s (s.goto w .left)
  | loop (hpc : s.pc w = .nextTask .loop) (ha : s.scheduler.aborted = false) :
      NextTaskStep cfg w s (s.goto w (.nextTask .loadExecutionIdx))
  | loadExecutionIdx (hpc : s.pc w = .nextTask .loadExecutionIdx) :
      NextTaskStep cfg w s (s.goto w (.nextTask (.loadValidationIdx s.scheduler.executionIdx)))
  | bothPast {e : Nat} (hpc : s.pc w = .nextTask (.loadValidationIdx e))
      (he : s.scheduler.blockSize ≤ e) (hv : s.scheduler.blockSize ≤ s.scheduler.validationIdx) :
      NextTaskStep cfg w s (s.goto w (.nextTask .loadNumValidated))
  | preferValidation {e : Nat} (hpc : s.pc w = .nextTask (.loadValidationIdx e))
      (hn : ¬ (s.scheduler.blockSize ≤ e ∧ s.scheduler.blockSize ≤ s.scheduler.validationIdx))
      (hv : s.scheduler.validationIdx < e) :
      NextTaskStep cfg w s (s.goto w (.nextTask .takeValidationIdx))
  | preferExecution {e : Nat} (hpc : s.pc w = .nextTask (.loadValidationIdx e))
      (hn : ¬ (s.scheduler.blockSize ≤ e ∧ s.scheduler.blockSize ≤ s.scheduler.validationIdx))
      (hv : ¬ s.scheduler.validationIdx < e) :
      NextTaskStep cfg w s (s.goto w (.nextTask .takeExecutionIdx))
  | loadNumValidated (hpc : s.pc w = .nextTask .loadNumValidated) :
      NextTaskStep cfg w s (s.goto w (.nextTask (.loadMinValidationIdx s.scheduler.numValidated)))
  | exit {c : Nat} (hpc : s.pc w = .nextTask (.loadMinValidationIdx c))
      (hc : s.scheduler.blockSize - s.scheduler.minValidationIdx ≤ c) :
      NextTaskStep cfg w s (s.goto w .left)
  | spin {c : Nat} (hpc : s.pc w = .nextTask (.loadMinValidationIdx c))
      (hc : ¬ s.scheduler.blockSize - s.scheduler.minValidationIdx ≤ c) :
      NextTaskStep cfg w s (s.goto w (.nextTask .loop))
  | takeValidationIdx (hpc : s.pc w = .nextTask .takeValidationIdx)
      (hi : s.scheduler.validationIdx < s.scheduler.blockSize) :
      NextTaskStep cfg w s
        ((s.withScheduler { s.scheduler with
          validationIdx := s.scheduler.validationIdx + 1 }).goto w
          (.nextTask (.checkStatus s.scheduler.validationIdx)))
  | overtakeValidationIdx (hpc : s.pc w = .nextTask .takeValidationIdx)
      (hi : ¬ s.scheduler.validationIdx < s.scheduler.blockSize) :
      NextTaskStep cfg w s
        ((s.withScheduler { s.scheduler with
          validationIdx := s.scheduler.validationIdx + 1 }).goto w (.nextTask .takeExecutionIdx))
  | steal {i : Nat} (hpc : s.pc w = .nextTask (.checkStatus i))
      (hh : s.scheduler.statusHolder i = none)
      (hs : (s.scheduler.transactionsStatus i).status = .readyToExecute) :
      NextTaskStep cfg w s
        ((s.withScheduler (s.scheduler.setStatus i .executing)).goto w
          (.execute (s.scheduler.version i) (cfg.executor.start (s.scheduler.version i))))
  | startValidation {i : Nat} (hpc : s.pc w = .nextTask (.checkStatus i))
      (hh : s.scheduler.statusHolder i = none)
      (hs : isExecutedOrValidated (s.scheduler.transactionsStatus i).status = true) :
      NextTaskStep cfg w s (s.goto w (.validate (s.scheduler.version i) .lock))
  | skipAborting {i : Nat} (hpc : s.pc w = .nextTask (.checkStatus i))
      (hh : s.scheduler.statusHolder i = none)
      (hs : (s.scheduler.transactionsStatus i).status = .aborting) :
      NextTaskStep cfg w s (s.goto w (.nextTask .loop))
  | skipExecuting {i : Nat} (hpc : s.pc w = .nextTask (.checkStatus i))
      (hh : s.scheduler.statusHolder i = none)
      (hs : (s.scheduler.transactionsStatus i).status = .executing) :
      NextTaskStep cfg w s (s.goto w (.nextTask .takeExecutionIdx))
  | takeExecutionIdx (hpc : s.pc w = .nextTask .takeExecutionIdx)
      (hi : s.scheduler.executionIdx < s.scheduler.blockSize) :
      NextTaskStep cfg w s
        ((s.withScheduler { s.scheduler with
          executionIdx := s.scheduler.executionIdx + 1 }).goto w
          (.nextTask (.tryExecute s.scheduler.executionIdx)))
  | overtakeExecutionIdx (hpc : s.pc w = .nextTask .takeExecutionIdx)
      (hi : ¬ s.scheduler.executionIdx < s.scheduler.blockSize) :
      NextTaskStep cfg w s
        ((s.withScheduler { s.scheduler with
          executionIdx := s.scheduler.executionIdx + 1 }).goto w (.nextTask .loop))
  | startExecution {i : Nat} (hpc : s.pc w = .nextTask (.tryExecute i))
      (hh : s.scheduler.statusHolder i = none)
      (hs : (s.scheduler.transactionsStatus i).status = .readyToExecute) :
      NextTaskStep cfg w s
        ((s.withScheduler (s.scheduler.setStatus i .executing)).goto w
          (.execute (s.scheduler.version i) (cfg.executor.start (s.scheduler.version i))))
  | skipExecution {i : Nat} (hpc : s.pc w = .nextTask (.tryExecute i))
      (hh : s.scheduler.statusHolder i = none)
      (hs : (s.scheduler.transactionsStatus i).status ≠ .readyToExecute) :
      NextTaskStep cfg w s (s.goto w (.nextTask .loop))

/-- The steps of an execution and of `MvMemory::record`. -/
inductive ExecuteStep (cfg : Config X R E) (w : WorkerId) (s : System X R E) :
    System X R E → Prop where
  | run {v : TxVersion} {x x' : X} (hpc : s.pc w = .execute v x)
      (hx : cfg.executor.step v s.mvMemory x = .run x') :
      ExecuteStep cfg w s (s.goto w (.execute v x'))
  | addNewBytecode {v : TxVersion} {x x' : X} {hash : B256} {code : Bytecode}
      (hpc : s.pc w = .execute v x)
      (hx : cfg.executor.step v s.mvMemory x = .addNewBytecode hash code x') :
      ExecuteStep cfg w s
        ((s.withMemory (s.mvMemory.addNewBytecode hash code)).goto w (.execute v x'))
  | addLazyAddresses {v : TxVersion} {x x' : X} {addresses : List Address}
      (hpc : s.pc w = .execute v x)
      (hx : cfg.executor.step v s.mvMemory x = .addLazyAddresses addresses x') :
      ExecuteStep cfg w s
        ((s.withMemory (s.mvMemory.addLazyAddresses addresses)).goto w (.execute v x'))
  | succeed {v : TxVersion} {x : X} {rs : ReadSet} {ws : WriteSet} {need : Bool} {r : R}
      (hpc : s.pc w = .execute v x) (hx : cfg.executor.step v s.mvMemory x = .record rs ws need r) :
      ExecuteStep cfg w s (s.goto w (.record v rs ws need r .lock))
  | retry {v : TxVersion} {x : X} (hpc : s.pc w = .execute v x)
      (hx : cfg.executor.step v s.mvMemory x = .error .retry) :
      ExecuteStep cfg w s (s.goto w (.retry v))
  | blocked {v : TxVersion} {x : X} {b : Nat} (hpc : s.pc w = .execute v x)
      (hx : cfg.executor.step v s.mvMemory x = .error (.blocking b)) :
      ExecuteStep cfg w s (s.goto w (.addDependency v b .lockBlocking))
  | fail {v : TxVersion} {x : X} {reason : AbortReason E} (hpc : s.pc w = .execute v x) :
      ExecuteStep cfg w s (s.goto w (.abort v reason))
  | recordLock {v : TxVersion} {rs : ReadSet} {ws : WriteSet} {need : Bool} {r : R}
      (hpc : s.pc w = .record v rs ws need r .lock)
      (hh : s.mvMemory.lastLocationsHolder v.txIdx = none) :
      ExecuteStep cfg w s
        (((s.withMemory ((s.mvMemory.holdLastLocations v.txIdx (some w)).setLastLocations v.txIdx
          { s.mvMemory.lastLocations v.txIdx with read := rs })).record [.recorded v]).goto w
          (.record v rs ws need r (.remove 0)))
  | recordRemoved {v : TxVersion} {rs : ReadSet} {ws : WriteSet} {need : Bool} {r : R} {k : Nat}
      (hpc : s.pc w = .record v rs ws need r (.remove k))
      (hk : (s.mvMemory.lastLocations v.txIdx).write[k]? = none) :
      ExecuteStep cfg w s (s.goto w (.record v rs ws need r (.insert ws false)))
  | recordRemove {v : TxVersion} {rs : ReadSet} {ws : WriteSet} {need : Bool} {r : R} {k : Nat}
      {l : MemoryLocationHash} (hpc : s.pc w = .record v rs ws need r (.remove k))
      (hk : (s.mvMemory.lastLocations v.txIdx).write[k]? = some l)
      (hl : ∀ p ∈ ws, p.1 ≠ l) :
      ExecuteStep cfg w s
        ((s.withMemory ((s.mvMemory.removeEntry l v.txIdx).setLastLocations v.txIdx
          { s.mvMemory.lastLocations v.txIdx with
            write := swapRemove (s.mvMemory.lastLocations v.txIdx).write k })).goto w
          (.record v rs ws need r (.remove k)))
  | recordKeep {v : TxVersion} {rs : ReadSet} {ws : WriteSet} {need : Bool} {r : R} {k : Nat}
      {l : MemoryLocationHash} (hpc : s.pc w = .record v rs ws need r (.remove k))
      (hk : (s.mvMemory.lastLocations v.txIdx).write[k]? = some l)
      (hl : ∃ p ∈ ws, p.1 = l) :
      ExecuteStep cfg w s (s.goto w (.record v rs ws need r (.remove (k + 1))))
  | recordInsertOld {v : TxVersion} {rs : ReadSet} {ws rest : WriteSet} {need new : Bool} {r : R}
      {l : MemoryLocationHash} {value : MemoryValue}
      (hpc : s.pc w = .record v rs ws need r (.insert ((l, value) :: rest) new))
      (hl : l ∈ (s.mvMemory.lastLocations v.txIdx).write) :
      ExecuteStep cfg w s
        ((s.withMemory (s.mvMemory.insertEntry l v.txIdx (.data v.txIncarnation value))).goto w
          (.record v rs ws need r (.insert rest new)))
  | recordInsertNew {v : TxVersion} {rs : ReadSet} {ws rest : WriteSet} {need new : Bool} {r : R}
      {l : MemoryLocationHash} {value : MemoryValue}
      (hpc : s.pc w = .record v rs ws need r (.insert ((l, value) :: rest) new))
      (hl : l ∉ (s.mvMemory.lastLocations v.txIdx).write) :
      ExecuteStep cfg w s
        ((s.withMemory ((s.mvMemory.insertEntry l v.txIdx
          (.data v.txIncarnation value)).setLastLocations v.txIdx
          { s.mvMemory.lastLocations v.txIdx with
            write := (s.mvMemory.lastLocations v.txIdx).write ++ [l] })).goto w
          (.record v rs ws need r (.insert rest true)))
  | recordUnlock {v : TxVersion} {rs : ReadSet} {ws : WriteSet} {need new : Bool} {r : R}
      (hpc : s.pc w = .record v rs ws need r (.insert [] new)) :
      ExecuteStep cfg w s
        ((s.withMemory (s.mvMemory.holdLastLocations v.txIdx none)).goto w
          (.writeResult v ⟨need, new⟩ r))
  | writeResult {v : TxVersion} {flags : FinishExecFlags} {r : R}
      (hpc : s.pc w = .writeResult v flags r) :
      ExecuteStep cfg w s
        (({ s with
          executionResults := Function.update s.executionResults v.txIdx (some r) }.record
          [.wroteResult v.txIdx]).goto w (.finishExecution v flags .lock))
  | retryAgain {v : TxVersion} (hpc : s.pc w = .retry v) (ha : s.abortReason = none) :
      ExecuteStep cfg w s (s.goto w (.execute v (cfg.executor.start v)))
  | retryQuit {v : TxVersion} (hpc : s.pc w = .retry v) (ha : s.abortReason ≠ none) :
      ExecuteStep cfg w s (s.goto w (.checkAbortReason none))
  | abort {v : TxVersion} {reason : AbortReason E} (hpc : s.pc w = .abort v reason) :
      ExecuteStep cfg w s ((s.withScheduler s.scheduler.abort).goto w (.setAbortReason reason))
  | setAbortReason {reason : AbortReason E} (hpc : s.pc w = .setAbortReason reason) :
      ExecuteStep cfg w s
        ({ s with abortReason := some (s.abortReason.getD reason) }.goto w (.checkAbortReason none))

/-- The steps of `finish_execution`. -/
inductive FinishExecutionStep (w : WorkerId) (s : System X R E) : System X R E → Prop where
  | lock {v : TxVersion} {flags : FinishExecFlags}
      (hpc : s.pc w = .finishExecution v flags .lock)
      (hh : s.scheduler.statusHolder v.txIdx = none) :
      FinishExecutionStep w s ((s.withScheduler (s.scheduler.holdStatus v.txIdx (some w))).goto w
        (.finishExecution v flags .lockDependents))
  | lockDependents {v : TxVersion} {flags : FinishExecFlags}
      (hpc : s.pc w = .finishExecution v flags .lockDependents)
      (hh : s.scheduler.dependentsHolder v.txIdx = none) :
      FinishExecutionStep w s
        ((s.withScheduler (s.scheduler.holdDependents v.txIdx (some w))).goto w
          (.finishExecution v flags .drain))
  | drain {v : TxVersion} {flags : FinishExecFlags} {d : Nat} {rest : List Nat}
      (hpc : s.pc w = .finishExecution v flags .drain)
      (hd : s.scheduler.transactionsDependents v.txIdx = d :: rest)
      (hh : s.scheduler.statusHolder d = none) :
      FinishExecutionStep w s
        ((s.withScheduler ((s.scheduler.setDependents v.txIdx rest).setReady d)).goto w
          (.finishExecution v flags (.lowerExecutionIdx d)))
  | lowerExecutionIdx {v : TxVersion} {flags : FinishExecFlags} {d : Nat}
      (hpc : s.pc w = .finishExecution v flags (.lowerExecutionIdx d)) :
      FinishExecutionStep w s
        ((s.withScheduler { s.scheduler with executionIdx := min s.scheduler.executionIdx d }).goto w
          (.finishExecution v flags .drain))
  | drained {v : TxVersion} {flags : FinishExecFlags}
      (hpc : s.pc w = .finishExecution v flags .drain)
      (hd : s.scheduler.transactionsDependents v.txIdx = []) :
      FinishExecutionStep w s (s.goto w (.finishExecution v flags .readMinValidationIdx))
  | belowMin {v : TxVersion} {flags : FinishExecFlags}
      (hpc : s.pc w = .finishExecution v flags .readMinValidationIdx)
      (hneed : flags.needValidation = false)
      (hm : s.scheduler.minValidationIdx < s.scheduler.blockSize)
      (hv : v.txIdx < s.scheduler.minValidationIdx) (hnew : flags.wroteNewLocation = true) :
      FinishExecutionStep w s
        (s.goto w (.finishExecution v flags (.lowerToMin s.scheduler.minValidationIdx)))
  | nothingToValidate {v : TxVersion} {flags : FinishExecFlags}
      (hpc : s.pc w = .finishExecution v flags .readMinValidationIdx)
      (hneed : flags.needValidation = false)
      (hm : s.scheduler.blockSize ≤ s.scheduler.minValidationIdx ∨
        (v.txIdx < s.scheduler.minValidationIdx ∧ flags.wroteNewLocation = false)) :
      FinishExecutionStep w s (s.goto w (.finishExecution v flags (.settle false)))
  | aboveMin {v : TxVersion} {flags : FinishExecFlags}
      (hpc : s.pc w = .finishExecution v flags .readMinValidationIdx)
      (hneed : flags.needValidation = false)
      (hm : s.scheduler.minValidationIdx < s.scheduler.blockSize)
      (hv : s.scheduler.minValidationIdx ≤ v.txIdx) :
      FinishExecutionStep w s (s.goto w (.finishExecution v flags .loadValidationIdx))
  | lowerMin {v : TxVersion} {flags : FinishExecFlags}
      (hpc : s.pc w = .finishExecution v flags .readMinValidationIdx)
      (hneed : flags.needValidation = true) (hv : v.txIdx < s.scheduler.blockSize) :
      FinishExecutionStep w s
        ((s.withScheduler { s.scheduler with
          minValidationIdx := min s.scheduler.minValidationIdx v.txIdx }).goto w
          (.finishExecution v flags .loadValidationIdx))
  | lowerToMin {v : TxVersion} {flags : FinishExecFlags} {m : Nat}
      (hpc : s.pc w = .finishExecution v flags (.lowerToMin m)) :
      FinishExecutionStep w s
        ((s.withScheduler { s.scheduler with
          validationIdx := min s.scheduler.validationIdx m }).goto w
          (.finishExecution v flags (.settle false)))
  | passedNew {v : TxVersion} {flags : FinishExecFlags}
      (hpc : s.pc w = .finishExecution v flags .loadValidationIdx)
      (hv : v.txIdx < s.scheduler.validationIdx) (hnew : flags.wroteNewLocation = true) :
      FinishExecutionStep w s (s.goto w (.finishExecution v flags .lowerToNext))
  | passed {v : TxVersion} {flags : FinishExecFlags}
      (hpc : s.pc w = .finishExecution v flags .loadValidationIdx)
      (hv : v.txIdx < s.scheduler.validationIdx) (hnew : flags.wroteNewLocation = false) :
      FinishExecutionStep w s (s.goto w (.finishExecution v flags .validateFrom))
  | notPassed {v : TxVersion} {flags : FinishExecFlags}
      (hpc : s.pc w = .finishExecution v flags .loadValidationIdx)
      (hv : s.scheduler.validationIdx ≤ v.txIdx) :
      FinishExecutionStep w s (s.goto w (.finishExecution v flags (.settle false)))
  | lowerToNext {v : TxVersion} {flags : FinishExecFlags}
      (hpc : s.pc w = .finishExecution v flags .lowerToNext) :
      FinishExecutionStep w s
        ((s.withScheduler { s.scheduler with
          validationIdx := min s.scheduler.validationIdx (v.txIdx + 1) }).goto w
          (.finishExecution v flags .validateFrom))
  | validateFrom {v : TxVersion} {flags : FinishExecFlags}
      (hpc : s.pc w = .finishExecution v flags .validateFrom)
      (hneed : flags.needValidation = true) :
      FinishExecutionStep w s
        (((s.withScheduler ((s.scheduler.setStatus v.txIdx .executed).releaseFinish v.txIdx)).record
          [.finished v flags]).goto w (.checkAbortReason (some (.validation v))))
  | fallThrough {v : TxVersion} {flags : FinishExecFlags}
      (hpc : s.pc w = .finishExecution v flags .validateFrom)
      (hneed : flags.needValidation = false) :
      FinishExecutionStep w s
        (((s.withScheduler (s.scheduler.markValidated v.txIdx)).record [.finished v flags]).goto w
          (.finishExecution v flags (.settle true)))
  | settleExecuted {v : TxVersion} {flags : FinishExecFlags} {again : Bool}
      (hpc : s.pc w = .finishExecution v flags (.settle again))
      (hneed : flags.needValidation = true) :
      FinishExecutionStep w s
        (((s.withScheduler ((s.scheduler.setStatus v.txIdx .executed).releaseFinish v.txIdx)).record
          (finishEvents v flags (.settle again))).goto w (.checkAbortReason none))
  | settleValidated {v : TxVersion} {flags : FinishExecFlags} {again : Bool}
      (hpc : s.pc w = .finishExecution v flags (.settle again))
      (hneed : flags.needValidation = false) :
      FinishExecutionStep w s
        (((s.withScheduler ((s.scheduler.markValidated v.txIdx).releaseFinish v.txIdx)).record
          (finishEvents v flags (.settle again))).goto w (.checkAbortReason none))

/-- The steps of `add_dependency`. -/
inductive AddDependencyStep (w : WorkerId) (s : System X R E) : System X R E → Prop where
  | refused {v : TxVersion} {b : Nat} (hpc : s.pc w = .addDependency v b .lockBlocking)
      (hh : s.scheduler.statusHolder b = none)
      (hs : isExecutedOrValidated (s.scheduler.transactionsStatus b).status = true) :
      AddDependencyStep w s (s.goto w (.retry v))
  | lockBlocking {v : TxVersion} {b : Nat} (hpc : s.pc w = .addDependency v b .lockBlocking)
      (hh : s.scheduler.statusHolder b = none)
      (hs : isExecutedOrValidated (s.scheduler.transactionsStatus b).status = false) :
      AddDependencyStep w s
        ((s.withScheduler (s.scheduler.holdStatus b (some w))).goto w (.addDependency v b .lockTx))
  | lockTx {v : TxVersion} {b : Nat} (hpc : s.pc w = .addDependency v b .lockTx)
      (hh : s.scheduler.statusHolder v.txIdx = none) :
      AddDependencyStep w s
        ((s.withScheduler ((s.scheduler.holdStatus v.txIdx (some w)).setStatus v.txIdx
          .aborting)).goto w (.addDependency v b .push))
  | push {v : TxVersion} {b : Nat} (hpc : s.pc w = .addDependency v b .push)
      (hh : s.scheduler.dependentsHolder b = none) :
      AddDependencyStep w s
        ((s.withScheduler (((s.scheduler.setDependents b
          (s.scheduler.transactionsDependents b ++ [v.txIdx])).holdStatus v.txIdx none).holdStatus
          b none)).goto w (.checkAbortReason none))

/-- The steps of `try_validate` and of the test after a task. -/
inductive ValidateStep (cfg : Config X R E) (w : WorkerId) (s : System X R E) :
    System X R E → Prop where
  | lock {v : TxVersion} (hpc : s.pc w = .validate v .lock)
      (hh : s.mvMemory.lastLocationsHolder v.txIdx = none) :
      ValidateStep cfg w s
        ((s.withMemory (s.mvMemory.holdLastLocations v.txIdx (some w))).goto w
          (.validate v (.check (s.mvMemory.lastLocations v.txIdx).read)))
  | check {v : TxVersion} {l : MemoryLocationHash} {os : ReadOrigins} {rest : ReadSet}
      (hpc : s.pc w = .validate v (.check ((l, os) :: rest)))
      (hc : checkLocation s.mvMemory.data v.txIdx l os = true) :
      ValidateStep cfg w s (s.goto w (.validate v (.check rest)))
  | valid {v : TxVersion} (hpc : s.pc w = .validate v (.check [])) :
      ValidateStep cfg w s
        ((s.withMemory (s.mvMemory.holdLastLocations v.txIdx none)).goto w
          (.finishValidation v .lock))
  | invalid {v : TxVersion} {l : MemoryLocationHash} {os : ReadOrigins} {rest : ReadSet}
      (hpc : s.pc w = .validate v (.check ((l, os) :: rest)))
      (hc : checkLocation s.mvMemory.data v.txIdx l os = false) :
      ValidateStep cfg w s
        ((s.withMemory (s.mvMemory.holdLastLocations v.txIdx none)).goto w
          (.tryValidationAbort v .lock))
  | abortLock {v : TxVersion} (hpc : s.pc w = .tryValidationAbort v .lock)
      (hh : s.scheduler.statusHolder v.txIdx = none) :
      ValidateStep cfg w s
        ((s.withScheduler (s.scheduler.holdStatus v.txIdx (some w))).goto w
          (.tryValidationAbort v .abort))
  | abortExecuted {v : TxVersion} (hpc : s.pc w = .tryValidationAbort v .abort)
      (hs : (s.scheduler.transactionsStatus v.txIdx).status = .executed) :
      ValidateStep cfg w s
        (((s.withScheduler ((s.scheduler.setStatus v.txIdx .aborting).holdStatus v.txIdx
          none)).record
          [.validationAborted v (s.scheduler.transactionsStatus v.txIdx).incarnation]).goto w
          (.convertWrites v .lock))
  | abortValidated {v : TxVersion} (hpc : s.pc w = .tryValidationAbort v .abort)
      (hs : (s.scheduler.transactionsStatus v.txIdx).status = .validated) :
      ValidateStep cfg w s
        (((s.withScheduler (({ s.scheduler with
          numValidated := s.scheduler.numValidated - 1 }.setStatus v.txIdx
          .aborting).holdStatus v.txIdx none)).record
          [.validationAborted v (s.scheduler.transactionsStatus v.txIdx).incarnation]).goto w
          (.convertWrites v .lock))
  | abortFailed {v : TxVersion} (hpc : s.pc w = .tryValidationAbort v .abort)
      (hs : isExecutedOrValidated (s.scheduler.transactionsStatus v.txIdx).status = false) :
      ValidateStep cfg w s
        ((s.withScheduler (s.scheduler.holdStatus v.txIdx none)).goto w (.finishValidation v .lock))
  | convertLock {v : TxVersion} (hpc : s.pc w = .convertWrites v .lock)
      (hh : s.mvMemory.lastLocationsHolder v.txIdx = none) :
      ValidateStep cfg w s
        ((s.withMemory (s.mvMemory.holdLastLocations v.txIdx (some w))).goto w
          (.convertWrites v (.convert (s.mvMemory.lastLocations v.txIdx).write)))
  | convert {v : TxVersion} {l : MemoryLocationHash} {rest : List MemoryLocationHash}
      (hpc : s.pc w = .convertWrites v (.convert (l :: rest))) :
      ValidateStep cfg w s
        ((s.withMemory (s.mvMemory.setEstimate l v.txIdx)).goto w
          (.convertWrites v (.convert rest)))
  | converted {v : TxVersion} (hpc : s.pc w = .convertWrites v (.convert [])) :
      ValidateStep cfg w s
        ((s.withMemory (s.mvMemory.holdLastLocations v.txIdx none)).goto w
          (.finishValidation v .setReady))
  | setReady {v : TxVersion} (hpc : s.pc w = .finishValidation v .setReady)
      (hh : s.scheduler.statusHolder v.txIdx = none) :
      ValidateStep cfg w s
        ((s.withScheduler (s.scheduler.setReady v.txIdx)).goto w
          (.finishValidation v .lowerValidationIdx))
  | lowerValidationIdx {v : TxVersion} (hpc : s.pc w = .finishValidation v .lowerValidationIdx) :
      ValidateStep cfg w s
        ((s.withScheduler { s.scheduler with
          validationIdx := min s.scheduler.validationIdx (v.txIdx + 1) }).goto w
          (.finishValidation v .loadExecutionIdx))
  | executionPassed {v : TxVersion} (hpc : s.pc w = .finishValidation v .loadExecutionIdx)
      (he : v.txIdx < s.scheduler.executionIdx) :
      ValidateStep cfg w s (s.goto w (.finishValidation v .tryExecute))
  | executionToCome {v : TxVersion} (hpc : s.pc w = .finishValidation v .loadExecutionIdx)
      (he : s.scheduler.executionIdx ≤ v.txIdx) :
      ValidateStep cfg w s (s.goto w (.checkAbortReason none))
  | reexecute {v : TxVersion} (hpc : s.pc w = .finishValidation v .tryExecute)
      (hh : s.scheduler.statusHolder v.txIdx = none)
      (hs : (s.scheduler.transactionsStatus v.txIdx).status = .readyToExecute) :
      ValidateStep cfg w s
        ((s.withScheduler (s.scheduler.setStatus v.txIdx .executing)).goto w
          (.checkAbortReason (some (.execution (s.scheduler.version v.txIdx)))))
  | leaveToOther {v : TxVersion} (hpc : s.pc w = .finishValidation v .tryExecute)
      (hh : s.scheduler.statusHolder v.txIdx = none)
      (hs : (s.scheduler.transactionsStatus v.txIdx).status ≠ .readyToExecute) :
      ValidateStep cfg w s (s.goto w (.checkAbortReason none))
  | confirmLock {v : TxVersion} (hpc : s.pc w = .finishValidation v .lock)
      (hh : s.scheduler.statusHolder v.txIdx = none)
      (hs : (s.scheduler.transactionsStatus v.txIdx).status = .executed) :
      ValidateStep cfg w s
        ((s.withScheduler (s.scheduler.holdStatus v.txIdx (some w))).goto w
          (.finishValidation v .validate))
  | confirmSkip {v : TxVersion} (hpc : s.pc w = .finishValidation v .lock)
      (hh : s.scheduler.statusHolder v.txIdx = none)
      (hs : (s.scheduler.transactionsStatus v.txIdx).status ≠ .executed) :
      ValidateStep cfg w s (s.goto w (.checkAbortReason none))
  | confirm {v : TxVersion} (hpc : s.pc w = .finishValidation v .validate) :
      ValidateStep cfg w s
        ((s.withScheduler ((s.scheduler.markValidated v.txIdx).holdStatus v.txIdx none)).goto w
          (.checkAbortReason none))
  | quit {task : Option Task} (hpc : s.pc w = .checkAbortReason task)
      (ha : s.abortReason ≠ none) :
      ValidateStep cfg w s (s.goto w .left)
  | dispatchExecution {v : TxVersion} (hpc : s.pc w = .checkAbortReason (some (.execution v)))
      (ha : s.abortReason = none) :
      ValidateStep cfg w s (s.goto w (.execute v (cfg.executor.start v)))
  | dispatchValidation {v : TxVersion} (hpc : s.pc w = .checkAbortReason (some (.validation v)))
      (ha : s.abortReason = none) :
      ValidateStep cfg w s (s.goto w (.validate v .lock))
  | askNext (hpc : s.pc w = .checkAbortReason none) (ha : s.abortReason = none) :
      ValidateStep cfg w s (s.goto w (.nextTask .loop))

/-- Every step a worker can take. -/
inductive Step (cfg : Config X R E) (w : WorkerId) (s s' : System X R E) : Prop where
  | nextTask (h : NextTaskStep cfg w s s')
  | execute (h : ExecuteStep cfg w s s')
  | finishExecution (h : FinishExecutionStep w s s')
  | addDependency (h : AddDependencyStep w s s')
  | validate (h : ValidateStep cfg w s s')

/-! ## Inversion of the step functions

One lemma per operation: the program counter picks the operation, the tests of the step
function pick the constructor. -/

variable {cfg : Config X R E} {w : WorkerId} {s s' : System X R E}

theorem nextTaskStep_of_workerStep {pc : NextTaskPc} (hpc : s.pc w = .nextTask pc)
    (h : workerStep cfg w s = some s') : NextTaskStep cfg w s s' := by
  unfold workerStep at h
  simp only [hpc] at h
  cases pc with
  | loop =>
    cases ha : s.scheduler.aborted with
    | true =>
      simp only [nextTaskStep, ha, if_true, Option.some.injEq] at h
      exact h ▸ .stop hpc ha
    | false =>
      simp only [nextTaskStep, ha, Bool.false_eq_true, if_false, Option.some.injEq] at h
      exact h ▸ .loop hpc ha
  | loadExecutionIdx =>
    simp only [nextTaskStep, Option.some.injEq] at h
    exact h ▸ .loadExecutionIdx hpc
  | loadValidationIdx e =>
    simp only [nextTaskStep, ge_iff_le] at h
    split_ifs at h with hp hv
    · simp only [Option.some.injEq] at h
      exact h ▸ .bothPast hpc hp.1 hp.2
    · simp only [Option.some.injEq] at h
      exact h ▸ .preferValidation hpc hp hv
    · simp only [Option.some.injEq] at h
      exact h ▸ .preferExecution hpc hp hv
  | loadNumValidated =>
    simp only [nextTaskStep, Option.some.injEq] at h
    exact h ▸ .loadNumValidated hpc
  | loadMinValidationIdx c =>
    simp only [nextTaskStep, ge_iff_le] at h
    split_ifs at h with hc
    · simp only [Option.some.injEq] at h
      exact h ▸ .exit hpc hc
    · simp only [Option.some.injEq] at h
      exact h ▸ .spin hpc hc
  | takeValidationIdx =>
    simp only [nextTaskStep] at h
    split_ifs at h with hi
    · simp only [Option.some.injEq] at h
      exact h ▸ .takeValidationIdx hpc hi
    · simp only [Option.some.injEq] at h
      exact h ▸ .overtakeValidationIdx hpc hi
  | checkStatus i =>
    simp only [nextTaskStep] at h
    cases hh : s.scheduler.statusHolder i with
    | some w' => simp [hh] at h
    | none =>
      cases hs : (s.scheduler.transactionsStatus i).status with
      | readyToExecute =>
        simp only [hh, hs, Option.some.injEq] at h
        exact h ▸ .steal hpc hh hs
      | executing =>
        simp only [hh, hs, Option.some.injEq] at h
        exact h ▸ .skipExecuting hpc hh hs
      | executed =>
        simp only [hh, hs, Option.some.injEq] at h
        exact h ▸ .startValidation hpc hh (by rw [hs]; rfl)
      | validated =>
        simp only [hh, hs, Option.some.injEq] at h
        exact h ▸ .startValidation hpc hh (by rw [hs]; rfl)
      | aborting =>
        simp only [hh, hs, Option.some.injEq] at h
        exact h ▸ .skipAborting hpc hh hs
  | takeExecutionIdx =>
    simp only [nextTaskStep] at h
    split_ifs at h with hi
    · simp only [Option.some.injEq] at h
      exact h ▸ .takeExecutionIdx hpc hi
    · simp only [Option.some.injEq] at h
      exact h ▸ .overtakeExecutionIdx hpc hi
  | tryExecute i =>
    simp only [nextTaskStep, Scheduler.tryExecute] at h
    cases hh : s.scheduler.statusHolder i with
    | some w' => simp [hh] at h
    | none =>
      simp only [hh] at h
      split_ifs at h with hs
      · simp only [Option.some.injEq] at h
        exact h ▸ .startExecution hpc hh hs
      · simp only [Option.some.injEq] at h
        exact h ▸ .skipExecution hpc hh hs

theorem executeStep_of_workerStep_execute {v : TxVersion} {x : X} (hpc : s.pc w = .execute v x)
    (h : workerStep cfg w s = some s') : ExecuteStep cfg w s s' := by
  unfold workerStep at h
  simp only [hpc, Option.some.injEq] at h
  cases hx : cfg.executor.step v s.mvMemory x with
  | run x' => rw [hx] at h; exact h ▸ .run hpc hx
  | addNewBytecode hash code x' => rw [hx] at h; exact h ▸ .addNewBytecode hpc hx
  | addLazyAddresses addresses x' => rw [hx] at h; exact h ▸ .addLazyAddresses hpc hx
  | record rs ws need r => rw [hx] at h; exact h ▸ .succeed hpc hx
  | error err =>
    cases err with
    | retry => rw [hx] at h; exact h ▸ .retry hpc hx
    | fallbackToSequential => rw [hx] at h; exact h ▸ .fail hpc
    | blocking b => rw [hx] at h; exact h ▸ .blocked hpc hx
    | executionError err => rw [hx] at h; exact h ▸ .fail hpc

theorem executeStep_of_workerStep_record {v : TxVersion} {rs : ReadSet} {ws : WriteSet}
    {need : Bool} {r : R} {pc : RecordPc} (hpc : s.pc w = .record v rs ws need r pc)
    (h : workerStep cfg w s = some s') : ExecuteStep cfg w s s' := by
  unfold workerStep at h
  simp only [hpc] at h
  cases pc with
  | lock =>
    cases hh : s.mvMemory.lastLocationsHolder v.txIdx with
    | some w' => simp [recordStep, hh] at h
    | none =>
      simp only [recordStep, hh, Option.some.injEq] at h
      exact h ▸ .recordLock hpc hh
  | remove k =>
    cases hk : (s.mvMemory.lastLocations v.txIdx).write[k]? with
    | none =>
      simp only [recordStep, hk, Option.some.injEq] at h
      exact h ▸ .recordRemoved hpc hk
    | some l =>
      simp only [recordStep, hk] at h
      split_ifs at h with hl
      · simp only [Option.some.injEq] at h
        exact h ▸ .recordRemove hpc hk (by simpa using hl)
      · simp only [Option.some.injEq] at h
        exact h ▸ .recordKeep hpc hk (by simpa using hl)
  | insert rest new =>
    cases rest with
    | nil =>
      simp only [recordStep, Option.some.injEq] at h
      exact h ▸ .recordUnlock hpc
    | cons p rest =>
      obtain ⟨l, value⟩ := p
      simp only [recordStep] at h
      split_ifs at h with hl
      · simp only [Option.some.injEq] at h
        exact h ▸ .recordInsertOld hpc hl
      · simp only [Option.some.injEq] at h
        exact h ▸ .recordInsertNew hpc hl

theorem finishExecutionStep_of_workerStep {v : TxVersion} {flags : FinishExecFlags}
    {pc : FinishExecutionPc} (hpc : s.pc w = .finishExecution v flags pc)
    (hb : v.txIdx < s.scheduler.blockSize) (h : workerStep cfg w s = some s') :
    FinishExecutionStep w s s' := by
  unfold workerStep at h
  simp only [hpc] at h
  cases pc with
  | lock =>
    cases hh : s.scheduler.statusHolder v.txIdx with
    | some w' => simp [finishExecutionStep, hh] at h
    | none =>
      simp only [finishExecutionStep, hh, Option.some.injEq] at h
      exact h ▸ .lock hpc hh
  | lockDependents =>
    cases hh : s.scheduler.dependentsHolder v.txIdx with
    | some w' => simp [finishExecutionStep, hh] at h
    | none =>
      simp only [finishExecutionStep, hh, Option.some.injEq] at h
      exact h ▸ .lockDependents hpc hh
  | drain =>
    cases hd : s.scheduler.transactionsDependents v.txIdx with
    | nil =>
      simp only [finishExecutionStep, hd, Option.some.injEq] at h
      exact h ▸ .drained hpc hd
    | cons d rest =>
      cases hh : s.scheduler.statusHolder d with
      | some w' => simp [finishExecutionStep, hd, hh] at h
      | none =>
        simp only [finishExecutionStep, hd, hh, Option.some.injEq] at h
        exact h ▸ .drain hpc hd hh
  | lowerExecutionIdx d =>
    simp only [finishExecutionStep, Option.some.injEq] at h
    exact h ▸ .lowerExecutionIdx hpc
  | readMinValidationIdx =>
    cases hneed : flags.needValidation with
    | true =>
      -- the minimum is now at most the transaction, which is inside the block
      have hlt : min s.scheduler.minValidationIdx v.txIdx < s.scheduler.blockSize := by omega
      have hle : ¬ v.txIdx < min s.scheduler.minValidationIdx v.txIdx := by omega
      simp only [finishExecutionStep, hneed, if_true, hlt, hle, if_false, Option.some.injEq] at h
      exact h ▸ .lowerMin hpc hneed hb
    | false =>
      simp only [finishExecutionStep, hneed, Bool.false_eq_true, if_false] at h
      split_ifs at h with hm hv hnew
      · simp only [Option.some.injEq] at h
        exact h ▸ .belowMin hpc hneed hm hv hnew
      · simp only [Option.some.injEq] at h
        exact h ▸ .nothingToValidate hpc hneed (.inr ⟨hv, by simpa using hnew⟩)
      · simp only [Option.some.injEq] at h
        exact h ▸ .aboveMin hpc hneed hm (by omega)
      · simp only [Option.some.injEq] at h
        exact h ▸ .nothingToValidate hpc hneed (.inl (by omega))
  | lowerToMin m =>
    simp only [finishExecutionStep, Option.some.injEq] at h
    exact h ▸ .lowerToMin hpc
  | loadValidationIdx =>
    simp only [finishExecutionStep] at h
    split_ifs at h with hv hnew
    · simp only [Option.some.injEq] at h
      exact h ▸ .passedNew hpc hv hnew
    · simp only [Option.some.injEq] at h
      exact h ▸ .passed hpc hv (by simpa using hnew)
    · simp only [Option.some.injEq] at h
      exact h ▸ .notPassed hpc (by omega)
  | lowerToNext =>
    simp only [finishExecutionStep, Option.some.injEq] at h
    exact h ▸ .lowerToNext hpc
  | validateFrom =>
    simp only [finishExecutionStep] at h
    split_ifs at h with hneed
    · simp only [Option.some.injEq] at h
      exact h ▸ .validateFrom hpc hneed
    · simp only [Option.some.injEq] at h
      exact h ▸ .fallThrough hpc (by simpa using hneed)
  | settle again =>
    simp only [finishExecutionStep] at h
    split_ifs at h with hneed
    · simp only [Option.some.injEq] at h
      exact h ▸ .settleExecuted hpc hneed
    · simp only [Option.some.injEq] at h
      exact h ▸ .settleValidated hpc (by simpa using hneed)

theorem addDependencyStep_of_workerStep {v : TxVersion} {b : Nat} {pc : AddDependencyPc}
    (hpc : s.pc w = .addDependency v b pc) (h : workerStep cfg w s = some s') :
    AddDependencyStep w s s' := by
  unfold workerStep at h
  simp only [hpc] at h
  cases pc with
  | lockBlocking =>
    cases hh : s.scheduler.statusHolder b with
    | some w' => simp [addDependencyStep, hh] at h
    | none =>
      simp only [addDependencyStep, hh] at h
      split_ifs at h with hs
      · simp only [Option.some.injEq] at h
        exact h ▸ .refused hpc hh hs
      · simp only [Option.some.injEq] at h
        exact h ▸ .lockBlocking hpc hh (by simpa using hs)
  | lockTx =>
    cases hh : s.scheduler.statusHolder v.txIdx with
    | some w' => simp [addDependencyStep, hh] at h
    | none =>
      simp only [addDependencyStep, hh, Option.some.injEq] at h
      exact h ▸ .lockTx hpc hh
  | push =>
    cases hh : s.scheduler.dependentsHolder b with
    | some w' => simp [addDependencyStep, hh] at h
    | none =>
      simp only [addDependencyStep, hh, Option.some.injEq] at h
      exact h ▸ .push hpc hh

theorem validateStep_of_workerStep_validate {v : TxVersion} {pc : ValidatePc}
    (hpc : s.pc w = .validate v pc) (h : workerStep cfg w s = some s') :
    ValidateStep cfg w s s' := by
  unfold workerStep at h
  simp only [hpc] at h
  cases pc with
  | lock =>
    cases hh : s.mvMemory.lastLocationsHolder v.txIdx with
    | some w' => simp [validateStep, hh] at h
    | none =>
      simp only [validateStep, hh, Option.some.injEq] at h
      exact h ▸ .lock hpc hh
  | check rest =>
    cases rest with
    | nil =>
      simp only [validateStep, Option.some.injEq] at h
      exact h ▸ .valid hpc
    | cons p rest =>
      obtain ⟨l, os⟩ := p
      simp only [validateStep] at h
      split_ifs at h with hc
      · simp only [Option.some.injEq] at h
        exact h ▸ .check hpc hc
      · simp only [Option.some.injEq] at h
        exact h ▸ .invalid hpc (by simpa using hc)

theorem validateStep_of_workerStep_tryValidationAbort {v : TxVersion} {pc : TryValidationAbortPc}
    (hpc : s.pc w = .tryValidationAbort v pc) (h : workerStep cfg w s = some s') :
    ValidateStep cfg w s s' := by
  unfold workerStep at h
  simp only [hpc] at h
  cases pc with
  | lock =>
    cases hh : s.scheduler.statusHolder v.txIdx with
    | some w' => simp [tryValidationAbortStep, hh] at h
    | none =>
      simp only [tryValidationAbortStep, hh, Option.some.injEq] at h
      exact h ▸ .abortLock hpc hh
  | abort =>
    cases hs : (s.scheduler.transactionsStatus v.txIdx).status with
    | executed =>
      simp only [tryValidationAbortStep, hs, isExecutedOrValidated, reduceCtorEq, if_false, if_true,
        Option.some.injEq] at h
      exact h ▸ .abortExecuted hpc hs
    | validated =>
      simp only [tryValidationAbortStep, hs, isExecutedOrValidated, if_true,
        Option.some.injEq] at h
      exact h ▸ .abortValidated hpc hs
    | readyToExecute | executing | aborting =>
      simp only [tryValidationAbortStep, hs, isExecutedOrValidated, reduceCtorEq, if_false,
        Bool.false_eq_true, Option.some.injEq] at h
      exact h ▸ .abortFailed hpc (by rw [hs]; rfl)

theorem validateStep_of_workerStep_convertWrites {v : TxVersion} {pc : ConvertPc}
    (hpc : s.pc w = .convertWrites v pc) (h : workerStep cfg w s = some s') :
    ValidateStep cfg w s s' := by
  unfold workerStep at h
  simp only [hpc] at h
  cases pc with
  | lock =>
    cases hh : s.mvMemory.lastLocationsHolder v.txIdx with
    | some w' => simp [convertStep, hh] at h
    | none =>
      simp only [convertStep, hh, Option.some.injEq] at h
      exact h ▸ .convertLock hpc hh
  | convert rest =>
    cases rest with
    | nil =>
      simp only [convertStep, Option.some.injEq] at h
      exact h ▸ .converted hpc
    | cons l rest =>
      simp only [convertStep, Option.some.injEq] at h
      exact h ▸ .convert hpc

theorem validateStep_of_workerStep_finishValidation {v : TxVersion} {pc : FinishValidationPc}
    (hpc : s.pc w = .finishValidation v pc) (h : workerStep cfg w s = some s') :
    ValidateStep cfg w s s' := by
  unfold workerStep at h
  simp only [hpc] at h
  cases pc with
  | setReady =>
    cases hh : s.scheduler.statusHolder v.txIdx with
    | some w' => simp [finishValidationStep, hh] at h
    | none =>
      simp only [finishValidationStep, hh, Option.some.injEq] at h
      exact h ▸ .setReady hpc hh
  | lowerValidationIdx =>
    simp only [finishValidationStep, Option.some.injEq] at h
    exact h ▸ .lowerValidationIdx hpc
  | loadExecutionIdx =>
    simp only [finishValidationStep, gt_iff_lt] at h
    split_ifs at h with he
    · simp only [Option.some.injEq] at h
      exact h ▸ .executionPassed hpc he
    · simp only [Option.some.injEq] at h
      exact h ▸ .executionToCome hpc (by omega)
  | tryExecute =>
    cases hh : s.scheduler.statusHolder v.txIdx with
    | some w' => simp [finishValidationStep, Scheduler.tryExecute, hh] at h
    | none =>
      simp only [finishValidationStep, Scheduler.tryExecute, hh] at h
      split_ifs at h with hs
      · simp only [Option.map_some, Option.some.injEq] at h
        exact h ▸ .reexecute hpc hh hs
      · simp only [Option.map_none, Option.some.injEq] at h
        exact h ▸ .leaveToOther hpc hh hs
  | lock =>
    cases hh : s.scheduler.statusHolder v.txIdx with
    | some w' => simp [finishValidationStep, hh] at h
    | none =>
      simp only [finishValidationStep, hh] at h
      split_ifs at h with hs
      · simp only [Option.some.injEq] at h
        exact h ▸ .confirmLock hpc hh hs
      · simp only [Option.some.injEq] at h
        exact h ▸ .confirmSkip hpc hh hs
  | validate =>
    simp only [finishValidationStep, Option.some.injEq] at h
    exact h ▸ .confirm hpc

theorem validateStep_of_workerStep_checkAbortReason {task : Option Task}
    (hpc : s.pc w = .checkAbortReason task) (h : workerStep cfg w s = some s') :
    ValidateStep cfg w s s' := by
  unfold workerStep at h
  simp only [hpc] at h
  cases ha : s.abortReason with
  | some reason =>
    simp only [ha, Option.some.injEq] at h
    exact h ▸ .quit hpc (by simp [ha])
  | none =>
    match task with
    | none =>
      simp only [ha, Option.some.injEq] at h
      exact h ▸ .askNext hpc ha
    | some (.execution v) =>
      simp only [ha, Option.some.injEq] at h
      exact h ▸ .dispatchExecution hpc ha
    | some (.validation v) =>
      simp only [ha, Option.some.injEq] at h
      exact h ▸ .dispatchValidation hpc ha

/-- **The inversion lemma.** A worker's step is one of the listed ones, as long as the
transaction whose execution it finishes is inside the block. -/
theorem step_of_workerStep
    (hb : ∀ v flags pc, s.pc w = .finishExecution v flags pc → v.txIdx < s.scheduler.blockSize)
    (h : workerStep cfg w s = some s') : Step cfg w s s' := by
  cases hpc : s.pc w with
  | nextTask pc => exact .nextTask (nextTaskStep_of_workerStep hpc h)
  | execute v x => exact .execute (executeStep_of_workerStep_execute hpc h)
  | record v rs ws need r pc => exact .execute (executeStep_of_workerStep_record hpc h)
  | writeResult v flags r =>
    unfold workerStep at h
    simp only [hpc, Option.some.injEq] at h
    exact .execute (h ▸ .writeResult hpc)
  | finishExecution v flags pc =>
    exact .finishExecution (finishExecutionStep_of_workerStep hpc (hb v flags pc hpc) h)
  | retry v =>
    unfold workerStep at h
    simp only [hpc] at h
    cases ha : s.abortReason with
    | none =>
      simp only [ha, Option.some.injEq] at h
      exact .execute (h ▸ .retryAgain hpc ha)
    | some reason =>
      simp only [ha, Option.some.injEq] at h
      exact .execute (h ▸ .retryQuit hpc (by simp [ha]))
  | addDependency v b pc => exact .addDependency (addDependencyStep_of_workerStep hpc h)
  | abort v reason =>
    unfold workerStep at h
    simp only [hpc, Option.some.injEq] at h
    exact .execute (h ▸ .abort hpc)
  | setAbortReason reason =>
    unfold workerStep at h
    simp only [hpc, Option.some.injEq] at h
    exact .execute (h ▸ .setAbortReason hpc)
  | validate v pc => exact .validate (validateStep_of_workerStep_validate hpc h)
  | tryValidationAbort v pc =>
    exact .validate (validateStep_of_workerStep_tryValidationAbort hpc h)
  | convertWrites v pc => exact .validate (validateStep_of_workerStep_convertWrites hpc h)
  | finishValidation v pc => exact .validate (validateStep_of_workerStep_finishValidation hpc h)
  | checkAbortReason task => exact .validate (validateStep_of_workerStep_checkAbortReason hpc h)
  | left =>
    unfold workerStep at h
    simp [hpc] at h

end Step

end Pevm
