import Pevm.Proofs.NextTask

/-!
# No work is lost

Every transaction that is not Validated yet is on its way to a worker:

* a ready one is at or above the execution index, or some worker is about to try it;
* an Executed one is at or above the validation index, or some worker validates it;
* an Executing or Aborting one belongs to a worker or waits for a lower transaction (`Ownership`).

When no worker holds a task or is inside an operation only the indices remain, so that either
everything is Validated or a further call of `next_task` returns a task (`no_work_lost`). A
second invariant follows the workers that may still leave: while an index is below the block
size some worker has yet to see it.
-/

namespace Pevm

open Interleaving Scheduler MvMemory

variable {X R E : Type}

/-- A worker at this program counter is about to try to execute `i`, or to lower the execution
index to it. -/
def Pc.mayExecute (i : Nat) : Pc X R E → Prop
  | .nextTask (.tryExecute j) | .finishExecution _ _ (.lowerExecutionIdx j) => j = i
  | .finishValidation v .lowerValidationIdx | .finishValidation v .loadExecutionIdx
  | .finishValidation v .tryExecute => v.txIdx = i
  | _ => False

/-- A worker at this program counter is about to look at `i` for a validation, or validates it. -/
def Pc.mayValidate (i : Nat) : Pc X R E → Prop
  | .nextTask (.checkStatus j) => j = i
  | .checkAbortReason (some (.validation v)) | .validate v _ | .tryValidationAbort v _
  | .finishValidation v .lock | .finishValidation v .validate => v.txIdx = i
  | _ => False

variable {cfg : Config X R E} {w : WorkerId} {s s' : System X R E}

/-- A step leaves what the other workers are about to do; what the worker itself was about to do
has to be accounted for. -/
theorem Step.exists_pc (h : Step cfg w s s') {Q : Pc X R E → Prop} {P : Prop}
    (hex : ∃ w', Q (s.pc w')) (hw : Q (s.pc w) → Q (s'.pc w) ∨ P) : (∃ w', Q (s'.pc w')) ∨ P := by
  obtain ⟨w', hw'⟩ := hex
  by_cases hne : w' = w
  · subst hne
    exact (hw hw').imp_left fun h => ⟨w', h⟩
  · exact .inl ⟨w', by rwa [h.pc_of_ne hne]⟩

/-! ## Ready transactions -/

theorem Step.ready (h : Step cfg w s s') {i : Nat}
    (hr : (s'.scheduler.transactionsStatus i).status = .readyToExecute) :
    (s.scheduler.transactionsStatus i).status = .readyToExecute ∨ (s'.pc w).mayExecute i := by
  rcases h with h | h | h | h | h <;> cases h
  case finishExecution.drain v flags d rest hpc hd hh =>
    by_cases hi : i = d
    · subst hi
      exact .inr (by simp [Pc.mayExecute])
    · exact .inl (by simpa [setReady, setDependents, hi] using hr)
  case validate.setReady v hpc hh =>
    by_cases hi : i = v.txIdx
    · subst hi
      exact .inr (by simp [Pc.mayExecute])
    · exact .inl (by simpa [setReady, hi] using hr)
  case nextTask.steal j hpc hh hs | nextTask.startExecution j hpc hh hs =>
    refine .inl ?_
    by_cases hi : i = j
    · rwa [hi]
    · simpa [setStatus, hi] using hr
  case validate.reexecute v hpc hh hs =>
    refine .inl ?_
    by_cases hi : i = v.txIdx
    · rwa [hi]
    · simpa [setStatus, hi] using hr
  case addDependency.lockTx v b hpc hh =>
    refine .inl ?_
    by_cases hi : i = v.txIdx
    · simp [setStatus, hi] at hr
    · simpa [setStatus, holdStatus, hi] using hr
  case finishExecution.validateFrom v flags hpc hneed
    | finishExecution.fallThrough v flags hpc hneed
    | finishExecution.settleExecuted v flags again hpc hneed
    | finishExecution.settleValidated v flags again hpc hneed =>
    refine .inl ?_
    by_cases hi : i = v.txIdx
    · simp [markValidated, setStatus, releaseFinish, holdStatus, holdDependents, hi] at hr
    · simpa [markValidated, setStatus, releaseFinish, holdStatus, holdDependents, hi] using hr
  case validate.abortExecuted v hpc hs | validate.abortValidated v hpc hs =>
    refine .inl ?_
    by_cases hi : i = v.txIdx
    · simp [setStatus, holdStatus, hi] at hr
    · simpa [setStatus, holdStatus, hi] using hr
  case validate.confirm v hpc =>
    refine .inl ?_
    by_cases hi : i = v.txIdx
    · simp [markValidated, setStatus, holdStatus, hi] at hr
    · simpa [markValidated, setStatus, holdStatus, hi] using hr
  all_goals exact .inl hr

/-- The execution index moves past a transaction only into the hands of a worker. -/
theorem Step.executionIdx_le (h : Step cfg w s s') {i : Nat}
    (hi : s.scheduler.executionIdx ≤ i) (hn : i < s.scheduler.blockSize) :
    s'.scheduler.executionIdx ≤ i ∨ (s'.pc w).mayExecute i := by
  rcases h with h | h | h | h | h <;> cases h
  case nextTask.takeExecutionIdx hpc hlt =>
    rcases Nat.eq_or_lt_of_le hi with rfl | hlt
    · exact .inr (by simp [Pc.mayExecute])
    · exact .inl hlt
  case nextTask.overtakeExecutionIdx hpc hge => omega
  case finishExecution.lowerExecutionIdx v flags d hpc =>
    exact .inl (le_trans (Nat.min_le_left _ _) hi)
  all_goals exact .inl hi

/-- A worker that is about to try a ready transaction takes it or lowers the index to it. -/
theorem Step.mayExecute (h : Step cfg w s s') {i : Nat}
    (hr : (s'.scheduler.transactionsStatus i).status = .readyToExecute)
    (hw : (s.pc w).mayExecute i) : (s'.pc w).mayExecute i ∨ s'.scheduler.executionIdx ≤ i := by
  rcases h with h | h | h | h | h <;> cases h
  case nextTask.startExecution j hpc hh hs =>
    obtain rfl : j = i := by simpa [hpc, Pc.mayExecute] using hw
    simp [setStatus] at hr
  case nextTask.skipExecution j hpc hh hs =>
    obtain rfl : j = i := by simpa [hpc, Pc.mayExecute] using hw
    exact absurd hr hs
  case finishExecution.lowerExecutionIdx v flags d hpc =>
    obtain rfl : d = i := by simpa [hpc, Pc.mayExecute] using hw
    exact .inr (Nat.min_le_right _ _)
  case validate.lowerValidationIdx v hpc =>
    exact .inl (by simpa [hpc, Pc.mayExecute] using hw)
  case validate.executionPassed v hpc he =>
    exact .inl (by simpa [hpc, Pc.mayExecute] using hw)
  case validate.executionToCome v hpc he =>
    obtain rfl : v.txIdx = i := by simpa [hpc, Pc.mayExecute] using hw
    exact .inr he
  case validate.reexecute v hpc hh hs =>
    obtain rfl : v.txIdx = i := by simpa [hpc, Pc.mayExecute] using hw
    simp [setStatus] at hr
  case validate.leaveToOther v hpc hh hs =>
    obtain rfl : v.txIdx = i := by simpa [hpc, Pc.mayExecute] using hw
    exact absurd hr hs
  all_goals simp_all only [Pc.mayExecute]

/-! ## Executed transactions -/

/-- A transaction becomes Executed at the end of `finish_execution`, which hands its validation to
the worker or leaves it to the validation index. -/
theorem Step.executed (h : Step cfg w s s') {i : Nat}
    (hx : (s'.scheduler.transactionsStatus i).status = .executed) :
    (s.scheduler.transactionsStatus i).status = .executed ∨ (s'.pc w).mayValidate i ∨
      (∃ v flags again, v.txIdx = i ∧ flags.needValidation = true ∧
        s.pc w = .finishExecution v flags (.settle again) ∧
        s'.pc w = .checkAbortReason none ∧
        s'.scheduler.validationIdx = s.scheduler.validationIdx) := by
  rcases h with h | h | h | h | h <;> cases h
  case finishExecution.validateFrom v flags hpc hneed =>
    by_cases hi : i = v.txIdx
    · subst hi
      exact .inr (.inl (by simp [Pc.mayValidate]))
    · exact .inl (by simpa [setStatus, releaseFinish, holdStatus, holdDependents, hi] using hx)
  case finishExecution.settleExecuted v flags again hpc hneed =>
    by_cases hi : i = v.txIdx
    · exact .inr (.inr ⟨v, flags, again, hi.symm, hneed, hpc, by simp, rfl⟩)
    · exact .inl (by simpa [setStatus, releaseFinish, holdStatus, holdDependents, hi] using hx)
  case finishExecution.fallThrough v flags hpc hneed
    | finishExecution.settleValidated v flags again hpc hneed =>
    refine .inl ?_
    by_cases hi : i = v.txIdx
    · simp [markValidated, setStatus, releaseFinish, holdStatus, holdDependents, hi] at hx
    · simpa [markValidated, setStatus, releaseFinish, holdStatus, holdDependents, hi] using hx
  case nextTask.steal j hpc hh hs | nextTask.startExecution j hpc hh hs =>
    refine .inl ?_
    by_cases hi : i = j
    · simp [setStatus, hi] at hx
    · simpa [setStatus, hi] using hx
  case finishExecution.drain v flags d rest hpc hd hh =>
    refine .inl ?_
    by_cases hi : i = d
    · simp [setReady, hi] at hx
    · simpa [setReady, setDependents, hi] using hx
  case addDependency.lockTx v b hpc hh =>
    refine .inl ?_
    by_cases hi : i = v.txIdx
    · simp [setStatus, hi] at hx
    · simpa [setStatus, holdStatus, hi] using hx
  case validate.abortExecuted v hpc hs | validate.abortValidated v hpc hs =>
    refine .inl ?_
    by_cases hi : i = v.txIdx
    · simp [setStatus, holdStatus, hi] at hx
    · simpa [setStatus, holdStatus, hi] using hx
  case validate.setReady v hpc hh =>
    refine .inl ?_
    by_cases hi : i = v.txIdx
    · simp [setReady, hi] at hx
    · simpa [setReady, hi] using hx
  case validate.reexecute v hpc hh hs =>
    refine .inl ?_
    by_cases hi : i = v.txIdx
    · simp [setStatus, hi] at hx
    · simpa [setStatus, hi] using hx
  case validate.confirm v hpc =>
    refine .inl ?_
    by_cases hi : i = v.txIdx
    · simp [markValidated, setStatus, holdStatus, hi] at hx
    · simpa [markValidated, setStatus, holdStatus, hi] using hx
  all_goals exact .inl hx

/-- The validation index moves past a transaction only into the hands of a worker. -/
theorem Step.validationIdx_le (h : Step cfg w s s') {i : Nat}
    (hi : s.scheduler.validationIdx ≤ i) (hn : i < s.scheduler.blockSize) :
    s'.scheduler.validationIdx ≤ i ∨ s'.pc w = .nextTask (.checkStatus i) := by
  rcases h with h | h | h | h | h <;> cases h
  case nextTask.takeValidationIdx hpc hlt =>
    rcases Nat.eq_or_lt_of_le hi with rfl | hlt
    · exact .inr (by simp)
    · exact .inl hlt
  case nextTask.overtakeValidationIdx hpc hge => omega
  case finishExecution.lowerToMin v flags m hpc => exact .inl (le_trans (Nat.min_le_left _ _) hi)
  case finishExecution.lowerToNext v flags hpc => exact .inl (le_trans (Nat.min_le_left _ _) hi)
  case validate.lowerValidationIdx v hpc => exact .inl (le_trans (Nat.min_le_left _ _) hi)
  all_goals exact .inl hi

/-- A worker that validates an Executed transaction keeps at it until the transaction is
Validated or aborted. -/
theorem Step.mayValidate (hb : Bounds cfg s) (h : Step cfg w s s') {i : Nat}
    (ha : s'.scheduler.aborted = false)
    (hx : (s'.scheduler.transactionsStatus i).status = .executed)
    (hw : (s.pc w).mayValidate i) : (s'.pc w).mayValidate i := by
  have habort : s.abortReason = none := by
    by_contra hne
    rw [h.aborted_mono (hb.aborted hne)] at ha
    cases ha
  rcases h with h | h | h | h | h <;> cases h
  case nextTask.steal j hpc hh hs =>
    obtain rfl : j = i := by simpa [hpc, Pc.mayValidate] using hw
    simp [setStatus] at hx
  case nextTask.startValidation j hpc hh hs =>
    simpa [hpc, Pc.mayValidate, Scheduler.version] using hw
  case nextTask.skipAborting j hpc hh hs =>
    obtain rfl : j = i := by simpa [hpc, Pc.mayValidate] using hw
    have hx : (s.scheduler.transactionsStatus j).status = .executed := hx
    rw [hs] at hx
    cases hx
  case nextTask.skipExecuting j hpc hh hs =>
    obtain rfl : j = i := by simpa [hpc, Pc.mayValidate] using hw
    have hx : (s.scheduler.transactionsStatus j).status = .executed := hx
    rw [hs] at hx
    cases hx
  case validate.abortExecuted v hpc hs | validate.abortValidated v hpc hs =>
    obtain rfl : v.txIdx = i := by simpa [hpc, Pc.mayValidate] using hw
    simp [setStatus, holdStatus] at hx
  case validate.confirmSkip v hpc hh hs =>
    obtain rfl : v.txIdx = i := by simpa [hpc, Pc.mayValidate] using hw
    exact absurd hx hs
  case validate.confirm v hpc =>
    obtain rfl : v.txIdx = i := by simpa [hpc, Pc.mayValidate] using hw
    simp [markValidated, setStatus, holdStatus] at hx
  case validate.quit task hpc hne => exact absurd habort hne
  case validate.askNext hpc hnone => simp [hpc, Pc.mayValidate] at hw
  case validate.dispatchExecution v hpc hnone => simp [hpc, Pc.mayValidate] at hw
  case validate.lock v hpc hh | validate.check v l os rest hpc hc | validate.valid v hpc
    | validate.invalid v l os rest hpc hc | validate.abortLock v hpc hh
    | validate.abortFailed v hpc hs | validate.confirmLock v hpc hh hs
    | validate.dispatchValidation v hpc hnone =>
    simpa [hpc, Pc.mayValidate] using hw
  all_goals simp_all only [Pc.mayValidate]

/-- A status test waits for the mutex. -/
theorem Step.checkStatus_unlocked (h : Step cfg w s s') {i : Nat}
    (hpc : s.pc w = .nextTask (.checkStatus i)) : s.scheduler.statusHolder i = none := by
  rcases h with h | h | h | h | h <;> cases h
  case nextTask.steal j hpc' hh hs | nextTask.startValidation j hpc' hh hs
    | nextTask.skipAborting j hpc' hh hs | nextTask.skipExecuting j hpc' hh hs =>
    obtain rfl : i = j := by simpa [hpc] using hpc'
    exact hh
  all_goals simp_all

/-- Where the transactions that are not Validated will be picked up. -/
structure Progress (s : System X R E) : Prop where
  ready : s.scheduler.aborted = false → ∀ i, i < s.scheduler.blockSize →
    (s.scheduler.transactionsStatus i).status = .readyToExecute →
    (∃ w, (s.pc w).mayExecute i) ∨ s.scheduler.executionIdx ≤ i
  executed : s.scheduler.aborted = false → ∀ i, i < s.scheduler.blockSize →
    (s.scheduler.transactionsStatus i).status = .executed →
    (∃ w, (s.pc w).mayValidate i) ∨ s.scheduler.validationIdx ≤ i
  /-- `finish_execution` leaves a validation to the index only if the index has not passed, or
  its passer waits for the mutex -/
  settling : ∀ w v flags, s.pc w = .finishExecution v flags (.settle false) →
    flags.needValidation = true →
    (∃ w', s.pc w' = .nextTask (.checkStatus v.txIdx)) ∨ s.scheduler.validationIdx ≤ v.txIdx
  loweringToMin : ∀ w v flags m, s.pc w = .finishExecution v flags (.lowerToMin m) →
    flags.needValidation = false

theorem Progress.ready_step (hP : Progress s) (h : Step cfg w s s')
    (ha : s'.scheduler.aborted = false) {i : Nat} (hi : i < s'.scheduler.blockSize)
    (hr : (s'.scheduler.transactionsStatus i).status = .readyToExecute) :
    (∃ w, (s'.pc w).mayExecute i) ∨ s'.scheduler.executionIdx ≤ i := by
  have ha₀ : s.scheduler.aborted = false := by
    by_contra hne
    rw [h.aborted_mono (by simpa using hne)] at ha
    cases ha
  rw [h.blockSize_eq] at hi
  rcases h.ready hr with hr₀ | hnew
  · rcases hP.ready ha₀ i hi hr₀ with hex | hle
    · exact h.exists_pc hex (h.mayExecute hr)
    · rcases h.executionIdx_le hle hi with hle' | hnew
      · exact .inr hle'
      · exact .inl ⟨w, hnew⟩
  · exact .inl ⟨w, hnew⟩

theorem Progress.executed_step (hb : Bounds cfg s) (hP : Progress s) (h : Step cfg w s s')
    (ha : s'.scheduler.aborted = false) {i : Nat} (hi : i < s'.scheduler.blockSize)
    (hx : (s'.scheduler.transactionsStatus i).status = .executed) :
    (∃ w, (s'.pc w).mayValidate i) ∨ s'.scheduler.validationIdx ≤ i := by
  have ha₀ : s.scheduler.aborted = false := by
    by_contra hne
    rw [h.aborted_mono (by simpa using hne)] at ha
    cases ha
  rw [h.blockSize_eq] at hi
  rcases h.executed hx with hx₀ | hnew | ⟨v, flags, again, rfl, hneed, hpc, -, hidx⟩
  · rcases hP.executed ha₀ i hi hx₀ with hex | hle
    · exact h.exists_pc hex fun hw => .inl (h.mayValidate hb ha hx hw)
    · rcases h.validationIdx_le hle hi with hle' | hnew
      · exact .inr hle'
      · exact .inl ⟨w, by simp [hnew, Pc.mayValidate]⟩
  · exact .inl ⟨w, hnew⟩
  · obtain rfl : again = false := by
      cases again with
      | false => rfl
      | true =>
        rw [hb.fellThrough w v flags hpc] at hneed
        cases hneed
    rcases hP.settling w v flags hpc hneed with ⟨w', hw'⟩ | hle
    · have hne : w' ≠ w := by
        rintro rfl
        simp [hpc] at hw'
      exact .inl ⟨w', by simp [h.pc_of_ne hne, hw', Pc.mayValidate]⟩
    · exact .inr (hidx ▸ hle)

theorem Progress.settling_step (hb : Bounds cfg s) (hO : Ownership s.own) (hP : Progress s)
    (h : Step cfg w s s') {w₀ : WorkerId} {v : TxVersion} {flags : FinishExecFlags}
    (hpc : s'.pc w₀ = .finishExecution v flags (.settle false))
    (hneed : flags.needValidation = true) :
    (∃ w', s'.pc w' = .nextTask (.checkStatus v.txIdx)) ∨ s'.scheduler.validationIdx ≤ v.txIdx := by
  by_cases hw : w₀ = w
  · subst hw
    rcases h with h | h | h | h | h <;> cases h
    case finishExecution.notPassed v' flags' hpc' hv =>
      obtain ⟨rfl, rfl⟩ : v' = v ∧ flags' = flags := by simpa using hpc
      exact .inr hv
    case finishExecution.nothingToValidate v' flags' hpc' hneed' hm =>
      obtain ⟨rfl, rfl⟩ : v' = v ∧ flags' = flags := by simpa using hpc
      rw [hneed'] at hneed
      cases hneed
    case finishExecution.lowerToMin v' flags' m hpc' =>
      obtain ⟨rfl, rfl⟩ : v' = v ∧ flags' = flags := by simpa using hpc
      rw [hP.loweringToMin w₀ v' flags' m hpc'] at hneed
      cases hneed
    all_goals simp at hpc
  · rw [h.pc_of_ne hw] at hpc
    have hlt : v.txIdx < s.scheduler.blockSize := hb.finishExecution_lt v flags _ hpc
    have hheld : s.scheduler.statusHolder v.txIdx = some w₀ :=
      (hO.statusHeld v.txIdx w₀).mpr (by simp [System.own, hpc, Pc.phase, Phase.statuses])
    rcases hP.settling w₀ v flags hpc hneed with hex | hle
    · refine h.exists_pc (Q := fun pc => pc = .nextTask (.checkStatus v.txIdx)) hex fun hpcw => ?_
      rw [h.checkStatus_unlocked hpcw] at hheld
      cases hheld
    · rcases h.validationIdx_le hle hlt with hle' | hnew
      · exact .inr hle'
      · exact .inl ⟨w, hnew⟩

theorem Progress.step (hb : Bounds cfg s) (hO : Ownership s.own) (h : Step cfg w s s')
    (hP : Progress s) : Progress s' where
  ready ha _ hi hr := hP.ready_step h ha hi hr
  executed ha _ hi hx := hP.executed_step hb h ha hi hx
  settling _ _ _ hpc hneed := hP.settling_step hb hO h hpc hneed
  loweringToMin w' v flags m hpc := by
    by_cases hw : w' = w
    · subst hw
      rcases h with h | h | h | h | h <;> cases h
      case finishExecution.belowMin v' flags' hpc' hneed hm hv hnew =>
        obtain ⟨rfl, rfl, rfl⟩ : v' = v ∧ flags' = flags ∧ _ = m := by simpa using hpc
        exact hneed
      all_goals simp at hpc
    · rw [h.pc_of_ne hw] at hpc
      exact hP.loweringToMin w' v flags m hpc

theorem progress_reachable (h : (workers cfg).Reachable s) : Progress s :=
  invariant_of_step
    (fun s hs => by
      obtain ⟨hs, -, -, hpc, -⟩ := hs
      refine ⟨fun _ i _ _ => .inr (by simp [hs, Scheduler.new]), fun _ i _ hx => ?_,
        fun w v flags h => ?_, fun w v flags m h => ?_⟩
      · simp [hs, Scheduler.new] at hx
      · simp [hpc w] at h
      · simp [hpc w] at h)
    (fun _ _ _ hb hs _ hstep hP => hP.step hb (ownership_reachable hs) hstep) h

/-! ## Result slots -/

theorem Step.log_subset (h : Step cfg w s s') : s.log ⊆ s'.log := by
  rcases h with h | h | h | h | h <;> cases h <;>
    first | exact List.Subset.refl _ | exact List.subset_append_right _ _

theorem Step.results_isSome (h : Step cfg w s s') {i : Nat}
    (hi : (s.executionResults i).isSome ∨ (.wroteResult i ∈ s'.log ∧ .wroteResult i ∉ s.log)) :
    (s'.executionResults i).isSome := by
  rcases h with h | h | h | h | h <;> cases h
  case execute.writeResult v flags r hpc =>
    by_cases hv : i = v.txIdx
    · simp [hv]
    · rcases hi with hi | ⟨hi, hno⟩
      · simpa [hv] using hi
      · simp [hv, hno] at hi
  case finishExecution.settleExecuted v flags again hpc hneed =>
    cases again <;> simpa [finishEvents] using hi
  case finishExecution.settleValidated v flags again hpc hneed =>
    cases again <;> simpa [finishEvents] using hi
  all_goals simpa using hi

/-- In the ownership protocol a transaction finishes only at the hands of a settling worker. -/
theorem OwnStep.finished {n : Nat} {o o' : Own} (hO : Ownership o) (h : OwnStep n w o o') {i : Nat}
    (hx : isExecutedOrValidated (o'.status i).status = true) :
    isExecutedOrValidated (o.status i).status = true ∨ ∃ v, v.txIdx = i ∧ o.phase w = .settling v := by
  have hC := hO.confirming w
  have hR := hO.recounting w
  cases h
  case stutter => exact .inl hx
  all_goals
    simp only [Own.setPhase, Own.setStatus, Own.setDependents, Own.hold, Own.holdDependents] at hx
    grind [Function.update_apply, isExecutedOrValidated]

/-- A settling worker is in `finish_execution`. -/
theorem Pc.finishExecution_of_settling {pc : Pc X R E} {v : TxVersion}
    (h : pc.phase = .settling v) : ∃ flags pc', pc = .finishExecution v flags pc' := by
  unfold Pc.phase at h
  split at h
  all_goals first | exact ⟨_, _, by simp_all⟩ | simp_all

/-- A transaction finishes at the hands of a worker in `finish_execution`. -/
theorem Step.finished (hb : Bounds cfg s) (hO : Ownership s.own) (h : Step cfg w s s') {i : Nat}
    (hx : isExecutedOrValidated (s'.scheduler.transactionsStatus i).status = true) :
    isExecutedOrValidated (s.scheduler.transactionsStatus i).status = true ∨
      ∃ v flags pc, v.txIdx = i ∧ s.pc w = .finishExecution v flags pc := by
  rcases (own_of_step hb h).finished hO hx with hx₀ | ⟨v, hi, hphase⟩
  · exact .inl hx₀
  · obtain ⟨flags, pc, hpc⟩ := Pc.finishExecution_of_settling hphase
    exact .inr ⟨v, flags, pc, hi, hpc⟩

/-- `finish_execution` starts after the result slot was written. -/
theorem Step.startFinish (h : Step cfg w s s') {v : TxVersion} {flags : FinishExecFlags}
    {pc : FinishExecutionPc} (hpc : s'.pc w = .finishExecution v flags pc) :
    (∃ pc₀, s.pc w = .finishExecution v flags pc₀) ∨ .wroteResult v.txIdx ∈ s'.log := by
  rcases h with h | h | h | h | h <;> cases h
  case execute.writeResult v' flags' r hpc' =>
    obtain ⟨rfl, rfl, -⟩ : v' = v ∧ flags' = flags ∧ _ := by simpa using hpc
    exact .inr (by simp)
  all_goals simp_all

/-- The result of a finished transaction was written in this block. -/
structure Written (s : System X R E) : Prop where
  finished : ∀ i, isExecutedOrValidated (s.scheduler.transactionsStatus i).status = true →
    .wroteResult i ∈ s.log
  finishing : ∀ w v flags pc, s.pc w = .finishExecution v flags pc → .wroteResult v.txIdx ∈ s.log
  slot : ∀ i, .wroteResult i ∈ s.log → (s.executionResults i).isSome

theorem Written.step (hb : Bounds cfg s) (hO : Ownership s.own) (h : Step cfg w s s')
    (hW : Written s) : Written s' where
  finished i hx := by
    rcases h.finished hb hO hx with hx₀ | ⟨v, flags, pc, rfl, hpc⟩
    · exact h.log_subset (hW.finished i hx₀)
    · exact h.log_subset (hW.finishing w v flags pc hpc)
  finishing w' v flags pc hpc := by
    by_cases hw : w' = w
    · subst hw
      rcases h.startFinish hpc with ⟨pc₀, hpc₀⟩ | hwrote
      · exact h.log_subset (hW.finishing w' v flags pc₀ hpc₀)
      · exact hwrote
    · rw [h.pc_of_ne hw] at hpc
      exact h.log_subset (hW.finishing w' v flags pc hpc)
  slot i hi := by
    by_cases hold : .wroteResult i ∈ s.log
    · exact h.results_isSome (.inl (hW.slot i hold))
    · exact h.results_isSome (.inr ⟨hi, hold⟩)

theorem written_reachable (h : (workers cfg).Reachable s) : Written s :=
  invariant_of_step
    (fun s hs => by
      obtain ⟨hs, -, -, hpc, hlog⟩ := hs
      refine ⟨fun i hx => ?_, fun w v flags pc h => ?_, fun i hi => ?_⟩
      · simp [hs, Scheduler.new, isExecutedOrValidated] at hx
      · simp [hpc w] at h
      · simp [hlog] at hi)
    (fun _ _ _ hb hs _ hstep hW => hW.step hb (ownership_reachable hs) hstep) h

/-! ## Leaving -/

/-- A worker at this program counter looks at the execution index before it leaves. -/
def Pc.seesExecutionIdx (n : Nat) : Pc X R E → Bool
  | .left | .nextTask .loadNumValidated | .nextTask (.loadMinValidationIdx _) => false
  | .nextTask (.loadValidationIdx e) => e < n
  | _ => true

/-- A worker at this program counter looks at the validation index before it leaves. -/
def Pc.seesValidationIdx : Pc X R E → Bool
  | .left | .nextTask .loadNumValidated | .nextTask (.loadMinValidationIdx _) => false
  | _ => true

/-- An index below the block size will be seen by some worker before it leaves. -/
structure Attended (cfg : Config X R E) (s : System X R E) : Prop where
  execution : s.scheduler.aborted = false → s.scheduler.executionIdx < s.scheduler.blockSize →
    ∃ w, w < cfg.concurrencyLevel ∧ (s.pc w).seesExecutionIdx s.scheduler.blockSize = true
  validation : s.scheduler.aborted = false → s.scheduler.validationIdx < s.scheduler.blockSize →
    ∃ w, w < cfg.concurrencyLevel ∧ (s.pc w).seesValidationIdx = true

/-- A worker leaves only when the run is aborted. -/
theorem Step.abortReason_none (hb : Bounds cfg s) (h : Step cfg w s s')
    (ha : s'.scheduler.aborted = false) : s.scheduler.aborted = false ∧ s.abortReason = none := by
  have ha₀ : s.scheduler.aborted = false := by
    by_contra hne
    rw [h.aborted_mono (by simpa using hne)] at ha
    cases ha
  refine ⟨ha₀, ?_⟩
  by_contra hne
  rw [hb.aborted hne] at ha₀
  cases ha₀

/-- The worker that lowers the execution index below the block size, or still looks at it, does
not turn away in this step. -/
theorem Step.seesExecutionIdx (hb : Bounds cfg s) (h : Step cfg w s s')
    (ha : s'.scheduler.aborted = false)
    (hi : s'.scheduler.executionIdx < s'.scheduler.blockSize)
    (hw : s.scheduler.blockSize ≤ s.scheduler.executionIdx ∨
      (s.pc w).seesExecutionIdx s.scheduler.blockSize = true) :
    (s'.pc w).seesExecutionIdx s'.scheduler.blockSize = true := by
  obtain ⟨ha₀, hnone⟩ := h.abortReason_none hb ha
  rcases h with h | h | h | h | h <;> cases h
  case nextTask.stop hpc hab => simp [hab] at ha₀
  case nextTask.exit c hpc hc | nextTask.loadNumValidated hpc =>
    rcases hw with hge | hsee
    · exact absurd hi (not_lt.mpr hge)
    · simp [hpc, Pc.seesExecutionIdx] at hsee
  case nextTask.bothPast e hpc he hv =>
    rcases hw with hge | hsee
    · exact absurd hi (not_lt.mpr hge)
    · have : e < s.scheduler.blockSize := by simpa [hpc, Pc.seesExecutionIdx] using hsee
      omega
  case nextTask.loadExecutionIdx hpc =>
    simp only [System.goto_pc, Function.update_self, Pc.seesExecutionIdx, decide_eq_true_eq]
    exact hi
  case validate.quit task hpc hne => exact absurd hnone hne
  all_goals simp [Pc.seesExecutionIdx]

/-- The worker that lowers the validation index below the block size, or still looks at it, does
not turn away in this step. -/
theorem Step.seesValidationIdx (hb : Bounds cfg s) (h : Step cfg w s s')
    (ha : s'.scheduler.aborted = false)
    (hi : s'.scheduler.validationIdx < s'.scheduler.blockSize)
    (hw : s.scheduler.blockSize ≤ s.scheduler.validationIdx ∨ (s.pc w).seesValidationIdx = true) :
    (s'.pc w).seesValidationIdx = true := by
  obtain ⟨ha₀, hnone⟩ := h.abortReason_none hb ha
  rcases h with h | h | h | h | h <;> cases h
  case nextTask.stop hpc hab => simp [hab] at ha₀
  case nextTask.exit c hpc hc | nextTask.loadNumValidated hpc =>
    rcases hw with hge | hsee
    · exact absurd hi (not_lt.mpr hge)
    · simp [hpc, Pc.seesValidationIdx] at hsee
  case nextTask.bothPast e hpc he hv => exact absurd hi (not_lt.mpr hv)
  case validate.quit task hpc hne => exact absurd hnone hne
  all_goals simp [Pc.seesValidationIdx]

theorem Attended.step (hb : Bounds cfg s) (hw : w < cfg.concurrencyLevel) (h : Step cfg w s s')
    (hA : Attended cfg s) : Attended cfg s' where
  execution ha hi := by
    obtain ⟨ha₀, -⟩ := h.abortReason_none hb ha
    by_cases hlt : s.scheduler.executionIdx < s.scheduler.blockSize
    · obtain ⟨w', hw', hsee⟩ := hA.execution ha₀ hlt
      by_cases hne : w' = w
      · subst hne
        exact ⟨w', hw', h.seesExecutionIdx hb ha hi (.inr hsee)⟩
      · exact ⟨w', hw', by rwa [h.pc_of_ne hne, h.blockSize_eq]⟩
    · exact ⟨w, hw, h.seesExecutionIdx hb ha hi (.inl (not_lt.mp hlt))⟩
  validation ha hi := by
    obtain ⟨ha₀, -⟩ := h.abortReason_none hb ha
    by_cases hlt : s.scheduler.validationIdx < s.scheduler.blockSize
    · obtain ⟨w', hw', hsee⟩ := hA.validation ha₀ hlt
      by_cases hne : w' = w
      · subst hne
        exact ⟨w', hw', h.seesValidationIdx hb ha hi (.inr hsee)⟩
      · exact ⟨w', hw', by rwa [h.pc_of_ne hne]⟩
    · exact ⟨w, hw, h.seesValidationIdx hb ha hi (.inl (not_lt.mp hlt))⟩

theorem attended_reachable (hlevel : 0 < cfg.concurrencyLevel) (h : (workers cfg).Reachable s) :
    Attended cfg s := by
  refine h.invariant (fun s (hs : initial cfg s) => ?_) fun w s s' hs _ hstep hA => ?_
  · obtain ⟨-, -, -, hpc, -⟩ := hs
    exact ⟨fun _ _ => ⟨0, hlevel, by simp [hpc 0, Pc.seesExecutionIdx]⟩,
      fun _ _ => ⟨0, hlevel, by simp [hpc 0, Pc.seesValidationIdx]⟩⟩
  · obtain ⟨hw, hstep⟩ := workers_step hstep
    have hb := bounds_reachable hs
    exact hA.step hb hw (step_of_workerStep hb.finishExecution_lt hstep)

/-! ## Quiescent states -/

/-- A worker that holds no task and is inside no operation. -/
def Pc.quiescent : Pc X R E → Bool
  | .left | .nextTask .loop | .checkAbortReason none => true
  | _ => false

theorem Pc.phase_of_quiescent {pc : Pc X R E} (h : pc.quiescent = true) : pc.phase = .idle := by
  unfold Pc.quiescent at h
  split at h
  all_goals first | rfl | cases h

/-- Without a worker to own it a transaction that is neither ready nor finished waits for a lower
one of this kind, so there is none if nothing is ready. -/
theorem finished_of_not_ready (hO : Ownership s.own) (ha : s.scheduler.aborted = false)
    (hq : ∀ w, (s.pc w).quiescent = true) {n : Nat}
    (hready : ∀ i, i < n → (s.scheduler.transactionsStatus i).status ≠ .readyToExecute) :
    ∀ i, i < n → isExecutedOrValidated (s.scheduler.transactionsStatus i).status = true := by
  have hidle : ∀ w, s.own.phase w = .idle := fun w => Pc.phase_of_quiescent (hq w)
  intro i
  induction i using Nat.strong_induction_on with
  | _ i ih =>
    intro hi
    cases hst : (s.scheduler.transactionsStatus i).status with
    | readyToExecute => exact absurd hst (hready i hi)
    | executed | validated => rfl
    | executing =>
      obtain ⟨w, hw⟩ := hO.executor ha i hst
      rw [hidle w] at hw
      cases hw
    | aborting =>
      rcases hO.aborter i hst with ⟨w, hw⟩ | ⟨b, hb⟩
      · rw [hidle w] at hw
        cases hw
      · obtain ⟨-, hlt, hfin⟩ := hO.dependent b i hb
        have hfin' := ih b hlt (by omega)
        rw [show isExecutedOrValidated (s.scheduler.transactionsStatus b).status = false from hfin]
          at hfin'
        cases hfin'

/-- In a quiescent state only the indices keep what is not Validated. -/
theorem pending_of_quiescent (h : (workers cfg).Reachable s) (ha : s.scheduler.aborted = false)
    (hq : ∀ w, (s.pc w).quiescent = true) {i : Nat} (hi : i < s.scheduler.blockSize)
    (hst : (s.scheduler.transactionsStatus i).status ≠ .validated) :
    ∃ j, j < s.scheduler.blockSize ∧
      ((s.scheduler.executionIdx ≤ j ∧
        (s.scheduler.transactionsStatus j).status = .readyToExecute) ∨
      (s.scheduler.validationIdx ≤ j ∧ (s.scheduler.transactionsStatus j).status = .executed)) := by
  have hP := progress_reachable h
  have hnoExec : ∀ j, ¬ ∃ w, (s.pc w).mayExecute j := by
    rintro j ⟨w, hw⟩
    have := hq w
    unfold Pc.mayExecute at hw
    split at hw <;> simp_all [Pc.quiescent]
  have hnoVal : ∀ j, ¬ ∃ w, (s.pc w).mayValidate j := by
    rintro j ⟨w, hw⟩
    have := hq w
    unfold Pc.mayValidate at hw
    split at hw <;> simp_all [Pc.quiescent]
  by_cases hready : ∃ j, j < s.scheduler.blockSize ∧
      (s.scheduler.transactionsStatus j).status = .readyToExecute
  · obtain ⟨j, hj, hr⟩ := hready
    exact ⟨j, hj, .inl ⟨(hP.ready ha j hj hr).resolve_left (hnoExec j), hr⟩⟩
  · simp only [not_exists, not_and] at hready
    have hfin := finished_of_not_ready (ownership_reachable h) ha hq hready i hi
    have hx : (s.scheduler.transactionsStatus i).status = .executed := by
      cases hs : (s.scheduler.transactionsStatus i).status <;> simp_all [isExecutedOrValidated]
    exact ⟨i, hi, .inr ⟨(hP.executed ha i hi hx).resolve_left (hnoVal i), hx⟩⟩

/-- With both indices past the block, everything is Validated in a quiescent state. -/
theorem validated_of_past (h : (workers cfg).Reachable s) (ha : s.scheduler.aborted = false)
    (hq : ∀ w, (s.pc w).quiescent = true)
    (he : s.scheduler.blockSize ≤ s.scheduler.executionIdx)
    (hv : s.scheduler.blockSize ≤ s.scheduler.validationIdx) {i : Nat}
    (hi : i < s.scheduler.blockSize) : (s.scheduler.transactionsStatus i).status = .validated := by
  by_contra hst
  obtain ⟨j, hj, ⟨hle, -⟩ | ⟨hle, -⟩⟩ := pending_of_quiescent h ha hq hi hst
  · omega
  · omega

/-- When all workers have left without an abort, the state is quiescent and both indices are past
the block. -/
theorem past_of_left (h : (workers cfg).Reachable s) (ha : s.scheduler.aborted = false)
    (hlevel : 0 < cfg.concurrencyLevel) (hleft : ∀ w, w < cfg.concurrencyLevel → s.pc w = .left) :
    (∀ w, (s.pc w).quiescent = true) ∧ s.scheduler.blockSize ≤ s.scheduler.executionIdx ∧
      s.scheduler.blockSize ≤ s.scheduler.validationIdx := by
  have hA := attended_reachable hlevel h
  refine ⟨fun w => ?_, ?_, ?_⟩
  · by_cases hw : w < cfg.concurrencyLevel
    · rw [hleft w hw]
      rfl
    · rw [pc_of_le h (not_lt.mp hw)]
      rfl
  · by_contra hlt
    obtain ⟨w, hw, hsee⟩ := hA.execution ha (not_le.mp hlt)
    rw [hleft w hw] at hsee
    cases hsee
  · by_contra hlt
    obtain ⟨w, hw, hsee⟩ := hA.validation ha (not_le.mp hlt)
    rw [hleft w hw] at hsee
    cases hsee

/-- **No work is lost and no worker idles forever.** In a reachable state that is not aborted
and in which no worker holds a task or is inside an operation, either every transaction is
Validated and its result was written in this block, or an index is below the block size and a
further call of `next_task` returns a task. Such a call never spins when both indices are past
the block: it returns none. When all workers have left no result slot is empty. -/
theorem no_work_lost (h : (workers cfg).Reachable s) (ha : s.scheduler.aborted = false) :
    ((∀ w, (s.pc w).quiescent = true) →
      ((∀ i, i < s.scheduler.blockSize →
        (s.scheduler.transactionsStatus i).status = .validated ∧ .wroteResult i ∈ s.log) ∨
      (min s.scheduler.executionIdx s.scheduler.validationIdx < s.scheduler.blockSize ∧
        ∃ scheduler task, Completes nextTaskStep s.scheduler .loop scheduler (some task))) ∧
      (s.scheduler.blockSize ≤ s.scheduler.executionIdx →
        s.scheduler.blockSize ≤ s.scheduler.validationIdx →
        ∃ scheduler, Completes nextTaskStep s.scheduler .loop scheduler none)) ∧
    (0 < cfg.concurrencyLevel → (∀ w, w < cfg.concurrencyLevel → s.pc w = .left) →
      ∀ i, i < s.scheduler.blockSize → (s.executionResults i).isSome) := by
  have hO := ownership_reachable h
  have hW := written_reachable h
  have hwritten : ∀ {i}, (s.scheduler.transactionsStatus i).status = .validated →
      .wroteResult i ∈ s.log := fun hst => hW.finished _ (by rw [hst]; rfl)
  refine ⟨fun hq => ⟨?_, fun he hv => ?_⟩, fun hlevel hleft i hi => ?_⟩
  · by_cases hall : ∀ i, i < s.scheduler.blockSize →
        (s.scheduler.transactionsStatus i).status = .validated
    · exact .inl fun i hi => ⟨hall i hi, hwritten (hall i hi)⟩
    · push Not at hall
      obtain ⟨i, hi, hst⟩ := hall
      obtain ⟨j, hj, hpend⟩ := pending_of_quiescent h ha hq hi hst
      have hfree : ∀ k, s.scheduler.statusHolder k = none := by
        intro k
        by_contra hne
        obtain ⟨w, hw⟩ := Option.ne_none_iff_exists'.mp hne
        have hmem := (hO.statusHeld k w).mp hw
        rw [show s.own.phase w = .idle from Pc.phase_of_quiescent (hq w)] at hmem
        cases hmem
      have hwork : ¬ s.scheduler.Exhausted := by
        intro he
        rcases hpend with ⟨hle, hr⟩ | ⟨hle, hx⟩
        · exact (he.execution j hle hj).2 hr
        · rcases (he.validation j hle hj).2 with h' | h' <;> rw [hx] at h' <;> cases h'
      refine .inr ⟨?_, completes_task ha hfree hwork⟩
      rcases hpend with ⟨hle, -⟩ | ⟨hle, -⟩
      · exact lt_of_le_of_lt (Nat.min_le_left _ _) (by omega)
      · exact lt_of_le_of_lt (Nat.min_le_right _ _) (by omega)
  · refine (completes_none_iff ha).mpr ⟨exhausted_of_past he hv, (exitTest_iff h).mpr ?_⟩
    have hempty : s.scheduler.unsettledTxs = ∅ :=
      Finset.filter_eq_empty_iff.mpr fun i hi hu =>
        hu.2 (validated_of_past h ha hq he hv (Finset.mem_range.mp hi))
    rw [hempty]
    exact Nat.zero_le _
  · obtain ⟨hq, he, hv⟩ := past_of_left h ha hlevel hleft
    exact hW.slot i (hwritten (validated_of_past h ha hq he hv hi))

/-- The end of the sample block: worker 0 has left and worker 1 is about to call `next_task`,
which returns none. -/
theorem no_work_lost_sample : ∃ s, (workers Sample.config).Reachable s ∧
    s.scheduler.aborted = false ∧ (∀ w, (s.pc w).quiescent = true) ∧
    ∃ scheduler, Completes nextTaskStep s.scheduler .loop scheduler none := by
  obtain ⟨s, hs, hp⟩ := Sample.exists_reachable Sample.config
    [(0, 33), (1, 5), (0, 46), (1, 22)]
    (fun s => !s.scheduler.aborted && (s.pc 0).quiescent && (s.pc 1).quiescent &&
      decide (s.scheduler.blockSize ≤ s.scheduler.executionIdx) &&
      decide (s.scheduler.blockSize ≤ s.scheduler.validationIdx))
    (by decide +kernel)
  simp only [Bool.and_eq_true, Bool.not_eq_true', decide_eq_true_eq] at hp
  obtain ⟨⟨⟨⟨ha, h0⟩, h1⟩, he⟩, hv⟩ := hp
  have hq := forall_pc_of_two hs le_rfl (Q := fun pc => pc.quiescent = true) h0 h1 rfl
  exact ⟨s, hs, ha, hq, ((no_work_lost hs ha).1 hq).2 he hv⟩

end Pevm
