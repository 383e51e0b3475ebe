import Pevm.Proofs.Ownership
import Pevm.Vm

/-!
# The scheduler's mutexes cannot deadlock

`add_dependency` locks `status[blocking]`, `status[tx]` and then `dependents[blocking]`;
`finish_execution` locks `status[tx]`, `dependents[tx]` and then `status[dependent]` for every
dependent. No order on the mutexes alone makes both safe; the indices at run time do:

* a worker that waits for a status while it holds one waits for a **higher** one
  (`WaitsFor.rank_lt`): a blocking transaction is lower than its reader, a dependent is higher
  than the transaction that resumes it;
* nobody ever waits for a dependents list (`not_waitsFor_dependents`): whoever locks
  `dependents[i]` has locked `status[i]` before.

A critical section that is a single step holds its mutex inside that step only and waits for
nothing meanwhile.
-/

namespace Pevm

open Interleaving Scheduler MvMemory

variable {X R E : Type}

/-- The mutexes of the scheduler. -/
inductive Mutex where
  /-- `transactions_status[i]` -/
  | status (i : Nat)
  /-- `transactions_dependents[i]` -/
  | dependents (i : Nat)
  deriving DecidableEq

/-- The worker inside the critical section of a mutex; `none` while the mutex is free. -/
def Scheduler.holder (s : Scheduler) : Mutex → Option WorkerId
  | .status i => s.statusHolder i
  | .dependents i => s.dependentsHolder i

/-- The mutex that the next step of worker `w` has to lock. -/
def System.wants (s : System X R E) (w : WorkerId) : Option Mutex :=
  match s.pc w with
  | .nextTask (.checkStatus i) | .nextTask (.tryExecute i) => some (.status i)
  | .finishExecution v _ .lock => some (.status v.txIdx)
  | .finishExecution v _ .lockDependents => some (.dependents v.txIdx)
  -- `set_ready_status` of the next dependent
  | .finishExecution v _ .drain => (s.scheduler.transactionsDependents v.txIdx).head?.map .status
  | .addDependency _ b .lockBlocking => some (.status b)
  | .addDependency v _ .lockTx => some (.status v.txIdx)
  | .addDependency _ b .push => some (.dependents b)
  | .tryValidationAbort v .lock => some (.status v.txIdx)
  | .finishValidation v .setReady | .finishValidation v .tryExecute
  | .finishValidation v .lock => some (.status v.txIdx)
  | _ => none

/-- Worker `w` waits for a mutex that `w'` holds. -/
def WaitsFor (s : System X R E) (w w' : WorkerId) : Prop :=
  ∃ m, s.wants w = some m ∧ s.scheduler.holder m = some w'

/-- The transaction whose last locations the next step of worker `w` has to lock. -/
def System.wantsLastLocations (s : System X R E) (w : WorkerId) : Option Nat :=
  match s.pc w with
  | .record v _ _ _ _ .lock | .validate v .lock | .convertWrites v .lock => some v.txIdx
  | _ => none

section Blocked

variable {cfg : Config X R E} {w : WorkerId} {s : System X R E}

/-! ### When the operations are blocked -/

theorem nextTaskStep_eq_none_iff {t : Scheduler} {pc : NextTaskPc} :
    t.nextTaskStep pc = none ↔
      ∃ i w', (pc = .checkStatus i ∨ pc = .tryExecute i) ∧ t.statusHolder i = some w' := by
  fun_cases nextTaskStep t pc <;> grind [Scheduler.tryExecute]

theorem finishExecutionStep_eq_none_iff {t : Scheduler} {v : TxVersion} {flags : FinishExecFlags}
    {pc : FinishExecutionPc} :
    t.finishExecutionStep w v flags pc = none ↔
      (∃ w', pc = .lock ∧ t.statusHolder v.txIdx = some w') ∨
      (∃ w', pc = .lockDependents ∧ t.dependentsHolder v.txIdx = some w') ∨
      ∃ d w', pc = .drain ∧ (t.transactionsDependents v.txIdx).head? = some d ∧
        t.statusHolder d = some w' := by
  fun_cases finishExecutionStep w v flags t pc <;> grind

theorem addDependencyStep_eq_none_iff {t : Scheduler} {i b : Nat} {pc : AddDependencyPc} :
    t.addDependencyStep w i b pc = none ↔
      (∃ w', pc = .lockBlocking ∧ t.statusHolder b = some w') ∨
      (∃ w', pc = .lockTx ∧ t.statusHolder i = some w') ∨
      ∃ w', pc = .push ∧ t.dependentsHolder b = some w' := by
  fun_cases addDependencyStep w i b t pc <;> grind

theorem tryValidationAbortStep_eq_none_iff {t : Scheduler} {v : TxVersion}
    {pc : TryValidationAbortPc} :
    t.tryValidationAbortStep w v pc = none ↔
      ∃ w', pc = .lock ∧ t.statusHolder v.txIdx = some w' := by
  fun_cases tryValidationAbortStep w v t pc <;> grind

theorem finishValidationStep_eq_none_iff {t : Scheduler} {v : TxVersion}
    {pc : FinishValidationPc} :
    t.finishValidationStep w v pc = none ↔
      ∃ w', (pc = .setReady ∨ pc = .tryExecute ∨ pc = .lock) ∧
        t.statusHolder v.txIdx = some w' := by
  fun_cases finishValidationStep w v t pc <;> grind [Scheduler.tryExecute]

theorem recordStep_eq_none_iff {m : MvMemory} {v : TxVersion} {rs : ReadSet} {ws : WriteSet}
    {pc : RecordPc} :
    m.recordStep w v rs ws pc = none ↔
      ∃ w', pc = .lock ∧ m.lastLocationsHolder v.txIdx = some w' := by
  fun_cases recordStep w v rs ws m pc <;> grind

theorem validateStep_eq_none_iff {m : MvMemory} {i : Nat} {pc : ValidatePc} :
    m.validateStep w i pc = none ↔
      ∃ w', pc = .lock ∧ m.lastLocationsHolder i = some w' := by
  fun_cases validateStep w i m pc <;> grind

theorem convertStep_eq_none_iff {m : MvMemory} {i : Nat} {pc : ConvertPc} :
    m.convertStep w i pc = none ↔
      ∃ w', pc = .lock ∧ m.lastLocationsHolder i = some w' := by
  fun_cases convertStep w i m pc <;> grind

/-- A worker still in the loop cannot step only while it waits for a mutex. -/
theorem blocked_iff :
    workerStep cfg w s = none ↔ s.pc w = .left ∨ (∃ w', WaitsFor s w w') ∨
      ∃ i w', s.wantsLastLocations w = some i ∧ s.mvMemory.lastLocationsHolder i = some w' := by
  unfold WaitsFor System.wants System.wantsLastLocations
  cases hpc : s.pc w with
  | nextTask pc =>
    have h : workerStep cfg w s = none ↔ s.scheduler.nextTaskStep pc = none := by
      simp only [workerStep, hpc]
      split <;> simp_all
    rw [h, nextTaskStep_eq_none_iff]
    cases pc <;> simp [Scheduler.holder]
  | finishExecution v flags pc =>
    have h : workerStep cfg w s = none ↔ s.scheduler.finishExecutionStep w v flags pc = none := by
      simp only [workerStep, hpc]
      split <;> simp_all
    rw [h, finishExecutionStep_eq_none_iff]
    cases pc
    case drain => cases hd : s.scheduler.transactionsDependents v.txIdx <;> simp [Scheduler.holder, hd]
    all_goals simp [Scheduler.holder]
  | addDependency v b pc =>
    have h : workerStep cfg w s = none ↔ s.scheduler.addDependencyStep w v.txIdx b pc = none := by
      simp only [workerStep, hpc]
      split <;> simp_all
    rw [h, addDependencyStep_eq_none_iff]
    cases pc <;> simp [Scheduler.holder]
  | tryValidationAbort v pc =>
    have h : workerStep cfg w s = none ↔ s.scheduler.tryValidationAbortStep w v pc = none := by
      simp only [workerStep, hpc]
      split <;> simp_all
    rw [h, tryValidationAbortStep_eq_none_iff]
    cases pc <;> simp [Scheduler.holder]
  | finishValidation v pc =>
    have h : workerStep cfg w s = none ↔ s.scheduler.finishValidationStep w v pc = none := by
      simp only [workerStep, hpc]
      split <;> simp_all
    rw [h, finishValidationStep_eq_none_iff]
    cases pc <;> simp [Scheduler.holder]
  | record v rs ws need r pc =>
    have h : workerStep cfg w s = none ↔ s.mvMemory.recordStep w v rs ws pc = none := by
      simp only [workerStep, hpc]
      split <;> simp_all
    rw [h, recordStep_eq_none_iff]
    cases pc <;> simp
  | validate v pc =>
    have h : workerStep cfg w s = none ↔ s.mvMemory.validateStep w v.txIdx pc = none := by
      simp only [workerStep, hpc]
      split <;> simp_all
    rw [h, validateStep_eq_none_iff]
    cases pc <;> simp
  | convertWrites v pc =>
    have h : workerStep cfg w s = none ↔ s.mvMemory.convertStep w v.txIdx pc = none := by
      simp only [workerStep, hpc]
      split <;> simp_all
    rw [h, convertStep_eq_none_iff]
    cases pc <;> simp
  | retry v => cases ha : s.abortReason <;> simp [workerStep, hpc, ha]
  | checkAbortReason task =>
    cases ha : s.abortReason <;> cases task <;> simp [workerStep, hpc, ha]
  | _ => simp [workerStep, hpc]

end Blocked

/-- What a waiting worker is ordered by: the index of the status it waits for. Nothing is above
a worker that waits for no status. -/
def rank : Option Mutex → WithTop Nat
  | some (.status i) => i
  | _ => ⊤

section Order

variable {cfg : Config X R E} {w w' : WorkerId} {s : System X R E}

/-- Whoever locks a dependents list has locked the status of its transaction before. -/
theorem not_waitsFor_dependents (hO : Ownership s.own) {i : Nat}
    (hw : s.wants w = some (.dependents i)) : s.scheduler.dependentsHolder i = none := by
  rw [Option.eq_none_iff_forall_ne_some]
  intro w' hh
  have hheld : i ∈ (s.pc w').phase.dependents := (hO.dependentsHeld i w').mp hh
  -- the holder of the list holds the status too
  have hstatus' : i ∈ (s.pc w').phase.statuses := by
    revert hheld
    cases (s.pc w').phase <;> simp [Phase.dependents, Phase.statuses]
  have hstatus : i ∈ (s.pc w).phase.statuses ∧ (s.pc w).phase.dependents = [] := by
    unfold System.wants at hw
    split at hw <;> simp_all [Pc.phase, Phase.statuses, Phase.dependents]
  have h := (hO.statusHeld i w).mpr hstatus.1
  rw [(hO.statusHeld i w').mpr hstatus'] at h
  obtain rfl := Option.some.inj h
  rw [hstatus.2] at hheld
  cases hheld

/-- A worker that holds a status waits for a higher one, or for none. -/
theorem rank_of_held (hb : Bounds cfg s) {i : Nat} (hi : i ∈ (s.pc w).phase.statuses) :
    (i : WithTop Nat) < rank (s.wants w) := by
  have hw := hb.pc w
  unfold System.wants
  split
  case h_5 v flags hpc =>
    rw [hpc] at hi
    obtain rfl : i = v.txIdx := by simpa [Pc.phase, Phase.statuses] using hi
    cases hd : s.scheduler.transactionsDependents v.txIdx with
    | nil => exact WithTop.coe_lt_top _
    | cons d rest => exact WithTop.coe_lt_coe.mpr (hb.dependents v.txIdx d (by simp [hd])).1
  case h_7 v b hpc =>
    rw [hpc] at hi hw
    obtain rfl : i = b := by simpa [Pc.phase, Phase.statuses] using hi
    exact WithTop.coe_lt_coe.mpr hw.2
  all_goals first
    | exact WithTop.coe_lt_top _
    | simp_all [Pc.phase, Phase.statuses]

theorem WaitsFor.rank_lt (hb : Bounds cfg s) (hO : Ownership s.own) (h : WaitsFor s w w') :
    rank (s.wants w) < rank (s.wants w') := by
  obtain ⟨m, hm, hh⟩ := h
  cases m with
  | status i =>
    rw [hm]
    exact rank_of_held hb ((hO.statusHeld i w').mp hh)
  | dependents i =>
    have hfree := not_waitsFor_dependents hO hm
    exact absurd (hfree.symm.trans hh) (by simp)

/-- **The scheduler's locks cannot deadlock.** In no reachable state do workers wait for each
other in a cycle, and no worker waits for a mutex it holds. -/
theorem no_deadlock (hs : (workers cfg).Reachable s) :
    (∀ w, ¬ Relation.TransGen (WaitsFor s) w w) ∧
      ∀ w m, s.wants w = some m → s.scheduler.holder m ≠ some w := by
  have hb := bounds_reachable hs
  have hO := ownership_reachable hs
  have hlt : ∀ {w w'}, Relation.TransGen (WaitsFor s) w w' →
      rank (s.wants w) < rank (s.wants w') := by
    intro w w' h
    induction h with
    | single h => exact h.rank_lt hb hO
    | tail _ h ih => exact ih.trans (h.rank_lt hb hO)
  exact ⟨fun w h => lt_irrefl _ (hlt h),
    fun w m hm hh => lt_irrefl _ (hlt (.single ⟨m, hm, hh⟩))⟩

/-- Worker 1 fetched transaction 2 of the sample block for validation while worker 0 finishes its
execution: worker 1 waits, worker 0 does not. -/
theorem no_deadlock_sample : ∃ s, (workers Sample.config).Reachable s ∧ WaitsFor s 1 0 ∧
    ¬ WaitsFor s 0 1 := by
  obtain ⟨s, hs, hp⟩ := Sample.exists_reachable Sample.config [(0, 5), (1, 5), (0, 43), (1, 39)]
    (fun s => s.wants 1 = some (.status 2) && s.scheduler.holder (.status 2) = some 0)
    (by decide +kernel)
  simp only [Bool.and_eq_true, decide_eq_true_eq] at hp
  have hwaits : WaitsFor s 1 0 := ⟨.status 2, hp.1, hp.2⟩
  exact ⟨s, hs, hwaits, fun h => (no_deadlock hs).1 1 (.tail (.single hwaits) h)⟩

end Order

end Pevm
