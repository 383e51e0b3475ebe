import Pevm.Lib.Simulation
import Pevm.Proofs.AbortedRuns
import Pevm.Proofs.Reuse

/-!
# Failing executions

The storage may fail in any call. A run over a storage that fails now and then is compared with one
over the storage that always answers: where it ends without the abort of a failure, some
interleaving over the storage that always answers ends the same way (`ends_of_failing`).

The interleaving is found step by step (`Beside`). It takes the steps of the failing run, but leaves
a worker where it is from the moment at which

* its execution fails, or
* it breaks off because of an abort, which in the failing run may be that of another worker.

From there on such a worker only writes the abort flag and the abort reason, which the others are
blind to except where they break off themselves (`workerStep_refit`). When the failing run has ended
with an abort reason, the workers left behind are run to their end (`ends_of_aborted`).
-/

namespace Pevm

open Interleaving Scheduler MvMemory

variable {X R E : Type} {cfg : Config X R E} {w : WorkerId}

/-! ## What does not read the abort -/

namespace Scheduler

variable {t : Scheduler} {a : Bool}

/-- The scheduler with another abort flag, which only the loop of `next_task` reads. -/
def withAborted (t : Scheduler) (a : Bool) : Scheduler :=
  { t with aborted := a }

theorem tryExecute_withAborted {i : Nat} :
    (t.withAborted a).tryExecute i = (t.tryExecute i).map fun p => (p.1.withAborted a, p.2) := by
  fun_cases Scheduler.tryExecute t i <;>
    simp_all [Scheduler.tryExecute, withAborted, setStatus, version]

theorem nextTaskStep_withAborted {pc : NextTaskPc} (hpc : pc ≠ .loop) :
    (t.withAborted a).nextTaskStep pc =
      (t.nextTaskStep pc).map fun p => (p.1.withAborted a, p.2) := by
  cases pc with
  | loop => exact absurd rfl hpc
  | tryExecute i =>
    simp only [nextTaskStep, tryExecute_withAborted]
    cases t.tryExecute i with
    | none => rfl
    | some p =>
      obtain ⟨t', version⟩ := p
      cases version <;> rfl
  | checkStatus i =>
    simp only [nextTaskStep, withAborted, version]
    cases t.statusHolder i with
    | some w => rfl
    | none => cases (t.transactionsStatus i).status <;> rfl
  | loadValidationIdx executionIdx | loadMinValidationIdx numValidated =>
    simp only [nextTaskStep, apply_ite (Option.map _), Option.map_some]
    rfl
  | _ => rfl

theorem finishExecutionStep_withAborted {v : TxVersion} {flags : FinishExecFlags}
    {pc : FinishExecutionPc} :
    (t.withAborted a).finishExecutionStep w v flags pc =
      (t.finishExecutionStep w v flags pc).map fun p => (p.1.withAborted a, p.2) := by
  cases pc with
  | lock =>
    simp only [finishExecutionStep, withAborted]
    cases t.statusHolder v.txIdx <;> rfl
  | lockDependents =>
    simp only [finishExecutionStep, withAborted]
    cases t.dependentsHolder v.txIdx <;> rfl
  | drain =>
    simp only [finishExecutionStep, withAborted]
    cases t.transactionsDependents v.txIdx with
    | nil => rfl
    | cons dependent rest =>
      cases hh : t.statusHolder dependent with
      | some w' => simp [hh]
      | none =>
        simp only [hh]
        rfl
  | validateFrom | settle again =>
    simp only [finishExecutionStep]
    cases flags.needValidation <;> rfl
  | _ => rfl

theorem addDependencyStep_withAborted {i b : Nat} {pc : AddDependencyPc} :
    (t.withAborted a).addDependencyStep w i b pc =
      (t.addDependencyStep w i b pc).map fun p => (p.1.withAborted a, p.2) := by
  cases pc with
  | lockBlocking =>
    simp only [addDependencyStep, withAborted]
    cases t.statusHolder b with
    | some w' => rfl
    | none =>
      simp only [apply_ite (Option.map _), Option.map_some]
      rfl
  | lockTx =>
    simp only [addDependencyStep, withAborted]
    cases t.statusHolder i <;> rfl
  | push =>
    simp only [addDependencyStep, withAborted]
    cases t.dependentsHolder b <;> rfl

theorem tryValidationAbortStep_withAborted {v : TxVersion} {pc : TryValidationAbortPc} :
    (t.withAborted a).tryValidationAbortStep w v pc =
      (t.tryValidationAbortStep w v pc).map fun p => (p.1.withAborted a, p.2) := by
  cases pc with
  | lock =>
    simp only [tryValidationAbortStep, withAborted]
    cases t.statusHolder v.txIdx <;> rfl
  | abort =>
    have hsame : (t.withAborted a).transactionsStatus = t.transactionsStatus := rfl
    simp only [tryValidationAbortStep, hsame]
    cases hs : (t.transactionsStatus v.txIdx).status <;> rfl

theorem finishValidationStep_withAborted {v : TxVersion} {pc : FinishValidationPc} :
    (t.withAborted a).finishValidationStep w v pc =
      (t.finishValidationStep w v pc).map fun p => (p.1.withAborted a, p.2) := by
  have hsame : (t.withAborted a).transactionsStatus = t.transactionsStatus := rfl
  cases pc with
  | setReady =>
    simp only [finishValidationStep, withAborted]
    cases t.statusHolder v.txIdx <;> rfl
  | tryExecute =>
    simp only [finishValidationStep, tryExecute_withAborted]
    cases t.tryExecute v.txIdx <;> rfl
  | lock =>
    have hholder : (t.withAborted a).statusHolder = t.statusHolder := rfl
    simp only [finishValidationStep, hsame, hholder]
    cases t.statusHolder v.txIdx with
    | some w' => rfl
    | none => cases hs : (t.transactionsStatus v.txIdx).status <;> rfl
  | _ => rfl

end Scheduler

/-- The state with another abort flag, abort reason and program counters. -/
def System.refit (t : System X R E) (aborted : Bool) (abortReason : Option (AbortReason E))
    (pc : WorkerId → Pc X R E) : System X R E :=
  { t with
    scheduler := t.scheduler.withAborted aborted
    abortReason := abortReason
    pc := pc }

/-- The next step looks at the abort flag or the abort reason, or runs the executor. -/
def Pc.readsAbort : Pc X R E → Bool
  | .nextTask .loop | .execute _ _ | .retry _ | .abort _ _ | .setAbortReason _
  | .checkAbortReason _ | .left => true
  | _ => false

theorem workerStep_refit {t t' : System X R E} (aborted : Bool)
    (abortReason : Option (AbortReason E)) (pc : WorkerId → Pc X R E) (hpc : pc w = t.pc w)
    (hreads : (t.pc w).readsAbort = false)
    (h : workerStep cfg w t = some t') :
    workerStep cfg w (t.refit aborted abortReason pc) =
      some (t'.refit aborted abortReason (Function.update pc w (t'.pc w))) := by
  have hpc' : (t.refit aborted abortReason pc).pc w = t.pc w := hpc
  have hscheduler : (t.refit aborted abortReason pc).scheduler = t.scheduler.withAborted aborted := rfl
  have hmemory : (t.refit aborted abortReason pc).mvMemory = t.mvMemory := rfl
  unfold workerStep at h ⊢
  rw [hpc', hscheduler, hmemory]
  cases htpc : t.pc w with
  | nextTask pc' =>
    have hne : pc' ≠ .loop := by
      rintro rfl
      rw [htpc] at hreads
      cases hreads
    simp only [htpc, nextTaskStep_withAborted hne] at h ⊢
    cases hop : t.scheduler.nextTaskStep pc' with
    | none => simp [hop] at h
    | some p =>
      obtain ⟨t₁, c⟩ := p
      simp only [hop, Option.map_some] at h ⊢
      rcases c with c | _ | task <;> cases h <;> simp [System.refit, System.goto, System.withScheduler]
  | finishExecution v flags pc' =>
    simp only [htpc, finishExecutionStep_withAborted] at h ⊢
    cases hop : t.scheduler.finishExecutionStep w v flags pc' with
    | none => simp [hop] at h
    | some p =>
      obtain ⟨t₁, c⟩ := p
      simp only [hop, Option.map_some] at h ⊢
      cases c <;> cases h <;> simp [System.refit, System.goto, System.withScheduler, System.record]
  | addDependency v b pc' =>
    simp only [htpc, addDependencyStep_withAborted] at h ⊢
    cases hop : t.scheduler.addDependencyStep w v.txIdx b pc' with
    | none => simp [hop] at h
    | some p =>
      obtain ⟨t₁, c⟩ := p
      simp only [hop, Option.map_some] at h ⊢
      rcases c with c | _ | _ <;> cases h <;> simp [System.refit, System.goto, System.withScheduler]
  | tryValidationAbort v pc' =>
    simp only [htpc, tryValidationAbortStep_withAborted] at h ⊢
    cases hop : t.scheduler.tryValidationAbortStep w v pc' with
    | none => simp [hop] at h
    | some p =>
      obtain ⟨t₁, c⟩ := p
      simp only [hop, Option.map_some] at h ⊢
      rcases c with c | _ | _ <;> cases h
      all_goals simp [System.refit, System.goto, System.withScheduler, System.record]
      rfl
  | finishValidation v pc' =>
    simp only [htpc, finishValidationStep_withAborted] at h ⊢
    cases hop : t.scheduler.finishValidationStep w v pc' with
    | none => simp [hop] at h
    | some p =>
      obtain ⟨t₁, c⟩ := p
      simp only [hop, Option.map_some] at h ⊢
      cases c <;> cases h <;> simp [System.refit, System.goto, System.withScheduler]
  | record v rs ws need r pc' =>
    simp only [htpc] at h ⊢
    cases hop : t.mvMemory.recordStep w v rs ws pc' with
    | none => simp [hop] at h
    | some p =>
      obtain ⟨m₁, c⟩ := p
      simp only [hop] at h ⊢
      cases c <;> cases h <;> simp [System.refit, System.goto, System.withMemory, System.record]
  | validate v pc' =>
    simp only [htpc] at h ⊢
    cases hop : t.mvMemory.validateStep w v.txIdx pc' with
    | none => simp [hop] at h
    | some p =>
      obtain ⟨m₁, c⟩ := p
      simp only [hop] at h ⊢
      rcases c with c | _ | _ <;> cases h <;> simp [System.refit, System.goto, System.withMemory]
  | convertWrites v pc' =>
    simp only [htpc] at h ⊢
    cases hop : t.mvMemory.convertStep w v.txIdx pc' with
    | none => simp [hop] at h
    | some p =>
      obtain ⟨m₁, c⟩ := p
      simp only [hop] at h ⊢
      cases c <;> cases h <;> simp [System.refit, System.goto, System.withMemory]
  | writeResult v flags r =>
    simp only [htpc, Option.some.injEq] at h ⊢
    subst h
    simp [System.refit, System.goto, System.record]
  | execute _ _ | retry _ | abort _ _ | setAbortReason _ | checkAbortReason _ | left =>
    rw [htpc] at hreads
    cases hreads

theorem executeStep_refit {v : TxVersion} {step : ExecStep X R E} (t : System X R E) (aborted : Bool)
    (abortReason : Option (AbortReason E)) (pc : WorkerId → Pc X R E) :
    executeStep w v (t.refit aborted abortReason pc) step =
      (executeStep w v t step).refit aborted abortReason
        (Function.update pc w ((executeStep w v t step).pc w)) := by
  cases step with
  | error err => cases err <;> simp [executeStep, System.refit, System.goto]
  | _ => simp [executeStep, System.refit, System.goto, System.withMemory]

/-! ## Executors that fail -/

/-- `executor'` runs like `executor` until it fails. -/
structure Executor.MayFail (failure : E → Prop) (executor' executor : Executor X R E) : Prop where
  start : executor'.start = executor.start
  step : ∀ v m x, executor'.step v m x = executor.step v m x ∨
    ∃ err, failure err ∧ executor'.step v m x = .error (.executionError err)

/-- The same call over another executor. -/
def Config.withExecutor (cfg : Config X R E) (executor : Executor X R E) : Config X R E :=
  { cfg with executor := executor }

/-- The workers over an executor that may be another one in every step. -/
def failingWorkers (cfg : Config X R E) : Machine (System X R E) (WorkerId × Executor X R E) where
  init := initial cfg
  step := fun p s => (workers (cfg.withExecutor p.2)).step p.1 s

/-- The abort is that of a failure. -/
def AbortReason.Names (failure : E → Prop) : AbortReason E → Prop
  | .executionError err => failure err
  | .fallbackToSequential => False

theorem startTask_eq {executor executor' : Executor X R E} (h : executor'.start = executor.start)
    (task : Task) : startTask (E := E) executor' task = startTask executor task := by
  cases task with
  | execution v => exact congrArg (Pc.execute v) (congrFun h v)
  | validation v => rfl

/-- Outside executions the executor does not matter. -/
theorem workerStep_withExecutor {executor : Executor X R E} (h : executor.start = cfg.executor.start)
    {s : System X R E} (hpc : ∀ v x, s.pc w ≠ .execute v x) :
    workerStep (cfg.withExecutor executor) w s = workerStep cfg w s := by
  have htask := startTask_eq h
  unfold workerStep
  cases hw : s.pc w with
  | execute v x => exact absurd hw (hpc v x)
  | nextTask pc | checkAbortReason task => simp only [Config.withExecutor, htask]
  | retry v => simp only [Config.withExecutor, h]
  | _ => rfl


/-! ## The run beside a failing one -/

/-- What a worker still does once it is left behind in the other run. -/
def Dropped (failure : E → Prop) (t : System X R E) : Pc X R E → Prop
  | .abort _ reason | .setAbortReason reason => reason.Names failure
  | .checkAbortReason none => t.abortReason ≠ none
  | .left => t.scheduler.aborted = true
  | _ => False

/-- The state `s` of the run over the executor that does not fail, beside the state `t` of a failing
run. -/
structure Beside (cfg : Config X R E) (failure : E → Prop) (t s : System X R E) : Prop where
  bounds : Bounds cfg t
  explained : AbortExplained t
  refit : s = t.refit s.scheduler.aborted s.abortReason s.pc
  pc : ∀ w, s.pc w = t.pc w ∨ Dropped failure t (t.pc w)
  aborted : s.scheduler.aborted = true → t.scheduler.aborted = true
  noReason : t.abortReason = none → s.abortReason = none
  reason : ∀ reason, t.abortReason = some reason → ¬ reason.Names failure →
    s.abortReason = some reason

variable {failure : E → Prop} {executor : Executor X R E} {t t' s : System X R E}

theorem bounds_withExecutor : Bounds (cfg.withExecutor executor) s ↔ Bounds cfg s :=
  ⟨fun h => ⟨h.blockSize, h.pc, h.dependents, h.aborted, h.abortStored, h.fellThrough⟩,
    fun h => ⟨h.blockSize, h.pc, h.dependents, h.aborted, h.abortStored, h.fellThrough⟩⟩

theorem Dropped.mono (haborted : t.scheduler.aborted = true → t'.scheduler.aborted = true)
    (hreason : t.abortReason ≠ none → t'.abortReason ≠ none) {pc : Pc X R E}
    (h : Dropped failure t pc) : Dropped failure t' pc := by
  unfold Dropped at h ⊢
  split at h
  · exact h
  · exact h
  · exact hreason h
  · exact haborted h
  · exact h.elim

namespace Beside

/-- What stays beside after a step of the failing run, the worker of the step apart. -/
theorem pc_of_ne (hB : Beside cfg failure t s)
    (h : Step (cfg.withExecutor executor) w t t') {w' : WorkerId} (hw : w' ≠ w) :
    s.pc w' = t'.pc w' ∨ Dropped failure t' (t'.pc w') := by
  rw [h.pc_of_ne hw]
  exact (hB.pc w').imp_right (Dropped.mono h.aborted_mono fun ha => by rwa [h.abortReason_eq ha])

/-- The other run takes the same step. -/
theorem matched (hB : Beside cfg failure t s)
    (h : Step (cfg.withExecutor executor) w t t') (aborted : Bool)
    (abortReason : Option (AbortReason E))
    (haborted : aborted = true → t'.scheduler.aborted = true)
    (hnoReason : t'.abortReason = none → abortReason = none)
    (hreason : ∀ reason, t'.abortReason = some reason → ¬ reason.Names failure →
      abortReason = some reason) :
    Beside cfg failure t' (t'.refit aborted abortReason (Function.update s.pc w (t'.pc w))) where
  bounds := bounds_withExecutor.mp ((bounds_withExecutor.mpr hB.bounds).step h)
  explained := hB.explained.step h
  refit := rfl
  pc w' := by
    by_cases hw : w' = w
    · subst hw
      exact .inl (Function.update_self _ _ _)
    · show Function.update s.pc w (t'.pc w) w' = _ ∨ _
      rw [Function.update_of_ne hw]
      exact hB.pc_of_ne h hw
  aborted := haborted
  noReason := hnoReason
  reason := hreason

/-- The other run leaves the worker where it is. -/
theorem dropped (hB : Beside cfg failure t s)
    (h : Step (cfg.withExecutor executor) w t t') (aborted : Bool)
    (abortReason : Option (AbortReason E)) {pc : Pc X R E}
    (ht' : t' = (t.refit aborted abortReason t.pc).goto w pc)
    (hdropped : Dropped failure t' pc) (haborted : t.scheduler.aborted = true → aborted = true)
    (hnoReason : abortReason = none → t.abortReason = none)
    (hreason : ∀ reason, abortReason = some reason → ¬ reason.Names failure →
      t.abortReason = some reason) : Beside cfg failure t' s where
  bounds := bounds_withExecutor.mp ((bounds_withExecutor.mpr hB.bounds).step h)
  explained := hB.explained.step h
  refit := by
    rw [ht']
    exact hB.refit
  pc w' := by
    by_cases hw : w' = w
    · subst hw
      have hpc : t'.pc w' = pc := by rw [ht']; simp
      rw [hpc]
      exact .inr hdropped
    · exact hB.pc_of_ne h hw
  aborted hs := by
    rw [ht']
    exact haborted (hB.aborted hs)
  noReason hnone := by
    rw [ht'] at hnone
    exact hB.noReason (hnoReason hnone)
  reason r hr hnot := by
    rw [ht'] at hr
    exact hB.reason r (hreason r hr hnot) hnot

end Beside

/-- Only `get_or_init` sets the abort reason. -/
theorem Step.abortReason_of_ne (h : Step cfg w t t') (hpc : ∀ reason, t.pc w ≠ .setAbortReason reason) :
    t'.abortReason = t.abortReason := by
  rcases h with h | h | h | h | h <;> cases h
  case execute.setAbortReason reason hpc' => exact absurd hpc' (hpc reason)
  all_goals rfl

namespace Beside

/-- A worker that was left behind only writes the abort flag and the abort reason. -/
theorem step_of_dropped (hB : Beside cfg failure t s)
    (h : Step (cfg.withExecutor executor) w t t')
    (hdropped : Dropped failure t (t.pc w)) : Beside cfg failure t' s := by
  have hstep := h
  rcases hstep with hstep | hstep | hstep | hstep | hstep <;> cases hstep
  case execute.abort v reason hpc =>
    rw [hpc] at hdropped
    exact hB.dropped h true t.abortReason rfl hdropped
      (fun _ => rfl) id fun _ hr _ => hr
  case execute.setAbortReason reason hpc =>
    rw [hpc] at hdropped
    refine hB.dropped h t.scheduler.aborted _ rfl (Option.some_ne_none _) id nofun ?_
    intro r hr hnot
    cases hold : t.abortReason with
    | none =>
      rw [hold] at hr
      cases hr
      exact absurd hdropped hnot
    | some r' =>
      rw [hold] at hr
      exact hr
  case validate.quit task hpc ha =>
    exact hB.dropped h t.scheduler.aborted t.abortReason rfl
      (hB.bounds.aborted ha) id id fun _ hr _ => hr
  all_goals simp_all [Dropped]

/-- A step that does not depend on what the runs differ in. -/
theorem matched_refit (hB : Beside cfg failure t s) (h : Step (cfg.withExecutor executor) w t t')
    (hpc : ∀ reason, t.pc w ≠ .setAbortReason reason)
    (hsame : workerStep cfg w (t.refit s.scheduler.aborted s.abortReason s.pc) =
      some (t'.refit s.scheduler.aborted s.abortReason (Function.update s.pc w (t'.pc w)))) :
    ∃ s', workerStep cfg w s = some s' ∧ Beside cfg failure t' s' := by
  have hreason := h.abortReason_of_ne hpc
  rw [← hB.refit] at hsame
  refine ⟨_, hsame, hB.matched h _ _ (fun ha => h.aborted_mono (hB.aborted ha)) ?_ ?_⟩
  · rw [hreason]
    exact hB.noReason
  · rw [hreason]
    exact hB.reason

/-- A step of an execution. -/
theorem step_of_execute (hB : Beside cfg failure t s) (hmay : executor.MayFail failure cfg.executor)
    (hpc : s.pc w = t.pc w) {v : TxVersion} {x : X} (hexec : t.pc w = .execute v x)
    (hstep : workerStep (cfg.withExecutor executor) w t = some t')
    (h : Step (cfg.withExecutor executor) w t t') :
    Beside cfg failure t' s ∨ ∃ s', workerStep cfg w s = some s' ∧ Beside cfg failure t' s' := by
  have ht' : executeStep w v t (executor.step v t.mvMemory x) = t' := by
    unfold workerStep at hstep
    rw [hexec] at hstep
    exact Option.some.inj hstep
  rcases hmay.step v t.mvMemory x with hsame | ⟨err, herr, hfail⟩
  · refine .inr (hB.matched_refit h (by simp [hexec]) ?_)
    have hpc' : (t.refit s.scheduler.aborted s.abortReason s.pc).pc w = .execute v x :=
      hpc.trans hexec
    unfold workerStep
    rw [hpc', ← ht', hsame]
    exact congrArg some (executeStep_refit t _ _ _)
  · rw [hfail] at ht'
    refine .inl (hB.dropped h t.scheduler.aborted t.abortReason ht'.symm ?_ id id fun _ hr _ => hr)
    exact herr

/-- The other run changes the program counter of the worker only. -/
theorem goto (hB : Beside cfg failure t s) {pc : Pc X R E}
    (h : Step (cfg.withExecutor executor) w t (t.goto w pc)) :
    Beside cfg failure (t.goto w pc) (s.goto w pc) := by
  have hs : s.goto w pc = (t.goto w pc).refit s.scheduler.aborted s.abortReason
      (Function.update s.pc w ((t.goto w pc).pc w)) := by
    conv_lhs => rw [hB.refit]
    simp [System.refit, System.goto]
  rw [hs]
  exact hB.matched h _ _ hB.aborted hB.noReason hB.reason

/-- A step that looks at the abort flag or the abort reason, or writes them. -/
theorem step_of_reads (hB : Beside cfg failure t s) (hstart : executor.start = cfg.executor.start)
    (hpc : s.pc w = t.pc w) (hexec : ∀ v x, t.pc w ≠ .execute v x)
    (hreads : (t.pc w).readsAbort = true) (h : Step (cfg.withExecutor executor) w t t') :
    Beside cfg failure t' s ∨ ∃ s', workerStep cfg w s = some s' ∧ Beside cfg failure t' s' := by
  have hstep := h
  rcases hstep with hstep | hstep | hstep | hstep | hstep <;> cases hstep
  case nextTask.stop hpc' ha =>
    exact .inl (hB.dropped h t.scheduler.aborted t.abortReason rfl ha id id fun _ hr _ => hr)
  case nextTask.loop hpc' ha =>
    have hs : s.scheduler.aborted = false := by
      by_contra hne
      rw [hB.aborted (by simpa using hne)] at ha
      cases ha
    refine .inr ⟨_, ?_, hB.goto h⟩
    simp only [workerStep, hpc, hpc', nextTaskStep, hs, Bool.false_eq_true, if_false]
    rfl
  case execute.retryAgain v hpc' ha =>
    refine .inr ⟨_, ?_, hB.goto h⟩
    simp only [workerStep, hpc, hpc', hB.noReason ha, Config.withExecutor, hstart]
  case execute.retryQuit v hpc' ha =>
    exact .inl (hB.dropped h t.scheduler.aborted t.abortReason rfl ha id id fun _ hr _ => hr)
  case execute.abort v reason hpc' =>
    have hs : (s.withScheduler s.scheduler.abort).goto w (.setAbortReason reason) =
        ((t.withScheduler t.scheduler.abort).goto w (.setAbortReason reason)).refit true
          s.abortReason (Function.update s.pc w (.setAbortReason reason)) := by
      conv_lhs => rw [hB.refit]
      simp [System.refit, System.goto, System.withScheduler, Scheduler.abort, withAborted]
    have hmatched := hB.matched h true s.abortReason (fun _ => rfl) hB.noReason hB.reason
    rw [System.goto_pc, Function.update_self, ← hs] at hmatched
    exact .inr ⟨_, by simp only [workerStep, hpc, hpc'], hmatched⟩
  case execute.setAbortReason reason hpc' =>
    have hs : ({ s with abortReason := some (s.abortReason.getD reason) } : System X R E).goto w
          (.checkAbortReason none) =
        (({ t with abortReason := some (t.abortReason.getD reason) } : System X R E).goto w
          (.checkAbortReason none)).refit s.scheduler.aborted (some (s.abortReason.getD reason))
          (Function.update s.pc w (.checkAbortReason none)) := by
      conv_lhs => rw [hB.refit]
      simp [System.refit, System.goto]
    have hreason : ∀ r, some (t.abortReason.getD reason) = some r → ¬ r.Names failure →
        some (s.abortReason.getD reason) = some r := by
      intro r hr hnot
      cases hold : t.abortReason with
      | none =>
        rw [hold] at hr
        rw [hB.noReason hold]
        exact hr
      | some r' =>
        rw [hold] at hr
        cases hr
        rw [hB.reason r' hold hnot]
    have hmatched := hB.matched h _ _ hB.aborted (fun hnone => by cases hnone) hreason
    rw [System.goto_pc, Function.update_self, ← hs] at hmatched
    exact .inr ⟨_, by simp only [workerStep, hpc, hpc'], hmatched⟩
  case validate.quit task hpc' ha =>
    exact .inl (hB.dropped h t.scheduler.aborted t.abortReason rfl (hB.bounds.aborted ha) id id
      fun _ hr _ => hr)
  case validate.askNext hpc' ha =>
    refine .inr ⟨_, ?_, hB.goto h⟩
    simp only [workerStep, hpc, hpc', hB.noReason ha]
  case validate.dispatchExecution v hpc' ha =>
    refine .inr ⟨_, ?_, hB.goto h⟩
    simp only [workerStep, hpc, hpc', hB.noReason ha, Config.withExecutor, hstart, startTask]
  case validate.dispatchValidation v hpc' ha =>
    refine .inr ⟨_, ?_, hB.goto h⟩
    simp only [workerStep, hpc, hpc', hB.noReason ha, startTask]
  all_goals simp_all [Pc.readsAbort]

/-- **A step of the failing run is matched or leaves its worker behind.** -/
theorem step (hB : Beside cfg failure t s) (hmay : executor.MayFail failure cfg.executor)
    (hstep : (workers (cfg.withExecutor executor)).step w t = some t') :
    ∃ s', (workers cfg).LeadsTo (fun _ _ => True) s s' ∧ Beside cfg failure t' s' := by
  obtain ⟨hw, hstep⟩ := workers_step hstep
  have hb : Bounds (cfg.withExecutor executor) t := bounds_withExecutor.mpr hB.bounds
  have h := step_of_workerStep hb.finishExecution_lt hstep
  suffices hone : Beside cfg failure t' s ∨
      ∃ s', workerStep cfg w s = some s' ∧ Beside cfg failure t' s' by
    rcases hone with hdropped | ⟨s', hs', hmatched⟩
    · exact ⟨s, .refl, hdropped⟩
    · exact ⟨s', .single ⟨w, trivial, (if_pos hw).trans hs'⟩, hmatched⟩
  rcases hB.pc w with hpc | hdropped
  · by_cases hexec : ∃ v x, t.pc w = .execute v x
    · obtain ⟨v, x, hexec⟩ := hexec
      exact hB.step_of_execute hmay hpc hexec hstep h
    · push Not at hexec
      cases hreads : (t.pc w).readsAbort with
      | true => exact hB.step_of_reads hmay.start hpc hexec hreads h
      | false =>
        rw [workerStep_withExecutor hmay.start hexec] at hstep
        refine .inr (hB.matched_refit h ?_ (workerStep_refit _ _ _ hpc hreads hstep))
        intro reason hset
        rw [hset] at hreads
        cases hreads
  · exact .inl (hB.step_of_dropped h hdropped)

end Beside

/-- The runs start beside each other. -/
theorem beside_initial (h : initial cfg s) : Beside cfg failure s s where
  bounds := bounds_initial h
  explained := by
    intro ha
    rw [h.1] at ha
    cases ha
  refit := rfl
  pc _ := .inl rfl
  aborted := id
  noReason := id
  reason _ hr _ := hr

theorem simulates_failing : Machine.Simulates (failingWorkers cfg)
    (fun p _ => p.2.MayFail failure cfg.executor) (workers cfg)
    (fun t s => Beside cfg failure t s ∧ ∀ w, cfg.concurrencyLevel ≤ w → t.pc w = .nextTask .loop) := by
  rintro ⟨w, executor⟩ t t' s hmay hstep ⟨hB, hidle⟩
  obtain ⟨s', hlead, hB'⟩ := hB.step hmay hstep
  refine ⟨s', hlead, hB', fun w' hw' => ?_⟩
  obtain ⟨hw, hstep⟩ := workers_step hstep
  have hb : Bounds (cfg.withExecutor executor) t := bounds_withExecutor.mpr hB.bounds
  have hne : w' ≠ w := (lt_of_lt_of_le hw hw').ne'
  rw [(step_of_workerStep hb.finishExecution_lt hstep).pc_of_ne hne]
  exact hidle w' hw'

/-- Once all workers have left, an abort has a reason. -/
theorem Beside.reason_of_left (hB : Beside cfg failure t s)
    (hidle : ∀ w, cfg.concurrencyLevel ≤ w → t.pc w = .nextTask .loop)
    (hleft : ∀ w, w < cfg.concurrencyLevel → t.pc w = .left) (ha : t.scheduler.aborted = true) :
    t.abortReason ≠ none := by
  rcases hB.explained ha with hreason | ⟨w, reason, hpc⟩
  · exact hreason
  · rcases lt_or_ge w cfg.concurrencyLevel with hw | hw
    · rw [hleft w hw] at hpc
      cases hpc
    · rw [hidle w hw] at hpc
      cases hpc

/-- **A failing run that ends without the abort of a failure ends like one that does not fail.** -/
theorem ends_of_failing (hE : cfg.executor.Ends) {s₀ : System X R E} (h₀ : initial cfg s₀)
    (hlead : (failingWorkers cfg).LeadsTo (fun p _ => p.2.MayFail failure cfg.executor) s₀ t)
    (hleft : ∀ w, w < cfg.concurrencyLevel → t.pc w = .left)
    (hreason : ∀ reason, t.abortReason = some reason → ¬ reason.Names failure) :
    ∃ s, (workers cfg).LeadsTo (fun _ _ => True) s₀ s ∧
      (∀ w, w < cfg.concurrencyLevel → s.pc w = .left) ∧ s.abortReason = t.abortReason ∧
      (t.abortReason = none → s.mvMemory = t.mvMemory ∧ s.executionResults = t.executionResults) := by
  obtain ⟨s, hlead, hB, hidle⟩ := hlead.simulated simulates_failing
    ⟨beside_initial h₀, fun w _ => h₀.2.2.2.1 w⟩
  cases hr : t.abortReason with
  | none =>
    refine ⟨s, hlead, fun w hw => ?_, hB.noReason hr, fun _ => ?_⟩
    · -- nobody was left behind, as every abort would have been given a reason
      rcases hB.pc w with hpc | hdropped
      · exact hpc.trans (hleft w hw)
      · rw [hleft w hw] at hdropped
        exact absurd hr (hB.reason_of_left hidle hleft hdropped)
    · rw [hB.refit]
      exact ⟨rfl, rfl⟩
  | some reason =>
    have hs := hB.reason reason hr (hreason reason hr)
    have hreach : (workers cfg).Reachable s :=
      (hlead.invariant (.init h₀) trivial fun _ _ _ _ _ _ _ => trivial).1
    obtain ⟨-, -, s', hlead', hreason', hleft'⟩ := ends_of_aborted hE hreach (by simp [hs])
    exact ⟨s', hlead.trans hlead', hleft', hreason'.trans hs, nofun⟩

end Pevm
