import Pevm.Proofs.Versions

/-!
# Validations of aborted versions

A validation task names a version, but `try_validation_abort` and `finish_validation` only look
at the status of the transaction. A task that comes late, after its version was aborted, is
harmless as long as it finds the transaction Aborting, ready or executing. If a later
incarnation has finished by then, the task aborts or confirms that incarnation instead.

`findsOwn` says that a step does not meet this case. In runs of such steps a late task changes
nothing and a version is aborted at most once (`aborted_validation_no_effect`).
-/

namespace Pevm

open Interleaving Scheduler MvMemory

/-- The incarnation of this version was aborted: a later one is current, or it is Aborting. -/
def Scheduler.Aborted (s : Scheduler) (v : TxVersion) : Prop :=
  v.txIncarnation < (s.transactionsStatus v.txIdx).incarnation ∨
    s.transactionsStatus v.txIdx = ⟨v.txIncarnation, .aborting⟩

instance (s : Scheduler) (v : TxVersion) : Decidable (s.Aborted v) :=
  inferInstanceAs (Decidable (_ ∨ _))

variable {X R E : Type}

/-- The validation task of a worker in `try_validation_abort`, or in `finish_validation` after a
validation that did not abort. -/
def Pc.verdict : Pc X R E → Option TxVersion
  | .tryValidationAbort v _ | .finishValidation v .lock | .finishValidation v .validate => some v
  | _ => none

/-- Where the next step of `w` decides on a finished transaction for a validation task, the
transaction is at the incarnation of the task. -/
def findsOwn (w : WorkerId) (s : System X R E) : Bool :=
  match s.pc w with
  | .tryValidationAbort v .abort =>
    !isExecutedOrValidated (s.scheduler.transactionsStatus v.txIdx).status ||
      (s.scheduler.transactionsStatus v.txIdx).incarnation = v.txIncarnation
  | .finishValidation v .validate =>
    (s.scheduler.transactionsStatus v.txIdx).incarnation = v.txIncarnation
  | _ => true

/-- The aborts by validation tasks of a version. -/
def isAbortBy (v : TxVersion) : Event → Bool
  | .validationAborted task _ => task = v
  | _ => false

variable {cfg : Config X R E} {w : WorkerId} {s s' : System X R E}

/-- A version that is finished at its own incarnation was not aborted. -/
theorem Scheduler.not_aborted {sch : Scheduler} {v : TxVersion}
    (hs : isExecutedOrValidated (sch.transactionsStatus v.txIdx).status = true)
    (hinc : (sch.transactionsStatus v.txIdx).incarnation = v.txIncarnation) : ¬ sch.Aborted v := by
  rintro (hlt | heq)
  · omega
  · rw [heq] at hs
    cases hs

/-- An aborted version stays aborted. -/
theorem Step.aborted_version (hb : Bounds cfg s) (hO : Ownership s.own) (h : Step cfg w s s')
    {v : TxVersion} (hv : s.scheduler.Aborted v) : s'.scheduler.Aborted v := by
  rcases h.statusEdge hb hO v.txIdx with heq | hedge
  · rwa [Scheduler.Aborted, heq]
  · rcases hv with hlt | heq
    · refine .inl ?_
      rcases hedge.incarnation with ⟨hinc, -⟩ | hinc <;> omega
    · rw [heq] at hedge
      refine .inl ?_
      generalize s'.scheduler.transactionsStatus v.txIdx = st at hedge ⊢
      cases hedge
      exact Nat.lt_succ_self _

/-- A step that logs an abort finds the transaction finished and leaves it Aborting. -/
theorem Step.validationAborted (h : Step cfg w s s') :
    (∃ v, (s.pc w).verdict = some v ∧ isExecutedOrValidated
        (s.scheduler.transactionsStatus v.txIdx).status = true ∧
      (findsOwn w s = true →
        (s.scheduler.transactionsStatus v.txIdx).incarnation = v.txIncarnation) ∧
      s'.scheduler.transactionsStatus v.txIdx =
        ⟨(s.scheduler.transactionsStatus v.txIdx).incarnation, .aborting⟩ ∧
      s'.log = .validationAborted v (s.scheduler.transactionsStatus v.txIdx).incarnation :: s.log) ∨
    ∀ v k, (.validationAborted v k ∈ s'.log ↔ .validationAborted v k ∈ s.log) ∧
      s'.log.countP (isAbortBy v) = s.log.countP (isAbortBy v) := by
  rcases h with h | h | h | h | h <;> cases h
  case validate.abortExecuted v hpc hs =>
    refine .inl ⟨v, by simp [hpc, Pc.verdict], by rw [hs]; rfl, fun hf => ?_,
      by simp [Scheduler.setStatus, Scheduler.holdStatus], rfl⟩
    simpa [findsOwn, hpc, hs, isExecutedOrValidated] using hf
  case validate.abortValidated v hpc hs =>
    refine .inl ⟨v, by simp [hpc, Pc.verdict], by rw [hs]; rfl, fun hf => ?_,
      by simp [Scheduler.setStatus, Scheduler.holdStatus], rfl⟩
    simpa [findsOwn, hpc, hs, isExecutedOrValidated] using hf
  case finishExecution.settleExecuted v flags again hpc hneed =>
    cases again <;> exact .inr fun v k => ⟨by simp [finishEvents], rfl⟩
  case finishExecution.settleValidated v flags again hpc hneed =>
    cases again <;> exact .inr fun v k => ⟨by simp [finishEvents], rfl⟩
  case execute.recordLock => exact .inr fun v k => ⟨by simp, rfl⟩
  case execute.writeResult => exact .inr fun v k => ⟨by simp, rfl⟩
  case finishExecution.validateFrom => exact .inr fun v k => ⟨by simp, rfl⟩
  case finishExecution.fallThrough => exact .inr fun v k => ⟨by simp, rfl⟩
  all_goals exact .inr fun v k => ⟨Iff.rfl, rfl⟩

/-- Every version was aborted at most once by its validation tasks, at its own incarnation. -/
structure AbortedOnce (s : System X R E) : Prop where
  aborted : ∀ v k, .validationAborted v k ∈ s.log → k = v.txIncarnation ∧ s.scheduler.Aborted v
  count : ∀ v, s.log.countP (isAbortBy v) ≤ 1

theorem AbortedOnce.step (hb : Bounds cfg s) (hO : Ownership s.own) (h : Step cfg w s s')
    (hC : findsOwn w s = true) (hA : AbortedOnce s) : AbortedOnce s' := by
  have hold : ∀ v k, .validationAborted v k ∈ s.log →
      k = v.txIncarnation ∧ s'.scheduler.Aborted v := by
    intro v k hmem
    obtain ⟨hk, hv⟩ := hA.aborted v k hmem
    exact ⟨hk, h.aborted_version hb hO hv⟩
  rcases h.validationAborted with ⟨v, -, hst, hown, hst', hlog⟩ | hsame
  · have hinc := hown hC
    -- the version is still finished, so none of its tasks aborted it before
    have hnone : s.log.countP (isAbortBy v) = 0 := by
      refine List.countP_eq_zero.mpr fun e he => ?_
      cases e with
      | validationAborted task k =>
        simp only [isAbortBy, decide_eq_true_eq]
        rintro rfl
        exact Scheduler.not_aborted hst hinc (hA.aborted task k he).2
      | _ => simp [isAbortBy]
    refine ⟨fun v' k hmem => ?_, fun v' => ?_⟩
    · rw [hlog] at hmem
      rcases List.mem_cons.mp hmem with heq | hmem
      · obtain ⟨rfl, rfl⟩ : v' = v ∧ k = _ := by simpa using heq
        exact ⟨hinc, .inr (by rw [hst', hinc])⟩
      · exact hold v' k hmem
    · rw [hlog, List.countP_cons]
      by_cases hv : v = v'
      · subst hv
        simp [hnone, isAbortBy]
      · simpa [isAbortBy, hv] using hA.count v'
  · exact ⟨fun v k hmem => hold v k ((hsame v k).1.mp hmem),
      fun v => ((hsame v 0).2).symm ▸ hA.count v⟩

theorem abortedOnce_reachable
    (h : (workers cfg).ReachableVia (fun w s => findsOwn w s = true) s) : AbortedOnce s :=
  invariant_of_step
    (fun s hs => by
      obtain ⟨-, -, -, -, hlog⟩ := hs
      exact ⟨fun v k hmem => by simp [hlog] at hmem, fun v => by simp [hlog]⟩)
    (fun _ _ _ hb hs hC hstep hA => hA.step hb (ownership_reachable hs.reachable) hstep hC) h

/-- What the rest of a late validation task does in one step. -/
theorem Step.verdict_effect (hO : Ownership s.own) (h : Step cfg w s s') {v : TxVersion}
    (hv : (s.pc w).verdict = some v) (ha : s.scheduler.Aborted v) :
    (s'.scheduler.transactionsStatus = s.scheduler.transactionsStatus ∧
      s'.scheduler.numValidated = s.scheduler.numValidated ∧ s'.mvMemory.data = s.mvMemory.data) ↔
    findsOwn w s = true := by
  -- an abort or a confirmation happens to a finished transaction, so not to the aborted version
  have hown : isExecutedOrValidated (s.scheduler.transactionsStatus v.txIdx).status = true →
      (s.scheduler.transactionsStatus v.txIdx).incarnation ≠ v.txIncarnation :=
    fun hst hinc => Scheduler.not_aborted hst hinc ha
  have hchange : ∀ {st : TxStatus} {status : Nat → TxStatus},
      status v.txIdx = st → st.status ≠ (s.scheduler.transactionsStatus v.txIdx).status →
      status ≠ s.scheduler.transactionsStatus := by
    rintro st status rfl hne rfl
    exact hne rfl
  rcases h with h | h | h | h | h <;> cases h
  case validate.abortLock v' hpc hh =>
    exact ⟨fun _ => by simp [findsOwn, hpc], fun _ => ⟨rfl, rfl, rfl⟩⟩
  case validate.abortExecuted v' hpc hs =>
    obtain rfl : v' = v := by simpa [hpc, Pc.verdict] using hv
    have hinc := hown (by rw [hs]; rfl)
    refine ⟨fun hsame => absurd hsame.1 (hchange (by simp [setStatus, holdStatus]; rfl) ?_),
      fun hf => ?_⟩
    · simp [hs]
    · simp [findsOwn, hpc, hs, hinc, isExecutedOrValidated] at hf
  case validate.abortValidated v' hpc hs =>
    obtain rfl : v' = v := by simpa [hpc, Pc.verdict] using hv
    have hinc := hown (by rw [hs]; rfl)
    refine ⟨fun hsame => absurd hsame.1 (hchange (by simp [setStatus, holdStatus]; rfl) ?_),
      fun hf => ?_⟩
    · simp [hs]
    · simp [findsOwn, hpc, hs, hinc, isExecutedOrValidated] at hf
  case validate.abortFailed v' hpc hs =>
    obtain rfl : v' = v := by simpa [hpc, Pc.verdict] using hv
    exact ⟨fun _ => by simp [findsOwn, hpc, hs], fun _ => ⟨rfl, rfl, rfl⟩⟩
  case validate.confirmLock v' hpc hh hs =>
    exact ⟨fun _ => by simp [findsOwn, hpc], fun _ => ⟨rfl, rfl, rfl⟩⟩
  case validate.confirmSkip v' hpc hh hs =>
    exact ⟨fun _ => by simp [findsOwn, hpc], fun _ => ⟨rfl, rfl, rfl⟩⟩
  case validate.confirm v' hpc =>
    obtain rfl : v' = v := by simpa [hpc, Pc.verdict] using hv
    have hs : (s.scheduler.transactionsStatus v'.txIdx).status = .executed :=
      hO.confirming w v'.txIdx (by simp [System.own, hpc, Pc.phase])
    have hinc := hown (by rw [hs]; rfl)
    refine ⟨fun hsame => absurd hsame.1
      (hchange (by simp [markValidated, setStatus, holdStatus]; rfl) ?_), fun hf => ?_⟩
    · simp [hs]
    · simp [findsOwn, hpc, hinc] at hf
  all_goals simp_all [Pc.verdict]

/-- **A validation of an aborted version has no effect** in the runs in which no such task finds
its transaction finished again: its steps leave all statuses, the counter and the multi-version
data as they are. Over such a run the tasks of a version abort at most once, and what they abort
is that version. -/
theorem aborted_validation_no_effect
    (h : (workers cfg).ReachableVia (fun w s => findsOwn w s = true) s) :
    (∀ w v s', (s.pc w).verdict = some v → s.scheduler.Aborted v →
      (workers cfg).step w s = some s' →
      ((s'.scheduler.transactionsStatus = s.scheduler.transactionsStatus ∧
        s'.scheduler.numValidated = s.scheduler.numValidated ∧
        s'.mvMemory.data = s.mvMemory.data) ↔ findsOwn w s = true)) ∧
    ∀ v, s.log.countP (isAbortBy v) ≤ 1 ∧
      ∀ k, .validationAborted v k ∈ s.log → k = v.txIncarnation := by
  have hA := abortedOnce_reachable h
  have hb := bounds_reachable h.reachable
  refine ⟨fun w v s' hv ha hstep => ?_, fun v => ⟨hA.count v, fun k hk => (hA.aborted v k hk).1⟩⟩
  have hstep := step_of_workerStep hb.finishExecution_lt (workers_step hstep).2
  exact hstep.verdict_effect (ownership_reachable h.reachable) hv ha

/-- The state of the sample block in which worker 1 still carries the validation of version
(1, 0) that worker 0 has aborted and not yet made ready. -/
theorem aborted_validation_no_effect_sample : ∃ s,
    (workers Sample.config).ReachableVia (fun w s => findsOwn w s = true) s ∧
    (s.pc 1).verdict = some ⟨1, 0⟩ ∧ s.scheduler.Aborted ⟨1, 0⟩ ∧
    s.log.countP (isAbortBy ⟨1, 0⟩) = 1 ∧
    ∀ s', (workers Sample.config).step 1 s = some s' →
      s'.scheduler.transactionsStatus = s.scheduler.transactionsStatus := by
  obtain ⟨s, hs, hp⟩ := Sample.exists_reachableVia Sample.config findsOwn
    [(0, 5), (1, 29), (0, 23), (1, 7), (0, 14)]
    (fun s => (s.pc 1).verdict = some ⟨1, 0⟩ && decide (s.scheduler.Aborted ⟨1, 0⟩) &&
      s.log.countP (isAbortBy ⟨1, 0⟩) = 1 && findsOwn 1 s)
    (by decide +kernel)
  simp only [Bool.and_eq_true, decide_eq_true_eq] at hp
  obtain ⟨⟨⟨hv, ha⟩, hcount⟩, hf⟩ := hp
  exact ⟨s, hs, hv, ha, hcount, fun s' hstep =>
    (((aborted_validation_no_effect hs).1 1 _ s' hv ha hstep).mpr hf).1⟩

/-- Worker 1 carries a failed validation of version (1, 0) while worker 0 aborts that version and
executes transaction 1 again. The late task then aborts incarnation 1: it changes the status of
the transaction, and the tasks of version (1, 0) have aborted twice. -/
theorem aborted_validation_aborts_next : ∃ s s', (workers Sample.config).Reachable s ∧
    (s.pc 1).verdict = some ⟨1, 0⟩ ∧ s.scheduler.Aborted ⟨1, 0⟩ ∧
    (workers Sample.config).step 1 s = some s' ∧
    s.scheduler.transactionsStatus 1 = ⟨1, .executed⟩ ∧
    s'.scheduler.transactionsStatus 1 = ⟨1, .aborting⟩ ∧
    s'.log.countP (isAbortBy ⟨1, 0⟩) = 2 ∧ .validationAborted ⟨1, 0⟩ 1 ∈ s'.log := by
  obtain ⟨s, hs, hp⟩ := Sample.exists_reachable Sample.config
    [(0, 5), (1, 29), (0, 23), (1, 7), (0, 50), (1, 1)]
    (fun s => (s.pc 1).verdict = some ⟨1, 0⟩ && decide (s.scheduler.Aborted ⟨1, 0⟩) &&
      s.scheduler.transactionsStatus 1 = ⟨1, .executed⟩ &&
      ((workers Sample.config).step 1 s).any fun (s' : System _ _ _) =>
        s'.scheduler.transactionsStatus 1 = ⟨1, .aborting⟩ &&
        s'.log.countP (isAbortBy ⟨1, 0⟩) = 2 && decide (.validationAborted ⟨1, 0⟩ 1 ∈ s'.log))
    (by decide +kernel)
  simp only [Bool.and_eq_true, decide_eq_true_eq, Option.any_eq_true] at hp
  obtain ⟨⟨⟨hv, ha⟩, hst⟩, s', hstep, ⟨hst', hcount⟩, hmem⟩ := hp
  exact ⟨s, s', hs, hv, ha, hstep, hst, hst', hcount, hmem⟩

end Pevm
