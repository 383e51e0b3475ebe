import Pevm.Proofs.Ownership
import Pevm.Vm

/-!
# Execution ownership, version uniqueness and wake-ups

The results of the ownership protocol about the scheduler itself: an Executing transaction
has exactly one executor and it executes the current incarnation; statuses move along the
edges drawn in `lib.rs`; the `debug_assert!`s hold; a version is recorded at most once; and
an Aborting transaction is always in exactly one place from which it will be resumed.
-/

namespace Pevm

open Interleaving Scheduler MvMemory

variable {X R E : Type}

/-- The execution task a worker holds: from the step that marks the transaction Executing to
the one that marks it Executed, Validated or Aborting. -/
def Pc.executionTask (pc : Pc X R E) : Option TxVersion :=
  pc.phase.execution

/-- The transaction a worker aborted and has not made ready again yet: from the successful
`try_validation_abort` to `finish_validation`. -/
def Pc.abortedTx : Pc X R E → Option Nat
  | .convertWrites v _ | .finishValidation v .setReady => some v.txIdx
  | _ => none

/-- Past the first step of a scheduler operation. -/
def Pc.inScheduler : Pc X R E → Bool
  | .nextTask .loop | .addDependency _ _ .lockBlocking | .finishExecution _ _ .lock
  | .tryValidationAbort _ .lock | .finishValidation _ .setReady | .finishValidation _ .lock => false
  | .nextTask _ | .addDependency _ _ _ | .finishExecution _ _ _ | .tryValidationAbort _ _
  | .finishValidation _ _ => true
  | _ => false

/-! ## Statuses -/

/-- The edges of the status diagram in `lib.rs`. -/
inductive StatusEdge : TxStatus → TxStatus → Prop where
  | execute (k : Nat) : StatusEdge ⟨k, .readyToExecute⟩ ⟨k, .executing⟩
  | executed (k : Nat) : StatusEdge ⟨k, .executing⟩ ⟨k, .executed⟩
  | validated (k : Nat) : StatusEdge ⟨k, .executing⟩ ⟨k, .validated⟩
  | blocked (k : Nat) : StatusEdge ⟨k, .executing⟩ ⟨k, .aborting⟩
  | validate (k : Nat) : StatusEdge ⟨k, .executed⟩ ⟨k, .validated⟩
  | abortExecuted (k : Nat) : StatusEdge ⟨k, .executed⟩ ⟨k, .aborting⟩
  | abortValidated (k : Nat) : StatusEdge ⟨k, .validated⟩ ⟨k, .aborting⟩
  | resume (k : Nat) : StatusEdge ⟨k, .aborting⟩ ⟨k + 1, .readyToExecute⟩

/-- Changing the status of `j` moves every transaction along an edge if it moves `j` along one. -/
theorem edge_update {status : Nat → TxStatus} {j : Nat} {st : TxStatus}
    (h : st = status j ∨ StatusEdge (status j) st) (i : Nat) :
    Function.update status j st i = status i ∨
      StatusEdge (status i) (Function.update status j st i) := by
  by_cases hi : i = j
  · subst hi
    simpa using h
  · exact .inl (by simp [hi])

theorem txStatus_eq {t : TxStatus} {st : IncarnationStatus} (h : t.status = st) :
    t = ⟨t.incarnation, st⟩ := by
  cases t
  cases h
  rfl

theorem OwnStep.edge {n : Nat} {w : WorkerId} {o o' : Own} (hO : Ownership o)
    (h : OwnStep n w o o') (i : Nat) :
    o'.status i = o.status i ∨ StatusEdge (o.status i) (o'.status i) := by
  have hE := hO.executing w
  cases h
  case take j hp hj hh hs =>
    refine edge_update (.inr ?_) i
    rw [txStatus_eq hs]
    exact .execute _
  case lockTx v b hp hh =>
    refine edge_update (.inr ?_) i
    show StatusEdge (o.status v.txIdx) ⟨(o.status v.txIdx).incarnation, .aborting⟩
    rw [hE v (by rw [hp]; rfl)]
    exact .blocked _
  case drain v d rest hp hd hh =>
    refine edge_update (.inr ?_) i
    show StatusEdge (o.status d) ⟨(o.status d).incarnation + 1, .readyToExecute⟩
    rw [txStatus_eq (hO.dependent v.txIdx d (by simp [hd])).1]
    exact .resume _
  case finish v st hp hst =>
    refine edge_update (.inr ?_) i
    rw [hE v (by rw [hp]; rfl)]
    cases st with
    | executed => exact .executed _
    | validated => exact .validated _
    | readyToExecute | executing | aborting => cases hst
  case fallThrough v hp =>
    refine edge_update (.inr ?_) i
    rw [hE v (by rw [hp]; rfl)]
    exact .validated _
  case recount v hp =>
    refine edge_update (.inl ?_) i
    exact (txStatus_eq (hO.recounting w v hp)).symm
  case abort j hp hs =>
    refine edge_update (.inr ?_) i
    cases hst : (o.status j).status with
    | executed =>
      rw [txStatus_eq hst]
      exact .abortExecuted _
    | validated =>
      rw [txStatus_eq hst]
      exact .abortValidated _
    | readyToExecute | executing | aborting =>
      rw [hst] at hs
      cases hs
  case ready j hp hh =>
    refine edge_update (.inr ?_) i
    rw [txStatus_eq (hO.aborting w j (by rw [hp]; rfl))]
    exact .resume _
  case confirm j hp =>
    refine edge_update (.inr ?_) i
    rw [txStatus_eq (hO.confirming w j hp)]
    exact .validate _
  all_goals exact .inl rfl

/-- An edge keeps the incarnation, or moves to the next one and makes ready. -/
theorem StatusEdge.incarnation {a b : TxStatus} (h : StatusEdge a b) :
    (b.incarnation = a.incarnation ∧ b.status ≠ .readyToExecute) ∨
      b.incarnation = a.incarnation + 1 := by
  cases h <;> simp

/-! ## Each version is recorded once -/

/-- The version whose `record` a worker has yet to call. -/
def Pc.toRecord : Pc X R E → Option TxVersion
  | .execute v _ | .record v _ _ _ _ .lock | .retry v | .abort v _
  | .addDependency v _ .lockBlocking | .addDependency v _ .lockTx
  | .checkAbortReason (some (.execution v)) => some v
  | _ => none

theorem Pc.executionTask_of_toRecord {pc : Pc X R E} {v : TxVersion} (h : pc.toRecord = some v) :
    pc.executionTask = some v := by
  unfold Pc.toRecord at h
  split at h <;> first | exact h | cases h

variable {cfg : Config X R E} {w : WorkerId} {s s' : System X R E}

/-- A worker comes to hold an unrecorded version only by taking a ready transaction. -/
theorem Step.toRecord (h : Step cfg w s s') {v : TxVersion} (hv : (s'.pc w).toRecord = some v) :
    (s.pc w).toRecord = some v ∨
      s.scheduler.transactionsStatus v.txIdx = ⟨v.txIncarnation, .readyToExecute⟩ := by
  rcases h with h | h | h | h | h <;> cases h
  case nextTask.steal i hpc hh hs | nextTask.startExecution i hpc hh hs =>
    obtain rfl : s.scheduler.version i = v := by simpa [Pc.toRecord] using hv
    exact .inr (txStatus_eq hs)
  case validate.reexecute v' hpc hh hs =>
    obtain rfl : s.scheduler.version v'.txIdx = v := by simpa [Pc.toRecord] using hv
    exact .inr (txStatus_eq hs)
  all_goals simp_all [Pc.toRecord]

/-- The history grows by a `recorded` event only when the worker that had to record it calls
`record`. -/
theorem Step.recorded (h : Step cfg w s s') :
    (∀ v, s'.log.count (.recorded v) = s.log.count (.recorded v)) ∨
      ∃ v, (s.pc w).toRecord = some v ∧ (s'.pc w).toRecord = none ∧
        s'.log = .recorded v :: s.log := by
  rcases h with h | h | h | h | h <;> cases h
  case execute.recordLock v rs ws need r hpc hh =>
    exact .inr ⟨v, by simp [hpc, Pc.toRecord], by simp [Pc.toRecord], rfl⟩
  case finishExecution.settleExecuted v flags again hpc hneed =>
    cases again <;> exact .inl fun v => by simp [finishEvents]
  case finishExecution.settleValidated v flags again hpc hneed =>
    cases again <;> exact .inl fun v => by simp [finishEvents]
  all_goals exact .inl fun v => by simp

/-- A recorded version is not ready any more and nobody has to record it. -/
structure RecordedOnce (s : System X R E) : Prop where
  count : ∀ v, s.log.count (.recorded v) ≤ 1
  past : ∀ v, .recorded v ∈ s.log →
    v.txIncarnation ≤ (s.scheduler.transactionsStatus v.txIdx).incarnation ∧
      (v.txIncarnation = (s.scheduler.transactionsStatus v.txIdx).incarnation →
        (s.scheduler.transactionsStatus v.txIdx).status ≠ .readyToExecute ∧
        ∀ w, (s.pc w).toRecord ≠ some v)

/-- Statuses only move along the edges. -/
theorem Step.statusEdge (hb : Bounds cfg s) (hO : Ownership s.own) (h : Step cfg w s s') (i : Nat) :
    s'.scheduler.transactionsStatus i = s.scheduler.transactionsStatus i ∨
      StatusEdge (s.scheduler.transactionsStatus i) (s'.scheduler.transactionsStatus i) :=
  (own_of_step hb h).edge hO i

/-- A version that is past stays past. -/
theorem Step.past (hb : Bounds cfg s) (hO : Ownership s.own) (h : Step cfg w s s')
    {v : TxVersion}
    (hle : v.txIncarnation ≤ (s.scheduler.transactionsStatus v.txIdx).incarnation)
    (hpast : v.txIncarnation = (s.scheduler.transactionsStatus v.txIdx).incarnation →
      (s.scheduler.transactionsStatus v.txIdx).status ≠ .readyToExecute) :
    v.txIncarnation ≤ (s'.scheduler.transactionsStatus v.txIdx).incarnation ∧
      (v.txIncarnation = (s'.scheduler.transactionsStatus v.txIdx).incarnation →
        v.txIncarnation = (s.scheduler.transactionsStatus v.txIdx).incarnation ∧
        (s'.scheduler.transactionsStatus v.txIdx).status ≠ .readyToExecute) := by
  rcases h.statusEdge hb hO v.txIdx with heq | hedge
  · rw [heq]
    exact ⟨hle, fun h => ⟨h, hpast h⟩⟩
  · rcases hedge.incarnation with ⟨hinc, hready⟩ | hinc
    · rw [hinc]
      exact ⟨hle, fun h => ⟨h, hready⟩⟩
    · rw [hinc]
      exact ⟨by omega, fun h => by omega⟩

theorem RecordedOnce.step (hb : Bounds cfg s) (hO : Ownership s.own) (h : Step cfg w s s')
    (hR : RecordedOnce s) : RecordedOnce s' := by
  -- a version still to be recorded is the one its worker executes, so it was not recorded yet
  have hfresh : ∀ w v, (s.pc w).toRecord = some v → .recorded v ∉ s.log := by
    intro w v hv hmem
    have hst : s.scheduler.transactionsStatus v.txIdx = ⟨v.txIncarnation, .executing⟩ :=
      hO.executing w v (Pc.executionTask_of_toRecord hv)
    exact ((hR.past v hmem).2 (by rw [hst])).2 w hv
  have hold : ∀ v, .recorded v ∈ s.log →
      v.txIncarnation ≤ (s'.scheduler.transactionsStatus v.txIdx).incarnation ∧
        (v.txIncarnation = (s'.scheduler.transactionsStatus v.txIdx).incarnation →
          (s'.scheduler.transactionsStatus v.txIdx).status ≠ .readyToExecute ∧
          ∀ w, (s'.pc w).toRecord ≠ some v) := by
    intro v hmem
    obtain ⟨hle, hpast⟩ := hR.past v hmem
    obtain ⟨hle', hpast'⟩ := h.past hb hO hle fun heq => (hpast heq).1
    refine ⟨hle', fun heq => ?_⟩
    obtain ⟨heq₀, hready⟩ := hpast' heq
    refine ⟨hready, fun w' hw' => ?_⟩
    by_cases hw : w' = w
    · subst hw
      rcases h.toRecord hw' with hrec | hst
      · exact (hpast heq₀).2 w' hrec
      · exact (hpast heq₀).1 (by rw [hst])
    · rw [h.pc_of_ne hw] at hw'
      exact (hpast heq₀).2 w' hw'
  rcases h.recorded with hcount | ⟨v₀, hv₀, hnone, hlog⟩
  · refine ⟨fun v => (hcount v).symm ▸ hR.count v, fun v hmem => hold v ?_⟩
    have : 0 < s'.log.count (.recorded v) := List.count_pos_iff.mpr hmem
    rw [hcount v] at this
    exact List.count_pos_iff.mp this
  · refine ⟨fun v => ?_, fun v hmem => ?_⟩
    · rw [hlog, List.count_cons]
      by_cases hv : v₀ = v
      · subst hv
        have := List.count_eq_zero.mpr (hfresh w v₀ hv₀)
        simp [this]
      · simpa [hv] using hR.count v
    · rw [hlog] at hmem
      rcases List.mem_cons.mp hmem with heq | hmem
      · obtain rfl : v = v₀ := by simpa using heq
        have hst : s.scheduler.transactionsStatus v.txIdx = ⟨v.txIncarnation, .executing⟩ :=
          hO.executing w v (Pc.executionTask_of_toRecord hv₀)
        obtain ⟨hle', hpast'⟩ := h.past hb hO (v := v) (by rw [hst]) fun _ => by rw [hst]; simp
        refine ⟨hle', fun heq => ⟨(hpast' heq).2, fun w' hw' => ?_⟩⟩
        by_cases hw : w' = w
        · subst hw
          rw [hnone] at hw'
          cases hw'
        · rw [h.pc_of_ne hw] at hw'
          exact hw (hO.executingUnique w' w v v (Pc.executionTask_of_toRecord hw')
            (Pc.executionTask_of_toRecord hv₀) rfl)
      · exact hold v hmem

theorem recordedOnce_reachable (h : (workers cfg).Reachable s) : RecordedOnce s :=
  invariant_of_step
    (fun s hs => by
      obtain ⟨-, -, -, -, hlog⟩ := hs
      exact ⟨fun v => by simp [hlog], fun v hv => by simp [hlog] at hv⟩)
    (fun _ _ _ hb hs _ hstep hR => hR.step hb (ownership_reachable hs) hstep) h

/-! ## Execution ownership -/

/-- The conditions of the `debug_assert!`s that worker `w` is about to evaluate or evaluates
while it holds the mutex: in `add_dependency`, in `finish_execution` and in the two calls of
`set_ready_status`. -/
structure DebugAsserts (s : System X R E) (w : WorkerId) : Prop where
  addDependency : ∀ v b, s.pc w = .addDependency v b .lockTx →
    (s.scheduler.transactionsStatus v.txIdx).status = .executing
  finishExecution : ∀ v flags, s.pc w = .finishExecution v flags .lock ∨
    s.pc w = .finishExecution v flags .lockDependents →
    s.scheduler.transactionsStatus v.txIdx = ⟨v.txIncarnation, .executing⟩
  drain : ∀ v flags d rest, s.pc w = .finishExecution v flags .drain →
    s.scheduler.transactionsDependents v.txIdx = d :: rest →
    (s.scheduler.transactionsStatus d).status = .aborting
  finishValidation : ∀ v, s.pc w = .finishValidation v .setReady →
    (s.scheduler.transactionsStatus v.txIdx).status = .aborting

theorem debugAsserts_of_ownership (hO : Ownership s.own) (w : WorkerId) : DebugAsserts s w where
  addDependency v b hpc := by
    have h := hO.executing w v (by simp [System.own, hpc, Pc.phase, Phase.execution])
    exact congrArg TxStatus.status h
  finishExecution v flags hpc := by
    refine hO.executing w v ?_
    rcases hpc with hpc | hpc <;> simp [System.own, hpc, Pc.phase, Phase.execution]
  drain v flags d rest hpc hd := by
    have hmem : d ∈ s.own.dependents v.txIdx := by
      show d ∈ s.scheduler.transactionsDependents v.txIdx
      rw [hd]
      exact List.mem_cons_self
    exact (hO.dependent v.txIdx d hmem).1
  finishValidation v hpc :=
    hO.aborting w v.txIdx (by simp [System.own, hpc, Pc.phase, Phase.abort])

/-- **Execution ownership and version uniqueness.** In every reachable state that is not
aborted, a transaction is Executing exactly when one single worker holds an execution task for
it, and the task has the incarnation of the status; every step from it moves statuses along
the edges only; the debug assertions hold; and no version was recorded twice. -/
theorem execution_ownership (h : (workers cfg).Reachable s) (ha : s.scheduler.aborted = false) :
    (∀ i, (s.scheduler.transactionsStatus i).status = .executing ↔
      ∃! w, ∃ v, (s.pc w).executionTask = some v ∧ v.txIdx = i) ∧
    (∀ w v, (s.pc w).executionTask = some v → s.scheduler.version v.txIdx = v) ∧
    (∀ w s', (workers cfg).step w s = some s' → ∀ i,
      s'.scheduler.transactionsStatus i = s.scheduler.transactionsStatus i ∨
        StatusEdge (s.scheduler.transactionsStatus i) (s'.scheduler.transactionsStatus i)) ∧
    (∀ w, DebugAsserts s w) ∧
    ∀ v, s.log.count (.recorded v) ≤ 1 := by
  have hO := ownership_reachable h
  have hb := bounds_reachable h
  have htask : ∀ w v, (s.pc w).executionTask = some v →
      s.scheduler.transactionsStatus v.txIdx = ⟨v.txIncarnation, .executing⟩ :=
    fun w v hv => hO.executing w v hv
  refine ⟨fun i => ⟨fun hi => ?_, ?_⟩, fun w v hv => ?_, fun w s' hstep i => ?_,
    debugAsserts_of_ownership hO, (recordedOnce_reachable h).count⟩
  · obtain ⟨w, hw⟩ := hO.executor ha i hi
    refine ⟨w, ⟨_, hw, rfl⟩, ?_⟩
    rintro w' ⟨v, hv, hvi⟩
    exact hO.executingUnique w' w _ _ hv hw hvi
  · rintro ⟨w, ⟨v, hv, rfl⟩, -⟩
    rw [htask w v hv]
  · simp only [Scheduler.version, htask w v hv]
  · exact (step_of_workerStep hb.finishExecution_lt (workers_step hstep).2).statusEdge hb hO i

/-- Worker 0 has taken transaction 0 of the sample block. -/
theorem execution_ownership_sample : ∃ s, (workers Sample.config).Reachable s ∧
    s.scheduler.aborted = false ∧ s.scheduler.transactionsStatus 0 = ⟨0, .executing⟩ ∧
    ∃! w, ∃ v, (s.pc w).executionTask = some v ∧ v.txIdx = 0 := by
  obtain ⟨s, hs, hp⟩ := Sample.exists_reachable Sample.config [(0, 5)]
    (fun s => !s.scheduler.aborted && s.scheduler.transactionsStatus 0 = ⟨0, .executing⟩)
    (by decide +kernel)
  simp only [Bool.and_eq_true, Bool.not_eq_true', decide_eq_true_eq] at hp
  obtain ⟨ha, hst⟩ := hp
  exact ⟨s, hs, ha, hst, ((execution_ownership hs ha).1 0).mp (by rw [hst])⟩

/-! ## Wake-ups -/

/-- Outside the scheduler only the worker that aborted a transaction owns it as Aborting. -/
theorem Pc.abortedTx_eq {pc : Pc X R E} (h : pc.inScheduler = false) :
    pc.phase.abort = pc.abortedTx := by
  cases pc with
  | addDependency v b pc => cases pc <;> first | rfl | cases h
  | finishExecution v flags pc =>
    cases pc with
    | settle again => cases h
    | _ => rfl
  | tryValidationAbort v pc => cases pc <;> rfl
  | finishValidation v pc => cases pc <;> rfl
  | checkAbortReason task =>
    match task with
    | none => rfl
    | some (.execution v) => rfl
    | some (.validation v) => rfl
  | _ => rfl

/-- **No lost or duplicated wake-up.** In every reachable state, aborted or not, that has no
scheduler operation in flight, an Aborting transaction is either held by exactly one worker
that aborted it, or occurs exactly once in exactly one dependents list, that of a lower
transaction that is neither Executed nor Validated; and every entry of a dependents list is an
Aborting transaction above the owner of the list. An `add_dependency` that returns false does
so in its first step, which leaves the whole scheduler as it was. -/
theorem no_lost_wakeup (h : (workers cfg).Reachable s) :
    ((∀ w, (s.pc w).inScheduler = false) →
      (∀ i, (s.scheduler.transactionsStatus i).status = .aborting →
        ((∃! w, (s.pc w).abortedTx = some i) ∧
          ∀ b, i ∉ s.scheduler.transactionsDependents b) ∨
        ((∀ w, (s.pc w).abortedTx ≠ some i) ∧
          ∃ b, b < i ∧ (s.scheduler.transactionsDependents b).count i = 1 ∧
            (∀ b', i ∈ s.scheduler.transactionsDependents b' → b' = b) ∧
            (s.scheduler.transactionsStatus b).status ≠ .executed ∧
            (s.scheduler.transactionsStatus b).status ≠ .validated)) ∧
      ∀ b, ∀ d ∈ s.scheduler.transactionsDependents b,
        (s.scheduler.transactionsStatus d).status = .aborting ∧ b < d) ∧
    ∀ w txIdx blockingTxIdx pc scheduler,
      s.scheduler.addDependencyStep w txIdx blockingTxIdx pc = some (scheduler, .ret false) →
      pc = .lockBlocking ∧ scheduler = s.scheduler := by
  have hO := ownership_reachable h
  refine ⟨fun hidle => ⟨fun i hi => ?_, fun b d hd => ?_⟩, ?_⟩
  · have habort : ∀ w, (s.own.phase w).abort = (s.pc w).abortedTx :=
      fun w => Pc.abortedTx_eq (hidle w)
    rcases hO.aborter i hi with ⟨w, hw⟩ | ⟨b, hb⟩
    · refine .inl ⟨⟨w, (habort w).symm.trans hw, fun w' hw' => ?_⟩, fun b => hO.abortNotDependent w i b hw⟩
      exact hO.abortUnique w' w i ((habort w').trans hw') hw
    · obtain ⟨-, hlt, hst⟩ := hO.dependent b i hb
      refine .inr ⟨fun w hw => hO.abortNotDependent w i b ((habort w).trans hw) hb, b, hlt,
        List.count_eq_one_of_mem (hO.dependentsNodup b) hb,
        fun b' hb' => hO.dependentUnique b' b i hb' hb, fun he => ?_, fun he => ?_⟩
      · rw [show (s.own.status b).status = .executed from he] at hst
        cases hst
      · rw [show (s.own.status b).status = .validated from he] at hst
        cases hst
  · obtain ⟨hst, hlt, -⟩ := hO.dependent b d hd
    exact ⟨hst, hlt⟩
  · intro w txIdx blockingTxIdx pc scheduler hret
    cases pc <;> simp only [addDependencyStep] at hret
    all_goals split at hret
    all_goals try split_ifs at hret
    all_goals simp_all

/-- Worker 1 executed transaction 1 of the sample block before worker 0 recorded transaction 0;
worker 0 has just aborted it and is outside the scheduler, as worker 1 is. -/
theorem no_lost_wakeup_sample : ∃ s, (workers Sample.config).Reachable s ∧
    (s.scheduler.transactionsStatus 1).status = .aborting ∧
    ∃! w, (s.pc w).abortedTx = some 1 := by
  obtain ⟨s, hs, hp⟩ := Sample.exists_reachable Sample.config
    [(0, 5), (1, 29), (0, 23), (1, 7), (0, 14)]
    (fun s => !(s.pc 0).inScheduler && !(s.pc 1).inScheduler &&
      (s.scheduler.transactionsStatus 1).status = .aborting && (s.pc 0).abortedTx = some 1)
    (by decide +kernel)
  simp only [Bool.and_eq_true, Bool.not_eq_true', decide_eq_true_eq] at hp
  obtain ⟨⟨⟨h0, h1⟩, hst⟩, hheld⟩ := hp
  have hidle := forall_pc_of_two hs le_rfl (Q := fun pc => pc.inScheduler = false) h0 h1 rfl
  rcases ((no_lost_wakeup hs).1 hidle).1 1 hst with ⟨hunique, -⟩ | ⟨hnone, -⟩
  · exact ⟨s, hs, hst, hunique⟩
  · exact absurd hheld (hnone 0)

end Pevm
