import Pevm.Proofs.Versions
import Pevm.Vm

/-!
# The validated counter

`num_validated` against the number of Validated transactions. The two move together in every
step except one: `finish_execution` of an execution that needs no validation and finds
`min_validation_idx ≤ tx_idx < validation_idx` marks the transaction Validated and counts it,
and then falls through to the final status decision, which counts it again. So the counter is
the number of Validated transactions plus the number of these second counts
(`numValidated_eq`), and it is exact in the runs that never take that branch.
-/

namespace Pevm

open Interleaving Scheduler MvMemory

/-- The Validated transactions among the first `n`. -/
def validatedBelow (status : Nat → TxStatus) (n : Nat) : Finset Nat :=
  (Finset.range n).filter fun i => (status i).status = .validated

/-- The Validated transactions of the block. -/
def Scheduler.validatedTxs (s : Scheduler) : Finset Nat :=
  validatedBelow s.transactionsStatus s.blockSize

/-- How often an execution was counted as validated a second time. -/
def recounts (log : List Event) : Nat :=
  log.countP fun
    | .recounted _ => true
    | _ => false

theorem validatedBelow_update_same {status : Nat → TxStatus} {n i : Nat} {st : TxStatus}
    (h : st.status = .validated ↔ (status i).status = .validated) :
    validatedBelow (Function.update status i st) n = validatedBelow status n := by
  ext j
  by_cases hj : j = i
  · subst hj
    simp [validatedBelow, h]
  · simp [validatedBelow, hj]

theorem card_validatedBelow_insert {status : Nat → TxStatus} {n i : Nat} {st : TxStatus}
    (hi : i < n) (hst : st.status = .validated) (hold : (status i).status ≠ .validated) :
    (validatedBelow (Function.update status i st) n).card = (validatedBelow status n).card + 1 := by
  have hins : validatedBelow (Function.update status i st) n = insert i (validatedBelow status n) := by
    ext j
    by_cases hj : j = i
    · subst hj
      simp [validatedBelow, hi, hst]
    · simp [validatedBelow, hj]
  rw [hins, Finset.card_insert_of_notMem]
  simp [validatedBelow, hold]

theorem card_validatedBelow_erase {status : Nat → TxStatus} {n i : Nat} {st : TxStatus}
    (hi : i < n) (hst : st.status ≠ .validated) (hold : (status i).status = .validated) :
    (validatedBelow (Function.update status i st) n).card + 1 = (validatedBelow status n).card := by
  have hmem : i ∈ validatedBelow status n := by simp [validatedBelow, hi, hold]
  have hera : validatedBelow (Function.update status i st) n = (validatedBelow status n).erase i := by
    ext j
    by_cases hj : j = i
    · subst hj
      simp [validatedBelow, hst]
    · simp [validatedBelow, hj]
  rw [hera, Finset.card_erase_of_mem hmem]
  have : 0 < (validatedBelow status n).card := Finset.card_pos.mpr ⟨i, hmem⟩
  omega

variable {X R E : Type} {cfg : Config X R E} {w : WorkerId} {s s' : System X R E}

/-- The counter is the number of Validated transactions plus the second counts. -/
def CounterExact (s : System X R E) : Prop :=
  s.scheduler.numValidated = s.scheduler.validatedTxs.card + recounts s.log

/-- A transaction that was not Validated moves on without becoming so. -/
theorem CounterExact.update (hC : CounterExact s) {i : Nat} {st : TxStatus} {log : List Event}
    (hlog : recounts log = recounts s.log) (hst : st.status ≠ .validated)
    (hold : (s.scheduler.transactionsStatus i).status ≠ .validated) :
    s.scheduler.numValidated =
      (validatedBelow (Function.update s.scheduler.transactionsStatus i st)
        s.scheduler.blockSize).card + recounts log := by
  rw [validatedBelow_update_same (by simp [hst, hold]), hlog]
  exact hC

/-- A transaction that was not Validated becomes so and is counted. -/
theorem CounterExact.insert (hC : CounterExact s) {i : Nat} {st : TxStatus} {log : List Event}
    (hlog : recounts log = recounts s.log) (hi : i < s.scheduler.blockSize)
    (hst : st.status = .validated) (hold : (s.scheduler.transactionsStatus i).status ≠ .validated) :
    s.scheduler.numValidated + 1 =
      (validatedBelow (Function.update s.scheduler.transactionsStatus i st)
        s.scheduler.blockSize).card + recounts log := by
  rw [card_validatedBelow_insert hi hst hold, hlog, hC]
  simp only [Scheduler.validatedTxs]
  omega

theorem CounterExact.step (hb : Bounds cfg s) (hO : Ownership s.own) (h : Step cfg w s s')
    (hC : CounterExact s) : CounterExact s' := by
  have hw := hb.pc w
  rw [← hb.blockSize] at hw
  have hexec : ∀ v, (s.pc w).phase.execution = some v →
      (s.scheduler.transactionsStatus v.txIdx).status ≠ .validated := by
    intro v hv
    have hst : s.scheduler.transactionsStatus v.txIdx = _ := hO.executing w v hv
    simp [hst]
  rcases h with h | h | h | h | h <;> cases h
  case nextTask.steal i hpc hh hs => exact hC.update rfl (by simp) (by simp [hs])
  case nextTask.startExecution i hpc hh hs => exact hC.update rfl (by simp) (by simp [hs])
  case validate.reexecute v hpc hh hs => exact hC.update rfl (by simp) (by simp [hs])
  case addDependency.lockTx v b hpc hh =>
    exact hC.update rfl (by simp) (hexec v (by simp [hpc, Pc.phase, Phase.execution]))
  case finishExecution.drain v flags d rest hpc hd hh =>
    have hst := (debugAsserts_of_ownership hO w).drain v flags d rest hpc hd
    exact hC.update rfl (by simp) (by simp [hst])
  case finishExecution.validateFrom v flags hpc hneed =>
    exact hC.update rfl (by simp) (hexec v (by simp [hpc, Pc.phase, Phase.execution]))
  case finishExecution.fallThrough v flags hpc hneed =>
    rw [hpc] at hw
    exact hC.insert rfl hw rfl (hexec v (by simp [hpc, Pc.phase, Phase.execution]))
  case finishExecution.settleExecuted v flags again hpc hneed =>
    cases again with
    | false => exact hC.update rfl (by simp) (hexec v (by simp [hpc, Pc.phase, Phase.execution]))
    | true =>
      rw [hb.fellThrough w v flags hpc] at hneed
      cases hneed
  case finishExecution.settleValidated v flags again hpc hneed =>
    rw [hpc] at hw
    cases again with
    | false => exact hC.insert rfl hw rfl (hexec v (by simp [hpc, Pc.phase, Phase.execution]))
    | true =>
      -- already Validated: the count goes up, the set of Validated transactions does not
      have hst : (s.scheduler.transactionsStatus v.txIdx).status = .validated :=
        hO.recounting w v (by simp [System.own, hpc, Pc.phase])
      have hV : validatedBelow (Function.update s.scheduler.transactionsStatus v.txIdx
          ⟨(s.scheduler.transactionsStatus v.txIdx).incarnation, .validated⟩)
          s.scheduler.blockSize = s.scheduler.validatedTxs :=
        validatedBelow_update_same (by simp [hst])
      have hlog : recounts (.recounted v :: s.log) = recounts s.log + 1 := by simp [recounts]
      show s.scheduler.numValidated + 1 = (validatedBelow (Function.update
        s.scheduler.transactionsStatus v.txIdx
        ⟨(s.scheduler.transactionsStatus v.txIdx).incarnation, .validated⟩)
        s.scheduler.blockSize).card + recounts (.recounted v :: s.log)
      rw [hV, hlog, hC]
      omega
  case validate.abortExecuted v hpc hs => exact hC.update rfl (by simp) (by simp [hs])
  case validate.abortValidated v hpc hs =>
    rw [hpc] at hw
    have hV := card_validatedBelow_erase (n := s.scheduler.blockSize) hw
      (show (TxStatus.mk (s.scheduler.transactionsStatus v.txIdx).incarnation
        .aborting).status ≠ .validated by simp) hs
    show s.scheduler.numValidated - 1 = (validatedBelow (Function.update
      s.scheduler.transactionsStatus v.txIdx
      ⟨(s.scheduler.transactionsStatus v.txIdx).incarnation, .aborting⟩)
      s.scheduler.blockSize).card + recounts s.log
    have hC' : s.scheduler.numValidated = (validatedBelow s.scheduler.transactionsStatus
      s.scheduler.blockSize).card + recounts s.log := hC
    omega
  case validate.setReady v hpc hh =>
    have hst := (debugAsserts_of_ownership hO w).finishValidation v hpc
    exact hC.update rfl (by simp) (by simp [hst])
  case validate.confirm v hpc =>
    rw [hpc] at hw
    have hst : (s.scheduler.transactionsStatus v.txIdx).status = .executed :=
      hO.confirming w v.txIdx (by simp [System.own, hpc, Pc.phase])
    exact hC.insert rfl hw rfl (by simp [hst])
  all_goals exact hC

theorem counterExact_reachable (h : (workers cfg).Reachable s) : CounterExact s :=
  invariant_of_step
    (fun s hs => by
      obtain ⟨hs, -, -, -, hlog⟩ := hs
      simp [CounterExact, hs, hlog, Scheduler.new, Scheduler.validatedTxs, validatedBelow, recounts])
    (fun _ _ _ hb hs _ hstep hC => hC.step hb (ownership_reachable hs) hstep) h

theorem Scheduler.card_validatedTxs_le (s : Scheduler) : s.validatedTxs.card ≤ s.blockSize := by
  have h := Finset.card_filter_le (Finset.range s.blockSize)
    fun i => (s.transactionsStatus i).status = .validated
  rwa [Finset.card_range] at h

/-! ## When the counter is exact -/

/-- Worker `w` is about to find, in `finish_execution` of an execution that needs no validation,
that the transaction lies between `min_validation_idx` and `validation_idx`. -/
def CountsTwice (w : WorkerId) (s : System X R E) : Bool :=
  match s.pc w with
  | .finishExecution v flags .loadValidationIdx =>
    !flags.needValidation && v.txIdx < s.scheduler.validationIdx
  | _ => false

/-- On a run that never counts twice, no worker is on the way to a second count and none was
counted. -/
structure CountsOnce (s : System X R E) : Prop where
  recounts : recounts s.log = 0
  pc : ∀ w v flags, flags.needValidation = false →
    s.pc w ≠ .finishExecution v flags .lowerToNext ∧
    s.pc w ≠ .finishExecution v flags .validateFrom ∧
    s.pc w ≠ .finishExecution v flags (.settle true)

theorem CountsOnce.step (hb : Bounds cfg s) (h : Step cfg w s s') (hC : CountsTwice w s = false)
    (hO : CountsOnce s) : CountsOnce s' := by
  refine ⟨?_, fun w' v flags hneed => ?_⟩
  · have hlog := hO.recounts
    rcases h with h | h | h | h | h <;> cases h
    case finishExecution.settleExecuted v flags again hpc hneed =>
      cases again with
      | false => exact hlog
      | true =>
        rw [hb.fellThrough w v flags hpc] at hneed
        cases hneed
    case finishExecution.settleValidated v flags again hpc hneed =>
      cases again with
      | false => exact hlog
      | true => exact absurd hpc (hO.pc w v flags hneed).2.2
    all_goals exact hlog
  · by_cases hw : w' = w
    · subst hw
      have hpcs := hO.pc w'
      rcases h with h | h | h | h | h <;> cases h
      case finishExecution.passedNew v' flags' hpc hv hnew
        | finishExecution.passed v' flags' hpc hv hnew =>
        have hneed' : flags'.needValidation = true := by simpa [CountsTwice, hpc, hv] using hC
        have hne : flags' ≠ flags := by
          rintro rfl
          rw [hneed] at hneed'
          cases hneed'
        simp [hne]
      case finishExecution.lowerToNext v' flags' hpc =>
        have hne : flags' ≠ flags := by
          rintro rfl
          exact (hpcs v' flags' hneed).1 hpc
        simp [hne]
      case finishExecution.fallThrough v' flags' hpc hneed' =>
        exact absurd hpc (hpcs v' flags' hneed').2.1
      all_goals simp
    · rw [h.pc_of_ne hw]
      exact hO.pc w' v flags hneed

theorem countsOnce_reachable (h : (workers cfg).ReachableVia (fun w s => CountsTwice w s = false) s) :
    CountsOnce s :=
  invariant_of_step
    (fun s hs => by
      obtain ⟨-, -, -, hpc, hlog⟩ := hs
      exact ⟨by simp [hlog, recounts], fun w v flags _ => by simp [hpc w]⟩)
    (fun _ _ _ hb _ hC hstep hO => hO.step hb hstep hC) h

/-- **The validated counter is exact** in every state of every run in which no execution without
validation finishes between `min_validation_idx` and `validation_idx`. It is then at most the
block size, and positive whenever `try_validation_abort` is about to decrement it. -/
theorem numValidated_exact
    (h : (workers cfg).ReachableVia (fun w s => CountsTwice w s = false) s) :
    s.scheduler.numValidated = s.scheduler.validatedTxs.card ∧
    s.scheduler.numValidated ≤ s.scheduler.blockSize ∧
    ∀ w v, s.pc w = .tryValidationAbort v .abort →
      (s.scheduler.transactionsStatus v.txIdx).status = .validated → 0 < s.scheduler.numValidated := by
  have hexact : s.scheduler.numValidated = s.scheduler.validatedTxs.card := by
    have hC := counterExact_reachable h.reachable
    rwa [CounterExact, (countsOnce_reachable h).recounts, Nat.add_zero] at hC
  refine ⟨hexact, hexact ▸ s.scheduler.card_validatedTxs_le, fun w v hpc hst => ?_⟩
  have hb := bounds_reachable h.reachable
  have hv := hb.pc w
  rw [hpc, ← hb.blockSize] at hv
  rw [hexact]
  exact Finset.card_pos.mpr ⟨v.txIdx, by simpa [Scheduler.validatedTxs, validatedBelow] using ⟨hv, hst⟩⟩

/-- The sample block, executed by one worker up to the end of transaction 1. -/
theorem numValidated_exact_sample : ∃ s, (workers Sample.config).ReachableVia
      (fun w s => CountsTwice w s = false) s ∧
    s.scheduler.numValidated = 2 ∧ s.scheduler.validatedTxs.card = 2 := by
  obtain ⟨s, hs, hp⟩ := Sample.exists_reachableVia Sample.config
    (fun w s => !CountsTwice w s) [(0, 67)] (fun s => s.scheduler.numValidated = 2)
    (by decide +kernel)
  have hs' := hs.mono (D := fun w s => CountsTwice w s = false) fun w s h => by simpa using h
  have hnum : s.scheduler.numValidated = 2 := by simpa using hp
  exact ⟨s, hs', hnum, (numValidated_exact hs').1 ▸ hnum⟩

/-- Worker 1 executes the lazy transaction 2 while worker 0 executes and validates the others
and moves `validation_idx` past it. No worker is inside an operation in the end and the counter
is one more than the block size. -/
theorem numValidated_counts_twice : ∃ s, (workers Sample.config).Reachable s ∧
    s.scheduler.aborted = false ∧ (∀ w, (s.pc w).inScheduler = false) ∧
    s.scheduler.numValidated = 4 ∧ s.scheduler.validatedTxs.card = 3 ∧
    s.scheduler.blockSize = 3 := by
  obtain ⟨s, hs, hp⟩ := Sample.exists_reachable Sample.config
    [(0, 33), (1, 5), (0, 46), (1, 22)]
    (fun s => !s.scheduler.aborted && !(s.pc 0).inScheduler && !(s.pc 1).inScheduler &&
      s.scheduler.numValidated = 4 && s.scheduler.validatedTxs.card = 3 &&
      s.scheduler.blockSize = 3)
    (by decide +kernel)
  simp only [Bool.and_eq_true, Bool.not_eq_true', decide_eq_true_eq] at hp
  obtain ⟨⟨⟨⟨⟨ha, h0⟩, h1⟩, hnum⟩, hcard⟩, hn⟩ := hp
  exact ⟨s, hs, ha, forall_pc_of_two hs le_rfl (Q := fun pc => pc.inScheduler = false) h0 h1 rfl,
    hnum, hcard, hn⟩

end Pevm
