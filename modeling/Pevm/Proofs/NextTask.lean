import Pevm.Proofs.Counter

/-!
# When a worker leaves

A call of `next_task` that runs with nothing interleaved returns none exactly when it finds no
task below the block size and `num_validated` is at least `block_size - min_validation_idx`
(`completes_none_iff`).

The second test counts every Validated transaction, those below `min_validation_idx` included
(transaction 0 always is one), and the second counts of `finish_execution`. So it passes while
transactions from `min_validation_idx` on are not Validated yet, as soon as these are no more
than the surplus (`next_task_none_settled_iff`).
-/

namespace Pevm

open Interleaving Scheduler MvMemory

namespace Scheduler

/-- What the execution index finds at `i` is not a task. -/
def NoExecution (s : Scheduler) (i : Nat) : Prop :=
  s.statusHolder i = none ∧ (s.transactionsStatus i).status ≠ .readyToExecute

/-- What the validation index finds at `i` is not a task. -/
def NoValidation (s : Scheduler) (i : Nat) : Prop :=
  s.statusHolder i = none ∧ ((s.transactionsStatus i).status = .executing ∨
    (s.transactionsStatus i).status = .aborting)

/-- Neither index finds a task, or a held mutex, on its way to the block size. -/
structure Exhausted (s : Scheduler) : Prop where
  execution : ∀ i, s.executionIdx ≤ i → i < s.blockSize → s.NoExecution i
  validation : ∀ i, s.validationIdx ≤ i → i < s.blockSize → s.NoValidation i

/-- The exit test of `next_task`. -/
def ExitTest (s : Scheduler) : Prop :=
  s.blockSize - s.minValidationIdx ≤ s.numValidated

end Scheduler

/-- What a call of `next_task` that returns none says about the state at each of its steps. The
values it loaded are current, as nothing is interleaved. -/
def FindsNothing (s : Scheduler) : NextTaskPc → Prop
  | .loop | .loadExecutionIdx | .takeValidationIdx | .takeExecutionIdx => s.Exhausted ∧ s.ExitTest
  | .loadValidationIdx e => e = s.executionIdx → s.Exhausted ∧ s.ExitTest
  | .loadNumValidated =>
    s.blockSize ≤ s.executionIdx → s.blockSize ≤ s.validationIdx → s.Exhausted ∧ s.ExitTest
  | .loadMinValidationIdx c => c = s.numValidated →
    s.blockSize ≤ s.executionIdx → s.blockSize ≤ s.validationIdx → s.Exhausted ∧ s.ExitTest
  | .checkStatus i => s.NoValidation i ∧ s.Exhausted ∧ s.ExitTest
  | .tryExecute i => s.NoExecution i ∧ s.Exhausted ∧ s.ExitTest

/-- The scheduler after `execution_idx.fetch_add(1)`. -/
def Scheduler.passExecution (s : Scheduler) : Scheduler :=
  { s with executionIdx := s.executionIdx + 1 }

/-- The scheduler after `validation_idx.fetch_add(1)`. -/
def Scheduler.passValidation (s : Scheduler) : Scheduler :=
  { s with validationIdx := s.validationIdx + 1 }

/-- Both indices are past the block. -/
theorem exhausted_of_past {s : Scheduler} (he : s.blockSize ≤ s.executionIdx)
    (hv : s.blockSize ≤ s.validationIdx) : s.Exhausted :=
  ⟨fun i h₁ h₂ => absurd h₂ (by omega), fun i h₁ h₂ => absurd h₂ (by omega)⟩

theorem exhausted_passValidation {s : Scheduler}
    (hi : s.validationIdx < s.blockSize → s.NoValidation s.validationIdx) :
    s.passValidation.Exhausted ↔ s.Exhausted := by
  refine ⟨fun h => ⟨h.execution, fun i h₁ h₂ => ?_⟩,
    fun h => ⟨h.execution, fun i h₁ h₂ => h.validation i (Nat.le_of_succ_le h₁) h₂⟩⟩
  rcases Nat.eq_or_lt_of_le h₁ with rfl | hlt
  · exact hi h₂
  · exact h.validation i hlt h₂

theorem exhausted_passExecution {s : Scheduler}
    (hi : s.executionIdx < s.blockSize → s.NoExecution s.executionIdx) :
    s.passExecution.Exhausted ↔ s.Exhausted := by
  refine ⟨fun h => ⟨fun i h₁ h₂ => ?_, h.validation⟩,
    fun h => ⟨fun i h₁ h₂ => h.execution i (Nat.le_of_succ_le h₁) h₂, h.validation⟩⟩
  rcases Nat.eq_or_lt_of_le h₁ with rfl | hlt
  · exact hi h₂
  · exact h.execution i hlt h₂

/-- A step of `next_task` that goes on changes at most the indices. -/
structure SameButIndices (s t : Scheduler) : Prop where
  blockSize : t.blockSize = s.blockSize
  status : t.transactionsStatus = s.transactionsStatus
  statusHolder : t.statusHolder = s.statusHolder
  minValidationIdx : t.minValidationIdx = s.minValidationIdx
  numValidated : t.numValidated = s.numValidated
  aborted : t.aborted = s.aborted

theorem SameButIndices.refl (s : Scheduler) : SameButIndices s s := ⟨rfl, rfl, rfl, rfl, rfl, rfl⟩

theorem SameButIndices.trans {s t u : Scheduler} (h : SameButIndices s t)
    (h' : SameButIndices t u) : SameButIndices s u :=
  ⟨h'.1.trans h.1, h'.2.trans h.2, h'.3.trans h.3, h'.4.trans h.4, h'.5.trans h.5, h'.6.trans h.6⟩

theorem nextTaskStep_goto {s t : Scheduler} {pc pc' : NextTaskPc}
    (h : s.nextTaskStep pc = some (t, .goto pc')) : SameButIndices s t := by
  cases pc <;> simp only [nextTaskStep] at h
  case checkStatus i =>
    split at h
    · cases h
    · split at h <;> simp only [Option.some.injEq, Prod.mk.injEq, reduceCtorEq, and_false] at h <;>
        exact h.1 ▸ .refl s
  case tryExecute i =>
    cases hh : s.statusHolder i with
    | some w => simp [Scheduler.tryExecute, hh] at h
    | none =>
      by_cases hr : (s.transactionsStatus i).status = .readyToExecute
      · simp [Scheduler.tryExecute, hh, hr] at h
      · obtain ⟨rfl, -⟩ : s = t ∧ _ := by simpa [Scheduler.tryExecute, hh, hr] using h
        exact .refl s
  case loadValidationIdx e =>
    split_ifs at h <;> simp only [Option.some.injEq, Prod.mk.injEq] at h <;> exact h.1 ▸ .refl s
  case loadMinValidationIdx c =>
    split_ifs at h <;> simp only [Option.some.injEq, Prod.mk.injEq, reduceCtorEq, and_false] at h
    exact h.1 ▸ .refl s
  all_goals
    simp only [Option.some.injEq, Prod.mk.injEq] at h
    exact h.1 ▸ ⟨rfl, rfl, rfl, rfl, rfl, rfl⟩

/-- `next_task` returns none on an abort or after the exit test. -/
theorem nextTaskStep_ret_none {s s' : Scheduler} {pc : NextTaskPc}
    (h : s.nextTaskStep pc = some (s', .ret none)) :
    s' = s ∧ (pc = .loop ∧ s.aborted = true ∨
      ∃ c, pc = .loadMinValidationIdx c ∧ s.blockSize - s.minValidationIdx ≤ c) := by
  cases pc <;> simp only [nextTaskStep] at h
  case loop =>
    split_ifs at h with ha
    · simp only [Option.some.injEq, Prod.mk.injEq, and_true] at h
      exact ⟨h.symm, .inl ⟨rfl, ha⟩⟩
    · simp at h
  case loadMinValidationIdx c =>
    split_ifs at h with hc
    · simp only [Option.some.injEq, Prod.mk.injEq, and_true] at h
      exact ⟨h.symm, .inr ⟨c, rfl, hc⟩⟩
    · simp at h
  case loadValidationIdx e => split_ifs at h <;> simp at h
  case takeValidationIdx | takeExecutionIdx => split_ifs at h <;> simp at h
  case checkStatus i =>
    split at h
    · cases h
    · split at h <;> simp at h
  case tryExecute i => split at h <;> simp at h
  all_goals simp at h

/-- A call that returns none finds nothing: a step that goes on passes what it looked at, and
what follows finds nothing either. -/
theorem findsNothing_of_completes {s s' : Scheduler} {pc : NextTaskPc}
    (h : Completes nextTaskStep s pc s' none) (ha : s.aborted = false) : FindsNothing s pc := by
  generalize hr : (none : Option Task) = r at h
  induction h with
  | @ret s s' pc r h =>
    subst hr
    rcases nextTaskStep_ret_none h with ⟨-, ⟨-, ha'⟩ | ⟨c, rfl, hc⟩⟩
    · rw [ha] at ha'
      cases ha'
    · rintro rfl he hv
      exact ⟨exhausted_of_past he hv, hc⟩
  | @goto s t s' pc pc' r h hrest ih =>
    have hsame := nextTaskStep_goto h
    have ih := ih (hsame.aborted.trans ha) hr
    cases pc <;> simp only [nextTaskStep] at h
    case loop =>
      obtain ⟨rfl, rfl⟩ : s = t ∧ .loadExecutionIdx = pc' := by simpa [ha] using h
      exact ih
    case loadExecutionIdx =>
      obtain ⟨rfl, rfl⟩ : s = t ∧ .loadValidationIdx s.executionIdx = pc' := by simpa using h
      exact ih rfl
    case loadValidationIdx e =>
      rintro rfl
      split_ifs at h with hp hv
      · obtain ⟨rfl, rfl⟩ : s = t ∧ .loadNumValidated = pc' := by simpa using h
        exact ih hp.1 hp.2
      · obtain ⟨rfl, rfl⟩ : s = t ∧ .takeValidationIdx = pc' := by simpa using h
        exact ih
      · obtain ⟨rfl, rfl⟩ : s = t ∧ .takeExecutionIdx = pc' := by simpa using h
        exact ih
    case loadNumValidated =>
      obtain ⟨rfl, rfl⟩ : s = t ∧ .loadMinValidationIdx s.numValidated = pc' := by simpa using h
      exact ih rfl
    case loadMinValidationIdx c =>
      split_ifs at h with hc
      · simp at h
      · obtain ⟨rfl, rfl⟩ : s = t ∧ .loop = pc' := by simpa using h
        exact fun _ _ _ => ih
    case takeValidationIdx =>
      split_ifs at h with hi
      · obtain ⟨rfl, rfl⟩ : s.passValidation = t ∧ .checkStatus s.validationIdx = pc' := by
          simpa [passValidation] using h
        exact ⟨(exhausted_passValidation fun _ => ih.1).mp ih.2.1, ih.2.2⟩
      · obtain ⟨rfl, rfl⟩ : s.passValidation = t ∧ .takeExecutionIdx = pc' := by
          simpa [passValidation] using h
        exact ⟨(exhausted_passValidation fun hi' => absurd hi' hi).mp ih.1, ih.2⟩
    case takeExecutionIdx =>
      split_ifs at h with hi
      · obtain ⟨rfl, rfl⟩ : s.passExecution = t ∧ .tryExecute s.executionIdx = pc' := by
          simpa [passExecution] using h
        exact ⟨(exhausted_passExecution fun _ => ih.1).mp ih.2.1, ih.2.2⟩
      · obtain ⟨rfl, rfl⟩ : s.passExecution = t ∧ .loop = pc' := by
          simpa [passExecution] using h
        exact ⟨(exhausted_passExecution fun hi' => absurd hi' hi).mp ih.1, ih.2⟩
    case checkStatus i =>
      cases hh : s.statusHolder i with
      | some w => simp [hh] at h
      | none =>
        cases hst : (s.transactionsStatus i).status with
        | executing =>
          obtain ⟨rfl, rfl⟩ : s = t ∧ .takeExecutionIdx = pc' := by simpa [hh, hst] using h
          exact ⟨⟨hh, .inl hst⟩, ih⟩
        | aborting =>
          obtain ⟨rfl, rfl⟩ : s = t ∧ .loop = pc' := by simpa [hh, hst] using h
          exact ⟨⟨hh, .inr hst⟩, ih⟩
        | readyToExecute | executed | validated => simp [hh, hst] at h
    case tryExecute i =>
      cases hh : s.statusHolder i with
      | some w => simp [Scheduler.tryExecute, hh] at h
      | none =>
        by_cases hr : (s.transactionsStatus i).status = .readyToExecute
        · simp [Scheduler.tryExecute, hh, hr] at h
        · obtain ⟨rfl, rfl⟩ : s = t ∧ .loop = pc' := by
            simpa [Scheduler.tryExecute, hh, hr] using h
          exact ⟨⟨hh, hr⟩, ih⟩

/-- A call that returns none leaves everything but the indices as it was. -/
theorem same_of_completes_none {s s' : Scheduler} {pc : NextTaskPc}
    (h : Completes nextTaskStep s pc s' none) : SameButIndices s s' := by
  generalize hr : (none : Option Task) = r at h
  induction h with
  | ret h =>
    subst hr
    exact (nextTaskStep_ret_none h).1 ▸ .refl _
  | goto h hrest ih => exact (nextTaskStep_goto h).trans (ih hr)

/-! ## The call returns -/

/-- The call returns, and it returns none if there is no task. -/
def Returns (s : Scheduler) (pc : NextTaskPc) : Prop :=
  ∃ s' r, Completes nextTaskStep s pc s' r ∧ (s.Exhausted → r = none)

theorem Returns.goto {s t : Scheduler} {pc pc' : NextTaskPc}
    (h : s.nextTaskStep pc = some (t, .goto pc')) (hmono : s.Exhausted → t.Exhausted)
    (hrest : Returns t pc') : Returns s pc := by
  obtain ⟨s', r, hc, hnone⟩ := hrest
  exact ⟨s', r, .goto h hc, fun he => hnone (hmono he)⟩

/-- The execution index finds a task, or the call starts over with the index moved on. -/
theorem returns_takeExecutionIdx {s : Scheduler}
    (hh : s.executionIdx < s.blockSize → s.statusHolder s.executionIdx = none)
    (hnext : (s.executionIdx < s.blockSize → s.NoExecution s.executionIdx) →
      Returns s.passExecution .loop) : Returns s .takeExecutionIdx := by
  by_cases hi : s.executionIdx < s.blockSize
  · have hstep : s.nextTaskStep .takeExecutionIdx =
        some (s.passExecution, .goto (.tryExecute s.executionIdx)) := by
      simp [nextTaskStep, passExecution, hi]
    by_cases hr : (s.transactionsStatus s.executionIdx).status = .readyToExecute
    · have htask : s.passExecution.nextTaskStep (.tryExecute s.executionIdx) =
          some (s.passExecution.setStatus s.executionIdx .executing,
            .ret (some (.execution (s.version s.executionIdx)))) := by
        simp [nextTaskStep, Scheduler.tryExecute, passExecution, Scheduler.version, hh hi, hr]
      exact ⟨_, _, .goto hstep (.ret htask), fun he => absurd hr (he.execution _ le_rfl hi).2⟩
    · have hskip : s.passExecution.nextTaskStep (.tryExecute s.executionIdx) =
          some (s.passExecution, .goto .loop) := by
        simp [nextTaskStep, Scheduler.tryExecute, passExecution, hh hi, hr]
      have hno : s.executionIdx < s.blockSize → s.NoExecution s.executionIdx :=
        fun _ => ⟨hh hi, hr⟩
      exact .goto hstep (exhausted_passExecution hno).mpr (.goto hskip id (hnext hno))
  · have hstep : s.nextTaskStep .takeExecutionIdx = some (s.passExecution, .goto .loop) := by
      simp [nextTaskStep, passExecution, hi]
    have hno : s.executionIdx < s.blockSize → s.NoExecution s.executionIdx :=
      fun hi' => absurd hi' hi
    exact .goto hstep (exhausted_passExecution hno).mpr (hnext hno)

/-- The validation index finds a task, or the call goes on behind it. -/
theorem returns_takeValidationIdx {s : Scheduler} (hi : s.validationIdx < s.blockSize)
    (hh : s.statusHolder s.validationIdx = none)
    (hnext : s.NoValidation s.validationIdx →
      Returns s.passValidation .loop ∧ Returns s.passValidation .takeExecutionIdx) :
    Returns s .takeValidationIdx := by
  have hstep : s.nextTaskStep .takeValidationIdx =
      some (s.passValidation, .goto (.checkStatus s.validationIdx)) := by
    simp [nextTaskStep, passValidation, hi]
  have htask : ∀ t r, s.passValidation.nextTaskStep (.checkStatus s.validationIdx) =
      some (t, .ret r) → ¬ s.NoValidation s.validationIdx → Returns s .takeValidationIdx :=
    fun t r h hno => ⟨t, r, .goto hstep (.ret h), fun he => absurd (he.validation _ le_rfl hi) hno⟩
  cases hst : (s.transactionsStatus s.validationIdx).status with
  | readyToExecute =>
    exact htask _ _ (by simp [nextTaskStep, passValidation, hh, hst]; exact ⟨rfl, rfl⟩)
      (by simp [NoValidation, hst])
  | executed | validated =>
    exact htask _ _ (by simp [nextTaskStep, passValidation, hh, hst]; exact ⟨rfl, rfl⟩)
      (by simp [NoValidation, hst])
  | executing =>
    have hno : s.NoValidation s.validationIdx := ⟨hh, .inl hst⟩
    refine .goto hstep (exhausted_passValidation fun _ => hno).mpr ?_
    exact .goto (by simp [nextTaskStep, passValidation, hh, hst]) id (hnext hno).2
  | aborting =>
    have hno : s.NoValidation s.validationIdx := ⟨hh, .inr hst⟩
    refine .goto hstep (exhausted_passValidation fun _ => hno).mpr ?_
    exact .goto (by simp [nextTaskStep, passValidation, hh, hst]) id (hnext hno).1

/-- **A call with nothing interleaved returns** when the mutexes on the way are free and it does
not have to wait for the exit test; without a task it returns none. -/
theorem returns_of_unlocked {s : Scheduler} (ha : s.aborted = false)
    (hh : ∀ i, i < s.blockSize → s.executionIdx ≤ i ∨ s.validationIdx ≤ i →
      s.statusHolder i = none)
    (hx : s.ExitTest ∨ ¬ s.Exhausted) : Returns s .loop := by
  -- the indices left to visit get fewer with every round
  generalize hm : (s.blockSize - s.executionIdx) + (s.blockSize - s.validationIdx) = m
  induction m using Nat.strong_induction_on generalizing s with
  | _ m ih =>
    subst hm
    have hloop : s.nextTaskStep .loop = some (s, .goto .loadExecutionIdx) := by
      simp [nextTaskStep, ha]
    have hload : s.nextTaskStep .loadExecutionIdx =
        some (s, .goto (.loadValidationIdx s.executionIdx)) := rfl
    refine .goto hloop id (.goto hload id ?_)
    by_cases hp : s.blockSize ≤ s.executionIdx ∧ s.blockSize ≤ s.validationIdx
    · have hexit : s.ExitTest := hx.resolve_right fun h => h (exhausted_of_past hp.1 hp.2)
      have hpast : s.nextTaskStep (.loadValidationIdx s.executionIdx) =
          some (s, .goto .loadNumValidated) := by
        simp [nextTaskStep, hp]
      have hnum : s.nextTaskStep .loadNumValidated =
          some (s, .goto (.loadMinValidationIdx s.numValidated)) := rfl
      have hleave : s.nextTaskStep (.loadMinValidationIdx s.numValidated) = some (s, .ret none) := by
        simp only [nextTaskStep]
        exact if_pos hexit
      exact ⟨s, none, .goto hpast (.goto hnum (.ret hleave)), fun _ => rfl⟩
    by_cases hv : s.validationIdx < s.executionIdx
    · have hi : s.validationIdx < s.blockSize := by omega
      have hprefer : s.nextTaskStep (.loadValidationIdx s.executionIdx) =
          some (s, .goto .takeValidationIdx) := by
        simp [nextTaskStep, hp, hv]
      refine .goto hprefer id
        (returns_takeValidationIdx hi (hh _ hi (.inr le_rfl)) fun hno => ?_)
      have hx' : s.passValidation.ExitTest ∨ ¬ s.passValidation.Exhausted :=
        hx.imp id fun h h' => h ((exhausted_passValidation fun _ => hno).mp h')
      have hh' : ∀ i, i < s.blockSize → s.executionIdx ≤ i ∨ s.validationIdx + 1 ≤ i →
          s.statusHolder i = none := fun i h₁ h₂ => hh i h₁ (h₂.imp_right Nat.le_of_succ_le)
      refine ⟨ih _ (by simp only [passValidation]; omega) ha hh' hx' rfl,
        returns_takeExecutionIdx (fun h => hh _ h (.inl le_rfl)) fun hno' => ?_⟩
      refine ih _ (by simp only [passValidation, passExecution]; omega) ha
        (fun i h₁ h₂ => hh' i h₁ (h₂.imp_left Nat.le_of_succ_le)) ?_ rfl
      exact hx'.imp id fun h h' => h ((exhausted_passExecution hno').mp h')
    · have hi : s.executionIdx < s.blockSize := by omega
      have hprefer : s.nextTaskStep (.loadValidationIdx s.executionIdx) =
          some (s, .goto .takeExecutionIdx) := by
        simp [nextTaskStep, hp, hv]
      refine .goto hprefer id
        (returns_takeExecutionIdx (fun h => hh _ h (.inl le_rfl)) fun hno => ?_)
      refine ih _ (by simp only [passExecution]; omega) ha
        (fun i h₁ h₂ => hh i h₁ (h₂.imp_left Nat.le_of_succ_le)) ?_ rfl
      exact hx.imp id fun h h' => h ((exhausted_passExecution hno).mp h')

/-- **When a call returns none.** -/
theorem completes_none_iff {s : Scheduler} (ha : s.aborted = false) :
    (∃ s', Completes nextTaskStep s .loop s' none) ↔ s.Exhausted ∧ s.ExitTest := by
  refine ⟨fun ⟨s', h⟩ => findsNothing_of_completes h ha, fun ⟨he, hx⟩ => ?_⟩
  have hh : ∀ i, i < s.blockSize → s.executionIdx ≤ i ∨ s.validationIdx ≤ i →
      s.statusHolder i = none := by
    rintro i hi (h | h)
    · exact (he.execution i h hi).1
    · exact (he.validation i h hi).1
  obtain ⟨s', r, hc, hnone⟩ := returns_of_unlocked ha hh (.inl hx)
  exact ⟨s', hnone he ▸ hc⟩

/-- Where some task is left and no mutex is held, a call returns a task. -/
theorem completes_task {s : Scheduler} (ha : s.aborted = false)
    (hh : ∀ i, s.statusHolder i = none) (he : ¬ s.Exhausted) :
    ∃ s' task, Completes nextTaskStep s .loop s' (some task) := by
  obtain ⟨s', r, hc, -⟩ := returns_of_unlocked ha (fun i _ _ => hh i) (.inr he)
  cases r with
  | none => exact absurd (findsNothing_of_completes hc ha).1 he
  | some task => exact ⟨s', task, hc⟩

/-! ## What the exit test counts -/

/-- The Validated transactions below `min_validation_idx`. -/
def Scheduler.strayTxs (s : Scheduler) : Finset Nat :=
  s.validatedTxs.filter fun i => i < s.minValidationIdx

/-- The transactions from `min_validation_idx` on that are not Validated. -/
def Scheduler.unsettledTxs (s : Scheduler) : Finset Nat :=
  (Finset.range s.blockSize).filter fun i =>
    s.minValidationIdx ≤ i ∧ (s.transactionsStatus i).status ≠ .validated

theorem Scheduler.card_validatedTxs_add (s : Scheduler) :
    s.validatedTxs.card + s.unsettledTxs.card =
      s.strayTxs.card + (s.blockSize - s.minValidationIdx) := by
  have hsplit := Finset.card_filter_add_card_filter_not (s := s.validatedTxs)
    fun i => i < s.minValidationIdx
  have habove : (Finset.Ico s.minValidationIdx s.blockSize).card =
      s.blockSize - s.minValidationIdx := Nat.card_Ico _ _
  have hpart := Finset.card_filter_add_card_filter_not
    (s := Finset.Ico s.minValidationIdx s.blockSize)
    fun i => (s.transactionsStatus i).status = .validated
  have hval : (Finset.Ico s.minValidationIdx s.blockSize).filter
      (fun i => (s.transactionsStatus i).status = .validated) =
      s.validatedTxs.filter fun i => ¬ i < s.minValidationIdx := by
    ext i
    simp only [validatedTxs, validatedBelow, Finset.mem_filter, Finset.mem_Ico, Finset.mem_range,
      not_lt]
    tauto
  have hrest : (Finset.Ico s.minValidationIdx s.blockSize).filter
      (fun i => ¬ (s.transactionsStatus i).status = .validated) = s.unsettledTxs := by
    ext i
    simp only [unsettledTxs, Finset.mem_filter, Finset.mem_Ico, Finset.mem_range]
    tauto
  rw [hval, hrest] at hpart
  simp only [strayTxs]
  omega

variable {X R E : Type} {cfg : Config X R E} {s : System X R E}

/-- The exit test passes exactly when the surplus of the counter makes up for the transactions
that are not Validated yet. -/
theorem exitTest_iff (h : (workers cfg).Reachable s) : s.scheduler.ExitTest ↔
    s.scheduler.unsettledTxs.card ≤ s.scheduler.strayTxs.card + recounts s.log := by
  have hnum : s.scheduler.numValidated = s.scheduler.validatedTxs.card + recounts s.log :=
    counterExact_reachable h
  have hcard := s.scheduler.card_validatedTxs_add
  simp only [ExitTest]
  omega

/-- One of the indices has a task, or a held mutex, on its way to the block size. -/
def Scheduler.WorkAhead (s : Scheduler) : Prop :=
  ∃ i, i < s.blockSize ∧ ((s.executionIdx ≤ i ∧ ¬ s.NoExecution i) ∨
    (s.validationIdx ≤ i ∧ ¬ s.NoValidation i))

theorem Scheduler.not_exhausted_iff (s : Scheduler) : ¬ s.Exhausted ↔ s.WorkAhead := by
  refine ⟨fun h => ?_, fun ⟨i, hi, h⟩ he => ?_⟩
  · by_contra hno
    simp only [WorkAhead, not_exists, not_and, not_or, not_not] at hno
    exact h ⟨fun i h₁ h₂ => (hno i h₂).1 h₁, fun i h₁ h₂ => (hno i h₂).2 h₁⟩
  · rcases h with ⟨h₁, h₂⟩ | ⟨h₁, h₂⟩
    · exact h₂ (he.execution i h₁ hi)
    · exact h₂ (he.validation i h₁ hi)

/-- **When workers leave only from a settled block.** In a reachable state that is not aborted,
a call of `next_task` with nothing interleaved returns none only where every transaction from
`min_validation_idx` on is Validated, if and only if there is work ahead of one of the indices,
or all of these transactions are Validated already, or those that are not outnumber the Validated
transactions below `min_validation_idx` together with the second counts of `finish_execution`. -/
theorem next_task_none_settled_iff (h : (workers cfg).Reachable s)
    (ha : s.scheduler.aborted = false) :
    (∀ scheduler, Completes nextTaskStep s.scheduler .loop scheduler none →
      ∀ i, scheduler.minValidationIdx ≤ i → i < scheduler.blockSize →
        (scheduler.transactionsStatus i).status = .validated) ↔
    s.scheduler.WorkAhead ∨ s.scheduler.unsettledTxs = ∅ ∨
      s.scheduler.strayTxs.card + recounts s.log < s.scheduler.unsettledTxs.card := by
  have hnone := completes_none_iff ha
  have hexit := exitTest_iff h
  have hsettled : (∀ scheduler, Completes nextTaskStep s.scheduler .loop scheduler none →
      ∀ i, scheduler.minValidationIdx ≤ i → i < scheduler.blockSize →
        (scheduler.transactionsStatus i).status = .validated) ↔
      (s.scheduler.Exhausted ∧ s.scheduler.ExitTest → s.scheduler.unsettledTxs = ∅) := by
    rw [← hnone]
    constructor
    · rintro hall ⟨scheduler, hc⟩
      have hsame := same_of_completes_none hc
      refine Finset.filter_eq_empty_iff.mpr fun i hi => ?_
      rintro ⟨hmin, hst⟩
      refine hst ?_
      rw [← hsame.status]
      refine hall scheduler hc i ?_ ?_
      · rwa [hsame.minValidationIdx]
      · rw [hsame.blockSize]
        exact Finset.mem_range.mp hi
    · intro hempty scheduler hc i hmin hi
      have hsame := same_of_completes_none hc
      by_contra hst
      have hmem : i ∈ s.scheduler.unsettledTxs := by
        rw [hsame.minValidationIdx] at hmin
        rw [hsame.blockSize] at hi
        rw [hsame.status] at hst
        exact Finset.mem_filter.mpr ⟨Finset.mem_range.mpr hi, hmin, hst⟩
      rw [hempty ⟨scheduler, hc⟩] at hmem
      cases hmem
  rw [hsettled, ← s.scheduler.not_exhausted_iff, hexit]
  constructor
  · intro himp
    by_cases he : s.scheduler.Exhausted
    · refine .inr ?_
      by_cases hle : s.scheduler.unsettledTxs.card ≤ s.scheduler.strayTxs.card + recounts s.log
      · exact .inl (himp ⟨he, hle⟩)
      · exact .inr (by omega)
    · exact .inl he
  · rintro (hne | hempty | hlt) ⟨he, hle⟩
    · exact absurd he hne
    · exact hempty
    · omega

/-- In the sample block with all three transactions Validated a worker may leave. -/
theorem next_task_none_settled_sample : ∃ s, (workers Sample.config).Reachable s ∧
    s.scheduler.aborted = false ∧ s.scheduler.minValidationIdx = 1 ∧
    ∀ scheduler, Completes nextTaskStep s.scheduler .loop scheduler none →
      ∀ i, scheduler.minValidationIdx ≤ i → i < scheduler.blockSize →
        (scheduler.transactionsStatus i).status = .validated := by
  obtain ⟨s, hs, hp⟩ := Sample.exists_reachable Sample.config
    [(0, 33), (1, 5), (0, 46), (1, 22)]
    (fun s => !s.scheduler.aborted && s.scheduler.minValidationIdx = 1 &&
      decide (s.scheduler.unsettledTxs = ∅))
    (by decide +kernel)
  simp only [Bool.and_eq_true, Bool.not_eq_true', decide_eq_true_eq] at hp
  obtain ⟨⟨ha, hmin⟩, hempty⟩ := hp
  exact ⟨s, hs, ha, hmin, (next_task_none_settled_iff hs ha).mpr (.inr (.inl hempty))⟩

/-- Transactions 0 and 2 of the sample block are Validated and worker 0 holds the validation of
transaction 1. `num_validated` is 2, `block_size - min_validation_idx` is 2 as well, and a call
of `next_task` returns none although transaction 1 is not Validated. -/
theorem next_task_leaves_early : ∃ s scheduler, (workers Sample.config).Reachable s ∧
    s.scheduler.aborted = false ∧
    Completes nextTaskStep s.scheduler .loop scheduler none ∧
    scheduler.minValidationIdx ≤ 1 ∧ 1 < scheduler.blockSize ∧
    (scheduler.transactionsStatus 1).status = .executed := by
  obtain ⟨s, hs, hp⟩ := Sample.exists_reachable Sample.config
    [(0, 33), (1, 5), (0, 24), (1, 30)]
    (fun s => !s.scheduler.aborted &&
      (complete nextTaskStep 10 s.scheduler .loop).any fun (scheduler, task) =>
        task = none && decide (scheduler.minValidationIdx ≤ 1) && decide (1 < scheduler.blockSize) &&
        (scheduler.transactionsStatus 1).status = .executed)
    (by decide +kernel)
  simp only [Bool.and_eq_true, Bool.not_eq_true', decide_eq_true_eq, Option.any_eq_true] at hp
  obtain ⟨ha, ⟨scheduler, task⟩, hc, ⟨⟨rfl, hmin⟩, hi⟩, hst⟩ := hp
  exact ⟨s, scheduler, hs, ha, completes_of_complete hc, hmin, hi, hst⟩

end Pevm
