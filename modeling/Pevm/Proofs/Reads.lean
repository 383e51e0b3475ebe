import Pevm.Proofs.Writes

/-!
# No stale read survives

When a read of a finished transaction becomes invalid, the transaction is revisited: the
validation index is still at or below it, or some worker will notice (`Pc.rechecks`). The worker
that invalidated the read is the first to keep this promise, from the write until it has lowered
the validation index; a worker that validates the transaction keeps it from then on.

The promise is broken in two places, both in `finish_execution` (`Covers`): a transaction that
finishes without validation while the index has passed it, and a write to a new location by a
transaction that needs no validation, which lowers the index to `min_validation_idx` only. Neither
concerns a transaction that finished with validation (`no_stale_read`), and a run in which the two
places are harmless has no stale read of a lazy transaction either (`no_stale_lazy_read`).
-/

namespace Pevm

open Interleaving Scheduler MvMemory

variable {X R E : Type}

/-- Whether a worker has left. -/
def Pc.hasLeft : Pc X R E → Bool
  | .left => true
  | _ => false

theorem Pc.hasLeft_iff {pc : Pc X R E} : pc.hasLeft = true ↔ pc = .left := by
  cases pc <;> simp [Pc.hasLeft]

/-- The flags of the last finished incarnation of `i`. -/
def lastFinish (log : List Event) (i : Nat) : Option FinishExecFlags :=
  log.findSome? fun
    | .finished v flags => if v.txIdx = i then some flags else none
    | _ => none

/-- A worker at this program counter will find the recorded read `p` of `i` invalid, or will lower
the validation index to `i` or below. -/
def Pc.rechecks (i : Nat) (p : MemoryLocationHash × ReadOrigins) : Pc X R E → Prop
  | .nextTask (.checkStatus j) => j = i
  | .checkAbortReason (some (.validation v)) | .validate v .lock | .tryValidationAbort v _ =>
    v.txIdx = i
  | .validate v (.check rest) => v.txIdx = i ∧ p ∈ rest
  | .record v _ _ _ _ (.insert _ wroteNew) => v.txIdx < i ∧ wroteNew = true
  | .writeResult v flags _ => v.txIdx < i ∧ flags.wroteNewLocation = true
  | .finishExecution _ _ (.lowerToMin m) => m ≤ i
  | .finishExecution v flags .lock | .finishExecution v flags .lockDependents
  | .finishExecution v flags .drain | .finishExecution v flags (.lowerExecutionIdx _)
  | .finishExecution v flags .readMinValidationIdx | .finishExecution v flags .loadValidationIdx
  | .finishExecution v flags .lowerToNext => v.txIdx < i ∧ flags.wroteNewLocation = true
  | .convertWrites v _ | .finishValidation v .setReady | .finishValidation v .lowerValidationIdx =>
    v.txIdx < i
  | _ => False

/-- The invalid read `p` of `i` will be noticed. -/
def Pending (s : System X R E) (i : Nat) (p : MemoryLocationHash × ReadOrigins) : Prop :=
  (∃ w, (s.pc w).rechecks i p) ∨ s.scheduler.validationIdx ≤ i

/-- The validation index has yet to come to `i`, or the worker that took it there waits to test
the status. -/
def Revisited (s : System X R E) (i : Nat) : Prop :=
  (∃ w, s.pc w = .nextTask (.checkStatus i)) ∨ s.scheduler.validationIdx ≤ i

/-- Every invalid read of a finished transaction of kind `T` will be noticed. -/
def StaleCovered (T : Nat → FinishExecFlags → Prop) (s : System X R E) : Prop :=
  s.scheduler.aborted = false → ∀ i flags, i < s.scheduler.blockSize →
    lastFinish s.log i = some flags → T i flags →
    isExecutedOrValidated (s.scheduler.transactionsStatus i).status = true →
    ∀ p ∈ (s.mvMemory.lastLocations i).read,
      checkLocation s.mvMemory.data i p.1 p.2 = false → Pending s i p

/-- The two places of `finish_execution` at which the next step of worker `w` may leave an invalid
read of a transaction of kind `T` to nobody. -/
structure Covers (T : Nat → FinishExecFlags → Prop) (w : WorkerId) (s : System X R E) : Prop where
  settle : ∀ v flags pc, s.pc w = .finishExecution v flags pc →
    pc = .settle false ∨ (pc = .validateFrom ∧ flags.needValidation = false) → T v.txIdx flags →
    Revisited s v.txIdx ∨ validateReadLocations s.mvMemory v.txIdx = true
  lower : ∀ v flags, s.pc w = .finishExecution v flags .readMinValidationIdx →
    flags.needValidation = false → flags.wroteNewLocation = true →
    ∀ i flags', v.txIdx < i → i < s.scheduler.blockSize → i < s.scheduler.minValidationIdx →
      lastFinish s.log i = some flags' → T i flags' →
      isExecutedOrValidated (s.scheduler.transactionsStatus i).status = true →
      Revisited s i ∨ validateReadLocations s.mvMemory i = true

variable {cfg : Config X R E} {w : WorkerId} {s s' : System X R E}

theorem validateReadLocations_iff {m : MvMemory} {i : Nat} :
    validateReadLocations m i = true ↔
      ∀ p ∈ (m.lastLocations i).read, checkLocation m.data i p.1 p.2 = true := by
  simp only [validateReadLocations, List.all_eq_true]

theorem Revisited.pending {i : Nat} (h : Revisited s i) (p : MemoryLocationHash × ReadOrigins) :
    Pending s i p :=
  h.imp_left fun ⟨w, hw⟩ => ⟨w, by simp [hw, Pc.rechecks]⟩

/-- Who was to be revisited is at most handed over to a worker. -/
theorem Step.revisited (h : Step cfg w s s') {i : Nat} (hi : i < s.scheduler.blockSize)
    (hw : s.pc w ≠ .nextTask (.checkStatus i)) (hR : Revisited s i) : Revisited s' i := by
  rcases hR with hex | hle
  · exact h.exists_pc (Q := fun pc => pc = .nextTask (.checkStatus i)) hex fun hpc => absurd hpc hw
  · exact (h.validationIdx_le hle hi).elim .inr fun hpc => .inl ⟨w, hpc⟩

/-! ## The history and the read sets -/

/-- The last finished incarnation changes only by the status decision of `finish_execution`. -/
theorem Step.lastFinish (h : Step cfg w s s') (i : Nat) :
    lastFinish s'.log i = lastFinish s.log i ∨ ∃ v flags pc, v.txIdx = i ∧
      s.pc w = .finishExecution v flags pc ∧
      (pc = .settle false ∨ pc = .validateFrom) ∧ lastFinish s'.log i = some flags := by
  have hcons : ∀ v flags log, Pevm.lastFinish (.finished v flags :: log) i =
      if v.txIdx = i then some flags else Pevm.lastFinish log i := by
    intro v flags log
    simp only [Pevm.lastFinish, List.findSome?_cons]
    split_ifs <;> rfl
  rcases h with h | h | h | h | h <;> cases h
  case finishExecution.validateFrom v flags hpc hneed
    | finishExecution.fallThrough v flags hpc hneed =>
    by_cases hi : v.txIdx = i
    · exact .inr ⟨v, flags, _, hi, hpc, .inr rfl, (hcons v flags s.log).trans (if_pos hi)⟩
    · exact .inl ((hcons v flags s.log).trans (if_neg hi))
  case finishExecution.settleExecuted v flags again hpc hneed
    | finishExecution.settleValidated v flags again hpc hneed =>
    cases again with
    | true => exact .inl rfl
    | false =>
      by_cases hi : v.txIdx = i
      · exact .inr ⟨v, flags, _, hi, hpc, .inl rfl, (hcons v flags s.log).trans (if_pos hi)⟩
      · exact .inl ((hcons v flags s.log).trans (if_neg hi))
  all_goals exact .inl rfl

/-- The read set of a transaction that is not executing stays. -/
theorem Step.read_eq (hO : Ownership s.own) (h : Step cfg w s s') {i : Nat}
    (hx : (s.scheduler.transactionsStatus i).status ≠ .executing) :
    (s'.mvMemory.lastLocations i).read = (s.mvMemory.lastLocations i).read := by
  have hupdate : ∀ j last, s'.mvMemory.lastLocations = Function.update s.mvMemory.lastLocations j last →
      (j = i → last.read = (s.mvMemory.lastLocations i).read) →
      (s'.mvMemory.lastLocations i).read = (s.mvMemory.lastLocations i).read := by
    intro j last hl hread
    by_cases hj : i = j
    · rw [hl, hj, Function.update_self, hread hj.symm, hj]
    · rw [hl, Function.update_of_ne hj]
  cases h.memoryEffect with
  | none _ hl | insertOld _ _ _ _ hl | convert _ _ _ hl => rw [hl]
  | @lock v rs _ _ _ hpc _ hl =>
    refine hupdate _ _ hl fun hi => absurd ?_ hx
    have hexec := hO.executing w v (by simp [System.own, hpc, Pc.phase, Phase.execution])
    rw [← hi]
    exact congrArg TxStatus.status hexec
  | remove _ _ _ hl | insertNew _ _ _ _ hl => exact hupdate _ _ hl fun hi => by rw [hi]

/-! ## The promise is kept -/

/-- The worker that would notice an invalid read still would after its step, or has lowered the
validation index, unless it decided against it. -/
theorem Step.rechecks (hb : Bounds cfg s) (h : Step cfg w s s') {i : Nat}
    {p : MemoryLocationHash × ReadOrigins} (ha : s'.scheduler.aborted = false)
    (hn : i < s.scheduler.blockSize)
    (hx : isExecutedOrValidated (s.scheduler.transactionsStatus i).status = true)
    (hx' : isExecutedOrValidated (s'.scheduler.transactionsStatus i).status = true)
    (hp : p ∈ (s.mvMemory.lastLocations i).read)
    (hc : checkLocation s.mvMemory.data i p.1 p.2 = false) (hw : (s.pc w).rechecks i p) :
    (s'.pc w).rechecks i p ∨ s'.scheduler.validationIdx ≤ i ∨
      ∃ v flags, s.pc w = .finishExecution v flags .readMinValidationIdx ∧
        flags.needValidation = false ∧ flags.wroteNewLocation = true ∧ v.txIdx < i ∧
        i < s.scheduler.minValidationIdx := by
  obtain ⟨-, habort⟩ := h.abortReason_none hb ha
  rcases h with h | h | h | h | h <;> cases h
  -- the status test
  case nextTask.steal j hpc hh hs =>
    obtain rfl : j = i := by simpa [hpc, Pc.rechecks] using hw
    simp [hs, isExecutedOrValidated] at hx
  case nextTask.startValidation j hpc hh hs =>
    exact .inl (by simpa [hpc, Pc.rechecks, Scheduler.version] using hw)
  case nextTask.skipAborting j hpc hh hs | nextTask.skipExecuting j hpc hh hs =>
    obtain rfl : j = i := by simpa [hpc, Pc.rechecks] using hw
    simp [hs, isExecutedOrValidated] at hx
  -- the validation
  case validate.dispatchValidation v hpc hnone => exact .inl (by simpa [hpc, Pc.rechecks] using hw)
  case validate.quit task hpc hne => exact absurd habort hne
  case validate.lock v hpc hh =>
    obtain rfl : v.txIdx = i := by simpa [hpc, Pc.rechecks] using hw
    exact .inl (by simpa [Pc.rechecks] using hp)
  case validate.check v l os rest hpc hok =>
    obtain ⟨rfl, hmem⟩ : v.txIdx = i ∧ p ∈ (l, os) :: rest := by
      simpa only [hpc, Pc.rechecks] using hw
    rcases List.mem_cons.mp hmem with rfl | hrest
    · rw [hok] at hc
      cases hc
    · exact .inl (by simpa [Pc.rechecks] using hrest)
  case validate.valid v hpc => simp [hpc, Pc.rechecks] at hw
  case validate.invalid v l os rest hpc hbad =>
    have hi : v.txIdx = i := by
      rw [hpc] at hw
      exact hw.1
    exact .inl (by simpa [Pc.rechecks] using hi)
  case validate.abortLock v hpc hh => exact .inl (by simpa [hpc, Pc.rechecks] using hw)
  case validate.abortExecuted v hpc hs | validate.abortValidated v hpc hs =>
    obtain rfl : v.txIdx = i := by simpa [hpc, Pc.rechecks] using hw
    simp [setStatus, holdStatus, isExecutedOrValidated] at hx'
  case validate.abortFailed v hpc hs =>
    obtain rfl : v.txIdx = i := by simpa [hpc, Pc.rechecks] using hw
    rw [hs] at hx
    cases hx
  -- the abort of a lower transaction
  case validate.convertLock v hpc hh | validate.convert v l rest hpc | validate.converted v hpc
    | validate.setReady v hpc hh => exact .inl (by simpa [hpc, Pc.rechecks] using hw)
  case validate.lowerValidationIdx v hpc =>
    have hlt : v.txIdx < i := by simpa [hpc, Pc.rechecks] using hw
    exact .inr (.inl (le_trans (Nat.min_le_right _ _) hlt))
  -- the execution of a lower transaction that wrote a new location
  case execute.recordInsertNew hpc hl =>
    refine .inl ?_
    rw [hpc] at hw
    simpa [Pc.rechecks] using hw.1
  case execute.recordInsertOld hpc hl | execute.recordUnlock hpc | execute.writeResult hpc
    | finishExecution.lock hpc hh | finishExecution.lockDependents hpc hh
    | finishExecution.drain hpc hd hh | finishExecution.lowerExecutionIdx hpc
    | finishExecution.drained hpc hd | finishExecution.aboveMin hpc hneed hm hv
    | finishExecution.lowerMin hpc hneed hv | finishExecution.passedNew hpc hv hnew =>
    exact .inl (by simpa [hpc, Pc.rechecks] using hw)
  case finishExecution.belowMin v flags hpc hneed hm hv hnew =>
    rw [hpc] at hw
    by_cases hi : s.scheduler.minValidationIdx ≤ i
    · exact .inl (by simpa [Pc.rechecks] using hi)
    · exact .inr (.inr ⟨v, flags, hpc, hneed, hnew, hw.1, not_le.mp hi⟩)
  case finishExecution.nothingToValidate v flags hpc hneed hm =>
    rw [hpc] at hw
    by_cases hi : s.scheduler.minValidationIdx ≤ i
    · rcases hm with hm | ⟨-, hnew⟩
      · omega
      · simp [hw.2] at hnew
    · exact .inr (.inr ⟨v, flags, hpc, hneed, hw.2, hw.1, not_le.mp hi⟩)
  case finishExecution.lowerToMin v flags m hpc =>
    have hm : m ≤ i := by simpa [hpc, Pc.rechecks] using hw
    exact .inr (.inl (le_trans (Nat.min_le_right _ _) hm))
  case finishExecution.passed v flags hpc hv hnew =>
    rw [hpc] at hw
    simp [Pc.rechecks, hnew] at hw
  case finishExecution.notPassed v flags hpc hv =>
    rw [hpc] at hw
    exact .inr (.inl (le_trans hv hw.1.le))
  case finishExecution.lowerToNext v flags hpc =>
    rw [hpc] at hw
    exact .inr (.inl (le_trans (Nat.min_le_right _ _) hw.1))
  all_goals simp_all [Pc.rechecks]

/-- A transaction finishes by the status decision of `finish_execution`, which leaves the memory
alone. -/
theorem Step.finishes (hb : Bounds cfg s) (hO : Ownership s.own) (h : Step cfg w s s') {i : Nat}
    (hx : isExecutedOrValidated (s.scheduler.transactionsStatus i).status = false)
    (hx' : isExecutedOrValidated (s'.scheduler.transactionsStatus i).status = true) :
    ∃ v flags, v.txIdx = i ∧ Pevm.lastFinish s'.log i = some flags ∧ s'.mvMemory = s.mvMemory ∧
      ((s.pc w = .finishExecution v flags (.settle false) ∨
        (s.pc w = .finishExecution v flags .validateFrom ∧ flags.needValidation = false)) ∨
      s'.pc w = .checkAbortReason (some (.validation v))) := by
  have hlast : ∀ v flags, v.txIdx = i →
      Pevm.lastFinish ([.finished v flags] ++ s.log) i = some flags := by
    intro v flags hi
    simp [Pevm.lastFinish, hi]
  have hne : s'.scheduler.transactionsStatus i ≠ s.scheduler.transactionsStatus i := by
    intro heq
    rw [heq, hx] at hx'
    cases hx'
  obtain ⟨v, flags, pc, hi, hpc⟩ := (h.finished hb hO hx').resolve_left (by simp [hx])
  rcases h with h | h | h | h | h <;> cases h
  case finishExecution.validateFrom v' flags' hpc' hneed =>
    obtain ⟨rfl, rfl, -⟩ : v' = v ∧ flags' = flags ∧ _ := by simpa [hpc'] using hpc
    exact ⟨v', flags', hi, hlast v' flags' hi, rfl, .inr (Function.update_self ..)⟩
  case finishExecution.fallThrough v' flags' hpc' hneed =>
    obtain ⟨rfl, rfl, -⟩ : v' = v ∧ flags' = flags ∧ _ := by simpa [hpc'] using hpc
    exact ⟨v', flags', hi, hlast v' flags' hi, rfl, .inl (.inr ⟨hpc', hneed⟩)⟩
  case finishExecution.settleExecuted v' flags' again hpc' hneed
    | finishExecution.settleValidated v' flags' again hpc' hneed =>
    obtain ⟨rfl, rfl, -⟩ : v' = v ∧ flags' = flags ∧ _ := by simpa [hpc'] using hpc
    cases again with
    | false => exact ⟨v', flags', hi, hlast v' flags' hi, rfl, .inl (.inl hpc')⟩
    | true =>
      -- the status was already written
      have hst := hO.recounting w v' (by simp [System.own, hpc', Pc.phase])
      rw [hi, show s.own.status i = s.scheduler.transactionsStatus i from rfl] at hst
      simp [hst, isExecutedOrValidated] at hx
  case finishExecution.drain v' flags' d rest hpc' hd hh =>
    obtain ⟨rfl, rfl, -⟩ : v' = v ∧ flags' = flags ∧ _ := by simpa [hpc'] using hpc
    have hdep := (hO.dependent v'.txIdx d (by simp [System.own, hd])).2.1
    exact absurd (by simp [setReady, setDependents, ← hi, hdep.ne]) hne
  all_goals first | exact absurd rfl hne | simp_all

/-- **One step keeps the promise**, as long as it is covered. -/
theorem StaleCovered.step {T : Nat → FinishExecFlags → Prop} (hb : Bounds cfg s)
    (hO : Ownership s.own) (hW : Writes s) (hC : Covers T w s) (h : Step cfg w s s')
    (hS : StaleCovered T s) : StaleCovered T s' := by
  intro ha i flags hi hlast hT hx' p hp hc
  have ha₀ := (h.abortReason_none hb ha).1
  have hi₀ : i < s.scheduler.blockSize := h.blockSize_eq ▸ hi
  -- a read that is invalid now was not valid before if the memory is the same
  have hvalid : s'.mvMemory = s.mvMemory → ¬ validateReadLocations s.mvMemory i = true := by
    intro hm hok
    rw [hm] at hp hc
    rw [validateReadLocations_iff.mp hok p hp] at hc
    cases hc
  cases hx : isExecutedOrValidated (s.scheduler.transactionsStatus i).status with
  | false =>
    obtain ⟨v, flags', rfl, hlast', hm, hpc⟩ := h.finishes hb hO hx hx'
    obtain rfl : flags' = flags := Option.some.inj (hlast'.symm.trans hlast)
    rcases hpc with hpc | hpc
    · have hcov : Revisited s v.txIdx ∨ validateReadLocations s.mvMemory v.txIdx = true := by
        rcases hpc with hpc | ⟨hpc, hneed⟩
        · exact hC.settle v flags' _ hpc (.inl rfl) hT
        · exact hC.settle v flags' _ hpc (.inr ⟨rfl, hneed⟩) hT
      have hne : s.pc w ≠ .nextTask (.checkStatus v.txIdx) := by
        rcases hpc with hpc | ⟨hpc, -⟩ <;> simp [hpc]
      exact (h.revisited hi₀ hne (hcov.resolve_right (hvalid hm))).pending p
    · exact .inl ⟨w, by simp [hpc, Pc.rechecks]⟩
  | true =>
    have hexec : (s.scheduler.transactionsStatus i).status ≠ .executing := by
      intro hst
      rw [hst] at hx
      cases hx
    have hlast₀ : Pevm.lastFinish s.log i = some flags := by
      rcases h.lastFinish i with heq | ⟨v, flags', pc, hv, hpc, hor, -⟩
      · exact heq ▸ hlast
      · -- the transaction was still Executing at the status decision
        have htask : (s.own.phase w).execution = some v := by
          rcases hor with rfl | rfl <;> simp [System.own, hpc, Pc.phase, Phase.execution]
        exact absurd (congrArg TxStatus.status (hv ▸ hO.executing w v htask)) hexec
    rw [h.read_eq hO hexec] at hp
    cases hc₀ : checkLocation s.mvMemory.data i p.1 p.2 with
    | true =>
      obtain ⟨v, hv, ⟨_, _, _, _, _, hpc⟩ | ⟨rest, hpc⟩⟩ := h.invalidated hO hW hc₀ hc
      · exact .inl ⟨w, by simpa [hpc, Pc.rechecks] using hv⟩
      · exact .inl ⟨w, by simpa [hpc, Pc.rechecks] using hv⟩
    | false =>
      rcases hS ha₀ i flags hi₀ hlast₀ hT hx p hp hc₀ with hex | hle
      · have hstep := h.exists_pc (Q := fun pc => pc.rechecks i p) hex
          (h.rechecks hb ha hi₀ hx hx' hp hc₀)
        rcases hstep with hex' | hle | ⟨v, flags', hpc, hneed, hnew, hv, hmin⟩
        · exact .inl hex'
        · exact .inr hle
        · have hcov := hC.lower v flags' hpc hneed hnew i flags hv hi₀ hmin hlast₀ hT hx
          refine (h.revisited hi₀ (by simp [hpc]) (hcov.resolve_right fun hok => ?_)).pending p
          rw [validateReadLocations_iff.mp hok p hp] at hc₀
          cases hc₀
      · exact (h.validationIdx_le hle hi₀).elim .inr fun hpc =>
          .inl ⟨w, by simp [hpc, Pc.rechecks]⟩

theorem staleCovered_initial {T : Nat → FinishExecFlags → Prop} (h : initial cfg s) :
    StaleCovered T s := by
  obtain ⟨-, -, -, -, hlog⟩ := h
  intro _ i flags _ hlast
  simp [hlog, Pevm.lastFinish] at hlast

/-- When nothing is under way and the validation index is past the block, no promise is left, so
that no read of a covered transaction is invalid. -/
theorem StaleCovered.valid {T : Nat → FinishExecFlags → Prop} (hS : StaleCovered T s)
    (ha : s.scheduler.aborted = false) (hq : ∀ w, (s.pc w).quiescent = true)
    (hv : s.scheduler.blockSize ≤ s.scheduler.validationIdx) {i : Nat} {flags : FinishExecFlags}
    (hi : i < s.scheduler.blockSize) (hlast : lastFinish s.log i = some flags) (hT : T i flags)
    (hst : (s.scheduler.transactionsStatus i).status = .validated) :
    validateReadLocations s.mvMemory i = true := by
  refine validateReadLocations_iff.mpr fun p hp => ?_
  by_contra hc
  rcases hS ha i flags hi hlast hT (by rw [hst]; rfl) p hp (by simpa using hc) with ⟨w, hw⟩ | hle
  · have hw' := hq w
    unfold Pc.rechecks at hw
    split at hw <;> simp_all [Pc.quiescent]
  · omega

/-! ## Transactions that need validation -/

/-- The transaction whose index `finish_execution` has already taken into `min_validation_idx`. -/
def Pc.pastMin : Pc X R E → Option Nat
  | .finishExecution v flags .loadValidationIdx | .finishExecution v flags .lowerToNext
  | .finishExecution v flags .validateFrom | .finishExecution v flags (.settle _)
  | .finishExecution v flags (.lowerToMin _) =>
    if flags.needValidation then some v.txIdx else none
  | _ => none

/-- `min_validation_idx` is at most every transaction that finished with validation. -/
structure MinBelow (s : System X R E) : Prop where
  finished : ∀ i flags, lastFinish s.log i = some flags → flags.needValidation = true →
    s.scheduler.minValidationIdx ≤ i
  finishing : ∀ w i, (s.pc w).pastMin = some i → s.scheduler.minValidationIdx ≤ i

theorem Step.minValidationIdx_le (h : Step cfg w s s') :
    s'.scheduler.minValidationIdx ≤ s.scheduler.minValidationIdx := by
  rcases h with h | h | h | h | h <;> cases h
  case finishExecution.lowerMin => exact Nat.min_le_left _ _
  all_goals exact le_rfl

theorem Step.pastMin (h : Step cfg w s s') {i : Nat} (hi : (s'.pc w).pastMin = some i) :
    (s.pc w).pastMin = some i ∨ s'.scheduler.minValidationIdx ≤ i := by
  rcases h with h | h | h | h | h <;> cases h
  case finishExecution.lowerMin v flags hpc hneed hv =>
    obtain rfl : v.txIdx = i := by simpa [Pc.pastMin, hneed] using hi
    exact .inr (Nat.min_le_right _ _)
  all_goals simp_all [Pc.pastMin]

theorem MinBelow.step (h : Step cfg w s s') (hM : MinBelow s) : MinBelow s' where
  finished i flags hlast hneed := by
    refine le_trans h.minValidationIdx_le ?_
    rcases h.lastFinish i with heq | ⟨v, flags', pc, rfl, hpc, hor, hlast'⟩
    · exact hM.finished i flags (heq ▸ hlast) hneed
    · obtain rfl : flags' = flags := Option.some.inj (hlast'.symm.trans hlast)
      refine hM.finishing w v.txIdx ?_
      rcases hor with rfl | rfl <;> simp [hpc, Pc.pastMin, hneed]
  finishing w' i hi := by
    by_cases hw : w' = w
    · subst hw
      rcases h.pastMin hi with hi₀ | hle
      · exact le_trans h.minValidationIdx_le (hM.finishing w' i hi₀)
      · exact hle
    · rw [h.pc_of_ne hw] at hi
      exact le_trans h.minValidationIdx_le (hM.finishing w' i hi)

theorem minBelow_reachable (h : (workers cfg).Reachable s) : MinBelow s :=
  invariant_of_step
    (fun s hs => by
      obtain ⟨-, -, -, hpc, hlog⟩ := hs
      refine ⟨fun i flags hlast => ?_, fun w i hi => ?_⟩
      · simp [hlog, Pevm.lastFinish] at hlast
      · simp [hpc w, Pc.pastMin] at hi)
    (fun _ _ _ _ _ _ hstep hM => hM.step hstep) h

/-- A transaction that needs validation is covered by every step. -/
theorem covers_needValidation (h : (workers cfg).Reachable s) (w : WorkerId) :
    Covers (fun _ flags => flags.needValidation = true) w s where
  settle v flags pc hpc hor hneed := by
    rcases hor with rfl | ⟨-, hnot⟩
    · exact .inl ((progress_reachable h).settling w v flags hpc hneed)
    · rw [hneed] at hnot
      cases hnot
  lower v flags hpc hneed hnew i flags' hv hi hmin hlast hneed' hx :=
    absurd ((minBelow_reachable h).finished i flags' hlast hneed') (not_le.mpr hmin)

theorem staleCovered_reachable (h : (workers cfg).Reachable s) :
    StaleCovered (fun _ flags => flags.needValidation = true) s :=
  invariant_of_step (fun _ => staleCovered_initial)
    (fun w _ _ hb hs _ hstep hS => hS.step hb (ownership_reachable hs) (writes_reachable hs)
      (covers_needValidation hs w) hstep) h

/-- **No stale read survives for validated transactions.** In a reachable state that is not
aborted, with no worker holding a task or inside an operation and both indices past the block, the
recorded read set of every transaction whose last finished incarnation needed validation is
valid. -/
theorem no_stale_read (h : (workers cfg).Reachable s) (ha : s.scheduler.aborted = false)
    (hq : ∀ w, (s.pc w).quiescent = true)
    (he : s.scheduler.blockSize ≤ s.scheduler.executionIdx)
    (hv : s.scheduler.blockSize ≤ s.scheduler.validationIdx) {i : Nat}
    (hi : i < s.scheduler.blockSize) {flags : FinishExecFlags}
    (hlast : lastFinish s.log i = some flags) (hneed : flags.needValidation = true) :
    validateReadLocations s.mvMemory i = true :=
  (staleCovered_reachable h).valid ha hq hv hi hlast hneed (validated_of_past h ha hq he hv hi)

/-- The end of the sample block: transaction 1 was validated and its read of the counter's slot is
valid. -/
theorem no_stale_read_sample : ∃ s, (workers Sample.config).Reachable s ∧
    s.scheduler.aborted = false ∧ (∀ w, (s.pc w).quiescent = true) ∧
    (lastFinish s.log 1).map FinishExecFlags.needValidation = some true ∧
    validateReadLocations s.mvMemory 1 = true := by
  obtain ⟨s, hs, hp⟩ := Sample.exists_reachable Sample.config
    [(0, 33), (1, 5), (0, 46), (1, 22)]
    (fun s => !s.scheduler.aborted && (s.pc 0).quiescent && (s.pc 1).quiescent &&
      decide (s.scheduler.blockSize ≤ s.scheduler.executionIdx) &&
      decide (s.scheduler.blockSize ≤ s.scheduler.validationIdx) &&
      decide (1 < s.scheduler.blockSize) &&
      decide ((lastFinish s.log 1).map FinishExecFlags.needValidation = some true))
    (by decide +kernel)
  simp only [Bool.and_eq_true, Bool.not_eq_true', decide_eq_true_eq] at hp
  obtain ⟨⟨⟨⟨⟨⟨ha, h0⟩, h1⟩, he⟩, hv⟩, hn⟩, hneed⟩ := hp
  have hq := forall_pc_of_two hs le_rfl (Q := fun pc => pc.quiescent = true) h0 h1 rfl
  obtain ⟨flags, hlast, hflags⟩ := Option.map_eq_some_iff.mp hneed
  exact ⟨s, hs, ha, hq, hneed, no_stale_read hs ha hq he hv hn hlast hflags⟩

/-! ## Lazy transactions -/

/-- The next step of worker `w` does not leave a lazy transaction with an invalid read to nobody.
At its status decision a lazy transaction is yet to be revisited or its reads are valid, and when
a transaction without validation wrote a new location, so is every finished transaction above it
that `min_validation_idx` does not reach. -/
structure LazyCovered (w : WorkerId) (s : System X R E) : Prop where
  settle : ∀ v flags pc, s.pc w = .finishExecution v flags pc →
    pc = .settle false ∨ pc = .validateFrom → flags.needValidation = false → 0 < v.txIdx →
    Revisited s v.txIdx ∨ validateReadLocations s.mvMemory v.txIdx = true
  lower : ∀ v flags, s.pc w = .finishExecution v flags .readMinValidationIdx →
    flags.needValidation = false → flags.wroteNewLocation = true →
    ∀ i, v.txIdx < i → i < s.scheduler.blockSize → i < s.scheduler.minValidationIdx →
      isExecutedOrValidated (s.scheduler.transactionsStatus i).status = true →
      Revisited s i ∨ validateReadLocations s.mvMemory i = true

theorem LazyCovered.covers (h : LazyCovered w s) :
    Covers (fun i flags => 0 < i ∧ flags.needValidation = false) w s where
  settle v flags pc hpc hor hT := h.settle v flags pc hpc (hor.imp_right And.left) hT.2 hT.1
  lower v flags hpc hneed hnew i _ hv hi hmin _ _ hx := h.lower v flags hpc hneed hnew i hv hi hmin hx

/-- **No stale read of a lazy transaction survives a covered run.** When all workers have left
without an abort, in a run whose steps are all covered, the read set of every transaction whose
last incarnation finished lazily is valid against the final multi-version memory. -/
theorem no_stale_lazy_read (h : (workers cfg).ReachableVia LazyCovered s)
    (ha : s.scheduler.aborted = false) (hlevel : 0 < cfg.concurrencyLevel)
    (hleft : ∀ w, w < cfg.concurrencyLevel → s.pc w = .left) {i : Nat} (hpos : 0 < i)
    (hi : i < s.scheduler.blockSize) {flags : FinishExecFlags}
    (hlast : lastFinish s.log i = some flags) (hneed : flags.needValidation = false) :
    validateReadLocations s.mvMemory i = true := by
  have hS : StaleCovered (fun i flags => 0 < i ∧ flags.needValidation = false) s :=
    invariant_of_step (fun _ => staleCovered_initial)
      (fun w _ _ hb hs hC hstep hS => hS.step hb (ownership_reachable hs.reachable)
        (writes_reachable hs.reachable) hC.covers hstep) h
  obtain ⟨hq, he, hv⟩ := past_of_left h.reachable ha hlevel hleft
  exact hS.valid ha hq hv hi hlast ⟨hpos, hneed⟩ (validated_of_past h.reachable ha hq he hv hi)

/-- A sufficient test of `LazyCovered` that can be evaluated. -/
def lazyCovered (w : WorkerId) (s : System X R E) : Bool :=
  match s.pc w with
  | .finishExecution v flags (.settle false) | .finishExecution v flags .validateFrom =>
    flags.needValidation || v.txIdx == 0 || decide (s.scheduler.validationIdx ≤ v.txIdx) ||
      validateReadLocations s.mvMemory v.txIdx
  | .finishExecution v flags .readMinValidationIdx =>
    flags.needValidation || !flags.wroteNewLocation ||
      (List.range s.scheduler.blockSize).all fun i =>
        decide (i ≤ v.txIdx) || decide (s.scheduler.minValidationIdx ≤ i) ||
          !isExecutedOrValidated (s.scheduler.transactionsStatus i).status ||
          decide (s.scheduler.validationIdx ≤ i) || validateReadLocations s.mvMemory i
  | _ => true

theorem lazyCovered_sound (h : lazyCovered w s = true) : LazyCovered w s where
  settle v flags pc hpc hor hneed hpos := by
    have hne : ¬ v.txIdx = 0 := by omega
    rcases hor with rfl | rfl <;> simp only [lazyCovered, hpc, hneed] at h
    all_goals
      have h' : s.scheduler.validationIdx ≤ v.txIdx ∨
          validateReadLocations s.mvMemory v.txIdx = true := by simpa [hne] using h
      exact h'.imp_left .inr
  lower v flags hpc hneed hnew i hv hi hmin hx := by
    simp only [lazyCovered, hpc, hneed, hnew, Bool.false_or, Bool.not_true, List.all_eq_true,
      List.mem_range] at h
    have h' : s.scheduler.validationIdx ≤ i ∨ validateReadLocations s.mvMemory i = true := by
      simpa [hx, not_le.mpr hv, not_le.mpr hmin] using h i hi
    exact h'.imp_left .inr

theorem left_of_two (h0 : (s.pc 0).hasLeft = true) (h1 : (s.pc 1).hasLeft = true) :
    ∀ w, w < 2 → s.pc w = .left
  | 0, _ => Pc.hasLeft_iff.mp h0
  | 1, _ => Pc.hasLeft_iff.mp h1
  | w + 2, hw => absurd hw (not_lt.mpr (Nat.le_add_left 2 w))

/-- The sample block, executed by one worker: transaction 2 finished lazily and its read of the
recipient's code hash is valid. -/
theorem no_stale_lazy_read_sample : ∃ s, (workers Sample.config).ReachableVia LazyCovered s ∧
    s.scheduler.aborted = false ∧ (∀ w, w < 2 → s.pc w = .left) ∧
    (lastFinish s.log 2).map FinishExecFlags.needValidation = some false ∧
    validateReadLocations s.mvMemory 2 = true := by
  obtain ⟨s, hs, hp⟩ := Sample.exists_reachableVia Sample.config lazyCovered
    [(0, 109), (1, 5)]
    (fun s => !s.scheduler.aborted && (s.pc 0).hasLeft && (s.pc 1).hasLeft &&
      decide (2 < s.scheduler.blockSize) &&
      decide ((lastFinish s.log 2).map FinishExecFlags.needValidation = some false))
    (by decide +kernel)
  simp only [Bool.and_eq_true, Bool.not_eq_true', decide_eq_true_eq] at hp
  obtain ⟨⟨⟨⟨ha, h0⟩, h1⟩, hn⟩, hneed⟩ := hp
  have hs' := hs.mono fun _ _ => lazyCovered_sound
  have hleft := left_of_two h0 h1
  obtain ⟨flags, hlast, hflags⟩ := Option.map_eq_some_iff.mp hneed
  exact ⟨s, hs', ha, hleft, hneed,
    no_stale_lazy_read hs' ha (by decide) hleft (by decide) hn hlast hflags⟩

namespace Sample

/-- The run of a creation that deploys the counter's code at `target`. -/
def deployCounter (caller target : Address) : EvmProgram :=
  .basic caller fun sender => .basic target fun _ =>
    .finish ⟨true, 55000, []⟩
      [(caller, touched { orEmpty sender with nonce := (orEmpty sender).nonce + 1 } []),
        (target, touched ⟨0, 1, 7, some counterCode⟩ [])]

/-- A block of three: a transfer, a creation that deploys code at address 5, and a transfer from
the beneficiary to that address. -/
def deployVm : Vm TxEnv :=
  { vm with
    txs := fun
      | 0 => tx 1 2 0
      | 1 => { tx 2 0 0 with kind := .create }
      | _ => tx beneficiary 5 1
    evm := fun tx =>
      match tx.kind with
      | .create => deployCounter tx.caller 5
      | .call recipient => transfer tx.caller recipient tx.value }

end Sample

/-- Worker 1 has executed the lazy transaction 2 up to `record` when worker 0 executes the creation,
which lowers the validation index to 2 and is validated. The index passes transaction 2 while it is
Executing, so that it is marked Validated without a validation: the code hash it read is stale when
both workers have left. -/
theorem stale_lazy_read : ∃ s, (workers (Sample.deployVm.config 2)).Reachable s ∧
    s.scheduler.aborted = false ∧ (∀ w, w < 2 → s.pc w = .left) ∧ 2 < s.scheduler.blockSize ∧
    (lastFinish s.log 2).map FinishExecFlags.needValidation = some false ∧
    validateReadLocations s.mvMemory 2 = false := by
  obtain ⟨s, hs, hp⟩ := Sample.exists_reachable (Sample.deployVm.config 2)
    [(0, 33), (1, 13), (0, 43), (1, 20)]
    (fun s => !s.scheduler.aborted && (s.pc 0).hasLeft && (s.pc 1).hasLeft &&
      decide (2 < s.scheduler.blockSize) &&
      decide ((lastFinish s.log 2).map FinishExecFlags.needValidation = some false) &&
      !validateReadLocations s.mvMemory 2)
    (by decide +kernel)
  simp only [Bool.and_eq_true, Bool.not_eq_true', decide_eq_true_eq] at hp
  obtain ⟨⟨⟨⟨⟨ha, h0⟩, h1⟩, hn⟩, hneed⟩, hstale⟩ := hp
  exact ⟨s, hs, ha, left_of_two h0 h1, hn, hneed, hstale⟩

end Pevm
