import Pevm.Lib.Ranking
import Pevm.Proofs.Locks
import Pevm.Proofs.Reads
import Pevm.Proofs.Recorded
import Mathlib.SetTheory.Ordinal.Rank

/-!
# The end of a run

When no worker can step the run is over: all workers have left the loop (`left_of_stuck`). A worker
waits for a status, whose holder waits for a higher one if at all (`WaitsFor.rank_lt`), or for the
`last_locations` of a transaction, which are only held inside critical sections that wait for
nothing (`LastHeld`).

After an abort the workers do get there (`ends_of_aborted`): once the abort reason is set no worker
starts another task, and what it still has to do is bounded.

* **`Pc.stage`** orders the program counters a worker can still come to, highest first.
* **`remaining`** counts what is left of a loop: the locations of `record`, the dependents that are
  drained, the read set that is validated, the steps of an execution.
* A step lowers the pair of its worker and leaves those of the others, since what they count is
  held by them (`ranked_aborted`).
-/

namespace Pevm

open Interleaving Scheduler MvMemory

variable {X R E : Type} {cfg : Config X R E} {w w' : WorkerId} {s s' : System X R E}

/-! ## Stuck states -/

/-- The transaction whose last locations are locked at this program counter. -/
def Pc.lastHeld : Pc X R E → Option Nat
  | .record v _ _ _ _ (.remove _) | .record v _ _ _ _ (.insert _ _) => some v.txIdx
  | .validate v (.check _) | .convertWrites v (.convert _) => some v.txIdx
  | _ => none

/-- A mutex of `last_locations` is held by the worker in its critical section. -/
def LastHeld (s : System X R E) : Prop :=
  ∀ i w, s.mvMemory.lastLocationsHolder i = some w ↔ (s.pc w).lastHeld = some i

/-- What a step does to the mutexes of `last_locations`. -/
theorem Step.lastHeld (h : Step cfg w s s') :
    (s'.mvMemory.lastLocationsHolder = s.mvMemory.lastLocationsHolder ∧
      (s'.pc w).lastHeld = (s.pc w).lastHeld) ∨
    (∃ i, s.mvMemory.lastLocationsHolder i = none ∧ (s.pc w).lastHeld = none ∧
      s'.mvMemory.lastLocationsHolder =
        Function.update s.mvMemory.lastLocationsHolder i (some w) ∧
      (s'.pc w).lastHeld = some i) ∨
    ∃ i, (s.pc w).lastHeld = some i ∧ (s'.pc w).lastHeld = none ∧
      s'.mvMemory.lastLocationsHolder = Function.update s.mvMemory.lastLocationsHolder i none := by
  rcases h with h | h | h | h | h <;> cases h
  case execute.recordLock v rs ws need r hpc hh =>
    exact .inr (.inl ⟨v.txIdx, hh, by rw [hpc]; rfl, rfl, by simp [Pc.lastHeld]⟩)
  case validate.lock v hpc hh =>
    exact .inr (.inl ⟨v.txIdx, hh, by rw [hpc]; rfl, rfl, by simp [Pc.lastHeld]⟩)
  case validate.convertLock v hpc hh =>
    exact .inr (.inl ⟨v.txIdx, hh, by rw [hpc]; rfl, rfl, by simp [Pc.lastHeld]⟩)
  case execute.recordUnlock v rs ws need new r hpc =>
    exact .inr (.inr ⟨v.txIdx, by rw [hpc]; rfl, by simp [Pc.lastHeld], rfl⟩)
  case validate.valid v hpc =>
    exact .inr (.inr ⟨v.txIdx, by rw [hpc]; rfl, by simp [Pc.lastHeld], rfl⟩)
  case validate.invalid v l os rest hpc hc =>
    exact .inr (.inr ⟨v.txIdx, by rw [hpc]; rfl, by simp [Pc.lastHeld], rfl⟩)
  case validate.converted v hpc =>
    exact .inr (.inr ⟨v.txIdx, by rw [hpc]; rfl, by simp [Pc.lastHeld], rfl⟩)
  case execute.addNewBytecode v x x' hash code hpc hx =>
    refine .inl ⟨?_, by simp [hpc, Pc.lastHeld]⟩
    show (s.mvMemory.addNewBytecode hash code).lastLocationsHolder = _
    unfold addNewBytecode
    split <;> rfl
  all_goals refine .inl ⟨rfl, ?_⟩
  all_goals simp_all [Pc.lastHeld]

theorem LastHeld.step (h : Step cfg w s s') (hL : LastHeld s) : LastHeld s' := by
  intro i w'
  by_cases hw : w' = w
  · subst hw
    rcases h.lastHeld with ⟨hholder, hpc⟩ | ⟨j, hfree, hpc, hholder, hpc'⟩ | ⟨j, hpc, hpc', hholder⟩
    · rw [hholder, hpc]
      exact hL i w'
    · rw [hholder, hpc']
      by_cases hi : i = j
      · subst hi
        simp
      · have hnot : s.mvMemory.lastLocationsHolder i ≠ some w' := by
          rw [ne_eq, hL i w', hpc]
          nofun
        simp [hi, hnot, Ne.symm hi]
    · rw [hholder, hpc']
      by_cases hi : i = j
      · subst hi
        simp
      · have hnot : s.mvMemory.lastLocationsHolder i ≠ some w' := by
          rw [ne_eq, hL i w', hpc]
          exact fun heq => hi (Option.some.inj heq).symm
        simp [hi, hnot]
  · rw [h.pc_of_ne hw]
    have hold := hL i w'
    rcases h.lastHeld with ⟨hholder, -⟩ | ⟨j, hfree, -, hholder, -⟩ | ⟨j, hpc, -, hholder⟩
    · rw [hholder]
      exact hold
    · rw [hholder]
      by_cases hi : i = j
      · subst hi
        rw [hfree] at hold
        simp [Ne.symm hw, ← hold]
      · rw [Function.update_of_ne hi]
        exact hold
    · rw [hholder]
      by_cases hi : i = j
      · subst hi
        rw [(hL i w).mpr hpc] at hold
        simp [← hold, Ne.symm hw]
      · rw [Function.update_of_ne hi]
        exact hold

theorem lastHeld_reachable (h : (workers cfg).Reachable s) : LastHeld s :=
  invariant_of_step
    (fun s hs i w => by
      obtain ⟨-, hm, -, hpc, -⟩ := hs
      rw [hm, hpc]
      simp [MvMemory.new, Pc.lastHeld])
    (fun _ _ _ _ _ _ hstep hL => hL.step hstep) h

/-- A critical section of `last_locations` waits for nothing. -/
theorem steps_of_lastHeld {i : Nat} (h : (s.pc w).lastHeld = some i) : workerStep cfg w s ≠ none := by
  rw [ne_eq, blocked_iff]
  unfold Pc.lastHeld at h
  split at h <;> simp_all [WaitsFor, System.wants, System.wantsLastLocations]

/-- A worker that holds a mutex is one of the spawned workers and has not left. -/
theorem holder_spawned (h : (workers cfg).Reachable s) {m : Mutex}
    (hholder : s.scheduler.holder m = some w) : w < cfg.concurrencyLevel ∧ s.pc w ≠ .left := by
  have hO := ownership_reachable h
  have hphase : (s.pc w).phase ≠ .idle := by
    intro hidle
    cases m with
    | status i =>
      have hmem := (hO.statusHeld i w).mp hholder
      rw [show s.own.phase w = .idle from hidle] at hmem
      cases hmem
    | dependents i =>
      have hmem := (hO.dependentsHeld i w).mp hholder
      rw [show s.own.phase w = .idle from hidle] at hmem
      cases hmem
  refine ⟨?_, fun hleft => hphase (by rw [hleft]; rfl)⟩
  by_contra hge
  exact hphase (by rw [pc_of_le h (not_lt.mp hge)]; rfl)

/-- **No state is stuck before the end.** When no worker can step, every worker has left. -/
theorem left_of_stuck (h : (workers cfg).Reachable s)
    (hstuck : ∀ w, (workers cfg).step w s = none) : ∀ w, w < cfg.concurrencyLevel → s.pc w = .left := by
  have hblocked : ∀ w, w < cfg.concurrencyLevel → workerStep cfg w s = none := by
    intro w hw
    have hnone := hstuck w
    simpa [workers, hw] using hnone
  -- a worker that has not left waits for another spawned worker that has not left
  have hwaits : ∀ w, w < cfg.concurrencyLevel → s.pc w ≠ .left → ∃ w', WaitsFor s w w' := by
    intro w hw hne
    rcases blocked_iff.mp (hblocked w hw) with hleft | hwaits | ⟨i, w', -, hholder⟩
    · exact absurd hleft hne
    · exact hwaits
    · have hheld := (lastHeld_reachable h i w').mp hholder
      have hw' : w' < cfg.concurrencyLevel := by
        by_contra hge
        rw [pc_of_le h (not_lt.mp hge)] at hheld
        cases hheld
      exact absurd (hblocked w' hw') (steps_of_lastHeld hheld)
  by_contra hnot
  push Not at hnot
  obtain ⟨w, hw, hne⟩ := hnot
  -- of the workers that have not left, one that waits for the highest status
  have : Nonempty { a : Fin cfg.concurrencyLevel // s.pc a ≠ .left } := ⟨⟨w, hw⟩, hne⟩
  obtain ⟨⟨a, ha⟩, hmax⟩ := Finite.exists_max
    fun a : { a : Fin cfg.concurrencyLevel // s.pc a ≠ .left } => rank (s.wants a)
  obtain ⟨w', hwait⟩ := hwaits a a.isLt ha
  have ⟨m, hm, hholder⟩ := hwait
  obtain ⟨hlt, hne'⟩ := holder_spawned h hholder
  exact absurd (hmax ⟨⟨w', hlt⟩, hne'⟩)
    (not_le.mpr (hwait.rank_lt (bounds_reachable h) (ownership_reachable h)))

/-- **The workers cannot get stuck.** As long as one of them has not left the loop, one of them can
step. -/
theorem no_stuck_state (h : (workers cfg).Reachable s) (hw : w < cfg.concurrencyLevel)
    (hne : s.pc w ≠ .left) : ∃ w', (workers cfg).step w' s ≠ none := by
  by_contra hnot
  push Not at hnot
  exact hne (left_of_stuck h hnot w hw)

/-- Worker 1 fetched transaction 2 for validation and waits for its status, which worker 0 holds to
finish its execution. -/
theorem no_stuck_state_sample : ∃ s, (workers Sample.config).Reachable s ∧
    (workers Sample.config).step 1 s = none ∧ ∃ w, (workers Sample.config).step w s ≠ none := by
  obtain ⟨s, hs, hp⟩ := Sample.exists_reachable Sample.config [(0, 5), (1, 5), (0, 43), (1, 39)]
    (fun s => ((workers Sample.config).step 1 s).isNone && !(s.pc 1).hasLeft) (by decide +kernel)
  simp only [Bool.and_eq_true, Option.isNone_iff_eq_none, Bool.not_eq_true'] at hp
  have hne : s.pc 1 ≠ .left := by
    intro hleft
    rw [hleft] at hp
    cases hp.2
  exact ⟨s, hs, hp.1, no_stuck_state hs (w := 1) (by decide) hne⟩

/-! ## Executions end -/

/-- The local state an execution goes on with. -/
def ExecStep.next : ExecStep X R E → Option X
  | .run x | .addNewBytecode _ _ x | .addLazyAddresses _ x => some x
  | .record _ _ _ _ | .error _ => none

/-- `x'` follows `x` in an execution of version `v` when the memory is the right one. -/
def Executor.Follows (executor : Executor X R E) (v : TxVersion) (x' x : X) : Prop :=
  ∃ m, (executor.step v m x).next = some x'

/-- An execution ends, whatever the other workers do to the memory meanwhile. -/
def Executor.Ends (executor : Executor X R E) : Prop :=
  ∀ v, WellFounded (executor.Follows v)

/-! ## What is left of a task -/

/-- The program counters a worker comes to before the next task, highest first. -/
def Pc.stage : Pc X R E → Nat
  | .nextTask .loadExecutionIdx => 20
  | .nextTask (.loadValidationIdx _) => 19
  | .nextTask .takeValidationIdx => 18
  | .nextTask (.checkStatus _) => 17
  | .nextTask .takeExecutionIdx => 16
  | .nextTask (.tryExecute _) => 15
  | .execute _ _ => 14
  | .record _ _ _ _ _ .lock => 13
  | .record _ _ _ _ _ (.remove _) => 12
  | .record _ _ _ _ _ (.insert _ _) => 11
  | .writeResult _ _ _ => 10
  | .validate _ .lock => 11
  | .validate _ (.check _) => 10
  | .tryValidationAbort _ .lock => 9
  | .tryValidationAbort _ .abort => 8
  | .convertWrites _ .lock => 7
  | .convertWrites _ (.convert _) => 6
  | .finishExecution _ _ .lock => 9
  | .finishExecution _ _ .lockDependents => 8
  | .finishExecution _ _ .drain | .finishExecution _ _ (.lowerExecutionIdx _) => 7
  | .finishExecution _ _ .readMinValidationIdx => 6
  | .finishExecution _ _ .loadValidationIdx => 5
  | .finishExecution _ _ .lowerToNext => 4
  | .finishExecution _ _ (.lowerToMin _) | .finishExecution _ _ .validateFrom => 3
  | .finishExecution _ _ (.settle _) => 2
  | .finishValidation _ .setReady => 5
  | .finishValidation _ .lowerValidationIdx => 4
  | .finishValidation _ .loadExecutionIdx | .finishValidation _ .lock => 3
  | .finishValidation _ .tryExecute | .finishValidation _ .validate => 2
  | .addDependency _ _ .lockBlocking => 4
  | .addDependency _ _ .lockTx => 3
  | .addDependency _ _ .push => 2
  | .abort _ _ => 3
  | .retry _ | .setAbortReason _ => 2
  | .nextTask .loadNumValidated => 3
  | .nextTask (.loadMinValidationIdx _) => 2
  | .nextTask .loop | .checkAbortReason _ => 1
  | .left => 0

section Remaining

variable (hE : cfg.executor.Ends)

/-- What is left of the loop at this program counter. -/
noncomputable def remaining (s : System X R E) : Pc X R E → Ordinal.{0}
  | .execute v x => ((hE v).apply x).rank
  | .record v _ _ _ _ (.remove k) => ((s.mvMemory.lastLocations v.txIdx).write.length - k : Nat)
  | .record _ _ _ _ _ (.insert rest _) => rest.length
  | .validate _ (.check rest) => rest.length
  | .convertWrites _ (.convert rest) => rest.length
  | .finishExecution v _ .drain => (2 * (s.scheduler.transactionsDependents v.txIdx).length : Nat)
  | .finishExecution v _ (.lowerExecutionIdx _) =>
    (2 * (s.scheduler.transactionsDependents v.txIdx).length + 1 : Nat)
  | _ => 0

/-- What is left of the task of a worker, the stages before the loop inside one. -/
noncomputable def taskRank (w : WorkerId) (s : System X R E) : ℕ ×ₗ Ordinal.{0} :=
  toLex ((s.pc w).stage, remaining hE s (s.pc w))

theorem taskRank_lt_of_stage (h : (s'.pc w).stage < (s.pc w).stage) :
    taskRank hE w s' < taskRank hE w s :=
  Prod.Lex.toLex_lt_toLex.mpr (.inl h)

theorem taskRank_lt_of_remaining (hstage : (s'.pc w).stage = (s.pc w).stage)
    (h : remaining hE s' (s'.pc w) < remaining hE s (s.pc w)) :
    taskRank hE w s' < taskRank hE w s :=
  Prod.Lex.toLex_lt_toLex.mpr (.inr ⟨hstage, h⟩)

/-- **After an abort every step brings its worker closer to the end.** -/
theorem Step.taskRank_lt (hb : Bounds cfg s) (h : Step cfg w s s') (ha : s.abortReason ≠ none) :
    taskRank hE w s' < taskRank hE w s := by
  have haborted := hb.aborted ha
  rcases h with h | h | h | h | h <;> cases h
  -- these start another round, an attempt or a task, which they do not once the reason is set
  case nextTask.loop hpc ha' => simp [haborted] at ha'
  case execute.retryAgain v hpc ha' => exact absurd ha' ha
  case validate.askNext hpc ha' => exact absurd ha' ha
  case validate.dispatchExecution v hpc ha' => exact absurd ha' ha
  case validate.dispatchValidation v hpc ha' => exact absurd ha' ha
  -- these stay in their loop
  case execute.run v x x' hpc hx =>
    refine taskRank_lt_of_remaining hE (by simp [hpc, Pc.stage]) ?_
    simpa [hpc, remaining] using ((hE v).apply x).rank_lt_of_rel ⟨s.mvMemory, by rw [hx]; rfl⟩
  case execute.addNewBytecode v x x' hash code hpc hx =>
    refine taskRank_lt_of_remaining hE (by simp [hpc, Pc.stage]) ?_
    simpa [hpc, remaining] using ((hE v).apply x).rank_lt_of_rel ⟨s.mvMemory, by rw [hx]; rfl⟩
  case execute.addLazyAddresses v x x' addresses hpc hx =>
    refine taskRank_lt_of_remaining hE (by simp [hpc, Pc.stage]) ?_
    simpa [hpc, remaining] using ((hE v).apply x).rank_lt_of_rel ⟨s.mvMemory, by rw [hx]; rfl⟩
  case execute.recordRemove v rs ws need r k l hpc hk hl =>
    refine taskRank_lt_of_remaining hE (by simp [hpc, Pc.stage]) ?_
    have hlen := (swapRemove_perm hk).length_eq
    have hlt := (List.getElem?_eq_some_iff.mp hk).1
    simp only [System.goto_pc, System.goto_mvMemory, System.withMemory_mvMemory, setLastLocations,
      Function.update_self, hpc, remaining, Nat.cast_lt]
    -- the last location moves to the position of the removed one, which is looked at again
    rw [List.length_cons] at hlen
    omega
  case execute.recordKeep v rs ws need r k l hpc hk hl =>
    refine taskRank_lt_of_remaining hE (by simp [hpc, Pc.stage]) ?_
    have hlt := (List.getElem?_eq_some_iff.mp hk).1
    simp only [System.goto_pc, Function.update_self, hpc, remaining, Nat.cast_lt,
      System.goto_mvMemory]
    omega
  case execute.recordInsertOld v rs ws rest need new r l value hpc hl =>
    exact taskRank_lt_of_remaining hE (by simp [hpc, Pc.stage]) (by simp [hpc, remaining])
  case execute.recordInsertNew v rs ws rest need new r l value hpc hl =>
    exact taskRank_lt_of_remaining hE (by simp [hpc, Pc.stage]) (by simp [hpc, remaining])
  case finishExecution.drain v flags d rest hpc hd hh =>
    refine taskRank_lt_of_remaining hE (by simp [hpc, Pc.stage]) ?_
    simp only [System.goto_pc, System.goto_scheduler, System.withScheduler_scheduler, setReady,
      setDependents, Function.update_self, hpc, hd, remaining, Nat.cast_lt, List.length_cons]
    omega
  case finishExecution.lowerExecutionIdx v flags d hpc =>
    refine taskRank_lt_of_remaining hE (by simp [hpc, Pc.stage]) ?_
    simp only [System.goto_pc, Function.update_self, hpc, remaining, Nat.cast_lt]
    show 2 * (s.scheduler.transactionsDependents v.txIdx).length < _
    omega
  case validate.check v l os rest hpc hc =>
    exact taskRank_lt_of_remaining hE (by simp [hpc, Pc.stage]) (by simp [hpc, remaining])
  case validate.convert v l rest hpc =>
    exact taskRank_lt_of_remaining hE (by simp [hpc, Pc.stage]) (by simp [hpc, remaining])
  all_goals exact taskRank_lt_of_stage hE (by simp [*, Pc.stage])

/-- The dependents of a transaction are only changed under their mutex. -/
theorem Step.dependents_untouched (hO : Ownership s.own) (h : Step cfg w s s') {i : Nat}
    (hi : s.scheduler.dependentsHolder i = some w') (hw : w' ≠ w) :
    s'.scheduler.transactionsDependents i = s.scheduler.transactionsDependents i := by
  rcases h with h | h | h | h | h <;> cases h
  case finishExecution.drain v flags d rest hpc hd hh =>
    have hheld : s.scheduler.dependentsHolder v.txIdx = some w :=
      (hO.dependentsHeld v.txIdx w).mpr (by simp [System.own, hpc, Pc.phase, Phase.dependents])
    have hne : i ≠ v.txIdx := by
      rintro rfl
      exact hw (Option.some.inj (hi.symm.trans hheld))
    simp [setReady, setDependents, hne]
  case addDependency.push v b hpc hh =>
    have hne : i ≠ b := by
      rintro rfl
      cases hi.symm.trans hh
    simp [holdStatus, setDependents, hne]
  all_goals rfl

/-- **No step of another worker adds to what is left of a task.** -/
theorem Step.taskRank_of_ne (hO : Ownership s.own) (h : Step cfg w s s') (hw : w' ≠ w) :
    taskRank hE w' s' = taskRank hE w' s := by
  have hpc' := h.pc_of_ne hw
  have hremaining : remaining hE s' (s.pc w') = remaining hE s (s.pc w') := by
    cases hpc : s.pc w' with
    | record v rs ws need r pc =>
      cases pc with
      | remove k =>
        have hv : (s.pc w').storing = some v := by rw [hpc]; rfl
        simp only [remaining, (h.memory_untouched (not_touches_of_storing hO hw hv)).2]
      | lock | insert rest new => rfl
    | finishExecution v flags pc =>
      have hheld : ∀ {pc}, s.pc w' = .finishExecution v flags pc → pc = .drain ∨
          (∃ d, pc = .lowerExecutionIdx d) → s.scheduler.dependentsHolder v.txIdx = some w' := by
        rintro pc hpc (rfl | ⟨d, rfl⟩) <;>
        exact (hO.dependentsHeld v.txIdx w').mpr
          (by simp [System.own, hpc, Pc.phase, Phase.dependents])
      cases pc with
      | drain =>
        simp only [remaining, h.dependents_untouched hO (hheld hpc (.inl rfl)) hw]
      | lowerExecutionIdx d =>
        simp only [remaining, h.dependents_untouched hO (hheld hpc (.inr ⟨d, rfl⟩)) hw]
      | _ => rfl
    | validate v pc => cases pc <;> rfl
    | convertWrites v pc => cases pc <;> rfl
    | _ => rfl
  unfold taskRank
  rw [hpc', hremaining]

/-- The abort reason is set once. -/
theorem Step.abortReason_eq (h : Step cfg w s s') (ha : s.abortReason ≠ none) :
    s'.abortReason = s.abortReason := by
  rcases h with h | h | h | h | h <;> cases h
  case execute.setAbortReason reason hpc =>
    obtain ⟨r, hr⟩ := Option.ne_none_iff_exists'.mp ha
    show some (s.abortReason.getD reason) = s.abortReason
    rw [hr]
    rfl
  all_goals rfl

/-- After an abort the workers are ranked by what is left of their tasks. -/
theorem ranked_aborted {reason : AbortReason E} : (workers cfg).Ranked cfg.concurrencyLevel
    (fun s => (workers cfg).Reachable s ∧ s.abortReason = some reason) (taskRank hE) where
  bound h := (workers_step h).1
  keeps := by
    rintro w s s' ⟨hs, ha⟩ h
    have hstep := step_of_workerStep (bounds_reachable hs).finishExecution_lt (workers_step h).2
    exact ⟨.step w hs trivial h, (hstep.abortReason_eq (by simp [ha])).trans ha⟩
  lowers := by
    rintro w s s' ⟨hs, ha⟩ h
    have hb := bounds_reachable hs
    have hstep := step_of_workerStep hb.finishExecution_lt (workers_step h).2
    exact hstep.taskRank_lt hE hb (by simp [ha])
  others := by
    rintro w w' s s' ⟨hs, -⟩ h hw
    have hstep := step_of_workerStep (bounds_reachable hs).finishExecution_lt (workers_step h).2
    exact (hstep.taskRank_of_ne hE (ownership_reachable hs) hw).le

end Remaining

/-- **Every run ends after an abort.** Once the abort reason is set, no interleaving goes on for
ever, and one that cannot go on has all workers out of the loop. -/
theorem ends_of_aborted (hE : cfg.executor.Ends) (h : (workers cfg).Reachable s)
    (ha : s.abortReason ≠ none) :
    (∀ run : Nat → System X R E, run 0 = s →
      ¬ ∀ k, ∃ w, (workers cfg).step w (run k) = some (run (k + 1))) ∧
    (∀ s', (workers cfg).LeadsTo (fun _ _ => True) s s' → (∀ w, (workers cfg).step w s' = none) →
      ∀ w, w < cfg.concurrencyLevel → s'.pc w = .left) ∧
    ∃ s', (workers cfg).LeadsTo (fun _ _ => True) s s' ∧ s'.abortReason = s.abortReason ∧
      ∀ w, w < cfg.concurrencyLevel → s'.pc w = .left := by
  obtain ⟨reason, ha⟩ := Option.ne_none_iff_exists'.mp ha
  have hranked := @ranked_aborted _ _ _ cfg hE reason
  refine ⟨?_, ?_, ?_⟩
  · rintro run rfl
    exact hranked.no_infinite_run ⟨h, ha⟩
  · intro s' hlead hstuck
    exact left_of_stuck (hlead.invariant h trivial fun _ _ _ _ _ _ _ => trivial).1 hstuck
  · obtain ⟨s', hlead, ⟨hs', ha'⟩, hstuck⟩ := hranked.exists_end ⟨h, ha⟩
    exact ⟨s', hlead, ha'.trans ha.symm, left_of_stuck hs' hstuck⟩

/-! ## The executions of the virtual machine -/

namespace Vm

section Acc

variable {T : Type} {vm : Vm T} {v : TxVersion} {db : VmDb}

/-- An execution ends if it does from every state that can follow. -/
theorem acc_of_step {x : Execution}
    (h : ∀ m x', (vm.executeStep v m x).next = some x' → Acc (vm.executor.Follows v) x') :
    Acc (vm.executor.Follows v) x :=
  ⟨x, fun x' ⟨m, hx'⟩ => h m x' hx'⟩

theorem acc_record {result : ExecutionResult} {state : EvmState} {writes : WriteSet} :
    Acc (vm.executor.Follows v) ⟨db, .record result state writes⟩ := by
  apply acc_of_step
  intro m x' h
  cases h

theorem acc_addLazyAddresses {result : ExecutionResult} {state : EvmState} {writes : WriteSet} :
    Acc (vm.executor.Follows v) ⟨db, .addLazyAddresses result state writes⟩ := by
  apply acc_of_step
  intro m x' h
  cases h
  exact acc_record

/-- Once the transaction ended, its bytecodes are left to register, and its lazy addresses. -/
theorem acc_finish {result : ExecutionResult} {state : EvmState}
    (bytecodes : List (B256 × Bytecode)) :
    Acc (vm.executor.Follows v) ⟨db, .finish result state bytecodes⟩ := by
  induction bytecodes with
  | nil =>
    apply acc_of_step
    intro m x' h
    simp only [executeStep] at h
    split at h
    · cases h
    · split_ifs at h <;> cases h
      · exact acc_addLazyAddresses
      · exact acc_record
  | cons code rest ih =>
    apply acc_of_step
    intro m x' h
    cases h
    exact ih

variable {address : Address} {account : AccountBasic} {next : Option AccountInfo → EvmProgram}

theorem acc_basicCode {codeHash : Option B256}
    (hnext : ∀ info db, Acc (vm.executor.Follows v) ⟨db, .run (next info)⟩) :
    Acc (vm.executor.Follows v) ⟨db, .basicCode address account codeHash next⟩ := by
  apply acc_of_step
  intro m x' h
  simp only [executeStep] at h
  split at h <;> cases h
  exact hnext _ _

theorem acc_basicCodeHash
    (hnext : ∀ info db, Acc (vm.executor.Follows v) ⟨db, .run (next info)⟩) :
    Acc (vm.executor.Follows v) ⟨db, .basicCodeHash address account next⟩ := by
  apply acc_of_step
  intro m x' h
  simp only [executeStep] at h
  split at h <;> cases h
  exact acc_basicCode hnext

/-- The run of the EVM ends. -/
theorem acc_run (program : EvmProgram) (db : VmDb) :
    Acc (vm.executor.Follows v) ⟨db, .run program⟩ := by
  -- on what the EVM still asks; each answer is a smaller program
  induction program generalizing db with
  | basic address next ih =>
    apply acc_of_step
    intro m x' h
    simp only [executeStep] at h
    split_ifs at h
    · cases h
      exact ih _ _
    · cases h
      exact ih _ _
    · split at h
      · cases h
      · cases h
        exact ih _ _
      · split_ifs at h <;> cases h
        · exact acc_basicCode ih
        · exact acc_basicCodeHash ih
  | codeByHash hash next ih | storage address index next ih | blockHash number next ih =>
    apply acc_of_step
    intro m x' h
    simp only [executeStep] at h
    split at h <;> cases h
    exact ih _ _
  | finish result state =>
    apply acc_of_step
    intro m x' h
    cases h
    exact acc_finish _
  | fail err =>
    apply acc_of_step
    intro m x' h
    cases h

theorem acc_containsTo : Acc (vm.executor.Follows v) ⟨db, .containsTo⟩ := by
  apply acc_of_step
  intro m x' h
  cases h
  exact acc_run _ _

theorem acc_containsFrom : Acc (vm.executor.Follows v) ⟨db, .containsFrom⟩ := by
  apply acc_of_step
  intro m x' h
  simp only [executeStep] at h
  split_ifs at h <;> cases h
  · exact acc_run _ _
  · exact acc_containsTo

/-- **Executions end.** -/
theorem executor_ends : vm.executor.Ends := by
  intro v
  refine ⟨fun ⟨db, pc⟩ => ?_⟩
  cases pc with
  | toCodeHash recipient =>
    apply acc_of_step
    intro m x' h
    simp only [executeStep] at h
    split at h
    · cases h
    · split at h <;> cases h
      · exact acc_run _ _
      · exact acc_containsFrom
  | containsFrom => exact acc_containsFrom
  | containsTo => exact acc_containsTo
  | run program => exact acc_run program db
  | basicCodeHash address account next =>
    exact acc_basicCodeHash fun info db => acc_run (next info) db
  | basicCode address account codeHash next =>
    exact acc_basicCode fun info db => acc_run (next info) db
  | finish result state bytecodes => exact acc_finish bytecodes
  | addLazyAddresses result state writes => exact acc_addLazyAddresses
  | record result state writes => exact acc_record

end Acc

/-- **Every run ends after an abort.** Once the abort reason is set no interleaving of the workers
goes on for ever, and when none can step any more all have left the loop. -/
theorem aborted_run_ends {T : Type} (vm : Vm T) (concurrencyLevel : Nat)
    {s : System Execution PevmTxExecutionResult ExecutionError}
    (h : (workers (vm.config concurrencyLevel)).Reachable s) (ha : s.abortReason ≠ none) :
    (∀ run : Nat → System Execution PevmTxExecutionResult ExecutionError, run 0 = s →
      ¬ ∀ k, ∃ w, (workers (vm.config concurrencyLevel)).step w (run k) = some (run (k + 1))) ∧
    (∀ s', (workers (vm.config concurrencyLevel)).LeadsTo (fun _ _ => True) s s' →
      (∀ w, (workers (vm.config concurrencyLevel)).step w s' = none) →
      ∀ w, w < concurrencyLevel → s'.pc w = .left) ∧
    ∃ s', (workers (vm.config concurrencyLevel)).LeadsTo (fun _ _ => True) s s' ∧
      s'.abortReason = s.abortReason ∧ ∀ w, w < concurrencyLevel → s'.pc w = .left :=
  ends_of_aborted vm.executor_ends h ha

end Vm

namespace Sample

/-- The sample block over a storage that has no code hashes. -/
def failing : Vm TxEnv :=
  { vm with storage := { storage with codeHash := fun _ => .error "connection lost" } }

end Sample

/-- Worker 0 aborted the block while worker 1 executes transaction 1; both leave. -/
theorem aborted_run_ends_sample : ∃ s, (workers (Sample.failing.config 2)).Reachable s ∧
    s.abortReason.isSome = true ∧ (s.pc 1).phase = .executing ⟨1, 0⟩ ∧
    ∃ s', (workers (Sample.failing.config 2)).LeadsTo (fun _ _ => True) s s' ∧
      s'.abortReason = s.abortReason ∧ ∀ w, w < 2 → s'.pc w = .left := by
  obtain ⟨s, hs, hp⟩ := Sample.exists_reachable (Sample.failing.config 2) [(0, 5), (1, 5), (0, 3)]
    (fun s => s.abortReason.isSome && (s.pc 1).phase = .executing ⟨1, 0⟩) (by decide +kernel)
  simp only [Bool.and_eq_true, decide_eq_true_eq] at hp
  obtain ⟨hreason, hexecuting⟩ := hp
  have ha : s.abortReason ≠ none := Option.isSome_iff_ne_none.mp hreason
  exact ⟨s, hs, hreason, hexecuting, (Sample.failing.aborted_run_ends 2 hs ha).2.2⟩

end Pevm
