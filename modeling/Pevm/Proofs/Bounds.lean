import Pevm.Proofs.Step
import Mathlib.Tactic

/-!
# Bounds and the abort flag

The facts about a reachable state that every other invariant starts from: each transaction
index a worker carries is inside the block, a blocking transaction is lower than the one it
blocks, and an abort reason is only ever set after the scheduler was aborted.
-/

namespace Pevm

open Interleaving Scheduler MvMemory

variable {X R E : Type}

/-- The transaction of a task. -/
def Task.version : Task → TxVersion
  | .execution v | .validation v => v

/-- Every transaction index held at this program counter is inside the block. -/
def Pc.InBounds (n : Nat) : Pc X R E → Prop
  | .nextTask (.checkStatus i) | .nextTask (.tryExecute i) => i < n
  | .nextTask _ | .setAbortReason _ | .checkAbortReason none | .left => True
  | .execute v _ | .record v _ _ _ _ _ | .writeResult v _ _ | .retry v | .abort v _
  | .validate v _ | .tryValidationAbort v _ | .convertWrites v _ | .finishValidation v _ =>
    v.txIdx < n
  | .finishExecution v _ (.lowerExecutionIdx d) => v.txIdx < n ∧ d < n
  | .finishExecution v _ _ => v.txIdx < n
  | .addDependency v b _ => v.txIdx < n ∧ b < v.txIdx
  | .checkAbortReason (some task) => task.version.txIdx < n

structure Bounds (cfg : Config X R E) (s : System X R E) : Prop where
  blockSize : s.scheduler.blockSize = cfg.blockSize
  pc : ∀ w, (s.pc w).InBounds cfg.blockSize
  dependents : ∀ b, ∀ d ∈ s.scheduler.transactionsDependents b, b < d ∧ d < cfg.blockSize
  aborted : s.abortReason ≠ none → s.scheduler.aborted = true
  abortStored : ∀ w reason, s.pc w = .setAbortReason reason → s.scheduler.aborted = true
  /-- only an execution without validation falls through to the second status write -/
  fellThrough : ∀ w v flags, s.pc w = .finishExecution v flags (.settle true) →
    flags.needValidation = false

variable {cfg : Config X R E} {w : WorkerId} {s s' : System X R E}

theorem Bounds.finishExecution_lt (hb : Bounds cfg s) (v : TxVersion) (flags : FinishExecFlags)
    (pc : FinishExecutionPc) (hpc : s.pc w = .finishExecution v flags pc) :
    v.txIdx < s.scheduler.blockSize := by
  have h := hb.pc w
  rw [hpc] at h
  rw [hb.blockSize]
  cases pc <;> first | exact h | exact h.1

theorem Step.blockSize_eq (h : Step cfg w s s') :
    s'.scheduler.blockSize = s.scheduler.blockSize := by
  rcases h with h | h | h | h | h <;> cases h <;> rfl

/-- A worker only ever moves on with transactions it already held, that it fetched below the
block size, that block it or that wait for it. -/
theorem Step.inBounds (hb : Bounds cfg s) (h : Step cfg w s s') :
    (s'.pc w).InBounds cfg.blockSize := by
  have hw := hb.pc w
  have hn := hb.blockSize
  rcases h with h | h | h | h | h <;> cases h
  case execute.blocked v x b hpc hx =>
    rw [hpc] at hw
    simpa [Pc.InBounds] using ⟨hw, cfg.executor.blocking_lt _ _ _ _ hx⟩
  case finishExecution.drain v flags d rest hpc hd hh =>
    rw [hpc] at hw
    simpa [Pc.InBounds] using ⟨hw, (hb.dependents v.txIdx d (by simp [hd])).2⟩
  all_goals simp_all [Pc.InBounds, Scheduler.version, Task.version]

theorem Step.pc_of_ne (h : Step cfg w s s') {w' : WorkerId} (hne : w' ≠ w) :
    s'.pc w' = s.pc w' := by
  rcases h with h | h | h | h | h <;> cases h <;> simp [hne]

theorem Step.dependents_bounds (hb : Bounds cfg s) (h : Step cfg w s s') (b : Nat) :
    ∀ d ∈ s'.scheduler.transactionsDependents b, b < d ∧ d < cfg.blockSize := by
  have hdep := hb.dependents b
  rcases h with h | h | h | h | h <;> cases h
  case finishExecution.drain v flags d rest hpc hd hh =>
    intro d' hd'
    apply hdep
    by_cases hbv : b = v.txIdx
    · subst hbv
      simp_all [setReady, setDependents]
    · simpa [setReady, setDependents, hbv] using hd'
  case addDependency.push v b' hpc hh =>
    have hw := hb.pc w
    rw [hpc] at hw
    intro d hd
    by_cases hbb : b = b'
    · subst hbb
      have hd' : d ∈ s.scheduler.transactionsDependents b ∨ d = v.txIdx := by
        simpa [setDependents, holdStatus] using hd
      rcases hd' with hd | rfl
      · exact hdep d hd
      · exact ⟨hw.2, hw.1⟩
    · exact hdep d (by simpa [setDependents, holdStatus, hbb] using hd)
  all_goals exact hdep

theorem Step.aborted_mono (h : Step cfg w s s') (ha : s.scheduler.aborted = true) :
    s'.scheduler.aborted = true := by
  rcases h with h | h | h | h | h <;> cases h <;> first | exact ha | rfl

theorem Bounds.step (hb : Bounds cfg s) (h : Step cfg w s s') : Bounds cfg s' where
  blockSize := h.blockSize_eq.trans hb.blockSize
  pc w' := by
    by_cases hw : w' = w
    · subst hw
      exact h.inBounds hb
    · rw [h.pc_of_ne hw]
      exact hb.pc w'
  dependents := h.dependents_bounds hb
  aborted ha := by
    by_cases hs : s.abortReason = none
    · -- the reason was set by this step, after the flag was stored
      rcases h with h | h | h | h | h <;> cases h
      case execute.setAbortReason reason hpc => exact hb.abortStored w reason hpc
      all_goals exact absurd hs ha
    · exact h.aborted_mono (hb.aborted hs)
  abortStored w' reason hpc' := by
    by_cases hw : w' = w
    · subst hw
      rcases h with h | h | h | h | h <;> cases h
      case execute.abort => rfl
      all_goals simp_all
    · rw [h.pc_of_ne hw] at hpc'
      exact h.aborted_mono (hb.abortStored w' reason hpc')
  fellThrough w' v flags hpc' := by
    by_cases hw : w' = w
    · subst hw
      rcases h with h | h | h | h | h <;> cases h
      case finishExecution.fallThrough v' flags' hpc hneed =>
        obtain ⟨-, rfl⟩ : v' = v ∧ flags' = flags := by simpa using hpc'
        exact hneed
      all_goals simp_all
    · rw [h.pc_of_ne hw] at hpc'
      exact hb.fellThrough w' v flags hpc'

theorem bounds_initial (h : initial cfg s) : Bounds cfg s := by
  obtain ⟨hs, -, ha, hpc, -⟩ := h
  refine ⟨by rw [hs]; rfl, fun w => ?_, fun b d hd => ?_, fun h => absurd ha h, fun w r h => ?_,
    fun w v flags h => ?_⟩
  · rw [hpc w]
    trivial
  · rw [hs] at hd
    simp [Scheduler.new] at hd
  · rw [hpc w] at h
    cases h
  · rw [hpc w] at h
    cases h

/-- Steps of the machine are worker steps. -/
theorem workers_step (h : (workers cfg).step w s = some s') :
    w < cfg.concurrencyLevel ∧ workerStep cfg w s = some s' := by
  have h' : (if w < cfg.concurrencyLevel then workerStep cfg w s else none) = some s' := h
  split_ifs at h' with hw
  exact ⟨hw, h'⟩

theorem bounds_reachable (h : (workers cfg).Reachable s) : Bounds cfg s :=
  h.invariant (fun _ => bounds_initial) fun _ _ _ _ _ hstep hb =>
    hb.step (step_of_workerStep hb.finishExecution_lt (workers_step hstep).2)

/-- Only the workers below the concurrency level ever move. -/
theorem pc_of_le (h : (workers cfg).Reachable s) (hw : cfg.concurrencyLevel ≤ w) :
    s.pc w = .nextTask .loop := by
  refine h.invariant (P := fun s => s.pc w = .nextTask .loop)
    (fun s (hs : initial cfg s) => hs.2.2.2.1 w) ?_
  intro w' s s' hs _ hstep hpc
  obtain ⟨hw', hstep⟩ := workers_step hstep
  have hb := bounds_reachable hs
  rw [(step_of_workerStep hb.finishExecution_lt hstep).pc_of_ne (lt_of_lt_of_le hw' hw).ne']
  exact hpc

/-- With two workers, what holds where both are and where all start holds of every worker. -/
theorem forall_pc_of_two (h : (workers cfg).Reachable s) (hlevel : cfg.concurrencyLevel ≤ 2)
    {Q : Pc X R E → Prop} (h0 : Q (s.pc 0)) (h1 : Q (s.pc 1)) (hloop : Q (.nextTask .loop))
    (w : WorkerId) : Q (s.pc w) := by
  rcases w with _ | _ | w
  · exact h0
  · exact h1
  · rw [pc_of_le h (le_trans hlevel (Nat.le_add_left 2 w))]
    exact hloop

/-- **The step rule.** An invariant of the workers is checked on the inversion of their steps,
in the presence of the bounds. -/
theorem invariant_of_step {C : WorkerId → System X R E → Prop} {P : System X R E → Prop}
    (hinit : ∀ s, initial cfg s → P s)
    (hstep : ∀ w s s', Bounds cfg s → (workers cfg).ReachableVia C s → C w s → Step cfg w s s' →
      P s → P s')
    (h : (workers cfg).ReachableVia C s) : P s :=
  h.invariant hinit fun w _ _ hs hC hw hP =>
    have hb := bounds_reachable hs.reachable
    hstep w _ _ hb hs hC (step_of_workerStep hb.finishExecution_lt (workers_step hw).2) hP

end Pevm
