import Pevm.Proofs.Bounds

/-!
# Ownership of transactions

Who may change the status of a transaction. The scheduler's statuses, dependents lists and
mutexes together with what each worker owns (`Phase`) form a small protocol of their own:
`OwnStep` lists its transitions, `own_of_step` shows that every step of a worker is one of
them, and `Ownership` is its invariant.

* An Executing transaction belongs to the one worker that executes it.
* An Aborting transaction belongs to the worker that aborted it, to the worker about to put
  it in a dependents list, or to exactly one place in exactly one dependents list.
* A dependents list is empty once its owner is Executed or Validated.
-/

namespace Pevm

open Interleaving Scheduler MvMemory

/-- What a worker owns. -/
inductive Phase where
  | idle
  /-- an execution task, no mutex held -/
  | executing (v : TxVersion)
  /-- in `add_dependency`, holding the status of the blocking transaction -/
  | blocking (v : TxVersion) (b : Nat)
  /-- in `add_dependency`, the transaction Aborting but not yet in the list -/
  | pushing (v : TxVersion) (b : Nat)
  /-- in `finish_execution`, holding the status -/
  | finishing (v : TxVersion)
  /-- in `finish_execution`, holding the status and the dependents -/
  | draining (v : TxVersion)
  /-- in `finish_execution` with the dependents drained -/
  | settling (v : TxVersion)
  /-- in `finish_execution` after the first of two status writes -/
  | recounting (v : TxVersion)
  /-- in `try_validation_abort`, holding the status -/
  | testing (i : Nat)
  /-- in `finish_validation`, holding the status of an Executed transaction -/
  | confirming (i : Nat)
  /-- between a successful `try_validation_abort` and `set_ready_status` -/
  | aborting (i : Nat)
  deriving DecidableEq

namespace Phase

/-- The execution task a worker holds. -/
def execution : Phase → Option TxVersion
  | .executing v | .blocking v _ | .finishing v | .draining v | .settling v => some v
  | _ => none

/-- The Aborting transaction a worker has to pass on. -/
def abort : Phase → Option Nat
  | .pushing v _ => some v.txIdx
  | .aborting i => some i
  | _ => none

/-- The status mutexes a worker holds. -/
def statuses : Phase → List Nat
  | .blocking _ b => [b]
  | .pushing v b => [v.txIdx, b]
  | .finishing v | .draining v | .settling v | .recounting v => [v.txIdx]
  | .testing i | .confirming i => [i]
  | _ => []

/-- The dependents mutexes a worker holds. -/
def dependents : Phase → List Nat
  | .draining v | .settling v | .recounting v => [v.txIdx]
  | _ => []

end Phase

variable {X R E : Type}

/-- What a worker owns at a program counter. -/
def Pc.phase : Pc X R E → Phase
  | .execute v _ | .record v _ _ _ _ _ | .writeResult v _ _ | .retry v | .abort v _
  | .checkAbortReason (some (.execution v)) => .executing v
  | .finishExecution v _ .lock => .executing v
  | .finishExecution v _ .lockDependents => .finishing v
  | .finishExecution v _ .drain | .finishExecution v _ (.lowerExecutionIdx _) => .draining v
  | .finishExecution v _ (.settle true) => .recounting v
  | .finishExecution v _ _ => .settling v
  | .addDependency v _ .lockBlocking => .executing v
  | .addDependency v b .lockTx => .blocking v b
  | .addDependency v b .push => .pushing v b
  | .tryValidationAbort v .abort => .testing v.txIdx
  | .convertWrites v _ | .finishValidation v .setReady => .aborting v.txIdx
  | .finishValidation v .validate => .confirming v.txIdx
  | _ => .idle

/-- The part of the state that ownership is about. -/
structure Own where
  status : Nat → TxStatus
  dependents : Nat → List Nat
  statusHolder : Nat → Option WorkerId
  dependentsHolder : Nat → Option WorkerId
  aborted : Bool
  phase : WorkerId → Phase

def System.own (s : System X R E) : Own where
  status := s.scheduler.transactionsStatus
  dependents := s.scheduler.transactionsDependents
  statusHolder := s.scheduler.statusHolder
  dependentsHolder := s.scheduler.dependentsHolder
  aborted := s.scheduler.aborted
  phase := fun w => (s.pc w).phase

namespace Own

def setPhase (o : Own) (w : WorkerId) (p : Phase) : Own :=
  { o with phase := Function.update o.phase w p }

def setStatus (o : Own) (i : Nat) (st : TxStatus) : Own :=
  { o with status := Function.update o.status i st }

def setDependents (o : Own) (i : Nat) (ds : List Nat) : Own :=
  { o with dependents := Function.update o.dependents i ds }

def hold (o : Own) (i : Nat) (h : Option WorkerId) : Own :=
  { o with statusHolder := Function.update o.statusHolder i h }

def holdDependents (o : Own) (i : Nat) (h : Option WorkerId) : Own :=
  { o with dependentsHolder := Function.update o.dependentsHolder i h }

end Own

/-- The transitions of the protocol. -/
inductive OwnStep (n : Nat) (w : WorkerId) (o : Own) : Own → Prop where
  | stutter : OwnStep n w o o
  /-- try_execute, or stolen by `next_task` -/
  | take {i : Nat} (hp : o.phase w = .idle) (hi : i < n) (hh : o.statusHolder i = none)
      (hs : (o.status i).status = .readyToExecute) :
      OwnStep n w o ((o.setStatus i ⟨(o.status i).incarnation, .executing⟩).setPhase w
        (.executing ⟨i, (o.status i).incarnation⟩))
  | lockBlocking {v : TxVersion} {b : Nat} (hp : o.phase w = .executing v) (hb : b < v.txIdx)
      (hh : o.statusHolder b = none) (hs : isExecutedOrValidated (o.status b).status = false) :
      OwnStep n w o ((o.hold b (some w)).setPhase w (.blocking v b))
  | lockTx {v : TxVersion} {b : Nat} (hp : o.phase w = .blocking v b)
      (hh : o.statusHolder v.txIdx = none) :
      OwnStep n w o (((o.hold v.txIdx (some w)).setStatus v.txIdx
        ⟨(o.status v.txIdx).incarnation, .aborting⟩).setPhase w (.pushing v b))
  | push {v : TxVersion} {b : Nat} (hp : o.phase w = .pushing v b) (hb : b < v.txIdx)
      (hh : o.dependentsHolder b = none) :
      OwnStep n w o ((((o.setDependents b (o.dependents b ++ [v.txIdx])).hold v.txIdx none).hold b
        none).setPhase w .idle)
  | lockFinish {v : TxVersion} (hp : o.phase w = .executing v)
      (hh : o.statusHolder v.txIdx = none) :
      OwnStep n w o ((o.hold v.txIdx (some w)).setPhase w (.finishing v))
  | lockDependents {v : TxVersion} (hp : o.phase w = .finishing v)
      (hh : o.dependentsHolder v.txIdx = none) :
      OwnStep n w o ((o.holdDependents v.txIdx (some w)).setPhase w (.draining v))
  | drain {v : TxVersion} {d : Nat} {rest : List Nat} (hp : o.phase w = .draining v)
      (hd : o.dependents v.txIdx = d :: rest) (hh : o.statusHolder d = none) :
      OwnStep n w o ((o.setDependents v.txIdx rest).setStatus d
        ⟨(o.status d).incarnation + 1, .readyToExecute⟩)
  | drained {v : TxVersion} (hp : o.phase w = .draining v) (hd : o.dependents v.txIdx = []) :
      OwnStep n w o (o.setPhase w (.settling v))
  | finish {v : TxVersion} {st : IncarnationStatus} (hp : o.phase w = .settling v)
      (hst : isExecutedOrValidated st = true) :
      OwnStep n w o ((((o.setStatus v.txIdx ⟨(o.status v.txIdx).incarnation, st⟩).hold v.txIdx
        none).holdDependents v.txIdx none).setPhase w .idle)
  | fallThrough {v : TxVersion} (hp : o.phase w = .settling v) :
      OwnStep n w o ((o.setStatus v.txIdx ⟨(o.status v.txIdx).incarnation, .validated⟩).setPhase w
        (.recounting v))
  | recount {v : TxVersion} (hp : o.phase w = .recounting v) :
      OwnStep n w o ((((o.setStatus v.txIdx ⟨(o.status v.txIdx).incarnation, .validated⟩).hold
        v.txIdx none).holdDependents v.txIdx none).setPhase w .idle)
  | lockTest {i : Nat} (hp : o.phase w = .idle) (hi : i < n) (hh : o.statusHolder i = none) :
      OwnStep n w o ((o.hold i (some w)).setPhase w (.testing i))
  | abort {i : Nat} (hp : o.phase w = .testing i)
      (hs : isExecutedOrValidated (o.status i).status = true) :
      OwnStep n w o (((o.setStatus i ⟨(o.status i).incarnation, .aborting⟩).hold i none).setPhase w
        (.aborting i))
  | abortFailed {i : Nat} (hp : o.phase w = .testing i) :
      OwnStep n w o ((o.hold i none).setPhase w .idle)
  | ready {i : Nat} (hp : o.phase w = .aborting i) (hh : o.statusHolder i = none) :
      OwnStep n w o ((o.setStatus i ⟨(o.status i).incarnation + 1, .readyToExecute⟩).setPhase w
        .idle)
  | lockConfirm {i : Nat} (hp : o.phase w = .idle) (hi : i < n) (hh : o.statusHolder i = none)
      (hs : (o.status i).status = .executed) :
      OwnStep n w o ((o.hold i (some w)).setPhase w (.confirming i))
  | confirm {i : Nat} (hp : o.phase w = .confirming i) :
      OwnStep n w o (((o.setStatus i ⟨(o.status i).incarnation, .validated⟩).hold i none).setPhase w
        .idle)
  /-- `Scheduler::abort` by a worker whose execution failed -/
  | stop {v : TxVersion} (hp : o.phase w = .executing v) :
      OwnStep n w o ({ o with aborted := true }.setPhase w .idle)
  /-- a task dropped after an abort -/
  | drop {v : TxVersion} (hp : o.phase w = .executing v) (ha : o.aborted = true) :
      OwnStep n w o (o.setPhase w .idle)

section Simulation

variable {cfg : Config X R E} {w : WorkerId} {s s' : System X R E}

@[simp] theorem own_goto (s : System X R E) (w : WorkerId) (p : Pc X R E) :
    (s.goto w p).own = s.own.setPhase w p.phase := by
  simp only [System.own, System.goto, Own.setPhase, Own.mk.injEq, true_and]
  funext w'
  by_cases h : w' = w
  · subst h
    simp
  · simp [h]

/-- A step that changes neither the scheduler's side nor what the worker owns. -/
theorem own_stutter {t : System X R E} {p : Pc X R E} (ht : t.own = s.own)
    (hp : p.phase = (s.pc w).phase) : OwnStep cfg.blockSize w s.own (t.goto w p).own := by
  have h : (t.goto w p).own = s.own := by
    rw [own_goto, ht, hp]
    exact congrArg (fun f => { s.own with phase := f }) (Function.update_eq_self w s.own.phase)
  rw [h]
  exact .stutter

theorem own_of_nextTaskStep (hb : Bounds cfg s) (h : NextTaskStep cfg w s s') :
    OwnStep cfg.blockSize w s.own s'.own := by
  have hw := hb.pc w
  cases h
  case steal i hpc hh hs =>
    have hp : s.own.phase w = .idle := by simp only [System.own, hpc, Pc.phase]
    rw [hpc] at hw
    rw [own_goto]
    exact .take hp hw hh hs
  case startExecution i hpc hh hs =>
    have hp : s.own.phase w = .idle := by simp only [System.own, hpc, Pc.phase]
    rw [hpc] at hw
    rw [own_goto]
    exact .take hp hw hh hs
  all_goals exact own_stutter rfl (by simp_all only [Pc.phase])

theorem own_of_executeStep (hb : Bounds cfg s) (h : ExecuteStep cfg w s s') :
    OwnStep cfg.blockSize w s.own s'.own := by
  cases h
  case retryQuit v hpc ha =>
    have hp : s.own.phase w = .executing v := by simp only [System.own, hpc, Pc.phase]
    rw [own_goto]
    exact .drop hp (hb.aborted ha)
  case abort v reason hpc =>
    have hp : s.own.phase w = .executing v := by simp only [System.own, hpc, Pc.phase]
    rw [own_goto]
    exact .stop hp
  all_goals exact own_stutter rfl (by simp_all only [Pc.phase])

theorem own_of_addDependencyStep (hb : Bounds cfg s) (h : AddDependencyStep w s s') :
    OwnStep cfg.blockSize w s.own s'.own := by
  have hw := hb.pc w
  cases h
  case lockBlocking v b hpc hh hs =>
    have hp : s.own.phase w = .executing v := by simp only [System.own, hpc, Pc.phase]
    rw [hpc] at hw
    rw [own_goto]
    exact .lockBlocking hp hw.2 hh hs
  case lockTx v b hpc hh =>
    have hp : s.own.phase w = .blocking v b := by simp only [System.own, hpc, Pc.phase]
    rw [own_goto]
    exact .lockTx hp hh
  case push v b hpc hh =>
    have hp : s.own.phase w = .pushing v b := by simp only [System.own, hpc, Pc.phase]
    rw [hpc] at hw
    rw [own_goto]
    exact .push hp hw.2 hh
  case refused => exact own_stutter rfl (by simp_all only [Pc.phase])

theorem own_of_finishExecutionStep (hb : Bounds cfg s) (h : FinishExecutionStep w s s') :
    OwnStep cfg.blockSize w s.own s'.own := by
  cases h
  case lock v flags hpc hh =>
    have hp : s.own.phase w = .executing v := by simp only [System.own, hpc, Pc.phase]
    rw [own_goto]
    exact .lockFinish hp hh
  case lockDependents v flags hpc hh =>
    have hp : s.own.phase w = .finishing v := by simp only [System.own, hpc, Pc.phase]
    rw [own_goto]
    exact .lockDependents hp hh
  case drain v flags d rest hpc hd hh =>
    have hp : s.own.phase w = .draining v := by simp only [System.own, hpc, Pc.phase]
    have h := OwnStep.drain (n := cfg.blockSize) hp hd hh
    rw [own_goto]
    convert h using 1
    exact congrArg (fun f => { (s.own.setDependents v.txIdx rest).setStatus d
      ⟨(s.own.status d).incarnation + 1, .readyToExecute⟩ with phase := f })
      (hp ▸ Function.update_eq_self w s.own.phase)
  case drained v flags hpc hd =>
    have hp : s.own.phase w = .draining v := by simp only [System.own, hpc, Pc.phase]
    rw [own_goto]
    exact .drained hp hd
  case validateFrom v flags hpc hneed =>
    have hp : s.own.phase w = .settling v := by simp only [System.own, hpc, Pc.phase]
    rw [own_goto]
    exact .finish hp rfl
  case fallThrough v flags hpc hneed =>
    have hp : s.own.phase w = .settling v := by simp only [System.own, hpc, Pc.phase]
    rw [own_goto]
    exact .fallThrough hp
  case settleExecuted v flags again hpc hneed =>
    rw [own_goto]
    cases again with
    | false =>
      have hp : s.own.phase w = .settling v := by simp only [System.own, hpc, Pc.phase]
      exact .finish hp rfl
    | true =>
      rw [hb.fellThrough w v flags hpc] at hneed
      cases hneed
  case settleValidated v flags again hpc hneed =>
    rw [own_goto]
    cases again with
    | false =>
      have hp : s.own.phase w = .settling v := by simp only [System.own, hpc, Pc.phase]
      exact .finish hp rfl
    | true =>
      have hp : s.own.phase w = .recounting v := by simp only [System.own, hpc, Pc.phase]
      exact .recount hp
  all_goals exact own_stutter rfl (by simp_all only [Pc.phase])

theorem own_of_validateStep (hb : Bounds cfg s) (h : ValidateStep cfg w s s') :
    OwnStep cfg.blockSize w s.own s'.own := by
  have hw := hb.pc w
  cases h
  case abortLock v hpc hh =>
    have hp : s.own.phase w = .idle := by simp only [System.own, hpc, Pc.phase]
    rw [hpc] at hw
    rw [own_goto]
    exact .lockTest hp hw hh
  case abortExecuted v hpc hs =>
    have hp : s.own.phase w = .testing v.txIdx := by simp only [System.own, hpc, Pc.phase]
    rw [own_goto]
    exact .abort hp (congrArg isExecutedOrValidated hs)
  case abortValidated v hpc hs =>
    have hp : s.own.phase w = .testing v.txIdx := by simp only [System.own, hpc, Pc.phase]
    rw [own_goto]
    exact .abort hp (congrArg isExecutedOrValidated hs)
  case abortFailed v hpc hs =>
    have hp : s.own.phase w = .testing v.txIdx := by simp only [System.own, hpc, Pc.phase]
    rw [own_goto]
    exact .abortFailed hp
  case setReady v hpc hh =>
    have hp : s.own.phase w = .aborting v.txIdx := by simp only [System.own, hpc, Pc.phase]
    rw [own_goto]
    exact .ready hp hh
  case reexecute v hpc hh hs =>
    have hp : s.own.phase w = .idle := by simp only [System.own, hpc, Pc.phase]
    rw [hpc] at hw
    rw [own_goto]
    exact .take hp hw hh hs
  case confirmLock v hpc hh hs =>
    have hp : s.own.phase w = .idle := by simp only [System.own, hpc, Pc.phase]
    rw [hpc] at hw
    rw [own_goto]
    exact .lockConfirm hp hw hh hs
  case confirm v hpc =>
    have hp : s.own.phase w = .confirming v.txIdx := by simp only [System.own, hpc, Pc.phase]
    rw [own_goto]
    exact .confirm hp
  case quit task hpc ha =>
    match task with
    | some (.execution v) =>
      have hp : s.own.phase w = .executing v := by simp only [System.own, hpc, Pc.phase]
      rw [own_goto]
      exact .drop hp (hb.aborted ha)
    | some (.validation v) => exact own_stutter rfl (by simp only [hpc, Pc.phase])
    | none => exact own_stutter rfl (by simp only [hpc, Pc.phase])
  all_goals exact own_stutter rfl (by simp_all only [Pc.phase])

/-- **Every step of a worker is a transition of the protocol.** -/
theorem own_of_step (hb : Bounds cfg s) (h : Step cfg w s s') :
    OwnStep cfg.blockSize w s.own s'.own := by
  cases h with
  | nextTask h => exact own_of_nextTaskStep hb h
  | execute h => exact own_of_executeStep hb h
  | finishExecution h => exact own_of_finishExecutionStep hb h
  | addDependency h => exact own_of_addDependencyStep hb h
  | validate h => exact own_of_validateStep hb h

end Simulation

/-! ## The invariant -/

structure Ownership (o : Own) : Prop where
  statusHeld : ∀ i w, o.statusHolder i = some w ↔ i ∈ (o.phase w).statuses
  dependentsHeld : ∀ i w, o.dependentsHolder i = some w ↔ i ∈ (o.phase w).dependents
  executing : ∀ w v, (o.phase w).execution = some v →
    o.status v.txIdx = ⟨v.txIncarnation, .executing⟩
  executingUnique : ∀ w w' v v', (o.phase w).execution = some v →
    (o.phase w').execution = some v' → v.txIdx = v'.txIdx → w = w'
  executor : o.aborted = false → ∀ i, (o.status i).status = .executing →
    ∃ w, (o.phase w).execution = some ⟨i, (o.status i).incarnation⟩
  blocking : ∀ w v b, o.phase w = .blocking v b ∨ o.phase w = .pushing v b →
    b < v.txIdx ∧ isExecutedOrValidated (o.status b).status = false
  confirming : ∀ w i, o.phase w = .confirming i → (o.status i).status = .executed
  recounting : ∀ w v, o.phase w = .recounting v → (o.status v.txIdx).status = .validated
  drained : ∀ w v, o.phase w = .settling v ∨ o.phase w = .recounting v →
    o.dependents v.txIdx = []
  aborting : ∀ w i, (o.phase w).abort = some i → (o.status i).status = .aborting
  abortUnique : ∀ w w' i, (o.phase w).abort = some i → (o.phase w').abort = some i → w = w'
  aborter : ∀ i, (o.status i).status = .aborting →
    (∃ w, (o.phase w).abort = some i) ∨ ∃ b, i ∈ o.dependents b
  dependent : ∀ b d, d ∈ o.dependents b → (o.status d).status = .aborting ∧ b < d ∧
    isExecutedOrValidated (o.status b).status = false
  dependentUnique : ∀ b b' d, d ∈ o.dependents b → d ∈ o.dependents b' → b = b'
  dependentsNodup : ∀ b, (o.dependents b).Nodup
  abortNotDependent : ∀ w i b, (o.phase w).abort = some i → i ∉ o.dependents b

namespace Ownership

variable {n : Nat} {w : WorkerId} {o o' : Own}

theorem statusHeld_step (hO : Ownership o) (h : OwnStep n w o o') (i' : Nat) (w' : WorkerId) :
    o'.statusHolder i' = some w' ↔ i' ∈ (o'.phase w').statuses := by
  have hi := hO.statusHeld i' w
  have hi' := hO.statusHeld i' w'
  cases h
  case stutter => exact hi'
  all_goals
    simp only [Own.setPhase, Own.setStatus, Own.setDependents, Own.hold, Own.holdDependents]
    grind [Function.update_apply, Phase.statuses]

theorem dependentsHeld_step (hO : Ownership o) (h : OwnStep n w o o') (i' : Nat) (w' : WorkerId) :
    o'.dependentsHolder i' = some w' ↔ i' ∈ (o'.phase w').dependents := by
  have hi := hO.dependentsHeld i' w
  have hi' := hO.dependentsHeld i' w'
  cases h
  case stutter => exact hi'
  all_goals
    simp only [Own.setPhase, Own.setStatus, Own.setDependents, Own.hold, Own.holdDependents]
    grind [Function.update_apply, Phase.dependents]

theorem executing_step (hO : Ownership o) (h : OwnStep n w o o') (w' : WorkerId) (v' : TxVersion) :
    (o'.phase w').execution = some v' → o'.status v'.txIdx = ⟨v'.txIncarnation, .executing⟩ := by
  have hE' := hO.executing w' v'
  have hU := hO.executingUnique w' w v'
  have hE := hO.executing w
  have hA := hO.aborting w
  have hD := hO.dependent
  have hC := hO.confirming w
  have hR := hO.recounting w
  cases h
  case stutter => exact hE'
  all_goals
    simp only [Own.setPhase, Own.setStatus, Own.setDependents, Own.hold, Own.holdDependents]
    grind [Function.update_apply, Phase.execution, Phase.abort, isExecutedOrValidated]

theorem executingUnique_step (hO : Ownership o) (h : OwnStep n w o o') (w₁ w₂ : WorkerId)
    (v₁ v₂ : TxVersion) : (o'.phase w₁).execution = some v₁ →
    (o'.phase w₂).execution = some v₂ → v₁.txIdx = v₂.txIdx → w₁ = w₂ := by
  have hU := hO.executingUnique
  have hE := hO.executing
  cases h
  case stutter => exact hU w₁ w₂ v₁ v₂
  all_goals
    simp only [Own.setPhase, Own.setStatus, Own.setDependents, Own.hold, Own.holdDependents]
    grind [Function.update_apply, Phase.execution]

theorem blocking_step (hO : Ownership o) (h : OwnStep n w o o') (w' : WorkerId) (v' : TxVersion)
    (b' : Nat) : o'.phase w' = .blocking v' b' ∨ o'.phase w' = .pushing v' b' →
    b' < v'.txIdx ∧ isExecutedOrValidated (o'.status b').status = false := by
  have hB := hO.blocking w' v' b'
  have hS := hO.statusHeld b' w
  have hS' := hO.statusHeld b' w'
  cases h
  case stutter => exact hB
  all_goals
    simp only [Own.setPhase, Own.setStatus, Own.setDependents, Own.hold, Own.holdDependents]
    grind [Function.update_apply, Phase.statuses, isExecutedOrValidated]

theorem confirming_step (hO : Ownership o) (h : OwnStep n w o o') (w' : WorkerId) (i' : Nat) :
    o'.phase w' = .confirming i' → (o'.status i').status = .executed := by
  have hC := hO.confirming w' i'
  have hE := hO.executing w
  have hS := hO.statusHeld i' w
  have hS' := hO.statusHeld i' w'
  cases h
  case stutter => exact hC
  all_goals
    simp only [Own.setPhase, Own.setStatus, Own.setDependents, Own.hold, Own.holdDependents]
    grind [Function.update_apply, Phase.statuses, Phase.execution]

theorem recounting_step (hO : Ownership o) (h : OwnStep n w o o') (w' : WorkerId)
    (v' : TxVersion) : o'.phase w' = .recounting v' → (o'.status v'.txIdx).status = .validated := by
  have hC := hO.recounting w' v'
  have hS := hO.statusHeld v'.txIdx w
  have hS' := hO.statusHeld v'.txIdx w'
  cases h
  case stutter => exact hC
  all_goals
    simp only [Own.setPhase, Own.setStatus, Own.setDependents, Own.hold, Own.holdDependents]
    grind [Function.update_apply, Phase.statuses, Phase.execution]

theorem drained_step (hO : Ownership o) (h : OwnStep n w o o') (w' : WorkerId) (v' : TxVersion) :
    o'.phase w' = .settling v' ∨ o'.phase w' = .recounting v' → o'.dependents v'.txIdx = [] := by
  have hC := hO.drained w' v'
  have hS := hO.dependentsHeld v'.txIdx w
  have hS' := hO.dependentsHeld v'.txIdx w'
  cases h
  case stutter => exact hC
  all_goals
    simp only [Own.setPhase, Own.setStatus, Own.setDependents, Own.hold, Own.holdDependents]
    grind [Function.update_apply, Phase.dependents]

theorem aborting_step (hO : Ownership o) (h : OwnStep n w o o') (w' : WorkerId) (i' : Nat) :
    (o'.phase w').abort = some i' → (o'.status i').status = .aborting := by
  have hA := hO.aborting w' i'
  have hE := hO.executing w
  have hU := hO.abortUnique w w' i'
  have hC := hO.confirming w
  have hR := hO.recounting w
  have hN := hO.abortNotDependent w' i'
  cases h
  case stutter => exact hA
  all_goals
    simp only [Own.setPhase, Own.setStatus, Own.setDependents, Own.hold, Own.holdDependents]
    grind [Function.update_apply, Phase.execution, Phase.abort, isExecutedOrValidated]

theorem abortUnique_step (hO : Ownership o) (h : OwnStep n w o o') (w₁ w₂ : WorkerId) (i' : Nat) :
    (o'.phase w₁).abort = some i' → (o'.phase w₂).abort = some i' → w₁ = w₂ := by
  have hA := hO.aborting
  have hE := hO.executing w
  have hU := hO.abortUnique
  cases h
  case stutter => exact hU w₁ w₂ i'
  all_goals
    simp only [Own.setPhase, Own.setStatus, Own.setDependents, Own.hold, Own.holdDependents]
    grind [Function.update_apply, Phase.execution, Phase.abort, isExecutedOrValidated]

theorem dependent_step (hO : Ownership o) (h : OwnStep n w o o') (b' d' : Nat) :
    d' ∈ o'.dependents b' → (o'.status d').status = .aborting ∧ b' < d' ∧
    isExecutedOrValidated (o'.status b').status = false := by
  have hD := hO.dependent b' d'
  have hE := hO.executing w
  have hA := hO.aborting w
  have hN := hO.abortNotDependent w d' b'
  have hB := hO.blocking w
  have hC := hO.confirming w
  have hR := hO.recounting w
  have hdr := hO.drained w
  have hU := hO.dependentUnique b'
  have hnd := hO.dependentsNodup b'
  cases h
  case stutter => exact hD
  all_goals
    simp only [Own.setPhase, Own.setStatus, Own.setDependents, Own.hold, Own.holdDependents]
    grind [Function.update_apply, Phase.execution, Phase.abort, isExecutedOrValidated]

theorem dependentUnique_step (hO : Ownership o) (h : OwnStep n w o o') (b₁ b₂ d' : Nat) :
    d' ∈ o'.dependents b₁ → d' ∈ o'.dependents b₂ → b₁ = b₂ := by
  have hU := hO.dependentUnique b₁ b₂ d'
  have hN := hO.abortNotDependent w d'
  cases h
  case stutter => exact hU
  all_goals
    simp only [Own.setPhase, Own.setStatus, Own.setDependents, Own.hold, Own.holdDependents]
    grind [Function.update_apply, Phase.abort]

theorem dependentsNodup_step (hO : Ownership o) (h : OwnStep n w o o') (b' : Nat) :
    (o'.dependents b').Nodup := by
  have hn := hO.dependentsNodup b'
  have hN := hO.abortNotDependent w
  cases h
  case stutter => exact hn
  all_goals
    simp only [Own.setPhase, Own.setStatus, Own.setDependents, Own.hold, Own.holdDependents]
    grind [Function.update_apply, Phase.abort]

theorem abortNotDependent_step (hO : Ownership o) (h : OwnStep n w o o') (w' : WorkerId)
    (i' b' : Nat) : (o'.phase w').abort = some i' → i' ∉ o'.dependents b' := by
  have hN := hO.abortNotDependent w' i' b'
  have hE := hO.executing w
  have hD := hO.dependent b' i'
  have hU := hO.abortUnique w w' i'
  cases h
  case stutter => exact hN
  all_goals
    simp only [Own.setPhase, Own.setStatus, Own.setDependents, Own.hold, Own.holdDependents]
    grind [Function.update_apply, Phase.abort, Phase.execution, isExecutedOrValidated]

/-- A worker that owned something still does after another worker moved on, or after it moved
on itself without giving it up. -/
theorem exists_owner {α : Type} {f : Phase → Option α} {a : α} {phase : WorkerId → Phase}
    {p : Phase} (h : ∃ w', f (phase w') = some a) (hp : f (phase w) = some a → f p = some a) :
    ∃ w', f (Function.update phase w p w') = some a := by
  obtain ⟨w', hw'⟩ := h
  refine ⟨w', ?_⟩
  by_cases hw : w' = w
  · subst hw
    simpa using hp hw'
  · simpa [hw] using hw'

theorem executor_step (hO : Ownership o) (h : OwnStep n w o o') (ha : o'.aborted = false)
    (i' : Nat) (hs' : (o'.status i').status = .executing) :
    ∃ w, (o'.phase w).execution = some ⟨i', (o'.status i').incarnation⟩ := by
  have hE := hO.executing w
  have hX := fun ha => hO.executor ha i'
  cases h
  case stutter => exact hX ha hs'
  case take i hp hi hh hs =>
    by_cases hi' : i' = i
    · subst hi'
      exact ⟨w, by simp [Own.setPhase, Own.setStatus, Phase.execution]⟩
    · simp only [Own.setPhase, Own.setStatus, Function.update_of_ne hi'] at ha hs' ⊢
      exact exists_owner (hX ha hs') (by simp [hp, Phase.execution])
  case drain v d rest hp hd hh =>
    simp only [Own.setStatus, Own.setDependents] at ha hs' ⊢
    grind [Function.update_apply]
  all_goals
    simp only [Own.setPhase, Own.setStatus, Own.setDependents, Own.hold, Own.holdDependents]
      at ha hs' ⊢
    refine exists_owner ?_ ?_
    · grind [Function.update_apply, isExecutedOrValidated]
    · grind [Function.update_apply, isExecutedOrValidated, Phase.execution]

theorem aborter_step (hO : Ownership o) (h : OwnStep n w o o') (i' : Nat)
    (hs' : (o'.status i').status = .aborting) :
    (∃ w, (o'.phase w).abort = some i') ∨ ∃ b, i' ∈ o'.dependents b := by
  have hX := hO.aborter i'
  cases h
  case stutter => exact hX hs'
  case lockTx v b hp hh =>
    by_cases hi' : i' = v.txIdx
    · subst hi'
      exact .inl ⟨w, by simp [Own.setPhase, Phase.abort]⟩
    · simp only [Own.setPhase, Own.setStatus, Own.hold, Function.update_of_ne hi'] at hs' ⊢
      exact (hX hs').imp_left fun h => exists_owner h (by simp [hp, Phase.abort])
  case push v b hp hb hh =>
    rcases hX hs' with ⟨w₀, hw₀⟩ | ⟨b₀, hb₀⟩
    · by_cases hi' : i' = v.txIdx
      · subst hi'
        exact .inr ⟨b, by simp [Own.setPhase, Own.hold, Own.setDependents]⟩
      · have hkeep : (o.phase w).abort = some i' → Phase.idle.abort = some i' := by
          rw [hp]
          exact fun h => absurd (Option.some.inj h).symm hi'
        exact .inl (exists_owner ⟨w₀, hw₀⟩ hkeep)
    · refine .inr ⟨b₀, ?_⟩
      simp only [Own.setPhase, Own.setDependents, Own.hold]
      grind [Function.update_apply]
  case drain v d rest hp hd hh =>
    simp only [Own.setStatus, Own.setDependents] at hs' ⊢
    have hne : i' ≠ d := by
      rintro rfl
      simp at hs'
    refine (hX (by simpa [hne] using hs')).imp_right fun ⟨b₀, hb₀⟩ => ⟨b₀, ?_⟩
    grind [Function.update_apply]
  case abort i hp hs =>
    by_cases hi' : i' = i
    · subst hi'
      exact .inl ⟨w, by simp [Own.setPhase, Phase.abort]⟩
    · simp only [Own.setPhase, Own.setStatus, Own.hold, Function.update_of_ne hi'] at hs' ⊢
      exact (hX hs').imp_left fun h => exists_owner h (by simp [hp, Phase.abort])
  all_goals
    simp only [Own.setPhase, Own.setStatus, Own.hold, Own.holdDependents] at hs' ⊢
    have hs : (o.status i').status = .aborting := by
      grind [Function.update_apply, isExecutedOrValidated]
    refine (hX hs).imp_left fun h => exists_owner h ?_
    grind [Function.update_apply, Phase.abort]

/-- **The protocol keeps its invariant.** -/
theorem step (hO : Ownership o) (h : OwnStep n w o o') : Ownership o' where
  statusHeld := hO.statusHeld_step h
  dependentsHeld := hO.dependentsHeld_step h
  executing := hO.executing_step h
  executingUnique := hO.executingUnique_step h
  executor := hO.executor_step h
  blocking := hO.blocking_step h
  confirming := hO.confirming_step h
  recounting := hO.recounting_step h
  drained := hO.drained_step h
  aborting := hO.aborting_step h
  abortUnique := hO.abortUnique_step h
  aborter := hO.aborter_step h
  dependent := hO.dependent_step h
  dependentUnique := hO.dependentUnique_step h
  dependentsNodup := hO.dependentsNodup_step h
  abortNotDependent := hO.abortNotDependent_step h

end Ownership

variable {cfg : Config X R E} {s : System X R E}

theorem ownership_initial (h : initial cfg s) : Ownership s.own := by
  obtain ⟨hs, -, -, hpc, -⟩ := h
  have hown : s.own = ⟨fun _ => ⟨0, .readyToExecute⟩, fun _ => [], fun _ => none, fun _ => none,
      false, fun _ => .idle⟩ := by
    simp only [System.own, hs, hpc, Scheduler.new, Pc.phase]
  rw [hown]
  constructor <;> simp [Phase.statuses, Phase.dependents, Phase.execution, Phase.abort]

/-- Ownership holds in every reachable state. -/
theorem ownership_reachable (h : (workers cfg).Reachable s) : Ownership s.own :=
  invariant_of_step (fun _ => ownership_initial)
    (fun _ _ _ hb _ _ hstep hO => hO.step (own_of_step hb hstep)) h

end Pevm
