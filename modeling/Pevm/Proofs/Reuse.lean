import Pevm.Execute
import Pevm.Proofs.Progress

/-!
# A `Pevm` can be reused

Result slots are recycled: an aborted block leaves its results behind, and a slot that is not written
again would return an old one. Two runs of one block under the same interleaving, from different old
slots, agree on everything but the slots that neither has written (`SameRun`), because no step reads
a slot. When the workers have left without an abort every slot of the block has been written in this
run, so that the results agree too.
-/

namespace Pevm

open Interleaving Scheduler MvMemory

variable {X R E : Type} {cfg : Config X R E} {w : WorkerId} {s s' t : System X R E}

/-! ## Slots are not read -/

def System.withSlots (s : System X R E) (slots : Nat → Option R) : System X R E :=
  { s with executionResults := slots }

/-- The runs agree on everything but the slots not written in them. -/
structure SameRun (s t : System X R E) : Prop where
  same : t = s.withSlots t.executionResults
  written : ∀ i, .wroteResult i ∈ s.log → t.executionResults i = s.executionResults i

/-- The slots after a step. -/
def slotsAfter (s : System X R E) (w : WorkerId) (slots : Nat → Option R) : Nat → Option R :=
  match s.pc w with
  | .writeResult v _ result => Function.update slots v.txIdx (some result)
  | _ => slots

theorem executeStep_withSlots (v : TxVersion) (slots : Nat → Option R) (step : ExecStep X R E) :
    executeStep w v (s.withSlots slots) step = (executeStep w v s step).withSlots slots := by
  cases step with
  | error err => cases err <;> rfl
  | _ => rfl

/-- A step does the same whatever the slots hold. -/
theorem workerStep_withSlots (cfg : Config X R E) (w : WorkerId) (s : System X R E)
    (slots : Nat → Option R) :
    workerStep cfg w (s.withSlots slots) =
      (workerStep cfg w s).map fun s' => s'.withSlots (slotsAfter s w slots) := by
  have hpc : (s.withSlots slots).pc w = s.pc w := rfl
  have hsched : (s.withSlots slots).scheduler = s.scheduler := rfl
  have hmem : (s.withSlots slots).mvMemory = s.mvMemory := rfl
  have hreason : (s.withSlots slots).abortReason = s.abortReason := rfl
  unfold workerStep slotsAfter
  rw [hpc, hsched, hmem, hreason]
  cases s.pc w with
  | execute v x => exact congrArg some (executeStep_withSlots v slots _)
  | writeResult v flags result | abort v reason | setAbortReason reason | left => rfl
  | _ =>
    -- an operation of the scheduler or the memory, or a look at the abort reason
    dsimp only
    split <;> rfl

theorem workerStep_executionResults (h : workerStep cfg w s = some s') :
    s'.executionResults = slotsAfter s w s.executionResults := by
  have hself := workerStep_withSlots cfg w s s.executionResults
  rw [show s.withSlots s.executionResults = s from rfl, h] at hself
  exact congrArg System.executionResults (Option.some.inj hself)

/-- Only the write of a slot is logged as one. -/
theorem Step.wroteResult (h : Step cfg w s s') {i : Nat} (hi : .wroteResult i ∈ s'.log) :
    .wroteResult i ∈ s.log ∨
      ∃ v flags result, v.txIdx = i ∧ s.pc w = .writeResult v flags result := by
  rcases h with h | h | h | h | h <;> cases h
  case execute.writeResult v flags result hpc =>
    simp only [System.goto_log, System.record_log, List.mem_append, List.mem_singleton,
      Event.wroteResult.injEq] at hi
    rcases hi with rfl | hi
    · exact .inr ⟨v, flags, result, rfl, hpc⟩
    · exact .inl hi
  case finishExecution.settleExecuted v flags again hpc hneed =>
    cases again <;> exact .inl (by simpa [finishEvents] using hi)
  case finishExecution.settleValidated v flags again hpc hneed =>
    cases again <;> exact .inl (by simpa [finishEvents] using hi)
  all_goals exact .inl (by simpa using hi)

/-- A slot written by a step holds the same whatever it held before. -/
theorem SameRun.step (hb : Bounds cfg s) (h : SameRun s t) (hs : workerStep cfg w s = some s') :
    SameRun s' (s'.withSlots (slotsAfter s w t.executionResults)) where
  same := rfl
  written i hi := by
    show slotsAfter s w t.executionResults i = s'.executionResults i
    rw [workerStep_executionResults hs]
    rcases (step_of_workerStep hb.finishExecution_lt hs).wroteResult hi with
      hold | ⟨v, flags, result, rfl, hpc⟩
    · have hsame := h.written i hold
      unfold slotsAfter
      cases s.pc w with
      | writeResult v flags result =>
        show Function.update t.executionResults v.txIdx (some result) i =
          Function.update s.executionResults v.txIdx (some result) i
        rw [Function.update_apply, Function.update_apply, hsame]
      | _ => exact hsame
    · simp only [slotsAfter, hpc, Function.update_self]

/-- Runs that agree but for the old slots keep agreeing, and end for the same workers. -/
theorem SameRun.run (ws : List WorkerId) (hs : (workers cfg).Reachable s) (h : SameRun s t) :
    Option.Rel SameRun ((workers cfg).run ws s) ((workers cfg).run ws t) := by
  refine Machine.run_rel (fun w s t hs h => ?_) ws hs h
  show Option.Rel SameRun (if w < cfg.concurrencyLevel then workerStep cfg w s else none)
    (if w < cfg.concurrencyLevel then workerStep cfg w t else none)
  split
  · rw [h.same, workerStep_withSlots]
    cases hstep : workerStep cfg w s with
    | none => exact .none
    | some s' => exact .some (h.step (bounds_reachable hs) hstep)
  · exact .none

/-! ## The end of a run -/

/-- An aborted scheduler has a reason, or a worker about to give one. -/
def AbortExplained (s : System X R E) : Prop :=
  s.scheduler.aborted = true →
    s.abortReason ≠ none ∨ ∃ w reason, s.pc w = .setAbortReason reason

theorem AbortExplained.step (h : Step cfg w s s') (hA : AbortExplained s) : AbortExplained s' := by
  intro ha
  by_cases hold : s.scheduler.aborted = true
  · rcases hA hold with hreason | ⟨w', reason, hpc⟩
    · left
      rcases h with h | h | h | h | h <;> cases h <;> simp_all
    · by_cases hw : w' = w
      · subst hw
        left
        rcases h with h | h | h | h | h <;> cases h <;> simp_all
      · exact .inr ⟨w', reason, by rw [h.pc_of_ne hw, hpc]⟩
  · right
    rcases h with h | h | h | h | h <;> cases h
    case execute.abort v reason hpc => exact ⟨w, reason, by simp⟩
    all_goals exact absurd ha hold

theorem abortExplained_reachable (h : (workers cfg).Reachable s) : AbortExplained s :=
  invariant_of_step
    (fun s hs => by
      obtain ⟨hs, -⟩ := hs
      intro ha
      rw [hs] at ha
      cases ha)
    (fun _ _ _ _ _ _ hstep hA => hA.step hstep) h

/-- A run that ends without an abort reason was not aborted. -/
theorem not_aborted_of_left (h : (workers cfg).Reachable s)
    (hleft : ∀ w, w < cfg.concurrencyLevel → s.pc w = .left) (hnone : s.abortReason = none) :
    s.scheduler.aborted = false := by
  by_contra hne
  rcases abortExplained_reachable h (by simpa using hne) with hreason | ⟨w, reason, hpc⟩
  · exact hreason hnone
  · by_cases hw : w < cfg.concurrencyLevel
    · rw [hleft w hw] at hpc
      cases hpc
    · rw [pc_of_le h (not_lt.mp hw)] at hpc
      cases hpc

/-- It has validated the block. -/
theorem validated_of_left (h : (workers cfg).Reachable s) (hlevel : 0 < cfg.concurrencyLevel)
    (hleft : ∀ w, w < cfg.concurrencyLevel → s.pc w = .left) (hnone : s.abortReason = none)
    {i : Nat} (hi : i < cfg.blockSize) :
    (s.scheduler.transactionsStatus i).status = .validated := by
  have ha := not_aborted_of_left h hleft hnone
  obtain ⟨hq, he, hv⟩ := past_of_left h ha hlevel hleft
  rw [← (bounds_reachable h).blockSize] at hi
  exact validated_of_past h ha hq he hv hi

/-- It has written every slot of the block. -/
theorem wroteResult_of_left (h : (workers cfg).Reachable s) (hlevel : 0 < cfg.concurrencyLevel)
    (hleft : ∀ w, w < cfg.concurrencyLevel → s.pc w = .left) (hnone : s.abortReason = none)
    {i : Nat} (hi : i < cfg.blockSize) : .wroteResult i ∈ s.log :=
  (written_reachable h).finished i (by rw [validated_of_left h hlevel hleft hnone hi]; rfl)

/-! ## Calls on one `Pevm` -/

namespace PevmState

variable {T : Type} {block : Block T} {p p' : PevmState} {outcome : Option PevmResult}

/-- The slot write of the workers is the one of the source, which recycles the old result. -/
theorem workerStep_writeSlot {X : Type} {cfg : Config X PevmTxExecutionResult ExecutionError}
    {s : System X PevmTxExecutionResult ExecutionError} {v : TxVersion} {flags : FinishExecFlags}
    {result : PevmTxExecutionResult} (hpc : s.pc w = .writeResult v flags result) :
    workerStep cfg w s = some (({ s with
      executionResults := Function.update s.executionResults v.txIdx
        (writeSlot (s.executionResults v.txIdx) result) }.record [.wroteResult v.txIdx]).goto w
          (.finishExecution v flags .lock)) := by
  rw [writeSlot_eq]
  simp only [workerStep, hpc]

/-- The values a `Pevm` can have: it is fresh, or left by a call on such a value. -/
inductive Reused : PevmState → Prop where
  | fresh : Reused .default
  | call {p p' : PevmState} {T : Type} {block : Block T} {schedule : List WorkerId}
      {outcome : Option PevmResult} (hp : Reused p)
      (h : p.executeRevmParallel block schedule = some (outcome, p')) : Reused p'

theorem abortReason_collect {s : System Vm.Execution PevmTxExecutionResult ExecutionError} :
    (collect block s).2.abortReason = none := by
  unfold collect
  split <;> rfl

/-- Every call that is not on an empty block takes the abort reason. -/
theorem Reused.abortReason (h : Reused p) : p.abortReason = none := by
  induction h with
  | fresh => rfl
  | call hp h ih =>
    unfold executeRevmParallel at h
    split at h
    · cases h
      exact ih
    · obtain ⟨s, -, hs⟩ := Option.bind_eq_some_iff.mp h
      split at hs
      · have hcollect := Option.some.inj hs
        calc
          _ = (collect _ s).2.abortReason := by rw [hcollect]
          _ = none := abortReason_collect
      · cases hs

/-- A `Pevm` without an abort reason spawns its workers in an initial state. -/
theorem spawn_reachable (block : Block T) (h : p.abortReason = none) :
    (workers (block.vm.config block.concurrencyLevel)).Reachable (p.spawn block) :=
  .init ⟨rfl, rfl, h, fun _ => rfl, rfl⟩

theorem joined_iff {s : System Vm.Execution PevmTxExecutionResult ExecutionError} :
    joined block s = true ↔ ∀ w, w < block.concurrencyLevel → s.pc w = .left := by
  unfold joined
  rw [List.all_eq_true]
  refine ⟨fun h w hw => ?_, fun h w hw => ?_⟩
  · have hleft := h w (List.mem_range.mpr hw)
    split at hleft
    · assumption
    · cases hleft
  · rw [h w (List.mem_range.mp hw)]

/-- Buffers that agree on the slots of the block, all of them written, give the same results. -/
theorem takeSlots_congr {slots slots' : Nat → Option PevmTxExecutionResult} {n : Nat}
    (hsome : ∀ i, i < n → (slots i).isSome) (hsame : ∀ i, i < n → slots' i = slots i) :
    ∃ results, takeSlots slots n = some results ∧ takeSlots slots' n = some results := by
  suffices hlist : ∀ l : List Nat, (∀ i ∈ l, i < n) →
      ∃ results, l.mapM slots = some results ∧ l.mapM slots' = some results from
    hlist (List.range n) fun i hi => List.mem_range.mp hi
  intro l
  induction l with
  | nil => exact fun _ => ⟨[], rfl, rfl⟩
  | cons i l ih =>
    intro hl
    have hi := hl i (List.mem_cons_self ..)
    obtain ⟨result, hresult⟩ := Option.isSome_iff_exists.mp (hsome i hi)
    obtain ⟨results, h, h'⟩ := ih fun j hj => hl j (List.mem_cons_of_mem _ hj)
    refine ⟨result :: results, ?_, ?_⟩
    · rw [List.mapM_cons, hresult, h]
      rfl
    · rw [List.mapM_cons, hsame i hi, hresult, h']
      rfl

theorem takeSlots_length {slots : Nat → Option PevmTxExecutionResult} {n : Nat}
    {results : List PevmTxExecutionResult} (h : takeSlots slots n = some results) :
    results.length = n := by
  suffices hlist : ∀ (l : List Nat) (results : List PevmTxExecutionResult),
      l.mapM slots = some results → results.length = l.length from
    (hlist _ results h).trans List.length_range
  intro l
  induction l with
  | nil =>
    intro results h
    cases h
    rfl
  | cons i l ih =>
    intro results h
    rw [List.mapM_cons] at h
    obtain ⟨result, -, h⟩ := Option.bind_eq_some_iff.mp h
    obtain ⟨rest, hrest, h⟩ := Option.bind_eq_some_iff.mp h
    cases h
    exact congrArg (· + 1) (ih rest hrest)

theorem takeSlots_getElem? {slots : Nat → Option PevmTxExecutionResult} {n i : Nat}
    {results : List PevmTxExecutionResult} (h : takeSlots slots n = some results) (hi : i < n) :
    results[i]? = slots i := by
  suffices hlist : ∀ (l : List Nat) (results : List PevmTxExecutionResult) (i : Nat),
      l.mapM slots = some results → results[i]? = (l[i]?).bind slots by
    rw [hlist _ results i h, List.getElem?_range hi]
    rfl
  intro l
  induction l with
  | nil =>
    intro results i h
    cases h
    rfl
  | cons j l ih =>
    intro results i h
    rw [List.mapM_cons] at h
    obtain ⟨result, hresult, h⟩ := Option.bind_eq_some_iff.mp h
    obtain ⟨rest, hrest, h⟩ := Option.bind_eq_some_iff.mp h
    cases h
    cases i with
    | zero => exact hresult.symm
    | succ i => exact ih rest i hrest

/-- What a finished call returns depends on this run alone, and no empty slot is taken. -/
theorem collect_congr {s t : System Vm.Execution PevmTxExecutionResult ExecutionError}
    (hs : (workers (block.vm.config block.concurrencyLevel)).Reachable s)
    (hlevel : 0 < block.concurrencyLevel) (hjoined : joined block s = true) (h : SameRun s t) :
    (collect block t).1 = (collect block s).1 ∧ (collect block s).1 ≠ none := by
  have hreason : t.abortReason = s.abortReason := by
    rw [h.same]
    rfl
  have hmem : t.mvMemory = s.mvMemory := by
    rw [h.same]
    rfl
  unfold collect
  rw [hreason, hmem]
  cases hr : s.abortReason with
  | some reason => cases reason <;> exact ⟨rfl, nofun⟩
  | none =>
    have hwrote : ∀ i, i < block.vm.blockSize → .wroteResult i ∈ s.log := fun i hi =>
      wroteResult_of_left hs hlevel (joined_iff.mp hjoined) hr hi
    obtain ⟨results, hsome, hsome'⟩ := takeSlots_congr
      (fun i hi => (written_reachable hs).slot i (hwrote i hi))
      (fun i hi => h.written i (hwrote i hi))
    show (takeSlots t.executionResults block.vm.blockSize).map _ =
        (takeSlots s.executionResults block.vm.blockSize).map _ ∧ _
    rw [hsome, hsome']
    exact ⟨rfl, nofun⟩

/-- **A `Pevm` can be reused.** After any sequence of calls, whatever their blocks, schedules and
outcomes, a call with some workers returns what it would return on a fresh `Pevm` under the same
schedule, and takes no empty slot. -/
theorem executeRevmParallel_reused (hp : Reused p) (block : Block T)
    (hlevel : 0 < block.concurrencyLevel) (schedule : List WorkerId) :
    (p.executeRevmParallel block schedule).map Prod.fst =
        (PevmState.default.executeRevmParallel block schedule).map Prod.fst ∧
      (p.executeRevmParallel block schedule).map Prod.fst ≠ some none := by
  unfold executeRevmParallel
  split
  · exact ⟨rfl, nofun⟩
  · have hinit := spawn_reachable block (show PevmState.default.abortReason = none from rfl)
    have hsame : SameRun (PevmState.default.spawn block) (p.spawn block) :=
      ⟨by simp only [spawn, System.withSlots, hp.abortReason, PevmState.default], nofun⟩
    have hrel := hsame.run schedule hinit
    have hend : ∀ s, (workers (block.vm.config block.concurrencyLevel)).run schedule
        (PevmState.default.spawn block) = some s → _ := fun s hs => Machine.reachable_run hinit hs
    generalize (workers (block.vm.config block.concurrencyLevel)).run schedule
      (PevmState.default.spawn block) = fresh at hrel hend
    generalize (workers (block.vm.config block.concurrencyLevel)).run schedule
      (p.spawn block) = reused at hrel
    cases hrel with
    | none => exact ⟨rfl, nofun⟩
    | @some s t h =>
      have hjoined : joined block t = joined block s := by
        rw [h.same]
        rfl
      show Option.map Prod.fst (if joined block t = true then some (collect block t) else none) =
          Option.map Prod.fst (if joined block s = true then some (collect block s) else none) ∧
        Option.map Prod.fst (if joined block t = true then some (collect block t) else none) ≠
          some none
      rw [hjoined]
      split
      · obtain ⟨hsame, hne⟩ := collect_congr (hend s rfl) hlevel ‹_› h
        rw [Option.map_some, Option.map_some, hsame]
        exact ⟨rfl, fun hnone => hne (Option.some.inj hnone)⟩
      · exact ⟨rfl, nofun⟩

end PevmState

namespace Sample

/-- A call of the counter and a creation, whose run fails. -/
def failingVm : Vm TxEnv :=
  { vm with
    blockSize := 2
    txs := fun
      | 0 => tx 1 counter 0
      | _ => { tx 2 counter 0 with kind := .create } }

/-- A block for one worker. -/
def block (vm : Vm TxEnv) : Block TxEnv :=
  ⟨vm, 1, .ok []⟩

end Sample

/-- A block that fails leaves the result of its first transaction behind; the sample block returns on
this `Pevm` what it returns on a fresh one. -/
theorem executeRevmParallel_reused_sample : ∃ outcome p,
    PevmState.default.executeRevmParallel (Sample.block Sample.failingVm) (List.replicate 37 0) =
      some (outcome, p) ∧ (p.executionResults 0).isSome ∧
    (p.executeRevmParallel (Sample.block Sample.vm) (List.replicate 109 0)).map Prod.fst =
        (PevmState.default.executeRevmParallel (Sample.block Sample.vm)
          (List.replicate 109 0)).map Prod.fst ∧
      (p.executeRevmParallel (Sample.block Sample.vm) (List.replicate 109 0)).map Prod.fst ≠
        some none := by
  have hslot : (PevmState.default.executeRevmParallel (Sample.block Sample.failingVm)
      (List.replicate 37 0)).any (fun r => (r.2.executionResults 0).isSome) = true := by
    decide +kernel
  obtain ⟨⟨outcome, p⟩, hcall, hp⟩ := (Option.any_eq_true _ _).mp hslot
  exact ⟨outcome, p, hcall, hp, PevmState.executeRevmParallel_reused (.call .fresh hcall)
    (Sample.block Sample.vm) Nat.zero_lt_one _⟩

end Pevm
