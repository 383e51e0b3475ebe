import Pevm.Lib.AssocList
import Pevm.Proofs.Reuse
import Pevm.Proofs.Writes

/-!
# What is recorded

The entries of a finished transaction are those of the write set its last execution recorded, and
its slot holds the result of that execution (`Recorded`). What is known of an execution when it
calls `record` (`Executor.Keeps`) is so known of the entries and the slots of the block.

An entry that no recorded write set accounts for is an ESTIMATE of the initial memory. It is left
until the first record of its transaction, and goes then if the write set covers it (`Orphans`).
-/

namespace Pevm

open Interleaving Scheduler MvMemory

variable {X R E : Type} {cfg : Config X R E} {w : WorkerId} {s s' : System X R E}

/-! ## Executions -/

/-- `P` is known of an execution while it runs and `Q` of what it records, if its steps satisfy `C`.
Both may say that addresses are registered as lazy. -/
structure Executor.Keeps (executor : Executor X R E) (C : TxVersion → X → Prop)
    (P : List Address → TxVersion → X → Prop)
    (Q : List Address → TxVersion → WriteSet → R → Prop) : Prop where
  start : ∀ lazyAddresses v, P lazyAddresses v (executor.start v)
  mono : ∀ {lazyAddresses lazyAddresses' v x}, lazyAddresses ⊆ lazyAddresses' →
    P lazyAddresses v x → P lazyAddresses' v x
  monoRecord : ∀ {lazyAddresses lazyAddresses' v ws r}, lazyAddresses ⊆ lazyAddresses' →
    Q lazyAddresses v ws r → Q lazyAddresses' v ws r
  run : ∀ {v x x'} {m : MvMemory}, C v x → P m.lazyAddresses v x → executor.step v m x = .run x' →
    P m.lazyAddresses v x'
  addNewBytecode : ∀ {v x x' hash code} {m : MvMemory}, C v x → P m.lazyAddresses v x →
    executor.step v m x = .addNewBytecode hash code x' → P m.lazyAddresses v x'
  addLazyAddresses : ∀ {v x x' addresses} {m : MvMemory}, C v x → P m.lazyAddresses v x →
    executor.step v m x = .addLazyAddresses addresses x' →
      P (insertLazyAddresses m.lazyAddresses addresses) v x'
  record : ∀ {v x rs ws need r} {m : MvMemory}, C v x → P m.lazyAddresses v x →
    executor.step v m x = .record rs ws need r → Q m.lazyAddresses v ws r

/-- The condition on a run that every step of an execution satisfies `C`. -/
def StepsMeet (C : TxVersion → X → Prop) (w : WorkerId) (s : System X R E) : Prop :=
  ∀ v x, s.pc w = .execute v x → C v x

/-- A lazy address stays registered. -/
theorem Step.lazyAddresses_subset (h : Step cfg w s s') :
    s.mvMemory.lazyAddresses ⊆ s'.mvMemory.lazyAddresses := by
  rcases h with h | h | h | h | h <;> cases h
  case execute.addNewBytecode v x x' hash code hpc hx =>
    simp only [System.goto_mvMemory, System.withMemory_mvMemory, addNewBytecode]
    split <;> exact List.Subset.refl _
  case execute.addLazyAddresses => exact fun a ha => mem_insertLazyAddresses.mpr (.inl ha)
  all_goals exact List.Subset.refl _

section Keeps

variable {C : TxVersion → X → Prop} {P : List Address → TxVersion → X → Prop}
  {Q : List Address → TxVersion → WriteSet → R → Prop}

/-- What is known at the program counters of the workers. -/
structure Carries (P : List Address → TxVersion → X → Prop)
    (Q : List Address → TxVersion → WriteSet → R → Prop) (s : System X R E) : Prop where
  execute : ∀ w v x, s.pc w = .execute v x → P s.mvMemory.lazyAddresses v x
  record : ∀ w v rs ws need r pc, s.pc w = .record v rs ws need r pc →
    Q s.mvMemory.lazyAddresses v ws r

/-- A worker comes to an execution by its start or by one of its steps. -/
theorem Carries.execute_step (hK : cfg.executor.Keeps C P Q) (hC : StepsMeet C w s)
    (h : Step cfg w s s') (hP : Carries P Q s) {v : TxVersion} {x : X}
    (hpc : s'.pc w = .execute v x) : P s'.mvMemory.lazyAddresses v x := by
  rcases h with h | h | h | h | h <;> cases h
  case execute.run v' x₀ x' hpc₀ hx =>
    obtain ⟨rfl, rfl⟩ : v' = v ∧ x' = x := by simpa using hpc
    exact hK.run (hC _ _ hpc₀) (hP.execute w _ _ hpc₀) hx
  case execute.addNewBytecode v' x₀ x' hash code hpc₀ hx =>
    obtain ⟨rfl, rfl⟩ : v' = v ∧ x' = x := by simpa using hpc
    refine hK.mono ?_ (hK.addNewBytecode (hC _ _ hpc₀) (hP.execute w _ _ hpc₀) hx)
    simp only [System.goto_mvMemory, System.withMemory_mvMemory, addNewBytecode]
    split <;> exact List.Subset.refl _
  case execute.addLazyAddresses v' x₀ x' addresses hpc₀ hx =>
    obtain ⟨rfl, rfl⟩ : v' = v ∧ x' = x := by simpa using hpc
    exact hK.addLazyAddresses (hC _ _ hpc₀) (hP.execute w _ _ hpc₀) hx
  case nextTask.steal i _ _ _ | nextTask.startExecution i _ _ _ =>
    obtain ⟨rfl, rfl⟩ : s.scheduler.version i = v ∧ _ = x := by simpa using hpc
    exact hK.start _ _
  case execute.retryAgain v' _ _ | validate.dispatchExecution v' _ _ =>
    obtain ⟨rfl, rfl⟩ : v' = v ∧ _ = x := by simpa using hpc
    exact hK.start _ _
  all_goals simp at hpc

/-- A worker comes to `record` from the execution of what it records. -/
theorem Carries.record_step (hK : cfg.executor.Keeps C P Q) (hC : StepsMeet C w s)
    (h : Step cfg w s s') (hP : Carries P Q s) {v : TxVersion} {rs : ReadSet} {ws : WriteSet}
    {need : Bool} {r : R} {pc : RecordPc} (hpc : s'.pc w = .record v rs ws need r pc) :
    Q s'.mvMemory.lazyAddresses v ws r := by
  rcases h with h | h | h | h | h <;> cases h
  case execute.succeed v' x₀ rs' ws' need' r' hpc₀ hx =>
    obtain ⟨rfl, rfl, rfl, rfl, rfl, rfl⟩ : v' = v ∧ rs' = rs ∧ ws' = ws ∧ need' = need ∧ r' = r ∧
      _ = pc := by simpa using hpc
    exact hK.record (hC _ _ hpc₀) (hP.execute w _ _ hpc₀) hx
  case execute.recordLock v' rs' ws' need' r' hpc₀ _
    | execute.recordRemoved v' rs' ws' need' r' k hpc₀ _
    | execute.recordRemove v' rs' ws' need' r' k l hpc₀ _ _
    | execute.recordKeep v' rs' ws' need' r' k l hpc₀ _ _
    | execute.recordInsertOld v' rs' ws' rest need' new r' l value hpc₀ _
    | execute.recordInsertNew v' rs' ws' rest need' new r' l value hpc₀ _ =>
    obtain ⟨rfl, rfl, rfl, rfl, rfl, rfl⟩ : v' = v ∧ rs' = rs ∧ ws' = ws ∧ need' = need ∧ r' = r ∧
      _ = pc := by simpa using hpc
    exact hP.record w _ _ _ _ _ _ hpc₀
  all_goals simp at hpc

theorem Carries.step (hK : cfg.executor.Keeps C P Q) (hC : StepsMeet C w s)
    (h : Step cfg w s s') (hP : Carries P Q s) : Carries P Q s' where
  execute w' v x hpc := by
    by_cases hw : w' = w
    · subst hw
      exact hP.execute_step hK hC h hpc
    · rw [h.pc_of_ne hw] at hpc
      exact hK.mono h.lazyAddresses_subset (hP.execute w' v x hpc)
  record w' v rs ws need r pc hpc := by
    by_cases hw : w' = w
    · subst hw
      exact hP.record_step hK hC h hpc
    · rw [h.pc_of_ne hw] at hpc
      exact hK.monoRecord h.lazyAddresses_subset (hP.record w' v rs ws need r pc hpc)

theorem carries_reachable (hK : cfg.executor.Keeps C P Q)
    (h : (workers cfg).ReachableVia (StepsMeet C) s) : Carries P Q s :=
  invariant_of_step
    (fun s hs => by
      obtain ⟨-, -, -, hpc, -⟩ := hs
      exact ⟨fun w v x h => by simp [hpc w] at h, fun w _ _ _ _ _ _ h => by simp [hpc w] at h⟩)
    (fun _ _ _ _ _ hC hstep hP => hP.step hK hC hstep) h

end Keeps

/-! ## Who touches a transaction -/

/-- A worker at this program counter may change the entries, the recorded locations or the slot of
transaction `j`. -/
def Pc.touches (j : Nat) : Pc X R E → Prop
  | .record v _ _ _ _ _ | .writeResult v _ _ | .convertWrites v _ => v.txIdx = j
  | _ => False

theorem MvMemory.entry_setEstimate_of_ne {m : MvMemory} {l l' : MemoryLocationHash} {i j : Nat}
    (h : j ≠ i) : (m.setEstimate l i).entry l' j = m.entry l' j := by
  by_cases hl : l' = l
  · subst hl
    cases hd : m.data l' <;> simp [setEstimate, modifyHistory, entry, hd, h]
  · simp [setEstimate, modifyHistory, entry, hl]

/-- Nobody else changes the entries and the recorded locations of a transaction. -/
theorem Step.memory_untouched (h : Step cfg w s s') {j : Nat} (hj : ¬ (s.pc w).touches j) :
    (∀ l, s'.mvMemory.entry l j = s.mvMemory.entry l j) ∧
      s'.mvMemory.lastLocations j = s.mvMemory.lastLocations j := by
  cases h.memoryEffect with
  | none hd hl => exact ⟨fun l => entry_congr _ _ hd, by rw [hl]⟩
  | @lock v _ _ _ _ hpc hd hl =>
    have hne : j ≠ v.txIdx := fun heq => hj (by simp [hpc, Pc.touches, heq])
    exact ⟨fun l => entry_congr _ _ hd, by rw [hl, Function.update_of_ne hne]⟩
  | @remove v _ _ _ _ k l' hpc hk hd hl =>
    have hne : j ≠ v.txIdx := fun heq => hj (by simp [hpc, Pc.touches, heq])
    refine ⟨fun l => ?_, by rw [hl, Function.update_of_ne hne]⟩
    rw [entry_congr _ _ hd, entry_removeEntry, if_neg fun hlj => hne hlj.2]
  | @insertOld v _ _ _ _ _ _ _ l' value hpc hpc' hw hd hl =>
    have hne : j ≠ v.txIdx := fun heq => hj (by simp [hpc, Pc.touches, heq])
    refine ⟨fun l => ?_, by rw [hl]⟩
    rw [entry_congr _ _ hd, entry_insertEntry, if_neg fun hlj => hne hlj.2]
  | @insertNew v _ _ _ _ _ _ _ l' value hpc hpc' hw hd hl =>
    have hne : j ≠ v.txIdx := fun heq => hj (by simp [hpc, Pc.touches, heq])
    refine ⟨fun l => ?_, by rw [hl, Function.update_of_ne hne]⟩
    rw [entry_congr _ _ hd, entry_insertEntry, if_neg fun hlj => hne hlj.2]
  | @convert v l' rest hpc hpc' hd hl =>
    have hne : j ≠ v.txIdx := fun heq => hj (by simp [hpc, Pc.touches, heq])
    refine ⟨fun l => ?_, by rw [hl]⟩
    rw [entry_congr _ _ hd, entry_setEstimate_of_ne hne]

/-- Nobody else writes the slot of a transaction. -/
theorem Step.slot_untouched (h : Step cfg w s s') {j : Nat} (hj : ¬ (s.pc w).touches j) :
    s'.executionResults j = s.executionResults j := by
  rcases h with h | h | h | h | h <;> cases h
  case execute.writeResult v flags r hpc =>
    have hne : j ≠ v.txIdx := fun heq => hj (by simp [hpc, Pc.touches, heq])
    exact Function.update_of_ne hne _ _
  all_goals rfl

/-- The version a worker has called `record` for and not finished yet. -/
def Pc.storing : Pc X R E → Option TxVersion
  | .record v _ _ _ _ (.remove _) | .record v _ _ _ _ (.insert _ _) | .writeResult v _ _
  | .finishExecution v _ _ => some v
  | _ => none

theorem Pc.owner_of_touches {pc : Pc X R E} {j : Nat} (h : pc.touches j) :
    (∃ v, v.txIdx = j ∧ pc.phase.execution = some v) ∨ pc.phase.abort = some j := by
  unfold Pc.touches at h
  split at h
  case h_1 v _ _ _ _ _ => exact .inl ⟨v, h, rfl⟩
  case h_2 v _ _ => exact .inl ⟨v, h, rfl⟩
  case h_3 v _ => exact .inr (congrArg some h)
  case h_4 => exact h.elim

theorem Pc.owner_of_storing {pc : Pc X R E} {v : TxVersion} (h : pc.storing = some v) :
    pc.phase.execution = some v ∨ pc.phase = .recounting v := by
  unfold Pc.storing at h
  split at h
  case h_4 v' flags pc =>
    obtain rfl : v' = v := by simpa using h
    cases pc
    case settle again => cases again <;> simp [Pc.phase, Phase.execution]
    all_goals simp [Pc.phase, Phase.execution]
  all_goals first | exact .inl h | cases h

/-- A finished transaction is not touched. -/
theorem not_touches_of_finished (hO : Ownership s.own) {j : Nat}
    (hfin : isExecutedOrValidated (s.scheduler.transactionsStatus j).status = true) :
    ¬ (s.pc w).touches j := by
  intro ht
  rcases Pc.owner_of_touches ht with ⟨v, rfl, hexec⟩ | habort
  · rw [show s.scheduler.transactionsStatus v.txIdx = _ from hO.executing w v hexec] at hfin
    cases hfin
  · rw [show (s.scheduler.transactionsStatus j).status = _ from hO.aborting w j habort] at hfin
    cases hfin

/-- A transaction that is being stored is not touched by another worker. -/
theorem not_touches_of_storing (hO : Ownership s.own) {w₀ : WorkerId} (hw : w₀ ≠ w) {v : TxVersion}
    (hv : (s.pc w₀).storing = some v) : ¬ (s.pc w).touches v.txIdx := by
  rcases Pc.owner_of_storing hv with hexec | hphase
  · intro ht
    rcases Pc.owner_of_touches ht with ⟨v', hv', hexec'⟩ | habort
    · exact hw (hO.executingUnique w₀ w v v' hexec hexec' hv'.symm)
    · have hst := hO.aborting w v.txIdx habort
      rw [hO.executing w₀ v hexec] at hst
      cases hst
  · refine not_touches_of_finished hO ?_
    rw [show (s.scheduler.transactionsStatus v.txIdx).status = _ from hO.recounting w₀ v hphase]
    rfl

/-- A finished transaction keeps its incarnation. -/
theorem Step.incarnation_finished (hb : Bounds cfg s) (hO : Ownership s.own) (h : Step cfg w s s')
    {i : Nat} (hfin : isExecutedOrValidated (s'.scheduler.transactionsStatus i).status = true) :
    (s'.scheduler.transactionsStatus i).incarnation =
      (s.scheduler.transactionsStatus i).incarnation := by
  rcases h.statusEdge hb hO i with heq | hedge
  · rw [heq]
  · generalize s.scheduler.transactionsStatus i = a at *
    generalize s'.scheduler.transactionsStatus i = b at *
    cases hedge <;> first | rfl | cases hfin

/-- Whether this step finishes the transaction, of the version its worker executed, or it was
finished before and is not touched. -/
theorem Step.finished_cases (hb : Bounds cfg s) (hO : Ownership s.own) (h : Step cfg w s s') {i : Nat}
    (hfin : isExecutedOrValidated (s'.scheduler.transactionsStatus i).status = true) :
    isExecutedOrValidated (s.scheduler.transactionsStatus i).status = true ∨
      ∃ flags pc, s.pc w = .finishExecution
        ⟨i, (s'.scheduler.transactionsStatus i).incarnation⟩ flags pc := by
  by_cases hold : isExecutedOrValidated (s.scheduler.transactionsStatus i).status = true
  · exact .inl hold
  · obtain ⟨v, flags, pc, rfl, hpc⟩ := (h.finished hb hO hfin).resolve_left hold
    refine .inr ⟨flags, pc, ?_⟩
    have hst : s.scheduler.transactionsStatus v.txIdx = ⟨v.txIncarnation, .executing⟩ := by
      have hstoring : (s.pc w).storing = some v := by rw [hpc]; rfl
      rcases Pc.owner_of_storing hstoring with hexec | hphase
      · exact hO.executing w v hexec
      · have hval := hO.recounting w v hphase
        rw [show (s.scheduler.transactionsStatus v.txIdx).status = _ from hval] at hold
        exact absurd rfl hold
    rw [h.incarnation_finished hb hO hfin, hst]
    exact hpc

/-! ## The recorded write set -/

/-- The writes of a version are in the memory, those at the locations `rest` excepted. -/
structure Stored (s : System X R E) (v : TxVersion) (ws : WriteSet)
    (rest : List MemoryLocationHash) : Prop where
  written : ∀ l ∈ (s.mvMemory.lastLocations v.txIdx).write, l ∈ rest ∨
    ∃ value, (l, value) ∈ ws ∧ s.mvMemory.entry l v.txIdx = some (.data v.txIncarnation value)
  recorded : ∀ l ∈ AssocList.keys ws, l ∈ rest ∨ l ∈ (s.mvMemory.lastLocations v.txIdx).write

theorem Stored.untouched {v : TxVersion} {ws : WriteSet} {rest : List MemoryLocationHash}
    (hS : Stored s v ws rest) (h : Step cfg w s s') (hv : ¬ (s.pc w).touches v.txIdx) :
    Stored s' v ws rest := by
  obtain ⟨hentry, hlast⟩ := h.memory_untouched hv
  refine ⟨fun l hl => ?_, fun l hl => ?_⟩
  · rw [hlast] at hl
    rw [hentry]
    exact hS.written l hl
  · rw [hlast]
    exact hS.recorded l hl

/-- One entry is inserted. -/
theorem Stored.insert {v : TxVersion} {ws rest : WriteSet} {l : MemoryLocationHash}
    {value : MemoryValue} (hS : Stored s v ws (l :: AssocList.keys rest)) (hmem : (l, value) ∈ ws)
    (hd : s'.mvMemory.data =
      (s.mvMemory.insertEntry l v.txIdx (.data v.txIncarnation value)).data)
    (hl : ∀ l', l' ∈ (s'.mvMemory.lastLocations v.txIdx).write ↔
      l' = l ∨ l' ∈ (s.mvMemory.lastLocations v.txIdx).write) :
    Stored s' v ws (AssocList.keys rest) := by
  refine ⟨fun l' hl' => ?_, fun l' hl' => ?_⟩
  · rw [entry_congr _ _ hd, entry_insertEntry]
    by_cases heq : l' = l
    · subst heq
      exact .inr ⟨value, hmem, if_pos ⟨rfl, rfl⟩⟩
    · rw [if_neg fun hlj => heq hlj.1]
      rcases hS.written l' (((hl l').mp hl').resolve_left heq) with hrest | hdone
      · exact .inl ((List.mem_cons.mp hrest).resolve_left heq)
      · exact .inr hdone
  · rw [hl]
    rcases hS.recorded l' hl' with hrest | hdone
    · rcases List.mem_cons.mp hrest with heq | hrest
      · exact .inr (.inl heq)
      · exact .inl hrest
    · exact .inr (.inr hdone)

/-- The entries of a transaction and its slot, from the call of `record` on. -/
structure Recorded (Q : List Address → TxVersion → WriteSet → R → Prop) (s : System X R E) :
    Prop where
  removing : ∀ w v rs ws need r k, s.pc w = .record v rs ws need r (.remove k) →
    ∀ j l, j < k → (s.mvMemory.lastLocations v.txIdx).write[j]? = some l → l ∈ AssocList.keys ws
  inserting : ∀ w v rs ws need r rest new, s.pc w = .record v rs ws need r (.insert rest new) →
    rest ⊆ ws ∧ Stored s v ws (AssocList.keys rest)
  writing : ∀ w v flags r, s.pc w = .writeResult v flags r →
    ∃ ws, Q s.mvMemory.lazyAddresses v ws r ∧ Stored s v ws []
  finishing : ∀ w v flags pc, s.pc w = .finishExecution v flags pc →
    ∃ ws r, Q s.mvMemory.lazyAddresses v ws r ∧ Stored s v ws [] ∧
      s.executionResults v.txIdx = some r
  finished : ∀ i, isExecutedOrValidated (s.scheduler.transactionsStatus i).status = true →
    ∃ ws r, Q s.mvMemory.lazyAddresses ⟨i, (s.scheduler.transactionsStatus i).incarnation⟩ ws r ∧
      Stored s ⟨i, (s.scheduler.transactionsStatus i).incarnation⟩ ws [] ∧
      s.executionResults i = some r

namespace Recorded

variable {C : TxVersion → X → Prop} {P : List Address → TxVersion → X → Prop}
  {Q : List Address → TxVersion → WriteSet → R → Prop}

/-- The worker itself passes a location that it keeps, or removes one. -/
theorem removing_self (hR : Recorded Q s) (h : Step cfg w s s') {v : TxVersion} {rs : ReadSet}
    {ws : WriteSet} {need : Bool} {r : R} {k : Nat}
    (hpc : s'.pc w = .record v rs ws need r (.remove k)) {j : Nat} {l : MemoryLocationHash}
    (hj : j < k) (hl : (s'.mvMemory.lastLocations v.txIdx).write[j]? = some l) :
    l ∈ AssocList.keys ws := by
  rcases h with h | h | h | h | h <;> cases h
  case execute.recordLock =>
    obtain ⟨-, -, -, -, -, hk⟩ : _ ∧ _ ∧ _ ∧ _ ∧ _ ∧ 0 = k := by simpa using hpc
    omega
  case execute.recordRemove v' rs' ws' need' r' k' l' hpc₀ hk hl' =>
    obtain ⟨rfl, rfl, rfl, rfl, rfl, rfl⟩ : v' = v ∧ rs' = rs ∧ ws' = ws ∧ need' = need ∧ r' = r ∧
      k' = k := by simpa using hpc
    refine hR.removing w _ _ _ _ _ _ hpc₀ j l hj (getElem?_swapRemove hj ?_)
    simpa [setLastLocations] using hl
  case execute.recordKeep v' rs' ws' need' r' k' l' hpc₀ hk hl' =>
    obtain ⟨rfl, rfl, rfl, rfl, rfl, rfl⟩ : v' = v ∧ rs' = rs ∧ ws' = ws ∧ need' = need ∧ r' = r ∧
      k' + 1 = k := by simpa using hpc
    rcases Nat.lt_succ_iff_lt_or_eq.mp hj with hlt | rfl
    · exact hR.removing w _ _ _ _ _ _ hpc₀ j l hlt hl
    · obtain ⟨p, hp, hpl⟩ := hl'
      have hkl : some l = some l' := hl.symm.trans hk
      rw [Option.some.inj hkl, ← hpl]
      exact List.mem_map_of_mem hp
  all_goals simp at hpc

/-- The worker itself starts to insert, or inserts one entry. -/
theorem inserting_self (hR : Recorded Q s) (h : Step cfg w s s') {v : TxVersion} {rs : ReadSet}
    {ws rest : WriteSet} {need new : Bool} {r : R}
    (hpc : s'.pc w = .record v rs ws need r (.insert rest new)) :
    rest ⊆ ws ∧ Stored s' v ws (AssocList.keys rest) := by
  rcases h with h | h | h | h | h <;> cases h
  case execute.recordRemoved v' rs' ws' need' r' k hpc₀ hk =>
    obtain ⟨rfl, rfl, rfl, rfl, rfl, rfl, rfl⟩ : v' = v ∧ rs' = rs ∧ ws' = ws ∧ need' = need ∧
      r' = r ∧ ws' = rest ∧ false = new := by simpa using hpc
    refine ⟨List.Subset.refl _, fun l hl => .inl ?_, fun l hl => .inl hl⟩
    -- the removal has passed every location
    obtain ⟨j, hj⟩ := List.mem_iff_getElem?.mp hl
    refine hR.removing w _ _ _ _ _ _ hpc₀ j l ?_ hj
    have hlen := List.getElem?_eq_none_iff.mp hk
    have hjlen := (List.getElem?_eq_some_iff.mp hj).1
    exact Nat.lt_of_lt_of_le hjlen hlen
  case execute.recordInsertOld v' rs' ws' rest' need' new' r' l value hpc₀ hl =>
    obtain ⟨rfl, rfl, rfl, rfl, rfl, rfl, rfl⟩ : v' = v ∧ rs' = rs ∧ ws' = ws ∧ need' = need ∧
      r' = r ∧ rest' = rest ∧ new' = new := by simpa using hpc
    obtain ⟨hsub, hS⟩ := hR.inserting w _ _ _ _ _ _ _ hpc₀
    refine ⟨fun p hp => hsub (List.mem_cons_of_mem _ hp),
      hS.insert (hsub List.mem_cons_self) rfl fun l' => ?_⟩
    exact ⟨.inr, fun hl' => hl'.elim (fun heq => heq ▸ hl) id⟩
  case execute.recordInsertNew v' rs' ws' rest' need' new' r' l value hpc₀ hl =>
    obtain ⟨rfl, rfl, rfl, rfl, rfl, rfl, -⟩ : v' = v ∧ rs' = rs ∧ ws' = ws ∧ need' = need ∧
      r' = r ∧ rest' = rest ∧ true = new := by simpa using hpc
    obtain ⟨hsub, hS⟩ := hR.inserting w _ _ _ _ _ _ _ hpc₀
    refine ⟨fun p hp => hsub (List.mem_cons_of_mem _ hp),
      hS.insert (hsub List.mem_cons_self) rfl fun l' => ?_⟩
    simp [setLastLocations, or_comm]
  all_goals simp at hpc

/-- The worker itself is done inserting. -/
theorem writing_self (hP : Carries P Q s) (hR : Recorded Q s) (h : Step cfg w s s')
    {v : TxVersion} {flags : FinishExecFlags} {r : R} (hpc : s'.pc w = .writeResult v flags r) :
    ∃ ws, Q s'.mvMemory.lazyAddresses v ws r ∧ Stored s' v ws [] := by
  rcases h with h | h | h | h | h <;> cases h
  case execute.recordUnlock v' rs ws need new r' hpc₀ =>
    obtain ⟨rfl, -, rfl⟩ : v' = v ∧ _ ∧ r' = r := by simpa using hpc
    have hS := (hR.inserting w _ _ _ _ _ _ _ hpc₀).2
    exact ⟨ws, hP.record w _ _ _ _ _ _ hpc₀, hS.written, hS.recorded⟩
  all_goals simp at hpc

/-- The worker itself writes the slot, or goes on. -/
theorem finishing_self (hR : Recorded Q s) (h : Step cfg w s s') {v : TxVersion}
    {flags : FinishExecFlags} {pc : FinishExecutionPc}
    (hpc : s'.pc w = .finishExecution v flags pc) :
    ∃ ws r, Q s'.mvMemory.lazyAddresses v ws r ∧ Stored s' v ws [] ∧
      s'.executionResults v.txIdx = some r := by
  rcases h with h | h | h | h | h <;> cases h
  case execute.writeResult v' flags' r hpc₀ =>
    obtain ⟨rfl, -, -⟩ : v' = v ∧ _ ∧ _ := by simpa using hpc
    obtain ⟨ws, hQ, hS⟩ := hR.writing w _ _ _ hpc₀
    exact ⟨ws, r, hQ, ⟨hS.written, hS.recorded⟩, Function.update_self ..⟩
  case finishExecution.lock v' flags' hpc₀ _ | finishExecution.lockDependents v' flags' hpc₀ _
    | finishExecution.drain v' flags' _ _ hpc₀ _ _ | finishExecution.lowerExecutionIdx v' flags' _ hpc₀
    | finishExecution.drained v' flags' hpc₀ _ | finishExecution.belowMin v' flags' hpc₀ _ _ _ _
    | finishExecution.nothingToValidate v' flags' hpc₀ _ _
    | finishExecution.aboveMin v' flags' hpc₀ _ _ _ | finishExecution.lowerMin v' flags' hpc₀ _ _
    | finishExecution.lowerToMin v' flags' _ hpc₀ | finishExecution.passedNew v' flags' hpc₀ _ _
    | finishExecution.passed v' flags' hpc₀ _ _ | finishExecution.notPassed v' flags' hpc₀ _
    | finishExecution.lowerToNext v' flags' hpc₀ | finishExecution.fallThrough v' flags' hpc₀ _ =>
    obtain ⟨rfl, -, -⟩ : v' = v ∧ _ ∧ _ := by simpa using hpc
    obtain ⟨ws, r, hQ, hS, hslot⟩ := hR.finishing w _ _ _ hpc₀
    exact ⟨ws, r, hQ, ⟨hS.written, hS.recorded⟩, hslot⟩
  all_goals simp at hpc

theorem step (hK : cfg.executor.Keeps C P Q) (hb : Bounds cfg s) (hO : Ownership s.own)
    (hP : Carries P Q s) (h : Step cfg w s s') (hR : Recorded Q s) : Recorded Q s' where
  removing w' v rs ws need r k hpc j l hj hl := by
    by_cases hw : w' = w
    · subst hw
      exact hR.removing_self h hpc hj hl
    · rw [h.pc_of_ne hw] at hpc
      have hno := not_touches_of_storing hO hw (v := v) (by rw [hpc]; rfl)
      rw [(h.memory_untouched hno).2] at hl
      exact hR.removing w' _ _ _ _ _ _ hpc j l hj hl
  inserting w' v rs ws need r rest new hpc := by
    by_cases hw : w' = w
    · subst hw
      exact hR.inserting_self h hpc
    · rw [h.pc_of_ne hw] at hpc
      have hno := not_touches_of_storing hO hw (v := v) (by rw [hpc]; rfl)
      obtain ⟨hsub, hS⟩ := hR.inserting w' _ _ _ _ _ _ _ hpc
      exact ⟨hsub, hS.untouched h hno⟩
  writing w' v flags r hpc := by
    by_cases hw : w' = w
    · subst hw
      exact writing_self hP hR h hpc
    · rw [h.pc_of_ne hw] at hpc
      have hno := not_touches_of_storing hO hw (v := v) (by rw [hpc]; rfl)
      obtain ⟨ws, hQ, hS⟩ := hR.writing w' _ _ _ hpc
      exact ⟨ws, hK.monoRecord h.lazyAddresses_subset hQ, hS.untouched h hno⟩
  finishing w' v flags pc hpc := by
    by_cases hw : w' = w
    · subst hw
      exact hR.finishing_self h hpc
    · rw [h.pc_of_ne hw] at hpc
      have hno := not_touches_of_storing hO hw (v := v) (by rw [hpc]; rfl)
      obtain ⟨ws, r, hQ, hS, hslot⟩ := hR.finishing w' _ _ _ hpc
      exact ⟨ws, r, hK.monoRecord h.lazyAddresses_subset hQ, hS.untouched h hno,
        (h.slot_untouched hno).trans hslot⟩
  finished i hfin := by
    rcases h.finished_cases hb hO hfin with hold | ⟨flags, pc, hpc⟩
    · have hno := not_touches_of_finished (w := w) hO hold
      have hinc := h.incarnation_finished hb hO hfin
      obtain ⟨ws, r, hQ, hS, hslot⟩ := hR.finished i hold
      rw [← hinc] at hQ hS
      exact ⟨ws, r, hK.monoRecord h.lazyAddresses_subset hQ, hS.untouched h hno,
        (h.slot_untouched hno).trans hslot⟩
    · have hno : ¬ (s.pc w).touches i := by
        rw [hpc]
        exact id
      obtain ⟨ws, r, hQ, hS, hslot⟩ := hR.finishing w _ _ _ hpc
      exact ⟨ws, r, hK.monoRecord h.lazyAddresses_subset hQ, hS.untouched h hno,
        (h.slot_untouched hno).trans hslot⟩

end Recorded

theorem recorded_reachable {C : TxVersion → X → Prop} {P : List Address → TxVersion → X → Prop}
    {Q : List Address → TxVersion → WriteSet → R → Prop} (hK : cfg.executor.Keeps C P Q)
    (h : (workers cfg).ReachableVia (StepsMeet C) s) : Recorded Q s :=
  invariant_of_step
    (fun s hs => by
      obtain ⟨hs, -, -, hpc, -⟩ := hs
      refine ⟨fun w _ _ _ _ _ _ h => ?_, fun w _ _ _ _ _ _ _ h => ?_, fun w _ _ _ h => ?_,
        fun w _ _ _ h => ?_, fun i h => ?_⟩
      · simp [hpc w] at h
      · simp [hpc w] at h
      · simp [hpc w] at h
      · simp [hpc w] at h
      · simp [hs, Scheduler.new, isExecutedOrValidated] at h)
    (fun _ _ _ hb hs _ hstep hR => hR.step hK hb (ownership_reachable hs.reachable)
      (carries_reachable hK hs) hstep) h

/-! ## Orphans -/

/-- The initial memory holds an ESTIMATE. -/
def Prefilled (cfg : Config X R E) (l : MemoryLocationHash) (i : Nat) : Prop :=
  ((MvMemory.new cfg.estimatedLocations cfg.lazyAddresses).entry l i).isSome

/-- The locations a worker has yet to write for the version it stores. -/
def Pc.unwritten : Pc X R E → Option (TxVersion × List MemoryLocationHash)
  | .record v _ _ _ _ (.insert rest _) => some (v, AssocList.keys rest)
  | .writeResult v _ _ | .finishExecution v _ _ => some (v, [])
  | _ => none

/-- Entries that no recorded write set accounts for. -/
structure Orphans (cfg : Config X R E) (s : System X R E) : Prop where
  orphan : ∀ i l e, s.mvMemory.entry l i = some e → l ∉ (s.mvMemory.lastLocations i).write →
    e = .estimate ∧ Prefilled cfg l i
  unwritten : ∀ w v ls l, (s.pc w).unwritten = some (v, ls) → (s.mvMemory.entry l v.txIdx).isSome →
    l ∈ (s.mvMemory.lastLocations v.txIdx).write ∨ l ∈ ls
  finished : ∀ i l, isExecutedOrValidated (s.scheduler.transactionsStatus i).status = true →
    (s.mvMemory.entry l i).isSome → l ∈ (s.mvMemory.lastLocations i).write
  prefilled : ∀ i l, Prefilled cfg l i → (s.mvMemory.entry l i).isSome
  converting : ∀ w v rest, s.pc w = .convertWrites v (.convert rest) →
    rest ⊆ (s.mvMemory.lastLocations v.txIdx).write

/-- The write sets to be recorded cover the ESTIMATEs of the initial memory. -/
def CoversPrefilled (cfg : Config X R E) (s : System X R E) : Prop :=
  ∀ w v rs ws need r pc l, s.pc w = .record v rs ws need r pc → Prefilled cfg l v.txIdx →
    l ∈ AssocList.keys ws

namespace Orphans

/-- No step makes an orphan. -/
theorem of_step (hN : Orphans cfg s) (h : Step cfg w s s') {i : Nat} {l : MemoryLocationHash}
    {e : MemoryEntry} (he : s'.mvMemory.entry l i = some e)
    (hl : l ∉ (s'.mvMemory.lastLocations i).write) :
    s.mvMemory.entry l i = some e ∧ l ∉ (s.mvMemory.lastLocations i).write := by
  by_cases ht : (s.pc w).touches i
  · cases h.memoryEffect with
    | none hd hlast => exact ⟨(entry_congr _ _ hd).symm.trans he, hlast ▸ hl⟩
    | @lock v _ _ _ _ hpc hd hlast =>
      obtain rfl : v.txIdx = i := by simpa [hpc, Pc.touches] using ht
      exact ⟨(entry_congr _ _ hd).symm.trans he, by simpa [hlast] using hl⟩
    | @remove v _ _ _ _ k l' hpc hk hd hlast =>
      obtain rfl : v.txIdx = i := by simpa [hpc, Pc.touches] using ht
      rw [entry_congr _ _ hd, entry_removeEntry] at he
      split at he
      · cases he
      · next hne =>
        refine ⟨he, fun hmem => hl ?_⟩
        have hperm := (swapRemove_perm hk).mem_iff.mp hmem
        rw [hlast, Function.update_self]
        exact (List.mem_cons.mp hperm).resolve_left fun heq => hne ⟨heq, rfl⟩
    | @insertOld v _ _ _ _ _ _ _ l' value hpc hpc' hmem hd hlast =>
      obtain rfl : v.txIdx = i := by simpa [hpc, Pc.touches] using ht
      rw [hlast] at hl
      have hne : ¬ (l = l' ∧ v.txIdx = v.txIdx) := fun hlj => hl (hlj.1 ▸ hmem)
      rw [entry_congr _ _ hd, entry_insertEntry, if_neg hne] at he
      exact ⟨he, hl⟩
    | @insertNew v _ _ _ _ _ _ _ l' value hpc hpc' hmem hd hlast =>
      obtain rfl : v.txIdx = i := by simpa [hpc, Pc.touches] using ht
      rw [hlast, Function.update_self, List.mem_append, not_or, List.mem_singleton] at hl
      rw [entry_congr _ _ hd, entry_insertEntry, if_neg fun hlj => hl.2 hlj.1] at he
      exact ⟨he, hl.1⟩
    | @convert v l' rest hpc hpc' hd hlast =>
      obtain rfl : v.txIdx = i := by simpa [hpc, Pc.touches] using ht
      rw [hlast] at hl
      -- only recorded locations are converted
      have hne : l ≠ l' := fun heq => hl (heq ▸ hN.converting w v _ hpc List.mem_cons_self)
      refine ⟨?_, hl⟩
      rw [entry_congr _ _ hd] at he
      simpa [MvMemory.entry, setEstimate, modifyHistory, hne] using he
  · obtain ⟨hentry, hlast⟩ := h.memory_untouched ht
    rw [hentry] at he
    rw [hlast] at hl
    exact ⟨he, hl⟩

/-- The worker itself starts to insert, inserts one entry or goes on. -/
theorem unwritten_self (hN : Orphans cfg s) (hcover : CoversPrefilled cfg s) (h : Step cfg w s s')
    {v : TxVersion} {ls : List MemoryLocationHash} (hpc : (s'.pc w).unwritten = some (v, ls))
    {l : MemoryLocationHash} {e : MemoryEntry} (he : s.mvMemory.entry l v.txIdx = some e)
    (hl : l ∉ (s.mvMemory.lastLocations v.txIdx).write) :
    l ∈ (s'.mvMemory.lastLocations v.txIdx).write ∨ l ∈ ls := by
  have hsome : (s.mvMemory.entry l v.txIdx).isSome := by rw [he]; rfl
  have hgoes : ∀ {ls₀}, (s.pc w).unwritten = some (v, ls₀) → l ∈ ls₀ := fun hpc₀ =>
    (hN.unwritten w v _ l hpc₀ hsome).resolve_left hl
  rcases h with h | h | h | h | h <;> cases h
  case execute.recordRemoved v' rs ws need r k hpc₀ hk =>
    obtain ⟨rfl, rfl⟩ : v' = v ∧ AssocList.keys ws = ls := by simpa [Pc.unwritten] using hpc
    exact .inr (hcover w _ _ _ _ _ _ l hpc₀ (hN.orphan _ l e he hl).2)
  case execute.recordInsertOld v' rs ws rest need new r l' value hpc₀ hmem =>
    obtain ⟨rfl, rfl⟩ : v' = v ∧ AssocList.keys rest = ls := by simpa [Pc.unwritten] using hpc
    rcases List.mem_cons.mp (hgoes (by rw [hpc₀]; rfl)) with heq | hrest
    · exact .inl (heq ▸ hmem)
    · exact .inr hrest
  case execute.recordInsertNew v' rs ws rest need new r l' value hpc₀ hmem =>
    obtain ⟨rfl, rfl⟩ : v' = v ∧ AssocList.keys rest = ls := by simpa [Pc.unwritten] using hpc
    rcases List.mem_cons.mp (hgoes (by rw [hpc₀]; rfl)) with heq | hrest
    · exact .inl (by simp [setLastLocations, heq])
    · exact .inr hrest
  case execute.recordUnlock v' rs ws need new r hpc₀ =>
    obtain ⟨rfl, rfl⟩ : v' = v ∧ [] = ls := by simpa [Pc.unwritten] using hpc
    exact .inr (hgoes (by rw [hpc₀]; rfl))
  case execute.writeResult v' flags r hpc₀ =>
    obtain ⟨rfl, rfl⟩ : v' = v ∧ [] = ls := by simpa [Pc.unwritten] using hpc
    exact .inr (hgoes (by rw [hpc₀]; rfl))
  case finishExecution.lock v' _ hpc₀ _ | finishExecution.lockDependents v' _ hpc₀ _
    | finishExecution.drain v' _ _ _ hpc₀ _ _ | finishExecution.lowerExecutionIdx v' _ _ hpc₀
    | finishExecution.drained v' _ hpc₀ _ | finishExecution.belowMin v' _ hpc₀ _ _ _ _
    | finishExecution.nothingToValidate v' _ hpc₀ _ _ | finishExecution.aboveMin v' _ hpc₀ _ _ _
    | finishExecution.lowerMin v' _ hpc₀ _ _ | finishExecution.lowerToMin v' _ _ hpc₀
    | finishExecution.passedNew v' _ hpc₀ _ _ | finishExecution.passed v' _ hpc₀ _ _
    | finishExecution.notPassed v' _ hpc₀ _ | finishExecution.lowerToNext v' _ hpc₀
    | finishExecution.fallThrough v' _ hpc₀ _ =>
    obtain ⟨rfl, rfl⟩ : v' = v ∧ [] = ls := by simpa [Pc.unwritten] using hpc
    exact .inr (hgoes (by rw [hpc₀]; rfl))
  all_goals simp [Pc.unwritten] at hpc

/-- The locations a worker converts are not touched by another one. -/
theorem not_touches_of_converting (hO : Ownership s.own) {w₀ : WorkerId} (hw : w₀ ≠ w)
    {v : TxVersion} {pc : ConvertPc} (hv : s.pc w₀ = .convertWrites v pc) :
    ¬ (s.pc w).touches v.txIdx := by
  have habort : (s.own.phase w₀).abort = some v.txIdx := by
    show (s.pc w₀).phase.abort = some v.txIdx
    rw [hv]
    rfl
  intro ht
  rcases Pc.owner_of_touches ht with ⟨v', hv', hexec⟩ | habort'
  · have hst := hO.aborting w₀ v.txIdx habort
    rw [← hv', hO.executing w v' hexec] at hst
    cases hst
  · exact hw (hO.abortUnique w₀ w v.txIdx habort habort')

/-- An entry goes only when the version recorded does not write its location. -/
theorem isSome_entry_step (h : Step cfg w s s') {i : Nat} {l : MemoryLocationHash}
    (he : (s.mvMemory.entry l i).isSome) : (s'.mvMemory.entry l i).isSome ∨
      ∃ v rs ws need r k, s.pc w = .record v rs ws need r (.remove k) ∧ v.txIdx = i ∧
        l ∉ AssocList.keys ws := by
  rcases h with h | h | h | h | h <;> cases h
  case execute.recordRemove v rs ws need r k l' hpc hk hl =>
    by_cases hlj : l = l' ∧ i = v.txIdx
    · obtain ⟨rfl, rfl⟩ := hlj
      refine .inr ⟨v, rs, ws, need, r, k, hpc, rfl, fun hmem => ?_⟩
      obtain ⟨p, hp, hpl⟩ := List.mem_map.mp hmem
      exact hl p hp hpl
    · left
      show ((s.mvMemory.removeEntry l' v.txIdx).entry l i).isSome
      rwa [entry_removeEntry, if_neg hlj]
  case execute.recordInsertOld v rs ws rest need new r l' value hpc hl
    | execute.recordInsertNew v rs ws rest need new r l' value hpc hl =>
    left
    show ((s.mvMemory.insertEntry l' v.txIdx (.data v.txIncarnation value)).entry l i).isSome
    rw [entry_insertEntry]
    split
    · rfl
    · exact he
  case validate.convert v l' rest hpc =>
    left
    show ((s.mvMemory.setEstimate l' v.txIdx).entry l i).isSome
    by_cases hl : l = l'
    · subst hl
      have hd : (s.mvMemory.data l).isSome := by
        unfold MvMemory.entry at he
        cases hd : s.mvMemory.data l with
        | none => simp [hd] at he
        | some history => rfl
      rw [entry_setEstimate _ _ _ _ _ hd]
      split
      · rfl
      · exact he
    · simpa [MvMemory.entry, setEstimate, modifyHistory, hl] using he
  case execute.addNewBytecode v x x' hash code hpc hx =>
    refine .inl ((entry_congr l i ?_).symm ▸ he)
    simp only [System.goto_mvMemory, System.withMemory_mvMemory, addNewBytecode]
    split <;> rfl
  all_goals exact .inl he

theorem step (hb : Bounds cfg s) (hO : Ownership s.own) (hcover : CoversPrefilled cfg s)
    (h : Step cfg w s s') (hN : Orphans cfg s) : Orphans cfg s' where
  orphan i l e he hl := by
    obtain ⟨he₀, hl₀⟩ := hN.of_step h he hl
    exact hN.orphan i l e he₀ hl₀
  unwritten w' v ls l hpc he := by
    by_contra hno
    rw [not_or] at hno
    obtain ⟨e, he⟩ := Option.isSome_iff_exists.mp he
    obtain ⟨he₀, hl₀⟩ := hN.of_step h he hno.1
    have hmem : l ∈ (s'.mvMemory.lastLocations v.txIdx).write ∨ l ∈ ls := by
      by_cases hw : w' = w
      · subst hw
        exact hN.unwritten_self hcover h hpc he₀ hl₀
      · rw [h.pc_of_ne hw] at hpc
        exact .inr ((hN.unwritten w' v ls l hpc (by rw [he₀]; rfl)).resolve_left hl₀)
    exact hmem.elim hno.1 hno.2
  finished i l hfin he := by
    by_contra hl
    obtain ⟨e, he⟩ := Option.isSome_iff_exists.mp he
    obtain ⟨he₀, hl₀⟩ := hN.of_step h he hl
    have hsome : (s.mvMemory.entry l i).isSome := by rw [he₀]; rfl
    rcases h.finished_cases hb hO hfin with hold | ⟨flags, pc, hpc⟩
    · exact hl₀ (hN.finished i l hold hsome)
    · rcases hN.unwritten w _ [] l (by rw [hpc]; rfl) hsome with hmem | hnil
      · exact hl₀ hmem
      · cases hnil
  prefilled i l hpre := by
    rcases isSome_entry_step h (hN.prefilled i l hpre) with he | ⟨v, rs, ws, need, r, k, hpc, rfl, hl⟩
    · exact he
    · exact absurd (hcover w _ _ _ _ _ _ l hpc hpre) hl
  converting w' v rest hpc := by
    by_cases hw : w' = w
    · subst hw
      rcases h with h | h | h | h | h <;> cases h
      case validate.convertLock v' hpc₀ hh =>
        obtain ⟨rfl, rfl⟩ : v' = v ∧ _ = rest := by simpa using hpc
        exact List.Subset.refl _
      case validate.convert v' l rest' hpc₀ =>
        obtain ⟨rfl, rfl⟩ : v' = v ∧ rest' = rest := by simpa using hpc
        exact fun l' hl' => hN.converting w' v' _ hpc₀ (List.mem_cons_of_mem _ hl')
      all_goals simp at hpc
    · rw [h.pc_of_ne hw] at hpc
      rw [(h.memory_untouched (not_touches_of_converting hO hw hpc)).2]
      exact hN.converting w' v rest hpc

end Orphans

theorem orphans_initial (h : initial cfg s) : Orphans cfg s := by
  obtain ⟨hs, hm, -, hpc, -⟩ := h
  refine ⟨fun i l e he _ => ?_, fun w v ls l h => ?_, fun i l h => ?_, fun i l hpre => ?_,
    fun w v rest h => ?_⟩
  · rw [hm] at he
    exact ⟨(new_entry he).1, by unfold Prefilled; rw [he]; rfl⟩
  · simp [hpc w, Pc.unwritten] at h
  · simp [hs, Scheduler.new, isExecutedOrValidated] at h
  · rw [hm]
    exact hpre
  · simp [hpc w] at h

/-! ## The last recorded incarnation -/

/-- The incarnation of `i` that was recorded last. -/
def lastRecorded : List Event → Nat → Option Nat
  | [], _ => none
  | .recorded v :: log, i => if v.txIdx = i then some v.txIncarnation else lastRecorded log i
  | _ :: log, i => lastRecorded log i

theorem Step.lastRecorded (h : Step cfg w s s') {i : Nat} (hi : ¬ (s.pc w).touches i) :
    lastRecorded s'.log i = lastRecorded s.log i := by
  rcases h with h | h | h | h | h <;> cases h
  case execute.recordLock v rs ws need r hpc hh =>
    have hne : v.txIdx ≠ i := fun heq => hi (by simp [hpc, Pc.touches, heq])
    exact if_neg hne
  case finishExecution.settleExecuted v flags again hpc hneed => cases again <;> rfl
  case finishExecution.settleValidated v flags again hpc hneed => cases again <;> rfl
  all_goals rfl

/-- The version being stored, or that was stored, is the last recorded one. -/
structure LastRecorded (s : System X R E) : Prop where
  storing : ∀ w v, (s.pc w).storing = some v → lastRecorded s.log v.txIdx = some v.txIncarnation
  finished : ∀ i, isExecutedOrValidated (s.scheduler.transactionsStatus i).status = true →
    lastRecorded s.log i = some (s.scheduler.transactionsStatus i).incarnation

theorem LastRecorded.storing_self (hL : LastRecorded s) (h : Step cfg w s s') {v : TxVersion}
    (hv : (s'.pc w).storing = some v) : lastRecorded s'.log v.txIdx = some v.txIncarnation := by
  rcases h with h | h | h | h | h <;> cases h
  case execute.recordLock v' rs ws need r hpc hh =>
    obtain rfl : v' = v := by simpa [Pc.storing] using hv
    exact if_pos rfl
  all_goals
    simp only [System.goto_pc, Function.update_self, Pc.storing, reduceCtorEq] at hv
  all_goals
    refine hL.storing w v ?_
    simp_all [Pc.storing]

theorem LastRecorded.step (hb : Bounds cfg s) (hO : Ownership s.own) (h : Step cfg w s s')
    (hL : LastRecorded s) : LastRecorded s' where
  storing w' v hv := by
    by_cases hw : w' = w
    · subst hw
      exact hL.storing_self h hv
    · rw [h.pc_of_ne hw] at hv
      rw [h.lastRecorded (not_touches_of_storing hO hw hv)]
      exact hL.storing w' v hv
  finished i hfin := by
    rcases h.finished_cases hb hO hfin with hold | ⟨flags, pc, hpc⟩
    · rw [h.lastRecorded (not_touches_of_finished hO hold), h.incarnation_finished hb hO hfin]
      exact hL.finished i hold
    · have hno : ¬ (s.pc w).touches i := by
        rw [hpc]
        exact id
      rw [h.lastRecorded hno]
      exact hL.storing w _ (by rw [hpc]; rfl)

theorem lastRecorded_reachable (h : (workers cfg).Reachable s) : LastRecorded s :=
  invariant_of_step
    (fun s hs => by
      obtain ⟨hs, -, -, hpc, -⟩ := hs
      refine ⟨fun w v h => ?_, fun i h => ?_⟩
      · simp [hpc w, Pc.storing] at h
      · simp [hs, Scheduler.new, isExecutedOrValidated] at h)
    (fun _ _ _ hb hs _ hstep hL => hL.step hb (ownership_reachable hs) hstep) h

/-! ## Finished transactions -/

section Finished

variable {C : TxVersion → X → Prop} {P : List Address → TxVersion → X → Prop}
  {Q : List Address → TxVersion → WriteSet → R → Prop}

theorem orphans_reachable (hK : cfg.executor.Keeps C P Q)
    (hcover : ∀ lazyAddresses v ws r l, Q lazyAddresses v ws r → Prefilled cfg l v.txIdx →
      l ∈ AssocList.keys ws)
    (h : (workers cfg).ReachableVia (StepsMeet C) s) : Orphans cfg s :=
  invariant_of_step (fun _ hs => orphans_initial hs)
    (fun _ _ _ hb hs _ hstep hN => hN.step hb (ownership_reachable hs.reachable)
      (fun w v _ ws _ r _ l hpc hpre =>
        hcover _ v ws r l ((carries_reachable hK hs).record w _ _ _ _ _ _ hpc) hpre) hstep) h

/-- The entries of a version that has been stored: there is one at each recorded location, with the
value it was recorded with, and no other. -/
theorem entry_of_stored {v : TxVersion} {ws : WriteSet} (hS : Stored s v ws [])
    (hall : ∀ l, (s.mvMemory.entry l v.txIdx).isSome →
      l ∈ (s.mvMemory.lastLocations v.txIdx).write) {l : MemoryLocationHash} {e : MemoryEntry}
    (he : s.mvMemory.entry l v.txIdx = some e) :
    ∃ value, (l, value) ∈ ws ∧ e = .data v.txIncarnation value := by
  rcases hS.written l (hall l (by rw [he]; rfl)) with hnil | ⟨value, hmem, hvalue⟩
  · cases hnil
  · exact ⟨value, hmem, Option.some.inj (he.symm.trans hvalue)⟩

/-- A value comes from the write set that is being recorded. -/
theorem Step.entry_data (h : Step cfg w s s') {l : MemoryLocationHash} {i k : Nat}
    {value : MemoryValue} (he : s'.mvMemory.entry l i = some (.data k value)) :
    s.mvMemory.entry l i = some (.data k value) ∨
      ∃ rs ws need r rest new,
        s.pc w = .record ⟨i, k⟩ rs ws need r (.insert ((l, value) :: rest) new) := by
  rcases h with h | h | h | h | h <;> cases h
  case execute.recordRemove v rs ws need r k l' hpc hk hl =>
    left
    change (s.mvMemory.removeEntry l' v.txIdx).entry l i = _ at he
    rw [entry_removeEntry] at he
    split at he
    · cases he
    · exact he
  case execute.recordInsertOld v rs ws rest need new r l' value' hpc hl
    | execute.recordInsertNew v rs ws rest need new r l' value' hpc hl =>
    change (s.mvMemory.insertEntry l' v.txIdx (.data v.txIncarnation value')).entry l i = _ at he
    rw [entry_insertEntry] at he
    split at he
    · next hl =>
      obtain ⟨rfl, rfl⟩ : l = l' ∧ i = v.txIdx := hl
      obtain ⟨rfl, rfl⟩ : v.txIncarnation = k ∧ value' = value := by simpa using he
      exact .inr ⟨rs, ws, need, r, rest, new, hpc⟩
    · exact .inl he
  case validate.convert v l' rest hpc =>
    left
    change (s.mvMemory.setEstimate l' v.txIdx).entry l i = _ at he
    by_cases hl : l = l'
    · subst hl
      cases hd : s.mvMemory.data l with
      | none => simp [MvMemory.entry, setEstimate, modifyHistory, hd] at he
      | some history =>
        rw [entry_setEstimate _ _ _ _ _ (by rw [hd]; rfl)] at he
        split at he
        · cases he
        · exact he
    · simpa [MvMemory.entry, setEstimate, modifyHistory, hl] using he
  case execute.addNewBytecode v x x' hash code hpc hx =>
    left
    rwa [entry_congr l i] at he
    simp only [System.goto_mvMemory, System.withMemory_mvMemory, addNewBytecode]
    split <;> rfl
  all_goals exact .inl he

/-- What is known of the writes of every outcome is known of every value in the memory. -/
theorem data_reachable (hK : cfg.executor.Keeps C P Q)
    {G : List Address → MemoryLocationHash → MemoryValue → Prop}
    (hmono : ∀ {lazyAddresses lazyAddresses' l value}, lazyAddresses ⊆ lazyAddresses' →
      G lazyAddresses l value → G lazyAddresses' l value)
    (hG : ∀ {lazyAddresses v ws r l value}, Q lazyAddresses v ws r → v.txIdx < cfg.blockSize →
      (l, value) ∈ ws → G lazyAddresses l value)
    (h : (workers cfg).ReachableVia (StepsMeet C) s) :
    ∀ l i k value, s.mvMemory.entry l i = some (.data k value) →
      G s.mvMemory.lazyAddresses l value := by
  refine invariant_of_step (P := fun s => ∀ l i k value,
    s.mvMemory.entry l i = some (.data k value) → G s.mvMemory.lazyAddresses l value)
    (fun s hs l i k value he => ?_) (fun w s s' hb hs _ hstep ih l i k value he => ?_) h
  · rw [hs.2.1] at he
    cases (new_entry he).1
  · rcases hstep.entry_data he with hold | ⟨rs, ws, need, r, rest, new, hpc⟩
    · exact hmono hstep.lazyAddresses_subset (ih l i k value hold)
    · have hQ := (carries_reachable hK hs).record w _ _ _ _ _ _ hpc
      have hsub := ((recorded_reachable hK hs).inserting w _ _ _ _ _ _ _ hpc).1
      have hlt : i < cfg.blockSize := by
        have hin := hb.pc w
        rw [hpc] at hin
        exact hin
      exact hmono hstep.lazyAddresses_subset (hG hQ hlt (hsub List.mem_cons_self))

end Finished

end Pevm
