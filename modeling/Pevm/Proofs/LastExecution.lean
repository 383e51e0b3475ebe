import Pevm.Proofs.Recorded
import Pevm.Proofs.Reads

/-!
# The last execution of a transaction

What the memory and the history keep of one execution, from the moment it calls `record` on:

* **`EntryVersions`**: an entry with a value was written by the one call of `record` for its
  version, and the value is in the write set of that call.
* **`Barred`**: once another value of a version was seen at a location, the version never holds
  this one there, because each version is recorded once.
* **`Follows`**: the recorded read set and the flags of an execution stay until its transaction
  goes on to the next incarnation.
* **`RecordedAs`**: the write set and the result of the one execution that records a version are
  what is in the memory and in the slot while that version is the last one.
-/

namespace Pevm

open Interleaving Scheduler MvMemory

variable {X R E : Type} {cfg : Config X R E} {w : WorkerId} {s s' : System X R E}

/-! ## The versions of entries -/

theorem recorded_of_lastRecorded {i k : Nat} : ∀ {log : List Event},
    lastRecorded log i = some k → .recorded ⟨i, k⟩ ∈ log
  | [], h => by cases h
  | .recorded v :: log, h => by
    unfold lastRecorded at h
    split_ifs at h with hv
    · subst hv
      obtain rfl : v.txIncarnation = k := Option.some.inj h
      exact List.mem_cons_self
    · exact List.mem_cons_of_mem _ (recorded_of_lastRecorded h)
  | .wroteResult _ :: log, h => List.mem_cons_of_mem _ (recorded_of_lastRecorded h)
  | .finished _ _ :: log, h => List.mem_cons_of_mem _ (recorded_of_lastRecorded h)
  | .recounted _ :: log, h => List.mem_cons_of_mem _ (recorded_of_lastRecorded h)
  | .validationAborted _ _ :: log, h => List.mem_cons_of_mem _ (recorded_of_lastRecorded h)

theorem LastRecorded.recorded (h : LastRecorded s) {v : TxVersion}
    (hv : (s.pc w).storing = some v) : .recorded v ∈ s.log :=
  recorded_of_lastRecorded (h.storing w v hv)

/-- Nobody is about to record a version that was recorded. -/
theorem RecordedOnce.toRecord_ne (hR : RecordedOnce s) (hO : Ownership s.own) {v : TxVersion}
    (hv : .recorded v ∈ s.log) (w : WorkerId) : (s.pc w).toRecord ≠ some v := by
  intro hw
  have hst : s.scheduler.transactionsStatus v.txIdx = ⟨v.txIncarnation, .executing⟩ :=
    hO.executing w v (Pc.executionTask_of_toRecord hw)
  exact ((hR.past v hv).2 (by rw [hst])).2 w hw

/-- A worker comes to `record` from the execution of its version, or was there. -/
theorem Step.record_pc (h : Step cfg w s s') {v : TxVersion} {rs : ReadSet} {ws : WriteSet}
    {need : Bool} {r : R} {pc : RecordPc} (hpc : s'.pc w = .record v rs ws need r pc) :
    (∃ x, s.pc w = .execute v x ∧ pc = .lock) ∨ ∃ pc₀, s.pc w = .record v rs ws need r pc₀ := by
  rcases h with h | h | h | h | h <;> cases h
  all_goals simp_all

/-- A worker comes to an execution by its start or by one of its steps. -/
theorem Step.execute_pc (h : Step cfg w s s') {v : TxVersion} {x' : X}
    (hpc : s'.pc w = .execute v x') : x' = cfg.executor.start v ∨ ∃ x, s.pc w = .execute v x ∧
      (cfg.executor.step v s.mvMemory x = .run x' ∨
        (∃ hash code, cfg.executor.step v s.mvMemory x = .addNewBytecode hash code x') ∨
        ∃ addresses, cfg.executor.step v s.mvMemory x = .addLazyAddresses addresses x') := by
  rcases h with h | h | h | h | h <;> cases h
  case execute.run v₀ x x₁ hpc₀ hx =>
    obtain ⟨rfl, rfl⟩ : v₀ = v ∧ x₁ = x' := by simpa using hpc
    exact .inr ⟨x, hpc₀, .inl hx⟩
  case execute.addNewBytecode v₀ x x₁ hash code hpc₀ hx =>
    obtain ⟨rfl, rfl⟩ : v₀ = v ∧ x₁ = x' := by simpa using hpc
    exact .inr ⟨x, hpc₀, .inr (.inl ⟨hash, code, hx⟩)⟩
  case execute.addLazyAddresses v₀ x x₁ addresses hpc₀ hx =>
    obtain ⟨rfl, rfl⟩ : v₀ = v ∧ x₁ = x' := by simpa using hpc
    exact .inr ⟨x, hpc₀, .inr (.inr ⟨addresses, hx⟩)⟩
  case nextTask.steal i _ _ _ | nextTask.startExecution i _ _ _ =>
    obtain ⟨rfl, rfl⟩ : s.scheduler.version i = v ∧ _ = x' := by simpa using hpc
    exact .inl rfl
  case execute.retryAgain v₀ _ _ | validate.dispatchExecution v₀ _ _ =>
    obtain ⟨rfl, rfl⟩ : v₀ = v ∧ _ = x' := by simpa using hpc
    exact .inl rfl
  all_goals simp at hpc

/-- Nothing need be known of an execution. -/
theorem keeps_nothing : cfg.executor.Keeps (fun _ _ => True) (fun _ _ _ => True)
    (fun _ _ _ _ => True) := by
  constructor <;> intros <;> trivial

/-- Who wrote the entries. -/
structure EntryVersions (s : System X R E) : Prop where
  recorded : ∀ l i k value, s.mvMemory.entry l i = some (.data k value) →
    .recorded ⟨i, k⟩ ∈ s.log
  storing : ∀ w v rs ws need r pc, s.pc w = .record v rs ws need r pc → pc ≠ .lock →
    ∀ l value, s.mvMemory.entry l v.txIdx = some (.data v.txIncarnation value) → (l, value) ∈ ws

theorem Pc.storing_of_record {v : TxVersion} {rs : ReadSet} {ws : WriteSet} {need : Bool} {r : R}
    {pc : RecordPc} (hpc : s.pc w = .record v rs ws need r pc) (hlock : pc ≠ .lock) :
    (s.pc w).storing = some v := by
  rw [hpc]
  cases pc with
  | lock => exact absurd rfl hlock
  | remove _ | insert _ _ => rfl

theorem EntryVersions.step (hO : Ownership s.own) (hR : RecordedOnce s) (hL : LastRecorded s)
    (hsub : ∀ w v rs ws need r rest new, s.pc w = .record v rs ws need r (.insert rest new) →
      rest ⊆ ws)
    (h : Step cfg w s s') (hE : EntryVersions s) : EntryVersions s' where
  recorded l i k value he := by
    rcases h.entry_data he with hold | ⟨rs, ws, need, r, rest, new, hpc⟩
    · exact h.log_subset (hE.recorded l i k value hold)
    · exact h.log_subset (hL.recorded (w := w) (by rw [hpc]; rfl))
  storing w' v rs ws need r pc hpc hlock l value he := by
    by_cases hw : w' = w
    · subst hw
      rcases h.record_pc hpc with ⟨x, -, rfl⟩ | ⟨pc₀, hpc₀⟩
      · exact absurd rfl hlock
      · rcases h.entry_data he with hold | ⟨rs', ws', need', r', rest, new, hpc'⟩
        · by_cases hlock₀ : pc₀ = .lock
          · -- the version is recorded by this step only, so that it has no entry before
            subst hlock₀
            have hrecorded := hE.recorded l _ _ value hold
            exact absurd (by rw [hpc₀]; rfl) (hR.toRecord_ne hO hrecorded w')
          · exact hE.storing w' v rs ws need r pc₀ hpc₀ hlock₀ l value hold
        · obtain ⟨-, rfl, -⟩ : _ ∧ ws' = ws ∧ _ := by simpa [hpc'] using hpc₀
          exact hsub w' _ _ _ _ _ _ _ hpc' List.mem_cons_self
    · rw [h.pc_of_ne hw] at hpc
      have hno := not_touches_of_storing hO hw (Pc.storing_of_record hpc hlock)
      rw [(h.memory_untouched hno).1] at he
      exact hE.storing w' v rs ws need r pc hpc hlock l value he

theorem entryVersions_reachable (h : (workers cfg).Reachable s) : EntryVersions s :=
  invariant_of_step
    (fun s hs => by
      obtain ⟨-, hm, -, hpc, -⟩ := hs
      refine ⟨fun l i k value he => ?_, fun w _ _ _ _ _ _ h => ?_⟩
      · rw [hm] at he
        cases (new_entry he).1
      · simp [hpc w] at h)
    (fun _ s _ _ hs _ hstep hE => by
      have hmeet : (workers cfg).ReachableVia (StepsMeet fun _ _ => True) s :=
        hs.mono fun _ _ _ _ _ _ => trivial
      exact hE.step (ownership_reachable hs) (recordedOnce_reachable hs)
        (lastRecorded_reachable hs) (fun w v rs ws need r rest new hpc =>
          ((recorded_reachable keeps_nothing hmeet).inserting w v rs ws need r rest new hpc).1)
        hstep) h

/-! ## Values that a version does not hold -/

/-- Version `u` never holds `value` at location `l` from here on. -/
structure Barred (s : System X R E) (u : TxVersion) (l : MemoryLocationHash)
    (value : MemoryValue) : Prop where
  recorded : .recorded u ∈ s.log
  entry : s.mvMemory.entry l u.txIdx ≠ some (.data u.txIncarnation value)
  storing : ∀ w rs ws need r pc, s.pc w = .record u rs ws need r pc → (l, value) ∉ ws

namespace Barred

variable {u : TxVersion} {l : MemoryLocationHash} {value other : MemoryValue}

/-- A version that holds another value, and whose write set has not both, is barred. -/
theorem of_entry (hE : EntryVersions s) (hO : Ownership s.own) (hR : RecordedOnce s)
    (he : s.mvMemory.entry l u.txIdx = some (.data u.txIncarnation other)) (hne : other ≠ value)
    (hone : ∀ w rs ws need r pc, s.pc w = .record u rs ws need r pc → (l, other) ∈ ws →
      (l, value) ∉ ws) : Barred s u l value := by
  have hrecorded := hE.recorded l _ _ other he
  refine ⟨hrecorded, fun hvalue => hne ?_, fun w rs ws need r pc hpc => ?_⟩
  · rw [he] at hvalue
    simpa using hvalue
  · by_cases hlock : pc = .lock
    · subst hlock
      exact absurd (by rw [hpc]; rfl) (hR.toRecord_ne hO hrecorded w)
    · exact hone w rs ws need r pc hpc (hE.storing w u rs ws need r pc hpc hlock l other he)

theorem step (hO : Ownership s.own) (hR : RecordedOnce s)
    (hsub : ∀ w v rs ws need r rest new, s.pc w = .record v rs ws need r (.insert rest new) →
      rest ⊆ ws)
    (h : Step cfg w s s') (hB : Barred s u l value) : Barred s' u l value where
  recorded := h.log_subset hB.recorded
  entry he := by
    rcases h.entry_data he with hold | ⟨rs, ws, need, r, rest, new, hpc⟩
    · exact hB.entry hold
    · exact hB.storing w rs ws need r _ hpc (hsub w _ _ _ _ _ _ _ hpc List.mem_cons_self)
  storing w' rs ws need r pc hpc := by
    by_cases hw : w' = w
    · subst hw
      rcases h.record_pc hpc with ⟨x, hpc₀, -⟩ | ⟨pc₀, hpc₀⟩
      · exact absurd (by rw [hpc₀]; rfl) (hR.toRecord_ne hO hB.recorded w')
      · exact hB.storing w' rs ws need r pc₀ hpc₀
    · rw [h.pc_of_ne hw] at hpc
      exact hB.storing w' rs ws need r pc hpc

end Barred

/-! ## The recorded read set -/

/-- A worker at this program counter stores version `v`, which needs validation. -/
def Pc.storesNeeding (v : TxVersion) : Pc X R E → Prop
  | .record v' _ _ need _ (.remove _) | .record v' _ _ need _ (.insert _ _) => v' = v ∧ need = true
  | .writeResult v' flags _ | .finishExecution v' flags _ => v' = v ∧ flags.needValidation = true
  | _ => False

theorem Pc.storing_of_storesNeeding {pc : Pc X R E} {v : TxVersion} (h : pc.storesNeeding v) :
    pc.storing = some v := by
  unfold Pc.storesNeeding at h
  split at h
  case h_5 => exact h.elim
  all_goals
    rw [← h.1]
    rfl

/-- The execution of version `v` with the read set `rs`, which needs validation: it is about to be
recorded, it is stored, it is finished and still the last one, or its transaction has gone on to a
later incarnation. -/
inductive Follows (v : TxVersion) (rs : ReadSet) (s : System X R E) : Prop where
  | recording {w : WorkerId} {ws : WriteSet} {r : R} (hpc : s.pc w = .record v rs ws true r .lock)
  | storing {w : WorkerId} (hpc : (s.pc w).storesNeeding v)
      (hread : (s.mvMemory.lastLocations v.txIdx).read = rs)
  | finished {flags : FinishExecFlags}
      (hinc : (s.scheduler.transactionsStatus v.txIdx).incarnation = v.txIncarnation)
      (hready : (s.scheduler.transactionsStatus v.txIdx).status ≠ .readyToExecute)
      (hexec : (s.scheduler.transactionsStatus v.txIdx).status ≠ .executing)
      (hlast : lastFinish s.log v.txIdx = some flags) (hneed : flags.needValidation = true)
      (hread : (s.mvMemory.lastLocations v.txIdx).read = rs)
  | superseded (hinc : v.txIncarnation < (s.scheduler.transactionsStatus v.txIdx).incarnation)

namespace Follows

variable {v : TxVersion} {rs : ReadSet}

/-- The worker that stores the version goes on with it, or decides its status. -/
theorem storing_pc (hb : Bounds cfg s) (h : Step cfg w s s') (hpc : (s.pc w).storesNeeding v) :
    (s'.pc w).storesNeeding v ∨ ∃ flags, flags.needValidation = true ∧
      (s.pc w = .finishExecution v flags .validateFrom ∨
        s.pc w = .finishExecution v flags (.settle false)) ∧
      s'.scheduler.transactionsStatus =
        (s.scheduler.setStatus v.txIdx .executed).transactionsStatus ∧
      s'.log = .finished v flags :: s.log := by
  rcases h with h | h | h | h | h <;> cases h
  case finishExecution.validateFrom v' flags hpc₀ hneed =>
    obtain ⟨rfl, -⟩ : v' = v ∧ _ := by simpa [hpc₀, Pc.storesNeeding] using hpc
    exact .inr ⟨flags, hneed, .inl hpc₀, rfl, rfl⟩
  case finishExecution.settleExecuted v' flags again hpc₀ hneed =>
    obtain ⟨rfl, -⟩ : v' = v ∧ _ := by simpa [hpc₀, Pc.storesNeeding] using hpc
    cases again with
    | false => exact .inr ⟨flags, hneed, .inr hpc₀, rfl, rfl⟩
    | true =>
      -- the branch is entered without validation only
      rw [hb.fellThrough w v' flags hpc₀] at hneed
      cases hneed
  all_goals
    left
    simp_all [Pc.storesNeeding]

/-- Only the call of `record` changes the read set. -/
theorem read_eq_of_storing (h : Step cfg w s s') {u : TxVersion}
    (hu : (s.pc w).storing = some u) (i : Nat) :
    (s'.mvMemory.lastLocations i).read = (s.mvMemory.lastLocations i).read := by
  have hupdate : ∀ j last,
      s'.mvMemory.lastLocations = Function.update s.mvMemory.lastLocations j last →
      last.read = (s.mvMemory.lastLocations j).read →
      (s'.mvMemory.lastLocations i).read = (s.mvMemory.lastLocations i).read := by
    intro j last hl hread
    rw [hl]
    by_cases hj : i = j
    · rw [hj, Function.update_self, hread]
    · rw [Function.update_of_ne hj]
  cases h.memoryEffect with
  | none _ hl | insertOld _ _ _ _ hl | convert _ _ _ hl => rw [hl]
  | lock hpc _ _ =>
    rw [hpc] at hu
    cases hu
  | remove _ _ _ hl | insertNew _ _ _ _ hl => exact hupdate _ _ hl rfl

theorem step (hb : Bounds cfg s) (hO : Ownership s.own) (h : Step cfg w s s')
    (hF : Follows v rs s) : Follows v rs s' := by
  cases hF with
  | @recording w₀ ws r hpc =>
    by_cases hw : w₀ = w
    · subst hw
      rcases h with h | h | h | h | h <;> cases h
      case execute.recordLock v' rs' ws' need r' hpc₀ hh =>
        obtain ⟨rfl, rfl, rfl, rfl, rfl⟩ : v' = v ∧ rs' = rs ∧ ws' = ws ∧ need = true ∧ r' = r := by
          simpa [hpc₀] using hpc
        refine .storing (w := w₀) ?_ ?_
        · rw [System.goto_pc, Function.update_self]
          exact ⟨rfl, rfl⟩
        · show (Function.update s.mvMemory.lastLocations v'.txIdx _ v'.txIdx).read = rs'
          rw [Function.update_self]
      all_goals simp_all
    · exact .recording ((h.pc_of_ne hw).trans hpc)
  | @storing w₀ hpc hread =>
    have hstoring := Pc.storing_of_storesNeeding hpc
    by_cases hw : w₀ = w
    · subst hw
      have hread' := (read_eq_of_storing h hstoring v.txIdx).trans hread
      rcases storing_pc hb h hpc with hpc' | ⟨flags, hneed, hat, hstatus, hlog⟩
      · exact .storing hpc' hread'
      · have hst : s.scheduler.transactionsStatus v.txIdx = ⟨v.txIncarnation, .executing⟩ := by
          apply hO.executing w₀ v
          show (s.pc w₀).phase.execution = some v
          rcases hat with hat | hat <;> rw [hat] <;> rfl
        have hst' : s'.scheduler.transactionsStatus v.txIdx = ⟨v.txIncarnation, .executed⟩ := by
          rw [hstatus]
          show Function.update s.scheduler.transactionsStatus v.txIdx _ v.txIdx = _
          rw [Function.update_self, hst]
        refine @Follows.finished _ _ _ v rs s' flags (by rw [hst']) (by rw [hst']; simp)
          (by rw [hst']; simp) ?_ hneed hread'
        rw [hlog]
        simp [lastFinish]
    · refine .storing (w := w₀) ((h.pc_of_ne hw).symm ▸ hpc) ?_
      rw [(h.memory_untouched (not_touches_of_storing hO hw hstoring)).2]
      exact hread
  | @finished flags hinc hready hexec hlast hneed hread =>
    have hread' := (h.read_eq hO hexec).trans hread
    have hlast' : lastFinish s'.log v.txIdx = some flags := by
      rcases h.lastFinish v.txIdx with heq | ⟨u, flags', pc, hu, hpc, hor, -⟩
      · rw [heq]
        exact hlast
      · -- a status decision is made on an executing transaction
        have hst := hO.executing w u (by
          show (s.pc w).phase.execution = some u
          rcases hor with rfl | rfl <;> rw [hpc] <;> rfl)
        rw [show s.own.status = s.scheduler.transactionsStatus from rfl, hu] at hst
        exact absurd (by rw [hst]) hexec
    rcases h.statusEdge hb hO v.txIdx with heq | hedge
    · exact .finished (by rw [heq, hinc]) (by rw [heq]; exact hready) (by rw [heq]; exact hexec)
        hlast' hneed hread'
    · rcases hedge.incarnation with ⟨hsame, hready'⟩ | hnext
      · refine .finished (hsame.trans hinc) hready' ?_ hlast' hneed hread'
        -- only a ready transaction starts to execute
        generalize s.scheduler.transactionsStatus v.txIdx = a at *
        generalize s'.scheduler.transactionsStatus v.txIdx = b at *
        cases hedge with
        | execute k => exact absurd rfl hready
        | _ => simp
      · exact .superseded (by omega)
  | superseded hinc =>
    rcases h.statusEdge hb hO v.txIdx with heq | hedge
    · exact .superseded (by rw [heq]; exact hinc)
    · rcases hedge.incarnation with ⟨hsame, -⟩ | hnext
      · exact .superseded (by omega)
      · exact .superseded (by omega)

/-- When no worker is left, the execution of the last incarnation is the one that was recorded. -/
theorem finished_of_quiescent (hF : Follows v rs s) (hq : ∀ w, (s.pc w).quiescent = true)
    (hinc : (s.scheduler.transactionsStatus v.txIdx).incarnation = v.txIncarnation) :
    (s.mvMemory.lastLocations v.txIdx).read = rs ∧
      ∃ flags, lastFinish s.log v.txIdx = some flags ∧ flags.needValidation = true := by
  cases hF with
  | @recording w ws r hpc =>
    have hw := hq w
    rw [hpc] at hw
    cases hw
  | @storing w hpc _ =>
    have hw := hq w
    unfold Pc.storesNeeding at hpc
    split at hpc <;> simp_all [Pc.quiescent]
  | finished _ _ _ hlast hneed hread => exact ⟨hread, _, hlast, hneed⟩
  | superseded hlt => omega

end Follows

/-! ## The recorded write set and result

Once a worker is about to record version `v`, no other call of `record` is for `v`. What is known of
the calls from then on (`Executor.Keeps`, with the run condition that nobody executes `v`) is that
those for `v` have this write set and this result. -/

/-- Of version `v` there is only the write set `ws` and the result `r`. -/
def OnlyOf (v : TxVersion) (ws : WriteSet) (r : R) (_ : List Address) (v' : TxVersion)
    (ws' : WriteSet) (r' : R) : Prop :=
  v' = v → ws' = ws ∧ r' = r

/-- The execution of version `v` with the write set `ws` and the result `r` is about to be recorded,
or is the one that was. -/
structure RecordedAs (v : TxVersion) (ws : WriteSet) (r : R) (s : System X R E) : Prop where
  carries : Carries (fun _ _ _ => True) (OnlyOf v ws r) s
  stored : Recorded (OnlyOf v ws r) s
  recorded : (∃ w rs need, s.pc w = .record v rs ws need r .lock) ∨ .recorded v ∈ s.log

namespace RecordedAs

variable {v : TxVersion} {rs : ReadSet} {ws : WriteSet} {need : Bool} {r : R}

theorem keeps_onlyOf : cfg.executor.Keeps (fun v' _ => v' ≠ v) (fun _ _ _ => True)
    (OnlyOf v ws r) where
  start _ _ := trivial
  mono _ _ := trivial
  monoRecord _ h := h
  run _ _ _ := trivial
  addNewBytecode _ _ _ := trivial
  addLazyAddresses _ _ _ := trivial
  record hne _ _ heq := absurd heq hne

/-- No other worker executes or records a version that is about to be recorded. -/
theorem toRecord_unique (hO : Ownership s.own) {w' : WorkerId} (hw : (s.pc w).toRecord = some v)
    (hw' : (s.pc w').toRecord = some v) : w' = w :=
  hO.executingUnique w' w v v (Pc.executionTask_of_toRecord hw') (Pc.executionTask_of_toRecord hw)
    rfl

/-- A version that is about to be recorded is stored nowhere. -/
theorem of_recording (h : (workers cfg).Reachable s)
    (hpc : s.pc w = .record v rs ws need r .lock) : RecordedAs v ws r s := by
  have hO := ownership_reachable h
  have hto : (s.pc w).toRecord = some v := by rw [hpc]; rfl
  have hnot : .recorded v ∉ s.log := fun hmem =>
    (recordedOnce_reachable h).toRecord_ne hO hmem w hto
  have hL := lastRecorded_reachable h
  have hne : ∀ {w' v'}, (s.pc w').storing = some v' → v' ≠ v := by
    rintro w' v' hstoring rfl
    exact hnot (hL.recorded hstoring)
  have hR := recorded_reachable (C := fun _ _ => True) keeps_nothing
    (h.mono fun _ _ _ _ _ _ => trivial)
  refine ⟨⟨fun _ _ _ _ => trivial, ?_⟩, ⟨hR.removing, hR.inserting, ?_, ?_, ?_⟩,
    .inl ⟨w, rs, need, hpc⟩⟩
  · intro w' v' rs' ws' need' r' pc hpc' heq
    subst heq
    by_cases hlock : pc = .lock
    · subst hlock
      have hto' : (s.pc w').toRecord = some v' := by rw [hpc']; rfl
      obtain rfl := toRecord_unique hO hto hto'
      obtain ⟨-, -, rfl, -, rfl⟩ : v' = v' ∧ rs = rs' ∧ ws = ws' ∧ need = need' ∧ r = r' := by
        simpa [hpc] using hpc'
      exact ⟨rfl, rfl⟩
    · exact absurd rfl (hne (Pc.storing_of_record hpc' hlock))
  · intro w' v' flags r' hpc'
    obtain ⟨ws', -, hS⟩ := hR.writing w' v' flags r' hpc'
    have hstoring : (s.pc w').storing = some v' := by rw [hpc']; rfl
    exact ⟨ws', fun heq => absurd heq (hne hstoring), hS⟩
  · intro w' v' flags pc hpc'
    obtain ⟨ws', r', -, hS⟩ := hR.finishing w' v' flags pc hpc'
    have hstoring : (s.pc w').storing = some v' := by rw [hpc']; rfl
    exact ⟨ws', r', fun heq => absurd heq (hne hstoring), hS⟩
  · intro i hfin
    obtain ⟨ws', r', -, hS⟩ := hR.finished i hfin
    refine ⟨ws', r', fun heq => absurd ?_ hnot, hS⟩
    rw [← heq]
    exact recorded_of_lastRecorded (hL.finished i hfin)

/-- From then on nobody executes the version. -/
theorem execute_ne (hO : Ownership s.own) (hR : RecordedOnce s) (hA : RecordedAs v ws r s) :
    StepsMeet (fun v' _ => v' ≠ v) w s := by
  rintro v' x hpc rfl
  have hto : (s.pc w).toRecord = some v' := by rw [hpc]; rfl
  rcases hA.recorded with ⟨w', rs', need', hpc'⟩ | hmem
  · have hto' : (s.pc w').toRecord = some v' := by rw [hpc']; rfl
    obtain rfl := toRecord_unique hO hto hto'
    rw [hpc] at hpc'
    cases hpc'
  · exact hR.toRecord_ne hO hmem w hto

theorem step (hb : Bounds cfg s) (hO : Ownership s.own) (hR : RecordedOnce s)
    (h : Step cfg w s s') (hA : RecordedAs v ws r s) : RecordedAs v ws r s' where
  carries := hA.carries.step keeps_onlyOf (hA.execute_ne hO hR) h
  stored := hA.stored.step keeps_onlyOf hb hO hA.carries h
  recorded := by
    rcases hA.recorded with ⟨w', rs', need', hpc⟩ | hmem
    · by_cases hw : w' = w
      · subst hw
        rcases h with h | h | h | h | h <;> cases h
        case execute.recordLock v' _ _ _ _ hpc₀ _ =>
          obtain ⟨rfl, -⟩ : v' = v ∧ _ := by simpa [hpc₀] using hpc
          exact .inr List.mem_cons_self
        all_goals simp_all
      · exact .inl ⟨w', rs', need', (h.pc_of_ne hw).trans hpc⟩
    · exact .inr (h.log_subset hmem)

/-- While its incarnation is the last one, a finished transaction has the writes and the result of
the execution that was recorded. -/
theorem finished (hA : RecordedAs v ws r s)
    (hfin : isExecutedOrValidated (s.scheduler.transactionsStatus v.txIdx).status = true)
    (hinc : (s.scheduler.transactionsStatus v.txIdx).incarnation = v.txIncarnation) :
    Stored s v ws [] ∧ s.executionResults v.txIdx = some r := by
  obtain ⟨ws', r', honly, hS, hslot⟩ := hA.stored.finished v.txIdx hfin
  have hv : (⟨v.txIdx, (s.scheduler.transactionsStatus v.txIdx).incarnation⟩ : TxVersion) = v := by
    rw [hinc]
  rw [hv] at hS
  obtain ⟨rfl, rfl⟩ := honly hv
  exact ⟨hS, hslot⟩

end RecordedAs

end Pevm
