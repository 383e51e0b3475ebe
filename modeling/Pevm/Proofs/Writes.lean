import Pevm.Proofs.Progress

/-!
# Recorded writes

What the entries of a transaction in the multi-version memory are while it is re-executed. An
abort turns every entry of the last write set into an ESTIMATE, and the entries stay so until the
next incarnation records its own. When it does, it removes ESTIMATEs and replaces ESTIMATEs
(`Writes`), which never invalidates a read that was valid before: a read that would notice has
met the ESTIMATE already. Only a write to a new location and the conversion to ESTIMATEs can
(`Step.invalidated`).
-/

namespace Pevm

open Interleaving Scheduler MvMemory

/-! ## One location -/

theorem WriteHistory.below_update {h : WriteHistory} {j : Nat} {x : Option MemoryEntry} :
    ∀ {i : Nat}, i ≤ j → WriteHistory.below (Function.update h j x) i = h.below i
  | 0, _ => rfl
  | i + 1, hij => by
    have hne : i ≠ j := by omega
    simp only [WriteHistory.below, Function.update_of_ne hne]
    rw [below_update (by omega)]

/-- Whether the entry at `j` may be replaced by `x` without a valid read noticing: a read that
looks at an ESTIMATE is invalid, and one that looks at a value compares its version only. -/
def Unnoticed (e : Option MemoryEntry) (x : Option MemoryEntry) : Prop :=
  e = some .estimate ∨ ∃ k value value', e = some (.data k value) ∧ x = some (.data k value')

/-- Valid origins stay valid when an entry is replaced unnoticed. -/
theorem checkOrigins_update {h : WriteHistory} {j : Nat} {x : Option MemoryEntry}
    (hx : Unnoticed (h j) x) : ∀ (i : Nat) (origins : ReadOrigins),
      checkOrigins origins (h.below i) = true →
      checkOrigins origins (WriteHistory.below (Function.update h j x) i) = true := by
  intro i
  induction i with
  | zero => exact fun origins hc => hc
  | succ i ih =>
    intro origins hc
    cases origins with
    | nil => rfl
    | cons origin origins =>
      by_cases hij : i = j
      · subst hij
        rcases hx with he | ⟨k, value, value', he, rfl⟩
        · -- the first entry is the ESTIMATE, so the read was invalid
          rw [WriteHistory.below, he] at hc
          cases origin <;> simp [checkOrigins] at hc
        · rw [WriteHistory.below, he] at hc
          rw [WriteHistory.below, Function.update_self, WriteHistory.below_update le_rfl]
          cases origin with
          | mvMemory version => exact hc
          | storage => simp [checkOrigins] at hc
      · rw [WriteHistory.below] at hc ⊢
        rw [Function.update_of_ne hij]
        cases he : h i with
        | none =>
          rw [he] at hc
          exact ih _ hc
        | some e =>
          rw [he] at hc
          cases origin with
          | storage => simp [checkOrigins] at hc
          | mvMemory version =>
            cases e with
            | estimate => simp [checkOrigins] at hc
            | data k value =>
              simp only [checkOrigins] at hc ⊢
              split_ifs at hc ⊢
              exact ih _ hc

/-- The check of a location is about the map of that location only. -/
theorem checkLocation_congr {data data' : MemoryLocationHash → Option WriteHistory} {i : Nat}
    {l : MemoryLocationHash} {origins : ReadOrigins} (h : data' l = data l) :
    checkLocation data' i l origins = checkLocation data i l origins := by
  simp only [checkLocation, h]

/-! ## Entries -/

namespace MvMemory

variable (m : MvMemory) (l l' : MemoryLocationHash) (i j : Nat) (e : MemoryEntry)

theorem entry_insertEntry : (m.insertEntry l i e).entry l' j =
    if l' = l ∧ j = i then some e else m.entry l' j := by
  by_cases hl : l' = l
  · subst hl
    by_cases hj : j = i
    · simp [insertEntry, entry, hj]
    · cases hd : m.data l' <;> simp [insertEntry, entry, hj, hd]
  · simp [insertEntry, entry, hl]

theorem entry_removeEntry : (m.removeEntry l i).entry l' j =
    if l' = l ∧ j = i then none else m.entry l' j := by
  by_cases hl : l' = l
  · subst hl
    by_cases hj : j = i
    · cases hd : m.data l' <;> simp [removeEntry, modifyHistory, entry, hj, hd]
    · cases hd : m.data l' <;> simp [removeEntry, modifyHistory, entry, hj, hd]
  · simp [removeEntry, modifyHistory, entry, hl]

theorem entry_setEstimate (hd : (m.data l).isSome) : (m.setEstimate l i).entry l' j =
    if l' = l ∧ j = i then some .estimate else m.entry l' j := by
  obtain ⟨h, hd⟩ := Option.isSome_iff_exists.mp hd
  by_cases hl : l' = l
  · subst hl
    by_cases hj : j = i
    · simp [setEstimate, modifyHistory, entry, hj, hd]
    · simp [setEstimate, modifyHistory, entry, hj, hd]
  · simp [setEstimate, modifyHistory, entry, hl]

theorem isSome_insertEntry (hd : (m.data l').isSome) : ((m.insertEntry l i e).data l').isSome := by
  by_cases hl : l' = l
  · simp [insertEntry, hl]
  · simpa [insertEntry, hl] using hd

theorem isSome_modifyHistory {f : WriteHistory → WriteHistory} (hd : (m.data l').isSome) :
    ((m.modifyHistory l f).data l').isSome := by
  by_cases hl : l' = l
  · subst hl
    simpa [modifyHistory] using hd
  · simpa [modifyHistory, hl] using hd

theorem entry_congr {m m' : MvMemory} (hd : m'.data = m.data) : m'.entry l j = m.entry l j := by
  simp only [entry, hd]

theorem entriesBelow_eq {m : MvMemory} {l : MemoryLocationHash} {n : Nat} :
    m.entriesBelow l n = WriteHistory.below (m.entry l) n := by
  unfold entriesBelow
  cases hdata : m.data l with
  | some history =>
    have hentry : m.entry l = history := by
      funext j
      rw [entry, hdata]
      rfl
    rw [hentry]
  | none =>
    have hentry : m.entry l = fun _ => none := by
      funext j
      rw [entry, hdata]
      rfl
    rw [hentry]
    induction n with
    | zero => rfl
    | succ n ih => exact ih

/-- The entries below a transaction depend on the lower indices only. -/
theorem entriesBelow_congr {m m' : MvMemory} {l : MemoryLocationHash} {n : Nat}
    (h : ∀ j < n, m'.entry l j = m.entry l j) : m'.entriesBelow l n = m.entriesBelow l n := by
  rw [entriesBelow_eq, entriesBelow_eq]
  induction n with
  | zero => rfl
  | succ n ih =>
    unfold WriteHistory.below
    rw [h n (by omega), ih fun j hj => h j (by omega)]

/-- `swap_remove` keeps what stands before. -/
theorem getElem?_swapRemove {xs : List MemoryLocationHash} {j k : Nat}
    {l : MemoryLocationHash} (hj : j < k) (h : (swapRemove xs k)[j]? = some l) :
    xs[j]? = some l := by
  unfold swapRemove at h
  split at h
  · rw [List.getElem?_dropLast] at h
    split at h
    · rwa [List.getElem?_set_ne (by omega)] at h
    · cases h
  · cases h

/-- `swap_remove` takes out one occurrence. -/
theorem swapRemove_perm {xs : List MemoryLocationHash} {k : Nat} {x : MemoryLocationHash}
    (h : xs[k]? = some x) : xs.Perm (x :: swapRemove xs k) := by
  rcases xs.eq_nil_or_concat with rfl | ⟨ys, y, rfl⟩
  · simp at h
  · rw [List.concat_eq_append] at h ⊢
    have hlast : (ys ++ [y]).getLast? = some y := by simp
    by_cases hk : k < ys.length
    · rw [List.getElem?_append_left hk] at h
      obtain ⟨hk', hx⟩ := List.getElem?_eq_some_iff.mp h
      have hys : ys = ys.take k ++ x :: ys.drop (k + 1) := by
        rw [← hx, ← List.drop_eq_getElem_cons hk, List.take_append_drop]
      have hset : ys.set k y = ys.take k ++ y :: ys.drop (k + 1) := by
        rw [List.set_eq_take_append_cons_drop, if_pos hk]
      have hswap : swapRemove (ys ++ [y]) k = ys.take k ++ y :: ys.drop (k + 1) := by
        simp only [swapRemove, hlast, List.set_append_left _ _ hk, List.dropLast_concat, hset]
      rw [hswap]
      calc ys ++ [y] = ys.take k ++ x :: ys.drop (k + 1) ++ [y] := by rw [← hys]
        _ = ys.take k ++ (x :: (ys.drop (k + 1) ++ [y])) := by simp
        _ |>.Perm (x :: (ys.take k ++ (ys.drop (k + 1) ++ [y]))) := List.perm_middle
        _ |>.Perm (x :: (ys.take k ++ y :: ys.drop (k + 1))) :=
          ((List.perm_append_singleton y _).append_left _).cons x
    · rw [List.getElem?_append_right (not_lt.mp hk)] at h
      obtain rfl : y = x := by
        rcases Nat.eq_zero_or_pos (k - ys.length) with h0 | hpos
        · simpa [h0] using h
        · rw [List.getElem?_eq_none (by simp; omega)] at h
          cases h
      have hk' : k - ys.length = 0 := by
        by_contra hne
        rw [List.getElem?_eq_none (by simp; omega)] at h
        cases h
      have hswap : swapRemove (ys ++ [y]) k = ys := by
        simp [swapRemove, List.set_append_right _ _ (not_lt.mp hk), hk']
      rw [hswap]
      exact List.perm_append_singleton y ys

end MvMemory

/-! ## The writers -/

variable {X R E : Type}

/-- What a step does to the entries and to the recorded locations. -/
inductive MemoryEffect (w : WorkerId) (s s' : System X R E) : Prop where
  | none (hd : s'.mvMemory.data = s.mvMemory.data)
      (hl : s'.mvMemory.lastLocations = s.mvMemory.lastLocations)
  | lock {v : TxVersion} {rs : ReadSet} {ws : WriteSet} {need : Bool} {r : R}
      (hpc : s.pc w = .record v rs ws need r .lock)
      (hd : s'.mvMemory.data = s.mvMemory.data)
      (hl : s'.mvMemory.lastLocations = Function.update s.mvMemory.lastLocations v.txIdx
        { s.mvMemory.lastLocations v.txIdx with read := rs })
  | remove {v : TxVersion} {rs : ReadSet} {ws : WriteSet} {need : Bool} {r : R} {k : Nat}
      {l : MemoryLocationHash} (hpc : s.pc w = .record v rs ws need r (.remove k))
      (hk : (s.mvMemory.lastLocations v.txIdx).write[k]? = some l)
      (hd : s'.mvMemory.data = (s.mvMemory.removeEntry l v.txIdx).data)
      (hl : s'.mvMemory.lastLocations = Function.update s.mvMemory.lastLocations v.txIdx
        { s.mvMemory.lastLocations v.txIdx with
          write := swapRemove (s.mvMemory.lastLocations v.txIdx).write k })
  | insertOld {v : TxVersion} {rs : ReadSet} {ws rest rest' : WriteSet} {need new : Bool} {r : R}
      {l : MemoryLocationHash} {value : MemoryValue}
      (hpc : s.pc w = .record v rs ws need r (.insert rest' new))
      (hpc' : s'.pc w = .record v rs ws need r (.insert rest new))
      (hw : l ∈ (s.mvMemory.lastLocations v.txIdx).write)
      (hd : s'.mvMemory.data =
        (s.mvMemory.insertEntry l v.txIdx (.data v.txIncarnation value)).data)
      (hl : s'.mvMemory.lastLocations = s.mvMemory.lastLocations)
  | insertNew {v : TxVersion} {rs : ReadSet} {ws rest rest' : WriteSet} {need new : Bool} {r : R}
      {l : MemoryLocationHash} {value : MemoryValue}
      (hpc : s.pc w = .record v rs ws need r (.insert rest' new))
      (hpc' : s'.pc w = .record v rs ws need r (.insert rest true))
      (hw : l ∉ (s.mvMemory.lastLocations v.txIdx).write)
      (hd : s'.mvMemory.data =
        (s.mvMemory.insertEntry l v.txIdx (.data v.txIncarnation value)).data)
      (hl : s'.mvMemory.lastLocations = Function.update s.mvMemory.lastLocations v.txIdx
        { s.mvMemory.lastLocations v.txIdx with
          write := (s.mvMemory.lastLocations v.txIdx).write ++ [l] })
  | convert {v : TxVersion} {l : MemoryLocationHash} {rest : List MemoryLocationHash}
      (hpc : s.pc w = .convertWrites v (.convert (l :: rest)))
      (hpc' : s'.pc w = .convertWrites v (.convert rest))
      (hd : s'.mvMemory.data = (s.mvMemory.setEstimate l v.txIdx).data)
      (hl : s'.mvMemory.lastLocations = s.mvMemory.lastLocations)

variable {cfg : Config X R E} {w : WorkerId} {s s' : System X R E}

theorem Step.memoryEffect (h : Step cfg w s s') : MemoryEffect w s s' := by
  rcases h with h | h | h | h | h <;> cases h
  case execute.addNewBytecode v x x' hash code hpc hx =>
    refine .none ?_ ?_ <;>
      · simp only [System.goto_mvMemory, System.withMemory_mvMemory, addNewBytecode]
        split <;> rfl
  case execute.recordLock hpc hh => exact .lock hpc rfl rfl
  case execute.recordRemove hpc hk hl => exact .remove hpc hk rfl rfl
  case execute.recordInsertOld hpc hl =>
    exact .insertOld hpc (Function.update_self ..) hl rfl rfl
  case execute.recordInsertNew hpc hl =>
    exact .insertNew hpc (Function.update_self ..) hl rfl rfl
  case validate.convert hpc =>
    exact .convert hpc (Function.update_self ..) rfl rfl
  all_goals exact .none rfl rfl

/-- A worker at this program counter has recorded a value at `l` for `j`, or has yet to turn it
into an ESTIMATE. -/
def Pc.keepsValue (j : Nat) (l : MemoryLocationHash) : Pc X R E → Prop
  | .record v _ _ _ _ (.insert _ _) | .writeResult v _ _ | .finishExecution v _ _
  | .convertWrites v .lock => v.txIdx = j
  | .convertWrites v (.convert rest) => v.txIdx = j ∧ l ∈ rest
  | _ => False

/-- The entry of `j` at `l` may be a value: the transaction is finished, or a worker is between
recording it and finishing, or between aborting it and having converted this location. -/
def MayHoldValue (s : System X R E) (j : Nat) (l : MemoryLocationHash) : Prop :=
  isExecutedOrValidated (s.scheduler.transactionsStatus j).status = true ∨
    ∃ w, (s.pc w).keepsValue j l

/-- The entries of the recorded locations. -/
structure Writes (s : System X R E) : Prop where
  nodup : ∀ j, (s.mvMemory.lastLocations j).write.Nodup
  mapped : ∀ j, ∀ l ∈ (s.mvMemory.lastLocations j).write, (s.mvMemory.data l).isSome
  estimate : ∀ j, ∀ l ∈ (s.mvMemory.lastLocations j).write, ¬ MayHoldValue s j l →
    s.mvMemory.entry l j = some .estimate
  /-- while `record` inserts, the entries of earlier incarnations are still ESTIMATEs -/
  inserting : ∀ w v rs ws need r rest new, s.pc w = .record v rs ws need r (.insert rest new) →
    ∀ l ∈ (s.mvMemory.lastLocations v.txIdx).write, s.mvMemory.entry l v.txIdx = some .estimate ∨
      ∃ value, s.mvMemory.entry l v.txIdx = some (.data v.txIncarnation value)

/-- A finished transaction becomes unfinished only by an abort. -/
theorem Step.unfinished (hb : Bounds cfg s) (hO : Ownership s.own) (h : Step cfg w s s') {j : Nat}
    (hx : isExecutedOrValidated (s.scheduler.transactionsStatus j).status = true)
    (hx' : isExecutedOrValidated (s'.scheduler.transactionsStatus j).status = false) :
    ∃ v, v.txIdx = j ∧ s'.pc w = .convertWrites v .lock := by
  have hne : (s'.scheduler.transactionsStatus j) ≠ s.scheduler.transactionsStatus j := by
    intro heq
    rw [heq, hx] at hx'
    cases hx'
  have hedge := (h.statusEdge hb hO j).resolve_left hne
  -- the only edges out of Executed and Validated that leave both lead to Aborting
  have hst : (s'.scheduler.transactionsStatus j).status = .aborting := by
    generalize s.scheduler.transactionsStatus j = a at *
    generalize s'.scheduler.transactionsStatus j = b at *
    cases hedge <;> simp_all [isExecutedOrValidated]
  rcases h with h | h | h | h | h <;> cases h
  case validate.abortExecuted v hpc hs | validate.abortValidated v hpc hs =>
    refine ⟨v, ?_, Function.update_self ..⟩
    by_contra hj
    exact hne (by simp [setStatus, holdStatus, Ne.symm hj])
  case addDependency.lockTx v b hpc hh =>
    by_cases hj : j = v.txIdx
    · have hexec := hO.executing w v (by simp [System.own, hpc, Pc.phase, Phase.execution])
      rw [hj, show s.scheduler.transactionsStatus v.txIdx = _ from hexec] at hx
      cases hx
    · exact absurd (by simp [setStatus, holdStatus, hj]) hne
  all_goals
    exfalso
    simp only [System.goto_scheduler, System.withScheduler_scheduler, System.withMemory_scheduler,
      System.record_scheduler, setStatus, setReady, setDependents, holdStatus, holdDependents,
      releaseFinish, markValidated, Function.update_apply, Scheduler.abort] at hst hne
    grind

/-- A worker that keeps a value finishes the transaction or turns the value into an ESTIMATE. -/
theorem Step.keepsValue (h : Step cfg w s s') (hW : Writes s) {j : Nat} {l : MemoryLocationHash}
    (hl : l ∈ (s.mvMemory.lastLocations j).write) (hk : (s.pc w).keepsValue j l) :
    (s'.pc w).keepsValue j l ∨
      isExecutedOrValidated (s'.scheduler.transactionsStatus j).status = true ∨
      s'.mvMemory.entry l j = some .estimate := by
  rcases h with h | h | h | h | h <;> cases h
  case execute.recordInsertOld hpc hl | execute.recordInsertNew hpc hl | execute.recordUnlock hpc
    | execute.writeResult hpc | finishExecution.lock hpc hh | finishExecution.lockDependents hpc hh
    | finishExecution.drain hpc hd hh | finishExecution.lowerExecutionIdx hpc
    | finishExecution.drained hpc hd | finishExecution.belowMin hpc hneed hm hv hnew
    | finishExecution.nothingToValidate hpc hneed hm | finishExecution.aboveMin hpc hneed hm hv
    | finishExecution.lowerMin hpc hneed hv | finishExecution.lowerToMin hpc
    | finishExecution.passedNew hpc hv hnew | finishExecution.passed hpc hv hnew
    | finishExecution.notPassed hpc hv | finishExecution.lowerToNext hpc
    | finishExecution.fallThrough hpc hneed =>
    exact .inl (by simpa [hpc, Pc.keepsValue] using hk)
  case finishExecution.validateFrom v flags hpc hneed
    | finishExecution.settleExecuted v flags again hpc hneed
    | finishExecution.settleValidated v flags again hpc hneed =>
    obtain rfl : v.txIdx = j := by simpa [hpc, Pc.keepsValue] using hk
    exact .inr (.inl (by simp [markValidated, setStatus, releaseFinish, holdStatus,
      holdDependents, isExecutedOrValidated]))
  case validate.convertLock v hpc hh =>
    obtain rfl : v.txIdx = j := by simpa [hpc, Pc.keepsValue] using hk
    exact .inl (by simpa [Pc.keepsValue] using hl)
  case validate.convert v l' rest hpc =>
    obtain ⟨rfl, hmem⟩ : v.txIdx = j ∧ l ∈ l' :: rest := by simpa only [hpc, Pc.keepsValue] using hk
    rcases List.mem_cons.mp hmem with rfl | hrest
    · refine .inr (.inr ?_)
      show (s.mvMemory.setEstimate l v.txIdx).entry l v.txIdx = some .estimate
      rw [entry_setEstimate _ _ _ _ _ (hW.mapped _ _ hl), if_pos ⟨rfl, rfl⟩]
    · exact .inl (by simpa [Pc.keepsValue] using hrest)
  case validate.converted v hpc => simp [hpc, Pc.keepsValue] at hk
  all_goals simp_all [Pc.keepsValue]

theorem Step.mayHoldValue (hb : Bounds cfg s) (hO : Ownership s.own) (h : Step cfg w s s')
    (hW : Writes s) {j : Nat} {l : MemoryLocationHash}
    (hl : l ∈ (s.mvMemory.lastLocations j).write) (hm : MayHoldValue s j l) :
    MayHoldValue s' j l ∨ s'.mvMemory.entry l j = some .estimate := by
  rcases hm with hx | hex
  · cases hx' : isExecutedOrValidated (s'.scheduler.transactionsStatus j).status with
    | true => exact .inl (.inl hx')
    | false =>
      obtain ⟨v, hv, hpc⟩ := h.unfinished hb hO hx hx'
      exact .inl (.inr ⟨w, by simpa [hpc, Pc.keepsValue] using hv⟩)
  · rcases h.exists_pc (Q := fun pc => pc.keepsValue j l) hex (h.keepsValue hW hl)
      with hex' | hx | he
    · exact .inl (.inr hex')
    · exact .inl (.inl hx)
    · exact .inr he

/-- A worker that keeps a value of `j` owns the transaction, or has finished it. -/
theorem Pc.owner_of_keepsValue {pc : Pc X R E} {j : Nat} {l : MemoryLocationHash}
    (h : pc.keepsValue j l) :
    (∃ v, v.txIdx = j ∧ (pc.phase.execution = some v ∨ pc.phase = .recounting v)) ∨
      pc.phase.abort = some j := by
  unfold Pc.keepsValue at h
  split at h
  case h_1 v _ _ _ _ _ _ => exact .inl ⟨v, h, .inl rfl⟩
  case h_2 v _ _ => exact .inl ⟨v, h, .inl rfl⟩
  case h_3 v flags pc =>
    refine .inl ⟨v, h, ?_⟩
    cases pc
    case settle again => cases again <;> simp [Pc.phase, Phase.execution]
    all_goals simp [Pc.phase, Phase.execution]
  case h_4 v => exact .inr (congrArg some h)
  case h_5 v rest => exact .inr (congrArg some h.1)
  case h_6 => exact h.elim

/-- Before `record` inserts, none of the recorded locations holds a value. -/
theorem not_mayHoldValue_of_remove (hO : Ownership s.own) {v : TxVersion} {rs : ReadSet}
    {ws : WriteSet} {need : Bool} {r : R} {k : Nat} {l : MemoryLocationHash}
    (hpc : s.pc w = .record v rs ws need r (.remove k)) : ¬ MayHoldValue s v.txIdx l := by
  have htask : (s.own.phase w).execution = some v := by
    simp [System.own, hpc, Pc.phase, Phase.execution]
  have hst : s.scheduler.transactionsStatus v.txIdx = ⟨v.txIncarnation, .executing⟩ :=
    hO.executing w v htask
  rintro (hx | ⟨w', hk⟩)
  · rw [hst] at hx
    cases hx
  · rcases Pc.owner_of_keepsValue hk with ⟨v', hv', htask' | hphase⟩ | habort
    · obtain rfl := hO.executingUnique w w' v v' htask htask' hv'.symm
      simp [hpc, Pc.keepsValue] at hk
    · have := hO.recounting w' v' hphase
      rw [hv', show s.own.status v.txIdx = _ from hst] at this
      cases this
    · have := hO.aborting w' v.txIdx habort
      rw [show s.own.status v.txIdx = _ from hst] at this
      cases this

/-- Worker `w` has inserted the value of the version it executes. -/
structure Inserted (w : WorkerId) (s : System X R E) (j : Nat) (l : MemoryLocationHash) : Prop where
  keeps : (s.pc w).keepsValue j l
  entry : ∃ v value, (s.own.phase w).execution = some v ∧ v.txIdx = j ∧
    s.mvMemory.entry l j = some (.data v.txIncarnation value)

theorem inserted_of_insertEntry {v : TxVersion} {rs : ReadSet} {ws rest : WriteSet}
    {need new : Bool} {r : R} {l : MemoryLocationHash} {value : MemoryValue}
    (hpc' : s'.pc w = .record v rs ws need r (.insert rest new))
    (hd : s'.mvMemory.data =
      (s.mvMemory.insertEntry l v.txIdx (.data v.txIncarnation value)).data) :
    Inserted w s' v.txIdx l := by
  refine ⟨by simp [hpc', Pc.keepsValue], v, value,
    by simp [System.own, hpc', Pc.phase, Phase.execution], rfl, ?_⟩
  rw [entry_congr _ _ hd, entry_insertEntry, if_pos ⟨rfl, rfl⟩]

/-- A location is added to the recorded ones by the worker that inserts its entry. -/
theorem Step.mem_write (h : Step cfg w s s') {j : Nat} {l : MemoryLocationHash}
    (hmem : l ∈ (s'.mvMemory.lastLocations j).write) :
    l ∈ (s.mvMemory.lastLocations j).write ∨ Inserted w s' j l := by
  cases h.memoryEffect with
  | none hd hl | insertOld hpc hpc' hw hd hl | convert hpc hpc' hd hl => exact .inl (hl ▸ hmem)
  | @lock v rs _ _ _ hpc hd hl =>
    rw [hl] at hmem
    by_cases hv : j = v.txIdx
    · subst hv
      exact .inl (by simpa using hmem)
    · exact .inl (by simpa [hv] using hmem)
  | @remove v _ _ _ _ k l' hpc hk hd hl =>
    rw [hl] at hmem
    by_cases hv : j = v.txIdx
    · subst hv
      exact .inl ((swapRemove_perm hk).mem_iff.mpr (List.mem_cons_of_mem _ (by simpa using hmem)))
    · exact .inl (by simpa [hv] using hmem)
  | @insertNew v _ _ _ _ _ _ _ l' _ hpc hpc' hw hd hl =>
    rw [hl] at hmem
    by_cases hv : j = v.txIdx
    · subst hv
      by_cases hll : l = l'
      · subst hll
        exact .inr (inserted_of_insertEntry hpc' hd)
      · exact .inl (by simpa [hll] using hmem)
    · exact .inl (by simpa [hv] using hmem)

/-- A map, once made, stays. -/
theorem Step.isSome_data (h : Step cfg w s s') {l : MemoryLocationHash}
    (hl : (s.mvMemory.data l).isSome) : (s'.mvMemory.data l).isSome := by
  cases h.memoryEffect with
  | none hd _ | lock _ hd _ => rwa [hd]
  | remove _ _ hd _ | convert _ _ hd _ =>
    rw [hd]
    exact isSome_modifyHistory _ _ _ hl
  | insertOld _ _ _ hd _ | insertNew _ _ _ hd _ =>
    rw [hd]
    exact isSome_insertEntry _ _ _ _ _ hl

/-- What a step does to an entry of a recorded location: the worker that records the transaction
removes it together with the location or replaces it by its value, and the worker that aborted
the transaction replaces it by an ESTIMATE. -/
theorem Step.entry (h : Step cfg w s s') (hW : Writes s) {j : Nat} {l : MemoryLocationHash}
    (hl : l ∈ (s.mvMemory.lastLocations j).write) :
    s'.mvMemory.entry l j = s.mvMemory.entry l j ∨
      l ∉ (s'.mvMemory.lastLocations j).write ∨ Inserted w s' j l ∨
      s'.mvMemory.entry l j = some .estimate := by
  cases h.memoryEffect with
  | none hd _ | lock _ hd _ => exact .inl (entry_congr _ _ hd)
  | @remove v _ _ _ _ k l' hpc hk hd hlast =>
    by_cases hjl : l = l' ∧ j = v.txIdx
    · obtain ⟨rfl, rfl⟩ := hjl
      refine .inr (.inl ?_)
      have hnd := (swapRemove_perm hk).nodup_iff.mp (hW.nodup v.txIdx)
      rw [hlast]
      simpa using (List.nodup_cons.mp hnd).1
    · refine .inl ?_
      rw [entry_congr _ _ hd, entry_removeEntry, if_neg hjl]
  | @insertOld v _ _ _ _ _ _ _ l' value hpc hpc' hw hd _
  | @insertNew v _ _ _ _ _ _ _ l' value hpc hpc' hw hd _ =>
    by_cases hjl : l = l' ∧ j = v.txIdx
    · obtain ⟨rfl, rfl⟩ := hjl
      exact .inr (.inr (.inl (inserted_of_insertEntry hpc' hd)))
    · refine .inl ?_
      rw [entry_congr _ _ hd, entry_insertEntry, if_neg hjl]
  | @convert v l' rest hpc hpc' hd _ =>
    by_cases hjl : l = l' ∧ j = v.txIdx
    · obtain ⟨rfl, rfl⟩ := hjl
      refine .inr (.inr (.inr ?_))
      rw [entry_congr _ _ hd, entry_setEstimate _ _ _ _ _ (hW.mapped _ _ hl), if_pos ⟨rfl, rfl⟩]
    · refine .inl ?_
      by_cases hll : l = l'
      · subst hll
        rw [entry_congr _ _ hd, entry_setEstimate _ _ _ _ _ (hW.mapped _ _ hl), if_neg hjl]
      · rw [entry_congr _ _ hd]
        simp [MvMemory.entry, setEstimate, modifyHistory, hll]

namespace Writes

theorem nodup_step (hW : Writes s) (h : Step cfg w s s') (j : Nat) :
    (s'.mvMemory.lastLocations j).write.Nodup := by
  have hj := hW.nodup j
  cases h.memoryEffect with
  | none hd hl => rwa [hl]
  | insertOld hpc hpc' hw hd hl => rwa [hl]
  | convert hpc hpc' hd hl => rwa [hl]
  | @lock v rs _ _ _ hpc hd hl =>
    rw [hl]
    by_cases hv : j = v.txIdx
    · subst hv
      simpa using hj
    · simpa [hv] using hj
  | @remove v _ _ _ _ k l hpc hk hd hl =>
    rw [hl]
    by_cases hv : j = v.txIdx
    · subst hv
      have hperm := (swapRemove_perm hk).nodup_iff.mp hj
      simpa using (List.nodup_cons.mp hperm).2
    · simpa [hv] using hj
  | @insertNew v _ _ _ _ _ _ _ l _ hpc hpc' hw hd hl =>
    rw [hl]
    by_cases hv : j = v.txIdx
    · subst hv
      simpa using hj.concat hw
    · simpa [hv] using hj

theorem mapped_step (hW : Writes s) (h : Step cfg w s s') (j : Nat) :
    ∀ l ∈ (s'.mvMemory.lastLocations j).write, (s'.mvMemory.data l).isSome := by
  intro l hmem
  rcases h.mem_write hmem with hmem | ⟨-, v, value, -, -, he⟩
  · exact h.isSome_data (hW.mapped j l hmem)
  · cases hd : s'.mvMemory.data l with
    | none => simp [MvMemory.entry, hd] at he
    | some history => rfl

theorem estimate_step (hb : Bounds cfg s) (hO : Ownership s.own) (hW : Writes s)
    (h : Step cfg w s s') (j : Nat) :
    ∀ l ∈ (s'.mvMemory.lastLocations j).write, ¬ MayHoldValue s' j l →
      s'.mvMemory.entry l j = some .estimate := by
  intro l hmem hno
  rcases h.mem_write hmem with hmem₀ | hins
  · by_cases hm : MayHoldValue s j l
    · exact (h.mayHoldValue hb hO hW hmem₀ hm).resolve_left hno
    · have he := hW.estimate j l hmem₀ hm
      rcases h.entry hW hmem₀ with heq | hgone | hins | hest
      · rw [heq, he]
      · exact absurd hmem hgone
      · exact absurd (.inr ⟨w, hins.keeps⟩) hno
      · exact hest
  · exact absurd (.inr ⟨w, hins.keeps⟩) hno

/-- The worker itself starts to insert, or inserted one more entry. -/
theorem inserting_self (hO : Ownership s.own) (hW : Writes s) (h : Step cfg w s s')
    {v : TxVersion} {rs : ReadSet} {ws rest : WriteSet} {need new : Bool} {r : R}
    (hpc' : s'.pc w = .record v rs ws need r (.insert rest new)) {l : MemoryLocationHash}
    (hmem : l ∈ (s.mvMemory.lastLocations v.txIdx).write) :
    s.mvMemory.entry l v.txIdx = some .estimate ∨
      ∃ value, s.mvMemory.entry l v.txIdx = some (.data v.txIncarnation value) := by
  rcases h with h | h | h | h | h <;> cases h
  case execute.recordRemoved v' rs' ws' need' r' k hpc hk =>
    obtain ⟨rfl, -⟩ : v' = v ∧ _ := by simpa using hpc'
    exact .inl (hW.estimate _ l hmem (not_mayHoldValue_of_remove hO hpc))
  case execute.recordInsertOld v' rs' ws' rest' need' new' r' l' value hpc hl
    | execute.recordInsertNew v' rs' ws' rest' need' new' r' l' value hpc hl =>
    obtain ⟨rfl, -⟩ : v' = v ∧ _ := by simpa using hpc'
    exact hW.inserting w v' _ _ _ _ _ _ hpc l hmem
  all_goals simp at hpc'

theorem inserting_step (hb : Bounds cfg s) (hO : Ownership s.own) (hW : Writes s)
    (h : Step cfg w s s') {w₀ : WorkerId} {v : TxVersion} {rs : ReadSet} {ws rest : WriteSet}
    {need new : Bool} {r : R} (hpc' : s'.pc w₀ = .record v rs ws need r (.insert rest new))
    {l : MemoryLocationHash} (hmem : l ∈ (s'.mvMemory.lastLocations v.txIdx).write) :
    s'.mvMemory.entry l v.txIdx = some .estimate ∨
      ∃ value, s'.mvMemory.entry l v.txIdx = some (.data v.txIncarnation value) := by
  have hO' := hO.step (own_of_step hb h)
  have htask' : (s'.own.phase w₀).execution = some v := by
    simp [System.own, hpc', Pc.phase, Phase.execution]
  -- an entry inserted by this step is the one of the only executor of the transaction
  have hinserted : Inserted w s' v.txIdx l → ∃ value,
      s'.mvMemory.entry l v.txIdx = some (.data v.txIncarnation value) := by
    rintro ⟨-, v', value, htask, hv', he⟩
    obtain rfl := hO'.executingUnique w w₀ v' v htask htask' hv'
    obtain rfl : v' = v := Option.some.inj (htask.symm.trans htask')
    exact ⟨value, he⟩
  rcases h.mem_write hmem with hmem₀ | hins
  · have hold : s.mvMemory.entry l v.txIdx = some .estimate ∨
        ∃ value, s.mvMemory.entry l v.txIdx = some (.data v.txIncarnation value) := by
      by_cases hw : w₀ = w
      · subst hw
        exact hW.inserting_self hO h hpc' hmem₀
      · rw [h.pc_of_ne hw] at hpc'
        exact hW.inserting w₀ v rs ws need r rest new hpc' l hmem₀
    rcases h.entry hW hmem₀ with heq | hgone | hins | hest
    · rwa [heq]
    · exact absurd hmem hgone
    · exact .inr (hinserted hins)
    · exact .inl hest
  · exact .inr (hinserted hins)

theorem step (hb : Bounds cfg s) (hO : Ownership s.own) (h : Step cfg w s s') (hW : Writes s) :
    Writes s' where
  nodup := hW.nodup_step h
  mapped := hW.mapped_step h
  estimate := hW.estimate_step hb hO h
  inserting _ _ _ _ _ _ _ _ hpc _ hmem := hW.inserting_step hb hO h hpc hmem

end Writes

theorem writes_reachable (h : (workers cfg).Reachable s) : Writes s :=
  invariant_of_step
    (fun s hs => by
      obtain ⟨-, hm, -, hpc, -⟩ := hs
      have hempty : ∀ j, (s.mvMemory.lastLocations j).write = [] := fun j => by
        rw [hm]
        rfl
      refine ⟨fun j => ?_, fun j l hl => ?_, fun j l hl => ?_, fun w _ _ _ _ _ _ _ h => ?_⟩
      · rw [hempty j]
        exact List.nodup_nil
      · simp [hempty j] at hl
      · simp [hempty j] at hl
      · simp [hpc w] at h)
    (fun _ _ _ hb hs _ hstep hW => hW.step hb (ownership_reachable hs) hstep) h

/-! ## Reads -/

/-- A check looks at the entries below the reader only. -/
theorem checkLocation_of_le {m : MvMemory} {l l' : MemoryLocationHash} {i j : Nat}
    {e : MemoryEntry} {origins : ReadOrigins} (hij : i ≤ j)
    (hc : checkLocation m.data i l' origins = true) :
    checkLocation (m.insertEntry l j e).data i l' origins = true := by
  by_cases hl : l' = l
  · subst hl
    cases hd : m.data l' with
    | some history =>
      simp only [checkLocation, hd] at hc
      simpa [checkLocation, insertEntry, hd, WriteHistory.below_update hij] using hc
    | none =>
      -- the location had no map: the only origin is the storage
      have hempty : ∀ i, WriteHistory.below (fun _ => none) i = [] := by
        intro i
        induction i with
        | zero => rfl
        | succ i ih => exact ih
      obtain ⟨hlen, hlast⟩ : origins.length = 1 ∧ origins.getLast? = some .storage := by
        simpa [checkLocation, hd] using hc
      obtain ⟨o, rfl⟩ := List.length_eq_one_iff.mp hlen
      obtain rfl : o = .storage := by simpa using hlast
      simp [checkLocation, insertEntry, hd, WriteHistory.below_update hij, hempty, checkOrigins]
  · have hsame : (m.insertEntry l j e).data l' = m.data l' := by simp [insertEntry, hl]
    rwa [checkLocation_congr hsame]

/-- Replacing an entry unnoticed keeps a valid read valid. -/
theorem checkLocation_update {m : MvMemory} {data : MemoryLocationHash → Option WriteHistory}
    {l l' : MemoryLocationHash} {i j : Nat} {x : Option MemoryEntry} {history : WriteHistory}
    {origins : ReadOrigins} (hl : m.data l = some history)
    (hd : data = Function.update m.data l (some (Function.update history j x)))
    (hx : Unnoticed (m.entry l j) x) (hc : checkLocation m.data i l' origins = true) :
    checkLocation data i l' origins = true := by
  subst hd
  by_cases hll : l' = l
  · subst hll
    simp only [checkLocation, hl] at hc
    simp only [checkLocation, Function.update_self]
    exact checkOrigins_update (by simpa [MvMemory.entry, hl] using hx) i origins hc
  · have hsame : Function.update m.data l (some (Function.update history j x)) l' = m.data l' := by
      simp [hll]
    rwa [checkLocation_congr hsame]

/-- **What invalidates a read.** A valid read becomes invalid only when a lower transaction writes
to a new location or is converted to ESTIMATEs. -/
theorem Step.invalidated (hO : Ownership s.own) (hW : Writes s) (h : Step cfg w s s') {i : Nat}
    {l : MemoryLocationHash} {origins : ReadOrigins}
    (hc : checkLocation s.mvMemory.data i l origins = true)
    (hc' : checkLocation s'.mvMemory.data i l origins = false) :
    ∃ v, v.txIdx < i ∧
      ((∃ rs ws need r rest, s'.pc w = .record v rs ws need r (.insert rest true)) ∨
        ∃ rest, s'.pc w = .convertWrites v (.convert rest)) := by
  have hvalid : ¬ checkLocation s'.mvMemory.data i l origins = true := by simp [hc']
  cases h.memoryEffect with
  | none hd _ | lock _ hd _ => exact absurd (hd ▸ hc) hvalid
  | @remove v _ _ _ _ k l' hpc hk hd _ =>
    have hmem : l' ∈ (s.mvMemory.lastLocations v.txIdx).write := List.mem_of_getElem? hk
    obtain ⟨history, hsome⟩ := Option.isSome_iff_exists.mp (hW.mapped _ _ hmem)
    have hest := hW.estimate _ l' hmem (not_mayHoldValue_of_remove hO hpc)
    refine absurd (checkLocation_update (x := none) hsome ?_ (.inl hest) hc) hvalid
    rw [hd, removeEntry, modifyHistory, hsome]
    rfl
  | @insertOld v _ _ _ _ _ _ _ l' value hpc hpc' hmem hd _ =>
    obtain ⟨history, hsome⟩ := Option.isSome_iff_exists.mp (hW.mapped _ _ hmem)
    have hx : Unnoticed (s.mvMemory.entry l' v.txIdx) (some (.data v.txIncarnation value)) := by
      rcases hW.inserting w v _ _ _ _ _ _ hpc l' hmem with hest | ⟨value', hold⟩
      · exact .inl hest
      · exact .inr ⟨v.txIncarnation, value', value, hold, rfl⟩
    refine absurd (checkLocation_update hsome ?_ hx hc) hvalid
    rw [hd, insertEntry, hsome]
    rfl
  | @insertNew v rs ws rest _ need _ r l' value hpc hpc' hmem hd _ =>
    refine ⟨v, ?_, .inl ⟨rs, ws, need, r, rest, hpc'⟩⟩
    by_contra hlt
    refine hvalid ?_
    rw [hd]
    exact checkLocation_of_le (not_lt.mp hlt) hc
  | @convert v l' rest hpc hpc' hd _ =>
    refine ⟨v, ?_, .inr ⟨rest, hpc'⟩⟩
    by_contra hlt
    refine hvalid ?_
    rw [hd]
    by_cases hll : l = l'
    · subst hll
      cases hsome : s.mvMemory.data l with
      | none => simpa [checkLocation, setEstimate, modifyHistory, hsome] using hc
      | some history =>
        simpa [checkLocation, setEstimate, modifyHistory, hsome,
          WriteHistory.below_update (not_lt.mp hlt)] using hc
    · have hsame : (s.mvMemory.setEstimate l' v.txIdx).data l = s.mvMemory.data l := by
        simp [setEstimate, modifyHistory, hll]
      rwa [checkLocation_congr hsame]

end Pevm