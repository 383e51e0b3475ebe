import Pevm.Proofs.FullBlocks
import Pevm.Proofs.SameValues

/-!
# Serializability

A complete parallel run of a block without lazy transactions returns what the serial execution of
the block returns (`parallel_eq_serial`), for any number of workers and any interleaving.

The proof looks back from the end of the run, at the memory `m₂` that it leaves:

* **`agrees_of_leadsTo`**: two memories of one run hold the same value wherever both hold one of the
  same version, because a version is recorded once.
* **`Ahead`**: an execution whose recorded origins are the ones of `m₂` has read what `m₂` shows, so
  that the rest of it is the serial execution on `m₂` (`ahead_run`).
* **`records_serial`**: the origins of the last incarnation of a transaction are the ones of `m₂`,
  because it was validated after the last change below it (`no_stale_read`), so that what it
  recorded is the serial execution on `m₂`.
* **`serial_eq`**: what the serial execution of the block leaves below a transaction are then the
  values of `m₂`.
-/

namespace Pevm

open Interleaving Scheduler MvMemory

/-! ## Two memories of one run -/

/-- The memories hold the same value wherever both hold one of the same version. -/
def MvMemory.Agrees (m m' : MvMemory) : Prop :=
  ∀ l i k a b, m.entry l i = some (.data k a) → m'.entry l i = some (.data k b) → a = b

/-- The value of the version at the location. -/
def MvMemory.valueAt (m : MvMemory) (l : MemoryLocationHash) (v : TxVersion) : Option MemoryValue :=
  match m.entry l v.txIdx with
  | some (.data k value) => if k = v.txIncarnation then some value else none
  | _ => none

theorem MvMemory.valueAt_eq_some_iff {m : MvMemory} {l : MemoryLocationHash} {v : TxVersion}
    {value : MemoryValue} :
    m.valueAt l v = some value ↔ m.entry l v.txIdx = some (.data v.txIncarnation value) := by
  unfold valueAt
  split
  · next k value' heq =>
    rw [heq]
    simp only [Option.ite_none_right_eq_some, Option.some.injEq, MemoryEntry.data.injEq]
  · next hne =>
    exact ⟨fun h => (by cases h), fun h => absurd h (hne _ _)⟩

/-- Memories that agree hold the values of one writing. -/
theorem MvMemory.Agrees.written {m m' : MvMemory} (h : m.Agrees m') :
    ∃ written, m.Holds written ∧ m'.Holds written := by
  refine ⟨fun l v => ((m.valueAt l v).or (m'.valueAt l v)).getD .selfDestructed,
    fun l i k value he => ?_, fun l i k value he => ?_⟩
  · have hvalue : m.valueAt l ⟨i, k⟩ = some value := valueAt_eq_some_iff.mpr he
    simp only [hvalue, Option.some_or, Option.getD_some]
  · have hvalue : m'.valueAt l ⟨i, k⟩ = some value := valueAt_eq_some_iff.mpr he
    cases hother : m.valueAt l ⟨i, k⟩ with
    | none => simp only [hother, hvalue, Option.none_or, Option.getD_some]
    | some other =>
      have heq : other = value := h l i k other value (valueAt_eq_some_iff.mp hother) he
      simp only [hother, Option.some_or, Option.getD_some, heq]

section Agrees

variable {X R E : Type} {cfg : Config X R E} {C : TxVersion → X → Prop}
  {P : List Address → TxVersion → X → Prop} {Q : List Address → TxVersion → WriteSet → R → Prop}

/-- **The memories of a run agree**, if write sets have every location once. -/
theorem agrees_of_leadsTo {s₁ s₂ : System X R E} (hK : cfg.executor.Keeps C P Q)
    (hnodup : ∀ {lazyAddresses v ws r}, Q lazyAddresses v ws r → v.txIdx < cfg.blockSize →
      (AssocList.keys ws).Nodup)
    (h₁ : (workers cfg).ReachableVia (StepsMeet C) s₁)
    (h₂ : (workers cfg).LeadsTo (StepsMeet C) s₁ s₂) : s₁.mvMemory.Agrees s₂.mvMemory := by
  intro l i k a b ha hb
  by_contra hne
  -- the version that holds `a` in `s₁` does not come to hold `b`
  have hbarred : Barred s₁ ⟨i, k⟩ l b := by
    refine .of_entry (entryVersions_reachable h₁.reachable) (ownership_reachable h₁.reachable)
      (recordedOnce_reachable h₁.reachable) ha hne fun w rs ws need r pc hpc hmem hmem' => ?_
    have hbounds := (bounds_reachable h₁.reachable).pc w
    rw [hpc] at hbounds
    have hws := hnodup ((carries_reachable hK h₁).record w _ rs ws need r pc hpc) hbounds
    have hfirst := AssocList.lookup_eq_some_of_mem hws hmem
    rw [AssocList.lookup_eq_some_of_mem hws hmem'] at hfirst
    exact hne (Option.some.inj hfirst).symm
  obtain ⟨-, hbarred₂⟩ := h₂.invariant (P := fun t => Barred t ⟨i, k⟩ l b) h₁ hbarred
    fun w t t' ht _ hone hP => hP.step (ownership_reachable ht.reachable) (recordedOnce_reachable ht.reachable)
      (fun w v rs ws need r rest new hpc =>
        ((recorded_reachable hK ht).inserting w v rs ws need r rest new hpc).1)
      (step_of_workerStep (bounds_reachable ht.reachable).finishExecution_lt (workers_step hone).2)
  exact hbarred₂.entry hb

end Agrees

/-! ## Executions that read what the end of the run shows -/

/-- The origins of the read set are those of the memory. -/
def Checked (m : MvMemory) (i : Nat) (readSet : ReadSet) : Prop :=
  ∀ l, readSet.origins l ≠ [] → checkOrigins (readSet.origins l) (m.entriesBelow l i) = true

theorem Checked.mono {m : MvMemory} {i : Nat} {readSet readSet' : ReadSet}
    (hkept : ∀ l, readSet.origins l ≠ [] → readSet'.origins l = readSet.origins l)
    (h : Checked m i readSet') : Checked m i readSet := by
  intro l hne
  rw [← hkept l hne]
  exact h l (by rwa [hkept l hne])

theorem checked_of_validateReadLocations {m : MvMemory} {i : Nat}
    (h : validateReadLocations m i = true) : Checked m i (m.lastLocations i).read := fun l hne =>
  checkOrigins_of_checkLocation
    (validateReadLocations_iff.mp h (l, _) (ReadSet.mem_of_origins_ne_nil hne))

namespace Vm

variable {T : Type} {vm : Vm T} {U : Set MemoryLocation} {codes : B256 → Bytecode} {v : TxVersion}
  {m m₂ : MvMemory} {db db' : VmDb} {x x' : Execution}

theorem records_of_getCodeHash {i : Nat} {address : Address} {codeHash : Option B256}
    (h : vm.getCodeHash m i db address = .ok (db', codeHash)) :
    vm.Records db db' (.codeHash address) :=
  records_of_readSource rfl (getCodeHash_eq_ok_iff.mp h)

theorem records_of_readStorage {i : Nat} {address : Address} {index value : U256}
    (h : vm.readStorage m i db address index = .ok (db', value)) :
    vm.Records db db' (.storage address index) :=
  records_of_readSource rfl (readStorage_eq_ok_iff.mp h)

/-- What is registered for a location stays so. -/
theorem RunStep.kept (h : vm.RunStep v m x x') (l : MemoryLocationHash)
    (hne : x.db.readSet.origins l ≠ []) : x'.db.readSet.origins l = x.db.readSet.origins l := by
  cases h with
  | toCode hget | toNoCode hget | codeHash hget => exact (records_of_getCodeHash hget).kept l hne
  | missing hreal hread | recipient hreal hread hto | account hreal hread =>
    exact (records_of_readBasic hread).kept l hne
  | storage hread => exact (records_of_readStorage hread).kept l hne
  | _ => rfl

/-- **Reads with the origins of the last memory return what it shows.** -/
theorem readsShown_of_checked (hm : m.Agrees m₂) (hdb : vm.Started v db)
    (horigins : vm.PlainOrigins U v db.readSet) (hcheck : Checked m₂ v.txIdx db'.readSet) :
    vm.ReadsShown U m v.txIdx (vm.shown m₂ v.txIdx) db db' := by
  obtain ⟨written, hholds, hholds₂⟩ := hm.written
  refine ⟨fun {db₁ address account} hread heq => ?_, fun {db₁ address codeHash} hU hget heq => ?_,
    fun {db₁ address index value} hU hread heq => ?_⟩
  · have hagain := readBasic_congr hholds hholds₂ hread (by
      rw [heq]
      exact hcheck _ (heq ▸ readBasic_origins_ne_nil hread))
    show (vm.basicAt m₂ v.txIdx address).toOption = _
    rw [basicAt_of_readBasic hdb.hashBasic hagain]
    rfl
  · have hagain := readSource_congr isSource_codeHashSource hholds hholds₂
      (horigins.single _ hU nofun) (getCodeHash_eq_ok_iff.mp hget) (by
        rw [heq]
        exact hcheck _ (heq ▸ (records_of_getCodeHash hget).recorded _ rfl))
    show (vm.codeHashAt m₂ v.txIdx address).toOption = _
    rw [codeHashAt_of_getCodeHash (getCodeHash_eq_ok_iff.mpr hagain)]
    rfl
  · have hagain := readSource_congr isSource_storageSource hholds hholds₂
      (horigins.single _ hU nofun) (readStorage_eq_ok_iff.mp hread) (by
        rw [heq]
        exact hcheck _ (heq ▸ (records_of_readStorage hread).recorded _ rfl))
    show (vm.slotAt m₂ v.txIdx address index).toOption = _
    rw [slotAt_of_readStorage (readStorage_eq_ok_iff.mpr hagain)]
    rfl

/-- If the origins of the execution are those of the last memory, what is left of it is the serial
execution on that memory. -/
structure Ahead (vm : Vm T) (codes : B256 → Bytecode) (m₂ : MvMemory) (v : TxVersion)
    (x : Execution) : Prop where
  rest : Checked m₂ v.txIdx x.db.readSet →
    vm.rest codes v.txIdx (vm.shown m₂ v.txIdx) x =
      vm.serialExecute codes v.txIdx (vm.shown m₂ v.txIdx)
  /-- past `set_tx`, the code of the recipient is the one shown -/
  recipient : Checked m₂ v.txIdx x.db.readSet → (∀ recipient, x.pc ≠ .toCodeHash recipient) →
    ∀ recipient, x.db.tx.kind.recipient = some recipient →
      (vm.shown m₂ v.txIdx).codeHash recipient = some x.db.toCodeHash

theorem ahead_start : vm.Ahead codes m₂ v (vm.start v) where
  rest _ := rest_start
  recipient _ hpc recipient hkind := by
    have htx : (vm.chain.txEnv (vm.txs v.txIdx)).kind.recipient = some recipient := hkind
    unfold start at hpc
    cases hcall : (vm.chain.txEnv (vm.txs v.txIdx)).kind with
    | create =>
      rw [hcall] at htx
      cases htx
    | call a =>
      simp only [hcall] at hpc
      exact absurd rfl (hpc a)

/-- `set_tx` sets the code hash of the recipient, and nothing changes it afterwards. -/
theorem RunStep.toCodeHash_cases (h : vm.RunStep v m x x') :
    (∃ a db₁ codeHash, x.pc = .toCodeHash a ∧ vm.getCodeHash m v.txIdx x.db a = .ok (db₁, codeHash) ∧
      x'.db = { db₁ with toCodeHash := codeHash }) ∨
    ((∀ a, x.pc ≠ .toCodeHash a) ∧ x'.db.tx = x.db.tx ∧ x'.db.toCodeHash = x.db.toCodeHash) := by
  have hsame : ∀ {db₁ : VmDb}, db₁ = { x.db with readSet := db₁.readSet } →
      db₁.tx = x.db.tx ∧ db₁.toCodeHash = x.db.toCodeHash := by
    intro db₁ heq
    rw [heq]
    exact ⟨rfl, rfl⟩
  cases h with
  | toCode hget | toNoCode hget => exact .inl ⟨_, _, _, rfl, hget, rfl⟩
  | missing hreal hread | recipient hreal hread hto | account hreal hread =>
    exact .inr ⟨nofun, hsame (readBasic_db hread)⟩
  | codeHash hget => exact .inr ⟨nofun, hsame (getCodeHash_db hget)⟩
  | storage hread => exact .inr ⟨nofun, hsame (readStorage_db hread)⟩
  | _ => exact .inr ⟨nofun, rfl, rfl⟩

/-- **An execution stays ahead.** -/
theorem ahead_run (hB : vm.FullBlock U codes) (hv : v.txIdx < vm.blockSize)
    (hC : vm.Plain U codes v x) (hdb : vm.Started v x.db) (hsteady : vm.Steady U v x)
    (hmemory : CodeMemory codes m) (hseen : vm.CodesSeen codes m x) (hm : m.Agrees m₂)
    (hstep : vm.RunStep v m x x') (h : vm.Ahead codes m₂ v x) : vm.Ahead codes m₂ v x' := by
  have hshown : Checked m₂ v.txIdx x'.db.readSet →
      vm.ReadsShown U m v.txIdx (vm.shown m₂ v.txIdx) x.db x'.db :=
    readsShown_of_checked hm hdb hsteady.origins
  constructor
  · intro hcheck
    have hcheck₀ := hcheck.mono hstep.kept
    rw [← h.rest hcheck₀]
    refine (rest_run hB.separates hv hC.toConfined hdb hsteady.hasNonce (h.recipient hcheck₀) ?_
      hsteady.reading hC.slot (hshown hcheck) hsteady.full
      (steady_run hB hv hC hdb hsteady hstep).full hstep).symm
    intro address account codeHash next code hpc hread
    refine hmemory.readCode (fun hash heq => ?_) hread
    have hcode := hseen.2
    rw [hpc] at hcode
    exact hcode hash heq
  · intro hcheck _ recipient hrecipient
    rcases hstep.toCodeHash_cases with ⟨a, db₁, codeHash, hpc, hget, hdb'⟩ | ⟨hpc, htx, hcode⟩
    · have htx : x'.db.tx = x.db.tx := by rw [hdb', getCodeHash_db hget]
      rw [htx, hsteady.setTx a hpc] at hrecipient
      obtain rfl := Option.some.inj hrecipient
      rw [(hshown hcheck).codeHash (hC.toCodeHash a hpc) hget (by rw [hdb']), hdb']
    · rw [hcode]
      exact h.recipient (hcheck.mono hstep.kept) hpc recipient (htx ▸ hrecipient)

/-! ## The last incarnations -/

/-- The serial execution on the last memory gives the write set and the result of the last
incarnation of the transaction, and the write set has every location once. -/
def LastSerial (vm : Vm T) (codes : B256 → Bytecode) (m₂ : MvMemory) (last : Nat → Nat)
    (v : TxVersion) (ws : WriteSet) (r : PevmTxExecutionResult) : Prop :=
  last v.txIdx = v.txIncarnation →
    vm.serialExecute codes v.txIdx (vm.shown m₂ v.txIdx) = some (ws, r) ∧
      (AssocList.keys ws).Nodup

theorem keeps_lastSerial {last : Nat → Nat} : vm.executor.Keeps
    (fun v x => ∀ m rs ws need r, vm.executor.step v m x = .record rs ws need r →
      vm.LastSerial codes m₂ last v ws r)
    (fun _ _ _ => True) (fun _ v ws r => vm.LastSerial codes m₂ last v ws r) where
  start _ _ := trivial
  mono _ h := h
  monoRecord _ h := h
  run _ _ _ := trivial
  addNewBytecode _ _ _ := trivial
  addLazyAddresses _ _ _ := trivial
  record hC _ hstep := hC _ _ _ _ _ hstep

section Run

variable {concurrencyLevel : Nat} {w : WorkerId}
  {s s₂ : System Execution PevmTxExecutionResult ExecutionError}

/-- The steps of a run that leads to the memory `m₂`. -/
def Leading (vm : Vm T) (U : Set MemoryLocation) (codes : B256 → Bytecode) (m₂ : MvMemory)
    (w : WorkerId) (s : System Execution PevmTxExecutionResult ExecutionError) : Prop :=
  StepsMeet (vm.Plain U codes) w s ∧ s.mvMemory.Agrees m₂

theorem leading_of_reachable (hB : vm.FullBlock U codes)
    (h : (workers (vm.config concurrencyLevel)).ReachableVia (StepsMeet (vm.Plain U codes)) s₂) :
    (workers (vm.config concurrencyLevel)).ReachableVia (vm.Leading U codes s₂.mvMemory) s₂ :=
  h.toward fun w _ _ ht hC hone hlead =>
    ⟨hC, agrees_of_leadsTo (keeps_steady hB) (fun hQ hv => hQ hv) ht (.head ⟨w, hC, hone⟩ hlead)⟩

/-- **Every execution of the run is ahead.** -/
theorem ahead_reachable (hB : vm.FullBlock U codes)
    (h : (workers (vm.config concurrencyLevel)).ReachableVia (vm.Leading U codes m₂) s)
    (hpc : s.pc w = .execute v x) : vm.Ahead codes m₂ v x := by
  refine (invariant_of_step (P := fun t => ∀ w v x, t.pc w = .execute v x → vm.Ahead codes m₂ v x)
    ?_ ?_ h) w v x hpc
  · rintro t ⟨-, -, -, hloop, -⟩ w v x hexecute
    rw [hloop] at hexecute
    cases hexecute
  · intro w t t' _ ht hC hone hP w' v' x' hpc'
    by_cases hw : w' = w
    · subst hw
      have hvia := ht.mono fun _ _ hD => hD.1
      rcases hone.execute_pc hpc' with rfl | ⟨x, hpc₀, hx | ⟨hash, code, hx⟩ | ⟨addresses, hx⟩⟩
      · exact ahead_start
      · obtain ⟨hv, hdb, hsteady⟩ := steady_reachable hB hvia hpc₀
        have hknown := codesKnown_reachable hB hvia
        exact ahead_run hB hv (hC.1 v' x hpc₀) hdb hsteady hknown.memory
          (hknown.executing w' v' x hpc₀) hC.2 (runStep_of_executeStep hx) (hP w' v' x hpc₀)
      · obtain ⟨result, state, rest, hfinish, rfl⟩ := executeStep_addNewBytecode hx
        obtain ⟨hrest, hto⟩ := hP w' v' x hpc₀
        refine ⟨fun hcheck => ?_, fun hcheck _ => hto hcheck fun a heq => ?_⟩
        · rw [← hrest hcheck]
          unfold Vm.rest
          rw [hfinish]
        · rw [hfinish] at heq
          cases heq
      · obtain ⟨result, state, writes, hlazy, -, -⟩ := executeStep_addLazyAddresses hx
        have hfull := (steady_reachable hB hvia hpc₀).2.2.full.2
        rw [hlazy] at hfull
        exact hfull.elim
    · rw [hone.pc_of_ne hw] at hpc'
      exact hP w' v' x' hpc'

/-- **The origins of the last incarnation are those of the last memory.** -/
theorem checked_last (hlevel : 0 < concurrencyLevel)
    {rs : ReadSet} {ws : WriteSet} {need : Bool} {r : PevmTxExecutionResult}
    (h : (workers (vm.config concurrencyLevel)).Reachable s)
    (horigins : vm.PlainOrigins U v rs) (hneed : need = decide (0 < v.txIdx))
    (hpc : s.pc w = .record v rs ws need r .lock)
    (hlead : (workers (vm.config concurrencyLevel)).LeadsTo (fun _ _ => True) s s₂)
    (hleft : ∀ w, w < concurrencyLevel → s₂.pc w = .left) (hnone : s₂.abortReason = none)
    (hlast : (s₂.scheduler.transactionsStatus v.txIdx).incarnation = v.txIncarnation) :
    Checked s₂.mvMemory v.txIdx rs := by
  cases hzero : v.txIdx with
  | zero =>
    -- nothing is below the first transaction
    intro l hne
    rw [(horigins.first hzero l).resolve_left hne, entriesBelow_zero]
    rfl
  | succ j =>
    rw [hzero] at hneed
    subst hneed
    obtain ⟨h₂, hfollows⟩ := hlead.invariant (P := Follows v rs) h (.recording hpc)
      fun w t t' ht _ hone hP => by
        have hb := bounds_reachable ht
        exact hP.step hb (ownership_reachable ht)
          (step_of_workerStep hb.finishExecution_lt (workers_step hone).2)
    have haborted := not_aborted_of_left h₂ hleft hnone
    obtain ⟨hq, he, hv⟩ := past_of_left h₂ haborted hlevel hleft
    obtain ⟨hread, flags, hfinish, hflags⟩ := hfollows.finished_of_quiescent hq hlast
    have hlt : v.txIdx < s₂.scheduler.blockSize := by
      rw [(bounds_reachable h₂).blockSize]
      have hin := (bounds_reachable h).pc w
      rw [hpc] at hin
      exact hin
    have hchecked := checked_of_validateReadLocations
      ((staleCovered_reachable h₂).valid haborted hq hv hlt hfinish hflags
        (validated_of_past h₂ haborted hq he hv hlt))
    rw [hread] at hchecked
    rwa [← hzero]

/-- **Every last incarnation recorded the serial execution.** -/
theorem records_serial (hB : vm.FullBlock U codes) (hlevel : 0 < concurrencyLevel)
    (h : (workers (vm.config concurrencyLevel)).ReachableVia (StepsMeet (vm.Plain U codes)) s₂)
    (hleft : ∀ w, w < concurrencyLevel → s₂.pc w = .left) (hnone : s₂.abortReason = none) {i : Nat}
    (hi : i < vm.blockSize) : ∃ ws r,
      vm.serialExecute codes i (vm.shown s₂.mvMemory i) = some (ws, r) ∧
      (AssocList.keys ws).Nodup ∧
      Stored s₂ ⟨i, (s₂.scheduler.transactionsStatus i).incarnation⟩ ws [] ∧
      s₂.executionResults i = some r := by
  have hlast := (leading_of_reachable hB h).toward
    (D := StepsMeet fun v x => ∀ m rs ws need r, vm.executor.step v m x = .record rs ws need r →
      vm.LastSerial codes s₂.mvMemory
        (fun i => (s₂.scheduler.transactionsStatus i).incarnation) v ws r)
    fun w t t' ht hD hone hlead v x hpc m rs ws need r hrecord hinc => by
      obtain ⟨result, state, hat, hr⟩ := executeStep_record hrecord
      have hvia := ht.mono fun _ _ hD => hD.1
      obtain ⟨-, -, hsteady⟩ := steady_reachable hB hvia hpc
      have hahead := ahead_reachable hB ht hpc
      obtain ⟨db, pc⟩ := x
      obtain rfl : pc = .record result state ws := hat
      have hpc' := recording_of_step hpc (workers_step hone).2
      have hfull : db.isLazy = false := hsteady.full.1
      rw [hfull, Bool.not_false, Bool.and_true] at hpc'
      have hchecked := checked_last hlevel (.step w ht.reachable trivial hone) hsteady.origins rfl
        hpc' (hlead.mono fun _ _ _ => trivial) hleft hnone hinc
      refine ⟨?_, hsteady.nodup _ _ _ rfl⟩
      rw [← hahead.rest hchecked, hr]
      rfl
  have hfinished : isExecutedOrValidated (s₂.scheduler.transactionsStatus i).status = true := by
    rw [validated_of_left h.reachable hlevel hleft hnone hi]
    rfl
  obtain ⟨ws, r, hserial, hstored, hslot⟩ :=
    (recorded_reachable keeps_lastSerial hlast).finished i hfinished
  obtain ⟨hserial, hnodup⟩ := hserial rfl
  exact ⟨ws, r, hserial, hnodup, hstored, hslot⟩

/-! ## The serial execution of the block -/

/-- What the serial execution computes for a transaction is what the parallel execution left of it. -/
def LeftBy (s : System Execution PevmTxExecutionResult ExecutionError) (i : Nat)
    (outcome : WriteSet × PevmTxExecutionResult) : Prop :=
  (AssocList.keys outcome.1).Nodup ∧
    Stored s ⟨i, (s.scheduler.transactionsStatus i).incarnation⟩ outcome.1 [] ∧
    s.executionResults i = some outcome.2

/-- **The serial execution leaves the same values.** -/
theorem sameBelow_serialMemory
    (hsource : SourceChain vm.chain vm.isEip161Enabled)
    (h : vm.ReachableUsing U concurrencyLevel s) {done : List (WriteSet × PevmTxExecutionResult)}
    (hfinished : ∀ i, i < done.length →
      isExecutedOrValidated (s.scheduler.transactionsStatus i).status = true)
    (hdone : ∀ i outcome, done[i]? = some outcome → LeftBy s i outcome) :
    s.mvMemory.SameBelow (vm.serialMemory done) done.length := by
  intro l i hi
  obtain ⟨hnodup, hstored, -⟩ := hdone i done[i] (List.getElem?_eq_getElem hi)
  have hserial : (vm.serialMemory done).entry l i =
      (AssocList.lookupLast done[i].1 l).map (.data 0) := by
    show (done[i]?).bind (fun outcome =>
      (AssocList.lookupLast outcome.1 l).map (MemoryEntry.data 0)) = _
    rw [List.getElem?_eq_getElem hi]
    rfl
  obtain ⟨-, hwrite⟩ := finished_entries hsource h (hfinished i hi)
  rw [hserial]
  cases he : s.mvMemory.entry l i with
  | none =>
    -- a location that was recorded has an entry
    have hkeys : l ∉ AssocList.keys done[i].1 := by
      intro hmem
      have hl := (hwrite l).mpr ((hstored.recorded l hmem).resolve_left nofun)
      rw [he] at hl
      cases hl
    rw [AssocList.lookupLast_eq_none_iff.mpr hkeys]
    exact .none
  | some e =>
    have hl : l ∈ (s.mvMemory.lastLocations i).write := (hwrite l).mp (by rw [he]; rfl)
    obtain ⟨value, hmem, hentry⟩ := (hstored.written l hl).resolve_left nofun
    rw [show s.mvMemory.entry l i = _ from hentry] at he
    obtain rfl := Option.some.inj he
    rw [AssocList.lookupLast_eq_lookup hnodup, AssocList.lookup_eq_some_of_mem hnodup hmem]
    exact .some .data

/-- **The serial execution computes what the parallel one left.** -/
theorem serial_eq (hsource : SourceChain vm.chain vm.isEip161Enabled)
    (hB : vm.FullBlock U codes) (hlevel : 0 < concurrencyLevel)
    (h : (workers (vm.config concurrencyLevel)).ReachableVia (StepsMeet (vm.Plain U codes)) s)
    (hleft : ∀ w, w < concurrencyLevel → s.pc w = .left) (hnone : s.abortReason = none) :
    ∀ n, n ≤ vm.blockSize → ∃ done, vm.serial codes n = some done ∧ done.length = n ∧
      ∀ i outcome, done[i]? = some outcome → LeftBy s i outcome := by
  have husing : vm.ReachableUsing U concurrencyLevel s :=
    h.mono fun w t hC v x hpc => (hC v x hpc).within.1
  intro n
  induction n with
  | zero => exact fun _ => ⟨[], rfl, rfl, nofun⟩
  | succ n ih =>
    intro hn
    obtain ⟨done, hdone, hlength, hleftBy⟩ := ih (by omega)
    obtain ⟨ws, r, hserial, hnodup, hstored, hslot⟩ := records_serial hB hlevel h hleft hnone hn
    have hsame := sameBelow_serialMemory hsource husing (fun i hi => by
      rw [validated_of_left h.reachable hlevel hleft hnone (show i < vm.blockSize by omega)]
      rfl) hleftBy
    rw [hlength] at hsame
    refine ⟨done ++ [(ws, r)], ?_, by rw [List.length_append, hlength]; rfl, fun i outcome hi => ?_⟩
    · show (vm.serial codes n).bind _ = _
      rw [hdone]
      show (vm.serialExecute codes n (vm.shown (vm.serialMemory done) n)).map _ = _
      rw [← shown_same hsame, hserial]
      rfl
    · rw [List.getElem?_append] at hi
      split_ifs at hi with hlt
      · exact hleftBy i outcome hi
      · -- the transaction that was executed last
        obtain ⟨hzero, rfl⟩ : i - done.length = 0 ∧ outcome = (ws, r) := by
          rw [List.getElem?_singleton] at hi
          split_ifs at hi with hzero
          exact ⟨hzero, (Option.some.inj hi).symm⟩
        obtain rfl : i = n := by omega
        exact ⟨hnodup, hstored, hslot⟩

end Run

/-- What is collected after a complete run is evaluated from the serial execution. -/
theorem collect_eq_serial {block : Block T}
    {s : System Execution PevmTxExecutionResult ExecutionError}
    (hsource : SourceChain block.vm.chain block.vm.isEip161Enabled)
    (hB : block.vm.FullBlock U codes)
    (hfees : ∀ a ∈ block.vm.chain.lazyAddresses block.vm.blockEnv,
      ∃ p, block.vm.storedCode a = .ok p)
    (hlevel : 0 < block.concurrencyLevel)
    (h : (workers (block.vm.config block.concurrencyLevel)).ReachableVia
      (StepsMeet (block.vm.Plain U codes)) s)
    (hleft : ∀ w, w < block.concurrencyLevel → s.pc w = .left) (hnone : s.abortReason = none) :
    ∃ done, block.vm.serial codes block.vm.blockSize = some done ∧
      (PevmState.collect block s).1 =
        some (block.vm.evaluateResults (block.vm.serialMemory done) (done.map Prod.snd)) := by
  obtain ⟨done, hdone, hlength, hleftBy⟩ :=
    serial_eq hsource hB hlevel h hleft hnone block.vm.blockSize le_rfl
  have husing : block.vm.ReachableUsing U block.concurrencyLevel s :=
    h.mono fun w t hC v x hpc => (hC v x hpc).within.1
  have hsame := sameBelow_serialMemory hsource husing (fun i hi => by
    rw [validated_of_left h.reachable hlevel hleft hnone (show i < block.vm.blockSize by omega)]
    rfl) hleftBy
  rw [hlength] at hsame
  obtain ⟨slots, hslots⟩ := Ended.takeSlots ⟨husing, hlevel, hleft, hnone⟩
  have heq : slots = done.map Prod.snd := by
    refine List.ext_getElem? fun i => ?_
    rw [List.getElem?_map]
    by_cases hi : i < block.vm.blockSize
    · obtain ⟨outcome, houtcome⟩ : ∃ outcome, done[i]? = some outcome :=
        ⟨_, List.getElem?_eq_getElem (by omega)⟩
      rw [PevmState.takeSlots_getElem? hslots hi, (hleftBy i outcome houtcome).2.2, houtcome]
      rfl
    · have hslotsLength := PevmState.takeSlots_length hslots
      rw [List.getElem?_eq_none (by omega), List.getElem?_eq_none (by omega)]
      rfl
  have hlazy := lazyAddresses_reachable hB h
  refine ⟨done, hdone, ?_⟩
  unfold PevmState.collect
  rw [hnone]
  show (PevmState.takeSlots s.executionResults block.vm.blockSize).map _ = _
  rw [hslots, heq, Option.map_some, evaluateResults_same hsame hlazy]
  intro a ha
  rw [hlazy, mem_insertLazyAddresses] at ha
  exact hfees a (ha.resolve_left nofun)

/-- **A parallel run returns what the serial execution returns.** A block of transactions that
create a contract or call an account with code is executed by any number of workers in any
interleaving, with any re-executions. If they all leave and no abort reason was set, the results that
`execute_revm_parallel` goes on with are those of the serial execution of the block, evaluated. -/
theorem parallel_eq_serial {block : Block T}
    {s : System Execution PevmTxExecutionResult ExecutionError}
    (hsource : SourceChain block.vm.chain block.vm.isEip161Enabled)
    (hB : block.vm.FullBlock U codes)
    (hfees : ∀ a ∈ block.vm.chain.lazyAddresses block.vm.blockEnv,
      ∃ p, block.vm.storedCode a = .ok p)
    (hlevel : 0 < block.concurrencyLevel)
    (h : (workers (block.vm.config block.concurrencyLevel)).ReachableVia
      (StepsMeet (block.vm.Plain U codes)) s)
    (hleft : ∀ w, w < block.concurrencyLevel → s.pc w = .left) (hnone : s.abortReason = none) :
    ∃ result, block.vm.serialResult codes = some result ∧
      (PevmState.collect block s).1 = some result := by
  obtain ⟨done, hdone, hcollect⟩ := collect_eq_serial hsource hB hfees hlevel h hleft hnone
  exact ⟨_, congrArg (Option.map _) hdone, hcollect⟩

end Vm

namespace Sample

/-- The two calls of the counter, executed by two workers. -/
def countersBlock : Block TxEnv where
  vm := { vm with blockSize := 2 }
  concurrencyLevel := 2
  sequential := .ok []

theorem forall_lt_two {P : Nat → Prop} (h0 : P 0) (h1 : P 1) : ∀ i, i < 2 → P i
  | 0, _ => h0
  | 1, _ => h1
  | i + 2, hi => absurd hi (not_lt.mpr (Nat.le_add_left 2 i))

/-- A block of calls of the counter, on the sample storage. -/
structure CallsCounter (v : Vm TxEnv) : Prop where
  storage : v.storage = storage
  hash : v.hash = hash
  fees : v.chain.lazyAddresses v.blockEnv = [beneficiary]
  caller : ∀ i, i < v.blockSize → .basic (v.chain.txEnv (v.txs i)).caller ∈ locations
  calls : ∀ i, i < v.blockSize → (v.chain.txEnv (v.txs i)).kind = .call counter

theorem CallsCounter.full {v : Vm TxEnv} {codes : B256 → Bytecode} (h : CallsCounter v)
    (hcodes : codes 7 = counterCode) : v.FullBlock { l | l ∈ locations } codes where
  separates :=
    { injective := by
        rw [h.hash]
        exact separates.injective
      fees := fun a ha => by
        rw [h.fees] at ha
        obtain rfl := List.mem_singleton.mp ha
        decide
      caller := h.caller
      recipient := fun i hi a ha => by
        rw [h.calls i hi] at ha
        obtain rfl := Option.some.inj ha
        decide }
  callsCode i hi a ha := by
    rw [h.calls i hi] at ha
    obtain rfl := Option.some.inj ha
    rw [h.storage]
    exact fun hnone => by cases hnone
  codesStored address hash hhash code hcode := by
    rw [h.storage] at hhash hcode
    have hseven : hash = 7 := by
      have hhash : (if address = counter then some (7 : B256) else none) = some hash :=
        Except.ok.inj hhash
      split_ifs at hhash
      exact (Option.some.inj hhash).symm
    subst hseven
    rw [hcodes]
    exact (Except.ok.inj hcode).symm

theorem counters_calls : CallsCounter countersBlock.vm where
  storage := rfl
  hash := rfl
  fees := rfl
  caller := forall_lt_two (by decide) (by decide)
  calls := forall_lt_two rfl rfl

/-- The execution is confined to the locations and deploys code with its bytecode. -/
def plain (v : Vm TxEnv) (codes : B256 → Bytecode) (x : Vm.Execution) : Bool :=
  confined locations x &&
    match x.pc with
    | .run (.storage address index _) => decide (.storage address index ∈ locations)
    | .finish _ state [] => state.all fun p => decide (AssocList.keys p.2.storage).Nodup
    | .run (.finish _ state) => state.all fun p => !v.isNewCode x.db p.1 p.2 ||
        decide (p.2.info.code = some (codes p.2.info.codeHash))
    | _ => true

theorem plain_sound {v : Vm TxEnv} {codes : B256 → Bytecode} {version : TxVersion}
    {x : Vm.Execution} (h : plain v codes x = true) :
    v.Plain { l | l ∈ locations } codes version x := by
  obtain ⟨hconfined, hpc⟩ := Bool.and_eq_true_iff.mp h
  obtain ⟨db, pc⟩ := x
  refine ⟨confined_sound hconfined, ?_, ?_, ?_⟩
  · rintro address index next rfl
    exact of_decide_eq_true hpc
  · rintro result state rfl p hp
    exact of_decide_eq_true (List.all_eq_true.mp hpc p hp)
  · rintro result state rfl p hp - - hnew
    have hcode := List.all_eq_true.mp hpc p hp
    simp only [hnew, Bool.not_true, Bool.false_or, decide_eq_true_eq] at hcode
    exact hcode

/-- The next step of a worker is plain. -/
def stepPlain (v : Vm TxEnv) (codes : B256 → Bytecode) (w : WorkerId)
    (s : System Vm.Execution PevmTxExecutionResult ExecutionError) : Bool :=
  match s.pc w with
  | .execute _ x => plain v codes x
  | _ => true

theorem stepPlain_sound {v : Vm TxEnv} {codes : B256 → Bytecode} {w : WorkerId}
    {s : System Vm.Execution PevmTxExecutionResult ExecutionError}
    (h : stepPlain v codes w s = true) :
    StepsMeet (v.Plain { l | l ∈ locations } codes) w s := by
  intro version x hpc
  simp only [stepPlain, hpc] at h
  exact plain_sound h

end Sample

/-- The second call reads the counter before the first has incremented it, and is executed again. -/
theorem parallel_eq_serial_sample : ∃ s result,
    (workers (Sample.countersBlock.vm.config 2)).Reachable s ∧ (∀ w, w < 2 → s.pc w = .left) ∧
    (s.scheduler.transactionsStatus 1).incarnation = 1 ∧
    Sample.countersBlock.vm.serialResult (fun _ => Sample.counterCode) = some result ∧
    (PevmState.collect Sample.countersBlock s).1 = some result := by
  obtain ⟨s, hs, hp⟩ := Sample.exists_reachableVia (Sample.countersBlock.vm.config 2)
    (Sample.stepPlain Sample.countersBlock.vm fun _ => Sample.counterCode) [(0, 6), (1, 40), (0, 88), (1, 5)]
    (fun s => (s.pc 0).hasLeft && (s.pc 1).hasLeft && s.abortReason.isNone &&
      decide ((s.scheduler.transactionsStatus 1).incarnation = 1)) (by decide +kernel)
  simp only [Bool.and_eq_true, decide_eq_true_eq, Option.isNone_iff_eq_none] at hp
  obtain ⟨⟨⟨h0, h1⟩, hnone⟩, hagain⟩ := hp
  have hleft := left_of_two h0 h1
  have hresult : ∃ result,
      Sample.countersBlock.vm.serialResult (fun _ => Sample.counterCode) = some result ∧
      (PevmState.collect Sample.countersBlock s).1 = some result := Vm.parallel_eq_serial
    (.ethereum true) (Sample.counters_calls.full rfl) (fun a ha => by
      obtain rfl := List.mem_singleton.mp ha
      exact ⟨_, rfl⟩) (by decide)
    (hs.mono fun _ _ => Sample.stepPlain_sound) hleft hnone
  obtain ⟨result, hserial, hcollect⟩ := hresult
  exact ⟨s, result, hs.reachable, hleft, hagain, hserial, hcollect⟩

end Pevm
