import Pevm.Proofs.LastExecution
import Pevm.Proofs.Outcome
import Pevm.Proofs.TransferResults

/-!
# Lazy accounts

At the end of a block every account in `lazy_addresses` is evaluated through its write history. Two
facts about whole runs make this right: a finished transaction has left no ESTIMATE, so that the
evaluation never meets one, and whatever was written lazily is at an account in `lazy_addresses`, so
that no lazy write is missed and no mocked balance is returned.
-/

namespace Pevm

open Interleaving Scheduler MvMemory Saturating

namespace Vm

variable {T : Type} {vm : Vm T} {a b address : Address} {codeHash : Option B256}
  {code : Option Bytecode} {i : Nat}

/-! ## The evaluation loop -/

/-- What the results say about an account. -/
def accountAt (results : List PevmTxExecutionResult) (a : Address) (i : Nat) :
    Option (Option (Option EvmAccount)) :=
  (results[i]?).map fun result => result.state.lookup a

theorem accountAt_modify {results : List PevmTxExecutionResult} {j : Nat}
    {f : Option EvmAccount → Option EvmAccount} :
    accountAt (results.modify j fun result =>
        { result with state := EvmStateTransitions.modifyEntry b f result.state }) a i =
      if i = j ∧ a = b then (accountAt results a i).map fun account => some (f (account.getD none))
      else accountAt results a i := by
  unfold accountAt
  rw [List.getElem?_modify]
  cases results[i]? with
  | none => simp
  | some result =>
    by_cases hj : j = i
    · subst hj
      by_cases ha : a = b
      · subst ha
        simp [lookup_modifyEntry]
      · simp [lookup_modifyEntry, ha]
    · simp [hj, Ne.symm hj]

/-- One entry of the loop. -/
theorem evaluateHistory_cons {j : Nat} {entry : MemoryEntry} {rest : List (Nat × MemoryEntry)}
    {account : AccountBasic} {results results' : List PevmTxExecutionResult}
    (h : vm.evaluateHistory address codeHash code ((j, entry) :: rest) account results =
      .ok results') :
    vm.evaluateHistory address codeHash code rest (account.afterEntry entry)
      (results.modify j fun result =>
        { result with
          state := EvmStateTransitions.modifyEntry address
            (writeAccount vm.isEip161Enabled codeHash code (account.afterEntry entry))
            result.state }) = .ok results' := by
  rw [evaluateHistory] at h
  obtain ⟨account', hentry, hrest⟩ := bind_eq_ok.mp h
  obtain ⟨-, -, hloop⟩ := bind_eq_ok.mp hrest
  cases entry with
  | estimate => cases hentry
  | data incarnation value =>
    rw [evaluateEntry_eq hentry] at hloop
    exact hloop

/-- The loop of one address keeps the other accounts, and the results of other transactions. -/
theorem evaluateHistory_frame {entries : List (Nat × MemoryEntry)} {account : AccountBasic}
    {results results' : List PevmTxExecutionResult}
    (h : vm.evaluateHistory address codeHash code entries account results = .ok results')
    (hframe : a ≠ address ∨ ∀ p ∈ entries, p.1 ≠ i) :
    accountAt results' a i = accountAt results a i := by
  induction entries generalizing account results with
  | nil =>
    cases h
    rfl
  | cons p rest ih =>
    obtain ⟨j, entry⟩ := p
    rw [ih (evaluateHistory_cons h) (hframe.imp_right fun hno p hp =>
      hno p (List.mem_cons_of_mem _ hp)), accountAt_modify, if_neg]
    rintro ⟨rfl, rfl⟩
    rcases hframe with hne | hno
    · exact hne rfl
    · exact hno (i, entry) List.mem_cons_self rfl

/-- The account with the balance of the evaluation up to a transaction. -/
def HasBalance (account : Option (Option (Option EvmAccount))) (evaluated : AccountBasic) : Prop :=
  ∃ account', account = some (some account') ∧
    ∀ info, account' = some info → info.balance = evaluated.balance

theorem hasBalance_writeAccount {isEip161Enabled : Bool} {evaluated : AccountBasic}
    {account : Option (Option (Option EvmAccount))} (h : account.isSome) :
    HasBalance (account.map fun account =>
      some (writeAccount isEip161Enabled codeHash code evaluated (account.getD none))) evaluated := by
  obtain ⟨account, rfl⟩ := Option.isSome_iff_exists.mp h
  refine ⟨_, rfl, fun info hinfo => ?_⟩
  unfold writeAccount at hinfo
  split_ifs at hinfo
  split at hinfo
  · rw [← Option.some.inj hinfo]
  · rw [← Option.some.inj hinfo]

/-- Every entry of the history is evaluated into the result of its transaction. -/
theorem evaluateHistory_accountAt {entries : List (Nat × MemoryEntry)} {account : AccountBasic}
    {results results' : List PevmTxExecutionResult}
    (h : vm.evaluateHistory address codeHash code entries account results = .ok results')
    (hsorted : entries.Pairwise fun p q => p.1 < q.1) {entry : MemoryEntry}
    (hmem : (i, entry) ∈ entries) :
    accountAt results' address i = (accountAt results address i).map fun old =>
      some (writeAccount vm.isEip161Enabled codeHash code
        (account.forward (entries.filter fun p => p.1 ≤ i)) (old.getD none)) := by
  induction entries generalizing account results with
  | nil => cases hmem
  | cons p rest ih =>
    obtain ⟨j, entry₀⟩ := p
    obtain ⟨hfirst, hrest⟩ := List.pairwise_cons.mp hsorted
    have hloop := evaluateHistory_cons h
    rcases List.mem_cons.mp hmem with heq | hmem
    · obtain ⟨rfl, rfl⟩ := Prod.mk.inj heq
      -- the rest of the history is of higher transactions
      have hlater : rest.filter (fun p => p.1 ≤ i) = [] :=
        List.filter_eq_nil_iff.mpr fun p hp => by
          have hlt : i < p.1 := hfirst p hp
          simp only [decide_eq_true_eq]
          omega
      rw [evaluateHistory_frame hloop (.inr fun p hp => (hfirst p hp).ne'), accountAt_modify,
        if_pos ⟨rfl, rfl⟩, List.filter_cons_of_pos (by simp), hlater]
      rfl
    · have hlt : j < i := hfirst _ hmem
      rw [ih hloop hrest hmem, List.filter_cons_of_pos (by simpa using hlt.le), accountAt_modify,
        if_neg fun hij => hlt.ne' hij.1]
      rfl

theorem evaluateHistory_length {entries : List (Nat × MemoryEntry)} {account : AccountBasic}
    {results results' : List PevmTxExecutionResult}
    (h : vm.evaluateHistory address codeHash code entries account results = .ok results') :
    results'.length = results.length := by
  induction entries generalizing account results with
  | nil =>
    cases h
    rfl
  | cons p rest ih =>
    obtain ⟨j, entry⟩ := p
    rw [ih (evaluateHistory_cons h), List.length_modify]

theorem mem_writeHistory {history : WriteHistory} {entry : MemoryEntry} :
    (i, entry) ∈ vm.writeHistory history ↔ i < vm.blockSize ∧ history i = some entry := by
  unfold writeHistory
  rw [List.mem_filterMap]
  constructor
  · rintro ⟨j, hj, heq⟩
    obtain ⟨e, he, hpair⟩ := Option.map_eq_some_iff.mp heq
    obtain ⟨rfl, rfl⟩ := Prod.mk.inj hpair
    exact ⟨List.mem_range.mp hj, he⟩
  · rintro ⟨hi, he⟩
    exact ⟨i, List.mem_range.mpr hi, by rw [he]; rfl⟩

theorem writeHistory_sorted (history : WriteHistory) :
    (vm.writeHistory history).Pairwise fun p q => p.1 < q.1 := by
  unfold writeHistory
  refine List.pairwise_filterMap.mpr (List.pairwise_lt_range.imp fun hlt p hp q hq => ?_)
  obtain ⟨e, -, rfl⟩ := Option.map_eq_some_iff.mp hp
  obtain ⟨e', -, rfl⟩ := Option.map_eq_some_iff.mp hq
  exact hlt

/-- The account after the writes up to and including transaction `i`. -/
def evaluatedAt (vm : Vm T) (a : Address) (history : WriteHistory) (i : Nat) : AccountBasic :=
  (vm.evaluationStart a (vm.writeHistory history)).forward
    ((vm.writeHistory history).filter fun p => p.1 ≤ i)

/-- The code of an account in the storage, as the evaluation reads it. -/
def storedCode (vm : Vm T) (a : Address) : Except String (Option B256 × Option Bytecode) := do
  let codeHash ← vm.storage.codeHash a
  let code ←
    match codeHash with
    | some hash => vm.storage.codeByHash hash
    | none => .ok none
  .ok (codeHash, code)

/-- The evaluation of one address runs the loop over its history. -/
theorem evaluateAddress_eq_ok {m : MvMemory} {history : WriteHistory}
    {results results' : List PevmTxExecutionResult}
    (h : vm.evaluateAddress m results a = .ok results')
    (hm : m.data (vm.hash (.basic a)) = some history) : ∃ codeHash code,
      vm.storedCode a = .ok (codeHash, code) ∧
      vm.evaluateHistory a codeHash code (vm.writeHistory history)
        (vm.evaluationStart a (vm.writeHistory history)) results = .ok results' := by
  unfold evaluateAddress at h
  rw [hm] at h
  obtain ⟨codeHash, hcodeHash, h⟩ := bind_eq_ok.mp h
  have hcodeHash := mapError_eq_ok.mp hcodeHash
  cases codeHash with
  | none =>
    obtain ⟨code, hcode, h⟩ := bind_eq_ok.mp h
    cases hcode
    exact ⟨none, none, bind_eq_ok.mpr ⟨none, hcodeHash, rfl⟩, h⟩
  | some hash =>
    obtain ⟨code, hcode, h⟩ := bind_eq_ok.mp h
    have hcode := mapError_eq_ok.mp hcode
    exact ⟨some hash, code,
      bind_eq_ok.mpr ⟨some hash, hcodeHash, bind_eq_ok.mpr ⟨code, hcode, rfl⟩⟩, h⟩

/-- What the evaluation of an address leaves of it in the result of a transaction of its history. -/
theorem evaluateAddress_accountAt {m : MvMemory} {history : WriteHistory} {entry : MemoryEntry}
    {results results' : List PevmTxExecutionResult}
    (h : vm.evaluateAddress m results a = .ok results')
    (hm : m.data (vm.hash (.basic a)) = some history) (hi : i < vm.blockSize)
    (hentry : history i = some entry) : ∃ codeHash code,
      vm.storedCode a = .ok (codeHash, code) ∧
      accountAt results' a i = (accountAt results a i).map fun old =>
        some (writeAccount vm.isEip161Enabled codeHash code (vm.evaluatedAt a history i)
          (old.getD none)) := by
  obtain ⟨codeHash, code, hstored, hloop⟩ := evaluateAddress_eq_ok h hm
  exact ⟨codeHash, code, hstored, evaluateHistory_accountAt hloop (writeHistory_sorted history)
    (mem_writeHistory.mpr ⟨hi, hentry⟩)⟩

theorem evaluateAddress_length {m : MvMemory} {results results' : List PevmTxExecutionResult}
    (h : vm.evaluateAddress m results a = .ok results') : results'.length = results.length := by
  cases hm : m.data (vm.hash (.basic a)) with
  | none =>
    unfold evaluateAddress at h
    rw [hm] at h
    cases h
    rfl
  | some history =>
    obtain ⟨codeHash, code, -, h⟩ := evaluateAddress_eq_ok h hm
    exact evaluateHistory_length h

theorem evaluateAddress_frame {m : MvMemory} {results results' : List PevmTxExecutionResult}
    (h : vm.evaluateAddress m results b = .ok results') (hne : a ≠ b) :
    accountAt results' a i = accountAt results a i := by
  cases hm : m.data (vm.hash (.basic b)) with
  | none =>
    unfold evaluateAddress at h
    rw [hm] at h
    cases h
    rfl
  | some history =>
    obtain ⟨codeHash, code, -, h⟩ := evaluateAddress_eq_ok h hm
    exact evaluateHistory_frame h (.inl hne)

/-- Every entry of every lazy address is evaluated into the result of its transaction, and stays so
when the other addresses are evaluated. -/
theorem foldlM_evaluateAddress {m : MvMemory} {history : WriteHistory} {entry : MemoryEntry}
    (hm : m.data (vm.hash (.basic a)) = some history) (hi : i < vm.blockSize)
    (hentry : history i = some entry) {addresses : List Address}
    {results results' : List PevmTxExecutionResult} (hlength : results.length = vm.blockSize)
    (h : addresses.foldlM (vm.evaluateAddress m) results = .ok results')
    (ha : a ∈ addresses ∨ HasBalance (accountAt results a i) (vm.evaluatedAt a history i)) :
    HasBalance (accountAt results' a i) (vm.evaluatedAt a history i) := by
  induction addresses generalizing results with
  | nil =>
    cases h
    exact ha.resolve_left List.not_mem_nil
  | cons b addresses ih =>
    rw [List.foldlM_cons] at h
    obtain ⟨results₁, hone, hrest⟩ := bind_eq_ok.mp h
    refine ih ((evaluateAddress_length hone).trans hlength) hrest ?_
    by_cases hab : a = b
    · subst hab
      obtain ⟨codeHash, code, -, haccount⟩ := evaluateAddress_accountAt hone hm hi hentry
      refine .inr (haccount ▸ hasBalance_writeAccount ?_)
      simp only [accountAt, Option.isSome_map, List.getElem?_eq_getElem (hlength ▸ hi),
        Option.isSome_some]
    · rw [evaluateAddress_frame hone hab]
      exact ha.imp_left fun hmem => (List.mem_cons.mp hmem).resolve_left hab

theorem cumulateGas_length (results : List PevmTxExecutionResult) (gas : BitVec 64) :
    (cumulateGas gas results).length = results.length := by
  induction results generalizing gas with
  | nil => rfl
  | cons result rest ih => exact congrArg (· + 1) (ih _)

theorem evaluateResults_evaluates {m : MvMemory} {history : WriteHistory} {entry : MemoryEntry}
    (hm : m.data (vm.hash (.basic a)) = some history) (hi : i < vm.blockSize)
    (hentry : history i = some entry) {results results' : List PevmTxExecutionResult}
    (hlength : results.length = vm.blockSize) (h : vm.evaluateResults m results = .ok results')
    (ha : a ∈ m.lazyAddresses) :
    HasBalance (accountAt results' a i) (vm.evaluatedAt a history i) :=
  foldlM_evaluateAddress hm hi hentry ((cumulateGas_length results 0).trans hlength) h (.inl ha)

/-! ## No panic -/

theorem checkExecutedNonce_ne_panic {tx : TxEnv} {nonce : BitVec 64} :
    checkExecutedNonce i tx a nonce ≠ .error .panic := by
  unfold checkExecutedNonce
  split_ifs <;> nofun

/-- The loop does not panic on values of accounts. -/
theorem evaluateHistory_ne_panic {entries : List (Nat × MemoryEntry)}
    (hentries : ∀ p ∈ entries, ∃ k value, p.2 = .data k value ∧ value.isBasic = true)
    {account : AccountBasic} {results : List PevmTxExecutionResult} :
    vm.evaluateHistory address codeHash code entries account results ≠ .error .panic := by
  induction entries generalizing account results with
  | nil => nofun
  | cons p rest ih =>
    obtain ⟨j, entry⟩ := p
    intro h
    rw [evaluateHistory] at h
    rcases bind_eq_error.mp h with hpanic | ⟨account', -, hrest⟩
    · obtain ⟨k, value, rfl, hbasic⟩ := hentries (j, entry) List.mem_cons_self
      cases value with
      | lazySender subtraction =>
        unfold evaluateEntry at hpanic
        split_ifs at hpanic
        cases hpanic
      | codeHash _ | storage _ | selfDestructed => cases hbasic
      | basic _ | lazyRecipient _ => cases hpanic
    · rcases bind_eq_error.mp hrest with hpanic | ⟨-, -, hloop⟩
      · exact checkExecutedNonce_ne_panic hpanic
      · exact ih (fun p hp => hentries p (List.mem_cons_of_mem _ hp)) hloop

theorem evaluateAddress_ne_panic {m : MvMemory}
    (hentries : ∀ j entry, j < vm.blockSize → m.entry (vm.hash (.basic a)) j = some entry →
      ∃ k value, entry = .data k value ∧ value.isBasic = true)
    {results : List PevmTxExecutionResult} : vm.evaluateAddress m results a ≠ .error .panic := by
  intro h
  unfold evaluateAddress at h
  split at h
  · cases h
  · next history hm =>
    rcases bind_eq_error.mp h with hpanic | ⟨codeHash, -, h⟩
    · cases hc : vm.storage.codeHash a <;> simp [hc, Except.mapError] at hpanic
    have hloop : ∀ code, vm.evaluateHistory a codeHash code (vm.writeHistory history)
        (vm.evaluationStart a (vm.writeHistory history)) results ≠ .error .panic := by
      refine fun code => evaluateHistory_ne_panic fun p hp => ?_
      obtain ⟨j, entry⟩ := p
      obtain ⟨hj, he⟩ := mem_writeHistory.mp hp
      exact hentries j entry hj (by rw [MvMemory.entry, hm]; exact he)
    cases codeHash with
    | none =>
      rcases bind_eq_error.mp h with hpanic | ⟨code, -, h⟩
      · cases hpanic
      · exact hloop code h
    | some hash =>
      rcases bind_eq_error.mp h with hpanic | ⟨code, -, h⟩
      · cases hc : vm.storage.codeByHash hash <;> simp [hc, Except.mapError] at hpanic
      · exact hloop code h

/-- The `unreachable!()` of the evaluation is not reached if the lazy addresses have values of
accounts. -/
theorem evaluateResults_ne_panic {m : MvMemory}
    (hentries : ∀ a ∈ m.lazyAddresses, ∀ j entry, j < vm.blockSize →
      m.entry (vm.hash (.basic a)) j = some entry →
      ∃ k value, entry = .data k value ∧ value.isBasic = true)
    (results : List PevmTxExecutionResult) : vm.evaluateResults m results ≠ .error .panic := by
  unfold evaluateResults
  generalize cumulateGas 0 results = results₀
  generalize m.lazyAddresses = addresses at hentries
  induction addresses generalizing results₀ with
  | nil => nofun
  | cons a addresses ih =>
    intro h
    rw [List.foldlM_cons] at h
    rcases bind_eq_error.mp h with hpanic | ⟨results₁, -, hrest⟩
    · exact evaluateAddress_ne_panic (hentries a List.mem_cons_self) hpanic
    · exact ih _ (fun b hb => hentries b (List.mem_cons_of_mem _ hb)) hrest

/-! ## Runs -/

section Runs

variable {U : Set MemoryLocation} {concurrencyLevel : Nat}
  {s : System Execution PevmTxExecutionResult ExecutionError}

/-- A run in which only the locations in `U` are written. -/
abbrev ReachableUsing (vm : Vm T) (U : Set MemoryLocation) (concurrencyLevel : Nat)
    (s : System Execution PevmTxExecutionResult ExecutionError) : Prop :=
  (workers (vm.config concurrencyLevel)).ReachableVia (StepsMeet (UsesOnly U)) s

theorem reachableUsing_univ (h : (workers (vm.config concurrencyLevel)).Reachable s) :
    vm.ReachableUsing Set.univ concurrencyLevel s :=
  h.mono fun _ _ _ _ _ _ _ _ _ => Set.subset_univ _

/-- The fee recipients are registered from the start. -/
theorem fees_subset_lazyAddresses (h : (workers (vm.config concurrencyLevel)).Reachable s) :
    vm.chain.lazyAddresses vm.blockEnv ⊆ s.mvMemory.lazyAddresses :=
  invariant_of_step (P := fun s => vm.chain.lazyAddresses vm.blockEnv ⊆ s.mvMemory.lazyAddresses)
    (fun s hs a ha => by
      rw [hs.2.1]
      exact mem_insertLazyAddresses.mpr (.inr ha))
    (fun _ _ _ _ _ _ hstep ih => List.Subset.trans ih hstep.lazyAddresses_subset) h

/-- Only accounts that may be written lazily are registered. -/
theorem lazyAddresses_used (hU : vm.Separates U) (h : vm.ReachableUsing U concurrencyLevel s) :
    ∀ a ∈ s.mvMemory.lazyAddresses, .basic a ∈ U := by
  refine invariant_of_step (P := fun s => ∀ a ∈ s.mvMemory.lazyAddresses, .basic a ∈ U)
    (fun s hs a ha => ?_) (fun w s s' hb hs _ hstep ih a ha => ?_) h
  · rw [hs.2.1] at ha
    exact hU.fees a ((mem_insertLazyAddresses.mp ha).resolve_left List.not_mem_nil)
  · rcases hstep with hstep | hstep | hstep | hstep | hstep <;> cases hstep
    case execute.addLazyAddresses v x x' addresses hpc hx =>
      rcases mem_insertLazyAddresses.mp ha with ha | ha
      · exact ih a ha
      obtain ⟨result, state, writes, -, rfl, -⟩ := executeStep_addLazyAddresses hx
      have hdb := ((carries_reachable keeps_known hs).execute w v x hpc).1
      have hv : v.txIdx < vm.blockSize := by
        have hin := hb.pc w
        rw [hpc] at hin
        exact hin
      rw [hdb.tx] at ha
      rcases List.mem_cons.mp ha with rfl | ha
      · exact hU.caller _ hv
      · exact hU.recipient _ hv a (by simpa using ha)
    case execute.addNewBytecode v x x' hash code hpc hx =>
      refine ih a ?_
      simp only [System.goto_mvMemory, System.withMemory_mvMemory, addNewBytecode] at ha
      split at ha <;> exact ha
    all_goals exact ih a ha

/-- The entries of a finished transaction. -/
theorem finished_entries (hsource : SourceChain vm.chain vm.isEip161Enabled)
    (h : vm.ReachableUsing U concurrencyLevel s) {i : Nat}
    (hfin : isExecutedOrValidated (s.scheduler.transactionsStatus i).status = true) :
    (∀ l e, s.mvMemory.entry l i = some e → ∃ value,
      e = .data (s.scheduler.transactionsStatus i).incarnation value) ∧
    ∀ l, (s.mvMemory.entry l i).isSome ↔ l ∈ (s.mvMemory.lastLocations i).write := by
  have hN := orphans_reachable keeps_known
    (fun _ _ _ _ _ ⟨_, _, _, hout⟩ hpre => hout.covers hsource hpre) h
  obtain ⟨ws, r, -, hS, -⟩ := (recorded_reachable keeps_known h).finished i hfin
  refine ⟨fun l e he => ?_, fun l => ⟨hN.finished i l hfin, fun hl => ?_⟩⟩
  · obtain ⟨value, -, rfl⟩ := entry_of_stored hS (fun l => hN.finished i l hfin) he
    exact ⟨value, rfl⟩
  · rcases hS.written l hl with hnil | ⟨value, -, he⟩
    · cases hnil
    · rw [show s.mvMemory.entry l i = _ from he]
      rfl

/-- After `record` the locations marked by `build_mv_memory` hold values. -/
theorem prefilled_of_recorded (hsource : SourceChain vm.chain vm.isEip161Enabled)
    (h : vm.ReachableUsing U concurrencyLevel s) {w : WorkerId} {v : TxVersion}
    {flags : FinishExecFlags} {r : PevmTxExecutionResult} (hpc : s.pc w = .writeResult v flags r)
    {l : MemoryLocationHash} (hl : Prefilled (vm.config concurrencyLevel) l v.txIdx) :
    ∃ value, s.mvMemory.entry l v.txIdx = some (.data v.txIncarnation value) := by
  have hN := orphans_reachable keeps_known
    (fun _ _ _ _ _ ⟨_, _, _, hout⟩ hpre => hout.covers hsource hpre) h
  obtain ⟨ws, -, hS⟩ := (recorded_reachable keeps_known h).writing w v flags r hpc
  obtain ⟨e, he⟩ := Option.isSome_iff_exists.mp (hN.prefilled _ l hl)
  have hall : ∀ l, (s.mvMemory.entry l v.txIdx).isSome →
      l ∈ (s.mvMemory.lastLocations v.txIdx).write := by
    intro l hsome
    rcases hN.unwritten w v [] l (by rw [hpc]; rfl) hsome with hmem | hnil
    · exact hmem
    · cases hnil
  obtain ⟨value, -, rfl⟩ := entry_of_stored hS hall he
  exact ⟨value, he⟩

/-- Every value in the memory is one of the kind of the location it was written for. -/
theorem entry_holds (hsource : SourceChain vm.chain vm.isEip161Enabled)
    (hU : vm.Separates U) (h : vm.ReachableUsing U concurrencyLevel s) {l : MemoryLocationHash}
    {i k : Nat} {value : MemoryValue} (he : s.mvMemory.entry l i = some (.data k value)) :
    ∃ location ∈ U, l = vm.hash location ∧ location.holds value = true :=
  data_reachable keeps_known (G := fun _ l value => ∃ location ∈ U, l = vm.hash location ∧
    location.holds value = true) (fun _ h => h)
    (fun ⟨_, _, _, hout⟩ _ hmem => hout.holds hsource hU hmem) h l i k value he

/-- Every lazy value in the memory is at a registered account. -/
theorem lazy_registered (hsource : SourceChain vm.chain vm.isEip161Enabled)
    (hU : vm.Separates U) (h : vm.ReachableUsing U concurrencyLevel s) {l : MemoryLocationHash}
    {i : Nat} {e : MemoryEntry} (he : s.mvMemory.entry l i = some e) (hlazy : e.isLazy = true) :
    ∃ a ∈ s.mvMemory.lazyAddresses, .basic a ∈ U ∧ l = vm.hash (.basic a) := by
  cases e with
  | estimate => cases hlazy
  | data k value =>
    have hdata := data_reachable keeps_known
      (G := fun lazyAddresses l value => ∀ k, (MemoryEntry.data k value).isLazy = true →
        ∃ a, l = vm.hash (.basic a) ∧ .basic a ∈ U ∧
          (a ∈ lazyAddresses ∨ a ∈ vm.chain.lazyAddresses vm.blockEnv))
      (fun hsub h k hlazy => by
        obtain ⟨a, hl, ha, hmem⟩ := h k hlazy
        exact ⟨a, hl, ha, hmem.imp_left fun h => hsub h⟩)
      (fun ⟨_, _, _, hout⟩ hv hmem k hlazy => hout.lazy hsource hU hv hmem k hlazy) h l i k value he
    obtain ⟨a, rfl, ha, hmem | hfee⟩ := hdata k hlazy
    · exact ⟨a, hmem, ha, rfl⟩
    · exact ⟨a, fees_subset_lazyAddresses h.reachable hfee, ha, rfl⟩

/-- **No orphan ESTIMATE.** In every reachable state a finished transaction has no ESTIMATE: it has
an entry at exactly the locations recorded last, each a value of the incarnation recorded last. The
ESTIMATEs of the initial memory are overwritten when `record` returns. After a run that ends without
an abort, in which the hashes of the locations used do not collide, the evaluation of the lazy
accounts does not reach its `unreachable!()`. -/
theorem no_orphan_estimate (hsource : SourceChain vm.chain vm.isEip161Enabled)
    (h : (workers (vm.config concurrencyLevel)).Reachable s) :
    (∀ i, isExecutedOrValidated (s.scheduler.transactionsStatus i).status = true →
      (∀ l, s.mvMemory.entry l i ≠ some .estimate) ∧
      (∀ l, (s.mvMemory.entry l i).isSome ↔ l ∈ (s.mvMemory.lastLocations i).write) ∧
      ∃ k, lastRecorded s.log i = some k ∧
        ∀ l e, s.mvMemory.entry l i = some e → ∃ value, e = .data k value) ∧
    (∀ w v flags r, s.pc w = .writeResult v flags r →
      ∀ l, Prefilled (vm.config concurrencyLevel) l v.txIdx →
        ∃ value, s.mvMemory.entry l v.txIdx = some (.data v.txIncarnation value)) ∧
    (∀ U, vm.Separates U → vm.ReachableUsing U concurrencyLevel s → 0 < concurrencyLevel →
      (∀ w, w < concurrencyLevel → s.pc w = .left) → s.abortReason = none →
      ∀ results, vm.evaluateResults s.mvMemory results ≠ .error .panic) := by
  refine ⟨fun i hfin => ?_, fun w v flags r hpc l hl => ?_, fun U hU hvia hlevel hleft hnone => ?_⟩
  · obtain ⟨hdata, hwrite⟩ := finished_entries hsource (reachableUsing_univ h) hfin
    refine ⟨fun l he => ?_, hwrite, _, (lastRecorded_reachable h).finished i hfin, hdata⟩
    obtain ⟨value, hvalue⟩ := hdata l _ he
    cases hvalue
  · exact prefilled_of_recorded hsource (reachableUsing_univ h) hpc hl
  · refine evaluateResults_ne_panic fun a ha j entry hj he => ?_
    have hval := validated_of_left h hlevel hleft hnone (i := j) hj
    obtain ⟨value, rfl⟩ := (finished_entries hsource hvia (by rw [hval]; rfl)).1 _ entry he
    refine ⟨_, value, rfl, ?_⟩
    -- no other location has the hash of the account
    obtain ⟨location, hlocation, hhash, hholds⟩ := entry_holds hsource hU hvia he
    have heq := hU.injective (lazyAddresses_used hU hvia a ha) hlocation hhash
    rw [← heq] at hholds
    exact hholds

/-- The account of `a` in the results of the block is the one evaluated up to transaction `i`. -/
def IsEvaluated (vm : Vm T) (m : MvMemory) (results : List PevmTxExecutionResult) (a : Address)
    (i : Nat) : Prop :=
  ∃ history, m.data (vm.hash (.basic a)) = some history ∧
    HasBalance (accountAt results a i) (vm.evaluatedAt a history i)

/-- A transaction with an entry is in the block and has a write history. -/
theorem isEvaluated_of_entry {m : MvMemory} {results results' : List PevmTxExecutionResult}
    {entry : MemoryEntry} (hlength : results.length = vm.blockSize)
    (hok : vm.evaluateResults m results = .ok results') (ha : a ∈ m.lazyAddresses)
    (hi : i < vm.blockSize) (he : m.entry (vm.hash (.basic a)) i = some entry) :
    vm.IsEvaluated m results' a i := by
  obtain ⟨history, hm, hentry⟩ := Option.bind_eq_some_iff.mp he
  exact ⟨history, hm, evaluateResults_evaluates hm hi hentry hlength hok ha⟩

/-- An execution that is about to call `record` is the recorded one when its transaction is finished. -/
theorem recordedAs_of_leadsTo {w : WorkerId} {v : TxVersion} {db : VmDb}
    {result : ExecutionResult} {state : EvmState} {writes : WriteSet}
    {t : System Execution PevmTxExecutionResult ExecutionError}
    (ht : vm.ReachableUsing U concurrencyLevel t)
    (hpc : t.pc w = .execute v ⟨db, .record result state writes⟩)
    (hlead : (workers (vm.config concurrencyLevel)).LeadsTo (StepsMeet (UsesOnly U)) t s)
    (hfin : isExecutedOrValidated (s.scheduler.transactionsStatus v.txIdx).status = true) :
    RecordedAs v writes
      ⟨receiptFromRevm result, stateTransitionsFromRevm vm.isEip161Enabled state⟩ s := by
  -- followed to the end: it is still about to call `record`, or it was recorded
  obtain ⟨hs, hfollows⟩ := hlead.invariant
    (P := fun t => t.pc w = .execute v ⟨db, .record result state writes⟩ ∨ RecordedAs v writes
      ⟨receiptFromRevm result, stateTransitionsFromRevm vm.isEip161Enabled state⟩ t) ht (.inl hpc) (by
    intro w' t t' ht hC hone hP
    have hb := bounds_reachable ht.reachable
    have hworker := (workers_step hone).2
    have hstep := step_of_workerStep hb.finishExecution_lt hworker
    rcases hP with hpc | hrecorded
    · by_cases hw : w = w'
      · subst hw
        exact .inr (.of_recording (ht.step w hC hone).reachable (recording_of_step hpc hworker))
      · exact .inl ((hstep.pc_of_ne hw).trans hpc)
    · exact .inr (hrecorded.step hb (ownership_reachable ht.reachable)
        (recordedOnce_reachable ht.reachable) hstep))
  refine hfollows.resolve_left fun hpc => ?_
  -- a transaction that is being executed is not finished
  have hst := (ownership_reachable hs.reachable).executing w v (by
    show (s.pc w).phase.execution = some v
    rw [hpc]
    rfl)
  rw [show s.scheduler.transactionsStatus v.txIdx = _ from hst] at hfin
  cases hfin

/-- The recorded execution of the last incarnation is what the memory and the slot hold at the end,
with the account of its mocked sender written lazily. -/
theorem mockedSender_entry (hU : vm.Separates U) {w : WorkerId} {v : TxVersion} {db : VmDb}
    {result : ExecutionResult} {state : EvmState} {writes : WriteSet}
    {t : System Execution PevmTxExecutionResult ExecutionError}
    (ht : vm.ReachableUsing U concurrencyLevel t)
    (hpc : t.pc w = .execute v ⟨db, .record result state writes⟩)
    (hlead : (workers (vm.config concurrencyLevel)).LeadsTo (StepsMeet (UsesOnly U)) t s)
    (hfin : isExecutedOrValidated (s.scheduler.transactionsStatus v.txIdx).status = true)
    (hlast : (s.scheduler.transactionsStatus v.txIdx).incarnation = v.txIncarnation) :
    s.executionResults v.txIdx =
        some ⟨receiptFromRevm result, stateTransitionsFromRevm vm.isEip161Enabled state⟩ ∧
      (db.isLazy = true → ∀ account,
        (db.tx.caller, some account) ∈ stateTransitionsFromRevm vm.isEip161Enabled state →
          ∃ subtraction, s.mvMemory.entry (vm.hash (.basic db.tx.caller)) v.txIdx =
            some (.data v.txIncarnation (.lazySender subtraction))) := by
  have hv : v.txIdx < vm.blockSize := by
    have hin := (bounds_reachable ht.reachable).pc w
    rw [hpc] at hin
    exact hin
  obtain ⟨hS, hslot⟩ := (recordedAs_of_leadsTo ht hpc hlead hfin).finished hfin hlast
  refine ⟨hslot, fun hlazy account hmem => ?_⟩
  obtain ⟨hdb, hwrites, hregisters⟩ := (carries_reachable keeps_known ht).execute w v _ hpc
  have hout : vm.Outcome U t.mvMemory.lazyAddresses v writes
      ⟨receiptFromRevm result, stateTransitionsFromRevm vm.isEip161Enabled state⟩ db result state :=
    { hdb with
      writes := hwrites.writes, used := hwrites.used, run := hwrites.run
      registers := hregisters, result := rfl }
  obtain ⟨hkey, hsender⟩ := hout.mockedSender hU hv hlazy hmem
  -- the location of the sender was recorded, with a value of the write set
  have hwrite := (hS.recorded _ hkey).resolve_left List.not_mem_nil
  rcases hS.written _ hwrite with hnil | ⟨value, hvalue, he⟩
  · cases hnil
  · obtain ⟨subtraction, rfl⟩ := hsender value hvalue
    exact ⟨subtraction, hout.fromHash ▸ he⟩

/-- **Every lazily written account is evaluated.** In every reachable state, if the hashes of the
locations used do not collide, an account with a lazy entry is in `lazy_addresses`. After a run that
ends without an abort the results returned for the transaction of the entry have the evaluated
balance. So has the sender that a lazy execution mocked: `t` is a state of the run in which the last
incarnation of a transaction is about to call `record`, with the mock in its journal. Its result is
the one in the slot, and the account of its sender is evaluated there. -/
theorem lazy_accounts_evaluated (hsource : SourceChain vm.chain vm.isEip161Enabled)
    (hU : vm.Separates U) (h : vm.ReachableUsing U concurrencyLevel s) :
    (∀ a i e, .basic a ∈ U → s.mvMemory.entry (vm.hash (.basic a)) i = some e →
      e.isLazy = true → a ∈ s.mvMemory.lazyAddresses) ∧
    (0 < concurrencyLevel → (∀ w, w < concurrencyLevel → s.pc w = .left) → s.abortReason = none →
      ∀ results results', PevmState.takeSlots s.executionResults vm.blockSize = some results →
        vm.evaluateResults s.mvMemory results = .ok results' →
        (∀ a i e, .basic a ∈ U → i < vm.blockSize →
          s.mvMemory.entry (vm.hash (.basic a)) i = some e → e.isLazy = true →
          vm.IsEvaluated s.mvMemory results' a i) ∧
        ∀ t w v db result state writes, vm.ReachableUsing U concurrencyLevel t →
          t.pc w = .execute v ⟨db, .record result state writes⟩ →
          (workers (vm.config concurrencyLevel)).LeadsTo (StepsMeet (UsesOnly U)) t s →
          (s.scheduler.transactionsStatus v.txIdx).incarnation = v.txIncarnation →
          s.executionResults v.txIdx =
              some ⟨receiptFromRevm result, stateTransitionsFromRevm vm.isEip161Enabled state⟩ ∧
            (db.isLazy = true → ∀ account,
              (db.tx.caller, some account) ∈ stateTransitionsFromRevm vm.isEip161Enabled state →
                vm.IsEvaluated s.mvMemory results' db.tx.caller v.txIdx)) := by
  have hregistered : ∀ a i e, .basic a ∈ U → s.mvMemory.entry (vm.hash (.basic a)) i = some e →
      e.isLazy = true → a ∈ s.mvMemory.lazyAddresses := by
    intro a i e ha he hlazy
    obtain ⟨b, hb, hbU, hhash⟩ := lazy_registered hsource hU h he hlazy
    cases hU.injective ha hbU hhash
    exact hb
  refine ⟨hregistered, fun hlevel hleft hnone results results' hslots hok => ?_⟩
  have hlength := PevmState.takeSlots_length hslots
  have hevaluated : ∀ a i e, .basic a ∈ U → i < vm.blockSize →
      s.mvMemory.entry (vm.hash (.basic a)) i = some e → e.isLazy = true →
      vm.IsEvaluated s.mvMemory results' a i := fun a i e ha hi he hlazy =>
    isEvaluated_of_entry hlength hok (hregistered a i e ha he hlazy) hi he
  refine ⟨hevaluated, fun t w v db result state writes ht hpc hlead hlast => ?_⟩
  have hv : v.txIdx < vm.blockSize := by
    have hin := (bounds_reachable ht.reachable).pc w
    rw [hpc] at hin
    exact hin
  have hval := validated_of_left h.reachable hlevel hleft hnone hv
  obtain ⟨hslot, hmocked⟩ := mockedSender_entry hU ht hpc hlead (by rw [hval]; rfl) hlast
  refine ⟨hslot, fun hlazy account hmem => ?_⟩
  obtain ⟨subtraction, he⟩ := hmocked hlazy account hmem
  have hcaller : db.tx = vm.chain.txEnv (vm.txs v.txIdx) :=
    ((carries_reachable keeps_known ht).execute w v _ hpc).1.tx
  refine hevaluated _ _ _ ?_ hv he rfl
  rw [hcaller]
  exact hU.caller _ hv

end Runs

end Vm

namespace Sample

/-- The locations a worker is about to write are among these. -/
def usesOnly (w : WorkerId) (s : System Vm.Execution PevmTxExecutionResult ExecutionError) : Bool :=
  match s.pc w with
  | .execute _ ⟨_, .finish _ state []⟩ =>
    state.all fun p => decide (.basic p.1 ∈ locations) && decide (.codeHash p.1 ∈ locations) &&
      p.2.storage.all fun q => decide (.storage p.1 q.1 ∈ locations)
  | _ => true

theorem usesOnly_sound {w : WorkerId}
    {s : System Vm.Execution PevmTxExecutionResult ExecutionError} (h : usesOnly w s = true) :
    StepsMeet (Vm.UsesOnly { l | l ∈ locations }) w s := by
  rintro v ⟨db, pc⟩ hpc result state rfl l ⟨p, hp, hl⟩
  simp only [usesOnly, hpc, List.all_eq_true, Bool.and_eq_true, decide_eq_true_eq] at h
  obtain ⟨⟨hbasic, hcode⟩, hstorage⟩ := h p hp
  rcases hl with rfl | rfl | ⟨q, hq, rfl⟩
  · exact hbasic
  · exact hcode
  · exact hstorage q hq

/-- Worker 0 is about to record the first incarnation of transaction 2, which mocked its sender. -/
def recordsLazy (s : System Vm.Execution PevmTxExecutionResult ExecutionError) : Bool :=
  match s.pc 0 with
  | .execute v ⟨db, .record _ state _⟩ => decide (v = ⟨2, 0⟩) && db.isLazy &&
    (stateTransitionsFromRevm true state).any fun p => decide (p.1 = db.tx.caller) && p.2.isSome
  | _ => false

theorem recordsLazy_sound {s : System Vm.Execution PevmTxExecutionResult ExecutionError}
    (h : recordsLazy s = true) : ∃ db result state writes account,
      s.pc 0 = .execute ⟨2, 0⟩ ⟨db, .record result state writes⟩ ∧ db.isLazy = true ∧
      (db.tx.caller, some account) ∈ stateTransitionsFromRevm true state := by
  unfold recordsLazy at h
  split at h
  · next v db result state writes hpc =>
    simp only [Bool.and_eq_true, decide_eq_true_eq, List.any_eq_true, Option.isSome_iff_exists] at h
    obtain ⟨⟨rfl, hlazy⟩, ⟨a, entry⟩, hmem, rfl, account, rfl⟩ := h
    exact ⟨db, result, state, writes, account, hpc, hlazy, hmem⟩
  · cases h

/-- The block has ended, with a lazy entry of the beneficiary at the first incarnation of
transaction 2, and its results are evaluated. -/
def endsEvaluated (s : System Vm.Execution PevmTxExecutionResult ExecutionError) : Bool :=
  (s.pc 0).hasLeft && (s.pc 1).hasLeft && s.abortReason.isNone &&
    ((PevmState.takeSlots s.executionResults vm.blockSize).any fun results =>
      (vm.evaluateResults s.mvMemory results).toBool) &&
    (s.mvMemory.entry (vm.hash (.basic beneficiary)) 2).any MemoryEntry.isLazy &&
    decide ((s.scheduler.transactionsStatus 2).incarnation = 0)

/-- The sample block records transaction 2 with its sender mocked and runs to its end, with a lazy
entry of the beneficiary there, and its results are evaluated. -/
theorem exists_evaluated : ∃ t s, vm.ReachableUsing { l | l ∈ locations } 2 t ∧
    recordsLazy t = true ∧
    (workers (vm.config 2)).LeadsTo (StepsMeet (Vm.UsesOnly { l | l ∈ locations })) t s ∧
    vm.ReachableUsing { l | l ∈ locations } 2 s ∧
    (∀ w, w < 2 → s.pc w = .left) ∧ s.abortReason = none ∧
    (s.scheduler.transactionsStatus 2).incarnation = 0 ∧
    ∃ results results', PevmState.takeSlots s.executionResults vm.blockSize = some results ∧
      vm.evaluateResults s.mvMemory results = .ok results' ∧
      ∃ e, s.mvMemory.entry (vm.hash (.basic beneficiary)) 2 = some e ∧ e.isLazy = true := by
  obtain ⟨t, ht, hp⟩ := exists_reachableVia (vm.config 2) usesOnly [(0, 80)]
    (fun t => recordsLazy t && ((workers (vm.config 2)).runVia usesOnly
      (schedule [(0, 29), (1, 5)]) t).any endsEvaluated)
    (by decide +kernel)
  obtain ⟨hlazy, hrun⟩ := Bool.and_eq_true_iff.mp hp
  obtain ⟨s, hrun, hend⟩ := (Option.any_eq_true _ _).mp hrun
  simp only [endsEvaluated, Bool.and_eq_true, Option.isNone_iff_eq_none, decide_eq_true_eq] at hend
  obtain ⟨⟨⟨⟨⟨h0, h1⟩, hnone⟩, hresults⟩, hentry⟩, hinc⟩ := hend
  obtain ⟨results, hslots, hok⟩ := (Option.any_eq_true _ _).mp hresults
  obtain ⟨e, he, helazy⟩ := (Option.any_eq_true _ _).mp hentry
  cases hev : vm.evaluateResults s.mvMemory results with
  | error err =>
    rw [hev] at hok
    cases hok
  | ok results' =>
    exact ⟨t, s, ht.mono fun _ _ => usesOnly_sound, hlazy,
      (Machine.leadsTo_of_run hrun).mono fun _ _ => usesOnly_sound,
      (ht.run hrun).mono fun _ _ => usesOnly_sound, left_of_two h0 h1, hnone, hinc, results,
      results', hslots, hev, e, he, helazy⟩

end Sample

/-- The end of the sample block: transaction 2 is Validated, has no ESTIMATE left, and the results
are evaluated without a panic. -/
theorem no_orphan_estimate_sample : ∃ s, (workers (Sample.vm.config 2)).Reachable s ∧
    isExecutedOrValidated (s.scheduler.transactionsStatus 2).status = true ∧
    (∀ l, s.mvMemory.entry l 2 ≠ some .estimate) ∧
    ∀ results, Sample.vm.evaluateResults s.mvMemory results ≠ .error .panic := by
  obtain ⟨-, s, -, -, -, hs, hleft, hnone, -⟩ := Sample.exists_evaluated
  have hval := validated_of_left hs.reachable (by decide) hleft hnone (i := 2) (by decide)
  have hfin : isExecutedOrValidated (s.scheduler.transactionsStatus 2).status = true := by
    rw [hval]
    rfl
  have hmain := Vm.no_orphan_estimate (.ethereum true) hs.reachable
  exact ⟨s, hs.reachable, hfin, (hmain.1 2 hfin).1,
    hmain.2.2 _ Sample.separates hs (by decide) hleft hnone⟩

/-- The end of the sample block: the beneficiary, whom the execution of transaction 2 mocked, is
registered and has its evaluated balance in the results, at its entry and at the mock. -/
theorem lazy_accounts_evaluated_sample : ∃ t s results' db result state writes,
    t.pc 0 = .execute ⟨2, 0⟩ ⟨db, .record result state writes⟩ ∧ db.isLazy = true ∧
    (workers (Sample.vm.config 2)).LeadsTo (fun _ _ => True) t s ∧
    (∀ w, w < 2 → s.pc w = .left) ∧
    Sample.beneficiary ∈ s.mvMemory.lazyAddresses ∧
    Sample.vm.IsEvaluated s.mvMemory results' Sample.beneficiary 2 ∧
    s.executionResults 2 =
      some ⟨receiptFromRevm result, stateTransitionsFromRevm true state⟩ ∧
    Sample.vm.IsEvaluated s.mvMemory results' db.tx.caller 2 := by
  obtain ⟨t, s, ht, hrecords, hlead, hs, hleft, hnone, hinc, results, results', hslots, hok, e, he,
    helazy⟩ := Sample.exists_evaluated
  obtain ⟨db, result, state, writes, account, hpc, hlazy, hmem⟩ := Sample.recordsLazy_sound hrecords
  obtain ⟨hregistered, hend⟩ := Vm.lazy_accounts_evaluated (.ethereum true) Sample.separates hs
  have hbeneficiary : .basic Sample.beneficiary ∈ { l | l ∈ Sample.locations } := by decide
  obtain ⟨hentries, hmocked⟩ := hend (by decide) hleft hnone results results' hslots hok
  obtain ⟨hslot, hsender⟩ := hmocked t 0 ⟨2, 0⟩ db result state writes ht hpc hlead hinc
  exact ⟨t, s, results', db, result, state, writes, hpc, hlazy, hlead.mono fun _ _ _ => trivial,
    hleft, hregistered _ 2 e hbeneficiary he helazy,
    hentries _ 2 e hbeneficiary (by decide) he helazy, hslot, hsender hlazy account hmem⟩

end Pevm
