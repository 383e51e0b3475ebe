import Pevm.Proofs.Serial

/-!
# Memories with the same values

Two memories whose entries differ in their incarnations alone. A transaction is shown the same state
by both (`shown_same`), and the results of a block are evaluated alike (`evaluateResults_same`). Both
follow their readers down the entries of a location, two lists of entries at a time.
-/

namespace Pevm

open MvMemory

/-- The entries hold the same value, of any incarnations. -/
inductive MemoryEntry.Same : MemoryEntry → MemoryEntry → Prop where
  | data {k k' : Nat} {value : MemoryValue} : Same (.data k value) (.data k' value)

/-- Entries of one transaction that hold the same value. -/
def SameEntry (p q : Nat × MemoryEntry) : Prop :=
  p.1 = q.1 ∧ p.2.Same q.2

/-- The transactions below `n` have the same values in both memories. -/
def MvMemory.SameBelow (m m' : MvMemory) (n : Nat) : Prop :=
  ∀ l i, i < n → Option.Rel MemoryEntry.Same (m.entry l i) (m'.entry l i)

theorem same_cases {a b : Option MemoryEntry} (h : Option.Rel MemoryEntry.Same a b) :
    (a = none ∧ b = none) ∨ ∃ e e', a = some e ∧ b = some e' ∧ e.Same e' := by
  cases h with
  | none => exact .inl ⟨rfl, rfl⟩
  | some hsame => exact .inr ⟨_, _, rfl, rfl, hsame⟩

theorem MvMemory.SameBelow.symm {m m' : MvMemory} {n : Nat} (h : m.SameBelow m' n) :
    m'.SameBelow m n := by
  intro l i hi
  rcases same_cases (h l i hi) with ⟨hnone, hnone'⟩ | ⟨e, e', he, he', hsame⟩
  · rw [hnone, hnone']
    exact .none
  · rw [he, he']
    cases hsame
    exact .some .data

theorem WriteHistory.forall₂_below {h h' : WriteHistory} {n : Nat}
    (hsame : ∀ i, i < n → Option.Rel MemoryEntry.Same (h i) (h' i)) :
    List.Forall₂ SameEntry (h.below n) (h'.below n) := by
  induction n with
  | zero => exact .nil
  | succ n ih =>
    have hrest := ih fun i hi => hsame i (by omega)
    unfold WriteHistory.below
    rcases same_cases (hsame n (by omega)) with ⟨hnone, hnone'⟩ | ⟨e, e', he, he', hone⟩
    · rw [hnone, hnone']
      exact hrest
    · rw [he, he']
      exact .cons ⟨rfl, hone⟩ hrest

/-! ## What a transaction is shown -/

namespace LazyEvaluation

/-- The evaluation with other origins. -/
def withOrigins (acc : LazyEvaluation) (origins : ReadOrigins) : LazyEvaluation :=
  { acc with newOrigins := origins }

theorem addRecipient_withOrigins {acc : LazyEvaluation} {origins origins' : ReadOrigins}
    {addition : U256} : ((acc.withOrigins origins).addRecipient addition).withOrigins origins' =
      (acc.withOrigins origins').addRecipient addition := by
  unfold addRecipient withOrigins
  split_ifs <;> rfl

theorem addSender_withOrigins {acc : LazyEvaluation} {origins origins' : ReadOrigins}
    {subtraction : U256} : ((acc.withOrigins origins).addSender subtraction).withOrigins origins' =
      (acc.withOrigins origins').addSender subtraction := by
  unfold addSender withOrigins
  split_ifs <;> rfl

/-- The walk down entries with the same values ends alike, up to the origins. -/
theorem walk_same {entries entries' : List (Nat × MemoryEntry)}
    (h : List.Forall₂ SameEntry entries entries') :
    ∀ {acc eval : LazyEvaluation} (origins : ReadOrigins), walk [] entries acc = .ok eval →
      ∃ origins', walk [] entries' (acc.withOrigins origins) = .ok (eval.withOrigins origins') := by
  induction h with
  | nil =>
    intro acc eval origins hwalk
    cases hwalk
    exact ⟨origins, rfl⟩
  | @cons p q entries entries' hpq _ ih =>
    intro acc eval origins hwalk
    obtain ⟨i, e⟩ := p
    obtain ⟨i', e'⟩ := q
    obtain ⟨rfl, he⟩ := hpq
    cases he with
    | @data k k' value =>
      simp only [walk, ne_eq, not_true_eq_false, false_and, if_false] at hwalk ⊢
      cases value with
      | basic account =>
        cases hwalk
        exact ⟨_, rfl⟩
      | lazyRecipient addition =>
        obtain ⟨origins', hrest⟩ := ih (origins ++ [.mvMemory ⟨i, k'⟩]) hwalk
        refine ⟨origins', ?_⟩
        rw [← hrest]
        exact congrArg (walk [] entries') addRecipient_withOrigins.symm
      | lazySender subtraction =>
        obtain ⟨origins', hrest⟩ := ih (origins ++ [.mvMemory ⟨i, k'⟩]) hwalk
        refine ⟨origins', ?_⟩
        rw [← hrest]
        exact congrArg (walk [] entries') addSender_withOrigins.symm
      | codeHash _ | storage _ | selfDestructed => cases hwalk

end LazyEvaluation

namespace Vm

variable {T : Type} {vm : Vm T} {m m' : MvMemory} {n : Nat} {address : Address}

theorem fallBackToStorage_withOrigins {eval eval₁ : LazyEvaluation} (origins : ReadOrigins)
    (h : vm.fallBackToStorage [] address eval = .ok eval₁) :
    ∃ origins', vm.fallBackToStorage [] address (eval.withOrigins origins) =
      .ok (eval₁.withOrigins origins') := by
  unfold fallBackToStorage LazyEvaluation.withOrigins at *
  cases hfinal : eval.finalAccount with
  | some account =>
    simp only [hfinal] at h ⊢
    cases h
    exact ⟨origins, by rw [hfinal]⟩
  | none =>
    simp only [hfinal, ne_eq, not_true_eq_false, false_and, if_false] at h ⊢
    cases hbasic : vm.storage.basic address with
    | error message =>
      rw [hbasic] at h
      cases h
    | ok account =>
      rw [hbasic] at h
      cases account <;>
        · cases h
          exact ⟨_, rfl⟩

theorem basicAt_same (h : m.SameBelow m' n) {account : Option AccountBasic}
    (hread : vm.basicAt m n address = .ok account) : vm.basicAt m' n address = .ok account := by
  obtain ⟨eval, eval₁, hwalk, hfall, rfl⟩ := basicAt_eq_ok_iff.mp hread
  have hentries : List.Forall₂ SameEntry (m.entriesBelow (vm.hash (.basic address)) n)
      (m'.entriesBelow (vm.hash (.basic address)) n) := by
    rw [entriesBelow_eq, entriesBelow_eq]
    exact WriteHistory.forall₂_below (h _)
  obtain ⟨origins, hwalk'⟩ := LazyEvaluation.walk_same hentries [] hwalk
  obtain ⟨origins', hfall'⟩ := fallBackToStorage_withOrigins origins hfall
  exact basicAt_eq_ok_iff.mpr ⟨_, _, hwalk', hfall', rfl⟩

theorem codeHashAt_same (h : m.SameBelow m' n) {codeHash : Option B256}
    (hread : vm.codeHashAt m n address = .ok codeHash) :
    vm.codeHashAt m' n address = .ok codeHash := by
  obtain ⟨origin, hsource⟩ := codeHashAt_eq_ok_iff.mp hread
  refine codeHashAt_eq_ok_iff.mpr ?_
  rw [entriesBelow_eq] at hsource ⊢
  have hentries := WriteHistory.forall₂_below (h (vm.hash (.codeHash address)))
  cases hbelow : WriteHistory.below (m.entry (vm.hash (.codeHash address))) n with
  | nil =>
    rw [hbelow] at hentries hsource
    rw [List.forall₂_nil_left_iff.mp hentries]
    exact ⟨origin, hsource⟩
  | cons p rest =>
    rw [hbelow] at hentries hsource
    obtain ⟨q, rest', hpq, -, hbelow'⟩ := List.forall₂_cons_left_iff.mp hentries
    rw [hbelow']
    obtain ⟨i, e⟩ := p
    obtain ⟨i', e'⟩ := q
    obtain ⟨rfl, he⟩ := hpq
    cases he with
    | @data k k' value =>
      cases value with
      | codeHash hash =>
        obtain ⟨-, rfl⟩ := Prod.mk.inj (Except.ok.inj hsource)
        exact ⟨_, rfl⟩
      | _ => exact ⟨origin, hsource⟩

theorem slotAt_same (h : m.SameBelow m' n) {index value : U256}
    (hread : vm.slotAt m n address index = .ok value) :
    vm.slotAt m' n address index = .ok value := by
  obtain ⟨origin, hsource⟩ := slotAt_eq_ok_iff.mp hread
  refine slotAt_eq_ok_iff.mpr ?_
  rw [entriesBelow_eq] at hsource ⊢
  have hentries := WriteHistory.forall₂_below (h (vm.hash (.storage address index)))
  cases hbelow : WriteHistory.below (m.entry (vm.hash (.storage address index))) n with
  | nil =>
    rw [hbelow] at hentries hsource
    rw [List.forall₂_nil_left_iff.mp hentries]
    exact ⟨origin, hsource⟩
  | cons p rest =>
    rw [hbelow] at hentries hsource
    obtain ⟨q, rest', hpq, -, hbelow'⟩ := List.forall₂_cons_left_iff.mp hentries
    rw [hbelow']
    obtain ⟨i, e⟩ := p
    obtain ⟨i', e'⟩ := q
    obtain ⟨rfl, he⟩ := hpq
    cases he with
    | @data k k' found =>
      cases found with
      | storage _ =>
        obtain ⟨-, rfl⟩ := Prod.mk.inj (Except.ok.inj hsource)
        exact ⟨_, rfl⟩
      | _ => cases hsource

theorem toOption_congr {ε α : Type} {x y : Except ε α} (hxy : ∀ a, x = .ok a → y = .ok a)
    (hyx : ∀ a, y = .ok a → x = .ok a) : x.toOption = y.toOption := by
  cases hx : x with
  | ok a => rw [hxy a hx]
  | error err =>
    cases hy : y with
    | ok a =>
      rw [hyx a hy] at hx
      cases hx
    | error err' => rfl

/-- **What a transaction is shown depends on the values below it.** -/
theorem shown_same (h : m.SameBelow m' n) : vm.shown m n = vm.shown m' n := by
  have hbasic : ∀ address, (vm.basicAt m n address).toOption = (vm.basicAt m' n address).toOption :=
    fun _ => toOption_congr (fun _ => basicAt_same h) fun _ => basicAt_same h.symm
  have hcodeHash : ∀ address,
      (vm.codeHashAt m n address).toOption = (vm.codeHashAt m' n address).toOption :=
    fun _ => toOption_congr (fun _ => codeHashAt_same h) fun _ => codeHashAt_same h.symm
  have hslot : ∀ address index,
      (vm.slotAt m n address index).toOption = (vm.slotAt m' n address index).toOption :=
    fun _ _ => toOption_congr (fun _ => slotAt_same h) fun _ => slotAt_same h.symm
  unfold shown
  simp only [hbasic, hcodeHash, hslot]

/-! ## The evaluation of the results -/

theorem forall₂_writeHistory {history history' : WriteHistory}
    (h : ∀ i, i < vm.blockSize → Option.Rel MemoryEntry.Same (history i) (history' i)) :
    List.Forall₂ SameEntry (vm.writeHistory history) (vm.writeHistory history') := by
  suffices hlist : ∀ l : List Nat, (∀ i ∈ l, i < vm.blockSize) → List.Forall₂ SameEntry
      (l.filterMap fun i => (history i).map fun entry => (i, entry))
      (l.filterMap fun i => (history' i).map fun entry => (i, entry)) from
    hlist _ fun i => List.mem_range.mp
  intro l hmem
  induction l with
  | nil => exact .nil
  | cons i rest ih =>
    have hrest := ih fun j hj => hmem j (List.mem_cons_of_mem _ hj)
    rw [List.filterMap_cons, List.filterMap_cons]
    rcases same_cases (h i (hmem i List.mem_cons_self)) with
      ⟨hnone, hnone'⟩ | ⟨e, e', he, he', hone⟩
    · rw [hnone, hnone']
      exact hrest
    · rw [he, he']
      exact .cons ⟨rfl, hone⟩ hrest

theorem evaluateEntry_same {tx : TxEnv} {account : AccountBasic} {e e' : MemoryEntry}
    (h : e.Same e') : evaluateEntry tx account e = evaluateEntry tx account e' := by
  cases h with
  | @data k k' value => cases value <;> rfl

theorem evaluateHistory_same {entries entries' : List (Nat × MemoryEntry)}
    {codeHash : Option B256} {code : Option Bytecode}
    (h : List.Forall₂ SameEntry entries entries') :
    ∀ {account : AccountBasic} {results : List PevmTxExecutionResult},
      vm.evaluateHistory address codeHash code entries account results =
        vm.evaluateHistory address codeHash code entries' account results := by
  induction h with
  | nil => exact rfl
  | @cons p q entries entries' hpq _ ih =>
    intro account results
    obtain ⟨i, e⟩ := p
    obtain ⟨i', e'⟩ := q
    obtain ⟨rfl, he⟩ := hpq
    simp only [evaluateHistory, evaluateEntry_same he, ih]

theorem evaluationStart_same {entries entries' : List (Nat × MemoryEntry)}
    (h : List.Forall₂ SameEntry entries entries') :
    vm.evaluationStart address entries = vm.evaluationStart address entries' := by
  cases h with
  | nil => rfl
  | @cons p q entries entries' hpq _ =>
    obtain ⟨i, e⟩ := p
    obtain ⟨i', e'⟩ := q
    obtain ⟨rfl, he⟩ := hpq
    cases he with
    | @data k k' value => cases value <;> rfl

/-- The evaluation of an account whose code can be read is one of its entries. -/
theorem evaluateAddress_of_storedCode {codeHash : Option B256} {code : Option Bytecode}
    (h : vm.storedCode address = .ok (codeHash, code)) (m : MvMemory)
    (results : List PevmTxExecutionResult) :
    vm.evaluateAddress m results address =
      vm.evaluateHistory address codeHash code
        (vm.writeHistory (m.entry (vm.hash (.basic address))))
        (vm.evaluationStart address (vm.writeHistory (m.entry (vm.hash (.basic address))))) results := by
  obtain ⟨codeHash', hcodeHash, hrest⟩ := bind_eq_ok.mp h
  unfold evaluateAddress
  cases hdata : m.data (vm.hash (.basic address)) with
  | none =>
    -- a location without a map has no entries
    have hentries : vm.writeHistory (m.entry (vm.hash (.basic address))) = [] := by
      unfold writeHistory entry
      simp [hdata]
    rw [hentries]
    rfl
  | some history =>
    have hentry : m.entry (vm.hash (.basic address)) = history := by
      funext i
      unfold entry
      rw [hdata]
      rfl
    rw [hentry]
    simp only [hcodeHash]
    cases codeHash' with
    | none =>
      obtain ⟨code', hcode, hpair⟩ := bind_eq_ok.mp hrest
      cases hcode
      cases hpair
      rfl
    | some hash =>
      obtain ⟨code', hcode, hpair⟩ := bind_eq_ok.mp hrest
      cases hpair
      show (vm.storage.codeByHash hash).mapError PevmError.storageError >>= _ = _
      rw [show vm.storage.codeByHash hash = .ok code from hcode]
      rfl

theorem evaluateAddress_same (hcode : ∃ p, vm.storedCode address = .ok p)
    (h : m.SameBelow m' vm.blockSize) {results : List PevmTxExecutionResult} :
    vm.evaluateAddress m results address = vm.evaluateAddress m' results address := by
  obtain ⟨⟨codeHash, code⟩, hcode⟩ := hcode
  have hentries : List.Forall₂ SameEntry
      (vm.writeHistory (m.entry (vm.hash (.basic address))))
      (vm.writeHistory (m'.entry (vm.hash (.basic address)))) := forall₂_writeHistory (h _)
  rw [evaluateAddress_of_storedCode hcode m, evaluateAddress_of_storedCode hcode m',
    evaluationStart_same hentries, evaluateHistory_same hentries]

/-- **The results are evaluated alike on the same values**, if the codes of the evaluated accounts
can be read. -/
theorem evaluateResults_same (h : m.SameBelow m' vm.blockSize)
    (hlazy : m.lazyAddresses = m'.lazyAddresses)
    (hcode : ∀ a ∈ m.lazyAddresses, ∃ p, vm.storedCode a = .ok p)
    (results : List PevmTxExecutionResult) :
    vm.evaluateResults m results = vm.evaluateResults m' results := by
  suffices hlist : ∀ (l : List Address) (results : List PevmTxExecutionResult),
      (∀ a ∈ l, ∃ p, vm.storedCode a = .ok p) →
        l.foldlM (vm.evaluateAddress m) results = l.foldlM (vm.evaluateAddress m') results by
    unfold evaluateResults
    rw [← hlazy]
    exact hlist _ _ hcode
  intro l
  induction l with
  | nil => exact fun _ _ => rfl
  | cons a rest ih =>
    intro results hcode
    rw [List.foldlM_cons, List.foldlM_cons, evaluateAddress_same (hcode a List.mem_cons_self) h]
    exact congrArg _ (funext fun results' =>
      ih results' fun b hb => hcode b (List.mem_cons_of_mem _ hb))

end Vm

end Pevm
