import Pevm.Proofs.Journal

/-!
# The execution of a raw transfer on its own

The first transaction of a block finds nothing below it in the multi-version memory, so that
`VmDb` answers every read from the storage, except for the mocks of a lazy transaction
(`Transfer.view`). `Answers` is what its state keeps while the run asks for accounts; with the
journal of the run it determines the write set (`Transfer.writes`) and with it the outcome of the
execution: `executes` and `fails`.
-/

namespace Pevm

open Interleaving MvMemory Saturating

theorem MvMemory.entriesBelow_zero {m : MvMemory} {location : MemoryLocationHash} :
    m.entriesBelow location 0 = [] := by
  unfold MvMemory.entriesBelow
  split <;> rfl

namespace Transfer

variable {T : Type} (t : Transfer T)

/-! ## The answers of the database -/

/-- The accounts as `VmDb` reads them from the storage. -/
def real : View := fun a =>
  (t.pre.basic a).map fun account =>
    ⟨account.balance, account.nonce, (t.pre.codeHash a).getD keccakEmpty,
      (t.pre.codeHash a).bind t.pre.code⟩

/-- The accounts the run is shown. A lazy transaction is shown a rich sender with the right nonce
and a missing recipient. -/
def view (isLazy : Bool) : View := fun a =>
  if isLazy ∧ a = t.env.caller then some ⟨U256.max, t.env.nonce, keccakEmpty, none⟩
  else if isLazy ∧ a = t.recipient then none
  else t.real a

/-- The accounts at the end of the run. -/
def settled (isLazy : Bool) : Accounts :=
  (t.revm.settled t.env t.recipient (t.view isLazy)).2

/-- Whether `VmDb` answers without a look at the storage. -/
def mocked (isLazy : Bool) (a : Address) : Prop :=
  isLazy = true ∧ (a = t.env.caller ∨ a = t.recipient)

instance (isLazy : Bool) (a : Address) : Decidable (t.mocked isLazy a) :=
  inferInstanceAs (Decidable (_ ∧ _))

/-- The nonce of the sender passes the check of `basic`. -/
def NonceMatches (isLazy : Bool) : Prop :=
  isLazy = false → t.chain.hasNonce t.tx = true →
    ∀ account, t.pre.basic t.env.caller = some account → account.nonce = t.env.nonce

/-- The state of the database after the run asked for the accounts `asked`. -/
structure Answers (isLazy : Bool) (asked : List Address) (db : VmDb) : Prop where
  tx : db.tx = t.env
  fromHash : db.fromHash = t.hash (.basic t.env.caller)
  toHash : db.toHash = some (t.hash (.basic t.recipient))
  toCodeHash : db.toCodeHash = none
  lazy : db.isLazy = isLazy
  hasNonce : db.hasNonce = t.chain.hasNonce t.tx
  origins : ∀ l, db.readSet.origins l = [] ∨ db.readSet.origins l = [.storage]
  readAccounts : ∀ a ∈ t.accounts, db.readAccounts.lookup (t.hash (.basic a)) =
    if a ∈ asked ∧ ¬ t.mocked isLazy a then (t.pre.basic a).map fun account => (account, t.pre.codeHash a)
    else none

theorem recipient_env : t.env.kind.recipient = some t.recipient := by
  rw [env, t.kind]
  rfl

theorem answers_start (isLazy : Bool) : t.Answers isLazy [] (t.execution isLazy).db where
  tx := rfl
  fromHash := rfl
  toHash := by
    show Option.map _ t.env.kind.recipient = _
    rw [recipient_env]
    rfl
  toCodeHash := rfl
  lazy := rfl
  hasNonce := rfl
  origins := by
    intro l
    by_cases hl : l = t.hash (.codeHash t.recipient)
    · simp [execution, ReadSet.origins, hl]
    · simp [execution, ReadSet.origins, AssocList.lookup_cons, hl]
  readAccounts := by
    intro a _
    simp [execution, Vm.startDb]

variable {t} {isLazy : Bool} {asked : List Address} {db : VmDb} {a b : Address}

/-- The locations of the accounts are told apart by their hashes. -/
theorem hash_basic_inj (ha : a ∈ t.accounts) (hb : b ∈ t.accounts) :
    t.hash (.basic a) = t.hash (.basic b) ↔ a = b := by
  constructor
  · intro h
    have := t.hashInjective ⟨a, ha, .inl rfl⟩ ⟨b, hb, .inl rfl⟩ h
    simpa using this
  · rintro rfl
    rfl

theorem hash_codeHash_inj (ha : a ∈ t.accounts) (hb : b ∈ t.accounts) :
    t.hash (.codeHash a) = t.hash (.codeHash b) ↔ a = b := by
  constructor
  · intro h
    have := t.hashInjective ⟨a, ha, .inr rfl⟩ ⟨b, hb, .inr rfl⟩ h
    simpa using this
  · rintro rfl
    rfl

theorem hash_basic_ne_codeHash (ha : a ∈ t.accounts) (hb : b ∈ t.accounts) :
    t.hash (.basic a) ≠ t.hash (.codeHash b) := by
  intro h
  have := t.hashInjective ⟨a, ha, .inl rfl⟩ ⟨b, hb, .inr rfl⟩ h
  simp at this

theorem caller_mem : t.env.caller ∈ t.accounts := List.mem_cons_self

theorem recipient_mem : t.recipient ∈ t.accounts := List.mem_cons_of_mem _ List.mem_cons_self

theorem Answers.hashBasic_eq (h : t.Answers isLazy asked db) :
    t.vm.hashBasic db a = t.hash (.basic a) := by
  unfold Vm.hashBasic
  rw [h.tx, h.fromHash, h.toHash, recipient_env]
  split_ifs with hcaller hrecipient
  · rw [hcaller]
  · rw [Option.some.inj hrecipient]
    rfl
  · rfl

/-- `get_code_hash` finds the code hash of the storage. -/
theorem Answers.getCodeHash_eq (h : t.Answers isLazy asked db) {m : MvMemory} :
    ∃ db', t.vm.getCodeHash m 0 db a = .ok (db', t.pre.codeHash a) ∧ t.Answers isLazy asked db' := by
  have hpush : pushOrigin (db.readSet.origins (t.hash (.codeHash a))) .storage = .ok [.storage] := by
    rcases h.origins (t.hash (.codeHash a)) with ho | ho <;> rw [ho] <;> rfl
  refine ⟨{ db with readSet := db.readSet.insert (t.hash (.codeHash a)) [.storage] }, ?_,
    { h with origins := ?_ }⟩
  · unfold Vm.getCodeHash
    simp only [entriesBelow_zero, List.head?_nil]
    show (pushOrigin (db.readSet.origins (t.hash (.codeHash a))) .storage >>= _) = _
    rw [hpush]
    rfl
  · intro l
    rw [ReadSet.origins_insert]
    split_ifs
    · exact .inr rfl
    · exact h.origins l

/-- The fall back of `basic` finds the account of the storage. -/
theorem fallBackToStorage_eq {os : ReadOrigins} (hos : os = [] ∨ os = [.storage]) :
    t.vm.fallBackToStorage os a .start =
      .ok { LazyEvaluation.start with newOrigins := [.storage], finalAccount := t.pre.basic a } := by
  unfold Vm.fallBackToStorage
  cases hbasic : t.pre.basic a with
  | none => rcases hos with rfl | rfl <;> simp [LazyEvaluation.start, vm, PreState.storage, hbasic]
  | some account =>
    rcases hos with rfl | rfl <;> simp [LazyEvaluation.start, vm, PreState.storage, hbasic]

/-- `basic` up to the code finds the account of the storage, or a sender with another nonce. -/
theorem Answers.readBasic_eq (h : t.Answers isLazy asked db) {m : MvMemory} :
    ∃ db', t.Answers isLazy asked db' ∧ t.vm.readBasic m 0 db a =
      match t.pre.basic a with
      | none => .ok (db', none)
      | some account =>
        (Vm.checkNonce 0 db' (t.hash (.basic a)) account.nonce).map fun _ => (db', some account) := by
  have happly : ∀ account : AccountBasic, { LazyEvaluation.start with
      newOrigins := [.storage], finalAccount := t.pre.basic a }.apply account = account := by
    intro account
    simp [LazyEvaluation.apply, LazyEvaluation.start]
  refine ⟨if db.readSet.origins (t.hash (.basic a)) = [] then
    { db with readSet := db.readSet.insert (t.hash (.basic a)) [.storage] } else db, ?_, ?_⟩
  · split_ifs
    · refine { h with origins := ?_ }
      intro l
      rw [ReadSet.origins_insert]
      split_ifs
      · exact .inr rfl
      · exact h.origins l
    · exact h
  · unfold Vm.readBasic
    simp only [h.hashBasic_eq, entriesBelow_zero, LazyEvaluation.walk]
    show (t.vm.fallBackToStorage _ a .start >>= _) = _
    rw [fallBackToStorage_eq (h.origins _)]
    show (match t.pre.basic a with | none => _ | some account => _) = _
    cases hbasic : t.pre.basic a with
    | none => rfl
    | some account =>
      rw [hbasic] at happly
      simp only [happly]
      rfl

/-- A missing or mocked account leaves no trace. -/
theorem Answers.append_missing (h : t.Answers isLazy asked db)
    (ha : t.mocked isLazy a ∨ t.pre.basic a = none) : t.Answers isLazy (asked ++ [a]) db := by
  refine { h with readAccounts := ?_ }
  intro b hb
  rw [h.readAccounts b hb]
  by_cases hba : b = a
  · subst hba
    rcases ha with ha | ha <;> simp [ha]
  · simp [hba]

/-- An account that was read is kept for the write set. -/
theorem Answers.append_read (h : t.Answers isLazy asked db) (ha : a ∈ t.accounts)
    (hmocked : ¬ t.mocked isLazy a) {account : AccountBasic} (hbasic : t.pre.basic a = some account) :
    t.Answers isLazy (asked ++ [a])
      { db with
        readAccounts := (t.hash (.basic a), (account, t.pre.codeHash a)) :: db.readAccounts } := by
  refine { h with readAccounts := ?_ }
  intro b hb
  rw [AssocList.lookup_cons, h.readAccounts b hb]
  by_cases hba : b = a
  · subst hba
    simp [hmocked, hbasic]
  · rw [if_neg (mt (hash_basic_inj hb ha).mp hba)]
    simp [hba]

theorem executeAlone_run {m : MvMemory} {x x' : Vm.Execution}
    (h : t.vm.executeStep version m x = .run x') {m' : MvMemory} {o : ExecutionOutcome}
    (hrest : Completes (t.vm.executeAlone version) m x' m' o) :
    Completes (t.vm.executeAlone version) m x m' o :=
  .goto (by rw [Vm.executeAlone, h]) hrest

/-- The rest of `basic` once the account was read: the code hash and the code. -/
theorem Answers.readCode (h : t.Answers isLazy asked db) (ha : a ∈ t.accounts)
    (hmocked : ¬ t.mocked isLazy a) {account : AccountBasic} (hbasic : t.pre.basic a = some account)
    {m : MvMemory} (hm : m.newBytecodes = fun _ => none) (next : Option AccountInfo → EvmProgram) :
    ∃ db', t.Answers isLazy (asked ++ [a]) db' ∧
      ∀ {m' : MvMemory} {o : ExecutionOutcome},
        Completes (t.vm.executeAlone version) m ⟨db', .run (next (t.real a))⟩ m' o →
        Completes (t.vm.executeAlone version) m
          ⟨db, .basicCode a account (t.pre.codeHash a) next⟩ m' o := by
  refine ⟨_, h.append_read ha hmocked hbasic, fun hrest => executeAlone_run ?_ hrest⟩
  have hcode : t.vm.readCode m (t.pre.codeHash a) = .ok ((t.pre.codeHash a).bind t.pre.code) := by
    unfold Vm.readCode
    cases t.pre.codeHash a with
    | none => rfl
    | some hash =>
      rw [hm]
      rfl
  simp only [Vm.executeStep, hcode, h.hashBasic_eq, real, hbasic, Option.map_some]

/-- **The database answers with `view`.** -/
theorem Answers.basic (h : t.Answers isLazy asked db) (hnonce : t.NonceMatches isLazy)
    (ha : a ∈ t.accounts) {m : MvMemory} (hm : m.newBytecodes = fun _ => none)
    (next : Option AccountInfo → EvmProgram) :
    ∃ db', t.Answers isLazy (asked ++ [a]) db' ∧
      ∀ {m' : MvMemory} {o : ExecutionOutcome},
        Completes (t.vm.executeAlone version) m ⟨db', .run (next (t.view isLazy a))⟩ m' o →
        Completes (t.vm.executeAlone version) m ⟨db, .run (.basic a next)⟩ m' o := by
  have hfrom : t.hash (.basic a) = db.fromHash ↔ a = t.env.caller := by
    rw [h.fromHash]
    exact hash_basic_inj ha caller_mem
  have hto : some (t.hash (.basic a)) = db.toHash ↔ a = t.recipient := by
    rw [h.toHash, Option.some.injEq]
    exact hash_basic_inj ha recipient_mem
  by_cases hmocked : t.mocked isLazy a
  · -- the mocks do not touch the database
    refine ⟨db, h.append_missing (.inl hmocked), fun hrest => executeAlone_run ?_ hrest⟩
    obtain ⟨hlazy, hor⟩ := hmocked
    simp only [Vm.executeStep, h.hashBasic_eq, h.lazy, hfrom, hto, view]
    by_cases hcaller : a = t.env.caller
    · rw [if_pos ⟨hlazy, hcaller⟩, if_pos ⟨hlazy, hcaller⟩, VmDb.mockSender, h.tx]
    · have hrecipient : a = t.recipient := hor.resolve_left hcaller
      rw [if_neg (by simp [hcaller]), if_pos ⟨hlazy, hrecipient⟩, if_neg (by simp [hcaller]),
        if_pos ⟨hlazy, hrecipient⟩]
  · obtain ⟨hnotCaller, hnotRecipient⟩ : ¬ (isLazy = true ∧ a = t.env.caller) ∧
        ¬ (isLazy = true ∧ a = t.recipient) :=
      ⟨fun hc => hmocked ⟨hc.1, .inl hc.2⟩, fun hc => hmocked ⟨hc.1, .inr hc.2⟩⟩
    have hview : t.view isLazy a = t.real a := by
      rw [view, if_neg hnotCaller, if_neg hnotRecipient]
    rw [hview]
    obtain ⟨db₁, h₁, hread⟩ := h.readBasic_eq (a := a) (m := m)
    have hmissing : t.vm.readBasic m 0 db a = .ok (db₁, none) →
        t.vm.executeStep version m ⟨db, .run (.basic a next)⟩ = .run ⟨db₁, .run (next none)⟩ := by
      intro hnone
      simp only [Vm.executeStep, h.hashBasic_eq, h.lazy, hfrom, hto]
      rw [if_neg hnotCaller, if_neg hnotRecipient, version, hnone]
    have hfound : ∀ account, t.vm.readBasic m 0 db a = .ok (db₁, some account) →
        t.vm.executeStep version m ⟨db, .run (.basic a next)⟩ =
          if some (t.hash (.basic a)) = db₁.toHash then
            .run ⟨db₁, .basicCode a account db₁.toCodeHash next⟩
          else .run ⟨db₁, .basicCodeHash a account next⟩ := by
      intro account hsome
      simp only [Vm.executeStep, h.hashBasic_eq, h.lazy, hfrom, hto]
      rw [if_neg hnotCaller, if_neg hnotRecipient, version, hsome]
    cases hbasic : t.pre.basic a with
    | none =>
      refine ⟨db₁, h₁.append_missing (.inr hbasic), fun hrest => executeAlone_run ?_ hrest⟩
      rw [real, hbasic]
      exact hmissing (by rw [hread, hbasic])
    | some account =>
      have hcheck : Vm.checkNonce 0 db₁ (t.hash (.basic a)) account.nonce = .ok () := by
        unfold Vm.checkNonce
        rw [h₁.hasNonce, h₁.fromHash, h₁.tx, if_neg]
        rintro ⟨hhas, heq, hne⟩
        obtain rfl := (hash_basic_inj ha caller_mem).mp heq
        have hfull : isLazy = false := by simpa using hnotCaller
        exact hne (hnonce hfull hhas account hbasic).symm
      have hstep := hfound account (by rw [hread, hbasic]; simp only [hcheck, Except.map])
      have hto₁ : some (t.hash (.basic a)) = db₁.toHash ↔ a = t.recipient := by
        rw [h₁.toHash, Option.some.injEq]
        exact hash_basic_inj ha recipient_mem
      by_cases hrecipient : a = t.recipient
      · -- `set_tx` has read the code hash of the recipient
        rw [if_pos (hto₁.mpr hrecipient), h₁.toCodeHash, ← t.recipientCode, ← hrecipient] at hstep
        obtain ⟨db₂, h₂, hrest₂⟩ := h₁.readCode ha hmocked hbasic hm next
        exact ⟨db₂, h₂, fun hrest => executeAlone_run hstep (hrest₂ hrest)⟩
      · rw [if_neg (mt hto₁.mp hrecipient)] at hstep
        obtain ⟨db₂, hget, h₂⟩ := h₁.getCodeHash_eq (a := a) (m := m)
        obtain ⟨db₃, h₃, hrest₃⟩ := h₂.readCode ha hmocked hbasic hm next
        refine ⟨db₃, h₃, fun hrest => executeAlone_run hstep (executeAlone_run ?_ (hrest₃ hrest))⟩
        simp only [Vm.executeStep, version, hget]

/-! ## The run -/

end Transfer

theorem EvmProgram.Runs.subset {view : View} {asked asked' : List Address} {program : EvmProgram}
    {o : Except EvmError (ExecutionResult × EvmState)} (h : program.Runs view asked asked' o) :
    ∀ b ∈ asked, b ∈ asked' := by
  induction h with
  | basic _ ih => exact fun b hb => ih b (List.mem_append_left _ hb)
  | finish => exact fun _ hb => hb
  | fail => exact fun _ hb => hb

/-- The program that ends at once. -/
def EvmProgram.ended : Except EvmError (ExecutionResult × EvmState) → EvmProgram
  | .ok (result, state) => .finish result state
  | .error err => .fail err

namespace Transfer

variable {T : Type} {t : Transfer T} {isLazy : Bool} {asked asked' : List Address} {db : VmDb}

/-- A run that is shown `view` takes place on the database. -/
theorem Answers.runs {program : EvmProgram} {o : Except EvmError (ExecutionResult × EvmState)}
    (hruns : program.Runs (t.view isLazy) asked asked' o) (hnonce : t.NonceMatches isLazy)
    (hasked : ∀ b ∈ asked', b ∈ t.accounts) {m : MvMemory} (hm : m.newBytecodes = fun _ => none)
    (h : t.Answers isLazy asked db) :
    ∃ db', t.Answers isLazy asked' db' ∧
      ∀ {m' : MvMemory} {outcome : ExecutionOutcome},
        Completes (t.vm.executeAlone version) m ⟨db', .run (.ended o)⟩ m' outcome →
        Completes (t.vm.executeAlone version) m ⟨db, .run program⟩ m' outcome := by
  induction hruns generalizing db with
  | @basic asked asked' a next o hrest ih =>
    have ha : a ∈ t.accounts := hasked a (hrest.subset a (by simp))
    obtain ⟨db₁, h₁, hstep⟩ := h.basic hnonce ha hm next
    obtain ⟨db₂, h₂, hrun⟩ := ih hasked h₁
    exact ⟨db₂, h₂, fun hend => hstep (hrun hend)⟩
  | finish => exact ⟨db, h, fun hend => hend⟩
  | fail => exact ⟨db, h, fun hend => hend⟩

theorem memory_newBytecodes (t : Transfer T) : t.memory.newBytecodes = fun _ => none := rfl

/-- The accounts a run may ask for. -/
theorem asked_mem : ∀ b ∈ t.env.caller :: t.recipient ::
    t.env.authorizationList.filterMap t.revm.authority, b ∈ t.accounts := by
  intro b hb
  unfold accounts
  simp only [List.mem_cons, List.mem_append] at hb ⊢
  tauto

/-- A transaction that revm rejects is not executed. -/
theorem fails_of_rejects {err : InvalidTransaction} (hnonce : t.NonceMatches isLazy)
    (h : t.revm.rejects t.env t.hasNonce ((t.view isLazy).info t.env.caller) = some err) :
    ∃ e, Completes (t.vm.executeAlone version) t.memory (t.execution isLazy) t.memory (.error e) := by
  have hruns := t.revm.runs_transfer (t.view isLazy) t.hasNonce t.asked_mem
  rw [h] at hruns
  obtain ⟨asked, hasked, hruns⟩ := hruns
  have hmem : ∀ b ∈ asked, b ∈ t.accounts := fun b hb => hasked b hb ▸ caller_mem
  obtain ⟨db', -, hrest⟩ :=
    (t.answers_start isLazy).runs hruns hnonce hmem t.memory_newBytecodes
  exact ⟨_, hrest (.ret rfl)⟩

/-- Nor is one whose sender has another nonce. -/
theorem fails_of_nonce (h : ¬ t.NonceMatches false) :
    ∃ e, Completes (t.vm.executeAlone version) t.memory (t.execution false) t.memory (.error e) := by
  obtain ⟨hhas, account, hbasic, hne⟩ : t.chain.hasNonce t.tx = true ∧
      ∃ account, t.pre.basic t.env.caller = some account ∧ account.nonce ≠ t.env.nonce := by
    simpa [NonceMatches] using h
  have hanswers := t.answers_start false
  cases hcheck : t.revm.check t.hasNonce t.env with
  | some err =>
    have hevm : t.vm.evm t.tx = .fail (.transaction err) := by
      show t.revm.transfer t.env t.hasNonce t.recipient = _
      simp only [Revm.transfer, hcheck]
    refine ⟨Vm.evmError version (.transaction err), .ret ?_⟩
    simp only [Vm.executeAlone, execution, hevm, Vm.executeStep]
  | none =>
    obtain ⟨next, hevm⟩ : ∃ next, t.vm.evm t.tx = .basic t.env.caller next := by
      show ∃ next, t.revm.transfer t.env t.hasNonce t.recipient = .basic t.env.caller next
      simp only [Revm.transfer, hcheck]
      exact ⟨_, rfl⟩
    obtain ⟨db', h', hread⟩ := hanswers.readBasic_eq (a := t.env.caller) (m := t.memory)
    have herror : t.vm.readBasic t.memory 0 (t.execution false).db t.env.caller =
        .error (.invalidNonce 0) := by
      rw [hread, hbasic]
      have hcheckNonce : Vm.checkNonce 0 db' (t.hash (.basic t.env.caller)) account.nonce =
          .error (.invalidNonce 0) := by
        rw [Vm.checkNonce, h'.hasNonce, h'.fromHash, h'.tx, if_pos ⟨hhas, rfl, hne.symm⟩]
        rfl
      simp only [hcheckNonce]
      rfl
    refine ⟨VmExecutionError.ofReadError (.invalidNonce 0), .ret ?_⟩
    have hpc : (t.execution false).pc = .run (.basic t.env.caller next) := by
      rw [execution, hevm]
    simp [Vm.executeAlone, Vm.executeStep, hpc, hanswers.lazy, version, herror]

end Transfer

end Pevm
