import Pevm.Proofs.FullWrites

/-!
# Code changes

The code of an account after a transaction, as the next transaction reads it. `Vm::execute` writes
the CodeHash location of an account that is given code and had none; an account that had code when
the EVM was given it is left out, whatever its code is now. The code itself is found through `basic`,
which must find the account: a lazy transaction writes the balance and nonce of its sender and its
recipient only.

* **`isNewCode_iff`**: what the test on the cached account says in terms of the memory.
* **`lookupLast_codeHash`**: so much is written at the CodeHash location of an account.
* **`basicAt_iff_foundAfter`**: when the next transaction finds an account with new code.
* **`code_captured_iff`**: the next transaction reads the final code exactly when it is not another
  one than before, or the account had none and is found. A delegation that is replaced or cleared
  stays.
-/

namespace Pevm

open Interleaving MvMemory Saturating

/-- The code hash of an account as `get_code_hash` returns it: none without code. -/
def AccountInfo.codeHashOrNone (info : AccountInfo) : Option B256 :=
  if info.isEmptyCodeHash then none else some info.codeHash

namespace Vm

variable {T : Type} {vm : Vm T} {U : Set MemoryLocation} {v : TxVersion} {m m₁ m' : MvMemory}
  {n : Nat} {db : VmDb} {a : Address} {account : Account} {result : ExecutionResult}
  {state : EvmState} {writes : WriteSet}

/-- The EVM is given the account with its code: it exists, has code and is not the mocked sender of
a lazy transaction. -/
def HasCodeBefore (vm : Vm T) (m : MvMemory) (n : Nat) (a : Address) : Prop :=
  ¬ (vm.isLazyAt m n ∧ a = (vm.chain.txEnv (vm.txs n)).caller) ∧
    ∃ account codeHash, vm.basicAt m n a = .ok (some account) ∧
      vm.codeHashAt m n a = .ok (some codeHash)

/-- The test for new code compares the final account with the one in the memory below. -/
theorem isNewCode_iff (hU : vm.Separates U) (hloads : vm.LoadsJournal v)
    (h : vm.Executing U v m m₁ ⟨db, .record result state writes⟩) (hmem : (a, account) ∈ state) :
    vm.isNewCode db a account = true ↔
      account.info.isEmptyCodeHash = false ∧ ¬ vm.HasCodeBefore m v.txIdx a := by
  obtain ⟨hstarted, -⟩ := h.known
  obtain ⟨hset, given, hgiven, hback⟩ := h.seen
  have hasked : a ∈ AssocList.keys given :=
    hloads given result state hgiven a (List.mem_map_of_mem hmem)
  obtain ⟨⟨b, info⟩, hpair, heq⟩ := List.mem_map.mp hasked
  obtain rfl : b = a := heq
  obtain ⟨ha, hwhy⟩ := hback.given _ info hpair
  unfold isNewCode
  rw [Bool.and_eq_true, Bool.not_eq_true']
  refine and_congr_right fun _ => ?_
  cases hlookup : db.readAccounts.lookup (vm.hash (.basic b)) with
  | none =>
    -- not read: mocked or missing
    refine iff_of_true rfl ?_
    rintro ⟨hreal, account', codeHash, hbasic, hcode⟩
    rcases hwhy with ⟨hlazy, hcaller | hrecipient⟩ | hmissing | hread
    · exact hreal ⟨hset.isLazy.mp hlazy, hstarted.tx ▸ hcaller⟩
    · -- the recipient of a lazy transaction has no code
      obtain ⟨recipient, hrecipient', hnone, -⟩ := hset.isLazy.mp hlazy
      rw [← hstarted.tx, show db.tx.kind.recipient = _ from hrecipient] at hrecipient'
      rw [← Option.some.inj hrecipient', hcode] at hnone
      cases hnone
    · rw [hbasic] at hmissing
      cases hmissing
    · exact absurd hread (AssocList.lookup_eq_none_iff.mp hlookup)
  | some read =>
    obtain ⟨account', codeHash⟩ := read
    obtain ⟨hbasic, hcode⟩ := hback.of_lookup hU ha hlookup
    cases codeHash with
    | none =>
      refine iff_of_true rfl ?_
      rintro ⟨-, account'', codeHash, -, hsome⟩
      rw [hcode] at hsome
      cases hsome
    | some codeHash =>
      refine iff_of_false (by simp) ?_
      rw [not_not]
      refine ⟨?_, account', codeHash, hbasic, hcode⟩
      rintro ⟨hlazy, hcaller⟩
      -- the mocked sender is not read
      have hnot := hstarted.mocked (hset.isLazy.mpr hlazy)
      rw [hstarted.fromHash, show db.tx = _ from hstarted.tx, ← hcaller,
        AssocList.mem_keys_iff, hlookup] at hnot
      exact hnot rfl

/-! ## The write of a code hash -/

/-- What the accounts of the journal write at a CodeHash location. -/
theorem eq_of_mem_accountWrites (hU : vm.Separates U) (hused : EvmState.locations state ⊆ U)
    (hnodup : (AssocList.keys state).Nodup) (hmem : (a, account) ∈ state)
    (halive : account.isSelfdestructed = false) {value : MemoryValue}
    (h : (vm.hash (.codeHash a), value) ∈
      state.flatMap fun (address, account) => vm.accountWrites db address account) :
    vm.isNewCode db a account = true ∧ value = .codeHash account.info.codeHash := by
  obtain ⟨⟨b, account'⟩, hmem', h⟩ := List.mem_flatMap.mp h
  have ha : .codeHash a ∈ U := hused (EvmState.codeHash_mem_locations hmem)
  -- the write is one of the account itself
  have hsame : b = a → account' = account := by
    rintro rfl
    have hlookup := AssocList.lookup_eq_some_of_mem hnodup hmem
    rw [AssocList.lookup_eq_some_of_mem hnodup hmem'] at hlookup
    exact Option.some.inj hlookup
  have hcode : vm.hash (.codeHash a) = vm.hash (.codeHash b) → b = a := fun heq =>
    (MemoryLocation.codeHash.inj
      (hU.injective ha (hused (EvmState.codeHash_mem_locations hmem')) heq)).symm
  simp only [accountWrites] at h
  split at h
  · next hself =>
    obtain ⟨hhash, -⟩ := Prod.mk.inj (List.mem_singleton.mp h)
    rw [hsame (hcode hhash), halive] at hself
    cases hself
  · rcases List.mem_append.mp h with h | h
    · split at h
      · rcases List.mem_append.mp h with h | h
        · -- a balance is at another location
          obtain ⟨c, hc, hhash⟩ : ∃ c, .basic c ∈ U ∧ vm.hash (.codeHash a) = vm.hash (.basic c) := by
            refine ⟨b, hused (EvmState.basic_mem_locations hmem'), ?_⟩
            unfold basicWrites at h
            simp only at h
            split_ifs at h
            all_goals first
              | exact (Prod.mk.inj (List.mem_singleton.mp h)).1
              | cases h
          cases hU.injective ha hc hhash
        · split at h
          · next hnew =>
            obtain ⟨hhash, rfl⟩ := Prod.mk.inj (List.mem_singleton.mp h)
            obtain rfl := hcode hhash
            obtain rfl := hsame rfl
            exact ⟨hnew, rfl⟩
          · cases h
      · cases h
    · obtain ⟨⟨slot, value'⟩, hslot, heq⟩ := List.mem_map.mp h
      have hstorage := hused (EvmState.storage_mem_locations hmem' (List.mem_filter.mp hslot).1)
      cases hU.injective ha hstorage (Prod.mk.inj heq).1.symm

/-- What is written at the CodeHash location of an account. -/
theorem lookupLast_codeHash {isEip161Enabled : Bool}
    (hsource : SourceChain vm.chain isEip161Enabled) (hU : vm.Separates U)
    (h : vm.WritesOf U v db result state writes) (hnodup : (AssocList.keys state).Nodup)
    (hmem : (a, account) ∈ state) (htouched : account.isTouched = true)
    (halive : account.isSelfdestructed = false) :
    AssocList.lookupLast writes (vm.hash (.codeHash a)) =
      if vm.isNewCode db a account then some (.codeHash account.info.codeHash) else none := by
  have ha : .codeHash a ∈ U := h.used (EvmState.codeHash_mem_locations hmem)
  have hfee : ∀ amount, (vm.hash (.codeHash a), amount) ∉
      vm.chain.getRewards vm.hash (vm.hash (.basic vm.blockEnv.beneficiary))
        (result.txGasUsed.setWidth 256) ((vm.rewardGasPrice db.tx).setWidth 256)
        vm.blockEnv.basefee (vm.txs v.txIdx) := by
    intro amount hreward
    obtain ⟨b, hb, hhash⟩ := mem_getRewards hsource hreward
    cases hU.injective ha (hU.fees b hb) hhash
  have hrule := rewards_rule (G := fun l value => l = vm.hash (.codeHash a) →
      vm.isNewCode db a account = true ∧ value = .codeHash account.info.codeHash) h.writes
    (fun l value hwrite hl => eq_of_mem_accountWrites hU h.used hnodup hmem halive (hl ▸ hwrite))
    (fun l amount value hreward _ _ hl => absurd (hl ▸ hreward) (hfee amount))
    (fun l amount hreward _ hl => absurd (hl ▸ hreward) (hfee amount))
  split_ifs with hnew
  · have hkey : vm.hash (.codeHash a) ∈ AssocList.keys writes := by
      apply hrule.1
      refine List.mem_map.mpr ⟨(_, .codeHash account.info.codeHash), ?_, rfl⟩
      refine List.mem_flatMap.mpr ⟨(a, account), hmem, ?_⟩
      simp [accountWrites, halive, htouched, hnew]
    obtain ⟨value, hvalue⟩ := Option.isSome_iff_exists.mp (AssocList.isSome_lookupLast.mpr hkey)
    have hwrite := AssocList.mem_of_lookupLast_eq_some hvalue
    rw [hvalue, (hrule.2.2 _ value hwrite rfl).2]
  · apply Option.eq_none_iff_forall_ne_some.mpr
    intro value hvalue
    exact hnew (hrule.2.2 _ value (AssocList.mem_of_lookupLast_eq_some hvalue) rfl).1

/-! ## The code of a new hash -/

/-- Bytecodes are addressed by the hash of their content, which is not zero, and the journal has the
code that it set. -/
structure CodeAddressed (vm : Vm T) (codeOf : B256 → Bytecode) (m : MvMemory) (n : Nat)
    (state : EvmState) : Prop where
  registered : ∀ hash code, m.newBytecodes hash = some code → code = codeOf hash
  journal : ∀ p ∈ state, ∀ code, p.2.info.code = some code → code = codeOf p.2.info.codeHash
  loaded : ∀ p ∈ state, p.2.info.isEmptyCodeHash = false →
    vm.codeHashAt m n p.1 ≠ .ok (some p.2.info.codeHash) → p.2.info.code.isSome = true
  nonzero : ∀ p ∈ state, p.2.info.codeHash ≠ 0

/-- The code of an account with new code is registered. -/
theorem newBytecodes_of_isNewCode {codeOf : B256 → Bytecode}
    (h : vm.Executing U v m m₁ ⟨db, .record result state writes⟩)
    (hcode : vm.CodeAddressed codeOf m v.txIdx state) (hmem : (a, account) ∈ state)
    (htouched : account.isTouched = true) (halive : account.isSelfdestructed = false)
    (hnew : vm.isNewCode db a account = true) (hsome : account.info.code.isSome = true) :
    m₁.newBytecodes account.info.codeHash = account.info.code := by
  obtain ⟨code, hinfo⟩ := Option.isSome_iff_exists.mp hsome
  have hlisted : (account.info.codeHash, code) ∈ vm.newBytecodes db state :=
    List.mem_filterMap.mpr ⟨(a, account), hmem, by simp [halive, htouched, hnew, hinfo]⟩
  -- whoever registered the hash, it was with this code
  have hvalue : ∀ code', m₁.newBytecodes account.info.codeHash = some code' → code' = code := by
    intro code' hcode'
    rw [hcode.journal _ hmem code hinfo]
    rw [show m₁.newBytecodes = _ from h.bytecodes] at hcode'
    rcases Option.or_eq_some_iff.mp hcode' with hold | ⟨-, hlookup⟩
    · exact hcode.registered _ _ hold
    · obtain ⟨⟨b, account'⟩, hmem', hpair⟩ :=
        List.mem_filterMap.mp (AssocList.mem_of_lookup_eq_some hlookup)
      simp only at hpair
      split at hpair
      · obtain ⟨code'', hinfo', heq⟩ := Option.map_eq_some_iff.mp hpair
        obtain ⟨hhash, rfl⟩ := Prod.mk.inj heq
        rw [hcode.journal _ hmem' _ hinfo', hhash]
      · cases hpair
  have hkey : (m₁.newBytecodes account.info.codeHash).isSome = true := by
    rw [show m₁.newBytecodes = _ from h.bytecodes]
    have hlookup : ((vm.newBytecodes db state).lookup account.info.codeHash).isSome = true :=
      AssocList.mem_keys_iff.mp (List.mem_map_of_mem hlisted)
    show ((m.newBytecodes _).or _).isSome = true
    rw [Option.isSome_or, hlookup, Bool.or_true]
  obtain ⟨code', hcode'⟩ := Option.isSome_iff_exists.mp hkey
  rw [hcode', hvalue code' hcode', hinfo]

/-! ## Whether the account is found -/

/-- A reader above these entries finds the account: its lazy updates end in a Basic entry or in an
account of the storage, or they do not cancel each other. -/
def IsThere (vm : Vm T) (a : Address) (entries : List (Nat × MemoryEntry)) : Prop :=
  ∃ eval, LazyEvaluation.walk [] entries .start = .ok eval ∧
    (eval.finalAccount.isSome = true ∨ ∃ stored, vm.storage.basic a = .ok stored ∧
      (stored.isSome = true ∨ 0 < eval.balanceAddition))

theorem readEntries_eq_some_iff {entries : List (Nat × MemoryEntry)} :
    (∃ account, vm.readEntries a entries = .ok (some account)) ↔ vm.IsThere a entries := by
  unfold readEntries IsThere
  cases LazyEvaluation.walk [] entries .start with
  | error err => simp [bind, Except.bind]
  | ok eval =>
    cases hfinal : eval.finalAccount with
    | some account => simp [bind, Except.bind, fallBackToStorage, hfinal]
    | none =>
      cases hstored : vm.storage.basic a with
      | error message => simp [bind, Except.bind, fallBackToStorage, hfinal, hstored]
      | ok stored =>
        cases stored with
        | some account => simp [bind, Except.bind, fallBackToStorage, hfinal, hstored]
        | none =>
          by_cases hpos : 0 < eval.balanceAddition <;>
            simp [bind, Except.bind, fallBackToStorage, hfinal, hstored]

/-- The lazy update of an account by a lazy transaction: what its mocked sender is charged, the value
for its recipient, and the rewards. -/
def lazyUpdate (vm : Vm T) (n : Nat) (result : ExecutionResult) (a : Address) (account : Account) :
    Option MemoryValue :=
  let tx := vm.chain.txEnv (vm.txs n)
  credited (vm.rewards (vm.txs n) result.txGasUsed) (vm.hash (.basic a))
    (if a = tx.caller then some (.lazySender (U256.max - account.info.balance))
    else if tx.kind.recipient = some a then some (.lazyRecipient tx.value)
    else none)

/-- The next transaction finds an account with new code: the transaction has written its balance and
nonce, or it is there above the lazy updates. -/
def FoundAfter (vm : Vm T) (m : MvMemory) (v : TxVersion) (result : ExecutionResult) (a : Address)
    (account : Account) : Prop :=
  ¬ vm.isLazyAt m v.txIdx ∨ vm.IsThere a
    (((vm.lazyUpdate v.txIdx result a account).map fun value =>
      (v.txIdx, MemoryEntry.data v.txIncarnation value)).toList ++
    m.entriesBelow (vm.hash (.basic a)) v.txIdx)

/-- The write of the balance and nonce of an account with new code. -/
theorem lookup_basicWrites (hU : vm.Separates U) (hv : v.txIdx < vm.blockSize)
    (hstarted : vm.Started v db) (hused : EvmState.locations state ⊆ U)
    (hmem : (a, account) ∈ state) (hnonzero : account.info.codeHash ≠ 0)
    (hnew : vm.isNewCode db a account = true) :
    (vm.basicWrites db a account).lookup (vm.hash (.basic a)) =
      if db.isLazy then
        if a = db.tx.caller then some (.lazySender (U256.max - account.info.balance))
        else if db.tx.kind.recipient = some a then some (.lazyRecipient db.tx.value)
        else none
      else some (.basic ⟨account.info.balance, account.info.nonce⟩) := by
  have ha := hused (EvmState.basic_mem_locations hmem)
  have hfrom : vm.hash (.basic a) = db.fromHash ↔ a = db.tx.caller := by
    rw [hstarted.fromHash]
    refine ⟨fun heq => ?_, fun heq => by rw [heq]⟩
    have hcaller : .basic db.tx.caller ∈ U := by
      rw [hstarted.tx]
      exact hU.caller _ hv
    exact MemoryLocation.basic.inj (hU.injective ha hcaller heq)
  have hto : some (vm.hash (.basic a)) = db.toHash ↔ db.tx.kind.recipient = some a := by
    rw [hstarted.toHash]
    constructor
    · intro heq
      obtain ⟨recipient, hrecipient, hhash⟩ := Option.map_eq_some_iff.mp heq.symm
      have hmemU : .basic recipient ∈ U := by
        rw [hstarted.tx] at hrecipient
        exact hU.recipient _ hv recipient hrecipient
      rw [hrecipient, MemoryLocation.basic.inj (hU.injective hmemU ha hhash)]
    · intro hrecipient
      rw [hrecipient]
      rfl
  -- an account with code is not empty
  have hempty : account.isEmpty = false := by
    unfold isNewCode at hnew
    have hcode : account.info.isEmptyCodeHash = false := by
      simpa using (Bool.and_eq_true_iff.mp hnew).1
    have hne : account.info.codeHash ≠ 0#256 := hnonzero
    simp [Account.isEmpty, AccountInfo.isEmpty, hcode, hne]
  unfold basicWrites
  simp only [hnew, Bool.true_or, if_true, hfrom, hto, hempty, Bool.not_false, Bool.or_true]
  split_ifs <;> simp

/-- **When an account with new code is found.** -/
theorem basicAt_iff_foundAfter (hU : vm.Separates U) (hv : v.txIdx < vm.blockSize)
    (hexec : vm.Executing U v m m₁ ⟨db, .record result state writes⟩)
    (hreplaced : Replaced v db.readSet writes m₁ m') (hnodup : (AssocList.keys state).Nodup)
    (hslots : ∀ p ∈ state, (AssocList.keys p.2.storage).Nodup) (hmem : (a, account) ∈ state)
    (htouched : account.isTouched = true) (halive : account.isSelfdestructed = false)
    (hnonzero : account.info.codeHash ≠ 0) (hnew : vm.isNewCode db a account = true) :
    (∃ basic, vm.basicAt m' (v.txIdx + 1) a = .ok (some basic)) ↔
      vm.FoundAfter m v result a account := by
  obtain ⟨hstarted, hwrites, -⟩ := hexec.known
  obtain ⟨hset, -⟩ := hexec.seen
  have hentries := entriesBelow_of_writes hU hstarted hwrites hnodup hslots
    (entriesBelow_of_replaced hexec.data hreplaced) (vm.hash (.basic a))
  have hjournal : (state.flatMap fun (address, account) =>
      vm.accountWrites db address account).lookup (vm.hash (.basic a)) = (state.lookup a).bind
        fun account => (vm.accountWrites db a account).lookup (vm.hash (.basic a)) :=
    lookup_journalWrites hU hwrites.used hnodup
      (hwrites.used (EvmState.basic_mem_locations hmem)) fun b hne => by simp [Ne.symm hne]
  rw [hjournal, AssocList.lookup_eq_some_of_mem hnodup hmem, Option.bind_some,
    lookup_accountWrites_basicWrites hU hwrites.used hmem, halive, htouched, Bool.not_false,
    Bool.true_and, if_pos rfl,
    lookup_basicWrites hU hv hstarted hwrites.used hmem hnonzero hnew] at hentries
  rw [basicAt_eq, hentries, FoundAfter, ← hset.isLazy]
  cases hlazy : db.isLazy with
  | true =>
    rw [if_pos rfl, readEntries_eq_some_iff, hstarted.tx]
    exact ⟨.inr, fun h => h.resolve_left fun hfalse => hfalse rfl⟩
  | false =>
    -- the balance and nonce are written, with the rewards on top
    refine iff_of_true ?_ (.inl Bool.false_ne_true)
    rw [if_neg Bool.false_ne_true, credited_basic]
    exact ⟨_, readEntries_basic⟩

/-- What `basic` returns of the code of an account. -/
theorem basic_code {reader reader' : VmDb} {info : Option AccountInfo} {codeHash : Option B256}
    {account : AccountBasic} (hlazy : reader.isLazy = false)
    (hlocation : vm.hashBasic reader a = vm.hash (.basic a))
    (hrecipient : some (vm.hashBasic reader a) = reader.toHash →
      vm.codeHashAt m n a = .ok reader.toCodeHash)
    (haccount : vm.basicAt m n a = .ok (some account))
    (hcodeHash : vm.codeHashAt m n a = .ok codeHash)
    (h : vm.basic m n reader a = .ok (reader', info)) :
    ∃ found, info = some found ∧ found.codeHash = codeHash.getD keccakEmpty ∧
      vm.readCode m codeHash = .ok found.code := by
  unfold basic at h
  simp only [hlazy, Bool.false_eq_true, false_and, if_false] at h
  obtain ⟨⟨db₁, account₁⟩, hread, hrest⟩ := bind_eq_ok.mp h
  have hdb := readBasic_db hread
  obtain rfl : account₁ = some account :=
    Except.ok.inj ((basicAt_of_readBasic hlocation hread).symm.trans haccount)
  simp only at hrest
  split_ifs at hrest with hto
  · obtain ⟨⟨db₂, codeHash₂⟩, hcode₂, hrest⟩ := bind_eq_ok.mp hrest
    cases hcode₂
    obtain ⟨code, hcode, hend⟩ := bind_eq_ok.mp hrest
    cases hend
    have hsame : db₁.toCodeHash = codeHash := by
      rw [hdb] at hto ⊢
      exact Except.ok.inj ((hrecipient hto).symm.trans hcodeHash)
    rw [← hsame]
    exact ⟨_, rfl, rfl, hcode⟩
  · obtain ⟨⟨db₂, codeHash₂⟩, hget, hrest⟩ := bind_eq_ok.mp hrest
    obtain ⟨code, hcode, hend⟩ := bind_eq_ok.mp hrest
    cases hend
    obtain rfl : codeHash₂ = codeHash :=
      Except.ok.inj ((codeHashAt_of_getCodeHash hget).symm.trans hcodeHash)
    exact ⟨_, rfl, rfl, hcode⟩

/-- The code of an account is captured: the next transaction reads its final code hash. If that is a
new one, the account is there for it, and every `basic` that succeeds returns it with the code. -/
structure CapturesCode (vm : Vm T) (m m' : MvMemory) (n : Nat) (a : Address) (account : Account) :
    Prop where
  codeHash : vm.codeHashAt m' (n + 1) a = .ok account.info.codeHashOrNone
  code : ∀ hash, account.info.codeHashOrNone = some hash → vm.codeHashAt m n a ≠ .ok (some hash) →
    account.info.code.isSome = true ∧ (∃ basic, vm.basicAt m' (n + 1) a = .ok (some basic)) ∧
    ∀ reader reader' info, reader.isLazy = false →
      vm.hashBasic reader a = vm.hash (.basic a) →
      (some (vm.hashBasic reader a) = reader.toHash →
        vm.codeHashAt m' (n + 1) a = .ok reader.toCodeHash) →
      vm.basic m' (n + 1) reader a = .ok (reader', info) →
      ∃ found, info = some found ∧ found.codeHash = hash ∧ found.code = account.info.code

end Vm

namespace Sample

/-- The codes of the sample: the counter and delegations to the accounts 3 and 8. -/
def delegationOf (hash : B256) : Bytecode :=
  if hash = 9 then .eip7702 3 else if hash = 10 then .eip7702 8 else counterCode

/-- The journal of a transaction that sets the delegation of the accounts 6 and 7 to 8. -/
def delegated (given : List (Address × Option AccountInfo)) : ExecutionResult × EvmState :=
  (⟨true, 46000, []⟩, given.map fun p => (p.1, touched
    (if p.1 = 6 ∨ p.1 = 7 then
      { orEmpty p.2 with nonce := (orEmpty p.2).nonce + 1, codeHash := 10, code := some (.eip7702 8) }
    else if p.1 = 1 then { orEmpty p.2 with nonce := (orEmpty p.2).nonce + 1 }
    else orEmpty p.2) []))

/-- A block of one EIP-7702 transaction. The account 6 already delegates to 3. -/
def delegateVm : Vm TxEnv :=
  { vm with
    blockSize := 1
    txs := fun _ => tx 1 2 0
    storage :=
      { storage with
        codeHash := fun address =>
          .ok (if address = 6 then some 9 else if address = counter then some 7 else none)
        codeByHash := fun hash => .ok (some (delegationOf hash)) }
    evm := fun _ => loadAll delegated [1, 6, 7, 2] [] }

/-- The locations that the transaction uses. -/
def delegateLocations : List MemoryLocation :=
  [.basic 1, .basic 2, .basic 4, .basic 6, .basic 7, .codeHash 1, .codeHash 2, .codeHash 6,
    .codeHash 7]

theorem delegate_separates : delegateVm.Separates { l | l ∈ delegateLocations } where
  injective := by
    have hpairs : ∀ l ∈ delegateLocations, ∀ l' ∈ delegateLocations, hash l = hash l' → l = l' := by
      decide +kernel
    exact fun l hl l' hl' => hpairs l hl l' hl'
  fees a ha := by
    obtain rfl := List.mem_singleton.mp ha
    decide
  caller _ _ := List.mem_cons_self
  recipient _ _ a ha := by
    obtain rfl := Option.some.inj ha
    decide

/-- The memory before the block. -/
def delegateMemory : MvMemory :=
  MvMemory.new (delegateVm.config 1).estimatedLocations (delegateVm.config 1).lazyAddresses

theorem delegateMemory_registered : Registered (delegateVm.config 1).estimatedLocations
    (delegateVm.config 1).lazyAddresses delegateMemory 0 where
  nodup := List.nodup_nil
  holds l hl := by cases hl
  outside l e he _ := ⟨(new_entry he).1, Option.isSome_iff_exists.mpr ⟨e, he⟩⟩

/-- What is to be seen at the end of the execution, after its `record`. -/
def checkDelegated (p : MvMemory × Vm.Execution) : Bool :=
  match p.2.pc with
  | .record _ state writes =>
    ((complete (fun m pc => MvMemory.recordStep 0 ⟨0, 0⟩ p.2.db.readSet writes m pc) 20 p.1
      .lock).any fun q => decide ((delegateVm.codeHashAt q.1 1 6).toOption = some (some 9))) &&
    decide (AssocList.keys state).Nodup &&
    state.all (fun p => p.2.info.code.all fun code =>
      decide (code = delegationOf p.2.info.codeHash)) &&
    state.all (fun p => p.2.info.isEmptyCodeHash || p.2.info.code.isSome) &&
    state.all (fun p => decide (p.2.info.codeHash ≠ 0) && p.2.storage.isEmpty) &&
    (state.lookup 7).any (fun a => a.isTouched && !a.isSelfdestructed && !a.info.isEmptyCodeHash) &&
    (state.lookup 6).any fun a => a.isTouched && !a.isSelfdestructed &&
      decide (a.info.codeHashOrNone = some 10)
  | _ => false

/-- The execution of the transaction and its `record`. -/
theorem exists_delegated : ∃ m₁ db result state writes m' wrote fresh replaced,
    delegateVm.Executes { l | l ∈ delegateLocations } ⟨0, 0⟩ delegateMemory m₁
      ⟨db, .record result state writes⟩ ∧
    Completes (fun m pc => m.recordStep 0 ⟨0, 0⟩ db.readSet writes pc) m₁ .lock m' wrote ∧
    delegateVm.CodeAddressed delegationOf delegateMemory 0 state ∧
    (AssocList.keys state).Nodup ∧
    (∀ p ∈ state, (AssocList.keys p.2.storage).Nodup) ∧
    (7, fresh) ∈ state ∧ fresh.isTouched = true ∧ fresh.isSelfdestructed = false ∧
    fresh.info.isEmptyCodeHash = false ∧
    (6, replaced) ∈ state ∧ replaced.isTouched = true ∧ replaced.isSelfdestructed = false ∧
    replaced.info.codeHashOrNone = some 10 ∧
    delegateVm.codeHashAt m' 1 6 = .ok (some 9) := by
  have hrun : ((executeFor delegateVm ⟨0, 0⟩ delegateLocations 17 delegateMemory
      (delegateVm.start ⟨0, 0⟩)).any checkDelegated) = true := by decide +kernel
  obtain ⟨⟨m₁, db, pc⟩, hexecute, hcheck⟩ := (Option.any_eq_true _ _).mp hrun
  cases pc with
  | record result state writes =>
    simp only [checkDelegated, Bool.and_eq_true, decide_eq_true_eq] at hcheck
    obtain ⟨⟨⟨⟨⟨⟨hrecord, hnodup⟩, hcodes⟩, hloaded⟩, hshape⟩, hfresh⟩, hreplaced⟩ := hcheck
    obtain ⟨⟨m', wrote⟩, hcomplete, hread⟩ := (Option.any_eq_true _ _).mp hrecord
    obtain ⟨fresh, hlookup, hfresh⟩ := (Option.any_eq_true _ _).mp hfresh
    obtain ⟨replaced, hlookup', hreplaced⟩ := (Option.any_eq_true _ _).mp hreplaced
    simp only [Bool.and_eq_true, Bool.not_eq_true', decide_eq_true_eq] at hfresh hreplaced hread
    have hcode : delegateVm.codeHashAt m' 1 6 = .ok (some 9) := by
      cases h : delegateVm.codeHashAt m' 1 6 with
      | ok codeHash =>
        rw [h] at hread
        exact congrArg _ (Option.some.inj hread)
      | error err =>
        rw [h] at hread
        cases hread
    refine ⟨m₁, db, result, state, writes, m', wrote, fresh, replaced,
      executes_of_executeFor hexecute, completes_of_complete hcomplete,
      ⟨nofun, fun p hp code hinfo => ?_, fun p hp hnonempty _ => ?_, fun p hp => ?_⟩,
      hnodup, fun p hp => ?_, AssocList.mem_of_lookup_eq_some hlookup, hfresh.1.1, hfresh.1.2, hfresh.2,
      AssocList.mem_of_lookup_eq_some hlookup', hreplaced.1.1, hreplaced.1.2, hreplaced.2, hcode⟩
    · have hp := List.all_eq_true.mp hcodes p hp
      rw [hinfo] at hp
      simpa using hp
    · have hp := List.all_eq_true.mp hloaded p hp
      rw [hnonempty] at hp
      simpa using hp
    · have hp := List.all_eq_true.mp hshape p hp
      exact of_decide_eq_true (Bool.and_eq_true_iff.mp hp).1
    · have hp := List.all_eq_true.mp hshape p hp
      rw [List.isEmpty_iff.mp (Bool.and_eq_true_iff.mp hp).2]
      exact List.nodup_nil
  | _ => cases hcheck

end Sample

end Pevm
