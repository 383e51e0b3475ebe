import Pevm.Proofs.Commit
import Pevm.Proofs.Serializability

/-!
# The serial execution commits

The serial execution never holds an account: an account is what the writes of the lower transactions
and the rewards among them make of the one in the storage. It is shown here that what it shows after
a transaction is nevertheless what it has shown before, with the journal of the transaction committed
to it (`commits_of_entries`), the rewards included.

Bricks:
* **`readEntries_additive`**: without lazy senders, an account is the last absolute value below the
  reader, or the one in the storage, with the sum of the rewards above it.
* **`Regular`**: what is assumed of revm about a journal.
* **`Written`**: what the next transaction reads of an account, by whether it was written.
-/

namespace Pevm

open Interleaving Scheduler MvMemory Saturating

/-! ## Reads without lazy senders -/

/-- The entry is an absolute value or an addition. -/
def MemoryEntry.IsAdditive (entry : MemoryEntry) : Prop :=
  (∃ k account, entry = .data k (.basic account)) ∨ ∃ k amount, entry = .data k (.lazyRecipient amount)

namespace LazyEvaluation

/-- The absolute value that a walk ends at. -/
def base : List (Nat × MemoryEntry) → Option AccountBasic
  | [] => none
  | (_, .data _ (.basic account)) :: _ => some account
  | _ :: entries => base entries

/-- The sum of the additions above it. -/
def additions : List (Nat × MemoryEntry) → Nat
  | (_, .data _ (.lazyRecipient amount)) :: entries => amount.toNat + additions entries
  | _ => 0

theorem walk_additive {entries : List (Nat × MemoryEntry)}
    (hadditive : ∀ p ∈ entries, p.2.IsAdditive) (acc : LazyEvaluation)
    (hpositive : acc.positiveAddition = true) (hfinal : acc.finalAccount = none) :
    ∃ eval, walk [] entries acc = .ok eval ∧ eval.finalAccount = base entries ∧
      eval.positiveAddition = true ∧ eval.nonceAddition = acc.nonceAddition ∧
      eval.balanceAddition.toNat =
        min (acc.balanceAddition.toNat + additions entries) (2 ^ 256 - 1) := by
  induction entries generalizing acc with
  | nil =>
    have hlt := acc.balanceAddition.isLt
    refine ⟨acc, rfl, hfinal, hpositive, rfl, ?_⟩
    show _ = min (_ + 0) _
    omega
  | cons p entries ih =>
    obtain ⟨i, entry⟩ := p
    have hrest := fun q hq => hadditive q (List.mem_cons_of_mem _ hq)
    rcases hadditive (i, entry) List.mem_cons_self with ⟨k, account, hentry⟩ | ⟨k, amount, hentry⟩
    · obtain rfl : entry = .data k (.basic account) := hentry
      have hlt := acc.balanceAddition.isLt
      refine ⟨{ acc with
        newOrigins := acc.newOrigins ++ [.mvMemory ⟨i, k⟩]
        finalAccount := some account }, ?_, rfl, hpositive, rfl, ?_⟩
      · simp only [walk, ne_eq, not_true_eq_false, false_and, if_false]
      · show _ = min (_ + 0) _
        show acc.balanceAddition.toNat = _
        omega
    · obtain rfl : entry = .data k (.lazyRecipient amount) := hentry
      obtain ⟨eval, hwalk, hbase, hpos, hnonce, hsum⟩ := ih hrest
        { acc with
          newOrigins := acc.newOrigins ++ [.mvMemory ⟨i, k⟩]
          balanceAddition := saturatingAdd acc.balanceAddition amount } hpositive hfinal
      refine ⟨eval, ?_, hbase, hpos, hnonce, ?_⟩
      · simp only [walk, ne_eq, not_true_eq_false, false_and, if_false, addRecipient, hpositive,
          if_true]
        simpa only [hpositive] using hwalk
      · rw [hsum, toNat_saturatingAdd]
        show _ = min (_ + (amount.toNat + additions entries)) _
        omega

end LazyEvaluation

namespace Vm

variable {T : Type} {vm : Vm T} {a : Address}

/-- **Without lazy senders** an account is its base with the additions above it. -/
theorem readEntries_additive {stored : Option AccountBasic} {entries : List (Nat × MemoryEntry)}
    (hstored : vm.storage.basic a = .ok stored) (hadditive : ∀ p ∈ entries, p.2.IsAdditive) :
    vm.readEntries a entries = .ok (AccountBasic.rewarded
      ((LazyEvaluation.base entries).or stored) (LazyEvaluation.additions entries)) := by
  obtain ⟨eval, hwalk, hbase, hpositive, hnonce, hsum⟩ :=
    LazyEvaluation.walk_additive hadditive .start rfl rfl
  have hsum' : eval.balanceAddition.toNat =
      min (0 + LazyEvaluation.additions entries) (2 ^ 256 - 1) := hsum
  have hplus : ∀ (eval' : LazyEvaluation) (account : AccountBasic),
      eval'.positiveAddition = true → eval'.nonceAddition = 0 →
      eval'.balanceAddition = eval.balanceAddition →
      eval'.apply account = account.plus (LazyEvaluation.additions entries) := by
    intro eval' account hpositive' hnonce' hbalance'
    apply AccountBasic.eq_plus
    · unfold LazyEvaluation.apply
      rw [hpositive', if_pos rfl, toNat_saturatingAdd, hbalance', hsum']
      omega
    · show account.nonce + eval'.nonceAddition = account.nonce
      rw [hnonce']
      exact BitVec.add_zero _
  have hpos : 0 < eval.balanceAddition ↔ 0 < LazyEvaluation.additions entries := by
    show (0 : U256).toNat < eval.balanceAddition.toNat ↔ _
    have hzero : (0 : U256).toNat = 0 := rfl
    omega
  unfold readEntries
  rw [hwalk]
  show (vm.fallBackToStorage [] a eval >>= _) = _
  unfold fallBackToStorage
  rw [hbase]
  cases hb : LazyEvaluation.base entries with
  | some account =>
    show Except.ok (eval.finalAccount.map eval.apply) = Except.ok (some (account.plus _))
    rw [hbase, hb, Option.map_some, hplus eval account hpositive hnonce rfl]
  | none =>
    show ((if _ then _ else _ : Except ReadError LazyEvaluation) >>= _) = _
    rw [if_neg (by simp), hstored]
    cases stored with
    | some account =>
      show Except.ok (some (LazyEvaluation.apply _ account)) = Except.ok (some (account.plus _))
      exact congrArg (fun x => Except.ok (some x)) (hplus _ account hpositive hnonce rfl)
    | none =>
      -- a missing account is one that nothing was added to
      show Except.ok (Option.map (LazyEvaluation.apply _)
        (if 0 < eval.balanceAddition then some .default else none)) = _
      unfold AccountBasic.rewarded
      by_cases hadded : 0 < LazyEvaluation.additions entries
      · rw [if_pos (hpos.mpr hadded), if_pos hadded, Option.map_some]
        exact congrArg (fun x => Except.ok (some x)) (hplus _ .default hpositive hnonce rfl)
      · rw [if_neg (mt hpos.mp hadded), if_neg hadded]
        rfl

/-- A reward above the entries of an account. -/
theorem readEntries_rewarded {stored account : Option AccountBasic}
    {entries : List (Nat × MemoryEntry)} {i k : Nat} {amount : U256}
    (hstored : vm.storage.basic a = .ok stored) (hadditive : ∀ p ∈ entries, p.2.IsAdditive)
    (h : vm.readEntries a entries = .ok account) :
    vm.readEntries a ((i, .data k (.lazyRecipient amount)) :: entries) =
      .ok (AccountBasic.rewarded account amount.toNat) := by
  rw [readEntries_additive hstored hadditive] at h
  obtain rfl := Except.ok.inj h
  have hadditive' : ∀ p ∈ ((i, .data k (.lazyRecipient amount)) :: entries : List (Nat × MemoryEntry)),
      p.2.IsAdditive :=
    List.forall_mem_cons.mpr ⟨.inr ⟨k, amount, rfl⟩, hadditive⟩
  rw [readEntries_additive hstored hadditive', AccountBasic.rewarded_rewarded]
  show Except.ok (AccountBasic.rewarded ((LazyEvaluation.base entries).or stored)
    (amount.toNat + LazyEvaluation.additions entries)) = _
  rw [Nat.add_comm]

end Vm

/-! ## Journals -/

/-- What is assumed of revm about the journal of a transaction, in terms of what the transaction was
shown. -/
structure Regular (U : Set MemoryLocation) (codes : B256 → Bytecode) (shown : Shown)
    (state : EvmState) : Prop where
  used : EvmState.locations state ⊆ U
  /-- a map of accounts -/
  nodup : (AssocList.keys state).Nodup
  /-- each with a map of slots -/
  nodupSlots : ∀ p ∈ state, (AssocList.keys p.2.storage).Nodup
  /-- no contract is destroyed -/
  alive : ∀ p ∈ state, p.2.isSelfdestructed = false
  /-- an account without code has the hash of the empty code -/
  hash : ∀ p ∈ state, p.2.info.codeHash ≠ 0
  /-- code is deployed, and not replaced or removed -/
  code : ∀ p ∈ state, shown.codeHash p.1 = some none ∨
    shown.codeHash p.1 = some p.2.info.codeHashOrNone
  /-- an account that is not touched is as it was loaded -/
  untouched : ∀ p ∈ state, p.2.isTouched = false →
    p.2.info = shown.info codes p.1 ∧ p.2.changedStorageSlots = []
  /-- a slot that is not listed as changed has the value it was read with -/
  slots : ∀ p ∈ state, ∀ q ∈ p.2.storage, q.2.originalValue = q.2.presentValue →
    shown.storage p.1 q.1 = some q.2.presentValue
  /-- EIP-161: a touched account that is empty afterwards was missing before -/
  cleared : ∀ p ∈ state, p.2.isTouched = true → p.2.isEmpty = true → shown.basic p.1 = some none

namespace Vm

variable {T : Type} {vm : Vm T} {U : Set MemoryLocation} {codes : B256 → Bytecode} {m m' : MvMemory}
  {n : Nat} {db : VmDb} {a : Address} {account : Account} {shown : Shown} {state : EvmState}
  {accounts : ReadAccounts}

/-- The accounts that were read are the ones shown. -/
def ReadsOf (vm : Vm T) (U : Set MemoryLocation) (shown : Shown) (accounts : ReadAccounts) : Prop :=
  ∀ l account codeHash, (l, (account, codeHash)) ∈ accounts → ∃ a, .basic a ∈ U ∧
    l = vm.hash (.basic a) ∧ shown.basic a = some (some account) ∧ shown.codeHash a = some codeHash

theorem ReadsOf.of_lookup (hU : vm.Separates U) (h : vm.ReadsOf U shown accounts) (ha : .basic a ∈ U)
    {account : AccountBasic} {codeHash : Option B256}
    (hlookup : accounts.lookup (vm.hash (.basic a)) = some (account, codeHash)) :
    shown.basic a = some (some account) ∧ shown.codeHash a = some codeHash := by
  obtain ⟨b, hb, hhash, hbasic, hcode⟩ := h _ _ _ (AssocList.mem_of_lookup_eq_some hlookup)
  obtain rfl := MemoryLocation.basic.inj (hU.injective ha hb hhash)
  exact ⟨hbasic, hcode⟩

section Account

variable (hU : vm.Separates U) (hregular : Regular U codes shown state)
  (hreads : vm.ReadsOf U shown db.readAccounts)
include hU hregular hreads

/-- The code of an account that is not deployed is the one that was shown. -/
theorem codeHash_of_not_new (hmem : (a, account) ∈ state)
    (hold : account.isTouched = true → vm.isNewCode db a account = false)
    (hclean : shown.CleanAt a) : shown.codeHash a = some account.info.codeHashOrNone := by
  cases htouched : account.isTouched with
  | false =>
    obtain ⟨basic, codeHash, hbasic, hcode, hclean⟩ := hclean
    obtain ⟨hinfo, -⟩ := hregular.untouched _ hmem htouched
    obtain ⟨-, hsame, -⟩ := @Shown.info_spec codes _ _ _ _ hbasic hcode hclean
    rw [hinfo, hsame, hcode]
  | true =>
    rcases hregular.code _ hmem with hnone | hsame
    · -- an account without code that has none now
      have hnew := hold htouched
      unfold isNewCode at hnew
      cases hempty : account.info.isEmptyCodeHash with
      | true =>
        rw [hnone]
        unfold AccountInfo.codeHashOrNone
        rw [hempty, if_pos rfl]
      | false =>
        rw [hempty] at hnew
        cases hlookup : db.readAccounts.lookup (vm.hash (.basic a)) with
        | none =>
          rw [hlookup] at hnew
          cases hnew
        | some read =>
          obtain ⟨basic, codeHash⟩ := read
          rw [hlookup] at hnew
          have hcode := (hreads.of_lookup hU (hregular.used (EvmState.basic_mem_locations hmem))
            hlookup).2
          rw [hnone] at hcode
          obtain rfl := Option.some.inj hcode
          cases hnew
    · exact hsame

/-- An account that is not written was shown as it is in the journal. -/
theorem basic_of_unwritten (hmem : (a, account) ∈ state) (hclean : shown.CleanAt a)
    (hunwritten : ¬ (account.isTouched = true ∧
      (vm.isNewCode db a account = true ∨ vm.isChanged db a account = true) ∧
      account.isEmpty = false)) :
    (shown.basic a).map (·.getD .default) =
        some ⟨account.info.balance, account.info.nonce⟩ ∧
      shown.codeHash a = some account.info.codeHashOrNone := by
  obtain ⟨basic, codeHash, hbasic, hcode, hclean'⟩ := hclean
  cases htouched : account.isTouched with
  | false =>
    obtain ⟨hinfo, -⟩ := hregular.untouched _ hmem htouched
    obtain ⟨hsame, hsameCode, -⟩ := @Shown.info_spec codes _ _ _ _ hbasic hcode hclean'
    rw [hinfo, hbasic, Option.map_some, ← hsame, hsameCode, hcode]
    exact ⟨rfl, rfl⟩
  | true =>
    cases hempty : account.isEmpty with
    | true =>
      -- an empty account is cleared, and was missing
      have hmissing := hregular.cleared _ hmem htouched hempty
      obtain ⟨hnone, hdefault⟩ := (Account.isEmpty_iff (hregular.hash _ hmem)).mp hempty
      rw [hmissing] at hbasic
      obtain rfl := Option.some.inj hbasic
      rw [hmissing, hcode, hnone, hdefault, hclean'.missing rfl]
      exact ⟨rfl, rfl⟩
    | false =>
      obtain ⟨hold, hkept⟩ : vm.isNewCode db a account = false ∧ vm.isChanged db a account = false := by
        constructor
        · by_contra hnew
          exact hunwritten ⟨htouched, .inl (by simpa using hnew), hempty⟩
        · by_contra hchanged
          exact hunwritten ⟨htouched, .inr (by simpa using hchanged), hempty⟩
      refine ⟨?_, codeHash_of_not_new hU hregular hreads hmem (fun _ => hold)
        ⟨basic, codeHash, hbasic, hcode, hclean'⟩⟩
      unfold isChanged at hkept
      cases hlookup : db.readAccounts.lookup (vm.hash (.basic a)) with
      | none =>
        rw [hlookup] at hkept
        cases hkept
      | some read =>
        obtain ⟨basic', codeHash'⟩ := read
        rw [hlookup] at hkept
        obtain ⟨hnonce, hbalance⟩ : basic'.nonce = account.info.nonce ∧
            basic'.balance = account.info.balance := by
          simpa using hkept
        have hread := (hreads.of_lookup hU (hregular.used (EvmState.basic_mem_locations hmem))
          hlookup).1
        rw [hread, ← hnonce, ← hbalance]
        rfl

end Account

/-! ## What the next transaction reads -/

section Journal

variable (hU : vm.Separates U) (hused : EvmState.locations state ⊆ U)
include hU hused

/-- The write of the code hash of an account. -/
theorem lookup_accountWrites_codeHash (hmem : (a, account) ∈ state)
    (halive : account.isSelfdestructed = false) :
    (vm.accountWrites db a account).lookup (vm.hash (.codeHash a)) =
      if account.isTouched && vm.isNewCode db a account then some (.codeHash account.info.codeHash)
      else none := by
  have hcode := hused (EvmState.codeHash_mem_locations hmem)
  have hne : vm.hash (.codeHash a) ≠ vm.hash (.basic a) := fun heq => by
    cases hU.injective hcode (hused (EvmState.basic_mem_locations hmem)) heq
  have hbasic : (vm.basicWrites db a account).lookup (vm.hash (.codeHash a)) = none := by
    unfold basicWrites
    simp only
    split_ifs <;> simp [AssocList.lookup_cons, hne]
  have hslots : (account.changedStorageSlots.map fun p =>
      (vm.hash (.storage a p.1), MemoryValue.storage p.2.presentValue)).lookup
        (vm.hash (.codeHash a)) = none := by
    apply AssocList.lookup_eq_none_iff.mpr
    intro hkey
    obtain ⟨_, hwrite, heq⟩ := List.mem_map.mp hkey
    obtain ⟨p, hp, rfl⟩ := List.mem_map.mp hwrite
    have hstorage := hused (EvmState.storage_mem_locations hmem (List.mem_filter.mp hp).1)
    cases hU.injective hcode hstorage heq.symm
  unfold accountWrites
  rw [halive, if_neg Bool.false_ne_true, AssocList.lookup_append]
  show Option.or _ ((account.changedStorageSlots.map fun p =>
    (vm.hash (.storage a p.1), MemoryValue.storage p.2.presentValue)).lookup _) = _
  rw [hslots, Option.or_none]
  cases account.isTouched with
  | false => rfl
  | true =>
    rw [if_pos rfl, AssocList.lookup_append, hbasic]
    cases vm.isNewCode db a account <;> simp

end Journal

theorem rewarded_min {account : Option AccountBasic} {reward : Nat} :
    AccountBasic.rewarded account (min reward (2 ^ 256 - 1)) =
      AccountBasic.rewarded account reward := by
  have hpos : 0 < min reward (2 ^ 256 - 1) ↔ 0 < reward := by omega
  unfold AccountBasic.rewarded
  simp only [hpos, plus_min]

theorem ok_of_shown {α : Type} {x : Except ReadError α} {value : α} (h : x.toOption = some value) :
    x = .ok value := by
  cases x with
  | error err => cases h
  | ok value' => exact congrArg Except.ok (Option.some.inj h)

/-- An account that is not written reads as before, with its rewards. -/
theorem basicAt_rewarded {stored account : Option AccountBasic}
    {rewards : List (MemoryLocationHash × U256)} {k : Nat} (hstored : vm.storage.basic a = .ok stored)
    (hadditive : ∀ p ∈ m.entriesBelow (vm.hash (.basic a)) n, p.2.IsAdditive)
    (hentries : m'.entriesBelow (vm.hash (.basic a)) (n + 1) =
      ((credited rewards (vm.hash (.basic a)) none).map fun value =>
        (n, MemoryEntry.data k value)).toList ++ m.entriesBelow (vm.hash (.basic a)) n)
    (h : vm.basicAt m n a = .ok account) :
    vm.basicAt m' (n + 1) a =
      .ok (AccountBasic.rewarded account (total rewards (vm.hash (.basic a)))) := by
  rw [basicAt_eq] at h ⊢
  rw [hentries]
  have hcredited : (credited rewards (vm.hash (.basic a)) none = none ∧ _) ∨ _ := credited_none
  rcases hcredited with ⟨hnone, htotal⟩ | ⟨sum, hsum, htoNat⟩
  · rw [hnone, htotal, AccountBasic.rewarded_zero]
    exact h
  · rw [hsum]
    show vm.readEntries a ((n, .data k (.lazyRecipient sum)) ::
      m.entriesBelow (vm.hash (.basic a)) n) = _
    rw [readEntries_rewarded hstored hadditive h, htoNat, rewarded_min]

/-- The next transaction reads what a transaction of this journal and these rewards has written. -/
structure Advances (vm : Vm T) (U : Set MemoryLocation) (codes : B256 → Bytecode) (m : MvMemory)
    (n : Nat) (db : VmDb) (state : EvmState) (pays : List (Address × U256)) (m' : MvMemory) :
    Prop where
  full : db.isLazy = false
  reads : vm.ReadsOf U (vm.shown m n) db.readAccounts
  regular : Regular U codes (vm.shown m n) state
  clean : ∀ a, .basic a ∈ U → (vm.shown m n).CleanAt a
  additive : ∀ a, .basic a ∈ U → ∀ p ∈ m.entriesBelow (vm.hash (.basic a)) n, p.2.IsAdditive
  recipients : ∀ p ∈ pays, .basic p.1 ∈ U
  entries : ∀ l, m'.entriesBelow l (n + 1) =
    ((credited (pays.map fun p => (vm.hash (.basic p.1), p.2)) l
      ((state.flatMap fun (address, account) => vm.accountWrites db address account).lookup l)).map
        fun value => (n, MemoryEntry.data 0 value)).toList ++ m.entriesBelow l n

namespace Advances

variable {pays : List (Address × U256)}

/-- The account of the journal, or the one that would be loaded into it. -/
def accountOf (vm : Vm T) (codes : B256 → Bytecode) (m : MvMemory) (n : Nat) (state : EvmState)
    (a : Address) : Account :=
  (state.lookup a).getD ⟨(vm.shown m n).info codes a, [], false, false⟩

/-- The rewards of an account. -/
def rewardOf (vm : Vm T) (pays : List (Address × U256)) (a : Address) : Nat :=
  total (pays.map fun p => (vm.hash (.basic p.1), p.2)) (vm.hash (.basic a))

variable (hU : vm.Separates U) (heip : vm.isEip161Enabled = true) (hstorage : vm.storage.NeverFails)
  (h : vm.Advances U codes m n db state pays m')
include hU h

theorem lookup_writes (a : Address) {location : MemoryLocation} (hlocation : location ∈ U)
    (hown : ∀ b, b ≠ a → location ≠ .basic b ∧ location ≠ .codeHash b ∧
      ∀ slot, location ≠ .storage b slot) :
    (state.flatMap fun (address, account) => vm.accountWrites db address account).lookup
      (vm.hash location) = (state.lookup a).bind fun account =>
        (vm.accountWrites db a account).lookup (vm.hash location) :=
  lookup_journalWrites hU h.regular.used h.regular.nodup hlocation hown

theorem not_rewarded {location : MemoryLocation} (hlocation : location ∈ U)
    (hne : ∀ a, location ≠ .basic a) :
    vm.hash location ∉ AssocList.keys (pays.map fun p => (vm.hash (.basic p.1), p.2)) := by
  intro hkey
  obtain ⟨_, hreward, heq⟩ := List.mem_map.mp hkey
  obtain ⟨p, hp, rfl⟩ := List.mem_map.mp hreward
  exact hne p.1 (hU.injective hlocation (h.recipients p hp) heq.symm)

include heip hstorage

/-- What the next transaction finds of the balance and nonce of an account. -/
theorem basic (ha : .basic a ∈ U) : (vm.shown m' (n + 1)).basic a =
    some (if ((accountOf vm codes m n state a).paid (rewardOf vm pays a)).isEmpty then none
      else some (AccountBasic.plus ⟨(accountOf vm codes m n state a).info.balance,
        (accountOf vm codes m n state a).info.nonce⟩ (rewardOf vm pays a))) := by
  obtain ⟨before, codeHash, hbasic, hcode, hclean⟩ := h.clean a ha
  obtain ⟨stored, hstored⟩ := hstorage.basic a
  have hentry := h.entries (vm.hash (.basic a))
  rw [h.lookup_writes hU a ha fun b hne => by simp [Ne.symm hne]] at hentry
  have hbefore : vm.basicAt m n a = .ok before := ok_of_shown hbasic
  have hunwritten : ∀ paid : Account, paid.info.codeHash ≠ 0 →
      (⟨paid.info.balance, paid.info.nonce⟩ : AccountBasic) = before.getD .default →
      paid.info.codeHashOrNone = codeHash →
      m'.entriesBelow (vm.hash (.basic a)) (n + 1) =
        ((credited (pays.map fun p => (vm.hash (.basic p.1), p.2)) (vm.hash (.basic a)) none).map
          fun value => (n, MemoryEntry.data 0 value)).toList ++
            m.entriesBelow (vm.hash (.basic a)) n →
      (vm.shown m' (n + 1)).basic a =
        some (if (paid.paid (rewardOf vm pays a)).isEmpty then none
          else some (AccountBasic.plus ⟨paid.info.balance, paid.info.nonce⟩ (rewardOf vm pays a))) := by
    intro paid hhash hsame hsameCode hentries
    show (vm.basicAt m' (n + 1) a).toOption = _
    rw [basicAt_rewarded hstored (h.additive a ha) hentries hbefore]
    exact congrArg some (rewarded_eq hclean hhash hsame hsameCode _)
  unfold accountOf
  cases hstate : state.lookup a with
  | none =>
    rw [hstate] at hentry
    obtain ⟨hsame, hsameCode, hhash, -⟩ := @Shown.info_spec codes _ _ _ _ hbasic hcode hclean
    exact hunwritten _ hhash hsame hsameCode hentry
  | some account =>
    have hmem := AssocList.mem_of_lookup_eq_some hstate
    have hhash := h.regular.hash _ hmem
    rw [hstate, Option.bind_some, lookup_accountWrites_basic hU h.regular.used hmem h.full,
      h.regular.alive _ hmem, heip] at hentry
    simp only [Option.getD_some]
    split_ifs at hentry with hwritten
    · -- the absolute value is of an account that is not empty
      simp only [Bool.not_false, Bool.true_and, Bool.and_eq_true, Bool.or_eq_true, Bool.not_true,
        Bool.false_or, Bool.not_eq_true'] at hwritten
      rw [credited_basic] at hentry
      show (vm.basicAt m' (n + 1) a).toOption = _
      rw [basicAt_eq, hentry]
      show (vm.readEntries a ((n, .data 0 (.basic _)) :: _)).toOption = _
      rw [readEntries_basic, if_neg fun hempty => ?_]
      · rfl
      · obtain ⟨hnone, hdefault⟩ := (@Account.isEmpty_iff (account.paid (rewardOf vm pays a)) hhash).mp hempty
        rw [Account.basic_paid, AccountBasic.plus_eq_default_iff] at hdefault
        have hnotEmpty := (Account.isEmpty_iff hhash).mpr ⟨hnone, hdefault.1⟩
        rw [hwritten.2] at hnotEmpty
        cases hnotEmpty
    · obtain ⟨hsame, hsameCode⟩ := basic_of_unwritten hU h.regular h.reads hmem
        ⟨before, codeHash, hbasic, hcode, hclean⟩ (by
          rintro ⟨htouched, hchanged, hempty⟩
          exact hwritten (by simpa [htouched, hempty] using hchanged))
      rw [hbasic] at hsame
      rw [hcode] at hsameCode
      exact hunwritten account hhash (Option.some.inj hsame).symm (Option.some.inj hsameCode).symm
        hentry

omit heip hstorage

/-- What it finds of the code hash. -/
theorem codeHash (ha : .basic a ∈ U) (hcodeHash : .codeHash a ∈ U) :
    (vm.shown m' (n + 1)).codeHash a =
      some (accountOf vm codes m n state a).info.codeHashOrNone := by
  obtain ⟨before, codeHash, hbasic, hcode, hclean⟩ := h.clean a ha
  have hentry := h.entries (vm.hash (.codeHash a))
  rw [h.lookup_writes hU a hcodeHash fun b hne => by simp [Ne.symm hne],
    credited_of_not_mem (h.not_rewarded hU hcodeHash fun b => by simp)] at hentry
  have hkept : m'.entriesBelow (vm.hash (.codeHash a)) (n + 1) =
      m.entriesBelow (vm.hash (.codeHash a)) n →
      (vm.shown m' (n + 1)).codeHash a = (vm.shown m n).codeHash a := by
    intro hsame
    have hbefore : vm.codeHashAt m n a = .ok codeHash := ok_of_shown hcode
    obtain ⟨origin, hsource⟩ := codeHashAt_eq_ok_iff.mp hbefore
    rw [← hsame] at hsource
    rw [hcode]
    show (vm.codeHashAt m' (n + 1) a).toOption = _
    rw [codeHashAt_eq_ok_iff.mpr ⟨origin, hsource⟩]
    rfl
  unfold accountOf
  cases hstate : state.lookup a with
  | none =>
    rw [hstate] at hentry
    obtain ⟨-, hsameCode, -⟩ := @Shown.info_spec codes _ _ _ _ hbasic hcode hclean
    rw [hkept hentry, hcode]
    exact congrArg some hsameCode.symm
  | some account =>
    have hmem := AssocList.mem_of_lookup_eq_some hstate
    rw [hstate, Option.bind_some, lookup_accountWrites_codeHash hU h.regular.used hmem
      (h.regular.alive _ hmem)] at hentry
    simp only [Option.getD_some]
    split_ifs at hentry with hnew
    · have hdeployed : vm.codeHashAt m' (n + 1) a = .ok (some account.info.codeHash) := by
        refine codeHashAt_eq_ok_iff.mpr ⟨.mvMemory ⟨n, 0⟩, ?_⟩
        rw [hentry]
        rfl
      show (vm.codeHashAt m' (n + 1) a).toOption = _
      rw [hdeployed]
      have hsome : account.info.isEmptyCodeHash = false := by
        have hboth := (Bool.and_eq_true_iff.mp hnew).2
        unfold isNewCode at hboth
        simpa using (Bool.and_eq_true_iff.mp hboth).1
      unfold AccountInfo.codeHashOrNone
      rw [hsome]
      rfl
    · rw [hkept hentry]
      refine codeHash_of_not_new hU h.regular h.reads hmem (fun htouched => ?_)
        ⟨before, codeHash, hbasic, hcode, hclean⟩
      simpa [htouched] using hnew

/-- What it finds of the slots of an account of the journal. -/
theorem storage {account : Account} {slot : U256} {value : StorageSlot}
    (hstate : state.lookup a = some account) (hvalue : account.storage.lookup slot = some value) :
    (vm.shown m' (n + 1)).storage a slot = some value.presentValue := by
  have hmem := AssocList.mem_of_lookup_eq_some hstate
  have hq := AssocList.mem_of_lookup_eq_some hvalue
  have hslot := h.regular.used (EvmState.storage_mem_locations hmem hq)
  have hentry := h.entries (vm.hash (.storage a slot))
  rw [h.lookup_writes hU a hslot fun b hne => by simp [Ne.symm hne],
    credited_of_not_mem (h.not_rewarded hU hslot fun b => by simp), hstate, Option.bind_some,
    lookup_accountWrites_storage hU h.regular.used hmem hslot (h.regular.alive _ hmem),
    lookup_changedStorageSlots (h.regular.nodupSlots _ hmem), hvalue] at hentry
  by_cases hchanged : value.originalValue = value.presentValue
  · rw [← h.regular.slots _ hmem _ hq hchanged]
    refine congrArg Except.toOption (slotAt_congr (hentry.trans ?_))
    simp [Option.filter, hchanged]
  · have hwritten : vm.slotAt m' (n + 1) a slot = .ok value.presentValue := by
      refine slotAt_eq_ok_iff.mpr ⟨.mvMemory ⟨n, 0⟩, ?_⟩
      rw [hentry]
      simp [Option.filter, hchanged, storageSource]
    show (vm.slotAt m' (n + 1) a slot).toOption = _
    rw [hwritten]
    rfl

/-- The other slots are read as before. -/
theorem otherStorage {slot : U256} (hslot : .storage a slot ∈ U)
    (hno : ∀ account, state.lookup a = some account → account.changedStorageSlots.lookup slot = none) :
    (vm.shown m' (n + 1)).storage a slot = (vm.shown m n).storage a slot := by
  have hentry := h.entries (vm.hash (.storage a slot))
  rw [h.lookup_writes hU a hslot fun b hne => by simp [Ne.symm hne],
    credited_of_not_mem (h.not_rewarded hU hslot fun b => by simp)] at hentry
  refine congrArg Except.toOption (slotAt_congr (hentry.trans ?_))
  cases hstate : state.lookup a with
  | none => rfl
  | some account =>
    have hmem := AssocList.mem_of_lookup_eq_some hstate
    rw [Option.bind_some, lookup_accountWrites_storage hU h.regular.used hmem hslot
      (h.regular.alive _ hmem), hno account hstate]
    rfl

theorem rewardOf_of_not_mem (ha : .basic a ∈ U) (hpaid : a ∉ AssocList.keys pays) :
    rewardOf vm pays a = 0 := by
  refine total_of_not_mem fun hkey => hpaid ?_
  obtain ⟨_, hreward, heq⟩ := List.mem_map.mp hkey
  obtain ⟨p, hp, rfl⟩ := List.mem_map.mp hreward
  obtain rfl := MemoryLocation.basic.inj (hU.injective (h.recipients p hp) ha heq)
  exact List.mem_map_of_mem hp

/-- The journal with the rewards. -/
theorem lookup_paid (ha : .basic a ∈ U) :
    (pays.foldl (EvmState.pay codes (vm.shown m n)) state).lookup a =
      if a ∈ AssocList.keys pays then
        some ((accountOf vm codes m n state a).paid (rewardOf vm pays a))
      else state.lookup a :=
  EvmState.lookup_foldl_pay (f := fun a => vm.hash (.basic a))
    (fun p hp hhash => MemoryLocation.basic.inj (hU.injective (h.recipients p hp) ha hhash)) state

/-- An account of the journal with the rewards that is touched. -/
theorem of_touched {account : Account}
    (hlookup : (pays.foldl (EvmState.pay codes (vm.shown m n)) state).lookup a = some account)
    (htouched : account.isTouched = true) : .basic a ∈ U ∧
      account = (accountOf vm codes m n state a).paid (rewardOf vm pays a) := by
  by_cases hpaid : a ∈ AssocList.keys pays
  · obtain ⟨p, hp, rfl⟩ := List.mem_map.mp hpaid
    have ha := h.recipients p hp
    rw [h.lookup_paid hU ha, if_pos hpaid] at hlookup
    exact ⟨ha, (Option.some.inj hlookup).symm⟩
  · rw [EvmState.lookup_foldl_pay_of_not_mem hpaid] at hlookup
    have ha := h.regular.used (EvmState.basic_mem_locations (AssocList.mem_of_lookup_eq_some hlookup))
    refine ⟨ha, ?_⟩
    rw [h.rewardOf_of_not_mem hU ha hpaid]
    unfold accountOf
    rw [hlookup, Option.getD_some, Account.paid_zero htouched]

/-- An account that is not touched in it is the one that was shown, and is not rewarded. -/
theorem of_untouched (ha : .basic a ∈ U)
    (hno : ∀ account, (pays.foldl (EvmState.pay codes (vm.shown m n)) state).lookup a = some account →
      account.isTouched = false) : rewardOf vm pays a = 0 ∧
      (accountOf vm codes m n state a).info = (vm.shown m n).info codes a ∧
      ∀ account, state.lookup a = some account → account.changedStorageSlots = [] := by
  have hpaid : a ∉ AssocList.keys pays := by
    intro hpaid
    have htouched := hno _ ((h.lookup_paid hU ha).trans (if_pos hpaid))
    cases htouched
  rw [EvmState.lookup_foldl_pay_of_not_mem hpaid] at hno
  refine ⟨h.rewardOf_of_not_mem hU ha hpaid, ?_, fun account hstate => ?_⟩
  · unfold accountOf
    cases hstate : state.lookup a with
    | none => rfl
    | some account =>
      exact (h.regular.untouched _ (AssocList.mem_of_lookup_eq_some hstate) (hno _ hstate)).1
  · exact (h.regular.untouched _ (AssocList.mem_of_lookup_eq_some hstate) (hno _ hstate)).2

omit hU in
theorem codeHash_accountOf (ha : .basic a ∈ U) : (accountOf vm codes m n state a).info.codeHash ≠ 0 := by
  unfold accountOf
  cases hstate : state.lookup a with
  | none =>
    obtain ⟨before, codeHash, hbasic, hcode, hclean⟩ := h.clean a ha
    exact (@Shown.info_spec codes _ _ _ _ hbasic hcode hclean).2.2.1
  | some account => exact h.regular.hash _ (AssocList.mem_of_lookup_eq_some hstate)

/-- No account of the journal with the rewards is destroyed. -/
theorem alive {account : Account}
    (hlookup : (pays.foldl (EvmState.pay codes (vm.shown m n)) state).lookup a = some account) :
    account.isSelfdestructed = false := by
  by_cases hpaid : a ∈ AssocList.keys pays
  · obtain ⟨p, hp, rfl⟩ := List.mem_map.mp hpaid
    rw [h.lookup_paid hU (h.recipients p hp), if_pos hpaid] at hlookup
    obtain rfl := Option.some.inj hlookup
    unfold accountOf
    cases hstate : state.lookup p.1 with
    | none => rfl
    | some account => exact h.regular.alive _ (AssocList.mem_of_lookup_eq_some hstate)
  · rw [EvmState.lookup_foldl_pay_of_not_mem hpaid] at hlookup
    exact h.regular.alive _ (AssocList.mem_of_lookup_eq_some hlookup)

/-- What is written of a balance and nonce is an absolute value or an addition. -/
theorem additive_after (ha : .basic a ∈ U) :
    ∀ p ∈ m'.entriesBelow (vm.hash (.basic a)) (n + 1), p.2.IsAdditive := by
  have hentry := h.entries (vm.hash (.basic a))
  rw [h.lookup_writes hU a ha fun b hne => by simp [Ne.symm hne]] at hentry
  rw [hentry]
  intro p hp
  rcases List.mem_append.mp hp with hnew | hold
  · obtain ⟨value, hvalue, rfl⟩ := Option.map_eq_some_iff.mp (Option.mem_toList.mp hnew)
    have hnone : (credited (pays.map fun p => (vm.hash (.basic p.1), p.2)) (vm.hash (.basic a)) none =
        some value) → (MemoryEntry.data 0 value).IsAdditive := by
      intro heq
      rcases credited_none with ⟨hno, -⟩ | ⟨sum, hsum, -⟩
      · rw [hno] at heq
        cases heq
      · rw [hsum] at heq
        exact .inr ⟨0, sum, congrArg _ (Option.some.inj heq).symm⟩
    cases hstate : state.lookup a with
    | none =>
      rw [hstate] at hvalue
      exact hnone hvalue
    | some account =>
      have hmem := AssocList.mem_of_lookup_eq_some hstate
      rw [hstate, Option.bind_some, lookup_accountWrites_basic hU h.regular.used hmem h.full] at hvalue
      split_ifs at hvalue
      · rw [credited_basic] at hvalue
        exact .inl ⟨0, _, congrArg _ (Option.some.inj hvalue).symm⟩
      · exact hnone hvalue
  · exact h.additive a ha p hold

include heip hstorage

theorem clean_after (ha : .basic a ∈ U) (hcodeHash : .codeHash a ∈ U) :
    (vm.shown m' (n + 1)).CleanAt a :=
  ⟨_, _, h.basic hU heip hstorage ha, h.codeHash hU ha hcodeHash,
    @Account.isClean ((accountOf vm codes m n state a).paid (rewardOf vm pays a))
      (h.codeHash_accountOf ha)⟩

/-- **The serial execution commits the journal with the rewards.** -/
theorem commits (hwhole : ∀ a, .codeHash a ∈ U ↔ .basic a ∈ U) :
    Commits U (vm.shown m n) (pays.foldl (EvmState.pay codes (vm.shown m n)) state)
      (vm.shown m' (n + 1)) where
  basic hlookup htouched := by
    obtain ⟨ha, rfl⟩ := h.of_touched hU hlookup htouched
    exact h.basic hU heip hstorage ha
  codeHash hlookup htouched := by
    obtain ⟨ha, rfl⟩ := h.of_touched hU hlookup htouched
    exact h.codeHash hU ha ((hwhole _).mpr ha)
  storage hlookup htouched hvalue := by
    obtain ⟨-, rfl⟩ := h.of_touched hU hlookup htouched
    cases hstate : state.lookup _ with
    | none =>
      unfold accountOf at hvalue
      rw [hstate] at hvalue
      cases hvalue
    | some account =>
      unfold accountOf at hvalue
      rw [hstate] at hvalue
      exact h.storage hU hstate hvalue
  otherBasic := by
    intro a ha hno
    obtain ⟨before, codeHash, hbasic, hcode, hclean⟩ := h.clean a ha
    obtain ⟨hreward, hinfo, -⟩ := h.of_untouched hU ha hno
    obtain ⟨hsame, hsameCode, hhash, -⟩ := @Shown.info_spec codes _ _ _ _ hbasic hcode hclean
    rw [← hinfo] at hsame hsameCode hhash
    rw [h.basic hU heip hstorage ha, hreward, ← rewarded_eq hclean hhash hsame hsameCode 0,
      AccountBasic.rewarded_zero, hbasic]
  otherCodeHash := by
    intro a hcodeHash hno
    have ha := (hwhole a).mp hcodeHash
    obtain ⟨before, codeHash, hbasic, hcode, hclean⟩ := h.clean a ha
    obtain ⟨-, hinfo, -⟩ := h.of_untouched hU ha hno
    obtain ⟨-, hsameCode, -⟩ := @Shown.info_spec codes _ _ _ _ hbasic hcode hclean
    rw [h.codeHash hU ha hcodeHash, hinfo, hsameCode, hcode]
  otherStorage := by
    intro a slot hslot hno
    refine h.otherStorage hU hslot fun account hstate => ?_
    have ha := h.regular.used (EvmState.basic_mem_locations (AssocList.mem_of_lookup_eq_some hstate))
    have hmem := AssocList.mem_of_lookup_eq_some hstate
    rcases EvmState.touched_or (pays.foldl (EvmState.pay codes (vm.shown m n)) state) a with
      ⟨paid, hlookup, htouched⟩ | huntouched
    · have hnone := hno paid hlookup htouched
      obtain ⟨-, rfl⟩ := h.of_touched hU hlookup htouched
      rw [lookup_changedStorageSlots (h.regular.nodupSlots _ hmem)]
      unfold accountOf at hnone
      rw [hstate] at hnone
      rw [show account.storage.lookup slot = none from hnone]
      rfl
    · rw [(h.of_untouched hU ha huntouched).2.2 account hstate]
      rfl

end Advances

end Vm

end Pevm
