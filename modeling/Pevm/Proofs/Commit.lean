import Pevm.Proofs.CodeWrites
import Pevm.Proofs.Serial

/-!
# Committing a journal

revm goes from one transaction to the next by committing the journal of the transaction to its
database, the rewards of the fee recipients included. `Commits` says what a database shows after a
commit in terms of what it has shown before, and it determines the database after by the one before
(`Commits.sameOn`), so that two executions that commit the same journals show the same all along.

EIP-161 is part of it: an account that a commit leaves empty is shown as missing afterwards. So a
missing account and an empty one are never told apart (`IsClean`), whatever an execution keeps of
them.
-/

namespace Pevm

open Interleaving Scheduler MvMemory Saturating

/-! ## Databases -/

/-- The databases show the same at the locations in `U`. -/
structure Shown.SameOn (U : Set MemoryLocation) (shown shown' : Shown) : Prop where
  basic : ∀ {a}, .basic a ∈ U → shown.basic a = shown'.basic a
  codeHash : ∀ {a}, .codeHash a ∈ U → shown.codeHash a = shown'.codeHash a
  storage : ∀ {a slot}, .storage a slot ∈ U → shown.storage a slot = shown'.storage a slot

/-- The account of a database as revm loads it, empty where there is none. -/
def Shown.info (codes : B256 → Bytecode) (shown : Shown) (a : Address) : AccountInfo :=
  match shown.basic a with
  | some (some account) => Vm.infoOf codes account ((shown.codeHash a).getD none)
  | _ => .empty

/-- What a database shows after a journal is committed to it. An account that is empty is one that
is missing (EIP-161). -/
structure Commits (U : Set MemoryLocation) (before : Shown) (state : EvmState) (after : Shown) :
    Prop where
  basic : ∀ {a account}, state.lookup a = some account → account.isTouched = true →
    after.basic a = some (if account.isEmpty then none
      else some ⟨account.info.balance, account.info.nonce⟩)
  codeHash : ∀ {a account}, state.lookup a = some account → account.isTouched = true →
    after.codeHash a = some account.info.codeHashOrNone
  storage : ∀ {a account slot value}, state.lookup a = some account → account.isTouched = true →
    account.storage.lookup slot = some value → after.storage a slot = some value.presentValue
  otherBasic : ∀ {a}, .basic a ∈ U →
    (∀ account, state.lookup a = some account → account.isTouched = false) →
    after.basic a = before.basic a
  otherCodeHash : ∀ {a}, .codeHash a ∈ U →
    (∀ account, state.lookup a = some account → account.isTouched = false) →
    after.codeHash a = before.codeHash a
  otherStorage : ∀ {a slot}, .storage a slot ∈ U →
    (∀ account, state.lookup a = some account → account.isTouched = true →
      account.storage.lookup slot = none) → after.storage a slot = before.storage a slot

/-- An account of a journal is touched, or there is none that is. -/
theorem EvmState.touched_or (state : EvmState) (a : Address) :
    (∃ account, state.lookup a = some account ∧ account.isTouched = true) ∨
      ∀ account, state.lookup a = some account → account.isTouched = false := by
  cases state.lookup a with
  | none => exact .inr fun _ h => by cases h
  | some account =>
    cases htouched : account.isTouched with
    | true => exact .inl ⟨account, rfl, htouched⟩
    | false =>
      refine .inr fun account' h => ?_
      obtain rfl := Option.some.inj h
      exact htouched

/-- **A commit determines what is shown.** -/
theorem Commits.sameOn {U : Set MemoryLocation} {before before' after after' : Shown}
    {state : EvmState} (h : Commits U before state after) (h' : Commits U before' state after')
    (hsame : before.SameOn U before') : after.SameOn U after' where
  basic := by
    intro a ha
    rcases state.touched_or a with ⟨account, hlookup, htouched⟩ | hno
    · rw [h.basic hlookup htouched, h'.basic hlookup htouched]
    · rw [h.otherBasic ha hno, h'.otherBasic ha hno, hsame.basic ha]
  codeHash := by
    intro a ha
    rcases state.touched_or a with ⟨account, hlookup, htouched⟩ | hno
    · rw [h.codeHash hlookup htouched, h'.codeHash hlookup htouched]
    · rw [h.otherCodeHash ha hno, h'.otherCodeHash ha hno, hsame.codeHash ha]
  storage := by
    intro a slot ha
    by_cases hwritten : ∃ account, state.lookup a = some account ∧ account.isTouched = true ∧
        ∃ value, account.storage.lookup slot = some value
    · obtain ⟨account, hlookup, htouched, value, hvalue⟩ := hwritten
      rw [h.storage hlookup htouched hvalue, h'.storage hlookup htouched hvalue]
    · have hno : ∀ account, state.lookup a = some account → account.isTouched = true →
          account.storage.lookup slot = none := by
        intro account hlookup htouched
        cases hvalue : account.storage.lookup slot with
        | none => rfl
        | some value => exact absurd ⟨account, hlookup, htouched, value, hvalue⟩ hwritten
      rw [h.otherStorage ha hno, h'.otherStorage ha hno, hsame.storage ha]

/-! ## Rewards in a journal -/

/-- An account with a reward. -/
def Account.paid (account : Account) (reward : Nat) : Account :=
  { account with
    info := { account.info with
      balance := (AccountBasic.plus ⟨account.info.balance, account.info.nonce⟩ reward).balance }
    isTouched := true }

/-- revm's reward of a fee recipient, which is loaded if the journal has not got it. -/
def EvmState.pay (codes : B256 → Bytecode) (shown : Shown) (state : EvmState)
    (p : Address × U256) : EvmState :=
  match state.lookup p.1 with
  | some _ =>
    state.map fun q => if q.1 = p.1 then (q.1, q.2.paid p.2.toNat) else q
  | none => state ++ [(p.1, Account.paid ⟨shown.info codes p.1, [], false, false⟩ p.2.toNat)]

theorem AccountBasic.plus_plus (account : AccountBasic) (x y : Nat) :
    (account.plus x).plus y = account.plus (x + y) := by
  apply AccountBasic.eq_plus
  · rw [AccountBasic.toNat_plus, AccountBasic.toNat_plus]
    omega
  · rfl

theorem Account.paid_zero {account : Account} (h : account.isTouched = true) :
    account.paid 0 = account := by
  obtain ⟨⟨balance, nonce, codeHash, code⟩, storage, isTouched, isSelfdestructed⟩ := account
  obtain rfl : isTouched = true := h
  unfold paid
  rw [AccountBasic.plus_zero]

theorem Account.paid_paid (account : Account) (x y : Nat) :
    (account.paid x).paid y = account.paid (x + y) := by
  have hplus := congrArg AccountBasic.balance
    (AccountBasic.plus_plus ⟨account.info.balance, account.info.nonce⟩ x y)
  unfold paid
  simp only [Account.mk.injEq, AccountInfo.mk.injEq, and_true]
  exact hplus

/-- The balance and nonce of a rewarded account. -/
theorem Account.basic_paid (account : Account) (reward : Nat) :
    (⟨(account.paid reward).info.balance, (account.paid reward).info.nonce⟩ : AccountBasic) =
      AccountBasic.plus ⟨account.info.balance, account.info.nonce⟩ reward := rfl

theorem AccountBasic.plus_eq_default_iff {account : AccountBasic} {reward : Nat} :
    account.plus reward = .default ↔ account = .default ∧ reward = 0 := by
  constructor
  · intro h
    have hbalance := congrArg (fun a => (AccountBasic.balance a).toNat) h
    have hnonce := congrArg AccountBasic.nonce h
    simp only [AccountBasic.toNat_plus] at hbalance
    have hzero : (AccountBasic.default.balance).toNat = 0 := rfl
    rw [hzero] at hbalance
    refine ⟨?_, by omega⟩
    obtain ⟨balance, nonce⟩ := account
    have hbalance' : balance = 0 := by
      apply BitVec.eq_of_toNat_eq
      show balance.toNat = 0
      simp only at hbalance
      omega
    rw [hbalance', show nonce = 0 from hnonce]
    rfl
  · rintro ⟨rfl, rfl⟩
    exact AccountBasic.plus_zero _

/-- An account with a code hash that is not zero is empty without code, balance and nonce. -/
theorem Account.isEmpty_iff {account : Account} (hhash : account.info.codeHash ≠ 0) :
    account.isEmpty = true ↔ account.info.codeHashOrNone = none ∧
      (⟨account.info.balance, account.info.nonce⟩ : AccountBasic) = .default := by
  have hdefault : (⟨account.info.balance, account.info.nonce⟩ : AccountBasic) = .default ↔
      account.info.balance = 0 ∧ account.info.nonce = 0 := by
    unfold AccountBasic.default
    exact AccountBasic.mk.injEq .. ▸ Iff.rfl
  rw [hdefault]
  have hne : account.info.codeHash ≠ 0#256 := hhash
  unfold Account.isEmpty AccountInfo.isEmpty AccountInfo.codeHashOrNone
  cases hcode : account.info.isEmptyCodeHash <;> simp [hne]

theorem Vm.total_of_not_mem {rewards : List (MemoryLocationHash × U256)} {l : MemoryLocationHash}
    (h : l ∉ AssocList.keys rewards) : Vm.total rewards l = 0 := by
  have hnil : rewards.filter (fun p => p.1 = l) = [] := by
    refine List.filter_eq_nil_iff.mpr fun p hp => ?_
    intro heq
    exact h (of_decide_eq_true heq ▸ List.mem_map_of_mem hp)
  unfold Vm.total
  rw [hnil]
  rfl

section Pay

variable {codes : B256 → Bytecode} {shown : Shown} {a : Address}

theorem EvmState.lookup_pay (state : EvmState) (p : Address × U256) :
    (state.pay codes shown p).lookup a =
      if a = p.1 then
        some (((state.lookup a).getD ⟨shown.info codes a, [], false, false⟩).paid p.2.toNat)
      else state.lookup a := by
  have hmap : ∀ l : EvmState,
      (l.map fun q => if q.1 = p.1 then (q.1, q.2.paid p.2.toNat) else q).lookup a =
        (l.lookup a).map fun account => if a = p.1 then account.paid p.2.toNat else account := by
    intro l
    induction l with
    | nil => rfl
    | cons q l ih =>
      obtain ⟨b, account⟩ := q
      rw [List.map_cons]
      by_cases hb : b = p.1
      · rw [if_pos hb, AssocList.lookup_cons, AssocList.lookup_cons, ih]
        split_ifs with hab hap <;> simp_all
      · rw [if_neg hb, AssocList.lookup_cons, AssocList.lookup_cons, ih]
        split_ifs with hab hap <;> simp_all
  unfold EvmState.pay
  cases hlookup : state.lookup p.1 with
  | some account =>
    show (state.map _).lookup a = _
    rw [hmap]
    split_ifs with ha
    · rw [ha, hlookup]
      rfl
    · simp
  | none =>
    show (state ++ _).lookup a = _
    rw [AssocList.lookup_append, AssocList.lookup_cons]
    split_ifs with ha
    · rw [ha, hlookup]
      rfl
    · simp

theorem EvmState.lookup_foldl_pay_of_not_mem {pays : List (Address × U256)}
    (h : a ∉ AssocList.keys pays) (state : EvmState) :
    (pays.foldl (EvmState.pay codes shown) state).lookup a = state.lookup a := by
  induction pays generalizing state with
  | nil => rfl
  | cons p pays ih =>
    obtain ⟨hne, hrest⟩ := not_or.mp (mt List.mem_cons.mpr h)
    rw [List.foldl_cons, ih hrest, EvmState.lookup_pay, if_neg hne]

/-- The journal after all rewards. `f` is what the rewards are summed by. -/
theorem EvmState.lookup_foldl_pay {f : Address → MemoryLocationHash}
    {pays : List (Address × U256)} (hinj : ∀ p ∈ pays, f p.1 = f a → p.1 = a) (state : EvmState) :
    (pays.foldl (EvmState.pay codes shown) state).lookup a =
      if a ∈ AssocList.keys pays then
        some (((state.lookup a).getD ⟨shown.info codes a, [], false, false⟩).paid
          (Vm.total (pays.map fun p => (f p.1, p.2)) (f a)))
      else state.lookup a := by
  induction pays generalizing state with
  | nil => rfl
  | cons p pays ih =>
    have hrest := ih (fun q hq => hinj q (List.mem_cons_of_mem _ hq)) (state.pay codes shown p)
    have hkeys : a ∈ AssocList.keys (p :: pays) ↔ a = p.1 ∨ a ∈ AssocList.keys pays :=
      List.mem_cons
    rw [List.foldl_cons, hrest, List.map_cons, Vm.total_cons, EvmState.lookup_pay]
    by_cases ha : a = p.1
    · subst ha
      rw [if_pos rfl, if_pos rfl, if_pos (hkeys.mpr (.inl rfl))]
      split_ifs with hmem
      · rw [Option.getD_some, Account.paid_paid]
      · -- no other reward goes to the account
        have hnone : f p.1 ∉ AssocList.keys (pays.map fun q => (f q.1, q.2)) := by
          intro hkey
          obtain ⟨q, hq, hfq⟩ := List.mem_map.mp hkey
          obtain ⟨r, hr, rfl⟩ := List.mem_map.mp hq
          exact hmem (List.mem_map.mpr ⟨r, hr, hinj r (List.mem_cons_of_mem _ hr) hfq⟩)
        rw [Vm.total_of_not_mem hnone, Nat.add_zero]
    · have hne : f p.1 ≠ f a := fun h => ha (hinj p List.mem_cons_self h).symm
      rw [if_neg ha, if_neg hne, Nat.zero_add]
      exact if_congr (hkeys.trans (or_iff_right ha)).symm rfl rfl

end Pay

/-! ## Clean databases -/

/-- An account with a reward, which a missing account becomes by a reward that is not zero. -/
def AccountBasic.rewarded (account : Option AccountBasic) (reward : Nat) : Option AccountBasic :=
  (account.or (if 0 < reward then some .default else none)).map (·.plus reward)

theorem AccountBasic.rewarded_zero (account : Option AccountBasic) :
    AccountBasic.rewarded account 0 = account := by
  cases account with
  | none => rfl
  | some account => exact congrArg some (AccountBasic.plus_zero account)

theorem AccountBasic.getD_rewarded (account : Option AccountBasic) (reward : Nat) :
    (AccountBasic.rewarded account reward).getD .default = (account.getD .default).plus reward := by
  cases account with
  | some account => rfl
  | none =>
    unfold rewarded
    split_ifs with hpos
    · rfl
    · obtain rfl : reward = 0 := by omega
      exact (AccountBasic.plus_zero _).symm

theorem AccountBasic.rewarded_rewarded (account : Option AccountBasic) (x y : Nat) :
    AccountBasic.rewarded (AccountBasic.rewarded account x) y =
      AccountBasic.rewarded account (x + y) := by
  cases account with
  | some account => exact congrArg some (AccountBasic.plus_plus account x y)
  | none =>
    rcases Nat.eq_zero_or_pos x with rfl | hx
    · rw [AccountBasic.rewarded_zero, Nat.zero_add]
    · have hsum : 0 < x + y := by omega
      unfold rewarded
      rw [if_pos hx, if_pos hsum]
      exact congrArg some (AccountBasic.plus_plus _ x y)

/-- The account is shown as missing exactly when it is empty, and a code hash is that of some code. -/
structure IsClean (account : Option AccountBasic) (codeHash : Option B256) : Prop where
  missing : account = none → codeHash = none
  present : account = some .default → codeHash ≠ none
  code : codeHash ≠ some keccakEmpty
  hash : codeHash ≠ some 0

/-- What the database shows of an account is clean. -/
def Shown.CleanAt (shown : Shown) (a : Address) : Prop :=
  ∃ account codeHash, shown.basic a = some account ∧ shown.codeHash a = some codeHash ∧
    IsClean account codeHash

/-- What revm loads of an account. -/
theorem Shown.info_spec {codes : B256 → Bytecode} {shown : Shown} {a : Address}
    {account : Option AccountBasic} {codeHash : Option B256} (hbasic : shown.basic a = some account)
    (hcode : shown.codeHash a = some codeHash) (hclean : IsClean account codeHash) :
    (⟨(shown.info codes a).balance, (shown.info codes a).nonce⟩ : AccountBasic) =
        account.getD .default ∧
      (shown.info codes a).codeHashOrNone = codeHash ∧ (shown.info codes a).codeHash ≠ 0 ∧
      (shown.info codes a).code = codeHash.map codes := by
  unfold Shown.info
  rw [hbasic]
  cases account with
  | none =>
    obtain rfl := hclean.missing rfl
    exact ⟨rfl, rfl, show keccakEmpty ≠ 0 by decide, rfl⟩
  | some account =>
    simp only [hcode, Option.getD_some]
    cases codeHash with
    | none => exact ⟨rfl, rfl, show keccakEmpty ≠ 0 by decide, rfl⟩
    | some hash =>
      have hempty : hash ≠ keccakEmpty := fun h => hclean.code (congrArg some h)
      refine ⟨rfl, ?_, fun h => hclean.hash (congrArg some h), rfl⟩
      unfold AccountInfo.codeHashOrNone AccountInfo.isEmptyCodeHash
      simp [Vm.infoOf, hempty]

/-- What a commit leaves of an account is clean. -/
theorem Account.isClean {account : Account} (hne : account.info.codeHash ≠ 0) :
    IsClean (if account.isEmpty then none else some ⟨account.info.balance, account.info.nonce⟩)
      account.info.codeHashOrNone where
  missing h := by
    split_ifs at h with hempty
    exact ((Account.isEmpty_iff hne).mp hempty).1
  present h hnone := by
    split_ifs at h with hempty
    exact hempty ((Account.isEmpty_iff hne).mpr ⟨hnone, Option.some.inj h⟩)
  code h := by
    unfold AccountInfo.codeHashOrNone AccountInfo.isEmptyCodeHash at h
    split_ifs at h with hempty
    exact hempty (decide_eq_true (Option.some.inj h))
  hash h := by
    unfold AccountInfo.codeHashOrNone at h
    split_ifs at h
    exact hne (Option.some.inj h)

/-- A rewarded account is missing exactly when it is empty. -/
theorem rewarded_eq {account : Option AccountBasic} {codeHash : Option B256} {paid : Account}
    (hclean : IsClean account codeHash) (hne : paid.info.codeHash ≠ 0)
    (hbasic : (⟨paid.info.balance, paid.info.nonce⟩ : AccountBasic) = account.getD .default)
    (hcode : paid.info.codeHashOrNone = codeHash) (reward : Nat) :
    AccountBasic.rewarded account reward =
      if (paid.paid reward).isEmpty then none
      else some (AccountBasic.plus ⟨paid.info.balance, paid.info.nonce⟩ reward) := by
  have hempty := @Account.isEmpty_iff (paid.paid reward) hne
  rw [Account.basic_paid, AccountBasic.plus_eq_default_iff, hbasic] at hempty
  have hcode' : (paid.paid reward).info.codeHashOrNone = codeHash := hcode
  rw [hcode'] at hempty
  rw [hbasic]
  cases account with
  | none =>
    obtain rfl := hclean.missing rfl
    have hiff : (paid.paid reward).isEmpty = true ↔ reward = 0 :=
      hempty.trans ⟨fun h => h.2.2, fun h => ⟨rfl, rfl, h⟩⟩
    unfold AccountBasic.rewarded
    by_cases hzero : reward = 0
    · rw [if_pos (hiff.mpr hzero), if_neg (by omega)]
      rfl
    · rw [if_neg (mt hiff.mp hzero), if_pos (by omega)]
      rfl
  | some account =>
    rw [if_neg fun h => ?_]
    · rfl
    · obtain ⟨hnone, hdefault, -⟩ := hempty.mp h
      exact hclean.present (congrArg some hdefault) hnone

end Pevm
