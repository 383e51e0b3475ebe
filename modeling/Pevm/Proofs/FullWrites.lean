import Pevm.Proofs.ReadBack
import Pevm.Proofs.Rewards

/-!
# Balances, nonces and slots after a full execution

What the next transaction reads after an execution that is not lazy and its `record`. An account
that the transaction changed has a Basic entry with the rewards on top. An account that is rewarded
but left as it was has a LazyRecipient entry: its reader walks on into the lazy updates below.

* **`readEntries_lazyRecipient`**: such a read is the one below plus the reward, as long as the lazy
  updates below stay in the range of a balance. The walk starts from the reward, and what it has
  accumulated makes up the account together with what is left to visit (`Reaches`).
* **`lookup_writeSet`**: what is written at the locations of an account.
* **`writes_captured`**: so every account reads as the journal says, plus its rewards.
-/

namespace Pevm

open Interleaving MvMemory Saturating

/-- The account with a reward, which stops at `U256::MAX`. -/
def AccountBasic.plus (account : AccountBasic) (reward : Nat) : AccountBasic :=
  { account with balance := BitVec.ofNat 256 (min (account.balance.toNat + reward) (2 ^ 256 - 1)) }

theorem AccountBasic.toNat_plus (account : AccountBasic) (reward : Nat) :
    (account.plus reward).balance.toNat = min (account.balance.toNat + reward) (2 ^ 256 - 1) := by
  show (BitVec.ofNat 256 _).toNat = _
  rw [BitVec.toNat_ofNat, Nat.mod_eq_of_lt (by omega)]

theorem AccountBasic.eq_plus {account account' : AccountBasic} {reward : Nat}
    (hbalance : account'.balance.toNat = min (account.balance.toNat + reward) (2 ^ 256 - 1))
    (hnonce : account'.nonce = account.nonce) : account' = account.plus reward := by
  have heq : account'.balance = (account.plus reward).balance := by
    apply BitVec.eq_of_toNat_eq
    rw [hbalance, toNat_plus]
  show (⟨account'.balance, account'.nonce⟩ : AccountBasic) = account.plus reward
  rw [heq, hnonce]
  rfl

theorem AccountBasic.plus_zero (account : AccountBasic) : account.plus 0 = account := by
  have hlt := account.balance.isLt
  exact (eq_plus (by omega) rfl).symm

/-! ## A reward on top of lazy updates -/

namespace LazyEvaluation

/-- What was accumulated and the account below make up a balance, up to the largest one. -/
def Reaches (before : AccountBasic) (acc : LazyEvaluation) (balance : Nat) : Prop :=
  min (before.balance.toNat + acc.net) (2 ^ 256 - 1) = min (balance : Int) (2 ^ 256 - 1)

theorem Reaches.addRecipient {before : AccountBasic} {acc : LazyEvaluation} {balance : Nat}
    {addition : U256} (hfits : before.balance.toNat + addition.toNat < 2 ^ 256)
    (h : Reaches (before.after (some (.lazyRecipient addition))) acc balance) :
    Reaches before (acc.addRecipient addition) balance := by
  unfold Reaches at h ⊢
  simp only [AccountBasic.after, toNat_saturatingAdd] at h
  rw [net_addRecipient]
  unfold clamp
  omega

theorem Reaches.addSender {before : AccountBasic} {acc : LazyEvaluation} {balance : Nat}
    {subtraction : U256} (hfits : subtraction ≤ before.balance)
    (h : Reaches (before.after (some (.lazySender subtraction))) acc balance) :
    Reaches before (acc.addSender subtraction) balance := by
  have hbefore := before.balance.isLt
  unfold Reaches at h ⊢
  rw [BitVec.le_def] at hfits
  simp only [AccountBasic.after, toNat_saturatingSub] at h
  rw [net_addSender]
  unfold clamp
  omega

/-- The walk keeps the balance that it makes up. -/
theorem walk_reaches {start : AccountBasic} {balance : Nat} {eval : LazyEvaluation} :
    ∀ {entries : List (Nat × MemoryEntry)} {acc : LazyEvaluation},
      Reaches (start.forward entries.reverse) acc balance → start.InRange entries.reverse →
      acc.finalAccount = none → walk [] entries acc = .ok eval →
        Reaches (eval.finalAccount.getD start) eval balance
  | [], acc, hreach, _, hnone, h => by
    cases h
    rw [hnone]
    exact hreach
  | (i, .estimate) :: entries, acc, _, _, _, h => by cases h
  | (i, .data k value) :: entries, acc, hreach, hrange, hnone, h => by
    rw [inRange_cons] at hrange
    rw [forward_cons] at hreach
    -- the origins play no role in the accumulated change
    replace hreach : Reaches _
        { acc with newOrigins := acc.newOrigins ++ [.mvMemory ⟨i, k⟩] } balance := hreach
    simp only [walk, ne_eq, not_true_eq_false, false_and, if_false] at h
    cases value with
    | basic account =>
      cases h
      exact hreach
    | lazyRecipient addition =>
      exact walk_reaches (hreach.addRecipient hrange.2) hrange.1 (by simpa using hnone) h
    | lazySender subtraction =>
      exact walk_reaches (hreach.addSender hrange.2) hrange.1 (by simpa using hnone) h
    | codeHash _ | storage _ | selfDestructed => cases h

/-- The account that the change is applied to has the balance that they make up. -/
theorem Reaches.toNat_apply {before : AccountBasic} {acc : LazyEvaluation} {balance : Nat}
    (h : Reaches before acc balance) :
    (acc.apply before).balance.toNat = min balance (2 ^ 256 - 1) := by
  have hbefore := before.balance.isLt
  unfold Reaches net at h
  unfold LazyEvaluation.apply
  by_cases hpos : acc.positiveAddition = true
  · simp only [hpos, if_true] at h ⊢
    rw [toNat_saturatingAdd]
    omega
  · simp only [hpos, Bool.false_eq_true, if_false] at h ⊢
    rw [toNat_saturatingSub]
    omega

/-- **Two walks over the same entries** stay related when every step keeps them so, and both fail or
none does. -/
theorem walk_related {R : LazyEvaluation → LazyEvaluation → Prop}
    (hpush : ∀ {acc acc'} origins origins', R acc acc' →
      R { acc with newOrigins := origins } { acc' with newOrigins := origins' })
    (hbasic : ∀ {acc acc'} account, R acc acc' →
      R { acc with finalAccount := some account } { acc' with finalAccount := some account })
    (hrecipient : ∀ {acc acc'} addition, R acc acc' →
      R (acc.addRecipient addition) (acc'.addRecipient addition))
    (hsender : ∀ {acc acc'} subtraction, R acc acc' →
      R (acc.addSender subtraction) (acc'.addSender subtraction))
    {entries : List (Nat × MemoryEntry)} {acc acc' : LazyEvaluation} (h : R acc acc') :
    (∀ err, walk [] entries acc = .error err → walk [] entries acc' = .error err) ∧
    ∀ eval, walk [] entries acc = .ok eval →
      ∃ eval', walk [] entries acc' = .ok eval' ∧ R eval eval' := by
  induction entries generalizing acc acc' with
  | nil =>
    refine ⟨fun err h => (by cases h), fun eval hwalk => ?_⟩
    cases hwalk
    exact ⟨acc', rfl, h⟩
  | cons p entries ih =>
    obtain ⟨i, entry⟩ := p
    cases entry with
    | estimate => exact ⟨fun err h => h, fun eval h => by cases h⟩
    | data k value =>
      simp only [walk, ne_eq, not_true_eq_false, false_and, if_false]
      have hpushed := hpush (acc.newOrigins ++ [.mvMemory ⟨i, k⟩])
        (acc'.newOrigins ++ [.mvMemory ⟨i, k⟩]) h
      cases value with
      | basic account =>
        -- an absolute value ends both walks
        refine ⟨fun err h => (by cases h), fun eval hwalk => ?_⟩
        cases hwalk
        exact ⟨_, rfl, hbasic account hpushed⟩
      | lazyRecipient addition => exact ih (hrecipient addition hpushed)
      | lazySender subtraction => exact ih (hsender subtraction hpushed)
      | codeHash _ | storage _ | selfDestructed => exact ⟨fun err h => h, fun eval h => by cases h⟩

/-- The walks end in the same account and count the same nonces, whatever they add to the balance. -/
theorem walk_parallel {acc acc' : LazyEvaluation} {entries : List (Nat × MemoryEntry)}
    (h : acc'.finalAccount = acc.finalAccount ∧ acc'.nonceAddition = acc.nonceAddition) :
    (∀ err, walk [] entries acc = .error err → walk [] entries acc' = .error err) ∧
    ∀ eval, walk [] entries acc = .ok eval → ∃ eval', walk [] entries acc' = .ok eval' ∧
      eval'.finalAccount = eval.finalAccount ∧ eval'.nonceAddition = eval.nonceAddition := by
  have hrecipient : ∀ (acc : LazyEvaluation) (addition : U256),
      (acc.addRecipient addition).nonceAddition = acc.nonceAddition := by
    intro acc addition
    unfold addRecipient
    split_ifs <;> rfl
  have hsender : ∀ (acc : LazyEvaluation) (subtraction : U256),
      (acc.addSender subtraction).nonceAddition = acc.nonceAddition + 1 := by
    intro acc subtraction
    unfold addSender
    split_ifs <;> rfl
  refine walk_related (R := fun acc acc' => acc'.finalAccount = acc.finalAccount ∧
    acc'.nonceAddition = acc.nonceAddition) (fun _ _ h => h) (fun _ h => ⟨rfl, h.2⟩)
    (fun addition h => ?_) (fun subtraction h => ?_) h
  · rw [addRecipient_finalAccount, addRecipient_finalAccount, hrecipient, hrecipient]
    exact h
  · rw [addSender_finalAccount, addSender_finalAccount, hsender, hsender]
    exact ⟨h.1, congrArg (· + 1) h.2⟩

/-- The walk does not depend on the origins it starts from. -/
theorem walk_newOrigins_congr {acc acc' : LazyEvaluation} {entries : List (Nat × MemoryEntry)}
    (h : acc' = { acc with newOrigins := acc'.newOrigins }) :
    (∀ err, walk [] entries acc = .error err → walk [] entries acc' = .error err) ∧
    ∀ eval, walk [] entries acc = .ok eval → ∃ eval', walk [] entries acc' = .ok eval' ∧
      eval' = { eval with newOrigins := eval'.newOrigins } := by
  refine walk_related (R := fun acc acc' => acc' = { acc with newOrigins := acc'.newOrigins })
    (fun _ _ h => ?_) (fun _ h => ?_) (fun addition h => ?_) (fun subtraction h => ?_) h
  · rw [h]
  · rw [h]
  · rw [h]
    unfold addRecipient
    split_ifs <;> rfl
  · rw [h]
    unfold addSender
    split_ifs <;> rfl

/-- Two changes of one account that differ by a reward. -/
theorem apply_eq_plus {before : AccountBasic} {acc acc' : LazyEvaluation} {balance reward : Nat}
    (hlt : balance < 2 ^ 256) (h : Reaches before acc balance)
    (h' : Reaches before acc' (balance + reward))
    (hnonce : acc'.nonceAddition = acc.nonceAddition) :
    acc'.apply before = (acc.apply before).plus reward := by
  apply AccountBasic.eq_plus
  · rw [h.toNat_apply, h'.toNat_apply]
    omega
  · show before.nonce + acc'.nonceAddition = before.nonce + acc.nonceAddition
    rw [hnonce]

/-- The change of an account that the storage does not have. -/
theorem Reaches.pos_iff {acc : LazyEvaluation} {balance : Nat}
    (h : Reaches .default acc balance) : 0 < acc.balanceAddition ↔ 0 < balance := by
  have hmagnitude := acc.balanceAddition.isLt
  unfold Reaches net at h
  rw [show AccountBasic.default.balance.toNat = 0 from rfl] at h
  rw [BitVec.lt_def, show (0 : U256).toNat = 0 from rfl]
  split_ifs at h <;> omega

/-- The walk below a reward, and the one that goes on from it. -/
theorem walk_lazyRecipient {start : AccountBasic} {entries : List (Nat × MemoryEntry)}
    (i k : Nat) (reward : U256) (hrange : start.InRange entries.reverse) :
    (∀ err, walk [] entries .start = .error err →
      walk [] ((i, .data k (.lazyRecipient reward)) :: entries) .start = .error err) ∧
    ∀ eval, walk [] entries .start = .ok eval →
      ∃ eval', walk [] ((i, .data k (.lazyRecipient reward)) :: entries) .start = .ok eval' ∧
        eval'.finalAccount = eval.finalAccount ∧ eval'.nonceAddition = eval.nonceAddition ∧
        Reaches (eval.finalAccount.getD start) eval
          (start.forward entries.reverse).balance.toNat ∧
        Reaches (eval.finalAccount.getD start) eval'
          ((start.forward entries.reverse).balance.toNat + reward.toNat) := by
  obtain ⟨acc, hacc⟩ : ∃ acc, acc = addRecipient
      { LazyEvaluation.start with newOrigins := [.mvMemory ⟨i, k⟩] } reward := ⟨_, rfl⟩
  have hcons : walk [] ((i, .data k (.lazyRecipient reward)) :: entries) .start =
      walk [] entries acc := by
    rw [hacc]
    simp only [walk, ne_eq, not_true_eq_false, false_and, if_false]
    rfl
  have hfinal : acc.finalAccount = none := by
    rw [hacc]
    exact addRecipient_finalAccount _ _
  have hnonce : acc.nonceAddition = 0 := by
    rw [hacc]
    rfl
  have hnet : acc.net = reward.toNat := by
    have hlt := reward.isLt
    rw [hacc, net_addRecipient]
    simp only [net, LazyEvaluation.start, clamp, if_true]
    rw [show (0 : U256).toNat = 0 from rfl]
    omega
  have hparallel : (∀ err, walk [] entries .start = .error err →
      walk [] entries acc = .error err) ∧ _ := walk_parallel ⟨hfinal, hnonce⟩
  rw [hcons]
  refine ⟨hparallel.1, fun eval hwalk => ?_⟩
  -- the two walks differ in what they start with, by the reward
  obtain ⟨eval', hwalk', hfinal', hnonce'⟩ := hparallel.2 eval hwalk
  refine ⟨eval', hwalk', hfinal', hnonce', walk_reaches ?_ hrange rfl hwalk, ?_⟩
  · simp [Reaches, net, LazyEvaluation.start]
  · rw [← hfinal']
    refine walk_reaches ?_ hrange hfinal hwalk'
    rw [Reaches, hnet]
    push_cast
    rfl

end LazyEvaluation

namespace Vm

variable {T : Type} {vm : Vm T} {U : Set MemoryLocation} {v : TxVersion} {m m₁ m' : MvMemory}
  {n : Nat} {db : VmDb} {a : Address} {account : Account} {result : ExecutionResult}
  {state : EvmState} {writes : WriteSet}

/-- The account that a first read finds above some entries. -/
def readEntries (vm : Vm T) (a : Address) (entries : List (Nat × MemoryEntry)) :
    Except ReadError (Option AccountBasic) := do
  let eval ← LazyEvaluation.walk [] entries .start
  let eval ← vm.fallBackToStorage [] a eval
  .ok (eval.finalAccount.map eval.apply)

theorem basicAt_eq : vm.basicAt m n a = vm.readEntries a (m.entriesBelow (vm.hash (.basic a)) n) := by
  unfold basicAt readBasic readEntries
  rw [hashBasic_startDb]
  show Except.map _ ((LazyEvaluation.walk [] _ _) >>= _) = _
  cases LazyEvaluation.walk [] (m.entriesBelow (vm.hash (.basic a)) n) .start with
  | error err => rfl
  | ok eval =>
    show Except.map _ ((vm.fallBackToStorage [] a eval) >>= _) = (vm.fallBackToStorage [] a eval) >>= _
    cases vm.fallBackToStorage [] a eval with
    | error err => rfl
    | ok eval' =>
      cases hfinal : eval'.finalAccount with
      | none => simp [bind, Except.bind, Except.map, hfinal]
      | some base =>
        simp [bind, Except.bind, Except.map, hfinal, checkNonce, startDb, ReadSet.origins]

/-- The balance and nonce that are read, zero for a missing account. -/
def valueAt (vm : Vm T) (m : MvMemory) (n : Nat) (a : Address) : Except ReadError AccountBasic :=
  (vm.basicAt m n a).map (·.getD .default)

/-- The lazy updates of an account stay in the range of a balance, and the account is not read as
missing above them. -/
structure Settled (vm : Vm T) (m : MvMemory) (n : Nat) (a : Address) : Prop where
  inRange : (vm.evaluationStart a (m.entriesBelow (vm.hash (.basic a)) n).reverse).InRange
    (m.entriesBelow (vm.hash (.basic a)) n).reverse
  present : vm.basicAt m n a = .ok none → m.entriesBelow (vm.hash (.basic a)) n = []

/-- **A reward on top of lazy updates** adds to what is read below it. -/
theorem readEntries_lazyRecipient {entries : List (Nat × MemoryEntry)} {i k : Nat} {reward : U256}
    (hrange : (vm.evaluationStart a entries.reverse).InRange entries.reverse)
    (hpresent : vm.readEntries a entries = .ok none → entries = []) :
    (vm.readEntries a ((i, .data k (.lazyRecipient reward)) :: entries)).map (·.getD .default) =
      ((vm.readEntries a entries).map (·.getD .default)).map (·.plus reward.toNat) := by
  have hwalks := LazyEvaluation.walk_lazyRecipient i k reward hrange
  have hlt := ((vm.evaluationStart a entries.reverse).forward entries.reverse).balance.isLt
  unfold readEntries at hpresent ⊢
  cases hwalk : LazyEvaluation.walk [] entries .start with
  | error err =>
    rw [hwalks.1 err hwalk]
    rfl
  | ok eval =>
    obtain ⟨eval', hwalk', hfinal, hnonce, hreach, hreach'⟩ := hwalks.2 eval hwalk
    have happly := LazyEvaluation.apply_eq_plus hlt hreach hreach' hnonce
    rw [hwalk']
    rw [hwalk] at hpresent
    cases hbase : eval.finalAccount with
    | some base =>
      -- both walks end at an absolute value
      rw [hbase] at happly hfinal
      simp only [fallBackToStorage, bind, Except.bind, hbase, hfinal]
      exact congrArg Except.ok happly
    | none =>
      have hstart : vm.evaluationStart a entries.reverse = _ :=
        evaluationStart_of_isLazy (LazyEvaluation.walk_none hwalk hbase)
      rw [hbase] at happly hreach hreach' hfinal
      simp only [Option.getD_none] at happly hreach hreach'
      simp only [fallBackToStorage, bind, Except.bind, hbase, hfinal, ne_eq, not_true_eq_false,
        false_and, if_false] at hpresent ⊢
      cases hstorage : vm.storage.basic a with
      | error message => rfl
      | ok stored =>
        rw [hstorage] at hstart hpresent
        cases stored with
        | some account =>
          rw [show vm.evaluationStart a entries.reverse = account from hstart] at happly
          exact congrArg Except.ok happly
        | none =>
          rw [show vm.evaluationStart a entries.reverse = .default from hstart] at happly hreach hreach'
          have hpos := hreach.pos_iff
          have hpos' := hreach'.pos_iff
          by_cases hsome : 0 < eval.balanceAddition
          · -- the account was there, and is so with the reward
            have hsome' : 0 < eval'.balanceAddition := hpos'.mpr (by have := hpos.mp hsome; omega)
            simp only [if_pos hsome, if_pos hsome']
            exact congrArg Except.ok happly
          · -- missing above nothing
            simp only [if_neg hsome] at hpresent ⊢
            obtain rfl := hpresent rfl
            obtain rfl : eval = .start := (Except.ok.inj hwalk).symm
            by_cases hsome' : 0 < eval'.balanceAddition
            · simp only [if_pos hsome']
              exact congrArg Except.ok happly
            · have hzero : reward.toNat = 0 := by
                have := mt hpos'.mpr hsome'
                omega
              simp only [if_neg hsome', hzero]
              exact congrArg Except.ok (AccountBasic.plus_zero _).symm

/-- A reward of nothing leaves what is read. -/
theorem readEntries_lazyRecipient_zero {entries : List (Nat × MemoryEntry)} {i k : Nat}
    {reward : U256} (hzero : reward.toNat = 0) :
    vm.readEntries a ((i, .data k (.lazyRecipient reward)) :: entries) =
      vm.readEntries a entries := by
  obtain rfl : reward = 0 := BitVec.eq_of_toNat_eq hzero
  have hcons : LazyEvaluation.walk [] ((i, .data k (.lazyRecipient 0)) :: entries) .start =
      LazyEvaluation.walk [] entries
        { LazyEvaluation.start with newOrigins := [.mvMemory ⟨i, k⟩] } := by
    simp only [LazyEvaluation.walk, ne_eq, not_true_eq_false, false_and, if_false]
    rfl
  have hwalks : (∀ err, LazyEvaluation.walk [] entries .start = .error err →
      LazyEvaluation.walk [] entries
        { LazyEvaluation.start with newOrigins := [.mvMemory ⟨i, k⟩] } = .error err) ∧ _ :=
    LazyEvaluation.walk_newOrigins_congr rfl
  unfold readEntries
  rw [hcons]
  cases hwalk : LazyEvaluation.walk [] entries .start with
  | error err =>
    rw [hwalks.1 err hwalk]
  | ok eval =>
    obtain ⟨eval', hwalk', heq⟩ := hwalks.2 eval hwalk
    rw [hwalk', heq]
    unfold fallBackToStorage
    simp only [bind, Except.bind, ne_eq, not_true_eq_false, false_and, if_false]
    cases hbase : eval.finalAccount with
    | some base =>
      simp only [hbase]
      rfl
    | none =>
      cases hstorage : vm.storage.basic a with
      | error message => rfl
      | ok stored =>
        cases stored with
        | some account => rfl
        | none => rfl

/-! ## Rewards in the write set -/

/-- What the rewards make of the write at a location. -/
def credited (rewards : List (MemoryLocationHash × U256)) (l : MemoryLocationHash)
    (value : Option MemoryValue) : Option MemoryValue :=
  rewards.foldl (fun value p => if p.1 = l then some (credit p.2 value) else value) value

/-- The sum of the rewards at a location. -/
def total (rewards : List (MemoryLocationHash × U256)) (l : MemoryLocationHash) : Nat :=
  ((rewards.filter fun p => p.1 = l).map fun p => p.2.toNat).sum

section Credited

variable {rewards : List (MemoryLocationHash × U256)} {l : MemoryLocationHash}

theorem credited_cons {p : MemoryLocationHash × U256} {value : Option MemoryValue} :
    credited (p :: rewards) l value =
      credited rewards l (if p.1 = l then some (credit p.2 value) else value) := rfl

theorem total_cons {p : MemoryLocationHash × U256} :
    total (p :: rewards) l = (if p.1 = l then p.2.toNat else 0) + total rewards l := by
  unfold total
  rw [List.filter_cons]
  split_ifs <;> simp_all

/-- Where there is no reward, nothing changes. -/
theorem credited_of_not_mem {value : Option MemoryValue} (h : l ∉ AssocList.keys rewards) :
    credited rewards l value = value := by
  induction rewards with
  | nil => rfl
  | cons p rewards ih =>
    obtain ⟨l', amount⟩ := p
    obtain ⟨hne, hrest⟩ := not_or.mp (mt List.mem_cons.mpr h)
    rw [credited_cons, if_neg (Ne.symm hne), ih hrest]

/-- Rewards of an account that is written. -/
theorem credited_basic {account : AccountBasic} :
    credited rewards l (some (.basic account)) = some (.basic (account.plus (total rewards l))) := by
  induction rewards generalizing account with
  | nil => exact congrArg (fun a => some (MemoryValue.basic a)) (AccountBasic.plus_zero account).symm
  | cons p rewards ih =>
    rw [credited_cons, total_cons]
    split_ifs with hp
    · rw [credit, ih]
      refine congrArg (fun a => some (MemoryValue.basic a)) (AccountBasic.eq_plus ?_ rfl)
      rw [AccountBasic.toNat_plus]
      show min ((saturatingAdd account.balance p.2).toNat + _) _ = _
      rw [toNat_saturatingAdd]
      omega
    · rw [ih, Nat.zero_add]

/-- Rewards of an account that is not written are lazy. -/
theorem credited_lazyRecipient {addition : U256} :
    ∃ sum, credited rewards l (some (.lazyRecipient addition)) = some (.lazyRecipient sum) ∧
      sum.toNat = min (addition.toNat + total rewards l) (2 ^ 256 - 1) := by
  induction rewards generalizing addition with
  | nil =>
    have hlt := addition.isLt
    refine ⟨addition, rfl, ?_⟩
    show _ = min (addition.toNat + 0) _
    omega
  | cons p rewards ih =>
    rw [credited_cons, total_cons]
    split_ifs with hp
    · obtain ⟨sum, hsum, htoNat⟩ := @ih (saturatingAdd addition p.2)
      refine ⟨sum, hsum, ?_⟩
      rw [htoNat, toNat_saturatingAdd]
      omega
    · obtain ⟨sum, hsum, htoNat⟩ := @ih addition
      exact ⟨sum, hsum, by rw [htoNat, Nat.zero_add]⟩

theorem credited_none : (credited rewards l none = none ∧ total rewards l = 0) ∨
    ∃ sum, credited rewards l none = some (.lazyRecipient sum) ∧
      sum.toNat = min (total rewards l) (2 ^ 256 - 1) := by
  induction rewards with
  | nil => exact .inl ⟨rfl, rfl⟩
  | cons p rewards ih =>
    rw [credited_cons, total_cons]
    split_ifs with hp
    · exact .inr credited_lazyRecipient
    · rw [Nat.zero_add]
      exact ih

/-- Adding the rewards succeeds only where they meet writes of accounts. -/
theorem lookup_addReward {amount : U256} {writes writes' : WriteSet}
    (hnodup : (AssocList.keys writes).Nodup) (h : addReward l amount writes = .ok writes') :
    (AssocList.keys writes').Nodup ∧ ∀ l', writes'.lookup l' =
      if l' = l then some (credit amount (writes.lookup l)) else writes.lookup l' := by
  have hbasic : ∀ value, writes.lookup l = some value → value.isBasic = true := by
    clear hnodup
    induction writes generalizing writes' with
    | nil => exact fun value hvalue => by cases hvalue
    | cons p rest ih =>
      obtain ⟨location, value₀⟩ := p
      intro value hvalue
      rw [AssocList.lookup_cons] at hvalue
      unfold addReward at h
      split_ifs at h hvalue with hlocation hl
      · obtain rfl := Option.some.inj hvalue
        cases value₀ with
        | basic _ | lazySender _ | lazyRecipient _ => rfl
        | codeHash _ | storage _ | selfDestructed => cases h
      · exact absurd hlocation.symm hl
      · rename_i hl
        exact absurd hl.symm hlocation
      · obtain ⟨rest', hrest, -⟩ := map_eq_ok.mp h
        exact ih hrest value hvalue
  obtain ⟨writes₁, hok, hresult⟩ := addReward_spec l amount hnodup hbasic
  rw [h] at hok
  obtain rfl := Except.ok.inj hok
  exact hresult

theorem lookup_addRewards {writes writes' : WriteSet} (hnodup : (AssocList.keys writes).Nodup)
    (h : rewards.foldlM (fun writes (recipient, amount) => addReward recipient amount writes) writes =
      .ok writes') :
    (AssocList.keys writes').Nodup ∧
      ∀ l, writes'.lookup l = credited rewards l (writes.lookup l) := by
  induction rewards generalizing writes with
  | nil =>
    cases h
    exact ⟨hnodup, fun _ => rfl⟩
  | cons p rewards ih =>
    obtain ⟨recipient, amount⟩ := p
    rw [List.foldlM_cons] at h
    obtain ⟨writes₁, hone, hrest⟩ := bind_eq_ok.mp h
    obtain ⟨hnodup₁, hlookup⟩ := lookup_addReward hnodup hone
    obtain ⟨hnodup', hlookup'⟩ := ih hnodup₁ hrest
    refine ⟨hnodup', fun l => ?_⟩
    rw [hlookup', hlookup, credited_cons]
    by_cases hl : l = recipient
    · rw [if_pos hl, if_pos hl.symm, hl]
    · rw [if_neg hl, if_neg (Ne.symm hl)]

end Credited

/-! ## The writes of the accounts -/

/-- The writes of the slots of an account. -/
theorem lookup_slots (hU : vm.Separates U) {slots : List (U256 × StorageSlot)} {slot : U256}
    (hslots : ∀ p ∈ slots, .storage a p.1 ∈ U) (hslot : .storage a slot ∈ U) :
    (slots.map fun p => (vm.hash (.storage a p.1), MemoryValue.storage p.2.presentValue)).lookup
      (vm.hash (.storage a slot)) =
      (slots.lookup slot).map fun value => .storage value.presentValue := by
  induction slots with
  | nil => rfl
  | cons p slots ih =>
    obtain ⟨slot', value⟩ := p
    rw [List.map_cons, AssocList.lookup_cons, AssocList.lookup_cons,
      ih fun q hq => hslots q (List.mem_cons_of_mem _ hq)]
    have hmem := hslots (slot', value) List.mem_cons_self
    by_cases heq : slot = slot'
    · rw [if_pos heq, if_pos (by rw [heq])]
      rfl
    · rw [if_neg heq, if_neg fun hhash => ?_]
      exact heq (MemoryLocation.storage.inj (hU.injective hslot hmem hhash)).2

/-- A location that an account writes is one of its own. -/
theorem eq_hash_of_mem_keys {l : MemoryLocationHash}
    (h : l ∈ AssocList.keys (vm.accountWrites db a account)) :
    l = vm.hash (.basic a) ∨ l = vm.hash (.codeHash a) ∨
      ∃ p ∈ account.storage, l = vm.hash (.storage a p.1) := by
  obtain ⟨⟨l', value⟩, hmem, rfl⟩ := List.mem_map.mp h
  simp only [accountWrites] at hmem
  split at hmem
  · exact .inr (.inl (Prod.mk.inj (List.mem_singleton.mp hmem)).1)
  rcases List.mem_append.mp hmem with hmem | hmem
  · split at hmem
    · rcases List.mem_append.mp hmem with hmem | hmem
      · refine .inl ?_
        unfold basicWrites at hmem
        simp only at hmem
        split_ifs at hmem
        all_goals first
          | exact (Prod.mk.inj (List.mem_singleton.mp hmem)).1
          | cases hmem
      · split at hmem
        · exact .inr (.inl (Prod.mk.inj (List.mem_singleton.mp hmem)).1)
        · cases hmem
    · cases hmem
  · obtain ⟨p, hp, heq⟩ := List.mem_map.mp hmem
    exact .inr (.inr ⟨p, (List.mem_filter.mp hp).1, (Prod.mk.inj heq).1.symm⟩)

section Journal

variable (hU : vm.Separates U) (hused : EvmState.locations state ⊆ U)
include hU hused

/-- Of the accounts of the journal only `a` writes a location of `a`. -/
theorem lookup_accountWrites_of_ne {location : MemoryLocation} (hmem : (a, account) ∈ state)
    (hlocation : location ∈ U)
    (hother : location ≠ .basic a ∧ location ≠ .codeHash a ∧ ∀ slot, location ≠ .storage a slot) :
    (vm.accountWrites db a account).lookup (vm.hash location) = none := by
  apply AssocList.lookup_eq_none_iff.mpr
  intro hkey
  rcases eq_hash_of_mem_keys hkey with hhash | hhash | ⟨p, hp, hhash⟩
  · exact hother.1 (hU.injective hlocation (hused (EvmState.basic_mem_locations hmem)) hhash)
  · exact hother.2.1 (hU.injective hlocation (hused (EvmState.codeHash_mem_locations hmem)) hhash)
  · exact hother.2.2 p.1
      (hU.injective hlocation (hused (EvmState.storage_mem_locations hmem hp)) hhash)

/-- An account writes no location twice. -/
theorem nodup_accountWrites (hmem : (a, account) ∈ state)
    (hslots : (AssocList.keys account.storage).Nodup) :
    (AssocList.keys (vm.accountWrites db a account)).Nodup := by
  have hnodup : ((MemoryLocation.basic a :: .codeHash a ::
      account.storage.map fun p => .storage a p.1).map vm.hash).Nodup := by
    refine List.Nodup.map_on (fun l hl l' hl' heq => hU.injective (hused ?_) (hused ?_) heq) ?_
    · exact ⟨_, hmem, by simpa [eq_comm] using hl⟩
    · exact ⟨_, hmem, by simpa [eq_comm] using hl'⟩
    · have hstorage : (account.storage.map fun p => MemoryLocation.storage a p.1).Nodup := by
        rw [show (fun p : U256 × StorageSlot => MemoryLocation.storage a p.1) =
          MemoryLocation.storage a ∘ Prod.fst from rfl, ← List.map_map]
        exact hslots.map fun _ _ heq => (MemoryLocation.storage.inj heq).2
      simp [hstorage]
  refine hnodup.sublist ?_
  have hbasic : List.Sublist (AssocList.keys (vm.basicWrites db a account))
      [vm.hash (.basic a)] := by
    unfold basicWrites
    simp only
    split_ifs <;> simp [AssocList.keys]
  have hchanged : List.Sublist (account.changedStorageSlots.map fun p => vm.hash (.storage a p.1))
      (account.storage.map fun p => vm.hash (.storage a p.1)) :=
    List.filter_sublist.map _
  have hpieces : List.Sublist (([vm.hash (.basic a)] ++ [vm.hash (.codeHash a)]) ++
      account.storage.map fun p => vm.hash (.storage a p.1))
      ((MemoryLocation.basic a :: .codeHash a ::
        account.storage.map fun p => .storage a p.1).map vm.hash) := by
    simp [List.map_map, Function.comp_def]
  refine List.Sublist.trans ?_ hpieces
  unfold accountWrites
  split_ifs with hself htouched hnew
  · simp [AssocList.keys]
  · rw [AssocList.keys_append, AssocList.keys_append]
    refine List.Sublist.append (hbasic.append (List.Sublist.refl _)) ?_
    simpa [AssocList.keys, Function.comp_def] using hchanged
  · rw [AssocList.keys_append, AssocList.keys_append]
    refine List.Sublist.append (hbasic.append (List.nil_sublist _)) ?_
    simpa [AssocList.keys, Function.comp_def] using hchanged
  · rw [AssocList.keys_append]
    refine List.Sublist.append (List.nil_sublist _) ?_
    simpa [AssocList.keys, Function.comp_def] using hchanged

/-- The write of the balance and nonce of an account. -/
theorem lookup_accountWrites_basicWrites (hmem : (a, account) ∈ state) :
    (vm.accountWrites db a account).lookup (vm.hash (.basic a)) =
      if !account.isSelfdestructed && account.isTouched then
        (vm.basicWrites db a account).lookup (vm.hash (.basic a))
      else none := by
  have hbasic := hused (EvmState.basic_mem_locations hmem)
  have hcode : vm.hash (.basic a) ≠ vm.hash (.codeHash a) := fun heq => by
    cases hU.injective hbasic (hused (EvmState.codeHash_mem_locations hmem)) heq
  have hslots : ∀ f : U256 × StorageSlot → MemoryLocationHash × MemoryValue,
      (∀ p, f p = (vm.hash (.storage a p.1), .storage p.2.presentValue)) →
      (account.changedStorageSlots.map f).lookup (vm.hash (.basic a)) = none := by
    intro f hf
    apply AssocList.lookup_eq_none_iff.mpr
    intro hkey
    obtain ⟨_, hwrite, heq⟩ := List.mem_map.mp hkey
    obtain ⟨p, hp, rfl⟩ := List.mem_map.mp hwrite
    rw [hf] at heq
    have hstorage := hused (EvmState.storage_mem_locations hmem (List.mem_filter.mp hp).1)
    cases hU.injective hbasic hstorage heq.symm
  unfold accountWrites
  cases account.isSelfdestructed with
  | true => simp [AssocList.lookup_cons, hcode]
  | false =>
    cases account.isTouched with
    | false =>
      simp only [Bool.false_eq_true, if_false, List.nil_append, Bool.not_false, Bool.true_and]
      exact hslots _ fun _ => rfl
    | true =>
      simp only [Bool.false_eq_true, if_false, if_true, Bool.not_false, Bool.true_and]
      rw [AssocList.lookup_append, AssocList.lookup_append, hslots _ fun _ => rfl]
      cases vm.isNewCode db a account <;> simp [AssocList.lookup_cons, hcode]

/-- The write of the balance and nonce of an account of a transaction that is not lazy. -/
theorem lookup_accountWrites_basic (hmem : (a, account) ∈ state) (hfull : db.isLazy = false) :
    (vm.accountWrites db a account).lookup (vm.hash (.basic a)) =
      if !account.isSelfdestructed && account.isTouched &&
          (vm.isNewCode db a account || vm.isChanged db a account) &&
          (!vm.isEip161Enabled || !account.isEmpty) then
        some (.basic ⟨account.info.balance, account.info.nonce⟩)
      else none := by
  rw [lookup_accountWrites_basicWrites hU hused hmem]
  unfold basicWrites
  simp only [hfull, Bool.false_eq_true, if_false]
  cases account.isSelfdestructed <;> cases account.isTouched <;>
    cases vm.isNewCode db a account <;> cases vm.isChanged db a account <;>
    cases !vm.isEip161Enabled || !account.isEmpty <;> simp

/-- The write of a slot. -/
theorem lookup_accountWrites_storage {slot : U256} (hmem : (a, account) ∈ state)
    (hslot : .storage a slot ∈ U) (halive : account.isSelfdestructed = false) :
    (vm.accountWrites db a account).lookup (vm.hash (.storage a slot)) =
      (account.changedStorageSlots.lookup slot).map fun value => .storage value.presentValue := by
  have hchanged : ∀ p ∈ account.changedStorageSlots, .storage a p.1 ∈ U := fun p hp =>
    hused (EvmState.storage_mem_locations hmem (List.mem_filter.mp hp).1)
  have hbasic : vm.hash (.storage a slot) ≠ vm.hash (.basic a) := fun heq => by
    cases hU.injective hslot (hused (EvmState.basic_mem_locations hmem)) heq
  have hcode : vm.hash (.storage a slot) ≠ vm.hash (.codeHash a) := fun heq => by
    cases hU.injective hslot (hused (EvmState.codeHash_mem_locations hmem)) heq
  have hbefore : (vm.basicWrites db a account).lookup (vm.hash (.storage a slot)) = none := by
    unfold basicWrites
    simp only
    split_ifs <;> simp [AssocList.lookup_cons, hbasic]
  unfold accountWrites
  rw [halive, if_neg Bool.false_ne_true, AssocList.lookup_append]
  have hnone : (if account.isTouched then vm.basicWrites db a account ++
      if vm.isNewCode db a account then
        [(vm.hash (.codeHash a), MemoryValue.codeHash account.info.codeHash)] else []
      else []).lookup (vm.hash (.storage a slot)) = none := by
    split_ifs
    · rw [AssocList.lookup_append, hbefore]
      simp [AssocList.lookup_cons, hcode]
    · rw [AssocList.lookup_append, hbefore]
      rfl
    · rfl
  rw [hnone, Option.none_or]
  exact lookup_slots hU hchanged hslot

variable (hnodup : (AssocList.keys state).Nodup)
include hnodup

/-- The accounts of the journal write no location twice. -/
theorem nodup_journalWrites (hslots : ∀ p ∈ state, (AssocList.keys p.2.storage).Nodup) :
    (AssocList.keys (state.flatMap fun (address, account) =>
      vm.accountWrites db address account)).Nodup := by
  refine AssocList.nodup_keys_flatMap hnodup
    (fun p hp => nodup_accountWrites hU hused hp (hslots p hp)) fun p hp q hq hne l hl => ?_
  -- a location of one account is not written by another
  have hother : ∀ location, location ∈ EvmState.locations state → l = vm.hash location →
      (location ≠ .basic q.1 ∧ location ≠ .codeHash q.1 ∧ ∀ slot, location ≠ .storage q.1 slot) →
      l ∉ AssocList.keys (vm.accountWrites db q.1 q.2) := by
    rintro location hlocation rfl hdifferent
    apply AssocList.lookup_eq_none_iff.mp
    exact lookup_accountWrites_of_ne hU hused hq (hused hlocation) hdifferent
  rcases eq_hash_of_mem_keys hl with hhash | hhash | ⟨slot, hslot, hhash⟩
  · exact hother _ (EvmState.basic_mem_locations hp) hhash (by simp [hne])
  · exact hother _ (EvmState.codeHash_mem_locations hp) hhash (by simp [hne])
  · exact hother _ (EvmState.storage_mem_locations hp hslot) hhash (by simp [hne])

/-- A location of an account is written by that account. -/
theorem lookup_journalWrites {location : MemoryLocation} (hlocation : location ∈ U)
    (hown : ∀ b, b ≠ a → location ≠ .basic b ∧ location ≠ .codeHash b ∧
      ∀ slot, location ≠ .storage b slot) :
    (state.flatMap fun (address, account) => vm.accountWrites db address account).lookup
      (vm.hash location) =
      (state.lookup a).bind fun account =>
        (vm.accountWrites db a account).lookup (vm.hash location) :=
  AssocList.lookup_flatMap hnodup fun p hp hne =>
    lookup_accountWrites_of_ne hU hused hp hlocation (hown p.1 hne)

end Journal

/-! ## What the next transaction reads -/

/-- A slot is read from the closest entry. -/
theorem slotAt_congr {n' : Nat} {slot : U256}
    (h : m'.entriesBelow (vm.hash (.storage a slot)) n' =
      m.entriesBelow (vm.hash (.storage a slot)) n) :
    vm.slotAt m' n' a slot = vm.slotAt m n a slot := by
  unfold slotAt readStorage
  simp only [h]
  show Except.map _ _ = Except.map _ _
  rcases (m.entriesBelow (vm.hash (.storage a slot)) n).head? with _ | ⟨i, _ | _⟩
  · simp only [startDb, ReadSet.origins]
    cases vm.storage.storage a slot <;> rfl
  · rename_i k value
    cases value <;> rfl
  · rfl

theorem plus_min {account : AccountBasic} {reward : Nat} :
    account.plus (min reward (2 ^ 256 - 1)) = account.plus reward := by
  apply AccountBasic.eq_plus
  · rw [AccountBasic.toNat_plus]
    omega
  · rfl

/-- A Basic entry is what is read above it. -/
theorem readEntries_basic {entries : List (Nat × MemoryEntry)} {i k : Nat} {basic : AccountBasic} :
    vm.readEntries a ((i, .data k (.basic basic)) :: entries) = .ok (some basic) := by
  have happly : saturatingAdd basic.balance 0 = basic.balance := saturatingAdd_zero _
  have hnonce : basic.nonce + 0 = basic.nonce := BitVec.add_zero _
  unfold readEntries
  simp only [LazyEvaluation.walk, ne_eq, not_true_eq_false, false_and, if_false, bind, Except.bind,
    fallBackToStorage, LazyEvaluation.start, Option.map_some, LazyEvaluation.apply, if_true,
    happly, hnonce]

theorem lookup_changedStorageSlots {slot : U256}
    (hnodup : (AssocList.keys account.storage).Nodup) :
    account.changedStorageSlots.lookup slot =
      (account.storage.lookup slot).filter fun value => value.originalValue ≠ value.presentValue := by
  have hfilter := AssocList.lookup_map_filter (k := slot) (f := id)
    (p := fun value : StorageSlot => decide (value.originalValue ≠ value.presentValue)) hnodup
  rw [Option.map_id] at hfilter
  refine Eq.trans ?_ hfilter
  show _ = (account.changedStorageSlots.map id).lookup slot
  rw [List.map_id]

/-- What is assumed of revm about the journal of a transaction that starts from the memory `m`. -/
structure JournalOf (vm : Vm T) (m : MvMemory) (n : Nat) (state : EvmState) : Prop where
  /-- a map of accounts -/
  nodup : (AssocList.keys state).Nodup
  /-- each with a map of slots -/
  nodupSlots : ∀ p ∈ state, (AssocList.keys p.2.storage).Nodup
  /-- an account that is not touched is unchanged -/
  untouched : ∀ p ∈ state, p.2.isTouched = false →
    vm.valueAt m n p.1 = .ok ⟨p.2.info.balance, p.2.info.nonce⟩
  /-- a slot that is not listed as changed has the value it was read with -/
  slots : ∀ p ∈ state, p.2.isSelfdestructed = false → ∀ q ∈ p.2.storage,
    q.2.originalValue = q.2.presentValue → vm.slotAt m n p.1 q.1 = .ok q.2.presentValue
  /-- EIP-161: a touched account that is empty afterwards was empty before -/
  empty : vm.isEip161Enabled = true → ∀ p ∈ state, p.2.isTouched = true →
    p.2.isSelfdestructed = false → p.2.isEmpty = true → vm.valueAt m n p.1 = .ok .default

/-- The journal and the rewards are what the next transaction reads. Of the balances this is said at
the accounts that are `settled`. -/
structure CapturesWrites (vm : Vm T) (U : Set MemoryLocation) (m m' : MvMemory) (n : Nat)
    (state : EvmState) (rewards : List (MemoryLocationHash × U256)) (settled : Address → Prop) :
    Prop where
  account : ∀ p ∈ state, p.2.isSelfdestructed = false → settled p.1 → vm.valueAt m' (n + 1) p.1 =
    .ok (AccountBasic.plus ⟨p.2.info.balance, p.2.info.nonce⟩
      (total rewards (vm.hash (.basic p.1))))
  slot : ∀ p ∈ state, p.2.isSelfdestructed = false → ∀ q ∈ p.2.storage,
    vm.slotAt m' (n + 1) p.1 q.1 = .ok q.2.presentValue
  rewarded : ∀ a, .basic a ∈ U → a ∉ AssocList.keys state → settled a →
    vm.valueAt m' (n + 1) a = (vm.valueAt m n a).map (·.plus (total rewards (vm.hash (.basic a))))
  other : ∀ a, .basic a ∈ U → (∀ p ∈ state, p.1 = a → p.2.isTouched = false) →
    vm.hash (.basic a) ∉ AssocList.keys rewards → vm.basicAt m' (n + 1) a = vm.basicAt m n a
  otherSlot : ∀ a slot, .storage a slot ∈ U →
    (∀ p ∈ state, p.1 = a → slot ∉ AssocList.keys p.2.storage) →
    vm.slotAt m' (n + 1) a slot = vm.slotAt m n a slot

/-- If the account is rewarded and the transaction leaves it as it is, its lazy updates below are
settled. -/
def RewardSettled (vm : Vm T) (m : MvMemory) (n : Nat) (state : EvmState)
    (rewards : List (MemoryLocationHash × U256)) (a : Address) : Prop :=
  0 < total rewards (vm.hash (.basic a)) →
    (∀ p ∈ state, p.1 = a → p.2.isSelfdestructed = false ∧
      vm.valueAt m n a = .ok ⟨p.2.info.balance, p.2.info.nonce⟩) → vm.Settled m n a

/-- An account that is not written reads as before, with its rewards. -/
theorem valueAt_of_unwritten {rewards : List (MemoryLocationHash × U256)} {k : Nat}
    (hentries : m'.entriesBelow (vm.hash (.basic a)) (n + 1) =
      ((credited rewards (vm.hash (.basic a)) none).map fun value =>
        (n, MemoryEntry.data k value)).toList ++ m.entriesBelow (vm.hash (.basic a)) n)
    (hsettled : 0 < total rewards (vm.hash (.basic a)) → vm.Settled m n a) :
    vm.valueAt m' (n + 1) a =
      (vm.valueAt m n a).map (·.plus (total rewards (vm.hash (.basic a)))) := by
  have hzero : ∀ x : Except ReadError AccountBasic, x.map (·.plus 0) = x := by
    intro x
    cases x with
    | error err => rfl
    | ok account => exact congrArg Except.ok (AccountBasic.plus_zero account)
  unfold valueAt
  rw [basicAt_eq, basicAt_eq, hentries]
  have hcredited : (credited rewards (vm.hash (.basic a)) none = none ∧ _) ∨ _ := credited_none
  rcases hcredited with ⟨hnone, htotal⟩ | ⟨sum, hsum, htoNat⟩
  · rw [hnone, htotal, hzero]
    rfl
  · rw [hsum]
    show Except.map _ (vm.readEntries a ((n, .data k (.lazyRecipient sum)) ::
      m.entriesBelow (vm.hash (.basic a)) n)) = _
    by_cases hpos : 0 < total rewards (vm.hash (.basic a))
    · obtain ⟨hrange, hpresent⟩ := hsettled hpos
      rw [basicAt_eq] at hpresent
      rw [readEntries_lazyRecipient hrange hpresent, htoNat]
      simp only [plus_min]
    · have htotal : total rewards (vm.hash (.basic a)) = 0 := by omega
      rw [readEntries_lazyRecipient_zero (by omega), htotal, hzero]

/-- What is in the entries of an execution after its `record`. -/
theorem entriesBelow_of_writes (hU : vm.Separates U) {k : Nat}
    (hstarted : vm.Started v db) (hwrites : vm.WritesOf U v db result state writes)
    (hnodup : (AssocList.keys state).Nodup)
    (hslots : ∀ p ∈ state, (AssocList.keys p.2.storage).Nodup)
    (hentries : ∀ l, m'.entriesBelow l (n + 1) = ((AssocList.lookupLast writes l).map fun value =>
      (n, MemoryEntry.data k value)).toList ++ m.entriesBelow l n) (l : MemoryLocationHash) :
    m'.entriesBelow l (n + 1) =
      ((credited (vm.rewards (vm.txs v.txIdx) result.txGasUsed) l
        ((state.flatMap fun (address, account) => vm.accountWrites db address account).lookup
          l)).map fun value => (n, MemoryEntry.data k value)).toList ++ m.entriesBelow l n := by
  have hok := hwrites.writes
  rw [writeSet_eq_rewards vm hstarted.tx] at hok
  obtain ⟨hkeys, hlookup⟩ := lookup_addRewards
    (nodup_journalWrites hU hwrites.used hnodup hslots) hok
  rw [hentries, AssocList.lookupLast_eq_lookup hkeys, hlookup]

/-- An account that is not written was read as it is in the journal. -/
theorem valueAt_eq_of_unwritten (hU : vm.Separates U) (hjournal : vm.JournalOf m n state)
    {given : List (Address × Option AccountInfo)} (hback : vm.ReadsBack U m n db given)
    (hmem : (a, account) ∈ state) (ha : .basic a ∈ U) (halive : account.isSelfdestructed = false)
    (hunwritten : ¬ (!account.isSelfdestructed && account.isTouched &&
      (vm.isNewCode db a account || vm.isChanged db a account) &&
      (!vm.isEip161Enabled || !account.isEmpty)) = true) :
    vm.valueAt m n a = .ok ⟨account.info.balance, account.info.nonce⟩ := by
  cases htouched : account.isTouched with
  | false => exact hjournal.untouched _ hmem htouched
  | true =>
    rw [halive, htouched] at hunwritten
    by_cases hempty : vm.isEip161Enabled = true ∧ account.isEmpty = true
    · -- an empty account is cleared, and was empty
      rw [hjournal.empty hempty.1 _ hmem htouched halive hempty.2]
      obtain ⟨⟨-, hbalance⟩, hnonce⟩ : (_ ∧ account.info.balance = 0) ∧ account.info.nonce = 0 := by
        simpa [Account.isEmpty, AccountInfo.isEmpty] using hempty.2
      rw [hbalance, hnonce]
      rfl
    · have hkept : vm.isChanged db a account = false := by
        by_contra hchanged
        apply hunwritten
        cases heip : vm.isEip161Enabled <;> cases hempty' : account.isEmpty <;> simp_all
      unfold isChanged at hkept
      cases hlookup : db.readAccounts.lookup (vm.hash (.basic a)) with
      | none =>
        rw [hlookup] at hkept
        cases hkept
      | some read =>
        obtain ⟨basic, codeHash⟩ := read
        rw [hlookup] at hkept
        obtain ⟨hnonce, hbalance⟩ : basic.nonce = account.info.nonce ∧
            basic.balance = account.info.balance := by
          simpa using hkept
        unfold valueAt
        rw [(hback.of_lookup hU ha hlookup).1, ← hnonce, ← hbalance]
        rfl

/-- What an execution that is not lazy leaves at a location: what its journal writes there, with the
rewards on top, and the entries from before. -/
structure WroteJournal (vm : Vm T) (U : Set MemoryLocation) (m m' : MvMemory) (n k : Nat) (db : VmDb)
    (state : EvmState) (rewards : List (MemoryLocationHash × U256)) : Prop where
  used : EvmState.locations state ⊆ U
  journal : vm.JournalOf m n state
  full : db.isLazy = false
  accounts : ∀ p ∈ rewards, ∃ a, .basic a ∈ U ∧ p.1 = vm.hash (.basic a)
  entries : ∀ l, m'.entriesBelow l (n + 1) =
    ((credited rewards l ((state.flatMap fun (address, account) =>
      vm.accountWrites db address account).lookup l)).map fun value =>
        (n, MemoryEntry.data k value)).toList ++ m.entriesBelow l n

namespace WroteJournal

variable {k : Nat} {rewards : List (MemoryLocationHash × U256)} {slot : U256} {p : Address × Account}
  (hU : vm.Separates U) (h : vm.WroteJournal U m m' n k db state rewards)
include h

theorem lookup_eq (hp : p ∈ state) : state.lookup p.1 = some p.2 :=
  AssocList.lookup_eq_some_of_mem h.journal.nodup hp

include hU

/-- At an account only its own writes are left. -/
theorem basicEntries (ha : .basic a ∈ U) : m'.entriesBelow (vm.hash (.basic a)) (n + 1) =
    ((credited rewards (vm.hash (.basic a)) ((state.lookup a).bind fun account =>
      (vm.accountWrites db a account).lookup (vm.hash (.basic a)))).map fun value =>
        (n, MemoryEntry.data k value)).toList ++ m.entriesBelow (vm.hash (.basic a)) n := by
  have hown : ∀ b, b ≠ a → MemoryLocation.basic a ≠ .basic b ∧ MemoryLocation.basic a ≠ .codeHash b ∧
      ∀ slot, MemoryLocation.basic a ≠ .storage b slot := fun b hne => by simp [Ne.symm hne]
  rw [h.entries, lookup_journalWrites hU h.used h.journal.nodup ha hown]

/-- At a slot there are no rewards. -/
theorem slotEntries (hslot : .storage a slot ∈ U) :
    m'.entriesBelow (vm.hash (.storage a slot)) (n + 1) =
      (((state.lookup a).bind fun account => (vm.accountWrites db a account).lookup
        (vm.hash (.storage a slot))).map fun value => (n, MemoryEntry.data k value)).toList ++
          m.entriesBelow (vm.hash (.storage a slot)) n := by
  have hnoReward : vm.hash (.storage a slot) ∉ AssocList.keys rewards := by
    intro hkey
    obtain ⟨p, hreward, heq⟩ := List.mem_map.mp hkey
    obtain ⟨b, hb, hp⟩ := h.accounts p hreward
    cases hU.injective hslot hb (heq.symm.trans hp)
  have hown : ∀ b, b ≠ a → MemoryLocation.storage a slot ≠ .basic b ∧
      MemoryLocation.storage a slot ≠ .codeHash b ∧
      ∀ slot', MemoryLocation.storage a slot ≠ .storage b slot' := fun b hne => by simp [Ne.symm hne]
  rw [h.entries, credited_of_not_mem hnoReward,
    lookup_journalWrites hU h.used h.journal.nodup hslot hown]

/-- An account of the journal is read with its reward, whether it was written or not. -/
theorem valueAt_account {given : List (Address × Option AccountInfo)}
    (hback : vm.ReadsBack U m n db given) (hp : p ∈ state) (halive : p.2.isSelfdestructed = false)
    (hsettled : vm.RewardSettled m n state rewards p.1) :
    vm.valueAt m' (n + 1) p.1 = .ok (AccountBasic.plus ⟨p.2.info.balance, p.2.info.nonce⟩
      (total rewards (vm.hash (.basic p.1)))) := by
  have ha := h.used (EvmState.basic_mem_locations hp)
  have hentry := h.basicEntries hU ha
  rw [h.lookup_eq hp, Option.bind_some, lookup_accountWrites_basic hU h.used hp h.full] at hentry
  split_ifs at hentry with hwritten
  · unfold valueAt
    rw [basicAt_eq, hentry, credited_basic]
    show Except.map _ (vm.readEntries p.1 ((n, .data k (.basic _)) ::
      m.entriesBelow (vm.hash (.basic p.1)) n)) = _
    rw [readEntries_basic]
    rfl
  · -- it was read as it is in the journal, and only the reward is added
    have hsame := valueAt_eq_of_unwritten hU h.journal hback hp ha halive hwritten
    have hunchanged : ∀ q ∈ state, q.1 = p.1 → q.2.isSelfdestructed = false ∧
        vm.valueAt m n p.1 = .ok ⟨q.2.info.balance, q.2.info.nonce⟩ := by
      intro q hq heq
      have hboth := h.lookup_eq hq
      rw [heq, h.lookup_eq hp] at hboth
      obtain rfl : q = p := Prod.ext heq (Option.some.inj hboth).symm
      exact ⟨halive, hsame⟩
    rw [valueAt_of_unwritten hentry fun hpos => hsettled hpos hunchanged, hsame]
    rfl

/-- A slot of the journal is read with its value, whether it was changed or not. -/
theorem slotAt_account (hp : p ∈ state) (halive : p.2.isSelfdestructed = false)
    {q : U256 × StorageSlot} (hq : q ∈ p.2.storage) :
    vm.slotAt m' (n + 1) p.1 q.1 = .ok q.2.presentValue := by
  have hslot := h.used (EvmState.storage_mem_locations hp hq)
  have hentry := h.slotEntries hU hslot
  rw [h.lookup_eq hp, Option.bind_some, lookup_accountWrites_storage hU h.used hp hslot halive,
    lookup_changedStorageSlots (h.journal.nodupSlots p hp),
    AssocList.lookup_eq_some_of_mem (h.journal.nodupSlots p hp) hq] at hentry
  by_cases hchanged : q.2.originalValue = q.2.presentValue
  · rw [← h.journal.slots p hp halive q hq hchanged]
    refine slotAt_congr (hentry.trans ?_)
    simp [Option.filter, hchanged]
  · refine slotAt_eq_ok_iff.mpr ⟨.mvMemory ⟨n, k⟩, ?_⟩
    rw [hentry]
    simp [Option.filter, hchanged, storageSource]

/-- An account that the journal does not have only gets its reward. -/
theorem valueAt_rewarded (ha : .basic a ∈ U) (hno : a ∉ AssocList.keys state)
    (hsettled : vm.RewardSettled m n state rewards a) : vm.valueAt m' (n + 1) a =
      (vm.valueAt m n a).map (·.plus (total rewards (vm.hash (.basic a)))) := by
  have hentry := h.basicEntries hU ha
  rw [AssocList.lookup_eq_none_iff.mpr hno] at hentry
  refine valueAt_of_unwritten hentry fun hpos => hsettled hpos fun p hp heq => ?_
  exact absurd (List.mem_map.mpr ⟨p, hp, heq⟩) hno

/-- An account that is neither touched nor rewarded is read as before. -/
theorem basicAt_other (ha : .basic a ∈ U) (huntouched : ∀ p ∈ state, p.1 = a → p.2.isTouched = false)
    (hno : vm.hash (.basic a) ∉ AssocList.keys rewards) :
    vm.basicAt m' (n + 1) a = vm.basicAt m n a := by
  rw [basicAt_eq, basicAt_eq, h.basicEntries hU ha, credited_of_not_mem hno]
  cases hstate : state.lookup a with
  | none => rfl
  | some account =>
    have hp := AssocList.mem_of_lookup_eq_some hstate
    rw [Option.bind_some, lookup_accountWrites_basic hU h.used hp h.full, huntouched _ hp rfl]
    simp

/-- A slot that the journal does not have is read as before. -/
theorem slotAt_other (hslot : .storage a slot ∈ U)
    (hno : ∀ p ∈ state, p.1 = a → slot ∉ AssocList.keys p.2.storage) :
    vm.slotAt m' (n + 1) a slot = vm.slotAt m n a slot := by
  refine slotAt_congr ((h.slotEntries hU hslot).trans ?_)
  cases hstate : state.lookup a with
  | none => rfl
  | some account =>
    have hp := AssocList.mem_of_lookup_eq_some hstate
    have hnone : (vm.accountWrites db a account).lookup (vm.hash (.storage a slot)) = none := by
      apply AssocList.lookup_eq_none_iff.mpr
      intro hkey
      rcases eq_hash_of_mem_keys hkey with hhash | hhash | ⟨q, hq, hhash⟩
      · cases hU.injective hslot (h.used (EvmState.basic_mem_locations hp)) hhash
      · cases hU.injective hslot (h.used (EvmState.codeHash_mem_locations hp)) hhash
      · cases hU.injective hslot (h.used (EvmState.storage_mem_locations hp hq)) hhash
        exact hno _ hp rfl (List.mem_map_of_mem hq)
    rw [Option.bind_some, hnone]
    rfl

end WroteJournal

/-- **The full write set captures every change of balances, nonces and slots.** After an execution
that is not lazy and its `record`, the next transaction reads the accounts of the journal with their
rewards, and everything else as before. An account that is rewarded without being changed is read so
if its lazy updates below are settled. -/
theorem writes_captured (hU : vm.Separates U) (hv : v.txIdx < vm.blockSize)
    (hpays : vm.PaysAccounts U v.txIdx) {w : WorkerId} {concurrencyLevel : Nat} {wrote : Bool}
    (hfree : m.lastLocationsHolder v.txIdx = none)
    (hreg : Registered (vm.config concurrencyLevel).estimatedLocations
      (vm.config concurrencyLevel).lazyAddresses m v.txIdx)
    (hrun : vm.Executes U v m m₁ ⟨db, .record result state writes⟩) (hfull : db.isLazy = false)
    (hrecord : Completes (fun m pc => m.recordStep w v db.readSet writes pc) m₁ .lock m' wrote)
    (hjournal : vm.JournalOf m v.txIdx state) :
    vm.CapturesWrites U m m' v.txIdx state (vm.rewards (vm.txs v.txIdx) result.txGasUsed)
      (vm.RewardSettled m v.txIdx state (vm.rewards (vm.txs v.txIdx) result.txGasUsed)) := by
  have hexec := executed hU hv hrun
  obtain ⟨-, given, -, hback⟩ := hexec.seen
  have hreplaced := replaced_of_record hpays hexec hfree hreg hrecord
  have hwrote : vm.WroteJournal U m m' v.txIdx v.txIncarnation db state
      (vm.rewards (vm.txs v.txIdx) result.txGasUsed) :=
    { used := hexec.known.2.1.used
      journal := hjournal
      full := hfull
      accounts := fun p hp => hpays.account _ _ _ p.1 p.2 hp
      entries := entriesBelow_of_writes hU hexec.known.1 hexec.known.2.1 hjournal.nodup
        hjournal.nodupSlots (entriesBelow_of_replaced hexec.data hreplaced) }
  exact
    { account := fun p hp halive hsettled => hwrote.valueAt_account hU hback hp halive hsettled
      slot := fun p hp halive q hq => hwrote.slotAt_account hU hp halive hq
      rewarded := fun a ha hno hsettled => hwrote.valueAt_rewarded hU ha hno hsettled
      other := fun a ha huntouched hno => hwrote.basicAt_other hU ha huntouched hno
      otherSlot := fun a slot hslot hno => hwrote.slotAt_other hU hslot hno }

end Vm

namespace Sample

/-- The journal of a call of the counter that pays 500 for its gas. -/
def counted (given : List (Address × Option AccountInfo)) : ExecutionResult × EvmState :=
  (⟨true, 500, []⟩, given.map fun p => (p.1,
    if p.1 = counter then touched (orEmpty p.2) [(0, ⟨0, 5⟩)]
    else touched { orEmpty p.2 with
      balance := (orEmpty p.2).balance - 500, nonce := (orEmpty p.2).nonce + 1 } []))

/-- A block of two calls of the counter with a gas price of 1. -/
def rewardVm : Vm TxEnv :=
  { vm with
    blockSize := 2
    txs := fun _ => { tx 2 counter 0 with gasPrice := 1 }
    evm := fun _ => loadAll counted [2, counter] [] }

theorem reward_separates : rewardVm.Separates { l | l ∈ locations } where
  injective := separates.injective
  fees := separates.fees
  caller _ _ := by
    show .basic 2 ∈ locations
    decide
  recipient _ _ a ha := by
    obtain rfl := Option.some.inj ha
    decide

/-- The memory below transaction 1, with a lazy update of the beneficiary. -/
def updated (value : MemoryValue) : MvMemory :=
  (MvMemory.new (rewardVm.config 1).estimatedLocations
    (rewardVm.config 1).lazyAddresses).insertEntry (hash (.basic beneficiary)) 0 (.data 0 value)

theorem updated_registered (value : MemoryValue) :
    Registered (rewardVm.config 1).estimatedLocations (rewardVm.config 1).lazyAddresses
      (updated value) 1 where
  nodup := List.nodup_nil
  holds l hl := by cases hl
  outside l e he _ := by
    rw [updated, entry_insertEntry, if_neg (fun h => absurd h.2 (by decide))] at he
    exact ⟨(new_entry he).1, Option.isSome_iff_exists.mpr ⟨e, he⟩⟩

/-- What is to be seen at the end of the execution of transaction 1, after its `record`. -/
def checkCounted (account : AccountBasic) (p : MvMemory × Vm.Execution) : Bool :=
  match p.2.pc with
  | .record result state writes =>
    ((complete (fun m pc => MvMemory.recordStep 0 ⟨1, 0⟩ p.2.db.readSet writes m pc) 20 p.1
      .lock).any fun q =>
        decide ((rewardVm.valueAt q.1 2 beneficiary).toOption = some account)) &&
    !p.2.db.isLazy && decide (result.txGasUsed = 500) &&
    decide (AssocList.keys state = [counter, 2]) &&
    state.all fun p => p.2.isTouched && !p.2.isEmpty && decide (AssocList.keys p.2.storage).Nodup &&
      p.2.storage.all fun q => decide (q.2.originalValue ≠ q.2.presentValue)
  | _ => false

/-- The execution of transaction 1 on such a memory, and its `record`. -/
theorem exists_counted {value : MemoryValue} {account : AccountBasic}
    (h : ((executeFor rewardVm ⟨1, 0⟩ locations 8 (updated value)
      (rewardVm.start ⟨1, 0⟩)).any (checkCounted account)) = true) :
    ∃ m₁ db result state writes m' wrote,
      rewardVm.Executes { l | l ∈ locations } ⟨1, 0⟩ (updated value) m₁
        ⟨db, .record result state writes⟩ ∧ db.isLazy = false ∧
      Completes (fun m pc => m.recordStep 0 ⟨1, 0⟩ db.readSet writes pc) m₁ .lock m' wrote ∧
      rewardVm.JournalOf (updated value) 1 state ∧ AssocList.keys state = [counter, 2] ∧
      result.txGasUsed = 500 ∧ rewardVm.valueAt m' 2 beneficiary = .ok account := by
  obtain ⟨⟨m₁, db, pc⟩, hexecute, hcheck⟩ := (Option.any_eq_true _ _).mp h
  cases pc with
  | record result state writes =>
    simp only [checkCounted, Bool.and_eq_true, decide_eq_true_eq, Bool.not_eq_true',
      List.all_eq_true] at hcheck
    obtain ⟨⟨⟨⟨hrecord, hlazy⟩, hgas⟩, hkeys⟩, hall⟩ := hcheck
    obtain ⟨⟨m', wrote⟩, hcomplete, hread⟩ := (Option.any_eq_true _ _).mp hrecord
    have hvalue : rewardVm.valueAt m' 2 beneficiary = .ok account := by
      simp only [decide_eq_true_eq] at hread
      cases hat : rewardVm.valueAt m' 2 beneficiary with
      | ok account' =>
        rw [hat] at hread
        exact congrArg _ (Option.some.inj hread)
      | error err =>
        rw [hat] at hread
        cases hread
    refine ⟨m₁, db, result, state, writes, m', wrote, executes_of_executeFor hexecute, hlazy,
      completes_of_complete hcomplete, ⟨?_, fun p hp => (hall p hp).1.2, fun p hp huntouched => ?_,
        fun p hp _ q hq hsame => ?_, fun _ p hp _ _ hempty => ?_⟩, hkeys, hgas, hvalue⟩
    · rw [hkeys]
      decide
    · rw [(hall p hp).1.1.1] at huntouched
      cases huntouched
    · exact absurd hsame ((hall p hp).2 q hq)
    · rw [(hall p hp).1.1.2] at hempty
      cases hempty
  | _ => cases hcheck

/-- The rewards of the transactions of the block. -/
theorem rewards_counted : rewardVm.rewards (rewardVm.txs 1) 500 =
    [(hash (.basic beneficiary), 500)] := by
  decide +kernel

end Sample

/-- The beneficiary received 7 from transaction 0 and gets 500 for the gas of transaction 1. Its lazy
updates are settled, so that the next transaction reads both. -/
theorem writes_captured_sample : ∃ m' state,
    Sample.rewardVm.CapturesWrites { l | l ∈ Sample.locations } (Sample.updated (.lazyRecipient 7)) m'
      1 state [(Sample.hash (.basic Sample.beneficiary), 500)]
      (Sample.rewardVm.RewardSettled (Sample.updated (.lazyRecipient 7)) 1 state
        [(Sample.hash (.basic Sample.beneficiary), 500)]) ∧
    Sample.rewardVm.RewardSettled (Sample.updated (.lazyRecipient 7)) 1 state
      [(Sample.hash (.basic Sample.beneficiary), 500)] Sample.beneficiary ∧
    Sample.rewardVm.valueAt m' 2 Sample.beneficiary = .ok ⟨1507, 0⟩ := by
  obtain ⟨m₁, db, result, state, writes, m', wrote, hrun, hfull, hrecord, hjournal, hkeys, hgas,
    hvalue⟩ := @Sample.exists_counted (.lazyRecipient 7) ⟨1507, 0⟩
      (by decide +kernel)
  have hrewards : Sample.rewardVm.rewards (Sample.rewardVm.txs 1) result.txGasUsed =
      [(Sample.hash (.basic Sample.beneficiary), 500)] := by
    rw [hgas]
    exact Sample.rewards_counted
  refine ⟨m', state, ?_, fun _ _ => ⟨by decide +kernel, fun hnone => ?_⟩, hvalue⟩
  · rw [← hrewards]
    exact Vm.writes_captured Sample.reward_separates (by decide)
      (Vm.paysAccounts_of_source (.ethereum true) Sample.reward_separates 1) rfl
      (Sample.updated_registered _) hrun hfull hrecord hjournal
  · have hsome : Sample.rewardVm.basicAt (Sample.updated (.lazyRecipient 7)) 1 Sample.beneficiary =
        .ok (some ⟨1007, 0⟩) := by
      decide +kernel
    rw [hsome] at hnone
    cases hnone

/-- **A reward above an overdraft is not read.** Transaction 0 spends 5000 lazily from the
beneficiary, which has 1000; it is read with 0. Transaction 1 pays it 500, and the next transaction
still reads 0. -/
theorem overdrawn_reward_is_lost : ∃ m₁ db result state writes m' wrote,
    Sample.rewardVm.Executes { l | l ∈ Sample.locations } ⟨1, 0⟩
      (Sample.updated (.lazySender 5000)) m₁ ⟨db, .record result state writes⟩ ∧
    db.isLazy = false ∧
    Completes (fun m pc => m.recordStep 0 ⟨1, 0⟩ db.readSet writes pc) m₁ .lock m' wrote ∧
    Sample.rewardVm.JournalOf (Sample.updated (.lazySender 5000)) 1 state ∧
    Sample.beneficiary ∉ AssocList.keys state ∧
    Sample.rewardVm.rewards (Sample.rewardVm.txs 1) result.txGasUsed =
      [(Sample.hash (.basic Sample.beneficiary), 500)] ∧
    Sample.rewardVm.valueAt (Sample.updated (.lazySender 5000)) 1 Sample.beneficiary = .ok ⟨0, 1⟩ ∧
    Sample.rewardVm.valueAt m' 2 Sample.beneficiary = .ok ⟨0, 1⟩ ∧
    ¬ Sample.rewardVm.CapturesWrites { l | l ∈ Sample.locations }
      (Sample.updated (.lazySender 5000)) m' 1 state
      (Sample.rewardVm.rewards (Sample.rewardVm.txs 1) result.txGasUsed) (fun _ => True) := by
  obtain ⟨m₁, db, result, state, writes, m', wrote, hrun, hfull, hrecord, hjournal, hkeys, hgas,
    hvalue⟩ := @Sample.exists_counted (.lazySender 5000) ⟨0, 1⟩
      (by decide +kernel)
  have hrewards : Sample.rewardVm.rewards (Sample.rewardVm.txs 1) result.txGasUsed =
      [(Sample.hash (.basic Sample.beneficiary), 500)] := by
    rw [hgas]
    exact Sample.rewards_counted
  have hno : Sample.beneficiary ∉ AssocList.keys state := by
    rw [hkeys]
    decide
  have hbefore : Sample.rewardVm.valueAt (Sample.updated (.lazySender 5000)) 1 Sample.beneficiary =
      .ok ⟨0, 1⟩ := by
    decide +kernel
  refine ⟨m₁, db, result, state, writes, m', wrote, hrun, hfull, hrecord, hjournal, hno, hrewards,
    hbefore, hvalue, fun hcaptures => ?_⟩
  have hread := hcaptures.rewarded Sample.beneficiary (by decide) hno trivial
  rw [hrewards, hbefore] at hread
  exact absurd (hvalue.symm.trans hread) (by decide +kernel)

end Pevm
