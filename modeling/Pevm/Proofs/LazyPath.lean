import Pevm.Proofs.TransferResults

/-!
# The lazy path and the full path

When a raw transfer is accepted on the full path (`full_accepted_iff`) and on the lazy path
(`lazy_accepted_iff`), and which accounts are recorded then: on the full path those at the end of
the run (`after_value_full`), on the lazy path the updates of the sender and the recipient
(`basicValue_lazy`). The rewards are the same on both paths and are credited to the accounts either
way (`after_credits`).
-/

namespace Pevm

open Interleaving MvMemory Saturating

/-! ## Rewards -/

/-- An account with the fees it gains. -/
def credited (fees : List (Address × U256)) (a : Address) (account : AccountBasic) : AccountBasic :=
  fees.foldl
    (fun account p =>
      if p.1 = a then { account with balance := saturatingAdd account.balance p.2 } else account)
    account

theorem credited_cons {fees : List (Address × U256)} {a b : Address} {amount : U256}
    {account : AccountBasic} : credited ((b, amount) :: fees) a account =
      credited fees a (if b = a then { account with balance := saturatingAdd account.balance amount }
        else account) := rfl

theorem nonce_credited {fees : List (Address × U256)} {a : Address} {account : AccountBasic} :
    (credited fees a account).nonce = account.nonce := by
  induction fees generalizing account with
  | nil => rfl
  | cons p fees ih =>
    obtain ⟨b, amount⟩ := p
    rw [credited_cons, ih]
    split_ifs <;> rfl

theorem credited_of_not_mem {fees : List (Address × U256)} {a : Address} {account : AccountBasic}
    (h : a ∉ AssocList.keys fees) : credited fees a account = account := by
  induction fees with
  | nil => rfl
  | cons p fees ih =>
    obtain ⟨b, amount⟩ := p
    rw [AssocList.keys_cons, List.mem_cons, not_or] at h
    rw [credited_cons, if_neg (Ne.symm h.1), ih h.2]

/-- A reward of a write is a reward of the account after it, as long as a lazy sender pays more than
it gains. -/
theorem after_credit {account : AccountBasic} {amount : U256} {value : Option MemoryValue}
    (h : ∀ subtraction, value = some (.lazySender subtraction) →
      amount.toNat ≤ subtraction.toNat ∧ subtraction.toNat ≤ account.balance.toNat) :
    account.after (some (credit amount value)) =
      { account.after value with balance := saturatingAdd (account.after value).balance amount } := by
  match value with
  | some (.basic _) => rfl
  | some (.lazyRecipient addition) =>
    simp only [credit, AccountBasic.after, saturatingAdd_assoc]
  | some (.lazySender subtraction) =>
    obtain ⟨hamount, hsubtraction⟩ := h subtraction rfl
    have hbalance : saturatingSub account.balance (saturatingSub subtraction amount) =
        saturatingAdd (saturatingSub account.balance subtraction) amount := by
      apply BitVec.eq_of_toNat_eq
      have hlt := account.balance.isLt
      simp only [toNat_saturatingSub, toNat_saturatingAdd]
      omega
    simp only [credit, AccountBasic.after, hbalance]
  | some (.codeHash _) | some (.storage _) | some .selfDestructed | none => rfl

theorem after_credits {account : AccountBasic} {a : Address} {fees : List (Address × U256)}
    {value : Option MemoryValue}
    (h : ∀ subtraction, value = some (.lazySender subtraction) →
      (fees.map fun p => p.2.toNat).sum ≤ subtraction.toNat ∧
        subtraction.toNat ≤ account.balance.toNat) :
    account.after (Transfer.credits fees a value) = credited fees a (account.after value) := by
  induction fees generalizing value with
  | nil => rfl
  | cons p fees ih =>
    obtain ⟨b, amount⟩ := p
    rw [Transfer.credits_cons, credited_cons]
    simp only [List.map_cons, List.sum_cons] at h
    split_ifs
    · rw [ih, after_credit]
      · intro subtraction hvalue
        have := h subtraction hvalue
        omega
      · -- what is left of the subtraction covers the other fees
        intro subtraction' hvalue'
        match value, h with
        | some (.lazySender subtraction), h =>
          have hbounds := h subtraction rfl
          obtain rfl : saturatingSub subtraction amount = subtraction' := by
            simpa [credit] using hvalue'
          rw [toNat_saturatingSub]
          omega
        | some (.basic _), _ | some (.lazyRecipient _), _ | some (.codeHash _), _
        | some (.storage _), _ | some .selfDestructed, _ | none, _ => simp [credit] at hvalue'
    · refine ih fun subtraction hvalue => ?_
      have := h subtraction hvalue
      omega

theorem credits_basic {a : Address} {account : AccountBasic} {fees : List (Address × U256)} :
    Transfer.credits fees a (some (.basic account)) = some (.basic (credited fees a account)) := by
  induction fees generalizing account with
  | nil => rfl
  | cons p fees ih =>
    obtain ⟨b, amount⟩ := p
    rw [Transfer.credits_cons, credited_cons]
    split_ifs
    · exact ih
    · exact ih

/-- No reward makes a sender out of another write. -/
theorem credits_ne_lazySender {a : Address} {fees : List (Address × U256)} {value : Option MemoryValue}
    (h : ∀ subtraction, value ≠ some (.lazySender subtraction)) (subtraction : U256) :
    Transfer.credits fees a value ≠ some (.lazySender subtraction) := by
  induction fees generalizing value with
  | nil => exact h subtraction
  | cons p fees ih =>
    obtain ⟨b, amount⟩ := p
    rw [Transfer.credits_cons]
    refine ih fun subtraction' => ?_
    split_ifs
    · match value, h with
      | some (.lazySender subtraction), h => exact absurd rfl (h subtraction)
      | some (.basic _), _ | some (.lazyRecipient _), _ | some (.codeHash _), _
      | some (.storage _), _ | some .selfDestructed, _ | none, _ => simp [credit]
    · exact h subtraction'

/-! ## The checks of the sender -/

theorem TxEnv.toNat_maxFee {tx : TxEnv} (h : tx.maxBalanceSpending < 2 ^ 256) :
    tx.maxFee.toNat = tx.maxBalanceSpending := by
  have hgas : (tx.gasLimit.setWidth 256).toNat = tx.gasLimit.toNat :=
    BitVec.toNat_setWidth_of_le (by decide)
  have hprice : (tx.gasPrice.setWidth 256).toNat = tx.gasPrice.toNat :=
    BitVec.toNat_setWidth_of_le (by decide)
  have hblob : (tx.totalBlobGas.setWidth 256).toNat = tx.totalBlobGas.toNat :=
    BitVec.toNat_setWidth_of_le (by decide)
  have hblobFee : (tx.maxFeePerBlobGas.setWidth 256).toNat = tx.maxFeePerBlobGas.toNat :=
    BitVec.toNat_setWidth_of_le (by decide)
  unfold TxEnv.maxBalanceSpending at h ⊢
  simp only [TxEnv.maxFee, toNat_saturatingAdd, toNat_saturatingMul, hgas, hprice, hblob, hblobFee]
  omega

namespace Revm

variable {blockEnv : BlockEnv} {revm : Revm blockEnv} {tx : TxEnv} {hasNonce : Bool}
  {sender : AccountInfo}

theorem checkSender_eq_none : checkSender tx hasNonce sender = none ↔
    (sender.isEmptyCodeHash = true ∨ sender.isDelegated = true) ∧
      (hasNonce = true → sender.nonce = tx.nonce) ∧
      tx.maxBalanceSpending ≤ sender.balance.toNat := by
  unfold checkSender
  simp only [Bool.and_eq_true, decide_eq_true_eq]
  split_ifs with hcode hlow hhigh hfunds
  · simp only [Bool.not_eq_true'] at hcode
    simp [hcode]
  · have hne : sender.nonce ≠ tx.nonce := fun heq => BitVec.lt_irrefl _ (heq ▸ hlow.2)
    simp [hne, hlow.1]
  · have hne : sender.nonce ≠ tx.nonce := fun heq => BitVec.lt_irrefl _ (heq ▸ hhigh.2)
    simp [hne, hhigh.1]
  · simp [hfunds]
  · have hnonce : hasNonce = true → sender.nonce = tx.nonce := fun h =>
      BitVec.le_antisymm (BitVec.not_lt.mp fun hlt => hhigh ⟨h, hlt⟩)
        (BitVec.not_lt.mp fun hlt => hlow ⟨h, hlt⟩)
    refine ⟨fun _ => ⟨?_, hnonce, not_lt.mp hfunds⟩, fun _ => rfl⟩
    by_contra hcon
    rw [not_or] at hcon
    exact hcode (by simp [hcon.1, hcon.2])

theorem rejects_eq_none : revm.rejects tx hasNonce sender = none ↔
    revm.check hasNonce tx = none ∧ checkSender tx hasNonce sender = none := by
  unfold rejects
  cases revm.check hasNonce tx with
  | some _ => simp
  | none => simp

end Revm

/-! ## The value -/

namespace Revm

variable {tx : TxEnv} {recipient a : Address} {s : Accounts}

theorem touched_moved : (moved tx recipient s).touched a =
    if a = recipient ∨ a = tx.caller then true else s.touched a := by
  simp only [moved, Accounts.touched_write]
  by_cases hr : a = recipient
  · simp [hr]
  · by_cases hc : a = tx.caller <;> simp [hr, hc]

/-- Moving the value changes balances only. -/
theorem info_moved : (moved tx recipient s).info a =
    { s.info a with balance := ((moved tx recipient s).info a).balance } := by
  simp only [moved, Accounts.info_write]
  split_ifs with h₁ h₂ h₃ <;> simp_all

theorem balance_moved_self : ((moved tx tx.caller s).info a).balance = (s.info a).balance := by
  simp only [moved, Accounts.info_write]
  split_ifs with h
  · simp [h]
  · rfl

theorem balance_moved_caller (hne : recipient ≠ tx.caller) :
    ((moved tx recipient s).info tx.caller).balance = (s.info tx.caller).balance - tx.value := by
  simp [moved, Accounts.info_write, Ne.symm hne]

theorem balance_moved_recipient (hne : recipient ≠ tx.caller) :
    ((moved tx recipient s).info recipient).balance = (s.info recipient).balance + tx.value := by
  simp [moved, Accounts.info_write, hne]

theorem balance_moved_other (hcaller : a ≠ tx.caller) (hrecipient : a ≠ recipient) :
    ((moved tx recipient s).info a).balance = (s.info a).balance := by
  simp [moved, Accounts.info_write, hcaller, hrecipient]

end Revm

/-! ## The accounts at the end of the runs -/

/-- What was not touched is as it was shown. -/
def Accounts.Clean (view : View) (s : Accounts) : Prop :=
  ∀ a, s.touched a = false → s.info a = view.info a

theorem Accounts.Clean.write {view : View} {s : Accounts} (h : s.Clean view) (a : Address)
    (info : AccountInfo) : (s.write a info).Clean view := by
  intro b hb
  rw [Accounts.touched_write] at hb
  split_ifs at hb with hba
  rw [Accounts.info_write, if_neg hba, h b hb]

theorem Accounts.Clean.authorized {view : View} {blockEnv : BlockEnv} {revm : Revm blockEnv}
    {list : List Authorization} {s : Accounts} (h : s.Clean view) :
    (revm.authorized list s).Clean view := by
  induction list generalizing s with
  | nil => exact h
  | cons auth rest ih =>
    unfold Revm.authorized
    cases revm.authority auth with
    | none => exact ih h
    | some authority =>
      dsimp only
      split_ifs
      · exact ih (h.write _ _)
      · exact ih h

namespace Transfer

variable {T : Type} (t : Transfer T)

/-- The sender before the transaction. -/
def sender : AccountBasic :=
  t.pre.account t.env.caller

/-- The accounts once the sender was charged. -/
def charged (isLazy : Bool) : Accounts :=
  t.revm.charged t.env (t.view isLazy)

/-- The accounts once the authorizations were applied. -/
def authorized (isLazy : Bool) : Accounts :=
  t.revm.authorized t.env.authorizationList (t.charged isLazy)

variable {t} {isLazy : Bool} {a : Address} {fees : List (Address × U256)}

theorem settled_eq : t.settled isLazy =
    if ((t.authorized isLazy).info t.env.caller).balance < t.env.value then t.authorized isLazy
    else Revm.moved t.env t.recipient (t.authorized isLazy) := by
  unfold settled Revm.settled
  exact apply_ite Prod.snd _ _ _

theorem info_charged : (t.charged isLazy).info a =
    if a = t.env.caller then t.revm.charge t.env ((t.view isLazy).info t.env.caller)
    else (t.view isLazy).info a :=
  Accounts.info_write

theorem touched_charged : (t.charged isLazy).touched a = decide (a = t.env.caller) := by
  rw [charged, Revm.charged, Accounts.touched_write]
  by_cases h : a = t.env.caller <;> simp [h, Accounts.ofView]

theorem info_authorized : (t.authorized isLazy).info a =
    t.revm.authorizedInfo a t.env.authorizationList ((t.charged isLazy).info a) :=
  Revm.info_authorized

/-- The end of a run differs from its authorizations by balances only. -/
theorem info_settled : (t.settled isLazy).info a =
    { (t.authorized isLazy).info a with balance := ((t.settled isLazy).info a).balance } := by
  rw [settled_eq]
  split_ifs
  · rfl
  · exact Revm.info_moved

theorem nonce_settled :
    ((t.settled isLazy).info a).nonce = ((t.authorized isLazy).info a).nonce := by
  rw [info_settled]

theorem codeHash_settled :
    ((t.settled isLazy).info a).codeHash = ((t.authorized isLazy).info a).codeHash := by
  rw [info_settled]

theorem touched_caller : (t.settled isLazy).touched t.env.caller = true := by
  have htouched : (t.authorized isLazy).touched t.env.caller = true :=
    Revm.touched_authorized (by simp [touched_charged])
  rw [settled_eq]
  split_ifs
  · exact htouched
  · simp [Revm.touched_moved]

theorem clean_settled : (t.settled isLazy).Clean (t.view isLazy) := by
  have hcharged : (t.charged isLazy).Clean (t.view isLazy) :=
    Accounts.Clean.write (fun _ _ => rfl) _ _
  have hauthorized : (t.authorized isLazy).Clean (t.view isLazy) := hcharged.authorized
  rw [settled_eq]
  split_ifs
  · exact hauthorized
  · exact (hauthorized.write _ _).write _ _

/-! ## The full path -/

theorem view_false : t.view false = t.real := by
  funext a
  simp [view]

theorem balance_real : (t.real.info a).balance = (t.pre.account a).balance := by
  unfold View.info real PreState.account
  cases t.pre.basic a <;> rfl

theorem nonce_real : (t.real.info a).nonce = (t.pre.account a).nonce := by
  unfold View.info real PreState.account
  cases t.pre.basic a <;> rfl

theorem toNat_add_one {x : BitVec 64} (h : x ≠ BitVec.allOnes 64) : (x + 1).toNat = x.toNat + 1 := by
  have hne : x.toNat ≠ 2 ^ 64 - 1 := by
    intro heq
    exact h (BitVec.eq_of_toNat_eq (by rw [heq, BitVec.toNat_allOnes]))
  have hlt := x.isLt
  have hone : (1 : BitVec 64).toNat = 1 := rfl
  rw [BitVec.toNat_add]
  omega

/-- The nonces the run leaves are at least those after the sender was charged. -/
theorem le_nonce_settled :
    ((t.charged isLazy).info a).nonce.toNat ≤ ((t.settled isLazy).info a).nonce.toNat := by
  rw [nonce_settled, info_authorized]
  exact Revm.le_nonce_authorizedInfo

theorem nonce_charged_caller :
    ((t.charged false).info t.env.caller).nonce.toNat = t.sender.nonce.toNat + 1 := by
  rw [info_charged, if_pos rfl, view_false]
  show ((t.real.info t.env.caller).nonce + 1).toNat = _
  rw [nonce_real]
  exact toNat_add_one t.senderNonce

theorem info_charged_other (h : a ≠ t.env.caller) :
    (t.charged isLazy).info a = (t.view isLazy).info a := by
  rw [info_charged, if_neg h]

/-- Accounts other than the sender lose nothing. -/
theorem le_balance_settled (h : a ≠ t.env.caller) :
    (t.pre.account a).balance.toNat ≤ ((t.settled false).info a).balance.toNat := by
  have hauthorized : ((t.authorized false).info a).balance = (t.pre.account a).balance := by
    rw [info_authorized, Revm.balance_authorizedInfo, info_charged_other h, view_false, balance_real]
  rw [settled_eq]
  split_ifs
  · rw [hauthorized]
  · by_cases hrecipient : a = t.recipient
    · subst hrecipient
      have hgains : (t.pre.account t.recipient).balance.toNat + t.env.value.toNat < 2 ^ 256 :=
        t.recipientGains h
      rw [Revm.balance_moved_recipient h, hauthorized, BitVec.toNat_add, Nat.mod_eq_of_lt hgains]
      exact Nat.le_add_right _ _
    · rw [Revm.balance_moved_other h hrecipient, hauthorized]

theorem nonce_settled_caller_ne : ((t.settled false).info t.env.caller).nonce ≠ 0 := by
  intro hzero
  have hle : ((t.charged false).info t.env.caller).nonce.toNat ≤
      ((t.settled false).info t.env.caller).nonce.toNat := le_nonce_settled
  rw [nonce_charged_caller, hzero] at hle
  exact absurd hle (by simp)

/-- An account that is empty at the end was empty before. -/
theorem account_of_isEmpty (h : ((t.settled false).info a).isEmpty = true) :
    t.pre.account a = ⟨((t.settled false).info a).balance, ((t.settled false).info a).nonce⟩ := by
  obtain ⟨⟨-, hbalance⟩, hnonce⟩ : (_ ∧ ((t.settled false).info a).balance = 0) ∧
      ((t.settled false).info a).nonce = 0 := by
    simpa [AccountInfo.isEmpty] using h
  have hcaller : a ≠ t.env.caller := by
    rintro rfl
    exact nonce_settled_caller_ne hnonce
  have hle := le_balance_settled hcaller
  have hle' : ((t.charged false).info a).nonce.toNat ≤ ((t.settled false).info a).nonce.toNat :=
    le_nonce_settled
  rw [info_charged_other hcaller, view_false, nonce_real, hnonce] at hle'
  rw [hbalance] at hle
  rw [hbalance, hnonce]
  have hb : (t.pre.account a).balance = 0 := BitVec.eq_of_toNat_eq (Nat.le_zero.mp hle)
  have hn : (t.pre.account a).nonce = 0 := BitVec.eq_of_toNat_eq (Nat.le_zero.mp hle')
  rw [← hb, ← hn]

/-- On the full path an account is recorded as it is at the end of the run. -/
theorem after_basicValue_full :
    (t.pre.account a).after (t.basicValue false (t.settled false) a) =
      ⟨((t.settled false).info a).balance, ((t.settled false).info a).nonce⟩ := by
  unfold basicValue
  by_cases htouched : (t.settled false).touched a = true
  · by_cases hwrite : (t.newCode false (t.settled false) a ||
        t.changed false (t.settled false) a) = true
    · rw [htouched, Bool.true_and, if_pos hwrite, if_neg Bool.false_ne_true]
      split_ifs with hempty
      · rfl
      · exact account_of_isEmpty (by simp at hempty; exact hempty.2)
    · rw [htouched, Bool.true_and, if_neg hwrite]
      have hchanged : t.changed false (t.settled false) a = false := by
        simp at hwrite
        exact hwrite.2
      unfold changed at hchanged
      show t.pre.account a = _
      unfold PreState.account
      cases hbasic : t.pre.basic a with
      | none => simp [hbasic] at hchanged
      | some account =>
        obtain ⟨hnonce, hbalance⟩ : account.nonce = ((t.settled false).info a).nonce ∧
            account.balance = ((t.settled false).info a).balance := by
          simpa [hbasic, mocked] using hchanged
        rw [← hnonce, ← hbalance]
        rfl
  · have hclean := clean_settled a (by simpa using htouched)
    rw [view_false] at hclean
    rw [if_neg (by simp [htouched]), hclean, balance_real, nonce_real]
    rfl

theorem basicValue_full_ne_lazySender {s : Accounts} (subtraction : U256) :
    t.basicValue false s a ≠ some (.lazySender subtraction) := by
  intro h
  simp only [basicValue, Bool.false_eq_true, if_false] at h
  split_ifs at h
  cases h

theorem after_value_full : (t.pre.account a).after (t.value fees false a) =
    credited fees a
      ⟨((t.settled false).info a).balance, ((t.settled false).info a).nonce⟩ := by
  unfold value
  rw [after_credits, after_basicValue_full]
  exact fun subtraction hvalue => absurd hvalue (basicValue_full_ne_lazySender subtraction)

/-- The sender is recorded. -/
theorem value_caller_full : t.value fees false t.env.caller = some (.basic (credited fees t.env.caller
    ⟨((t.settled false).info t.env.caller).balance,
      ((t.settled false).info t.env.caller).nonce⟩)) := by
  have hchanged : t.changed false (t.settled false) t.env.caller = true := by
    unfold changed
    cases hbasic : t.pre.basic t.env.caller with
    | none => simp
    | some account =>
      have hsender : t.sender = account := by
        rw [sender, PreState.account, hbasic]
        rfl
      have hle : ((t.charged false).info t.env.caller).nonce.toNat ≤
          ((t.settled false).info t.env.caller).nonce.toNat := le_nonce_settled
      rw [nonce_charged_caller, hsender] at hle
      have hne : account.nonce ≠ ((t.settled false).info t.env.caller).nonce := by
        intro heq
        rw [← heq] at hle
        omega
      simp [hne]
  have hempty : ((t.settled false).info t.env.caller).isEmpty = false := by
    unfold AccountInfo.isEmpty
    rw [decide_eq_false nonce_settled_caller_ne, Bool.and_false]
  unfold value basicValue
  rw [touched_caller, hchanged, hempty]
  simp [credits_basic]

/-- The transaction is executed on the full path: revm does not reject it. -/
def FullExecutes (t : Transfer T) : Prop :=
  t.revm.rejects t.env t.hasNonce (t.real.info t.env.caller) = none

theorem FullExecutes.nonceMatches (h : t.FullExecutes) : t.NonceMatches false := by
  intro _ hnonce account hbasic
  obtain ⟨-, hsender⟩ := Revm.rejects_eq_none.mp h
  have hnonce := (Revm.checkSender_eq_none.mp hsender).2.1 hnonce
  rw [nonce_real, PreState.account, hbasic] at hnonce
  exact hnonce

theorem not_accepted_of_not_fullExecutes (h : ¬ t.FullExecutes) :
    ¬ ∃ m results, t.Accepted false m results := by
  by_cases hnonce : t.NonceMatches false
  · unfold FullExecutes at h
    rw [← view_false] at h
    obtain ⟨err, herr⟩ := Option.ne_none_iff_exists'.mp h
    obtain ⟨e, he⟩ := fails_of_rejects hnonce herr
    exact not_accepted_of_fails he
  · obtain ⟨e, he⟩ := fails_of_nonce hnonce
    exact not_accepted_of_fails he

/-- The nonce of the sender at the end of the run, as the evaluation of a fee recipient checks it. -/
def NonceEvaluates (t : Transfer T) : Prop :=
  t.env.caller ∈ t.chain.lazyAddresses t.blockEnv →
    t.env.nonce = ((t.settled false).info t.env.caller).nonce - 1

theorem passes_full (h : t.NonceEvaluates) (ha : a ∈ t.chain.lazyAddresses t.blockEnv)
    {v : MemoryValue} (hvalue : t.value fees false a = some v) : t.Passes a v := by
  constructor
  · rintro subtraction rfl
    exact absurd hvalue (credits_ne_lazySender basicValue_full_ne_lazySender subtraction)
  · rintro rfl
    rw [value_caller_full] at hvalue
    rw [← Option.some.inj hvalue]
    simp only [AccountBasic.after, nonce_credited]
    exact ⟨nonce_settled_caller_ne, h ha⟩

/-- **When the full path accepts**, and what it records and returns then. -/
theorem full_accepts (hpays : t.Pays fees) (hexecutes : t.FullExecutes) (hnonce : t.NonceEvaluates) :
    ∃ m results, t.Accepted false m results ∧
      t.Recorded m (t.value fees false) (t.codeValue false (t.settled false)) ∧
      ∀ a, returned results a =
        if a ∈ t.chain.lazyAddresses t.blockEnv then
          t.evaluatedEntry (t.value fees false a) a (t.transition false a)
        else t.transition false a := by
  have hmem : ∀ a, a ∈ t.evaluatedAddresses false ↔ a ∈ t.chain.lazyAddresses t.blockEnv := by
    intro a
    simp [mem_evaluatedAddresses, mocked]
  have hexecutes' : t.revm.rejects t.env t.hasNonce ((t.view false).info t.env.caller) = none := by
    rw [view_false]
    exact hexecutes
  obtain ⟨m, results, haccepted, hrecorded, hreturned⟩ := accepts hpays hexecutes.nonceMatches
    hexecutes' fun a ha v hvalue => passes_full hnonce ((hmem a).mp ha) hvalue
  refine ⟨m, results, haccepted, hrecorded, fun a => ?_⟩
  rw [hreturned]
  simp only [hmem]

theorem full_accepted_iff :
    (∃ m results, t.Accepted false m results) ↔ t.FullExecutes ∧ t.NonceEvaluates := by
  obtain ⟨fees, hpays⟩ := t.exists_pays
  constructor
  · intro haccepted
    have hexecutes : t.FullExecutes := by
      by_contra hcon
      exact not_accepted_of_not_fullExecutes hcon haccepted
    refine ⟨hexecutes, fun hlazy => ?_⟩
    by_contra hnonce
    have hexecutes' : t.revm.rejects t.env t.hasNonce ((t.view false).info t.env.caller) = none := by
      rw [view_false]
      exact hexecutes
    refine not_accepted_of_not_passes hpays hexecutes.nonceMatches hexecutes'
      (mem_evaluatedAddresses.mpr (.inl hlazy)) value_caller_full (fun hpasses => hnonce ?_) haccepted
    have hcheck := (hpasses.nonce rfl).2
    simpa only [AccountBasic.after, nonce_credited] using hcheck
  · rintro ⟨hexecutes, hnonce⟩
    obtain ⟨m, results, haccepted, -⟩ := full_accepts hpays hexecutes hnonce
    exact ⟨m, results, haccepted⟩

/-! ## The lazy path -/

/-- The transaction is executed on the lazy path: it passes the checks that look at no account. -/
def LazyExecutes (t : Transfer T) : Prop :=
  t.revm.check t.hasNonce t.env = none

theorem info_view_caller :
    (t.view true).info t.env.caller = ⟨U256.max, t.env.nonce, keccakEmpty, none⟩ := by
  simp [View.info, view]

theorem info_view_recipient (h : t.recipient ≠ t.env.caller) :
    (t.view true).info t.recipient = .empty := by
  simp [View.info, view, h]

theorem info_view_other (hcaller : a ≠ t.env.caller) (hrecipient : a ≠ t.recipient) :
    (t.view true).info a = t.real.info a := by
  simp [View.info, view, hcaller, hrecipient]

theorem toNat_max : U256.max.toNat = 2 ^ 256 - 1 := rfl

theorem lazyExecutes_iff : t.LazyExecutes ↔
    t.revm.rejects t.env t.hasNonce ((t.view true).info t.env.caller) = none := by
  rw [Revm.rejects_eq_none, info_view_caller]
  refine ⟨fun hcheck => ⟨hcheck, ?_⟩, And.left⟩
  rw [Revm.checkSender_eq_none]
  refine ⟨.inl (by simp [AccountInfo.isEmptyCodeHash]), fun _ => rfl, ?_⟩
  have hlt := t.revm.maxFee_lt _ t.env hcheck
  rw [toNat_max]
  omega

/-- The cost of the transaction leaves room for the value below the mocked balance. -/
theorem cost_add_value_lt (h : t.LazyExecutes) :
    (t.revm.cost t.env).toNat + t.env.value.toNat < 2 ^ 256 := by
  have hlt := t.revm.maxFee_lt _ t.env h
  have hle := (t.revm.toNat_cost h).2
  omega

/-- What the sender has after it was charged on the lazy path. -/
theorem toNat_balance_authorized_lazy (h : t.LazyExecutes) :
    ((t.authorized true).info t.env.caller).balance.toNat =
      2 ^ 256 - 1 - (t.revm.cost t.env).toNat := by
  have hlt := cost_add_value_lt h
  rw [info_authorized, Revm.balance_authorizedInfo, info_charged, if_pos rfl, info_view_caller]
  show (U256.max - t.revm.cost t.env).toNat = _
  have hle : t.revm.cost t.env ≤ U256.max := by
    rw [BitVec.le_def, toNat_max]
    omega
  rw [BitVec.toNat_sub_of_le hle, toNat_max]

/-- On the lazy path the value is always moved. -/
theorem settled_lazy (h : t.LazyExecutes) :
    t.settled true = Revm.moved t.env t.recipient (t.authorized true) := by
  rw [settled_eq, if_neg]
  rw [BitVec.lt_def, toNat_balance_authorized_lazy h]
  have := cost_add_value_lt h
  omega

/-- What the sender pays on the lazy path. -/
def paid (t : Transfer T) : U256 :=
  U256.max - ((t.settled true).info t.env.caller).balance

theorem toNat_paid (h : t.LazyExecutes) : t.paid.toNat = (t.revm.cost t.env).toNat +
    if t.recipient = t.env.caller then 0 else t.env.value.toNat := by
  have hauthorized := toNat_balance_authorized_lazy h
  have hlt := cost_add_value_lt h
  have hbalance : ((t.settled true).info t.env.caller).balance.toNat =
      2 ^ 256 - 1 - ((t.revm.cost t.env).toNat +
        if t.recipient = t.env.caller then 0 else t.env.value.toNat) := by
    rw [settled_lazy h]
    split_ifs with hself
    · rw [hself, Revm.balance_moved_self, hauthorized, Nat.add_zero]
    · have hle : t.env.value ≤ ((t.authorized true).info t.env.caller).balance := by
        rw [BitVec.le_def, hauthorized]
        omega
      rw [Revm.balance_moved_caller hself, BitVec.toNat_sub_of_le hle, hauthorized]
      omega
  have hle : ((t.settled true).info t.env.caller).balance ≤ U256.max := by
    have := ((t.settled true).info t.env.caller).balance.isLt
    rw [BitVec.le_def, toNat_max]
    omega
  rw [paid, BitVec.toNat_sub_of_le hle, toNat_max, hbalance]
  split_ifs at hbalance ⊢ <;> omega

theorem touched_lazy (h : t.LazyExecutes) (ha : a = t.recipient ∨ a = t.env.caller) :
    (t.settled true).touched a = true := by
  rw [settled_lazy h, Revm.touched_moved, if_pos ha]

/-- What is recorded on the lazy path, without rewards. -/
theorem basicValue_lazy (h : t.LazyExecutes) : t.basicValue true (t.settled true) a =
    if a = t.env.caller then some (.lazySender t.paid)
    else if a = t.recipient then some (.lazyRecipient t.env.value)
    else none := by
  unfold basicValue
  by_cases hmocked : a = t.env.caller ∨ a = t.recipient
  · have hchanged : t.changed true (t.settled true) a = true := by
      simp [changed, mocked, hmocked]
    rw [touched_lazy h hmocked.symm, hchanged, Bool.or_true, Bool.and_true, if_pos rfl, if_pos rfl]
    by_cases hcaller : a = t.env.caller
    · rw [if_pos hcaller, if_pos hcaller, hcaller]
      rfl
    · rw [if_neg hcaller, if_neg hcaller]
  · rw [not_or] at hmocked
    rw [if_neg hmocked.1, if_neg hmocked.2]
    simp [hmocked]

/-- The account that is recorded on the lazy path, without rewards. -/
def lazyAccount (t : Transfer T) (a : Address) : AccountBasic :=
  (t.pre.account a).after (t.basicValue true (t.settled true) a)

/-- The funds and the nonce of the sender as the evaluation checks them. -/
def SenderEvaluates (t : Transfer T) : Prop :=
  t.env.maxFee ≤ t.sender.balance ∧ t.env.nonce = t.sender.nonce

theorem credits_lazySender {subtraction : U256} : ∃ subtraction',
    credits fees a (some (.lazySender subtraction)) = some (.lazySender subtraction') := by
  induction fees generalizing subtraction with
  | nil => exact ⟨subtraction, rfl⟩
  | cons p fees ih =>
    obtain ⟨b, amount⟩ := p
    rw [credits_cons]
    split_ifs
    · exact ih
    · exact ih

theorem passes_lazy_caller {subtraction : U256} :
    t.Passes t.env.caller (.lazySender subtraction) ↔ t.SenderEvaluates := by
  have hnonce : t.sender.nonce + 1 ≠ 0 := by
    intro hzero
    have hone := toNat_add_one (x := t.sender.nonce) t.senderNonce
    rw [hzero] at hone
    simp at hone
  have hsub : t.sender.nonce + 1 - 1 = t.sender.nonce := BitVec.add_sub_cancel _ _
  constructor
  · intro h
    have hcheck := (h.nonce rfl).2
    refine ⟨h.funds subtraction rfl, ?_⟩
    rw [← hsub]
    exact hcheck
  · rintro ⟨hfunds, hcheck⟩
    refine ⟨fun _ _ => hfunds, fun _ => ⟨hnonce, ?_⟩⟩
    rw [hcheck, ← hsub]
    rfl

theorem value_caller_lazy (fees : List (Address × U256)) (h : t.LazyExecutes) : ∃ subtraction,
    t.value fees true t.env.caller = some (.lazySender subtraction) := by
  unfold value
  rw [basicValue_lazy h, if_pos rfl]
  exact credits_lazySender

theorem passes_lazy_other (h : t.LazyExecutes) (ha : a ≠ t.env.caller) {v : MemoryValue}
    (hvalue : t.value fees true a = some v) : t.Passes a v := by
  refine ⟨?_, fun hcaller => absurd hcaller.symm ha⟩
  rintro subtraction rfl
  refine absurd hvalue (credits_ne_lazySender (fun subtraction' => ?_) subtraction)
  rw [basicValue_lazy h, if_neg ha]
  split_ifs <;> simp

/-- The transaction is accepted on the lazy path. -/
def LazyAccepts (t : Transfer T) : Prop :=
  t.LazyExecutes ∧ t.SenderEvaluates

/-- **When the lazy path accepts**, and what it records and returns then. -/
theorem lazy_accepts (hpays : t.Pays fees) (h : t.LazyAccepts) :
    ∃ m results, t.Accepted true m results ∧
      t.Recorded m (t.value fees true) (t.codeValue true (t.settled true)) ∧
      ∀ a, returned results a =
        if a ∈ t.evaluatedAddresses true then
          t.evaluatedEntry (t.value fees true a) a (t.transition true a)
        else t.transition true a := by
  obtain ⟨hexecutes, hsender⟩ := h
  refine accepts hpays (fun hfull => by cases hfull) (lazyExecutes_iff.mp hexecutes) ?_
  intro a _ v hvalue
  by_cases ha : a = t.env.caller
  · subst ha
    obtain ⟨subtraction, hlazy⟩ := value_caller_lazy fees hexecutes
    rw [hlazy] at hvalue
    rw [← Option.some.inj hvalue]
    exact passes_lazy_caller.mpr hsender
  · exact passes_lazy_other hexecutes ha hvalue

theorem lazy_accepted_iff : (∃ m results, t.Accepted true m results) ↔ t.LazyAccepts := by
  obtain ⟨fees, hpays⟩ := t.exists_pays
  constructor
  · intro haccepted
    have hnonce : t.NonceMatches true := fun hfull => by cases hfull
    have hexecutes : t.LazyExecutes := by
      by_contra hcon
      rw [lazyExecutes_iff] at hcon
      obtain ⟨err, herr⟩ := Option.ne_none_iff_exists'.mp hcon
      obtain ⟨e, he⟩ := fails_of_rejects hnonce herr
      exact not_accepted_of_fails he haccepted
    refine ⟨hexecutes, ?_⟩
    by_contra hcon
    obtain ⟨subtraction, hvalue⟩ := value_caller_lazy fees hexecutes
    exact not_accepted_of_not_passes hpays hnonce (lazyExecutes_iff.mp hexecutes)
      (mem_evaluatedAddresses.mpr (.inr ⟨rfl, .inl rfl⟩)) hvalue (mt passes_lazy_caller.mp hcon)
      haccepted
  · intro h
    obtain ⟨m, results, haccepted, -⟩ := lazy_accepts hpays h
    exact ⟨m, results, haccepted⟩

end Transfer

end Pevm
