import Pevm.Proofs.LazyPath

/-!
# The agreement of the two paths

The lazy path mocks its sender and recipient and records nothing else, so that the two paths of a
raw transfer agree exactly on the transactions in `Agrees`: one that the lazy path accepts must have
a sender without code, no valid authorization and a recipient that stays without code (`Plain`), and
a deposit must not depend on the check of its nonce, which only the evaluation makes.
-/

namespace Pevm

open Interleaving MvMemory Saturating

namespace Transfer

variable {T : Type} {t : Transfer T} {isLazy : Bool} {a : Address} {fees : List (Address × U256)}

/-! ## Acceptance -/

/-- A sender that passes the check of the evaluation can pay for the transaction. -/
theorem cost_add_value_le (h : t.LazyAccepts) :
    (t.revm.cost t.env).toNat + t.env.value.toNat ≤ t.sender.balance.toNat := by
  obtain ⟨hexecutes, hfunds, -⟩ := h
  have hfunds : t.env.maxFee.toNat ≤ t.sender.balance.toNat := hfunds
  have hcost := (t.revm.toNat_cost hexecutes).2
  have hmaxFee := TxEnv.toNat_maxFee (t.revm.maxFee_lt _ t.env hexecutes)
  omega

theorem paid_le (h : t.LazyAccepts) : t.paid.toNat ≤ t.sender.balance.toNat := by
  have hpaid := toNat_paid h.1
  have hle := cost_add_value_le h
  split_ifs at hpaid <;> omega

theorem fees_le_paid (hpays : t.Pays fees) (h : t.LazyExecutes) :
    (fees.map fun p => p.2.toNat).sum ≤ t.paid.toNat := by
  have hpaid := toNat_paid h
  by_cases hnonce : t.hasNonce = true
  · have hcheck : t.revm.check t.hasNonce t.env = none := h
    rw [hnonce] at hcheck
    have htotal := hpays.total hnonce hcheck
    omega
  · have hnil : fees = [] := by
      rw [List.eq_nil_iff_forall_not_mem]
      intro p hp
      exact hnonce ((hpays.recipients p.1).mp (List.mem_map_of_mem hp)).2
    simp [hnil]

theorem after_value_lazy (hpays : t.Pays fees) (h : t.LazyAccepts) :
    (t.pre.account a).after (t.value fees true a) = credited fees a (t.lazyAccount a) := by
  refine after_credits fun subtraction hvalue => ?_
  rw [basicValue_lazy h.1] at hvalue
  split_ifs at hvalue with hcaller
  · obtain rfl : t.paid = subtraction := by simpa using hvalue
    subst hcaller
    exact ⟨fees_le_paid hpays h.1, paid_le h⟩
  · simp at hvalue

/-- What the paths agree on: the transactions for which the mocks of the lazy path and the writes it
leaves out do not matter. -/
structure Plain (t : Transfer T) : Prop where
  senderCode : (t.real.info t.env.caller).isEmptyCodeHash = true
  authorizations : ∀ a,
    t.revm.Unauthorized t.env.authorizationList a ((t.charged false).info a)
  recipientCode : t.recipient ≠ t.env.caller → (t.revm.authorizedInfo t.recipient
    t.env.authorizationList .empty).isEmptyCodeHash = true

/-- A transaction that the lazy path accepts is plain. A deposit that revm does not reject and that
has another nonce than its sender, which the evaluation rejects on the lazy path, has a fee recipient
as sender, which the evaluation checks on either path. -/
structure Agrees (t : Transfer T) : Prop where
  plain : t.LazyAccepts → t.Plain
  deposit : t.hasNonce = false → t.FullExecutes → t.env.nonce ≠ t.sender.nonce →
    t.env.caller ∈ t.chain.lazyAddresses t.blockEnv

theorem unauthorized_of_deposit (h : t.hasNonce = false) {info : AccountInfo} :
    t.revm.Unauthorized t.env.authorizationList a info := by
  have hlist : t.env.authorizationList = [] := t.depositPlain h
  rw [hlist]
  exact fun auth hmem => by cases hmem

theorem nonce_caller_of_unauthorized
    (h : t.revm.Unauthorized t.env.authorizationList t.env.caller
      ((t.charged false).info t.env.caller)) :
    ((t.settled false).info t.env.caller).nonce - 1 = t.sender.nonce := by
  rw [nonce_settled, info_authorized, h.authorizedInfo_eq, info_charged, if_pos rfl, view_false]
  show (t.real.info t.env.caller).nonce + 1 - 1 = _
  rw [nonce_real]
  exact BitVec.add_sub_cancel _ _

/-- The full path accepts what the lazy path accepts, when it is plain. -/
theorem full_of_lazy (h : t.LazyAccepts) (hplain : t.Plain) :
    t.FullExecutes ∧ t.NonceEvaluates := by
  obtain ⟨hexecutes, hfunds, hnonce⟩ := h
  constructor
  · refine Revm.rejects_eq_none.mpr ⟨hexecutes,
      Revm.checkSender_eq_none.mpr ⟨.inl hplain.senderCode, fun _ => ?_, ?_⟩⟩
    · rw [nonce_real, hnonce]
      rfl
    · rw [balance_real, ← TxEnv.toNat_maxFee (t.revm.maxFee_lt _ t.env hexecutes)]
      exact hfunds
  · intro _
    rw [nonce_caller_of_unauthorized (hplain.authorizations t.env.caller), hnonce]

/-- The lazy path accepts what revm does not reject on the full path, but for the nonce. -/
theorem lazy_of_full (h : t.FullExecutes) (hnonce : t.env.nonce = t.sender.nonce) :
    t.LazyAccepts := by
  obtain ⟨hcheck, hsender⟩ := Revm.rejects_eq_none.mp h
  obtain ⟨-, -, hfunds⟩ := Revm.checkSender_eq_none.mp hsender
  refine ⟨hcheck, ?_, hnonce⟩
  rw [balance_real] at hfunds
  rw [BitVec.le_def, TxEnv.toNat_maxFee (t.revm.maxFee_lt _ t.env hcheck)]
  exact hfunds

/-- revm checks the nonce of a transaction that has one. -/
theorem FullExecutes.nonce_eq (h : t.FullExecutes) (hnonce : t.hasNonce = true) :
    t.env.nonce = t.sender.nonce := by
  obtain ⟨-, hsender⟩ := Revm.rejects_eq_none.mp h
  rw [← (Revm.checkSender_eq_none.mp hsender).2.1 hnonce, nonce_real]
  rfl

theorem Agrees.accepted (h : t.Agrees) :
    (∃ m results, t.Accepted true m results) ↔ ∃ m results, t.Accepted false m results := by
  rw [lazy_accepted_iff, full_accepted_iff]
  refine ⟨fun hlazy => full_of_lazy hlazy (h.plain hlazy), ?_⟩
  rintro ⟨hexecutes, hevaluates⟩
  refine lazy_of_full hexecutes ?_
  cases hnonce : t.hasNonce with
  | true => exact hexecutes.nonce_eq hnonce
  | false =>
    by_contra hne
    exact hne ((hevaluates (h.deposit hnonce hexecutes hne)).trans
      (nonce_caller_of_unauthorized (unauthorized_of_deposit hnonce)))

/-! ## Accounts -/

/-- The balance of the sender after it was charged on the full path. -/
theorem toNat_balance_charged (h : t.LazyAccepts) :
    ((t.charged false).info t.env.caller).balance.toNat =
      t.sender.balance.toNat - (t.revm.cost t.env).toNat := by
  have hle := cost_add_value_le h
  rw [info_charged, if_pos rfl, view_false]
  show ((t.real.info t.env.caller).balance - t.revm.cost t.env).toNat = _
  rw [balance_real]
  refine BitVec.toNat_sub_of_le ?_
  rw [BitVec.le_def]
  show _ ≤ t.sender.balance.toNat
  omega

/-- On the full path the value is moved as well. -/
theorem settled_full (h : t.LazyAccepts) :
    t.settled false = Revm.moved t.env t.recipient (t.authorized false) := by
  rw [settled_eq, if_neg]
  have hle := cost_add_value_le h
  rw [BitVec.lt_def, info_authorized, Revm.balance_authorizedInfo, toNat_balance_charged h]
  omega

/-- The balance of the sender at the end of the full path. -/
theorem toNat_balance_settled (h : t.LazyAccepts) :
    ((t.settled false).info t.env.caller).balance.toNat =
      t.sender.balance.toNat - t.paid.toNat := by
  have hle := cost_add_value_le h
  have hpaid := toNat_paid h.1
  have hcharged := toNat_balance_charged h
  have hauthorized : ((t.authorized false).info t.env.caller).balance =
      ((t.charged false).info t.env.caller).balance := by
    rw [info_authorized, Revm.balance_authorizedInfo]
  rw [settled_full h]
  split_ifs at hpaid with hself
  · rw [hself, Revm.balance_moved_self, hauthorized, hcharged, hpaid, Nat.add_zero]
  · have hvalue : t.env.value ≤ ((t.charged false).info t.env.caller).balance := by
      rw [BitVec.le_def, hcharged]
      omega
    rw [Revm.balance_moved_caller hself, hauthorized, BitVec.toNat_sub_of_le hvalue, hcharged, hpaid]
    omega

theorem lazyAccount_caller (h : t.LazyExecutes) : t.lazyAccount t.env.caller =
    ⟨saturatingSub t.sender.balance t.paid, t.sender.nonce + 1⟩ := by
  unfold lazyAccount
  rw [basicValue_lazy h, if_pos rfl]
  rfl

theorem lazyAccount_recipient (h : t.LazyExecutes) (hne : t.recipient ≠ t.env.caller) :
    t.lazyAccount t.recipient =
      ⟨(t.pre.account t.recipient).balance + t.env.value, (t.pre.account t.recipient).nonce⟩ := by
  have hgains : (t.pre.account t.recipient).balance.toNat + t.env.value.toNat < 2 ^ 256 :=
    t.recipientGains hne
  unfold lazyAccount
  rw [basicValue_lazy h, if_neg hne, if_pos rfl]
  simp only [AccountBasic.after, saturatingAdd, if_pos hgains]

theorem lazyAccount_other (h : t.LazyExecutes) (hcaller : a ≠ t.env.caller)
    (hrecipient : a ≠ t.recipient) : t.lazyAccount a = t.pre.account a := by
  unfold lazyAccount
  rw [basicValue_lazy h, if_neg hcaller, if_neg hrecipient]
  rfl

/-- The lazy path raises the nonce of the sender only, as charging it does. -/
theorem nonce_lazyAccount (h : t.LazyExecutes) :
    (t.lazyAccount a).nonce = ((t.charged false).info a).nonce := by
  rw [info_charged, view_false]
  by_cases hcaller : a = t.env.caller
  · subst hcaller
    rw [lazyAccount_caller h, if_pos rfl]
    show _ = (t.real.info t.env.caller).nonce + 1
    rw [nonce_real]
    rfl
  · rw [if_neg hcaller, nonce_real]
    by_cases hrecipient : a = t.recipient
    · subst hrecipient
      rw [lazyAccount_recipient h hcaller]
    · rw [lazyAccount_other h hcaller hrecipient]

/-- The accounts of a plain transaction. -/
theorem lazyAccount_eq (h : t.LazyAccepts) (hplain : t.Plain) : t.lazyAccount a =
    ⟨((t.settled false).info a).balance, ((t.settled false).info a).nonce⟩ := by
  have hinfo : (t.authorized false).info a = (t.charged false).info a := by
    rw [info_authorized, (hplain.authorizations a).authorizedInfo_eq]
  have hnonce : (t.lazyAccount a).nonce = ((t.settled false).info a).nonce := by
    rw [nonce_lazyAccount h.1, nonce_settled, hinfo]
  have hbalance : (t.lazyAccount a).balance = ((t.settled false).info a).balance := by
    by_cases hcaller : a = t.env.caller
    · subst hcaller
      apply BitVec.eq_of_toNat_eq
      rw [lazyAccount_caller h.1, toNat_balance_settled h, toNat_saturatingSub]
    · have hauthorized : ((t.authorized false).info a).balance = (t.pre.account a).balance := by
        rw [hinfo, info_charged_other hcaller, view_false, balance_real]
      rw [settled_full h]
      by_cases hrecipient : a = t.recipient
      · subst hrecipient
        rw [lazyAccount_recipient h.1 hcaller, Revm.balance_moved_recipient hcaller, hauthorized]
      · rw [lazyAccount_other h.1 hcaller hrecipient, Revm.balance_moved_other hcaller hrecipient,
          hauthorized]
  rw [← hnonce, ← hbalance]

/-- What is recorded for the balance and nonce of an account. -/
theorem Recorded.recordedBasic_eq {m : MvMemory} {basic code : Address → Option MemoryValue}
    (h : t.Recorded m basic code) (ha : a ∈ t.accounts) :
    t.recordedBasic m a = (t.pre.account a).after (basic a) := by
  unfold recordedBasic
  rw [h.basic a ha]
  match basic a with
  | some (.basic _) | some (.lazyRecipient _) | some (.lazySender _) | some (.codeHash _)
  | some (.storage _) | some .selfDestructed | none => rfl

theorem Recorded.recordedCodeHash_eq {m : MvMemory} {basic : Address → Option MemoryValue}
    {isLazy : Bool} {s : Accounts} (h : t.Recorded m basic (t.codeValue isLazy s))
    (ha : a ∈ t.accounts) : t.recordedCodeHash m a =
      if s.touched a && t.newCode isLazy s a then some (s.info a).codeHash else t.pre.codeHash a := by
  unfold recordedCodeHash
  rw [h.code a ha, codeValue]
  split_ifs <;> rfl

/-! ## Code -/

theorem isEmptyCodeHash_real_recipient : (t.real.info t.recipient).isEmptyCodeHash = true := by
  unfold View.info real
  cases t.pre.basic t.recipient with
  | none => rfl
  | some account => simp [AccountInfo.isEmptyCodeHash, t.recipientCode]

/-- An account that is neither sender nor recipient and has no valid authorization is not touched. -/
theorem untouched_other (hcaller : a ≠ t.env.caller) (hrecipient : a ≠ t.recipient)
    (h : t.revm.Unauthorized t.env.authorizationList a ((t.charged isLazy).info a)) :
    (t.settled isLazy).touched a = false := by
  have htouched : (t.authorized isLazy).touched a = false := by
    rw [authorized, h.touched_eq, touched_charged]
    simp [hcaller]
  rw [settled_eq]
  split_ifs
  · exact htouched
  · rw [Revm.touched_moved, if_neg (by simp [hcaller, hrecipient]), htouched]

/-- The mocked sender has no valid authorization when the real one has none: both can be delegated
and have the same nonce. -/
theorem unauthorized_mock (hlazy : t.LazyAccepts)
    (hcode : (t.real.info t.env.caller).isEmptyCodeHash = true ∨
      (t.real.info t.env.caller).isDelegated = true)
    (h : t.revm.Unauthorized t.env.authorizationList t.env.caller
      ((t.charged false).info t.env.caller)) :
    t.revm.Unauthorized t.env.authorizationList t.env.caller
      ((t.charged true).info t.env.caller) := by
  intro auth hmem hauth
  have hreal := h auth hmem hauth
  rw [info_charged, if_pos rfl] at hreal ⊢
  rw [view_false] at hreal
  rw [info_view_caller]
  have hnonce : (t.real.info t.env.caller).nonce = t.env.nonce := by
    rw [nonce_real, hlazy.2.2]
    rfl
  have hcode' : ((t.revm.charge t.env (t.real.info t.env.caller)).isEmptyCodeHash ||
      (t.revm.charge t.env (t.real.info t.env.caller)).isDelegated) = true := by
    rcases hcode with hcode | hcode
    · exact Bool.or_eq_true_iff.mpr (.inl hcode)
    · exact Bool.or_eq_true_iff.mpr (.inr hcode)
  unfold Revm.accepts at hreal ⊢
  rw [hcode', Bool.true_and] at hreal
  have hnonce' : decide (t.env.nonce + 1 = auth.nonce) = false := by
    rw [← hnonce]
    exact hreal
  show (_ && decide (t.env.nonce + 1 = auth.nonce)) = false
  rw [hnonce', Bool.and_false]

/-- The code of the sender at the end of the lazy path. -/
theorem codeHash_caller_lazy
    (h : t.revm.Unauthorized t.env.authorizationList t.env.caller
      ((t.charged true).info t.env.caller)) :
    ((t.settled true).info t.env.caller).codeHash = keccakEmpty := by
  rw [codeHash_settled, info_authorized, h.authorizedInfo_eq, info_charged, if_pos rfl,
    info_view_caller]
  rfl

/-- The code of the recipient at the end of the lazy path. -/
theorem codeHash_recipient_lazy (hne : t.recipient ≠ t.env.caller) :
    ((t.settled true).info t.recipient).codeHash =
      (t.revm.authorizedInfo t.recipient t.env.authorizationList .empty).codeHash := by
  rw [codeHash_settled, info_authorized, info_charged_other hne, info_view_recipient hne]

/-- The code of an account without a valid authorization at the end of the full path. -/
theorem codeHash_full
    (h : t.revm.Unauthorized t.env.authorizationList a ((t.charged false).info a)) :
    ((t.settled false).info a).codeHash = (t.real.info a).codeHash := by
  rw [codeHash_settled, info_authorized, h.authorizedInfo_eq, info_charged, view_false]
  split_ifs with hcaller
  · rw [hcaller]
    rfl
  · rfl

/-! ## Results -/

/-- What is returned about an account without code. -/
def reported (t : Transfer T) (account : AccountBasic) : Option EvmAccount :=
  if t.isEip161Enabled && account.nonce = 0 && account.balance = 0 then none
  else some ⟨account.balance, account.nonce, none, none, []⟩

theorem reported_of_nonce {account : AccountBasic} (h : account.nonce ≠ 0) :
    t.reported account = some ⟨account.balance, account.nonce, none, none, []⟩ := by
  unfold reported
  rw [if_neg]
  simp only [Bool.and_eq_true, decide_eq_true_eq]
  exact fun hcon => h hcon.1.2

theorem transition_codeless (htouched : (t.settled isLazy).touched a = true)
    (hcode : ((t.settled isLazy).info a).codeHash = keccakEmpty) :
    t.transition isLazy a = some (t.reported
      ⟨((t.settled isLazy).info a).balance, ((t.settled isLazy).info a).nonce⟩) := by
  have hempty : ((t.settled isLazy).info a).isEmptyCodeHash = true := by
    simp [AccountInfo.isEmptyCodeHash, hcode]
  have hisEmpty : (⟨(t.settled isLazy).info a, [], true, false⟩ : Account).isEmpty =
      (decide (((t.settled isLazy).info a).balance = 0) &&
        decide (((t.settled isLazy).info a).nonce = 0)) := by
    simp [Account.isEmpty, AccountInfo.isEmpty, hempty]
  unfold transition reported
  rw [if_pos htouched]
  dsimp only
  rw [hisEmpty]
  simp only [EvmAccount.ofAccount, hempty, Bool.not_true, Bool.false_eq_true, if_false, List.map_nil]
  cases t.isEip161Enabled <;> simp [and_comm]

/-- The evaluation of an account that was reported without code. -/
theorem evaluatedAccount_reported {account : AccountBasic} {v : MemoryValue}
    (h : t.pre.codeHash a = none ∨
      account.nonce ≠ 0 ∧ ((t.pre.account a).after v).nonce ≠ 0) :
    t.evaluatedAccount a v (t.reported account) = t.reported ((t.pre.account a).after v) := by
  unfold evaluatedAccount writeAccount
  rcases h with hcode | ⟨haccount, hafter⟩
  · rw [hcode]
    unfold reported
    split_ifs <;> simp_all
  · rw [reported_of_nonce haccount, reported_of_nonce hafter, if_neg]
    simp only [Bool.and_eq_true, decide_eq_true_eq]
    exact fun hcon => hafter hcon.1.2

/-- An account that gains no fee is recorded as it is at the end of the run. -/
theorem after_value_of_not_mem (h : a ∉ AssocList.keys fees) :
    (t.pre.account a).after (t.value fees false a) =
      ⟨((t.settled false).info a).balance, ((t.settled false).info a).nonce⟩ := by
  rw [after_value_full, credited_of_not_mem h]

/-- What the full path returns about an account without code that it touched. -/
theorem returned_full (hpays : t.Pays fees) (htouched : (t.settled false).touched a = true)
    (hcode : ((t.settled false).info a).codeHash = keccakEmpty)
    (h : t.pre.codeHash a = none ∨ a = t.env.caller) :
    (if a ∈ t.chain.lazyAddresses t.blockEnv then
      t.evaluatedEntry (t.value fees false a) a (t.transition false a)
    else t.transition false a) =
      some (t.reported ((t.pre.account a).after (t.value fees false a))) := by
  rw [transition_codeless htouched hcode]
  split_ifs with hlazy
  · cases hvalue : t.value fees false a with
    | none =>
      have hfees : a ∉ AssocList.keys fees := by
        intro hmem
        have hsome : (t.value fees false a).isSome := isSome_credits hmem _
        rw [hvalue] at hsome
        cases hsome
      rw [← hvalue, after_value_of_not_mem hfees, hvalue]
      rfl
    | some v =>
      refine congrArg some (evaluatedAccount_reported (h.imp_right ?_))
      rintro rfl
      rw [← hvalue, after_value_full, nonce_credited]
      exact ⟨nonce_settled_caller_ne, nonce_settled_caller_ne⟩
  · have hfees : a ∉ AssocList.keys fees := fun hmem => hlazy ((hpays.recipients a).mp hmem).1
    rw [after_value_of_not_mem hfees]

theorem nonce_caller_lazy_ne (h : t.LazyAccepts)
    (hmock : t.revm.Unauthorized t.env.authorizationList t.env.caller
      ((t.charged true).info t.env.caller)) :
    ((t.settled true).info t.env.caller).nonce ≠ 0 := by
  rw [nonce_settled, info_authorized, hmock.authorizedInfo_eq, info_charged, if_pos rfl,
    info_view_caller]
  show t.env.nonce + 1 ≠ 0
  intro hzero
  have hone := toNat_add_one (x := t.env.nonce) (h.2.2 ▸ t.senderNonce)
  rw [hzero] at hone
  simp at hone

/-- What the lazy path returns about its sender and recipient when they have no code. -/
theorem returned_lazy (hlazy : t.LazyAccepts) (ha : a = t.env.caller ∨ a = t.recipient)
    (hcode : ((t.settled true).info a).codeHash = keccakEmpty)
    (h : t.pre.codeHash a = none ∨ ((t.settled true).info a).nonce ≠ 0 ∧
      ((t.pre.account a).after (t.value fees true a)).nonce ≠ 0) :
    (if a ∈ t.evaluatedAddresses true then
      t.evaluatedEntry (t.value fees true a) a (t.transition true a)
    else t.transition true a) =
      some (t.reported ((t.pre.account a).after (t.value fees true a))) := by
  have hmem : a ∈ t.evaluatedAddresses true := mem_evaluatedAddresses.mpr (.inr ⟨rfl, ha⟩)
  rw [if_pos hmem, transition_codeless (touched_lazy hlazy.1 ha.symm) hcode]
  cases hvalue : t.value fees true a with
  | none =>
    have hbasic : (t.basicValue true (t.settled true) a).isSome := by
      rw [basicValue_lazy hlazy.1]
      by_cases hcaller : a = t.env.caller
      · rw [if_pos hcaller]
        rfl
      · rw [if_neg hcaller, if_pos (ha.resolve_left hcaller)]
        rfl
    have hsome : (t.value fees true a).isSome := isSome_credits_of_isSome hbasic
    rw [hvalue] at hsome
    cases hsome
  | some v =>
    rw [hvalue] at h
    exact congrArg some (evaluatedAccount_reported h)

/-- What an accepted block of the lazy path records and returns. -/
theorem Accepted.lazy {m : MvMemory} {results : List PevmTxExecutionResult}
    (h : t.Accepted true m results) (hpays : t.Pays fees) :
    t.LazyAccepts ∧ t.Recorded m (t.value fees true) (t.codeValue true (t.settled true)) ∧
      ∀ a, Transfer.returned results a =
        if a ∈ t.evaluatedAddresses true then
          t.evaluatedEntry (t.value fees true a) a (t.transition true a)
        else t.transition true a := by
  have hlazy : t.LazyAccepts := lazy_accepted_iff.mp ⟨m, results, h⟩
  obtain ⟨m', results', haccepted, hrecorded, hreturned⟩ := lazy_accepts hpays hlazy
  obtain ⟨rfl, rfl⟩ := h.unique haccepted
  exact ⟨hlazy, hrecorded, hreturned⟩

/-- What an accepted block of the full path records and returns. -/
theorem Accepted.full {m : MvMemory} {results : List PevmTxExecutionResult}
    (h : t.Accepted false m results) (hpays : t.Pays fees) :
    t.FullExecutes ∧ t.Recorded m (t.value fees false) (t.codeValue false (t.settled false)) ∧
      ∀ a, Transfer.returned results a =
        if a ∈ t.chain.lazyAddresses t.blockEnv then
          t.evaluatedEntry (t.value fees false a) a (t.transition false a)
        else t.transition false a := by
  obtain ⟨hexecutes, hnonce⟩ := full_accepted_iff.mp ⟨m, results, h⟩
  obtain ⟨m', results', haccepted, hrecorded, hreturned⟩ := full_accepts hpays hexecutes hnonce
  obtain ⟨rfl, rfl⟩ := h.unique haccepted
  exact ⟨hexecutes, hrecorded, hreturned⟩

/-! ## Plain transactions agree -/

/-- Neither path touches another account. -/
theorem Plain.untouched (hplain : t.Plain) (hcaller : a ≠ t.env.caller) (hrecipient : a ≠ t.recipient)
    (isLazy : Bool) : (t.settled isLazy).touched a = false := by
  refine untouched_other hcaller hrecipient ?_
  have hun := hplain.authorizations a
  cases isLazy with
  | false => exact hun
  | true =>
    rw [info_charged_other hcaller, view_false] at hun
    rwa [info_charged_other hcaller, info_view_other hcaller hrecipient]

section Plain

variable (hlazy : t.LazyAccepts) (hplain : t.Plain)

include hlazy hplain

theorem Plain.mock : t.revm.Unauthorized t.env.authorizationList t.env.caller
    ((t.charged true).info t.env.caller) :=
  unauthorized_mock hlazy (.inl hplain.senderCode) (hplain.authorizations t.env.caller)

/-- The sender and the recipient have no code at the end of either path. -/
theorem Plain.codeHash_eq (ha : a = t.env.caller ∨ a = t.recipient) (isLazy : Bool) :
    ((t.settled isLazy).info a).codeHash = keccakEmpty := by
  cases isLazy with
  | false =>
    rw [codeHash_full (hplain.authorizations a)]
    rcases ha with rfl | rfl
    · simpa [AccountInfo.isEmptyCodeHash] using hplain.senderCode
    · have hcode : (t.real.info t.recipient).isEmptyCodeHash = true :=
        isEmptyCodeHash_real_recipient
      simpa [AccountInfo.isEmptyCodeHash] using hcode
  | true =>
    by_cases hcaller : a = t.env.caller
    · rw [hcaller]
      exact codeHash_caller_lazy (hplain.mock hlazy)
    · obtain rfl := ha.resolve_left hcaller
      rw [codeHash_recipient_lazy hcaller]
      simpa [AccountInfo.isEmptyCodeHash] using hplain.recipientCode hcaller

/-- No code is recorded. -/
theorem Plain.not_newCode (isLazy : Bool) :
    ((t.settled isLazy).touched a && t.newCode isLazy (t.settled isLazy) a) = false := by
  by_cases ha : a = t.env.caller ∨ a = t.recipient
  · have hcode := hplain.codeHash_eq hlazy ha isLazy
    simp [newCode, AccountInfo.isEmptyCodeHash, hcode]
  · rw [not_or] at ha
    rw [hplain.untouched ha.1 ha.2 isLazy, Bool.false_and]

theorem Plain.after_value_eq (hpays : t.Pays fees) :
    (t.pre.account a).after (t.value fees true a) =
      (t.pre.account a).after (t.value fees false a) := by
  rw [after_value_lazy hpays hlazy, after_value_full, lazyAccount_eq hlazy hplain]

/-- Both paths return the same of every account. -/
theorem Plain.returned_eq (hpays : t.Pays fees) :
    (if a ∈ t.evaluatedAddresses true then
      t.evaluatedEntry (t.value fees true a) a (t.transition true a)
    else t.transition true a) =
    if a ∈ t.chain.lazyAddresses t.blockEnv then
      t.evaluatedEntry (t.value fees false a) a (t.transition false a)
    else t.transition false a := by
  by_cases ha : a = t.env.caller ∨ a = t.recipient
  · -- the recipient has no code, and the sender is not cleared
    have hor : t.pre.codeHash a = none ∨ a = t.env.caller := by
      refine ha.symm.imp_left ?_
      rintro rfl
      exact t.recipientCode
    have htouched : (t.settled false).touched a = true := by
      rw [settled_full hlazy, Revm.touched_moved, if_pos ha.symm]
    rw [returned_full hpays htouched (hplain.codeHash_eq hlazy ha false) hor,
      returned_lazy hlazy ha (hplain.codeHash_eq hlazy ha true), hplain.after_value_eq hlazy hpays]
    refine hor.imp_right ?_
    rintro rfl
    refine ⟨nonce_caller_lazy_ne hlazy (hplain.mock hlazy), ?_⟩
    rw [hplain.after_value_eq hlazy hpays, after_value_full, nonce_credited]
    exact nonce_settled_caller_ne
  · -- another account is only paid a fee, as a recipient of the chain
    rw [not_or] at ha
    have htransition : ∀ isLazy, t.transition isLazy a = none := by
      intro isLazy
      unfold transition
      rw [if_neg (by simp [hplain.untouched ha.1 ha.2 isLazy])]
    have hvalue : ∀ isLazy, t.value fees isLazy a = credits fees a none := by
      intro isLazy
      unfold value basicValue
      rw [if_neg (by simp [hplain.untouched ha.1 ha.2 isLazy])]
    have hmem : a ∈ t.evaluatedAddresses true ↔ a ∈ t.chain.lazyAddresses t.blockEnv := by
      simp [mem_evaluatedAddresses, mocked, ha]
    simp only [htransition, hvalue, hmem]

end Plain

theorem Agrees.pathsAgree (h : t.Agrees) : t.PathsAgree := by
  obtain ⟨fees, hpays⟩ := t.exists_pays
  refine ⟨h.accepted, ?_, ?_⟩
  · intro m results m' results' hlazy hfull a
    obtain ⟨haccepts, -, hreturned⟩ := hlazy.lazy hpays
    obtain ⟨-, -, hreturned'⟩ := hfull.full hpays
    rw [hreturned, hreturned', (h.plain haccepts).returned_eq haccepts hpays]
  · intro m results m' results' hlazy hfull a ha
    obtain ⟨haccepts, hrecorded, -⟩ := hlazy.lazy hpays
    obtain ⟨-, hrecorded', -⟩ := hfull.full hpays
    have hplain := h.plain haccepts
    constructor
    · rw [hrecorded.recordedBasic_eq ha, hrecorded'.recordedBasic_eq ha,
        hplain.after_value_eq haccepts hpays]
    · rw [hrecorded.recordedCodeHash_eq ha, hrecorded'.recordedCodeHash_eq ha,
        hplain.not_newCode haccepts, hplain.not_newCode haccepts]
      rfl

/-! ## Transactions that agree are plain -/

/-- The sender is always returned, with the code the run left it. -/
theorem returned_caller_codeHash (isLazy : Bool)
    (hnonce : ((t.settled isLazy).info t.env.caller).nonce ≠ 0) {value : Option MemoryValue}
    (hvalue : ((t.pre.account t.env.caller).after value).nonce ≠ 0) {P : Prop} [Decidable P] :
    ∃ account, (if P then t.evaluatedEntry value t.env.caller (t.transition isLazy t.env.caller)
        else t.transition isLazy t.env.caller) = some (some account) ∧
      (account.codeHash = none ↔
        ((t.settled isLazy).info t.env.caller).isEmptyCodeHash = true) := by
  have hempty : (⟨(t.settled isLazy).info t.env.caller, [], true, false⟩ : Account).isEmpty =
      false := by
    unfold Account.isEmpty AccountInfo.isEmpty
    rw [decide_eq_false hnonce, Bool.and_false]
  have htransition : t.transition isLazy t.env.caller = some (some
      (.ofAccount ⟨(t.settled isLazy).info t.env.caller, [], true, false⟩)) := by
    unfold transition
    rw [if_pos touched_caller]
    dsimp only
    rw [hempty]
    rfl
  have hcode : (EvmAccount.ofAccount
      ⟨(t.settled isLazy).info t.env.caller, [], true, false⟩).codeHash = none ↔
      ((t.settled isLazy).info t.env.caller).isEmptyCodeHash = true := by
    unfold EvmAccount.ofAccount
    cases ((t.settled isLazy).info t.env.caller).isEmptyCodeHash <;> simp
  rw [htransition]
  split_ifs
  · cases value with
    | none => exact ⟨_, rfl, hcode⟩
    | some v =>
      refine ⟨_, congrArg some (if_neg ?_), hcode⟩
      simp only [Bool.and_eq_true, decide_eq_true_eq]
      exact fun hcon => hvalue hcon.1.2
  · exact ⟨_, rfl, hcode⟩

section Necessary

variable {m m' : MvMemory} {results results' : List PevmTxExecutionResult}
  (h : t.PathsAgree) (hlazy : t.Accepted true m results) (hfull : t.Accepted false m' results')

include h hlazy hfull

/-- A valid authorization shows in the recorded nonce of its authority. -/
theorem PathsAgree.authorizations (a : Address) :
    t.revm.Unauthorized t.env.authorizationList a ((t.charged false).info a) := by
  obtain ⟨fees, hpays⟩ := t.exists_pays
  obtain ⟨haccepts, hrecorded, -⟩ := hlazy.lazy hpays
  obtain ⟨-, hrecorded', -⟩ := hfull.full hpays
  by_contra hcon
  have ha : a ∈ t.accounts := by
    obtain ⟨auth, hmem, hauth⟩ : ∃ auth ∈ t.env.authorizationList,
        t.revm.authority auth = some a := by
      unfold Revm.Unauthorized at hcon
      push Not at hcon
      obtain ⟨auth, hmem, hauth, -⟩ := hcon
      exact ⟨auth, hmem, hauth⟩
    refine asked_mem a (List.mem_cons_of_mem _ (List.mem_cons_of_mem _ ?_))
    exact List.mem_filterMap.mpr ⟨auth, hmem, hauth⟩
  have hbasic := (h.recorded m results m' results' hlazy hfull a ha).1
  rw [hrecorded.recordedBasic_eq ha, hrecorded'.recordedBasic_eq ha,
    after_value_lazy hpays haccepts, after_value_full] at hbasic
  have hnonce := congrArg (fun account => account.nonce.toNat) hbasic
  simp only [nonce_credited, nonce_lazyAccount haccepts.1, nonce_settled, info_authorized] at hnonce
  have hlt := Revm.lt_nonce_authorizedInfo hcon
  omega

theorem PathsAgree.mock : t.revm.Unauthorized t.env.authorizationList t.env.caller
    ((t.charged true).info t.env.caller) := by
  obtain ⟨fees, hpays⟩ := t.exists_pays
  obtain ⟨haccepts, -, -⟩ := hlazy.lazy hpays
  obtain ⟨hexecutes, -, -⟩ := hfull.full hpays
  obtain ⟨-, hsender⟩ := Revm.rejects_eq_none.mp hexecutes
  exact unauthorized_mock haccepts (Revm.checkSender_eq_none.mp hsender).1
    (h.authorizations hlazy hfull t.env.caller)

/-- The code of the sender shows in the results. -/
theorem PathsAgree.senderCode : (t.real.info t.env.caller).isEmptyCodeHash = true := by
  obtain ⟨fees, hpays⟩ := t.exists_pays
  obtain ⟨haccepts, -, hreturned⟩ := hlazy.lazy hpays
  obtain ⟨-, -, hreturned'⟩ := hfull.full hpays
  have hmock := h.mock hlazy hfull
  have hnonce : ((t.pre.account t.env.caller).after (t.value fees true t.env.caller)).nonce ≠ 0 := by
    rw [after_value_lazy hpays haccepts, nonce_credited, nonce_lazyAccount haccepts.1]
    intro hzero
    have hcharged := t.nonce_charged_caller
    rw [hzero] at hcharged
    simp at hcharged
  have hnonce' : ((t.pre.account t.env.caller).after
      (t.value fees false t.env.caller)).nonce ≠ 0 := by
    rw [after_value_full, nonce_credited]
    exact nonce_settled_caller_ne
  obtain ⟨account, haccount, hcode⟩ := returned_caller_codeHash true
    (nonce_caller_lazy_ne haccepts hmock) hnonce (P := t.env.caller ∈ t.evaluatedAddresses true)
  obtain ⟨account', haccount', hcode'⟩ := returned_caller_codeHash false nonce_settled_caller_ne
    hnonce' (P := t.env.caller ∈ t.chain.lazyAddresses t.blockEnv)
  have heq := h.returned m results m' results' hlazy hfull t.env.caller
  rw [hreturned, hreturned', haccount, haccount'] at heq
  obtain rfl : account = account' := by simpa using heq
  -- the mock has no code, so that the sender has none
  have hmockCode : ((t.settled true).info t.env.caller).isEmptyCodeHash = true := by
    simp [AccountInfo.isEmptyCodeHash, codeHash_caller_lazy hmock]
  have hrealCode := hcode'.mp (hcode.mpr hmockCode)
  unfold AccountInfo.isEmptyCodeHash at hrealCode ⊢
  rwa [codeHash_full (h.authorizations hlazy hfull t.env.caller)] at hrealCode

/-- The code that the mocked recipient gets shows in its recorded code hash. -/
theorem PathsAgree.recipientCode (hne : t.recipient ≠ t.env.caller) :
    (t.revm.authorizedInfo t.recipient t.env.authorizationList .empty).isEmptyCodeHash = true := by
  obtain ⟨fees, hpays⟩ := t.exists_pays
  obtain ⟨haccepts, hrecorded, -⟩ := hlazy.lazy hpays
  obtain ⟨-, hrecorded', -⟩ := hfull.full hpays
  have hcode := (h.recorded m results m' results' hlazy hfull t.recipient recipient_mem).2
  have hreal : ((t.settled false).info t.recipient).isEmptyCodeHash = true := by
    have hrecipient : (t.real.info t.recipient).isEmptyCodeHash = true :=
      isEmptyCodeHash_real_recipient
    unfold AccountInfo.isEmptyCodeHash at hrecipient ⊢
    rwa [codeHash_full (h.authorizations hlazy hfull t.recipient)]
  rw [hrecorded.recordedCodeHash_eq recipient_mem, hrecorded'.recordedCodeHash_eq recipient_mem,
    touched_lazy haccepts.1 (.inl rfl)] at hcode
  have hmocked : t.mocked true t.recipient := ⟨rfl, .inr rfl⟩
  simp only [newCode, hreal, hmocked, t.recipientCode] at hcode
  by_contra hcon
  have hlazyCode : ((t.settled true).info t.recipient).isEmptyCodeHash = false := by
    unfold AccountInfo.isEmptyCodeHash at hcon ⊢
    rw [codeHash_recipient_lazy hne]
    simpa using hcon
  simp [hlazyCode] at hcode

end Necessary

theorem PathsAgree.agrees (h : t.PathsAgree) : t.Agrees := by
  constructor
  · intro haccepts
    obtain ⟨m, results, hlazy⟩ := lazy_accepted_iff.mpr haccepts
    obtain ⟨m', results', hfull⟩ := h.accepted.mp ⟨m, results, hlazy⟩
    exact ⟨h.senderCode hlazy hfull, h.authorizations hlazy hfull, h.recipientCode hlazy hfull⟩
  · intro _ hexecutes hne
    by_contra hmem
    -- nobody checks the nonce on the full path
    have hfull : t.FullExecutes ∧ t.NonceEvaluates := ⟨hexecutes, fun hlazy => absurd hlazy hmem⟩
    rw [← full_accepted_iff, ← h.accepted, lazy_accepted_iff] at hfull
    exact hne hfull.2.2

end Transfer

/-! ## A transfer with an authorization -/

namespace Sample

/-- A revm of which nothing is charged but the gas of a transfer. -/
def revm (blockEnv : BlockEnv) : Revm blockEnv where
  check := fun _ tx =>
    if tx.maxBalanceSpending < 2 ^ 256 ∧ blockEnv.basefee.toNat ≤ tx.gasPrice.toNat ∧
        21000 ≤ tx.gasLimit.toNat then none
    else some (.other "invalid transaction")
  gasUsed := fun _ => 21000
  blobFee := fun _ => 0
  authority := fun auth => if auth.nonce = BitVec.allOnes 64 then none else auth.authority
  delegationHash := fun a => a.setWidth 256
  maxFee_lt := fun _ tx h => by
    split_ifs at h with hok
    exact hok.1
  basefee_le := fun tx h => by
    split_ifs at h with hok
    exact hok.2.1
  gasUsed_le := fun _ tx h => by
    split_ifs at h with hok
    exact hok.2.2
  blobFee_le := fun _ _ _ => Nat.zero_le _
  authority_nonce := fun auth a h => by
    split_ifs at h with hnonce
    exact hnonce
  delegationHash_ne := fun a h => by
    have hlt := a.isLt
    have heq := congrArg BitVec.toNat h
    rw [BitVec.toNat_setWidth_of_le (by decide)] at heq
    have hbig : 2 ^ 160 ≤ keccakEmpty.toNat := by decide
    omega

/-- Account 6 delegates to address 9. -/
def authorization : Authorization := ⟨1, 9, 0, some 6⟩

/-- A transfer from account 1 to account 5 that carries the authorization. -/
def authorizing : Transfer TxEnv where
  chain := PevmEthereum
  isEip161Enabled := true
  source := .ethereum true
  blockEnv := ⟨beneficiary, 0⟩
  revm := revm ⟨beneficiary, 0⟩
  tx := { tx 1 5 10 with authorizationList := [authorization] }
  recipient := 5
  kind := rfl
  depositPlain := fun h => by cases h
  pre := ⟨fun _ => some ⟨1000, 0⟩, fun _ => none, fun _ => none⟩
  senderNonce := by decide
  recipientCode := rfl
  recipientGains := fun _ => by decide
  hash := hash
  hashInjective := by
    rintro l ⟨a, ha, hl⟩ l' ⟨b, hb, hl'⟩ heq
    have ha : a ∈ [1, 5, 6, beneficiary] := ha
    have hb : b ∈ [1, 5, 6, beneficiary] := hb
    simp only [List.mem_cons, List.not_mem_nil, or_false] at ha hb
    -- distinct locations have distinct hashes, pair by pair
    rcases ha with rfl | rfl | rfl | rfl <;> rcases hb with rfl | rfl | rfl | rfl <;>
      rcases hl with rfl | rfl <;> rcases hl' with rfl | rfl <;>
      first | rfl | exact absurd heq (by decide)

end Sample

end Pevm
