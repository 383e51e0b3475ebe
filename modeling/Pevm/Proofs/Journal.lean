import Pevm.Transfer
import Pevm.Lib.AssocList
import Mathlib.Tactic

/-!
# The journal of a raw transfer

What revm's assumed run of a raw transfer computes from the accounts it is shown (`View`). The
journal of the run stands for an account at every address (`Journal`), so that the run can be
followed as a function on `Accounts`: the sender is charged, the authorizations are applied
(`Revm.authorized`) and the value is moved (`Revm.moved`). `runs_transfer` says that the run ends
with exactly these accounts.
-/

namespace Pevm

open Interleaving MvMemory Saturating

/-- The accounts a run is shown. -/
abbrev View := Address → Option AccountInfo

/-- An account that is not shown is empty. -/
def View.info (view : View) (a : Address) : AccountInfo :=
  (view a).getD .empty

/-- The program, having asked for the accounts `asked`, ends with outcome `o` after it was shown
`view`; then `asked'` are all accounts it asked for. -/
inductive EvmProgram.Runs (view : View) :
    List Address → EvmProgram → List Address → Except EvmError (ExecutionResult × EvmState) → Prop
  where
  | basic {asked asked' : List Address} {a : Address} {next : Option AccountInfo → EvmProgram}
      {o : Except EvmError (ExecutionResult × EvmState)}
      (h : Runs view (asked ++ [a]) (next (view a)) asked' o) :
      Runs view asked (.basic a next) asked' o
  | finish {asked : List Address} {result : ExecutionResult} {state : EvmState} :
      Runs view asked (.finish result state) asked (.ok (result, state))
  | fail {asked : List Address} {err : EvmError} :
      Runs view asked (.fail err) asked (.error err)

namespace EvmState

/-- The addresses of the journal. -/
abbrev addresses (state : EvmState) : List Address :=
  AssocList.keys state

/-- The journal after an account was loaded. -/
def loaded (state : EvmState) (view : View) (a : Address) : EvmState :=
  match state.lookup a with
  | some _ => state
  | none => state ++ [(a, ⟨view.info a, [], false, false⟩)]

variable {state : EvmState} {view : View} {a b : Address}

theorem addresses_write (info : AccountInfo) : (state.write a info).addresses = state.addresses := by
  simp only [AssocList.keys, write, List.map_map]
  refine List.map_congr_left fun p _ => ?_
  simp only [Function.comp]
  split_ifs <;> rfl

theorem lookup_write {info : AccountInfo} : (state.write a info).lookup b =
    (state.lookup b).map fun account =>
      if b = a then { account with info := info, isTouched := true } else account := by
  unfold write
  induction state with
  | nil => rfl
  | cons p rest ih =>
    obtain ⟨c, account⟩ := p
    rw [List.map_cons, AssocList.lookup_cons]
    by_cases hca : c = a
    · rw [if_pos hca, AssocList.lookup_cons, ih]
      by_cases hb : b = c
      · simp [hb, hca]
      · simp [hb]
    · rw [if_neg hca, AssocList.lookup_cons, ih]
      by_cases hb : b = c
      · simp [hb, hca]
      · simp [hb]

theorem lookup_loaded : (state.loaded view a).lookup b =
    if b = a ∧ state.lookup a = none then some ⟨view.info a, [], false, false⟩
    else state.lookup b := by
  unfold loaded
  cases ha : state.lookup a with
  | some account => simp
  | none =>
    rw [AssocList.lookup_append, AssocList.lookup_cons]
    by_cases hb : b = a
    · simp [hb, ha]
    · simp [hb]

theorem nodup_loaded (h : state.addresses.Nodup) : (state.loaded view a).addresses.Nodup := by
  unfold loaded
  cases ha : state.lookup a with
  | some account => exact h
  | none =>
    have hmem : a ∉ state.addresses := AssocList.lookup_eq_none_iff.mp ha
    simpa using h.concat hmem

/-- Loading an account asks for it unless the journal has it. -/
theorem runs_load {next : EvmState → EvmProgram} {asked' : List Address}
    {o : Except EvmError (ExecutionResult × EvmState)}
    (h : EvmProgram.Runs view (state.loaded view a).addresses (next (state.loaded view a)) asked' o) :
    EvmProgram.Runs view state.addresses (state.load a next) asked' o := by
  unfold load
  cases ha : state.lookup a with
  | some account => simpa [loaded, ha] using h
  | none =>
    refine .basic ?_
    simpa [loaded, ha, View.info] using h

end EvmState

/-! ## The accounts of a run -/

/-- The account at every address, and whether the run touched it. -/
@[ext]
structure Accounts where
  info : Address → AccountInfo
  touched : Address → Bool

namespace Accounts

/-- The accounts before a run that is shown `view`. -/
def ofView (view : View) : Accounts := ⟨view.info, fun _ => false⟩

/-- Write an account. -/
def write (s : Accounts) (a : Address) (info : AccountInfo) : Accounts :=
  ⟨Function.update s.info a info, Function.update s.touched a true⟩

theorem info_write {s : Accounts} {a b : Address} {info : AccountInfo} :
    (s.write a info).info b = if b = a then info else s.info b :=
  Function.update_apply ..

theorem touched_write {s : Accounts} {a b : Address} {info : AccountInfo} :
    (s.write a info).touched b = if b = a then true else s.touched b :=
  Function.update_apply ..

end Accounts

/-- The journal `state` of a run that is shown `view` stands for the accounts `s`. -/
structure Journal (view : View) (state : EvmState) (s : Accounts) : Prop where
  nodup : state.addresses.Nodup
  found : ∀ a account, state.lookup a = some account → account = ⟨s.info a, [], s.touched a, false⟩
  missing : ∀ a, state.lookup a = none → s.info a = view.info a ∧ s.touched a = false

namespace Journal

variable {view : View} {state : EvmState} {s : Accounts} {a : Address}

theorem nil : Journal view [] (.ofView view) where
  nodup := List.nodup_nil
  found := by simp
  missing := fun a _ => ⟨rfl, rfl⟩

/-- What the journal has for an account it has loaded. -/
theorem info_eq (h : Journal view state s) (ha : a ∈ state.addresses) : state.info a = s.info a := by
  obtain ⟨account, hlookup⟩ := Option.isSome_iff_exists.mp (AssocList.mem_keys_iff.mp ha)
  simp [EvmState.info, hlookup, h.found a account hlookup]

theorem load (h : Journal view state s) : Journal view (state.loaded view a) s where
  nodup := EvmState.nodup_loaded h.nodup
  found := by
    intro b account hb
    rw [EvmState.lookup_loaded] at hb
    split_ifs at hb with hab
    · obtain ⟨rfl, hnone⟩ := hab
      obtain ⟨hinfo, htouched⟩ := h.missing b hnone
      rw [hinfo, htouched]
      exact (Option.some.inj hb).symm
    · exact h.found b account hb
  missing := by
    intro b hb
    rw [EvmState.lookup_loaded] at hb
    split_ifs at hb
    exact h.missing b hb

theorem write (h : Journal view state s) (ha : a ∈ state.addresses) (info : AccountInfo) :
    Journal view (state.write a info) (s.write a info) where
  nodup := by
    rw [EvmState.addresses_write]
    exact h.nodup
  found := by
    intro b account hb
    rw [EvmState.lookup_write] at hb
    obtain ⟨account', hlookup, rfl⟩ := Option.map_eq_some_iff.mp hb
    rw [h.found b account' hlookup]
    by_cases hba : b = a
    · simp [Accounts.write, hba]
    · simp [Accounts.write, hba]
  missing := by
    intro b hb
    rw [EvmState.lookup_write, Option.map_eq_none_iff] at hb
    have hba : b ≠ a := by
      rintro rfl
      simp [AssocList.mem_keys_iff, hb] at ha
    simpa [Accounts.write, hba] using h.missing b hb

theorem mem_loaded : a ∈ (state.loaded view a).addresses := by
  rw [AssocList.mem_keys_iff, EvmState.lookup_loaded]
  split_ifs with h
  · rfl
  · rw [Option.isSome_iff_ne_none]
    simpa using h

theorem loaded_subset {accounts : List Address} (hstate : ∀ b ∈ state.addresses, b ∈ accounts)
    (ha : a ∈ accounts) : ∀ b ∈ (state.loaded view a).addresses, b ∈ accounts := by
  intro b hb
  rw [AssocList.mem_keys_iff, EvmState.lookup_loaded] at hb
  split_ifs at hb with hab
  · exact hab.1 ▸ ha
  · exact hstate b (AssocList.mem_keys_iff.mpr hb)

theorem subset_loaded {b : Address} (hb : b ∈ state.addresses) :
    b ∈ (state.loaded view a).addresses := by
  rw [AssocList.mem_keys_iff] at hb ⊢
  rw [EvmState.lookup_loaded]
  split_ifs
  · rfl
  · exact hb

end Journal

/-! ## The run -/

namespace Revm

variable {blockEnv : BlockEnv} (revm : Revm blockEnv)

/-- The accounts after the authorization list. -/
def authorized : List Authorization → Accounts → Accounts
  | [], s => s
  | auth :: rest, s =>
    match revm.authority auth with
    | none => authorized rest s
    | some authority =>
      if accepts auth (s.info authority) then
        authorized rest (s.write authority (revm.delegate auth (s.info authority)))
      else authorized rest s

/-- The accounts after the sender was charged. -/
def charged (tx : TxEnv) (view : View) : Accounts :=
  (Accounts.ofView view).write tx.caller (revm.charge tx (view.info tx.caller))

/-- The accounts after the value was moved. -/
def moved (tx : TxEnv) (recipient : Address) (s : Accounts) : Accounts :=
  let sender := s.info tx.caller
  let s := s.write tx.caller { sender with balance := sender.balance - tx.value }
  let account := s.info recipient
  s.write recipient { account with balance := account.balance + tx.value }

/-- Whether the value is moved, and the accounts at the end. -/
def settled (tx : TxEnv) (recipient : Address) (view : View) : Bool × Accounts :=
  let s := revm.authorized tx.authorizationList (revm.charged tx view)
  if (s.info tx.caller).balance < tx.value then (false, s) else (true, moved tx recipient s)

/-- The checks of a transaction. -/
def rejects (tx : TxEnv) (hasNonce : Bool) (sender : AccountInfo) : Option InvalidTransaction :=
  revm.check hasNonce tx <|> checkSender tx hasNonce sender

variable {view : View} {accounts : List Address}

/-- The authorization list only loads authorities, and its effect is `authorized`. -/
theorem runs_authorize {caller : Address} :
    ∀ {list : List Authorization} {state : EvmState} {s : Accounts},
      Journal view state s → caller ∈ state.addresses →
      (∀ b ∈ state.addresses, b ∈ accounts) → (∀ b ∈ list.filterMap revm.authority, b ∈ accounts) →
      ∃ state', Journal view state' (revm.authorized list s) ∧ caller ∈ state'.addresses ∧
        (∀ b ∈ state'.addresses, b ∈ accounts) ∧
        ∀ next asked' o, EvmProgram.Runs view state'.addresses (next state') asked' o →
          EvmProgram.Runs view state.addresses (revm.authorize list state next) asked' o
  | [], state, s, hj, hcaller, hstate, _ => ⟨state, hj, hcaller, hstate, fun _ _ _ h => h⟩
  | auth :: rest, state, s, hj, hcaller, hstate, hlist => by
    unfold authorize authorized
    cases hauth : revm.authority auth with
    | none =>
      rw [List.filterMap_cons_none hauth] at hlist
      exact runs_authorize hj hcaller hstate hlist
    | some authority =>
      dsimp only
      rw [List.filterMap_cons_some hauth] at hlist
      have hmem : authority ∈ accounts := hlist _ List.mem_cons_self
      have hrest : ∀ b ∈ rest.filterMap revm.authority, b ∈ accounts :=
        fun b hb => hlist b (List.mem_cons_of_mem _ hb)
      have hloaded : authority ∈ (state.loaded view authority).addresses := Journal.mem_loaded
      have hcaller' : caller ∈ (state.loaded view authority).addresses :=
        Journal.subset_loaded hcaller
      have hstate' : ∀ b ∈ (state.loaded view authority).addresses, b ∈ accounts :=
        Journal.loaded_subset hstate hmem
      have hinfo := hj.load.info_eq hloaded
      by_cases haccepts : accepts auth (s.info authority)
      · obtain ⟨state', hj', hcaller'', hstate'', hruns⟩ := runs_authorize
          (hj.load.write hloaded (revm.delegate auth (s.info authority)))
          (by rwa [EvmState.addresses_write]) (by rwa [EvmState.addresses_write]) hrest
        rw [if_pos haccepts]
        refine ⟨state', hj', hcaller'', hstate'', fun next asked' o h => EvmState.runs_load ?_⟩
        rw [hinfo, if_pos haccepts, ← EvmState.addresses_write]
        exact hruns next asked' o h
      · obtain ⟨state', hj', hcaller'', hstate'', hruns⟩ :=
          runs_authorize hj.load hcaller' hstate' hrest
        rw [if_neg haccepts]
        refine ⟨state', hj', hcaller'', hstate'', fun next asked' o h => EvmState.runs_load ?_⟩
        rw [hinfo, if_neg haccepts]
        exact hruns next asked' o h

/-- The journal after the value was moved. -/
theorem journal_moveValue {tx : TxEnv} {recipient : Address} {state : EvmState} {s : Accounts}
    (hj : Journal view state s) (hcaller : tx.caller ∈ state.addresses)
    (hrecipient : recipient ∈ state.addresses) :
    Journal view (moveValue tx recipient state) (moved tx recipient s) := by
  unfold moveValue moved
  simp only [hj.info_eq hcaller]
  have hj' := hj.write hcaller
    { s.info tx.caller with balance := (s.info tx.caller).balance - tx.value }
  have hrecipient' := hrecipient
  rw [← EvmState.addresses_write] at hrecipient'
  rw [hj'.info_eq hrecipient']
  exact hj'.write hrecipient' _

theorem addresses_moveValue {tx : TxEnv} {recipient : Address} {state : EvmState} :
    (moveValue tx recipient state).addresses = state.addresses := by
  simp only [moveValue, EvmState.addresses_write]

/-- **The run of a transfer.** A transaction that is rejected fails after it asked for its sender
at most; otherwise the run ends with the accounts `settled`. -/
theorem runs_transfer (view : View) {tx : TxEnv} (hasNonce : Bool) {recipient : Address}
    (haccounts : ∀ b ∈ tx.caller :: recipient :: tx.authorizationList.filterMap revm.authority,
      b ∈ accounts) :
    match revm.rejects tx hasNonce (view.info tx.caller) with
    | some err => ∃ asked, (∀ b ∈ asked, b = tx.caller) ∧
        EvmProgram.Runs view [] (revm.transfer tx hasNonce recipient) asked
          (.error (.transaction err))
    | none => ∃ state,
        Journal view state (revm.settled tx recipient view).2 ∧
        (∀ b ∈ state.addresses, b ∈ accounts) ∧
        EvmProgram.Runs view [] (revm.transfer tx hasNonce recipient) state.addresses
          (.ok (⟨(revm.settled tx recipient view).1, revm.gasUsed tx, []⟩, state)) := by
  have hcaller : tx.caller ∈ accounts := haccounts _ List.mem_cons_self
  have hrecipient : recipient ∈ accounts := haccounts _ (by simp)
  have hlist : ∀ b ∈ tx.authorizationList.filterMap revm.authority, b ∈ accounts :=
    fun b hb => haccounts b (by simp [hb])
  unfold transfer rejects
  cases hcheck : revm.check hasNonce tx with
  | some err => simpa using ⟨[], by simp, .fail⟩
  | none =>
    have hrejects : (none <|> checkSender tx hasNonce (view.info tx.caller)) =
        checkSender tx hasNonce (view.info tx.caller) := rfl
    -- the sender is the first account the run asks for
    have hj : Journal view (EvmState.loaded [] view tx.caller) (.ofView view) := Journal.nil.load
    have hloaded : tx.caller ∈ (EvmState.loaded [] view tx.caller).addresses := Journal.mem_loaded
    have hinfo : EvmState.info (EvmState.loaded [] view tx.caller) tx.caller = view.info tx.caller :=
      hj.info_eq hloaded
    have hload : ∀ {next : EvmState → EvmProgram} {asked' : List Address}
        {o : Except EvmError (ExecutionResult × EvmState)},
        EvmProgram.Runs view (EvmState.loaded [] view tx.caller).addresses
          (next (EvmState.loaded [] view tx.caller)) asked' o →
        EvmProgram.Runs view [] (EvmState.load [] tx.caller next) asked' o :=
      fun h => EvmState.runs_load h
    rw [hrejects]
    cases hsender : checkSender tx hasNonce (view.info tx.caller) with
    | some err =>
      refine ⟨(EvmState.loaded [] view tx.caller).addresses, ?_, hload ?_⟩
      · simp [EvmState.loaded]
      · simp only [hinfo, hsender]
        exact .fail
    | none =>
      have hcharged : Journal view _ (revm.charged tx view) :=
        hj.write hloaded (revm.charge tx (view.info tx.caller))
      have hcaller₁ : tx.caller ∈ ((EvmState.loaded [] view tx.caller).write tx.caller
          (revm.charge tx (view.info tx.caller))).addresses := by
        rwa [EvmState.addresses_write]
      have hstate₁ : ∀ b ∈ ((EvmState.loaded [] view tx.caller).write tx.caller
          (revm.charge tx (view.info tx.caller))).addresses, b ∈ accounts := by
        rw [EvmState.addresses_write]
        exact Journal.loaded_subset (by simp) hcaller
      obtain ⟨state, hj₂, hcaller₂, hstate₂, hruns⟩ :=
        revm.runs_authorize hcharged hcaller₁ hstate₁ hlist
      have hcaller₃ : tx.caller ∈ (state.loaded view recipient).addresses :=
        Journal.subset_loaded hcaller₂
      have hrecipient₃ : recipient ∈ (state.loaded view recipient).addresses := Journal.mem_loaded
      have hstate₃ : ∀ b ∈ (state.loaded view recipient).addresses, b ∈ accounts :=
        Journal.loaded_subset hstate₂ hrecipient
      have hbalance := hj₂.load.info_eq hcaller₃
      rw [EvmState.addresses_write] at hruns
      dsimp only
      unfold settled
      by_cases hvalue : ((revm.authorized tx.authorizationList
          (revm.charged tx view)).info tx.caller).balance < tx.value
      · rw [if_pos hvalue]
        refine ⟨state.loaded view recipient, hj₂.load, hstate₃, hload ?_⟩
        simp only [hinfo, hsender]
        refine hruns _ _ _ (EvmState.runs_load ?_)
        rw [hbalance, if_pos hvalue]
        exact .finish
      · rw [if_neg hvalue]
        refine ⟨moveValue tx recipient (state.loaded view recipient),
          journal_moveValue hj₂.load hcaller₃ hrecipient₃, ?_, hload ?_⟩
        · rwa [addresses_moveValue]
        · simp only [hinfo, hsender]
          refine hruns _ _ _ (EvmState.runs_load ?_)
          rw [hbalance, if_neg hvalue, addresses_moveValue]
          exact .finish

/-! ## Authorizations, account by account -/

/-- What the authorization list makes of an account. -/
def authorizedInfo (a : Address) : List Authorization → AccountInfo → AccountInfo
  | [], info => info
  | auth :: rest, info =>
    authorizedInfo a rest
      (if revm.authority auth = some a ∧ accepts auth info then revm.delegate auth info else info)

/-- No authorization of the list is valid for the account. -/
def Unauthorized (list : List Authorization) (a : Address) (info : AccountInfo) : Prop :=
  ∀ auth ∈ list, revm.authority auth = some a → accepts auth info = false

variable {revm} {list : List Authorization} {s : Accounts} {a : Address} {info : AccountInfo}

theorem info_authorized :
    (revm.authorized list s).info a = revm.authorizedInfo a list (s.info a) := by
  induction list generalizing s with
  | nil => rfl
  | cons auth rest ih =>
    unfold authorized authorizedInfo
    cases hauth : revm.authority auth with
    | none => simp [ih]
    | some authority =>
      by_cases ha : a = authority
      · by_cases haccepts : accepts auth (s.info a)
        · simp [← ha, haccepts, ih, Accounts.info_write]
        · simp [← ha, haccepts, ih]
      · have hne : ¬ (authority = a ∧ accepts auth (s.info a) = true) :=
          fun hcon => ha hcon.1.symm
        by_cases haccepts : accepts auth (s.info authority)
        · simp [hne, haccepts, ih, Accounts.info_write, ha]
        · simp [hne, haccepts, ih]

theorem Unauthorized.authorizedInfo_eq (h : revm.Unauthorized list a info) :
    revm.authorizedInfo a list info = info := by
  induction list with
  | nil => rfl
  | cons auth rest ih =>
    have hhead : ¬ (revm.authority auth = some a ∧ accepts auth info = true) := by
      rintro ⟨hauth, haccepts⟩
      simp [h auth List.mem_cons_self hauth] at haccepts
    rw [authorizedInfo, if_neg hhead]
    exact ih fun auth' hmem => h auth' (List.mem_cons_of_mem _ hmem)

/-- An account without a valid authorization is not touched by the list. -/
theorem Unauthorized.touched_eq (h : revm.Unauthorized list a (s.info a)) :
    (revm.authorized list s).touched a = s.touched a := by
  induction list generalizing s with
  | nil => rfl
  | cons auth rest ih =>
    have hrest : revm.Unauthorized rest a (s.info a) :=
      fun auth' hmem => h auth' (List.mem_cons_of_mem _ hmem)
    unfold authorized
    cases hauth : revm.authority auth with
    | none => exact ih hrest
    | some authority =>
      dsimp only
      split_ifs with haccepts
      · have hne : a ≠ authority := by
          rintro rfl
          simp [h auth List.mem_cons_self hauth] at haccepts
        rw [ih, Accounts.touched_write, if_neg hne]
        rwa [Accounts.info_write, if_neg hne]
      · exact ih hrest

theorem touched_authorized (h : s.touched a = true) : (revm.authorized list s).touched a = true := by
  induction list generalizing s with
  | nil => exact h
  | cons auth rest ih =>
    unfold authorized
    cases revm.authority auth with
    | none => exact ih h
    | some authority =>
      dsimp only
      split_ifs
      · refine ih ?_
        rw [Accounts.touched_write, h, ite_self]
      · exact ih h

@[simp]
theorem balance_authorizedInfo : (revm.authorizedInfo a list info).balance = info.balance := by
  induction list generalizing info with
  | nil => rfl
  | cons auth rest ih =>
    rw [authorizedInfo, ih]
    split_ifs <;> rfl

/-- A valid authorization raises the nonce: it has the nonce of the authority, which is not the
largest one. -/
theorem nonce_delegate {auth : Authorization} (hauth : revm.authority auth = some a)
    (haccepts : accepts auth info = true) :
    (revm.delegate auth info).nonce.toNat = info.nonce.toNat + 1 := by
  have hnonce : info.nonce = auth.nonce := by
    simp only [accepts, Bool.and_eq_true, decide_eq_true_eq] at haccepts
    exact haccepts.2
  have hne := revm.authority_nonce auth a hauth
  have hlt : info.nonce.toNat ≠ 2 ^ 64 - 1 := by
    rw [hnonce]
    intro heq
    exact hne (BitVec.eq_of_toNat_eq (by rw [heq, BitVec.toNat_allOnes]))
  have hbound := info.nonce.isLt
  show (info.nonce + 1).toNat = _
  rw [BitVec.toNat_add]
  have hone : (1 : BitVec 64).toNat = 1 := rfl
  omega

theorem le_nonce_authorizedInfo :
    info.nonce.toNat ≤ (revm.authorizedInfo a list info).nonce.toNat := by
  induction list generalizing info with
  | nil => exact le_rfl
  | cons auth rest ih =>
    rw [authorizedInfo]
    refine le_trans ?_ ih
    split_ifs with h
    · rw [nonce_delegate h.1 h.2]
      omega
    · exact le_rfl

theorem lt_nonce_authorizedInfo (h : ¬ revm.Unauthorized list a info) :
    info.nonce.toNat < (revm.authorizedInfo a list info).nonce.toNat := by
  induction list with
  | nil => simp [Unauthorized] at h
  | cons auth rest ih =>
    rw [authorizedInfo]
    by_cases hhead : revm.authority auth = some a ∧ accepts auth info = true
    · rw [if_pos hhead]
      have hgrows := nonce_delegate hhead.1 hhead.2
      have hle : (revm.delegate auth info).nonce.toNat ≤
          (revm.authorizedInfo a rest (revm.delegate auth info)).nonce.toNat :=
        le_nonce_authorizedInfo
      omega
    · rw [if_neg hhead]
      refine ih fun hrest => h fun auth' hmem hauth => ?_
      rcases List.mem_cons.mp hmem with rfl | hmem
      · by_contra hcon
        exact hhead ⟨hauth, by simpa using hcon⟩
      · exact hrest auth' hmem hauth

end Revm

end Pevm
