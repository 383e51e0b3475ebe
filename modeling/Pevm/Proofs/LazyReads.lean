import Pevm.Evaluation
import Mathlib.Tactic

/-!
# Lazy accounts as a reader sees them

A reader of an account walks its write history **backwards**, from the closest entry below it
down to an absolute value or the storage, and keeps the balance change as a sign and a magnitude
(`VmDb::basic`). The results of the block are evaluated **forwards** through the same history
(`execute_revm_parallel`). This file relates the two.

* `AccountBasic.forward` is the forward evaluation; `evaluateHistory_append` shows that it is what
  the loop of `execute_revm_parallel` carries along.
* `LazyEvaluation.net` reads the sign and magnitude as an integer. As long as the forward
  evaluation stays in range, every backward partial sum is the difference of two balances of the
  account, so that nothing saturates (`walk_spec`).
* Without that assumption the walk still computes the sum clamped to the range of the magnitude
  (`net_walk`), which decides whether an account that the storage does not have is read as missing.
-/

namespace Pevm

open MvMemory Saturating

/-! ## Forward evaluation -/

/-- The account an entry leaves. -/
def AccountBasic.afterEntry (account : AccountBasic) : MemoryEntry → AccountBasic
  | .data _ value => account.after value
  | .estimate => account

/-- The account after the entries of a history, lowest first. -/
def AccountBasic.forward (account : AccountBasic) (entries : List (Nat × MemoryEntry)) :
    AccountBasic :=
  entries.foldl (fun account p => account.afterEntry p.2) account

/-- An entry neither exceeds `U256::MAX` nor subtracts more than the balance. -/
def AccountBasic.Fits (account : AccountBasic) : MemoryEntry → Prop
  | .data _ (.lazyRecipient addition) => account.balance.toNat + addition.toNat < 2 ^ 256
  | .data _ (.lazySender subtraction) => subtraction ≤ account.balance
  | _ => True

instance (account : AccountBasic) : (entry : MemoryEntry) → Decidable (account.Fits entry)
  | .data _ (.lazyRecipient _) => inferInstanceAs (Decidable (_ < _))
  | .data _ (.lazySender _) => inferInstanceAs (Decidable (_ ≤ _))
  | .data _ (.basic _) | .data _ (.codeHash _) | .data _ (.storage _) | .data _ .selfDestructed
  | .estimate => .isTrue trivial

/-- No entry of the history leaves the range, lowest first. -/
def AccountBasic.InRange : AccountBasic → List (Nat × MemoryEntry) → Prop
  | _, [] => True
  | account, (_, entry) :: rest => account.Fits entry ∧ InRange (account.afterEntry entry) rest

instance instDecidableInRange : (account : AccountBasic) → (entries : List (Nat × MemoryEntry)) →
    Decidable (account.InRange entries)
  | _, [] => .isTrue trivial
  | account, (_, entry) :: rest =>
    have := instDecidableInRange (account.afterEntry entry) rest
    inferInstanceAs (Decidable (_ ∧ _))

theorem AccountBasic.inRange_append {xs ys : List (Nat × MemoryEntry)} {account : AccountBasic} :
    account.InRange (xs ++ ys) ↔ account.InRange xs ∧ (account.forward xs).InRange ys := by
  induction xs generalizing account with
  | nil => simp [InRange, forward]
  | cons p xs ih =>
    rw [List.cons_append, InRange, InRange, ih, and_assoc]
    rfl

/-- The loop of `execute_revm_parallel` carries the forward evaluation along: what is left after
the first entries of a history goes on from the account they leave. -/
theorem Vm.evaluateHistory_append {T : Type} {vm : Vm T} {address : Address}
    {codeHash : Option B256} {code : Option Bytecode} {xs ys : List (Nat × MemoryEntry)}
    {account : AccountBasic} {results results' : List PevmTxExecutionResult}
    (h : vm.evaluateHistory address codeHash code (xs ++ ys) account results = .ok results') :
    ∃ results₁, vm.evaluateHistory address codeHash code ys (account.forward xs) results₁ =
      .ok results' := by
  induction xs generalizing account results with
  | nil => exact ⟨results, h⟩
  | cons p xs ih =>
    obtain ⟨txIdx, entry⟩ := p
    rw [List.cons_append, evaluateHistory] at h
    obtain ⟨account', hentry, hrest⟩ := bind_eq_ok.mp h
    obtain ⟨-, -, hloop⟩ := bind_eq_ok.mp hrest
    cases entry with
    | estimate => cases hentry
    | data incarnation value =>
      rw [evaluateEntry_eq hentry] at hloop
      exact ih hloop

/-! ## The balance change as an integer -/

/-- A lazy update. -/
def MemoryEntry.isLazy : MemoryEntry → Bool
  | .data _ (.lazyRecipient _) | .data _ (.lazySender _) => true
  | _ => false

theorem MemoryEntry.isLazy_cases : ∀ {entry : MemoryEntry}, entry.isLazy = true →
    (∃ k addition, entry = .data k (.lazyRecipient addition)) ∨
      ∃ k subtraction, entry = .data k (.lazySender subtraction)
  | .data k (.lazyRecipient addition), _ => .inl ⟨k, addition, rfl⟩
  | .data k (.lazySender subtraction), _ => .inr ⟨k, subtraction, rfl⟩

/-- What a lazy update does to the balance. -/
def MemoryEntry.change : MemoryEntry → Int
  | .data _ (.lazyRecipient addition) => addition.toNat
  | .data _ (.lazySender subtraction) => -subtraction.toNat
  | _ => 0

/-- The charge of the sender of a lazy transaction. -/
def MemoryEntry.isLazySender : MemoryEntry → Bool
  | .data _ (.lazySender _) => true
  | _ => false

/-- A sum that stops at the bounds of a sign and a magnitude of 256 bits. -/
def clamp (x : Int) : Int :=
  max (-(2 ^ 256 - 1)) (min x (2 ^ 256 - 1))

namespace LazyEvaluation

/-- The sign and the magnitude as an integer. -/
def net (acc : LazyEvaluation) : Int :=
  if acc.positiveAddition then acc.balanceAddition.toNat else -acc.balanceAddition.toNat

@[simp]
theorem addRecipient_newOrigins (acc : LazyEvaluation) (addition : U256) :
    (acc.addRecipient addition).newOrigins = acc.newOrigins := by
  unfold addRecipient
  split_ifs <;> rfl

@[simp]
theorem addRecipient_finalAccount (acc : LazyEvaluation) (addition : U256) :
    (acc.addRecipient addition).finalAccount = acc.finalAccount := by
  unfold addRecipient
  split_ifs <;> rfl

@[simp]
theorem addSender_newOrigins (acc : LazyEvaluation) (subtraction : U256) :
    (acc.addSender subtraction).newOrigins = acc.newOrigins := by
  unfold addSender
  split_ifs <;> rfl

@[simp]
theorem addSender_finalAccount (acc : LazyEvaluation) (subtraction : U256) :
    (acc.addSender subtraction).finalAccount = acc.finalAccount := by
  unfold addSender
  split_ifs <;> rfl

theorem net_addRecipient (acc : LazyEvaluation) (addition : U256) :
    (acc.addRecipient addition).net = clamp (acc.net + addition.toNat) := by
  have ha := addition.isLt
  have hb := acc.balanceAddition.isLt
  unfold addRecipient net clamp
  by_cases hpos : acc.positiveAddition
  · simp only [hpos, if_true, toNat_saturatingAdd]
    omega
  · simp only [hpos, Bool.false_eq_true, if_false, BitVec.le_def, toNat_absDiff, decide_eq_true_eq]
    split_ifs <;> omega

theorem net_addSender (acc : LazyEvaluation) (subtraction : U256) :
    (acc.addSender subtraction).net = clamp (acc.net - subtraction.toNat) := by
  have ha := subtraction.isLt
  have hb := acc.balanceAddition.isLt
  unfold addSender net clamp
  by_cases hpos : acc.positiveAddition
  · simp only [hpos, if_true, BitVec.le_def, toNat_absDiff, decide_eq_true_eq]
    split_ifs <;> omega
  · simp only [hpos, Bool.false_eq_true, if_false, toNat_saturatingAdd]
    omega

/-- No saturating addition of the walk over these entries, newest first, saturates. -/
def Exact : List (Nat × MemoryEntry) → LazyEvaluation → Prop
  | (_, .data _ (.lazyRecipient addition)) :: entries, acc =>
    (acc.positiveAddition = true → acc.balanceAddition.toNat + addition.toNat < 2 ^ 256) ∧
      Exact entries (acc.addRecipient addition)
  | (_, .data _ (.lazySender subtraction)) :: entries, acc =>
    (acc.positiveAddition = false → acc.balanceAddition.toNat + subtraction.toNat < 2 ^ 256) ∧
      Exact entries (acc.addSender subtraction)
  -- the walk ends at an absolute value
  | _, _ => True

/-- Neither does the one that applies the change. -/
def ExactOn (eval : LazyEvaluation) (account : AccountBasic) : Prop :=
  if eval.positiveAddition then account.balance.toNat + eval.balanceAddition.toNat < 2 ^ 256
  else eval.balanceAddition ≤ account.balance

/-- The account below the newest entry, and what that entry does to it. -/
theorem inRange_cons {start : AccountBasic} {p : Nat × MemoryEntry}
    {entries : List (Nat × MemoryEntry)} :
    start.InRange (p :: entries).reverse ↔
      start.InRange entries.reverse ∧ (start.forward entries.reverse).Fits p.2 := by
  rw [List.reverse_cons, AccountBasic.inRange_append]
  simp [AccountBasic.InRange]

theorem forward_cons {start : AccountBasic} {p : Nat × MemoryEntry}
    {entries : List (Nat × MemoryEntry)} :
    start.forward (p :: entries).reverse = (start.forward entries.reverse).afterEntry p.2 := by
  simp [AccountBasic.forward]

/-- The invariant of the walk: the account that the entries left to visit leave, changed by what was
accumulated, stays the account above all entries. -/
structure Splits (before : AccountBasic) (acc : LazyEvaluation) (total : AccountBasic) : Prop where
  balance : before.balance.toNat + acc.net = total.balance.toNat
  nonce : before.nonce + acc.nonceAddition = total.nonce

theorem Splits.addRecipient {before total : AccountBasic} {acc : LazyEvaluation} {addition : U256}
    (hfits : before.balance.toNat + addition.toNat < 2 ^ 256)
    (h : Splits (before.after (some (.lazyRecipient addition))) acc total) :
    Splits before (acc.addRecipient addition) total := by
  obtain ⟨hbalance, hnonce⟩ := h
  constructor
  · -- the new sum is the difference of two balances, so that it is not clamped
    have htotal := total.balance.isLt
    simp only [AccountBasic.after, toNat_saturatingAdd] at hbalance
    rw [net_addRecipient]
    unfold clamp
    omega
  · unfold LazyEvaluation.addRecipient
    split_ifs <;> exact hnonce

theorem Splits.addSender {before total : AccountBasic} {acc : LazyEvaluation} {subtraction : U256}
    (hfits : subtraction ≤ before.balance)
    (h : Splits (before.after (some (.lazySender subtraction))) acc total) :
    Splits before (acc.addSender subtraction) total := by
  obtain ⟨hbalance, hnonce⟩ := h
  constructor
  · have hbefore := before.balance.isLt
    rw [BitVec.le_def] at hfits
    simp only [AccountBasic.after, toNat_saturatingSub] at hbalance
    rw [net_addSender]
    unfold clamp
    omega
  · simp only [AccountBasic.after] at hnonce
    unfold LazyEvaluation.addSender
    split_ifs <;> rw [← hnonce] <;> simp only [BitVec.add_assoc, BitVec.add_comm 1]

/-- An account and the change that make up an account are combined exactly. -/
theorem Splits.exactOn {before total : AccountBasic} {acc : LazyEvaluation}
    (h : Splits before acc total) : acc.ExactOn before ∧ acc.apply before = total := by
  obtain ⟨hbalance, hnonce⟩ := h
  have htotal := total.balance.isLt
  unfold net at hbalance
  unfold ExactOn LazyEvaluation.apply
  by_cases hpos : acc.positiveAddition
  · rw [if_pos hpos] at hbalance
    have hexact : before.balance.toNat + acc.balanceAddition.toNat < 2 ^ 256 := by omega
    refine ⟨by rwa [if_pos hpos], ?_⟩
    have hsum : saturatingAdd before.balance acc.balanceAddition = total.balance := by
      apply BitVec.eq_of_toNat_eq
      rw [toNat_saturatingAdd]
      omega
    rw [if_pos hpos, hsum, hnonce]
  · rw [if_neg hpos] at hbalance
    have hexact : acc.balanceAddition.toNat ≤ before.balance.toNat := by omega
    refine ⟨by rwa [if_neg hpos, BitVec.le_def], ?_⟩
    have hdiff : saturatingSub before.balance acc.balanceAddition = total.balance := by
      apply BitVec.eq_of_toNat_eq
      rw [toNat_saturatingSub]
      omega
    rw [if_neg hpos, hdiff, hnonce]

/-- While the forward evaluation stays in range, the walk does not saturate. -/
theorem Splits.exact {start total : AccountBasic} :
    ∀ {entries : List (Nat × MemoryEntry)} {acc : LazyEvaluation},
      Splits (start.forward entries.reverse) acc total → start.InRange entries.reverse →
        Exact entries acc
  | [], _, _, _ => trivial
  | (_, .estimate) :: _, _, _, _ => trivial
  | (_, .data _ value) :: entries, acc, hsplits, hrange => by
    rw [inRange_cons] at hrange
    rw [forward_cons] at hsplits
    cases value with
    | lazyRecipient addition =>
      have hnext := hsplits.addRecipient hrange.2
      refine ⟨fun hpos => ?_, hnext.exact hrange.1⟩
      -- the addition goes on to a sum that is in range
      have hbalance := hsplits.balance
      have hfits := hrange.2
      have htotal := total.balance.isLt
      simp only [AccountBasic.afterEntry, AccountBasic.after, AccountBasic.Fits, net, if_pos hpos,
        toNat_saturatingAdd] at hbalance hfits
      omega
    | lazySender subtraction =>
      have hnext := hsplits.addSender hrange.2
      refine ⟨fun hneg => ?_, hnext.exact hrange.1⟩
      have hbalance := hsplits.balance
      have hfits := hrange.2
      have hbefore := (start.forward entries.reverse).balance.isLt
      simp only [AccountBasic.afterEntry, AccountBasic.after, AccountBasic.Fits, net, hneg,
        Bool.false_eq_true, if_false, toNat_saturatingSub, BitVec.le_def] at hbalance hfits
      omega
    | basic _ | codeHash _ | storage _ | selfDestructed => trivial

theorem walk_splits {readOrigins : ReadOrigins} {start total : AccountBasic} {eval : LazyEvaluation} :
    ∀ {entries : List (Nat × MemoryEntry)} {acc : LazyEvaluation},
      Splits (start.forward entries.reverse) acc total → start.InRange entries.reverse →
      acc.finalAccount = none → walk readOrigins entries acc = .ok eval →
        Splits (eval.finalAccount.getD start) eval total
  | [], acc, hsplits, _, hnone, h => by
    cases h
    rw [hnone]
    exact hsplits
  | (i, .estimate) :: entries, acc, _, _, _, h => by cases h
  | (i, .data k value) :: entries, acc, hsplits, hrange, hnone, h => by
    rw [inRange_cons] at hrange
    rw [forward_cons] at hsplits
    -- the origins play no role in the accumulated change
    replace hsplits : Splits _
        { acc with newOrigins := acc.newOrigins ++ [.mvMemory ⟨i, k⟩] } total :=
      ⟨hsplits.balance, hsplits.nonce⟩
    simp only [walk] at h
    split_ifs at h
    cases value with
    | basic account =>
      cases h
      exact ⟨hsplits.balance, hsplits.nonce⟩
    | lazyRecipient addition =>
      exact walk_splits (hsplits.addRecipient hrange.2) hrange.1 (by simpa using hnone) h
    | lazySender subtraction =>
      exact walk_splits (hsplits.addSender hrange.2) hrange.1 (by simpa using hnone) h
    | codeHash _ | storage _ | selfDestructed => cases h

/-! ### Walks down to the storage -/

/-- The origin of an entry. -/
def origin : Nat × MemoryEntry → ReadOrigin
  | (i, .data k _) => .mvMemory ⟨i, k⟩
  | (i, .estimate) => .mvMemory ⟨i, 0⟩

/-- One iteration of the walk on a lazy entry. -/
def visit (acc : LazyEvaluation) : Nat × MemoryEntry → LazyEvaluation
  | (i, .data k (.lazyRecipient addition)) =>
    LazyEvaluation.addRecipient
      { acc with newOrigins := acc.newOrigins ++ [.mvMemory ⟨i, k⟩] } addition
  | (i, .data k (.lazySender subtraction)) =>
    LazyEvaluation.addSender
      { acc with newOrigins := acc.newOrigins ++ [.mvMemory ⟨i, k⟩] } subtraction
  | _ => acc

theorem visit_newOrigins (acc : LazyEvaluation) {p : Nat × MemoryEntry} (hp : p.2.isLazy = true) :
    (acc.visit p).newOrigins = acc.newOrigins ++ [origin p] := by
  obtain ⟨i, entry⟩ := p
  match entry with
  | .data k (.lazyRecipient x) => exact addRecipient_newOrigins _ x
  | .data k (.lazySender x) => exact addSender_newOrigins _ x

theorem visit_finalAccount (acc : LazyEvaluation) (p : Nat × MemoryEntry) :
    (acc.visit p).finalAccount = acc.finalAccount := by
  unfold visit
  split
  · exact addRecipient_finalAccount _ _
  · exact addSender_finalAccount _ _
  · rfl

/-- A walk over lazy entries stops only at an inconsistent origin. -/
theorem walk_cons_of_isLazy {readOrigins : ReadOrigins} {p : Nat × MemoryEntry}
    {entries : List (Nat × MemoryEntry)} {acc : LazyEvaluation} (hp : p.2.isLazy = true) :
    walk readOrigins (p :: entries) acc =
      if readOrigins ≠ [] ∧ readOrigins[acc.newOrigins.length]? ≠ some (origin p) then
        .error .inconsistentRead
      else walk readOrigins entries (acc.visit p) := by
  obtain ⟨i, entry⟩ := p
  match entry with
  | .data k (.lazyRecipient x) => rfl
  | .data k (.lazySender x) => rfl

/-- A walk that finds no absolute value has visited lazy entries only. -/
theorem walk_none {readOrigins : ReadOrigins} {eval : LazyEvaluation} :
    ∀ {entries : List (Nat × MemoryEntry)} {acc : LazyEvaluation},
      walk readOrigins entries acc = .ok eval → eval.finalAccount = none →
        ∀ p ∈ entries, p.2.isLazy = true
  | [], _, _, _ => by simp
  | (i, .estimate) :: entries, acc, h, _ => by cases h
  | (i, .data k value) :: entries, acc, h, hnone => by
    cases value with
    | lazyRecipient x | lazySender x =>
      rw [walk_cons_of_isLazy rfl] at h
      split_ifs at h
      exact List.forall_mem_cons.mpr ⟨rfl, walk_none h hnone⟩
    | basic account =>
      simp only [walk] at h
      split_ifs at h
      cases h
      cases hnone
    | codeHash _ | storage _ | selfDestructed =>
      simp only [walk] at h
      split_ifs at h

theorem cons_prefix_drop {α : Type} {a : α} {l r : List α} {k : Nat} :
    a :: l <+: r.drop k ↔ r[k]? = some a ∧ l <+: r.drop (k + 1) := by
  rw [List.cons_prefix_iff]
  constructor
  · rintro ⟨t, ht, hl⟩
    have hget : r[k]? = (r.drop k)[0]? := by rw [List.getElem?_drop, Nat.add_zero]
    have htail : r.drop (k + 1) = (r.drop k).tail := by rw [List.tail_drop]
    rw [hget, htail, ht]
    exact ⟨rfl, hl⟩
  · rintro ⟨ha, hl⟩
    obtain ⟨hk, hget⟩ := List.getElem?_eq_some_iff.mp ha
    exact ⟨_, by rw [List.drop_eq_getElem_cons hk, hget], hl⟩

/-- A walk over lazy entries goes down to the storage unless an earlier read disagrees. -/
theorem walk_eq_ok_iff_of_isLazy {readOrigins : ReadOrigins} {eval : LazyEvaluation} :
    ∀ {entries : List (Nat × MemoryEntry)} {acc : LazyEvaluation},
      (∀ p ∈ entries, p.2.isLazy = true) →
      (walk readOrigins entries acc = .ok eval ↔
        (readOrigins = [] ∨ entries.map origin <+: readOrigins.drop acc.newOrigins.length) ∧
          eval = entries.foldl visit acc)
  | [], acc, _ => by simp [walk, eq_comm]
  | p :: entries, acc, hlazy => by
    have hp := hlazy p List.mem_cons_self
    have ih : walk readOrigins entries (acc.visit p) = .ok eval ↔ _ :=
      walk_eq_ok_iff_of_isLazy fun q hq => hlazy q (List.mem_cons_of_mem _ hq)
    rw [visit_newOrigins acc hp, List.length_append, List.length_singleton] at ih
    rw [walk_cons_of_isLazy hp, List.map_cons, cons_prefix_drop, List.foldl_cons]
    by_cases hnil : readOrigins = []
    · simpa [hnil] using ih
    simp only [hnil, false_or] at ih ⊢
    split_ifs with horigin
    · simpa using fun h => absurd h horigin.2
    · have horigin' : readOrigins[acc.newOrigins.length]? = some (origin p) := by
        by_contra hne
        exact horigin ⟨hnil, hne⟩
      rw [ih, horigin']
      simp

/-- What the walk over lazy entries accumulates besides the balance and the nonce. -/
theorem foldl_visit : ∀ {entries : List (Nat × MemoryEntry)} {acc : LazyEvaluation},
    (∀ p ∈ entries, p.2.isLazy = true) →
      (entries.foldl visit acc).newOrigins = acc.newOrigins ++ entries.map origin ∧
        (entries.foldl visit acc).finalAccount = acc.finalAccount
  | [], _, _ => by simp
  | p :: entries, acc, hlazy => by
    have hp := hlazy p List.mem_cons_self
    have ih : (entries.foldl visit (acc.visit p)).newOrigins = _ ∧ _ :=
      foldl_visit fun q hq => hlazy q (List.mem_cons_of_mem _ hq)
    rw [List.foldl_cons, ih.1, ih.2, visit_newOrigins acc hp]
    exact ⟨by simp, visit_finalAccount acc p⟩

/-- The sum of the lazy updates, newest first, clamped to the range of the magnitude. -/
def netChange (entries : List (Nat × MemoryEntry)) : Int :=
  entries.foldl (fun net p => clamp (net + p.2.change)) 0

theorem net_foldl_visit : ∀ (entries : List (Nat × MemoryEntry)) (acc : LazyEvaluation),
    (∀ p ∈ entries, p.2.isLazy = true) →
    (entries.foldl visit acc).net = entries.foldl (fun net p => clamp (net + p.2.change)) acc.net
  | [], _, _ => rfl
  | p :: entries, acc, hlazy => by
    rw [List.foldl_cons, List.foldl_cons,
      net_foldl_visit entries _ fun q hq => hlazy q (List.mem_cons_of_mem _ hq)]
    congr 1
    obtain ⟨i, entry⟩ := p
    match entry, hlazy (i, entry) List.mem_cons_self with
    | .data k (.lazyRecipient x), _ => exact net_addRecipient _ x
    | .data k (.lazySender x), _ =>
      show _ = clamp (acc.net + -(x.toNat : Int))
      rw [← Int.sub_eq_add_neg]
      exact net_addSender _ x

/-- A sum of credits is zero only if all of them are. -/
theorem change_eq_zero {entries : List (Nat × MemoryEntry)} (hcredit : ∀ p ∈ entries, 0 ≤ p.2.change)
    {net : Int} (hnet : 0 ≤ net)
    (h : entries.foldl (fun net p => clamp (net + p.2.change)) net = 0) :
    net = 0 ∧ ∀ p ∈ entries, p.2.change = 0 := by
  induction entries generalizing net with
  | nil => exact ⟨h, fun p hp => absurd hp List.not_mem_nil⟩
  | cons p entries ih =>
    have hp := hcredit p List.mem_cons_self
    have hclamp : 0 ≤ clamp (net + p.2.change) := by
      unfold clamp
      omega
    obtain ⟨hzero, hrest⟩ := ih (fun q hq => hcredit q (List.mem_cons_of_mem _ hq)) hclamp h
    have hsum : net = 0 ∧ p.2.change = 0 := by
      unfold clamp at hzero
      omega
    exact ⟨hsum.1, List.forall_mem_cons.mpr ⟨hsum.2, hrest⟩⟩

/-- Every lazy sender is charged one nonce. -/
theorem forward_nonce {entries : List (Nat × MemoryEntry)} (hlazy : ∀ p ∈ entries, p.2.isLazy = true)
    (start : AccountBasic) : (start.forward entries).nonce =
      start.nonce + BitVec.ofNat 64 (entries.countP fun p => p.2.isLazySender) := by
  induction entries generalizing start with
  | nil =>
    show start.nonce = start.nonce + 0#64
    rw [BitVec.add_zero]
  | cons p entries ih =>
    show ((start.afterEntry p.2).forward entries).nonce = _
    rw [ih (fun q hq => hlazy q (List.mem_cons_of_mem _ hq)), List.countP_cons]
    obtain ⟨i, entry⟩ := p
    rcases MemoryEntry.isLazy_cases (hlazy (i, entry) List.mem_cons_self) with
      ⟨k, x, hentry⟩ | ⟨k, x, hentry⟩
    · obtain rfl : entry = .data k (.lazyRecipient x) := hentry
      rfl
    · obtain rfl : entry = .data k (.lazySender x) := hentry
      show start.nonce + 1#64 + _ = start.nonce + BitVec.ofNat 64 (_ + 1)
      rw [BitVec.ofNat_add, BitVec.add_assoc, BitVec.add_comm 1#64]

theorem recipient_of_isLazy {entry : MemoryEntry} (hlazy : entry.isLazy = true)
    (hsender : entry.isLazySender = false) :
    ∃ k addition, entry = .data k (.lazyRecipient addition) ∧ entry.change = addition.toNat := by
  rcases MemoryEntry.isLazy_cases hlazy with ⟨k, addition, rfl⟩ | ⟨k, subtraction, rfl⟩
  · exact ⟨k, addition, rfl, rfl⟩
  · cases hsender

/-- Lazy recipients that are sent nothing are left as they were. -/
theorem forward_unchanged {entries : List (Nat × MemoryEntry)}
    (hlazy : ∀ p ∈ entries, p.2.isLazy = true) (hsender : ∀ p ∈ entries, p.2.isLazySender = false)
    (hchange : ∀ p ∈ entries, p.2.change = 0) (start : AccountBasic) :
    start.forward entries = start := by
  induction entries with
  | nil => rfl
  | cons p entries ih =>
    have hafter : start.afterEntry p.2 = start := by
      obtain ⟨k, x, hentry, hx⟩ := recipient_of_isLazy (hlazy p List.mem_cons_self)
        (hsender p List.mem_cons_self)
      have hzero := hchange p List.mem_cons_self
      rw [hx] at hzero
      obtain rfl : x = 0 := BitVec.eq_of_toNat_eq (Int.ofNat_eq_zero.mp hzero)
      rw [hentry]
      show (⟨saturatingAdd start.balance 0#256, start.nonce⟩ : AccountBasic) = start
      rw [saturatingAdd_zero]
    show (start.afterEntry p.2).forward entries = start
    rw [hafter]
    exact ih (fun q hq => hlazy q (List.mem_cons_of_mem _ hq))
      (fun q hq => hsender q (List.mem_cons_of_mem _ hq))
      (fun q hq => hchange q (List.mem_cons_of_mem _ hq))

end LazyEvaluation

/-! ## `VmDb::basic` -/

namespace Vm

variable {T : Type} {vm : Vm T} {m : MvMemory} {txIdx : Nat} {db db' : VmDb} {address : Address}

/-- The read set after the origins of a location were walked: registered on the first read. -/
def registered (db : VmDb) (location : MemoryLocationHash) (newOrigins : ReadOrigins) : VmDb :=
  if db.readSet.origins location = [] then
    { db with readSet := db.readSet.insert location newOrigins }
  else db

/-- What a successful read of an account has done. -/
theorem readBasic_eq_ok_iff {account : Option AccountBasic} :
    vm.readBasic m txIdx db address = .ok (db', account) ↔
      ∃ eval eval', LazyEvaluation.walk (db.readSet.origins (vm.hashBasic db address))
          (m.entriesBelow (vm.hashBasic db address) txIdx) .start = .ok eval ∧
        vm.fallBackToStorage (db.readSet.origins (vm.hashBasic db address)) address eval =
          .ok eval' ∧
        db' = registered db (vm.hashBasic db address) eval'.newOrigins ∧
        account = eval'.finalAccount.map eval'.apply ∧
        ∀ base, eval'.finalAccount = some base →
          checkNonce txIdx db' (vm.hashBasic db address) (eval'.apply base).nonce = .ok () := by
  unfold readBasic
  simp only [bind_eq_ok, ← exists_and_left]
  refine exists_congr fun eval => exists_congr fun eval' => ?_
  refine and_congr_right fun _ => and_congr_right fun _ => ?_
  rw [show (if db.readSet.origins (vm.hashBasic db address) = [] then
      { db with readSet := db.readSet.insert (vm.hashBasic db address) eval'.newOrigins } else db) =
    registered db (vm.hashBasic db address) eval'.newOrigins from rfl]
  cases hfinal : eval'.finalAccount with
  | none => simp [eq_comm]
  | some base =>
    simp only [bind_eq_ok, Except.ok.injEq, Prod.mk.injEq, Option.map_some, Option.some.injEq,
      forall_eq']
    constructor
    · rintro ⟨_, hnonce, rfl, rfl⟩
      exact ⟨rfl, rfl, hnonce⟩
    · rintro ⟨rfl, rfl, hnonce⟩
      exact ⟨(), hnonce, rfl, rfl⟩

/-- A read changes the read set only. -/
theorem readBasic_db {account : Option AccountBasic}
    (h : vm.readBasic m txIdx db address = .ok (db', account)) :
    db' = { db with readSet := db'.readSet } := by
  obtain ⟨eval, eval', -, -, rfl, -⟩ := readBasic_eq_ok_iff.mp h
  unfold registered
  split_ifs <;> rfl

theorem getCodeHash_db {codeHash : Option B256}
    (h : vm.getCodeHash m txIdx db address = .ok (db', codeHash)) :
    db' = { db with readSet := db'.readSet } := by
  unfold getCodeHash at h
  simp only at h
  repeat' split at h
  all_goals first
    | cases h
    | (simp only [bind_eq_ok] at h
       obtain ⟨_, -, h⟩ := h
       first
         | (cases h; rfl)
         | (obtain ⟨_, -, h⟩ := h
            cases h
            rfl))

/-- The steps of an execution that asks for an account, with nothing interleaved. -/
theorem executeStep_basic {v : TxVersion} {info : Option AccountInfo}
    (h : vm.basic m v.txIdx db address = .ok (db', info)) (next : Option AccountInfo → EvmProgram) :
    Relation.TransGen (fun x x' => vm.executeStep v m x = .run x')
      ⟨db, .run (.basic address next)⟩ ⟨db', .run (next info)⟩ := by
  unfold basic at h
  simp only at h
  -- a mocked account is one step, as is a missing one; else the code hash and the code are read
  split_ifs at h with hfrom hto
  · cases h
    exact .single (by simp only [executeStep, if_pos hfrom])
  · cases h
    exact .single (by simp only [executeStep, if_neg hfrom, if_pos hto])
  obtain ⟨⟨db₁, account⟩, hread, hrest⟩ := bind_eq_ok.mp h
  have hdb := readBasic_db hread
  cases account with
  | none =>
    cases hrest
    exact .single (by simp only [executeStep, if_neg hfrom, if_neg hto, hread])
  | some account =>
    simp only at hrest
    split_ifs at hrest with hrecipient
    · obtain ⟨_, hcodeHash, hrest⟩ := bind_eq_ok.mp hrest
      cases hcodeHash
      obtain ⟨code, hcode, hend⟩ := bind_eq_ok.mp hrest
      have hlocation : vm.hashBasic db₁ address = vm.hashBasic db address := by rw [hdb]; rfl
      cases hend
      refine .head (b := ⟨db₁, .basicCode address account db₁.toCodeHash next⟩)
        (by simp only [executeStep, if_neg hfrom, if_neg hto, hread, if_pos hrecipient])
        (.single ?_)
      simp only [executeStep, hcode, hlocation]
    · obtain ⟨⟨db₂, codeHash⟩, hcodeHash, hrest⟩ := bind_eq_ok.mp hrest
      obtain ⟨code, hcode, hend⟩ := bind_eq_ok.mp hrest
      have hlocation : vm.hashBasic db₂ address = vm.hashBasic db address := by
        rw [getCodeHash_db hcodeHash, hdb]
        rfl
      cases hend
      refine .head (b := ⟨db₁, .basicCodeHash address account next⟩)
        (by simp only [executeStep, if_neg hfrom, if_neg hto, hread, if_neg hrecipient])
        (.head (b := ⟨db₂, .basicCode address account codeHash next⟩)
          (by simp only [executeStep, hcodeHash]) (.single ?_))
      simp only [executeStep, hcode, hlocation]

/-- What `basic` returns of an account that is not mocked is what it read. -/
theorem basic_eq_ok (hlazy : db.isLazy = false) {info : Option AccountInfo}
    (h : vm.basic m txIdx db address = .ok (db', info)) :
    ∃ db₁ account, vm.readBasic m txIdx db address = .ok (db₁, account) ∧
      info.map (fun info => (⟨info.balance, info.nonce⟩ : AccountBasic)) = account := by
  unfold basic at h
  simp only [hlazy, Bool.false_eq_true, false_and, if_false] at h
  obtain ⟨⟨db₁, account⟩, hread, hrest⟩ := bind_eq_ok.mp h
  refine ⟨db₁, account, hread, ?_⟩
  cases account with
  | none =>
    cases hrest
    rfl
  | some account =>
    simp only at hrest
    split_ifs at hrest
    all_goals
      obtain ⟨_, -, hrest⟩ := bind_eq_ok.mp hrest
      obtain ⟨code, -, hend⟩ := bind_eq_ok.mp hrest
      cases hend
      rfl

/-- The forward evaluation of the entries below a reader, as in `execute_revm_parallel`. -/
def forwardBelow (vm : Vm T) (m : MvMemory) (txIdx : Nat) (location : MemoryLocationHash)
    (address : Address) : AccountBasic :=
  let entries := (m.entriesBelow location txIdx).reverse
  (vm.evaluationStart address entries).forward entries

/-- Above lazy entries only, the forward evaluation starts from the storage. -/
theorem evaluationStart_of_isLazy {entries : List (Nat × MemoryEntry)}
    (hlazy : ∀ p ∈ entries, p.2.isLazy = true) :
    vm.evaluationStart address entries.reverse =
      match vm.storage.basic address with
      | .ok (some account) => account
      | _ => .default := by
  unfold evaluationStart
  split
  · next i k account hhead =>
    have hmem := List.mem_reverse.mp (List.mem_of_mem_head? hhead)
    cases hlazy _ hmem
  · rfl

/-- The account that the change is applied to is the one the forward evaluation starts from, unless
the walk found an absolute value. -/
theorem fallBackToStorage_finalAccount {readOrigins : ReadOrigins} {eval eval' : LazyEvaluation}
    {entries : List (Nat × MemoryEntry)} {account : AccountBasic}
    (hwalk : LazyEvaluation.walk readOrigins entries .start = .ok eval)
    (h : vm.fallBackToStorage readOrigins address eval = .ok eval')
    (haccount : eval'.finalAccount = some account) :
    account = eval.finalAccount.getD (vm.evaluationStart address entries.reverse) ∧
      eval'.net = eval.net ∧ eval'.nonceAddition = eval.nonceAddition := by
  unfold fallBackToStorage at h
  split at h
  · next base hbase =>
    cases h
    rw [haccount]
    exact ⟨rfl, rfl, rfl⟩
  · next hnone =>
    rw [hnone, evaluationStart_of_isLazy (LazyEvaluation.walk_none hwalk hnone)]
    simp only at h
    split_ifs at h
    all_goals
      split at h
      · next hstorage =>
        cases h
        cases haccount
        rw [hstorage]
        exact ⟨rfl, rfl, rfl⟩
      · next hstorage =>
        cases h
        rw [hstorage]
        simp_all [LazyEvaluation.net]
      · cases h

/-- **Backward and forward evaluation agree.** -/
theorem basic_eq_forward (hlazy : db.isLazy = false)
    (hrange : (vm.evaluationStart address
      (m.entriesBelow (vm.hashBasic db address) txIdx).reverse).InRange
        (m.entriesBelow (vm.hashBasic db address) txIdx).reverse) :
    LazyEvaluation.Exact (m.entriesBelow (vm.hashBasic db address) txIdx) .start ∧
    (∀ eval eval' account,
      LazyEvaluation.walk (db.readSet.origins (vm.hashBasic db address))
        (m.entriesBelow (vm.hashBasic db address) txIdx) .start = .ok eval →
      vm.fallBackToStorage (db.readSet.origins (vm.hashBasic db address)) address eval =
        .ok eval' →
      eval'.finalAccount = some account → eval'.ExactOn account) ∧
    ∀ db' info, vm.basic m txIdx db address = .ok (db', some info) →
      info.balance = (vm.forwardBelow m txIdx (vm.hashBasic db address) address).balance ∧
      info.nonce = (vm.forwardBelow m txIdx (vm.hashBasic db address) address).nonce := by
  generalize hentries : m.entriesBelow (vm.hashBasic db address) txIdx = entries at hrange ⊢
  generalize hstart : vm.evaluationStart address entries.reverse = start at hrange
  have hsplits : LazyEvaluation.Splits (start.forward entries.reverse) .start
      (start.forward entries.reverse) := ⟨by simp [LazyEvaluation.net, LazyEvaluation.start], by simp [LazyEvaluation.start]⟩
  have hforward : vm.forwardBelow m txIdx (vm.hashBasic db address) address =
      start.forward entries.reverse := by
    rw [forwardBelow, hentries, hstart]
  -- what a read applies in the end makes up the forward result
  have hread : ∀ {eval eval' : LazyEvaluation} {account : AccountBasic},
      LazyEvaluation.walk (db.readSet.origins (vm.hashBasic db address)) entries .start = .ok eval →
      vm.fallBackToStorage (db.readSet.origins (vm.hashBasic db address)) address eval =
        .ok eval' →
      eval'.finalAccount = some account →
        eval'.ExactOn account ∧ eval'.apply account = start.forward entries.reverse := by
    intro eval eval' account hwalk hfall haccount
    obtain ⟨rfl, hnet, hnonce⟩ := fallBackToStorage_finalAccount hwalk hfall haccount
    have hs := LazyEvaluation.walk_splits hsplits hrange rfl hwalk
    rw [hstart]
    exact LazyEvaluation.Splits.exactOn ⟨hnet ▸ hs.balance, hnonce ▸ hs.nonce⟩
  refine ⟨hsplits.exact hrange, fun eval eval' account hwalk hfall haccount =>
    (hread hwalk hfall haccount).1, fun db' info h => ?_⟩
  obtain ⟨db₁, account, hbasic, haccount⟩ := basic_eq_ok hlazy h
  obtain ⟨eval, eval', hwalk, hfall, -, rfl, -⟩ := readBasic_eq_ok_iff.mp hbasic
  obtain ⟨base, hbase, happly⟩ := Option.map_eq_some_iff.mp haccount.symm
  rw [hentries] at hwalk
  rw [hforward, ← (hread hwalk hfall hbase).2, happly]
  exact ⟨rfl, rfl⟩

/-! ## Accounts that are read as missing -/

theorem fallBackToStorage_none_iff {readOrigins : ReadOrigins} {eval : LazyEvaluation} :
    (∃ eval', vm.fallBackToStorage readOrigins address eval = .ok eval' ∧
      eval'.finalAccount = none) ↔
    eval.finalAccount = none ∧ vm.storage.basic address = .ok none ∧ eval.net = 0 ∧
      (readOrigins = [] ∨ (readOrigins.length = eval.newOrigins.length + 1 ∧
        readOrigins.getLast? = some .storage)) := by
  -- an account is made up only for a positive addition
  have hnet : eval.net = 0 ↔ ¬ 0 < eval.balanceAddition := by
    unfold LazyEvaluation.net
    rw [BitVec.lt_def, show (0 : U256).toNat = 0 from rfl]
    split_ifs <;> omega
  unfold fallBackToStorage
  cases hfinal : eval.finalAccount with
  | some base => simp [hfinal]
  | none =>
    simp only [true_and, List.length_append, List.length_singleton]
    by_cases horigins : readOrigins = [] ∨ (readOrigins.length = eval.newOrigins.length + 1 ∧
        readOrigins.getLast? = some .storage)
    · rw [if_neg (by tauto), hnet]
      simp only [horigins, and_true]
      cases hstorage : vm.storage.basic address with
      | error message => simp
      | ok account =>
        cases account with
        | some account => simp
        | none =>
          simp only [Except.ok.injEq, exists_eq_left', true_and]
          split_ifs with hpos
          · simp only [false_iff, not_not]
            exact hpos
          · simp only [true_iff]
            exact hpos
    · rw [if_pos (by tauto)]
      simp [horigins]

/-- The origins of a chain down to the storage. -/
theorem eq_append_storage_iff {readOrigins origins : ReadOrigins} :
    (origins <+: readOrigins ∧ readOrigins.length = origins.length + 1 ∧
      readOrigins.getLast? = some .storage) ↔ readOrigins = origins ++ [.storage] := by
  constructor
  · rintro ⟨⟨rest, rfl⟩, hlength, hlast⟩
    rw [List.length_append, Nat.add_left_cancel_iff, List.length_eq_one_iff] at hlength
    obtain ⟨o, rfl⟩ := hlength
    rw [List.getLast?_append] at hlast
    simpa using hlast
  · rintro rfl
    simp

/-- The read finds no account: the storage has none, only lazy updates lie below the reader, they
cancel out, and an earlier read of the account, if there was one, saw the same updates. -/
theorem readBasic_none_iff : (∃ db', vm.readBasic m txIdx db address = .ok (db', none)) ↔
    vm.storage.basic address = .ok none ∧
    (∀ p ∈ m.entriesBelow (vm.hashBasic db address) txIdx, p.2.isLazy = true) ∧
    LazyEvaluation.netChange (m.entriesBelow (vm.hashBasic db address) txIdx) = 0 ∧
    (db.readSet.origins (vm.hashBasic db address) = [] ∨
      db.readSet.origins (vm.hashBasic db address) =
        (m.entriesBelow (vm.hashBasic db address) txIdx).map LazyEvaluation.origin ++
          [.storage]) := by
  have hread : (∃ db', vm.readBasic m txIdx db address = .ok (db', none)) ↔
      ∃ eval, LazyEvaluation.walk (db.readSet.origins (vm.hashBasic db address))
          (m.entriesBelow (vm.hashBasic db address) txIdx) .start = .ok eval ∧
        ∃ eval', vm.fallBackToStorage (db.readSet.origins (vm.hashBasic db address)) address eval =
          .ok eval' ∧ eval'.finalAccount = none := by
    constructor
    · rintro ⟨db', h⟩
      obtain ⟨eval, eval', hwalk, hfall, -, hnone, -⟩ := readBasic_eq_ok_iff.mp h
      exact ⟨eval, hwalk, eval', hfall, Option.map_eq_none_iff.mp hnone.symm⟩
    · rintro ⟨eval, hwalk, eval', hfall, hnone⟩
      exact ⟨_, readBasic_eq_ok_iff.mpr ⟨eval, eval', hwalk, hfall, rfl, by rw [hnone]; rfl,
        fun base hbase => by rw [hnone] at hbase; cases hbase⟩⟩
  rw [hread]
  -- from here on it is about a list of entries and the origins of an earlier read
  generalize m.entriesBelow (vm.hashBasic db address) txIdx = entries
  generalize db.readSet.origins (vm.hashBasic db address) = readOrigins
  simp only [fallBackToStorage_none_iff, ← eq_append_storage_iff, List.length_map]
  constructor
  · rintro ⟨eval, hwalk, hnone, hstorage, hnet, horigins⟩
    have hlazy := LazyEvaluation.walk_none hwalk hnone
    obtain ⟨hleads, rfl⟩ := (LazyEvaluation.walk_eq_ok_iff_of_isLazy hlazy).mp hwalk
    rw [(LazyEvaluation.foldl_visit hlazy).1] at horigins
    rw [LazyEvaluation.net_foldl_visit entries _ hlazy] at hnet
    refine ⟨hstorage, hlazy, hnet, ?_⟩
    simp only [LazyEvaluation.start, List.nil_append, List.length_map, List.length_nil,
      List.drop_zero] at horigins hleads
    tauto
  · rintro ⟨hstorage, hlazy, hnet, horigins⟩
    refine ⟨entries.foldl LazyEvaluation.visit .start,
      (LazyEvaluation.walk_eq_ok_iff_of_isLazy hlazy).mpr ⟨?_, rfl⟩,
      (LazyEvaluation.foldl_visit hlazy).2, hstorage,
      (LazyEvaluation.net_foldl_visit entries _ hlazy).trans hnet, ?_⟩
    · simp only [LazyEvaluation.start, List.length_nil, List.drop_zero]
      tauto
    · rw [(LazyEvaluation.foldl_visit hlazy).1]
      simp only [LazyEvaluation.start, List.nil_append, List.length_map]
      tauto

/-- The account exists for the reader when it should: it is missing only if the forward evaluation
below the reader is empty and EIP-161 clears it, or if there is neither an account in the storage nor
an entry below the reader. -/
def MissingOnlyIfEmpty (vm : Vm T) (m : MvMemory) (txIdx : Nat) (db : VmDb) (address : Address) :
    Prop :=
  ∀ db', vm.basic m txIdx db address = .ok (db', none) →
    ((vm.forwardBelow m txIdx (vm.hashBasic db address) address).balance = 0 ∧
      (vm.forwardBelow m txIdx (vm.hashBasic db address) address).nonce = 0 ∧
      vm.isEip161Enabled = true) ∨
    (vm.storage.basic address = .ok none ∧ m.entriesBelow (vm.hashBasic db address) txIdx = [])

/-- The reader forgets an account: the storage does not have it, there are entries below the reader,
all of them lazy, their changes cancel out (newest first, clamped to the range of a magnitude), the
account has sent a transaction or empty accounts are kept, and an earlier read of the account, if
there was one, saw the same entries. -/
structure Forgets (vm : Vm T) (m : MvMemory) (txIdx : Nat) (db : VmDb) (address : Address) :
    Prop where
  absent : vm.storage.basic address = .ok none
  updated : m.entriesBelow (vm.hashBasic db address) txIdx ≠ []
  lazy : ∀ p ∈ m.entriesBelow (vm.hashBasic db address) txIdx, p.2.isLazy = true
  cancels : LazyEvaluation.netChange (m.entriesBelow (vm.hashBasic db address) txIdx) = 0
  sender : vm.isEip161Enabled = false ∨
    ∃ p ∈ m.entriesBelow (vm.hashBasic db address) txIdx, p.2.isLazySender = true
  consistent : db.readSet.origins (vm.hashBasic db address) = [] ∨
    db.readSet.origins (vm.hashBasic db address) =
      (m.entriesBelow (vm.hashBasic db address) txIdx).map LazyEvaluation.origin ++ [.storage]

/-- A reader that is not lazy finds no account exactly when its read does. -/
theorem basic_none_iff (hlazy : db.isLazy = false) :
    (∃ db', vm.basic m txIdx db address = .ok (db', none)) ↔
      ∃ db', vm.readBasic m txIdx db address = .ok (db', none) := by
  constructor
  · rintro ⟨db', h⟩
    obtain ⟨db₁, account, hread, rfl⟩ := basic_eq_ok hlazy h
    exact ⟨db₁, hread⟩
  · rintro ⟨db', h⟩
    refine ⟨db', ?_⟩
    unfold basic
    simp only [hlazy, Bool.false_eq_true, false_and, if_false, h]
    rfl

/-- Changes that cancel out leave an empty account exactly when the account has sent nothing. -/
theorem forwardBelow_empty_iff {location : MemoryLocationHash} (hsize : txIdx < 2 ^ 64)
    (habsent : vm.storage.basic address = .ok none)
    (hlazy : ∀ p ∈ m.entriesBelow location txIdx, p.2.isLazy = true)
    (hcancels : LazyEvaluation.netChange (m.entriesBelow location txIdx) = 0) :
    (vm.forwardBelow m txIdx location address).balance = 0 ∧
        (vm.forwardBelow m txIdx location address).nonce = 0 ↔
      ∀ p ∈ m.entriesBelow location txIdx, p.2.isLazySender = false := by
  have hlength := length_entriesBelow_le m location txIdx
  have hstart : vm.evaluationStart address (m.entriesBelow location txIdx).reverse = .default := by
    rw [evaluationStart_of_isLazy hlazy, habsent]
  unfold forwardBelow
  dsimp only
  rw [hstart]
  generalize m.entriesBelow location txIdx = entries at hlazy hcancels hlength ⊢
  have hlazy' : ∀ p ∈ entries.reverse, p.2.isLazy = true := fun p hp =>
    hlazy p (List.mem_reverse.mp hp)
  constructor
  · rintro ⟨-, hnonce⟩
    -- fewer than `2 ^ 64` nonces are counted, so that the count does not wrap
    have hle := List.countP_le_length (p := fun p : Nat × MemoryEntry => p.2.isLazySender)
      (l := entries.reverse)
    rw [LazyEvaluation.forward_nonce hlazy'] at hnonce
    have hcount := congrArg BitVec.toNat hnonce
    rw [List.length_reverse] at hle
    simp only [AccountBasic.default, BitVec.zero_add, BitVec.toNat_ofNat,
      BitVec.ofNat_eq_ofNat] at hcount
    have hzero : entries.reverse.countP (fun p => p.2.isLazySender) = 0 := by omega
    intro p hp
    exact Bool.eq_false_iff.mpr (List.countP_eq_zero.mp hzero p (List.mem_reverse.mpr hp))
  · intro hsender
    have hcredit : ∀ p ∈ entries, 0 ≤ p.2.change := by
      intro p hp
      obtain ⟨k, x, -, hchange⟩ := LazyEvaluation.recipient_of_isLazy (hlazy p hp) (hsender p hp)
      rw [hchange]
      exact Int.natCast_nonneg _
    have hchange := (LazyEvaluation.change_eq_zero hcredit (Int.le_refl 0) hcancels).2
    rw [LazyEvaluation.forward_unchanged hlazy' (fun p hp => hsender p (List.mem_reverse.mp hp))
      fun p hp => hchange p (List.mem_reverse.mp hp)]
    exact ⟨rfl, rfl⟩

/-- **Existence of lazily updated accounts.** `basic` finds an account missing only when it should,
except for the accounts it forgets. The index of a transaction is a `usize`. -/
theorem missing_only_if_empty_iff (hsize : txIdx < 2 ^ 64) (hlazy : db.isLazy = false) :
    vm.MissingOnlyIfEmpty m txIdx db address ↔ ¬ vm.Forgets m txIdx db address := by
  have hmissing : (∃ db', vm.basic m txIdx db address = .ok (db', none)) ↔ _ :=
    (basic_none_iff hlazy).trans readBasic_none_iff
  constructor
  · intro h hforgets
    obtain ⟨db', hnone⟩ := hmissing.mpr
      ⟨hforgets.absent, hforgets.lazy, hforgets.cancels, hforgets.consistent⟩
    rcases h db' hnone with ⟨hbalance, hnonce, hclear⟩ | ⟨-, hnil⟩
    · have hsender := (forwardBelow_empty_iff hsize hforgets.absent hforgets.lazy
        hforgets.cancels).mp ⟨hbalance, hnonce⟩
      rcases hforgets.sender with hkept | ⟨p, hp, hcharged⟩
      · rw [hkept] at hclear
        cases hclear
      · rw [hsender p hp] at hcharged
        cases hcharged
    · exact hforgets.updated hnil
  · intro hkeeps db' hnone
    obtain ⟨habsent, hall, hcancels, hconsistent⟩ := hmissing.mp ⟨db', hnone⟩
    by_contra hwrong
    rw [not_or] at hwrong
    refine hkeeps ⟨habsent, fun hnil => hwrong.2 ⟨habsent, hnil⟩, hall, hcancels, ?_, hconsistent⟩
    by_contra hempty
    rw [not_or, not_exists] at hempty
    -- an account that has sent nothing is empty, and EIP-161 clears it
    have hsender : ∀ p ∈ m.entriesBelow (vm.hashBasic db address) txIdx,
        p.2.isLazySender = false := fun p hp =>
      Bool.eq_false_iff.mpr fun hcharged => hempty.2 p ⟨hp, hcharged⟩
    obtain ⟨hbalance, hnonce⟩ := (forwardBelow_empty_iff hsize habsent hall hcancels).mpr hsender
    exact hwrong.1 ⟨hbalance, hnonce, Bool.eq_true_of_not_eq_false hempty.1⟩

end Vm

namespace Sample

/-- A transaction of 1 funds account 5, which the storage does not have; 5 sends everything back;
then 2 calls the counter. -/
def spendVm : Vm TxEnv :=
  { vm with
    txs := fun
      | 0 => tx 1 5 5
      | 1 => tx 5 1 5
      | _ => tx 2 counter 0 }

/-- Account 2 spends everything, receives 5 and spends 3: the walk down this history crosses zero
twice. -/
def paid : MvMemory :=
  (((MvMemory.new [] []).insertEntry (hash (.basic 2)) 0 (.data 0 (.lazySender 1000))).insertEntry
    (hash (.basic 2)) 1 (.data 0 (.lazyRecipient 5))).insertEntry
    (hash (.basic 2)) 2 (.data 0 (.lazySender 3))

/-- What the two transfers write for account 5. -/
def spent : MvMemory :=
  ((MvMemory.new [] []).insertEntry (hash (.basic 5)) 0 (.data 0 (.lazyRecipient 5))).insertEntry
    (hash (.basic 5)) 1 (.data 0 (.lazySender 5))

end Sample

/-- A reader above the history of account 2. -/
theorem basic_eq_forward_sample :
    ∃ db' info, Sample.vm.basic Sample.paid 3 (Sample.vm.startDb ⟨0, 0⟩) 2 = .ok (db', some info) ∧
      info.balance = 2 ∧ info.nonce = 2 := by
  have hrange : (Sample.vm.evaluationStart 2
      (Sample.paid.entriesBelow (Sample.vm.hashBasic (Sample.vm.startDb ⟨0, 0⟩) 2) 3).reverse).InRange
      (Sample.paid.entriesBelow (Sample.vm.hashBasic (Sample.vm.startDb ⟨0, 0⟩) 2) 3).reverse := by
    decide +kernel
  obtain ⟨hbalance, hnonce⟩ := (Vm.basic_eq_forward rfl hrange).2.2 _ _ rfl
  exact ⟨_, _, rfl, hbalance.trans (by decide +kernel), hnonce.trans (by decide +kernel)⟩

/-- Before account 5 has spent what it received it exists for transaction 1. -/
theorem missing_only_if_empty_sample :
    Sample.spendVm.MissingOnlyIfEmpty Sample.spent 1 (Sample.spendVm.startDb ⟨2, 0⟩) 5 := by
  refine (Vm.missing_only_if_empty_iff (by decide) rfl).mpr fun h => ?_
  exact absurd h.cancels (by decide +kernel)

/-- After it has, transaction 2 finds account 5 missing although it has sent a transaction: its nonce
is 1. -/
theorem spent_account_is_missing :
    ¬ Sample.spendVm.MissingOnlyIfEmpty Sample.spent 2 (Sample.spendVm.startDb ⟨2, 0⟩) 5 := by
  intro h
  rcases h _ rfl with ⟨-, hnonce, -⟩ | ⟨-, hnil⟩
  · exact absurd hnonce (by decide +kernel)
  · exact absurd hnil (by decide +kernel)

end Pevm
