import Pevm.Proofs.Validation
import Pevm.Proofs.Record

/-!
# Reads and ESTIMATEs

The reads of an execution while the multi-version memory does not change. `basic` and `storage`
stop at an ESTIMATE: they return Blocking with its index. `get_code_hash` looks for a `Data` entry
only; an ESTIMATE below it is passed over like an empty history, the code hash comes from the
storage and the read set says so, which validation then refuses.

* **`Complete`**: origins that name every entry a read consulted, down to an absolute value or to
  the storage. Such a list stands in the memory it was read from and met no ESTIMATE.
* **`fresh_of_askAll`**: a sequence of successful reads leaves complete origins everywhere, as long
  as every code hash was read above a code hash or above nothing.
* **`estimates_block_iff`**: so every read that meets an ESTIMATE is blocked by it and a fresh read
  set is valid, and the proviso on the code hashes is the exact one.
-/

namespace Pevm

open Interleaving MvMemory

def MemoryValue.isLazy : MemoryValue → Bool
  | .lazyRecipient _ | .lazySender _ => true
  | _ => false

/-- The ESTIMATE that an account read meets: the first one under lazy updates only. -/
def estimateBelowLazy : List (Nat × MemoryEntry) → Option Nat
  | [] => none
  | (j, .estimate) :: _ => some j
  | (_, .data _ value) :: entries => if value.isLazy then estimateBelowLazy entries else none

/-- The ESTIMATE that a read of a single entry meets. -/
def closestEstimate (entries : List (Nat × MemoryEntry)) : Option Nat :=
  match entries.head? with
  | some (j, .estimate) => some j
  | _ => none

/-- The closest entry is the kind of value a code hash location is for, or there is none. -/
def closestIsCodeHash (entries : List (Nat × MemoryEntry)) : Bool :=
  match entries.head? with
  | none | some (_, .data _ (.codeHash _)) | some (_, .data _ .selfDestructed) => true
  | _ => false

/-- Origins that name every entry consulted, down to an absolute value or to the storage. -/
inductive Complete : ReadOrigins → List (Nat × MemoryEntry) → Prop where
  | storage : Complete [.storage] []
  | absolute {i k : Nat} {value : MemoryValue} {rest : List (Nat × MemoryEntry)}
      (hvalue : value.isLazy = false) : Complete [.mvMemory ⟨i, k⟩] ((i, .data k value) :: rest)
  | lazy {i k : Nat} {value : MemoryValue} {origins : ReadOrigins}
      {rest : List (Nat × MemoryEntry)} (hvalue : value.isLazy = true)
      (hrest : Complete origins rest) :
      Complete (.mvMemory ⟨i, k⟩ :: origins) ((i, .data k value) :: rest)

theorem Complete.checkOrigins {origins : ReadOrigins} {entries : List (Nat × MemoryEntry)}
    (h : Complete origins entries) : checkOrigins origins entries = true := by
  induction h with
  | storage => rfl
  | absolute hvalue => simp [MvMemory.checkOrigins]
  | lazy hvalue hrest ih => simpa [MvMemory.checkOrigins] using ih

theorem Complete.estimateBelowLazy {origins : ReadOrigins} {entries : List (Nat × MemoryEntry)}
    (h : Complete origins entries) : estimateBelowLazy entries = none := by
  induction h with
  | storage => rfl
  | absolute hvalue => simp [Pevm.estimateBelowLazy, hvalue]
  | lazy hvalue hrest ih => simpa [Pevm.estimateBelowLazy, hvalue] using ih

/-- Complete origins are valid, also where the location has no map. -/
theorem Complete.checkLocation {m : MvMemory} {origins : ReadOrigins} {l : MemoryLocationHash}
    {txIdx : Nat} (h : Complete origins (m.entriesBelow l txIdx)) :
    checkLocation m.data txIdx l origins = true := by
  unfold MvMemory.checkLocation
  unfold entriesBelow at h
  cases hdata : m.data l with
  | some history =>
    rw [hdata] at h
    exact h.checkOrigins
  | none =>
    rw [hdata] at h
    cases h
    rfl

namespace LazyEvaluation

/-- A first read of an account walks down to the ESTIMATE. -/
theorem walk_of_estimate {j : Nat} : ∀ {entries : List (Nat × MemoryEntry)} {acc : LazyEvaluation},
    estimateBelowLazy entries = some j → walk [] entries acc = .error (.blocking j)
  | [], _, h => by cases h
  | (i, .estimate) :: entries, acc, h => by
    obtain rfl : i = j := by simpa [estimateBelowLazy] using h
    rfl
  | (i, .data k value) :: entries, acc, h => by
    simp only [walk, ne_eq, not_true_eq_false, false_and, if_false]
    cases value with
    | lazyRecipient addition | lazySender subtraction => exact walk_of_estimate h
    | basic _ | codeHash _ | storage _ | selfDestructed => simp [estimateBelowLazy, MemoryValue.isLazy] at h

/-- The origins of a first read are complete. -/
theorem complete_of_walk {origins : ReadOrigins} {eval : LazyEvaluation} :
    ∀ {entries : List (Nat × MemoryEntry)} {acc : LazyEvaluation}, acc.finalAccount = none →
      walk [] entries acc = .ok eval → eval.newOrigins = acc.newOrigins ++ origins →
      Complete (origins ++ eval.ending) entries
  | [], acc, hnone, h, horigins => by
    cases h
    obtain rfl : origins = [] := by simpa using horigins
    simpa [ending, hnone] using Complete.storage
  | (i, .estimate) :: entries, _, _, h, _ => by cases h
  | (i, .data k value) :: entries, acc, hnone, h, horigins => by
    simp only [walk, ne_eq, not_true_eq_false, false_and, if_false] at h
    cases value with
    | basic account =>
      cases h
      obtain rfl : origins = [.mvMemory ⟨i, k⟩] := by simpa using horigins.symm
      exact .absolute rfl
    | lazyRecipient addition | lazySender subtraction =>
      obtain ⟨origins', horigins'⟩ := walk_newOrigins h
      obtain rfl : origins = .mvMemory ⟨i, k⟩ :: origins' := by
        rw [horigins] at horigins'
        simpa using horigins'
      exact .lazy rfl (complete_of_walk (by simpa using hnone) h horigins')
    | codeHash _ | storage _ | selfDestructed => cases h

end LazyEvaluation

theorem ReadSet.mem_insert {readSet : ReadSet} {location l : MemoryLocationHash}
    {os os' : ReadOrigins} (h : (l, os') ∈ readSet.insert location os) :
    (l = location ∧ os' = os) ∨ (l, os') ∈ readSet := by
  induction readSet with
  | nil => simpa [ReadSet.insert] using h
  | cons p rest ih =>
    obtain ⟨l₀, os₀⟩ := p
    unfold ReadSet.insert at h
    split_ifs at h
    · rcases List.mem_cons.mp h with heq | hrest
      · exact .inl (Prod.mk.inj heq)
      · exact .inr (List.mem_cons_of_mem _ hrest)
    · rcases List.mem_cons.mp h with heq | hrest
      · exact .inr (heq ▸ List.mem_cons_self)
      · exact (ih hrest).imp_right (List.mem_cons_of_mem _)

namespace Vm

variable {T : Type} {vm : Vm T} {m : MvMemory} {txIdx : Nat} {db db' : VmDb} {address : Address}

/-- The ESTIMATE that a read meets as the next entry it has to consult. -/
def metEstimate (vm : Vm T) (m : MvMemory) (txIdx : Nat) (db : VmDb) : Query → Option Nat
  | .basic address => estimateBelowLazy (m.entriesBelow (vm.hashBasic db address) txIdx)
  | .codeHash address => closestEstimate (m.entriesBelow (vm.hash (.codeHash address)) txIdx)
  | .storage address index =>
    closestEstimate (m.entriesBelow (vm.hash (.storage address index)) txIdx)
  | .code _ => none

/-- Every origin of the read set is complete in the memory. -/
def Fresh (m : MvMemory) (txIdx : Nat) (db : VmDb) : Prop :=
  ∀ l origins, (l, origins) ∈ db.readSet → Complete origins (m.entriesBelow l txIdx)

theorem Fresh.origins (h : Fresh m txIdx db) {l : MemoryLocationHash}
    (hne : db.readSet.origins l ≠ []) : Complete (db.readSet.origins l) (m.entriesBelow l txIdx) :=
  h l _ (ReadSet.mem_of_origins_ne_nil hne)

/-! ## One read -/

theorem Fresh.readSource {α : Type}
    {source : List (Nat × MemoryEntry) → Except ReadError (ReadOrigin × α)} {a : α}
    {l : MemoryLocationHash} (h : Fresh m txIdx db)
    (hread : readSource source m txIdx db l (db', a))
    (hcomplete : ∀ origin, source (m.entriesBelow l txIdx) = .ok (origin, a) →
      Complete [origin] (m.entriesBelow l txIdx)) : Fresh m txIdx db' := by
  obtain ⟨origin, origins, hsource, hpush, hdb⟩ := hread
  intro l' origins' hmem
  rw [show db' = _ from hdb] at hmem
  rcases ReadSet.mem_insert hmem with ⟨rfl, rfl⟩ | hold
  · rcases pushOrigin_eq_ok_iff.mp hpush with ⟨-, rfl⟩ | ⟨hlast, rfl⟩
    · exact hcomplete origin hsource
    · apply h.origins
      intro hnil
      rw [hnil] at hlast
      cases hlast
  · exact h l' origins' hold

/-- A code hash above a code hash or above nothing. -/
theorem complete_of_codeHashSource {entries : List (Nat × MemoryEntry)} {origin : ReadOrigin}
    {hash : Option B256} (hclosest : closestIsCodeHash entries = true)
    (h : vm.codeHashSource address entries = .ok (origin, hash)) : Complete [origin] entries := by
  rcases entries with _ | ⟨⟨i, _ | _⟩, rest⟩
  · obtain ⟨_, -, heq⟩ := map_eq_ok.mp h
    cases heq
    exact .storage
  · rename_i k value
    cases value with
    | codeHash hash' =>
      cases h
      exact .absolute rfl
    | selfDestructed => cases h
    | basic _ | storage _ | lazyRecipient _ | lazySender _ => cases hclosest
  · cases hclosest

theorem complete_of_storageSource {entries : List (Nat × MemoryEntry)} {origin : ReadOrigin}
    {index value : U256} (h : vm.storageSource address index entries = .ok (origin, value)) :
    Complete [origin] entries := by
  rcases entries with _ | ⟨⟨i, _ | _⟩, rest⟩
  · obtain ⟨_, -, heq⟩ := map_eq_ok.mp h
    cases heq
    exact .storage
  · rename_i k value'
    cases value' with
    | storage value'' =>
      cases h
      exact .absolute rfl
    | basic _ | codeHash _ | lazyRecipient _ | lazySender _ | selfDestructed => cases h
  · cases h

theorem Fresh.readBasic {account : Option AccountBasic} (h : Fresh m txIdx db)
    (hread : vm.readBasic m txIdx db address = .ok (db', account)) : Fresh m txIdx db' := by
  obtain ⟨eval, eval', hwalk, hfall, rfl, -, -⟩ := readBasic_eq_ok_iff.mp hread
  have horigins := (fallBackToStorage_eq_ok hfall).1
  intro l origins hmem
  unfold registered at hmem
  split_ifs at hmem with hnil
  · rcases ReadSet.mem_insert hmem with ⟨rfl, rfl⟩ | hold
    · rw [hnil] at hwalk
      rw [horigins]
      exact LazyEvaluation.complete_of_walk rfl hwalk (by simp [LazyEvaluation.start])
    · exact h l origins hold
  · exact h l origins hmem

/-- A successful read keeps the read set fresh, unless it is one of a code hash above something
else. -/
theorem Fresh.ask {query : Query} {answer : Answer} (h : Fresh m txIdx db)
    (hcode : ∀ address, query = .codeHash address →
      closestIsCodeHash (m.entriesBelow (vm.hash (.codeHash address)) txIdx) = true)
    (hask : vm.ask m txIdx db query = .ok (db', answer)) : Fresh m txIdx db' := by
  cases query with
  | basic address =>
    obtain ⟨⟨db₁, account⟩, hread, heq⟩ := map_eq_ok.mp hask
    cases heq
    exact h.readBasic hread
  | codeHash address =>
    obtain ⟨⟨db₁, hash⟩, hread, heq⟩ := map_eq_ok.mp hask
    cases heq
    exact h.readSource (getCodeHash_eq_ok_iff.mp hread) fun origin hsource =>
      complete_of_codeHashSource (hcode address rfl) hsource
  | storage address index =>
    obtain ⟨⟨db₁, value⟩, hread, heq⟩ := map_eq_ok.mp hask
    cases heq
    exact h.readSource (readStorage_eq_ok_iff.mp hread) fun origin hsource =>
      complete_of_storageSource hsource
  | code codeHash =>
    obtain ⟨_, -, heq⟩ := map_eq_ok.mp hask
    cases heq
    exact h

/-- With a fresh read set every read but that of a code hash is blocked by the ESTIMATE it
meets. -/
theorem Fresh.blocked {query : Query} {j : Nat} (h : Fresh m txIdx db)
    (hmet : vm.metEstimate m txIdx db query = some j)
    (hcode : ∀ address, query ≠ .codeHash address) :
    vm.ask m txIdx db query = .error (.blocking j) := by
  cases query with
  | basic address =>
    -- an earlier read of the account would have met the ESTIMATE
    have hnil : db.readSet.origins (vm.hashBasic db address) = [] := by
      by_contra hne
      rw [metEstimate, (h.origins hne).estimateBelowLazy] at hmet
      cases hmet
    have hread : vm.readBasic m txIdx db address = .error (.blocking j) := by
      refine bind_eq_error.mpr (.inl ?_)
      show LazyEvaluation.walk (db.readSet.origins (vm.hashBasic db address)) _ .start = _
      rw [hnil]
      exact LazyEvaluation.walk_of_estimate hmet
    simp only [Vm.ask, hread]
    rfl
  | codeHash address => exact absurd rfl (hcode address)
  | storage address index =>
    have hread : vm.readStorage m txIdx db address index = .error (.blocking j) := by
      simp only [metEstimate, closestEstimate] at hmet
      unfold readStorage
      simp only
      split at hmet
      · next i hhead =>
        obtain rfl : i = j := Option.some.inj hmet
        rw [hhead]
      · cases hmet
    simp only [Vm.ask, hread]
    rfl
  | code codeHash => cases hmet

/-- `get_code_hash` is never blocked. -/
theorem ask_codeHash_ne_blocking {j : Nat} :
    vm.ask m txIdx db (.codeHash address) ≠ .error (.blocking j) := by
  intro h
  cases hread : vm.getCodeHash m txIdx db address with
  | ok r =>
    simp only [Vm.ask, hread] at h
    cases h
  | error err =>
    simp only [Vm.ask, hread] at h
    obtain rfl : err = .blocking j := Except.error.inj h
    exact vm.getCodeHash_ne_blocking hread

/-! ## Sequences of reads -/

/-- The reads of an execution while the memory does not change. -/
abbrev reads (vm : Vm T) (m : MvMemory) (txIdx : Nat) (queries : List Query) (db : VmDb) :
    Except ReadError (VmDb × List Answer) :=
  vm.askAll txIdx (queries.map fun query => (m, query)) db

theorem reads_cons {query : Query} {queries : List Query} {answers : List Answer}
    (h : vm.reads m txIdx (query :: queries) db = .ok (db', answers)) :
    ∃ db₁ answer rest, vm.ask m txIdx db query = .ok (db₁, answer) ∧
      vm.reads m txIdx queries db₁ = .ok (db', rest) := by
  obtain ⟨⟨db₁, answer⟩, hask, hrest⟩ := bind_eq_ok.mp h
  obtain ⟨⟨db₂, rest⟩, hall, heq⟩ := bind_eq_ok.mp hrest
  cases heq
  exact ⟨db₁, answer, rest, hask, hall⟩

/-- Every code hash was read above a code hash or above nothing. -/
def ReadsCodeHashes (vm : Vm T) (m : MvMemory) (txIdx : Nat) (queries : List Query) : Prop :=
  ∀ address, .codeHash address ∈ queries →
    closestIsCodeHash (m.entriesBelow (vm.hash (.codeHash address)) txIdx) = true

theorem Fresh.reads : ∀ {queries : List Query} {db : VmDb} {answers : List Answer},
    Fresh m txIdx db → vm.ReadsCodeHashes m txIdx queries →
    vm.reads m txIdx queries db = .ok (db', answers) → Fresh m txIdx db'
  | [], _, _, hfresh, _, h => by
    cases h
    exact hfresh
  | query :: queries, db, answers, hfresh, hcode, h => by
    obtain ⟨db₁, answer, rest, hask, hrest⟩ := reads_cons h
    refine Fresh.reads (hfresh.ask ?_ hask) (fun address hmem => ?_) hrest
    · rintro address rfl
      exact hcode address List.mem_cons_self
    · exact hcode address (List.mem_cons_of_mem _ hmem)

/-- A code hash is left with the one origin of its source. -/
theorem origins_of_reads : ∀ {queries : List Query} {db : VmDb} {answers : List Answer},
    vm.KeepsSingle db queries → vm.AccountsApart db queries →
    vm.reads m txIdx queries db = .ok (db', answers) → ∀ address, .codeHash address ∈ queries →
    ∃ origin hash, vm.codeHashSource address
        (m.entriesBelow (vm.hash (.codeHash address)) txIdx) = .ok (origin, hash) ∧
      db'.readSet.origins (vm.hash (.codeHash address)) = [origin]
  | [], _, _, _, _, _, _, hmem => by cases hmem
  | query :: queries, db, answers, hsingle, hapart, h, address, hmem => by
    obtain ⟨db₁, answer, rest, hask, hrest⟩ := reads_cons h
    have hrecords := records_of_ask hask
    rcases List.mem_cons.mp hmem with rfl | hmem
    · obtain ⟨⟨db₂, hash⟩, hread, heq⟩ := map_eq_ok.mp hask
      cases heq
      obtain ⟨origin, hsource, hone⟩ := single_of_readSource
        (hsingle _ List.mem_cons_self rfl _ rfl) (getCodeHash_eq_ok_iff.mp hread)
      refine ⟨origin, hash, hsource, ?_⟩
      rw [← hone]
      exact askAll_kept hrest _ (by rw [hone]; exact List.cons_ne_nil _ _)
    · refine origins_of_reads (hsingle.ask hapart hask) (fun a ha q hq hqs => ?_) hrest address hmem
      have hlocation : vm.location db₁ q = vm.location db q := by
        rw [hrecords.same]
        cases q <;> rfl
      rw [hlocation, hrecords.same]
      exact hapart a (List.mem_cons_of_mem _ ha) q (List.mem_cons_of_mem _ hq) hqs

theorem closestEstimate_eq_none {entries : List (Nat × MemoryEntry)}
    (h : closestIsCodeHash entries = true) : closestEstimate entries = none := by
  rcases entries with _ | ⟨⟨i, _ | _⟩, rest⟩
  · rfl
  · rfl
  · cases h

/-- The code hash that is read past something else has an origin that does not stand. -/
theorem closestIsCodeHash_of_source {entries : List (Nat × MemoryEntry)} {origin : ReadOrigin}
    {hash : Option B256} (h : vm.codeHashSource address entries = .ok (origin, hash))
    (hcheck : checkOrigins [origin] entries = true) : closestIsCodeHash entries = true := by
  rcases isSource_codeHashSource h with ⟨v, value, rest, rfl, rfl, -⟩ | ⟨rfl, -⟩
  · cases value with
    | codeHash _ | selfDestructed => rfl
    | basic _ | storage _ | lazyRecipient _ | lazySender _ =>
      obtain ⟨_, -, heq⟩ := map_eq_ok.mp h
      cases heq
  · cases entries with
    | nil => rfl
    | cons p rest => cases hcheck

theorem metEstimate_codeHash (db : VmDb) : vm.metEstimate m txIdx db (.codeHash address) =
    closestEstimate (m.entriesBelow (vm.hash (.codeHash address)) txIdx) := rfl

/-- A read of `queries ++ [query]` with what comes before it. -/
theorem split_concat {queries before after : List Query} {query query' : Query}
    (h : queries ++ [query] = before ++ query' :: after) :
    (before = queries ∧ query' = query) ∨ (before ⊆ queries ∧ query' ∈ queries) := by
  rcases after.eq_nil_or_concat with rfl | ⟨after, x, rfl⟩
  · obtain ⟨rfl, heq⟩ := List.append_inj' h rfl
    exact .inl ⟨rfl, (List.cons.inj heq).1.symm⟩
  · have h' : queries ++ [query] = (before ++ query' :: after) ++ [x] := by
      rw [h, List.concat_eq_append, List.append_assoc, List.cons_append]
    obtain ⟨rfl, -⟩ := List.append_inj' h' rfl
    exact .inr ⟨List.subset_append_left _ _, List.mem_append_right _ List.mem_cons_self⟩

/-! ## Recording and validating -/

/-- A read that meets an ESTIMATE is blocked by it, whatever was read before. -/
def BlocksAtEstimates (vm : Vm T) (m : MvMemory) (txIdx : Nat) (db : VmDb) (queries : List Query) :
    Prop :=
  ∀ before query after db' answers j, queries = before ++ query :: after →
    vm.reads m txIdx before db = .ok (db', answers) →
    vm.metEstimate m txIdx db' query = some j → vm.ask m txIdx db' query = .error (.blocking j)

/-- The read set is valid right after it is recorded, with any writes. -/
def FreshReadSetValid (m : MvMemory) (txIdx : Nat) (readSet : ReadSet) : Prop :=
  ∀ w incarnation writes m' wrote,
    Completes (fun m pc => m.recordStep w ⟨txIdx, incarnation⟩ readSet writes pc) m .lock m' wrote →
    m'.validateReadLocations txIdx = true

/-- `record` changes nothing that validation of the same transaction looks at but the read set. -/
theorem recorded_same {w : WorkerId} {incarnation : Nat} {readSet : ReadSet} {writes : WriteSet}
    {m' : MvMemory} {wrote : Bool} (hfree : m.lastLocationsHolder txIdx = none)
    (h : Completes (fun m pc => m.recordStep w ⟨txIdx, incarnation⟩ readSet writes pc) m .lock
      m' wrote) :
    (m'.lastLocations txIdx).read = readSet ∧
      ∀ l, m'.entriesBelow l txIdx = m.entriesBelow l txIdx := by
  obtain ⟨m₁, wrote₁, hrecord, -, hsame, -⟩ :=
    MvMemory.records w ⟨txIdx, incarnation⟩ readSet writes (m := m) hfree
  obtain ⟨rfl, -⟩ := h.unique hrecord
  refine ⟨?_, fun l => entriesBelow_congr fun j hj => hsame.entry l j ?_⟩
  · rw [hsame.read]
    simp [setLastLocations]
  · show j ≠ txIdx
    omega

theorem Fresh.valid (h : Fresh m txIdx db) (hfree : m.lastLocationsHolder txIdx = none) :
    FreshReadSetValid m txIdx db.readSet := by
  intro w incarnation writes m' wrote hrecord
  obtain ⟨hread, hbelow⟩ := recorded_same hfree hrecord
  unfold validateReadLocations
  rw [hread, List.all_eq_true]
  intro p hp
  apply Complete.checkLocation
  rw [hbelow]
  exact h p.1 p.2 hp

theorem FreshReadSetValid.checkOrigins {readSet : ReadSet} (h : FreshReadSetValid m txIdx readSet)
    (hfree : m.lastLocationsHolder txIdx = none) {l : MemoryLocationHash} {origins : ReadOrigins}
    (hmem : (l, origins) ∈ readSet) : checkOrigins origins (m.entriesBelow l txIdx) = true := by
  obtain ⟨m', wrote, hrecord, -⟩ := MvMemory.records 0 ⟨txIdx, 0⟩ readSet [] (m := m) hfree
  obtain ⟨hread, hbelow⟩ := recorded_same hfree hrecord
  have hvalid := h 0 0 [] m' wrote hrecord
  rw [validateReadLocations, hread, List.all_eq_true] at hvalid
  rw [← hbelow]
  exact checkOrigins_of_checkLocation (hvalid _ hmem)

/-- **Reads and ESTIMATEs.** Let an execution have made the reads `queries` and be about to make
`query`, with the memory unchanged. If no code hash among `queries` was read above an ESTIMATE or
another kind of value, and `query` is not the read of a code hash above an ESTIMATE, then every
read that meets an ESTIMATE is blocked by it, and the read set is valid right after it is recorded.
The condition is also necessary, as long as no account shares its location hash with a code hash
or a slot. -/
theorem estimates_block_iff {queries : List Query} {answers : List Answer} (query : Query)
    (hstart : db.readSet = []) (hfree : m.lastLocationsHolder txIdx = none)
    (hreads : vm.reads m txIdx queries db = .ok (db', answers)) :
    ((vm.ReadsCodeHashes m txIdx queries ∧
        ∀ address, query = .codeHash address → vm.metEstimate m txIdx db query = none) →
      vm.BlocksAtEstimates m txIdx db (queries ++ [query]) ∧
        FreshReadSetValid m txIdx db'.readSet) ∧
    (vm.AccountsApart db queries →
      vm.BlocksAtEstimates m txIdx db (queries ++ [query]) ∧
        FreshReadSetValid m txIdx db'.readSet →
      vm.ReadsCodeHashes m txIdx queries ∧
        ∀ address, query = .codeHash address → vm.metEstimate m txIdx db query = none) := by
  have hempty : Fresh m txIdx db := by
    intro l origins hmem
    rw [hstart] at hmem
    cases hmem
  constructor
  · rintro ⟨hcode, hnext⟩
    refine ⟨fun before query' after db₁ answers₁ j hsplit hbefore hmet => ?_,
      (hempty.reads hcode hreads).valid hfree⟩
    rcases split_concat hsplit with ⟨rfl, rfl⟩ | ⟨hsub, hmem⟩
    · refine Fresh.blocked (hempty.reads hcode hbefore) hmet fun address heq => ?_
      rw [heq] at hmet hnext
      rw [metEstimate_codeHash, ← metEstimate_codeHash db, hnext address rfl] at hmet
      cases hmet
    · refine Fresh.blocked (hempty.reads (fun a ha => hcode a (hsub ha)) hbefore) hmet ?_
      rintro address rfl
      rw [metEstimate_codeHash, closestEstimate_eq_none (hcode address hmem)] at hmet
      cases hmet
  · intro hapart hsound
    have hsingle : vm.KeepsSingle db queries := by
      intro q _ _ l _
      rw [hstart]
      exact Nat.zero_le 1
    constructor
    · intro address hmem
      obtain ⟨origin, hash, hsource, hone⟩ := origins_of_reads hsingle hapart hreads address hmem
      have hvalid := hsound.2.checkOrigins hfree
        (ReadSet.mem_of_origins_ne_nil (by rw [hone]; exact List.cons_ne_nil _ _))
      rw [hone] at hvalid
      exact closestIsCodeHash_of_source hsource hvalid
    · rintro address rfl
      cases hmet : vm.metEstimate m txIdx db (.codeHash address) with
      | none => rfl
      | some j =>
        refine absurd (hsound.1 queries (.codeHash address) [] db' answers j rfl hreads hmet) ?_
        exact ask_codeHash_ne_blocking

end Vm

namespace Sample

/-- Transaction 0 is being re-executed after it wrote the code hash of the counter and slot 0. -/
def estimated : MvMemory :=
  ((MvMemory.new [] []).insertEntry (hash (.codeHash counter)) 0 .estimate).insertEntry
    (hash (.storage counter 0)) 0 .estimate

end Sample

/-- Transaction 1 reads the code hash of the counter past the ESTIMATE of transaction 0, from the
storage. It is not blocked, and the read set is not valid. -/
theorem codeHash_passes_estimate :
    Sample.vm.metEstimate Sample.estimated 1 (Sample.vm.startDb ⟨1, 0⟩)
      (.codeHash Sample.counter) = some 0 ∧
    Sample.vm.ask Sample.estimated 1 (Sample.vm.startDb ⟨1, 0⟩) (.codeHash Sample.counter) =
      .ok ({ Sample.vm.startDb ⟨1, 0⟩ with
        readSet := [(Sample.hash (.codeHash Sample.counter), [.storage])] }, .codeHash (some 7)) ∧
    ¬ Vm.FreshReadSetValid Sample.estimated 1
      [(Sample.hash (.codeHash Sample.counter), [.storage])] := by
  refine ⟨by decide +kernel, rfl, fun h => ?_⟩
  have hcheck := h.checkOrigins rfl (List.mem_singleton.mpr rfl)
  revert hcheck
  decide +kernel

/-- Transaction 1 reads the code hash of account 2, and is then blocked by transaction 0 when it
reads slot 0 of the counter. -/
theorem estimates_block_sample :
    Sample.vm.BlocksAtEstimates Sample.estimated 1 (Sample.vm.startDb ⟨1, 0⟩)
        [.codeHash 2, .basic 1, .storage Sample.counter 0] ∧
      Vm.FreshReadSetValid Sample.estimated 1
        [(Sample.hash (.codeHash 2), [.storage]), (Sample.hash (.basic 1), [.storage])] := by
  have hreads : Sample.vm.reads Sample.estimated 1 [.codeHash 2, .basic 1]
      (Sample.vm.startDb ⟨1, 0⟩) = .ok ({ Sample.vm.startDb ⟨1, 0⟩ with
        readSet := [(Sample.hash (.codeHash 2), [.storage]), (Sample.hash (.basic 1), [.storage])] },
        [.codeHash none, .basic (some ⟨1000, 0⟩)]) := rfl
  refine (Vm.estimates_block_iff (.storage Sample.counter 0) rfl rfl hreads).1
    ⟨fun address hmem => ?_, fun address h => by cases h⟩
  obtain rfl : address = 2 := by simpa using hmem
  decide +kernel

end Pevm
