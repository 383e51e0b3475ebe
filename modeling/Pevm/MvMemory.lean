import Pevm.Primitives
import Pevm.Lib.Machine

/-!
# The multi-version memory

`mv_memory.rs`: for every location the entries written by the transactions of the block,
and for every transaction the read set and the written locations of its last recorded
incarnation.

`record`, `validate_read_locations` and `convert_writes_to_estimates` run under the mutex of
`last_locations[tx_idx]`, but each access to a location's map in `data` is an atomic step of
its own. Each is a step function over a program counter: `lock` takes the mutex (and is
blocked while another worker holds it), every later step accesses at most one location, and
the last one releases the mutex.
-/

namespace Pevm

open Interleaving

structure LastLocations where
  read : ReadSet
  write : List MemoryLocationHash
  deriving DecidableEq

/-- The map from transaction index to entry of one location. -/
abbrev WriteHistory := Nat → Option MemoryEntry

/-- `range(..i)` read from the back: the entries below `i`, highest index first. -/
def WriteHistory.below (h : WriteHistory) : Nat → List (Nat × MemoryEntry)
  | 0 => []
  | i + 1 =>
    match h i with
    | some e => (i, e) :: h.below i
    | none => h.below i

theorem WriteHistory.lt_of_mem_below {h : WriteHistory} {j : Nat} {e : MemoryEntry} :
    ∀ {i : Nat}, (j, e) ∈ h.below i → j < i
  | 0, hmem => by cases hmem
  | i + 1, hmem => by
    unfold WriteHistory.below at hmem
    split at hmem
    · rcases List.mem_cons.mp hmem with heq | hmem
      · obtain ⟨rfl, -⟩ := Prod.mk.inj heq
        exact Nat.lt_succ_self _
      · exact Nat.lt_succ_of_lt (lt_of_mem_below hmem)
    · exact Nat.lt_succ_of_lt (lt_of_mem_below hmem)

theorem WriteHistory.length_below_le (h : WriteHistory) : ∀ i, (h.below i).length ≤ i
  | 0 => Nat.le_refl 0
  | i + 1 => by
    have ih := h.length_below_le i
    unfold WriteHistory.below
    split
    · show (h.below i).length + 1 ≤ i + 1
      omega
    · omega

structure MvMemory where
  /-- the written transactions of every location; `none` while the location has no map -/
  data : MemoryLocationHash → Option WriteHistory
  lastLocations : Nat → LastLocations
  /-- which worker holds the mutex of `last_locations[tx_idx]` -/
  lastLocationsHolder : Nat → Option WorkerId
  lazyAddresses : List Address
  newBytecodes : B256 → Option Bytecode

namespace MvMemory

/-- Insert into the set of lazy addresses, kept as a list without duplicates. -/
def insertLazyAddresses (lazyAddresses : List Address) (addresses : List Address) : List Address :=
  addresses.foldl (fun acc a => if a ∈ acc then acc else acc ++ [a]) lazyAddresses

theorem mem_insertLazyAddresses {a : Address} : ∀ {addresses lazyAddresses : List Address},
    a ∈ insertLazyAddresses lazyAddresses addresses ↔ a ∈ lazyAddresses ∨ a ∈ addresses
  | [], _ => by simp [insertLazyAddresses]
  | b :: rest, lazyAddresses => by
    show a ∈ insertLazyAddresses
      (if b ∈ lazyAddresses then lazyAddresses else lazyAddresses ++ [b]) rest ↔ _
    rw [mem_insertLazyAddresses, List.mem_cons]
    split_ifs with hb
    · constructor
      · exact Or.imp_right .inr
      · rintro (h | rfl | h)
        · exact .inl h
        · exact .inl hb
        · exact .inr h
    · rw [List.mem_append, List.mem_singleton]
      tauto

theorem nodup_insertLazyAddresses : ∀ {addresses lazyAddresses : List Address},
    lazyAddresses.Nodup → (insertLazyAddresses lazyAddresses addresses).Nodup
  | [], _, h => h
  | b :: rest, lazyAddresses, h => by
    have hnodup : (if b ∈ lazyAddresses then lazyAddresses else lazyAddresses ++ [b]).Nodup := by
      split_ifs with hb
      · exact h
      · simpa using h.concat hb
    have ih : (insertLazyAddresses _ rest).Nodup := nodup_insertLazyAddresses hnodup
    exact ih

/-- `MvMemory::new`. A later list of estimates for the same location replaces the earlier map,
as `DashMap::insert` does. -/
def new (estimatedLocations : List (MemoryLocationHash × List Nat))
    (lazyAddresses : List Address) : MvMemory where
  data := estimatedLocations.foldl
    (fun data (l, txIdxs) =>
      Function.update data l (some fun i => if i ∈ txIdxs then some .estimate else none))
    (fun _ => none)
  lastLocations := fun _ => ⟨[], []⟩
  lastLocationsHolder := fun _ => none
  lazyAddresses := insertLazyAddresses [] lazyAddresses
  newBytecodes := fun _ => none

/-- The entry of transaction `i` at location `l`. -/
def entry (m : MvMemory) (l : MemoryLocationHash) (i : Nat) : Option MemoryEntry :=
  (m.data l).bind fun h => h i

/-- The initial memory holds ESTIMATEs only, at the estimated locations. -/
theorem new_entry {estimates : List (MemoryLocationHash × List Nat)}
    {lazyAddresses : List Address} {l : MemoryLocationHash} {i : Nat} {e : MemoryEntry}
    (h : (new estimates lazyAddresses).entry l i = some e) :
    e = .estimate ∧ ∃ txIdxs, (l, txIdxs) ∈ estimates ∧ i ∈ txIdxs := by
  refine List.foldlRecOn (motive := fun data : MemoryLocationHash → Option WriteHistory =>
    ∀ e, (data l).bind (fun history => history i) = some e →
      e = .estimate ∧ ∃ txIdxs, (l, txIdxs) ∈ estimates ∧ i ∈ txIdxs) estimates _
    (fun _ hnone => by cases hnone) (fun data hdata p hp e he => ?_) e h
  obtain ⟨l', txIdxs⟩ := p
  by_cases hl : l = l'
  · subst hl
    simp only [Function.update_self, Option.bind_some] at he
    split at he
    · next hi => exact ⟨(Option.some.inj he).symm, txIdxs, hp, hi⟩
    · cases he
  · simp only [Function.update_of_ne hl] at he
    exact hdata e he

/-- The entries of a location below the reader, highest first. -/
def entriesBelow (m : MvMemory) (location : MemoryLocationHash) (txIdx : Nat) :
    List (Nat × MemoryEntry) :=
  match m.data location with
  | some writtenTransactions => writtenTransactions.below txIdx
  | none => []

theorem lt_of_mem_entriesBelow {m : MvMemory} {location : MemoryLocationHash} {txIdx i : Nat}
    {e : MemoryEntry} (h : (i, e) ∈ m.entriesBelow location txIdx) : i < txIdx := by
  unfold entriesBelow at h
  split at h
  · exact WriteHistory.lt_of_mem_below h
  · cases h

theorem length_entriesBelow_le (m : MvMemory) (location : MemoryLocationHash) (txIdx : Nat) :
    (m.entriesBelow location txIdx).length ≤ txIdx := by
  unfold entriesBelow
  split
  · exact WriteHistory.length_below_le _ txIdx
  · exact Nat.zero_le txIdx

/-- `data.entry(l).or_default().insert(i, e)`. -/
def insertEntry (m : MvMemory) (l : MemoryLocationHash) (i : Nat) (e : MemoryEntry) : MvMemory :=
  { m with
    data := Function.update m.data l
      (some (Function.update ((m.data l).getD fun _ => none) i (some e))) }

/-- `if let Some(mut written_transactions) = data.get_mut(l)`: change the map of `l` if there
is one. -/
def modifyHistory (m : MvMemory) (l : MemoryLocationHash) (f : WriteHistory → WriteHistory) :
    MvMemory :=
  { m with data := Function.update m.data l ((m.data l).map f) }

/-- `written_transactions.remove(&i)` where the location has a map. -/
def removeEntry (m : MvMemory) (l : MemoryLocationHash) (i : Nat) : MvMemory :=
  m.modifyHistory l fun h => Function.update h i none

/-- `written_transactions.insert(i, Estimate)` where the location has a map. -/
def setEstimate (m : MvMemory) (l : MemoryLocationHash) (i : Nat) : MvMemory :=
  m.modifyHistory l fun h => Function.update h i (some .estimate)

def setLastLocations (m : MvMemory) (i : Nat) (last : LastLocations) : MvMemory :=
  { m with lastLocations := Function.update m.lastLocations i last }

def holdLastLocations (m : MvMemory) (i : Nat) (w : Option WorkerId) : MvMemory :=
  { m with lastLocationsHolder := Function.update m.lastLocationsHolder i w }

/-! ## `record` -/

inductive RecordPc where
  | lock
  | remove (lastLocationIdx : Nat)
  | insert (rest : WriteSet) (wroteNewLocation : Bool)

/-- `Vec::swap_remove`: the last element takes the place of the removed one. -/
def swapRemove (xs : List MemoryLocationHash) (i : Nat) : List MemoryLocationHash :=
  match xs.getLast? with
  | some x => (xs.set i x).dropLast
  | none => []

def recordStep (w : WorkerId) (v : TxVersion) (readSet : ReadSet) (writeSet : WriteSet)
    (m : MvMemory) : RecordPc → Option (MvMemory × Control RecordPc Bool)
  | .lock =>
    match m.lastLocationsHolder v.txIdx with
    | some _ => none
    | none =>
      let last := m.lastLocations v.txIdx
      some ((m.holdLastLocations v.txIdx (some w)).setLastLocations v.txIdx
        { last with read := readSet }, .goto (.remove 0))
  | .remove idx =>
    let last := m.lastLocations v.txIdx
    match last.write[idx]? with
    | none => some (m, .goto (.insert writeSet false))
    | some prevLocation =>
      if writeSet.all fun p => p.1 ≠ prevLocation then
        some ((m.removeEntry prevLocation v.txIdx).setLastLocations v.txIdx
          { last with write := swapRemove last.write idx }, .goto (.remove idx))
      else some (m, .goto (.remove (idx + 1)))
  | .insert [] wroteNewLocation =>
    some (m.holdLastLocations v.txIdx none, .ret wroteNewLocation)
  | .insert ((location, value) :: rest) wroteNewLocation =>
    let last := m.lastLocations v.txIdx
    let m' := m.insertEntry location v.txIdx (.data v.txIncarnation value)
    if location ∈ last.write then some (m', .goto (.insert rest wroteNewLocation))
    else
      some (m'.setLastLocations v.txIdx { last with write := last.write ++ [location] },
        .goto (.insert rest true))

/-! ## `validate_read_locations` -/

/-- Compare the recorded origins with the entries below the reader, highest first. -/
def checkOrigins : ReadOrigins → List (Nat × MemoryEntry) → Bool
  | [], _ => true
  | .mvMemory priorVersion :: origins, (closestIdx, .data incarnation _) :: entries =>
    if closestIdx ≠ priorVersion.txIdx ∨ priorVersion.txIncarnation ≠ incarnation then false
    else checkOrigins origins entries
  -- the value read is now cleared or marked with ESTIMATE
  | .mvMemory _ :: _, _ => false
  | .storage :: origins, [] => checkOrigins origins []
  -- read from storage but there is now something in between
  | .storage :: _, _ :: _ => false

/-- The body of the loop of `validate_read_locations` for one location. -/
def checkLocation (data : MemoryLocationHash → Option WriteHistory) (txIdx : Nat)
    (location : MemoryLocationHash) (priorOrigins : ReadOrigins) : Bool :=
  match data location with
  | some writtenTransactions => checkOrigins priorOrigins (writtenTransactions.below txIdx)
  | none => priorOrigins.length = 1 ∧ priorOrigins.getLast? = some .storage

/-- `validate_read_locations` evaluated at one instant. -/
def validateReadLocations (m : MvMemory) (txIdx : Nat) : Bool :=
  (m.lastLocations txIdx).read.all fun p => checkLocation m.data txIdx p.1 p.2

inductive ValidatePc where
  | lock
  | check (rest : ReadSet)

def validateStep (w : WorkerId) (txIdx : Nat) (m : MvMemory) :
    ValidatePc → Option (MvMemory × Control ValidatePc Bool)
  | .lock =>
    match m.lastLocationsHolder txIdx with
    | some _ => none
    | none => some (m.holdLastLocations txIdx (some w), .goto (.check (m.lastLocations txIdx).read))
  | .check [] => some (m.holdLastLocations txIdx none, .ret true)
  | .check ((location, priorOrigins) :: rest) =>
    if checkLocation m.data txIdx location priorOrigins then some (m, .goto (.check rest))
    else some (m.holdLastLocations txIdx none, .ret false)

/-! ## `convert_writes_to_estimates` -/

inductive ConvertPc where
  | lock
  | convert (rest : List MemoryLocationHash)

def convertStep (w : WorkerId) (txIdx : Nat) (m : MvMemory) :
    ConvertPc → Option (MvMemory × Control ConvertPc Unit)
  | .lock =>
    match m.lastLocationsHolder txIdx with
    | some _ => none
    | none =>
      some (m.holdLastLocations txIdx (some w), .goto (.convert (m.lastLocations txIdx).write))
  | .convert [] => some (m.holdLastLocations txIdx none, .ret ())
  | .convert (location :: rest) => some (m.setEstimate location txIdx, .goto (.convert rest))

/-- `add_lazy_addresses`. -/
def addLazyAddresses (m : MvMemory) (addresses : List Address) : MvMemory :=
  { m with lazyAddresses := insertLazyAddresses m.lazyAddresses addresses }

/-- `new_bytecodes.entry(hash).or_insert(code)`. -/
def addNewBytecode (m : MvMemory) (hash : B256) (code : Bytecode) : MvMemory :=
  match m.newBytecodes hash with
  | some _ => m
  | none => { m with newBytecodes := Function.update m.newBytecodes hash (some code) }

end MvMemory

end Pevm
