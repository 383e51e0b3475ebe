import Pevm.Proofs.Writes

/-!
# `MvMemory::record`

`record` run with nothing interleaved. It is two loops over `last_locations[i].write`:

* **`removes`**: the removal loop scans the list it shrinks with `swap_remove` and advances only
  past the locations it keeps. Everything before the index is written again, so that the loop
  ends with exactly the locations that are.
* **`inserts`**: the insertion loop puts every write into the memory and adds the locations that
  are not in the list yet.

`records` composes them, for every memory and every write set, `record_replaces` says what is left
of transaction `i` when its entries were the recorded ones.
-/

namespace Pevm

open Interleaving

namespace MvMemory

/-- What `record` of transaction `i` leaves alone between taking its mutex and releasing it. -/
structure SameOutside (i : Nat) (m m' : MvMemory) : Prop where
  entry : ∀ l j, j ≠ i → m'.entry l j = m.entry l j
  read : (m'.lastLocations i).read = (m.lastLocations i).read
  lastLocations : ∀ j, j ≠ i → m'.lastLocations j = m.lastLocations j
  holder : ∀ j, j ≠ i → m'.lastLocationsHolder j = m.lastLocationsHolder j
  lazyAddresses : m'.lazyAddresses = m.lazyAddresses
  newBytecodes : m'.newBytecodes = m.newBytecodes

theorem SameOutside.refl (i : Nat) (m : MvMemory) : SameOutside i m m :=
  ⟨fun _ _ _ => rfl, rfl, fun _ _ => rfl, fun _ _ => rfl, rfl, rfl⟩

theorem SameOutside.trans {i : Nat} {m₁ m₂ m₃ : MvMemory} (h : SameOutside i m₁ m₂)
    (h' : SameOutside i m₂ m₃) : SameOutside i m₁ m₃ where
  entry l j hj := (h'.entry l j hj).trans (h.entry l j hj)
  read := h'.read.trans h.read
  lastLocations j hj := (h'.lastLocations j hj).trans (h.lastLocations j hj)
  holder j hj := (h'.holder j hj).trans (h.holder j hj)
  lazyAddresses := h'.lazyAddresses.trans h.lazyAddresses
  newBytecodes := h'.newBytecodes.trans h.newBytecodes

/-! ## The removal loop -/

/-- The memory after the removal loop: of the recorded locations only those that are written
again are left. -/
structure Removed (i : Nat) (writeSet : WriteSet) (m m' : MvMemory) : Prop where
  same : SameOutside i m m'
  entry : ∀ l, m'.entry l i =
    if l ∈ (m.lastLocations i).write ∧ l ∉ AssocList.keys writeSet then none else m.entry l i
  write : ∀ l, l ∈ (m'.lastLocations i).write ↔
    l ∈ (m.lastLocations i).write ∧ l ∈ AssocList.keys writeSet
  nodup : (m.lastLocations i).write.Nodup → (m'.lastLocations i).write.Nodup

/-- Every recorded location is written again. -/
theorem Removed.refl {writeSet : WriteSet} {i : Nat} {m : MvMemory}
    (h : ∀ l ∈ (m.lastLocations i).write, l ∈ AssocList.keys writeSet) :
    Removed i writeSet m m where
  same := .refl i m
  entry l := (if_neg fun hl => hl.2 (h l hl.1)).symm
  write l := ⟨fun hl => ⟨hl, h l hl⟩, And.left⟩
  nodup := id

/-- The memory after one location is removed. -/
def remove (m : MvMemory) (i idx : Nat) (location : MemoryLocationHash) : MvMemory :=
  (m.removeEntry location i).setLastLocations i
    { m.lastLocations i with write := swapRemove (m.lastLocations i).write idx }

theorem write_remove {m : MvMemory} {i idx : Nat} {location : MemoryLocationHash} :
    ((m.remove i idx location).lastLocations i).write =
      swapRemove (m.lastLocations i).write idx := by
  simp [remove, setLastLocations]

theorem sameOutside_remove {m : MvMemory} {i idx : Nat} {location : MemoryLocationHash} :
    SameOutside i m (m.remove i idx location) where
  entry l j hj := by
    show (m.removeEntry location i).entry l j = m.entry l j
    rw [entry_removeEntry, if_neg fun h => hj h.2]
  read := by simp [remove, setLastLocations]
  lastLocations j hj := by simp [remove, setLastLocations, removeEntry, modifyHistory, hj]
  holder _ _ := rfl
  lazyAddresses := rfl
  newBytecodes := rfl

/-- One location goes, the rest of the loop removes the others. -/
theorem Removed.cons {writeSet : WriteSet} {m m' : MvMemory} {i idx : Nat}
    {location : MemoryLocationHash}
    (hidx : (m.lastLocations i).write[idx]? = some location)
    (hnot : location ∉ AssocList.keys writeSet)
    (h : Removed i writeSet (m.remove i idx location) m') : Removed i writeSet m m' := by
  have hperm := swapRemove_perm hidx
  have hmem : ∀ l, l ∈ (m.lastLocations i).write ↔
      l = location ∨ l ∈ swapRemove (m.lastLocations i).write idx := by
    intro l
    rw [hperm.mem_iff, List.mem_cons]
  refine ⟨sameOutside_remove.trans h.same, fun l => ?_, fun l => ?_, fun hnodup => ?_⟩
  · have hentry : (m.remove i idx location).entry l i =
        if l = location ∧ i = i then none else m.entry l i := entry_removeEntry _ _ _ _ _
    rw [h.entry, write_remove, hentry]
    by_cases hl : l = location
    · simp [hmem, hl, hnot]
    · simp [hmem, hl]
  · rw [h.write, write_remove, hmem]
    constructor
    · exact fun hl => ⟨.inr hl.1, hl.2⟩
    · rintro ⟨rfl | hl, hkey⟩
      · exact absurd hkey hnot
      · exact ⟨hl, hkey⟩
  · apply h.nodup
    rw [write_remove]
    exact (List.nodup_cons.mp (hperm.nodup_iff.mp hnodup)).2

variable (w : WorkerId) (v : TxVersion) (readSet : ReadSet) (writeSet : WriteSet)

/-- The removal loop ends when everything before the index is written again. -/
theorem removes_end {idx : Nat} {m : MvMemory}
    (hend : (m.lastLocations v.txIdx).write[idx]? = none)
    (hkept : ∀ j l, j < idx → (m.lastLocations v.txIdx).write[j]? = some l →
      l ∈ AssocList.keys writeSet) :
    Removed v.txIdx writeSet m m ∧ m.recordStep w v readSet writeSet (.remove idx) =
      some (m, .goto (.insert writeSet false)) := by
  refine ⟨Removed.refl fun l hl => ?_, by simp only [recordStep, hend]⟩
  obtain ⟨j, hj, hget⟩ := List.getElem_of_mem hl
  have hlen : (m.lastLocations v.txIdx).write.length ≤ idx := List.getElem?_eq_none_iff.mp hend
  exact hkept j l (by omega) (List.getElem?_eq_some_iff.mpr ⟨hj, hget⟩)

/-- The removal loop, entered at an index below which every location is written again. The
induction is on the locations left to scan. -/
theorem removes : ∀ (n idx : Nat) (m : MvMemory), (m.lastLocations v.txIdx).write.length ≤ idx + n →
    (∀ j l, j < idx → (m.lastLocations v.txIdx).write[j]? = some l →
      l ∈ AssocList.keys writeSet) →
    ∃ m₁, Removed v.txIdx writeSet m m₁ ∧ ∀ m' wrote,
      Completes (fun m pc => m.recordStep w v readSet writeSet pc) m₁
        (.insert writeSet false) m' wrote →
      Completes (fun m pc => m.recordStep w v readSet writeSet pc) m (.remove idx) m' wrote := by
  intro n
  induction n with
  | zero =>
    intro idx m hlen hkept
    have hend : (m.lastLocations v.txIdx).write[idx]? = none := List.getElem?_eq_none (by omega)
    have hremoved := removes_end w v readSet writeSet hend hkept
    exact ⟨m, hremoved.1, fun m' wrote hrest => .goto hremoved.2 hrest⟩
  | succ n ih =>
    intro idx m hlen hkept
    cases hidx : (m.lastLocations v.txIdx).write[idx]? with
    | none =>
      have hremoved := removes_end w v readSet writeSet hidx hkept
      exact ⟨m, hremoved.1, fun m' wrote hrest => .goto hremoved.2 hrest⟩
    | some location =>
      by_cases hkey : location ∈ AssocList.keys writeSet
      · -- the location is kept and the index moves past it
        obtain ⟨m₁, hremoved, hrest⟩ := ih (idx + 1) m (by omega) fun j l hj hl => by
          rcases Nat.lt_succ_iff_lt_or_eq.mp hj with hlt | rfl
          · exact hkept j l hlt hl
          · rw [hidx] at hl
            exact Option.some.inj hl ▸ hkey
        refine ⟨m₁, hremoved, fun m' wrote h => .goto ?_ (hrest m' wrote h)⟩
        obtain ⟨p, hp, hfst⟩ := List.mem_map.mp hkey
        simp only [recordStep, hidx]
        exact if_neg fun hall => by simpa [hfst] using List.all_eq_true.mp hall p hp
      · -- the last location takes its place, so that the index stays
        have hlt : idx < (m.lastLocations v.txIdx).write.length :=
          (List.getElem?_eq_some_iff.mp hidx).1
        have hlen' : (swapRemove (m.lastLocations v.txIdx).write idx).length + 1 =
            (m.lastLocations v.txIdx).write.length := (swapRemove_perm hidx).length_eq.symm
        obtain ⟨m₁, hremoved, hrest⟩ := ih idx (m.remove v.txIdx idx location)
          (by rw [write_remove]; omega) fun j l hj hl => by
            rw [write_remove] at hl
            exact hkept j l hj (getElem?_swapRemove hj hl)
        refine ⟨m₁, hremoved.cons hidx hkey, fun m' wrote h => .goto ?_ (hrest m' wrote h)⟩
        simp only [recordStep, hidx]
        refine if_pos (List.all_eq_true.mpr fun p hp => ?_)
        have hne : p.1 ≠ location := fun hfst => hkey (hfst ▸ List.mem_map_of_mem hp)
        simpa using hne

/-! ## The insertion loop -/

/-- The memory after the insertion loop. -/
structure Inserts (v : TxVersion) (writes : WriteSet) (m m' : MvMemory) : Prop where
  same : SameOutside v.txIdx m m'
  entry : ∀ l, m'.entry l v.txIdx =
    ((AssocList.lookupLast writes l).map (.data v.txIncarnation)).or (m.entry l v.txIdx)
  write : ∀ l, l ∈ (m'.lastLocations v.txIdx).write ↔
    l ∈ (m.lastLocations v.txIdx).write ∨ l ∈ AssocList.keys writes
  nodup : (m.lastLocations v.txIdx).write.Nodup → (m'.lastLocations v.txIdx).write.Nodup
  released : m'.lastLocationsHolder v.txIdx = none

/-- One write of the insertion loop. -/
theorem insert_step (m : MvMemory) (location : MemoryLocationHash) (value : MemoryValue)
    (rest : WriteSet) (wrote : Bool) :
    ∃ m₁ wrote₁, m.recordStep w v readSet writeSet (.insert ((location, value) :: rest) wrote) =
        some (m₁, .goto (.insert rest wrote₁)) ∧
      m₁.data = (m.insertEntry location v.txIdx (.data v.txIncarnation value)).data ∧
      SameOutside v.txIdx m m₁ ∧
      (∀ l, l ∈ (m₁.lastLocations v.txIdx).write ↔
        l ∈ (m.lastLocations v.txIdx).write ∨ l = location) ∧
      ((m.lastLocations v.txIdx).write.Nodup → (m₁.lastLocations v.txIdx).write.Nodup) ∧
      (wrote₁ = true ↔ wrote = true ∨ location ∉ (m.lastLocations v.txIdx).write) := by
  have hentry : ∀ l j, j ≠ v.txIdx → (m.insertEntry location v.txIdx
      (.data v.txIncarnation value)).entry l j = m.entry l j := by
    intro l j hj
    rw [entry_insertEntry, if_neg fun h => hj h.2]
  by_cases hlast : location ∈ (m.lastLocations v.txIdx).write
  · refine ⟨_, wrote, if_pos hlast, rfl, ⟨hentry, rfl, fun _ _ => rfl, fun _ _ => rfl, rfl, rfl⟩,
      fun l => ⟨.inl, ?_⟩, id, by simp [hlast]⟩
    rintro (hl | rfl)
    · exact hl
    · exact hlast
  · refine ⟨_, true, if_neg hlast, rfl, ⟨hentry, ?_, fun j hj => ?_, fun _ _ => rfl, rfl, rfl⟩,
      fun l => ?_, fun hnodup => ?_, by simp [hlast]⟩
    · simp [setLastLocations]
    · simp [setLastLocations, insertEntry, hj]
    · simp [setLastLocations]
    · simpa [setLastLocations] using hnodup.concat hlast

theorem inserts : ∀ (rest : WriteSet) (m : MvMemory) (wrote : Bool),
    ∃ m' wrote', Completes (fun m pc => m.recordStep w v readSet writeSet pc) m
        (.insert rest wrote) m' wrote' ∧ Inserts v rest m m' ∧
      (wrote' = true ↔ wrote = true ∨
        ∃ l ∈ AssocList.keys rest, l ∉ (m.lastLocations v.txIdx).write) := by
  intro rest
  induction rest with
  | nil =>
    intro m wrote
    refine ⟨m.holdLastLocations v.txIdx none, wrote, .ret rfl,
      ⟨⟨fun _ _ _ => rfl, rfl, fun _ _ => rfl, fun j hj => ?_, rfl, rfl⟩, fun _ => rfl, ?_, id, ?_⟩,
      by simp⟩
    · simp [holdLastLocations, hj]
    · simp [holdLastLocations]
    · simp [holdLastLocations]
  | cons p rest ih =>
    obtain ⟨location, value⟩ := p
    intro m wrote
    obtain ⟨m₁, wrote₁, hstep, hd, hsame, hwrite, hnodup, hwrote⟩ :=
      insert_step w v readSet writeSet m location value rest wrote
    obtain ⟨m', wrote', hrest, hins, hwrote'⟩ := ih m₁ wrote₁
    refine ⟨m', wrote', .goto hstep hrest, ⟨hsame.trans hins.same, fun l => ?_, fun l => ?_,
      fun h => hins.nodup (hnodup h), hins.released⟩, ?_⟩
    · -- a later write of the same location wins
      rw [hins.entry, entry_congr _ _ hd, entry_insertEntry, AssocList.lookupLast_cons]
      by_cases hl : l = location
      · cases AssocList.lookupLast rest l <;> simp [hl]
      · simp [hl]
    · rw [hins.write, hwrite, AssocList.keys_cons, List.mem_cons, or_assoc]
    · rw [hwrote', hwrote, AssocList.keys_cons]
      simp only [hwrite, List.mem_cons, exists_eq_or_imp, not_or]
      constructor
      · rintro ((h | h) | ⟨l, hl, hnot, -⟩)
        · exact .inl h
        · exact .inr (.inl h)
        · exact .inr (.inr ⟨l, hl, hnot⟩)
      · rintro (h | h | ⟨l, hl, hnot⟩)
        · exact .inl (.inl h)
        · exact .inl (.inr h)
        · by_cases heq : l = location
          · exact .inl (.inr (heq ▸ hnot))
          · exact .inr ⟨l, hl, hnot, heq⟩

/-! ## `record` -/

/-- The memory after `record`, which returns `wrote`: the recorded locations that are not written
any more are gone, every other entry of the transaction is kept or replaced. -/
theorem records {m : MvMemory} (hfree : m.lastLocationsHolder v.txIdx = none) :
    ∃ m' wrote, Completes (fun m pc => m.recordStep w v readSet writeSet pc) m .lock m' wrote ∧
      (∀ l, m'.entry l v.txIdx =
        ((AssocList.lookupLast writeSet l).map (.data v.txIncarnation)).or
          (if l ∈ (m.lastLocations v.txIdx).write then none else m.entry l v.txIdx)) ∧
      SameOutside v.txIdx (m.setLastLocations v.txIdx
        ⟨readSet, (m.lastLocations v.txIdx).write⟩) m' ∧
      (∀ l, l ∈ (m'.lastLocations v.txIdx).write ↔ l ∈ AssocList.keys writeSet) ∧
      ((m.lastLocations v.txIdx).write.Nodup → (m'.lastLocations v.txIdx).write.Nodup) ∧
      m'.lastLocationsHolder v.txIdx = none ∧
      (wrote = true ↔ ∃ l ∈ AssocList.keys writeSet, l ∉ (m.lastLocations v.txIdx).write) := by
  -- the state in which the mutex is held and the read set is stored
  obtain ⟨m₀, hm₀⟩ : ∃ m₀, m₀ = (m.holdLastLocations v.txIdx (some w)).setLastLocations v.txIdx
      ⟨readSet, (m.lastLocations v.txIdx).write⟩ := ⟨_, rfl⟩
  have hlast : (m₀.lastLocations v.txIdx).write = (m.lastLocations v.txIdx).write := by
    simp [hm₀, setLastLocations]
  have hsame : SameOutside v.txIdx (m.setLastLocations v.txIdx
      ⟨readSet, (m.lastLocations v.txIdx).write⟩) m₀ := by
    subst hm₀
    refine ⟨fun _ _ _ => rfl, rfl, fun _ _ => rfl, fun j hj => ?_, rfl, rfl⟩
    simp [setLastLocations, holdLastLocations, hj]
  have hlock : m.recordStep w v readSet writeSet .lock = some (m₀, .goto (.remove 0)) := by
    simp only [recordStep, hfree, hm₀]
  obtain ⟨m₁, hremoved, hinsert⟩ := removes w v readSet writeSet
    (m₀.lastLocations v.txIdx).write.length 0 m₀ (by omega) fun j l hj => by omega
  obtain ⟨m', wrote, hrest, hins, hwrote⟩ := inserts w v readSet writeSet writeSet m₁ false
  refine ⟨m', wrote, .goto hlock (hinsert m' wrote hrest), fun l => ?_,
    (hsame.trans hremoved.same).trans hins.same, fun l => ?_, fun hnodup => ?_, hins.released, ?_⟩
  · have hentry : m₀.entry l v.txIdx = m.entry l v.txIdx := by rw [hm₀]; rfl
    rw [hins.entry, hremoved.entry, hlast, hentry]
    cases hvalue : AssocList.lookupLast writeSet l with
    | some value => rfl
    | none =>
      have hkey := AssocList.lookupLast_eq_none_iff.mp hvalue
      simp [hkey]
  · rw [hins.write, hremoved.write]
    exact ⟨fun h => h.elim And.right id, .inr⟩
  · apply hins.nodup
    apply hremoved.nodup
    rwa [hlast]
  · rw [hwrote]
    constructor
    · rintro (h | ⟨l, hl, hnot⟩)
      · cases h
      · refine ⟨l, hl, fun hmem => hnot ?_⟩
        rw [hremoved.write, hlast]
        exact ⟨hmem, hl⟩
    · rintro ⟨l, hl, hnot⟩
      refine .inr ⟨l, hl, fun hmem => hnot ?_⟩
      rw [hremoved.write, hlast] at hmem
      exact hmem.1

/-- The entries of transaction `i` are those of its recorded locations, ESTIMATEs that
`MvMemory::new` put into the memory apart. -/
structure Registered (estimates : List (MemoryLocationHash × List Nat))
    (lazyAddresses : List Address) (m : MvMemory) (i : Nat) : Prop where
  nodup : (m.lastLocations i).write.Nodup
  holds : ∀ l ∈ (m.lastLocations i).write, (m.entry l i).isSome
  outside : ∀ l e, m.entry l i = some e → l ∉ (m.lastLocations i).write →
    e = .estimate ∧ ((MvMemory.new estimates lazyAddresses).entry l i).isSome

/-- The write set is all that is left of transaction `i`. -/
structure Replaced (v : TxVersion) (readSet : ReadSet) (writeSet : WriteSet) (m m' : MvMemory) :
    Prop where
  entry : ∀ l, m'.entry l v.txIdx =
    (AssocList.lookupLast writeSet l).map (.data v.txIncarnation)
  read : (m'.lastLocations v.txIdx).read = readSet
  write : ∀ l, l ∈ (m'.lastLocations v.txIdx).write ↔ l ∈ AssocList.keys writeSet
  nodup : (m'.lastLocations v.txIdx).write.Nodup
  entry_other : ∀ l j, j ≠ v.txIdx → m'.entry l j = m.entry l j
  lastLocations_other : ∀ j, j ≠ v.txIdx → m'.lastLocations j = m.lastLocations j
  holder : m'.lastLocationsHolder = m.lastLocationsHolder
  lazyAddresses : m'.lazyAddresses = m.lazyAddresses
  newBytecodes : m'.newBytecodes = m.newBytecodes

/-- What a `record` that returned has left. -/
theorem replaced_of_completes {w : WorkerId} {v : TxVersion} {readSet : ReadSet}
    {writeSet : WriteSet} {estimates : List (MemoryLocationHash × List Nat)}
    {lazyAddresses : List Address} {m m' : MvMemory} {wrote : Bool}
    (hfree : m.lastLocationsHolder v.txIdx = none)
    (hreg : Registered estimates lazyAddresses m v.txIdx)
    (hcovers : ∀ l, ((MvMemory.new estimates lazyAddresses).entry l v.txIdx).isSome →
      l ∈ AssocList.keys writeSet)
    (hrecord : Completes (fun m pc => m.recordStep w v readSet writeSet pc) m .lock m' wrote) :
    Replaced v readSet writeSet m m' := by
  obtain ⟨m₁, wrote₁, hrecord₁, hentry, hsame, hwrite, hnodup, hreleased, -⟩ :=
    records w v readSet writeSet hfree
  obtain ⟨rfl, rfl⟩ := hrecord.unique hrecord₁
  -- what is neither written nor recorded is not there: it could only be an ESTIMATE of `new`
  have hgone : ∀ l, AssocList.lookupLast writeSet l = none →
      l ∉ (m.lastLocations v.txIdx).write → m.entry l v.txIdx = none := by
    intro l hnone hmem
    apply Option.eq_none_iff_forall_ne_some.mpr
    intro e he
    have hkey := AssocList.lookupLast_eq_none_iff.mp hnone
    exact hkey (hcovers l (hreg.outside l e he hmem).2)
  refine ⟨fun l => ?_, ?_, hwrite, hnodup hreg.nodup, hsame.entry, fun j hj => ?_, ?_,
    hsame.lazyAddresses, hsame.newBytecodes⟩
  · rw [hentry]
    cases hvalue : AssocList.lookupLast writeSet l with
    | some value => rfl
    | none =>
      show (if l ∈ (m.lastLocations v.txIdx).write then none else m.entry l v.txIdx) = none
      split_ifs with hmem
      · rfl
      · exact hgone l hvalue hmem
  · rw [hsame.read]
    simp [setLastLocations]
  · rw [hsame.lastLocations j hj]
    simp [setLastLocations, hj]
  · funext j
    by_cases hj : j = v.txIdx
    · rw [hj, hreleased, hfree]
    · exact hsame.holder j hj

/-- **`record` replaces exactly one transaction's writes.** It returns once it has the mutex, in
one way, and says whether a location is written that was not recorded before. -/
theorem record_replaces (w : WorkerId) (v : TxVersion) (readSet : ReadSet) (writeSet : WriteSet)
    (estimates : List (MemoryLocationHash × List Nat)) (lazyAddresses : List Address)
    (m : MvMemory) (hfree : m.lastLocationsHolder v.txIdx = none)
    (hreg : Registered estimates lazyAddresses m v.txIdx)
    (hcovers : ∀ l, ((MvMemory.new estimates lazyAddresses).entry l v.txIdx).isSome →
      l ∈ AssocList.keys writeSet) :
    ∃ m' wrote, (∀ m'' wrote', Completes (fun m pc => m.recordStep w v readSet writeSet pc) m .lock
        m'' wrote' ↔ m'' = m' ∧ wrote' = wrote) ∧
      Replaced v readSet writeSet m m' ∧
      (wrote = true ↔ ∃ l ∈ AssocList.keys writeSet, l ∉ (m.lastLocations v.txIdx).write) := by
  obtain ⟨m', wrote, hrecord, -, -, -, -, -, hwrote⟩ := records w v readSet writeSet hfree
  have honly : ∀ m'' wrote', Completes (fun m pc => m.recordStep w v readSet writeSet pc) m .lock
      m'' wrote' ↔ m'' = m' ∧ wrote' = wrote := by
    intro m'' wrote'
    constructor
    · intro h
      exact h.unique hrecord
    · rintro ⟨rfl, rfl⟩
      exact hrecord
  exact ⟨m', wrote, honly, replaced_of_completes hfree hreg hcovers hrecord, hwrote⟩

end MvMemory

namespace Sample

/-- Transaction 1 wrote the locations 10 and 20 in its first incarnation and left the ESTIMATE
of the initial memory at location 30. -/
def recordedMemory : MvMemory :=
  ((((MvMemory.new [(30, [1])] []).setLastLocations 1 ⟨[], [10, 20]⟩).insertEntry 10 1
    (.data 0 (.storage 5))).insertEntry 20 1 .estimate).insertEntry 10 0 (.data 2 (.storage 4))

theorem entry_recordedMemory (l : MemoryLocationHash) : recordedMemory.entry l 1 =
    if l = 20 then some .estimate else if l = 10 then some (.data 0 (.storage 5))
    else (MvMemory.new [(30, [1])] []).entry l 1 := by
  unfold recordedMemory
  rw [MvMemory.entry_insertEntry, MvMemory.entry_insertEntry, MvMemory.entry_insertEntry,
    if_neg (fun h => absurd h.2 (by decide))]
  simp only [and_true]
  rfl

theorem recordedMemory_registered :
    MvMemory.Registered [(30, [1])] [] recordedMemory 1 where
  nodup := by decide
  holds l hl := by
    rw [entry_recordedMemory]
    rcases List.mem_pair.mp hl with rfl | rfl
    · rfl
    · rfl
  outside l e he hmem := by
    rw [entry_recordedMemory] at he
    split_ifs at he with h20 h10
    · exact absurd (List.mem_pair.mpr (.inr h20)) hmem
    · exact absurd (List.mem_pair.mpr (.inl h10)) hmem
    · exact ⟨(MvMemory.new_entry he).1, Option.isSome_iff_exists.mpr ⟨e, he⟩⟩

end Sample

/-- The second incarnation writes location 20 again, 30 over the ESTIMATE and 40 for the first
time, one of them twice. -/
theorem record_replaces_sample :
    ∃ m' wrote, (∀ m'' wrote', Completes (fun m pc => MvMemory.recordStep 0 ⟨1, 1⟩ [(10, [.storage])]
        [(20, .storage 1), (30, .storage 2), (20, .storage 3), (40, .storage 4)] m pc)
        Sample.recordedMemory .lock m'' wrote' ↔ m'' = m' ∧ wrote' = wrote) ∧
      MvMemory.Replaced ⟨1, 1⟩ [(10, [.storage])]
        [(20, .storage 1), (30, .storage 2), (20, .storage 3), (40, .storage 4)]
        Sample.recordedMemory m' ∧
      (wrote = true ↔ ∃ l ∈ AssocList.keys ([(20, .storage 1), (30, .storage 2), (20, .storage 3),
        (40, .storage 4)] : WriteSet), l ∉ (Sample.recordedMemory.lastLocations 1).write) := by
  refine MvMemory.record_replaces 0 ⟨1, 1⟩ _ _ [(30, [1])] [] Sample.recordedMemory rfl
    Sample.recordedMemory_registered fun l hl => ?_
  obtain ⟨e, he⟩ := Option.isSome_iff_exists.mp hl
  obtain ⟨-, txIdxs, hmem, -⟩ := MvMemory.new_entry he
  obtain ⟨rfl, -⟩ := Prod.mk.inj (List.mem_singleton.mp hmem)
  decide

end Pevm
