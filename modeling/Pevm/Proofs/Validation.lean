import Pevm.Proofs.LazyReads

/-!
# Validation is sound

An execution reads while the multi-version memory below it changes. Its read set keeps, for every
location, the origins of the value it saw, and validation compares these with the memory as it is
later. This file shows that origins stand for values, as long as every version fixes the value it
wrote at each location (`Writes`):

* what a read returns is a function of the origins it leaves in the read set
  (`ask_eq_valueOf`), so that two reads of one location agree;
* a read whose origins pass validation on another memory returns the same there, and leaves the
  same read set (`ask_congr`); by induction so does the whole execution (`askAll_congr`).

A Basic location keeps a chain of lazy updates that ends in an absolute value or in the storage, the
other locations keep a single origin.
-/

namespace Pevm

open MvMemory Saturating

/-- What each version wrote at each location. -/
abbrev WrittenValues := MemoryLocationHash → TxVersion → MemoryValue

/-- The entries of a memory hold what their versions wrote. -/
def MvMemory.Holds (m : MvMemory) (written : WrittenValues) : Prop :=
  ∀ l i k value, m.entry l i = some (.data k value) → value = written l ⟨i, k⟩

/-- The entries of one location hold what their versions wrote there. -/
def HoldAll (wrote : TxVersion → MemoryValue) (entries : List (Nat × MemoryEntry)) : Prop :=
  ∀ i k value, (i, .data k value) ∈ entries → value = wrote ⟨i, k⟩

theorem WriteHistory.eq_of_mem_below {h : WriteHistory} {j : Nat} {e : MemoryEntry} :
    ∀ {i : Nat}, (j, e) ∈ h.below i → h j = some e
  | 0, hmem => by cases hmem
  | i + 1, hmem => by
    unfold WriteHistory.below at hmem
    split at hmem
    · next e' he =>
      rcases List.mem_cons.mp hmem with heq | hmem
      · obtain ⟨rfl, rfl⟩ := Prod.mk.inj heq
        exact he
      · exact eq_of_mem_below hmem
    · exact eq_of_mem_below hmem

theorem MvMemory.Holds.below {m : MvMemory} {written : WrittenValues} (h : m.Holds written)
    (location : MemoryLocationHash) (txIdx : Nat) :
    HoldAll (written location) (m.entriesBelow location txIdx) := by
  intro i k value hmem
  unfold entriesBelow at hmem
  split at hmem
  · next history hdata =>
    apply h location i k value
    rw [entry, hdata]
    exact WriteHistory.eq_of_mem_below hmem
  · cases hmem

/-- Validation of a location compares its origins with the entries below the reader; the case of a
location without a map is no exception. -/
theorem checkOrigins_of_checkLocation {m : MvMemory} {txIdx : Nat} {location : MemoryLocationHash}
    {origins : ReadOrigins} (h : checkLocation m.data txIdx location origins = true) :
    checkOrigins origins (m.entriesBelow location txIdx) = true := by
  unfold checkLocation at h
  unfold entriesBelow
  split at h
  · exact h
  · obtain ⟨hlength, hlast⟩ : origins.length = 1 ∧ origins.getLast? = some .storage := by
      simpa using h
    obtain ⟨o, rfl⟩ := List.length_eq_one_iff.mp hlength
    obtain rfl : o = .storage := by simpa using hlast
    rfl

/-- An origin in the memory stands while the closest entry below has its version. -/
theorem checkOrigins_cons {v : TxVersion} {origins : ReadOrigins}
    {entries : List (Nat × MemoryEntry)}
    (h : checkOrigins (.mvMemory v :: origins) entries = true) :
    ∃ value rest, entries = (v.txIdx, .data v.txIncarnation value) :: rest ∧
      checkOrigins origins rest = true := by
  match entries with
  | [] => cases h
  | (i, .estimate) :: rest => cases h
  | (i, .data k value) :: rest =>
    unfold checkOrigins at h
    split_ifs at h with hversion
    rw [not_or, not_not, not_not] at hversion
    obtain ⟨rfl, rfl⟩ := hversion
    exact ⟨value, rest, rfl, h⟩

theorem HoldAll.tail {wrote : TxVersion → MemoryValue} {p : Nat × MemoryEntry}
    {entries : List (Nat × MemoryEntry)} (h : HoldAll wrote (p :: entries)) :
    HoldAll wrote entries :=
  fun i k value hmem => h i k value (List.mem_cons_of_mem _ hmem)

theorem ReadSet.mem_of_origins_ne_nil {readSet : ReadSet} {l : MemoryLocationHash}
    (h : readSet.origins l ≠ []) : (l, readSet.origins l) ∈ readSet := by
  unfold ReadSet.origins at h ⊢
  cases hlookup : readSet.lookup l with
  | none =>
    rw [hlookup] at h
    exact absurd rfl h
  | some origins => exact AssocList.mem_of_lookup_eq_some hlookup

/-! ## Chains of lazy updates -/

namespace LazyEvaluation

/-- How a recorded chain of origins goes on after the walk: with the storage unless the walk ended in
an absolute value. -/
def ending (eval : LazyEvaluation) : ReadOrigins :=
  if eval.finalAccount.isSome then [] else [.storage]

theorem walk_newOrigins {readOrigins : ReadOrigins} {eval : LazyEvaluation} :
    ∀ {entries : List (Nat × MemoryEntry)} {acc : LazyEvaluation},
      walk readOrigins entries acc = .ok eval →
        ∃ origins, eval.newOrigins = acc.newOrigins ++ origins
  | [], acc, h => by
    cases h
    exact ⟨[], by simp⟩
  | (i, .estimate) :: entries, acc, h => by cases h
  | (i, .data k value) :: entries, acc, h => by
    simp only [walk] at h
    split_ifs at h
    cases value with
    | basic account =>
      cases h
      exact ⟨_, rfl⟩
    | lazyRecipient addition | lazySender subtraction =>
      obtain ⟨origins, horigins⟩ := walk_newOrigins h
      exact ⟨.mvMemory ⟨i, k⟩ :: origins, by simpa using horigins⟩
    | codeHash _ | storage _ | selfDestructed => cases h

/-- A walk that finds no origin visits nothing. -/
theorem walk_eq_self {readOrigins : ReadOrigins} {eval : LazyEvaluation}
    {entries : List (Nat × MemoryEntry)} {acc : LazyEvaluation}
    (h : walk readOrigins entries acc = .ok eval) (hsame : eval.newOrigins = acc.newOrigins) :
    eval = acc := by
  match entries with
  | [] => exact (Except.ok.inj h).symm
  | (i, .estimate) :: entries => cases h
  | (i, .data k value) :: entries =>
    simp only [walk] at h
    split_ifs at h
    cases value with
    | basic account =>
      cases h
      simp at hsame
    | lazyRecipient addition | lazySender subtraction =>
      obtain ⟨origins, horigins⟩ := walk_newOrigins h
      simp [hsame] at horigins
    | codeHash _ | storage _ | selfDestructed => cases h

/-- The walk reads the same from another memory in which the origins it found still stand. -/
theorem walk_congr {wrote : TxVersion → MemoryValue} {readOrigins origins : ReadOrigins}
    {eval : LazyEvaluation} :
    ∀ {entries entries' : List (Nat × MemoryEntry)} {acc : LazyEvaluation},
      HoldAll wrote entries → HoldAll wrote entries' → acc.finalAccount = none →
      walk readOrigins entries acc = .ok eval → eval.newOrigins = acc.newOrigins ++ origins →
      checkOrigins (origins ++ eval.ending) entries' = true →
        walk readOrigins entries' acc = .ok eval
  | [], entries', acc, _, _, hnone, h, horigins, hcheck => by
    cases h
    obtain rfl : origins = [] := by simpa using horigins
    -- only an empty history stands for the storage
    cases entries' with
    | nil => rfl
    | cons p rest => simp [ending, hnone, checkOrigins] at hcheck
  | (i, .estimate) :: entries, _, _, _, _, _, h, _, _ => by cases h
  | (i, .data k value) :: entries, entries', acc, hentries, hentries', hnone, h, horigins, hcheck => by
    -- the closest entry of the other memory has the same version, so that it holds the same value
    have hhead : ∀ {os : ReadOrigins}, checkOrigins (.mvMemory ⟨i, k⟩ :: os) entries' = true →
        ∃ rest, entries' = (i, .data k value) :: rest ∧ checkOrigins os rest = true := by
      intro os hcheck
      obtain ⟨value', rest, rfl, hrest⟩ := checkOrigins_cons hcheck
      have hvalue := hentries i k value List.mem_cons_self
      have hvalue' := hentries' i k value' List.mem_cons_self
      exact ⟨rest, by rw [hvalue, hvalue'], hrest⟩
    simp only [walk] at h
    split_ifs at h with hprev
    cases value with
    | basic account =>
      cases h
      obtain rfl : origins = [.mvMemory ⟨i, k⟩] := by simpa using horigins.symm
      obtain ⟨rest, rfl, -⟩ := hhead hcheck
      simp only [walk, if_neg hprev]
    | lazyRecipient addition =>
      obtain ⟨origins', horigins'⟩ := walk_newOrigins h
      obtain rfl : origins = .mvMemory ⟨i, k⟩ :: origins' := by
        rw [horigins] at horigins'
        simpa using horigins'
      obtain ⟨rest, rfl, hrest⟩ := hhead hcheck
      simp only [walk, if_neg hprev]
      exact walk_congr hentries.tail hentries'.tail (by simpa using hnone) h horigins' hrest
    | lazySender subtraction =>
      obtain ⟨origins', horigins'⟩ := walk_newOrigins h
      obtain rfl : origins = .mvMemory ⟨i, k⟩ :: origins' := by
        rw [horigins] at horigins'
        simpa using horigins'
      obtain ⟨rest, rfl, hrest⟩ := hhead hcheck
      simp only [walk, if_neg hprev]
      exact walk_congr hentries.tail hentries'.tail (by simpa using hnone) h horigins' hrest
    | codeHash _ | storage _ | selfDestructed => cases h

/-- The walk over the values that a chain of origins stands for. -/
def replay (wrote : TxVersion → MemoryValue) : ReadOrigins → LazyEvaluation → LazyEvaluation
  | .mvMemory v :: origins, acc =>
    let acc := { acc with newOrigins := acc.newOrigins ++ [.mvMemory v] }
    match wrote v with
    | .basic account => { acc with finalAccount := some account }
    | .lazyRecipient addition => replay wrote origins (acc.addRecipient addition)
    | .lazySender subtraction => replay wrote origins (acc.addSender subtraction)
    | _ => acc
  | _, acc => acc

/-- What the walk accumulates is determined by the origins it finds. A longer chain that agrees
with them stands for the same. -/
theorem walk_eq_replay {wrote : TxVersion → MemoryValue} {readOrigins origins more : ReadOrigins}
    {eval : LazyEvaluation} :
    ∀ {entries : List (Nat × MemoryEntry)} {acc : LazyEvaluation},
      HoldAll wrote entries → acc.finalAccount = none →
      walk readOrigins entries acc = .ok eval → eval.newOrigins = acc.newOrigins ++ origins →
      (eval.finalAccount = none → more = [.storage]) →
        replay wrote (origins ++ more) acc = eval
  | [], acc, _, hnone, h, horigins, hmore => by
    cases h
    obtain rfl : origins = [] := by simpa using horigins
    rw [hmore hnone]
    rfl
  | (i, .estimate) :: entries, _, _, _, h, _, _ => by cases h
  | (i, .data k value) :: entries, acc, hentries, hnone, h, horigins, hmore => by
    have hvalue := hentries i k value List.mem_cons_self
    simp only [walk] at h
    split_ifs at h
    cases value with
    | basic account =>
      cases h
      obtain rfl : origins = [.mvMemory ⟨i, k⟩] := by simpa using horigins.symm
      simp [replay, ← hvalue]
    | lazyRecipient addition | lazySender subtraction =>
      obtain ⟨origins', horigins'⟩ := walk_newOrigins h
      obtain rfl : origins = .mvMemory ⟨i, k⟩ :: origins' := by
        rw [horigins] at horigins'
        simpa using horigins'
      simp only [List.cons_append, replay, ← hvalue]
      exact walk_eq_replay hentries.tail (by simpa using hnone) h horigins' hmore
    | codeHash _ | storage _ | selfDestructed => cases h

/-- A walk agrees with the origins of an earlier read as far as it goes. -/
theorem walk_prefix {readOrigins origins : ReadOrigins} {eval : LazyEvaluation}
    (hnonempty : readOrigins ≠ []) :
    ∀ {entries : List (Nat × MemoryEntry)} {acc : LazyEvaluation},
      walk readOrigins entries acc = .ok eval → eval.newOrigins = acc.newOrigins ++ origins →
        origins <+: readOrigins.drop acc.newOrigins.length
  | [], acc, h, horigins => by
    cases h
    obtain rfl : origins = [] := by simpa using horigins
    exact List.nil_prefix
  | (i, .estimate) :: entries, _, h, _ => by cases h
  | (i, .data k value) :: entries, acc, h, horigins => by
    simp only [walk] at h
    split_ifs at h with hprev
    have horigin : readOrigins[acc.newOrigins.length]? = some (.mvMemory ⟨i, k⟩) := by
      by_contra hne
      exact hprev ⟨hnonempty, hne⟩
    cases value with
    | basic account =>
      cases h
      obtain rfl : origins = [.mvMemory ⟨i, k⟩] := by simpa using horigins.symm
      exact cons_prefix_drop.mpr ⟨horigin, List.nil_prefix⟩
    | lazyRecipient addition | lazySender subtraction =>
      obtain ⟨origins', horigins'⟩ := walk_newOrigins h
      obtain rfl : origins = .mvMemory ⟨i, k⟩ :: origins' := by
        rw [horigins] at horigins'
        simpa using horigins'
      have ih := walk_prefix hnonempty h horigins'
      refine cons_prefix_drop.mpr ⟨horigin, ?_⟩
      simpa using ih
    | codeHash _ | storage _ | selfDestructed => cases h

end LazyEvaluation

/-- Fewer origins stand wherever more do. -/
theorem checkOrigins_append {origins more : ReadOrigins} {entries : List (Nat × MemoryEntry)}
    (h : checkOrigins (origins ++ more) entries = true) : checkOrigins origins entries = true := by
  induction origins generalizing entries with
  | nil => cases entries <;> rfl
  | cons o origins ih =>
    cases o with
    | mvMemory v =>
      obtain ⟨value, rest, rfl, hrest⟩ := checkOrigins_cons h
      simpa [checkOrigins] using ih hrest
    | storage =>
      cases entries with
      | nil => exact ih h
      | cons p rest => cases h

namespace Vm

variable {T : Type} {vm : Vm T} {m m' : MvMemory} {written : WrittenValues} {txIdx : Nat}
  {db db' : VmDb} {address : Address}

/-! ## Reads of accounts -/

/-- The account that a walk ends in, from the storage when it found no absolute value. -/
def accountOf (vm : Vm T) (address : Address) (eval : LazyEvaluation) : Option AccountBasic :=
  match eval.finalAccount with
  | some account => some (eval.apply account)
  | none =>
    match vm.storage.basic address with
    | .ok (some account) => some (eval.apply account)
    | .ok none => if 0 < eval.balanceAddition then some (eval.apply .default) else none
    | .error _ => none

theorem fallBackToStorage_eq_ok {readOrigins : ReadOrigins} {eval eval' : LazyEvaluation}
    (h : vm.fallBackToStorage readOrigins address eval = .ok eval') :
    eval'.newOrigins = eval.newOrigins ++ eval.ending ∧
      eval'.finalAccount.map eval'.apply = vm.accountOf address eval ∧
      (readOrigins ≠ [] → eval.finalAccount = none →
        readOrigins.length = eval.newOrigins.length + 1 ∧
          readOrigins.getLast? = some .storage) := by
  unfold fallBackToStorage at h
  cases hfinal : eval.finalAccount with
  | some account =>
    rw [hfinal] at h
    cases h
    simp [LazyEvaluation.ending, accountOf, hfinal]
  | none =>
    simp only [hfinal] at h
    split_ifs at h with hinconsistent hpos
    all_goals
      have hconsistent : readOrigins ≠ [] → readOrigins.length = eval.newOrigins.length + 1 ∧
          readOrigins.getLast? = some .storage := by
        intro hne
        simp only [List.length_append, List.length_singleton] at hinconsistent
        tauto
      split at h
      · next hstorage =>
        cases h
        exact ⟨by simp [LazyEvaluation.ending, hfinal],
          by simp only [accountOf, hfinal, hstorage]; rfl, fun hne _ => hconsistent hne⟩
      · next hstorage =>
        cases h
        refine ⟨by simp [LazyEvaluation.ending, hfinal], ?_, fun hne _ => hconsistent hne⟩
        simp only [accountOf, hfinal, hstorage]
        first | rw [if_pos hpos] | rw [if_neg hpos]
        rfl
      · cases h

theorem origins_registered {location l : MemoryLocationHash} {newOrigins : ReadOrigins} :
    (registered db location newOrigins).readSet.origins l =
      if l = location ∧ db.readSet.origins location = [] then newOrigins
      else db.readSet.origins l := by
  unfold registered
  by_cases hnil : db.readSet.origins location = []
  · rw [if_pos hnil, ReadSet.origins_insert]
    simp only [hnil, and_true]
  · rw [if_neg hnil, if_neg (by simp [hnil])]

/-- The origins of an account after a successful read: those that the walk found, with an ending that
is the storage unless the walk ended in an absolute value. -/
theorem readBasic_origins {account : Option AccountBasic}
    (h : vm.readBasic m txIdx db address = .ok (db', account)) :
    ∃ eval more, LazyEvaluation.walk (db.readSet.origins (vm.hashBasic db address))
        (m.entriesBelow (vm.hashBasic db address) txIdx) .start = .ok eval ∧
      db'.readSet.origins (vm.hashBasic db address) = eval.newOrigins ++ more ∧
      (eval.finalAccount = none → more = [.storage]) ∧
      account = vm.accountOf address eval := by
  obtain ⟨eval, eval', hwalk, hfall, rfl, rfl, -⟩ := readBasic_eq_ok_iff.mp h
  obtain ⟨horigins, haccount, hconsistent⟩ := fallBackToStorage_eq_ok hfall
  rw [origins_registered]
  by_cases hnil : db.readSet.origins (vm.hashBasic db address) = []
  · refine ⟨eval, eval.ending, hwalk, by rw [if_pos ⟨rfl, hnil⟩, horigins], ?_, haccount⟩
    intro hnone
    simp [LazyEvaluation.ending, hnone]
  · obtain ⟨more, hmore⟩ : eval.newOrigins <+: db.readSet.origins (vm.hashBasic db address) := by
      have hstart : eval.newOrigins = LazyEvaluation.start.newOrigins ++ eval.newOrigins := by
        simp [LazyEvaluation.start]
      simpa [LazyEvaluation.start] using LazyEvaluation.walk_prefix hnil hwalk hstart
    refine ⟨eval, more, hwalk, by rw [if_neg (by simp [hnil]), hmore], ?_, haccount⟩
    intro hnone
    obtain ⟨hlength, hlast⟩ := hconsistent hnil hnone
    have hchain := eq_append_storage_iff.mp ⟨⟨more, hmore⟩, hlength, hlast⟩
    rw [← hmore] at hchain
    exact List.append_cancel_left hchain

/-- The account that a chain of origins stands for. -/
theorem readBasic_eq_accountOf (hm : m.Holds written) {account : Option AccountBasic}
    (h : vm.readBasic m txIdx db address = .ok (db', account)) :
    account = vm.accountOf address (LazyEvaluation.replay (written (vm.hashBasic db address))
      (db'.readSet.origins (vm.hashBasic db address)) .start) := by
  obtain ⟨eval, more, hwalk, horigins, hmore, haccount⟩ := readBasic_origins h
  rw [horigins, LazyEvaluation.walk_eq_replay (hm.below _ _) rfl hwalk (by simp [LazyEvaluation.start]) hmore]
  exact haccount

theorem readBasic_origins_ne_nil {account : Option AccountBasic}
    (h : vm.readBasic m txIdx db address = .ok (db', account)) :
    db'.readSet.origins (vm.hashBasic db address) ≠ [] := by
  obtain ⟨eval, more, hwalk, horigins, hmore, -⟩ := readBasic_origins h
  rw [horigins]
  intro hnil
  obtain ⟨hnew, hrest⟩ := List.append_eq_nil_iff.mp hnil
  have hnone : eval.finalAccount = none := by rw [LazyEvaluation.walk_eq_self hwalk hnew]; rfl
  rw [hmore hnone] at hrest
  cases hrest

/-- The read returns the same from another memory in which the origins it left still stand. -/
theorem readBasic_congr (hm : m.Holds written) (hm' : m'.Holds written)
    {account : Option AccountBasic} (h : vm.readBasic m txIdx db address = .ok (db', account))
    (hcheck : checkOrigins (db'.readSet.origins (vm.hashBasic db address))
      (m'.entriesBelow (vm.hashBasic db address) txIdx) = true) :
    vm.readBasic m' txIdx db address = .ok (db', account) := by
  obtain ⟨eval, more, hwalk, horigins, hmore, -⟩ := readBasic_origins h
  obtain ⟨eval₁, eval', hwalk₁, hrest⟩ := readBasic_eq_ok_iff.mp h
  obtain rfl : eval₁ = eval := by
    rw [hwalk] at hwalk₁
    exact (Except.ok.inj hwalk₁).symm
  refine readBasic_eq_ok_iff.mpr ⟨eval₁, eval', ?_, hrest⟩
  have hstart : eval₁.newOrigins = LazyEvaluation.start.newOrigins ++ eval₁.newOrigins := by
    simp [LazyEvaluation.start]
  refine LazyEvaluation.walk_congr (hm.below _ _) (hm'.below _ _) rfl hwalk hstart ?_
  rw [horigins] at hcheck
  unfold LazyEvaluation.ending
  cases hfinal : eval₁.finalAccount with
  | none =>
    rw [hmore hfinal] at hcheck
    exact hcheck
  | some account => simpa using checkOrigins_append hcheck

/-! ## Reads of code hashes and slots -/

/-- Where `get_code_hash` finds the code hash. -/
def codeHashSource (vm : Vm T) (address : Address) (entries : List (Nat × MemoryEntry)) :
    Except ReadError (ReadOrigin × Option B256) :=
  match entries.head? with
  | some (_, .data _ .selfDestructed) => .error .selfDestructedAccount
  | some (i, .data k (.codeHash codeHash)) => .ok (.mvMemory ⟨i, k⟩, some codeHash)
  | _ => ((vm.storage.codeHash address).mapError .storageError).map fun h => (.storage, h)

/-- Where `storage` finds the value of a slot. -/
def storageSource (vm : Vm T) (address : Address) (index : U256)
    (entries : List (Nat × MemoryEntry)) : Except ReadError (ReadOrigin × U256) :=
  match entries.head? with
  | some (i, .data k (.storage value)) => .ok (.mvMemory ⟨i, k⟩, value)
  | some (i, .estimate) => .error (.blocking i)
  | some _ => .error .invalidMemoryValueType
  | none => ((vm.storage.storage address index).mapError .storageError).map fun v => (.storage, v)

/-- A read with one origin: from its source, if an earlier read had the same. -/
def readSource {α : Type} (source : List (Nat × MemoryEntry) → Except ReadError (ReadOrigin × α))
    (m : MvMemory) (txIdx : Nat) (db : VmDb) (location : MemoryLocationHash) (r : VmDb × α) : Prop :=
  ∃ origin origins, source (m.entriesBelow location txIdx) = .ok (origin, r.2) ∧
    pushOrigin (db.readSet.origins location) origin = .ok origins ∧
    r.1 = { db with readSet := db.readSet.insert location origins }

theorem map_eq_ok {ε α β : Type} {x : Except ε α} {f : α → β} {b : β} :
    x.map f = .ok b ↔ ∃ a, x = .ok a ∧ f a = b := by
  cases x <;> simp [Except.map]

/-- The fallback to the storage, as a source. -/
theorem pushed_storage_iff {α : Type} {readOrigins : ReadOrigins} {location : MemoryLocationHash}
    {x : Except String α} {value : α} :
    (do
      let origins ← pushOrigin readOrigins .storage
      let value ← x.mapError .storageError
      .ok ({ db with readSet := db.readSet.insert location origins }, value) :
      Except ReadError (VmDb × α)) = .ok (db', value) ↔
    ∃ origin origins,
      (x.mapError ReadError.storageError).map (fun value => (ReadOrigin.storage, value)) =
        .ok (origin, value) ∧ pushOrigin readOrigins origin = .ok origins ∧
      db' = { db with readSet := db.readSet.insert location origins } := by
  simp only [bind_eq_ok, map_eq_ok, Except.ok.injEq, Prod.mk.injEq]
  constructor
  · rintro ⟨origins, hpush, _, hsource, rfl, rfl⟩
    exact ⟨.storage, origins, ⟨_, hsource, rfl, rfl⟩, hpush, rfl⟩
  · rintro ⟨_, origins, ⟨_, hsource, rfl, rfl⟩, hpush, rfl⟩
    exact ⟨origins, hpush, _, hsource, rfl, rfl⟩

theorem getCodeHash_eq_ok_iff {codeHash : Option B256} :
    vm.getCodeHash m txIdx db address = .ok (db', codeHash) ↔
      readSource (vm.codeHashSource address) m txIdx db (vm.hash (.codeHash address))
        (db', codeHash) := by
  unfold getCodeHash readSource codeHashSource
  simp only
  generalize (m.entriesBelow (vm.hash (.codeHash address)) txIdx).head? = head
  generalize db.readSet.origins (vm.hash (.codeHash address)) = readOrigins
  rcases head with _ | ⟨i, _ | _⟩
  case some.data k value =>
    cases value with
    | selfDestructed => simp
    | codeHash hash =>
      simp only [bind_eq_ok, Except.ok.injEq, Prod.mk.injEq]
      constructor
      · rintro ⟨origins, hpush, rfl, rfl⟩
        exact ⟨_, origins, ⟨rfl, rfl⟩, hpush, rfl⟩
      · rintro ⟨_, origins, ⟨rfl, rfl⟩, hpush, rfl⟩
        exact ⟨origins, hpush, rfl, rfl⟩
    | basic _ | storage _ | lazyRecipient _ | lazySender _ => exact pushed_storage_iff
  all_goals exact pushed_storage_iff

theorem readStorage_eq_ok_iff {index value : U256} :
    vm.readStorage m txIdx db address index = .ok (db', value) ↔
      readSource (vm.storageSource address index) m txIdx db (vm.hash (.storage address index))
        (db', value) := by
  unfold readStorage readSource storageSource
  simp only
  generalize (m.entriesBelow (vm.hash (.storage address index)) txIdx).head? = head
  generalize db.readSet.origins (vm.hash (.storage address index)) = readOrigins
  rcases head with _ | ⟨i, _ | _⟩
  case none => exact pushed_storage_iff
  case some.estimate => simp
  case some.data k value =>
    cases value with
    | storage value =>
      simp only [bind_eq_ok, Except.ok.injEq, Prod.mk.injEq]
      constructor
      · rintro ⟨origins, hpush, rfl, rfl⟩
        exact ⟨_, origins, ⟨rfl, rfl⟩, hpush, rfl⟩
      · rintro ⟨_, origins, ⟨rfl, rfl⟩, hpush, rfl⟩
        exact ⟨origins, hpush, rfl, rfl⟩
    | basic _ | codeHash _ | lazyRecipient _ | lazySender _ | selfDestructed => simp

/-- What a source yields comes from the closest entry, or is what it yields without any entry. -/
def IsSource {α : Type} (source : List (Nat × MemoryEntry) → Except ReadError (ReadOrigin × α)) :
    Prop :=
  ∀ {entries origin a}, source entries = .ok (origin, a) →
    (∃ v value rest, origin = .mvMemory v ∧
      entries = (v.txIdx, .data v.txIncarnation value) :: rest ∧
      ∀ rest', source ((v.txIdx, .data v.txIncarnation value) :: rest') = .ok (origin, a)) ∨
    (origin = .storage ∧ source [] = .ok (.storage, a))

theorem isSource_codeHashSource : IsSource (vm.codeHashSource address) := by
  intro entries origin a h
  match entries with
  | [] | (_, .estimate) :: _ | (_, .data _ (.basic _)) :: _ | (_, .data _ (.storage _)) :: _
  | (_, .data _ (.lazyRecipient _)) :: _ | (_, .data _ (.lazySender _)) :: _ =>
    obtain ⟨_, hstorage, heq⟩ := map_eq_ok.mp h
    cases heq
    exact .inr ⟨rfl, h⟩
  | (_, .data _ .selfDestructed) :: _ => cases h
  | (i, .data k (.codeHash hash)) :: rest =>
    cases h
    exact .inl ⟨⟨i, k⟩, _, rest, rfl, rfl, fun _ => rfl⟩

theorem isSource_storageSource {index : U256} : IsSource (vm.storageSource address index) := by
  intro entries origin a h
  match entries with
  | [] =>
    obtain ⟨_, hstorage, heq⟩ := map_eq_ok.mp h
    cases heq
    exact .inr ⟨rfl, h⟩
  | (_, .estimate) :: _ | (_, .data _ (.basic _)) :: _ | (_, .data _ (.codeHash _)) :: _
  | (_, .data _ (.lazyRecipient _)) :: _ | (_, .data _ (.lazySender _)) :: _
  | (_, .data _ .selfDestructed) :: _ => cases h
  | (i, .data k (.storage value)) :: rest =>
    cases h
    exact .inl ⟨⟨i, k⟩, _, rest, rfl, rfl, fun _ => rfl⟩

section Source

variable {α : Type} {source : List (Nat × MemoryEntry) → Except ReadError (ReadOrigin × α)}
  {wrote : TxVersion → MemoryValue} {entries entries' : List (Nat × MemoryEntry)}
  {origin : ReadOrigin} {a a' : α}

/-- Two entries of one version hold the same value. -/
theorem IsSource.determined (hsource : IsSource source) (hentries : HoldAll wrote entries)
    (hentries' : HoldAll wrote entries') (h : source entries = .ok (origin, a))
    (h' : source entries' = .ok (origin, a')) : a = a' := by
  rcases hsource h with ⟨v, value, rest, rfl, rfl, hfrom⟩ | ⟨rfl, hstorage⟩
  · rcases hsource h' with ⟨v', value', rest', heq, rfl, -⟩ | ⟨heq, -⟩
    · obtain rfl : v = v' := ReadOrigin.mvMemory.inj heq
      have hvalue := hentries _ _ _ List.mem_cons_self
      have hvalue' := hentries' _ _ _ List.mem_cons_self
      rw [hvalue', ← hvalue, hfrom rest'] at h'
      simpa using h'
    · cases heq
  · rcases hsource h' with ⟨v', value', rest', heq, -, -⟩ | ⟨-, hstorage'⟩
    · cases heq
    · rw [hstorage] at hstorage'
      simpa using hstorage'

/-- A source yields the same wherever its origin stands. -/
theorem IsSource.congr (hsource : IsSource source) (hentries : HoldAll wrote entries)
    (hentries' : HoldAll wrote entries') (h : source entries = .ok (origin, a))
    (hcheck : checkOrigins [origin] entries' = true) : source entries' = .ok (origin, a) := by
  rcases hsource h with ⟨v, value, rest, rfl, rfl, hfrom⟩ | ⟨rfl, hstorage⟩
  · obtain ⟨value', rest', rfl, -⟩ := checkOrigins_cons hcheck
    have hvalue := hentries _ _ _ List.mem_cons_self
    have hvalue' := hentries' _ _ _ List.mem_cons_self
    rw [hvalue', ← hvalue]
    exact hfrom rest'
  · cases entries' with
    | nil => exact hstorage
    | cons p rest => cases hcheck

end Source

theorem pushOrigin_eq_ok_iff {readOrigins origins : ReadOrigins} {origin : ReadOrigin} :
    pushOrigin readOrigins origin = .ok origins ↔
      (readOrigins = [] ∧ origins = [origin]) ∨
        (readOrigins.getLast? = some origin ∧ origins = readOrigins) := by
  unfold pushOrigin
  cases hlast : readOrigins.getLast? with
  | none =>
    rw [List.getLast?_eq_none_iff] at hlast
    subst hlast
    simp [eq_comm]
  | some prev =>
    have hne : readOrigins ≠ [] := by
      rintro rfl
      cases hlast
    by_cases heq : prev = origin
    · simp [heq, hne, eq_comm]
    · simp [heq, hne]

/-! ## The reads of an execution -/

/-- An atomic read of an execution. `VmDb::basic` reads the balance and nonce of an account, then its
code hash (unless it is the recipient, whose code hash was read before) and then the code. -/
inductive Query where
  | basic (address : Address)
  | codeHash (address : Address)
  | storage (address : Address) (index : U256)
  | code (codeHash : Option B256)
  deriving DecidableEq

/-- What the execution sees of a read. The code is determined by its hash. -/
inductive Answer where
  | basic (account : Option AccountBasic)
  | codeHash (codeHash : Option B256)
  | storage (value : U256)
  | code
  deriving DecidableEq

/-- One read. -/
def ask (vm : Vm T) (m : MvMemory) (txIdx : Nat) (db : VmDb) :
    Query → Except ReadError (VmDb × Answer)
  | .basic address => (vm.readBasic m txIdx db address).map fun (db, a) => (db, .basic a)
  | .codeHash address => (vm.getCodeHash m txIdx db address).map fun (db, h) => (db, .codeHash h)
  | .storage address index =>
    (vm.readStorage m txIdx db address index).map fun (db, v) => (db, .storage v)
  | .code codeHash => (vm.readCode m codeHash).map fun _ => (db, .code)

/-- The reads of an execution, each against the memory at its time. -/
def askAll (vm : Vm T) (txIdx : Nat) :
    List (MvMemory × Query) → VmDb → Except ReadError (VmDb × List Answer)
  | [], db => .ok (db, [])
  | (m, query) :: rest, db => do
    let (db, answer) ← vm.ask m txIdx db query
    let (db, answers) ← askAll vm txIdx rest db
    .ok (db, answer :: answers)

/-- The location a read records its origins at. -/
def location (vm : Vm T) (db : VmDb) : Query → Option MemoryLocationHash
  | .basic address => some (vm.hashBasic db address)
  | .codeHash address => some (vm.hash (.codeHash address))
  | .storage address index => some (vm.hash (.storage address index))
  | .code _ => none

/-- What origins stand for: the value that every read with these origins returned. -/
def Stands (vm : Vm T) (written : WrittenValues) (db : VmDb) (origins : ReadOrigins) :
    Query → Answer → Prop
  | .basic address, answer =>
    answer = .basic (vm.accountOf address
      (LazyEvaluation.replay (written (vm.hashBasic db address)) origins .start))
  | .codeHash address, answer => ∃ entries origin h,
    HoldAll (written (vm.hash (.codeHash address))) entries ∧
      vm.codeHashSource address entries = .ok (origin, h) ∧ origins.getLast? = some origin ∧
      answer = .codeHash h
  | .storage address index, answer => ∃ entries origin v,
    HoldAll (written (vm.hash (.storage address index))) entries ∧
      vm.storageSource address index entries = .ok (origin, v) ∧ origins.getLast? = some origin ∧
      answer = .storage v
  | .code _, answer => answer = .code

theorem Stands.unique {origins : ReadOrigins} {query : Query} {answer answer' : Answer}
    (h : vm.Stands written db origins query answer)
    (h' : vm.Stands written db origins query answer') : answer = answer' := by
  cases query with
  | basic address => exact Eq.trans h (Eq.symm h')
  | codeHash address =>
    obtain ⟨entries, origin, hash, hentries, hsource, hlast, rfl⟩ := h
    obtain ⟨entries', origin', hash', hentries', hsource', hlast', rfl⟩ := h'
    obtain rfl : origin = origin' := Option.some.inj (hlast.symm.trans hlast')
    rw [isSource_codeHashSource.determined hentries hentries' hsource hsource']
  | storage address index =>
    obtain ⟨entries, origin, value, hentries, hsource, hlast, rfl⟩ := h
    obtain ⟨entries', origin', value', hentries', hsource', hlast', rfl⟩ := h'
    obtain rfl : origin = origin' := Option.some.inj (hlast.symm.trans hlast')
    rw [isSource_storageSource.determined hentries hentries' hsource hsource']
  | code codeHash => exact Eq.trans h (Eq.symm h')

/-- How a read changes the read set: only at its location, and only if there was nothing yet. -/
structure Records (vm : Vm T) (db db' : VmDb) (query : Query) : Prop where
  same : db' = { db with readSet := db'.readSet }
  other : ∀ l, vm.location db query ≠ some l → db'.readSet.origins l = db.readSet.origins l
  kept : ∀ l, db.readSet.origins l ≠ [] → db'.readSet.origins l = db.readSet.origins l
  recorded : ∀ l, vm.location db query = some l → db'.readSet.origins l ≠ []

theorem records_of_readSource {α : Type}
    {source : List (Nat × MemoryEntry) → Except ReadError (ReadOrigin × α)} {a : α} {query : Query}
    {l : MemoryLocationHash} (hl : vm.location db query = some l)
    (h : readSource source m txIdx db l (db', a)) : vm.Records db db' query := by
  obtain ⟨origin, origins, -, hpush, hdb⟩ := h
  rw [pushOrigin_eq_ok_iff] at hpush
  have horigins : ∀ l', db'.readSet.origins l' =
      if l' = l then origins else db.readSet.origins l' := by
    intro l'
    rw [show db' = _ from hdb]
    exact ReadSet.origins_insert
  refine ⟨by rw [show db' = _ from hdb], fun l' hne => ?_, fun l' hnonempty => ?_, fun l' hl' => ?_⟩
  · rw [horigins, if_neg]
    rintro rfl
    exact hne hl
  · rw [horigins]
    split_ifs with heq
    · subst heq
      rcases hpush with ⟨hnil, -⟩ | ⟨-, rfl⟩
      · exact absurd hnil hnonempty
      · rfl
    · rfl
  · obtain rfl : l = l' := Option.some.inj (hl.symm.trans hl')
    rw [horigins, if_pos rfl]
    rcases hpush with ⟨-, rfl⟩ | ⟨hlast, rfl⟩
    · simp
    · rintro hnil
      rw [hnil] at hlast
      cases hlast

theorem records_of_readBasic {account : Option AccountBasic}
    (h : vm.readBasic m txIdx db address = .ok (db', account)) :
    vm.Records db db' (.basic address) := by
  have hnonempty := readBasic_origins_ne_nil h
  have hsame := readBasic_db h
  obtain ⟨eval, eval', -, -, rfl, -⟩ := readBasic_eq_ok_iff.mp h
  refine ⟨hsame, fun l hne => ?_, fun l hne => ?_, fun l hl => ?_⟩
  · rw [origins_registered, if_neg]
    rintro ⟨rfl, -⟩
    exact hne rfl
  · rw [origins_registered, if_neg]
    rintro ⟨rfl, hnil⟩
    exact hne hnil
  · obtain rfl : vm.hashBasic db address = l := Option.some.inj hl
    exact hnonempty

theorem records_of_ask {query : Query} {answer : Answer}
    (h : vm.ask m txIdx db query = .ok (db', answer)) : vm.Records db db' query := by
  cases query with
  | basic address =>
    obtain ⟨⟨db₁, account⟩, hread, heq⟩ := map_eq_ok.mp h
    cases heq
    exact records_of_readBasic hread
  | codeHash address =>
    obtain ⟨⟨db₁, hash⟩, hread, heq⟩ := map_eq_ok.mp h
    cases heq
    exact records_of_readSource rfl (getCodeHash_eq_ok_iff.mp hread)
  | storage address index =>
    obtain ⟨⟨db₁, value⟩, hread, heq⟩ := map_eq_ok.mp h
    cases heq
    exact records_of_readSource rfl (readStorage_eq_ok_iff.mp hread)
  | code codeHash =>
    obtain ⟨_, -, heq⟩ := map_eq_ok.mp h
    cases heq
    exact ⟨rfl, fun _ _ => rfl, fun _ _ => rfl, fun _ hl => by cases hl⟩

theorem getLast_of_readSource {α : Type}
    {source : List (Nat × MemoryEntry) → Except ReadError (ReadOrigin × α)} {a : α}
    {l : MemoryLocationHash} (h : readSource source m txIdx db l (db', a)) :
    ∃ origin, source (m.entriesBelow l txIdx) = .ok (origin, a) ∧
      (db'.readSet.origins l).getLast? = some origin := by
  obtain ⟨origin, origins, hsource, hpush, hdb⟩ := h
  refine ⟨origin, hsource, ?_⟩
  rw [show db' = _ from hdb, ReadSet.origins_insert, if_pos rfl]
  rcases pushOrigin_eq_ok_iff.mp hpush with ⟨-, rfl⟩ | ⟨hlast, rfl⟩
  · rfl
  · exact hlast

/-- What a read returns is a function of the origins it leaves. -/
theorem stands_of_ask (hm : m.Holds written) {query : Query} {answer : Answer}
    (h : vm.ask m txIdx db query = .ok (db', answer)) {l : MemoryLocationHash}
    (hl : ∀ l', vm.location db query = some l' → l = l') :
    vm.Stands written db (db'.readSet.origins l) query answer := by
  cases query with
  | basic address =>
    obtain ⟨⟨db₁, account⟩, hread, heq⟩ := map_eq_ok.mp h
    cases heq
    rw [hl _ rfl]
    exact congrArg Answer.basic (readBasic_eq_accountOf hm hread)
  | codeHash address =>
    obtain ⟨⟨db₁, hash⟩, hread, heq⟩ := map_eq_ok.mp h
    cases heq
    rw [hl _ rfl]
    obtain ⟨origin, hsource, hlast⟩ := getLast_of_readSource (getCodeHash_eq_ok_iff.mp hread)
    exact ⟨_, origin, hash, hm.below _ _, hsource, hlast, rfl⟩
  | storage address index =>
    obtain ⟨⟨db₁, value⟩, hread, heq⟩ := map_eq_ok.mp h
    cases heq
    rw [hl _ rfl]
    obtain ⟨origin, hsource, hlast⟩ := getLast_of_readSource (readStorage_eq_ok_iff.mp hread)
    exact ⟨_, origin, value, hm.below _ _, hsource, hlast, rfl⟩
  | code codeHash =>
    obtain ⟨_, -, heq⟩ := map_eq_ok.mp h
    cases heq
    rfl

/-- A location without a chain keeps a single origin. -/
theorem single_of_readSource {α : Type}
    {source : List (Nat × MemoryEntry) → Except ReadError (ReadOrigin × α)} {a : α}
    {l : MemoryLocationHash} (hsingle : (db.readSet.origins l).length ≤ 1)
    (h : readSource source m txIdx db l (db', a)) :
    ∃ origin, source (m.entriesBelow l txIdx) = .ok (origin, a) ∧
      db'.readSet.origins l = [origin] := by
  obtain ⟨origin, origins, hfound, hpush, hdb⟩ := h
  refine ⟨origin, hfound, ?_⟩
  rw [show db' = _ from hdb, ReadSet.origins_insert, if_pos rfl]
  rcases pushOrigin_eq_ok_iff.mp hpush with ⟨-, rfl⟩ | ⟨hlast, rfl⟩
  · rfl
  · match hos : db.readSet.origins l, hsingle with
    | [], _ =>
      rw [hos] at hlast
      cases hlast
    | [o], _ =>
      rw [hos] at hlast
      obtain rfl : o = origin := by simpa using hlast
      rfl

/-- A read of a single origin returns the same from another memory in which the origin stands. -/
theorem readSource_congr {α : Type}
    {source : List (Nat × MemoryEntry) → Except ReadError (ReadOrigin × α)} {a : α}
    {l : MemoryLocationHash} (hsource : IsSource source) (hm : m.Holds written)
    (hm' : m'.Holds written) (hsingle : (db.readSet.origins l).length ≤ 1)
    (h : readSource source m txIdx db l (db', a))
    (hcheck : checkOrigins (db'.readSet.origins l) (m'.entriesBelow l txIdx) = true) :
    readSource source m' txIdx db l (db', a) := by
  obtain ⟨origin, hfound, hone⟩ := single_of_readSource hsingle h
  obtain ⟨origin', origins, hfound', hpush, hdb⟩ := h
  obtain rfl : origin = origin' := by
    rw [hfound] at hfound'
    simpa using hfound'
  rw [hone] at hcheck
  exact ⟨origin, origins, hsource.congr (hm.below _ _) (hm'.below _ _) hfound hcheck, hpush, hdb⟩

theorem readCode_congr (hbytecodes : ∀ h, m.newBytecodes h ≠ none → m'.newBytecodes h ≠ none)
    {codeHash : Option B256} {code : Option Bytecode} (h : vm.readCode m codeHash = .ok code) :
    ∃ code', vm.readCode m' codeHash = .ok code' := by
  cases codeHash with
  | none => exact ⟨none, rfl⟩
  | some hash =>
    cases hnew' : m'.newBytecodes hash with
    | some code' => exact ⟨some code', by simp only [readCode, hnew']⟩
    | none =>
      have hnew : m.newBytecodes hash = none := by
        by_contra hne
        exact hbytecodes hash hne hnew'
      simp only [readCode, hnew] at h
      exact ⟨code, by simp only [readCode, hnew', h]⟩

/-- A read that keeps a single origin. -/
def Query.isSingle : Query → Bool
  | .codeHash _ | .storage _ _ => true
  | .basic _ | .code _ => false

/-- A read returns the same from another memory in which the origins it left still stand. -/
theorem ask_congr (hm : m.Holds written) (hm' : m'.Holds written)
    (hbytecodes : ∀ h, m.newBytecodes h ≠ none → m'.newBytecodes h ≠ none)
    {query : Query} {answer : Answer}
    (hsingle : query.isSingle = true → ∀ l, vm.location db query = some l →
      (db.readSet.origins l).length ≤ 1)
    (h : vm.ask m txIdx db query = .ok (db', answer))
    (hcheck : ∀ l, vm.location db query = some l →
      checkOrigins (db'.readSet.origins l) (m'.entriesBelow l txIdx) = true) :
    vm.ask m' txIdx db query = .ok (db', answer) := by
  cases query with
  | basic address =>
    obtain ⟨⟨db₁, account⟩, hread, heq⟩ := map_eq_ok.mp h
    cases heq
    exact map_eq_ok.mpr ⟨_, readBasic_congr hm hm' hread (hcheck _ rfl), rfl⟩
  | codeHash address =>
    obtain ⟨⟨db₁, hash⟩, hread, heq⟩ := map_eq_ok.mp h
    cases heq
    refine map_eq_ok.mpr ⟨_, getCodeHash_eq_ok_iff.mpr ?_, rfl⟩
    exact readSource_congr isSource_codeHashSource hm hm' (hsingle rfl _ rfl)
      (getCodeHash_eq_ok_iff.mp hread) (hcheck _ rfl)
  | storage address index =>
    obtain ⟨⟨db₁, value⟩, hread, heq⟩ := map_eq_ok.mp h
    cases heq
    refine map_eq_ok.mpr ⟨_, readStorage_eq_ok_iff.mpr ?_, rfl⟩
    exact readSource_congr isSource_storageSource hm hm' (hsingle rfl _ rfl)
      (readStorage_eq_ok_iff.mp hread) (hcheck _ rfl)
  | code codeHash =>
    obtain ⟨code, hread, heq⟩ := map_eq_ok.mp h
    cases heq
    obtain ⟨code', hread'⟩ := readCode_congr hbytecodes hread
    exact map_eq_ok.mpr ⟨code', hread', rfl⟩

/-- The origins of a location stay as its first read left them. -/
theorem askAll_kept : ∀ {steps : List (MvMemory × Query)} {db : VmDb} {answers : List Answer},
    vm.askAll txIdx steps db = .ok (db', answers) → ∀ l, db.readSet.origins l ≠ [] →
      db'.readSet.origins l = db.readSet.origins l
  | [], db, _, h, l, _ => by
    cases h
    rfl
  | (m, query) :: steps, db, answers, h, l, hne => by
    obtain ⟨⟨db₁, answer⟩, hask, hrest⟩ := bind_eq_ok.mp h
    obtain ⟨⟨db₂, rest⟩, hall, heq⟩ := bind_eq_ok.mp hrest
    cases heq
    have hkept := (records_of_ask hask).kept l hne
    rw [askAll_kept hall l (by rwa [hkept]), hkept]

/-- Each read returned what the origins left at its location stand for. -/
theorem askAll_stands : ∀ {steps : List (MvMemory × Query)} {db : VmDb} {answers : List Answer},
    (∀ p ∈ steps, p.1.Holds written) → vm.askAll txIdx steps db = .ok (db', answers) →
    ∀ {j : Nat} {query : Query} {answer : Answer}, (steps.map Prod.snd)[j]? = some query →
      answers[j]? = some answer →
        vm.Stands written db (db'.readSet.origins ((vm.location db query).getD 0)) query answer
  | [], _, _, _, _, j, query, _, hquery, _ => by simp at hquery
  | (m, query₀) :: steps, db, answers, hsteps, h, j, query, answer, hquery, hanswer => by
    obtain ⟨⟨db₁, answer₀⟩, hask, hrest⟩ := bind_eq_ok.mp h
    obtain ⟨⟨db₂, answers₁⟩, hall, heq⟩ := bind_eq_ok.mp hrest
    cases heq
    have hrecords := records_of_ask hask
    cases j with
    | zero =>
      obtain rfl : query₀ = query := by simpa using hquery
      obtain rfl : answer₀ = answer := by simpa using hanswer
      have hstands := stands_of_ask (hsteps _ List.mem_cons_self) hask
        (l := (vm.location db query₀).getD 0) (fun l' hl' => by rw [hl']; rfl)
      cases hl : vm.location db query₀ with
      | none =>
        cases query₀ with
        | code codeHash => exact hstands
        | _ => cases hl
      | some l =>
        rw [hl] at hstands
        have hkept := askAll_kept hall l (hrecords.recorded l hl)
        rw [Option.getD_some] at hstands ⊢
        rwa [hkept]
    | succ j =>
      have ih := askAll_stands (fun p hp => hsteps p (List.mem_cons_of_mem _ hp)) hall
        (by simpa using hquery) (by simpa using hanswer)
      rw [hrecords.same] at ih
      exact ih

/-- Every read has its answer. -/
theorem exists_answer : ∀ {steps : List (MvMemory × Query)} {db : VmDb} {answers : List Answer},
    vm.askAll txIdx steps db = .ok (db', answers) → ∀ {j : Nat} {query : Query},
      (steps.map Prod.snd)[j]? = some query → ∃ answer, answers[j]? = some answer
  | [], _, _, _, j, query, hquery => by simp at hquery
  | (m, query₀) :: steps, db, answers, h, j, query, hquery => by
    obtain ⟨⟨db₁, answer₀⟩, -, hrest⟩ := bind_eq_ok.mp h
    obtain ⟨⟨db₂, answers₁⟩, hall, heq⟩ := bind_eq_ok.mp hrest
    cases heq
    cases j with
    | zero => exact ⟨answer₀, rfl⟩
    | succ j =>
      obtain ⟨answer, hanswer⟩ := exists_answer hall (j := j) (by simpa using hquery)
      exact ⟨answer, by simpa using hanswer⟩

/-- No account read shares its location hash with a code hash or a slot read. -/
def AccountsApart (vm : Vm T) (db : VmDb) (queries : List Query) : Prop :=
  ∀ address, .basic address ∈ queries → ∀ query ∈ queries, query.isSingle = true →
    vm.location db query ≠ some (vm.hashBasic db address)

/-- The locations of code hashes and slots keep a single origin. -/
def KeepsSingle (vm : Vm T) (db : VmDb) (queries : List Query) : Prop :=
  ∀ query ∈ queries, query.isSingle = true → ∀ l, vm.location db query = some l →
    (db.readSet.origins l).length ≤ 1

theorem single_of_ask {query : Query} {answer : Answer} {l : MemoryLocationHash}
    (h : vm.ask m txIdx db query = .ok (db', answer)) (hquery : query.isSingle = true)
    (hl : vm.location db query = some l) (hsingle : (db.readSet.origins l).length ≤ 1) :
    (db'.readSet.origins l).length ≤ 1 := by
  cases query with
  | codeHash address =>
    obtain ⟨⟨db₁, hash⟩, hread, heq⟩ := map_eq_ok.mp h
    cases heq
    cases hl
    obtain ⟨origin, -, hone⟩ := single_of_readSource hsingle (getCodeHash_eq_ok_iff.mp hread)
    rw [hone]
    rfl
  | storage address index =>
    obtain ⟨⟨db₁, value⟩, hread, heq⟩ := map_eq_ok.mp h
    cases heq
    cases hl
    obtain ⟨origin, -, hone⟩ := single_of_readSource hsingle (readStorage_eq_ok_iff.mp hread)
    rw [hone]
    rfl
  | basic _ | code _ => cases hquery

theorem KeepsSingle.ask {query : Query} {queries : List Query} {answer : Answer}
    (hsingle : vm.KeepsSingle db (query :: queries)) (hapart : vm.AccountsApart db (query :: queries))
    (h : vm.ask m txIdx db query = .ok (db', answer)) : vm.KeepsSingle db' queries := by
  have hrecords := records_of_ask h
  intro q hq hqsingle l hl
  have hl' : vm.location db q = some l := by
    rw [hrecords.same] at hl
    exact hl
  have hbefore := hsingle q (List.mem_cons_of_mem _ hq) hqsingle l hl'
  by_cases hsame : vm.location db query = some l
  · cases query with
    | basic address =>
      -- an account shares no location with a single read
      exact absurd (hl'.trans hsame.symm)
        (hapart address List.mem_cons_self q (List.mem_cons_of_mem _ hq) hqsingle)
    | code codeHash => cases hsame
    | codeHash address => exact single_of_ask h rfl hsame hbefore
    | storage address index => exact single_of_ask h rfl hsame hbefore
  · rw [hrecords.other l hsame]
    exact hbefore

/-- The reads of an execution return the same from another memory in which all the origins they left
still stand. -/
theorem askAll_congr (hm' : m'.Holds written) :
    ∀ {steps : List (MvMemory × Query)} {db : VmDb} {answers : List Answer},
      (∀ p ∈ steps, p.1.Holds written) →
      (∀ p ∈ steps, ∀ h, p.1.newBytecodes h ≠ none → m'.newBytecodes h ≠ none) →
      vm.AccountsApart db (steps.map Prod.snd) → vm.KeepsSingle db (steps.map Prod.snd) →
      vm.askAll txIdx steps db = .ok (db', answers) →
      (∀ query ∈ steps.map Prod.snd, ∀ l, vm.location db query = some l →
        db'.readSet.origins l ≠ [] →
        checkOrigins (db'.readSet.origins l) (m'.entriesBelow l txIdx) = true) →
      vm.askAll txIdx (steps.map fun p => (m', p.2)) db = .ok (db', answers)
  | [], _, _, _, _, _, _, h, _ => h
  | (m, query) :: steps, db, answers, hsteps, hbytecodes, hapart, hsingle, h, hcheck => by
    obtain ⟨⟨db₁, answer⟩, hask, hrest⟩ := bind_eq_ok.mp h
    obtain ⟨⟨db₂, answers₁⟩, hall, heq⟩ := bind_eq_ok.mp hrest
    cases heq
    have hrecords := records_of_ask hask
    have hlocation : ∀ q, vm.location db₁ q = vm.location db q := by
      intro q
      rw [hrecords.same]
      cases q <;> rfl
    have hask' : vm.ask m' txIdx db query = .ok (db₁, answer) := by
      refine ask_congr (hsteps _ List.mem_cons_self) hm' (hbytecodes _ List.mem_cons_self)
        (fun hq l hl => hsingle query List.mem_cons_self hq l hl) hask fun l hl => ?_
      have hkept := askAll_kept hall l (hrecords.recorded l hl)
      rw [← hkept]
      exact hcheck query List.mem_cons_self l hl (hkept ▸ hrecords.recorded l hl)
    have hall' := askAll_congr hm' (fun p hp => hsteps p (List.mem_cons_of_mem _ hp))
      (fun p hp => hbytecodes p (List.mem_cons_of_mem _ hp))
      (fun a ha q hq => by
        rw [hlocation, hrecords.same]
        exact hapart a (List.mem_cons_of_mem _ ha) q (List.mem_cons_of_mem _ hq))
      (hsingle.ask hapart hask) hall
      (fun q hq l hl => hcheck q (List.mem_cons_of_mem _ hq) l ((hlocation q).symm.trans hl))
    simp only [List.map_cons, askAll]
    exact bind_eq_ok.mpr ⟨_, hask', bind_eq_ok.mpr ⟨_, hall', rfl⟩⟩

/-- **Validation is sound.** Let an execution make a sequence of reads, each against the memory of its
time, in which every version fixes what it wrote. If they all succeed, two reads of one location
returned the same. If, moreover, the read set passes validation on a later memory, the same reads
succeed against that memory and return what the execution saw. Bytecodes are never removed, and a
location hash identifies its location. -/
theorem validation_sound {steps : List (MvMemory × Query)} {answers : List Answer}
    (hstart : db.readSet = []) (hsteps : ∀ p ∈ steps, p.1.Holds written)
    (h : vm.askAll txIdx steps db = .ok (db', answers)) :
    (∀ (i j : Nat) (query : Query), (steps.map Prod.snd)[i]? = some query →
      (steps.map Prod.snd)[j]? = some query → answers[i]? = answers[j]?) ∧
    ∀ later : MvMemory, later.Holds written → vm.AccountsApart db (steps.map Prod.snd) →
      (∀ p ∈ steps, ∀ h, p.1.newBytecodes h ≠ none → later.newBytecodes h ≠ none) →
      (later.lastLocations txIdx).read = db'.readSet → later.validateReadLocations txIdx = true →
      vm.askAll txIdx (steps.map fun p => (later, p.2)) db = .ok (db', answers) := by
  refine ⟨fun i j query hi hj => ?_, fun later hlater hapart hbytecodes hread hvalid => ?_⟩
  · obtain ⟨answer, hanswer⟩ := exists_answer h hi
    obtain ⟨answer', hanswer'⟩ := exists_answer h hj
    have hstands := askAll_stands hsteps h hi hanswer
    have hstands' := askAll_stands hsteps h hj hanswer'
    rw [hanswer, hanswer', hstands.unique hstands']
  · have hsingle : vm.KeepsSingle db (steps.map Prod.snd) := by
      intro query _ _ l _
      rw [hstart]
      exact Nat.zero_le 1
    refine askAll_congr hlater hsteps hbytecodes hapart hsingle h fun query _ l _ hne => ?_
    rw [validateReadLocations, hread, List.all_eq_true] at hvalid
    exact checkOrigins_of_checkLocation (hvalid _ (ReadSet.mem_of_origins_ne_nil hne))

end Vm

namespace Sample

/-- The reads of an execution that asks for account 2 twice. -/
def queries : List Vm.Query :=
  [.basic 2, .storage counter 0, .codeHash 2, .basic 2]

def readSet : ReadSet :=
  [(hash (.basic 2), [.mvMemory ⟨2, 0⟩, .mvMemory ⟨1, 0⟩, .mvMemory ⟨0, 0⟩, .storage]),
    (hash (.storage counter 0), [.storage]), (hash (.codeHash 2), [.storage])]

/-- The memory after the read set of transaction 3 was recorded. -/
def validated : MvMemory :=
  paid.setLastLocations 3 ⟨readSet, []⟩

/-- What the entries of `paid` hold. -/
def written : WrittenValues := fun l v =>
  match paid.entry l v.txIdx with
  | some (.data _ value) => value
  | _ => .selfDestructed

theorem paid_holds : paid.Holds written := by
  intro l i k value h
  simp only [written, h]

end Sample

/-- Transaction 3 read account 2 above three lazy updates, and its read set is valid. -/
theorem validation_sound_sample :
    Sample.vm.askAll 3 (Sample.queries.map fun query => (Sample.validated, query))
        (Sample.vm.startDb ⟨0, 0⟩) =
      .ok ({ Sample.vm.startDb ⟨0, 0⟩ with readSet := Sample.readSet },
        [.basic (some ⟨2, 2⟩), .storage 0, .codeHash none, .basic (some ⟨2, 2⟩)]) := by
  have hsteps : ∀ p ∈ Sample.queries.map fun query => (Sample.paid, query),
      p.1.Holds Sample.written := by
    intro p hp
    obtain ⟨query, -, rfl⟩ := List.mem_map.mp hp
    exact Sample.paid_holds
  have hapart : Sample.vm.AccountsApart (Sample.vm.startDb ⟨0, 0⟩) Sample.queries := by
    intro address haddress query hquery hsingle
    simp only [Sample.queries, List.mem_cons, List.not_mem_nil, or_false, reduceCtorEq, false_or,
      Vm.Query.basic.injEq, or_self] at haddress hquery
    subst haddress
    rcases hquery with rfl | rfl | rfl | rfl
    · cases hsingle
    · decide +kernel
    · decide +kernel
    · cases hsingle
  exact (Vm.validation_sound rfl hsteps rfl).2 Sample.validated Sample.paid_holds hapart
    (fun p hp h hnew => by
      obtain ⟨query, -, rfl⟩ := List.mem_map.mp hp
      exact hnew) rfl (by decide +kernel)

end Pevm
