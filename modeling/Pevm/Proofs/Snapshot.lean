import Pevm.RpcStorage
import Mathlib.Tactic

/-!
# Replaying an RPC snapshot

Is a query that was answered over RPC answered the same by the in-memory storage of the snapshot?
Everything the cache holds is what the node says (`Faithful.account`, `Faithful.slots`), and nothing
that was cached is forgotten, but for one step: `basic` inserts a whole account with an empty slot
map, although another thread may have cached the account and slots of it since `basic` found it
missing. `keepsSlots` rules that step out, and `snapshot_replays` holds in every run without it;
`snapshot_drops_slot` is a run with it.

`Extends` is what a step keeps of the cache. `PcOk` and `Returned` are stable under it, so that the
invariant only has to be checked where a step changes something.
-/

namespace Pevm

open Interleaving

/-- No account is inserted over one that has slots other than zero. -/
def RpcConfig.keepsSlots : RpcAction → RpcStorage → Bool
  | .step thread, s =>
    match s.pc thread with
    | .basicInsertAccount address _ _ _ =>
      (s.cache.accounts address).all fun account => account.storage.all fun p => p.2 = 0
    | _ => true
  | .call _ _, _ => true

namespace Snapshot

/-- Every account that is cached stays so, as do the slots other than zero, the bytecodes and the
block hashes. -/
structure Extends (s s' : Snapshot) : Prop where
  accounts : ∀ a, s.accounts a ≠ none → s'.accounts a ≠ none
  slots : ∀ a account i v, s.accounts a = some account → account.storage.lookup i = some v →
    v ≠ 0 → ∃ account', s'.accounts a = some account' ∧ account'.storage.lookup i = some v
  bytecodes : ∀ h code, s.bytecodes h = some code → s'.bytecodes h = some code
  blockHashes : ∀ n h, s.blockHashes n = some h → s'.blockHashes n = some h

theorem Extends.refl (s : Snapshot) : s.Extends s :=
  ⟨fun _ h => h, fun _ account _ _ ha hi _ => ⟨account, ha, hi⟩, fun _ _ h => h, fun _ _ h => h⟩

end Snapshot

namespace RpcConfig

variable (cfg : RpcConfig)

/-- The bytecode of an account. -/
def bytecode (address : Address) : Bytecode :=
  cfg.newRaw (cfg.node.getCodeAt address)

/-- The code hash of an account. -/
def codeHash (address : Address) : Option B256 :=
  if (cfg.node.getCodeAt address).isEmpty then none else some (cfg.hashSlow (cfg.bytecode address))

/-- The balance and nonce of an account. -/
def account (address : Address) : AccountBasic :=
  ⟨cfg.node.getBalance address, cfg.node.getTransactionCount address⟩

/-- The value `storage` has fetched is that of the node. -/
def CallerOk (address : Address) : BasicCaller → Prop
  | .storage index value => value = cfg.node.getStorageAt address index
  | _ => True

/-- What a thread inside a call relies on. -/
def PcOk (cache : Snapshot) : RpcPc → Prop
  | .basicCheck address caller | .basicFetch address caller => cfg.CallerOk address caller
  | .basicInsertBytecode address caller account code =>
    account = cfg.account address ∧ code = cfg.bytecode address ∧
      (cfg.node.getCodeAt address).isEmpty = false ∧ cfg.isNew address = false ∧
      cfg.CallerOk address caller
  | .basicInsertAccount address caller account codeHash =>
    account = cfg.account address ∧ codeHash = cfg.codeHash address ∧
      cfg.isNew address = false ∧ cfg.CallerOk address caller ∧
      ∀ h, codeHash = some h → ∃ code, cache.bytecodes h = some code
  | .codeHashGet address => cfg.isNew address = false → cache.accounts address ≠ none
  | .codeByHashGet codeHash => ∃ code, cache.bytecodes codeHash = some code
  | .storageInsert address index value =>
    value = cfg.node.getStorageAt address index ∧
      (cfg.isNew address = false → cache.accounts address ≠ none)
  | .blockHashInsert number hash => hash = cfg.node.getBlockHash number
  | .idle | .storageCheck _ _ | .storageFetch _ _ | .blockHashCheck _ | .blockHashFetch _ => True

/-- A call returned what the node says, and the cache remembers it. -/
def Returned (cache : Snapshot) : StorageQuery → StorageAnswer → Prop
  | .basic address, answer =>
    answer = .basic (if cfg.isNew address then none else some (cfg.account address)) ∧
      (cfg.isNew address = false → cache.accounts address ≠ none)
  | .codeHash address, answer =>
    answer = .codeHash (if cfg.isNew address then none else cfg.codeHash address) ∧
      (cfg.isNew address = false → cache.accounts address ≠ none)
  | .codeByHash codeHash, answer =>
    ∃ code, answer = .codeByHash (some code) ∧ cache.bytecodes codeHash = some code
  | .storage address index, answer =>
    answer = .storage (cfg.node.getStorageAt address index) ∧
      (cfg.node.getStorageAt address index ≠ 0 →
        ∃ account, cache.accounts address = some account ∧
          account.storage.lookup index = some (cfg.node.getStorageAt address index))
  | .blockHash number, answer =>
    answer = .blockHash (cfg.node.getBlockHash number) ∧
      cache.blockHashes number = some (cfg.node.getBlockHash number)

variable {cfg} {cache cache' : Snapshot}

theorem PcOk.extends {pc : RpcPc} (h : cfg.PcOk cache pc) (hext : cache.Extends cache') :
    cfg.PcOk cache' pc := by
  cases pc with
  | basicInsertAccount address caller account codeHash =>
    obtain ⟨haccount, hcodeHash, hnew, hcaller, hcode⟩ := h
    refine ⟨haccount, hcodeHash, hnew, hcaller, fun h hh => ?_⟩
    obtain ⟨code, hcode⟩ := hcode h hh
    exact ⟨code, hext.bytecodes h code hcode⟩
  | codeHashGet address => exact fun hnew => hext.accounts address (h hnew)
  | codeByHashGet codeHash =>
    obtain ⟨code, hcode⟩ := h
    exact ⟨code, hext.bytecodes codeHash code hcode⟩
  | storageInsert address index value =>
    exact ⟨h.1, fun hnew => hext.accounts address (h.2 hnew)⟩
  | _ => exact h

theorem Returned.extends {query : StorageQuery} {answer : StorageAnswer}
    (h : cfg.Returned cache query answer) (hext : cache.Extends cache') :
    cfg.Returned cache' query answer := by
  cases query with
  | basic address => exact ⟨h.1, fun hnew => hext.accounts address (h.2 hnew)⟩
  | codeHash address => exact ⟨h.1, fun hnew => hext.accounts address (h.2 hnew)⟩
  | codeByHash codeHash =>
    obtain ⟨code, hanswer, hcode⟩ := h
    exact ⟨code, hanswer, hext.bytecodes codeHash code hcode⟩
  | storage address index =>
    refine ⟨h.1, fun hne => ?_⟩
    obtain ⟨account, haccount, hslot⟩ := h.2 hne
    exact hext.slots address account index _ haccount hslot hne
  | blockHash number => exact ⟨h.1, hext.blockHashes number _ h.2⟩

/-- The cache holds what the node says. -/
structure Sound (cfg : RpcConfig) (cache : Snapshot) : Prop where
  account : ∀ a account, cache.accounts a = some account →
    Snapshot.basicOf account = cfg.account a ∧ account.codeHash = cfg.codeHash a ∧
      cfg.isNew a = false
  slots : ∀ a account i v, cache.accounts a = some account →
    account.storage.lookup i = some v → v = cfg.node.getStorageAt a i
  bytecodes : ∀ h code, cache.bytecodes h = some code →
    ∃ a, code = cfg.bytecode a ∧ cfg.hashSlow (cfg.bytecode a) = h
  accountCode : ∀ a account h, cache.accounts a = some account → account.codeHash = some h →
    ∃ code, cache.bytecodes h = some code
  blockHashes : ∀ n h, cache.blockHashes n = some h → h = cfg.node.getBlockHash n

/-- The invariant of the threads. -/
structure Faithful (cfg : RpcConfig) (s : RpcStorage) : Prop where
  cache : cfg.Sound s.cache
  pc : ∀ thread, cfg.PcOk s.cache (s.pc thread)
  log : ∀ query answer, (query, answer) ∈ s.log → cfg.Returned s.cache query answer

/-! ## What the steps do to the cache -/

theorem Sound.insertBytecode (h : cfg.Sound cache) {address : Address} :
    cfg.Sound (cache.insertBytecode (cfg.hashSlow (cfg.bytecode address)) (cfg.bytecode address)) ∧
      cache.Extends
        (cache.insertBytecode (cfg.hashSlow (cfg.bytecode address)) (cfg.bytecode address)) := by
  have hsame : ∀ hash code, cache.bytecodes hash = some code →
      (cache.insertBytecode (cfg.hashSlow (cfg.bytecode address)) (cfg.bytecode address)).bytecodes
        hash = some code := by
    intro hash code hcode
    -- a bytecode of the same hash is the same bytecode
    obtain ⟨a, rfl, rfl⟩ := h.bytecodes hash code hcode
    by_cases heq : cfg.hashSlow (cfg.bytecode a) = cfg.hashSlow (cfg.bytecode address)
    · have hbytecode : cfg.bytecode a = cfg.bytecode address := cfg.hashSlow_inj a address heq
      simp [Snapshot.insertBytecode, hbytecode]
    · simpa [Snapshot.insertBytecode, heq] using hcode
  refine ⟨⟨h.account, h.slots, fun hash code hcode => ?_, fun a account hash ha hhash => ?_,
    h.blockHashes⟩, ⟨fun _ ha => ha, fun a account i v ha hi _ => ⟨account, ha, hi⟩, hsame,
    fun _ _ hn => hn⟩⟩
  · by_cases heq : hash = cfg.hashSlow (cfg.bytecode address)
    · subst heq
      exact ⟨address, by simpa [Snapshot.insertBytecode] using hcode.symm, rfl⟩
    · exact h.bytecodes hash code (by simpa [Snapshot.insertBytecode, heq] using hcode)
  · obtain ⟨code, hcode⟩ := h.accountCode a account hash ha hhash
    exact ⟨code, hsame hash code hcode⟩

/-- An account of the node, with slots of the node, is put in the place of one whose slots are all
kept. -/
theorem Sound.insertAccount (h : cfg.Sound cache) (address : Address) (account : EvmAccount)
    (hbasic : Snapshot.basicOf account = cfg.account address)
    (hcodeHash : account.codeHash = cfg.codeHash address) (hnew : cfg.isNew address = false)
    (hslots : ∀ i v, account.storage.lookup i = some v → v = cfg.node.getStorageAt address i)
    (hcode : ∀ hash, account.codeHash = some hash → ∃ code, cache.bytecodes hash = some code)
    (hkeeps : ∀ old i v, cache.accounts address = some old → old.storage.lookup i = some v →
      v ≠ 0 → account.storage.lookup i = some v) :
    cfg.Sound (cache.insertAccount address account) ∧
      cache.Extends (cache.insertAccount address account) := by
  have hget : ∀ a, (cache.insertAccount address account).accounts a =
      if a = address then some account else cache.accounts a :=
    fun a => Function.update_apply _ _ _ _
  refine ⟨⟨fun a b ha => ?_, fun a b i v ha => ?_, h.bytecodes, fun a b hash ha => ?_,
    h.blockHashes⟩, ⟨fun a ha => ?_, fun a b i v ha hi hv => ?_, fun _ _ hc => hc,
    fun _ _ hn => hn⟩⟩
  · rw [hget] at ha
    split_ifs at ha with heq
    · cases ha
      subst heq
      exact ⟨hbasic, hcodeHash, hnew⟩
    · exact h.account a b ha
  · rw [hget] at ha
    split_ifs at ha with heq
    · cases ha
      subst heq
      exact hslots i v
    · exact h.slots a b i v ha
  · rw [hget] at ha
    split_ifs at ha with heq
    · cases ha
      exact hcode hash
    · exact h.accountCode a b hash ha
  · rw [hget]
    split_ifs
    · simp
    · exact ha
  · rw [hget]
    split_ifs with heq
    · subst heq
      exact ⟨account, rfl, hkeeps b i v ha hi hv⟩
    · exact ⟨b, ha, hi⟩

theorem Sound.insertSlot (h : cfg.Sound cache) {address : Address} {index : U256} :
    cfg.Sound (cache.insertSlot address index (cfg.node.getStorageAt address index)) ∧
      cache.Extends (cache.insertSlot address index (cfg.node.getStorageAt address index)) := by
  unfold Snapshot.insertSlot
  split
  · next account haccount =>
    obtain ⟨hbasic, hcodeHash, hnew⟩ := h.account address account haccount
    refine h.insertAccount _ _ hbasic hcodeHash hnew (fun i v hi => ?_)
      (fun hash hhash => h.accountCode address account hash haccount hhash)
      (fun old i v hold hi _ => ?_)
    · rw [AssocList.lookup_cons] at hi
      split_ifs at hi with heq
      · cases hi
        rw [heq]
      · exact h.slots address account i v haccount hi
    · obtain rfl : account = old := Option.some.inj (haccount.symm.trans hold)
      rw [AssocList.lookup_cons]
      split_ifs with heq
      · rw [h.slots address account i v haccount hi, heq]
      · exact hi
  · exact ⟨h, .refl cache⟩

theorem Sound.insertBlockHash (h : cfg.Sound cache) {number : BitVec 64} :
    cfg.Sound (cache.insertBlockHash number (cfg.node.getBlockHash number)) ∧
      cache.Extends (cache.insertBlockHash number (cfg.node.getBlockHash number)) := by
  have hget : ∀ n, (cache.insertBlockHash number (cfg.node.getBlockHash number)).blockHashes n =
      if n = number then some (cfg.node.getBlockHash number) else cache.blockHashes n :=
    fun n => Function.update_apply _ _ _ _
  refine ⟨⟨h.account, h.slots, h.bytecodes, h.accountCode, fun n hash hn => ?_⟩,
    ⟨fun _ ha => ha, fun a account i v ha hi _ => ⟨account, ha, hi⟩, fun _ _ hc => hc,
    fun n hash hn => ?_⟩⟩
  · rw [hget] at hn
    split_ifs at hn with heq
    · cases hn
      rw [heq]
    · exact h.blockHashes n hash hn
  · rw [hget]
    split_ifs with heq
    · rw [h.blockHashes n hash hn, heq]
    · exact hn

/-! ## The invariant -/

section Step

variable {s s' : RpcStorage} {thread : Nat}

theorem Faithful.goto (h : cfg.Faithful s) (hcache : cfg.Sound cache' ∧ s.cache.Extends cache')
    {pc : RpcPc} (hpc : cfg.PcOk cache' pc) :
    cfg.Faithful ((s.withCache cache').goto thread pc) := by
  refine ⟨hcache.1, fun t => ?_, fun query answer hmem => (h.log query answer hmem).extends hcache.2⟩
  show cfg.PcOk cache' (Function.update s.pc thread pc t)
  rw [Function.update_apply]
  split_ifs
  · exact hpc
  · exact (h.pc t).extends hcache.2

theorem Faithful.ret (h : cfg.Faithful s) (hcache : cfg.Sound cache' ∧ s.cache.Extends cache')
    {query : StorageQuery} {answer : StorageAnswer} (hreturned : cfg.Returned cache' query answer) :
    cfg.Faithful ((s.withCache cache').ret thread query answer) := by
  have hgoto : cfg.Faithful ((s.withCache cache').goto thread .idle) := h.goto hcache trivial
  refine ⟨hgoto.cache, hgoto.pc, fun q a hmem => ?_⟩
  rcases List.mem_cons.mp hmem with heq | hmem
  · obtain ⟨rfl, rfl⟩ := Prod.mk.inj heq
    exact hreturned
  · exact hgoto.log q a hmem

/-- `basic` returns to its caller with what the node says. -/
theorem Faithful.retBasic (thread : Nat) (h : cfg.Faithful s)
    (hcache : cfg.Sound cache' ∧ s.cache.Extends cache') {address : Address} {caller : BasicCaller}
    (hcaller : cfg.CallerOk address caller)
    (hcached : cfg.isNew address = false → cache'.accounts address ≠ none) :
    cfg.Faithful ((s.withCache cache').retBasic thread address
      (if cfg.isNew address then none else some (cfg.account address)) caller) := by
  cases caller with
  | basic => exact h.ret hcache ⟨rfl, hcached⟩
  | codeHash => exact h.goto hcache hcached
  | storage index value => exact h.goto hcache ⟨hcaller, hcached⟩

/-- What the cache says of an account is what the node says. -/
theorem Sound.codeHash_eq (h : cfg.Sound cache) {address : Address}
    (hcached : cfg.isNew address = false → cache.accounts address ≠ none) :
    (cache.accounts address).bind EvmAccount.codeHash =
      if cfg.isNew address then none else cfg.codeHash address := by
  cases haccount : cache.accounts address with
  | some account =>
    obtain ⟨-, hcodeHash, hnew⟩ := h.account address account haccount
    rw [hnew, if_neg Bool.false_ne_true, ← hcodeHash]
    rfl
  | none =>
    have hnew : cfg.isNew address = true := by
      by_contra hnew
      exact hcached (Bool.not_eq_true _ ▸ hnew) haccount
    rw [hnew, if_pos rfl]
    rfl

/-- An account that is new has no slot. -/
theorem getStorageAt_of_isNew {address : Address} (h : cfg.isNew address = true) (index : U256) :
    cfg.node.getStorageAt address index = 0 := by
  simp only [isNew, Bool.and_eq_true, decide_eq_true_eq, List.isEmpty_iff] at h
  exact cfg.node.empty_slots address index h.1.1.2 h.1.2 h.2

theorem Faithful.basicFetch (h : cfg.Faithful s) {address : Address} {caller : BasicCaller}
    (hp : s.pc thread = .basicFetch address caller)
    (hstep : cfg.threadStep thread s = some s') : cfg.Faithful s' := by
  have hsame : cfg.Sound s.cache ∧ s.cache.Extends s.cache := ⟨h.cache, .refl s.cache⟩
  have hpc := h.pc thread
  rw [hp] at hpc
  simp only [RpcConfig.threadStep, hp] at hstep
  cases hnew : cfg.isNew address with
  | true =>
    rw [if_pos hnew] at hstep
    cases hstep
    have hret := h.retBasic thread hsame hpc (fun hfalse => by simp [hnew] at hfalse)
    rw [if_pos hnew] at hret
    exact hret
  | false =>
    rw [if_neg (by simp [hnew])] at hstep
    cases hcode : (cfg.node.getCodeAt address).isEmpty with
    | true =>
      rw [if_pos hcode] at hstep
      cases hstep
      refine h.goto hsame ⟨rfl, by rw [codeHash, if_pos hcode], hnew, hpc, ?_⟩
      intro hash hhash
      cases hhash
    | false =>
      rw [if_neg (by simp [hcode])] at hstep
      cases hstep
      exact h.goto hsame ⟨rfl, rfl, hcode, hnew, hpc⟩

theorem Faithful.insertAccount (h : cfg.Faithful s) {address : Address} {caller : BasicCaller}
    {account : AccountBasic} {codeHash : Option B256}
    (hp : s.pc thread = .basicInsertAccount address caller account codeHash)
    (hkeeps : keepsSlots (.step thread) s = true)
    (hstep : cfg.threadStep thread s = some s') : cfg.Faithful s' := by
  have hpc := h.pc thread
  rw [hp] at hpc
  simp only [RpcConfig.threadStep, hp] at hstep
  cases hstep
  obtain ⟨rfl, rfl, hnew, hcaller, hcode⟩ := hpc
  have hcache := h.cache.insertAccount address
    ⟨(cfg.account address).balance, (cfg.account address).nonce, cfg.codeHash address, none, []⟩
    rfl rfl hnew (fun i v hi => by cases hi) hcode ?_
  · have hret := h.retBasic thread hcache hcaller
      (fun _ => by simp [Snapshot.insertAccount])
    rw [hnew, if_neg Bool.false_ne_true] at hret
    exact hret
  · -- only slots that read as zero anyway are dropped
    intro old i v hold hi hv
    simp only [keepsSlots, hp, hold, Option.all_some, List.all_eq_true, decide_eq_true_eq] at hkeeps
    exact absurd (hkeeps _ (AssocList.mem_of_lookup_eq_some hi)) hv

theorem Faithful.storageInsert (h : cfg.Faithful s) {address : Address} {index value : U256}
    (hp : s.pc thread = .storageInsert address index value)
    (hstep : cfg.threadStep thread s = some s') : cfg.Faithful s' := by
  have hpc := h.pc thread
  rw [hp] at hpc
  simp only [RpcConfig.threadStep, hp] at hstep
  cases hstep
  obtain ⟨rfl, hcached⟩ := hpc
  refine h.ret h.cache.insertSlot ⟨rfl, fun hne => ?_⟩
  have hnew : cfg.isNew address = false := by
    by_contra hnew
    exact hne (getStorageAt_of_isNew (Bool.not_eq_false _ ▸ hnew) index)
  obtain ⟨account, haccount⟩ := Option.ne_none_iff_exists'.mp (hcached hnew)
  refine ⟨{ account with
    storage := (index, cfg.node.getStorageAt address index) :: account.storage }, ?_, ?_⟩
  · simp [Snapshot.insertSlot, haccount, Snapshot.insertAccount]
  · rw [AssocList.lookup_cons, if_pos rfl]

/-- A step of a thread keeps the invariant, if it keeps the slots. -/
theorem Faithful.threadStep (h : cfg.Faithful s)
    (hkeeps : keepsSlots (.step thread) s = true) (hstep : cfg.threadStep thread s = some s') :
    cfg.Faithful s' := by
  have hsame : cfg.Sound s.cache ∧ s.cache.Extends s.cache := ⟨h.cache, .refl s.cache⟩
  have hpc := h.pc thread
  cases hp : s.pc thread with
  | idle =>
    simp only [RpcConfig.threadStep, hp] at hstep
    cases hstep
  | basicCheck address caller =>
    rw [hp] at hpc
    simp only [RpcConfig.threadStep, hp] at hstep
    split at hstep
    · next account haccount =>
      cases hstep
      obtain ⟨hbasic, -, hnew⟩ := h.cache.account address account haccount
      have hret := h.retBasic thread hsame hpc
        (fun _ => by rw [haccount]; exact Option.some_ne_none _)
      rw [hnew, if_neg Bool.false_ne_true, ← hbasic] at hret
      exact hret
    · cases hstep
      exact h.goto hsame hpc
  | basicFetch address caller => exact h.basicFetch hp hstep
  | basicInsertBytecode address caller account code =>
    rw [hp] at hpc
    simp only [RpcConfig.threadStep, hp] at hstep
    cases hstep
    obtain ⟨haccount, rfl, hcode, hnew, hcaller⟩ := hpc
    refine h.goto h.cache.insertBytecode
      ⟨haccount, by rw [codeHash, if_neg (by simp [hcode])], hnew, hcaller, fun hash hhash => ?_⟩
    cases hhash
    exact ⟨_, Function.update_self _ _ _⟩
  | basicInsertAccount address caller account codeHash => exact h.insertAccount hp hkeeps hstep
  | codeHashGet address =>
    rw [hp] at hpc
    simp only [RpcConfig.threadStep, hp] at hstep
    cases hstep
    exact h.ret hsame ⟨by rw [h.cache.codeHash_eq hpc], hpc⟩
  | codeByHashGet codeHash =>
    rw [hp] at hpc
    simp only [RpcConfig.threadStep, hp] at hstep
    cases hstep
    obtain ⟨code, hcode⟩ := hpc
    exact h.ret hsame ⟨code, by rw [hcode], hcode⟩
  | storageCheck address index =>
    simp only [RpcConfig.threadStep, hp] at hstep
    split at hstep
    · next value hvalue =>
      cases hstep
      obtain ⟨account, haccount, hslot⟩ := Option.bind_eq_some_iff.mp hvalue
      obtain rfl := h.cache.slots address account index value haccount hslot
      exact h.ret hsame ⟨rfl, fun _ => ⟨account, haccount, hslot⟩⟩
    · cases hstep
      exact h.goto hsame trivial
  | storageFetch address index =>
    simp only [RpcConfig.threadStep, hp] at hstep
    cases hstep
    exact h.goto hsame rfl
  | storageInsert address index value => exact h.storageInsert hp hstep
  | blockHashCheck number =>
    simp only [RpcConfig.threadStep, hp] at hstep
    split at hstep
    · next hash hhash =>
      cases hstep
      obtain rfl := h.cache.blockHashes number hash hhash
      exact h.ret hsame ⟨rfl, hhash⟩
    · cases hstep
      exact h.goto hsame trivial
  | blockHashFetch number =>
    simp only [RpcConfig.threadStep, hp] at hstep
    cases hstep
    exact h.goto hsame rfl
  | blockHashInsert number hash =>
    rw [hp] at hpc
    simp only [RpcConfig.threadStep, hp] at hstep
    cases hstep
    obtain rfl : hash = cfg.node.getBlockHash number := hpc
    exact h.ret h.cache.insertBlockHash ⟨rfl, Function.update_self _ _ _⟩

/-- A call may start: a hash that `code_hash` has returned is cached. -/
theorem Faithful.call (h : cfg.Faithful s) {query : StorageQuery}
    (hcall : s.mayCall query = true) : cfg.Faithful (s.goto thread (RpcStorage.entry query)) := by
  refine h.goto ⟨h.cache, .refl s.cache⟩ ?_
  cases query with
  | codeByHash codeHash =>
    obtain ⟨⟨query, answer⟩, hmem, hmatch⟩ := List.any_eq_true.mp hcall
    match query, answer, hmatch with
    | .codeHash address, .codeHash (some hash), hmatch =>
      obtain rfl : hash = codeHash := by simpa using hmatch
      obtain ⟨hanswer, hcached⟩ := h.log _ _ hmem
      rw [StorageAnswer.codeHash.injEq, ← h.cache.codeHash_eq hcached] at hanswer
      obtain ⟨account, haccount, hhash⟩ := Option.bind_eq_some_iff.mp hanswer.symm
      exact h.cache.accountCode address account hash haccount hhash
  | _ => trivial

end Step

theorem faithful_new : cfg.Faithful .new := by
  refine ⟨⟨?_, ?_, ?_, ?_, ?_⟩, fun _ => trivial, fun _ _ h => by cases h⟩
  · intro a account h
    cases h
  · intro a account i v h
    cases h
  · intro h code hcode
    cases hcode
  · intro a account h haccount
    cases haccount
  · intro n h hn
    cases hn

/-- Runs in which every step keeps the slots keep the invariant. -/
theorem faithful_of_keepsSlots {s : RpcStorage}
    (h : cfg.threads.ReachableVia (fun action s => keepsSlots action s = true) s) :
    cfg.Faithful s := by
  refine h.invariant (fun s hs => ?_) fun action s s' _ hkeeps hstep hs => ?_
  · rw [show s = .new from hs]
    exact faithful_new
  · cases action with
    | call thread query =>
      simp only [threads] at hstep
      split_ifs at hstep with hcall
      cases hstep
      exact hs.call hcall.2
    | step thread => exact hs.threadStep hkeeps hstep

/-- What a call returned is what the in-memory storage of the cache answers. -/
theorem Faithful.answer {s : RpcStorage} (h : cfg.Faithful s) (emptyHash : BitVec 64 → B256)
    {query : StorageQuery} {answer : StorageAnswer} (hmem : (query, answer) ∈ s.log) :
    s.cache.answer emptyHash query = answer := by
  have hreturned := h.log query answer hmem
  cases query with
  | basic address =>
    obtain ⟨rfl, hcached⟩ := hreturned
    cases haccount : s.cache.accounts address with
    | some account =>
      obtain ⟨hbasic, -, hnew⟩ := h.cache.account address account haccount
      simp [Snapshot.answer, haccount, hbasic, hnew]
    | none =>
      have hnew : cfg.isNew address = true := by
        by_contra hnew
        exact hcached (Bool.not_eq_true _ ▸ hnew) haccount
      simp [Snapshot.answer, haccount, hnew]
  | codeHash address =>
    obtain ⟨rfl, hcached⟩ := hreturned
    rw [Snapshot.answer, h.cache.codeHash_eq hcached]
  | codeByHash codeHash =>
    obtain ⟨code, rfl, hcode⟩ := hreturned
    rw [Snapshot.answer, hcode]
  | storage address index =>
    obtain ⟨rfl, hslot⟩ := hreturned
    rw [Snapshot.answer]
    congr 1
    cases hvalue : (s.cache.accounts address).bind fun account => account.storage.lookup index with
    | some value =>
      obtain ⟨account, haccount, hlookup⟩ := Option.bind_eq_some_iff.mp hvalue
      exact h.cache.slots address account index value haccount hlookup
    | none =>
      -- a slot that is not cached reads as zero, and was zero
      by_contra hne
      obtain ⟨account, haccount, hlookup⟩ := hslot (Ne.symm hne)
      rw [haccount, Option.bind_some, hlookup] at hvalue
      cases hvalue
  | blockHash number =>
    obtain ⟨rfl, hcached⟩ := hreturned
    rw [Snapshot.answer, hcached]
    rfl

/-- **An RPC snapshot replays.** In every run in which no account is inserted over one with slots
other than zero, the in-memory storage of the snapshot answers every query that has returned with the
value that the storage over RPC returned. -/
theorem snapshot_replays (emptyHash : BitVec 64 → B256) {s : RpcStorage}
    (h : cfg.threads.ReachableVia (fun action s => keepsSlots action s = true) s) :
    ∀ query answer, (query, answer) ∈ s.log → s.cache.answer emptyHash query = answer :=
  fun _ _ hmem => (faithful_of_keepsSlots h).answer emptyHash hmem

end RpcConfig

/-! ## Two threads -/

/-- The thread of an action. -/
def RpcAction.thread : RpcAction → Nat
  | .call thread _ | .step thread => thread

theorem RpcStorage.retBasic_pc {s : RpcStorage} {thread t : Nat} (hne : t ≠ thread)
    (address : Address) (account : Option AccountBasic) (caller : BasicCaller) :
    (s.retBasic thread address account caller).pc t = s.pc t := by
  cases caller <;> exact Function.update_of_ne hne _ _

/-- A thread stays where it is while others act. -/
theorem RpcConfig.step_pc {cfg : RpcConfig} {s s' : RpcStorage} {action : RpcAction} {t : Nat}
    (h : cfg.threads.step action s = some s') (hne : t ≠ action.thread) : s'.pc t = s.pc t := by
  cases action with
  | call thread query =>
    simp only [threads] at h
    split_ifs at h
    cases h
    exact Function.update_of_ne hne _ _
  | step thread =>
    simp only [threads, threadStep] at h
    split at h
    all_goals try split at h
    all_goals try split_ifs at h
    all_goals cases h
    all_goals first
      | exact Function.update_of_ne hne _ _
      | exact RpcStorage.retBasic_pc hne _ _ _

theorem RpcConfig.run_pc {cfg : RpcConfig} {t : Nat} :
    ∀ {actions : List RpcAction} {s s' : RpcStorage}, cfg.threads.run actions s = some s' →
      (∀ action ∈ actions, t ≠ action.thread) → s'.pc t = s.pc t
  | [], s, s', h, _ => by
    cases h
    rfl
  | action :: actions, s, s', h, hne => by
    obtain ⟨s₁, hstep, hrest⟩ := Option.bind_eq_some_iff.mp h
    rw [run_pc hrest fun a ha => hne a (List.mem_cons_of_mem _ ha),
      step_pc hstep (hne action List.mem_cons_self)]

namespace Sample

/-- A node with one account, which has a slot. -/
def node : RpcNode where
  getTransactionCount := fun _ => 0
  getBalance := fun address => if address = 7 then 1 else 0
  getCodeAt := fun _ => []
  getStorageAt := fun address index => if address = 7 ∧ index = 0 then 5 else 0
  getBlockHash := fun _ => 0
  empty_slots := by
    intro address index hbalance _ _
    rw [if_neg]
    rintro ⟨rfl, -⟩
    simp at hbalance

def rpc : RpcConfig where
  node := node
  isPrecompile := fun _ => false
  newRaw := fun bytes => .legacy ⟨bytes, bytes.length⟩
  hashSlow := fun _ => 0
  hashSlow_inj := fun _ _ _ => rfl

/-- Thread 1 asks for the slot and is done before thread 0, which has fetched the account, inserts
it. -/
def race : List RpcAction :=
  [.call 0 (.basic 7), .step 0, .step 0, .call 1 (.storage 7 0)] ++ List.replicate 6 (.step 1) ++
    [.step 0]

/-- Thread 0 is done first. -/
def inTurn : List RpcAction :=
  [.call 0 (.basic 7), .step 0, .step 0, .step 0, .call 1 (.storage 7 0)] ++
    List.replicate 4 (.step 1)

end Sample

/-- One thread after the other: the snapshot answers what was asked. -/
theorem snapshot_replays_sample : ∃ s, Sample.rpc.threads.ReachableVia
    (fun action s => RpcConfig.keepsSlots action s = true) s ∧
    (.storage 7 0, .storage 5) ∈ s.log ∧
    s.cache.answer (fun _ => 0) (.storage 7 0) = .storage 5 := by
  have hrun : (Sample.rpc.threads.runVia RpcConfig.keepsSlots Sample.inTurn .new).any
      (fun s => s.log.contains (.storage 7 0, .storage 5)) = true := by
    decide +kernel
  obtain ⟨s, hs, hp⟩ := Machine.exists_reachable_of_run rfl hrun
  have hmem := List.contains_iff_mem.mp hp
  exact ⟨s, hs, hmem, RpcConfig.snapshot_replays (fun _ => 0) hs _ _ hmem⟩

/-- The account that thread 0 inserts drops the slot that thread 1 has cached: all calls have
returned, and the snapshot answers zero. -/
theorem snapshot_drops_slot : ∃ s, Sample.rpc.threads.Reachable s ∧ (∀ t, s.pc t = .idle) ∧
    (.storage 7 0, .storage 5) ∈ s.log ∧
    s.cache.answer (fun _ => 0) (.storage 7 0) = .storage 0 := by
  obtain ⟨s, hrun, hp⟩ := (Option.any_eq_true (fun s => s.pc 0 = .idle && s.pc 1 = .idle &&
    s.log.contains (.storage 7 0, .storage 5) &&
    s.cache.answer (fun _ => 0) (.storage 7 0) = .storage 0) _).mp
    (show (Sample.rpc.threads.run Sample.race .new).any _ = true by decide +kernel)
  simp only [Bool.and_eq_true, decide_eq_true_eq, List.contains_iff_mem] at hp
  obtain ⟨⟨⟨h0, h1⟩, hmem⟩, hanswer⟩ := hp
  have hthreads : ∀ action ∈ Sample.race, action.thread < 2 := by decide
  refine ⟨s, (Machine.ReachableVia.run (C := fun _ _ => true) (.init rfl) hrun).reachable,
    fun t => ?_, hmem, hanswer⟩
  rcases t with _ | _ | t
  · exact h0
  · exact h1
  · refine RpcConfig.run_pc hrun fun action haction => ?_
    have := hthreads action haction
    omega

end Pevm
