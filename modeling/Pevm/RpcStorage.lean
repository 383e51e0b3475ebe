import Pevm.Evm
import Pevm.Lib.Machine

/-!
# Storage over RPC and its snapshot

`storage/rpc.rs`: a storage that fetches what it is asked for from a remote node and caches it, so
that the block can be replayed from the cache later; and `storage/in_memory.rs`, the storage built
from such a snapshot.

Any number of threads call the storage. Every section under a mutex and every request to the node is
an atomic step; `basic` is a part of `code_hash` and `storage` too, so that its steps carry who called
it. The three requests of `basic` are joined: they are one step of a node that does not change.
-/

namespace Pevm

open Interleaving

/-- What the remote node answers at the block of the storage. -/
structure RpcNode where
  getTransactionCount : Address → BitVec 64
  getBalance : Address → U256
  getCodeAt : Address → List (BitVec 8)
  getStorageAt : Address → U256 → U256
  getBlockHash : BitVec 64 → B256
  /-- an account with zero balance, zero nonce and no code has all slots zero -/
  empty_slots : ∀ address index, getBalance address = 0 → getTransactionCount address = 0 →
    getCodeAt address = [] → getStorageAt address index = 0

/-- A storage over a node: the precompiles of the hard fork and what is used of revm's `Bytecode`. -/
structure RpcConfig where
  node : RpcNode
  isPrecompile : Address → Bool
  /-- `Bytecode::new_raw` -/
  newRaw : List (BitVec 8) → Bytecode
  /-- `Bytecode::hash_slow`, the Keccak hash of the code -/
  hashSlow : Bytecode → B256
  hashSlow_inj : ∀ a b, hashSlow (newRaw (node.getCodeAt a)) = hashSlow (newRaw (node.getCodeAt b)) →
    newRaw (node.getCodeAt a) = newRaw (node.getCodeAt b)

/-- The cached accounts, bytecodes and block hashes: what `into_snapshot` returns and what
`InMemoryStorage::new` takes. -/
structure Snapshot where
  accounts : Address → Option EvmAccount
  bytecodes : B256 → Option Bytecode
  blockHashes : BitVec 64 → Option B256

inductive StorageQuery where
  | basic (address : Address)
  | codeHash (address : Address)
  | codeByHash (codeHash : B256)
  | storage (address : Address) (index : U256)
  | blockHash (number : BitVec 64)
  deriving DecidableEq

inductive StorageAnswer where
  | basic (account : Option AccountBasic)
  | codeHash (codeHash : Option B256)
  | codeByHash (code : Option Bytecode)
  | storage (value : U256)
  | blockHash (hash : B256)
  deriving DecidableEq

/-! ## `InMemoryStorage` -/

namespace Snapshot

/-- `EvmAccount` without its code and storage. -/
def basicOf (account : EvmAccount) : AccountBasic :=
  ⟨account.balance, account.nonce⟩

/-- The answers of the `InMemoryStorage` of a snapshot. A block hash it does not have is
`emptyHash`, that of revm's `EmptyDB`. -/
def answer (s : Snapshot) (emptyHash : BitVec 64 → B256) : StorageQuery → StorageAnswer
  | .basic address => .basic ((s.accounts address).map basicOf)
  | .codeHash address => .codeHash ((s.accounts address).bind EvmAccount.codeHash)
  | .codeByHash codeHash => .codeByHash (s.bytecodes codeHash)
  | .storage address index =>
    .storage (((s.accounts address).bind fun account => account.storage.lookup index).getD 0)
  | .blockHash number => .blockHash ((s.blockHashes number).getD (emptyHash number))

def insertAccount (s : Snapshot) (address : Address) (account : EvmAccount) : Snapshot :=
  { s with accounts := Function.update s.accounts address (some account) }

def insertBytecode (s : Snapshot) (codeHash : B256) (code : Bytecode) : Snapshot :=
  { s with bytecodes := Function.update s.bytecodes codeHash (some code) }

def insertBlockHash (s : Snapshot) (number : BitVec 64) (hash : B256) : Snapshot :=
  { s with blockHashes := Function.update s.blockHashes number (some hash) }

/-- `if let Some(account) = accounts.get_mut(address)`: insert a slot where there is an account. -/
def insertSlot (s : Snapshot) (address : Address) (index value : U256) : Snapshot :=
  match s.accounts address with
  | some account => s.insertAccount address { account with storage := (index, value) :: account.storage }
  | none => s

end Snapshot

/-! ## `RpcStorage` -/

/-- Who called `basic`. -/
inductive BasicCaller where
  | basic
  | codeHash
  /-- `storage`, which has fetched the value already -/
  | storage (index value : U256)
  deriving DecidableEq

inductive RpcPc where
  | idle
  /-- `basic`: is the account cached? -/
  | basicCheck (address : Address) (caller : BasicCaller)
  /-- `basic`: nonce, balance and code -/
  | basicFetch (address : Address) (caller : BasicCaller)
  | basicInsertBytecode (address : Address) (caller : BasicCaller) (account : AccountBasic)
      (code : Bytecode)
  | basicInsertAccount (address : Address) (caller : BasicCaller) (account : AccountBasic)
      (codeHash : Option B256)
  /-- `code_hash` after `basic` -/
  | codeHashGet (address : Address)
  | codeByHashGet (codeHash : B256)
  | storageCheck (address : Address) (index : U256)
  | storageFetch (address : Address) (index : U256)
  /-- `storage` after `basic` -/
  | storageInsert (address : Address) (index value : U256)
  | blockHashCheck (number : BitVec 64)
  | blockHashFetch (number : BitVec 64)
  | blockHashInsert (number : BitVec 64) (hash : B256)
  deriving DecidableEq

structure RpcStorage where
  cache : Snapshot
  pc : Nat → RpcPc
  /-- the calls that have returned, with what they returned, newest first -/
  log : List (StorageQuery × StorageAnswer)

namespace RpcStorage

def goto (s : RpcStorage) (thread : Nat) (pc : RpcPc) : RpcStorage :=
  { s with pc := Function.update s.pc thread pc }

def withCache (s : RpcStorage) (cache : Snapshot) : RpcStorage :=
  { s with cache := cache }

/-- The call of a thread returns. -/
def ret (s : RpcStorage) (thread : Nat) (query : StorageQuery) (answer : StorageAnswer) :
    RpcStorage :=
  { s with pc := Function.update s.pc thread .idle, log := (query, answer) :: s.log }

/-- `RpcStorage::new`, before any call. -/
def new : RpcStorage where
  cache := ⟨fun _ => none, fun _ => none, fun _ => none⟩
  pc := fun _ => .idle
  log := []

/-- Where a call starts. -/
def entry : StorageQuery → RpcPc
  | .basic address => .basicCheck address .basic
  | .codeHash address => .basicCheck address .codeHash
  | .codeByHash codeHash => .codeByHashGet codeHash
  | .storage address index => .storageCheck address index
  | .blockHash number => .blockHashCheck number

/-- `code_by_hash` is called with hashes that `code_hash` has returned. -/
def mayCall (s : RpcStorage) : StorageQuery → Bool
  | .codeByHash codeHash => s.log.any fun p =>
    match p with
    | (.codeHash _, .codeHash (some hash)) => hash = codeHash
    | _ => false
  | _ => true

/-- `basic` returns to its caller. -/
def retBasic (s : RpcStorage) (thread : Nat) (address : Address) (account : Option AccountBasic) :
    BasicCaller → RpcStorage
  | .basic => s.ret thread (.basic address) (.basic account)
  | .codeHash => s.goto thread (.codeHashGet address)
  | .storage index value => s.goto thread (.storageInsert address index value)

end RpcStorage

namespace RpcConfig

variable (cfg : RpcConfig)

/-- An account that is new for the hard forks that distinguish it: empty and no precompile. -/
def isNew (address : Address) : Bool :=
  !cfg.isPrecompile address && cfg.node.getBalance address = 0 &&
    cfg.node.getTransactionCount address = 0 && (cfg.node.getCodeAt address).isEmpty

/-- The next atomic step of a thread inside a call. -/
def threadStep (thread : Nat) (s : RpcStorage) : Option RpcStorage :=
  match s.pc thread with
  | .idle => none
  | .basicCheck address caller =>
    match s.cache.accounts address with
    | some account => some (s.retBasic thread address (some (Snapshot.basicOf account)) caller)
    | none => some (s.goto thread (.basicFetch address caller))
  | .basicFetch address caller =>
    let account : AccountBasic :=
      ⟨cfg.node.getBalance address, cfg.node.getTransactionCount address⟩
    if cfg.isNew address then some (s.retBasic thread address none caller)
    else if (cfg.node.getCodeAt address).isEmpty then
      some (s.goto thread (.basicInsertAccount address caller account none))
    else
      some (s.goto thread (.basicInsertBytecode address caller account
        (cfg.newRaw (cfg.node.getCodeAt address))))
  | .basicInsertBytecode address caller account code =>
    some ((s.withCache (s.cache.insertBytecode (cfg.hashSlow code) code)).goto thread
      (.basicInsertAccount address caller account (some (cfg.hashSlow code))))
  | .basicInsertAccount address caller account codeHash =>
    -- a whole account, with an empty slot map
    some ((s.withCache (s.cache.insertAccount address
      ⟨account.balance, account.nonce, codeHash, none, []⟩)).retBasic thread address (some account)
      caller)
  | .codeHashGet address =>
    some (s.ret thread (.codeHash address)
      (.codeHash ((s.cache.accounts address).bind EvmAccount.codeHash)))
  | .codeByHashGet codeHash =>
    some (s.ret thread (.codeByHash codeHash) (.codeByHash (s.cache.bytecodes codeHash)))
  | .storageCheck address index =>
    match (s.cache.accounts address).bind fun account => account.storage.lookup index with
    | some value => some (s.ret thread (.storage address index) (.storage value))
    | none => some (s.goto thread (.storageFetch address index))
  | .storageFetch address index =>
    some (s.goto thread (.basicCheck address
      (.storage index (cfg.node.getStorageAt address index))))
  | .storageInsert address index value =>
    some ((s.withCache (s.cache.insertSlot address index value)).ret thread
      (.storage address index) (.storage value))
  | .blockHashCheck number =>
    match s.cache.blockHashes number with
    | some hash => some (s.ret thread (.blockHash number) (.blockHash hash))
    | none => some (s.goto thread (.blockHashFetch number))
  | .blockHashFetch number =>
    some (s.goto thread (.blockHashInsert number (cfg.node.getBlockHash number)))
  | .blockHashInsert number hash =>
    some ((s.withCache (s.cache.insertBlockHash number hash)).ret thread (.blockHash number)
      (.blockHash hash))

end RpcConfig

/-- A thread calls the storage or goes on with its call. -/
inductive RpcAction where
  | call (thread : Nat) (query : StorageQuery)
  | step (thread : Nat)

/-- The machine of the threads that share the storage. -/
def RpcConfig.threads (cfg : RpcConfig) : Machine RpcStorage RpcAction where
  init := fun s => s = .new
  step := fun action s =>
    match action with
    | .call thread query =>
      if s.pc thread = .idle ∧ s.mayCall query then some (s.goto thread (RpcStorage.entry query))
      else none
    | .step thread => cfg.threadStep thread s

end Pevm
