import ZksyncOsServer.Lib.Run
import ZksyncOsServer.Repository.InMemory

/-!
# The repository manager

`storage/src/lazy/repository.rs`: a block is readable as soon as it is populated in memory, and a
loop in the background writes it to the database and evicts it from memory. The transactions
of all blocks share one table, so that a block may be evicted while a later one with the same
transaction is still in memory only.
-/
namespace InMemory.RepositoryInMemory

open MerkleTree (B256 Map)

variable (this : RepositoryInMemory)

def getBlockByHash (hash : B256) : Option RepositoryBlock := this.receipts[hash]?

def getBlockByNumber (number : Nat) : Option RepositoryBlock :=
  this.hashIndex[number]?.bind this.getBlockByHash

def getByHashes (txHashes : List B256) : Option (List StoredTxData) := txHashes.mapM fun hash => this.txData[hash]?

def getBlockAndTransactionsByNumber (number : Nat) : Option (RepositoryBlock × List StoredTxData) := do
  let block ← this.getBlockByNumber number
  let txs ← this.getByHashes block.transactions
  return (block, txs)

def removeByNumber (number : Nat) : RepositoryInMemory :=
  match this.hashIndex[number]? with
  | none => this
  | some hash => { this with
      hashIndex := this.hashIndex.erase number
      receipts := this.receipts.erase hash
      receipts_hash := by
        intro hash' block hblock
        rw [SortedMap.getElem?_erase] at hblock
        split at hblock
        · exact nomatch hblock
        · exact this.receipts_hash hash' block hblock }

def removeIf (data : Map B256 StoredTxData) (hash : B256) (p : StoredTxData → Bool) : Map B256 StoredTxData :=
  match data[hash]? with
  | some stored => if p stored then data.erase hash else data
  | none => data

def removeByHashes (txHashes : List B256) (blockNumber : Nat) : RepositoryInMemory :=
  { this with
    txData := txHashes.foldl (fun data hash =>
      removeIf data hash fun stored => stored.txMeta.blockNumber ≤ blockNumber) this.txData }

def removeBlockAndTransactions (blockNumber : Nat) (txHashes : List B256) : RepositoryInMemory :=
  (this.removeByNumber blockNumber).removeByHashes txHashes blockNumber

end InMemory.RepositoryInMemory

namespace LazyRepository

open Fallible InMemory
open MerkleTree (B256 Map)
open Repository (Address RepositoryDb)
open Types (BlockOutput Primitives ZkTransaction)

/-- What other crates compute of a transaction. -/
structure Env where
  primitives : Primitives
  effectiveGasPrice : ZkTransaction → Option Nat → Nat
  signer : ZkTransaction → Address
  nonce : ZkTransaction → Nat

/-- What a value in the database encodes. -/
inductive Payload where
  | header
  | tx (tx : ZkTransaction)
  | receipt (receipt : ZkReceiptEnvelope)
  | txMeta (txMeta : TxMeta)

def storedBlock (block : RepositoryBlock) : Repository.Block Payload :=
  ⟨block.number, block.hash, block.transactions, .header⟩

def readBlock (block : Repository.Block Payload) : RepositoryBlock :=
  ⟨block.hash, block.number, block.transactions⟩

/-- A transaction as the database stores it. -/
def Env.stored (env : Env) (data : StoredTxData) : Repository.StoredTxData Payload where
  tx := ⟨data.tx.hash env.primitives, env.signer data.tx, env.nonce data.tx, .tx data.tx⟩
  receipt := ⟨data.receipt.receipt.logs, .receipt data.receipt⟩
  txMeta := .txMeta data.txMeta

/-- `RepositoryDb::new`. -/
def openDb (db : RepositoryDb Payload) (genesis : Repository.Block Payload) : RepositoryDb Payload :=
  match db.blockNumber with
  | some n => { db with latestBlockNumber := n }
  | none => { db.writeBlock genesis [] with latestBlockNumber := 0 }

structure RepositoryManager where
  inMemory : RepositoryInMemory
  db : RepositoryDb Payload
  maxBlocksInMemory : Nat
  dbReadyToProcessBlocks : Bool

namespace RepositoryManager

def new (blocksToRetain : Nat) (db : RepositoryDb Payload) (genesis : Repository.Block Payload) :
    Except String RepositoryManager := do
  let db := openDb db genesis
  let genesisBlock ← ofOption "Missing genesis block in DB" (db.getBlockByNumber 0)
  return ⟨.new (readBlock genesisBlock), db, blocksToRetain, false⟩

/-! Reads go to memory first; what they return is in the form of the database. -/

section Reads
variable (env : Env) (this : RepositoryManager)

def getBlockByNumber (number : Nat) : Option (Repository.Block Payload) :=
  ((this.inMemory.getBlockByNumber number).map storedBlock).or (this.db.getBlockByNumber number)

def getBlockByHash (hash : B256) : Option (Repository.Block Payload) :=
  ((this.inMemory.getBlockByHash hash).map storedBlock).or (this.db.getBlockByHash hash)

def getTransaction (hash : B256) : Option (Repository.Tx Payload) :=
  (this.inMemory.txData[hash]?.map fun data => (env.stored data).tx).or (this.db.getTransaction hash)

def getTransactionReceipt (hash : B256) : Option (Repository.Receipt Payload) :=
  (this.inMemory.txData[hash]?.map fun data => (env.stored data).receipt).or (this.db.getTransactionReceipt hash)

def getTransactionMeta (hash : B256) : Option Payload :=
  (this.inMemory.txData[hash]?.map fun data => (env.stored data).txMeta).or (this.db.getTransactionMeta hash)

def getStoredTransaction (hash : B256) : Option (Repository.StoredTxData Payload) :=
  (this.inMemory.txData[hash]?.map env.stored).or (this.db.getStoredTransaction hash)

end Reads

/-- The rollback of the first call of `populate`. -/
def rollbackBelow (db : RepositoryDb Payload) (number : Nat) : Except String (RepositoryDb Payload) :=
  if 0 < number then db.rollback (number - 1) else .ok db

/-- `populate` up to its wait. -/
def prepare (this : RepositoryManager) (number : Nat) : Except String RepositoryManager :=
  if this.dbReadyToProcessBlocks then .ok this
  else do
    let db ← rollbackBelow this.db number
    return { this with db, dbReadyToProcessBlocks := true }

/-- The condition that `populate` waits for. -/
def MayPopulate (this : RepositoryManager) : Prop :=
  this.inMemory.latestBlock - this.maxBlocksInMemory ≤ this.db.getLatestBlock
  deriving Decidable

/-- The condition that the persist loop waits for. -/
def MayPersist (this : RepositoryManager) : Prop :=
  this.dbReadyToProcessBlocks ∧ this.db.getLatestBlock + 1 ≤ this.inMemory.latestBlock
  deriving Decidable

end RepositoryManager

inductive PopulateCall where
  | idle
  | waiting (blockOutput : BlockOutput) (transactions : List ZkTransaction)
  | failed (message : String)
  deriving DecidableEq

/-- Where `run_persist_loop` is; it has panicked when a lookup failed. -/
inductive PersistLoop where
  | idle
  | read (blockNumber : Nat) (block : RepositoryBlock) (txs : List StoredTxData)
  | written (blockNumber : Nat) (block : RepositoryBlock)
  | failed

/-- What `populate_in_memory` returns: a block and the data of its transactions. -/
structure Entry where
  block : RepositoryBlock
  txs : List (B256 × StoredTxData)

def entryOf (env : Env) (blockOutput : BlockOutput) (transactions : List ZkTransaction) : Entry where
  block := RepositoryInMemory.blockOf env.primitives blockOutput transactions
  txs := (storedTxs env.primitives env.effectiveGasPrice blockOutput 0 0 0 transactions).toOption.getD []

/-- The manager with its two tasks, and the blocks that were populated so far. -/
structure System where
  manager : RepositoryManager
  call : PopulateCall
  persist : PersistLoop
  populated : List Entry

def System.start (manager : RepositoryManager) : System := ⟨manager, .idle, .idle, []⟩

inductive Event where
  | populate (blockOutput : BlockOutput) (transactions : List ZkTransaction)
  | insert
  | read
  | write
  | evict

namespace System

variable (env : Env)

/-- `populate` goes on after its wait. -/
def insert (s : System) (blockOutput : BlockOutput) (transactions : List ZkTransaction) : System :=
  match s.manager.inMemory.populateInMemory env.primitives env.effectiveGasPrice blockOutput transactions with
  | .error message => { s with call := .failed message }
  | .ok inMemory => { s with
      manager := { s.manager with inMemory }
      call := .idle
      populated := s.populated ++ [entryOf env blockOutput transactions] }

/-- The persist loop looks up the next block. -/
def read (s : System) : System :=
  let blockNumber := s.manager.db.getLatestBlock + 1
  match s.manager.inMemory.getBlockAndTransactionsByNumber blockNumber with
  | some (block, txs) => { s with persist := .read blockNumber block txs }
  | none => { s with persist := .failed }

def write (s : System) (blockNumber : Nat) (block : RepositoryBlock) (txs : List StoredTxData) : System :=
  { s with
    manager := { s.manager with db := s.manager.db.writeBlock (storedBlock block) (txs.map env.stored) }
    persist := .written blockNumber block }

def evict (s : System) (blockNumber : Nat) (block : RepositoryBlock) : System :=
  { s with
    manager := { s.manager with
      inMemory := s.manager.inMemory.removeBlockAndTransactions blockNumber block.transactions }
    persist := .idle }

/-- One step of either task; a task that is not at that point does nothing. -/
def step (s : System) : Event → System
  | .populate blockOutput transactions =>
    match s.call with
    | .idle =>
      match s.manager.prepare blockOutput.header.number with
      | .error message => { s with call := .failed message }
      | .ok manager => { s with manager, call := .waiting blockOutput transactions }
    | _ => s
  | .insert =>
    match s.call with
    | .waiting blockOutput transactions =>
      if s.manager.MayPopulate then s.insert env blockOutput transactions else s
    | _ => s
  | .read =>
    match s.persist with
    | .idle => if s.manager.MayPersist then s.read else s
    | _ => s
  | .write =>
    match s.persist with
    | .read blockNumber block txs => s.write env blockNumber block txs
    | _ => s
  | .evict =>
    match s.persist with
    | .written blockNumber block => s.evict blockNumber block
    | _ => s

end System

/-- The block follows the populated ones: the first one is at most the next of the database. Different
blocks have different hashes. -/
structure Follows (s : System) (blockOutput : BlockOutput) : Prop where
  first : s.populated = [] → blockOutput.header.number ≤ s.manager.db.getLatestBlock + 1
  next : ∀ e ∈ s.populated.getLast?, blockOutput.header.number = e.block.number + 1
  hash : ∀ e ∈ s.populated, e.block.hash ≠ blockOutput.header.hash

instance (s : System) (blockOutput : BlockOutput) : Decidable (Follows s blockOutput) :=
  decidable_of_iff (_ ∧ _ ∧ _) ⟨fun ⟨first, next, hash⟩ => ⟨first, next, hash⟩, fun h => ⟨h.first, h.next, h.hash⟩⟩

/-- Calls of `populate` come for consecutive blocks. -/
def Consecutive (s : System) : Event → Prop
  | .populate blockOutput _ => s.call = .idle → Follows s blockOutput
  | _ => True

instance (s : System) : DecidablePred (Consecutive s) := fun event => by
  unfold Consecutive
  split <;> infer_instance

/-- The blocks whose `populate` is called and does not fail at once. -/
def populates (env : Env) (s : System) : Event → List Entry
  | .populate blockOutput transactions =>
    match s.call, s.manager.prepare blockOutput.header.number with
    | .idle, .ok _ => [entryOf env blockOutput transactions]
    | _, _ => []
  | _ => []

def PopulateCall.waits (env : Env) : PopulateCall → List Entry
  | .waiting blockOutput transactions => [entryOf env blockOutput transactions]
  | _ => []

/-- The data of the latest populated block that contains the transaction. -/
def latestData (populated : List Entry) (hash : B256) : Option StoredTxData :=
  (KeyedLog.last (·.1) (populated.flatMap (·.txs)) hash).map (·.2)

structure ReadsTx (env : Env) (manager : RepositoryManager) (hash : B256) (data : StoredTxData) : Prop where
  tx : manager.getTransaction env hash = some (env.stored data).tx
  receipt : manager.getTransactionReceipt env hash = some (env.stored data).receipt
  txMeta : manager.getTransactionMeta env hash = some (env.stored data).txMeta
  stored : manager.getStoredTransaction env hash = some (env.stored data)

/-- Everything that was populated is readable, and no lookup of the persist loop has failed. -/
structure Available (env : Env) (s : System) : Prop where
  block : ∀ e ∈ s.populated, s.manager.getBlockByNumber e.block.number = some (storedBlock e.block) ∧
    s.manager.getBlockByHash e.block.hash = some (storedBlock e.block)
  tx : ∀ e ∈ s.populated, ∀ hash ∈ e.block.transactions,
    ∃ data, latestData s.populated hash = some data ∧ ReadsTx env s.manager hash data
  persist : s.persist ≠ .failed

end LazyRepository
