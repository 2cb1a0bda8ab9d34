import ZksyncOsServer.MerkleTree.Types

/-!
# The repository of blocks and transactions

`storage/src/db/repository.rs` and its log index, `repository/log_index.rs`. A column
family is an ordered map of decoded values, a write batch is applied as a whole. `P`
is whatever else an encoded value holds. A roaring bitmap is a finite set of numbers.
A panic is an error with its message; a call that fails has written nothing.
-/
namespace Repository

open Fallible
open MerkleTree (B256 Map)

def Address : Type := Fin (2 ^ 160)
  deriving DecidableEq

instance : LinearOrder Address := inferInstanceAs (LinearOrder (Fin (2 ^ 160)))
instance (n : Nat) : OfNat Address n := inferInstanceAs (OfNat (Fin (2 ^ 160)) n)

structure Log where
  address : Address
  topics : List B256
  deriving DecidableEq

/-- `ZkTransaction`. -/
structure Tx (P : Type) where
  hash : B256
  signer : Address
  nonce : Nat
  payload : P
  deriving DecidableEq

/-- `ZkReceiptEnvelope`. -/
structure Receipt (P : Type) where
  logs : List Log
  payload : P
  deriving DecidableEq

structure StoredTxData (P : Type) where
  tx : Tx P
  receipt : Receipt P
  txMeta : P
  deriving DecidableEq

/-- `Sealed<Block<TxHash>>`. -/
structure Block (P : Type) where
  number : Nat
  hash : B256
  transactions : List B256
  payload : P
  deriving DecidableEq

/-! ### Bitmaps -/

abbrev Bitmap := Finset Nat

def chunkSize : Nat := 2 ^ 16

def chunkStart (blockNumber : Nat) : Nat := blockNumber / chunkSize * chunkSize

/-- One of the two column families of the log index: the chunks of the bitmap of a key. -/
abbrev Chunks (K : Type) [Ord K] := Map (K ×ₗ Nat) Bitmap

section Chunks
variable {K : Type} [LinearOrder K]

/-- `with_chunk`: the first access to a chunk reads the database. -/
def withChunk (db cache : Chunks K) (key : K ×ₗ Nat) (f : Bitmap → Bitmap) : Chunks K :=
  cache.insert key (f ((cache[key]?).getD (db[key]?.getD ∅)))

/-- The loops of `index_logs` and `deindex_logs`: the bit of a block changes in the bitmap of
every key of its logs. -/
def touchChunks (db : Chunks K) (blockNumber : Nat) (f : Nat → Bitmap → Bitmap) (cache : Chunks K) (keys : List K) :
    Chunks K :=
  keys.foldl (fun cache key =>
    withChunk db cache (toLex (key, chunkStart blockNumber)) (f (blockNumber - chunkStart blockNumber))) cache

/-- `write_bitmaps_to_batch`, applied to the column family. -/
def writeBitmaps (bitmaps db : Chunks K) : Chunks K :=
  bitmaps.toList.foldl (fun db (key, bitmap) => if bitmap = ∅ then db.erase key else db.insert key bitmap) db

end Chunks

structure BitmapCache where
  byAddress : Chunks Address
  byTopic : Chunks B256

/-! ### The database -/

structure RepositoryDb (P : Type) where
  blockData : Map B256 (Block P)
  blockNumberToHash : Map Nat B256
  tx : Map B256 (Tx P)
  txReceipt : Map B256 (Receipt P)
  txMeta : Map B256 P
  initiatorAndNonceToHash : Map (Address ×ₗ Nat) B256
  /-- The three keys of `Meta`. -/
  blockNumber : Option Nat
  logIndexFirstBlock : Option Nat
  logIndexLastBlock : Option Nat
  logBlocksByAddress : Chunks Address
  logBlocksByTopic : Chunks B256
  /-- The watch channel. -/
  latestBlockNumber : Nat

namespace RepositoryDb

variable {P : Type}

/-- A database without any data. -/
def empty : RepositoryDb P := ⟨∅, ∅, ∅, ∅, ∅, ∅, none, none, none, ∅, ∅, 0⟩

variable (this : RepositoryDb P)

def getBlockByHash (hash : B256) : Option (Block P) := this.blockData[hash]?

def getBlockByNumber (number : Nat) : Option (Block P) :=
  this.blockNumberToHash[number]?.bind this.getBlockByHash

def getTransaction (hash : B256) : Option (Tx P) := this.tx[hash]?

def getTransactionReceipt (hash : B256) : Option (Receipt P) := this.txReceipt[hash]?

def getTransactionMeta (hash : B256) : Option P := this.txMeta[hash]?

def getTransactionHashBySenderNonce (sender : Address) (nonce : Nat) : Option B256 :=
  this.initiatorAndNonceToHash[toLex (sender, nonce)]?

def getStoredTransaction (hash : B256) : Option (StoredTxData P) := do
  let tx ← this.getTransaction hash
  let receipt ← this.getTransactionReceipt hash
  let txMeta ← this.getTransactionMeta hash
  return { tx, receipt, txMeta }

def getLatestBlock : Nat := this.latestBlockNumber

/-- `index_logs` and `deindex_logs` for the logs of several transactions of a block. -/
def touchLogs (f : Nat → Bitmap → Bitmap) (cache : BitmapCache) (blockNumber : Nat)
    (txs : List (StoredTxData P)) : BitmapCache :=
  let logs := txs.flatMap (·.receipt.logs)
  ⟨touchChunks this.logBlocksByAddress blockNumber f cache.byAddress (logs.map (·.address)),
    touchChunks this.logBlocksByTopic blockNumber f cache.byTopic (logs.flatMap (·.topics))⟩

def flush (cache : BitmapCache) : RepositoryDb P :=
  { this with
    logBlocksByAddress := writeBitmaps cache.byAddress this.logBlocksByAddress
    logBlocksByTopic := writeBitmaps cache.byTopic this.logBlocksByTopic }

/-- The part of `write_block` that was there before the log index. -/
def writeData (block : Block P) (txs : List (StoredTxData P)) : RepositoryDb P :=
  { this with
    blockNumberToHash := this.blockNumberToHash.insert block.number block.hash
    blockData := this.blockData.insert block.hash block
    tx := txs.foldl (fun m t => m.insert t.tx.hash t.tx) this.tx
    txReceipt := txs.foldl (fun m t => m.insert t.tx.hash t.receipt) this.txReceipt
    txMeta := txs.foldl (fun m t => m.insert t.tx.hash t.txMeta) this.txMeta
    initiatorAndNonceToHash :=
      txs.foldl (fun m t => m.insert (toLex (t.tx.signer, t.tx.nonce)) t.tx.hash) this.initiatorAndNonceToHash
    blockNumber := some block.number
    latestBlockNumber := block.number }

/-- The bitmaps and the coverage that `write_block` writes. `update_coverage` sets the first
block only once. -/
def writeIndex (block : Block P) (txs : List (StoredTxData P)) : RepositoryDb P :=
  { this.flush (this.touchLogs insert ⟨∅, ∅⟩ block.number txs) with
    logIndexFirstBlock := some (this.logIndexFirstBlock.getD block.number)
    logIndexLastBlock := some block.number }

def writeBlock (block : Block P) (txs : List (StoredTxData P)) : RepositoryDb P :=
  (this.writeIndex block txs).writeData block txs

def blockToRollback (blockNumber : Nat) : Except String (Block P × List (StoredTxData P)) := do
  let block ← ofOption "block to rollback must be present in DB" (this.getBlockByNumber blockNumber)
  let txs ← block.transactions.mapM fun hash =>
    ofOption "tx to rollback must be present in DB" (this.getStoredTransaction hash)
  return (block, txs)

/-- The deletions of `rollback`, for the blocks with the given numbers. -/
def deleteBlocks (lastBlockToKeep : Nat) (numbers : List Nat)
    (removed : List (Block P × List (StoredTxData P))) : RepositoryDb P :=
  let hashes := removed.flatMap (·.1.transactions)
  let txs := removed.flatMap (·.2)
  let cache := (numbers.zip removed).foldl (fun cache (n, _, txs) =>
    this.touchLogs (fun offset bitmap => bitmap.erase offset) cache n txs) ⟨∅, ∅⟩
  { this.flush cache with
    blockNumber := some lastBlockToKeep
    blockNumberToHash := numbers.foldl (fun m n => m.erase n) this.blockNumberToHash
    blockData := (removed.map (·.1.hash)).foldl (fun m hash => m.erase hash) this.blockData
    tx := hashes.foldl (fun m hash => m.erase hash) this.tx
    txMeta := hashes.foldl (fun m hash => m.erase hash) this.txMeta
    txReceipt := hashes.foldl (fun m hash => m.erase hash) this.txReceipt
    initiatorAndNonceToHash := (txs.map fun t => (toLex (t.tx.signer, t.tx.nonce) : Address ×ₗ Nat)).foldl
      (fun m key => m.erase key) this.initiatorAndNonceToHash
    logIndexLastBlock := some lastBlockToKeep
    latestBlockNumber := lastBlockToKeep }

def rollback (lastBlockToKeep : Nat) : Except String (RepositoryDb P) := do
  let latestBlockNumber ← ofOption "latest block number must be present in DB" this.blockNumber
  if lastBlockToKeep < latestBlockNumber then
    let numbers := List.range' (lastBlockToKeep + 1) (latestBlockNumber - lastBlockToKeep)
    let removed ← numbers.mapM this.blockToRollback
    return this.deleteBlocks lastBlockToKeep numbers removed
  else return this

/-! ### Queries of the log index -/

/-- `coverage`, as a half-open range. -/
def coverage : Option (Nat × Nat) :=
  match this.logIndexFirstBlock, this.logIndexLastBlock with
  | some first, some last => some (first, last + 1)
  | _, _ => none

end RepositoryDb

def asU32 (n : Nat) : Nat := n % 2 ^ 32

section Query
variable {K : Type} [LinearOrder K]

/-- `read_range`: the chunks that overlap the range, shifted to absolute numbers and masked. -/
def readRange (db : Chunks K) (keyPrefix : K) (range : Nat × Nat) : Bitmap :=
  let fromChunk := chunkStart range.1
  let toChunkExclusive := chunkStart (range.2 - 1) + chunkSize
  let entries := db.toList.filter fun (key, _) =>
    (ofLex key).1 = keyPrefix ∧ fromChunk ≤ (ofLex key).2 ∧ (ofLex key).2 < toChunkExclusive
  let result := entries.foldl (fun result (key, bitmap) =>
    result ∪ bitmap.image fun offset => asU32 (ofLex key).2 + offset) ∅
  result.filter fun n => asU32 range.1 ≤ n ∧ n < asU32 range.2

/-- `query`: the bitmap and the part of the range that the index covers. -/
def query (coverage : Option (Nat × Nat)) (db : Chunks K) (keyPrefix : K) (range : Nat × Nat) :
    Bitmap × Nat × Nat :=
  match coverage with
  | none => (∅, 0, 0)
  | some cov =>
    let covered := (max range.1 cov.1, min range.2 cov.2)
    if covered.1 < covered.2 then (readRange db keyPrefix covered, covered) else (∅, 0, 0)

end Query

/-- `Filter`, by address and by position of the topics; an empty set does not constrain. -/
structure Filter where
  address : List Address
  topics : List (List B256)
  deriving DecidableEq

def Filter.Matches (filter : Filter) (log : Log) : Prop :=
  (filter.address ≠ [] → log.address ∈ filter.address) ∧
    ∀ (i : Nat) (topics : List B256), filter.topics[i]? = some topics → topics ≠ [] →
      ∃ topic, log.topics[i]? = some topic ∧ topic ∈ topics

structure Candidates where
  bitmap : Bitmap
  covered : Nat × Nat

namespace Candidates

def intersect (a b : Nat × Nat) : Nat × Nat := (max a.1 b.1, min a.2 b.2)

def or (a b : Candidates) : Candidates := ⟨a.bitmap ∪ b.bitmap, intersect a.covered b.covered⟩

def and (a b : Candidates) : Candidates := ⟨a.bitmap ∩ b.bitmap, intersect a.covered b.covered⟩

def default : Candidates := ⟨∅, 0, 0⟩

/-- `reduce(..).unwrap_or_default()`. -/
def reduce (f : Candidates → Candidates → Candidates) : List Candidates → Candidates
  | [] => default
  | c :: cs => cs.foldl f c

def mayContain (this : Candidates) (blockNumber : Nat) : Bool :=
  !(this.covered.1 ≤ blockNumber && blockNumber < this.covered.2) || asU32 blockNumber ∈ this.bitmap

end Candidates

namespace RepositoryDb

variable {P : Type}

def blocksForAddress (this : RepositoryDb P) (address : Address) (range : Nat × Nat) : Candidates :=
  let (bitmap, covered) := query this.coverage this.logBlocksByAddress address range
  ⟨bitmap, covered⟩

def blocksForTopic (this : RepositoryDb P) (topic : B256) (range : Nat × Nat) : Candidates :=
  let (bitmap, covered) := query this.coverage this.logBlocksByTopic topic range
  ⟨bitmap, covered⟩

/-- `candidates`: bitmaps of one group are joined, groups are intersected. -/
def candidates (this : RepositoryDb P) (filter : Filter) (range : Nat × Nat) : Candidates :=
  let addressGroup :=
    if filter.address ≠ [] then [Candidates.reduce .or (filter.address.map (this.blocksForAddress · range))] else []
  let topicGroups := (filter.topics.filter (· ≠ [])).map fun topics =>
    Candidates.reduce .or (topics.map (this.blocksForTopic · range))
  Candidates.reduce .and (addressGroup ++ topicGroups)

end RepositoryDb

end Repository
