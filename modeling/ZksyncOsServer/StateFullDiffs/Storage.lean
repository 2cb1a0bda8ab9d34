import ZksyncOsServer.MerkleTree.Types

/-!
# State as full diffs

`state_full_diffs/src/storage.rs`. The rows of the `Data` column family are keyed by
`hashed_key || block_number` with a big-endian block number, so they are ordered by
key and then by block. A write batch is applied as a whole; `addBlockBatches` gives
the batches of one call in the order in which they are written. A panic is an error
with its message.
-/
namespace StateFullDiffs

open Fallible
open MerkleTree (B256 Map)

structure StorageWrite where
  key : B256
  value : B256
  deriving DecidableEq

abbrev DataKey := B256 ×ₗ Nat

def keyForStorageWrite (blockNumber : Nat) (k : B256) : DataKey := toLex (k, blockNumber)

/-- The two column families. -/
structure Rocks where
  data : Map DataKey B256
  latestBlock : Option Nat

inductive BatchOp where
  | deleteData (key : DataKey)
  | putData (key : DataKey) (value : B256)
  | putLatestBlock (blockNumber : Nat)
  deriving DecidableEq

def Rocks.apply (rocks : Rocks) : BatchOp → Rocks
  | .deleteData key => { rocks with data := rocks.data.erase key }
  | .putData key value => { rocks with data := rocks.data.insert key value }
  | .putLatestBlock blockNumber => { rocks with latestBlock := some blockNumber }

def Rocks.write (rocks : Rocks) (batch : List BatchOp) : Rocks := batch.foldl Rocks.apply rocks

structure FullDiffsStorage where
  rocks : Rocks
  latestBlock : Nat

namespace FullDiffsStorage

/-- `FullDiffsStorage::new` on a database. -/
def new (rocks : Rocks) : FullDiffsStorage := ⟨rocks, rocks.latestBlock.getD 0⟩

/-- A fresh database. -/
def empty : FullDiffsStorage := new ⟨∅, none⟩

variable (this : FullDiffsStorage)

/-- `read_at`: the last row up to the key, if it is one of the same hashed key. -/
def readAt (blockNumber : Nat) (key : B256) : Option B256 :=
  if this.latestBlock < blockNumber then none
  else
    match SortedMap.last this.rocks.data fun k _ => decide (k ≤ keyForStorageWrite blockNumber key) with
    | some (k, v) => if (ofLex k).1 ≠ key then none else some v
    | none => none

/-- The batch that deletes the rows of `block_number` and of later blocks. -/
def rollbackBatch (blockNumber : Nat) : List BatchOp :=
  (this.rocks.data.keys.filter fun k => blockNumber ≤ (ofLex k).2).map .deleteData

/-- The writes of a block as a `HashMap`: the last write to a key counts. -/
def perKey (writes : List StorageWrite) : Map B256 B256 :=
  writes.foldl (fun m w => m.insert w.key w.value) ∅

def blockBatch (blockNumber : Nat) (writes : List StorageWrite) : List BatchOp :=
  (perKey writes).toList.map (fun (k, v) => .putData (keyForStorageWrite blockNumber k) v)
    ++ [.putLatestBlock blockNumber]

/-- The batches that `add_block` writes; none if it only compares the writes with a block it has. -/
def addBlockBatches (blockNumber : Nat) (writes : List StorageWrite)
    (overrideAllowed : Bool) : Except String (List (List BatchOp)) :=
  if overrideAllowed then
    if blockNumber ≤ this.latestBlock then
      .ok [this.rollbackBatch blockNumber, blockBatch blockNumber writes]
    else .ok [blockBatch blockNumber writes]
  -- The genesis block is not validated.
  else if blockNumber ≠ 0 then
    if blockNumber ≤ this.latestBlock then do
      require (∀ write ∈ writes, (this.readAt blockNumber write.key).getD 0 = write.value)
        "historical write discrepancy"
      return []
    else do
      require (blockNumber = this.latestBlock + 1) "Cannot have gaps in block data"
      return [blockBatch blockNumber writes]
  else .ok [blockBatch blockNumber writes]

def addBlock (blockNumber : Nat) (writes : List StorageWrite) (overrideAllowed : Bool) :
    Except String FullDiffsStorage := do
  match ← this.addBlockBatches blockNumber writes overrideAllowed with
  | [] => return this
  | batches => return ⟨batches.foldl Rocks.write this.rocks, blockNumber⟩

end FullDiffsStorage

end StateFullDiffs
