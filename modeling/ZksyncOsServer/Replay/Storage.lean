import ZksyncOsServer.MerkleTree.Types
import ZksyncOsServer.ProverApi.JobMap

/-!
# The replay log

`storage/src/db/replay.rs`. A column family is a function from its keys to decoded values;
the keys of rows are block numbers and, for reverted blocks, block hashes, which have
different lengths. A write batch is applied as a whole. A panic is an error with its
message; a call that fails has written nothing.
-/
namespace Replay

open Fallible
open MerkleTree (B256)
open ProverApi (ProtocolSemanticVersion)

instance neZero_blockHashes : NeZero 256 := inferInstance

abbrev BlockHashes := Fin 256 → B256

def BlockHashes.empty : BlockHashes := fun _ => 0

def BlockHashes.push (this : BlockHashes) (blockHash : B256) : BlockHashes :=
  fun i => if h : i.val + 1 < 256 then this ⟨i.val + 1, h⟩ else blockHash

structure BlockContext where
  chainId : Nat
  blockNumber : Nat
  blockHashes : BlockHashes
  timestamp : Nat
  eip1559Basefee : Nat
  pubdataPrice : Nat
  nativePrice : Nat
  coinbase : Nat
  gasLimit : Nat
  pubdataLimit : Nat
  mixHash : Nat
  executionVersion : Nat
  blobFee : Nat

-- field by field: a derived instance would not evaluate on windows that are equal by extensionality only
instance : DecidableEq BlockContext := fun a b =>
  decidable_of_iff (a.chainId = b.chainId ∧ a.blockNumber = b.blockNumber ∧ a.blockHashes = b.blockHashes ∧
    a.timestamp = b.timestamp ∧ a.eip1559Basefee = b.eip1559Basefee ∧ a.pubdataPrice = b.pubdataPrice ∧
    a.nativePrice = b.nativePrice ∧ a.coinbase = b.coinbase ∧ a.gasLimit = b.gasLimit ∧
    a.pubdataLimit = b.pubdataLimit ∧ a.mixHash = b.mixHash ∧ a.executionVersion = b.executionVersion ∧
    a.blobFee = b.blobFee) (by cases a; cases b; simp)

structure BlockStartCursors where
  l1PriorityId : Nat
  interopRootId : Nat
  migrationNumber : Nat
  interopFeeNumber : Nat
  deriving DecidableEq

structure ReplayRecord (T : Type) where
  blockContext : BlockContext
  transactions : List T
  previousBlockTimestamp : Nat
  nodeVersion : String
  protocolVersion : ProtocolSemanticVersion
  blockOutputHash : B256
  forcePreimages : List (B256 × List UInt8)
  startingCursors : BlockStartCursors
  deriving DecidableEq

structure SealedRecord (T : Type) extends ReplayRecord T where
  hash : B256
  deriving DecidableEq

/-- `PartialEq for ReplayRecord`: the node version does not count. -/
def ReplayRecord.eq {T : Type} [DecidableEq T] (this other : ReplayRecord T) : Bool :=
  this.blockContext = other.blockContext && this.transactions = other.transactions &&
    this.previousBlockTimestamp = other.previousBlockTimestamp && this.protocolVersion = other.protocolVersion &&
    this.blockOutputHash = other.blockOutputHash && this.forcePreimages = other.forcePreimages &&
    this.startingCursors = other.startingCursors

structure StoredBlockContextV2 where
  blockNumber : Nat
  timestamp : Nat
  eip1559Basefee : Nat
  pubdataPrice : Nat
  nativePrice : Nat
  coinbase : Nat
  gasLimit : Nat
  pubdataLimit : Nat
  mixHash : Nat
  executionVersion : Nat
  blobFee : Nat
  deriving DecidableEq

namespace StoredBlockContextV2

def strip (context : BlockContext) : StoredBlockContextV2 :=
  ⟨context.blockNumber, context.timestamp, context.eip1559Basefee, context.pubdataPrice, context.nativePrice,
    context.coinbase, context.gasLimit, context.pubdataLimit, context.mixHash, context.executionVersion,
    context.blobFee⟩

def intoContext (this : StoredBlockContextV2) (chainId : Nat) (blockHashes : BlockHashes) : BlockContext :=
  ⟨chainId, this.blockNumber, blockHashes, this.timestamp, this.eip1559Basefee, this.pubdataPrice, this.nativePrice,
    this.coinbase, this.gasLimit, this.pubdataLimit, this.mixHash, this.executionVersion, this.blobFee⟩

end StoredBlockContextV2

inductive DbKey where
  | number (n : Nat)
  | hash (h : B256)
  deriving DecidableEq

/-- Writes one value of a column family. -/
def putCf {K V : Type} [DecidableEq K] (cf : K → Option V) (key : K) (value : V) : K → Option V :=
  Function.update cf key (some value)

structure BlockReplayStorage (T : Type) where
  chainId : Nat
  context : DbKey → Option BlockContext
  contextV2 : DbKey → Option StoredBlockContextV2
  startingL1SerialId : DbKey → Option Nat
  txs : DbKey → Option (List T)
  nodeVersion : DbKey → Option String
  protocolVersion : DbKey → Option ProtocolSemanticVersion
  forcePreimages : DbKey → Option (List (B256 × List UInt8))
  blockOutputHash : DbKey → Option B256
  startingInteropRootId : DbKey → Option Nat
  startingMigrationNumber : DbKey → Option Nat
  startingInteropFeeNumber : DbKey → Option Nat
  canonicalHash : Nat → Option B256
  latest : Option DbKey

namespace BlockReplayStorage

variable {T : Type}

def newWithoutGenesis (chainId : Nat) : BlockReplayStorage T where
  chainId
  context _ := none
  contextV2 _ := none
  startingL1SerialId _ := none
  txs _ := none
  nodeVersion _ := none
  protocolVersion _ := none
  forcePreimages _ := none
  blockOutputHash _ := none
  startingInteropRootId _ := none
  startingMigrationNumber _ := none
  startingInteropFeeNumber _ := none
  canonicalHash _ := none
  latest := none

variable (this : BlockReplayStorage T)

def latestRecordChecked : Except String (Option Nat) :=
  match this.latest with
  | none => .ok none
  | some (.number n) => .ok (some n)
  | some (.hash _) => .error "assertion failed: bytes.len() == 8"

def latestRecord : Except String Nat := do
  ofOption "no blocks in BlockReplayStorage" (← this.latestRecordChecked)

def putRow (key : DbKey) (record : ReplayRecord T) : BlockReplayStorage T :=
  { this with
    context := putCf this.context key record.blockContext
    startingL1SerialId := putCf this.startingL1SerialId key record.startingCursors.l1PriorityId
    txs := putCf this.txs key record.transactions
    nodeVersion := putCf this.nodeVersion key record.nodeVersion
    blockOutputHash := putCf this.blockOutputHash key record.blockOutputHash
    protocolVersion := putCf this.protocolVersion key record.protocolVersion
    forcePreimages := putCf this.forcePreimages key record.forcePreimages
    startingInteropRootId := putCf this.startingInteropRootId key record.startingCursors.interopRootId
    startingMigrationNumber := putCf this.startingMigrationNumber key record.startingCursors.migrationNumber
    startingInteropFeeNumber := putCf this.startingInteropFeeNumber key record.startingCursors.interopFeeNumber }

/-- What `write_replay_unchecked` writes for canonical rows only. -/
def putCanonical (record : SealedRecord T) : BlockReplayStorage T :=
  { this with
    contextV2 := putCf this.contextV2 (.number record.blockContext.blockNumber) (.strip record.blockContext)
    canonicalHash := putCf this.canonicalHash record.blockContext.blockNumber record.hash }

def writeReplayUnchecked (record : SealedRecord T) (isCanonical : Bool) :
    Except String (BlockReplayStorage T) := do
  let dbKey := if isCanonical then .number record.blockContext.blockNumber else .hash record.hash
  let latest ← this.latestRecordChecked
  let batch := (if isCanonical then this.putCanonical record else this).putRow dbKey record.toReplayRecord
  return if latest.all (· < record.blockContext.blockNumber) then { batch with latest := some dbKey } else batch

def getCanonicalBlockHash (blockNumber : Nat) : Except String B256 :=
  match this.canonicalHash blockNumber with
  | some hash => .ok hash
  | none => do
    let latest ← this.latestRecord
    require (latest > blockNumber) "assertion failed: latest > block_number"
    let _ ← ofOption "Cannot guarantee correctness until latest is updated" (this.canonicalHash latest)
    let context ← ofOption "Record is missing" (this.context (.number (blockNumber + 1)))
    return context.blockHashes 255

/-- `read_block_hashes`: the hash of block `n` stands at index `n + 256 - blockNumber`; the
embedded copy is read if an entry is missing. -/
def readBlockHashes (blockNumber : Nat) (key : DbKey) : Except String BlockHashes := do
  let first := blockNumber - 256
  let embedded ←
    if (List.range' first (blockNumber - first)).all fun number => (this.canonicalHash number).isSome then
      pure BlockHashes.empty
    else do
      let context ← ofOption "canonical rows are dual-written; legacy copy must exist" (this.context key)
      pure context.blockHashes
  return fun i =>
    if 256 ≤ blockNumber + i.val then (this.canonicalHash (blockNumber + i.val - 256)).getD (embedded i) else 0

def getContextByKey (blockNumber : Nat) (key : DbKey) :
    Except String (Option BlockContext) :=
  match this.contextV2 key with
  | some stored => do
    require (stored.blockNumber = blockNumber) "block number mismatch when reading context"
    return some (stored.intoContext this.chainId (← this.readBlockHashes blockNumber key))
  | none => .ok (this.context key)

def getBlockTimestamp (blockNumber : Nat) : Option Nat :=
  ((this.contextV2 (.number blockNumber)).map (·.timestamp)).or
    ((this.context (.number blockNumber)).map (·.timestamp))

def getContext (blockNumber : Nat) : Except String (Option BlockContext) :=
  this.getContextByKey blockNumber (.number blockNumber)

def legacyGenesisVersion : ProtocolSemanticVersion := ⟨0, 29, 1⟩

def readProtocolVersion (blockNumber : Nat) (key : DbKey) :
    Except String ProtocolSemanticVersion :=
  match this.protocolVersion key with
  | some version => .ok version
  | none =>
    if (this.protocolVersion (.number 0)).isSome then
      .error s!"ProtocolVersion missing for block {blockNumber} despite being present for genesis block"
    else .ok legacyGenesisVersion

def assembleReplayRecord (blockNumber : Nat) (key : DbKey)
    (blockContext : BlockContext) : Except String (ReplayRecord T) := do
  let l1PriorityId ← ofOption "StartingL1SerialId must be written atomically with Context" (this.startingL1SerialId key)
  let transactions ← ofOption "Txs must be written atomically with Context" (this.txs key)
  let previousBlockTimestamp := if blockNumber = 0 then 0 else (this.getBlockTimestamp (blockNumber - 1)).getD 0
  let nodeVersion ← ofOption "NodeVersion must be written atomically with Context" (this.nodeVersion key)
  let protocolVersion ← this.readProtocolVersion blockNumber key
  let blockOutputHash ← ofOption "BlockOutputHash must be written atomically with Context" (this.blockOutputHash key)
  return {
    blockContext, transactions, previousBlockTimestamp, nodeVersion, protocolVersion, blockOutputHash
    forcePreimages := (this.forcePreimages key).getD []
    startingCursors := {
      l1PriorityId
      interopRootId := (this.startingInteropRootId key).getD 0
      migrationNumber := (this.startingMigrationNumber key).getD 0
      interopFeeNumber := (this.startingInteropFeeNumber key).getD 0 } }

def getReplayRecordByKey (blockNumber : Nat) (dbKey : Option DbKey) :
    Except String (Option (ReplayRecord T)) := do
  let key := dbKey.getD (.number blockNumber)
  match ← this.getContextByKey blockNumber key with
  | some blockContext => some <$> this.assembleReplayRecord blockNumber key blockContext
  | none => return none

def getReplayRecord (blockNumber : Nat) : Except String (Option (ReplayRecord T)) :=
  this.getReplayRecordByKey blockNumber none

def getReplayRecordWithOriginalHashes (blockNumber : Nat) :
    Except String (Option (ReplayRecord T)) :=
  match this.context (.number blockNumber) with
  | some blockContext => some <$> this.assembleReplayRecord blockNumber (.number blockNumber) blockContext
  | none => this.getReplayRecord blockNumber

variable [DecidableEq T]

/-- The archiving of the record that is about to be overridden. -/
def archive (this : BlockReplayStorage T) (record : SealedRecord T) : Except String (BlockReplayStorage T) := do
  let blockNumber := record.blockContext.blockNumber
  let oldRecord ← ofOption "Old record must exist" (← this.getReplayRecordWithOriginalHashes blockNumber)
  if oldRecord.eq record.toReplayRecord then return this
  else this.writeReplayUnchecked { oldRecord with hash := ← this.getCanonicalBlockHash blockNumber } false

/-- `write`: whether the record was written, and the storage after the call. -/
def write (this : BlockReplayStorage T) (record : SealedRecord T) (overrideAllowed : Bool) :
    Except String (Bool × BlockReplayStorage T) := do
  let blockNumber := record.blockContext.blockNumber
  match ← this.latestRecordChecked with
  | none =>
    require (blockNumber = 0) s!"tried to append first replay record with non-zero block number: {blockNumber}"
    return (true, ← this.writeReplayUnchecked record true)
  | some currentLatestRecord =>
    if blockNumber ≤ currentLatestRecord ∧ overrideAllowed = false then return (false, this)
    require (blockNumber ≤ currentLatestRecord + 1)
      s!"tried to append non-sequential replay record: {blockNumber} > {currentLatestRecord + 1}"
    let archived ← if blockNumber ≤ currentLatestRecord then this.archive record else pure this
    return (true, ← archived.writeReplayUnchecked record true)

end BlockReplayStorage

end Replay
