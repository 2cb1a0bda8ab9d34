import ZksyncOsServer.Batcher.Sealing
import ZksyncOsServer.MiniMerkleTree.Tree
import ZksyncOsServer.Types.BlockOutput

/-!
# The data of a batch that is committed

`batch_types/src/batch_info.rs`, `PendingBatchInfo::build`, and the part of the batcher's
`seal_batch` that calls it. The roots of the logs are those of the mini Merkle tree over the
encoded logs of all blocks, joined with the root of the aggregated chains.
-/
namespace BatchTypes

open Batcher (isPostV31)
open Fallible
open MerkleTree (B256 TreeBatchOutput)
open MiniMerkleTree (Hasher)
open ProverApi (ProtocolSemanticVersion)
open Replay (BlockHashes ReplayRecord)
open Types

/-- `KeccakHasher`, with the empty leaf of trees of logs. -/
def keccakHasher (primitives : Primitives) : Hasher B256 where
  compress lhs rhs := primitives.keccak256 (bytesOf lhs ++ bytesOf rhs)
  emptyLeafHash := primitives.keccak256 (List.replicate l2ToL1LogSerializeSize 0)

/-- `MiniMerkleTree::new` for encoded logs. -/
def newTree (primitives : Primitives) (leaves : List Bytes) (minTreeSize : Option Nat) : Except String (MiniMerkleTree.Tree B256) :=
  MiniMerkleTree.Tree.fromHashes (leaves.map primitives.keccak256) minTreeSize

/-! ### Data availability -/

inductive PubdataMode where
  | blobs
  | calldata
  | validium
  deriving DecidableEq

inductive DACommitmentScheme where
  | none
  | emptyNoDA
  | pubdataKeccak256
  | blobsAndPubdataKeccak256
  | blobsZKsyncOS
  deriving DecidableEq

def PubdataMode.daCommitmentScheme : PubdataMode → DACommitmentScheme
  | .blobs => .blobsZKsyncOS
  | .calldata => .blobsAndPubdataKeccak256
  | .validium => .emptyNoDA

/-- `DAFields`; a sidecar is known by its versioned hashes. -/
structure DAFields where
  daCommitment : B256
  operatorDaInput : Bytes
  blobSidecar : Option (List B256)
  deriving DecidableEq

def pubdataSourceCalldata : UInt8 := 0

/-- `calculate_da_fields`; `buildSidecar` is the sidecar builder for blobs. -/
def calculateDaFields (primitives : Primitives) (buildSidecar : Bytes → Except String (List B256)) (pubdata : Bytes) :
    PubdataMode → Except String DAFields
  | .calldata =>
    let header := bytesOf 0 ++ bytesOf (primitives.keccak256 pubdata) ++ [1] ++ bytesOf 0
    .ok ⟨primitives.keccak256 header, header ++ [pubdataSourceCalldata] ++ pubdata ++ bytesOf 0, none⟩
  | .validium => .ok ⟨0, List.replicate 32 0, none⟩
  | .blobs => do
    let versionedHashes ← buildSidecar pubdata
    let bytes := versionedHashes.flatMap bytesOf
    return ⟨primitives.keccak256 bytes, List.replicate bytes.length 0, some versionedHashes⟩

/-! ### Building the commit data -/

structure CommitBatchInfo where
  batchNumber : Nat
  newStateCommitment : B256
  numberOfLayer1Txs : Nat
  numberOfLayer2Txs : Nat
  priorityOperationsHash : B256
  dependencyRootsRollingHash : B256
  l2ToL1LogsRootHash : B256
  l2DaCommitmentScheme : DACommitmentScheme
  daCommitment : B256
  firstBlockTimestamp : Nat
  firstBlockNumber : Option Nat
  lastBlockTimestamp : Nat
  lastBlockNumber : Option Nat
  chainId : Nat
  operatorDaInput : Bytes
  slChainId : Nat
  deriving DecidableEq

structure PendingBatchInfo where
  commitInfo : CommitBatchInfo
  upgradeTxHash : Option B256
  protocolVersion : ProtocolSemanticVersion
  deriving DecidableEq

/-- What the loop over the transactions accumulates. -/
structure TxTotals where
  priorityOperationsHash : B256
  numberOfLayer1Txs : Nat
  numberOfLayer2Txs : Nat
  upgradeTxHash : Option B256
  dependencyRootsRollingHash : B256

variable (primitives : Primitives)

def TxTotals.start : TxTotals := ⟨primitives.keccak256 [], 0, 0, none, 0⟩

def rollRoot (hash : B256) (root : InteropRoot) : B256 :=
  primitives.keccak256
    (bytesOf hash ++ beBytes 32 root.chainId ++ beBytes 32 root.blockOrBatchNumber ++ root.sides.flatMap bytesOf)

/-- The body of the loop over the transactions. -/
def TxTotals.add (this : TxTotals) (tx : ZkTransaction) : Except String TxTotals :=
  match tx.envelope with
  | .system (.importInteropRoots roots _) =>
    .ok { this with
      numberOfLayer2Txs := this.numberOfLayer2Txs + 1
      dependencyRootsRollingHash := roots.foldl (rollRoot primitives) this.dependencyRootsRollingHash }
  | .system _ => .ok { this with numberOfLayer2Txs := this.numberOfLayer2Txs + 1 }
  | .l2 _ => .ok { this with numberOfLayer2Txs := this.numberOfLayer2Txs + 1 }
  | .l1 l1Tx =>
    .ok { this with
      priorityOperationsHash := primitives.keccak256 (bytesOf this.priorityOperationsHash ++ bytesOf l1Tx.hash)
      numberOfLayer1Txs := this.numberOfLayer1Txs + 1 }
  | .upgrade _ => do
    require (this.upgradeTxHash = none) "more than one upgrade tx in a batch"
    return { this with upgradeTxHash := some (tx.hash primitives) }

/-- The encoded logs of a block, those of rejected transactions left out. -/
def encodedLogs (output : BlockOutput) : List Bytes :=
  output.okResults.flatMap fun txOutput => txOutput.l2ToL1Logs.map L2ToL1Log.encode

def logsRootHash (encodedL2L1Logs : List Bytes) (multichainRoot : B256) (protocolVersion : ProtocolSemanticVersion) :
    Except String B256 := do
  let tree ← newTree primitives encodedL2L1Logs (some l2ToL1TreeSize)
  let l2L1LocalRoot ← tree.merkleRoot (keccakHasher primitives)
  return primitives.keccak256
    (bytesOf l2L1LocalRoot ++ bytesOf (if isPostV31 protocolVersion then multichainRoot else 0))

def stateCommitment (lastBlockOutput : BlockOutput) (lastBlockTree : TreeBatchOutput B256)
    (last256BlockHashes : BlockHashes) : B256 :=
  let last256BlockHashesBlake := primitives.blake2s256
    ((List.ofFn last256BlockHashes).tail.flatMap bytesOf ++ bytesOf lastBlockOutput.header.hash)
  primitives.blake2s256 (bytesOf lastBlockTree.rootHash ++ beBytes 8 lastBlockTree.leafCount ++
    beBytes 8 lastBlockOutput.header.number ++ bytesOf last256BlockHashesBlake ++
    beBytes 8 lastBlockOutput.header.timestamp)

def PendingBatchInfo.build (buildSidecar : Bytes → Except String (List B256))
    (blocks : List (BlockOutput × List ZkTransaction × TreeBatchOutput B256)) (chainId batchNumber : Nat)
    (pubdataMode : PubdataMode) (slChainId : Nat) (multichainRoot : B256) (protocolVersion : ProtocolSemanticVersion)
    (last256BlockHashes : BlockHashes) : Except String (PendingBatchInfo × Option (List B256)) := do
  let first ← ofOption "called unwrap on a None value" blocks.head?
  let last ← ofOption "called unwrap on a None value" blocks.getLast?
  let pubdata ← blocks.mapM (·.1.pubdata.expectBytes)
  let totals ← (blocks.flatMap (·.2.1)).foldlM (TxTotals.add primitives) (.start primitives)
  let daFields ← calculateDaFields primitives buildSidecar pubdata.flatten pubdataMode
  let l2ToL1LogsRootHash ←
    logsRootHash primitives (blocks.flatMap fun block => encodedLogs block.1) multichainRoot protocolVersion
  return ({
    commitInfo := {
      batchNumber
      newStateCommitment := stateCommitment primitives last.1 last.2.2 last256BlockHashes
      numberOfLayer1Txs := totals.numberOfLayer1Txs
      numberOfLayer2Txs := totals.numberOfLayer2Txs
      priorityOperationsHash := totals.priorityOperationsHash
      dependencyRootsRollingHash := totals.dependencyRootsRollingHash
      l2ToL1LogsRootHash
      l2DaCommitmentScheme := pubdataMode.daCommitmentScheme
      daCommitment := daFields.daCommitment
      firstBlockTimestamp := first.1.header.timestamp
      firstBlockNumber := some first.1.header.number
      lastBlockTimestamp := last.1.header.timestamp
      lastBlockNumber := some last.1.header.number
      chainId
      operatorDaInput := daFields.operatorDaInput
      slChainId }
    upgradeTxHash := totals.upgradeTxHash
    protocolVersion }, daFields.blobSidecar)

variable {primitives}

theorem PendingBatchInfo.build_eq_ok {buildSidecar : Bytes → Except String (List B256)}
    {blocks : List (BlockOutput × List ZkTransaction × TreeBatchOutput B256)} {chainId batchNumber slChainId : Nat}
    {pubdataMode : PubdataMode} {multichainRoot : B256} {protocolVersion : ProtocolSemanticVersion}
    {last256BlockHashes : BlockHashes} {info : PendingBatchInfo} {sidecar : Option (List B256)}
    (h : build primitives buildSidecar blocks chainId batchNumber pubdataMode slChainId multichainRoot
      protocolVersion last256BlockHashes = .ok (info, sidecar)) :
    (∃ first last, info.commitInfo.firstBlockNumber = some first ∧ info.commitInfo.lastBlockNumber = some last) ∧
      info.commitInfo.batchNumber = batchNumber ∧ info.protocolVersion = protocolVersion ∧
      logsRootHash primitives (blocks.flatMap fun block => encodedLogs block.1) multichainRoot protocolVersion =
        .ok info.commitInfo.l2ToL1LogsRootHash := by
  simp only [build, bind_eq_ok, pure_eq_ok, Prod.mk.injEq] at h
  obtain ⟨first, -, last, -, pubdata, -, totals, -, daFields, -, root, hroot, rfl, -⟩ := h
  exact ⟨⟨_, _, rfl, rfl⟩, rfl, rfl, hroot⟩

/-! ### Sealing -/

/-- A view of the state: the value of a flat storage key. -/
abbrev StateView := B256 → Option B256

/-- `read_multichain_root`: the node of height `agg_tree_height` at index zero, in the storage of the
message root contract. `deriveFlatStorageKey` is the one of the contract's address. -/
def readMultichainRoot (primitives : Primitives) (deriveFlatStorageKey : B256 → B256) (state : StateView) : B256 :=
  let read key := (state (deriveFlatStorageKey key)).getD 0
  let aggTreeHeight := read 4
  read ([aggTreeHeight, 0].foldl (fun key index =>
    Fin.ofNat (2 ^ 256) ((primitives.keccak256 (bytesOf key)).val + index.val)) 6)

/-- `ProverBlock`: an executed block has one successful result for each transaction of its record, and
both carry the number of the block. -/
structure ExecutedBlock where
  output : BlockOutput
  record : ReplayRecord ZkTransaction
  treeOutput : TreeBatchOutput B256
  results : output.okResults.length = record.transactions.length
  number : output.header.number = record.blockContext.blockNumber

/-- What sealing a batch and proving its logs read of the node. -/
structure Env where
  primitives : Primitives
  buildSidecar : Bytes → Except String (List B256)
  deriveFlatStorageKey : B256 → B256
  effectiveGasPrice : ZkTransaction → Option Nat → Nat
  stateViewAt : Nat → Except String StateView

/-- The commit data of `seal_batch` for the versions whose batches are built by the server. -/
def sealBatchInfo (env : Env) (blocks : List ExecutedBlock) (batchNumber chainId : Nat) (pubdataMode : PubdataMode)
    (slChainId : Nat) : Except String (PendingBatchInfo × Option (List B256)) := do
  let first ← ofOption "called unwrap on a None value" blocks.head?
  let last ← ofOption "called unwrap on a None value" blocks.getLast?
  let stateView ← env.stateViewAt last.record.blockContext.blockNumber
  let built ← PendingBatchInfo.build env.primitives env.buildSidecar
    (blocks.map fun block => (block.output, block.record.transactions, block.treeOutput)) chainId batchNumber pubdataMode
    slChainId (readMultichainRoot env.primitives env.deriveFlatStorageKey stateView) first.record.protocolVersion
    last.record.blockContext.blockHashes
  require (∀ block ∈ blocks.tail, block.record.protocolVersion = first.record.protocolVersion)
    "mismatched protocol versions in batch"
  return built

end BatchTypes
