import ZksyncOsServer.BatchTypes.BatchInfo
import ZksyncOsServer.MiniMerkleTree.Refinement
import ZksyncOsServer.Repository.InMemory

/-!
# Proofs of L2-to-L1 logs

`rpc/src/zks_impl.rs`, `get_l2_to_l1_log_proof`, and the encoding of the proof in
`log_proof_utils.rs`. The leaves of a batch are rebuilt from the stored receipts, block by block.
They are the logs that the batcher collected from the results of the execution, so the proof
leads to the root that was committed.
-/
namespace Rpc

open BatchTypes List
open BinaryMerkle (climb)
open Fallible
open InMemory (Holds ReadRepository)
open MerkleTree (B256)
open ProverApi (ProtocolSemanticVersion)
open Replay (ReplayRecord)
open Types

/-- `PersistedBatch`, the fields that are read. -/
structure PersistedBatch where
  number : Nat
  firstBlock : Nat
  lastBlock : Nat
  executeSlBlockNumber : Option Nat

def PersistedBatch.blockRange (this : PersistedBatch) : List Nat :=
  List.range' this.firstBlock (this.lastBlock + 1 - this.firstBlock)

inductive LogProofTarget where
  | l1BatchRoot
  | messageRoot
  deriving DecidableEq

/-- `ZksError`, with the panic of an `expect`. -/
inductive ZksError where
  | blockNotAvailable (number : Nat)
  | txNotAvailable (hash : B256)
  | indexOutOfBounds (index length : Nat)
  | messageRootProofUnsupportedProtocolVersion (batchNumber : Nat) (required actual : ProtocolSemanticVersion)
  | batch (message : String)
  | repository (message : String)
  | state (message : String)
  | panic (message : String)

structure L2ToL1LogProof where
  batchNumber : Nat
  proof : List B256
  id : Nat
  root : B256
  settlementLayerBlockNumber : Option Nat

structure MessageRootProofExtension where
  batchProofLen : UInt8
  words : List B256

structure RpcStorage where
  repository : ReadRepository
  getBatchByBlockNumber : Nat → Except String (Option PersistedBatch)
  getReplayRecord : Nat → Option (ReplayRecord ZkTransaction)
  buildMessageRootProofExtension : Nat → Nat → Except String MessageRootProofExtension

/-! ### Encoding -/

def logProofSupportedMetadataVersion : UInt8 := 1

def proofMetadata (logProofLen : Nat) (batchProofLen : UInt8) (isFinalNode : Bool) : B256 :=
  B256.ofBytes ([logProofSupportedMetadataVersion, UInt8.ofNat logProofLen, batchProofLen,
    if isFinalNode then 1 else 0] ++ List.replicate 28 0)

def assembleLogProof (logLeafProof : List B256) (extension : Option MessageRootProofExtension) : List B256 :=
  match extension with
  | some extension =>
    proofMetadata logLeafProof.length extension.batchProofLen false :: logLeafProof ++ extension.words
  | none => proofMetadata logLeafProof.length 0 true :: logLeafProof

/-! ### The leaves of a batch -/

/-- What the loops over the blocks and their transactions accumulate. -/
structure Leaves where
  batchIndex : Option Nat
  merkleTreeLeaves : List Bytes

def Leaves.addTx (repository : ReadRepository) (txHash : B256) (index : Nat) (this : Leaves) (blockTxHash : B256) :
    Except ZksError Leaves := do
  let found ← (repository.getTransactionReceipt blockTxHash).mapError .repository
  let receipt ← ofOption (.txNotAvailable blockTxHash) found
  let l2ToL1Logs := receipt.intoL2ToL1Logs
  require (blockTxHash = txHash → index < l2ToL1Logs.length) (ZksError.indexOutOfBounds index l2ToL1Logs.length)
  return {
    batchIndex := if blockTxHash = txHash then some (this.merkleTreeLeaves.length + index) else this.batchIndex
    merkleTreeLeaves := this.merkleTreeLeaves ++ l2ToL1Logs.map L2ToL1Log.encode }

/-- The loop over the blocks of a batch. -/
def Leaves.addBlock (repository : ReadRepository) (txHash : B256) (index : Nat) (this : Leaves) (number : Nat) :
    Except ZksError Leaves := do
  let found ← (repository.getBlockByNumber number).mapError .repository
  let block ← ofOption (.blockNotAvailable number) found
  block.transactions.foldlM (addTx repository txHash index) this

def minVersionWithL1Interop : ProtocolSemanticVersion := ⟨0, 32, 0⟩

def supportsL1Interop (version : ProtocolSemanticVersion) : Bool :=
  let key (version : ProtocolSemanticVersion) := toLex (version.major, toLex (version.minor, version.patch))
  key minVersionWithL1Interop ≤ key version

def proofExtension (storage : RpcStorage) (batch : PersistedBatch) (protocolVersion : ProtocolSemanticVersion) :
    LogProofTarget → Except ZksError (Option MessageRootProofExtension × Option Nat)
  | .messageRoot => do
    require (supportsL1Interop protocolVersion = true)
      (ZksError.messageRootProofUnsupportedProtocolVersion batch.number minVersionWithL1Interop protocolVersion)
    let executeSlBlockNumber ←
      ofOption (ZksError.batch "batch has not been executed on L1 yet") batch.executeSlBlockNumber
    let extension ← (storage.buildMessageRootProofExtension batch.number executeSlBlockNumber).mapError .batch
    return (some extension, some executeSlBlockNumber)
  | .l1BatchRoot => .ok (none, none)

/-- The part of `get_l2_to_l1_log_proof_impl` after the batch was found. -/
def proveLog (env : Env) (storage : RpcStorage) (batch : PersistedBatch)
    (txHash : B256) (index : Nat) (proofTarget : LogProofTarget) : Except ZksError L2ToL1LogProof := do
  let leaves ← batch.blockRange.foldlM (Leaves.addBlock storage.repository txHash index) ⟨none, []⟩
  let l1LogIndex ← ofOption
    (ZksError.panic "transaction not found in the batch that was supposed to contain it") leaves.batchIndex
  let tree ← (newTree env.primitives leaves.merkleTreeLeaves (some l2ToL1TreeSize)).mapError .panic
  let (localRoot, path) ← (tree.merkleRootAndPath (keccakHasher env.primitives) l1LogIndex).mapError .panic
  let state ← (env.stateViewAt batch.lastBlock).mapError .state
  let lastBlockReplayRecord ← ofOption (.blockNotAvailable batch.lastBlock) (storage.getReplayRecord batch.lastBlock)
  let multichainRoot :=
    if Batcher.isPostV31 lastBlockReplayRecord.protocolVersion then
      readMultichainRoot env.primitives env.deriveFlatStorageKey state
    else 0
  let (extension, settlementLayerBlockNumber) ←
    proofExtension storage batch lastBlockReplayRecord.protocolVersion proofTarget
  return {
    batchNumber := batch.number
    proof := assembleLogProof (path ++ [multichainRoot]) extension
    root := env.primitives.keccak256 (bytesOf localRoot ++ bytesOf multichainRoot)
    id := l1LogIndex % 2 ^ 32
    settlementLayerBlockNumber }

def getL2ToL1LogProof (env : Env) (storage : RpcStorage) (txHash : B256)
    (index : Nat) (proofTarget : LogProofTarget) : Except ZksError (Option L2ToL1LogProof) := do
  let some txMeta ← (storage.repository.getTransactionMeta txHash).mapError .repository | return none
  let some batch ← (storage.getBatchByBlockNumber txMeta.blockNumber).mapError .batch | return none
  let proof ← proveLog env storage batch txHash index proofTarget
  return some proof

/-! ### The rebuilt leaves -/

/-- A transaction of a batch with its logs. -/
abbrev Entry := B256 × List L2ToL1Log

/-- The transactions of an executed block with the logs of their results. -/
def entries (primitives : Primitives) (block : ExecutedBlock) : List Entry :=
  (block.record.transactions.zip block.output.okResults).map fun p => (p.1.hash primitives, p.2.l2ToL1Logs)

theorem entries_hashes (primitives : Primitives) (block : ExecutedBlock) :
    (entries primitives block).map (·.1) = block.record.transactions.map (·.hash primitives) := by
  have hfst : (block.record.transactions.zip block.output.okResults).map Prod.fst = block.record.transactions :=
    map_fst_zip block.results.ge
  rw [entries, map_map, ← hfst, map_map, hfst]
  rfl

theorem entries_logs (primitives : Primitives) (block : ExecutedBlock) :
    (entries primitives block).flatMap (fun e => e.2.map L2ToL1Log.encode) = encodedLogs block.output := by
  have hsnd : (block.record.transactions.zip block.output.okResults).map Prod.snd = block.output.okResults :=
    map_snd_zip block.results.le
  rw [entries, flatMap_map, encodedLogs, ← hsnd, flatMap_map, hsnd]

def HasReceipt (repository : ReadRepository) (e : Entry) : Prop :=
  ∃ receipt, repository.getTransactionReceipt e.1 = .ok (some receipt) ∧ receipt.intoL2ToL1Logs = e.2

variable {env : Env} {es : List Entry} {blocks : List ExecutedBlock} {batch : PersistedBatch}

theorem hasReceipt_of_holds {repository : ReadRepository} {block : ExecutedBlock}
    (h : Holds env.primitives env.effectiveGasPrice repository block.output block.record.transactions) :
    ∀ e ∈ entries env.primitives block, HasReceipt repository e := by
  intro e he
  obtain ⟨i, hi⟩ := mem_iff_getElem?.mp he
  simp only [entries, getElem?_map, Option.map_eq_some_iff, getElem?_zip_eq_some] at hi
  obtain ⟨⟨tx, txOutput⟩, ⟨htx, hout⟩, rfl⟩ := hi
  obtain ⟨logsBefore, gasBefore, data, hapi, hreceipt, -⟩ := h.txs i tx htx
  simp only [InMemory.transactionToApiData, bind_eq_ok, ofOption_eq_ok, pure_eq_ok] at hapi
  obtain ⟨txOutput', hout', rfl⟩ := hapi
  obtain rfl : txOutput = txOutput' := Option.some.inj (hout.symm.trans hout')
  exact ⟨_, hreceipt, rfl⟩

/-- One transaction, without the failures. -/
def Leaves.scan (txHash : B256) (index : Nat) (this : Leaves) (e : Entry) : Leaves where
  batchIndex := if e.1 = txHash then some (this.merkleTreeLeaves.length + index) else this.batchIndex
  merkleTreeLeaves := this.merkleTreeLeaves ++ e.2.map L2ToL1Log.encode

variable {repository : ReadRepository} {txHash : B256} {index : Nat}

theorem addTx_eq_scan (this : Leaves) {e : Entry} (hreceipt : HasReceipt repository e)
    (hindex : e.1 = txHash → index < e.2.length) :
    this.addTx repository txHash index e.1 = .ok (this.scan txHash index e) := by
  obtain ⟨receipt, hget, hlogs⟩ := hreceipt
  rw [Leaves.addTx, hget]
  simp only [Except.mapError, ok_bind, ofOption_some, hlogs, require_pos hindex]
  rfl

theorem foldlM_addTx (this : Leaves) (hreceipt : ∀ e ∈ es, HasReceipt repository e)
    (hindex : ∀ e ∈ es, e.1 = txHash → index < e.2.length) :
    (es.map (·.1)).foldlM (Leaves.addTx repository txHash index) this =
      .ok (es.foldl (Leaves.scan txHash index) this) := by
  induction es generalizing this with
  | nil => rfl
  | cons e es ih =>
    rw [map_cons, foldlM_cons, foldl_cons,
      addTx_eq_scan this (hreceipt e mem_cons_self) (hindex e mem_cons_self), ok_bind]
    exact ih _ (fun e' he => hreceipt e' (mem_cons_of_mem e he)) fun e' he => hindex e' (mem_cons_of_mem e he)

theorem foldlM_addBlock (this : Leaves) (hholds : ∀ block ∈ blocks,
      Holds env.primitives env.effectiveGasPrice repository block.output block.record.transactions)
    (hindex : ∀ e ∈ blocks.flatMap (entries env.primitives), e.1 = txHash → index < e.2.length) :
    (blocks.map (·.output.header.number)).foldlM (Leaves.addBlock repository txHash index) this =
      .ok ((blocks.flatMap (entries env.primitives)).foldl (Leaves.scan txHash index) this) := by
  induction blocks generalizing this with
  | nil => rfl
  | cons block blocks ih =>
    have hblock := hholds block mem_cons_self
    rw [flatMap_cons] at hindex
    have hadd : this.addBlock repository txHash index block.output.header.number =
        .ok ((entries env.primitives block).foldl (Leaves.scan txHash index) this) := by
      rw [Leaves.addBlock, hblock.block]
      simp only [Except.mapError, ok_bind, ofOption_some, InMemory.RepositoryInMemory.blockOf]
      rw [← entries_hashes]
      exact foldlM_addTx this (hasReceipt_of_holds hblock) fun e he => hindex e (mem_append_left _ he)
    rw [map_cons, foldlM_cons, hadd, ok_bind, flatMap_cons, foldl_append]
    exact ih _ (fun b hb => hholds b (mem_cons_of_mem block hb)) fun e he => hindex e (mem_append_right _ he)

theorem scan_leaves (this : Leaves) (es : List Entry) : (es.foldl (Leaves.scan txHash index) this).merkleTreeLeaves =
      this.merkleTreeLeaves ++ es.flatMap fun e => e.2.map L2ToL1Log.encode := by
  induction es generalizing this with
  | nil => simp
  | cons e es ih => rw [foldl_cons, ih, flatMap_cons, ← append_assoc]; rfl

theorem scan_batchIndex_of_notMem (this : Leaves) (h : txHash ∉ es.map (·.1)) :
    (es.foldl (Leaves.scan txHash index) this).batchIndex = this.batchIndex := by
  induction es generalizing this with
  | nil => rfl
  | cons e es ih =>
    rw [map_cons, mem_cons, not_or] at h
    rw [foldl_cons, ih _ h.2, Leaves.scan, if_neg (Ne.symm h.1)]

theorem scan_batchIndex {before after : List Entry} {logs : List L2ToL1Log} (hafter : txHash ∉ after.map (·.1)) :
    ((before ++ (txHash, logs) :: after).foldl (Leaves.scan txHash index) ⟨none, []⟩).batchIndex =
      some ((before.flatMap fun e => e.2.map L2ToL1Log.encode).length + index) := by
  rw [foldl_append, foldl_cons, scan_batchIndex_of_notMem _ hafter, Leaves.scan, if_pos rfl, scan_leaves, nil_append]

/-! ### Roots and paths -/

theorem tree_of_leaves (primitives : Primitives) {leaves : List Bytes} (hcount : leaves.length ≤ l2ToL1TreeSize) :
    ∃ tree root, newTree primitives leaves (some l2ToL1TreeSize) = .ok tree ∧
      tree.merkleRoot (keccakHasher primitives) = .ok root ∧
      ∀ (i : Nat) leaf, leaves[i]? = some leaf → ∃ path,
        tree.merkleRootAndPath (keccakHasher primitives) i = .ok (root, path) ∧
          climb (keccakHasher primitives).compress (primitives.keccak256 leaf) i path = root := by
  have hsize : ∀ size ∈ some l2ToL1TreeSize, ∃ k, k ≤ MiniMerkleTree.maxTreeDepth ∧ size = 2 ^ k := by
    rintro size ⟨⟩
    exact ⟨14, by decide, rfl⟩
  have hmax : (leaves.map primitives.keccak256).length ≤ 2 ^ MiniMerkleTree.maxTreeDepth := by
    rw [length_map]
    exact hcount.trans (by decide)
  obtain ⟨tree, depth, htree, hrefines, hhashes, hnone⟩ :=
    MiniMerkleTree.refines_fromHashes (keccakHasher primitives) (leaves.map primitives.keccak256) hsize hmax
  refine ⟨tree, _, htree, hrefines.merkleRoot fun _ => hnone, fun i leaf hleaf => ?_⟩
  obtain ⟨hi, hget⟩ := List.getElem?_eq_some_iff.mp hleaf
  have hlt : i < (leaves.map primitives.keccak256).length := by rwa [length_map]
  have hstart : tree.startIndex = 0 := by
    have hlength := congrArg length (hhashes.symm.trans hrefines.hashes)
    rw [length_drop] at hlength
    omega
  have hpath := hrefines.merkleRootAndPath (hhashes ▸ hlt)
  rw [hstart, Nat.zero_add] at hpath
  refine ⟨_, hpath, ?_⟩
  have hclimb := MiniMerkleTree.climb_naivePath (keccakHasher primitives) (tree.emptyLeaf (keccakHasher primitives)) hlt
    hrefines.fits
  rwa [getElem_map, hget] at hclimb

/-! ### Stored batches -/

/-- The storage of the RPC holds a batch: its blocks with their results, the range of its blocks and the
record of the last one. -/
structure Stored (env : Env) (storage : RpcStorage) (blocks : List ExecutedBlock) (batchNumber : Nat) : Prop where
  consecutive : ∃ first, blocks.map (·.output.header.number) = List.range' first blocks.length
  holds : ∀ block ∈ blocks,
    Holds env.primitives env.effectiveGasPrice storage.repository block.output block.record.transactions
  batch : ∀ block ∈ blocks, ∃ batch, storage.getBatchByBlockNumber block.output.header.number = .ok (some batch) ∧
    batch.number = batchNumber ∧ blocks.head?.map (·.output.header.number) = some batch.firstBlock ∧
      blocks.getLast?.map (·.output.header.number) = some batch.lastBlock
  record : ∀ last ∈ blocks.getLast?, storage.getReplayRecord last.output.header.number = some last.record

theorem blockRange_eq {first : Nat}
    (hconsecutive : blocks.map (·.output.header.number) = range' first blocks.length)
    (hfirst : blocks.head?.map (·.output.header.number) = some batch.firstBlock)
    (hlast : blocks.getLast?.map (·.output.header.number) = some batch.lastBlock) :
    batch.blockRange = blocks.map (·.output.header.number) := by
  rw [← head?_map, hconsecutive] at hfirst
  rw [← getLast?_map, hconsecutive] at hlast
  have hpos : blocks.length ≠ 0 := fun h => by simp [h] at hfirst
  have hf : first = batch.firstBlock := by simpa [head?_range', hpos] using hfirst
  have hl : first + blocks.length - 1 = batch.lastBlock := by simpa [getLast?_range', hpos] using hlast
  rw [hconsecutive, PersistedBatch.blockRange, ← hf, ← hl]
  congr 1
  omega

theorem sealed_version {first last : ExecutedBlock} (hfirst : blocks.head? = some first)
    (hlast : blocks.getLast? = some last)
    (hsame : ∀ block ∈ blocks.tail, block.record.protocolVersion = first.record.protocolVersion) :
    last.record.protocolVersion = first.record.protocolVersion := by
  cases blocks with
  | nil => simp at hfirst
  | cons block blocks =>
    obtain rfl : block = first := by simpa using hfirst
    rcases mem_cons.mp (mem_of_getLast? hlast) with rfl | hmem
    · rfl
    · exact hsame last hmem

/-- The node that is joined with the root of the logs: the root of the aggregated chains from v31 on. -/
def multichainNode (env : Env) (protocolVersion : ProtocolSemanticVersion) (state : StateView) : B256 :=
  if Batcher.isPostV31 protocolVersion then readMultichainRoot env.primitives env.deriveFlatStorageKey state else 0

theorem sealBatchInfo_eq_ok {batchNumber chainId slChainId : Nat}
    {pubdataMode : PubdataMode} {info : PendingBatchInfo} {sidecar : Option (List B256)}
    (h : sealBatchInfo env blocks batchNumber chainId pubdataMode slChainId = .ok (info, sidecar)) :
    ∃ last state, blocks.getLast? = some last ∧ env.stateViewAt last.output.header.number = .ok state ∧
      ∃ tree root, newTree env.primitives (blocks.flatMap fun block => encodedLogs block.output) (some l2ToL1TreeSize) =
          .ok tree ∧ tree.merkleRoot (keccakHasher env.primitives) = .ok root ∧
        info.commitInfo.l2ToL1LogsRootHash =
          (keccakHasher env.primitives).compress root (multichainNode env last.record.protocolVersion state) := by
  simp only [sealBatchInfo, bind_eq_ok, ofOption_eq_ok, require_eq_ok, pure_eq_ok, exists_and_left] at h
  obtain ⟨first, hfirst, last, hlast, state, hstate, built, hbuilt, hsame, -, rfl⟩ := h
  obtain ⟨-, -, -, hroot⟩ := PendingBatchInfo.build_eq_ok hbuilt
  simp only [logsRootHash, flatMap_map, bind_eq_ok, pure_eq_ok] at hroot
  obtain ⟨tree, htree, root, hmerkle, hinfo⟩ := hroot
  refine ⟨last, state, hlast, last.number ▸ hstate, tree, root, htree, hmerkle, ?_⟩
  rw [← hinfo, multichainNode, sealed_version hfirst hlast hsame]
  rfl

theorem proveLog_eq {storage : RpcStorage} {leaves : Leaves} {position : Nat}
    {tree : MiniMerkleTree.Tree B256} {root : B256} {path : List B256} {state : StateView}
    {record : ReplayRecord ZkTransaction}
    (hleaves : batch.blockRange.foldlM (Leaves.addBlock storage.repository txHash index) ⟨none, []⟩ = .ok leaves)
    (hposition : leaves.batchIndex = some position)
    (htree : newTree env.primitives leaves.merkleTreeLeaves (some l2ToL1TreeSize) = .ok tree)
    (hpath : tree.merkleRootAndPath (keccakHasher env.primitives) position = .ok (root, path))
    (hstate : env.stateViewAt batch.lastBlock = .ok state)
    (hrecord : storage.getReplayRecord batch.lastBlock = some record) :
    proveLog env storage batch txHash index .l1BatchRoot = .ok {
      batchNumber := batch.number
      proof := assembleLogProof (path ++ [multichainNode env record.protocolVersion state]) none
      root := (keccakHasher env.primitives).compress root (multichainNode env record.protocolVersion state)
      id := position % 2 ^ 32
      settlementLayerBlockNumber := none } := by
  rw [proveLog, hleaves, ok_bind, hposition, ofOption_some, ok_bind, htree, Except.mapError, ok_bind, hpath,
    Except.mapError, ok_bind, hstate, hrecord]
  rfl

theorem getL2ToL1LogProof_eq {storage : RpcStorage} {target : LogProofTarget} {txMeta : InMemory.TxMeta} {proof : L2ToL1LogProof}
    (hmeta : storage.repository.getTransactionMeta txHash = .ok (some txMeta))
    (hbatch : storage.getBatchByBlockNumber txMeta.blockNumber = .ok (some batch))
    (hprove : proveLog env storage batch txHash index target = .ok proof) :
    getL2ToL1LogProof env storage txHash index target = .ok (some proof) := by
  rw [getL2ToL1LogProof, hmeta]
  simp only [Except.mapError, ok_bind, hbatch, hprove]
  rfl

theorem leaves_of_log (hnodup : (es.map (·.1)).Nodup) {logs : List L2ToL1Log}
    (hmem : (txHash, logs) ∈ es) {log : L2ToL1Log} (hlog : logs[index]? = some log) :
    (∀ e ∈ es, e.1 = txHash → index < e.2.length) ∧
      ∃ position, (es.foldl (Leaves.scan txHash index) ⟨none, []⟩).batchIndex = some position ∧
        (es.flatMap fun e => e.2.map L2ToL1Log.encode)[position]? = some log.encode := by
  obtain ⟨hlt, -⟩ := List.getElem?_eq_some_iff.mp hlog
  constructor
  · intro e he heq
    obtain rfl : e = (txHash, logs) := inj_on_of_nodup_map hnodup he hmem heq
    exact hlt
  · obtain ⟨before, after, rfl⟩ := append_of_mem hmem
    rw [map_append, map_cons] at hnodup
    have hafter : txHash ∉ after.map (·.1) := (nodup_cons.mp hnodup.of_append_right).1
    refine ⟨_, scan_batchIndex hafter, ?_⟩
    rw [flatMap_append, getElem?_append_right (Nat.le_add_right _ _), Nat.add_sub_cancel_left,
      flatMap_cons, getElem?_append_left (by rwa [length_map]), getElem?_map, hlog, Option.map_some]

/-- The proof of a log of a committed batch leads from the log at its position to the committed root. -/
theorem log_proof_matches_commitment (env : Env) (storage : RpcStorage) (blocks : List ExecutedBlock)
    (batchNumber chainId : Nat) (pubdataMode : PubdataMode) (slChainId : Nat) (info : PendingBatchInfo)
    (sidecar : Option (List B256))
    (hseal : sealBatchInfo env blocks batchNumber chainId pubdataMode slChainId = .ok (info, sidecar))
    (hstored : Stored env storage blocks batchNumber)
    (hhashes : (blocks.flatMap fun block => block.record.transactions.map (·.hash env.primitives)).Nodup)
    (hcount : (blocks.flatMap fun block => encodedLogs block.output).length ≤ l2ToL1TreeSize)
    (block : ExecutedBlock) (hblock : block ∈ blocks) (i : Nat) (tx : ZkTransaction)
    (htx : block.record.transactions[i]? = some tx) (txOutput : TxOutput)
    (hout : block.output.okResults[i]? = some txOutput) (index : Nat) (log : L2ToL1Log)
    (hlog : txOutput.l2ToL1Logs[index]? = some log) :
    ∃ proof metadata path last state,
      getL2ToL1LogProof env storage (tx.hash env.primitives) index .l1BatchRoot = .ok (some proof) ∧
      proof.batchNumber = batchNumber ∧
      proof.root = info.commitInfo.l2ToL1LogsRootHash ∧
      blocks.getLast? = some last ∧ env.stateViewAt last.output.header.number = .ok state ∧
      proof.proof = metadata :: (path ++ [multichainNode env last.record.protocolVersion state]) ∧
      (keccakHasher env.primitives).compress
        (climb (keccakHasher env.primitives).compress (env.primitives.keccak256 log.encode) proof.id path)
        (multichainNode env last.record.protocolVersion state) = proof.root := by
  obtain ⟨last, state, hlast, hstate, tree, root, htree, hroot, hinfo⟩ := sealBatchInfo_eq_ok hseal
  obtain ⟨first, hconsecutive⟩ := hstored.consecutive
  obtain ⟨batch, hbatch, hnumber, hfirstBlock, hlastBlock⟩ := hstored.batch block hblock
  -- the entries of the batch, in the order of the rebuilt leaves
  have hentries : (blocks.flatMap (entries env.primitives)).map (·.1) =
      blocks.flatMap fun block => block.record.transactions.map (·.hash env.primitives) := by
    simp only [map_flatMap, entries_hashes]
  have hleaves : (blocks.flatMap (entries env.primitives)).flatMap (fun e => e.2.map L2ToL1Log.encode) =
      blocks.flatMap fun block => encodedLogs block.output := by
    simp only [flatMap_assoc, entries_logs]
  have hmem : (tx.hash env.primitives, txOutput.l2ToL1Logs) ∈ blocks.flatMap (entries env.primitives) := by
    refine mem_flatMap.mpr ⟨block, hblock, mem_map.mpr ⟨(tx, txOutput), ?_, rfl⟩⟩
    exact mem_of_getElem? (getElem?_zip_eq_some.mpr ⟨htx, hout⟩)
  obtain ⟨hindex, position, hposition, hleaf⟩ := leaves_of_log (hentries ▸ hhashes) hmem hlog
  rw [hleaves] at hleaf
  -- both sides build the same tree
  obtain ⟨tree', root', htree', hroot', hpaths⟩ := tree_of_leaves env.primitives hcount
  obtain rfl : tree = tree' := Except.ok.inj (htree.symm.trans htree')
  obtain rfl : root = root' := Except.ok.inj (hroot.symm.trans hroot')
  obtain ⟨path, hpath, hclimb⟩ := hpaths position log.encode hleaf
  have hsmall : position % 2 ^ 32 = position := by
    obtain ⟨hlt, -⟩ := List.getElem?_eq_some_iff.mp hleaf
    exact Nat.mod_eq_of_lt ((hlt.trans_le hcount).trans (by decide))
  have hend : batch.lastBlock = last.output.header.number := by simpa [hlast] using hlastBlock.symm
  obtain ⟨logsBefore, gasBefore, data, hapi, -, hmeta⟩ := (hstored.holds block hblock).txs i tx htx
  have hmetaNumber : data.txMeta.blockNumber = block.output.header.number := by
    simp only [InMemory.transactionToApiData, bind_eq_ok, pure_eq_ok] at hapi
    obtain ⟨txOutput', -, rfl⟩ := hapi
    rfl
  have hrebuilt := foldlM_addBlock ⟨none, []⟩ hstored.holds hindex
  rw [← blockRange_eq hconsecutive hfirstBlock hlastBlock] at hrebuilt
  have hprove := proveLog_eq hrebuilt hposition (by rwa [scan_leaves, hleaves, nil_append]) hpath (hend ▸ hstate)
    (hend ▸ hstored.record last hlast)
  have hget := getL2ToL1LogProof_eq hmeta (hmetaNumber ▸ hbatch) hprove
  refine ⟨_, _, path, last, state, hget, hnumber, hinfo.symm, hlast, hstate, rfl, ?_⟩
  rw [hsmall, hclimb]

/-! ### A batch of two blocks -/

def sampleHash (bytes : Bytes) : B256 := Fin.ofNat (2 ^ 256) (bytes.foldl (fun n byte => 31 * n + byte.toNat + 1) 7)

def sampleEnv : Env where
  primitives := ⟨sampleHash, sampleHash, fun _ => 0⟩
  buildSidecar _ := .error "no blobs"
  deriveFlatStorageKey key := key
  effectiveGasPrice _ _ := 0
  stateViewAt _ := .ok fun _ => some 9

def sampleLog (value : B256) : L2ToL1Log := ⟨0, true, 0, 1, 2, value⟩

def sampleOutput (values : List B256) : TxOutput := ⟨true, 1, none, [], values.map sampleLog⟩

def sampleTx (hash : B256) : ZkTransaction := ⟨.l2 ⟨hash, 1⟩, 0⟩

/-- A block with the given transactions and values of their logs, and one that was rejected. -/
def sampleBlock (number : Nat) (hash : B256) (txs : List (B256 × List B256)) : ExecutedBlock where
  output := ⟨⟨hash, number, 1000 + number, none⟩, none :: txs.map fun tx => some (sampleOutput tx.2), .bytes [1, 2]⟩
  record := {
    blockContext := ⟨270, number, .empty, 1000 + number, 0, 0, 0, 0, 0, 0, 0, 0, 0⟩
    transactions := txs.map fun tx => sampleTx tx.1
    previousBlockTimestamp := 0
    nodeVersion := "0.1.0"
    protocolVersion := ⟨0, 31, 0⟩
    blockOutputHash := 0
    forcePreimages := []
    startingCursors := ⟨0, 0, 0, 0⟩ }
  treeOutput := ⟨0, 2⟩
  results := by simp [BlockOutput.okResults]
  number := rfl

def sampleBlocks : List ExecutedBlock := [sampleBlock 5 105 [(11, [1, 2]), (12, [])], sampleBlock 6 106 [(13, [3])]]

def sampleStored : List (BlockOutput × List ZkTransaction) :=
  sampleBlocks.map fun block => (block.output, block.record.transactions)

def sampleGenesis : InMemory.RepositoryInMemory := .new ⟨100, 0, []⟩

def sampleRepository : InMemory.RepositoryInMemory :=
  (sampleGenesis.populateAll sampleEnv.primitives sampleEnv.effectiveGasPrice sampleStored).toOption.getD sampleGenesis

def sampleStorage : RpcStorage where
  repository := sampleRepository.read
  getBatchByBlockNumber number := .ok (if 5 ≤ number ∧ number ≤ 6 then some ⟨3, 5, 6, none⟩ else none)
  getReplayRecord number := (sampleBlocks.find? (·.output.header.number = number)).map (·.record)
  buildMessageRootProofExtension _ _ := .error "no provider"

theorem sampleRepository_eq :
    sampleGenesis.populateAll sampleEnv.primitives sampleEnv.effectiveGasPrice sampleStored = .ok sampleRepository := by
  have hok : (sampleGenesis.populateAll sampleEnv.primitives sampleEnv.effectiveGasPrice sampleStored).isOk = true := by
    decide +kernel
  obtain ⟨repository, h⟩ := exists_of_isOk hok
  rw [sampleRepository, h]
  rfl

theorem sample_stored : Stored sampleEnv sampleStorage sampleBlocks 3 where
  consecutive := ⟨5, by decide⟩
  holds := by
    have hapart : sampleStored.Pairwise (InMemory.Apart sampleEnv.primitives) := by
      simp only [sampleStored, sampleBlocks, map_cons, map_nil, pairwise_cons, mem_singleton,
        forall_eq, not_mem_nil, false_imp_iff, implies_true, List.Pairwise.nil, and_self, and_true]
      exact ⟨by decide, by decide, disjoint_left.mpr (by decide)⟩
    have hholds := InMemory.holds_populateAll sampleRepository_eq hapart (by decide)
    exact fun block hblock => hholds _ (mem_map_of_mem hblock)
  batch := by
    simp only [sampleBlocks, forall_mem_cons, not_mem_nil, false_imp_iff, implies_true, and_true]
    exact ⟨⟨⟨3, 5, 6, none⟩, rfl, rfl, rfl, rfl⟩, ⟨⟨3, 5, 6, none⟩, rfl, rfl, rfl, rfl⟩⟩
  record := by
    rintro last ⟨⟩
    rfl

theorem log_proof_matches_commitment_sample :
    ∃ info sidecar proof, sealBatchInfo sampleEnv sampleBlocks 3 270 .calldata 9 = .ok (info, sidecar) ∧
      getL2ToL1LogProof sampleEnv sampleStorage 13 0 .l1BatchRoot = .ok (some proof) ∧
      proof.root = info.commitInfo.l2ToL1LogsRootHash := by
  have hok : (sealBatchInfo sampleEnv sampleBlocks 3 270 .calldata 9).isOk = true := by decide +kernel
  obtain ⟨⟨info, sidecar⟩, hseal⟩ := exists_of_isOk hok
  obtain ⟨proof, -, -, -, -, hget, -, hroot, -⟩ :=
    log_proof_matches_commitment sampleEnv sampleStorage sampleBlocks 3 270 .calldata 9 info sidecar hseal sample_stored
      (by decide) (by decide) (sampleBlock 6 106 [(13, [3])]) (by simp [sampleBlocks]) 0 (sampleTx 13) rfl
      (sampleOutput [3]) rfl 0 (sampleLog 3) rfl
  exact ⟨info, sidecar, proof, hseal, hget, hroot⟩

end Rpc
