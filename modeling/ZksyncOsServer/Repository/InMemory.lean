import ZksyncOsServer.Lib.KeyedLog
import ZksyncOsServer.Types.BlockOutput

/-!
# The repository of blocks and receipts

`storage/src/in_memory/repository.rs`: what `populate_in_memory` makes of a block and what is
read back of it. A block stays readable as it was stored as long as no later block takes its
number, its hash or the hash of one of its transactions.
-/
namespace InMemory

open Fallible List
open MerkleTree (B256 Map)
open Repository (Address Log)
open Types (BlockOutput L2ToL1Log Primitives ZkTransaction ZkTxType)

structure ZkReceipt where
  status : Bool
  cumulativeGasUsed : Nat
  logs : List Log
  l2ToL1Logs : List L2ToL1Log

structure ZkReceiptEnvelope where
  txType : ZkTxType
  receipt : ZkReceipt

def ZkReceiptEnvelope.intoL2ToL1Logs (this : ZkReceiptEnvelope) : List L2ToL1Log := this.receipt.l2ToL1Logs

structure TxMeta where
  blockHash : B256
  blockNumber : Nat
  blockTimestamp : Nat
  txIndexInBlock : Nat
  effectiveGasPrice : Nat
  numberOfLogsBeforeThisTx : Nat
  gasUsed : Nat
  contractAddress : Option Address

structure StoredTxData where
  tx : ZkTransaction
  receipt : ZkReceiptEnvelope
  txMeta : TxMeta

/-- `RepositoryBlock`, the hash, the number and the transaction hashes of the body. -/
structure RepositoryBlock where
  hash : B256
  number : Nat
  transactions : List B256

/-- `trait ReadRepository`, the reads that the proofs of logs use. -/
structure ReadRepository where
  getBlockByNumber : Nat → Except String (Option RepositoryBlock)
  getTransactionReceipt : B256 → Except String (Option ZkReceiptEnvelope)
  getTransactionMeta : B256 → Except String (Option TxMeta)

variable (primitives : Primitives) (effectiveGasPrice : ZkTransaction → Option Nat → Nat)

def transactionToApiData (blockOutput : BlockOutput) (index numberOfLogsBeforeThisTx cumulativeGasUsedBeforeThisTx : Nat)
    (tx : ZkTransaction) : Except String StoredTxData := do
  let txOutput ← ofOption "index out of bounds" blockOutput.okResults[index]?
  return {
    tx
    receipt := ⟨tx.txType, {
      status := txOutput.success
      cumulativeGasUsed := cumulativeGasUsedBeforeThisTx + txOutput.gasUsed
      logs := txOutput.logs
      l2ToL1Logs := txOutput.l2ToL1Logs }⟩
    txMeta := {
      blockHash := blockOutput.header.hash
      blockNumber := blockOutput.header.number
      blockTimestamp := blockOutput.header.timestamp
      txIndexInBlock := index
      effectiveGasPrice := effectiveGasPrice tx blockOutput.header.baseFeePerGas
      numberOfLogsBeforeThisTx
      gasUsed := txOutput.gasUsed
      contractAddress := txOutput.contractAddress } }

/-- The loop of `populate_in_memory`: the stored transactions in the order of the block. -/
def storedTxs (blockOutput : BlockOutput) :
    Nat → Nat → Nat → List ZkTransaction → Except String (List (B256 × StoredTxData))
  | _, _, _, [] => .ok []
  | txIndex, logIndex, cumulativeGasUsed, tx :: txs => do
    let storedTx ← transactionToApiData effectiveGasPrice blockOutput txIndex logIndex cumulativeGasUsed tx
    let rest ← storedTxs blockOutput (txIndex + 1) (logIndex + storedTx.receipt.receipt.logs.length)
      (cumulativeGasUsed + storedTx.txMeta.gasUsed) txs
    return (tx.hash primitives, storedTx) :: rest

/-- `RepositoryInMemory`; a block is found under its own hash. -/
structure RepositoryInMemory where
  hashIndex : Map Nat B256
  receipts : Map B256 RepositoryBlock
  txData : Map B256 StoredTxData
  latestBlock : Nat
  receipts_hash : ∀ (hash : B256) block, receipts[hash]? = some block → block.hash = hash

theorem receipts_hash_insert {receipts : Map B256 RepositoryBlock}
    (h : ∀ (hash : B256) block, receipts[hash]? = some block → block.hash = hash) (stored : RepositoryBlock) :
    ∀ (hash : B256) block, (receipts.insert stored.hash stored)[hash]? = some block → block.hash = hash := by
  intro hash block hblock
  rw [SortedMap.getElem?_insert] at hblock
  split at hblock
  next heq => rw [← Option.some.inj hblock, heq]
  next => exact h hash block hblock

namespace RepositoryInMemory

def new (genesis : RepositoryBlock) : RepositoryInMemory where
  hashIndex := (∅ : Map Nat B256).insert genesis.number genesis.hash
  receipts := (∅ : Map B256 RepositoryBlock).insert genesis.hash genesis
  txData := ∅
  latestBlock := 0
  receipts_hash := receipts_hash_insert (by simp) genesis

/-- The block that `populate_in_memory` stores. -/
def blockOf (blockOutput : BlockOutput) (transactions : List ZkTransaction) : RepositoryBlock :=
  ⟨blockOutput.header.hash, blockOutput.header.number, transactions.map (·.hash primitives)⟩

def populateInMemory (this : RepositoryInMemory) (blockOutput : BlockOutput) (transactions : List ZkTransaction) :
    Except String RepositoryInMemory := do
  let stored ← storedTxs primitives effectiveGasPrice blockOutput 0 0 0 transactions
  return {
    hashIndex := this.hashIndex.insert blockOutput.header.number blockOutput.header.hash
    receipts := this.receipts.insert blockOutput.header.hash (blockOf primitives blockOutput transactions)
    txData := stored.foldl (fun data p => data.insert p.1 p.2) this.txData
    latestBlock := blockOutput.header.number
    receipts_hash := receipts_hash_insert this.receipts_hash (blockOf primitives blockOutput transactions) }

/-- `impl ReadRepository for RepositoryInMemory`. -/
def read (this : RepositoryInMemory) : ReadRepository where
  getBlockByNumber number := .ok (this.hashIndex[number]?.bind fun hash => this.receipts[hash]?)
  getTransactionReceipt hash := .ok (this.txData[hash]?.map (·.receipt))
  getTransactionMeta hash := .ok (this.txData[hash]?.map (·.txMeta))

end RepositoryInMemory

/-! ### What a repository holds of a block -/

structure Holds (repository : ReadRepository) (blockOutput : BlockOutput) (transactions : List ZkTransaction) :
    Prop where
  block : repository.getBlockByNumber blockOutput.header.number =
    .ok (some (RepositoryInMemory.blockOf primitives blockOutput transactions))
  txs : ∀ (i : Nat) tx, transactions[i]? = some tx → ∃ logsBefore gasBefore data,
    transactionToApiData effectiveGasPrice blockOutput i logsBefore gasBefore tx = .ok data ∧
      repository.getTransactionReceipt (tx.hash primitives) = .ok (some data.receipt) ∧
      repository.getTransactionMeta (tx.hash primitives) = .ok (some data.txMeta)

variable {primitives effectiveGasPrice} {blockOutput : BlockOutput} {transactions : List ZkTransaction}

theorem storedTxs_keys {index logIndex gas : Nat} {stored : List (B256 × StoredTxData)}
    (h : storedTxs primitives effectiveGasPrice blockOutput index logIndex gas transactions = .ok stored) :
    stored.map (·.1) = transactions.map (·.hash primitives) := by
  induction transactions generalizing index logIndex gas stored with
  | nil => cases h; rfl
  | cons tx txs ih =>
    simp only [storedTxs, bind_eq_ok, pure_eq_ok] at h
    obtain ⟨storedTx, -, rest, hrest, rfl⟩ := h
    rw [map_cons, map_cons, ih hrest]

theorem getElem?_storedTxs {index logIndex gas : Nat} {stored : List (B256 × StoredTxData)}
    (h : storedTxs primitives effectiveGasPrice blockOutput index logIndex gas transactions = .ok stored) {i : Nat}
    {tx : ZkTransaction} (htx : transactions[i]? = some tx) : ∃ logsBefore gasBefore data,
      stored[i]? = some (tx.hash primitives, data) ∧
        transactionToApiData effectiveGasPrice blockOutput (index + i) logsBefore gasBefore tx = .ok data := by
  induction transactions generalizing index logIndex gas stored i with
  | nil => simp at htx
  | cons tx' txs ih =>
    simp only [storedTxs, bind_eq_ok, pure_eq_ok] at h
    obtain ⟨storedTx, hstored, rest, hrest, rfl⟩ := h
    cases i with
    | zero =>
      obtain rfl : tx' = tx := by simpa using htx
      exact ⟨logIndex, gas, storedTx, rfl, hstored⟩
    | succ i =>
      obtain ⟨logsBefore, gasBefore, data, hdata, hapi⟩ := ih hrest (by simpa using htx)
      exact ⟨logsBefore, gasBefore, data, by simpa using hdata, by rwa [Nat.add_right_comm, Nat.add_assoc] at hapi⟩

/-- A transaction is read back as it was stored, and other hashes keep what they had. -/
theorem getElem?_populated (txData : Map B256 StoredTxData) (stored : List (B256 × StoredTxData)) (hash : B256) :
    (stored.foldl (fun data p => data.insert p.1 p.2) txData)[hash]? =
      ((KeyedLog.last (·.1) stored hash).map (·.2)).or txData[hash]? :=
  SortedMap.getElem?_foldl_insert txData (·.1) (·.2) stored hash

variable {repository repository' : RepositoryInMemory}

theorem holds_populateInMemory
    (h : repository.populateInMemory primitives effectiveGasPrice blockOutput transactions = .ok repository')
    (hnodup : (transactions.map (·.hash primitives)).Nodup) :
    Holds primitives effectiveGasPrice repository'.read blockOutput transactions := by
  simp only [RepositoryInMemory.populateInMemory, bind_eq_ok, pure_eq_ok] at h
  obtain ⟨stored, hstored, rfl⟩ := h
  refine ⟨?_, fun i tx htx => ?_⟩
  · simp [RepositoryInMemory.read, SortedMap.getElem?_insert]
  · obtain ⟨logsBefore, gasBefore, data, hdata, hapi⟩ := getElem?_storedTxs hstored htx
    have hlast : (KeyedLog.last (·.1) stored (tx.hash primitives)).map (·.2) = some data := by
      have hmem : (tx.hash primitives, data) ∈ stored := mem_of_getElem? hdata
      refine KeyedLog.last_map_of_unique (·.1) hmem fun q hq hkey => ?_
      rw [← storedTxs_keys hstored] at hnodup
      exact congrArg Prod.snd (inj_on_of_nodup_map hnodup hq hmem hkey)
    refine ⟨logsBefore, gasBefore, data, by rwa [Nat.zero_add] at hapi, ?_, ?_⟩
    · simp [RepositoryInMemory.read, getElem?_populated, hlast]
    · simp [RepositoryInMemory.read, getElem?_populated, hlast]

structure Apart (primitives : Primitives) (a b : BlockOutput × List ZkTransaction) : Prop where
  number : a.1.header.number ≠ b.1.header.number
  hash : a.1.header.hash ≠ b.1.header.hash
  txs : (a.2.map (·.hash primitives)).Disjoint (b.2.map (·.hash primitives))

theorem Holds.populateInMemory {block block' : BlockOutput × List ZkTransaction}
    (hholds : Holds primitives effectiveGasPrice repository.read block.1 block.2)
    (h : repository.populateInMemory primitives effectiveGasPrice block'.1 block'.2 = .ok repository')
    (hapart : Apart primitives block block') : Holds primitives effectiveGasPrice repository'.read block.1 block.2 := by
  simp only [RepositoryInMemory.populateInMemory, bind_eq_ok, pure_eq_ok] at h
  obtain ⟨stored, hstored, rfl⟩ := h
  refine ⟨?_, fun i tx htx => ?_⟩
  · have hblock := hholds.block
    simp only [RepositoryInMemory.read, Except.ok.injEq, Option.bind_eq_some_iff] at hblock ⊢
    obtain ⟨hash, hindex, hreceipt⟩ := hblock
    have hown : block.1.header.hash = hash := repository.receipts_hash hash _ hreceipt
    refine ⟨hash, by rwa [SortedMap.getElem?_insert, if_neg hapart.number], ?_⟩
    rwa [SortedMap.getElem?_insert, if_neg (hown ▸ hapart.hash)]
  · obtain ⟨logsBefore, gasBefore, data, hapi, hreceipt, hmeta⟩ := hholds.txs i tx htx
    have hlast : KeyedLog.last (·.1) stored (tx.hash primitives) = none := by
      rw [KeyedLog.last_eq_none]
      intro p hp hkey
      have hmem : tx.hash primitives ∈ block'.2.map (·.hash primitives) := by
        rw [← storedTxs_keys hstored, ← hkey]
        exact mem_map_of_mem hp
      exact hapart.txs (mem_map_of_mem (mem_of_getElem? htx)) hmem
    refine ⟨logsBefore, gasBefore, data, hapi, ?_, ?_⟩
    · simpa [RepositoryInMemory.read, getElem?_populated, hlast] using hreceipt
    · simpa [RepositoryInMemory.read, getElem?_populated, hlast] using hmeta

/-- Several blocks are stored one after the other. -/
def RepositoryInMemory.populateAll (primitives : Primitives) (effectiveGasPrice : ZkTransaction → Option Nat → Nat)
    (this : RepositoryInMemory) (blocks : List (BlockOutput × List ZkTransaction)) : Except String RepositoryInMemory :=
  blocks.foldlM (fun repository block => repository.populateInMemory primitives effectiveGasPrice block.1 block.2) this

theorem Holds.populateAll {block : BlockOutput × List ZkTransaction} {blocks : List (BlockOutput × List ZkTransaction)}
    (hholds : Holds primitives effectiveGasPrice repository.read block.1 block.2)
    (h : repository.populateAll primitives effectiveGasPrice blocks = .ok repository')
    (hapart : ∀ b ∈ blocks, Apart primitives block b) :
    Holds primitives effectiveGasPrice repository'.read block.1 block.2 := by
  induction blocks generalizing repository with
  | nil => cases h; exact hholds
  | cons b blocks ih =>
    simp only [RepositoryInMemory.populateAll, foldlM_cons, bind_eq_ok] at h
    obtain ⟨next, hnext, h⟩ := h
    exact ih (hholds.populateInMemory hnext (hapart b mem_cons_self)) h
      fun c hc => hapart c (mem_cons_of_mem b hc)

/-- Every block of a run is held at its end, whatever the repository held before. -/
theorem holds_populateAll {blocks : List (BlockOutput × List ZkTransaction)}
    (h : repository.populateAll primitives effectiveGasPrice blocks = .ok repository')
    (hapart : blocks.Pairwise (Apart primitives)) (hnodup : ∀ block ∈ blocks, (block.2.map (·.hash primitives)).Nodup) :
    ∀ block ∈ blocks, Holds primitives effectiveGasPrice repository'.read block.1 block.2 := by
  induction blocks generalizing repository with
  | nil => simp
  | cons b blocks ih =>
    obtain ⟨hb, hblocks⟩ := pairwise_cons.mp hapart
    simp only [RepositoryInMemory.populateAll, foldlM_cons, bind_eq_ok] at h
    obtain ⟨next, hnext, h⟩ := h
    intro block hblock
    rcases mem_cons.mp hblock with rfl | hblock
    · exact (holds_populateInMemory hnext (hnodup block mem_cons_self)).populateAll h hb
    · exact ih h hblocks (fun c hc => hnodup c (mem_cons_of_mem b hc)) block hblock

end InMemory
