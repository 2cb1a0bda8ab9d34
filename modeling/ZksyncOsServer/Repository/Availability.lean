import ZksyncOsServer.Repository.Manager

/-!
# Populated blocks stay readable

Whatever the order in which blocks are populated, written and evicted: a block or a transaction
that is not in memory has been written to the database, and the data of a transaction that is in
memory is that of the latest block with it. An eviction spares the data of later blocks, and data
that is newer than the block being written is in memory until its own block is evicted.
-/
namespace InMemory

open Fallible
open MerkleTree (B256 Map)
open Types (BlockOutput ZkTransaction)

/-- The data of a block carries its number, under the hash of the transaction. -/
theorem storedTxs_spec {primitives : Types.Primitives} {effectiveGasPrice : ZkTransaction → Option Nat → Nat}
    {blockOutput : BlockOutput} {transactions : List ZkTransaction} {index logIndex gas : Nat}
    {stored : List (B256 × StoredTxData)}
    (h : storedTxs primitives effectiveGasPrice blockOutput index logIndex gas transactions = .ok stored) :
    ∀ t ∈ stored, t.2.tx.hash primitives = t.1 ∧ t.2.txMeta.blockNumber = blockOutput.header.number := by
  induction transactions generalizing index logIndex gas stored with
  | nil => cases h; simp
  | cons tx txs ih =>
    simp only [storedTxs, bind_eq_ok, pure_eq_ok] at h
    obtain ⟨storedTx, hstored, rest, hrest, rfl⟩ := h
    simp only [transactionToApiData, bind_eq_ok, pure_eq_ok] at hstored
    obtain ⟨txOutput, -, rfl⟩ := hstored
    intro t ht
    rcases List.mem_cons.mp ht with rfl | ht
    · exact ⟨rfl, rfl⟩
    · exact ih hrest t ht

namespace RepositoryInMemory

theorem getElem?_removeIf (data : Map B256 StoredTxData) (hash : B256) (p : StoredTxData → Bool) (k : B256) :
    (removeIf data hash p)[k]? = if k = hash then data[k]?.filter (!p ·) else data[k]? := by
  rw [removeIf]
  split
  next stored hstored =>
    split
    next hp =>
      rw [SortedMap.getElem?_erase]
      split
      next heq => simp [heq, hstored, hp, Option.filter]
      next => rfl
    next hp => simp_all [Option.filter]
  next hnone => simp_all

theorem getElem?_foldl_removeIf (data : Map B256 StoredTxData) (hashes : List B256) (p : StoredTxData → Bool)
    (k : B256) : (hashes.foldl (fun data hash => removeIf data hash p) data)[k]? =
      if k ∈ hashes then data[k]?.filter (!p ·) else data[k]? := by
  induction hashes generalizing data with
  | nil => simp
  | cons hash hashes ih =>
    rw [List.foldl_cons, ih, getElem?_removeIf]
    by_cases h₁ : k = hash
    · by_cases h₂ : k ∈ hashes
      · simp [h₁, h₁ ▸ h₂, Option.filter_filter]
      · simp [h₁, h₁ ▸ h₂]
    · simp [h₁]

variable {this : RepositoryInMemory}

theorem exists_getByHashes (key : StoredTxData → B256) {hashes : List B256}
    (h : ∀ hash ∈ hashes, ∃ data, this.txData[hash]? = some data ∧ key data = hash) :
    ∃ txs, this.getByHashes hashes = some txs ∧ txs.map key = hashes ∧ ∀ t ∈ txs, this.txData[key t]? = some t := by
  induction hashes with
  | nil => exact ⟨[], rfl, rfl, by simp⟩
  | cons hash hashes ih =>
    obtain ⟨data, hdata, hkey⟩ := h hash List.mem_cons_self
    obtain ⟨txs, htxs, hkeys, hall⟩ := ih fun hash' hmem => h hash' (List.mem_cons_of_mem hash hmem)
    rw [getByHashes] at htxs
    refine ⟨data :: txs, ?_, by rw [List.map_cons, hkey, hkeys], ?_⟩
    · rw [getByHashes, List.mapM_cons, hdata, htxs]
      rfl
    · intro t ht
      rcases List.mem_cons.mp ht with rfl | ht
      · rw [hkey, hdata]
      · exact hall t ht

theorem getElem?_removeBlockAndTransactions (blockNumber : Nat) (hashes : List B256) (k : B256) :
    (this.removeBlockAndTransactions blockNumber hashes).txData[k]? =
      if k ∈ hashes then this.txData[k]?.filter fun stored => blockNumber < stored.txMeta.blockNumber
      else this.txData[k]? := by
  have hkeep : (this.removeByNumber blockNumber).txData = this.txData := by
    rw [removeByNumber]
    split <;> rfl
  rw [removeBlockAndTransactions, removeByHashes, getElem?_foldl_removeIf, hkeep]
  simp only [← decide_not, Nat.not_le]

@[simp] theorem removeBlockAndTransactions_latestBlock (blockNumber : Nat) (hashes : List B256) :
    (this.removeBlockAndTransactions blockNumber hashes).latestBlock = this.latestBlock := by
  rw [removeBlockAndTransactions, removeByHashes, removeByNumber]
  split <;> rfl

def HoldsBlock (this : RepositoryInMemory) (block : RepositoryBlock) : Prop :=
  this.hashIndex[block.number]? = some block.hash ∧ this.receipts[block.hash]? = some block

def LacksBlock (this : RepositoryInMemory) (block : RepositoryBlock) : Prop :=
  this.hashIndex[block.number]? = none ∧ this.receipts[block.hash]? = none

theorem HoldsBlock.getBlockByNumber {block : RepositoryBlock} (h : this.HoldsBlock block) :
    this.getBlockByNumber block.number = some block := by
  rw [RepositoryInMemory.getBlockByNumber, h.1, Option.bind_some, getBlockByHash, h.2]

/-- A block that is removed by its number is not in memory any more, others stay as they are. -/
theorem HoldsBlock.removed {block : RepositoryBlock} (h : this.HoldsBlock block) (hashes : List B256) :
    (this.removeBlockAndTransactions block.number hashes).LacksBlock block := by
  rw [removeBlockAndTransactions, removeByHashes, removeByNumber, h.1]
  simp [LacksBlock]

section Other
variable {block other : RepositoryBlock} (h : this.HoldsBlock block) (hnumber : other.number ≠ block.number)
  (hhash : other.hash ≠ block.hash) (hashes : List B256)
include h hnumber hhash

theorem removed_holds_iff :
    (this.removeBlockAndTransactions block.number hashes).HoldsBlock other ↔ this.HoldsBlock other := by
  rw [removeBlockAndTransactions, removeByHashes, removeByNumber, h.1]
  simp [HoldsBlock, SortedMap.getElem?_erase, hnumber, hhash]

theorem removed_lacks_iff :
    (this.removeBlockAndTransactions block.number hashes).LacksBlock other ↔ this.LacksBlock other := by
  rw [removeBlockAndTransactions, removeByHashes, removeByNumber, h.1]
  simp [LacksBlock, SortedMap.getElem?_erase, hnumber, hhash]

end Other

end RepositoryInMemory

end InMemory

namespace LazyRepository

open Fallible InMemory
open MerkleTree (B256 Map)
open Repository (RepositoryDb)
open Types (BlockOutput ZkTransaction)

variable {env : Env} {s : System} {hash : B256} {data : StoredTxData}

/-! ### What the database holds -/

def DbBlock (db : RepositoryDb Payload) (block : RepositoryBlock) : Prop :=
  db.blockNumberToHash[block.number]? = some block.hash ∧ db.blockData[block.hash]? = some (storedBlock block)

/-- The database has the data of the transaction. -/
def DbTx (db : RepositoryDb Payload) (hash : B256) (data : Repository.StoredTxData Payload) : Prop :=
  db.tx[hash]? = some data.tx ∧ db.txReceipt[hash]? = some data.receipt ∧ db.txMeta[hash]? = some data.txMeta

section Db
variable {db : RepositoryDb Payload} {block other : RepositoryBlock} {txs : List (Repository.StoredTxData Payload)}
  {tx : Repository.StoredTxData Payload}

theorem dbBlock_writeBlock : DbBlock (db.writeBlock (storedBlock block) txs) block := by
  simp [DbBlock, RepositoryDb.writeBlock, RepositoryDb.writeData, storedBlock]

theorem DbBlock.writeBlock (h : DbBlock db other) (hnumber : other.number ≠ block.number)
    (hhash : other.hash ≠ block.hash) : DbBlock (db.writeBlock (storedBlock block) txs) other := by
  simpa [DbBlock, RepositoryDb.writeBlock, RepositoryDb.writeData, RepositoryDb.writeIndex, RepositoryDb.flush,
    storedBlock, SortedMap.getElem?_insert, hnumber, hhash] using h

theorem dbTx_writeBlock (hmem : tx ∈ txs) (hunique : ∀ u ∈ txs, u.tx.hash = tx.tx.hash → u = tx) :
    DbTx (db.writeBlock (storedBlock block) txs) tx.tx.hash tx := by
  have hlast : ∀ {V : Type} (value : Repository.StoredTxData Payload → V) (m : Map B256 V),
      (txs.foldl (fun m t => m.insert t.tx.hash (value t)) m)[tx.tx.hash]? = some (value tx) := by
    intro V value m
    have h : (KeyedLog.last (fun t : Repository.StoredTxData Payload => t.tx.hash) txs tx.tx.hash).map value =
        some (value tx) :=
      KeyedLog.last_map_of_unique _ hmem fun u hu heq => congrArg value (hunique u hu heq)
    rw [SortedMap.getElem?_foldl_insert m (fun t : Repository.StoredTxData Payload => t.tx.hash) value]
    rw [KeyedLog.last] at h
    rw [h, Option.some_or]
  exact ⟨hlast _ _, hlast _ _, hlast _ _⟩

theorem DbTx.writeBlock (h : DbTx db hash tx) (hnot : ∀ u ∈ txs, u.tx.hash ≠ hash) :
    DbTx (db.writeBlock (storedBlock block) txs) hash tx := by
  have hkeep : ∀ {V : Type} (value : Repository.StoredTxData Payload → V) (m : Map B256 V),
      (txs.foldl (fun m t => m.insert t.tx.hash (value t)) m)[hash]? = m[hash]? := by
    intro V value m
    rw [SortedMap.getElem?_foldl_insert m (fun t : Repository.StoredTxData Payload => t.tx.hash) value]
    have hnone := KeyedLog.last_eq_none.mpr hnot
    rw [KeyedLog.last] at hnone
    rw [hnone, Option.map_none, Option.none_or]
  exact ⟨(hkeep _ _).trans h.1, (hkeep _ _).trans h.2.1, (hkeep _ _).trans h.2.2⟩

theorem rollback_latest {db' : RepositoryDb Payload} {lastBlockToKeep : Nat}
    (h : db.rollback lastBlockToKeep = .ok db') (hmeta : db.blockNumber = some db.latestBlockNumber) :
    db'.latestBlockNumber = min db.latestBlockNumber lastBlockToKeep ∧
      db'.blockNumber = some db'.latestBlockNumber := by
  simp only [RepositoryDb.rollback, hmeta, ofOption_some, ok_bind] at h
  split at h
  next hlt =>
    simp only [bind_eq_ok, pure_eq_ok] at h
    obtain ⟨removed, -, rfl⟩ := h
    exact ⟨(Nat.min_eq_right hlt.le).symm, rfl⟩
  next hge =>
    obtain rfl := pure_eq_ok.mp h
    exact ⟨(Nat.min_eq_left (Nat.le_of_not_lt hge)).symm, hmeta⟩

theorem openDb_meta {genesis : Repository.Block Payload} (hgenesis : genesis.number = 0) :
    (openDb db genesis).blockNumber = some (openDb db genesis).latestBlockNumber := by
  rw [openDb]
  split
  next n hn => exact hn
  next => exact congrArg some hgenesis

end Db

/-! ### What a block leaves in memory -/

/-- The data of a block is kept under the hashes of its transactions and carries its number. -/
structure Entry.WellFormed (env : Env) (e : Entry) : Prop where
  keys : e.txs.map (·.1) = e.block.transactions
  hash : ∀ t ∈ e.txs, t.2.tx.hash env.primitives = t.1
  number : ∀ t ∈ e.txs, t.2.txMeta.blockNumber = e.block.number

structure Inserted (e : Entry) (before after : RepositoryInMemory) : Prop where
  hashIndex : after.hashIndex = before.hashIndex.insert e.block.number e.block.hash
  receipts : after.receipts = before.receipts.insert e.block.hash e.block
  txData : ∀ hash : B256, after.txData[hash]? = ((KeyedLog.last (·.1) e.txs hash).map (·.2)).or before.txData[hash]?
  latestBlock : after.latestBlock = e.block.number

theorem populateInMemory_spec {before after : RepositoryInMemory} {blockOutput : BlockOutput}
    {transactions : List ZkTransaction}
    (h : before.populateInMemory env.primitives env.effectiveGasPrice blockOutput transactions = .ok after) :
    (entryOf env blockOutput transactions).WellFormed env ∧ Inserted (entryOf env blockOutput transactions) before after := by
  simp only [RepositoryInMemory.populateInMemory, bind_eq_ok, pure_eq_ok] at h
  obtain ⟨stored, hstored, rfl⟩ := h
  have htxs : (entryOf env blockOutput transactions).txs = stored := by
    rw [entryOf, hstored]
    rfl
  have hspec := storedTxs_spec hstored
  refine ⟨⟨?_, ?_, ?_⟩, ⟨rfl, rfl, ?_, rfl⟩⟩
  · rw [htxs]
    exact storedTxs_keys hstored
  · rw [htxs]
    exact fun t ht => (hspec t ht).1
  · rw [htxs]
    exact fun t ht => (hspec t ht).2
  · intro hash
    rw [htxs]
    exact getElem?_populated before.txData stored hash

theorem latestData_append (populated : List Entry) (e : Entry) (hash : B256) : latestData (populated ++ [e]) hash =
      ((KeyedLog.last (·.1) e.txs hash).map (·.2)).or (latestData populated hash) := by
  rw [latestData, List.flatMap_append, KeyedLog.last_append, Option.map_or, latestData]
  simp

/-! ### The numbers of the populated blocks -/

/-- Populated blocks are well formed, distinct and without gap above the database. Nothing has
happened before the database is ready. -/
structure Numbered (env : Env) (s : System) : Prop where
  wf : ∀ e ∈ s.populated, e.WellFormed env
  ordered : s.populated.Pairwise fun a b => a.block.number < b.block.number
  distinct : s.populated.Pairwise fun a b => a.block.hash ≠ b.block.hash
  latest : ∀ e ∈ s.populated.getLast?, e.block.number = s.manager.inMemory.latestBlock
  none_yet : s.populated = [] → s.manager.inMemory.latestBlock = 0
  gapless : ∀ n, s.manager.db.latestBlockNumber < n → n ≤ s.manager.inMemory.latestBlock →
    ∃ e ∈ s.populated, e.block.number = n
  dbMeta : s.manager.db.blockNumber = some s.manager.db.latestBlockNumber
  unready : s.manager.dbReadyToProcessBlocks = false → s.populated = [] ∧ s.persist = .idle
  waiting : ∀ blockOutput transactions, s.call = .waiting blockOutput transactions →
    s.manager.dbReadyToProcessBlocks = true ∧ Follows s blockOutput

namespace Numbered

theorem number_le (h : Numbered env s) {e : Entry} (he : e ∈ s.populated) :
    e.block.number ≤ s.manager.inMemory.latestBlock := by
  obtain ⟨last, hlast⟩ : ∃ last, s.populated.getLast? = some last := by
    cases hl : s.populated.getLast? with
    | some last => exact ⟨last, rfl⟩
    | none => rw [List.getLast?_eq_none_iff.mp hl] at he; exact nomatch he
  obtain ⟨init, hinit⟩ := List.getLast?_eq_some_iff.mp hlast
  have hord := h.ordered
  rw [hinit] at he hord
  rw [← h.latest last hlast]
  rcases List.mem_append.mp he with he | he
  · exact ((List.pairwise_append.mp hord).2.2 e he last (by simp)).le
  · rw [List.mem_singleton.mp he]

theorem apart (h : Numbered env s) {a b : Entry} (ha : a ∈ s.populated) (hb : b ∈ s.populated) (hab : a ≠ b) :
    a.block.number ≠ b.block.number ∧ a.block.hash ≠ b.block.hash := by
  have hboth : s.populated.Pairwise fun a b => a.block.number ≠ b.block.number ∧ a.block.hash ≠ b.block.hash :=
    h.ordered.imp₂ (fun _ _ hlt hne => ⟨Nat.ne_of_lt hlt, hne⟩) h.distinct
  have : Std.Symm fun a b : Entry => a.block.number ≠ b.block.number ∧ a.block.hash ≠ b.block.hash :=
    ⟨fun _ _ h => ⟨h.1.symm, h.2.symm⟩⟩
  exact hboth.forall ha hb hab

variable {blockOutput : BlockOutput}

section
variable (h : Numbered env s)
include h

theorem number_lt (hfollows : Follows s blockOutput) {e : Entry}
    (he : e ∈ s.populated) : e.block.number < blockOutput.header.number := by
  cases hl : s.populated.getLast? with
  | none => rw [List.getLast?_eq_none_iff.mp hl] at he; exact nomatch he
  | some last =>
    have hle := h.number_le he
    rw [← h.latest last hl] at hle
    rw [hfollows.next last hl]
    exact Nat.lt_succ_of_le hle

theorem prepared (hfollows : Follows s blockOutput)
    {manager : RepositoryManager} (hprepare : s.manager.prepare blockOutput.header.number = .ok manager) :
    manager.inMemory = s.manager.inMemory ∧ manager.dbReadyToProcessBlocks = true ∧
      (manager = s.manager ∨ s.populated = [] ∧ s.persist = .idle) ∧
      manager.db.blockNumber = some manager.db.latestBlockNumber ∧
      (s.populated = [] → blockOutput.header.number ≤ manager.db.latestBlockNumber + 1) := by
  rw [RepositoryManager.prepare] at hprepare
  split at hprepare
  next hready =>
    cases hprepare
    exact ⟨rfl, hready, .inl rfl, h.dbMeta, hfollows.first⟩
  next hready =>
    obtain ⟨hempty, hidle⟩ := h.unready (Bool.eq_false_of_not_eq_true hready)
    simp only [bind_eq_ok, pure_eq_ok] at hprepare
    obtain ⟨db, hdb, rfl⟩ := hprepare
    have hfirst := hfollows.first hempty
    rw [RepositoryDb.getLatestBlock] at hfirst
    rw [RepositoryManager.rollbackBelow] at hdb
    split at hdb
    next hpos =>
      obtain ⟨hlatest, hmeta⟩ := rollback_latest hdb h.dbMeta
      refine ⟨rfl, rfl, .inr ⟨hempty, hidle⟩, hmeta, fun _ => ?_⟩
      simp only [hlatest]
      omega
    next hzero =>
      cases hdb
      exact ⟨rfl, rfl, .inr ⟨hempty, hidle⟩, h.dbMeta, fun _ => hfirst⟩

theorem insert {transactions : List ZkTransaction}
    {inMemory : RepositoryInMemory} (hcall : s.call = .waiting blockOutput transactions)
    (hwf : (entryOf env blockOutput transactions).WellFormed env)
    (hlatest : inMemory.latestBlock = blockOutput.header.number) : Numbered env { s with
      manager := { s.manager with inMemory }
      call := .idle
      populated := s.populated ++ [entryOf env blockOutput transactions] } := by
  obtain ⟨hready, hfollows⟩ := h.waiting blockOutput transactions hcall
  refine ⟨?_, ?_, ?_, ?_, ?_, ?_, h.dbMeta, ?_, nofun⟩
  · intro e he
    rcases List.mem_append.mp he with he | he
    · exact h.wf e he
    · exact List.mem_singleton.mp he ▸ hwf
  · refine List.pairwise_append.mpr ⟨h.ordered, List.pairwise_singleton _ _, fun e he e' he' => ?_⟩
    rw [List.mem_singleton.mp he']
    exact h.number_lt hfollows he
  · refine List.pairwise_append.mpr ⟨h.distinct, List.pairwise_singleton _ _, fun e he e' he' => ?_⟩
    rw [List.mem_singleton.mp he']
    exact hfollows.hash e he
  · intro e he
    rw [List.getLast?_append_of_ne_nil _ (by simp)] at he
    obtain rfl : entryOf env blockOutput transactions = e := by simpa using he
    exact hlatest.symm
  · simp
  · intro n hlt hle
    rcases hle.lt_or_eq with hlt' | heq
    · rw [hlatest] at hlt'
      -- Below the new block, either the old ones have no gap or there are none.
      cases hl : s.populated.getLast? with
      | none =>
        have hfirst := hfollows.first (List.getLast?_eq_none_iff.mp hl)
        rw [RepositoryDb.getLatestBlock] at hfirst
        dsimp only at hlt
        omega
      | some last =>
        have hnext := hfollows.next last hl
        rw [h.latest last hl] at hnext
        obtain ⟨e, he, hn⟩ := h.gapless n hlt (by omega)
        exact ⟨e, List.mem_append_left _ he, hn⟩
    · exact ⟨_, List.mem_append_right _ (List.mem_singleton_self _), hlatest.symm.trans heq.symm⟩
  · exact fun hunready => nomatch hready.symm.trans hunready

theorem prepare {transactions : List ZkTransaction} {manager : RepositoryManager} (hfollows : Follows s blockOutput)
    (hprepare : s.manager.prepare blockOutput.header.number = .ok manager) :
    Numbered env { s with manager, call := .waiting blockOutput transactions } := by
  obtain ⟨hmemory, hready, hsame, hmeta, hfirst⟩ := h.prepared hfollows hprepare
  refine ⟨h.wf, h.ordered, h.distinct, ?_, ?_, ?_, hmeta, ?_, ?_⟩
  · simpa only [hmemory] using h.latest
  · simpa only [hmemory] using h.none_yet
  · intro n hlt hle
    rcases hsame with rfl | ⟨hempty, -⟩
    · exact h.gapless n hlt hle
    · have hzero := h.none_yet hempty
      rw [← hmemory] at hzero
      exact absurd hle (by dsimp only; omega)
  · exact fun hunready => nomatch hready.symm.trans hunready
  · intro blockOutput' transactions' hcall
    cases hcall
    exact ⟨hready, hfirst, hfollows.next, hfollows.hash⟩

theorem congr {s' : System} (hpopulated : s'.populated = s.populated) (hcall : s'.call = s.call)
    (hlatest : s'.manager.inMemory.latestBlock = s.manager.inMemory.latestBlock)
    (hready : s'.manager.dbReadyToProcessBlocks = true)
    (hdb : s.manager.db.latestBlockNumber ≤ s'.manager.db.latestBlockNumber)
    (hmeta : s'.manager.db.blockNumber = some s'.manager.db.latestBlockNumber) : Numbered env s' := by
  refine ⟨hpopulated ▸ h.wf, hpopulated ▸ h.ordered, hpopulated ▸ h.distinct, ?_, ?_, ?_, hmeta, ?_, ?_⟩
  · rw [hpopulated, hlatest]
    exact h.latest
  · rw [hpopulated, hlatest]
    exact h.none_yet
  · intro n hlt hle
    rw [hpopulated]
    exact h.gapless n (hdb.trans_lt hlt) (hlatest ▸ hle)
  · exact fun hunready => nomatch hready.symm.trans hunready
  · intro blockOutput transactions hwaiting
    obtain ⟨-, hfirst, hnext, hhash⟩ := h.waiting blockOutput transactions (hcall ▸ hwaiting)
    refine ⟨hready, ?_, by rwa [hpopulated], by rwa [hpopulated]⟩
    intro hempty
    rw [hpopulated] at hempty
    exact (hfirst hempty).trans (Nat.succ_le_succ hdb)

end

end Numbered

/-! ### What is not in memory is in the database -/

structure Backed (env : Env) (s : System) : Prop where
  block : ∀ e ∈ s.populated, s.manager.inMemory.HoldsBlock e.block ∨
    e.block.number ≤ s.manager.db.latestBlockNumber ∧ s.manager.inMemory.LacksBlock e.block ∧
      DbBlock s.manager.db e.block
  tx : ∀ hash data, latestData s.populated hash = some data → s.manager.inMemory.txData[hash]? = some data ∨
    data.txMeta.blockNumber ≤ s.manager.db.latestBlockNumber ∧ s.manager.inMemory.txData[hash]? = none ∧
      DbTx s.manager.db hash (env.stored data)

/-- The persist loop works on the block after the database, or on the one that it has just
written. What it has read or written of a transaction is the latest data, unless a later block
has the transaction too. -/
def InFlight (env : Env) (s : System) : PersistLoop → Prop
  | .idle => True
  | .read number block txs => number = s.manager.db.latestBlockNumber + 1 ∧
      (∃ e ∈ s.populated, e.block = block ∧ block.number = number) ∧
      txs.map (·.tx.hash env.primitives) = block.transactions ∧
      ∀ t ∈ txs, ∀ data, latestData s.populated (t.tx.hash env.primitives) = some data →
        data.txMeta.blockNumber ≤ number → t = data
  | .written number block => number = s.manager.db.latestBlockNumber ∧
      (∃ e ∈ s.populated, e.block = block ∧ block.number = number) ∧
      s.manager.inMemory.HoldsBlock block ∧ DbBlock s.manager.db block ∧
      ∀ hash ∈ block.transactions, ∀ data, latestData s.populated hash = some data →
        data.txMeta.blockNumber ≤ number → DbTx s.manager.db hash (env.stored data)
  | .failed => False

structure Inv (env : Env) (s : System) : Prop where
  numbered : Numbered env s
  backed : Backed env s
  inFlight : InFlight env s s.persist

theorem latestData_split (before after : List Entry) (e : Entry) (hash : B256) :
    latestData (before ++ e :: after) hash =
      ((latestData after hash).or ((KeyedLog.last (·.1) e.txs hash).map (·.2))).or (latestData before hash) := by
  rw [latestData, List.flatMap_append, List.flatMap_cons, KeyedLog.last_append, KeyedLog.last_append, Option.map_or,
    Option.map_or, latestData, latestData]

theorem exists_of_latestData {populated : List Entry} (h : latestData populated hash = some data) :
    ∃ e ∈ populated, (hash, data) ∈ e.txs := by
  obtain ⟨p, hp, rfl⟩ := Option.map_eq_some_iff.mp h
  obtain ⟨hmem, rfl⟩ := KeyedLog.mem_of_last hp
  exact List.mem_flatMap.mp hmem

namespace Numbered

theorem latestData_hash (h : Numbered env s) (hdata : latestData s.populated hash = some data) :
    data.tx.hash env.primitives = hash := by
  obtain ⟨e, he, hmem⟩ := exists_of_latestData hdata
  exact (h.wf e he).hash _ hmem

/-- The latest data of a transaction of a populated block is of that block or of a later one. -/
theorem exists_latestData (h : Numbered env s) {e : Entry} (he : e ∈ s.populated)
    (hhash : hash ∈ e.block.transactions) : ∃ data, latestData s.populated hash = some data ∧
      data.tx.hash env.primitives = hash ∧ e.block.number ≤ data.txMeta.blockNumber := by
  have hnumber : ∃ data, latestData s.populated hash = some data ∧ e.block.number ≤ data.txMeta.blockNumber := by
    have hord := h.ordered
    have hwf := h.wf
    obtain ⟨before, after, hsplit⟩ := List.append_of_mem he
    rw [hsplit] at hord hwf
    rw [hsplit, latestData_split]
    cases hafter : latestData after hash with
    | some data =>
      obtain ⟨e', he', hmem⟩ := exists_of_latestData hafter
      have hlater := (List.pairwise_cons.mp (List.pairwise_append.mp hord).2.1).1 e' he'
      refine ⟨data, rfl, hlater.le.trans_eq ?_⟩
      exact ((hwf e' (by simp [he'])).number _ hmem).symm
    | none =>
      have hewf := hwf e (by simp)
      rw [← hewf.keys] at hhash
      obtain ⟨t, ht, rfl⟩ := List.mem_map.mp hhash
      obtain ⟨last, hlast⟩ := KeyedLog.exists_last (·.1) ht
      refine ⟨last.2, by rw [hlast]; rfl, ?_⟩
      exact (hewf.number last (KeyedLog.mem_of_last hlast).1).ge
  obtain ⟨data, hdata, hle⟩ := hnumber
  exact ⟨data, hdata, h.latestData_hash hdata, hle⟩

end Numbered

/-! ### Every step keeps the invariant -/

namespace Inv

section
variable (h : Inv env s)
include h

theorem inMemory {e : Entry} (he : e ∈ s.populated) (hlt : s.manager.db.latestBlockNumber < e.block.number) :
    s.manager.inMemory.HoldsBlock e.block ∧ ∀ hash ∈ e.block.transactions, ∃ data,
      latestData s.populated hash = some data ∧ s.manager.inMemory.txData[hash]? = some data ∧
        data.tx.hash env.primitives = hash := by
  constructor
  · rcases h.backed.block e he with hheld | ⟨hle, -⟩
    · exact hheld
    · exact absurd hle (Nat.not_le_of_lt hlt)
  · intro hash hhash
    obtain ⟨data, hlatest, hkey, hle⟩ := h.numbered.exists_latestData he hhash
    rcases h.backed.tx hash data hlatest with hheld | ⟨hle', -⟩
    · exact ⟨data, hlatest, hheld, hkey⟩
    · exact absurd (hle.trans hle') (Nat.not_le_of_lt hlt)

theorem read (hmay : s.manager.MayPersist) : Inv env s.read := by
  obtain ⟨hready, hnext⟩ := hmay
  obtain ⟨e, he, hnumber⟩ := h.numbered.gapless (s.manager.db.getLatestBlock + 1) (Nat.lt_succ_self _) hnext
  obtain ⟨hblock, hdata⟩ := h.inMemory he (hnumber ▸ Nat.lt_succ_self _)
  obtain ⟨txs, htxs, hkeys, hall⟩ := RepositoryInMemory.exists_getByHashes (fun t => t.tx.hash env.primitives)
    fun hash hhash => (hdata hash hhash).imp fun _ h => h.2
  have hlookup : s.manager.inMemory.getBlockAndTransactionsByNumber (s.manager.db.getLatestBlock + 1) =
      some (e.block, txs) := by
    rw [RepositoryInMemory.getBlockAndTransactionsByNumber, ← hnumber, hblock.getBlockByNumber]
    simp [htxs]
  rw [System.read, hlookup]
  refine ⟨h.numbered.congr rfl rfl rfl hready le_rfl h.numbered.dbMeta, ⟨h.backed.block, h.backed.tx⟩, rfl,
    ⟨e, he, rfl, hnumber⟩, hkeys, ?_⟩
  intro t ht data hlatest _
  have hmem : t.tx.hash env.primitives ∈ e.block.transactions := by
    rw [← hkeys]
    exact List.mem_map_of_mem ht
  obtain ⟨data', hlatest', hheld, -⟩ := hdata _ hmem
  rw [hall t ht] at hheld
  rw [hlatest'] at hlatest
  exact (Option.some.inj hheld).trans (Option.some.inj hlatest)

theorem ready (hpersist : s.persist ≠ .idle) : s.manager.dbReadyToProcessBlocks = true := by
  cases hready : s.manager.dbReadyToProcessBlocks with
  | true => rfl
  | false => exact absurd (h.numbered.unready hready).2 hpersist

theorem write {number : Nat} {block : RepositoryBlock} {txs : List StoredTxData}
    (hpersist : s.persist = .read number block txs) : Inv env (s.write env number block txs) := by
  have hready := h.ready (by rw [hpersist]; nofun)
  have hinFlight := h.inFlight
  rw [hpersist] at hinFlight
  obtain ⟨hnumber, ⟨e, he, rfl, heq⟩, hkeys, hlatest⟩ := hinFlight
  have hdb : (s.write env number e.block txs).manager.db.latestBlockNumber = number := heq
  obtain ⟨hblock, hmemory⟩ := h.inMemory he (by omega)
  refine ⟨h.numbered.congr rfl rfl rfl hready ?_ ?_, ⟨?_, ?_⟩, hdb.symm, ⟨e, he, rfl, heq⟩, hblock,
    dbBlock_writeBlock, ?_⟩
  · rw [hdb, hnumber]
    exact Nat.le_succ _
  · rfl
  · intro e' he'
    rcases h.backed.block e' he' with hheld | ⟨hle, hlacks, hstored⟩
    · exact .inl hheld
    · have hne : e' ≠ e := by
        rintro rfl
        omega
      obtain ⟨hnumber', hhash'⟩ := h.numbered.apart he' he hne
      refine .inr ⟨?_, hlacks, hstored.writeBlock hnumber' hhash'⟩
      rw [hdb]
      omega
  · intro hash data hdata
    by_cases hhash : hash ∈ e.block.transactions
    · obtain ⟨data', hdata', hheld, -⟩ := hmemory hash hhash
      exact .inl (hheld.trans (hdata'.symm.trans hdata))
    · rcases h.backed.tx hash data hdata with hheld | ⟨hle, hnone, hstored⟩
      · exact .inl hheld
      · refine .inr ⟨?_, hnone, hstored.writeBlock ?_⟩
        · rw [hdb]
          omega
        · intro u hu hkey
          obtain ⟨t, ht, rfl⟩ := List.mem_map.mp hu
          rw [← hkeys] at hhash
          exact hhash (hkey ▸ List.mem_map_of_mem ht)
  · intro hash hhash data hdata hle
    rw [← hkeys] at hhash
    obtain ⟨t, ht, rfl⟩ := List.mem_map.mp hhash
    obtain rfl := hlatest t ht data hdata hle
    refine dbTx_writeBlock (List.mem_map_of_mem ht) fun u hu hkey => ?_
    obtain ⟨t', ht', rfl⟩ := List.mem_map.mp hu
    have hkey' : t'.tx.hash env.primitives = t.tx.hash env.primitives := hkey
    rw [hlatest t' ht' t (hkey'.symm ▸ hdata) hle]

theorem evict {number : Nat} {block : RepositoryBlock}
    (hpersist : s.persist = .written number block) : Inv env (s.evict number block) := by
  have hready := h.ready (by rw [hpersist]; nofun)
  have hinFlight := h.inFlight
  rw [hpersist] at hinFlight
  obtain ⟨rfl, ⟨e, he, rfl, heq⟩, hheld, hblock, htxs⟩ := hinFlight
  have hmemory : (s.evict s.manager.db.latestBlockNumber e.block).manager.inMemory =
      s.manager.inMemory.removeBlockAndTransactions e.block.number e.block.transactions := by
    rw [heq]
    rfl
  refine ⟨h.numbered.congr rfl rfl ?_ hready le_rfl h.numbered.dbMeta, ⟨?_, ?_⟩, trivial⟩
  · rw [hmemory, RepositoryInMemory.removeBlockAndTransactions_latestBlock]
  · intro e' he'
    rw [hmemory]
    by_cases hee : e' = e
    · subst hee
      exact .inr ⟨heq.le, hheld.removed _, hblock⟩
    · obtain ⟨hnumber', hhash'⟩ := h.numbered.apart he' he hee
      rw [RepositoryInMemory.removed_holds_iff hheld hnumber' hhash',
        RepositoryInMemory.removed_lacks_iff hheld hnumber' hhash']
      exact h.backed.block e' he'
  · intro hash data hdata
    rw [hmemory, RepositoryInMemory.getElem?_removeBlockAndTransactions, heq]
    have hbacked := h.backed.tx hash data hdata
    split
    next hhash =>
      rcases hbacked with hheld | hstored
      · rw [hheld]
        by_cases hlater : s.manager.db.latestBlockNumber < data.txMeta.blockNumber
        · exact .inl (by simp [hlater])
        · have hle := Nat.le_of_not_lt hlater
          exact .inr ⟨hle, by simpa using hle, htxs hash hhash data hdata hle⟩
      · rw [hstored.2.1]
        exact .inr ⟨hstored.1, rfl, hstored.2.2⟩
    next => exact hbacked

theorem insert {blockOutput : BlockOutput} {transactions : List ZkTransaction}
    {inMemory : RepositoryInMemory} (hcall : s.call = .waiting blockOutput transactions)
    (hwf : (entryOf env blockOutput transactions).WellFormed env)
    (hinserted : Inserted (entryOf env blockOutput transactions) s.manager.inMemory inMemory) : Inv env { s with
      manager := { s.manager with inMemory }
      call := .idle
      populated := s.populated ++ [entryOf env blockOutput transactions] } := by
  set e := entryOf env blockOutput transactions with he
  obtain ⟨-, hfollows⟩ := h.numbered.waiting blockOutput transactions hcall
  have hapart : ∀ e' ∈ s.populated, e'.block.number ≠ e.block.number ∧ e'.block.hash ≠ e.block.hash := fun e' he' =>
    ⟨(h.numbered.number_lt hfollows he').ne, hfollows.hash e' he'⟩
  -- Data under a hash is the new one, which is later than all others, or as it was.
  have hlatest : ∀ hash data, latestData (s.populated ++ [e]) hash = some data →
      inMemory.txData[hash]? = some data ∧ data.txMeta.blockNumber = e.block.number ∨
        latestData s.populated hash = some data ∧ inMemory.txData[hash]? = s.manager.inMemory.txData[hash]? := by
    intro hash data hdata
    rw [latestData_append] at hdata
    rw [hinserted.txData]
    cases hlast : KeyedLog.last (·.1) e.txs hash with
    | some t =>
      rw [hlast] at hdata
      obtain rfl : t.2 = data := by simpa using hdata
      exact .inl ⟨rfl, hwf.number t (KeyedLog.mem_of_last hlast).1⟩
    | none =>
      rw [hlast] at hdata
      exact .inr ⟨by simpa using hdata, rfl⟩
  refine ⟨h.numbered.insert hcall hwf hinserted.latestBlock, ⟨?_, ?_⟩, ?_⟩
  · intro e' he'
    rcases List.mem_append.mp he' with he' | he'
    · obtain ⟨hnumber, hhash⟩ := hapart e' he'
      have hbacked := h.backed.block e' he'
      simp only [RepositoryInMemory.HoldsBlock, RepositoryInMemory.LacksBlock, hinserted.hashIndex, hinserted.receipts,
        SortedMap.getElem?_insert, hnumber, hhash, if_false] at hbacked ⊢
      exact hbacked
    · rw [List.mem_singleton.mp he']
      refine .inl ⟨?_, ?_⟩
      · simp [hinserted.hashIndex]
      · simp [hinserted.receipts]
  · intro hash data hdata
    rcases hlatest hash data hdata with ⟨hnew, -⟩ | ⟨hold, hkeep⟩
    · exact .inl hnew
    · dsimp only
      rw [hkeep]
      exact h.backed.tx hash data hold
  · have hinFlight := h.inFlight
    -- Data of the new block is later than the block in flight.
    have hold : ∀ number hash data, (∃ e ∈ s.populated, e.block.number = number) →
        latestData (s.populated ++ [e]) hash = some data → data.txMeta.blockNumber ≤ number →
        latestData s.populated hash = some data := by
      rintro number hash data ⟨e', he', rfl⟩ hdata hle
      rcases hlatest hash data hdata with ⟨-, hnew⟩ | ⟨hold, -⟩
      · have hlt := h.numbered.number_lt hfollows he'
        have hnumber : e.block.number = blockOutput.header.number := rfl
        omega
      · exact hold
    dsimp only
    cases hpersist : s.persist with
    | idle => trivial
    | failed => rwa [hpersist] at hinFlight
    | read number block txs =>
      rw [hpersist] at hinFlight
      obtain ⟨hnumber, ⟨e', he', rfl, heq⟩, hkeys, htxs⟩ := hinFlight
      refine ⟨hnumber, ⟨e', List.mem_append_left _ he', rfl, heq⟩, hkeys, fun t ht data hdata hle => ?_⟩
      exact htxs t ht data (hold number _ data ⟨e', he', heq⟩ hdata hle) hle
    | written number block =>
      rw [hpersist] at hinFlight
      obtain ⟨hnumber, ⟨e', he', rfl, heq⟩, hheld, hblock, htxs⟩ := hinFlight
      refine ⟨hnumber, ⟨e', List.mem_append_left _ he', rfl, heq⟩, ?_, hblock, fun hash hhash data hdata hle => ?_⟩
      · obtain ⟨hnumber', hhash'⟩ := hapart e' he'
        simpa only [RepositoryInMemory.HoldsBlock, hinserted.hashIndex, hinserted.receipts, SortedMap.getElem?_insert,
          hnumber', hhash', if_false] using hheld
      · exact htxs hash hhash data (hold number hash data ⟨e', he', heq⟩ hdata hle) hle

theorem prepare {blockOutput : BlockOutput} {transactions : List ZkTransaction}
    {manager : RepositoryManager} (hfollows : Follows s blockOutput)
    (hprepare : s.manager.prepare blockOutput.header.number = .ok manager) :
    Inv env { s with manager, call := .waiting blockOutput transactions } := by
  obtain ⟨-, -, hsame, -, -⟩ := h.numbered.prepared hfollows hprepare
  refine ⟨h.numbered.prepare hfollows hprepare, ?_, ?_⟩
  · rcases hsame with rfl | ⟨hempty, -⟩
    · exact ⟨h.backed.block, h.backed.tx⟩
    · constructor
      · intro e he
        rw [hempty] at he
        exact nomatch he
      · intro hash data hdata
        rw [hempty] at hdata
        exact nomatch hdata
  · rcases hsame with rfl | ⟨-, hidle⟩
    · exact h.inFlight
    · dsimp only
      rw [hidle]
      trivial

theorem fail (message : String) : Inv env { s with call := .failed message } := by
  refine ⟨⟨h.numbered.wf, h.numbered.ordered, h.numbered.distinct, h.numbered.latest, h.numbered.none_yet,
    h.numbered.gapless, h.numbered.dbMeta, h.numbered.unready, nofun⟩, ⟨h.backed.block, h.backed.tx⟩, h.inFlight⟩

theorem step {event : Event} (hevent : Consecutive s event) : Inv env (s.step env event) := by
  cases event with
  | populate blockOutput transactions =>
    rw [System.step]
    split
    next hcall =>
      split
      next message _ => exact h.fail message
      next manager hprepare => exact h.prepare (hevent hcall) hprepare
    next => exact h
  | insert =>
    rw [System.step]
    split
    next blockOutput transactions hcall =>
      split
      next =>
        rw [System.insert]
        split
        next message _ => exact h.fail message
        next inMemory hpopulate =>
          obtain ⟨hwf, hinserted⟩ := populateInMemory_spec hpopulate
          exact h.insert hcall hwf hinserted
      next => exact h
    next => exact h
  | read =>
    rw [System.step]
    split
    next =>
      split
      next hmay => exact h.read hmay
      next => exact h
    next => exact h
  | write =>
    rw [System.step]
    split
    next hpersist => exact h.write hpersist
    next => exact h
  | evict =>
    rw [System.step]
    split
    next hpersist => exact h.evict hpersist
    next => exact h

theorem available : Available env s := by
  refine ⟨fun e he => ?_, fun e he hash hhash => ?_, fun hfailed => ?_⟩
  · rw [RepositoryManager.getBlockByNumber, RepositoryManager.getBlockByHash]
    rcases h.backed.block e he with hheld | ⟨-, hlacks, hstored⟩
    · rw [hheld.getBlockByNumber, RepositoryInMemory.getBlockByHash, hheld.2]
      exact ⟨rfl, rfl⟩
    · rw [RepositoryInMemory.getBlockByNumber, hlacks.1, RepositoryInMemory.getBlockByHash, hlacks.2,
        RepositoryDb.getBlockByNumber, hstored.1]
      exact ⟨hstored.2, hstored.2⟩
  · obtain ⟨data, hdata, -, -⟩ := h.numbered.exists_latestData he hhash
    refine ⟨data, hdata, ?_⟩
    rcases h.backed.tx hash data hdata with hheld | ⟨-, hnone, hstored⟩
    · constructor
      · rw [RepositoryManager.getTransaction, hheld]; rfl
      · rw [RepositoryManager.getTransactionReceipt, hheld]; rfl
      · rw [RepositoryManager.getTransactionMeta, hheld]; rfl
      · rw [RepositoryManager.getStoredTransaction, hheld]; rfl
    · obtain ⟨htx, hreceipt, hmeta⟩ := hstored
      constructor
      · rw [RepositoryManager.getTransaction, hnone]; exact htx
      · rw [RepositoryManager.getTransactionReceipt, hnone]; exact hreceipt
      · rw [RepositoryManager.getTransactionMeta, hnone]; exact hmeta
      · rw [RepositoryManager.getStoredTransaction, hnone, RepositoryDb.getStoredTransaction,
          RepositoryDb.getTransaction, htx, RepositoryDb.getTransactionReceipt, hreceipt,
          RepositoryDb.getTransactionMeta, hmeta]
        rfl
  · have hinFlight := h.inFlight
    rw [hfailed] at hinFlight
    exact hinFlight

end

end Inv

theorem inv_start {blocksToRetain : Nat} {db : RepositoryDb Payload} {genesis : Repository.Block Payload}
    {manager : RepositoryManager} (hnew : RepositoryManager.new blocksToRetain db genesis = .ok manager)
    (hgenesis : genesis.number = 0) : Inv env (.start manager) := by
  simp only [RepositoryManager.new, bind_eq_ok, pure_eq_ok] at hnew
  obtain ⟨genesisBlock, -, rfl⟩ := hnew
  refine ⟨⟨by simp [System.start], .nil, .nil, by simp [System.start], fun _ => rfl, ?_, openDb_meta hgenesis,
    fun _ => ⟨rfl, rfl⟩, by simp [System.start]⟩, ⟨by simp [System.start], fun _ _ => (by cases ·)⟩, trivial⟩
  intro n hlt hle
  have hzero : n ≤ 0 := hle
  omega

theorem failed_step {message : String} (event : Event) (h : s.call = .failed message) :
    (s.step env event).call = .failed message := by
  unfold System.step System.insert System.read System.write System.evict
  grind

/-- Unless the call fails, a block whose `populate` is called waits and is then populated. -/
theorem populated_step (event : Event) (h : ∀ message, (s.step env event).call ≠ .failed message) :
    (s.step env event).populated ++ (s.step env event).call.waits env =
      s.populated ++ s.call.waits env ++ populates env s event := by
  unfold System.step System.insert System.read System.write System.evict at h ⊢
  unfold populates PopulateCall.waits
  grind

/-- Whatever the interleaving of `populate` calls for consecutive blocks with the persist loop, at every
moment each populated block and the latest data of each of its transactions can be read, and the persist
loop finds what it has to write. Populated are the blocks of the calls, but for the one that waits. -/
theorem populated_stays_available (env : Env) (blocksToRetain : Nat) (db : RepositoryDb Payload)
    (genesis : Repository.Block Payload) (hgenesis : genesis.number = 0) (manager : RepositoryManager)
    (hnew : RepositoryManager.new blocksToRetain db genesis = .ok manager) (events : List Event)
    (hevents : Run.Steps (System.step env) Consecutive (.start manager) events) :
    Run.States (System.step env) (Available env) (.start manager) events ∧
      let s := events.foldl (System.step env) (.start manager)
      (∀ message, s.call ≠ .failed message) → s.populated ++ s.call.waits env =
        Run.collect (System.step env) (populates env) (.start manager) events := by
  have hinv : Run.States (System.step env) (Inv env) (.start manager) events :=
    Run.Steps.invariant (fun _ _ h => h.step) (inv_start hnew hgenesis) hevents
  refine ⟨hinv.imp fun _ => Inv.available, ?_⟩
  refine Run.collect_induction (J := fun before (s : System) =>
    (∀ message, s.call ≠ .failed message) → s.populated ++ s.call.waits env = before) ?_ fun _ => rfl
  intro before s event h hok
  rw [populated_step event hok, h fun message hfailed => hok message (failed_step event hfailed)]

def sampleEnv : Env where
  primitives := ⟨fun _ => 0, fun _ => 0, fun _ => 0⟩
  effectiveGasPrice _ _ := 0
  signer _ := 0
  nonce _ := 0

def sampleGenesis : Repository.Block Payload := ⟨0, 100, [], .header⟩

/-- The manager over a new database. -/
def sampleManager : RepositoryManager :=
  ⟨.new (readBlock sampleGenesis), openDb .empty sampleGenesis, 1, false⟩

theorem new_sampleManager : RepositoryManager.new 1 .empty sampleGenesis = .ok sampleManager := by
  have hgenesis : (openDb .empty sampleGenesis).getBlockByNumber 0 = some sampleGenesis := by
    simp [openDb, RepositoryDb.empty, RepositoryDb.getBlockByNumber, RepositoryDb.getBlockByHash,
      RepositoryDb.writeBlock, RepositoryDb.writeData, sampleGenesis]
  rw [RepositoryManager.new, hgenesis]
  rfl

def sampleBlock (number : Nat) : BlockOutput where
  header := ⟨Fin.ofNat _ (100 + number), number, 0, none⟩
  txResults := [some ⟨true, 21000, none, [], []⟩]
  pubdata := .bytes []

def sampleTransactions : List ZkTransaction := [⟨.l2 ⟨7, 21000⟩, 1⟩]

/-- The second block is populated between the lookup of the first one and its eviction. -/
def sampleEvents : List Event :=
  [.populate (sampleBlock 1) sampleTransactions, .insert, .read, .populate (sampleBlock 2) sampleTransactions, .insert,
    .write, .evict, .read, .write, .evict]

theorem populated_stays_available_shared_transaction :
    (sampleEvents.foldl (System.step sampleEnv) (.start sampleManager)).populated.length = 2 ∧
      Run.Steps (System.step sampleEnv) Consecutive (.start sampleManager) sampleEvents ∧
      Run.States (System.step sampleEnv) (Available sampleEnv) (.start sampleManager) sampleEvents := by
  have hevents : Run.Steps (System.step sampleEnv) Consecutive (.start sampleManager) sampleEvents := by
    decide +kernel
  exact ⟨by decide +kernel, hevents, populated_stays_available sampleEnv 1 .empty sampleGenesis rfl sampleManager
    new_sampleManager sampleEvents hevents |>.1⟩

end LazyRepository
