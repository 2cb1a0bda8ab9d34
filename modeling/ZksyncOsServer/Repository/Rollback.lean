import ZksyncOsServer.Lib.KeyedLog
import ZksyncOsServer.Repository.Db

/-!
# Rolling the repository back

Every column family is a table in which later blocks overwrite the rows of earlier
ones, and a rollback deletes the rows of the removed blocks by their keys. It restores
what was readable before exactly when no removed block shares a transaction hash or a
pair of initiator and nonce with a kept one.
-/
namespace Repository

open Fallible List RepositoryDb KeyedLog
open MerkleTree (B256 Map)

variable {P : Type}

abbrev Entry (P : Type) := Block P × List (StoredTxData P)

/-- All transactions of the blocks, in order. -/
def allTxs (entries : List (Entry P)) : List (StoredTxData P) := entries.flatMap (·.2)

/-- Writing blocks one after the other. -/
def writeBlocks (db : RepositoryDb P) (entries : List (Entry P)) : RepositoryDb P :=
  entries.foldl (fun db entry => db.writeBlock entry.1 entry.2) db

/-- A fresh database with the given blocks. -/
def written (entries : List (Entry P)) : RepositoryDb P := writeBlocks .empty entries

/-- The blocks have consecutive numbers from 0, list the hashes of their transactions, and
different blocks and transactions have different hashes. -/
structure WellFormed (entries : List (Entry P)) : Prop where
  number : ∀ (i : Nat) (entry : Entry P), entries[i]? = some entry → entry.1.number = i
  body : ∀ entry ∈ entries, entry.1.transactions = entry.2.map (·.tx.hash)
  block_inj : ∀ a ∈ entries, ∀ b ∈ entries, a.1.hash = b.1.hash → a.1.number = b.1.number
  tx_inj : ∀ a ∈ allTxs entries, ∀ b ∈ allTxs entries, a.tx.hash = b.tx.hash → a.tx = b.tx

structure SameReads (db db' : RepositoryDb P) : Prop where
  block_number : ∀ number, db'.getBlockByNumber number = db.getBlockByNumber number
  block_hash : ∀ hash, db'.getBlockByHash hash = db.getBlockByHash hash
  tx : ∀ hash, db'.getTransaction hash = db.getTransaction hash
  receipt : ∀ hash, db'.getTransactionReceipt hash = db.getTransactionReceipt hash
  tx_meta : ∀ hash, db'.getTransactionMeta hash = db.getTransactionMeta hash
  sender_nonce : ∀ sender nonce,
    db'.getTransactionHashBySenderNonce sender nonce = db.getTransactionHashBySenderNonce sender nonce
  latest : db'.getLatestBlock = db.getLatestBlock

/-- The key of `InitiatorAndNonceToHash`. -/
def StoredTxData.initiatorAndNonce (t : StoredTxData P) : Address ×ₗ Nat := toLex (t.tx.signer, t.tx.nonce)

/-- After `rollback(k)` all reads give what they gave right after block `k`, and a further
rollback does not panic. -/
def RollbackRestores (entries : List (Entry P)) (k : Nat) : Prop :=
  ∃ db, (written entries).rollback k = .ok db ∧ SameReads (written (entries.take (k + 1))) db ∧
    ∀ j ≤ k, ∃ db', db.rollback j = .ok db'

/-! ### What the tables hold -/

structure Table {K V R : Type} [LinearOrder K] (rows : Entry P → List R) (get : RepositoryDb P → Map K V)
    (key : R → K) (value : R → V) : Prop where
  empty : get .empty = ∅
  write : ∀ db block txs, get (RepositoryDb.writeBlock db block txs) =
    (rows (block, txs)).foldl (fun m row => m.insert (key row) (value row)) (get db)

/-- The deletion of the rows of some blocks. -/
def eraseRows {K V R : Type} [LinearOrder K] (rows : Entry P → List R) (key : R → K) (removed : List (Entry P))
    (m : Map K V) : Map K V :=
  ((removed.flatMap rows).map key).foldl (fun m x => m.erase x) m

section Tables
variable {K V R : Type} [LinearOrder K] {rows : Entry P → List R} {get : RepositoryDb P → Map K V}
  {key : R → K} {value : R → V} {entries : List (Entry P)} {db : RepositoryDb P} {k : Nat}

section
variable (t : Table rows get key value)
include t

theorem Table.writeBlocks (db : RepositoryDb P) (entries : List (Entry P)) : get (writeBlocks db entries) =
      (entries.flatMap rows).foldl (fun m row => m.insert (key row) (value row)) (get db) := by
  induction entries generalizing db with
  | nil => rfl
  | cons entry entries ih =>
    rw [flatMap_cons, foldl_append, ← t.write]
    exact ih _

theorem Table.written (x : K) : (get (written entries))[x]? = (last key (entries.flatMap rows) x).map value := by
  rw [Repository.written, t.writeBlocks, SortedMap.getElem?_foldl_insert, t.empty, last]
  simp

theorem Table.deleted
    (hdb : get db = eraseRows rows key (entries.drop (k + 1)) (get (Repository.written entries))) (x : K) :
    (get db)[x]? = withoutKeys key ((entries.take (k + 1)).flatMap rows)
      ((entries.drop (k + 1)).flatMap rows) value x := by
  rw [hdb, eraseRows, SortedMap.getElem?_foldl_erase, t.written, withoutKeys, ← flatMap_append, take_append_drop]

theorem Table.restored_iff
    (hdb : get db = eraseRows rows key (entries.drop (k + 1)) (get (Repository.written entries))) :
    (∀ x : K, (get db)[x]? = (get (Repository.written (entries.take (k + 1))))[x]?) ↔
      ∀ a ∈ (entries.take (k + 1)).flatMap rows, ∀ b ∈ (entries.drop (k + 1)).flatMap rows, key a ≠ key b := by
  simp only [t.deleted hdb, t.written]
  exact withoutKeys_eq_iff

end

end Tables

def blockRow (entry : Entry P) : List (Block P) := [entry.1]

theorem flatMap_blockRow (entries : List (Entry P)) : entries.flatMap blockRow = entries.map (·.1) :=
  flatMap_pure_eq_map _ _

theorem numberTable : Table (P := P) blockRow blockNumberToHash Block.number Block.hash := ⟨rfl, fun _ _ _ => rfl⟩

theorem blockTable : Table (P := P) blockRow blockData Block.hash id := ⟨rfl, fun _ _ _ => rfl⟩

theorem txTable : Table (P := P) Prod.snd tx (·.tx.hash) (·.tx) := ⟨rfl, fun _ _ _ => rfl⟩

theorem receiptTable : Table (P := P) Prod.snd txReceipt (·.tx.hash) (·.receipt) :=
  ⟨rfl, fun _ _ _ => rfl⟩

theorem metaTable : Table (P := P) Prod.snd txMeta (·.tx.hash) (·.txMeta) := ⟨rfl, fun _ _ _ => rfl⟩

theorem nonceTable : Table (P := P) Prod.snd initiatorAndNonceToHash
    StoredTxData.initiatorAndNonce (·.tx.hash) := ⟨rfl, fun _ _ _ => rfl⟩

/-! ### What a rollback reads -/

section Reads
variable {entries : List (Entry P)} {entry : Entry P} {i k : Nat}

section
variable (wf : WellFormed entries)
include wf

theorem WellFormed.eq_of_number {a b : Entry P} (ha : a ∈ entries) (hb : b ∈ entries)
    (h : a.1.number = b.1.number) : a = b := by
  obtain ⟨i, hi⟩ := mem_iff_getElem?.mp ha
  obtain ⟨j, hj⟩ := mem_iff_getElem?.mp hb
  rw [wf.number i a hi, wf.number j b hj] at h
  subst h
  exact Option.some.inj (hi.symm.trans hj)

theorem WellFormed.take (n : Nat) : WellFormed (entries.take n) := by
  have hsub : ∀ entry ∈ entries.take n, entry ∈ entries := fun _ => mem_of_mem_take
  have htxs : ∀ t ∈ allTxs (entries.take n), t ∈ allTxs entries := by
    intro t ht
    obtain ⟨entry, he, ht⟩ := mem_flatMap.mp ht
    exact mem_flatMap.mpr ⟨entry, hsub entry he, ht⟩
  refine ⟨fun i entry h => wf.number i entry ?_, fun entry h => wf.body entry (hsub entry h),
    fun a ha b hb => wf.block_inj a (hsub a ha) b (hsub b hb),
    fun a ha b hb => wf.tx_inj a (htxs a ha) b (htxs b hb)⟩
  rw [getElem?_take] at h
  split at h
  · exact h
  · cases h

theorem getBlockByNumber_written (h : entry ∈ entries) :
    (written entries).getBlockByNumber entry.1.number = some entry.1 := by
  have hrow : entry.1 ∈ entries.flatMap blockRow := by
    rw [flatMap_blockRow]
    exact mem_map_of_mem h
  have hunique : ∀ block ∈ entries.flatMap blockRow, block.number = entry.1.number → block = entry.1 := by
    intro block hmem hn
    rw [flatMap_blockRow] at hmem
    obtain ⟨e, he, rfl⟩ := mem_map.mp hmem
    rw [wf.eq_of_number he h hn]
  have hhash : ∀ block ∈ entries.flatMap blockRow, block.hash = entry.1.hash → block = entry.1 := by
    intro block hmem hh
    refine hunique block hmem ?_
    rw [flatMap_blockRow] at hmem
    obtain ⟨e, he, rfl⟩ := mem_map.mp hmem
    exact wf.block_inj e he entry h hh
  have hnumber := last_map_of_unique Block.number hrow fun b hb hn => congrArg Block.hash (hunique b hb hn)
  rw [getBlockByNumber, numberTable.written, hnumber, Option.bind_some, getBlockByHash, blockTable.written]
  exact last_map_of_unique Block.hash hrow hhash

theorem getStoredTransaction_written {t : StoredTxData P} (ht : t ∈ allTxs entries) :
    ∃ stored, (written entries).getStoredTransaction t.tx.hash = some stored ∧ stored.tx = t.tx := by
  obtain ⟨stored, hlast⟩ := exists_last (·.tx.hash) ht
  obtain ⟨hmem, hhash⟩ := mem_of_last hlast
  refine ⟨stored, ?_, wf.tx_inj stored hmem t ht hhash⟩
  simp only [getStoredTransaction, getTransaction, getTransactionReceipt,
    getTransactionMeta, txTable.written, receiptTable.written, metaTable.written]
  rw [allTxs] at hlast
  rw [hlast]
  rfl

/-- What is read about a written block: its transactions, possibly with the receipt and the meta
data of a later block. -/
theorem blockToRollback_written (h : entry ∈ entries) :
    ∃ removed, (written entries).blockToRollback entry.1.number = .ok removed ∧
      removed.1 = entry.1 ∧ removed.2.map (·.tx) = entry.2.map (·.tx) := by
  have hstored : ∀ t ∈ entry.2, ∃ stored,
      ofOption "tx to rollback must be present in DB" ((written entries).getStoredTransaction t.tx.hash) =
        .ok stored ∧ stored.tx = t.tx := by
    intro t ht
    obtain ⟨stored, hs, htx⟩ := getStoredTransaction_written wf (mem_flatMap.mpr ⟨entry, h, ht⟩)
    exact ⟨stored, by rw [hs]; rfl, htx⟩
  obtain ⟨txs, htxs, hforall⟩ := exists_mapM_forall₂ hstored
  have hread : entry.1.transactions.mapM (fun hash => ofOption "tx to rollback must be present in DB"
      ((written entries).getStoredTransaction hash)) = .ok txs := by
    rw [wf.body entry h, mapM_map]
    exact htxs
  refine ⟨(entry.1, txs), ?_, rfl, ?_⟩
  · rw [blockToRollback, getBlockByNumber_written wf h, ofOption_some, ok_bind, hread]
    rfl
  · rw [← forall₂_eq_eq_eq, forall₂_map_left_iff, forall₂_map_right_iff]
    exact hforall

end

structure Removed (entries : List (Entry P)) (removed : List (Entry P)) : Prop where
  blocks : removed.map (·.1) = entries.map (·.1)
  txs : (allTxs removed).map (·.tx) = (allTxs entries).map (·.tx)

theorem Removed.of_forall₂ {removed : List (Entry P)}
    (h : List.Forall₂ (fun r entry => r.1 = entry.1 ∧ r.2.map (·.tx) = entry.2.map (·.tx)) removed entries) :
    Removed entries removed := by
  induction h with
  | nil => exact ⟨rfl, rfl⟩
  | cons h _ ih =>
    constructor
    · rw [map_cons, map_cons, h.1, ih.blocks]
    · simp only [allTxs, flatMap_cons, map_append, h.2]
      exact congrArg _ ih.txs

theorem range'_eq_numbers (wf : WellFormed entries) (h : k < entries.length) :
    range' (k + 1) (entries.length - 1 - k) = (entries.drop (k + 1)).map (·.1.number) := by
  refine ext_getElem (by simp; omega) fun i hi hi' => ?_
  have hlt : k + 1 + i < entries.length := by
    rw [length_range'] at hi
    omega
  have hnumber := wf.number (k + 1 + i) entries[k + 1 + i] (getElem?_eq_getElem _)
  simp only [getElem_range', getElem_map, getElem_drop, hnumber]
  omega

theorem latest_written (wf : WellFormed entries) (h : k < entries.length) (hlast : entries.length ≤ k + 1) :
    (written entries).blockNumber = some k ∧ (written entries).latestBlockNumber = k := by
  obtain ⟨init, last, rfl⟩ := (eq_nil_or_concat' entries).resolve_left (ne_nil_of_length_pos (by omega))
  have hnumber : last.1.number = k := by
    refine wf.number k last ?_
    rw [length_append, length_singleton] at h hlast
    obtain rfl : k = init.length := by omega
    simp
  simp [written, writeBlocks, writeBlock, writeData, hnumber]

end Reads

/-! ### What a rollback deletes -/

structure RolledBack (entries : List (Entry P)) (k : Nat) (db : RepositoryDb P) : Prop where
  numbers : db.blockNumberToHash =
    eraseRows blockRow Block.number (entries.drop (k + 1)) (written entries).blockNumberToHash
  blocks : db.blockData = eraseRows blockRow Block.hash (entries.drop (k + 1)) (written entries).blockData
  txs : db.tx = eraseRows Prod.snd (·.tx.hash) (entries.drop (k + 1)) (written entries).tx
  receipts : db.txReceipt = eraseRows Prod.snd (·.tx.hash) (entries.drop (k + 1)) (written entries).txReceipt
  metas : db.txMeta = eraseRows Prod.snd (·.tx.hash) (entries.drop (k + 1)) (written entries).txMeta
  nonces : db.initiatorAndNonceToHash = eraseRows Prod.snd StoredTxData.initiatorAndNonce (entries.drop (k + 1))
    (written entries).initiatorAndNonceToHash
  blockNumber : db.blockNumber = some k
  latest : db.latestBlockNumber = k

section Deletions
variable {entries removed : List (Entry P)} {k : Nat}

theorem Removed.hashes (h : Removed entries removed) (hbody : ∀ entry ∈ entries, entry.1.transactions =
    entry.2.map (·.tx.hash)) : removed.flatMap (·.1.transactions) = (entries.flatMap Prod.snd).map (·.tx.hash) := by
  have hleft : removed.flatMap (·.1.transactions) = (removed.map (·.1)).flatMap Block.transactions := by
    rw [flatMap_map]
  rw [hleft, h.blocks, flatMap_map, map_flatMap]
  exact flatMap_congr hbody

theorem Removed.keys (h : Removed entries removed) :
    ((removed.flatMap (·.2)).map fun t => (toLex (t.tx.signer, t.tx.nonce) : Address ×ₗ Nat)) =
      (entries.flatMap Prod.snd).map StoredTxData.initiatorAndNonce := by
  have hmap := congrArg (map fun tx : Tx P => (toLex (tx.signer, tx.nonce) : Address ×ₗ Nat)) h.txs
  rw [map_map, map_map] at hmap
  exact hmap

theorem Removed.rolledBack (h : Removed (entries.drop (k + 1)) removed) (wf : WellFormed entries) : RolledBack entries k
      ((written entries).deleteBlocks k ((entries.drop (k + 1)).map (·.1.number)) removed) := by
  have hhashes := h.hashes fun entry he => wf.body entry (mem_of_mem_drop he)
  have hblocks : removed.map (·.1.hash) = ((entries.drop (k + 1)).flatMap blockRow).map Block.hash := by
    rw [flatMap_blockRow, ← h.blocks, map_map]
    rfl
  have hnumbers : (entries.drop (k + 1)).map (·.1.number) =
      ((entries.drop (k + 1)).flatMap blockRow).map Block.number := by
    rw [flatMap_blockRow, map_map]
    rfl
  constructor
  case numbers => exact congrArg (foldl _ _) hnumbers
  case blocks => exact congrArg (foldl _ _) hblocks
  case nonces => exact congrArg (foldl _ _) h.keys
  case txs | receipts | metas => exact congrArg (foldl _ _) hhashes
  all_goals rfl

theorem rollback_written (wf : WellFormed entries) (hk : k < entries.length) :
    ∃ db, (written entries).rollback k = .ok db ∧ RolledBack entries k db := by
  have hlatest := latest_written (k := entries.length - 1) wf (by omega) (by omega)
  rw [rollback, hlatest.1, ofOption_some, ok_bind]
  split
  next hlt =>
    obtain ⟨removed, hread, hforall⟩ := exists_mapM_forall₂ fun entry (he : entry ∈ entries.drop (k + 1)) =>
      blockToRollback_written wf (mem_of_mem_drop he)
    have hnumbers : ((entries.drop (k + 1)).map (·.1.number)).mapM (written entries).blockToRollback = .ok removed := by
      rw [mapM_map]
      exact hread
    rw [range'_eq_numbers wf hk]
    dsimp only
    rw [hnumbers]
    exact ⟨_, rfl, (Removed.of_forall₂ hforall).rolledBack wf⟩
  next hle =>
    have hlen : entries.length = k + 1 := by omega
    have hdrop : entries.drop (k + 1) = [] := by rw [← hlen, drop_length]
    obtain rfl : k = entries.length - 1 := by omega
    refine ⟨_, rfl, ?_⟩
    constructor
    case blockNumber => exact hlatest.1
    case latest => exact hlatest.2
    all_goals
      rw [hdrop]
      rfl

end Deletions

/-! ### When a rollback restores the prefix -/

/-- Kept and removed blocks have no transaction hash and no pair of initiator and nonce in common. -/
def NoSharedTxs (kept removed : List (Entry P)) : Prop :=
  ∀ a ∈ allTxs kept, ∀ b ∈ allTxs removed,
    a.tx.hash ≠ b.tx.hash ∧ a.initiatorAndNonce ≠ b.initiatorAndNonce

section Main
variable {entries : List (Entry P)} {k : Nat} {db : RepositoryDb P}

theorem RolledBack.noSharedTxs (h : RolledBack entries k db) (hsame : SameReads (written (entries.take (k + 1))) db) :
    NoSharedTxs (entries.take (k + 1)) (entries.drop (k + 1)) :=
  fun a ha b hb => ⟨(txTable.restored_iff h.txs).mp hsame.tx a ha b hb,
    (nonceTable.restored_iff h.nonces).mp (fun x => hsame.sender_nonce (ofLex x).1 (ofLex x).2) a ha b hb⟩

theorem RolledBack.sameReads (h : RolledBack entries k db) (wf : WellFormed entries) (hk : k < entries.length)
    (hd : NoSharedTxs (entries.take (k + 1)) (entries.drop (k + 1))) :
    SameReads (written (entries.take (k + 1))) db := by
  have hnumber : ∀ a ∈ entries.take (k + 1), ∀ b ∈ entries.drop (k + 1), a.1.number ≠ b.1.number := by
    intro a ha b hb
    obtain ⟨i, hi⟩ := mem_iff_getElem?.mp ha
    obtain ⟨j, hj⟩ := mem_iff_getElem?.mp hb
    rw [getElem?_take] at hi
    rw [getElem?_drop] at hj
    split at hi
    · rw [wf.number i a hi, wf.number _ b hj]
      omega
    · cases hi
  have hrow : ∀ a ∈ (entries.take (k + 1)).flatMap blockRow, ∀ b ∈ (entries.drop (k + 1)).flatMap blockRow,
      a.number ≠ b.number ∧ a.hash ≠ b.hash := by
    simp only [flatMap_blockRow, forall_mem_map]
    intro a ha b hb
    exact ⟨hnumber a ha b hb, fun heq => hnumber a ha b hb
      (wf.block_inj a (mem_of_mem_take ha) b (mem_of_mem_drop hb) heq)⟩
  have hnumbers := (numberTable.restored_iff h.numbers).mpr fun a ha b hb => (hrow a ha b hb).1
  have hblocks := (blockTable.restored_iff h.blocks).mpr fun a ha b hb => (hrow a ha b hb).2
  have htx : ∀ a ∈ (entries.take (k + 1)).flatMap Prod.snd, ∀ b ∈ (entries.drop (k + 1)).flatMap Prod.snd,
      a.tx.hash ≠ b.tx.hash := fun a ha b hb => (hd a ha b hb).1
  constructor
  case block_number =>
    intro number
    rw [getBlockByNumber, hnumbers]
    exact congrArg _ (funext hblocks)
  case block_hash => exact hblocks
  case tx => exact (txTable.restored_iff h.txs).mpr htx
  case receipt => exact (receiptTable.restored_iff h.receipts).mpr htx
  case tx_meta => exact (metaTable.restored_iff h.metas).mpr htx
  case sender_nonce =>
    intro sender nonce
    exact (nonceTable.restored_iff h.nonces).mpr (fun a ha b hb => (hd a ha b hb).2) _
  case latest =>
    have hlen : (entries.take (k + 1)).length = k + 1 := by simpa using hk
    exact h.latest.trans (latest_written (wf.take _) (by omega) (by omega)).2.symm

theorem SameReads.rollback_ok {db db' : RepositoryDb P} (h : SameReads db db')
    (hn : db'.blockNumber = db.blockNumber) {j : Nat} (hj : ∃ r, db.rollback j = .ok r) :
    ∃ r, db'.rollback j = .ok r := by
  have hread : db'.blockToRollback = db.blockToRollback := by
    funext number
    simp only [blockToRollback, h.block_number, getStoredTransaction, h.tx, h.receipt, h.tx_meta]
  obtain ⟨r, hr⟩ := hj
  simp only [rollback, bind_eq_ok] at hr ⊢
  rw [hn, hread]
  obtain ⟨latest, hlatest, hr⟩ := hr
  split at hr
  next hlt =>
    obtain ⟨removed, hremoved, -⟩ := bind_eq_ok.mp hr
    exact ⟨_, latest, hlatest, by rw [if_pos hlt, hremoved]; rfl⟩
  next hle =>
    exact ⟨_, latest, hlatest, by rw [if_neg hle]; rfl⟩

/-- A rollback to block `k` restores the state after block `k` exactly when the removed blocks share no
transaction hash and no pair of initiator and nonce with the kept ones. -/
theorem rollback_restores_iff (entries : List (Entry P)) (wf : WellFormed entries) (k : Nat) (hk : k < entries.length) :
    RollbackRestores entries k ↔ NoSharedTxs (entries.take (k + 1)) (entries.drop (k + 1)) := by
  obtain ⟨db, hroll, hdb⟩ := rollback_written wf hk
  constructor
  · rintro ⟨db', hroll', hsame, -⟩
    obtain rfl : db = db' := Except.ok.inj (hroll.symm.trans hroll')
    exact hdb.noSharedTxs hsame
  · intro hd
    have hsame := hdb.sameReads wf hk hd
    have hlen : (entries.take (k + 1)).length = k + 1 := by simpa using hk
    have hlatest := latest_written (wf.take (k + 1)) (k := k) (by omega) (by omega)
    refine ⟨db, hroll, hsame, fun j hj => hsame.rollback_ok (hdb.blockNumber.trans hlatest.1.symm) ?_⟩
    obtain ⟨r, hr, -⟩ := rollback_written (wf.take (k + 1)) (k := j) (by omega)
    exact ⟨r, hr⟩

/-- The `SetSLChainId` placeholder: the same transaction, in two blocks. -/
def placeholder : StoredTxData Nat := ⟨⟨7, 1, 0, 0⟩, ⟨[], 0⟩, 0⟩

/-- Blocks 0, 1 and 2; the last two have the placeholder. -/
def sampleEntries : List (Entry Nat) :=
  [(⟨0, 100, [], 0⟩, []), (⟨1, 101, [7], 0⟩, [placeholder]), (⟨2, 102, [7], 0⟩, [placeholder])]

theorem sampleEntries_wellFormed : WellFormed sampleEntries := by
  constructor
  case number =>
    intro i entry h
    match i with
    | 0 | 1 | 2 => cases h; rfl
    | i + 3 => cases h
  all_goals decide

/-- To block 0, all transactions can be removed. -/
theorem rollback_restores_genesis : RollbackRestores sampleEntries 0 :=
  (rollback_restores_iff sampleEntries sampleEntries_wellFormed 0 (by decide)).mpr
    (by intro a ha; exact absurd ha not_mem_nil)

/-- To block 1, the transaction that block 1 has as well is deleted, and a rollback to block 0 panics. -/
theorem shared_placeholder_lost : WellFormed sampleEntries ∧ ¬ RollbackRestores sampleEntries 1 ∧
      (written (sampleEntries.take 2)).getTransaction 7 = some placeholder.tx ∧
      ((written sampleEntries).rollback 1).toOption.map (·.getTransaction 7) = some none ∧
      ((written sampleEntries).rollback 1 >>= fun db => db.rollback 0 >>= fun _ => pure ()) =
        .error "tx to rollback must be present in DB" := by
  have hbefore : (written (sampleEntries.take 2)).getTransaction 7 = some placeholder.tx := by decide +kernel
  have hafter : ((written sampleEntries).rollback 1).toOption.map (·.getTransaction 7) = some none := by
    decide +kernel
  refine ⟨sampleEntries_wellFormed, ?_, hbefore, hafter, by decide +kernel⟩
  rintro ⟨db, hroll, hsame, -⟩
  rw [hroll] at hafter
  have hnone := (hsame.tx 7).symm.trans (Option.some.inj hafter)
  exact absurd (hbefore.symm.trans hnone) (by simp)

end Main

end Repository
