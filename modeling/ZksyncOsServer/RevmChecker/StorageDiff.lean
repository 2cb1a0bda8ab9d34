import ZksyncOsServer.Lib.KeyedLog
import ZksyncOsServer.Repository.Db

/-!
# Storage comparison with REVM

`revm_consistency_checker/src/storage_diff_comp.rs`. The cache of REVM and the storage writes of ZKsync OS are reduced
to the slots that differ from the state before the block, and the two diffs are compared.
-/
namespace RevmChecker

open List SortedMap
open MerkleTree (B256 Map)
open Repository (Address)

def accountPropertiesStorageAddress : Address := (0x8003 : Fin (2 ^ 160))

abbrev SlotKey := Address ×ₗ B256

/-- The storage of the cached accounts over the state before the block. -/
structure CacheDB where
  accounts : Map Address (Map B256 B256)
  db : SlotKey → B256

structure StorageWrite where
  account : Address
  accountKey : B256
  value : B256

structure StorageMismatch where
  addr : Address
  slot : B256
  revmValue : Option B256
  zkValue : Option B256

/-- What the two loops over the cached slots insert. -/
def revmEntries (cacheDb : CacheDB) : List (SlotKey × B256) :=
  cacheDb.accounts.toList.flatMap fun (addr, storage) =>
    if addr = accountPropertiesStorageAddress then []
    else (storage.toList.map fun (slot, value) => (toLex (addr, slot), value)).filter fun (key, value) =>
      cacheDb.db key ≠ value

def buildRevmStorageMap (cacheDb : CacheDB) : Map SlotKey B256 :=
  (∅ : Map SlotKey B256).insertMany (revmEntries cacheDb)

def buildZkStorageMap (cacheDb : CacheDB) (zksyncStorageWrites : List StorageWrite) : Map SlotKey B256 :=
  let finalValues := (zksyncStorageWrites.filter (·.account ≠ accountPropertiesStorageAddress)).foldl
    (fun m w => m.insert (toLex (w.account, w.accountKey)) w.value) (∅ : Map SlotKey B256)
  finalValues.filter fun key value => cacheDb.db key ≠ value

/-- Keys of the REVM diff, which differ or are missing on the other side. -/
def revmMismatch (zk : Map SlotKey B256) : SlotKey × B256 → Option StorageMismatch := fun (key, revmV) =>
  let (addr, slot) := ofLex key
  match zk[key]? with
  | some zkV => if zkV ≠ revmV then some ⟨addr, slot, some revmV, some zkV⟩ else none
  | none => some ⟨addr, slot, some revmV, none⟩

/-- Keys of the ZKsync OS diff which are missing on the other side. -/
def zkMismatch (revm : Map SlotKey B256) : SlotKey × B256 → Option StorageMismatch := fun (key, zkV) =>
  let (addr, slot) := ofLex key
  if revm.contains key then none else some ⟨addr, slot, none, some zkV⟩

def compareStorage (revm zk : Map SlotKey B256) : List StorageMismatch :=
  revm.toList.filterMap (revmMismatch zk) ++ zk.toList.filterMap (zkMismatch revm)

/-- The storage part of `CompareReport::build`. -/
def buildStorage (cacheDb : CacheDB) (zksyncStorageWrites : List StorageWrite) : List StorageMismatch :=
  compareStorage (buildRevmStorageMap cacheDb) (buildZkStorageMap cacheDb zksyncStorageWrites)

def StorageMismatch.key (m : StorageMismatch) : SlotKey := toLex (m.addr, m.slot)

variable {cacheDb : CacheDB} {writes : List StorageWrite} {addr : Address} {slot : B256}

/-- The value of a slot after the block in REVM. -/
def revmFinal (cacheDb : CacheDB) (addr : Address) (slot : B256) : B256 :=
  (cacheDb.accounts[addr]?.bind (·[slot]?)).getD (cacheDb.db (toLex (addr, slot)))

/-- The value of a slot after the block in ZKsync OS. -/
def zkFinal (cacheDb : CacheDB) (writes : List StorageWrite) (addr : Address) (slot : B256) : B256 :=
  ((KeyedLog.last (fun w => (w.account, w.accountKey)) writes (addr, slot)).map (·.value)).getD
    (cacheDb.db (toLex (addr, slot)))

/-! ### The two diffs -/

/-- What a diff against the state before the block holds for a slot. -/
def changed (before after : B256) : Option B256 := if before ≠ after then some after else none

theorem changed_eq_iff {before a b : B256} : changed before a = changed before b ↔ a = b := by
  grind [changed]

theorem mem_revmEntries {value : B256} : (toLex (addr, slot), value) ∈ revmEntries cacheDb ↔
    addr ≠ accountPropertiesStorageAddress ∧
      changed (cacheDb.db (toLex (addr, slot))) (revmFinal cacheDb addr slot) = some value := by
  have hmem : (toLex (addr, slot), value) ∈ revmEntries cacheDb ↔ addr ≠ accountPropertiesStorageAddress ∧
      cacheDb.accounts[addr]?.bind (·[slot]?) = some value ∧ cacheDb.db (toLex (addr, slot)) ≠ value := by
    simp only [revmEntries, mem_flatMap, Prod.exists, mem_toList, Option.bind_eq_some_iff]
    constructor
    · rintro ⟨addr', storage, hstorage, h⟩
      split_ifs at h with haddr
      · simp at h
      · simp only [mem_filter, mem_map, Prod.exists, Prod.mk.injEq, EmbeddingLike.apply_eq_iff_eq, mem_toList,
          decide_eq_true_eq] at h
        obtain ⟨⟨_, _, hvalue, ⟨rfl, rfl⟩, rfl⟩, hne⟩ := h
        exact ⟨haddr, ⟨storage, hstorage, hvalue⟩, hne⟩
    · rintro ⟨haddr, ⟨storage, hstorage, hvalue⟩, hne⟩
      exact ⟨addr, storage, hstorage, by simp [haddr, hvalue, hne]⟩
  rw [hmem, revmFinal, changed]
  cases cacheDb.accounts[addr]?.bind (·[slot]?) <;> grind

theorem getElem?_buildRevmStorageMap (haddr : addr ≠ accountPropertiesStorageAddress) :
    (buildRevmStorageMap cacheDb)[toLex (addr, slot)]? =
      changed (cacheDb.db (toLex (addr, slot))) (revmFinal cacheDb addr slot) := by
  ext value
  rw [buildRevmStorageMap, getElem?_insertMany_of_functional, mem_revmEntries]
  · simp [haddr]
  · intro k v w hv hw
    obtain ⟨⟨addr', slot'⟩, rfl⟩ := toLex.surjective k
    rw [mem_revmEntries] at hv hw
    exact Option.some.inj (hv.2.symm.trans hw.2)

theorem getElem?_buildZkStorageMap (haddr : addr ≠ accountPropertiesStorageAddress) :
    (buildZkStorageMap cacheDb writes)[toLex (addr, slot)]? =
      changed (cacheDb.db (toLex (addr, slot))) (zkFinal cacheDb writes addr slot) := by
  have hlast : (writes.filter (·.account ≠ accountPropertiesStorageAddress)).reverse.find?
      (fun w => toLex (w.account, w.accountKey) = toLex (addr, slot)) =
      KeyedLog.last (fun w => (w.account, w.accountKey)) writes (addr, slot) := by
    rw [← filter_reverse, find?_filter, KeyedLog.last]
    congr 1
    grind [EmbeddingLike.apply_eq_iff_eq]
  ext value
  rw [buildZkStorageMap, SortedMap.getElem?_filter, getElem?_foldl_insert, hlast, zkFinal, changed]
  cases KeyedLog.last (fun w : StorageWrite => (w.account, w.accountKey)) writes (addr, slot) with
  | none => simp
  | some write =>
    simp only [Option.map_some, Option.some_or]
    grind

/-! ### The comparison -/

variable {revm zk : Map SlotKey B256}

theorem map_key_compareStorage : (compareStorage revm zk).map (·.key) =
    (revm.toList.filterMap fun e => if zk[e.1]? ≠ some e.2 then some e.1 else none) ++
      zk.toList.filterMap fun e => if revm[e.1]? = none then some e.1 else none := by
  have hrevm : ∀ e, (revmMismatch zk e).map (·.key) = if zk[e.1]? ≠ some e.2 then some e.1 else none := by
    rintro ⟨key, revmV⟩
    cases h : zk[key]? with
    | none => simp [revmMismatch, h, StorageMismatch.key]
    | some zkV => by_cases hv : zkV = revmV <;> simp [revmMismatch, h, hv, StorageMismatch.key]
  have hzk : ∀ e, (zkMismatch revm e).map (·.key) = if revm[e.1]? = none then some e.1 else none := by
    rintro ⟨key, zkV⟩
    by_cases h : key ∈ revm <;> simp [zkMismatch, h, StorageMismatch.key]
  rw [compareStorage, map_append, map_filterMap, map_filterMap]
  simp only [hrevm, hzk]

theorem nodup_keys_compareStorage : ((compareStorage revm zk).map (·.key)).Nodup := by
  rw [map_key_compareStorage, nodup_append]
  refine ⟨(pairwise_toList revm).filterMap _ ?_, (pairwise_toList zk).filterMap _ ?_, ?_⟩
  · grind
  · grind
  · simp only [mem_filterMap, Option.ite_none_right_eq_some, Option.some.injEq, Prod.exists, mem_toList]
    rintro k ⟨_, v, hv, -, rfl⟩ k' ⟨_, _, -, hnone, rfl⟩ rfl
    simp [hnone] at hv

theorem mem_keys_compareStorage {key : SlotKey} :
    key ∈ (compareStorage revm zk).map (·.key) ↔ revm[key]? ≠ zk[key]? := by
  simp only [map_key_compareStorage, mem_append, mem_filterMap, Option.ite_none_right_eq_some, Option.some.injEq,
    Prod.exists, mem_toList]
  constructor
  · rintro (⟨_, v, hv, hne, rfl⟩ | ⟨_, v, hv, hnone, rfl⟩)
    · exact fun h => hne (h.symm.trans hv)
    · simp [hv, hnone]
  · intro hne
    cases h : revm[key]? with
    | some v => exact .inl ⟨key, v, h, fun hz => hne (h.trans hz.symm), rfl⟩
    | none =>
      obtain ⟨v, hv⟩ := Option.ne_none_iff_exists'.mp fun hz => hne (h.trans hz.symm)
      exact .inr ⟨key, v, hv, h, rfl⟩

theorem storage_comparison_exact (cacheDb : CacheDB) (writes : List StorageWrite) (addr : Address) (slot : B256)
    (haddr : addr ≠ accountPropertiesStorageAddress) :
    ((buildStorage cacheDb writes).map (·.key)).count (toLex (addr, slot)) =
      if revmFinal cacheDb addr slot = zkFinal cacheDb writes addr slot then 0 else 1 := by
  rw [buildStorage, nodup_keys_compareStorage.count]
  simp only [mem_keys_compareStorage, getElem?_buildRevmStorageMap haddr, getElem?_buildZkStorageMap haddr, ne_eq,
    changed_eq_iff, ite_not]

theorem storage_comparison_exact_restored :
    ((buildStorage ⟨(∅ : Map _ _).insert 1 ((∅ : Map _ _).insert 5 7), fun _ => 0⟩
      [⟨1, 5, 9⟩, ⟨1, 5, 0⟩]).map (·.key)).count (toLex (1, 5)) = 1 :=
  (storage_comparison_exact _ _ 1 5 (by decide)).trans (by decide +kernel)

end RevmChecker
