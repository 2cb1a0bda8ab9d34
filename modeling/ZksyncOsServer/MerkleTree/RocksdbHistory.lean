import ZksyncOsServer.MerkleTree.Rocksdb
import ZksyncOsServer.MerkleTree.Runs

/-!
# Histories in RocksDB

Writing a version replaces its key range, so nodes that a truncated version of
the same number left behind do not show. Truncation removes exactly the keys of
the new leaves of the truncated versions from the key index. With these two
facts the RocksDB wrapper stores histories the way a patch set does.
-/
namespace MerkleTree

open Contents Fallible List Successor NodeKey RocksDBWrapper

variable {H : Type} {P : TreeParams} {hasher : HashTree H} {hist : List Contents} {c : Contents} {v : Nat}

/-! ### Keys of nodes -/

theorem NodeKey.asDbKey_inj {key key' : NodeKey} : key.asDbKey = key'.asDbKey ↔ key = key' := by
  cases key
  cases key'
  simp [asDbKey, mk.injEq]

theorem NodeKey.mem_range_iff (key : NodeKey) (v : Nat) :
    ((root v).asDbKey ≤ key.asDbKey ∧ key.asDbKey < (root (v + 1)).asDbKey) ↔ key.version = v := by
  simp only [asDbKey, root, Prod.Lex.toLex_le_toLex, Prod.Lex.toLex_lt_toLex]
  omega

theorem exists_asDbKey (key : DbKey) : ∃ nodeKey : NodeKey, nodeKey.asDbKey = key :=
  ⟨⟨(ofLex key).1, (ofLex (ofLex key).2).1, (ofLex (ofLex key).2).2⟩, rfl⟩

namespace RocksDBWrapper

/-- The nodes that can be read. -/
def node (db : RocksDBWrapper H) (key : NodeKey) : Option (Node H) := (db.tryNode key).toOption

variable {db : RocksDBWrapper H} {key : NodeKey} {part : PartialPatchSet H} {version : Nat}

theorem node_eq_some {n : Node H} : db.node key = some n ↔ db.tryNode key = .ok n := by
  rw [node]
  cases db.tryNode key with
  | error e => simp [Except.toOption]
  | ok n' => simp [Except.toOption]

/-! ### Writing one version -/

theorem mem_drop_zipIdx {α : Type} {l : List α} {x : α} {n : Nat} :
    (x, n) ∈ l.zipIdx.drop 1 ↔ 0 < n ∧ l[n]? = some x := by
  simp only [mem_iff_getElem?, getElem?_drop, getElem?_zipIdx, Option.map_eq_some_iff, Prod.mk.injEq]
  constructor
  · rintro ⟨i, x', hx, rfl, rfl⟩
    exact ⟨by omega, by simpa using hx⟩
  · rintro ⟨hn, hx⟩
    exact ⟨n - 1, x, by rwa [Nat.add_sub_cancel' hn], rfl, by omega⟩

theorem mem_versionEntries (hpos : 0 < part.internal.length) {value : DbValue H} :
    (key.asDbKey, value) ∈ versionEntries part.internal.length version part ↔
      key.version = version ∧ 0 < key.nibbleCount ∧
        (part.node key.nibbleCount key.indexOnLevel).map DbValue.node = some value := by
  obtain ⟨keyVersion, nibbleCount, index⟩ := key
  simp only [versionEntries, mem_append, mem_flatMap, mem_map, Prod.exists, mem_drop_zipIdx,
    Prod.mk.injEq, asDbKey_inj, NodeKey.mk.injEq, Std.ExtTreeMap.mem_toList_iff_getElem?_eq_some,
    PartialPatchSet.node, Option.map_eq_some_iff]
  constructor
  · rintro (⟨level, n, ⟨hn, hlevel⟩, i, node, hnode, ⟨rfl, rfl, rfl⟩, rfl⟩ | ⟨i, leaf, hleaf, ⟨rfl, rfl, rfl⟩, rfl⟩)
    · have hlt := (List.getElem?_eq_some_iff.mp hlevel).1
      refine ⟨rfl, hn, .internal node, ?_, rfl⟩
      rw [if_pos hlt, hlevel, Option.bind_some, hnode]
      rfl
    · exact ⟨rfl, hpos, .leaf leaf, by simp [hleaf], rfl⟩
  · rintro ⟨rfl, hn, node, hnode, rfl⟩
    split at hnode
    next hlt =>
      obtain ⟨node', hget, rfl⟩ := Option.map_eq_some_iff.mp hnode
      obtain ⟨level, hlevel, hget⟩ := Option.bind_eq_some_iff.mp hget
      exact .inl ⟨level, nibbleCount, ⟨hn, hlevel⟩, index, node', hget, ⟨rfl, rfl, rfl⟩, rfl⟩
    · split at hnode
      next heq =>
        obtain ⟨leaf, hget, rfl⟩ := Option.map_eq_some_iff.mp hnode
        exact .inr ⟨index, leaf, hget, ⟨rfl, heq.symm, rfl⟩, rfl⟩
      · exact absurd hnode (by simp)

theorem getElem?_writeVersion {root : Root H}
    {tree tree' : Map DbKey (DbValue H)} (hroot : part.root = .ok root) (hpos : 0 < part.internal.length)
    (h : writeVersion part.internal.length tree version part = .ok tree') (key : NodeKey) :
    tree'[key.asDbKey]? = if key.version = version then
        if key.nibbleCount = 0 then if key.indexOnLevel = 0 then some (.root root) else none
        else (part.node key.nibbleCount key.indexOnLevel).map DbValue.node
      else tree[key.asDbKey]? := by
  rw [writeVersion, hroot, ok_bind] at h
  cases pure_eq_ok.mp h
  have hfun : ∀ (k : DbKey) (value value' : DbValue H),
      (k, value) ∈ versionEntries part.internal.length version part →
      (k, value') ∈ versionEntries part.internal.length version part → value = value' := by
    intro k value value' hv hv'
    obtain ⟨key, rfl⟩ := exists_asDbKey k
    have h₁ := ((mem_versionEntries hpos).mp hv).2.2
    have h₂ := ((mem_versionEntries hpos).mp hv').2.2
    exact Option.some.inj (h₁.symm.trans h₂)
  -- Only other versions survive the deletion of the key range.
  have hdeleted : ∀ value : DbValue H, (tree.filter fun k _ => !(decide ((NodeKey.root version).asDbKey ≤ k) &&
      decide (k < (NodeKey.root (version + 1)).asDbKey)))[key.asDbKey]? = some value ↔
      key.version ≠ version ∧ tree[key.asDbKey]? = some value := by
    intro value
    rw [SortedMap.getElem?_filter, and_comm, ne_eq, ← key.mem_range_iff version, Bool.not_eq_true', ←
      Bool.not_eq_true, Bool.and_eq_true, decide_eq_true_eq, decide_eq_true_eq]
  have hrootKey : key.asDbKey = (NodeKey.root version).asDbKey ↔
      key.version = version ∧ key.nibbleCount = 0 ∧ key.indexOnLevel = 0 := by
    rw [NodeKey.asDbKey_inj]
    cases key
    simp [NodeKey.root]
  ext value
  rw [SortedMap.getElem?_insertMany_of_functional hfun, SortedMap.getElem?_insert]
  simp only [mem_versionEntries hpos, hrootKey]
  by_cases hv : key.version = version
  · by_cases hn : key.nibbleCount = 0
    · by_cases hi : key.indexOnLevel = 0
      · simp [hv, hn, hi]
      · simp only [hv, hn, hi, and_false, if_true, if_false, hdeleted, ne_eq, not_true_eq_false, false_and,
          lt_irrefl, or_self, reduceCtorEq]
    · have hn' : 0 < key.nibbleCount := Nat.pos_of_ne_zero hn
      simp only [hv, hn, hn', if_true, if_false, false_and, and_false, true_and, hdeleted, ne_eq, not_true_eq_false,
        or_false]
  · simp only [hv, false_and, false_or, not_false_eq_true, implies_true, true_and, if_false, hdeleted, ne_eq]

theorem node_eq_of_written (hcell : db.leafNibbles = some part.internal.length)
    (hget : db.tree[key.asDbKey]? = (part.node key.nibbleCount key.indexOnLevel).map DbValue.node) :
    db.node key = part.node key.nibbleCount key.indexOnLevel := by
  rw [node, tryNode, hget]
  cases hn : part.node key.nibbleCount key.indexOnLevel with
  | none => rfl
  | some n =>
    rw [PartialPatchSet.node] at hn
    split at hn
    next hlt =>
      obtain ⟨node, -, rfl⟩ := Option.map_eq_some_iff.mp hn
      simp only [Option.map_some, deserializeNode, hcell, pure_bind, if_neg hlt.ne]
      rfl
    · split at hn
      next heq =>
        obtain ⟨leaf, -, rfl⟩ := Option.map_eq_some_iff.mp hn
        simp only [Option.map_some, deserializeNode, hcell, pure_bind, if_pos heq]
        rfl
      · exact absurd hn (by simp)

/-! ### Scanning the leaves of a version -/

theorem mem_leavesFrom {leafNibbles start : Nat} {k : DbKey} {value : DbValue H} :
    (k, value) ∈ db.leavesFrom leafNibbles version start ↔
      ∃ i, start ≤ i ∧ k = (NodeKey.mk version leafNibbles i).asDbKey ∧ db.tree[k]? = some value := by
  have hsorted := ((SortedMap.pairwise_toList db.tree).filter
    fun e => decide ((NodeKey.mk version leafNibbles start).asDbKey ≤ e.1))
  rw [leavesFrom, SortedMap.takeWhile_eq_filter (hsorted.imp_of_mem fun {a b} ha _ hlt hb => ?_)]
  · rw [mem_filter, mem_filter, SortedMap.mem_toList]
    simp only [Bool.and_eq_true, decide_eq_true_eq]
    obtain ⟨⟨v, n, i⟩, rfl⟩ := exists_asDbKey k
    simp only [asDbKey_inj, NodeKey.mk.injEq]
    simp only [NodeKey.asDbKey, Prod.Lex.toLex_le_toLex, ofLex_toLex]
    constructor
    · rintro ⟨⟨hget, hle⟩, rfl, rfl⟩
      exact ⟨i, by omega, ⟨rfl, rfl, rfl⟩, hget⟩
    · rintro ⟨i', hle, ⟨rfl, rfl, rfl⟩, hget⟩
      exact ⟨⟨hget, by omega⟩, rfl, rfl⟩
  · -- A key between the start and a leaf of the version is a leaf of the version.
    have hle := of_decide_eq_true (mem_filter.mp ha).2
    obtain ⟨⟨v₁, n₁, i₁⟩, h₁⟩ := exists_asDbKey a.1
    obtain ⟨⟨v₂, n₂, i₂⟩, h₂⟩ := exists_asDbKey b.1
    simp only [Bool.and_eq_true, decide_eq_true_eq] at hb ⊢
    rw [← h₁, ← h₂] at hlt
    rw [← h₁] at hle ⊢
    rw [← h₂] at hb
    simp only [asDbKey, Prod.Lex.toLex_le_toLex, Prod.Lex.toLex_lt_toLex, ofLex_toLex] at hlt hle hb ⊢
    omega

end RocksDBWrapper

/-! ### The invariant -/

def leavesBefore (hist : List Contents) (v : Nat) : Nat := (latestLeaves (hist.take v)).length

@[simp] theorem leavesBefore_zero (hist : List Contents) : leavesBefore hist 0 = 0 := rfl

theorem leavesBefore_succ (hc : hist[v]? = some c) : leavesBefore hist (v + 1) = c.entries.length := by
  have hlt := (List.getElem?_eq_some_iff.mp hc).1
  rw [leavesBefore, latestLeaves, getLast?_eq_getElem?, length_take, Nat.min_eq_left hlt,
    Nat.succ_sub_one, getElem?_take, if_pos (Nat.lt_succ_self v), hc]
  exact length_leaves c

theorem KeyIndexed.insertedAt_iff {m : Map B256 InsertedKeyEntry} (hm : KeyIndexed hist m) (hc : hist[v]? = some c)
    {k : B256} {e : InsertedKeyEntry} (he : m[k]? = some e) :
    e.insertedAt = v ↔ ∃ i, leavesBefore hist v ≤ i ∧ c.keys[i]? = some k := by
  have hlt := (List.getElem?_eq_some_iff.mp hc).1
  cases v with
  | zero =>
    simp only [leavesBefore_zero, Nat.zero_le, true_and, ← hm.get 0 c hc, Nat.le_zero]
    constructor
    · intro h0
      exact ⟨e.index, e, he, h0, rfl⟩
    · rintro ⟨i, e', he', h0, -⟩
      cases Option.some.inj (he.symm.trans he')
      exact h0
  | succ v =>
    obtain ⟨c₀, hc₀⟩ : ∃ c₀, hist[v]? = some c₀ := ⟨_, getElem?_eq_getElem (by omega)⟩
    rw [leavesBefore_succ hc₀]
    constructor
    · intro hv
      have hget := (hm.get _ c hc k e.index).mp ⟨e, he, hv.le, rfl⟩
      refine ⟨e.index, ?_, hget⟩
      by_contra hi
      -- An old position keeps its old key.
      have hi' : e.index < c₀.keys.length := by
        rw [length_keys]
        omega
      obtain ⟨e', he', hv', hi'⟩ := (hm.get v c₀ hc₀ c₀.keys[e.index] e.index).mpr (getElem?_eq_getElem hi')
      have hk := (hm.get _ c hc c₀.keys[e.index] e.index).mp ⟨e', he', by omega, hi'⟩
      rw [hget] at hk
      rw [← Option.some.inj hk, he] at he'
      cases Option.some.inj he'
      omega
    · rintro ⟨i, hle, hget⟩
      obtain ⟨e', he', hv', rfl⟩ := (hm.get _ c hc k i).mpr hget
      cases Option.some.inj (he.symm.trans he')
      by_contra hne
      have := (hm.get v c₀ hc₀ k e.index).mp ⟨e, he, by omega, rfl⟩
      have := (List.getElem?_eq_some_iff.mp this).1
      rw [length_keys] at this
      omega

/-- RocksDB stores the versions of a history. Nodes of truncated versions may be
left behind. -/
structure RocksRepresents (P : TreeParams) (hasher : HashTree H) (db : RocksDBWrapper H) (hist : List Contents) :
    Prop where
  manifest : db.manifest = if hist.length = 0 then none else some ⟨hist.length, TreeTags.forParams P hasher⟩
  cell : db.leafNibbles = if hist.length = 0 then none else some (leafNibbles P)
  trees : ∀ v c, hist[v]? = some c → ∃ root, db.tryRoot v = .ok (some root) ∧
    StoredTree P hasher db.node (v + 1) c.leaves root
  newLeaves : ∀ v c, hist[v]? = some c → ∀ i, leavesBefore hist v ≤ i →
    db.tree[(NodeKey.mk v (leafNibbles P) i).asDbKey]? = c.leaves[i]?.map fun leaf => .node (.leaf leaf)
  keys : KeyIndexed hist db.keyIndices

theorem reads_rocksdb (db : RocksDBWrapper H) : Reads db db.node := by
  intro keys ns hpos hall
  exact mapM_eq_ok.mpr (hall.imp fun key n hn => node_eq_some.mp hn)

theorem KeyIndexed.rocksIndex_eq_lookup (db : RocksDBWrapper H) (hm : KeyIndexed hist db.keyIndices)
    (hc : hist[v]? = some c) (k : B256) : db.index v k = c.lookup k := by
  rw [index]
  by_cases hk : k ∈ c.keys
  · obtain ⟨e, he, hv⟩ := (hm.mem_iff hc k).mpr hk
    have hindex : db.getKeyIndex v k = some (c.keys.idxOf k) := by
      rw [getKeyIndex, he]
      simp only [if_pos hv, hm.index_eq hc he hv]
    rw [hindex, lookup_of_mem hk]
  · obtain ⟨p, n, hp, hn, hlookup⟩ := lookup_of_not_mem hk
    have hindex : db.getKeyIndex v k = none := by
      rw [getKeyIndex]
      cases he : db.keyIndices[k]? with
      | none => rfl
      | some e => exact if_neg fun hv => hk ((hm.mem_iff hc k).mp ⟨e, he, hv⟩)
    have hprev := hm.last_eq hc (q := fun k' => k' ≤ k) hp.mem (decide_eq_true hp.lt.le) fun k' hk' hle =>
      hp.greatest k' hk' (lt_of_le_of_ne (of_decide_eq_true hle) fun he => hk (he ▸ hk'))
    rw [hindex, hlookup]
    simp only [lookupKey, findNext, findPrev, hprev, hm.first_of_isNext hc hk hn, Option.getD_some, if_neg hn.lt.ne']

namespace RocksRepresents

variable {db db' : RocksDBWrapper H}

theorem empty : RocksRepresents P hasher (empty : RocksDBWrapper H) [] :=
  ⟨rfl, rfl, by simp, by simp, ⟨by simp [RocksDBWrapper.empty], by simp⟩⟩

theorem holds (hr : RocksRepresents P hasher db hist) : Holds P hasher db.node db hist where
  latest := by
    change (Except.ok db.manifest >>= _) = _
    rw [ok_bind, hr.manifest]
    by_cases h0 : hist.length = 0
    · rw [if_pos h0, if_pos h0]
      rfl
    · rw [if_neg h0, if_neg h0]
      simp only [if_neg h0]
      rfl
  serves v c hc := by
    obtain ⟨root, hroot, htree⟩ := hr.trees v c hc
    refine ⟨root, reads_rocksdb db, htree, hroot, fun keys => ?_⟩
    exact congrArg Except.ok (map_congr_left fun k _ => hr.keys.rocksIndex_eq_lookup db hc k)

theorem setLeafNibbles (hr : RocksRepresents P hasher db hist) (n : Nat) :
    db.setLeafNibbles ⟨n, TreeTags.forParams P hasher⟩ = .ok (leafNibbles P) := by
  rw [RocksDBWrapper.setLeafNibbles, hr.cell]
  by_cases h0 : hist.length = 0
  · rw [if_pos h0]
    rfl
  · rw [if_neg h0]
    change (ensure (leafNibbles P = leafNibbles P) _ >>= _) = _
    rw [ensure, if_pos rfl]
    rfl

theorem node_eq (hcell : db'.leafNibbles = db.leafNibbles) (hne : db.leafNibbles ≠ none) {key : NodeKey}
    (hget : db'.tree[key.asDbKey]? = db.tree[key.asDbKey]?) : db'.node key = db.node key := by
  obtain ⟨n, hn⟩ := Option.ne_none_iff_exists'.mp hne
  rw [node, node, tryNode, tryNode, hget]
  cases db.tree[key.asDbKey]? with
  | none => rfl
  | some value =>
    simp only [deserializeNode, hcell, hn]

variable {c' : Contents} {J : List Nat} {part : PartialPatchSet H} {patch : PatchSet H}

section
variable (hr : RocksRepresents P hasher db hist)
include hr

section
variable (hc : Committed P hasher db.node hist.length (latestLeaves hist) c' J part patch)
include hc

theorem applyPatch_eq :
    ∃ root tree', part.root = .ok root ∧ db.applyPatch patch = .ok ⟨some patch.manifest, tree',
        db.keyIndices.insertMany patch.sortedNewLeaves.toList, some (leafNibbles P)⟩ ∧
      ∀ key : NodeKey, tree'[key.asDbKey]? = if key.version = hist.length then
          if key.nibbleCount = 0 then if key.indexOnLevel = 0 then some (.root root) else none
          else (part.node key.nibbleCount key.indexOnLevel).map DbValue.node
        else db.tree[key.asDbKey]? := by
  have hlen : part.internal.length = leafNibbles P := hc.finished.length
  let nodes' : NodeKey → Option (Node H) := fun key =>
    if key.version = hist.length then part.node key.nibbleCount key.indexOnLevel else db.node key
  obtain ⟨root, hroot, -⟩ := hc.storedTree (show OnTop db.node nodes' _ part from
    ⟨fun key hk _ => if_neg hk.ne, fun key hk _ => if_pos hk⟩)
  obtain ⟨tree', hwrite⟩ : ∃ tree', writeVersion part.internal.length db.tree hist.length part = .ok tree' := by
    rw [writeVersion, hroot]
    exact ⟨_, rfl⟩
  refine ⟨root, tree', hroot, ?_, getElem?_writeVersion hroot (hlen ▸ leafNibbles_pos P) hwrite⟩
  rw [applyPatch, hc.manifest, hr.setLeafNibbles, ok_bind, hc.parts, SortedMap.toList_insert_empty,
    writeVersions, ← hlen, hwrite, ok_bind]
  simp only [writeVersions, ok_bind, hlen, ← hc.manifest]
  rfl

theorem applyPatch : ∃ db', db.applyPatch patch = .ok db' ∧ RocksRepresents P hasher db' (hist ++ [c']) ∧
      Applied node hist.length part db db' := by
  have hlen : part.internal.length = leafNibbles P := hc.finished.length
  obtain ⟨root, tree', hroot, happly, hget⟩ := hr.applyPatch_eq hc
  set db' : RocksDBWrapper H := ⟨some patch.manifest, tree',
    db.keyIndices.insertMany patch.sortedNewLeaves.toList, some (leafNibbles P)⟩
  have hold : ∀ key : NodeKey, key.version ≠ hist.length → tree'[key.asDbKey]? = db.tree[key.asDbKey]? :=
    fun key hk => by rw [hget, if_neg hk]
  have hnode : ∀ key, key.version < hist.length → db'.node key = db.node key := by
    intro key hk
    have hcell : db.leafNibbles = some (leafNibbles P) := by rw [hr.cell, if_neg (by omega)]
    exact node_eq hcell.symm (by simp [hcell]) (hold key hk.ne)
  have hnew : ∀ key, key.version = hist.length → 0 < key.nibbleCount →
      db'.node key = part.node key.nibbleCount key.indexOnLevel := by
    intro key hk hn
    refine node_eq_of_written (congrArg some hlen.symm) ?_
    rw [hget, if_pos hk, if_neg hn.ne']
  have hrootOld : ∀ v, v < hist.length → db'.tryRoot v = db.tryRoot v := by
    intro v hv
    rw [RocksDBWrapper.tryRoot, RocksDBWrapper.tryRoot, hold (NodeKey.root v) hv.ne]
  have hrootNew : db'.tryRoot hist.length = .ok (some root) := by
    rw [tryRoot, hget]
    simp [NodeKey.root]
  refine ⟨db', happly, ⟨?_, ?_, fun v c hv => ?_, fun v c hv i hi => ?_, hr.keys.append hc.oldKeys hc.newKeys⟩,
    ⟨hnode, hrootOld⟩, hnew, ?_⟩
  · change some patch.manifest = _
    rw [hc.manifest, if_neg (by simp), length_append, length_singleton]
  · rw [if_neg (by simp)]
  · obtain ⟨hlt, hv⟩ | ⟨rfl, rfl⟩ := getElem?_append_singleton hv
    · obtain ⟨root', hroot', htree'⟩ := hr.trees v c hv
      exact ⟨root', (hrootOld v hlt).trans hroot', htree'.frame fun key hk _ => hnode key (by omega)⟩
    · obtain ⟨root', hroot', htree⟩ := hc.storedTree ⟨fun key hk _ => hnode key hk, hnew⟩
      rw [hroot] at hroot'
      cases hroot'
      exact ⟨root, hrootNew, htree⟩
  · obtain ⟨hlt, hv⟩ | ⟨rfl, rfl⟩ := getElem?_append_singleton hv
    · rw [leavesBefore, take_append_of_le_length hlt.le] at hi
      exact (hold ⟨v, leafNibbles P, i⟩ hlt.ne).trans (hr.newLeaves v c hv i hi)
    · rw [leavesBefore, take_left' rfl] at hi
      have hmem : i ∈ J ↔ i < c.leaves.length := ⟨hc.lt i, hc.new i hi⟩
      change tree'[_]? = _
      rw [hget, if_pos rfl, if_neg (leafNibbles_pos P).ne', PartialPatchSet.node, hlen, if_neg (lt_irrefl _),
        if_pos rfl, hc.finished.leaves i, Option.map_map]
      by_cases hJ : i ∈ J
      · rw [if_pos hJ]
        rfl
      · rw [if_neg hJ, getElem?_eq_none (Nat.le_of_not_lt fun h => hJ (hmem.mpr h))]
        rfl
  · change db'.tryRoot hist.length = _
    rw [hrootNew, hroot]
    rfl

theorem tryRoot_applyPatch
    (h : db.applyPatch patch = .ok db') (hv : v ≠ hist.length) : db'.tryRoot v = db.tryRoot v := by
  obtain ⟨root, tree', -, happly, hget⟩ := hr.applyPatch_eq hc
  rw [h] at happly
  cases happly
  rw [RocksDBWrapper.tryRoot, RocksDBWrapper.tryRoot, hget, if_neg (show (NodeKey.root v).version ≠ _ from hv)]

end

theorem truncatedKeys (count v : Nat) (h : v + count ≤ hist.length) :
    ∃ keys, db.truncatedKeys (leafNibbles P) count v (leavesBefore hist v) = .ok keys ∧ ∀ k, k ∈ keys ↔
      ∃ v' c i, v ≤ v' ∧ v' < v + count ∧ hist[v']? = some c ∧ leavesBefore hist v' ≤ i ∧ c.keys[i]? = some k := by
  induction count generalizing v with
  | zero =>
    refine ⟨[], rfl, fun k => ⟨fun hk => absurd hk (by simp), ?_⟩⟩
    rintro ⟨v', c, i, h₁, h₂, -⟩
    omega
  | succ count ih =>
    obtain ⟨c, hc⟩ : ∃ c, hist[v]? = some c := ⟨_, getElem?_eq_getElem (by omega)⟩
    obtain ⟨root, hroot, htree⟩ := hr.trees v c hc
    obtain ⟨rest, hrest, hmem⟩ := ih (v := v + 1) (by omega)
    rw [leavesBefore_succ hc, ← length_leaves, ← htree.1] at hrest
    -- The scanned values are the new leaves of the version.
    have hscan : ∀ e ∈ db.leavesFrom (leafNibbles P) v (leavesBefore hist v), ∃ i leaf,
        leavesBefore hist v ≤ i ∧ c.leaves[i]? = some leaf ∧ e.2 = .node (.leaf leaf) := by
      rintro ⟨k, value⟩ he
      obtain ⟨i, hi, rfl, hget⟩ := mem_leavesFrom.mp he
      rw [hr.newLeaves v c hc i hi, Option.map_eq_some_iff] at hget
      obtain ⟨leaf, hleaf, rfl⟩ := hget
      exact ⟨i, leaf, hi, hleaf, rfl⟩
    obtain ⟨newLeaves, hnew⟩ := exists_mapM_eq_ok (f := fun e => deserializeLeaf e.2)
      (l := db.leavesFrom (leafNibbles P) v (leavesBefore hist v)) fun e he => by
        obtain ⟨i, leaf, -, -, hleaf⟩ := hscan e he
        exact ⟨leaf, by rw [hleaf]; rfl⟩
    have hleaves : ∀ leaf, leaf ∈ newLeaves ↔ ∃ i, leavesBefore hist v ≤ i ∧ c.leaves[i]? = some leaf := by
      intro leaf
      rw [mem_of_mapM_eq_ok hnew]
      constructor
      · rintro ⟨e, he, hdes⟩
        obtain ⟨i, leaf', hi, hleaf, hvalue⟩ := hscan e he
        rw [hvalue] at hdes
        cases hdes
        exact ⟨i, hi, hleaf⟩
      · rintro ⟨i, hi, hleaf⟩
        refine ⟨(_, .node (.leaf leaf)), mem_leavesFrom.mpr ⟨i, hi, rfl, ?_⟩, rfl⟩
        rw [hr.newLeaves v c hc i hi, hleaf]
        rfl
    refine ⟨newLeaves.map Leaf.key ++ rest, ?_, fun k => ?_⟩
    · simp only [RocksDBWrapper.truncatedKeys, hroot, ok_bind, hnew, hrest]
      rfl
    · rw [mem_append, hmem, mem_map]
      constructor
      · rintro (⟨leaf, hleaf, rfl⟩ | ⟨v', c', i, h₁, h₂, h₃⟩)
        · obtain ⟨i, hi, hleaf⟩ := (hleaves leaf).mp hleaf
          refine ⟨v, c, i, le_rfl, by omega, hc, hi, ?_⟩
          rw [← map_key_leaves, getElem?_map, hleaf]
          rfl
        · exact ⟨v', c', i, by omega, by omega, h₃⟩
      · rintro ⟨v', c', i, h₁, h₂, hc', hi, hk⟩
        rcases Nat.eq_or_lt_of_le h₁ with rfl | hlt
        · rw [hc] at hc'
          cases hc'
          rw [← map_key_leaves, getElem?_map, Option.map_eq_some_iff] at hk
          obtain ⟨leaf, hleaf, rfl⟩ := hk
          exact .inl ⟨leaf, (hleaves leaf).mpr ⟨i, hi, hleaf⟩, rfl⟩
        · exact .inr ⟨v', c', i, by omega, by omega, hc', hi, hk⟩

theorem truncate {n : Nat} (h0 : 0 < n) (hn : n < hist.length) :
    ∃ db', db.truncate ⟨n, TreeTags.forParams P hasher⟩ hist.length = .ok db' ∧
      RocksRepresents P hasher db' (hist.take n) ∧ Keeps node n db db' := by
  obtain ⟨c, hc⟩ : ∃ c, hist[n - 1]? = some c := ⟨_, getElem?_eq_getElem (by omega)⟩
  obtain ⟨root, hroot, htree⟩ := hr.trees (n - 1) c hc
  obtain ⟨keys, hkeys, hmem⟩ := hr.truncatedKeys (hist.length - n) n (by omega)
  have hbefore : leavesBefore hist n = root.leafCount := by
    rw [htree.1, length_leaves, ← leavesBefore_succ hc, Nat.sub_add_cancel h0]
  rw [hbefore] at hkeys
  have hcell : db.leafNibbles = some (leafNibbles P) := by rw [hr.cell, if_neg (by omega)]
  have hlen : (hist.take n).length = n := by rw [length_take, Nat.min_eq_left hn.le]
  set db' : RocksDBWrapper H := ⟨some ⟨n, TreeTags.forParams P hasher⟩, db.tree,
    keys.foldl (fun keyIndices key => keyIndices.erase key) db.keyIndices, some (leafNibbles P)⟩
  have hnode : ∀ key, db'.node key = db.node key := fun key =>
    node_eq hcell.symm (by simp [hcell]) rfl
  have hprefix : ∀ v c, (hist.take n)[v]? = some c → v < n ∧ hist[v]? = some c := by
    intro v c hv
    rw [getElem?_take] at hv
    split at hv
    · exact ⟨by assumption, hv⟩
    · exact absurd hv (by simp)
  refine ⟨db', ?_, ⟨?_, ?_, fun v c hv => ?_, fun v c hv i hi => ?_, hr.keys.take hn.le fun k e => ?_⟩,
    fun key _ => hnode key, fun v _ => rfl⟩
  · simp only [RocksDBWrapper.truncate, hr.setLeafNibbles, ok_bind, ensure, if_pos h0, hroot, hkeys]
    rfl
  · rw [hlen, if_neg h0.ne']
  · rw [hlen, if_neg h0.ne']
  · obtain ⟨-, hv⟩ := hprefix v c hv
    obtain ⟨root', hroot', htree'⟩ := hr.trees v c hv
    exact ⟨root', hroot', htree'.frame fun key _ _ => hnode key⟩
  · obtain ⟨hlt, hv⟩ := hprefix v c hv
    rw [leavesBefore, take_take, Nat.min_eq_left hlt.le] at hi
    exact hr.newLeaves v c hv i hi
  · -- A key is erased exactly if it was inserted in a truncated version.
    change (keys.foldl (fun keyIndices key => keyIndices.erase key) db.keyIndices)[k]? = some e ↔ _
    rw [SortedMap.getElem?_foldl_erase]
    by_cases hk : k ∈ keys
    · rw [if_pos hk]
      refine iff_of_false (by simp) fun he => ?_
      obtain ⟨v, c, i, h₁, -, hv, hi, hget⟩ := (hmem k).mp hk
      have := (hr.keys.insertedAt_iff hv he.1).mpr ⟨i, hi, hget⟩
      omega
    · rw [if_neg hk, iff_self_and]
      intro he
      by_contra hge
      have hlt := hr.keys.lt k e he
      obtain ⟨c, hv⟩ : ∃ c, hist[e.insertedAt]? = some c := ⟨_, getElem?_eq_getElem hlt⟩
      obtain ⟨i, hi, hget⟩ := (hr.keys.insertedAt_iff hv he).mp rfl
      exact hk ((hmem k).mpr ⟨e.insertedAt, c, i, by omega, by omega, hv, hi, hget⟩)

end

end RocksRepresents

instance : LawfulDatabase (RocksDBWrapper H) H where
  node := RocksDBWrapper.node
  Stores := RocksRepresents
  holds := RocksRepresents.holds
  applyPatch := RocksRepresents.applyPatch
  truncate {P hasher db hist} hr n := by
    rw [truncateRecentVersions_eq db ⟨hist.length, TreeTags.forParams P hasher⟩ n
      (congrArg Except.ok hr.manifest)]
    by_cases hn : n < hist.length
    · rw [if_pos hn, Nat.min_eq_left hn.le]
      rcases Nat.eq_zero_or_pos n with rfl | h0
      · refine .inl ⟨rfl, .bail "at least 1 tree version must be retained", ?_⟩
        change db.truncate _ _ = _
        rw [RocksDBWrapper.truncate, hr.setLeafNibbles]
        rfl
      · exact .inr (hr.truncate h0 hn)
    · rw [if_neg hn, take_of_length_le (Nat.le_of_not_lt hn)]
      exact .inr ⟨db, rfl, hr, .refl _ _ _⟩

end MerkleTree
