import ZksyncOsServer.MerkleTree.Commit
import ZksyncOsServer.MerkleTree.Links

/-!
# Planning an update

`MerkleTree::create_patch` on a database that serves a version with known
contents: which leaves are loaded, which update is planned, and that the planned
update turns the loaded leaves into the leaves of the new contents.
-/
namespace MerkleTree

open Contents Fallible List Successor AsEntry
open LevelWalk (withNew mem_withNew)

variable {H DB E : Type} {P : TreeParams} {hasher : HashTree H} {c : Contents} {es : List TreeEntry}

/-! ### Leaves of the planned update -/

variable {i : Nat}

theorem applyMods_updates {k : B256} (hk : c.keys[i]? = some k) (leaf : Leaf) :
    applyMods (((es.zip (es.map fun e => c.lookup e.key)).filterMap entryUpdate).map
      fun x => (x.1, fun leaf => { leaf with value := x.2 })) i leaf =
      { leaf with value := valueAfter es k leaf.value } := by
  obtain ⟨hmem, hidx⟩ := (c.getElem?_keys_iff i k).mp hk
  induction es generalizing leaf with
  | nil => rfl
  | cons e es ih =>
    rw [map_cons, zip_cons_cons, filterMap_cons, valueAfter_cons]
    by_cases he : e.key ∈ c.keys
    · have hiff : c.keys.idxOf e.key = i ↔ e.key = k := by
        rw [← hidx]
        exact idxOf_inj he
      rw [lookup_of_mem he]
      simp only [entryUpdate, map_cons, applyMods_cons, hiff]
      rw [ih]
      by_cases hek : e.key = k <;> simp [hek]
    · obtain ⟨p, n, -, -, hlookup⟩ := lookup_of_not_mem he
      have hek : e.key ≠ k := fun hek => he (hek ▸ hmem)
      rw [hlookup, if_neg hek]
      exact ih leaf

variable {version : Nat} {m : Map B256 InsertedKeyEntry}

/-- Changes of links by the inserts of a batch. -/
def relinkMods (c : Contents) (es : List TreeEntry) (m : Map B256 InsertedKeyEntry) :
    List (Nat × (Leaf → Leaf)) :=
  (((c.fresh es).map (c.insertFor m)).zipIdx c.entries.length).filterMap fun x =>
    x.1.prevIndex.map fun prevIdx => (prevIdx, fun leaf => { leaf with nextIndex := x.2 })

section
variable (hm : NewKeys c (c.freshKeys es) version m)
include hm

theorem mem_relinkMods {f : Leaf → Leaf} : (i, f) ∈ relinkMods c es m ↔ ∃ e k, e ∈ c.fresh es ∧ c.keys[i]? = some k ∧
      IsNext (c.keys ++ c.freshKeys es) k e.key ∧
      f = fun leaf => { leaf with nextIndex := nextIndex (c.keys ++ c.freshKeys es) k } := by
  have hindex : ∀ {j e k}, (c.fresh es)[j]? = some e → IsNext (c.keys ++ c.freshKeys es) k e.key →
      nextIndex (c.keys ++ c.freshKeys es) k = c.entries.length + j := by
    intro j e k hj hisNext
    have hget : (c.freshKeys es)[j]? = some e.key := by simp [freshKeys, hj]
    obtain ⟨hlt, hget⟩ := List.getElem?_eq_some_iff.mp hget
    have hx := hm.fresh e.key (mem_map_of_mem (mem_of_getElem? hj))
    rw [nextIndex_of_isNext hisNext, idxOf_append_of_notMem hx, c.length_keys, ← hget, hm.nodup.idxOf_getElem _ hlt]
  rw [relinkMods, mem_filterMap]
  constructor
  · rintro ⟨⟨new, idx⟩, hnew, hx⟩
    obtain ⟨prev, hprev, he⟩ := Option.map_eq_some_iff.mp hx
    cases he
    rw [mk_mem_zipIdx_iff_le_and_getElem?_sub, getElem?_map] at hnew
    obtain ⟨hle, hget⟩ := hnew
    obtain ⟨e, hj, rfl⟩ := Option.map_eq_some_iff.mp hget
    have hmem := mem_of_getElem? hj
    obtain ⟨k, hk, hisNext⟩ := ((insertFor_spec hm hmem).2 i).mp hprev
    refine ⟨e, k, hmem, hk, hisNext, ?_⟩
    rw [hindex hj hisNext, show c.entries.length + (idx - c.entries.length) = idx by omega]
  · rintro ⟨e, k, he, hk, hisNext, rfl⟩
    obtain ⟨j, hj⟩ := mem_iff_getElem?.mp he
    refine ⟨(c.insertFor m e, c.entries.length + j), ?_, ?_⟩
    · rw [mk_mem_zipIdx_iff_le_and_getElem?_sub, getElem?_map, Nat.add_sub_cancel_left, hj]
      exact ⟨Nat.le_add_right _ _, rfl⟩
    · simp only [((insertFor_spec hm he).2 i).mpr ⟨k, hk, hisNext⟩, Option.map_some, hindex hj hisNext]

theorem applyMods_relink {leaf : Leaf}
    (hk : c.keys[i]? = some leaf.key) (hnext : leaf.nextIndex = nextIndex c.keys leaf.key) :
    applyMods (relinkMods c es m) i leaf =
      { leaf with nextIndex := nextIndex (c.keys ++ c.freshKeys es) leaf.key } := by
  by_cases hex : ∃ x ∈ c.freshKeys es, IsNext (c.keys ++ c.freshKeys es) leaf.key x
  · obtain ⟨x, hx, hisNext⟩ := hex
    obtain ⟨e, he, rfl⟩ := mem_map.mp hx
    refine applyMods_of_exists
      (f := fun l => { l with nextIndex := nextIndex (c.keys ++ c.freshKeys es) leaf.key })
      (fun _ => rfl) ?_ ⟨(i, _), (mem_relinkMods hm).mpr ⟨e, leaf.key, he, hk, hisNext, rfl⟩, rfl⟩ leaf
    rintro ⟨i', f⟩ hmem rfl
    obtain ⟨e', k, -, hk', -, rfl⟩ := (mem_relinkMods hm).mp hmem
    rw [hk] at hk'
    rw [Option.some.inj hk']
  · have hnone : ∀ x ∈ c.freshKeys es, ¬ IsNext (c.keys ++ c.freshKeys es) leaf.key x :=
      fun x hx hn => hex ⟨x, hx, hn⟩
    rw [applyMods_of_forall_ne, nextIndex_append_of_forall_not (mem_of_getElem? hk) hnone, ← hnext]
    rintro ⟨i', f⟩ hmem rfl
    obtain ⟨e, k, he, hk', hisNext, -⟩ := (mem_relinkMods hm).mp hmem
    rw [hk] at hk'
    cases Option.some.inj hk'
    exact hnone e.key (mem_map_of_mem he) hisNext

/-- The planned update turns the touched leaves of the old contents into those of
the new contents, and adds the fresh ones. -/
theorem updatedLeaves_ok {u : TreeUpdate}
    (hupdates : u.updates = (es.zip (es.map fun e => c.lookup e.key)).filterMap entryUpdate)
    (hinserts : u.inserts = (c.fresh es).map (c.insertFor m)) {J : List Nat} (hJ : ∀ i ∈ J, i < c.entries.length)
    {leaves leaves' : Map Nat Leaf} (hleaves : LeavesAre c.leaves J leaves)
    (h : updatedLeaves u c.entries.length leaves = .ok leaves') :
    LeavesAre (c.upsertAll es).leaves (withNew J c.entries.length (c.upsertAll es).entries.length) leaves' := by
  rw [updatedLeaves] at h
  obtain ⟨m₁, hvalues, h⟩ := bind_eq_ok.mp h
  obtain ⟨m₂, hrelink, h⟩ := bind_eq_ok.mp h
  cases pure_eq_ok.mp h
  rw [WorkingPatchSet.updateValues, hupdates] at hvalues
  rw [WorkingPatchSet.relinkNeighbors, hinserts] at hrelink
  have hlen := length_upsertAll hm.nodup
  -- Old leaves are changed in place.
  have hold : ∀ i, m₂[i]? = if i ∈ J then (c.upsertAll es).leaves[i]? else none := by
    intro i
    rw [getElem?_modifyLeaves hrelink, getElem?_modifyLeaves hvalues, hleaves i]
    by_cases hiJ : i ∈ J
    · have hi := hJ i hiJ
      rw [if_pos hiJ, if_pos hiJ, getElem?_leaves_upsertAll_lt hm.nodup hi, Option.map_map]
      obtain ⟨leaf, hleaf⟩ : ∃ leaf, c.leaves[i]? = some leaf :=
        ⟨_, getElem?_eq_getElem (by simpa using hi)⟩
      obtain ⟨hk, hnext⟩ := nextIndex_of_getElem?_leaves hleaf
      rw [hleaf, Option.map_some, Option.map_some, Function.comp_apply, applyMods_updates hk]
      exact congrArg some (applyMods_relink hm hk hnext)
    · rw [if_neg hiJ, if_neg hiJ]
      rfl
  intro i
  rw [SortedMap.getElem?_insertMany_zipIdx, hinserts, length_map]
  simp only [withNew, mem_append, mem_range'_1]
  by_cases hi : c.entries.length ≤ i ∧ i < c.entries.length + (c.fresh es).length
  · obtain ⟨e, he⟩ : ∃ e, (c.fresh es)[i - c.entries.length]? = some e :=
      ⟨_, getElem?_eq_getElem (by omega)⟩
    rw [if_pos hi, if_pos (.inr (by omega)), getElem?_leaves_upsertAll_ge hm.nodup hi.1, getElem?_map, he]
    exact congrArg some (insertFor_spec hm (mem_of_getElem? he)).1
  · rw [if_neg hi, hold i]
    simp only [hlen, Nat.add_sub_cancel_left, hi, or_false]

end

/-! ### Collecting the touched leaves -/

theorem lookup_indices_lt {k : B256} (hi : i ∈ (c.lookup k).indices) : i < c.entries.length := by
  by_cases hk : k ∈ c.keys
  · rw [lookup_of_mem hk, KeyLookup.indices, mem_singleton] at hi
    exact hi ▸ c.idxOf_lt hk
  · obtain ⟨p, n, hp, hn, hlookup⟩ := lookup_of_not_mem hk
    rw [hlookup, KeyLookup.indices, mem_pair] at hi
    rcases hi with rfl | rfl
    · exact c.idxOf_lt hp.mem
    · exact c.idxOf_lt hn.mem

section Touched

variable [AsEntry E] {entries : List E} {acc acc' : TouchedLeaves}

/-- The first loop of `create_patch`: fresh keys get consecutive indices, and the
leaves the lookups refer to are collected. -/
theorem touchEntries_eq_ok
    (h : touchEntries version ((entries.map fun e => c.lookup (asEntry e).key).zip entries) acc = .ok acc') :
    acc'.sortedNewLeaves = acc.sortedNewLeaves.insertMany
        (((c.freshKeys (entries.map asEntry)).zipIdx acc.newIndex).map fun x => (x.1, ⟨x.2, version⟩)) ∧
      ∀ i, i ∈ acc'.distinctIndices ↔ i ∈ acc.distinctIndices ∨
        ∃ e ∈ entries.map asEntry, i ∈ (c.lookup e.key).indices := by
  induction entries generalizing acc with
  | nil =>
    cases h
    simp [freshKeys, fresh]
  | cons e entries ih =>
    simp only [map_cons, zip_cons_cons] at h
    by_cases hk : (asEntry e).key ∈ c.keys
    · rw [lookup_of_mem hk, touchEntries] at h
      obtain ⟨_, -, h⟩ := bind_eq_ok.mp h
      obtain ⟨hsorted, hmem⟩ := ih h
      rw [map_cons, freshKeys, fresh_cons_of_mem hk]
      refine ⟨hsorted, fun i => ?_⟩
      rw [hmem, exists_mem_cons_iff, lookup_of_mem hk, KeyLookup.indices, mem_singleton,
        Std.ExtTreeSet.mem_insert, compare_eq_iff_eq, eq_comm, or_assoc]
      exact or_left_comm
    · obtain ⟨p, n, -, -, hlookup⟩ := lookup_of_not_mem hk
      rw [hlookup, touchEntries] at h
      obtain ⟨_, -, h⟩ := bind_eq_ok.mp h
      obtain ⟨_, -, h⟩ := bind_eq_ok.mp h
      obtain ⟨hsorted, hmem⟩ := ih h
      rw [map_cons, freshKeys, fresh_cons_of_not_mem hk, map_cons, zipIdx_cons, map_cons,
        Std.ExtTreeMap.insertMany_cons]
      refine ⟨hsorted, fun i => ?_⟩
      rw [hmem, exists_mem_cons_iff, hlookup, KeyLookup.indices, mem_pair]
      simp only [Std.ExtTreeSet.mem_insert, compare_eq_iff_eq, @eq_comm _ _ i]
      tauto

theorem newKeys_of_size {N : List B256} (hfresh : ∀ k ∈ N, k ∉ c.keys)
    (hm : m = (∅ : Map B256 InsertedKeyEntry).insertMany
      ((N.zipIdx c.entries.length).map fun x => (x.1, ⟨x.2, version⟩)))
    (hsize : m.size = N.length) : NewKeys c N version m := by
  obtain ⟨hnodup, hget⟩ := SortedMap.numbered_of_size (f := fun i => ⟨i, version⟩) hm hsize
  refine ⟨hnodup, hfresh, fun k e => ?_⟩
  rw [hget]
  constructor
  · rintro ⟨i, hi, rfl⟩
    obtain ⟨hlt, rfl⟩ := List.getElem?_eq_some_iff.mp hi
    rw [hnodup.idxOf_getElem _ hlt]
    exact ⟨getElem_mem hlt, rfl⟩
  · rintro ⟨hk, rfl⟩
    exact ⟨N.idxOf k, getElem?_idxOf hk, rfl⟩

end Touched

section Reads

variable (acc : ReadLeaves) (i : Nat)

/-- Marking some leaves: those that nothing needed before become read-only. -/
theorem foldl_touch_spec (idxs : List Nat) : (idxs.foldl ReadLeaves.touch acc).readOperations = acc.readOperations ∧
      (i ∈ (idxs.foldl ReadLeaves.touch acc).distinctIndices ↔ i ∈ acc.distinctIndices ∨ i ∈ idxs) ∧
      (i ∈ (idxs.foldl ReadLeaves.touch acc).readonlyLeafIndices ↔
        i ∈ acc.readonlyLeafIndices ∨ i ∉ acc.distinctIndices ∧ i ∈ idxs) := by
  induction idxs generalizing acc with
  | nil => simp
  | cons idx idxs ih =>
    obtain ⟨hops, hmem, hro⟩ := ih (acc.touch idx)
    rw [foldl_cons, hops, hmem, hro, mem_cons, ReadLeaves.touch]
    by_cases hc : idx ∈ acc.distinctIndices
    · rw [if_pos (Std.ExtTreeSet.mem_iff_contains.mp hc)]
      by_cases he : i = idx
      · simp [he, hc]
      · simp [he]
    · rw [if_neg fun hn => hc (Std.ExtTreeSet.mem_iff_contains.mpr hn)]
      by_cases he : i = idx
      · simp [he, hc]
      · simp [he, Ne.symm he]

theorem touchReads_cons (l : KeyLookup) (lookups : List KeyLookup) : touchReads (l :: lookups) acc =
      touchReads lookups ((l.indices.foldl ReadLeaves.touch acc).push l.operation) := by
  cases l <;> rfl

/-- The loop of `create_patch` over the reads. -/
theorem touchReads_spec (lookups : List KeyLookup) :
    (touchReads lookups acc).readOperations = acc.readOperations ++ lookups.map KeyLookup.operation ∧
      (i ∈ (touchReads lookups acc).distinctIndices ↔ i ∈ acc.distinctIndices ∨ ∃ l ∈ lookups, i ∈ l.indices) ∧
      (i ∈ (touchReads lookups acc).readonlyLeafIndices ↔
        i ∈ acc.readonlyLeafIndices ∨ i ∉ acc.distinctIndices ∧ ∃ l ∈ lookups, i ∈ l.indices) := by
  induction lookups generalizing acc with
  | nil => simp [touchReads]
  | cons l lookups ih =>
    obtain ⟨hops, hmem, hro⟩ := ih ((l.indices.foldl ReadLeaves.touch acc).push l.operation)
    obtain ⟨hops', hmem', hro'⟩ := foldl_touch_spec acc i l.indices
    rw [touchReads_cons, hops, hmem, hro, exists_mem_cons_iff]
    simp only [ReadLeaves.push, hops', hmem', hro', map_cons, append_assoc, singleton_append, true_and]
    by_cases hl : i ∈ l.indices
    · simp [hl]
    · simp [hl]

end Reads

/-! ### The plan -/

/-- A database answers requests about a version of the given contents from a
node store. -/
structure Serves [Database DB H] (P : TreeParams) (hasher : HashTree H) (nodes : NodeKey → Option (Node H))
    (c : Contents) (root : Root H) (db : DB) (version : Nat) : Prop where
  reads : Reads db nodes
  tree : StoredTree P hasher nodes (version + 1) c.leaves root
  root : Database.tryRoot db version = .ok (some root)
  indices : ∀ keys, Database.indices db version keys = .ok (keys.map c.lookup)

/-- Leaves changed by a batch, and the last leaf if the batch adds leaves. -/
def WrittenAt (c : Contents) (es : List TreeEntry) (i : Nat) : Prop :=
  (∃ e ∈ es, i ∈ (c.lookup e.key).indices) ∨ c.fresh es ≠ [] ∧ i = c.entries.length - 1

/-- Leaves that show the values or the absence of keys. -/
def ReadAt (c : Contents) (keys : List B256) (i : Nat) : Prop := ∃ k ∈ keys, i ∈ (c.lookup k).indices

theorem WrittenAt.lt (h : WrittenAt c es i) : i < c.entries.length := by
  rcases h with ⟨e, -, hi⟩ | ⟨-, rfl⟩
  · exact lookup_indices_lt hi
  · have := c.two_le_length
    omega

theorem ReadAt.lt {keys : List B256} (h : ReadAt c keys i) : i < c.entries.length := by
  obtain ⟨k, -, hi⟩ := h
  exact lookup_indices_lt hi

/-- What `create_patch` returns for a batch and some reads of a version with
contents `c`: `I` are the loaded leaves, `J` those that may change. -/
structure Planned (P : TreeParams) (hasher : HashTree H) (nodes : NodeKey → Option (Node H)) (c : Contents)
    (version : Nat) (es : List TreeEntry) (keys : List B256) (I J : List Nat) (w : WorkingPatchSet H)
    (u : TreeUpdate) : Prop where
  loaded : Loaded P hasher nodes version c.leaves I w
  at_version : u.version = version
  newKeys : NewKeys c (c.freshKeys es) version u.sortedNewLeaves
  updates : u.updates = (es.zip (es.map fun e => c.lookup e.key)).filterMap entryUpdate
  inserts : u.inserts = (c.fresh es).map (c.insertFor u.sortedNewLeaves)
  operations : u.operations = es.map fun e => (c.lookup e.key).operation
  readOperations : u.readOperations = keys.map fun k => (c.lookup k).operation
  written : ∀ i, i ∈ J ↔ WrittenAt c es i
  mem : ∀ i, i ∈ I ↔ WrittenAt c es i ∨ ReadAt c keys i
  writable : ∀ i, i ∈ J ↔ i ∈ I ∧ i ∉ u.readonlyLeafIndices

section CreatePatch

variable [Database DB H] [AsEntry E] {nodes : NodeKey → Option (Node H)} {root : Root H} {db : DB}
  {entries : List E} {keys : List B256} {touched : TouchedLeaves}

/-- The leaf indices to be changed, from the accumulator of the first loop. -/
def writtenIndices (leafCount : Nat) (touched : TouchedLeaves) : IndexSet :=
  if touched.sortedNewLeaves.isEmpty then touched.distinctIndices
  else touched.distinctIndices.insert (leafCount - 1)

theorem mem_writtenIndices (hes : es = entries.map asEntry)
    (ht : touchEntries version ((entries.map fun e => c.lookup (asEntry e).key).zip entries)
      ⟨∅, c.entries.length, ∅⟩ = .ok touched) (i : Nat) :
    i ∈ writtenIndices c.entries.length touched ↔ WrittenAt c es i := by
  subst hes
  obtain ⟨hsorted, hmem⟩ := touchEntries_eq_ok ht
  have hempty : touched.sortedNewLeaves.isEmpty ↔ c.fresh (entries.map asEntry) = [] := by
    rw [hsorted]
    simp [freshKeys, Std.ExtTreeMap.isEmpty_insertMany_list]
  rw [writtenIndices, WrittenAt]
  by_cases hf : c.fresh (entries.map asEntry) = []
  · rw [if_pos (hempty.mpr hf), hmem]
    simp [hf]
  · rw [if_neg fun he => hf (hempty.mp he), Std.ExtTreeSet.mem_insert, hmem]
    simp [hf, or_comm, @eq_comm _ i]

theorem zip_lookup (entries : List E) (keys : List B256) :
    ((entries.map (fun e => (asEntry e).key) ++ keys).map c.lookup).zip entries =
      (entries.map fun e => c.lookup (asEntry e).key).zip entries := by
  induction entries with
  | nil => simp
  | cons e entries ih => simpa using ih

theorem lookup_zip (entries : List E) (keys : List B256) :
    (entries.map asEntry).zip ((entries.map (fun e => (asEntry e).key) ++ keys).map c.lookup) =
      (entries.map asEntry).zip ((entries.map asEntry).map fun e => c.lookup e.key) := by
  induction entries with
  | nil => simp
  | cons e entries ih => simpa using ih

theorem drop_lookup (entries : List E) (keys : List B256) :
    ((entries.map (fun e => (asEntry e).key) ++ keys).map c.lookup).drop entries.length = keys.map c.lookup := by
  rw [map_append, drop_left' (by simp)]

theorem loadIndices (ht : touchEntries version
      ((entries.map fun e => c.lookup (asEntry e).key).zip entries) ⟨∅, c.entries.length, ∅⟩ = .ok touched)
    {I : List Nat} (hI : I = (touchReads (keys.map c.lookup)
      ⟨[], [], writtenIndices c.entries.length touched⟩).distinctIndices.toList) :
    I.Pairwise (· ≤ ·) ∧ (∀ i, i ∈ I ↔ WrittenAt c (entries.map asEntry) i ∨ ReadAt c keys i) ∧
      ∀ i ∈ I, i < c.leaves.length := by
  subst hI
  have hmem : ∀ i, i ∈ (touchReads (keys.map c.lookup)
      ⟨[], [], writtenIndices c.entries.length touched⟩).distinctIndices.toList ↔
      WrittenAt c (entries.map asEntry) i ∨ ReadAt c keys i := by
    intro i
    rw [Std.ExtTreeSet.mem_toList, (touchReads_spec _ i _).2.1, mem_writtenIndices rfl ht]
    simp [ReadAt]
  refine ⟨?_, hmem, fun i hi => ?_⟩
  · refine (Std.ExtTreeSet.ordered_toList).imp fun hlt => ?_
    exact (compare_lt_iff_lt.mp hlt).le
  · rw [length_leaves]
    exact ((hmem i).mp hi).elim WrittenAt.lt ReadAt.lt

theorem createPatch_eq_ok (hs : Serves P hasher nodes c root db version) {w : WorkingPatchSet H} {u : TreeUpdate}
    (h : createPatch P db version entries keys = .ok (w, u)) :
    ∃ I J, Planned P hasher nodes c (version + 1) (entries.map asEntry) keys I J w u := by
  have hcount : root.leafCount = c.entries.length := hs.tree.1.trans c.length_leaves
  rw [createPatch, hs.root] at h
  simp only [ok_bind, hs.indices, hcount, zip_lookup, lookup_zip, drop_lookup, filterMap_entryInsert] at h
  obtain ⟨touched, ht, h⟩ := bind_eq_ok.mp h
  obtain ⟨w', hload, h⟩ := bind_eq_ok.mp h
  obtain ⟨_, hsize, h⟩ := bind_eq_ok.mp h
  obtain ⟨_, hversion, h⟩ := bind_eq_ok.mp h
  cases pure_eq_ok.mp h
  rw [ensure_eq_ok, length_map] at hsize
  set reads := touchReads (keys.map c.lookup) ⟨[], [], writtenIndices c.entries.length touched⟩ with hreads
  change WorkingPatchSet.loadNodes P db reads.distinctIndices.toList _ = _ at hload
  obtain ⟨hI, hmem, hlt⟩ := loadIndices ht (congrArg (fun r => r.distinctIndices.toList) hreads)
  obtain ⟨w'', hload', hloaded⟩ := loadNodes_ok hs.tree hI hlt
  rw [hload' hs.reads] at hload
  cases hload
  have hwritten : ∀ i, i ∈ (writtenIndices c.entries.length touched).toList ↔
      WrittenAt c (entries.map asEntry) i := by
    intro i
    rw [Std.ExtTreeSet.mem_toList, mem_writtenIndices rfl ht]
  refine ⟨_, (writtenIndices c.entries.length touched).toList, hloaded, rfl, ?_, rfl, rfl, ?_, ?_, hwritten, hmem, ?_⟩
  · exact newKeys_of_size (fun k hk => not_mem_of_mem_freshKeys hk) (touchEntries_eq_ok ht).1
      (hsize.trans (by simp [freshKeys]))
  · change map (KeyLookup.operation ∘ Prod.snd) _ = _
    rw [← map_map, map_snd_zip (by simp), map_map]
    rfl
  · change reads.readOperations = _
    rw [hreads, (touchReads_spec _ 0 _).1, nil_append, map_map]
    rfl
  · intro i
    change _ ↔ _ ∧ i ∉ reads.readonlyLeafIndices
    rw [hmem, hwritten, hreads, (touchReads_spec _ i _).2.2, mem_writtenIndices rfl ht]
    simp only [mem_map, exists_exists_and_eq_and, not_mem_nil, false_or]
    change _ ↔ _ ∧ ¬ (_ ∧ ReadAt c keys i)
    by_cases hw : WrittenAt c (entries.map asEntry) i
    · simp [hw]
    · simp [hw]

theorem createPatch_congr {DB' : Type} [Database DB' H] {db' : DB'} (hs : Serves P hasher nodes c root db version)
    (hs' : Serves P hasher nodes c root db' version) :
    createPatch P db version entries keys = createPatch P db' version entries keys := by
  have hcount : root.leafCount = c.entries.length := hs.tree.1.trans c.length_leaves
  rw [createPatch, createPatch, hs.root, hs'.root]
  simp only [ok_bind, hs.indices, hs'.indices, hcount, zip_lookup, drop_lookup]
  cases ht : touchEntries (version + 1) ((entries.map fun e => c.lookup (asEntry e).key).zip entries)
      ⟨∅, c.entries.length, ∅⟩ with
  | error e => rfl
  | ok touched =>
    obtain ⟨hI, -, hlt⟩ := loadIndices ht (I := (touchReads (keys.map c.lookup) _).distinctIndices.toList) rfl
    obtain ⟨w, hload, -⟩ := loadNodes_ok hs.tree hI hlt
    simp only [writtenIndices] at hload
    simp only [ok_bind]
    rw [hload hs.reads, hload hs'.reads]

end CreatePatch

end MerkleTree
