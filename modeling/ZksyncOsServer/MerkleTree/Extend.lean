import ZksyncOsServer.MerkleTree.Create

/-!
# Extending a tree

A working set together with its update is prepared for new contents, whether it
was loaded from the latest version or starts from the empty tree. Committing it
yields a patch that holds the tree of the new contents, and the output is the
root hash and the leaf count of these contents.
-/
namespace MerkleTree

open BinaryMerkle Contents Fallible List Successor WorkingPatchSet Contents
open LevelWalk (withNew mem_withNew)

variable {H DB E : Type} {P : TreeParams} {hasher : HashTree H} {nodes : NodeKey → Option (Node H)}
  {version : Nat} {old : List Leaf} {c c' : Contents} {es : List TreeEntry} {I J : List Nat}
  {w : WorkingPatchSet H} {u : TreeUpdate}

def IndexedFrom (version n : Nat) (c : Contents) (m : Map B256 InsertedKeyEntry) : Prop :=
  ∀ (k : B256) (e : InsertedKeyEntry), m[k]? = some e ↔
    e.insertedAt = version ∧ n ≤ e.index ∧ c.keys[e.index]? = some k

structure Prepared (P : TreeParams) (hasher : HashTree H) (nodes : NodeKey → Option (Node H)) (version : Nat)
    (old : List Leaf) (c' : Contents) (I J : List Nat) (w : WorkingPatchSet H) (u : TreeUpdate) : Prop where
  loaded : Loaded P hasher nodes version old I w
  lt : ∀ i ∈ I, i < old.length
  fits : old.length ≤ span P (leafNibbles P)
  at_version : u.version = version
  writable : ∀ i, i ∈ J ↔ i ∈ I ∧ i ∉ u.readonlyLeafIndices
  length : c'.leaves.length = old.length + u.inserts.length
  last : u.inserts = [] ∨ old.length = 0 ∨ old.length - 1 ∈ J
  same : ∀ i, i ∉ withNew J old.length c'.leaves.length → old[i]? = c'.leaves[i]?
  leaves : ∀ m m', LeavesAre old J m → updatedLeaves u old.length m = .ok m' →
    LeavesAre c'.leaves (withNew J old.length c'.leaves.length) m'
  newKeys : IndexedFrom version old.length c' u.sortedNewLeaves
  oldKeys : ∀ i, i < old.length → c'.keys[i]? = old[i]?.map Leaf.key

theorem Planned.prepared {keys : List B256} (hp : Planned P hasher nodes c version es keys I J w u)
    (hfits : c.leaves.length ≤ span P (leafNibbles P)) :
    Prepared P hasher nodes version c.leaves (c.upsertAll es) I J w u := by
  have hN := hp.newKeys.nodup
  have hlt : ∀ i ∈ I, i < c.leaves.length := fun i hi => by
    rw [length_leaves]
    exact ((hp.mem i).mp hi).elim WrittenAt.lt ReadAt.lt
  have hlen : (c.upsertAll es).leaves.length = c.leaves.length + u.inserts.length := by
    rw [length_leaves, length_leaves, length_upsertAll hN, hp.inserts, length_map]
  refine ⟨hp.loaded, hlt, hfits, hp.at_version, hp.writable, hlen, ?_, fun i hi => ?_, fun m m' hm hu => ?_,
    fun k e => ?_, fun i hi => ?_⟩
  · by_cases hf : c.fresh es = []
    · exact .inl (by rw [hp.inserts, hf]; rfl)
    · exact .inr (.inr ((hp.written _).mpr (.inr ⟨hf, by rw [length_leaves]⟩)))
  · simp only [withNew, mem_append, mem_range'_1, not_or] at hi
    by_cases hi' : i < c.entries.length
    · refine (getElem?_leaves_upsertAll_of_untouched hN hi' fun e he hmem => hi.1 ?_).symm
      exact (hp.written i).mpr (.inl ⟨e, he, hmem⟩)
    · rw [getElem?_eq_none (by rw [length_leaves]; omega), getElem?_eq_none]
      have := c.length_leaves
      omega
  · rw [length_leaves] at hu ⊢
    rw [length_leaves]
    refine updatedLeaves_ok hp.newKeys hp.updates hp.inserts (fun i hi => ?_) hm hu
    exact ((hp.written i).mp hi).lt
  · rw [hp.newKeys.get, length_leaves, keys_upsertAll c es hN]
    change k ∈ c.freshKeys es ∧ _ ↔ _ ∧ _ ∧ (c.keys ++ c.freshKeys es)[e.index]? = some k
    constructor
    · rintro ⟨hk, rfl⟩
      refine ⟨rfl, Nat.le_add_right _ _, ?_⟩
      rw [getElem?_append_right (by simp), length_keys, Nat.add_sub_cancel_left]
      exact getElem?_idxOf hk
    · rintro ⟨hv, hle, hget⟩
      rw [getElem?_append_right (by simpa using hle), length_keys] at hget
      obtain ⟨hlt, rfl⟩ := List.getElem?_eq_some_iff.mp hget
      refine ⟨getElem_mem hlt, ?_⟩
      rw [hN.idxOf_getElem _ hlt, Nat.add_sub_cancel' hle, ← hv]
  · rw [keys_upsertAll c es hN, getElem?_append_left (by simpa using hi), ← getElem?_map, map_key_leaves]

structure Committed (P : TreeParams) (hasher : HashTree H) (nodes : NodeKey → Option (Node H)) (version : Nat)
    (old : List Leaf) (c' : Contents) (J : List Nat) (part : PartialPatchSet H) (patch : PatchSet H) : Prop where
  manifest : patch.manifest = ⟨version + 1, TreeTags.forParams P hasher⟩
  parts : patch.patchesByVersion = (∅ : Map Nat (PartialPatchSet H)).insert version part
  newKeys : IndexedFrom version old.length c' patch.sortedNewLeaves
  oldKeys : ∀ i, i < old.length → c'.keys[i]? = old[i]?.map Leaf.key
  bound : version + 1 < u64Bound
  finished : Finished P hasher nodes version old c'.leaves J part
  lt : ∀ i ∈ J, i < c'.leaves.length
  new : ∀ i, old.length ≤ i → i < c'.leaves.length → i ∈ J
  same : ∀ i, i ∉ J → old[i]? = c'.leaves[i]?
  fits : c'.leaves.length ≤ span P (leafNibbles P)
  length_le : old.length ≤ c'.leaves.length

theorem Prepared.committed [Inhabited H] {w' : WorkingPatchSet H} {final : FinalTreeUpdate} {patch : PatchSet H}
    {output : TreeBatchOutput H} (hp : Prepared P hasher nodes version old c' I J w u)
    (hu : update P w u = .ok (w', final)) (hf : finalize P hasher w' final = .ok (patch, output)) :
    output = c'.output hasher P.treeDepth ∧ ∃ part,
      Committed P hasher nodes version old c' (withNew J old.length c'.leaves.length) part patch := by
  have hlt : ∀ i ∈ withNew J old.length c'.leaves.length, i < c'.leaves.length := by
    intro i hi
    have hlen := hp.length
    simp only [withNew, mem_append, mem_range'_1] at hi
    rcases hi with hi | hi
    · have := hp.lt i ((hp.writable i).mp hi).1
      omega
    · omega
  obtain ⟨hwlen, hlevels⟩ := update_levels hp.loaded hp.lt hp.fits hp.at_version hp.writable hp.length hp.last
    hp.same hu
  obtain ⟨rfl, hcount, hleaves, -⟩ := update_eq_ok hu
  rw [hp.loaded.leafCount] at hcount hleaves
  have hwritable : LeavesAre old J (writableLeaves u w) := by
    intro i
    rw [getElem?_writableLeaves, hp.loaded.leaves i]
    by_cases hi : i ∈ u.readonlyLeafIndices
    · rw [if_pos hi, if_neg fun hj => ((hp.writable i).mp hj).2 hi]
    · simp only [hp.writable, hi, not_false_eq_true, and_true, if_false]
  have hpos : 0 < c'.leaves.length := by
    have := c'.two_le_length
    rw [length_leaves]
    omega
  obtain ⟨part, rfl, rfl, hbound, hfinished⟩ := finalize_ok (hcount.trans hp.length.symm) hwlen hpos hlt hlevels
    (hp.leaves _ _ hwritable hleaves) hf
  rw [hp.at_version] at hbound
  have hnew : ∀ i, old.length ≤ i → i < c'.leaves.length → i ∈ withNew J old.length c'.leaves.length := by
    intro i h₁ h₂
    simp only [withNew, mem_append, mem_range'_1]
    omega
  refine ⟨by rw [output, root, length_leaves], part, ?_, ?_, hp.newKeys, hp.oldKeys, hbound,
    hfinished, hlt, hnew, hp.same, ?_, ?_⟩
  · rw [hp.at_version]
  · rw [hp.at_version]
  · -- The last new leaf is below the single root node.
    by_cases hins : c'.leaves.length = old.length
    · exact hins ▸ hp.fits
    · have hlen := hp.length
      have hroot := hfinished.root _ (.inl ⟨c'.leaves.length - 1, hnew _ (by omega) (by omega), rfl⟩)
      rw [← leafNibbles_eq] at hroot
      have := (Nat.div_eq_zero_iff_lt (span_pos P _)).mp hroot
      omega
  · have hlen := hp.length
    omega

theorem Committed.storedTree {part : PartialPatchSet H} {patch : PatchSet H} {nodes' : NodeKey → Option (Node H)}
    (hc : Committed P hasher nodes version old c' J part patch) (htop : OnTop nodes nodes' version part) :
    ∃ root, part.root = .ok root ∧ StoredTree P hasher nodes' (version + 1) c'.leaves root :=
  hc.finished.storedTree hc.lt hc.same htop hc.fits

/-! ### The empty tree -/

section EmptyTree

variable [AsEntry E] {entries : List E}

theorem indexEntries_eq_ok {n : Nat} {m m' : Map B256 InsertedKeyEntry}
    (h : TreeUpdate.indexEntries entries n m = .ok m') :
    m' = m.insertMany (((entries.map fun e => (AsEntry.asEntry e).key).zipIdx n).map fun x => (x.1, ⟨x.2, 0⟩)) := by
  induction entries generalizing n m with
  | nil => cases h; rfl
  | cons e entries ih =>
    rw [TreeUpdate.indexEntries] at h
    obtain ⟨_, -, h⟩ := bind_eq_ok.mp h
    rw [ih h, map_cons, zipIdx_cons, map_cons, Std.ExtTreeMap.insertMany_cons]

theorem keys_of_size (hes : es = entries.map AsEntry.asEntry) {m : Map B256 InsertedKeyEntry}
    (h : TreeUpdate.indexEntries entries 2 TreeUpdate.guardEntries = .ok m) (hsize : m.size = entries.length + 2) :
    (empty.upsertAll es).entries = TreeEntry.minGuard :: TreeEntry.maxGuard :: es ∧
      IndexedFrom 0 0 (empty.upsertAll es) m := by
  have hm : m = (∅ : Map B256 InsertedKeyEntry).insertMany (((⊥ :: ⊤ :: es.map TreeEntry.key).zipIdx 0).map
      fun x => (x.1, ⟨x.2, 0⟩)) := by
    rw [indexEntries_eq_ok h, hes, map_map]
    simp only [zipIdx_cons, map_cons, Std.ExtTreeMap.insertMany_cons]
    rfl
  have hlen : m.size = (⊥ :: ⊤ :: es.map TreeEntry.key : List B256).length := by
    rw [hsize, hes]
    simp
  obtain ⟨hnodup, hget⟩ :=
    SortedMap.numbered_of_size (f := fun i => (⟨i, 0⟩ : InsertedKeyEntry)) hm hlen
  have hfresh : empty.fresh es = es := by
    rw [nodup_cons, nodup_cons] at hnodup
    refine filter_eq_self.mpr fun e he => ?_
    have hmem : e.key ∈ es.map TreeEntry.key := mem_map_of_mem he
    have hkeys : empty.keys = [⊥, ⊤] := rfl
    simp only [hkeys, mem_cons, not_mem_nil, or_false, not_or, decide_eq_true_eq]
    exact ⟨fun hc => hnodup.1 (mem_cons_of_mem _ (hc ▸ hmem)), fun hc => hnodup.2.1 (hc ▸ hmem)⟩
  have hN : ((empty.fresh es).map TreeEntry.key).Nodup := by
    rw [hfresh]
    exact hnodup.tail.tail
  have hvalues : ∀ x ∈ empty.entries, updated es x = x := by
    intro x hx
    have hne : ∀ e ∈ es, e.key ≠ x.key := by
      intro e he hk
      have : e ∈ empty.fresh es := hfresh.symm ▸ he
      refine not_mem_of_mem_freshKeys (mem_map_of_mem this) (hk ▸ mem_map_of_mem hx)
    simp only [updated, valueAfter_of_forall_ne hne]
  have hentries : (empty.upsertAll es).entries = TreeEntry.minGuard :: TreeEntry.maxGuard :: es := by
    rw [entries_upsertAll _ _ hN, hfresh, map_congr_left hvalues, map_id']
    rfl
  refine ⟨hentries, fun k e => ?_⟩
  have hkeys : (empty.upsertAll es).keys = ⊥ :: ⊤ :: es.map TreeEntry.key := by
    rw [Contents.keys, hentries]
    rfl
  rw [hget, hkeys]
  constructor
  · rintro ⟨i, hi, rfl⟩
    exact ⟨rfl, Nat.zero_le _, by rw [Nat.zero_add]; exact hi⟩
  · rintro ⟨hv, -, hi⟩
    exact ⟨e.index, hi, by rw [Nat.zero_add, ← hv]⟩

theorem mem_keys_of_indexedFrom {m : Map B256 InsertedKeyEntry} (hm : IndexedFrom version 0 c m) (k : B256) :
    (∃ e, m[k]? = some e) ↔ k ∈ c.keys := by
  rw [mem_iff_getElem?]
  constructor
  · rintro ⟨e, he⟩
    exact ⟨e.index, ((hm k e).mp he).2.2⟩
  · rintro ⟨i, hi⟩
    exact ⟨⟨i, version⟩, (hm k _).mpr ⟨rfl, Nat.zero_le _, hi⟩⟩

/-- `for_empty_tree`: the inserted leaves are the leaves of the new contents, and
none of them has a previous leaf to redirect. -/
theorem forEmptyTree_eq_ok (hes : es = entries.map AsEntry.asEntry) (h : TreeUpdate.forEmptyTree entries = .ok u) :
    u.version = 0 ∧ u.updates = [] ∧ u.readonlyLeafIndices = [] ∧ u.operations = [] ∧ u.readOperations = [] ∧
      u.inserts = (empty.upsertAll es).leaves.map (fun leaf => ⟨leaf, none⟩) ∧
      IndexedFrom 0 0 (empty.upsertAll es) u.sortedNewLeaves := by
  rw [TreeUpdate.forEmptyTree] at h
  obtain ⟨m, hindex, h⟩ := bind_eq_ok.mp h
  obtain ⟨_, hsize, h⟩ := bind_eq_ok.mp h
  obtain ⟨inserts, hinserts, h⟩ := bind_eq_ok.mp h
  cases pure_eq_ok.mp h
  rw [ensure_eq_ok] at hsize
  obtain ⟨hentries, hm⟩ := keys_of_size hes hindex hsize
  refine ⟨rfl, rfl, rfl, rfl, rfl, ?_, hm⟩
  rw [← hes, ← hentries] at hinserts
  rw [leaves, map_map]
  refine Except.ok.inj (hinserts.symm.trans (mapM_eq_map fun e _ => ?_))
  have hmem := mem_keys_of_indexedFrom hm
  cases hnext : nextEntry m e.key with
  | none =>
    have hmax := forall_not_lt_of_nextEntry hmem hnext ⊤ (top_mem _)
    have htop : e.key = ⊤ := not_lt_top_iff.mp hmax
    simp only [htop, assert, if_true, ok_bind, Function.comp_apply, toLeaf, nextIndex_top]
    rfl
  | some y =>
    have hisNext := isNext_of_nextEntry hmem hnext
    have hindex := ((hm y.1 y.2).mp (SortedMap.first_eq_some hnext).1).2.2
    simp only [Function.comp_apply, toLeaf, nextIndex_of_isNext hisNext, ((getElem?_keys_iff _ _ _).mp hindex).2]
    rfl

omit [AsEntry E] in
theorem levelsAre_replicate {dom : Nat → Nat → Prop} {Q : Nat → Nat → InternalNode H → Prop} {n : Nat}
    (hdom : ∀ h, h < n → ∀ idx, ¬ dom h idx) : LevelsAre dom Q (replicate n ∅) := by
  induction n with
  | zero => trivial
  | succ n ih =>
    refine ⟨⟨fun idx => ?_, fun idx node hn => absurd hn (by simp)⟩, ih fun h hh => hdom h (by omega)⟩
    rw [length_replicate]
    exact ⟨fun ⟨node, hn⟩ => absurd hn (by simp), fun hd => absurd hd (hdom n (by omega) idx)⟩

omit [AsEntry E] in
theorem loaded_empty : Loaded P hasher nodes 0 [] [] (empty P) := by
  have hanc : ∀ h idx, ¬ Anc P [] h idx := by simp [Anc]
  refine ⟨rfl, ?_, ⟨⟨fun idx => ?_, fun idx node hn => ?_⟩, ?_⟩, fun i => by simp [WorkingPatchSet.empty, new]⟩
  · simp [WorkingPatchSet.empty, WorkingPatchSet.new, leafNibbles_eq]
  · rw [length_replicate]
    simp only [SortedMap.getElem?_insert, Touched, hanc, true_and, false_or]
    by_cases h0 : idx = 0
    · simp [h0]
    · simp [h0]
  · rw [SortedMap.getElem?_insert] at hn
    split at hn
    · cases Option.some.inj hn
      refine ⟨⟨fun j => by simp [InternalNode.empty], ?_⟩, ?_⟩ <;> simp [InternalNode.empty]
    · exact absurd hn (by simp)
  · refine levelsAre_replicate fun h hh idx ht => ?_
    exact hanc _ _ ((touched_of_lt hh).mp ht)

theorem prepared_empty (hes : es = entries.map AsEntry.asEntry) (h : TreeUpdate.forEmptyTree entries = .ok u) :
    Prepared P hasher nodes 0 [] (empty.upsertAll es) [] [] (empty P) u := by
  obtain ⟨hversion, hupdates, hreadonly, -, -, hinserts, hnew⟩ := forEmptyTree_eq_ok hes h
  have hlen : u.inserts.length = (empty.upsertAll es).leaves.length := by rw [hinserts, length_map]
  refine ⟨loaded_empty, by simp, Nat.zero_le _, hversion, by simp, ?_, .inr (.inl rfl), fun i hi => ?_,
    fun m m' hm hu => ?_, hnew, by simp⟩
  · rw [hlen, length_nil, Nat.zero_add]
  · simp only [withNew, nil_append, mem_range'_1, length_nil] at hi
    rw [getElem?_nil, getElem?_eq_none (by omega)]
  · have hrelink : (u.inserts.zipIdx 0).filterMap (fun x => x.1.prevIndex.map fun prevIdx =>
        (prevIdx, fun leaf : Leaf => { leaf with nextIndex := x.2 })) = [] := by
      rw [filterMap_eq_nil_iff]
      rintro ⟨new, i⟩ hx
      have hmem : new ∈ u.inserts := fst_mem_of_mem_zipIdx hx
      rw [hinserts] at hmem
      obtain ⟨leaf, -, rfl⟩ := mem_map.mp hmem
      rfl
    rw [length_nil, updatedLeaves, updateValues, hupdates, relinkNeighbors, hrelink] at hu
    cases hu
    intro i
    rw [SortedMap.getElem?_insertMany_zipIdx, hm i, hlen, hinserts, getElem?_map, Option.map_map]
    simp only [withNew, nil_append, mem_range'_1, length_nil, not_mem_nil, if_false]
    split
    · rw [if_pos (by omega), Nat.sub_zero]
      exact Option.map_id'
    · rw [if_neg (by omega)]

end EmptyTree

end MerkleTree
