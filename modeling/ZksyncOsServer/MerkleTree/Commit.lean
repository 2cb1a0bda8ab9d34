import ZksyncOsServer.MerkleTree.Update

/-!
# Hashing and storing an update

`WorkingPatchSet::finalize` writes the hashes bottom-up. The resulting patch,
put on top of the store it was loaded from, holds the tree of the new leaves.
-/
namespace MerkleTree

open BinaryMerkle Fallible List WorkingPatchSet PartialPatchSet
open LevelWalk (withNew mem_withNew)

variable {H : Type} {P : TreeParams} {hasher : HashTree H} {nodes : NodeKey → Option (Node H)}
  {version : Nat} {old leaves : List Leaf} {J : List Nat} {h idx : Nat}

structure Done (P : TreeParams) (hasher : HashTree H) (nodes : NodeKey → Option (Node H)) (version : Nat)
    (old leaves : List Leaf) (J : List Nat) (h idx : Nat) (node : InternalNode H) : Prop where
  children : ChildrenOf P hasher leaves h idx node
  touched : ∀ j child, node.children[j]? = some child → Anc P J h (idx * maxNodeChildren P + j) →
    child.version = version
  rest : ∀ j child, node.children[j]? = some child → ¬ Anc P J h (idx * maxNodeChildren P + j) →
    Stored P hasher nodes version old h (idx * maxNodeChildren P + j) child.version

/-- The hashes of one level: of the nodes in `dom`, each once. -/
structure HashesAre (dom : Nat → Prop) (hash : Nat → H) (hashes : List (Nat × H)) : Prop where
  distinct : hashes.Pairwise fun a b => a.1 ≠ b.1
  mem : ∀ x, x ∈ hashes ↔ dom x.1 ∧ x.2 = hash x.1

variable {hashes : List (Nat × H)} {level : Level H}

theorem Ready.done {node node' : InternalNode H}
    (hhashes : HashesAre (Anc P J h) (subtreeHash hasher leaves (h * P.internalNodeDepth)) hashes)
    (hr : Ready P hasher nodes version old leaves J h idx node)
    (hm : ChildrenModified P (hashes.map fun x => (x.1, fun child => { child with hash := x.2 })) idx
      node node') : Done P hasher nodes version old leaves J h idx node' := by
  have hhit : ∀ {j child}, node.children[j]? = some child → Anc P J h (idx * maxNodeChildren P + j) →
      node'.children[j]? = some { child with
        hash := subtreeHash hasher leaves (h * P.internalNodeDepth) (idx * maxNodeChildren P + j) } := by
    intro j child hj ha
    exact hm.hit j child _ hj (mem_map.mpr ⟨(_, _), (hhashes.mem _).mpr ⟨ha, rfl⟩, rfl⟩)
  have hmiss : ∀ {j}, ¬ Anc P J h (idx * maxNodeChildren P + j) → node'.children[j]? = node.children[j]? := by
    intro j ha
    refine hm.miss j fun f hf => ?_
    obtain ⟨x, hx, he⟩ := mem_map.mp hf
    exact ha ((Prod.mk.inj he).1 ▸ ((hhashes.mem x).mp hx).1)
  refine ⟨⟨fun j => by rw [hm.length]; exact hr.length j, fun j child' hj => ?_⟩,
    fun j child' hj ha => ?_, fun j child' hj ha => ?_⟩
  · obtain ⟨child, hc⟩ := hm.getElem? hj
    by_cases ha : Anc P J h (idx * maxNodeChildren P + j)
    · rw [hhit hc ha] at hj
      rw [← Option.some.inj hj]
    · rw [hmiss ha] at hj
      exact (hr.rest j child' hj ha).1
  · obtain ⟨child, hc⟩ := hm.getElem? hj
    rw [hhit hc ha] at hj
    rw [← Option.some.inj hj]
    exact hr.touched j child hc ha
  · rw [hmiss ha] at hj
    exact (hr.rest j child' hj ha).2

theorem Ready.short {dom : Nat → Prop}
    (hl : LevelIs dom (Ready P hasher nodes version old leaves J h) level) : Short P level :=
  fun p node hn => length_le_of_forall (hl.node p node hn).length

theorem setHashes_levelIs {dom : Nat → Prop} {level' : Level H}
    (hhashes : HashesAre (Anc P J h) (subtreeHash hasher leaves (h * P.internalNodeDepth)) hashes)
    (hl : LevelIs dom (Ready P hasher nodes version old leaves J h) level)
    (hs : setHashes P hashes level = .ok level') : LevelIs dom (Done P hasher nodes version old leaves J h) level' := by
  have hd : (hashes.map fun x => (x.1, fun child : ChildRef H => { child with hash := x.2 })).Pairwise
      fun a b => a.1 ≠ b.1 := by
    rw [pairwise_map]
    exact hhashes.distinct
  obtain ⟨hdom, hback⟩ := modifyChildren_spec hd (Ready.short hl) hs
  refine ⟨fun p => (hdom p).trans (hl.mem p), fun p node' hn' => ?_⟩
  obtain ⟨node, hn, hm⟩ := hback p node' hn'
  exact (hl.node p node hn).done hhashes hm

theorem ChildrenOf.ne_nil {node : InternalNode H} (hc : ChildrenOf P hasher leaves h idx node)
    (hlive : idx * span P (h + 1) < leaves.length) : node.children ≠ [] := by
  have hpos : 0 < node.children.length := by
    rw [hc.length]
    refine ⟨maxNodeChildren_pos P, ?_⟩
    rw [Nat.add_zero, Nat.mul_assoc, Nat.mul_comm (maxNodeChildren P)]
    change idx * (span P h * maxNodeChildren P) < leaves.length
    rw [← span_succ]
    exact hlive
  intro he
  rw [he] at hpos
  exact absurd hpos (by simp)

section
variable (hJ : ∀ i ∈ J, i < leaves.length)
include hJ

theorem Anc.live (ha : Anc P J h idx) : idx * span P h < leaves.length := by
  obtain ⟨i, hi, rfl⟩ := ha
  exact (Nat.div_mul_le_self i _).trans_lt (hJ i hi)

theorem hashLevels_ok {levels levels' : List (Level H)} {leafHashes : List (Nat × H)} (hlen : levels.length ≤ maxNibblesForInternalNode P)
    (hleaf : HashesAre (· ∈ J) (subtreeHash hasher leaves 0) leafHashes)
    (hl : LevelsAre (fun h => Anc P J (h + 1)) (Ready P hasher nodes version old leaves J) levels)
    (hh : hashLevels P hasher leafHashes levels = .ok (levels', hashes)) : levels'.length = levels.length ∧
      LevelsAre (fun h => Anc P J (h + 1)) (Done P hasher nodes version old leaves J) levels' ∧
      HashesAre (Anc P J levels.length) (subtreeHash hasher leaves (levels.length * P.internalNodeDepth)) hashes := by
  induction levels generalizing levels' hashes with
  | nil =>
    cases hh
    refine ⟨rfl, trivial, ⟨hleaf.distinct, fun x => ?_⟩⟩
    simpa using hleaf.mem x
  | cons level lower ih =>
    obtain ⟨hlevel, hlower⟩ := hl
    rw [length_cons] at hlen
    rw [hashLevels] at hh
    obtain ⟨⟨lower', below⟩, hrec, hh⟩ := bind_eq_ok.mp hh
    obtain ⟨level', hset, hh⟩ := bind_eq_ok.mp hh
    obtain ⟨hashes', hmap, hh⟩ := bind_eq_ok.mp hh
    cases pure_eq_ok.mp hh
    obtain ⟨hlen', hlower', hbelow⟩ := ih (by omega) hlower hrec
    have hdone := setHashes_levelIs hbelow hlevel hset
    have hnode : ∀ e ∈ level'.toList, e.2.hash P hasher (lower.length * P.internalNodeDepth) =
        .ok (subtreeHash hasher leaves ((lower.length + 1) * P.internalNodeDepth) e.1) := by
      intro e he
      have hget := Std.ExtTreeMap.mem_toList_iff_getElem?_eq_some.mp he
      have hc := (hdone.node e.1 e.2 hget).children
      exact hc.hash_eq (hc.ne_nil (((hdone.mem e.1).mp ⟨e.2, hget⟩).live hJ)) (by omega)
    have hmap' : hashes = level'.toList.map fun e =>
        (e.1, subtreeHash hasher leaves ((lower.length + 1) * P.internalNodeDepth) e.1) := by
      refine Except.ok.inj (hmap.symm.trans (mapM_eq_map fun e he => ?_))
      change (e.2.hash P hasher (lower.length * P.internalNodeDepth) >>= _) = _
      rw [hnode e he]
      rfl
    refine ⟨by simp [hlen'], ⟨by rw [hlen']; exact hdone, hlower'⟩, ?_, fun x => ?_⟩
    · rw [hmap', pairwise_map]
      exact (SortedMap.pairwise_toList level').imp fun hlt => hlt.ne
    · have hmem : (∃ node, level'[x.1]? = some node) ↔ Anc P J (lower.length + 1) x.1 := hdone.mem x.1
      rw [hmap', length_cons, ← hmem, mem_map]
      constructor
      · rintro ⟨e, he, rfl⟩
        exact ⟨⟨e.2, Std.ExtTreeMap.mem_toList_iff_getElem?_eq_some.mp he⟩, rfl⟩
      · rintro ⟨⟨node, hn⟩, hx⟩
        exact ⟨(x.1, node), Std.ExtTreeMap.mem_toList_iff_getElem?_eq_some.mpr hn, Prod.ext rfl hx.symm⟩

theorem leafHashes_hashesAre {m : Map Nat Leaf} (hm : LeavesAre leaves J m) :
    HashesAre (· ∈ J) (subtreeHash hasher leaves 0) (m.toList.map fun x => (x.1, hasher.hashLeaf x.2)) := by
  constructor
  · rw [pairwise_map]
    exact (SortedMap.pairwise_toList m).imp fun hlt => hlt.ne
  · intro x
    rw [mem_map]
    constructor
    · rintro ⟨e, he, rfl⟩
      have hget := Std.ExtTreeMap.mem_toList_iff_getElem?_eq_some.mp he
      rw [hm e.1] at hget
      split at hget
      next hi =>
        exact ⟨hi, (subtreeHash_zero hget).symm⟩
      · exact absurd hget (by simp)
    · rintro ⟨hi, hx⟩
      obtain ⟨leaf, hget⟩ : ∃ leaf, leaves[x.1]? = some leaf := ⟨_, getElem?_eq_getElem (hJ _ hi)⟩
      refine ⟨(x.1, leaf), ?_, Prod.ext rfl ?_⟩
      · rw [Std.ExtTreeMap.mem_toList_iff_getElem?_eq_some, hm x.1, if_pos hi]
        exact hget
      · rw [hx, subtreeHash_zero hget]

end

structure Finished (P : TreeParams) (hasher : HashTree H) (nodes : NodeKey → Option (Node H)) (version : Nat)
    (old leaves : List Leaf) (J : List Nat) (part : PartialPatchSet H) : Prop where
  leafCount : part.leafCount = leaves.length
  length : part.internal.length = leafNibbles P
  levels : LevelsAre (Touched P J) (Done P hasher nodes version old leaves J) part.internal
  root : ∀ idx, Touched P J (maxNibblesForInternalNode P) idx → idx = 0
  leaves : LeavesAre leaves J part.leaves

theorem finalize_ok {w : WorkingPatchSet H} {final : FinalTreeUpdate} {patch : PatchSet H}
    {output : TreeBatchOutput H} (hcount : w.leafCount = leaves.length)
    (hlen : w.internal.length = leafNibbles P) (hpos : 0 < leaves.length) (hJ : ∀ i ∈ J, i < leaves.length)
    (hlevels : LevelsAre (Touched P J) (Ready P hasher nodes version old leaves J) w.internal)
    (hleaves : LeavesAre leaves J w.leaves) (hf : finalize P hasher w final = .ok (patch, output)) :
    ∃ part, patch = ⟨⟨final.version + 1, TreeTags.forParams P hasher⟩,
        (∅ : Map Nat (PartialPatchSet H)).insert final.version part, final.sortedNewLeaves⟩ ∧
      output = ⟨subtreeHash hasher leaves P.treeDepth 0, leaves.length⟩ ∧
      final.version + 1 < u64Bound ∧ Finished P hasher nodes version old leaves J part := by
  rw [finalize] at hf
  obtain ⟨⟨internal, hashes⟩, hhash, hf⟩ := bind_eq_ok.mp hf
  -- The levels are the root level and the levels below it.
  cases hint : w.internal with
  | nil =>
    rw [hint, leafNibbles_eq] at hlen
    exact absurd hlen (by simp)
  | cons root rest =>
    rw [hint] at hlen hlevels hhash
    have hM : rest.length = maxNibblesForInternalNode P := by
      rw [length_cons, leafNibbles_eq] at hlen
      omega
    obtain ⟨hroot, hrest⟩ := hlevels
    rw [hM] at hroot
    rw [hashLevels] at hhash
    obtain ⟨⟨rest', below⟩, hrec, hhash⟩ := bind_eq_ok.mp hhash
    obtain ⟨root', hset, hhash⟩ := bind_eq_ok.mp hhash
    obtain ⟨hashes', hmap, hhash⟩ := bind_eq_ok.mp hhash
    cases pure_eq_ok.mp hhash
    have hrest' : LevelsAre (fun h => Anc P J (h + 1)) _ rest := hrest.imp
      (fun h hh idx => touched_of_lt (by omega)) fun _ _ _ _ _ hq => hq
    obtain ⟨hlen', hdone, hbelow⟩ :=
      hashLevels_ok hJ hM.le (leafHashes_hashesAre hJ hleaves) hrest' hrec
    rw [hM] at hbelow hmap
    have hroot' := setHashes_levelIs hbelow hroot hset
    -- The assertions at the end leave a single root node.
    simp only at hf
    split at hf
    next rootIdx rootHash =>
      obtain ⟨u₁, hidx, hf⟩ := bind_eq_ok.mp hf
      obtain ⟨u₂, hversion, hf⟩ := bind_eq_ok.mp hf
      rw [assert_eq_ok] at hidx hversion
      cases pure_eq_ok.mp hf
      subst hidx
      obtain ⟨⟨idx, node⟩, hlist, hnode⟩ : ∃ e, root'.toList = [e] ∧ _ := by
        rw [mapM_eq_ok] at hmap
        generalize root'.toList = l at hmap ⊢
        cases hmap with
        | @cons e _ _ _ hnode hnil =>
          cases hnil
          exact ⟨e, rfl, hnode⟩
      change (node.hash P hasher (maxNibblesForInternalNode P * P.internalNodeDepth) >>= _) = _ at hnode
      obtain ⟨hash, hnode, he⟩ := bind_eq_ok.mp hnode
      cases pure_eq_ok.mp he
      have hget : ∀ (i : Nat) (n : InternalNode H), root'[i]? = some n → i = 0 ∧ n = node := by
        intro i n hi
        have hmem := Std.ExtTreeMap.mem_toList_iff_getElem?_eq_some.mpr hi
        rw [hlist, mem_singleton] at hmem
        exact Prod.mk.inj hmem
      have hone : root'[0]? = some node := by
        rw [← Std.ExtTreeMap.mem_toList_iff_getElem?_eq_some, hlist]
        exact mem_singleton.mpr rfl
      have hc := (hroot'.node 0 node hone).children
      rw [hc.rootHash_eq (hc.ne_nil (by simpa using hpos))] at hnode
      refine ⟨⟨w.leafCount, root' :: rest', w.leaves⟩, rfl, ?_, hversion, ⟨hcount, ?_, ⟨?_, ?_⟩, ?_, hleaves⟩⟩
      · rw [← Except.ok.inj hnode, hcount]
      · rw [length_cons, hlen', hM, leafNibbles_eq]
      · rw [hlen', hM]
        exact hroot'
      · exact hdone.imp (fun h hh idx => (touched_of_lt (by omega)).symm) fun _ _ _ _ _ hq => hq
      · intro idx ht
        obtain ⟨n, hn⟩ := (hroot'.mem idx).mpr ht
        exact (hget idx n hn).1
    · exact absurd hf (by simp [throw, throwThe, MonadExceptOf.throw])

theorem LevelsAre.getElem? {dom : Nat → Nat → Prop} {Q : Nat → Nat → InternalNode H → Prop}
    {levels : List (Level H)} (hl : LevelsAre dom Q levels) {i : Nat}
    (hi : levels[i]? = some level) (hh : i + h + 1 = levels.length) : LevelIs (dom h) (Q h) level := by
  induction levels generalizing i with
  | nil => simp at hi
  | cons level' lower ih =>
    rw [length_cons] at hh
    cases i with
    | zero =>
      simp only [getElem?_cons_zero, Option.some.injEq] at hi
      rw [show h = lower.length by omega, ← hi]
      exact hl.1
    | succ i => exact ih hl.2 (by simpa using hi) (by omega)

structure OnTop (nodes nodes' : NodeKey → Option (Node H)) (version : Nat) (part : PartialPatchSet H) : Prop where
  old : ∀ key, key.version < version → 0 < key.nibbleCount → nodes' key = nodes key
  new : ∀ key, key.version = version → 0 < key.nibbleCount → nodes' key = part.node key.nibbleCount key.indexOnLevel

namespace Finished

variable {part : PartialPatchSet H} {nodes' : NodeKey → Option (Node H)}

theorem storedBelow (hh : h < leafNibbles P) (hsame : ∀ i, i ∉ J → old[i]? = leaves[i]?)
    (htop : OnTop nodes nodes' version part) {node : InternalNode H}
    (hstored : ∀ q, Anc P J h q → Stored P hasher nodes' (version + 1) leaves h q version)
    (hd : Done P hasher nodes version old leaves J h idx node) :
    StoredBelow P hasher leaves (Stored P hasher nodes' (version + 1) leaves h) h idx node where
  children := hd.children
  stored j child hj := by
    by_cases ha : Anc P J h (idx * maxNodeChildren P + j)
    · rw [hd.touched j child hj ha]
      exact hstored _ ha
    · exact (hd.rest j child hj ha).frame htop.old (Nat.le_succ version) hh
        fun i hi => hsame i fun hmem => ha ⟨i, hmem, hi⟩

variable (hf : Finished P hasher nodes version old leaves J part)
include hf

theorem exists_node (hh : h ≤ maxNibblesForInternalNode P) (ht : Touched P J h idx) :
    ∃ node, part.node (leafNibbles P - (h + 1)) idx = some (.internal node) ∧
      Done P hasher nodes version old leaves J h idx node := by
  have hL := leafNibbles_eq P
  have hlt : leafNibbles P - (h + 1) < part.internal.length := by
    rw [hf.length]
    omega
  have hlevel := hf.levels.getElem? (h := h) (getElem?_eq_getElem hlt) (by rw [hf.length]; omega)
  obtain ⟨node, hn⟩ := (hlevel.mem idx).mpr ht
  refine ⟨node, ?_, hlevel.node idx node hn⟩
  rw [PartialPatchSet.node, if_pos hlt, getElem?_eq_getElem hlt, Option.bind_some, hn]
  rfl

variable (hJ : ∀ i ∈ J, i < leaves.length)
include hJ

theorem exists_leaf (hi : idx ∈ J) : ∃ leaf, leaves[idx]? = some leaf ∧ part.node (leafNibbles P) idx = some (.leaf leaf) := by
  obtain ⟨leaf, hleaf⟩ : ∃ leaf, leaves[idx]? = some leaf := ⟨_, getElem?_eq_getElem (hJ idx hi)⟩
  refine ⟨leaf, hleaf, ?_⟩
  rw [PartialPatchSet.node, hf.length, if_neg (lt_irrefl _), if_pos rfl, hf.leaves idx, if_pos hi, hleaf]
  rfl

variable (hsame : ∀ i, i ∉ J → old[i]? = leaves[i]?) (htop : OnTop nodes nodes' version part)
include hsame htop

theorem stored (hh : h ≤ maxNibblesForInternalNode P) (ha : Anc P J h idx) :
    Stored P hasher nodes' (version + 1) leaves h idx version := by
  induction h generalizing idx with
  | zero =>
    obtain ⟨leaf, hleaf, hnode⟩ := hf.exists_leaf hJ (anc_zero.mp ha)
    exact ⟨Nat.lt_succ_self version, leaf, hleaf, by rw [htop.new _ rfl (leafNibbles_pos P)]; exact hnode⟩
  | succ h ih =>
    obtain ⟨node, hnode, hd⟩ := hf.exists_node (by omega) (.inl ha)
    have hpos : 0 < leafNibbles P - (h + 1) := by
      rw [leafNibbles_eq]
      omega
    refine ⟨Nat.lt_succ_self version, node, by rw [htop.new _ rfl hpos]; exact hnode, ?_⟩
    exact storedBelow (by rw [leafNibbles_eq]; omega) hsame htop (fun q hq => ih (by omega) hq) hd

theorem storedTree (hfits : leaves.length ≤ span P (leafNibbles P)) :
    ∃ root, part.root = .ok root ∧ StoredTree P hasher nodes' (version + 1) leaves root := by
  obtain ⟨node, hnode, hd⟩ := hf.exists_node le_rfl (.inr ⟨rfl, rfl⟩)
  have hzero : leafNibbles P - (maxNibblesForInternalNode P + 1) = 0 := by
    rw [leafNibbles_eq]
    omega
  rw [hzero, PartialPatchSet.node, if_pos (by rw [hf.length]; exact leafNibbles_pos P), Option.map_eq_some_iff] at hnode
  obtain ⟨node', hget, he⟩ := hnode
  cases he
  obtain ⟨level, hlevel, hget⟩ := Option.bind_eq_some_iff.mp hget
  refine ⟨⟨part.leafCount, node⟩, ?_, hf.leafCount, hfits, ?_⟩
  · simp only [PartialPatchSet.root, hlevel, hget, expect, ok_bind]
    rfl
  · exact storedBelow (by rw [leafNibbles_eq]; omega) hsame htop (fun q hq => hf.stored hJ hsame htop le_rfl hq) hd

end Finished

/-! ### The whole update -/

section Whole

variable [Inhabited H] {I : List Nat} {w w' : WorkingPatchSet H} {u : TreeUpdate} {final : FinalTreeUpdate}

/-- The loaded leaves without those loaded for reading only. -/
def writableLeaves (u : TreeUpdate) (w : WorkingPatchSet H) : Map Nat Leaf :=
  u.readonlyLeafIndices.foldl (fun leaves idx => leaves.erase idx) w.leaves

def updatedLeaves (u : TreeUpdate) (leafCount : Nat) (m : Map Nat Leaf) : Except TreeError (Map Nat Leaf) := do
  let m ← WorkingPatchSet.updateValues u.updates m
  let m ← WorkingPatchSet.relinkNeighbors u.inserts leafCount m
  return m.insertMany ((u.inserts.zipIdx leafCount).map fun x => (x.2, x.1.leaf))

theorem update_eq_ok (hu : update P w u = .ok (w', final)) :
    final = ⟨u.version, u.sortedNewLeaves⟩ ∧ w'.leafCount = w.leafCount + u.inserts.length ∧
    updatedLeaves u w.leafCount (writableLeaves u w) = .ok w'.leaves ∧
    ∃ internal idxs, updateAncestorVersions P u.version (writableLeaves u w).keys w.internal = .ok (internal, idxs) ∧
      w'.internal = let internal := if u.readonlyLeafIndices.isEmpty then internal
          else removeReadonlyNodes u.version internal
        if u.inserts.isEmpty then internal
        else internal.mapIdx (growLevel P u.version w.leafCount (w.leafCount + u.inserts.length - 1)) := by
  rw [update] at hu
  obtain ⟨⟨internal, idxs⟩, hanc, hu⟩ := bind_eq_ok.mp hu
  obtain ⟨m, hvalues, hu⟩ := bind_eq_ok.mp hu
  cases hins : u.inserts with
  | nil =>
    simp only [hins, isEmpty_nil, if_true, pure_eq_ok, Prod.mk.injEq] at hu
    obtain ⟨rfl, rfl⟩ := hu
    refine ⟨rfl, rfl, ?_, internal, idxs, hanc, by simp⟩
    rw [updatedLeaves, writableLeaves, hvalues, hins]
    rfl
  | cons new rest =>
    simp only [hins, isEmpty_cons, Bool.false_eq_true, if_false] at hu
    obtain ⟨_, -, hu⟩ := bind_eq_ok.mp hu
    obtain ⟨m', hrelink, hu⟩ := bind_eq_ok.mp hu
    simp only [pure_eq_ok, Prod.mk.injEq] at hu
    obtain ⟨rfl, rfl⟩ := hu
    refine ⟨rfl, rfl, ?_, internal, idxs, hanc, by simp⟩
    rw [updatedLeaves, writableLeaves, hvalues, ok_bind, hins, hrelink]
    rfl

omit [Inhabited H] in
theorem getElem?_writableLeaves (i : Nat) :
    (writableLeaves u w)[i]? = if i ∈ u.readonlyLeafIndices then none else w.leaves[i]? :=
  SortedMap.getElem?_foldl_erase _ _ _

omit [Inhabited H] in
theorem Ready.of_length_eq (hlen : old.length = leaves.length) (hsame : ∀ i, i ∉ J → old[i]? = leaves[i]?)
    {node : InternalNode H} (hr : Ready P hasher nodes version old old J h idx node) :
    Ready P hasher nodes version old leaves J h idx node where
  length j := by rw [hr.length, hlen]
  touched := hr.touched
  rest j child hj ha := by
    obtain ⟨hhash, hstored⟩ := hr.rest j child hj ha
    exact ⟨hhash.trans (subtreeHash_of_not_anc hsame ha), hstored⟩

theorem update_levels (hl : Loaded P hasher nodes version old I w) (hI : ∀ i ∈ I, i < old.length)
    (hfits : old.length ≤ span P (leafNibbles P)) (hv : u.version = version)
    (hJ : ∀ i, i ∈ J ↔ i ∈ I ∧ i ∉ u.readonlyLeafIndices) (hlen : leaves.length = old.length + u.inserts.length)
    (hlast : u.inserts = [] ∨ old.length = 0 ∨ old.length - 1 ∈ J)
    (hsame : ∀ i, i ∉ withNew J old.length leaves.length → old[i]? = leaves[i]?) (hu : update P w u = .ok (w', final)) :
    w'.internal.length = leafNibbles P ∧ LevelsAre (Touched P (withNew J old.length leaves.length))
        (Ready P hasher nodes version old leaves (withNew J old.length leaves.length)) w'.internal := by
  subst hv
  obtain ⟨-, -, -, internal, idxs, hanc, hinternal⟩ := update_eq_ok hu
  rw [hinternal, hl.leafCount]
  have hJI : ∀ i ∈ J, i ∈ I := fun i hi => ((hJ i).mp hi).1
  have hJlt : ∀ i ∈ J, i < old.length := fun i hi => hI i (hJI i hi)
  have hkeys : ∀ i, i ∈ (writableLeaves u w).keys ↔ i ∈ J := by
    intro i
    rw [SortedMap.mem_keys, getElem?_writableLeaves, hl.leaves i, hJ]
    by_cases hi : i ∈ I
    · by_cases hr : i ∈ u.readonlyLeafIndices
      · simp [hr]
      · simp [hi, hr, getElem?_eq_getElem (hI i hi)]
    · by_cases hr : i ∈ u.readonlyLeafIndices <;> simp [hi, hr]
  have hAnc : ∀ {K : List Nat}, (∀ i, i ∈ K ↔ i ∈ J) → ∀ h q, Anc P K h q ↔ Anc P J h q := by
    intro K hK h q
    simp only [Anc, hK]
  obtain ⟨hlen₁, hlevels₁, -, -⟩ := updateAncestorVersions_ok (SortedMap.keys_pairwise _) hl.levels hanc
  rw [hl.length] at hlen₁
  -- Marked levels, with the ancestors of loaded leaves.
  have hmarked : LevelsAre (Touched P I) (Ready P hasher nodes u.version old old J) internal := by
    refine hlevels₁.imp (fun _ _ _ => Iff.rfl) fun h _ idx node _ hr => ⟨hr.length, ?_, ?_⟩
    · exact fun j child hj ha => hr.touched j child hj ((hAnc hkeys _ _).mpr ha)
    · exact fun j child hj ha => hr.rest j child hj fun hc => ha ((hAnc hkeys _ _).mp hc)
  -- Without the read-only nodes, only ancestors of touched leaves are left.
  obtain ⟨hlen₂, hlevels₂⟩ : (if u.readonlyLeafIndices.isEmpty then internal
        else removeReadonlyNodes u.version internal).length = leafNibbles P ∧
      LevelsAre (Touched P J) (Ready P hasher nodes u.version old old J)
        (if u.readonlyLeafIndices.isEmpty then internal else removeReadonlyNodes u.version internal) := by
    split
    next hr =>
      rw [List.isEmpty_iff] at hr
      refine ⟨hlen₁, hmarked.imp (fun h _ idx => ?_) fun _ _ _ _ _ hq => hq⟩
      have hIJ : ∀ i, i ∈ I ↔ i ∈ J := fun i => by simp [hJ, hr]
      exact or_congr_left (hAnc hIJ _ _)
    · refine ⟨?_, removeReadonlyNodes_levels hlen₁ hJlt hfits hI hJI hmarked⟩
      cases internal with
      | nil => exact hlen₁
      | cons root rest => simpa [removeReadonlyNodes] using hlen₁
  generalize (if u.readonlyLeafIndices.isEmpty then internal
    else removeReadonlyNodes u.version internal) = levels at hlen₂ hlevels₂ ⊢
  cases hins : u.inserts with
  | nil =>
    rw [hins, length_nil, Nat.add_zero] at hlen
    have hnew : withNew J old.length leaves.length = J := by simp [withNew, hlen]
    rw [hnew] at hsame ⊢
    exact ⟨by simpa using hlen₂, hlevels₂.imp (fun _ _ _ => Iff.rfl)
      fun _ _ _ _ _ hr => hr.of_length_eq hlen.symm hsame⟩
  | cons new rest =>
    have hn : old.length < leaves.length := by
      rw [hlen, hins]
      simp
    have hlast' := hlast.resolve_left (by simp [hins])
    rw [hins] at hlen
    simp only [isEmpty_cons, Bool.false_eq_true, if_false]
    rw [← hlen]
    refine ⟨by simpa using hlen₂, hlevels₂.mapIdx fun i h level hi hlevel => ?_⟩
    exact growLevel_levelIs hn hlast' hsame hJlt (by rw [hlen₂, leafNibbles_eq] at hi; omega) hlevel

end Whole

end MerkleTree
