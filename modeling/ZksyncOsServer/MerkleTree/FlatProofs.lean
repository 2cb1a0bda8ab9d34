import ZksyncOsServer.MerkleTree.Backends
import ZksyncOsServer.MerkleTree.Flat

/-!
# Flat proofs are complete and sound

`to_flat` reads the siblings recorded by `zip_leaves` with one moving cursor.
Several paths ask for the same sibling only one after the other, so the queries
visit the recorded siblings in order and the cursor never misses one. Without
hash collisions a path that ends at the root of a tree started at a leaf of it,
or at an empty position.
-/
namespace MerkleTree

open BinaryMerkle Contents Fallible LevelWalk List Successor StorageSlotProofEntry BatchTreeProof SortedMap

variable {H DB : Type} {hasher : HashTree H} {leaves : List Leaf}

/-! ### Paths -/

theorem foldPath_eq {siblings : List H} {i count depth : Nat}
    (h : ∀ d, d < depth + count → siblings[d]?.getD (hasher.emptySubtreeHash d) =
      hashAt hasher leaves (d, sibling (i / 2 ^ d))) : foldPath hasher siblings count depth (i / 2 ^ depth)
        (hashAt hasher leaves (depth, i / 2 ^ depth)) =
      hashAt hasher leaves (depth + count, i / 2 ^ (depth + count)) := by
  induction count generalizing depth with
  | zero => rfl
  | succ count ih =>
    have hstep : (if i / 2 ^ depth % 2 = 0 then hasher.hashBranch (hashAt hasher leaves (depth, i / 2 ^ depth))
          (hashAt hasher leaves (depth, sibling (i / 2 ^ depth)))
        else hasher.hashBranch (hashAt hasher leaves (depth, sibling (i / 2 ^ depth)))
          (hashAt hasher leaves (depth, i / 2 ^ depth))) =
        hashAt hasher leaves (depth + 1, i / 2 ^ (depth + 1)) := by
      rw [div_pow_succ, hashAt, hashAt, hashAt, subtreeHash_succ, sibling]
      split
      · exact (above_even _ (by assumption)).symm
      · exact (above_odd _ (by omega)).symm
    rw [foldPath, h depth (by omega), hstep, ← div_pow_succ, ih fun d hd => h d (by omega), Nat.add_right_comm, Nat.add_assoc]

theorem foldPath_inv (hbr : Function.Injective2 hasher.hashBranch) {siblings : List H} {count depth index q : Nat}
    {hash : H} (h : foldPath hasher siblings count depth index hash = subtreeHash hasher leaves (depth + count) q) :
    hash = subtreeHash hasher leaves depth (q * 2 ^ count + index % 2 ^ count) := by
  induction count generalizing depth index hash with
  | zero => simpa [foldPath, Nat.mod_one] using h
  | succ count ih =>
    rw [foldPath, Nat.add_comm count, ← Nat.add_assoc] at h
    have hparent := ih h
    rw [subtreeHash_succ, above] at hparent
    have hmod : index % 2 ^ (count + 1) = index % 2 + 2 * (index / 2 % 2 ^ count) := by
      rw [Nat.pow_succ', Nat.mod_mul]
    have hpos : q * 2 ^ (count + 1) = 2 * (q * 2 ^ count) := by
      rw [Nat.pow_succ]
      ring
    rw [hmod, hpos]
    split at hparent
    · rw [(hbr hparent).1]
      congr 1
      omega
    · rw [(hbr hparent).2]
      congr 1
      omega

/-! ### The cursor -/

open BatchTreeProof (PathEntry flatStep flatLevel flatLevels)

section Cursor

variable [DecidableEq H]

def located (hasher : HashTree H) (leaves : List Leaf) (x : Nat × Nat) : SiblingHash H := ⟨hashAt hasher leaves x, x⟩

/-- The cursor when the given siblings are to be read: at the first of them, or at
the one read before. -/
inductive CursorAt (hasher : HashTree H) (leaves : List Leaf) (ahead : List (Nat × Nat)) : List (SiblingHash H) → Prop
  | start : CursorAt hasher leaves ahead (ahead.map (located hasher leaves))
  | after (x : Nat × Nat) : x ∉ ahead → CursorAt hasher leaves ahead ((x :: ahead).map (located hasher leaves))

omit [DecidableEq H] in
theorem located_location (x : Nat × Nat) : (located hasher leaves x).location = x := rfl

variable {depth last : Nat} {ahead : List (Nat × Nat)} {cursor : List (SiblingHash H)}

theorem CursorAt.getSiblingHash {idx : Nat} (h : CursorAt hasher leaves ((depth, idx) :: ahead) cursor) :
    getSiblingHash depth idx cursor =
      .ok (hashAt hasher leaves (depth, idx), ((depth, idx) :: ahead).map (located hasher leaves)) := by
  cases h with
  | start =>
    rw [map_cons, getSiblingHash.eq_def]
    exact if_pos (located_location _)
  | after x hx =>
    have hne : (located hasher leaves x).location ≠ (depth, idx) := fun he => hx (he ▸ mem_cons_self)
    rw [map_cons, map_cons, getSiblingHash.eq_def]
    exact (if_neg hne).trans (if_pos (located_location _))

def entryAt (hasher : HashTree H) (leaves : List Leaf) (depth : Nat) (x : Nat × Leaf) : PathEntry H :=
  ⟨x.1 / 2 ^ depth, ⟨x.1, x.2.value, x.2.nextIndex,
    (List.range depth).map fun d => hashAt hasher leaves (d, sibling (x.1 / 2 ^ d))⟩⟩

omit [DecidableEq H] in
@[simp] theorem indexOnLevel_entryAt (depth : Nat) (x : Nat × Leaf) :
    (entryAt hasher leaves depth x).indexOnLevel = x.1 / 2 ^ depth := rfl

omit [DecidableEq H] in
theorem entryAt_succ (depth : Nat) (x : Nat × Leaf) :
    entryAt hasher leaves (depth + 1) x = ⟨x.1 / 2 ^ depth / 2, { (entryAt hasher leaves depth x).entry with
      siblings := (entryAt hasher leaves depth x).entry.siblings ++
        [hashAt hasher leaves (depth, sibling (x.1 / 2 ^ depth))] }⟩ := by
  rw [entryAt, entryAt, range_succ, map_append, div_pow_succ]
  rfl

theorem flatStep_some {s : Nat} {x : Nat × Leaf}
    (hq : query last (x.1 / 2 ^ depth) = some s) (h : CursorAt hasher leaves ((depth, s) :: ahead) cursor) :
    flatStep hasher depth last (entryAt hasher leaves depth x) cursor =
      .ok (entryAt hasher leaves (depth + 1) x, ((depth, s) :: ahead).map (located hasher leaves)) := by
  have hs : s = sibling (x.1 / 2 ^ depth) := by
    rw [query] at hq
    split at hq
    · exact absurd hq (by simp)
    · exact (Option.some.inj hq).symm
  have hread := h.getSiblingHash
  rw [entryAt_succ, ← hs, flatStep, indexOnLevel_entryAt]
  rw [query] at hq
  rw [sibling] at hs
  by_cases hodd : x.1 / 2 ^ depth % 2 = 1
  · rw [if_neg (by omega)] at hs
    rw [if_pos hodd, ← hs, hread]
    rfl
  · rw [if_pos (by omega)] at hs
    have hl : x.1 / 2 ^ depth ≠ last := fun hl => by
      rw [if_pos ⟨by omega, hl⟩] at hq
      cases hq
    rw [if_neg hodd, if_neg hl, ← hs, hread]
    rfl

theorem flatStep_none {x : Nat × Leaf} (hq : query last (x.1 / 2 ^ depth) = none)
    (hempty : hashAt hasher leaves (depth, last + 1) = hasher.emptySubtreeHash depth) (cursor : List (SiblingHash H)) :
    flatStep hasher depth last (entryAt hasher leaves depth x) cursor =
      .ok (entryAt hasher leaves (depth + 1) x, cursor) := by
  rw [query] at hq
  split at hq
  case isFalse => cases hq
  case isTrue hlast =>
    rw [entryAt_succ, sibling, if_pos hlast.1, flatStep, indexOnLevel_entryAt, if_neg (by omega), if_pos hlast.2,
      hlast.2, hempty]
    rfl

theorem flatLevel_cons {e e' : PathEntry H} {rest rest' : List (PathEntry H)}
    {cursor' cursor'' : List (SiblingHash H)} (hstep : flatStep hasher depth last e cursor = .ok (e', cursor'))
    (hrest : flatLevel hasher depth last rest cursor' = .ok (rest', cursor'')) :
    flatLevel hasher depth last (e :: rest) cursor = .ok (e' :: rest', cursor'') := by
  simp only [flatLevel, hstep, hrest, ok_bind]
  rfl

theorem flatLevel_eq {L : List (Nat × Leaf)} {S : List Nat} (hempty : hashAt hasher leaves (depth, last + 1) = hasher.emptySubtreeHash depth)
    (hS : Stutter S ((L.map fun x => x.1 / 2 ^ depth).filterMap (query last)))
    (hnodup : (S.map (fun s => (depth, s)) ++ ahead).Nodup)
    (hcursor : CursorAt hasher leaves (S.map (fun s => (depth, s)) ++ ahead) cursor) :
    ∃ cursor', flatLevel hasher depth last (L.map (entryAt hasher leaves depth)) cursor =
      .ok (L.map (entryAt hasher leaves (depth + 1)), cursor') ∧ CursorAt hasher leaves ahead cursor' := by
  induction L generalizing S cursor with
  | nil =>
    cases hS
    exact ⟨cursor, rfl, hcursor⟩
  | cons x L ih =>
    rw [map_cons] at hS
    cases hq : query last (x.1 / 2 ^ depth) with
    | none =>
      rw [filterMap_cons_none hq] at hS
      obtain ⟨cursor', hlevel, hcursor'⟩ := ih hS hnodup hcursor
      exact ⟨cursor', flatLevel_cons (flatStep_none hq hempty cursor) hlevel, hcursor'⟩
    | some s =>
      rw [filterMap_cons_some hq] at hS
      -- Either the cursor moves past this sibling, or it is read once more.
      cases hS with
      | fresh _ hS =>
        obtain ⟨hnot, hnodup⟩ := nodup_cons.mp hnodup
        obtain ⟨cursor', hlevel, hcursor'⟩ := ih hS hnodup (.after _ hnot)
        exact ⟨cursor', flatLevel_cons (flatStep_some hq hcursor) hlevel, hcursor'⟩
      | again _ hS =>
        obtain ⟨cursor', hlevel, hcursor'⟩ := ih hS hnodup .start
        exact ⟨cursor', flatLevel_cons (flatStep_some hq hcursor) hlevel, hcursor'⟩

theorem flatLevels_eq {count b : Nat} {L : List (Nat × Leaf)} {I : List Nat}
    (hb : leaves.length ≤ 2 ^ b) (hpos : 0 < leaves.length) (hdepth : depth < b) (hcount : b ≤ depth + count)
    (hI : I.Pairwise (· < ·)) (hlast : ∀ i ∈ I, i ≤ (leaves.length - 1) / 2 ^ depth)
    (hvisits : Stutter I (L.map fun x => x.1 / 2 ^ depth))
    (hcursor : CursorAt hasher leaves (siblingLocations count depth ((leaves.length - 1) / 2 ^ depth) I) cursor) :
    ∃ top, top ≤ b ∧ (leaves.length - 1) / 2 ^ top = 0 ∧
      flatLevels hasher count depth ((leaves.length - 1) / 2 ^ depth) (L.map (entryAt hasher leaves depth)) cursor =
        .ok (L.map (entryAt hasher leaves top)) := by
  induction count generalizing depth I cursor with
  | zero => omega
  | succ count ih =>
    have hnodup := siblingLocations_nodup hI (count + 1) depth hlast
    rw [siblingLocations, siblings_bare_eq hI hlast] at hcursor hnodup
    obtain ⟨cursor', hlevel, hcursor'⟩ := flatLevel_eq (subtreeHash_past_last leaves depth) (hvisits.filterMap _) hnodup hcursor
    rw [flatLevels, hlevel, ok_bind]
    dsimp only
    rw [← div_pow_succ] at hcursor' ⊢
    by_cases hstop : (leaves.length - 1) / 2 ^ (depth + 1) = 0
    · exact ⟨depth + 1, hdepth, hstop, by rw [if_pos hstop]; rfl⟩
    · rw [if_neg hstop]
      have hlt : depth + 1 < b := by
        by_contra hge
        have hle : 2 ^ b ≤ 2 ^ (depth + 1) := Nat.pow_le_pow_right (by omega) (by omega)
        exact hstop (Nat.div_eq_of_lt (by omega))
      have hup := (stutter_parents_bare hI).trans (hvisits.map (· / 2))
      rw [map_map] at hup
      refine ih hlt (by omega) (parents_bare_pairwise hI) ?_ ?_ hcursor'
      · rw [div_pow_succ]
        exact parents_bare_le hI hlast
      · simpa only [Function.comp_def, div_pow_succ] using hup

end Cursor

/-! ### Completeness -/

section Complete

variable [DecidableEq H] {treeDepth top : Nat}

omit [DecidableEq H] in
theorem hash_entryAt {x : Nat × Leaf} (hx : leaves[x.1]? = some x.2) (htop : top < treeDepth)
    (hlast : (leaves.length - 1) / 2 ^ top = 0) :
    (entryAt hasher leaves top x).entry.hash hasher treeDepth x.2.key = .ok (subtreeHash hasher leaves treeDepth 0) := by
  have hlt : x.1 < leaves.length := (List.getElem?_eq_some_iff.mp hx).1
  have hfits : leaves.length ≤ 2 ^ top := by
    have := Nat.lt_of_div_eq_zero (Nat.two_pow_pos top) hlast
    omega
  have hsiblings : ∀ d, d < 0 + treeDepth →
      (entryAt hasher leaves top x).entry.siblings[d]?.getD (hasher.emptySubtreeHash d) =
        hashAt hasher leaves (d, sibling (x.1 / 2 ^ d)) := by
    intro d _
    change ((List.range top).map _)[d]?.getD _ = _
    rw [getElem?_map]
    by_cases hd : d < top
    · rw [getElem?_range hd]
      rfl
    · have hpow : 2 ^ top ≤ 2 ^ d := Nat.pow_le_pow_right (by omega) (by omega)
      rw [getElem?_eq_none (by simpa using hd), Nat.div_eq_of_lt (by omega)]
      exact (subtreeHash_of_le (by simp [sibling]; omega)).symm
  have hpath := foldPath_eq hsiblings
  rw [Nat.zero_add, Nat.div_eq_of_lt (a := x.1) (hlt.trans_le (hfits.trans (Nat.pow_le_pow_right (by omega) htop.le))),
    Nat.pow_zero, Nat.div_one] at hpath
  have hlen : (entryAt hasher leaves top x).entry.siblings.length < treeDepth := by simpa [entryAt] using htop
  rw [StorageSlotProofEntry.hash, ensure, if_pos hlen, ok_bind]
  change Except.ok (StorageSlotProofEntry.foldPath hasher _ treeDepth 0 x.1 (hasher.hashLeaf x.2)) = _
  rw [← subtreeHash_zero hx]
  exact congrArg _ hpath

def proofOf (hasher : HashTree H) (leaves : List Leaf) (treeDepth : Nat) (readOperations : List TreeOperation)
    (m : Map Nat Leaf) : BatchTreeProof H :=
  ⟨[], readOperations, m, (locations treeDepth 0 (leaves.length - 1) m.keys).map (hashAt hasher leaves)⟩

section ToFlat

variable (hasher) {m : Map Nat Leaf} (readOperations : List TreeOperation)
  (hm : ∀ (i : Nat) (leaf : Leaf), m[i]? = some leaf → leaves[i]? = some leaf)
include hm

omit [DecidableEq H] in
theorem lt_of_mem_keys : ∀ i ∈ m.keys, i < leaves.length := fun i hi => by
  obtain ⟨leaf, hget⟩ := mem_keys.mp hi
  exact (List.getElem?_eq_some_iff.mp (hm i leaf hget)).1

omit [DecidableEq H] in
theorem siblingHashes_eq (hfits : leaves.length ≤ 2 ^ treeDepth) :
    (proofOf hasher leaves treeDepth readOperations m).siblingHashes hasher treeDepth leaves.length =
      .ok ((siblingLocations treeDepth 0 (leaves.length - 1) m.keys).map (located hasher leaves)) := by
  rw [siblingHashes]
  by_cases hempty : m.isEmpty = true
  · rw [keys_eq_nil.mpr hempty, siblingLocations_nil]
    exact if_pos hempty
  · have hkeys : m.toList.map Prod.fst = m.keys := Std.ExtTreeMap.map_fst_toList_eq_keys
    have hfirst : ∃ i ∈ m.toList.map Prod.fst, i < 2 ^ treeDepth := by
      obtain ⟨i, hi⟩ := exists_mem_of_ne_nil m.keys fun h0 => hempty (keys_eq_nil.mp h0)
      exact ⟨i, hkeys ▸ hi, (lt_of_mem_keys hm i hi).trans_le hfits⟩
    have hfold := @zipLeaves_eq _ hasher leaves m.toList treeDepth (by rw [hkeys]; exact keys_pairwise m)
      (fun x hx => hm x.1 x.2 (mem_toList.mp hx)) hfirst
    rw [hkeys] at hfold
    simp only [proofOf, if_neg hempty, hfold]
    rfl

theorem toFlat_eq {b : Nat} (hlen : 2 ≤ leaves.length) (hb : leaves.length ≤ 2 ^ b) (hdepth : b < treeDepth) :
    ∃ (top : Nat) (proofEntries : Map Nat (StorageSlotProofEntry H)), top < treeDepth ∧
      (leaves.length - 1) / 2 ^ top = 0 ∧ (∀ (i : Nat) (leaf : Leaf), m[i]? = some leaf →
        proofEntries[i]? = some (entryAt hasher leaves top (i, leaf)).entry) ∧
      (proofOf hasher leaves treeDepth readOperations m).toFlat hasher treeDepth leaves.length =
        readOperations.mapM ((proofOf hasher leaves treeDepth readOperations m).flatProof proofEntries) := by
  have hkeys : m.toList.map Prod.fst = m.keys := Std.ExtTreeMap.map_fst_toList_eq_keys
  have hpos : 0 < b := by
    by_contra h0
    rw [show b = 0 by omega] at hb
    omega
  have hentries : (m.toList.map fun x => PathEntry.mk x.1 ⟨x.1, x.2.value, x.2.nextIndex, ([] : List H)⟩) =
      m.toList.map (entryAt hasher leaves 0) := by
    refine map_congr_left fun x _ => ?_
    rw [entryAt, Nat.pow_zero, Nat.div_one]
    rfl
  have hvisits : Stutter m.keys (m.toList.map fun x => x.1 / 2 ^ 0) := by
    simp only [Nat.pow_zero, Nat.div_one]
    exact hkeys ▸ .refl _
  have hcursor : CursorAt hasher leaves (siblingLocations treeDepth 0 ((leaves.length - 1) / 2 ^ 0) m.keys)
      ((siblingLocations treeDepth 0 (leaves.length - 1) m.keys).map (located hasher leaves)) := by
    rw [Nat.pow_zero, Nat.div_one]
    exact .start
  have hlast : ∀ i ∈ m.keys, i ≤ (leaves.length - 1) / 2 ^ 0 := fun i hi => by
    have := lt_of_mem_keys hm i hi
    rw [Nat.pow_zero, Nat.div_one]
    omega
  obtain ⟨top, htop, hzero, hlevels⟩ := flatLevels_eq hb (by omega) hpos (by omega) (keys_pairwise m) hlast
    hvisits hcursor
  rw [Nat.pow_zero, Nat.div_one, ← hentries] at hlevels
  have hdistinct : ((m.toList.map (entryAt hasher leaves top)).map fun e => (e.entry.index, e.entry)).Pairwise
      fun a b => a.1 ≠ b.1 := by
    rw [map_map, pairwise_map]
    exact (pairwise_toList m).imp fun h => h.ne
  refine ⟨top, .ofList ((m.toList.map (entryAt hasher leaves top)).map fun e => (e.entry.index, e.entry)),
    htop.trans_lt hdepth, hzero, fun i leaf hget => ?_, ?_⟩
  · rw [getElem?_ofList hdistinct, map_map]
    exact mem_map.mpr ⟨(i, leaf), mem_toList.mpr hget, rfl⟩
  · have hsiblings := siblingHashes_eq hasher readOperations hm
      (hb.trans (Nat.pow_le_pow_right (by omega) hdepth.le))
    rw [toFlat, hsiblings]
    simp only [assert, proofOf, isEmpty_nil, if_true, ok_bind, if_pos (show 0 < leaves.length by omega)]
    rw [hlevels]
    rfl

end ToFlat

omit [DecidableEq H] in
theorem flatProof_miss {proof : BatchTreeProof H} {proofEntries : Map Nat (StorageSlotProofEntry H)} {prevIndex : Nat}
    {prevEntry nextEntry : StorageSlotProofEntry H} {prevLeaf nextLeaf : Leaf}
    (hprev : proofEntries[prevIndex]? = some prevEntry) (hprevLeaf : proof.sortedLeaves[prevIndex]? = some prevLeaf)
    (hnext : proofEntries[prevEntry.nextIndex]? = some nextEntry)
    (hnextLeaf : proof.sortedLeaves[prevEntry.nextIndex]? = some nextLeaf) :
    proof.flatProof proofEntries (.miss prevIndex) =
      .ok (.nonExisting ⟨prevEntry, prevLeaf.key⟩ ⟨nextEntry, nextLeaf.key⟩) := by
  simp only [flatProof, hprev, hprevLeaf, hnext, hnextLeaf, expect, ok_bind]
  rfl

theorem verify_nonExisting_eq_ok {left right : StorageSlotProofEntryWithKey H} {k : B256} {root : H} :
    (InnerStorageSlotProof.nonExisting left right).verify hasher treeDepth k = .ok root ↔
      left.leafKey < k ∧ k < right.leafKey ∧ left.inner.nextIndex = right.inner.index ∧
      left.hash hasher treeDepth = .ok root ∧ right.hash hasher treeDepth = .ok root := by
  simp only [InnerStorageSlotProof.verify, bind_eq_ok, ensure_eq_ok, pure_eq_ok]
  constructor
  · rintro ⟨_, hlt, _, hgt, _, hlink, l, hl, r, hr, _, rfl, rfl⟩
    exact ⟨hlt, hgt, hlink, hl, hr⟩
  · rintro ⟨hlt, hgt, hlink, hl, hr⟩
    exact ⟨(), hlt, (), hgt, (), hlink, root, hl, root, hr, (), rfl, rfl⟩

theorem flatProof_verifies {c : Contents} {k : B256} {m : Map Nat Leaf}
    {proofEntries : Map Nat (StorageSlotProofEntry H)} {proof : BatchTreeProof H} (hproof : proof.sortedLeaves = m)
    (hrev : ∀ i ∈ (c.lookup k).indices, m[i]? = c.leaves[i]?) (hentries : ∀ (i : Nat) (leaf : Leaf), m[i]? = some leaf →
      proofEntries[i]? = some (entryAt hasher c.leaves top (i, leaf)).entry)
    (htop : top < treeDepth) (hlast : (c.leaves.length - 1) / 2 ^ top = 0) :
    ∃ p, proof.flatProof proofEntries (c.lookup k).operation = .ok p ∧
      p.verify hasher treeDepth k = .ok (c.root hasher treeDepth) ∧ (StorageSlotProof.mk k p).value = c.value? k := by
  have hhash : ∀ {i : Nat} {leaf : Leaf}, c.leaves[i]? = some leaf →
      (entryAt hasher c.leaves top (i, leaf)).entry.hash hasher treeDepth leaf.key = .ok (c.root hasher treeDepth) :=
    fun {i leaf} hleaf => hash_entryAt (x := (i, leaf)) hleaf htop hlast
  by_cases hk : k ∈ c.keys
  · rw [lookup_of_mem hk] at hrev ⊢
    obtain ⟨leaf, hleaf, rfl⟩ := exists_leaf_of_mem hk
    have hget := (hrev _ (by simp [KeyLookup.indices])).trans hleaf
    refine ⟨.existing (entryAt hasher c.leaves top (_, leaf)).entry, ?_, hhash hleaf, ?_⟩
    · rw [KeyLookup.operation, flatProof, hentries _ _ hget]
      rfl
    · rw [value?_of_getElem? hleaf]
      rfl
  · obtain ⟨p, n, hp, hn, hlookup⟩ := lookup_of_not_mem hk
    rw [hlookup] at hrev ⊢
    obtain ⟨prev, hprev, rfl⟩ := exists_leaf_of_mem hp.mem
    obtain ⟨next, hnext, rfl⟩ := exists_leaf_of_mem hn.mem
    have hlink : prev.nextIndex = c.keys.idxOf next.key :=
      (nextIndex_of_getElem?_leaves hprev).2.trans (nextIndex_of_isNext (IsPrev.isNext hk hp hn))
    have hgetp := (hrev _ (by simp [KeyLookup.indices])).trans hprev
    have hgetn := (hrev _ (by simp [KeyLookup.indices])).trans hnext
    refine ⟨.nonExisting ⟨(entryAt hasher c.leaves top (c.keys.idxOf prev.key, prev)).entry, prev.key⟩
      ⟨(entryAt hasher c.leaves top (c.keys.idxOf next.key, next)).entry, next.key⟩, ?_, ?_, ?_⟩
    · have hgetn' : m[prev.nextIndex]? = some next := hlink ▸ hgetn
      exact flatProof_miss (hentries _ _ hgetp) (hproof ▸ hgetp) (hlink ▸ hentries _ _ hgetn') (hproof ▸ hgetn')
    · exact verify_nonExisting_eq_ok.mpr ⟨hp.lt, hn.lt, hlink, hhash hprev, hhash hnext⟩
    · rw [value?_eq_none.mpr hk]
      rfl

end Complete

section Prove

variable [Database DB H] {P : TreeParams} {nodes : NodeKey → Option (Node H)} {c : Contents} {root : Root H} {db : DB}
  {v : Nat}

theorem Serves.createPatch_reads (hs : Serves P hasher nodes c root db v) (hv : v + 1 < u64Bound) (keys : List B256) :
    ∃ w u, createPatch P db v ([] : List TreeEntry) keys = .ok (w, u) := by
  have hcount : root.leafCount = c.entries.length := hs.tree.1.trans c.length_leaves
  have ht : touchEntries (v + 1)
      ((([] : List TreeEntry).map fun e => c.lookup (AsEntry.asEntry e).key).zip ([] : List TreeEntry))
      ⟨∅, c.entries.length, ∅⟩ = .ok ⟨∅, c.entries.length, ∅⟩ := rfl
  obtain ⟨hI, -, hlt⟩ := loadIndices ht (I := (touchReads (keys.map c.lookup) _).distinctIndices.toList) rfl
  obtain ⟨w, hload, -⟩ := loadNodes_ok hs.tree hI hlt
  rw [createPatch, hs.root]
  simp only [writtenIndices] at hload
  simp only [ok_bind, hs.indices, hcount, map_nil, nil_append, zip_nil_right, touchEntries,
    length_nil, drop_zero, zip_nil_left, filterMap_nil, hload hs.reads, ensure, assert, if_pos hv,
    Std.ExtTreeMap.size_empty, if_true]
  exact ⟨w, _, rfl⟩

theorem Serves.prove (hs : Serves P hasher nodes c root db v) (hv : v + 1 < u64Bound) (keys : List B256) :
    ∃ m : Map Nat Leaf, prove P hasher db v keys =
        .ok (some (proofOf hasher c.leaves P.treeDepth (keys.map fun k => (c.lookup k).operation) m,
          c.output hasher P.treeDepth)) ∧ (∀ (i : Nat) (leaf : Leaf), m[i]? = some leaf → c.leaves[i]? = some leaf) ∧
      ∀ k ∈ keys, ∀ i ∈ (c.lookup k).indices, m[i]? = c.leaves[i]? := by
  obtain ⟨w, u, hpatch⟩ := hs.createPatch_reads hv keys
  obtain ⟨I, J, hp⟩ := createPatch_eq_ok hs hpatch
  have hI : ∀ i ∈ I, i < c.leaves.length := fun i hi => by
    rw [length_leaves]
    exact ((hp.mem i).mp hi).elim WrittenAt.lt ReadAt.lt
  refine ⟨w.leaves, ?_, fun i leaf hget => ?_, fun k hk i hi => ?_⟩
  · have hroot := hs.rootInfo
    simp only [MerkleTree.rootInfo, hs.root, ok_bind] at hroot
    obtain ⟨hash, hhash, hroot⟩ := bind_eq_ok.mp hroot
    have hproof := hp.loaded.createBatchProof hI [] u.readOperations
    rw [hp.readOperations] at hproof
    obtain ⟨rfl, hcount⟩ := Prod.mk.inj (Option.some.inj (pure_eq_ok.mp hroot))
    simp only [MerkleTree.prove, hs.root, hhash, ok_bind, hpatch, hproof, hcount, hp.readOperations]
    rfl
  · rw [hp.loaded.leaves i] at hget
    split at hget
    · exact hget
    · cases hget
  · rw [hp.loaded.leaves i, if_pos ((hp.mem i).mpr (.inr ⟨k, hk, hi⟩))]

omit [Database DB H] in
theorem forall₂_zip {R : InnerStorageSlotProof H → B256 → Prop} {ps : List (InnerStorageSlotProof H)}
    {keys : List B256} (h : List.Forall₂ R ps keys) :
    List.Forall₂ (fun proof key => proof.key = key ∧ R proof.proof proof.key)
      ((ps.zip keys).map fun x => StorageSlotProof.mk x.2 x.1) keys := by
  induction h with
  | nil => exact .nil
  | cons hR _ ih => exact .cons ⟨rfl, hR⟩ ih

theorem Serves.proveFlat [DecidableEq H] (hs : Serves P hasher nodes c root db v) (hv : v + 1 < u64Bound)
    (hcap : c.entries.length ≤ 2 ^ (P.treeDepth - 1)) (keys : List B256) :
    ∃ proofs, proveFlat P hasher db v keys = .ok (some (proofs, c.output hasher P.treeDepth)) ∧
      List.Forall₂ (fun proof key => proof.key = key ∧
        proof.verify hasher P.treeDepth = .ok (c.root hasher P.treeDepth) ∧ proof.value = c.value? proof.key)
          proofs keys := by
  obtain ⟨m, hprove, hm, hrev⟩ := hs.prove hv keys
  have hlen : 2 ≤ c.leaves.length := by
    rw [length_leaves]
    exact c.two_le_length
  obtain ⟨top, proofEntries, htop, hlast, hentries, hflat⟩ := toFlat_eq hasher
    (keys.map fun k => (c.lookup k).operation) hm hlen (by rwa [length_leaves])
    (Nat.sub_lt P.treeDepth_pos one_pos)
  have hproofs : ∀ k ∈ keys, ∃ p, (proofOf hasher c.leaves P.treeDepth (keys.map fun k => (c.lookup k).operation)
      m).flatProof proofEntries (c.lookup k).operation = .ok p ∧
      p.verify hasher P.treeDepth k = .ok (c.root hasher P.treeDepth) ∧ (StorageSlotProof.mk k p).value = c.value? k :=
    fun k hk => flatProof_verifies rfl (hrev k hk) hentries htop hlast
  obtain ⟨ps, hps, hall⟩ := exists_mapM_forall₂ hproofs
  rw [mapM_map, length_leaves] at hflat
  refine ⟨_, ?_, forall₂_zip hall⟩
  simp only [MerkleTree.proveFlat, hprove, ok_bind, Contents.output, hflat.trans hps]
  rfl

end Prove

/-- In every tree reached from `init`, the flat proofs of keys of an existing
version are accepted with its root hash and show the values of the keys. -/
def FlatProofsVerify [Database DB H] [Inhabited H] [DecidableEq H] (P : TreeParams) (hasher : HashTree H) (init : DB) :
    Prop :=
  ∀ (calls : List Call) (db : DB) (latest v : Nat) (root : H) (leafCount : Nat) (keys : List B256),
    db = run P hasher calls init → latestVersion db = .ok (some latest) → v ≤ latest →
    rootInfo P hasher db v = .ok (some (root, leafCount)) → leafCount ≤ 2 ^ (P.treeDepth - 1) →
    ∃ proofs, proveFlat P hasher db v keys = .ok (some (proofs, ⟨root, leafCount⟩)) ∧
      List.Forall₂ (fun proof key => proof.key = key ∧ proof.verify hasher P.treeDepth = .ok root ∧
        readValue P db v key = .ok proof.value) proofs keys

theorem Reached.flatProofsVerify [Database DB H] [LawfulDatabase DB H] [Inhabited H] [DecidableEq H] {P : TreeParams}
    {init : DB} (hinit : Reached P hasher init []) : FlatProofsVerify P hasher init := by
  rintro calls db latest v root leafCount keys rfl hl hv hinfo hcap
  obtain ⟨hist, hr, -⟩ := hinit.run calls
  have hlt : v < hist.length := hr.holds.lt_of_le_latest hl hv
  obtain ⟨_, hs⟩ := hr.holds.serves v hist[v] (getElem?_eq_getElem hlt)
  cases hs.rootInfo.symm.trans hinfo
  obtain ⟨proofs, hflat, hproofs⟩ := hs.proveFlat ((Nat.succ_le_of_lt hlt).trans_lt hr.bound) hcap keys
  refine ⟨proofs, hflat, hproofs.imp fun proof key h => ⟨h.1, h.2.1, ?_⟩⟩
  rw [hs.readValue, h.2.2, h.1]

/-- Flat proofs are complete. -/
theorem proveFlat_verifies [Inhabited H] [DecidableEq H] (P : TreeParams) (hasher : HashTree H) :
    FlatProofsVerify P hasher (PatchSet.empty : PatchSet H) ∧
      FlatProofsVerify P hasher (RocksDBWrapper.empty : RocksDBWrapper H) :=
  ⟨Reached.patchSet.flatProofsVerify, Reached.rocksdb.flatProofsVerify⟩

theorem proveFlat_verifies_small : ∃ (root : Digest) (proofs : List (StorageSlotProof Digest)),
    proveFlat .small Digest.hasher (run .small Digest.hasher [.extend [⟨5, 1⟩], .extend [⟨7, 1⟩], .extend [⟨5, 2⟩]]
      (RocksDBWrapper.empty : RocksDBWrapper Digest)) 1 [5, 6, 5] = .ok (some (proofs, ⟨root, 4⟩)) ∧
    List.Forall₂ (fun proof key => proof.key = key ∧ proof.verify Digest.hasher 3 = .ok root) proofs [5, 6, 5] := by
  have hinfo : ((rootInfo .small Digest.hasher (run .small Digest.hasher
      [.extend [⟨5, 1⟩], .extend [⟨7, 1⟩], .extend [⟨5, 2⟩]] (RocksDBWrapper.empty : RocksDBWrapper Digest)) 1).map
      (Option.map Prod.snd)) = .ok (some 4) := by decide +kernel
  obtain ⟨info, hroot, hinfo⟩ := map_eq_ok.mp hinfo
  obtain ⟨⟨root, leafCount⟩, rfl, rfl⟩ := Option.map_eq_some_iff.mp hinfo
  obtain ⟨proofs, hproofs, hall⟩ := (proveFlat_verifies .small Digest.hasher).2 _ _ 2 1 _ _ [5, 6, 5] rfl
    (by decide +kernel) (by decide) hroot (by decide)
  exact ⟨root, proofs, hproofs, hall.imp fun proof key h => ⟨h.1, h.2.1⟩⟩

/-! ### Soundness -/

theorem leaf_of_subtreeHash (hleaf : Function.Injective hasher.hashLeaf)
    (hzero : hasher.emptySubtreeHash 0 = hasher.hashLeaf .zero) {i : Nat} {leaf : Leaf}
    (h : hasher.hashLeaf leaf = subtreeHash hasher leaves 0 i) :
    leaves[i]? = some leaf ∨ leaves.length ≤ i ∧ leaf = .zero := by
  cases hget : leaves[i]? with
  | some leaf' =>
    rw [subtreeHash_zero hget] at h
    exact .inl (by rw [hleaf h])
  | none =>
    have hle : leaves.length ≤ i := getElem?_eq_none_iff.mp hget
    rw [subtreeHash_of_le (by simpa using hle), hzero] at h
    exact .inr ⟨hle, hleaf h⟩

theorem leaf_of_hash (hbr : Function.Injective2 hasher.hashBranch) (hleaf : Function.Injective hasher.hashLeaf)
    (hzero : hasher.emptySubtreeHash 0 = hasher.hashLeaf .zero) {entry : StorageSlotProofEntry H} {treeDepth : Nat}
    {leafKey : B256} (h : entry.hash hasher treeDepth leafKey = .ok (subtreeHash hasher leaves treeDepth 0)) :
    leaves[entry.index % 2 ^ treeDepth]? = some ⟨leafKey, entry.value, entry.nextIndex⟩ ∨
      leaves.length ≤ entry.index % 2 ^ treeDepth ∧ (⟨leafKey, entry.value, entry.nextIndex⟩ : Leaf) = .zero := by
  rw [StorageSlotProofEntry.hash] at h
  obtain ⟨_, -, h⟩ := bind_eq_ok.mp h
  have hroot : _ = subtreeHash hasher leaves (0 + treeDepth) 0 := (pure_eq_ok.mp h).trans (by rw [Nat.zero_add])
  have hpath := foldPath_inv hbr hroot
  rw [Nat.zero_mul, Nat.zero_add] at hpath
  exact leaf_of_subtreeHash hleaf hzero hpath

theorem value?_of_neighbors (hbr : Function.Injective2 hasher.hashBranch) (hleaf : Function.Injective hasher.hashLeaf)
    (hzero : hasher.emptySubtreeHash 0 = hasher.hashLeaf .zero) {c : Contents} {treeDepth : Nat} {k : B256}
    {left right : StorageSlotProofEntryWithKey H} (hcap : c.entries.length ≤ 2 ^ treeDepth)
    (hlt : left.leafKey < k) (hgt : k < right.leafKey) (hlink : left.inner.nextIndex = right.inner.index)
    (hl : left.hash hasher treeDepth = .ok (c.root hasher treeDepth))
    (hr : right.hash hasher treeDepth = .ok (c.root hasher treeDepth)) : c.value? k = none := by
  have hright := leaf_of_hash hbr hleaf hzero hr
  rw [← hlink] at hright
  -- The link leads to a leaf of the tree, so the right neighbour is that leaf.
  have hnext : left.inner.nextIndex < c.leaves.length →
      c.leaves[left.inner.nextIndex]? = some ⟨right.leafKey, right.inner.value, right.inner.nextIndex⟩ := by
    intro hin
    rw [length_leaves] at hin
    rw [Nat.mod_eq_of_lt (hin.trans_le hcap), length_leaves] at hright
    exact hright.resolve_right fun h => by omega
  rcases leaf_of_hash hbr hleaf hzero hl with hget | ⟨-, hempty⟩
  · obtain ⟨n, hn⟩ := c.exists_isNext (k := left.leafKey) fun he => absurd hlt (he ▸ not_top_lt)
    have hidx : left.inner.nextIndex = c.keys.idxOf n :=
      (nextIndex_of_getElem?_leaves hget).2.trans (nextIndex_of_isNext hn)
    have hlookup := lookup_of_gap hget (hnext (by rw [hidx, length_leaves]; exact c.idxOf_lt hn.mem)) hlt hgt
    refine value?_eq_none.mpr fun hk => ?_
    rw [lookup_of_mem hk] at hlookup
    cases hlookup
  · -- An empty position links to the least key, which is not above any key.
    have hidx : left.inner.nextIndex = 0 := congrArg Leaf.nextIndex hempty
    have hfirst := hnext (by have := c.two_le_length; rw [hidx, length_leaves]; omega)
    have hkey := (nextIndex_of_getElem?_leaves hfirst).1
    rw [hidx, c.keys_zero] at hkey
    have hbot : ⊥ = right.leafKey := Option.some.inj hkey
    exact absurd hgt (hbot ▸ not_lt_bot)

/-- An accepted flat proof shows what the tree holds. -/
theorem verify_flat_sound [DecidableEq H] (hashLeaf : Leaf → H) (hashBranch : H → H → H)
    (hleaf : Function.Injective hashLeaf) (hbr : Function.Injective2 hashBranch) (treeDepth : Nat) (c : Contents)
    (hcap : c.entries.length ≤ 2 ^ treeDepth) (k : B256) (hbot : ⊥ < k) (p : InnerStorageSlotProof H)
    (h : p.verify (.blake2 hashLeaf hashBranch) treeDepth k = .ok (c.root (.blake2 hashLeaf hashBranch) treeDepth)) :
    (∃ entry, p = .existing entry ∧ c.value? k = some entry.value) ∨
      (∃ left right, p = .nonExisting left right ∧ c.value? k = none) := by
  cases p with
  | existing entry =>
    refine .inl ⟨entry, rfl, ?_⟩
    rcases leaf_of_hash hbr hleaf rfl h with hget | ⟨-, hempty⟩
    · exact value?_of_getElem? hget
    · have hkey : k = ⊥ := congrArg Leaf.key hempty
      exact absurd hbot (hkey ▸ lt_irrefl _)
  | nonExisting left right =>
    obtain ⟨hlt, hgt, hlink, hl, hr⟩ := verify_nonExisting_eq_ok.mp h
    exact .inr ⟨left, right, rfl, value?_of_neighbors hbr hleaf rfl hcap hlt hgt hlink hl hr⟩

theorem verify_flat_sound_five : (Contents.empty.upsertAll [⟨5, 1⟩]).value? 5 = some 1 := by
  have hsound := verify_flat_sound Digest.leaf Digest.branch Digest.hashLeaf_injective Digest.hashBranch_injective 3
    (Contents.empty.upsertAll [⟨5, 1⟩]) (by decide +kernel) 5 (by decide)
    (.existing ⟨2, 1, 1, [.leaf .zero, .branch (.leaf ⟨⊥, 0, 2⟩) (.leaf ⟨⊤, 0, 1⟩)]⟩) (by decide +kernel)
  rcases hsound with ⟨entry, he, hvalue⟩ | ⟨left, right, he, -⟩
  · cases he
    exact hvalue
  · cases he

end MerkleTree
