import ZksyncOsServer.MerkleTree.Verification

/-!
# Soundness of batch proofs

Without collisions, a proof that restores the root of a tree reveals leaves of
that tree and hashes of its subtrees. Reads are then sound. An update folds the
same hashes a second time, over the grown tree, and is sound exactly if both
folds consume every hash at the same location.
-/
namespace MerkleTree

open BinaryMerkle Contents Fallible LevelWalk List Digest

variable {H : Type} {hasher : HashTree H} {treeDepth : Nat} {c : Contents} {es : List TreeEntry}
  {hashes : List H} {siblings : List (SiblingHash H)} {R : List Nat}

/-! ### Binding -/

theorem ne_nil_of_zipLeaves {leafCount : Nat} {L : List (Nat × Leaf)} {result : H × List (SiblingHash H)}
    (h : zipLeaves hasher treeDepth leafCount L hashes = .ok result) : L ≠ [] := by
  rintro rfl
  rw [zipLeaves] at h
  obtain ⟨_, h, -⟩ := bind_eq_ok.mp h
  simp at h

theorem keys_ne_nil_of_zipLeaves {leafCount : Nat} {m : Map Nat Leaf} {result : H × List (SiblingHash H)}
    (h : zipLeaves hasher treeDepth leafCount m.toList hashes = .ok result) : m.keys ≠ [] := by
  rw [← Std.ExtTreeMap.map_fst_toList_eq_keys]
  exact fun h0 => ne_nil_of_zipLeaves h (map_eq_nil_iff.mp h0)

theorem eq_map_of_forall₂ {α β : Type} {q : α → Prop} {f : α → β} {as : List α} {bs : List β}
    (h : List.Forall₂ (fun a b => q a → b = f a) as bs) (hq : ∀ a ∈ as, q a) : bs = as.map f := by
  induction h with
  | nil => rfl
  | cons hab _ ih =>
    obtain ⟨ha, has⟩ := forall_mem_cons.mp hq
    rw [map_cons, hab ha, ih has]

theorem div_eq_zero_of_mem_locations {n : Nat} (hs : R.Pairwise (· < ·)) (hR : ∀ i ∈ R, i < n)
    (hcap : n ≤ 2 ^ treeDepth) {x : Nat × Nat} (hx : x ∈ locations treeDepth 0 (n - 1) R) :
    x.2 / 2 ^ (treeDepth - x.1) = 0 := by
  obtain ⟨hd, hle, -, i, hi, -⟩ := (mem_locations_zero hs hR x.1 x.2).mp hx
  have hpos : 0 < n := (Nat.zero_le i).trans_lt (hR i hi)
  refine Nat.div_eq_of_lt (hle.trans_lt (Nat.div_lt_of_lt_mul ?_))
  rw [← Nat.pow_add, Nat.add_sub_cancel' hd.le]
  omega

theorem binding (hleaf : Function.Injective hasher.hashLeaf) (hbr : Function.Injective2 hasher.hashBranch)
    (hcap : c.entries.length ≤ 2 ^ treeDepth) {m : Map Nat Leaf} (hlt : ∀ i ∈ m.keys, i < c.entries.length)
    (h : zipLeaves hasher treeDepth c.entries.length m.toList hashes = .ok (c.root hasher treeDepth, siblings)) :
    LeavesAre c.leaves m.keys m ∧
      hashes = (locations treeDepth 0 (c.entries.length - 1) m.keys).map (hashAt hasher c.leaves) := by
  have hkeys : m.toList.map Prod.fst = m.keys := Std.ExtTreeMap.map_fst_toList_eq_keys
  have hs := SortedMap.keys_pairwise m
  obtain ⟨i₀, hi₀⟩ := exists_mem_of_ne_nil _ (keys_ne_nil_of_zipLeaves h)
  obtain ⟨hleaves, hhashes⟩ := zipLeaves_inv hbr (hkeys ▸ hs) ⟨i₀, hkeys ▸ hi₀, (hlt i₀ hi₀).trans_le hcap⟩ h
  rw [hkeys] at hhashes
  refine ⟨fun i => ?_, ?_⟩
  · cases hget : m[i]? with
    | none =>
      rw [if_neg fun hi => ?_]
      obtain ⟨leaf, hleaf'⟩ := SortedMap.mem_keys.mp hi
      rw [hget] at hleaf'
      cases hleaf'
    | some leaf =>
      have hi : i ∈ m.keys := SortedMap.mem_keys.mpr ⟨leaf, hget⟩
      have hi' : i < c.leaves.length := by simpa using hlt i hi
      have hhash := hleaves (i, leaf) (Std.ExtTreeMap.mem_toList_iff_getElem?_eq_some.mpr hget)
        ((hlt i hi).trans_le hcap)
      rw [subtreeHash_zero (getElem?_eq_getElem hi')] at hhash
      rw [if_pos hi, getElem?_eq_getElem hi', ← hleaf hhash]
  · exact eq_map_of_forall₂ hhashes fun x hx => div_eq_zero_of_mem_locations hs hlt hcap hx

/-! ### The second fold -/

section
variable (hN : (c.freshKeys es).Nodup)
include hN

theorem length_le_upsertAll : c.entries.length ≤ (c.upsertAll es).entries.length := by
  rw [length_upsertAll hN]
  exact Nat.le_add_right _ _

theorem lt_of_mem_withNew (hR : ∀ i ∈ R, i < c.entries.length) :
    ∀ i ∈ c.expanded es R, i < (c.upsertAll es).entries.length := by
  intro i hi
  rcases (mem_withNew i).mp hi with hi | hi
  · exact (hR i hi).trans_le (length_le_upsertAll hN)
  · exact hi.2

theorem leaves_eq_of_not_mem_withNew (hrev : ∀ e ∈ es, ∀ i ∈ (c.lookup e.key).indices, i ∈ R) {i : Nat}
    (hi : i ∉ c.expanded es R) :
    c.leaves[i]? = (c.upsertAll es).leaves[i]? := by
  rw [mem_withNew, not_or] at hi
  rcases Nat.lt_or_ge i c.entries.length with hlt | hge
  · exact (getElem?_leaves_upsertAll_of_untouched hN hlt fun e he h => hi.1 (hrev e he i h)).symm
  · have hge' : (c.upsertAll es).entries.length ≤ i := by omega
    rw [getElem?_eq_none (by simpa using hge), getElem?_eq_none (by simpa using hge')]

theorem locations_eq_of_edgeKnown (hs : R.Pairwise (· < ·))
    (hR : ∀ i ∈ R, i < c.entries.length) (hedge : c.fresh es = [] ∨ EdgeKnown c.entries.length R) :
    locations treeDepth 0 (c.entries.length - 1) R = locations treeDepth 0
      ((c.upsertAll es).entries.length - 1) (c.expanded es R) := by
  by_cases hfresh : c.fresh es = []
  · simp [length_upsertAll hN, hfresh, withNew]
  · have hgrow : c.entries.length < (c.upsertAll es).entries.length := by
      have hpos := length_pos_iff.mpr hfresh
      rw [length_upsertAll hN]
      omega
    exact (locations_eq_iff hs (withNew_pairwise hs hR) _ _ _ _).mpr
      (mem_locations_withNew_iff hs hR hgrow (hedge.resolve_left hfresh))

/-- The hashes are right for the grown tree if both folds use the same locations. -/
theorem root_eq_of_locations_eq (hs : R.Pairwise (· < ·))
    (hR : ∀ i ∈ R, i < c.entries.length) (hfirst : ∃ i ∈ R, i < 2 ^ treeDepth)
    (hrev : ∀ e ∈ es, ∀ i ∈ (c.lookup e.key).indices, i ∈ R)
    (heq : locations treeDepth 0 (c.entries.length - 1) R = locations treeDepth 0
      ((c.upsertAll es).entries.length - 1) (c.expanded es R)) :
    zipLeaves hasher treeDepth (c.upsertAll es).entries.length (revealed (c.upsertAll es).leaves (c.expanded es R))
      ((locations treeDepth 0 (c.entries.length - 1) R).map (hashAt hasher c.leaves)) =
    .ok ((c.upsertAll es).root hasher treeDepth, (siblingLocations treeDepth 0
      ((c.upsertAll es).entries.length - 1) (c.expanded es R)).map
        fun x => ⟨hashAt hasher (c.upsertAll es).leaves x, x⟩) := by
  have hs' : (c.expanded es R).Pairwise (· < ·) := withNew_pairwise hs hR
  have hlt' := lt_of_mem_withNew hN hR
  obtain ⟨i₀, hi₀, hi₀'⟩ := hfirst
  have hfold := @zipLeaves_revealed _ hasher (c.upsertAll es).leaves treeDepth _ hs'
    (fun i hi => by simpa using hlt' i hi) ⟨i₀, (mem_withNew i₀).mpr (.inl hi₀), hi₀'⟩
  rw [length_leaves] at hfold
  have hsame : (locations treeDepth 0 (c.entries.length - 1) R).map (hashAt hasher c.leaves) =
      (locations treeDepth 0 ((c.upsertAll es).entries.length - 1)
        (c.expanded es R)).map (hashAt hasher (c.upsertAll es).leaves) := by
    rw [heq]
    refine map_congr_left fun x hx => subtreeHash_congr fun j hj => ?_
    refine leaves_eq_of_not_mem_withNew hN hrev fun hmem => ?_
    obtain ⟨-, -, hnot, -⟩ := (mem_locations_zero hs' hlt' x.1 x.2).mp hx
    exact hnot j hmem hj
  rw [hsame]
  exact hfold

end

theorem forall₂_eq_of_mem {α : Type} {r : α → α → Prop} {as bs : List α} (h : List.Forall₂ r as bs)
    (heq : ∀ a ∈ as, ∀ b ∈ bs, r a b → a = b) : as = bs := by
  induction h with
  | nil => rfl
  | cons hab _ ih =>
    rw [heq _ mem_cons_self _ mem_cons_self hab,
      ih fun a ha b hb => heq a (mem_cons_of_mem _ ha) b (mem_cons_of_mem _ hb)]

/-- Without collisions, equal subtrees of the old and the new tree that start at
old leaves are at the same location, since no key occurs twice. -/
theorem location_eq_of_hash_eq (hleaf : Function.Injective hasher.hashLeaf)
    (hbr : Function.Injective2 hasher.hashBranch) (hdisj : ∀ leaf x y, hasher.hashLeaf leaf ≠ hasher.hashBranch x y)
    (hN : (c.freshKeys es).Nodup) {x y : Nat × Nat} (hx : x.2 * 2 ^ x.1 < c.entries.length)
    (hy : y.2 * 2 ^ y.1 < c.entries.length)
    (h : hashAt hasher c.leaves y = hashAt hasher (c.upsertAll es).leaves x) : x = y := by
  have hx' : x.2 * 2 ^ x.1 < (c.upsertAll es).leaves.length := by
    rw [length_leaves]
    exact hx.trans_le (length_le_upsertAll hN)
  have hgy := getElem?_eq_getElem (show y.2 * 2 ^ y.1 < c.leaves.length by simpa using hy)
  have hgx := getElem?_eq_getElem hx'
  obtain ⟨hd, hhash⟩ := node_spine hbr hdisj (subtreeHash_zero hgy) (subtreeHash_zero hgx) h
  have hkx := (nextIndex_of_getElem?_leaves hgx).1
  have hky := (nextIndex_of_getElem?_leaves hgy).1
  rw [← hleaf hhash, getElem?_keys_iff] at hkx
  have hkeys : (c.upsertAll es).keys[y.2 * 2 ^ y.1]? = c.keys[y.2 * 2 ^ y.1]? := by
    rw [keys_upsertAll c es hN, getElem?_append_left (by simpa using hy)]
  rw [← hkeys, getElem?_keys_iff] at hky
  have hpos : x.2 * 2 ^ x.1 = y.2 * 2 ^ y.1 := hkx.2.symm.trans hky.2
  rw [hd] at hpos
  exact Prod.ext hd.symm (Nat.eq_of_mul_eq_mul_right (Nat.two_pow_pos _) hpos)

/-- If the hashes of the old tree fold to the root of the grown one, both folds
use the same locations. -/
theorem locations_eq_of_root_eq (hleaf : Function.Injective hasher.hashLeaf)
    (hbr : Function.Injective2 hasher.hashBranch) (hdisj : ∀ leaf x y, hasher.hashLeaf leaf ≠ hasher.hashBranch x y)
    (hN : (c.freshKeys es).Nodup) (hs : R.Pairwise (· < ·)) (hR : ∀ i ∈ R, i < c.entries.length)
    (hcap : c.entries.length ≤ 2 ^ treeDepth) (hne : R ≠ [])
    (hgrow : c.entries.length < (c.upsertAll es).entries.length)
    (h : zipLeaves hasher treeDepth (c.upsertAll es).entries.length (revealed (c.upsertAll es).leaves
        (c.expanded es R))
      ((locations treeDepth 0 (c.entries.length - 1) R).map (hashAt hasher c.leaves)) =
        .ok ((c.upsertAll es).root hasher treeDepth, siblings)) :
    locations treeDepth 0 ((c.upsertAll es).entries.length - 1)
      (c.expanded es R) =
    locations treeDepth 0 (c.entries.length - 1) R := by
  have hfst : (revealed (c.upsertAll es).leaves _).map Prod.fst = c.expanded es R :=
    map_fst_revealed fun i hi => by simpa using lt_of_mem_withNew hN hR i hi
  obtain ⟨i₀, hi₀⟩ := exists_mem_of_ne_nil _ hne
  obtain ⟨-, hused⟩ := zipLeaves_inv hbr (by rw [hfst]; exact withNew_pairwise hs hR)
    ⟨i₀, by rw [hfst]; exact (mem_withNew i₀).mpr (.inl hi₀), (hR i₀ hi₀).trans_le hcap⟩ h
  rw [hfst, forall₂_map_right_iff] at hused
  refine forall₂_eq_of_mem hused fun x hx y hy hxy => ?_
  have hx' : x.2 * 2 ^ x.1 < c.entries.length := lt_of_mem_locations_withNew hs hR hgrow hx
  obtain ⟨hd, -⟩ := (mem_locations_withNew hs hR hgrow x.1 x.2).mp hx
  have hpos : 0 < c.entries.length := (Nat.zero_le _).trans_lt hx'
  obtain ⟨-, hle, -⟩ := (mem_locations_zero hs hR y.1 y.2).mp hy
  have hy' : y.2 * 2 ^ y.1 < c.entries.length := by
    have := (Nat.le_div_iff_mul_le (Nat.two_pow_pos y.1)).mp hle
    omega
  refine location_eq_of_hash_eq hleaf hbr hdisj hN hx' hy' (hxy (Nat.div_eq_of_lt ?_))
  refine Nat.lt_of_mul_lt_mul_right (a := 2 ^ x.1) ?_
  rw [← Nat.pow_add, Nat.sub_add_cancel hd.le]
  exact hx'.trans_le hcap

/-! ### Accepted proofs -/

variable {proof : BatchTreeProof H} {readKeys : List B256} {view : MerkleTreeView H}

theorem zipLeaves_of_verifyRoots [DecidableEq H] {prevOutput : TreeBatchOutput H} {root : H}
    (h : proof.verifyRoots hasher treeDepth prevOutput es = .ok root) :
    ∃ s, zipLeaves hasher treeDepth prevOutput.leafCount proof.sortedLeaves.toList proof.hashes =
      .ok (prevOutput.rootHash, s) := by
  rw [BatchTreeProof.verifyRoots] at h
  obtain ⟨⟨indexByKey, next⟩, -, h⟩ := bind_eq_ok.mp h
  obtain ⟨⟨restored, s⟩, hzip, h⟩ := bind_eq_ok.mp h
  obtain ⟨_, hroot, -⟩ := bind_eq_ok.mp h
  obtain rfl : restored = prevOutput.rootHash := ensure_eq_ok.mp hroot
  exact ⟨s, hzip⟩

/-- What is known of a proof that was accepted against the output of a tree. -/
structure Verified (hasher : HashTree H) (treeDepth : Nat) (c : Contents) (es : List TreeEntry)
    (proof : BatchTreeProof H) (root : H) : Prop where
  lt : ∀ i ∈ proof.sortedLeaves.keys, i < c.entries.length
  ne_nil : proof.sortedLeaves.keys ≠ []
  leaves : LeavesAre c.leaves proof.sortedLeaves.keys proof.sortedLeaves
  revealed : ∀ e ∈ es, ∀ i ∈ (c.lookup e.key).indices, i ∈ proof.sortedLeaves.keys
  hashes : proof.hashes =
    (locations treeDepth 0 (c.entries.length - 1) proof.sortedLeaves.keys).map (hashAt hasher c.leaves)
  fold : ∃ s, zipLeaves hasher treeDepth (c.upsertAll es).entries.length (MerkleTree.revealed (c.upsertAll es).leaves
    (withNew proof.sortedLeaves.keys c.entries.length (c.upsertAll es).entries.length)) proof.hashes = .ok (root, s)

theorem verified_of_verify [DecidableEq H] (hleaf : Function.Injective hasher.hashLeaf)
    (hbr : Function.Injective2 hasher.hashBranch) (hcap : c.entries.length ≤ 2 ^ treeDepth)
    (hN : (c.freshKeys es).Nodup)
    (h : proof.verify hasher treeDepth (some (c.output hasher treeDepth)) es readKeys = .ok view) :
    (∀ k ∈ readKeys, view.readEntries[k]? = some (c.value? k)) ∧ (es = [] ∧ view.rootHash = c.root hasher treeDepth ∨
        Verified hasher treeDepth c es proof view.rootHash) := by
  obtain ⟨hops, hreads, hlt, ⟨rfl, rfl, rfl⟩ | ⟨-, hr, hroots⟩⟩ := verify_eq_ok.mp h
  · exact ⟨by simp, .inl ⟨rfl, rfl⟩⟩
  obtain ⟨s, hzip⟩ := zipLeaves_of_verifyRoots hroots
  obtain ⟨hm, hhashes⟩ := binding hleaf hbr hcap hlt hzip
  have hs := SortedMap.keys_pairwise proof.sortedLeaves
  obtain ⟨hp, -, -, hfold⟩ := (verifyRoots_eq_ok hm rfl hs hlt hN hops).mp hroots
  obtain ⟨-, hentries⟩ := (verifyReadOperations_eq_ok hm rfl).mp hr
  have hsnd : (proof.readOperations.zip readKeys).map Prod.snd = readKeys := map_snd_zip hreads.ge
  refine ⟨fun k hk => ?_, .inr ⟨hlt, keys_ne_nil_of_zipLeaves hzip, hm, fun e he i hi => ?_, hhashes, hfold⟩⟩
  · rw [← hentries, getElem?_readEntries, if_pos (by rw [hsnd]; exact hk)]
  · obtain ⟨x, hx, rfl⟩ : ∃ x ∈ proof.operations.zip es, x.2 = e := by
      rw [← mem_map, map_snd_zip hops.ge]
      exact he
    exact (hp x hx).2 i hi

namespace Verified

variable {root : H}

section
variable (hv : Verified hasher treeDepth c es proof root)
include hv

theorem root_eq (hcap : c.entries.length ≤ 2 ^ treeDepth) (hN : (c.freshKeys es).Nodup)
    (heq : locations treeDepth 0 (c.entries.length - 1) proof.sortedLeaves.keys =
      locations treeDepth 0 ((c.upsertAll es).entries.length - 1)
        (withNew proof.sortedLeaves.keys c.entries.length (c.upsertAll es).entries.length)) :
    root = (c.upsertAll es).root hasher treeDepth := by
  obtain ⟨s, hfold⟩ := hv.fold
  obtain ⟨i₀, hi₀⟩ := exists_mem_of_ne_nil _ hv.ne_nil
  rw [hv.hashes, root_eq_of_locations_eq hN (SortedMap.keys_pairwise _) hv.lt
    ⟨i₀, hi₀, (hv.lt i₀ hi₀).trans_le hcap⟩ hv.revealed heq] at hfold
  exact (Prod.mk.inj (Except.ok.inj hfold)).1.symm

theorem root_eq_of_forall_mem (hcap : c.entries.length ≤ 2 ^ treeDepth) (hmem : ∀ e ∈ es, e.key ∈ c.keys) :
    root = (c.upsertAll es).root hasher treeDepth := by
  have hfresh : c.fresh es = [] := filter_eq_nil_iff.mpr fun e he => by simpa using hmem e he
  have hN : (c.freshKeys es).Nodup := by simp [freshKeys, hfresh]
  exact hv.root_eq hcap hN (locations_eq_of_edgeKnown hN (SortedMap.keys_pairwise _) hv.lt (.inl hfresh))

theorem root_eq_iff (hleaf : Function.Injective hasher.hashLeaf)
    (hbr : Function.Injective2 hasher.hashBranch) (hdisj : ∀ leaf x y, hasher.hashLeaf leaf ≠ hasher.hashBranch x y)
    (hcap : c.entries.length ≤ 2 ^ treeDepth) (hN : (c.freshKeys es).Nodup) (hnew : ∃ e ∈ es, e.key ∉ c.keys) :
    root = (c.upsertAll es).root hasher treeDepth ↔ EdgeKnown c.entries.length proof.sortedLeaves.keys := by
  have hs := SortedMap.keys_pairwise proof.sortedLeaves
  have hgrow : c.entries.length < (c.upsertAll es).entries.length := by
    obtain ⟨e, he, hk⟩ := hnew
    have hpos : 0 < (c.fresh es).length :=
      length_pos_of_mem (mem_filter.mpr ⟨he, by simpa using hk⟩)
    rw [length_upsertAll hN]
    omega
  rw [← locations_withNew_eq_iff hs hv.lt hgrow hcap hv.ne_nil]
  refine ⟨fun h => ?_, hv.root_eq hcap hN⟩
  obtain ⟨s, hfold⟩ := hv.fold
  rw [hv.hashes, h] at hfold
  exact (locations_eq_of_root_eq hleaf hbr hdisj hN hs hv.lt hcap hv.ne_nil hgrow hfold).symm

end

end Verified

/-- Read proofs are sound: whatever `verify_reads` accepts against the output of
a tree has its root hash, and the read entries are the values of the tree. -/
theorem verifyReads_sound [DecidableEq H] (hleaf : Function.Injective hasher.hashLeaf)
    (hbr : Function.Injective2 hasher.hashBranch) (hcap : c.entries.length ≤ 2 ^ treeDepth)
    (h : proof.verifyReads hasher treeDepth (c.output hasher treeDepth) readKeys = .ok view) :
    view.rootHash = (c.output hasher treeDepth).rootHash ∧
      ∀ k ∈ readKeys, view.readEntries[k]? = some (c.value? k) := by
  obtain ⟨hreads, ⟨-, hroot⟩ | hv⟩ := verified_of_verify hleaf hbr hcap (by simp [freshKeys, fresh]) h
  · exact ⟨hroot, hreads⟩
  · exact ⟨hv.root_eq_of_forall_mem hcap (by simp), hreads⟩

/-- An accepted update proof gives the root of the extended tree and the values
before the update exactly if no entry is inserted or the proof reveals a leaf
below every subtree that the end of the old tree cuts. -/
theorem verify_sound_iff [DecidableEq H] (hleaf : Function.Injective hasher.hashLeaf)
    (hbr : Function.Injective2 hasher.hashBranch) (hdisj : ∀ leaf x y, hasher.hashLeaf leaf ≠ hasher.hashBranch x y)
    (hcap : c.entries.length ≤ 2 ^ treeDepth) (hkeys : (es.map TreeEntry.key).Nodup)
    (h : proof.verify hasher treeDepth (some (c.output hasher treeDepth)) es readKeys = .ok view) :
    (view.rootHash = (c.upsertAll es).root hasher treeDepth ∧
        ∀ k ∈ readKeys, view.readEntries[k]? = some (c.value? k)) ↔
      ((∀ e ∈ es, e.key ∈ c.keys) ∨ EdgeKnown c.entries.length proof.sortedLeaves.keys) := by
  have hN : (c.freshKeys es).Nodup := hkeys.sublist (filter_sublist.map _)
  obtain ⟨hreads, hroot⟩ := verified_of_verify hleaf hbr hcap hN h
  rw [and_iff_left hreads]
  by_cases hmem : ∀ e ∈ es, e.key ∈ c.keys
  · refine iff_of_true ?_ (.inl hmem)
    obtain ⟨rfl, hroot⟩ | hv := hroot
    · exact hroot
    · exact hv.root_eq_of_forall_mem hcap hmem
  · rw [or_iff_right hmem]
    simp only [not_forall, exists_prop] at hmem
    obtain ⟨rfl, -⟩ | hv := hroot
    · simp at hmem
    · exact hv.root_eq_iff hleaf hbr hdisj hcap hN hmem

/-! ### Proofs with a choice of revealed leaves -/

/-- Reveals the given leaves of a tree, with the hashes next to their paths. -/
def Digest.proofRevealing (c : Contents) (I : List Nat) (operations readOperations : List TreeOperation) :
    BatchTreeProof Digest where
  operations
  readOperations
  sortedLeaves := .ofList (revealed c.leaves I)
  hashes := (locations 3 0 (c.entries.length - 1) I).map (hashAt Digest.hasher c.leaves)

theorem Digest.hashLeaf_injective : Function.Injective Digest.hasher.hashLeaf := fun _ _ h => Digest.leaf.inj h

theorem Digest.hashBranch_injective : Function.Injective2 Digest.hasher.hashBranch :=
  fun _ _ _ _ h => Digest.branch.inj h

theorem Digest.hashLeaf_ne_hashBranch (leaf : Leaf) (x y : Digest) :
    Digest.hasher.hashLeaf leaf ≠ Digest.hasher.hashBranch x y :=
  fun h => Digest.noConfusion h

/-- Five leaves, the last of which is alone below its parent. -/
def Contents.five : Contents := Contents.empty.upsertAll [⟨10, 1⟩, ⟨20, 2⟩, ⟨30, 3⟩]

theorem verifyReads_sound_five : ∃ view,
    (Digest.proofRevealing .five [0, 2] [] [.hit 2, .miss 0]).verifyReads Digest.hasher 3
      (Contents.five.output Digest.hasher 3) [10, 5] = .ok view ∧
    ∀ k ∈ [10, 5], view.readEntries[k]? = some (Contents.five.value? k) := by
  have hok : ((proofRevealing .five [0, 2] [] [.hit 2, .miss 0]).verifyReads hasher 3
    (Contents.five.output hasher 3) [10, 5]).isOk = true := by decide +kernel
  obtain ⟨view, h⟩ := exists_of_isOk hok
  exact ⟨view, h, (verifyReads_sound hashLeaf_injective hashBranch_injective (by decide) h).2⟩

theorem verify_sound_iff_five : ∃ view, (Digest.proofRevealing .five [0, 2, 4] [.miss 0] []).verify Digest.hasher 3
      (some (Contents.five.output Digest.hasher 3)) [⟨5, 7⟩] [] = .ok view ∧
    view.rootHash = (Contents.five.upsertAll [⟨5, 7⟩]).root Digest.hasher 3 := by
  have hok : ((proofRevealing .five [0, 2, 4] [.miss 0] []).verify hasher 3
    (some (Contents.five.output hasher 3)) [⟨5, 7⟩] []).isOk = true := by decide +kernel
  have hedge : Contents.five.entries.length - 1 ∈
    (proofRevealing .five [0, 2, 4] [.miss 0] []).sortedLeaves.keys := by decide +kernel
  obtain ⟨view, h⟩ := exists_of_isOk hok
  exact ⟨view, h, ((verify_sound_iff hashLeaf_injective hashBranch_injective
    hashLeaf_ne_hashBranch (by decide) (by decide) h).mpr (.inr (edgeKnown_of_mem hedge))).1⟩

/-- With the last leaf hidden, the second fold consumes the hash of the subtree
above it as the hash of the leaf itself. -/
theorem verify_accepts_hidden_edge : ∃ view, (Digest.proofRevealing .five [0, 2] [.miss 0] []).verify Digest.hasher 3
      (some (Contents.five.output Digest.hasher 3)) [⟨5, 7⟩] [] = .ok view ∧
    view.rootHash ≠ (Contents.five.upsertAll [⟨5, 7⟩]).root Digest.hasher 3 := by
  have hok : ((proofRevealing .five [0, 2] [.miss 0] []).verify hasher 3
    (some (Contents.five.output hasher 3)) [⟨5, 7⟩] []).isOk = true := by decide +kernel
  obtain ⟨view, h⟩ := exists_of_isOk hok
  refine ⟨view, h, fun hroot => ?_⟩
  have hne : ((proofRevealing .five [0, 2] [.miss 0] []).verify hasher 3
    (some (Contents.five.output hasher 3)) [⟨5, 7⟩] []).toOption.map (·.rootHash) ≠
      some ((Contents.five.upsertAll [⟨5, 7⟩]).root hasher 3) := by decide +kernel
  rw [h] at hne
  exact hne (congrArg some hroot)

end MerkleTree
