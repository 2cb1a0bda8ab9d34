import ZksyncOsServer.Lib.BinaryMerkle
import ZksyncOsServer.Lib.LevelWalk
import ZksyncOsServer.MiniMerkleTree.Tree

/-!
# Trimmed trees stand for whole trees

Trimmed leaves survive only as the left siblings on the way to the first
untrimmed leaf. With that invariant the root and the paths computed from the
untrimmed leaves are those of the plain tree over all leaves, whatever was
pushed and trimmed before.
-/
namespace MiniMerkleTree

open BinaryMerkle Fallible List MiniMerkleTree.Tree
open LevelWalk (sibling)

variable {H : Type} {hasher : Hasher H} {leaves : List H}

/-! ### The plain tree -/

def emptyHash (hasher : Hasher H) (emptyLeaf : H) : Nat → H
  | 0 => emptyLeaf
  | depth + 1 => hasher.compress (emptyHash hasher emptyLeaf depth) (emptyHash hasher emptyLeaf depth)

def naiveNode (hasher : Hasher H) (emptyLeaf : H) (leaves : List H) (level i : Nat) : H :=
  node hasher.compress (row leaves emptyLeaf) level i

def naiveRoot (hasher : Hasher H) (emptyLeaf : H) (leaves : List H) (depth : Nat) : H :=
  naiveNode hasher emptyLeaf leaves depth 0

/-- Merkle path of a leaf, from the bottom of the tree up. -/
def naivePath (hasher : Hasher H) (emptyLeaf : H) (leaves : List H) (depth i : Nat) : List H :=
  (List.range depth).map fun level => naiveNode hasher emptyLeaf leaves level (sibling (i / 2 ^ level))

theorem climb_naivePath (hasher : Hasher H) (emptyLeaf : H) {depth i : Nat} (hi : i < leaves.length)
    (hfits : leaves.length ≤ 2 ^ depth) :
    climb hasher.compress leaves[i] i (naivePath hasher emptyLeaf leaves depth i) =
      naiveRoot hasher emptyLeaf leaves depth := by
  have hclimb := climb_siblings hasher.compress (row leaves emptyLeaf) 0 depth i
  rw [Nat.zero_add, Nat.pow_zero, Nat.div_one, node_zero, row_of_lt hi, ← range_eq_range',
    Nat.div_eq_of_lt (hi.trans_le hfits)] at hclimb
  exact hclimb

theorem getElem?_computeEmptyTreeHashes (emptyLeaf : H) {depth : Nat} (hd : depth ≤ maxTreeDepth) :
    (computeEmptyTreeHashes hasher emptyLeaf)[depth]? = some (emptyHash hasher emptyLeaf depth) := by
  have hiter : ∀ n : Nat, (fun hash => hasher.compress hash hash)^[n] emptyLeaf = emptyHash hasher emptyLeaf n := by
    intro n
    induction n with
    | zero => rfl
    | succ n ih => rw [Function.iterate_succ_apply', ih, emptyHash]
  rw [computeEmptyTreeHashes, getElem?_iterate _ _ _ _ (by omega), hiter]

theorem xor_one (i : Nat) : i ^^^ 1 = sibling i := by
  rw [sibling]
  split
  · exact Nat.xor_one_of_even (Nat.even_iff.mpr (by assumption))
  · exact Nat.xor_one_of_odd (Nat.odd_iff.mpr (by omega))

/-! ### One level -/

section Levels

variable {N : Nat → Nat → H} {level a e x : Nat} {side : Option Side}

/-- The nodes of a level from index `a` up to index `e`. -/
def segment (N : Nat → Nat → H) (level a e : Nat) : List H := (List.range' a (e - a)).map (N level)

@[simp] theorem length_segment : (segment N level a e).length = e - a := by simp [segment]

theorem getElem?_segment {i : Nat} (h : a + i < e) : (segment N level a e)[i]? = some (N level (a + i)) := by
  rw [segment, getElem?_map, getElem?_range' (by omega)]
  simp

theorem segment_cons (h : a < e) : segment N level a e = N level a :: segment N level (a + 1) e := by
  rw [segment, segment, show e - a = e - (a + 1) + 1 by omega, range'_succ]
  rfl

theorem segment_concat (h : a ≤ e) : segment N level a (e + 1) = segment N level a e ++ [N level e] := by
  rw [segment, segment, show e + 1 - a = e - a + 1 by omega, range'_concat, map_append]
  simp [show a + (e - a) = e by omega]

/-- What the path shows on a level. -/
def element (side : Option Side) (nodes : Nat → H) (x : Nat) : Option H :=
  match side with
  | some .left => if x % 2 = 0 then none else some (nodes (x - 1))
  | some .right => if x % 2 = 0 then some (nodes (x + 1)) else none
  | none => some (nodes (sibling x))

def sidePath (N : Nat → Nat → H) (side : Option Side) (level count x : Nat) : List (Option H) :=
  (List.range count).map fun j => element side (N (level + j)) (x / 2 ^ j)

theorem sidePath_succ (count : Nat) : sidePath N side level (count + 1) x =
    element side (N level) x :: sidePath N side (level + 1) count (x / 2) := by
  rw [sidePath, range_succ_eq_map, map_cons, map_map, sidePath]
  simp only [Nat.add_zero, Nat.pow_zero, Nat.div_one, cons.injEq, true_and]
  refine map_congr_left fun j _ => ?_
  simp only [Function.comp_apply, Nat.succ_eq_add_one]
  rw [Nat.pow_succ', ← Nat.div_div_eq_div_mul, Nat.add_right_comm, Nat.add_assoc]

theorem withLeftSibling_segment {cache : List (Option H)} (ha : a ≤ e)
    (hcache : a % 2 = 1 → cache[level]? = some (some (N level (a - 1)))) :
    withLeftSibling cache level a (segment N level a e) = .ok (segment N level (2 * (a / 2)) e) := by
  rw [withLeftSibling]
  split
  · rw [show 2 * (a / 2) = a by omega]
  · rw [hcache (by omega), show 2 * (a / 2) = a - 1 by omega, segment_cons (a := a - 1) (by omega),
      show a - 1 + 1 = a by omega]
    rfl

theorem withRightSibling_segment {emptyHashes : List H} {emptyNode : H} (ha : 2 * a ≤ e)
    (hempty : N level e = emptyNode) (hget : emptyHashes[level]? = some emptyNode) :
    withRightSibling emptyHashes level (segment N level (2 * a) e) =
      .ok (segment N level (2 * a) (2 * ((e + 1) / 2))) := by
  rw [withRightSibling, length_segment]
  split
  · rw [show 2 * ((e + 1) / 2) = e by omega]
  · rw [hget, show 2 * ((e + 1) / 2) = e + 1 by omega, segment_concat ha, hempty]
    rfl

theorem compressPairs_segment (hN : ∀ i, N (level + 1) i = hasher.compress (N level (2 * i)) (N level (2 * i + 1)))
    (a e : Nat) : compressPairs hasher (segment N level (2 * a) (2 * e)) = segment N (level + 1) a e := by
  rw [segment, segment, show 2 * e - 2 * a = 2 * (e - a) by omega]
  generalize e - a = n
  induction n generalizing a with
  | zero => rfl
  | succ n ih =>
    rw [show 2 * (n + 1) = 2 * n + 1 + 1 by omega, range'_succ, range'_succ, map_cons, map_cons,
      compressPairs, range'_succ, map_cons, hN, ← ih (a + 1)]
    rfl

theorem pathElement_segment {index : Nat} (hi : 2 * a + index = x) (hx : x < 2 * e ∨ side = some .left ∧ x ≤ 2 * e) :
    pathElement side index (segment N level (2 * a) (2 * e)) = element side (N level) x := by
  have hmod : index % 2 = x % 2 := by omega
  have hleft : x % 2 = 1 → (segment N level (2 * a) (2 * e))[index ^^^ 1]? = some (N level (x - 1)) := by
    intro h
    rw [xor_one, sibling, if_neg (by omega), getElem?_segment (by omega), show 2 * a + (index - 1) = x - 1 by omega]
  have hright : x % 2 = 0 → x < 2 * e → (segment N level (2 * a) (2 * e))[index ^^^ 1]? = some (N level (x + 1)) := by
    intro h hlt
    rw [xor_one, sibling, if_pos (by omega), getElem?_segment (by omega), show 2 * a + (index + 1) = x + 1 by omega]
  cases side with
  | none =>
    rw [element, sibling]
    change (segment N level (2 * a) (2 * e))[index ^^^ 1]? = _
    split
    · exact hright (by assumption) (by simpa using hx)
    · exact hleft (by omega)
  | some s =>
    cases s with
    | left =>
      change (if index % 2 = 0 then none else (segment N level (2 * a) (2 * e))[index ^^^ 1]?) = _
      rw [hmod, element]
      split
      · rfl
      · exact hleft (by omega)
    | right =>
      change (if index % 2 = 0 then (segment N level (2 * a) (2 * e))[index ^^^ 1]? else none) = _
      rw [hmod, element]
      split
      · exact hright (by assumption) (by simpa using hx)
      · rfl

/-! ### All levels -/

/-- The loop computes the nodes of the level on top, and the path to a node of the
lowest level. -/
theorem computeLevels_segment {emptyHashes : List H} {empty : Nat → H} {cache : List (Option H)} {count : Nat}
    (index : Nat) (side : Option Side)
    (hN : ∀ level i, N (level + 1) i = hasher.compress (N level (2 * i)) (N level (2 * i + 1)))
    (hE : ∀ level, empty (level + 1) = hasher.compress (empty level) (empty level))
    (hget : ∀ j, j < count → emptyHashes[level + j]? = some (empty (level + j)))
    (hcache : ∀ j, j < count → a / 2 ^ j % 2 = 1 → cache[level + j]? = some (some (N (level + j) (a / 2 ^ j - 1))))
    (hempty : ∀ i, e ≤ i → N level i = empty level) (ha : a ≤ e) :
    ∃ path, computeLevels hasher emptyHashes cache side count level index a (segment N level a e) =
        .ok (segment N (level + count) (a / 2 ^ count) ((e + 2 ^ count - 1) / 2 ^ count), path) ∧
      (a + index < e ∨ side = some .left ∧ a + index ≤ e → path = sidePath N side level count (a + index)) := by
  induction count generalizing level a e index with
  | zero =>
    refine ⟨[], ?_, fun _ => rfl⟩
    simp [computeLevels]
  | succ count ih =>
    have hshift : ∀ y j, y / 2 / 2 ^ j = y / 2 ^ (j + 1) := fun y j => by
      rw [Nat.div_div_eq_div_mul, ← Nat.pow_succ']
    have hup : ((e + 1) / 2 + 2 ^ count - 1) / 2 ^ count = (e + 2 ^ (count + 1) - 1) / 2 ^ (count + 1) := by
      rw [← hshift, Nat.pow_succ']
      have hpos := Nat.two_pow_pos count
      congr 1
      omega
    obtain ⟨path, hpath, hspec⟩ := @ih (level + 1) (a / 2) ((e + 1) / 2) ((index + a % 2) / 2)
      (fun j hj => by
        rw [Nat.add_right_comm, Nat.add_assoc]
        exact hget (j + 1) (by omega))
      (fun j hj h => by
        rw [Nat.add_right_comm, Nat.add_assoc, hshift]
        exact hcache (j + 1) (by omega) (hshift a j ▸ h))
      (fun i hi => by rw [hN, hempty _ (by omega), hempty _ (by omega), hE]) (by omega)
    rw [hup, hshift, Nat.add_right_comm, Nat.add_assoc] at hpath
    refine ⟨pathElement side (index + a % 2) (segment N level (2 * (a / 2)) (2 * ((e + 1) / 2))) :: path, ?_,
      fun hx => ?_⟩
    · have hleft := withLeftSibling_segment ha fun h => by simpa using hcache 0 (by omega) (by simpa using h)
      have hright := withRightSibling_segment (a := a / 2) (by omega) (hempty e le_rfl) (hget 0 (by omega))
      rw [computeLevels, hleft, ok_bind, hright, ok_bind, compressPairs_segment (hN level), hpath]
      rfl
    · have hx' : a / 2 + (index + a % 2) / 2 = (a + index) / 2 := by omega
      rw [sidePath_succ, pathElement_segment (x := a + index) (by omega)
        (hx.imp (fun h => by omega) fun h => ⟨h.1, by omega⟩), hspec, hx']
      exact hx.imp (fun h => by omega) fun h => ⟨h.1, by omega⟩

end Levels

/-! ### The invariant -/

@[simp] theorem treeDepthBySize_two_pow {depth : Nat} (h : depth < 64) : treeDepthBySize (2 ^ depth) = depth := by
  have hfind : (range 64).find? (fun i => (2 ^ depth).testBit i) = some depth := by
    rw [find?_range_eq_some]
    refine ⟨by simp, mem_range.mpr h, fun j hj => ?_⟩
    rw [Nat.testBit_two_pow_of_ne hj.ne']
    rfl
  rw [treeDepthBySize, hfind, Option.getD_some]

def Tree.emptyLeaf (hasher : Hasher H) (this : Tree H) : H := this.emptyLeafHash.getD hasher.emptyLeafHash

/-- The tree of depth `depth` stands for the leaves: the first of them are trimmed,
and the cache holds the left siblings on the way to the first untrimmed one. -/
structure Refines (hasher : Hasher H) (this : Tree H) (leaves : List H) (depth : Nat) : Prop where
  size : this.binaryTreeSize = 2 ^ depth
  depth_le : depth ≤ maxTreeDepth
  start_le : this.startIndex ≤ leaves.length
  fits : leaves.length ≤ 2 ^ depth
  hashes : this.hashes = leaves.drop this.startIndex
  cacheLength : this.cache.length = if this.startIndex = 2 ^ depth then depth + 1 else depth
  cache : ∀ level, level < this.cache.length → this.startIndex / 2 ^ level % 2 = 1 →
    this.cache[level]? =
      some (some (naiveNode hasher (this.emptyLeaf hasher) leaves level (this.startIndex / 2 ^ level - 1)))

namespace Refines

variable {this : Tree H} {depth : Nat}

section
variable (hr : Refines hasher this leaves depth)
include hr

theorem treeDepth : treeDepthBySize this.binaryTreeSize = depth := by
  have := hr.depth_le
  rw [hr.size, treeDepthBySize_two_pow (by simp only [maxTreeDepth] at this; omega)]

theorem emptyHashes {level : Nat} (h : level ≤ depth) (emptyLeaf : H) :
    (computeEmptyTreeHashes hasher emptyLeaf)[level]? = some (emptyHash hasher emptyLeaf level) :=
  getElem?_computeEmptyTreeHashes emptyLeaf (h.trans hr.depth_le)

theorem hashes_eq_segment (emptyLeaf : H) :
    this.hashes = segment (naiveNode hasher emptyLeaf leaves) 0 this.startIndex leaves.length := by
  refine ext_getElem? fun i => ?_
  rw [hr.hashes, getElem?_drop]
  by_cases hi : this.startIndex + i < leaves.length
  · rw [getElem?_segment hi, naiveNode, node_zero, row_of_lt hi, getElem?_eq_getElem hi]
  · rw [getElem?_eq_none (by omega), getElem?_eq_none (by rw [length_segment]; omega)]

theorem compute (hstart : this.startIndex < 2 ^ depth) (hpos : leaves ≠ []) (index : Nat) (side : Option Side) :
    ∃ path, this.computeMerkleRootAndPath hasher index side =
        .ok (naiveRoot hasher (this.emptyLeaf hasher) leaves depth, path) ∧ (this.startIndex + index < leaves.length ∨
          side = some .left ∧ this.startIndex + index ≤ leaves.length →
        path = sidePath (naiveNode hasher (this.emptyLeaf hasher) leaves) side 0 depth (this.startIndex + index)) := by
  have hlen : this.cache.length = depth := by rw [hr.cacheLength, if_neg hstart.ne]
  have hget : ∀ j, j < depth → (computeEmptyTreeHashes hasher (this.emptyLeaf hasher))[0 + j]? =
      some (emptyHash hasher (this.emptyLeaf hasher) (0 + j)) := fun j hj => by
    rw [Nat.zero_add]
    exact hr.emptyHashes hj.le _
  have hcached : ∀ j, j < depth → this.startIndex / 2 ^ j % 2 = 1 → this.cache[0 + j]? =
      some (some (naiveNode hasher (this.emptyLeaf hasher) leaves (0 + j) (this.startIndex / 2 ^ j - 1))) :=
    fun j hj h => by
      rw [Nat.zero_add]
      exact hr.cache j (by omega) h
  obtain ⟨path, hlevels, hpath⟩ := computeLevels_segment index side
    (fun level i => (rfl : naiveNode hasher (this.emptyLeaf hasher) leaves (level + 1) i = _))
    (fun level => (rfl : emptyHash hasher (this.emptyLeaf hasher) (level + 1) = _)) hget hcached
    (fun i hi => row_of_le hi) hr.start_le
  have hlast : (leaves.length + 2 ^ depth - 1) / 2 ^ depth = 1 := by
    have h₁ := length_pos_iff.mpr hpos
    have h₂ := hr.fits
    rw [Nat.div_eq_iff (Nat.two_pow_pos depth)]
    omega
  have hroot : segment (naiveNode hasher (this.emptyLeaf hasher) leaves) (0 + depth) (this.startIndex / 2 ^ depth)
      ((leaves.length + 2 ^ depth - 1) / 2 ^ depth) = [naiveRoot hasher (this.emptyLeaf hasher) leaves depth] := by
    rw [hlast, Nat.div_eq_of_lt hstart, Nat.zero_add]
    rfl
  rw [hroot, ← hr.hashes_eq_segment] at hlevels
  refine ⟨path, ?_, hpath⟩
  rw [computeMerkleRootAndPath, hr.treeDepth]
  change (computeLevels _ (computeEmptyTreeHashes hasher (this.emptyLeaf hasher)) _ _ _ _ _ _ _ >>= _) = _
  rw [hlevels]
  rfl

theorem merkleRoot (hempty : leaves = [] → this.emptyLeafHash = none) :
    this.merkleRoot hasher = .ok (naiveRoot hasher (this.emptyLeaf hasher) leaves depth) := by
  rw [Tree.merkleRoot, hr.treeDepth]
  simp only [Bool.and_eq_true, List.isEmpty_iff, beq_iff_eq]
  have hdrop : this.hashes = [] ↔ leaves.length ≤ this.startIndex := by rw [hr.hashes, drop_eq_nil_iff]
  have hle := hr.start_le
  by_cases h0 : this.hashes = [] ∧ this.startIndex = 0
  · have hnil : leaves = [] := by
      rw [← length_eq_zero_iff]
      have := hdrop.mp h0.1
      omega
    have hleaf : this.emptyLeaf hasher = hasher.emptyLeafHash := by rw [Tree.emptyLeaf, hempty hnil]; rfl
    have hroot : naiveRoot hasher hasher.emptyLeafHash leaves depth = emptyHash hasher hasher.emptyLeafHash depth :=
      node_row_of_le (e := emptyHash hasher hasher.emptyLeafHash) (fun _ => rfl) (by simp [hnil])
    rw [if_pos h0, Hasher.emptySubtreeHash, hr.emptyHashes le_rfl, hleaf, hroot]
    rfl
  rw [if_neg h0]
  have hpos : leaves ≠ [] := by
    rintro rfl
    exact h0 ⟨by simp [hr.hashes], by simpa using hle⟩
  by_cases hfull : this.hashes = [] ∧ this.startIndex = this.binaryTreeSize
  · have hstart : this.startIndex = 2 ^ depth := by rw [hfull.2, hr.size]
    have hone : this.startIndex / 2 ^ depth = 1 := by rw [hstart, Nat.div_self (Nat.two_pow_pos depth)]
    have hget := hr.cache depth (by rw [hr.cacheLength, if_pos hstart]; omega) (by rw [hone])
    rw [if_pos hfull, hget, hone]
    rfl
  · have hstart : this.startIndex < 2 ^ depth := by
      have hfits := hr.fits
      rw [hdrop, hr.size] at hfull
      omega
    rw [if_neg hfull]
    obtain ⟨path, hcompute, -⟩ := hr.compute hstart hpos 0 none
    rw [hcompute]
    rfl

end

theorem sidePath_none (N : Nat → Nat → H) (depth x : Nat) :
    (sidePath N none 0 depth x).mapM (ofOption "called `Option::unwrap()` on a `None` value") =
      .ok ((range depth).map fun level => N level (sibling (x / 2 ^ level))) := by
  rw [sidePath, mapM_eq_ok, forall₂_map_left_iff, forall₂_map_right_iff, forall₂_same]
  intro level _
  rw [Nat.zero_add]
  rfl

theorem merkleRootAndPath (hr : Refines hasher this leaves depth) {i : Nat} (hi : i < this.hashes.length) :
    this.merkleRootAndPath hasher i = .ok (naiveRoot hasher (this.emptyLeaf hasher) leaves depth,
      naivePath hasher (this.emptyLeaf hasher) leaves depth (this.startIndex + i)) := by
  have hlt : this.startIndex + i < leaves.length := by
    rw [hr.hashes, length_drop] at hi
    omega
  have hfits := hr.fits
  obtain ⟨path, hcompute, hpath⟩ := hr.compute (by omega) (ne_nil_of_length_pos (by omega)) i none
  rw [Tree.merkleRootAndPath, require_pos hi, ok_bind, hcompute, ok_bind, hpath (.inl hlt)]
  simp only [sidePath_none, ok_bind]
  rfl

/-! ### Operations -/

theorem length_sidePath (N : Nat → Nat → H) (side : Option Side) (count x : Nat) :
    (sidePath N side 0 count x).length = count := by simp [sidePath]

theorem getElem?_sidePath {N : Nat → Nat → H} {side : Option Side} {count x level : Nat} (hlevel : level < count) :
    (sidePath N side 0 count x)[level]? = some (element side (N level) (x / 2 ^ level)) := by
  rw [sidePath, getElem?_map, getElem?_range hlevel, Option.map_some, Nat.zero_add]

theorem trimmedCache_eq (N : Nat → Nat → H) (depth x : Nat) :
    (if x = 2 ^ depth then sidePath N (some .left) 0 depth x ++ [some (N depth 0)]
      else sidePath N (some .left) 0 depth x) =
      sidePath N (some .left) 0 (if x = 2 ^ depth then depth + 1 else depth) x := by
  split
  next hfull =>
    rw [sidePath, sidePath, range_succ, map_append, map_singleton, Nat.zero_add, hfull,
      Nat.div_self (Nat.two_pow_pos depth)]
    rfl
  next => rfl

/-- The cache has an entry exactly on the levels where the first untrimmed leaf is on the right. -/
def CacheExact (this : Tree H) : Prop :=
  ∀ level, level < this.cache.length → this.startIndex / 2 ^ level % 2 = 0 → this.cache[level]? = some none

theorem trimStart (hr : Refines hasher this leaves depth) {count : Nat} (h0 : 0 < count)
    (hle : count ≤ this.hashes.length) :
    ∃ this', this.trimStart hasher count = .ok this' ∧ Refines hasher this' leaves depth ∧ CacheExact this' ∧
      this'.hashes = this.hashes.drop count ∧ this'.emptyLeafHash = this.emptyLeafHash ∧
      this'.startIndex = this.startIndex + count := by
  have hlen : this.startIndex + count ≤ leaves.length := by
    rw [hr.hashes, length_drop] at hle
    omega
  have hfits := hr.fits
  obtain ⟨path, hcompute, hpath⟩ := hr.compute (by omega) (ne_nil_of_length_pos (by omega)) count (some .left)
  rw [hpath (.inr ⟨rfl, hlen⟩)] at hcompute
  rw [Tree.trimStart, require_pos hle, ok_bind, hcompute, ok_bind, hr.size, naiveRoot]
  dsimp only
  rw [trimmedCache_eq]
  refine ⟨_, rfl, ⟨rfl, hr.depth_le, hlen, hfits, ?_, length_sidePath .., fun level hlevel hodd => ?_⟩,
    fun level hlevel heven => ?_, rfl, rfl, rfl⟩
  · rw [hr.hashes, drop_drop]
  · rw [length_sidePath] at hlevel
    rw [getElem?_sidePath hlevel, element, if_neg (by rw [hodd]; decide)]
    rfl
  · rw [length_sidePath] at hlevel
    rw [getElem?_sidePath hlevel, element, if_pos heven]

theorem naiveNode_congr (emptyLeaf : H) {leaves' : List H} {start level : Nat}
    (hsame : ∀ j, j < start → leaves'[j]? = leaves[j]?) (hodd : start / 2 ^ level % 2 = 1) :
    naiveNode hasher emptyLeaf leaves' level (start / 2 ^ level - 1) =
      naiveNode hasher emptyLeaf leaves level (start / 2 ^ level - 1) := by
  refine node_congr fun j hj => ?_
  have hlt : j < start := by
    by_contra hle
    have hdiv : start / 2 ^ level ≤ j / 2 ^ level := Nat.div_le_div_right (Nat.le_of_not_lt hle)
    rw [hj] at hdiv
    generalize start / 2 ^ level = q at hdiv hodd
    omega
  rw [row, row, hsame j hlt]

theorem pushHash (hr : Refines hasher this leaves depth) (leafHash : H) (hmax : leaves.length < 2 ^ maxTreeDepth) :
    ∃ depth', Refines hasher (this.pushHash leafHash) (leaves ++ [leafHash]) depth' := by
  have hstart := hr.start_le
  have hfits := hr.fits
  have hcacheLength := hr.cacheLength
  have hlen : this.startIndex + (this.hashes ++ [leafHash]).length = leaves.length + 1 := by
    rw [length_append, hr.hashes, length_drop, length_singleton]
    omega
  have hstart' : (this.pushHash leafHash).startIndex ≤ (leaves ++ [leafHash]).length := by
    rw [startIndex_pushHash, length_append]
    exact hstart.trans (Nat.le_add_right _ _)
  have hhashes : (this.pushHash leafHash).hashes = (leaves ++ [leafHash]).drop (this.pushHash leafHash).startIndex := by
    rw [hashes_pushHash, startIndex_pushHash, drop_append_of_le_length hstart, hr.hashes]
  -- The slots that exist are those of the old tree.
  have hslot : ∀ level, level < this.cache.length → this.startIndex / 2 ^ level % 2 = 1 → this.cache[level]? =
      some (some (naiveNode hasher (this.emptyLeaf hasher) (leaves ++ [leafHash]) level
        (this.startIndex / 2 ^ level - 1))) := fun level hlevel hodd => by
    rw [hr.cache level hlevel hodd, naiveNode_congr _ (fun j hj => getElem?_append_left (hj.trans_le hstart)) hodd]
  by_cases hgrow : 2 ^ depth < leaves.length + 1
  · have hfull : leaves.length = 2 ^ depth := by omega
    have hdepth : depth < maxTreeDepth := (Nat.pow_lt_pow_iff_right (by omega)).mp (hfull ▸ hmax)
    have hsize : treeDepthBySize (2 ^ depth * 2) = depth + 1 := by
      rw [← Nat.pow_succ, treeDepthBySize_two_pow (by simp only [maxTreeDepth] at hdepth; omega)]
    have hpush : this.pushHash leafHash = { this with
        hashes := this.hashes ++ [leafHash]
        binaryTreeSize := 2 ^ (depth + 1)
        cache := if this.cache.length < depth + 1 then this.cache ++ [none] else this.cache } := by
      rw [Tree.pushHash, hlen, hr.size, if_pos hgrow]
      dsimp only
      rw [hsize, ← Nat.pow_succ]
    have hpos := Nat.two_pow_pos depth
    refine ⟨depth + 1, by rw [hpush], hdepth, hstart', ?_, hhashes, ?_, ?_⟩
    · rw [length_append, length_singleton, Nat.pow_succ]
      omega
    · rw [startIndex_pushHash, if_neg (by rw [Nat.pow_succ]; omega), hpush]
      dsimp only
      split
      · rw [length_append, length_singleton]
        split at hcacheLength <;> omega
      · split at hcacheLength <;> omega
    · rw [hpush]
      dsimp only
      intro level hlevel hodd
      split at hlevel
      case isFalse hlong =>
        rw [if_neg hlong]
        exact hslot level hlevel hodd
      case isTrue hshort =>
        rw [length_append, length_singleton] at hlevel
        -- The new slot is above the first untrimmed leaf of a tree that is not fully trimmed.
        have hlt : level < this.cache.length := by
          by_contra hge
          split at hcacheLength
          · omega
          · rw [show level = depth by omega, Nat.div_eq_of_lt (by omega)] at hodd
            omega
        rw [if_pos hshort, getElem?_append_left hlt]
        exact hslot level hlt hodd
  · have hpush : this.pushHash leafHash = { this with hashes := this.hashes ++ [leafHash] } := by
      rw [Tree.pushHash, hlen, hr.size, if_neg hgrow]
    refine ⟨depth, by rw [hpush, ← hr.size], hr.depth_le, hstart', ?_, hhashes, by rw [hpush]; exact hcacheLength, ?_⟩
    · rw [length_append, length_singleton]
      omega
    · rw [hpush]
      exact hslot

end Refines

theorem isPowerOfTwo_two_pow (k : Nat) : isPowerOfTwo (2 ^ k) = true := by
  rw [isPowerOfTwo, Nat.log2_two_pow, beq_self_eq_true]

theorem refines_fromHashes (hasher : Hasher H) (leaves : List H) {minTreeSize : Option Nat}
    (hmin : ∀ size ∈ minTreeSize, ∃ k, k ≤ maxTreeDepth ∧ size = 2 ^ k) (hmax : leaves.length ≤ 2 ^ maxTreeDepth) :
    ∃ tree depth, fromHashes leaves minTreeSize = .ok tree ∧ Refines hasher tree leaves depth ∧
      tree.hashes = leaves ∧ tree.emptyLeafHash = none := by
  have hclog : Nat.clog 2 leaves.length ≤ maxTreeDepth := Nat.clog_le_of_le_pow hmax
  obtain ⟨depth, hdepth, hge, hsize⟩ : ∃ depth, depth ≤ maxTreeDepth ∧ Nat.clog 2 leaves.length ≤ depth ∧
      max (minTreeSize.getD 0) (nextPowerOfTwo leaves.length) = 2 ^ depth := by
    cases minTreeSize with
    | none => exact ⟨_, hclog, le_rfl, Nat.zero_max _⟩
    | some size =>
      obtain ⟨k, hk, rfl⟩ := hmin size rfl
      refine ⟨max k (Nat.clog 2 leaves.length), max_le hk hclog, le_max_right _ _, ?_⟩
      have hmono : Monotone fun e => 2 ^ e := fun a b h => Nat.pow_le_pow_right (by omega) h
      exact hmono.map_max.symm
  have hpow : ∀ size ∈ minTreeSize, isPowerOfTwo size = true := fun size h => by
    obtain ⟨k, -, rfl⟩ := hmin size h
    exact isPowerOfTwo_two_pow k
  have htree : treeDepthBySize (2 ^ depth) = depth :=
    treeDepthBySize_two_pow (by simp only [maxTreeDepth] at hdepth; omega)
  rw [fromHashes, require_pos hpow, ok_bind]
  dsimp only
  rw [hsize, htree, require_pos hdepth, ok_bind]
  refine ⟨_, depth, rfl, ⟨rfl, hdepth, Nat.zero_le _, ?_, rfl, ?_, ?_⟩, rfl, rfl⟩
  · exact (Nat.le_pow_clog (by omega) _).trans (Nat.pow_le_pow_right (by omega) hge)
  · rw [length_replicate, if_neg (Nat.two_pow_pos depth).ne]
  · intro level _ hodd
    simp at hodd

/-! ### Sequences of operations -/

/-- What changes a tree. -/
inductive Op (H : Type) where
  | pushHash (leafHash : H)
  | trimStart (count : Nat)

def Op.apply (hasher : Hasher H) (tree : Tree H) : Op H → Except String (Tree H)
  | .pushHash leafHash => .ok (tree.pushHash leafHash)
  | .trimStart count => tree.trimStart hasher count

def Op.supplied : Op H → List H
  | .pushHash leafHash => [leafHash]
  | .trimStart _ => []

def Op.trimmed : Op H → Nat
  | .pushHash _ => 0
  | .trimStart count => count

/-- At least one and at most all untrimmed leaves are trimmed at a time. -/
def ValidOps : Nat → List (Op H) → Prop
  | _, [] => True
  | untrimmed, .pushHash _ :: ops => ValidOps (untrimmed + 1) ops
  | untrimmed, .trimStart count :: ops => 1 ≤ count ∧ count ≤ untrimmed ∧ ValidOps (untrimmed - count) ops

/-- A whole run keeps standing for all leaves supplied so far. -/
theorem Refines.run {this : Tree H} {depth : Nat} (hr : Refines hasher this leaves depth)
    (hnone : this.emptyLeafHash = none) {ops : List (Op H)} (hops : ValidOps this.hashes.length ops)
    (hmax : (leaves ++ ops.flatMap Op.supplied).length ≤ 2 ^ maxTreeDepth) :
    ∃ tree depth', ops.foldlM (Op.apply hasher) this = .ok tree ∧
      Refines hasher tree (leaves ++ ops.flatMap Op.supplied) depth' ∧ tree.emptyLeafHash = none ∧
      tree.startIndex = this.startIndex + (ops.map Op.trimmed).sum := by
  induction ops generalizing this leaves depth with
  | nil => exact ⟨this, depth, rfl, by simpa using hr, hnone, rfl⟩
  | cons op ops ih =>
    cases op with
    | pushHash leafHash =>
      rw [flatMap_cons, ← append_assoc] at hmax ⊢
      have hlt : leaves.length < 2 ^ maxTreeDepth := by
        simp only [Op.supplied, length_append, length_singleton] at hmax
        omega
      obtain ⟨depth', hpush⟩ := hr.pushHash leafHash hlt
      rw [foldlM_cons, Op.apply, ok_bind]
      have hops' : ValidOps (this.pushHash leafHash).hashes.length ops := by
        rw [hashes_pushHash, length_append]
        exact hops
      obtain ⟨tree, depth', hrun, hr', hnone', hstart⟩ := ih hpush (by simpa using hnone) hops' hmax
      refine ⟨tree, depth', hrun, hr', hnone', ?_⟩
      rw [hstart, startIndex_pushHash, map_cons, sum_cons, Op.trimmed, Nat.zero_add]
    | trimStart count =>
      obtain ⟨hpos, hle, hops⟩ := hops
      obtain ⟨this', htrim, hr', -, hhashes, hleaf, hindex⟩ := hr.trimStart hpos hle
      rw [foldlM_cons, Op.apply, htrim, ok_bind]
      obtain ⟨tree, depth', hrun, hr', hnone', hstart⟩ :=
        ih hr' (hleaf.trans hnone) (by rwa [hhashes, length_drop]) hmax
      refine ⟨tree, depth', hrun, hr', hnone', ?_⟩
      rw [hstart, hindex, map_cons, sum_cons, Op.trimmed, Nat.add_assoc]

/-- A tree stands for all leaves ever supplied: its root is that of the plain tree
over them, and the path of an untrimmed leaf is the one it has there. -/
theorem trimmed_tree_refines_naive (hasher : Hasher H) (hashes : List H) (minTreeSize : Option Nat)
    (hmin : ∀ size ∈ minTreeSize, ∃ k, k ≤ maxTreeDepth ∧ size = 2 ^ k) (ops : List (Op H))
    (hops : ValidOps hashes.length ops) (hmax : (hashes ++ ops.flatMap Op.supplied).length ≤ 2 ^ maxTreeDepth) :
    ∃ initial tree depth, Tree.fromHashes hashes minTreeSize = .ok initial ∧
      ops.foldlM (Op.apply hasher) initial = .ok tree ∧ tree.binaryTreeSize = 2 ^ depth ∧
      (hashes ++ ops.flatMap Op.supplied).length ≤ tree.binaryTreeSize ∧
      tree.startIndex = (ops.map Op.trimmed).sum ∧
      tree.hashes = (hashes ++ ops.flatMap Op.supplied).drop tree.startIndex ∧ tree.merkleRoot hasher =
        .ok (naiveRoot hasher hasher.emptyLeafHash (hashes ++ ops.flatMap Op.supplied) depth) ∧
      ∀ i, i < tree.hashes.length → tree.merkleRootAndPath hasher i =
        .ok (naiveRoot hasher hasher.emptyLeafHash (hashes ++ ops.flatMap Op.supplied) depth,
          naivePath hasher hasher.emptyLeafHash (hashes ++ ops.flatMap Op.supplied) depth (tree.startIndex + i)) := by
  have hinit : hashes.length ≤ 2 ^ maxTreeDepth := by
    rw [length_append] at hmax
    omega
  obtain ⟨initial, depth₀, hinitial, hr₀, hhashes₀, hnone₀⟩ := refines_fromHashes hasher hashes hmin hinit
  obtain ⟨tree, depth, hrun, hr, hnone, hstart⟩ := hr₀.run hnone₀ (by rwa [hhashes₀]) hmax
  have hzero : initial.startIndex = 0 := by
    have hlength := congrArg length (hr₀.hashes.symm.trans hhashes₀)
    have hle := hr₀.start_le
    rw [length_drop] at hlength
    omega
  have hleaf : tree.emptyLeaf hasher = hasher.emptyLeafHash := by rw [emptyLeaf, hnone]; rfl
  refine ⟨initial, tree, depth, hinitial, hrun, hr.size, hr.size ▸ hr.fits, ?_, hr.hashes, ?_, fun i hi => ?_⟩
  · rw [hstart, hzero, Nat.zero_add]
  · rw [hr.merkleRoot fun _ => hnone, hleaf]
  · rw [hr.merkleRootAndPath hi, hleaf]

theorem trimmed_tree_refines_naive_small : ∃ initial tree depth, Tree.fromHashes [1, 2, 3] (some 2) = .ok initial ∧
      [Op.trimStart 3, .pushHash 7, .pushHash 8].foldlM (Op.apply ⟨fun x y => 3 * x + 5 * y + 1, 0⟩) initial =
        .ok tree ∧ tree.merkleRoot ⟨fun x y => 3 * x + 5 * y + 1, 0⟩ =
        .ok (naiveRoot ⟨fun x y => 3 * x + 5 * y + 1, 0⟩ 0 [1, 2, 3, 7, 8] depth) := by
  obtain ⟨initial, tree, depth, hinitial, hrun, -, -, -, -, hroot, -⟩ :=
    trimmed_tree_refines_naive ⟨fun x y => 3 * x + 5 * y + 1, 0⟩ [1, 2, 3] (some 2)
      (fun size h => ⟨1, by decide, (Option.some.inj h).symm⟩) [.trimStart 3, .pushHash 7, .pushHash 8]
      ⟨by decide, by decide, trivial⟩ (by decide)
  exact ⟨initial, tree, depth, hinitial, hrun, hroot⟩

end MiniMerkleTree
