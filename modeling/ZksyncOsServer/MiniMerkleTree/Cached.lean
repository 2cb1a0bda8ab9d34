import ZksyncOsServer.MiniMerkleTree.Refinement

/-!
# Saved trees and paths of ranges

What is saved of a trimmed tree is the number of trimmed leaves and the cache. `init_cached` turns
it back into a tree that stands for the trimmed leaves, however many leaves the tree had pushed
beyond them, and pushing these again leads to the same roots and paths.
-/
namespace MiniMerkleTree

open BinaryMerkle Fallible List MiniMerkleTree.Tree

variable {H : Type} {hasher : Hasher H} {leaves : List H}

/-- The depth of a tree that grows only when it has to. -/
def minDepth (count : Nat) : Nat := Nat.clog 2 count

theorem le_two_pow_minDepth (count : Nat) : count ≤ 2 ^ minDepth count := Nat.le_pow_clog (by omega) count

variable {count depth : Nat}

theorem minDepth_le_iff : minDepth count ≤ depth ↔ count ≤ 2 ^ depth :=
  Nat.clog_le_iff_le_pow (by omega)

theorem minDepth_succ (count : Nat) :
    minDepth (count + 1) = if 2 ^ minDepth count < count + 1 then minDepth count + 1 else minDepth count := by
  have hle := le_two_pow_minDepth count
  split
  next hlt =>
    have hupper : minDepth (count + 1) ≤ minDepth count + 1 := by
      rw [minDepth_le_iff, Nat.pow_succ]
      have hpos := Nat.two_pow_pos (minDepth count)
      omega
    have hlower : ¬ minDepth (count + 1) ≤ minDepth count := by
      rw [minDepth_le_iff]
      omega
    omega
  next hge =>
    have hupper : minDepth (count + 1) ≤ minDepth count := by
      rw [minDepth_le_iff]
      omega
    have hlower : minDepth count ≤ minDepth (count + 1) := Nat.clog_mono_right 2 (Nat.le_succ count)
    omega

abbrev Grown (hasher : Hasher H) (this : Tree H) (leaves : List H) : Prop :=
  Refines hasher this leaves (minDepth leaves.length) ∧ this.emptyLeafHash = none

variable {this : Tree H}

theorem Refines.depth_unique {depth' : Nat} (hr : Refines hasher this leaves depth)
    (hsize : this.binaryTreeSize = 2 ^ depth') : depth = depth' :=
  Nat.pow_right_injective le_rfl (hr.size.symm.trans hsize)

theorem grown_fromHashes_nil (hasher : Hasher H) : ∃ tree, fromHashes [] none = .ok tree ∧ Grown hasher tree [] := by
  obtain ⟨tree, depth, htree, hrefines, -, hnone⟩ :=
    refines_fromHashes hasher [] (show ∀ size ∈ (none : Option Nat), _ by simp) (by simp)
  have hsize : tree.binaryTreeSize = 2 ^ minDepth 0 := by
    simp only [fromHashes, bind_eq_ok, pure_eq_ok] at htree
    obtain ⟨-, -, -, -, rfl⟩ := htree
    rfl
  exact ⟨tree, htree, hrefines.depth_unique hsize ▸ hrefines, hnone⟩

theorem Grown.pushHash (h : Grown hasher this leaves) (leafHash : H) (hmax : leaves.length < 2 ^ maxTreeDepth) :
    Grown hasher (this.pushHash leafHash) (leaves ++ [leafHash]) := by
  obtain ⟨hr, hnone⟩ := h
  obtain ⟨depth, hpushed⟩ := hr.pushHash leafHash hmax
  have hlen : this.startIndex + (this.hashes ++ [leafHash]).length = leaves.length + 1 := by
    have hstart := hr.start_le
    rw [length_append, hr.hashes, length_drop, length_singleton]
    omega
  have hsize : (this.pushHash leafHash).binaryTreeSize = 2 ^ minDepth (leaves ++ [leafHash]).length := by
    rw [length_append, length_singleton, minDepth_succ, Tree.pushHash, hlen, hr.size]
    split
    · rw [Nat.pow_succ]
    · rfl
  exact ⟨hpushed.depth_unique hsize ▸ hpushed, by rwa [emptyLeafHash_pushHash]⟩

theorem Grown.pushHashes (h : Grown hasher this leaves) {hashes : List H}
    (hmax : (leaves ++ hashes).length ≤ 2 ^ maxTreeDepth) :
    Grown hasher (hashes.foldl Tree.pushHash this) (leaves ++ hashes) := by
  induction hashes generalizing this leaves with
  | nil => rwa [append_nil]
  | cons hash hashes ih =>
    rw [append_cons] at hmax ⊢
    refine ih (h.pushHash hash ?_) hmax
    rw [length_append, length_append, length_singleton] at hmax
    omega

theorem startIndex_pushHashes (hashes : List H) : (hashes.foldl pushHash this).startIndex = this.startIndex := by
  induction hashes generalizing this with
  | nil => rfl
  | cons hash hashes ih => rw [foldl_cons, ih, startIndex_pushHash]

/-! ### Saved trees -/

theorem cacheMatches_of_exact {index : Nat} {cache : List (Option H)}
    (h : ∀ level, level < cache.length → ∃ item, cache[level]? = some item ∧
      (item.isSome = true ↔ index / 2 ^ level % 2 = 1)) : cacheMatches index cache = true := by
  induction cache generalizing index with
  | nil => rfl
  | cons item cache ih =>
    rw [cacheMatches, Bool.and_eq_true]
    constructor
    · obtain ⟨item', hitem, hiff⟩ := h 0 (Nat.succ_pos _)
      obtain rfl : item = item' := by simpa using hitem
      rw [Nat.pow_zero, Nat.div_one] at hiff
      rw [beq_iff_eq, Bool.eq_iff_iff, hiff, beq_iff_eq]
    · refine ih fun level hlevel => ?_
      obtain ⟨item', hitem, hiff⟩ := h (level + 1) (Nat.succ_lt_succ hlevel)
      refine ⟨item', by simpa using hitem, ?_⟩
      rw [hiff, Nat.pow_succ', Nat.div_div_eq_div_mul]

theorem grown_initCached (hr : Refines hasher this leaves depth) (hnone : this.emptyLeafHash = none)
    (hexact : Refines.CacheExact this) :
    ∃ tree, initCached this.startIndex this.cache = .ok tree ∧ Grown hasher tree (leaves.take this.startIndex) ∧
      tree.startIndex = this.startIndex := by
  have hstart := hr.start_le.trans hr.fits
  have hle : minDepth this.startIndex ≤ depth := minDepth_le_iff.mpr hstart
  have hmax : minDepth this.startIndex ≤ maxTreeDepth := hle.trans hr.depth_le
  have hdepth : treeDepthBySize (nextPowerOfTwo this.startIndex) = minDepth this.startIndex := by
    refine treeDepthBySize_two_pow (hmax.trans_lt ?_)
    decide
  have hpower := le_two_pow_minDepth this.startIndex
  -- one slot per level, and one more when all leaves are trimmed
  obtain ⟨slots, hslots⟩ : ∃ slots, slots = if this.startIndex = 2 ^ minDepth this.startIndex then
    minDepth this.startIndex + 1 else minDepth this.startIndex := ⟨_, rfl⟩
  have hcode : (if this.startIndex < nextPowerOfTwo this.startIndex then minDepth this.startIndex
      else minDepth this.startIndex + 1) = slots := by
    change (if this.startIndex < 2 ^ minDepth this.startIndex then _ else _) = slots
    rw [hslots]
    split <;> split <;> omega
  have hlen : slots ≤ this.cache.length := by
    rw [hslots, hr.cacheLength]
    split
    next hfull =>
      split
      next => omega
      next hne =>
        have : minDepth this.startIndex ≠ depth := fun h => hne (h ▸ hfull)
        omega
    next => split <;> omega
  have hmatches : cacheMatches this.startIndex (this.cache.take slots) = true := by
    refine cacheMatches_of_exact fun level hlevel => ?_
    rw [length_take] at hlevel
    have hcache : level < this.cache.length := by omega
    rw [getElem?_take_of_lt (by omega)]
    rcases Nat.mod_two_eq_zero_or_one (this.startIndex / 2 ^ level) with heven | hodd
    · exact ⟨none, hexact level hcache heven, by simp [heven]⟩
    · exact ⟨_, hr.cache level hcache hodd, by simp [hodd]⟩
  rw [initCached, hdepth, require_pos hmax, ok_bind]
  dsimp only
  rw [hcode, require_pos hlen, ok_bind, require_pos hmatches, ok_bind]
  have htake : (leaves.take this.startIndex).length = this.startIndex := length_take_of_le hr.start_le
  refine ⟨_, rfl, ⟨?_, rfl⟩, rfl⟩
  rw [htake]
  refine ⟨rfl, hmax, htake.ge, by rwa [htake], by rw [drop_eq_nil_of_le htake.le], ?_, ?_⟩
  · rw [length_take_of_le hlen, hslots]
  · intro level hlevel hodd
    rw [length_take_of_le hlen] at hlevel
    rw [getElem?_take_of_lt hlevel, hr.cache level (hlevel.trans_le hlen) hodd, emptyLeaf, emptyLeaf, hnone,
      Refines.naiveNode_congr _ (fun j hj => getElem?_take_of_lt hj) hodd]

theorem Grown.trimStart (h : Grown hasher this leaves) (h0 : 0 < count) (hle : count ≤ this.hashes.length) :
    ∃ this', this.trimStart hasher count = .ok this' ∧ Grown hasher this' leaves ∧ Refines.CacheExact this' ∧
      this'.startIndex = this.startIndex + count := by
  obtain ⟨this', htrim, hr', hexact, -, hleaf, hstart⟩ := h.1.trimStart h0 hle
  exact ⟨this', htrim, ⟨hr', hleaf.trans h.2⟩, hexact, hstart⟩

/-! ### Paths of a range -/

theorem Refines.merkleRootAndPathsForRange (hr : Refines hasher this leaves depth) {first last : Nat}
    (hfirst : first < last) (hlast : last ≤ this.hashes.length) :
    this.merkleRootAndPathsForRange hasher first last = .ok (naiveRoot hasher (this.emptyLeaf hasher) leaves depth,
      sidePath (naiveNode hasher (this.emptyLeaf hasher) leaves) (some .left) 0 depth (this.startIndex + first),
      sidePath (naiveNode hasher (this.emptyLeaf hasher) leaves) (some .right) 0 depth
        (this.startIndex + (last - 1))) := by
  have hlen : this.startIndex + last ≤ leaves.length := by
    rw [hr.hashes, length_drop] at hlast
    omega
  have hstart : this.startIndex < 2 ^ depth := by
    have hfits := hr.fits
    omega
  have hpos : leaves ≠ [] := ne_nil_of_length_pos (by omega)
  obtain ⟨right, hright, hrightPath⟩ := hr.compute hstart hpos (last - 1) (some .right)
  obtain ⟨left, hleft, hleftPath⟩ := hr.compute hstart hpos first (some .left)
  rw [hrightPath (.inl (by omega))] at hright
  rw [hleftPath (.inl (by omega))] at hleft
  rw [Tree.merkleRootAndPathsForRange, require_pos (by omega), ok_bind, require_pos hlast, ok_bind, hright, hleft]
  rfl

/-- An element of a path in `verify_range_merkle_proof` of `tests.rs`: absent where it is not needed. -/
def needed (needs : Bool) (item : Option H) : Except String (List H) :=
  if needs then do return [← ofOption "unwrap on a None value" item]
  else do
    require (item.isNone = true) "assertion failed"
    return []

def foldRange (hasher : Hasher H) : Nat → List (Option H × Option H) → List H → Except String (List H)
  | _, [], hashes => .ok hashes
  | startIndex, (startItem, endItem) :: path, hashes => do
    let front ← needed (startIndex % 2 ≠ 0) startItem
    let hashes := front ++ hashes
    let back ← needed (hashes.length % 2 ≠ 0) endItem
    foldRange hasher (startIndex / 2) path (compressPairs hasher (hashes ++ back))

def verifyRange (hasher : Hasher H) (startIndex : Nat) (hashes : List H) (startPath endPath : List (Option H)) :
    Except String H := do
  require (startPath.length = endPath.length) "assertion failed"
  ofOption "Out of bounds access" (← foldRange hasher startIndex (startPath.zip endPath) hashes)[0]?

theorem foldRange_segment {N : Nat → Nat → H} {level a x : Nat}
    (hN : ∀ level i, N (level + 1) i = hasher.compress (N level (2 * i)) (N level (2 * i + 1))) (ha : a ≤ x) :
    foldRange hasher a ((sidePath N (some .left) level count a).zip (sidePath N (some .right) level count x))
      (segment N level a (x + 1)) = .ok (segment N (level + count) (a / 2 ^ count) (x / 2 ^ count + 1)) := by
  induction count generalizing level a x with
  | zero => simp [sidePath, foldRange]
  | succ count ih =>
    obtain ⟨front, hfront, hleft⟩ : ∃ front, needed (a % 2 ≠ 0) (element (some .left) (N level) a) = .ok front ∧
        front ++ segment N level a (x + 1) = segment N level (2 * (a / 2)) (x + 1) := by
      rw [element]
      by_cases heven : a % 2 = 0
      · exact ⟨[], by simp [needed, heven]; rfl, by rw [show 2 * (a / 2) = a by omega]; rfl⟩
      · refine ⟨[N level (a - 1)], by simp [needed, heven], ?_⟩
        rw [show 2 * (a / 2) = a - 1 by omega, segment_cons (a := a - 1) (by omega), show a - 1 + 1 = a by omega]
        rfl
    obtain ⟨back, hback, hright⟩ : ∃ back, needed ((segment N level (2 * (a / 2)) (x + 1)).length % 2 ≠ 0)
        (element (some .right) (N level) x) = .ok back ∧
        segment N level (2 * (a / 2)) (x + 1) ++ back = segment N level (2 * (a / 2)) (2 * (x / 2 + 1)) := by
      rw [element, length_segment]
      by_cases heven : x % 2 = 0
      · refine ⟨[N level (x + 1)], ?_, ?_⟩
        · rw [needed, if_pos (by simp; omega), if_pos heven]
          rfl
        · rw [show 2 * (x / 2 + 1) = x + 1 + 1 by omega, segment_concat (e := x + 1) (by omega)]
      · refine ⟨[], ?_, by rw [show 2 * (x / 2 + 1) = x + 1 by omega, append_nil]⟩
        rw [needed, if_neg (by simp; omega), if_neg heven]
        rfl
    rw [sidePath_succ, sidePath_succ, zip_cons_cons, foldRange, hfront, ok_bind, hleft]
    dsimp only
    rw [hback, ok_bind, hright, compressPairs_segment (hN level), ih (by omega), Nat.div_div_eq_div_mul,
      Nat.div_div_eq_div_mul, ← Nat.pow_succ', Nat.add_right_comm, Nat.add_assoc]

/-- Trees reached from an empty one or from what was saved of a trimmed one, with all leaves ever pushed. -/
inductive Reached (hasher : Hasher H) : Tree H → List H → Prop where
  | empty {minTreeSize : Option Nat} {tree : Tree H} (hmin : ∀ size ∈ minTreeSize, ∃ k, k ≤ maxTreeDepth ∧ size = 2 ^ k)
    (htree : fromHashes [] minTreeSize = .ok tree) : Reached hasher tree []
  | saved {count : Nat} {this trimmed tree : Tree H} {leaves : List H} (hreached : Reached hasher this leaves)
    (hpos : 0 < count) (htrim : this.trimStart hasher count = .ok trimmed)
    (hinit : initCached trimmed.startIndex trimmed.cache = .ok tree) :
    Reached hasher tree (leaves.take trimmed.startIndex)
  | pushed {this : Tree H} {leaves : List H} (hreached : Reached hasher this leaves) (leafHash : H)
    (hmax : leaves.length < 2 ^ maxTreeDepth) : Reached hasher (this.pushHash leafHash) (leaves ++ [leafHash])
  | trimmed {count : Nat} {this trimmed : Tree H} {leaves : List H} (hreached : Reached hasher this leaves)
    (hpos : 0 < count) (htrim : this.trimStart hasher count = .ok trimmed) : Reached hasher trimmed leaves

theorem le_length_of_trimStart {trimmed : Tree H} (h : this.trimStart hasher count = .ok trimmed) :
    count ≤ this.hashes.length := by
  simp only [trimStart, bind_eq_ok, require_eq_ok] at h
  obtain ⟨-, hle, -⟩ := h
  exact hle

theorem Reached.refines (h : Reached hasher this leaves) :
    ∃ depth, Refines hasher this leaves depth ∧ this.emptyLeafHash = none := by
  induction h with
  | empty hmin htree =>
    obtain ⟨tree', depth, htree', hr, -, hnone⟩ := refines_fromHashes hasher [] hmin (Nat.zero_le _)
    cases htree.symm.trans htree'
    exact ⟨depth, hr, hnone⟩
  | @saved count this trimmed tree leaves hreached hpos htrim hinit ih =>
    obtain ⟨depth, hr, hnone⟩ := ih
    obtain ⟨trimmed', htrim', hr', hexact, -, hleaf, -⟩ := hr.trimStart hpos (le_length_of_trimStart htrim)
    cases htrim.symm.trans htrim'
    obtain ⟨tree', hinit', hgrown, -⟩ := grown_initCached hr' (hleaf.trans hnone) hexact
    cases hinit.symm.trans hinit'
    exact ⟨_, hgrown⟩
  | pushed hreached leafHash hmax ih =>
    obtain ⟨depth, hr, hnone⟩ := ih
    obtain ⟨depth', hr'⟩ := hr.pushHash leafHash hmax
    exact ⟨depth', hr', by rwa [emptyLeafHash_pushHash]⟩
  | @trimmed count this trimmed leaves hreached hpos htrim ih =>
    obtain ⟨depth, hr, hnone⟩ := ih
    obtain ⟨trimmed', htrim', hr', -, -, hleaf, -⟩ := hr.trimStart hpos (le_length_of_trimStart htrim)
    cases htrim.symm.trans htrim'
    exact ⟨depth, hr', hleaf.trans hnone⟩

/-- The paths of a range fold to the root of the plain tree over all leaves ever pushed. -/
theorem range_proofs_verify {hasher : Hasher H} {tree : Tree H} {leaves : List H} (h : Reached hasher tree leaves)
    {first last : Nat} (hfirst : first < last) (hlast : last ≤ tree.hashes.length) :
    ∃ left right depth, tree.binaryTreeSize = 2 ^ depth ∧ leaves.length ≤ 2 ^ depth ∧
      tree.merkleRootAndPathsForRange hasher first last =
        .ok (naiveRoot hasher hasher.emptyLeafHash leaves depth, left, right) ∧ left.length = right.length ∧
      verifyRange hasher (tree.startIndex + first) ((tree.hashes.drop first).take (last - first)) left right =
        .ok (naiveRoot hasher hasher.emptyLeafHash leaves depth) := by
  obtain ⟨depth, hr, hnone⟩ := h.refines
  have hleaf : tree.emptyLeaf hasher = hasher.emptyLeafHash := by rw [emptyLeaf, hnone]; rfl
  have hpaths := hr.merkleRootAndPathsForRange hfirst hlast
  rw [hleaf] at hpaths
  refine ⟨_, _, depth, hr.size, hr.fits, hpaths, by rw [Refines.length_sidePath, Refines.length_sidePath], ?_⟩
  have hlen : tree.startIndex + last ≤ leaves.length := by
    rw [hr.hashes, length_drop] at hlast
    omega
  have hfits := hr.fits
  have hrange : (tree.hashes.drop first).take (last - first) = segment (naiveNode hasher hasher.emptyLeafHash leaves) 0
      (tree.startIndex + first) (tree.startIndex + (last - 1) + 1) := by
    rw [hr.hashes_eq_segment hasher.emptyLeafHash, segment, segment, ← map_drop, ← map_take, drop_range',
      take_range'_of_length_ge (by omega), Nat.mul_one]
    congr 2
    omega
  rw [verifyRange, require_pos (by rw [Refines.length_sidePath, Refines.length_sidePath]), ok_bind, hrange,
    foldRange_segment (fun level i => rfl) (by omega), ok_bind, Nat.div_eq_of_lt (by omega), Nat.div_eq_of_lt (by omega),
    Nat.zero_add]
  rfl

theorem range_proofs_verify_trimmed : ∃ left right depth, verifyRange ⟨fun x y => 3 * x + 5 * y + 1, 0⟩ 1 [2, 3] left
    right = .ok (naiveRoot ⟨fun x y => 3 * x + 5 * y + 1, 0⟩ 0 [1, 2, 3] depth) := by
  have hempty : Reached ⟨fun x y => 3 * x + 5 * y + 1, 0⟩ ⟨[], 1, 0, [], none⟩ [] :=
    .empty (show ∀ size ∈ (none : Option Nat), _ by simp) rfl
  have hpushed := ((hempty.pushed 1 (by decide)).pushed 2 (by decide)).pushed 3 (by decide)
  obtain ⟨left, right, depth, -, -, -, -, hverify⟩ :=
    range_proofs_verify (hpushed.trimmed (show 0 < 1 by decide) rfl) (show 0 < 2 by decide) (by decide)
  exact ⟨left, right, depth, hverify⟩

end MiniMerkleTree
