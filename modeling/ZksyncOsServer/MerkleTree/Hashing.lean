import ZksyncOsServer.MerkleTree.Contents
import ZksyncOsServer.MerkleTree.Hasher

/-!
# Amortized nodes hash like binary subtrees

A node of child height `h` at index `idx` has the subtrees of height
`h * INTERNAL_NODE_DEPTH` below it as children, as far as they hold a leaf.
Its hash, and the hashes inside it, are those of the plain binary tree.
-/
namespace MerkleTree

open BinaryMerkle Fallible List

variable {H : Type} {P : TreeParams} {hasher : HashTree H} {leaves : List Leaf} {i depth count : Nat}
    {hashes level : List H}

theorem subtreeHash_of_le {d : Nat} (h : leaves.length ≤ i * 2 ^ d) :
    subtreeHash hasher leaves d i = hasher.emptySubtreeHash d :=
  node_row_of_le hasher.empty_succ (by simpa using h)

theorem subtreeHash_congr {leaves' : List Leaf} {d : Nat} (h : ∀ j, j / 2 ^ d = i → leaves[j]? = leaves'[j]?) :
    subtreeHash hasher leaves d i = subtreeHash hasher leaves' d i := by
  refine node_congr fun j hj => ?_
  simp [row, h j hj]

theorem subtreeHash_zero {leaf : Leaf} (hi : leaves[i]? = some leaf) :
    subtreeHash hasher leaves 0 i = hasher.hashLeaf leaf := by
  simp [subtreeHash, row, hi]

theorem subtreeHash_add (leaves : List Leaf) (a b i : Nat) : subtreeHash hasher leaves (a + b) i =
      node hasher.hashBranch (fun j => subtreeHash hasher leaves a (i * 2 ^ b + j)) b 0 := by
  rw [subtreeHash, node_add, node_shift]
  rfl

/-! ### Levels inside a node -/

/-- The levels collected by `hash_inner` are the levels of the binary tree over
the child hashes, cut off where only empty subtrees follow. -/
theorem row_levelHashes {c : Nat} (h : (levelHashes hasher depth count hashes)[c]? = some level) (j : Nat) :
    row level (hasher.emptySubtreeHash (depth + (c + 1))) j =
      node hasher.hashBranch (row hashes (hasher.emptySubtreeHash depth)) (c + 1) j := by
  induction count generalizing depth hashes c with
  | zero => simp [levelHashes] at h
  | succ count ih =>
    have hnext : row (pairUp hasher.hashBranch (hasher.emptySubtreeHash depth) hashes)
        (hasher.emptySubtreeHash (depth + 1)) =
        node hasher.hashBranch (row hashes (hasher.emptySubtreeHash depth)) 1 := by
      funext i
      rw [hasher.empty_succ, row_pairUp]
      rfl
    cases c with
    | zero =>
      simp only [levelHashes, getElem?_cons_zero, Option.some.injEq] at h
      subst h
      exact congrFun hnext j
    | succ c =>
      simp only [levelHashes, getElem?_cons_succ] at h
      have hc := ih h
      rw [hnext, ← node_add] at hc
      rw [show depth + (c + 1 + 1) = depth + 1 + (c + 1) by omega, hc, show 1 + (c + 1) = c + 1 + 1 by omega]

@[simp] theorem length_levelHashes (depth count : Nat) (hashes : List H) :
    (levelHashes hasher depth count hashes).length = count := by
  induction count generalizing depth hashes with
  | zero => rfl
  | succ count ih => simp [levelHashes, ih]

theorem length_of_mem_levelHashes {c : Nat} (h : (levelHashes hasher depth count hashes)[c]? = some level) {b : Nat}
    (hb : hashes.length ≤ 2 ^ (b + (c + 1))) : level.length ≤ 2 ^ b := by
  induction count generalizing depth hashes c with
  | zero => simp [levelHashes] at h
  | succ count ih =>
    cases c with
    | zero =>
      simp only [levelHashes, getElem?_cons_zero, Option.some.injEq] at h
      rw [← h, length_pairUp]
      rw [Nat.zero_add, Nat.pow_succ] at hb
      omega
    | succ c =>
      simp only [levelHashes, getElem?_cons_succ] at h
      refine ih h ?_
      rw [length_pairUp]
      rw [show b + (c + 1 + 1) = b + (c + 1) + 1 by omega, Nat.pow_succ] at hb
      omega

theorem levelHashes_ne_nil (hne : hashes ≠ []) (h : level ∈ levelHashes hasher depth count hashes) : level ≠ [] := by
  induction count generalizing depth hashes with
  | zero => simp [levelHashes] at h
  | succ count ih =>
    have hnext : pairUp hasher.hashBranch (hasher.emptySubtreeHash depth) hashes ≠ [] := by
      intro he
      have hl := congrArg length he
      rw [length_pairUp] at hl
      exact hne (length_eq_zero_iff.mp (by simp only [length_nil] at hl; omega))
    rcases mem_cons.mp h with rfl | h
    · exact hnext
    · exact ih hnext h

theorem head?_levelHashes (hne : hashes ≠ []) : ((levelHashes hasher depth count hashes).getLastD hashes).head? =
      some (node hasher.hashBranch (row hashes (hasher.emptySubtreeHash depth)) count 0) := by
  have hrow : ∀ {xs : List H} (e : H), xs ≠ [] → xs.head? = some (row xs e 0) := by
    intro xs e hx
    cases xs with
    | nil => exact absurd rfl hx
    | cons x xs => rfl
  cases count with
  | zero => exact hrow _ hne
  | succ count =>
    have hlast : (levelHashes hasher depth (count + 1) hashes)[count]? =
        some ((levelHashes hasher depth (count + 1) hashes).getLastD hashes) := by
      rw [getLastD_eq_getLast?, getLast?_eq_getElem?, length_levelHashes]
      simp
    rw [hrow _ (levelHashes_ne_nil hne (mem_of_getElem? hlast)), row_levelHashes hlast]

/-! ### Hashes inside a node -/

/-- Start of level `c` in a list of padded levels, the first of length `full`. -/
def paddedOffset : Nat → Nat → Nat
  | _, 0 => 0
  | full, c + 1 => full + paddedOffset (full / 2) c

theorem getElem?_padLevels {depth full : Nat} {levels : List (List H)}
    (hlen : ∀ c level, levels[c]? = some level → level.length ≤ full / 2 ^ c) :
    ∃ padded, padLevels hasher depth full levels = .ok padded ∧
      ∀ c level, levels[c]? = some level → ∀ j, j < full / 2 ^ c →
        padded[paddedOffset full c + j]? = some (row level (hasher.emptySubtreeHash (depth + (c + 1))) j) := by
  induction levels generalizing depth full with
  | nil => exact ⟨[], rfl, by simp⟩
  | cons level levels ih =>
    have hfirst : level.length ≤ full := by simpa using hlen 0 level rfl
    obtain ⟨padded, hpad, hget⟩ := @ih (depth + 1) (full / 2) fun c level' h => by
      have := hlen (c + 1) level' h
      rwa [Nat.pow_succ', ← Nat.div_div_eq_div_mul] at this
    refine ⟨_, by rw [padLevels, assert, if_pos hfirst, ok_bind, hpad, ok_bind]; rfl, fun c level' h j hj => ?_⟩
    have hblock : (level ++ replicate (full - level.length) (hasher.emptySubtreeHash (depth + 1))).length = full := by
      rw [length_append, length_replicate]
      omega
    cases c with
    | zero =>
      obtain rfl : level = level' := by simpa using h
      have hj' : j < full := by simpa using hj
      rw [paddedOffset, Nat.zero_add, getElem?_append_left (by rw [hblock]; exact hj')]
      rcases Nat.lt_or_ge j level.length with hlt | hge
      · rw [getElem?_append_left hlt, row_of_lt hlt, getElem?_eq_getElem hlt]
      · rw [getElem?_append_right hge, row_of_le hge, getElem?_replicate, if_pos (by omega)]
    | succ c =>
      rw [Nat.pow_succ', ← Nat.div_div_eq_div_mul] at hj
      rw [paddedOffset, Nat.add_assoc, getElem?_append_right (by rw [hblock]; exact Nat.le_add_right _ _),
        hblock, Nat.add_sub_cancel_left, hget c level' h j hj]
      rw [show depth + 1 + (c + 1) = depth + (c + 1 + 1) by omega]

theorem getElem?_levelOffsetsFrom {k depthInNode offset count c : Nat} (hc : c < count) (hk : depthInNode + c ≤ k) :
    (levelOffsetsFrom k depthInNode offset count)[c]? = some (offset + paddedOffset (2 ^ (k - depthInNode)) c) := by
  induction count generalizing depthInNode offset c with
  | zero => exact absurd hc (Nat.not_lt_zero c)
  | succ count ih =>
    cases c with
    | zero => simp [levelOffsetsFrom, paddedOffset]
    | succ c =>
      have hhalf : 2 ^ (k - depthInNode) / 2 = 2 ^ (k - (depthInNode + 1)) := by
        rw [show k - depthInNode = k - (depthInNode + 1) + 1 by omega, Nat.pow_succ, Nat.mul_div_cancel _ Nat.two_pos]
      rw [levelOffsetsFrom, getElem?_cons_succ, ih (by omega) (by omega), paddedOffset, hhalf, Nat.add_assoc]

/-- The subtree of height `j` at a position inside a node whose children are `depth` levels above the
leaves; missing children are empty subtrees. -/
def InternalNode.naiveHash (hasher : HashTree H) (node : InternalNode H) (depth j i : Nat) : H :=
  BinaryMerkle.node hasher.hashBranch (row (node.children.map ChildRef.hash) (hasher.emptySubtreeHash depth)) j i

theorem InternalNode.exists_internalHashes (hasher : HashTree H) {node : InternalNode H}
    (hdepth : depth ≤ maxNibblesForInternalNode P * P.internalNodeDepth) (hne : node.children ≠ [])
    (hlen : node.children.length ≤ 2 ^ P.internalNodeDepth) : ∃ hashes, node.internalHashes P hasher depth = .ok hashes ∧
      ∀ c, c + 1 < P.internalNodeDepth → depth + (c + 1) < P.treeDepth → ∀ j, j < 2 ^ (P.internalNodeDepth - (c + 1)) →
        hashes[paddedOffset (2 ^ (P.internalNodeDepth - 1)) c + j]? = some (node.naiveHash hasher depth (c + 1) j) := by
  have hmap : node.children.map ChildRef.hash ≠ [] := by simpa using hne
  have hhalf : ∀ c, c + 1 ≤ P.internalNodeDepth →
      2 ^ (P.internalNodeDepth - 1) / 2 ^ c = 2 ^ (P.internalNodeDepth - (c + 1)) := fun c hck => by
    rw [show P.internalNodeDepth - 1 = P.internalNodeDepth - (c + 1) + c by omega, Nat.pow_add,
      Nat.mul_div_cancel _ (Nat.two_pow_pos c)]
  set count := min P.internalNodeDepth (P.treeDepth - depth) - 1 with hcount
  obtain ⟨padded, hpad, hget⟩ := @getElem?_padLevels _ hasher depth (2 ^ (P.internalNodeDepth - 1))
    (levelHashes hasher depth count (node.children.map ChildRef.hash)) fun c level hl => by
      have hlt := (List.getElem?_eq_some_iff.mp hl).1
      rw [length_levelHashes] at hlt
      rw [hhalf c (by omega)]
      refine length_of_mem_levelHashes hl ?_
      rwa [Nat.sub_add_cancel (by omega), length_map]
  refine ⟨padded, ?_, fun c hck hct j hj => ?_⟩
  · simp only [InternalNode.internalHashes, InternalNode.hashInner, assert, if_pos hdepth, ok_bind,
      Bool.false_eq_true, if_false, head?_levelHashes hmap, expect, ← hcount]
    exact hpad
  · have hlt : c < (levelHashes hasher depth count (node.children.map ChildRef.hash)).length := by
      rw [length_levelHashes]
      omega
    have hl := getElem?_eq_getElem hlt
    rw [hget c _ hl j (by rwa [hhalf c (by omega)]), row_levelHashes hl, naiveHash]

theorem InternalHashes.exists_new (hasher : HashTree H) {nodes : Map Nat (InternalNode H)}
    (hdepth : depth ≤ maxNibblesForInternalNode P * P.internalNodeDepth)
    (hnodes : ∀ (idx : Nat) (node : InternalNode H), nodes[idx]? = some node →
      node.children ≠ [] ∧ node.children.length ≤ 2 ^ P.internalNodeDepth) :
    ∃ hashes, new P hasher nodes depth = .ok hashes ∧
      ∀ j position node, j < P.internalNodeDepth → depth + j < P.treeDepth →
        nodes[position / 2 ^ (P.internalNodeDepth - j)]? = some node →
        (j = 0 → position % 2 ^ P.internalNodeDepth < node.children.length) → hashes.get j position =
          .ok (node.naiveHash hasher depth j (position % 2 ^ (P.internalNodeDepth - j))) := by
  let hashesOf : Nat × InternalNode H → List H := fun x => (x.2.internalHashes P hasher depth).toOption.getD []
  have hall : ∀ x ∈ nodes.toList, (do let hashes ← x.2.internalHashes P hasher depth; return (x.1, hashes)) =
        (.ok (x.1, hashesOf x) : Except TreeError (Nat × List H)) := by
    intro x hx
    obtain ⟨hne, hlen⟩ := hnodes x.1 x.2 (Std.ExtTreeMap.mem_toList_iff_getElem?_eq_some.mp hx)
    obtain ⟨hashes, hok, -⟩ := InternalNode.exists_internalHashes hasher hdepth hne hlen
    simp only [hashesOf, hok, ok_bind]
    rfl
  refine ⟨_, by rw [new, mapM_eq_map hall, ok_bind]; rfl, fun j position node hj hjt hget hchild => ?_⟩
  cases j with
  | zero =>
    have hhash := getElem?_eq_getElem (hchild rfl)
    rw [Nat.sub_zero] at hget
    simp only [get, Nat.sub_zero, if_true, hget, expect, ok_bind, hhash]
    simp [InternalNode.naiveHash, row, hhash]
  | succ c =>
    obtain ⟨hne, hlen⟩ := hnodes _ node hget
    obtain ⟨hashes, hok, hspec⟩ := InternalNode.exists_internalHashes hasher hdepth hne hlen
    have hstored : (Std.ExtTreeMap.ofList (nodes.toList.map fun x => (x.1, hashesOf x)) compare)[
        position / 2 ^ (P.internalNodeDepth - (c + 1))]? = some hashes := by
      rw [SortedMap.getElem?_ofList]
      · refine mem_map.mpr ⟨(_, node), Std.ExtTreeMap.mem_toList_iff_getElem?_eq_some.mpr hget, ?_⟩
        simp only [hashesOf, hok]
        rfl
      · rw [pairwise_map]
        exact (SortedMap.pairwise_toList nodes).imp fun hlt => hlt.ne
    have hoffset : (levelOffsetsFrom P.internalNodeDepth 1 0 (P.internalNodeDepth - 1))[c]? =
        some (0 + paddedOffset (2 ^ (P.internalNodeDepth - 1)) c) :=
      getElem?_levelOffsetsFrom (by omega) (by omega)
    simp only [get, Nat.succ_ne_zero, if_false, Nat.add_sub_cancel, hoffset, expect, ok_bind,
      hstored, Nat.zero_add, hspec c hj hjt _ (Nat.mod_lt _ (Nat.two_pow_pos _))]

/-- `InternalHashes::get` returns the naive hash of every subtree inside the nodes of a level, for any level of a
tree and any number of children that fits its nodes. -/
theorem internal_hashes_exact (P : TreeParams) (hasher : HashTree H) (nodes : Map Nat (InternalNode H)) (depth : Nat)
    (hmultiple : P.internalNodeDepth ∣ depth) (hdepth : depth < P.treeDepth)
    (hnodes : ∀ (idx : Nat) (node : InternalNode H), nodes[idx]? = some node → 1 ≤ node.children.length ∧
      node.children.length ≤ 2 ^ min P.internalNodeDepth (P.treeDepth - depth)) :
    ∃ hashes, InternalHashes.new P hasher nodes depth = .ok hashes ∧
      ∀ j < min P.internalNodeDepth (P.treeDepth - depth), ∀ position node,
        nodes[position / 2 ^ (P.internalNodeDepth - j)]? = some node →
        (j = 0 → position % 2 ^ P.internalNodeDepth < node.children.length) → hashes.get j position =
          .ok (node.naiveHash hasher depth j (position % 2 ^ (P.internalNodeDepth - j))) := by
  have hlevel : depth ≤ maxNibblesForInternalNode P * P.internalNodeDepth := by
    obtain ⟨h, rfl⟩ := hmultiple
    have hlt : h < leafNibbles P := by
      by_contra hge
      have := Nat.mul_le_mul_left P.internalNodeDepth (Nat.le_of_not_lt hge)
      have := treeDepth_le_mul P
      rw [Nat.mul_comm] at this
      omega
    rw [Nat.mul_comm]
    exact Nat.mul_le_mul_right _ (Nat.le_sub_one_of_lt hlt)
  obtain ⟨hashes, hnew, hget⟩ := InternalHashes.exists_new hasher hlevel fun idx node hidx => by
    obtain ⟨hpos, hlen⟩ := hnodes idx node hidx
    exact ⟨length_pos_iff.mp hpos, hlen.trans (Nat.pow_le_pow_right Nat.two_pos (Nat.min_le_left _ _))⟩
  exact ⟨hashes, hnew, fun j hj position node hidx hchild => hget j position node (by omega) (by omega) hidx hchild⟩

/-- The children of an incomplete node. -/
def incompleteNode : InternalNode Digest := ⟨[⟨0, .leaf .minGuard⟩, ⟨0, .leaf .maxGuard⟩, ⟨0, .leaf .minGuard⟩]⟩

theorem internal_hashes_exact_incomplete : ∃ hashes,
    InternalHashes.new .small Digest.hasher (.ofList [(0, incompleteNode)]) 0 = .ok hashes ∧
      hashes.get 1 1 = .ok (.branch (.leaf .minGuard) (.leaf .zero)) := by
  obtain ⟨hashes, hnew, hget⟩ := internal_hashes_exact .small Digest.hasher (.ofList [(0, incompleteNode)]) 0
    (by decide) (by decide) fun idx node hidx => by
      rw [SortedMap.getElem?_ofList (by simp)] at hidx
      obtain ⟨-, rfl⟩ : idx = 0 ∧ node = incompleteNode := by simpa using hidx
      decide
  exact ⟨hashes, hnew, hget 1 (by decide) 1 incompleteNode (by decide +kernel) nofun⟩

/-! ### Hash of a node -/

structure ChildrenOf (P : TreeParams) (hasher : HashTree H) (leaves : List Leaf) (h idx : Nat)
    (node : InternalNode H) : Prop where
  length : ∀ j, j < node.children.length ↔
    j < maxNodeChildren P ∧ (idx * maxNodeChildren P + j) * 2 ^ (h * P.internalNodeDepth) < leaves.length
  hash : ∀ j child, node.children[j]? = some child →
    child.hash = subtreeHash hasher leaves (h * P.internalNodeDepth) (idx * maxNodeChildren P + j)

namespace ChildrenOf

variable {leaves : List Leaf} {h idx : Nat} {node : InternalNode H}

section
variable (hc : ChildrenOf P hasher leaves h idx node)
include hc

theorem length_le : node.children.length ≤ 2 ^ P.internalNodeDepth := by
  by_contra hgt
  exact absurd ((hc.length (2 ^ P.internalNodeDepth)).mp (Nat.lt_of_not_le hgt)).1 (lt_irrefl _)

theorem row_hash {j : Nat} (hj : j < maxNodeChildren P) :
    row (node.children.map ChildRef.hash) (hasher.emptySubtreeHash (h * P.internalNodeDepth)) j =
      subtreeHash hasher leaves (h * P.internalNodeDepth) (idx * maxNodeChildren P + j) := by
  cases hget : node.children[j]? with
  | some child =>
    rw [← hc.hash j child hget]
    simp [row, hget]
  | none =>
    have hlen : ¬ j < node.children.length := by
      rw [getElem?_eq_none_iff] at hget
      omega
    rw [subtreeHash_of_le (by rw [hc.length] at hlen; omega)]
    simp [row, hget]

theorem node_row_hash {c j : Nat} (hj : (j + 1) * 2 ^ c ≤ maxNodeChildren P) :
    BinaryMerkle.node hasher.hashBranch (row (node.children.map ChildRef.hash)
        (hasher.emptySubtreeHash (h * P.internalNodeDepth))) c j =
      BinaryMerkle.node hasher.hashBranch (fun i => subtreeHash hasher leaves (h * P.internalNodeDepth)
        (idx * maxNodeChildren P + i)) c j := by
  refine node_congr fun i hi => hc.row_hash ?_
  have hlt := Nat.lt_mul_div_succ i (Nat.two_pow_pos c)
  rw [hi, Nat.mul_comm] at hlt
  omega

theorem hashInner_eq (hne : node.children ≠ []) (hh : h ≤ maxNibblesForInternalNode P) :
    node.hash P hasher (h * P.internalNodeDepth) = .ok (BinaryMerkle.node hasher.hashBranch
      (fun i => subtreeHash hasher leaves (h * P.internalNodeDepth) (idx * maxNodeChildren P + i))
      (min P.internalNodeDepth (P.treeDepth - h * P.internalNodeDepth)) 0) := by
  have hdepth : h * P.internalNodeDepth ≤ maxNibblesForInternalNode P * P.internalNodeDepth :=
    Nat.mul_le_mul_right _ hh
  have hmap : node.children.map ChildRef.hash ≠ [] := by simpa using hne
  simp only [InternalNode.hash, InternalNode.hashInner, assert, if_pos hdepth, if_true, ok_bind,
    head?_levelHashes hmap, expect, pure, Except.pure]
  rw [hc.node_row_hash]
  rw [Nat.zero_add, Nat.one_mul]
  exact Nat.pow_le_pow_right (by omega) (Nat.min_le_left _ _)

theorem hash_eq (hne : node.children ≠ [])
    (hh : h < maxNibblesForInternalNode P) : node.hash P hasher (h * P.internalNodeDepth) =
      .ok (subtreeHash hasher leaves ((h + 1) * P.internalNodeDepth) idx) := by
  have hfull : min P.internalNodeDepth (P.treeDepth - h * P.internalNodeDepth) = P.internalNodeDepth := by
    have h₁ := maxNibbles_mul_lt P
    have h₂ : (h + 1) * P.internalNodeDepth ≤ maxNibblesForInternalNode P * P.internalNodeDepth :=
      Nat.mul_le_mul_right _ hh
    rw [Nat.succ_mul] at h₂
    omega
  rw [hc.hashInner_eq hne hh.le, hfull, Nat.succ_mul, subtreeHash_add]
  rfl

end

theorem rootHash_eq (hc : ChildrenOf P hasher leaves (maxNibblesForInternalNode P) 0 node) (hne : node.children ≠ []) :
    node.hash P hasher (maxNibblesForInternalNode P * P.internalNodeDepth) =
      .ok (subtreeHash hasher leaves P.treeDepth 0) := by
  have hlast : min P.internalNodeDepth (P.treeDepth - maxNibblesForInternalNode P * P.internalNodeDepth) =
      P.treeDepth - maxNibblesForInternalNode P * P.internalNodeDepth := by
    have h₁ := treeDepth_le_mul P
    have h₂ := leafNibbles_pos P
    have h₃ : leafNibbles P = maxNibblesForInternalNode P + 1 := by
      simp only [maxNibblesForInternalNode]
      omega
    rw [h₃, Nat.succ_mul] at h₁
    omega
  have hdepth : maxNibblesForInternalNode P * P.internalNodeDepth +
      (P.treeDepth - maxNibblesForInternalNode P * P.internalNodeDepth) = P.treeDepth := by
    have := maxNibbles_mul_lt P
    omega
  rw [hc.hashInner_eq hne le_rfl, hlast, ← hdepth, subtreeHash_add]
  simp

end ChildrenOf

end MerkleTree
