import ZksyncOsServer.MerkleTree.Types

/-!
# Hashing of amortized nodes

`merkle_tree/src/hasher.rs`. An internal node of radix `2 ^ INTERNAL_NODE_DEPTH`
is hashed as a binary subtree over its child hashes; the root may use fewer
levels when the tree depth is no multiple of the internal node depth.
-/
namespace MerkleTree

open BinaryMerkle

variable {H : Type}

/-- The hashes given to `on_level` by the loop of `hash_inner`, lowest level first. -/
def levelHashes (hasher : HashTree H) (depth : Nat) : Nat → List H → List (List H)
  | 0, _ => []
  | count + 1, hashes =>
    let next := pairUp hasher.hashBranch (hasher.emptySubtreeHash depth) hashes
    next :: levelHashes hasher (depth + 1) count next

def InternalNode.hashInner (P : TreeParams) (hasher : HashTree H) (node : InternalNode H)
    (depth : Nat) (hashLastLevel : Bool) : Except TreeError (List (List H) × H) := do
  assert (depth ≤ maxNibblesForInternalNode P * P.internalNodeDepth) "assertion failed"
  let hashes := node.children.map ChildRef.hash
  let levelCount := min P.internalNodeDepth (P.treeDepth - depth)
  let levelCount := if hashLastLevel then levelCount else levelCount - 1
  let levels := levelHashes hasher depth levelCount hashes
  let top ← expect "index out of bounds" (levels.getLastD hashes).head?
  return (levels, top)

def InternalNode.hash (P : TreeParams) (hasher : HashTree H) (node : InternalNode H)
    (depth : Nat) : Except TreeError H := do
  let (_, top) ← node.hashInner P hasher depth true
  return top

/-- The padding of `internal_hashes`: each level is filled up to its full length. -/
def padLevels (hasher : HashTree H) : Nat → Nat → List (List H) → Except TreeError (List H)
  | _, _, [] => .ok []
  | depth, fullLevelLen, level :: rest => do
    assert (level.length ≤ fullLevelLen) "attempt to subtract with overflow"
    let tail ← padLevels hasher (depth + 1) (fullLevelLen / 2) rest
    return level ++ List.replicate (fullLevelLen - level.length)
      (hasher.emptySubtreeHash (depth + 1)) ++ tail

def InternalNode.internalHashes (P : TreeParams) (hasher : HashTree H) (node : InternalNode H)
    (depth : Nat) : Except TreeError (List H) := do
  let (levels, _) ← node.hashInner P hasher depth false
  padLevels hasher depth (2 ^ (P.internalNodeDepth - 1)) levels

def Root.hash (P : TreeParams) (hasher : HashTree H) (root : Root H) : Except TreeError H :=
  root.rootNode.hash P hasher (maxNibblesForInternalNode P * P.internalNodeDepth)

structure InternalHashes (H : Type) where
  nodes : Map Nat (InternalNode H)
  internalHashes : Map Nat (List H)
  internalNodeDepth : Nat
  levelOffsets : List Nat

def levelOffsetsFrom (internalNodeDepth : Nat) : Nat → Nat → Nat → List Nat
  | _, _, 0 => []
  | depthInNode, offset, count + 1 =>
    offset :: levelOffsetsFrom internalNodeDepth (depthInNode + 1)
      (offset + 2 ^ (internalNodeDepth - depthInNode)) count

def InternalHashes.new (P : TreeParams) (hasher : HashTree H) (nodes : Map Nat (InternalNode H))
    (depth : Nat) : Except TreeError (InternalHashes H) := do
  let hashes ← nodes.toList.mapM fun (idx, node) => do
    let hashes ← node.internalHashes P hasher depth
    return (idx, hashes)
  return {
    nodes
    internalHashes := .ofList hashes
    internalNodeDepth := P.internalNodeDepth
    levelOffsets := levelOffsetsFrom P.internalNodeDepth 1 0 (P.internalNodeDepth - 1) }

def InternalHashes.get (this : InternalHashes H) (depthInNode indexOnLevel : Nat) :
    Except TreeError H := do
  let bitShift := this.internalNodeDepth - depthInNode
  let nodeIndex := indexOnLevel / 2 ^ bitShift
  let indexInNode := indexOnLevel % 2 ^ bitShift
  if depthInNode = 0 then
    let node ← expect "no node" this.nodes[nodeIndex]?
    let child ← expect "index out of bounds" node.children[indexInNode]?
    return child.hash
  else
    let offset ← expect "index out of bounds" this.levelOffsets[depthInNode - 1]?
    let hashes ← expect "no node" this.internalHashes[nodeIndex]?
    expect "index out of bounds" hashes[offset + indexInNode]?

end MerkleTree
