import ZksyncOsServer.Lib.Fallible

/-!
# In-memory Merkle trees with trimmed leaves

`mini_merkle_tree/src/lib.rs`. The deque of hashes is a list, a panic is an error
with its message. The hasher is given by its compression function and its empty
leaf hash; leaves enter as hashes.
-/
namespace MiniMerkleTree

open Fallible

variable {H : Type}

/-- `HashEmptySubtree`. -/
structure Hasher (H : Type) where
  compress : H → H → H
  emptyLeafHash : H

def maxTreeDepth : Nat := 32

def computeEmptyTreeHashes (hasher : Hasher H) (emptyLeafHash : H) : List H :=
  List.iterate (fun hash => hasher.compress hash hash) emptyLeafHash (maxTreeDepth + 1)

def Hasher.emptySubtreeHash (hasher : Hasher H) (depth : Nat) : Except String H :=
  ofOption "index out of bounds" (computeEmptyTreeHashes hasher hasher.emptyLeafHash)[depth]?

/-- `MiniMerkleTree`; the hasher is passed separately. -/
structure Tree (H : Type) where
  hashes : List H
  binaryTreeSize : Nat
  startIndex : Nat
  cache : List (Option H)
  emptyLeafHash : Option H

inductive Side where
  | left | right
  deriving DecidableEq

def nextPowerOfTwo (n : Nat) : Nat := 2 ^ Nat.clog 2 n

def isPowerOfTwo (n : Nat) : Bool := n == 2 ^ n.log2

/-- `tree_depth_by_size`: trailing zeros of a 64-bit number. -/
def treeDepthBySize (treeSize : Nat) : Nat := ((List.range 64).find? (treeSize.testBit ·)).getD 64

namespace Tree

def fromHashes (hashes : List H) (minTreeSize : Option Nat) : Except String (Tree H) := do
  require (∀ size ∈ minTreeSize, isPowerOfTwo size = true) "tree size must be a power of 2"
  let binaryTreeSize := max (minTreeSize.getD 0) (nextPowerOfTwo hashes.length)
  let depth := treeDepthBySize binaryTreeSize
  require (depth ≤ maxTreeDepth) "Tree contains more than 4294967296 items; this is not supported"
  return {
    hashes
    binaryTreeSize
    startIndex := 0
    cache := List.replicate depth none
    emptyLeafHash := none }

/-- The check of `init_cached`: a slot is filled exactly for the set bits of the index. -/
def cacheMatches : Nat → List (Option H) → Bool
  | _, [] => true
  | index, item :: cache => (item.isSome == (index % 2 == 1)) && cacheMatches (index / 2) cache

def initCached (startIndex : Nat) (cache : List (Option H)) : Except String (Tree H) := do
  let binaryTreeSize := nextPowerOfTwo startIndex
  let depth := treeDepthBySize binaryTreeSize
  require (depth ≤ maxTreeDepth) "Tree contains more than 4294967296 items; this is not supported"
  let expectedMinCacheLen := if startIndex < binaryTreeSize then depth else depth + 1
  require (expectedMinCacheLen ≤ cache.length) "inconsistent input: cache length is too small"
  let cache := cache.take expectedMinCacheLen
  require (cacheMatches startIndex cache = true) "assertion failed"
  return { hashes := [], binaryTreeSize, startIndex, cache, emptyLeafHash := none }

def withLeftSibling (cache : List (Option H)) (level start : Nat) (hashes : List H) : Except String (List H) :=
  if start % 2 = 0 then .ok hashes
  else do
    let slot ← ofOption "index out of bounds" cache[level]?
    let left ← ofOption "cache is invalid" slot
    return left :: hashes

def withRightSibling (emptyHashes : List H) (level : Nat) (hashes : List H) : Except String (List H) :=
  if hashes.length % 2 = 0 then .ok hashes
  else do
    let empty ← ofOption "index out of bounds" emptyHashes[level]?
    return hashes ++ [empty]

def pathElement (side : Option Side) (index : Nat) (hashes : List H) : Option H :=
  match side with
  | some .left => if index % 2 = 0 then none else hashes[index ^^^ 1]?
  | some .right => if index % 2 = 0 then hashes[index ^^^ 1]? else none
  | none => hashes[index ^^^ 1]?

/-- Hashes of the pairs of an even number of nodes. -/
def compressPairs (hasher : Hasher H) : List H → List H
  | x :: y :: rest => hasher.compress x y :: compressPairs hasher rest
  | _ => []

/-- The loop of `compute_merkle_root_and_path` over the given number of levels:
the nodes above the last level and the path. -/
def computeLevels (hasher : Hasher H) (emptyHashes : List H) (cache : List (Option H)) (side : Option Side) :
    Nat → Nat → Nat → Nat → List H → Except String (List H × List (Option H))
  | 0, _, _, _, hashes => .ok (hashes, [])
  | count + 1, level, index, absoluteStartIndex, hashes => do
    let hashes ← withLeftSibling cache level absoluteStartIndex hashes
    let index := index + absoluteStartIndex % 2
    let hashes ← withRightSibling emptyHashes level hashes
    let (root, path) ← computeLevels hasher emptyHashes cache side count (level + 1) (index / 2)
      (absoluteStartIndex / 2) (compressPairs hasher hashes)
    return (root, pathElement side index hashes :: path)

variable (hasher : Hasher H)

/-- `compute_merkle_root_and_path`; the path is dropped by callers that do not ask for it. -/
def computeMerkleRootAndPath (this : Tree H) (index : Nat) (side : Option Side) :
    Except String (H × List (Option H)) := do
  let depth := treeDepthBySize this.binaryTreeSize
  let emptyHashes := computeEmptyTreeHashes hasher (this.emptyLeafHash.getD hasher.emptyLeafHash)
  let (hashes, path) ← computeLevels hasher emptyHashes this.cache side depth 0 index this.startIndex this.hashes
  let root ← ofOption "Out of bounds access" hashes[0]?
  return (root, path)

def merkleRoot (this : Tree H) : Except String H :=
  let depth := treeDepthBySize this.binaryTreeSize
  if this.hashes.isEmpty && this.startIndex == 0 then hasher.emptySubtreeHash depth
  else if this.hashes.isEmpty && this.startIndex == this.binaryTreeSize then do
    let slot ← ofOption "index out of bounds" this.cache[depth]?
    ofOption "cache is invalid" slot
  else do return (← this.computeMerkleRootAndPath hasher 0 none).1

/-- `merkle_root_and_path`; the index is relative to the first untrimmed leaf. -/
def merkleRootAndPath (this : Tree H) (index : Nat) : Except String (H × List H) := do
  require (index < this.hashes.length) "leaf index out of bounds"
  let (root, path) ← this.computeMerkleRootAndPath hasher index none
  return (root, ← path.mapM (ofOption "called `Option::unwrap()` on a `None` value"))

def merkleRootAndPathsForRange (this : Tree H) (first last : Nat) :
    Except String (H × List (Option H) × List (Option H)) := do
  require (0 < last) "empty range"
  require (last ≤ this.hashes.length) "range index out of bounds"
  let (root, rightPath) ← this.computeMerkleRootAndPath hasher (last - 1) (some .right)
  let (_, leftPath) ← this.computeMerkleRootAndPath hasher first (some .left)
  return (root, leftPath, rightPath)

def pushHash (this : Tree H) (leafHash : H) : Tree H :=
  let hashes := this.hashes ++ [leafHash]
  if this.binaryTreeSize < this.startIndex + hashes.length then
    let binaryTreeSize := this.binaryTreeSize * 2
    { this with
      hashes
      binaryTreeSize
      cache := if this.cache.length < treeDepthBySize binaryTreeSize then this.cache ++ [none] else this.cache }
  else { this with hashes }

section
variable (this : Tree H) (leafHash : H)

@[simp] theorem hashes_pushHash : (this.pushHash leafHash).hashes = this.hashes ++ [leafHash] := by
  rw [pushHash]
  split <;> rfl

@[simp] theorem startIndex_pushHash : (this.pushHash leafHash).startIndex = this.startIndex := by
  rw [pushHash]
  split <;> rfl

@[simp] theorem emptyLeafHash_pushHash : (this.pushHash leafHash).emptyLeafHash = this.emptyLeafHash := by
  rw [pushHash]
  split <;> rfl

end

def trimStart (this : Tree H) (count : Nat) : Except String (Tree H) := do
  require (count ≤ this.hashes.length) "not enough leaves to trim"
  let (root, newCache) ← this.computeMerkleRootAndPath hasher count (some .left)
  let startIndex := this.startIndex + count
  return { this with
    hashes := this.hashes.drop count
    startIndex
    -- A completely trimmed tree that will grow on the next push keeps its root.
    cache := if startIndex = this.binaryTreeSize then newCache ++ [some root] else newCache }

end Tree

end MiniMerkleTree
