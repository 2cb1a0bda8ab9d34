import ZksyncOsServer.MerkleTree.Tree

/-!
# Flat proofs

`merkle_tree_api/src/flat.rs` and `prove_flat` of `merkle_tree_api/src/lib.rs`.
-/
namespace MerkleTree

variable {H DB : Type}

structure StorageSlotProofEntry (H : Type) where
  index : Nat
  value : B256
  nextIndex : Nat
  /-- Merkle path in leaf-to-root order, to be padded by hashes of empty subtrees. -/
  siblings : List H
  deriving DecidableEq

namespace StorageSlotProofEntry

/-- The loop of `StorageSlotProofEntry::hash`, `count` levels starting at `depth`. -/
def foldPath (hasher : HashTree H) (siblings : List H) : Nat → Nat → Nat → H → H
  | 0, _, _, hash => hash
  | count + 1, depth, index, hash =>
    let siblingHash := siblings[depth]?.getD (hasher.emptySubtreeHash depth)
    let hash :=
      if index % 2 = 0 then hasher.hashBranch hash siblingHash else hasher.hashBranch siblingHash hash
    foldPath hasher siblings count (depth + 1) (index / 2) hash

def hash (hasher : HashTree H) (this : StorageSlotProofEntry H) (treeDepth : Nat) (leafKey : B256) :
    Except TreeError H := do
  ensure (this.siblings.length < treeDepth)
    "Condition failed: `self.siblings.len() < usize::from(tree_depth)`"
  return foldPath hasher this.siblings treeDepth 0 this.index (hasher.hashLeaf ⟨leafKey, this.value, this.nextIndex⟩)

end StorageSlotProofEntry

structure StorageSlotProofEntryWithKey (H : Type) where
  inner : StorageSlotProofEntry H
  leafKey : B256
  deriving DecidableEq

def StorageSlotProofEntryWithKey.hash (hasher : HashTree H) (this : StorageSlotProofEntryWithKey H)
    (treeDepth : Nat) : Except TreeError H :=
  this.inner.hash hasher treeDepth this.leafKey

inductive InnerStorageSlotProof (H : Type) where
  | existing (entry : StorageSlotProofEntry H)
  | nonExisting (leftNeighbor rightNeighbor : StorageSlotProofEntryWithKey H)
  deriving DecidableEq

def InnerStorageSlotProof.verify [DecidableEq H] (hasher : HashTree H) (treeDepth : Nat) (key : B256) :
    InnerStorageSlotProof H → Except TreeError H
  | .existing entry => entry.hash hasher treeDepth key
  | .nonExisting leftNeighbor rightNeighbor => do
    ensure (leftNeighbor.leafKey < key) "Condition failed: `left_neighbor.leaf_key < key`"
    ensure (key < rightNeighbor.leafKey) "Condition failed: `key < right_neighbor.leaf_key`"
    ensure (leftNeighbor.inner.nextIndex = rightNeighbor.inner.index)
      "Condition failed: `left_neighbor.inner.next_index == right_neighbor.inner.index`"
    let rootHashLeft ← leftNeighbor.hash hasher treeDepth
    let rootHashRight ← rightNeighbor.hash hasher treeDepth
    ensure (rootHashLeft = rootHashRight) "Condition failed: `root_hash_left == root_hash_right`"
    return rootHashLeft

structure StorageSlotProof (H : Type) where
  key : B256
  proof : InnerStorageSlotProof H
  deriving DecidableEq

def StorageSlotProof.verify [DecidableEq H] (hasher : HashTree H) (this : StorageSlotProof H)
    (treeDepth : Nat) : Except TreeError H :=
  this.proof.verify hasher treeDepth this.key

def StorageSlotProof.value (this : StorageSlotProof H) : Option B256 :=
  match this.proof with
  | .existing entry => some entry.value
  | .nonExisting _ _ => none

namespace BatchTreeProof

def siblingHashes (this : BatchTreeProof H) (hasher : HashTree H) (treeDepth leafCount : Nat) :
    Except TreeError (List (SiblingHash H)) :=
  if this.sortedLeaves.isEmpty then .ok []
  else match zipLeaves hasher treeDepth leafCount this.sortedLeaves.toList this.hashes with
    | .ok (_, siblings) => .ok siblings
    | .error _ => .error (.panic "invalid batch tree proof")

/-- The closure `get_sibling_hash` of `to_flat`. The cursor `sibling_idx` is the
list of sibling hashes from the current one on. -/
def getSiblingHash [DecidableEq H] (depth idx : Nat) :
    List (SiblingHash H) → Except TreeError (H × List (SiblingHash H))
  | [] => .error (.panic "index out of bounds")
  | current :: rest =>
    if current.location = (depth, idx) then .ok (current.value, current :: rest)
    else match rest with
      | [] => .error (.panic "index out of bounds")
      | next :: rest =>
        if next.location = (depth, idx) then .ok (next.value, next :: rest)
        else .error (.panic "sibling hashes extracted incorrectly")

structure PathEntry (H : Type) where
  indexOnLevel : Nat
  entry : StorageSlotProofEntry H

/-- The body of the inner loop of `to_flat`. -/
def flatStep [DecidableEq H] (hasher : HashTree H) (depth lastIdxOnLevel : Nat) (e : PathEntry H)
    (cursor : List (SiblingHash H)) : Except TreeError (PathEntry H × List (SiblingHash H)) := do
  let (siblingHash, cursor) ←
    if e.indexOnLevel % 2 = 1 then getSiblingHash depth (e.indexOnLevel - 1) cursor
    else if e.indexOnLevel = lastIdxOnLevel then pure (hasher.emptySubtreeHash depth, cursor)
    else getSiblingHash depth (e.indexOnLevel + 1) cursor
  return (⟨e.indexOnLevel / 2, { e.entry with siblings := e.entry.siblings ++ [siblingHash] }⟩, cursor)

def flatLevel [DecidableEq H] (hasher : HashTree H) (depth lastIdxOnLevel : Nat) :
    List (PathEntry H) → List (SiblingHash H) →
    Except TreeError (List (PathEntry H) × List (SiblingHash H))
  | [], cursor => .ok ([], cursor)
  | e :: rest, cursor => do
    let (e, cursor) ← flatStep hasher depth lastIdxOnLevel e cursor
    let (rest, cursor) ← flatLevel hasher depth lastIdxOnLevel rest cursor
    return (e :: rest, cursor)

/-- The outer loop of `to_flat`, `count` levels starting at `depth`; it stops
when only empty subtrees are left. -/
def flatLevels [DecidableEq H] (hasher : HashTree H) : Nat → Nat → Nat →
    List (PathEntry H) → List (SiblingHash H) → Except TreeError (List (PathEntry H))
  | 0, _, _, entries, _ => .ok entries
  | count + 1, depth, lastIdxOnLevel, entries, cursor => do
    let (entries, cursor) ← flatLevel hasher depth lastIdxOnLevel entries cursor
    if lastIdxOnLevel / 2 = 0 then return entries
    else flatLevels hasher count (depth + 1) (lastIdxOnLevel / 2) entries cursor

def flatProof (this : BatchTreeProof H) (proofEntries : Map Nat (StorageSlotProofEntry H)) :
    TreeOperation → Except TreeError (InnerStorageSlotProof H)
  | .hit index => do
    let entry ← expect "no entry" proofEntries[index]?
    return .existing entry
  | .miss prevIndex => do
    let prevEntry ← expect "no entry" proofEntries[prevIndex]?
    let prevLeaf ← expect "no entry" this.sortedLeaves[prevIndex]?
    let nextEntry ← expect "no entry" proofEntries[prevEntry.nextIndex]?
    let nextLeaf ← expect "no entry" this.sortedLeaves[prevEntry.nextIndex]?
    return .nonExisting ⟨prevEntry, prevLeaf.key⟩ ⟨nextEntry, nextLeaf.key⟩

def toFlat [DecidableEq H] (this : BatchTreeProof H) (hasher : HashTree H) (treeDepth leafCount : Nat) :
    Except TreeError (List (InnerStorageSlotProof H)) := do
  assert (this.operations.isEmpty = true) "assertion failed"
  let siblingHashes ← this.siblingHashes hasher treeDepth leafCount
  let indexesOnLevel := this.sortedLeaves.toList.map fun (index, leaf) =>
    PathEntry.mk index ⟨index, leaf.value, leaf.nextIndex, ([] : List H)⟩
  assert (0 < leafCount) "attempt to subtract with overflow"
  let entries ← flatLevels hasher treeDepth 0 (leafCount - 1) indexesOnLevel siblingHashes
  let proofEntries : Map Nat (StorageSlotProofEntry H) := .ofList (entries.map fun e => (e.entry.index, e.entry))
  this.readOperations.mapM (this.flatProof proofEntries)

end BatchTreeProof

def proveFlat [Database DB H] [DecidableEq H] (P : TreeParams) (hasher : HashTree H) (db : DB)
    (version : Nat) (keys : List B256) :
    Except TreeError (Option (List (StorageSlotProof H) × TreeBatchOutput H)) := do
  let some (proof, batchOutput) ← prove P hasher db version keys
    | return none
  let proofs ← proof.toFlat hasher P.treeDepth batchOutput.leafCount
  return some ((proofs.zip keys).map fun (proof, key) => ⟨key, proof⟩, batchOutput)

end MerkleTree
