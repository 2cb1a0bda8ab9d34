import ZksyncOsServer.Lib.LevelWalk
import ZksyncOsServer.MerkleTree.Types

/-!
# Batch proofs and their verification

`merkle_tree_api/src/proofs.rs`. `IntermediateHash<()>` is a bare hash here;
the located variant is kept for the sibling hashes of flat proofs.
-/
namespace MerkleTree

open LevelWalk (Step steps)

variable {H : Type}

inductive TreeOperation where
  | hit (index : Nat)
  | miss (prevIndex : Nat)
  deriving DecidableEq

structure IntermediateHash (H Loc : Type) where
  value : H
  location : Loc
  deriving DecidableEq

abbrev SiblingHash (H : Type) := IntermediateHash H (Nat × Nat)

structure MerkleTreeView (H : Type) where
  rootHash : H
  readEntries : Map B256 (Option B256)

structure BatchTreeProof (H : Type) where
  operations : List TreeOperation
  readOperations : List TreeOperation
  sortedLeaves : Map Nat Leaf
  hashes : List H

/-- One iteration of the inner loop of `zip_leaves`: the node on the next level,
the remaining hashes and the siblings to record. In a pair the right sibling is
recorded first. -/
def zipStep (hasher : HashTree H) (depth lastIdx : Nat) :
    Step H → List H → Except TreeError ((Nat × H) × List H × List (SiblingHash H))
  | .odd i current, lhs :: hashes =>
    .ok ((i / 2, hasher.hashBranch lhs current), hashes, [⟨lhs, depth, i - 1⟩])
  | .odd _ _, [] => .error (.bail "ran out of hashes")
  | .pair i current next, hashes =>
    .ok ((i / 2, hasher.hashBranch current next), hashes, [⟨next, depth, i + 1⟩, ⟨current, depth, i⟩])
  | .single i current, hashes =>
    if i = lastIdx then
      .ok ((i / 2, hasher.hashBranch current (hasher.emptySubtreeHash depth)), hashes, [])
    else match hashes with
      | rhs :: hashes => .ok ((i / 2, hasher.hashBranch current rhs), hashes, [⟨rhs, depth, i + 1⟩])
      | [] => .error (.bail "ran out of hashes")

/-- The inner loop of `zip_leaves` over one level. -/
def zipSteps (hasher : HashTree H) (depth lastIdx : Nat) :
    List (Step H) → List H → Except TreeError (List (Nat × H) × List H × List (SiblingHash H))
  | [], hashes => .ok ([], hashes, [])
  | step :: rest, hashes => do
    let (node, hashes, siblings) ← zipStep hasher depth lastIdx step hashes
    let (nodes, hashes, siblings') ← zipSteps hasher depth lastIdx rest hashes
    return (node :: nodes, hashes, siblings ++ siblings')

/-- The outer loop of `zip_leaves`, `count` levels starting at `depth`. -/
def zipLevels (hasher : HashTree H) : Nat → Nat → Nat → List (Nat × H) → List H →
    Except TreeError (List (Nat × H) × List H × List (SiblingHash H))
  | 0, _, _, nodes, hashes => .ok (nodes, hashes, [])
  | count + 1, depth, lastIdx, nodes, hashes => do
    let (nodes, hashes, siblings) ← zipSteps hasher depth lastIdx (steps nodes) hashes
    let (nodes, hashes, siblings') ← zipLevels hasher count (depth + 1) (lastIdx / 2) nodes hashes
    return (nodes, hashes, siblings ++ siblings')

def zipLeaves (hasher : HashTree H) (treeDepth leafCount : Nat) (sortedLeaves : List (Nat × Leaf))
    (hashes : List H) : Except TreeError (H × List (SiblingHash H)) := do
  let nodeHashes := sortedLeaves.map fun x => (x.1, hasher.hashLeaf x.2)
  ensure (nodeHashes.isEmpty = false)
    "cannot fold zero leaves; an empty batch proof must be handled by the caller"
  assert (0 < leafCount) "attempt to subtract with overflow"
  let (nodes, rest, siblings) ← zipLevels hasher treeDepth 0 (leafCount - 1) nodeHashes hashes
  ensure (rest.isEmpty = true) "not all hashes consumed"
  let top ← expect "index out of bounds" nodes.head?
  return (top.2, siblings)

def rangeFrom {K V : Type} [LinearOrder K] (m : Map K V) (key : K) : List (K × V) :=
  m.toList.filter fun e => key ≤ e.1

/-- `range(..key).next_back()` of a `BTreeMap`. -/
def prevEntry {K V : Type} [LinearOrder K] (m : Map K V) (key : K) : Option (K × V) :=
  SortedMap.last m fun k _ => k < key

/-- `range((Excluded(key), Unbounded)).next()` of a `BTreeMap`. -/
def nextEntry {K V : Type} [LinearOrder K] (m : Map K V) (key : K) : Option (K × V) :=
  SortedMap.first m fun k _ => key < k

namespace BatchTreeProof

def verifyOperation (this : BatchTreeProof H) (prevOutput : TreeBatchOutput H)
    (operation : TreeOperation) (key : B256) : Except TreeError Unit :=
  match operation with
  | .hit index => do
    ensure (index < prevOutput.leafCount) s!"Non-existing index {index}"
    let some existingLeaf := this.sortedLeaves[index]?
      | throw (.bail s!"Update / read for index {index} is not proven")
    ensure (existingLeaf.key = key) s!"Update / read for index {index} has unexpected key"
  | .miss prevIndex => do
    let some prevLeaf := this.sortedLeaves[prevIndex]?
      | throw (.bail s!"prev leaf {prevIndex} is not proven")
    ensure (prevLeaf.key < key) "Condition failed: `prev_leaf.key < *key`"
    let some oldNextLeaf := this.sortedLeaves[prevLeaf.nextIndex]?
      | throw (.bail "old next leaf is not proven")
    ensure (key < oldNextLeaf.key) "Condition failed: `*key < old_next_leaf.key`"

def readValue (this : BatchTreeProof H) : TreeOperation → Except TreeError (Option B256)
  | .hit index => do
    let leaf ← expect "no entry" this.sortedLeaves[index]?
    return some leaf.value
  | .miss _ => .ok none

def verifyReadOperations (this : BatchTreeProof H) (prevOutput : TreeBatchOutput H) :
    List (TreeOperation × B256) → Map B256 (Option B256) → Except TreeError (Map B256 (Option B256))
  | [], readEntries => .ok readEntries
  | (operation, readKey) :: rest, readEntries => do
    this.verifyOperation prevOutput operation readKey
    let value ← this.readValue operation
    this.verifyReadOperations prevOutput rest (readEntries.insert readKey value)

/-- The loop of `verify` that assigns indices to the inserted keys. -/
def verifyEntries (this : BatchTreeProof H) (prevOutput : TreeBatchOutput H) :
    List (TreeOperation × TreeEntry) → Map B256 Nat → Nat → Except TreeError (Map B256 Nat × Nat)
  | [], indexByKey, nextTreeIndex => .ok (indexByKey, nextTreeIndex)
  | (operation, entry) :: rest, indexByKey, nextTreeIndex => do
    this.verifyOperation prevOutput operation entry.key
    match operation with
    | .hit _ => this.verifyEntries prevOutput rest indexByKey nextTreeIndex
    | .miss _ =>
      assert (nextTreeIndex + 1 < u64Bound) "attempt to add with overflow"
      this.verifyEntries prevOutput rest (indexByKey.insert entry.key nextTreeIndex) (nextTreeIndex + 1)

/-- The loop of `verify` that updates the leaves and adds the inserted ones. -/
def expandLeaves (indexByKey : Map B256 Nat) :
    List (TreeOperation × TreeEntry) → Map Nat Leaf → Except TreeError (Map Nat Leaf)
  | [], sortedLeaves => .ok sortedLeaves
  | (.hit index, entry) :: rest, sortedLeaves => do
    let leaf ← expect "no entry" sortedLeaves[index]?
    expandLeaves indexByKey rest (sortedLeaves.insert index { leaf with value := entry.value })
  | (.miss _, entry) :: rest, sortedLeaves => do
    let it := rangeFrom indexByKey entry.key
    let (_, thisIndex) ← expect "no entry" it[0]?
    let (_, nextIndex) ← expect "no entry" it[1]?
    let (_, prevIndex) ← expect "no entry" (prevEntry indexByKey entry.key)
    let sortedLeaves := sortedLeaves.insert thisIndex ⟨entry.key, entry.value, nextIndex⟩
    -- The previous leaf may be missing if it is inserted in the batch as well.
    let sortedLeaves := match sortedLeaves[prevIndex]? with
      | some prevLeaf => sortedLeaves.insert prevIndex { prevLeaf with nextIndex := thisIndex }
      | none => sortedLeaves
    expandLeaves indexByKey rest sortedLeaves

def verifyForEmptyTree (this : BatchTreeProof H) (hasher : HashTree H) (treeDepth : Nat)
    (entries : List TreeEntry) (readKeys : List B256) : Except TreeError (MerkleTreeView H) := do
  ensure (this.sortedLeaves.isEmpty = true) "Condition failed: `self.sorted_leaves.is_empty()`"
  ensure (this.operations.isEmpty = true) "Condition failed: `self.operations.is_empty()`"
  ensure (this.readOperations.isEmpty = true) "Condition failed: `self.read_operations.is_empty()`"
  ensure (this.hashes.isEmpty = true) "Condition failed: `self.hashes.is_empty()`"
  let indexByKey : Map B256 Nat := .ofList (entries.zipIdx.map fun (entry, i) => (entry.key, i + 2))
  ensure (indexByKey.size = entries.length) "There are entries with duplicate keys"
  let sortedLeaves := entries.map fun entry =>
    -- The key itself is the first yielded item.
    let nextIndex := ((rangeFrom indexByKey entry.key)[1]?.map Prod.snd).getD 1
    Leaf.mk entry.key entry.value nextIndex
  let minLeafIndex := (indexByKey.toList.head?.map Prod.snd).getD 1
  let minGuard := { Leaf.minGuard with nextIndex := minLeafIndex }
  let leavesWithGuards := (0, minGuard) :: (1, Leaf.maxGuard) ::
    sortedLeaves.zipIdx.map fun (leaf, i) => (i + 2, leaf)
  let (newTreeHash, _) ← zipLeaves hasher treeDepth (2 + entries.length) leavesWithGuards []
  return ⟨newTreeHash, .ofList (readKeys.map fun key => (key, none))⟩

/-- The part of `verify` after the read operations: restores the previous root
hash, and the new one if there are updates or inserts. -/
def verifyRoots [DecidableEq H] (this : BatchTreeProof H) (hasher : HashTree H) (treeDepth : Nat)
    (prevOutput : TreeBatchOutput H) (entries : List TreeEntry) : Except TreeError H := do
  let indexByKey : Map B256 Nat := .ofList (this.sortedLeaves.toList.map fun x => (x.2.key, x.1))
  let operations := this.operations.zip entries
  let (indexByKey, nextTreeIndex) ←
    this.verifyEntries prevOutput operations indexByKey prevOutput.leafCount
  let (restoredPrevHash, _) ←
    zipLeaves hasher treeDepth prevOutput.leafCount this.sortedLeaves.toList this.hashes
  ensure (restoredPrevHash = prevOutput.rootHash) "Mismatch for previous root hash"
  if this.operations.isEmpty then return restoredPrevHash
  else
    let sortedLeaves ← expandLeaves indexByKey operations this.sortedLeaves
    let (newRootHash, _) ←
      zipLeaves hasher treeDepth nextTreeIndex sortedLeaves.toList this.hashes
    return newRootHash

def verify [DecidableEq H] (this : BatchTreeProof H) (hasher : HashTree H) (treeDepth : Nat)
    (prevOutput : Option (TreeBatchOutput H)) (entries : List TreeEntry) (readKeys : List B256) :
    Except TreeError (MerkleTreeView H) :=
  match prevOutput with
  | none => this.verifyForEmptyTree hasher treeDepth entries readKeys
  | some prevOutput => do
    ensure (this.operations.length = entries.length) "Unexpected operations length"
    ensure (this.readOperations.length = readKeys.length) "Unexpected read operations length"
    ensure (∀ e ∈ SortedMap.last this.sortedLeaves (fun _ _ => true), e.1 < prevOutput.leafCount)
      "Index is too large"
    if this.operations.isEmpty && this.readOperations.isEmpty then
      -- There are no operations to be proven.
      return ⟨prevOutput.rootHash, ∅⟩
    else
      let readEntries ← this.verifyReadOperations prevOutput (this.readOperations.zip readKeys) ∅
      let rootHash ← this.verifyRoots hasher treeDepth prevOutput entries
      return ⟨rootHash, readEntries⟩

def verifyReads [DecidableEq H] (this : BatchTreeProof H) (hasher : HashTree H) (treeDepth : Nat)
    (prevOutput : TreeBatchOutput H) (readKeys : List B256) : Except TreeError (MerkleTreeView H) :=
  this.verify hasher treeDepth (some prevOutput) [] readKeys

end BatchTreeProof

end MerkleTree
