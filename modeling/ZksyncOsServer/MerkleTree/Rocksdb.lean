import ZksyncOsServer.MerkleTree.Tree

/-!
# The RocksDB backend

`merkle_tree/src/storage/rocksdb.rs`. A column family is an ordered map and a
write batch is applied as a whole. Values are kept deserialized; a value read
under a key of another kind is a deserialization error. The manifest has a key
of its own below all node keys.
-/
namespace MerkleTree

variable {H : Type}

/-- `NodeKey::as_db_key`: version, nibble count and index in big-endian order. -/
abbrev DbKey := Nat ×ₗ Nat ×ₗ Nat

def NodeKey.asDbKey (key : NodeKey) : DbKey :=
  toLex (key.version, toLex (key.nibbleCount, key.indexOnLevel))

/-- A value of the `Tree` column family. -/
inductive DbValue (H : Type) where
  | root : Root H → DbValue H
  | node : Node H → DbValue H
  deriving DecidableEq

structure RocksDBWrapper (H : Type) where
  manifest : Option Manifest
  tree : Map DbKey (DbValue H)
  keyIndices : Map B256 InsertedKeyEntry
  /-- The `OnceCell` holding the number of nibbles of leaf keys. -/
  leafNibbles : Option Nat

namespace RocksDBWrapper

/-- A wrapper of a fresh database. -/
def empty : RocksDBWrapper H := ⟨none, ∅, ∅, none⟩

def leafNibblesFromManifest (manifest : Manifest) : Nat :=
  (manifest.tags.depth + manifest.tags.internalNodeDepth - 1) / manifest.tags.internalNodeDepth

variable (this : RocksDBWrapper H)

/-- `set_leaf_nibbles`, returning the value the cell holds afterwards. -/
def setLeafNibbles (manifest : Manifest) : Except TreeError Nat := do
  match this.leafNibbles with
  | some leafNibbles =>
    ensure (leafNibblesFromManifest manifest = leafNibbles) "Invalid manifest update"
  | none => pure ()
  return leafNibblesFromManifest manifest

/-- `deserialize_node`. The cell is filled from the manifest if it is empty; the
cached value is the one computed here, so reads do not return a new state. -/
def deserializeNode (value : DbValue H) (key : NodeKey) :
    Except TreeError (Node H) := do
  let leafNibbles ← match this.leafNibbles with
    | some leafNibbles => pure leafNibbles
    | none => match this.manifest with
      | some manifest => pure (leafNibblesFromManifest manifest)
      | none => throw (.bail "Tree manifest was expected, but is missing")
  match value with
  | .node (.leaf leaf) =>
    if key.nibbleCount = leafNibbles then return .leaf leaf
    else throw (.bail "malformed internal node")
  | .node (.internal node) =>
    if key.nibbleCount = leafNibbles then throw (.bail "malformed leaf")
    else return .internal node
  | .root _ => throw (.bail "data left after deserialization")

def getKeyIndex (version : Nat) (key : B256) : Option Nat :=
  match this.keyIndices[key]? with
  | some entry => if entry.insertedAt ≤ version then some entry.index else none
  | none => none

/-- `find_key_and_value::<false>`: forward from `key`. -/
def findNext (key : B256) (version : Nat) : Option (B256 × Nat) :=
  (SortedMap.first this.keyIndices fun k entry => key ≤ k && entry.insertedAt ≤ version).map
    fun e => (e.1, e.2.index)

/-- `find_key_and_value::<true>`: backward from `key`, itself included. -/
def findPrev (key : B256) (version : Nat) : Option (B256 × Nat) :=
  (SortedMap.last this.keyIndices fun k entry => k ≤ key && entry.insertedAt ≤ version).map
    fun e => (e.1, e.2.index)

def lookupKey (version : Nat) (key : B256) : KeyLookup :=
  let next := (this.findNext key version).getD (⊤, 1)
  if next.1 = key then .existing next.2
  else .missing ((this.findPrev key version).getD (⊥, 0)) next

def index (version : Nat) (key : B256) : KeyLookup :=
  match this.getKeyIndex version key with
  | some idx => .existing idx
  | none => this.lookupKey version key

/-- The root of a version is read without looking at the manifest. -/
def tryRoot (version : Nat) : Except TreeError (Option (Root H)) :=
  match this.tree[(NodeKey.root version).asDbKey]? with
  | none => .ok none
  | some (.root root) => .ok (some root)
  | some (.node _) => .error (.bail "malformed root")

def tryNode (key : NodeKey) : Except TreeError (Node H) :=
  match this.tree[key.asDbKey]? with
  | some value => this.deserializeNode value key
  | none => .error (.missingNode key)

/-- The puts of one version in `apply_patch`; the root is written separately. -/
def versionEntries (leafNibbles version : Nat) (subPatch : PartialPatchSet H) :
    List (DbKey × DbValue H) :=
  (subPatch.internal.zipIdx.drop 1).flatMap (fun (level, nibbleCount) =>
    level.toList.map fun (indexOnLevel, node) =>
      ((NodeKey.mk version nibbleCount indexOnLevel).asDbKey, .node (.internal node))) ++
  subPatch.leaves.toList.map fun (indexOnLevel, leaf) =>
    ((NodeKey.mk version leafNibbles indexOnLevel).asDbKey, .node (.leaf leaf))

/-- Writing one version: the key range of the version is deleted first, which
removes what a truncated version of the same number left behind. -/
def writeVersion (leafNibbles : Nat) (tree : Map DbKey (DbValue H)) (version : Nat)
    (subPatch : PartialPatchSet H) : Except TreeError (Map DbKey (DbValue H)) := do
  let rootKey := (NodeKey.root version).asDbKey
  let nextRootKey := (NodeKey.root (version + 1)).asDbKey
  let tree := tree.filter fun key _ => !(decide (rootKey ≤ key) && decide (key < nextRootKey))
  let root ← subPatch.root
  return (tree.insert rootKey (.root root)).insertMany (versionEntries leafNibbles version subPatch)

/-- The loop of `apply_patch` over the versions of a patch. -/
def writeVersions (leafNibbles : Nat) :
    List (Nat × PartialPatchSet H) → Map DbKey (DbValue H) → Except TreeError (Map DbKey (DbValue H))
  | [], tree => .ok tree
  | (version, subPatch) :: rest, tree => do
    let tree ← writeVersion leafNibbles tree version subPatch
    writeVersions leafNibbles rest tree

def applyPatch (patch : PatchSet H) : Except TreeError (RocksDBWrapper H) := do
  let leafNibbles ← this.setLeafNibbles patch.manifest
  let tree ← writeVersions leafNibbles patch.patchesByVersion.toList this.tree
  return {
    manifest := some patch.manifest
    tree
    keyIndices := this.keyIndices.insertMany patch.sortedNewLeaves.toList
    leafNibbles := some leafNibbles }

/-- The leaves of a version from a start index on, read by an iterator that stops
at the first key of another version or level. -/
def leavesFrom (leafNibbles version start : Nat) : List (DbKey × DbValue H) :=
  let startLeafKey := (NodeKey.mk version leafNibbles start).asDbKey
  (this.tree.toList.filter fun e => startLeafKey ≤ e.1).takeWhile fun e =>
    (ofLex e.1).1 = version && (ofLex (ofLex e.1).2).1 = leafNibbles

def deserializeLeaf : DbValue H → Except TreeError Leaf
  | .node (.leaf leaf) => .ok leaf
  | _ => .error (.bail "malformed leaf")

/-- The keys deleted from the key index by `truncate`, for `count` versions
starting at `version`. -/
def truncatedKeys (this : RocksDBWrapper H) (leafNibbles : Nat) :
    Nat → Nat → Nat → Except TreeError (List B256)
  | 0, _, _ => .ok []
  | count + 1, version, firstNewLeafIndex => do
    let some truncatedRoot ← this.tryRoot version
      | throw (.missingNode (.root version))
    let newLeaves ← (this.leavesFrom leafNibbles version firstNewLeafIndex).mapM
      fun e => deserializeLeaf e.2
    let rest ← this.truncatedKeys leafNibbles count (version + 1) truncatedRoot.leafCount
    return newLeaves.map Leaf.key ++ rest

def truncate (manifest : Manifest) (truncatedEnd : Nat) :
    Except TreeError (RocksDBWrapper H) := do
  let leafNibbles ← this.setLeafNibbles manifest
  ensure (0 < manifest.versionCount) "at least 1 tree version must be retained"
  let lastRetainedVersion := manifest.versionCount - 1
  let some lastRetainedRoot ← this.tryRoot lastRetainedVersion
    | throw (.missingNode (.root lastRetainedVersion))
  let keys ← this.truncatedKeys leafNibbles (truncatedEnd - manifest.versionCount)
    manifest.versionCount lastRetainedRoot.leafCount
  return { this with
    manifest := some manifest
    keyIndices := keys.foldl (fun keyIndices key => keyIndices.erase key) this.keyIndices
    leafNibbles := some leafNibbles }

end RocksDBWrapper

instance : Database (RocksDBWrapper H) H where
  indices this version keys := .ok (keys.map (this.index version))
  tryManifest this := .ok this.manifest
  tryRoot := RocksDBWrapper.tryRoot
  tryNodes this keys := keys.mapM this.tryNode
  applyPatch := RocksDBWrapper.applyPatch
  truncate := RocksDBWrapper.truncate

end MerkleTree
