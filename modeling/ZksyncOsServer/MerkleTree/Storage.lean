import ZksyncOsServer.MerkleTree.Hasher
import ZksyncOsServer.MerkleTree.Proofs

/-!
# Storage interface and the in-memory patch set

`merkle_tree/src/storage/mod.rs` without the `Patched` wrapper.
-/
namespace MerkleTree

variable {H : Type}

structure InsertedKeyEntry where
  index : Nat
  insertedAt : Nat
  deriving DecidableEq

structure PartialPatchSet (H : Type) where
  leafCount : Nat
  /-- `internal[0]` is the root level, `internal[1]` the single-nibble nodes etc. -/
  internal : List (Map Nat (InternalNode H))
  leaves : Map Nat Leaf

namespace PartialPatchSet

def root (this : PartialPatchSet H) : Except TreeError (Root H) := do
  let level ← expect "index out of bounds" this.internal[0]?
  let rootNode ← expect "no root node" level[0]?
  return ⟨this.leafCount, rootNode⟩

def node (this : PartialPatchSet H) (nibbleCount indexOnLevel : Nat) : Option (Node H) :=
  if nibbleCount < this.internal.length then
    (this.internal[nibbleCount]?.bind (·[indexOnLevel]?)).map Node.internal
  else if nibbleCount = this.internal.length then
    this.leaves[indexOnLevel]?.map Node.leaf
  else none

end PartialPatchSet

structure PatchSet (H : Type) where
  manifest : Manifest
  patchesByVersion : Map Nat (PartialPatchSet H)
  sortedNewLeaves : Map B256 InsertedKeyEntry

def PatchSet.empty : PatchSet H := ⟨.default, ∅, ∅⟩

namespace PatchSet

def isNewVersion (this : PatchSet H) (version : Nat) : Bool :=
  this.manifest.versionCount ≤ version || this.patchesByVersion.contains version

/-- `PatchSet::index`. A key that is not found falls back to the guards. -/
def index (this : PatchSet H) (version : Nat) (key : B256) : KeyLookup :=
  let next := ((SortedMap.first this.sortedNewLeaves fun k entry =>
    key ≤ k && entry.insertedAt ≤ version).map fun e => (e.1, e.2.index)).getD (⊤, 1)
  if next.1 = key then .existing next.2
  else
    let prev := ((SortedMap.last this.sortedNewLeaves fun k entry =>
      k < key && entry.insertedAt ≤ version).map fun e => (e.1, e.2.index)).getD (⊥, 0)
    .missing prev next

def node (this : PatchSet H) (key : NodeKey) : Option (Node H) :=
  this.patchesByVersion[key.version]?.bind (·.node key.nibbleCount key.indexOnLevel)

end PatchSet

/-- `trait Database`. A method that changes the database returns the new one. -/
class Database (DB : Type) (H : outParam Type) where
  indices : DB → Nat → List B256 → Except TreeError (List KeyLookup)
  tryManifest : DB → Except TreeError (Option Manifest)
  tryRoot : DB → Nat → Except TreeError (Option (Root H))
  tryNodes : DB → List NodeKey → Except TreeError (List (Node H))
  applyPatch : DB → PatchSet H → Except TreeError DB
  /-- The last argument is the end of the range of truncated versions. -/
  truncate : DB → Manifest → Nat → Except TreeError DB

namespace PatchSet

variable (this : PatchSet H)

/-- One element of `try_nodes`; roots must not be requested this way. -/
def tryNode (key : NodeKey) : Except TreeError (Node H) := do
  assert (0 < key.nibbleCount) "assertion failed"
  match this.node key with
  | some node => return node
  | none => throw (.missingNode key)

def tryManifest : Option Manifest :=
  -- The manifest counts as absent while there are no tree versions.
  if this.manifest.versionCount = 0 then none else some this.manifest

def tryRoot (version : Nat) : Except TreeError (Option (Root H)) :=
  match this.patchesByVersion[version]? with
  | none => .ok none
  | some patch => do return some (← patch.root)

def applyPatch (this patch : PatchSet H) : Except TreeError (PatchSet H) := do
  ensure (this.manifest.versionCount ≤ patch.manifest.versionCount)
    "Use `truncate()` for truncating tree"
  return {
    manifest := patch.manifest
    patchesByVersion := this.patchesByVersion.insertMany patch.patchesByVersion.toList
    sortedNewLeaves := this.sortedNewLeaves.insertMany patch.sortedNewLeaves.toList }

def truncate (manifest : Manifest) : PatchSet H where
  manifest
  patchesByVersion := this.patchesByVersion.filter fun version _ => version < manifest.versionCount
  sortedNewLeaves := this.sortedNewLeaves.filter fun _ entry => entry.insertedAt < manifest.versionCount

end PatchSet

instance : Database (PatchSet H) H where
  indices this version keys := .ok (keys.map (this.index version))
  tryManifest this := .ok this.tryManifest
  tryRoot := PatchSet.tryRoot
  tryNodes this keys := keys.mapM this.tryNode
  applyPatch := PatchSet.applyPatch
  truncate this manifest _ := .ok (this.truncate manifest)

end MerkleTree
