import ZksyncOsServer.MerkleTree.Storage

/-!
# Working patch sets

`merkle_tree/src/storage/patch.rs`: the part of the tree loaded for an update or
a proof, how it is changed, and how it is hashed and turned into a `PatchSet`.
Loops that modify the levels in place run from the leaves to the root in the
source; here they recurse over the list of levels, lower levels first.
-/
namespace MerkleTree

variable {H : Type}

abbrev Level (H : Type) := Map Nat (InternalNode H)

namespace InternalNode

def empty : InternalNode H := ⟨[]⟩

def new [Inhabited H] (len version : Nat) : InternalNode H :=
  ⟨List.replicate len ⟨version, default⟩⟩

def ensureLen [Inhabited H] (node : InternalNode H) (expectedLen version : Nat) : InternalNode H :=
  ⟨node.children.take expectedLen ++
    List.replicate (expectedLen - node.children.length) ⟨version, default⟩⟩

/-- Assignment through `child_mut`. -/
def modifyChild (node : InternalNode H) (index : Nat) (f : ChildRef H → ChildRef H) :
    Except TreeError (InternalNode H) := do
  let child ← expect "index out of bounds" node.children[index]?
  return ⟨node.children.set index (f child)⟩

end InternalNode

class AsEntry (E : Type) where
  asEntry : E → TreeEntry
  checkIndex : E → Nat → Except TreeError Unit

instance : AsEntry TreeEntry where
  asEntry := id
  checkIndex _ _ := .ok ()

instance : AsEntry (Nat × TreeEntry) where
  asEntry := Prod.snd
  checkIndex e index := ensure (index = e.1) s!"Unexpected index: tree implies {index}"

structure InsertedLeaf where
  leaf : Leaf
  /-- Index of the previous leaf before the batch; `none` if it is inserted by the batch. -/
  prevIndex : Option Nat
  deriving DecidableEq

structure TreeUpdate where
  version : Nat
  sortedNewLeaves : Map B256 InsertedKeyEntry
  updates : List (Nat × B256)
  inserts : List InsertedLeaf
  operations : List TreeOperation
  readOperations : List TreeOperation
  readonlyLeafIndices : List Nat

def duplicateKeysMessage : String :=
  "Attempting to insert duplicate keys into a tree; please deduplicate keys on the caller side"

namespace TreeUpdate

variable {E : Type} [AsEntry E]

/-- The loop of `for_empty_tree` that assigns indices to the keys. -/
def indexEntries : List E → Nat → Map B256 InsertedKeyEntry →
    Except TreeError (Map B256 InsertedKeyEntry)
  | [], _, sortedNewLeaves => .ok sortedNewLeaves
  | entry :: rest, index, sortedNewLeaves => do
    AsEntry.checkIndex entry index
    indexEntries rest (index + 1) (sortedNewLeaves.insert (AsEntry.asEntry entry).key ⟨index, 0⟩)

def guardEntries : Map B256 InsertedKeyEntry :=
  (∅ : Map B256 InsertedKeyEntry).insert ⊥ ⟨0, 0⟩ |>.insert ⊤ ⟨1, 0⟩

def forEmptyTree (entries : List E) : Except TreeError TreeUpdate := do
  let sortedNewLeaves ← indexEntries entries 2 guardEntries
  ensure (sortedNewLeaves.size = entries.length + 2) duplicateKeysMessage
  let inserts ← (TreeEntry.minGuard :: TreeEntry.maxGuard :: entries.map AsEntry.asEntry).mapM
    fun entry => do
      match nextEntry sortedNewLeaves entry.key with
      | some (_, next) => return InsertedLeaf.mk ⟨entry.key, entry.value, next.index⟩ none
      | none =>
        assert (entry.key = ⊤) "assertion failed"
        return InsertedLeaf.mk ⟨entry.key, entry.value, 1⟩ none
  return {
    version := 0
    sortedNewLeaves
    updates := []
    inserts
    operations := []
    readOperations := []
    readonlyLeafIndices := [] }

end TreeUpdate

structure FinalTreeUpdate where
  version : Nat
  sortedNewLeaves : Map B256 InsertedKeyEntry

/-- The `filter_map` of `load_nodes` and `update_ancestor_versions`: ancestors of
sorted indices `width` apart, consecutive repetitions dropped. -/
def ancestorsOnLevel (width : Nat) : List Nat → Option Nat → List Nat
  | [], _ => []
  | idx :: rest, prevIndex =>
    if prevIndex = some (idx / width) then ancestorsOnLevel width rest prevIndex
    else idx / width :: ancestorsOnLevel width rest (some (idx / width))

/-- Changes the child references at the given positions of the level below, as
`get_mut(parent).child_mut(child)` does. -/
def modifyChildren (P : TreeParams) :
    List (Nat × (ChildRef H → ChildRef H)) → Level H → Except TreeError (Level H)
  | [], level => .ok level
  | (idx, f) :: rest, level => do
    let parentIdx := idx / 2 ^ P.internalNodeDepth
    let parent ← expect "no parent" level[parentIdx]?
    let parent ← parent.modifyChild (idx % maxNodeChildren P) f
    modifyChildren P rest (level.insert parentIdx parent)

namespace PartialPatchSet

/-- One level of `update_ancestor_versions`: marks the children `idxs` and
returns their parents. -/
def touchLevel (P : TreeParams) (version : Nat) (idxs : List Nat) (level : Level H) :
    Except TreeError (Level H × List Nat) := do
  let level ← modifyChildren P (idxs.map fun idx => (idx, fun child => { child with version })) level
  return (level, ancestorsOnLevel (2 ^ P.internalNodeDepth) idxs none)

def updateAncestorVersions (P : TreeParams) (version : Nat) (leafIndices : List Nat) :
    List (Level H) → Except TreeError (List (Level H) × List Nat)
  | [] => .ok ([], leafIndices)
  | level :: lower => do
    let (lower, idxs) ← updateAncestorVersions P version leafIndices lower
    let (level, parents) ← touchLevel P version idxs level
    return (level :: lower, parents)

/-- `PartialPatchSet::remove_readonly_nodes`; the root level is always retained. -/
def removeReadonlyNodes (updatedVersion : Nat) : List (Level H) → List (Level H)
  | [] => []
  | root :: rest =>
    root :: rest.map fun level =>
      level.filter fun _ node => node.children.any fun child => child.version = updatedVersion

end PartialPatchSet

abbrev WorkingPatchSet (H : Type) := PartialPatchSet H

namespace WorkingPatchSet

variable (P : TreeParams)

def new (root : Root H) : WorkingPatchSet H where
  leafCount := root.leafCount
  internal := (∅ : Level H).insert 0 root.rootNode :: List.replicate (maxNibblesForInternalNode P) ∅
  leaves := ∅

def empty (P : TreeParams) : WorkingPatchSet H := new P ⟨0, .empty⟩

def requestedKeys (parentLevel : Level H) (nibbleCount bitShift : Nat)
    (leafIndices : List Nat) : Except TreeError (List (Nat × NodeKey)) :=
  (ancestorsOnLevel (2 ^ bitShift) leafIndices none).mapM fun indexOnLevel => do
    let parent ← expect "no parent" parentLevel[indexOnLevel / 2 ^ P.internalNodeDepth]?
    let thisRef ← expect "index out of bounds" parent.children[indexOnLevel % maxNodeChildren P]?
    return (indexOnLevel, ⟨thisRef.version, nibbleCount, indexOnLevel⟩)

def unwrapInternal : Node H → Except TreeError (InternalNode H)
  | .internal node => .ok node
  | .leaf _ => .error (.panic "unreachable")

def unwrapLeaf : Node H → Except TreeError Leaf
  | .leaf leaf => .ok leaf
  | .internal _ => .error (.panic "unreachable")

/-- Loading the nodes of one level: the body of the loop of `load_nodes`. -/
def loadLevel {DB V : Type} [Database DB H] (P : TreeParams) (db : DB) (leafIndices : List Nat)
    (unwrap : Node H → Except TreeError V) (height : Nat) (parentLevel : Level H) :
    Except TreeError (Map Nat V) := do
  let nibbleCount := leafNibbles P - height
  let requested ← requestedKeys P parentLevel nibbleCount (height * P.internalNodeDepth) leafIndices
  let loadedNodes ← Database.tryNodes db (requested.map Prod.snd)
  let loaded ← (loadedNodes.zip (requested.map Prod.fst)).mapM fun (node, idx) => do
    return (idx, ← unwrap node)
  return .ofList loaded

/-- The loop of `load_nodes`, from the level of the given height down to the leaves. -/
def loadLevels {DB : Type} [Database DB H] (P : TreeParams) (db : DB) (leafIndices : List Nat) :
    Nat → Level H → Except TreeError (List (Level H) × Map Nat Leaf)
  | 0, parentLevel => do
    let leaves ← loadLevel P db leafIndices unwrapLeaf 0 parentLevel
    return ([], leaves)
  | height + 1, parentLevel => do
    let level ← loadLevel P db leafIndices unwrapInternal (height + 1) parentLevel
    let (levels, leaves) ← loadLevels P db leafIndices height level
    return (level :: levels, leaves)

def loadNodes {DB : Type} [Database DB H] (P : TreeParams) (db : DB) (leafIndices : List Nat)
    (this : WorkingPatchSet H) : Except TreeError (WorkingPatchSet H) := do
  let root ← expect "index out of bounds" this.internal[0]?
  let (levels, leaves) ← loadLevels P db leafIndices (maxNibblesForInternalNode P) root
  return { this with internal := root :: levels, leaves }

def collectStep (internalHashes : InternalHashes H) (depthInInternalNode lastIdx : Nat) :
    LevelWalk.Step Unit → Except TreeError (List H)
  | .odd i _ => do return [← internalHashes.get depthInInternalNode (i - 1)]
  | .pair _ _ _ => .ok []
  | .single i _ =>
    if i < lastIdx then do return [← internalHashes.get depthInInternalNode (i + 1)] else .ok []

/-- The outer loop of `collect_hashes`. `levels` are the internal levels not yet
used, lowest first; a new one is taken every `INTERNAL_NODE_DEPTH` iterations. -/
def collectLevels (P : TreeParams) (hasher : HashTree H) :
    Nat → Nat → Nat → List Nat → List (Level H) → Option (InternalHashes H) → Except TreeError (List H)
  | 0, _, _, _, _, _ => .ok []
  | count + 1, depth, lastIdx, indices, levels, internalHashes => do
    let depthInInternalNode := depth % P.internalNodeDepth
    let (levels, internalHashes) ←
      if depthInInternalNode = 0 then do
        let level ← expect "run out of internal node levels" levels.head?
        let hashes ← InternalHashes.new P hasher level depth
        pure (levels.tail, some hashes)
      else pure (levels, internalHashes)
    let hashesOnLevel ← expect "no internal hashes" internalHashes
    let nodes := indices.map fun i => (i, ())
    let hashes ← (LevelWalk.steps nodes).mapM (collectStep hashesOnLevel depthInInternalNode lastIdx)
    let rest ← collectLevels P hasher count (depth + 1) (lastIdx / 2) (LevelWalk.parents nodes)
      levels internalHashes
    return hashes.flatten ++ rest

def collectHashes (hasher : HashTree H) (this : WorkingPatchSet H)
    (leafIndices : List Nat) : Except TreeError (List H) :=
  if leafIndices.isEmpty then .ok []
  else collectLevels P hasher P.treeDepth 0 (this.leafCount - 1) leafIndices this.internal.reverse none

def createBatchProof (hasher : HashTree H) (this : WorkingPatchSet H)
    (operations readOperations : List TreeOperation) : Except TreeError (BatchTreeProof H) := do
  let hashes ← collectHashes P hasher this this.leaves.keys
  return ⟨operations, readOperations, this.leaves, hashes⟩

def addNodes [Inhabited H] (expectedLen : Nat → Nat) (version startIdx lastIdx : Nat) (level : Level H) :
    Level H :=
  level.insertMany ((List.range' startIdx (lastIdx + 1 - startIdx)).map fun idx =>
    (idx, InternalNode.new (expectedLen idx) version))

/-- Adding nodes for the new leaf indices `first..=last` to a level: the body of
the last loop of `update`. -/
def growLevel [Inhabited H] (P : TreeParams) (version first last nibbleCount : Nat) (level : Level H) : Level H :=
  let childDepth := (maxNibblesForInternalNode P - nibbleCount) * P.internalNodeDepth
  let firstIndexOnLevel := first / 2 ^ childDepth / maxNodeChildren P
  let lastChildIndex := last / 2 ^ childDepth
  let lastIndexOnLevel := lastChildIndex / maxNodeChildren P
  let expectedLen := fun idx =>
    if idx = lastIndexOnLevel then lastChildIndex % maxNodeChildren P + 1 else maxNodeChildren P
  -- Only `firstIndexOnLevel` may exist already.
  match level[firstIndexOnLevel]? with
  | some parent =>
    addNodes expectedLen version (firstIndexOnLevel + 1) lastIndexOnLevel
      (level.insert firstIndexOnLevel (parent.ensureLen (expectedLen firstIndexOnLevel) version))
  | none => addNodes expectedLen version firstIndexOnLevel lastIndexOnLevel level

/-- Changes of loaded leaves through `leaves.get_mut(&idx).unwrap()`. -/
def modifyLeaves : List (Nat × (Leaf → Leaf)) → Map Nat Leaf → Except TreeError (Map Nat Leaf)
  | [], leaves => .ok leaves
  | (idx, f) :: rest, leaves => do
    let leaf ← expect "no leaf" leaves[idx]?
    modifyLeaves rest (leaves.insert idx (f leaf))

def updateValues (updates : List (Nat × B256)) : Map Nat Leaf → Except TreeError (Map Nat Leaf) :=
  modifyLeaves (updates.map fun x => (x.1, fun leaf => { leaf with value := x.2 }))

/-- The updates of the next index of neighbours in `update`. -/
def relinkNeighbors (inserts : List InsertedLeaf) (firstNewIdx : Nat) :
    Map Nat Leaf → Except TreeError (Map Nat Leaf) :=
  modifyLeaves ((inserts.zipIdx firstNewIdx).filterMap fun x =>
    x.1.prevIndex.map fun prevIdx => (prevIdx, fun leaf => { leaf with nextIndex := x.2 }))

def update [Inhabited H] (P : TreeParams) (this : WorkingPatchSet H) (update : TreeUpdate) :
    Except TreeError (WorkingPatchSet H × FinalTreeUpdate) := do
  let version := update.version
  let leaves := update.readonlyLeafIndices.foldl (fun leaves idx => leaves.erase idx) this.leaves
  let (internal, _) ← PartialPatchSet.updateAncestorVersions P version leaves.keys this.internal
  let internal :=
    if update.readonlyLeafIndices.isEmpty then internal
    else PartialPatchSet.removeReadonlyNodes version internal
  let leaves ← updateValues update.updates leaves
  let final : FinalTreeUpdate := ⟨version, update.sortedNewLeaves⟩
  if update.inserts.isEmpty then return (⟨this.leafCount, internal, leaves⟩, final)
  else
    let firstNewIdx := this.leafCount
    let newCount := update.inserts.length
    assert (firstNewIdx + newCount < u64Bound) "attempt to add with overflow"
    let leaves ← relinkNeighbors update.inserts firstNewIdx leaves
    let leaves := leaves.insertMany ((update.inserts.zipIdx firstNewIdx).map fun x => (x.2, x.1.leaf))
    let internal := internal.mapIdx (growLevel P version firstNewIdx (firstNewIdx + newCount - 1))
    return (⟨firstNewIdx + newCount, internal, leaves⟩, final)

/-- Writing child hashes into a level in `finalize`. -/
def setHashes (hashes : List (Nat × H)) (level : Level H) : Except TreeError (Level H) :=
  modifyChildren P (hashes.map fun x => (x.1, fun child => { child with hash := x.2 })) level

/-- The loop of `finalize` over the levels; returns the hashes of the top level. -/
def hashLevels (P : TreeParams) (hasher : HashTree H) (leafHashes : List (Nat × H)) :
    List (Level H) → Except TreeError (List (Level H) × List (Nat × H))
  | [] => .ok ([], leafHashes)
  | level :: lower => do
    let depth := lower.length * P.internalNodeDepth
    let (lower, hashes) ← hashLevels P hasher leafHashes lower
    let level ← setHashes P hashes level
    let hashes ← level.toList.mapM fun (idx, node) => do return (idx, ← node.hash P hasher depth)
    return (level :: lower, hashes)

def finalize (hasher : HashTree H) (this : WorkingPatchSet H)
    (update : FinalTreeUpdate) : Except TreeError (PatchSet H × TreeBatchOutput H) := do
  let leafHashes := this.leaves.toList.map fun x => (x.1, hasher.hashLeaf x.2)
  let (internal, hashes) ← hashLevels P hasher leafHashes this.internal
  match hashes with
  | [(rootIdx, rootHash)] =>
    assert (rootIdx = 0) "assertion failed"
    assert (update.version + 1 < u64Bound) "attempt to add with overflow"
    return ({
      manifest := ⟨update.version + 1, TreeTags.forParams P hasher⟩
      patchesByVersion := (∅ : Map Nat (PartialPatchSet H)).insert update.version { this with internal }
      sortedNewLeaves := update.sortedNewLeaves }, ⟨rootHash, this.leafCount⟩)
  | _ => throw (.panic "assertion failed")

end WorkingPatchSet

end MerkleTree
