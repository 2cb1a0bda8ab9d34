import ZksyncOsServer.MerkleTree.Patch

/-!
# The tree over a database

`MerkleTree::create_patch` of `patch.rs` and the tree operations of
`merkle_tree/src/lib.rs`. A tree is its database; operations that change it
return the new database, and an operation that fails changes nothing.
-/
namespace MerkleTree

variable {H DB E : Type}

/-- Accumulators of the first loop of `create_patch`. -/
structure TouchedLeaves where
  sortedNewLeaves : Map B256 InsertedKeyEntry
  newIndex : Nat
  distinctIndices : IndexSet

/-- The loop of `create_patch` over the looked up entries. -/
def touchEntries [AsEntry E] (insertedAt : Nat) :
    List (KeyLookup × E) → TouchedLeaves → Except TreeError TouchedLeaves
  | [], acc => .ok acc
  | (.existing idx, entry) :: rest, acc => do
    AsEntry.checkIndex entry idx
    touchEntries insertedAt rest { acc with distinctIndices := acc.distinctIndices.insert idx }
  | (.missing prev next, entry) :: rest, acc => do
    AsEntry.checkIndex entry acc.newIndex
    assert (acc.newIndex + 1 < u64Bound) "attempt to add with overflow"
    touchEntries insertedAt rest {
      sortedNewLeaves := acc.sortedNewLeaves.insert (AsEntry.asEntry entry).key ⟨acc.newIndex, insertedAt⟩
      newIndex := acc.newIndex + 1
      distinctIndices := (acc.distinctIndices.insert prev.2).insert next.2 }

/-- Accumulators of the loop of `create_patch` over the reads. -/
structure ReadLeaves where
  readOperations : List TreeOperation
  readonlyLeafIndices : List Nat
  distinctIndices : IndexSet

/-- Marks a leaf as loaded for reading only, unless it is loaded already. -/
def ReadLeaves.touch (acc : ReadLeaves) (idx : Nat) : ReadLeaves :=
  if acc.distinctIndices.contains idx then acc
  else { acc with
    readonlyLeafIndices := acc.readonlyLeafIndices ++ [idx]
    distinctIndices := acc.distinctIndices.insert idx }

def ReadLeaves.push (acc : ReadLeaves) (operation : TreeOperation) : ReadLeaves :=
  { acc with readOperations := acc.readOperations ++ [operation] }

def touchReads : List KeyLookup → ReadLeaves → ReadLeaves
  | [], acc => acc
  | .existing idx :: rest, acc => touchReads rest ((acc.touch idx).push (.hit idx))
  | .missing prev next :: rest, acc =>
    touchReads rest (((acc.touch prev.2).touch next.2).push (.miss prev.2))

def insertedLeaf (sortedNewLeaves : Map B256 InsertedKeyEntry) (entry : TreeEntry)
    (prev next : B256 × Nat) : InsertedLeaf :=
  let prevIndex := match prevEntry sortedNewLeaves entry.key with
    | some (localPrevKey, _) => if prev.1 < localPrevKey then none else some prev.2
    | none => some prev.2
  let nextIndex := match nextEntry sortedNewLeaves entry.key with
    | some (localNextKey, inserted) => if localNextKey < next.1 then inserted.index else next.2
    | none => next.2
  ⟨⟨entry.key, entry.value, nextIndex⟩, prevIndex⟩

def KeyLookup.operation : KeyLookup → TreeOperation
  | .existing idx => .hit idx
  | .missing prev _ => .miss prev.2

/-- The updates and the inserts of the last loop of `create_patch`. -/
def entryUpdate : TreeEntry × KeyLookup → Option (Nat × B256)
  | (entry, .existing idx) => some (idx, entry.value)
  | (_, .missing _ _) => none

def entryInsert (sortedNewLeaves : Map B256 InsertedKeyEntry) :
    TreeEntry × KeyLookup → Option InsertedLeaf
  | (_, .existing _) => none
  | (entry, .missing prev next) => some (insertedLeaf sortedNewLeaves entry prev next)

def createPatch [Database DB H] [AsEntry E] (P : TreeParams) (db : DB) (latestVersion : Nat)
    (entries : List E) (readKeys : List B256) :
    Except TreeError (WorkingPatchSet H × TreeUpdate) := do
  let some root ← Database.tryRoot db latestVersion
    | throw (.missingNode (.root latestVersion))
  let touchedKeys := entries.map (fun entry => (AsEntry.asEntry entry).key) ++ readKeys
  let lookup ← Database.indices db latestVersion touchedKeys
  let touched ← touchEntries (latestVersion + 1) (lookup.zip entries) ⟨∅, root.leafCount, ∅⟩
  -- New ancestors are inserted next to those of the latest existing leaf.
  let distinctIndices :=
    if touched.sortedNewLeaves.isEmpty then touched.distinctIndices
    else touched.distinctIndices.insert (root.leafCount - 1)
  let reads := touchReads (lookup.drop entries.length) ⟨[], [], distinctIndices⟩
  let patch ← WorkingPatchSet.loadNodes P db reads.distinctIndices.toList (.new P root)
  let resolved := (entries.map AsEntry.asEntry).zip lookup
  let inserts := resolved.filterMap (entryInsert touched.sortedNewLeaves)
  ensure (touched.sortedNewLeaves.size = inserts.length) duplicateKeysMessage
  assert (latestVersion + 1 < u64Bound) "attempt to add with overflow"
  return (patch, {
    version := latestVersion + 1
    sortedNewLeaves := touched.sortedNewLeaves
    updates := resolved.filterMap entryUpdate
    inserts
    operations := resolved.map fun x => x.2.operation
    readOperations := reads.readOperations
    readonlyLeafIndices := reads.readonlyLeafIndices })

def createPatchForSingleRead [Database DB H] (P : TreeParams) (db : DB) (version index : Nat) :
    Except TreeError (WorkingPatchSet H) := do
  let some root ← Database.tryRoot db version
    | throw (.missingNode (.root version))
  WorkingPatchSet.loadNodes P db [index] (.new P root)

def rootHash [Database DB H] (P : TreeParams) (hasher : HashTree H) (db : DB) (version : Nat) :
    Except TreeError (Option H) := do
  let some root ← Database.tryRoot db version
    | return none
  return some (← root.hash P hasher)

def rootInfo [Database DB H] (P : TreeParams) (hasher : HashTree H) (db : DB) (version : Nat) :
    Except TreeError (Option (H × Nat)) := do
  let some root ← Database.tryRoot db version
    | return none
  return some (← root.hash P hasher, root.leafCount)

def latestVersion [Database DB H] (db : DB) : Except TreeError (Option Nat) := do
  let some manifest ← Database.tryManifest db
    | return none
  return if manifest.versionCount = 0 then none else some (manifest.versionCount - 1)

/-- Start of `extend_inner`: the loaded part of the latest version, or the update
of the empty tree. -/
def loadForUpdate [Database DB H] [AsEntry E] (P : TreeParams) (db : DB) (entries : List E)
    (readKeys : List B256) : Except TreeError (WorkingPatchSet H × TreeUpdate) := do
  match ← latestVersion db with
  | some version => createPatch P db version entries readKeys
  | none => do
    let update ← TreeUpdate.forEmptyTree entries
    return (WorkingPatchSet.empty P, update)

/-- End of `extend_inner`: updating, hashing and storing the loaded part. -/
def commitUpdate [Database DB H] [Inhabited H] (P : TreeParams) (hasher : HashTree H) (db : DB)
    (patch : WorkingPatchSet H) (update : TreeUpdate) : Except TreeError (DB × TreeBatchOutput H) := do
  let (patch, final) ← WorkingPatchSet.update P patch update
  let (patch, output) ← WorkingPatchSet.finalize P hasher patch final
  let db ← Database.applyPatch db patch
  return (db, output)

/-- `MerkleTree::extend_inner` without read keys. -/
def extendInner [Database DB H] [AsEntry E] [Inhabited H] (P : TreeParams) (hasher : HashTree H)
    (db : DB) (entries : List E) : Except TreeError (DB × TreeBatchOutput H) := do
  let (patch, update) ← loadForUpdate P db entries []
  commitUpdate P hasher db patch update

def extend [Database DB H] [Inhabited H] (P : TreeParams) (hasher : HashTree H) (db : DB)
    (entries : List TreeEntry) : Except TreeError (DB × TreeBatchOutput H) :=
  extendInner P hasher db entries

/-- `MerkleTree::extend_with_reference`: the leaf index of each entry is checked. -/
def extendWithReference [Database DB H] [Inhabited H] (P : TreeParams) (hasher : HashTree H) (db : DB)
    (entries : List (Nat × TreeEntry)) : Except TreeError (DB × TreeBatchOutput H) :=
  extendInner P hasher db entries

/-- `MerkleTree::extend_with_proof`, that is `extend_inner` with read keys: the
proof is created before the loaded part is updated. -/
def extendWithProof [Database DB H] [Inhabited H] (P : TreeParams) (hasher : HashTree H) (db : DB)
    (entries : List TreeEntry) (readKeys : List B256) :
    Except TreeError (DB × TreeBatchOutput H × BatchTreeProof H) := do
  let (patch, update) ← loadForUpdate P db entries readKeys
  let proof ← WorkingPatchSet.createBatchProof P hasher patch update.operations update.readOperations
  let (db, output) ← commitUpdate P hasher db patch update
  return (db, output, proof)

def truncateRecentVersions [Database DB H] (db : DB) (retainedVersionCount : Nat) :
    Except TreeError DB := do
  let manifest := (← Database.tryManifest db).getD .default
  let currentVersionCount := manifest.versionCount
  if retainedVersionCount < currentVersionCount then
    Database.truncate db { manifest with versionCount := retainedVersionCount } currentVersionCount
  else return db

def prove [Database DB H] (P : TreeParams) (hasher : HashTree H) (db : DB) (version : Nat)
    (keys : List B256) : Except TreeError (Option (BatchTreeProof H × TreeBatchOutput H)) := do
  let some root ← Database.tryRoot db version
    | return none
  let batchOutput : TreeBatchOutput H := ⟨← root.hash P hasher, root.leafCount⟩
  let (patch, update) ← createPatch P db version ([] : List TreeEntry) keys
  let proof ← WorkingPatchSet.createBatchProof P hasher patch [] update.readOperations
  return some (proof, batchOutput)

end MerkleTree
