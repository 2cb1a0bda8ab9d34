import ZksyncOsServer.MerkleTree.Tree

/-!
# The `Patched` wrapper

`Patched` of `merkle_tree/src/storage/mod.rs` keeps changes to a database in
memory until they are flushed.
-/
namespace MerkleTree

structure Patched (DB H : Type) where
  inner : DB
  patch : Option (PatchSet H)

def KeyLookup.isExisting : KeyLookup → Bool
  | .existing _ => true
  | .missing _ _ => false

namespace Patched

variable {DB H : Type} [Database DB H]

def new (inner : DB) : Patched DB H := ⟨inner, none⟩

/-- `Patched::lookup_patch`: `none` if the patch is not responsible for the version. -/
def lookupPatch (this : Patched DB H) (key : NodeKey) : Except TreeError (Option (Node H)) :=
  match this.patch with
  | none => .ok none
  | some patch =>
    if patch.isNewVersion key.version then do return some (← patch.tryNode key) else .ok none

def flush (this : Patched DB H) : Except TreeError (Patched DB H) :=
  match this.patch with
  | some patch => do return ⟨← Database.applyPatch this.inner patch, none⟩
  | none => .ok this

/-- `max` and `min` of key and index pairs, ordered by key first. -/
def maxPair (a b : B256 × Nat) : B256 × Nat :=
  if a.1 < b.1 ∨ (a.1 = b.1 ∧ a.2 ≤ b.2) then b else a

def minPair (a b : B256 × Nat) : B256 × Nat :=
  if a.1 < b.1 ∨ (a.1 = b.1 ∧ a.2 ≤ b.2) then a else b

/-- Merging of the lookups in `indices`: the database is asked only about the
keys missing from the patch. -/
def mergeLookups : List KeyLookup → List KeyLookup → Except TreeError (List KeyLookup)
  | [], _ => .ok []
  | .existing index :: rest, dbLookup => do return .existing index :: (← mergeLookups rest dbLookup)
  | .missing patchPrev patchNext :: rest, dbLookup => do
    let fromDb ← expect "no lookup" dbLookup.head?
    let merged := match fromDb with
      | .existing index => .existing index
      | .missing dbPrev dbNext => .missing (maxPair patchPrev dbPrev) (minPair patchNext dbNext)
    return merged :: (← mergeLookups rest dbLookup.tail)

def indices (this : Patched DB H) (version : Nat) (keys : List B256) :
    Except TreeError (List KeyLookup) :=
  match this.patch with
  | none => Database.indices this.inner version keys
  | some patch =>
    if patch.isNewVersion version then do
      let patchLookup := keys.map (patch.index version)
      let dbKeys := ((keys.zip patchLookup).filter fun x => !x.2.isExisting).map Prod.fst
      let dbLookup ← Database.indices this.inner version dbKeys
      mergeLookups patchLookup dbLookup
    else Database.indices this.inner version keys

def tryManifest (this : Patched DB H) : Except TreeError (Option Manifest) :=
  match this.patch with
  | some patch => .ok (some patch.manifest)
  | none => Database.tryManifest this.inner

def tryRoot (this : Patched DB H) (version : Nat) : Except TreeError (Option (Root H)) :=
  match this.patch with
  | some patch =>
    if patch.isNewVersion version then patch.tryRoot version else Database.tryRoot this.inner version
  | none => Database.tryRoot this.inner version

/-- The nodes found in the patch, interleaved with those read from the database. -/
def mergeNodes : List (Option (Node H)) → List (Node H) → Except TreeError (List (Node H))
  | [], _ => .ok []
  | some node :: rest, dbNodes => do return node :: (← mergeNodes rest dbNodes)
  | none :: rest, dbNodes => do
    let node ← expect "no node" dbNodes.head?
    return node :: (← mergeNodes rest dbNodes.tail)

def tryNodes (this : Patched DB H) (keys : List NodeKey) : Except TreeError (List (Node H)) :=
  match this.patch with
  | none => Database.tryNodes this.inner keys
  | some _ => do
    let patchNodes ← keys.mapM this.lookupPatch
    let dbKeys := ((keys.zip patchNodes).filter fun x => x.2.isNone).map Prod.fst
    let dbNodes ← Database.tryNodes this.inner dbKeys
    mergeNodes patchNodes dbNodes

def applyPatch (this : Patched DB H) (patch : PatchSet H) : Except TreeError (Patched DB H) :=
  match this.patch with
  | some existingPatch => do return { this with patch := some (← existingPatch.applyPatch patch) }
  | none => .ok { this with patch := some patch }

def truncate (this : Patched DB H) (manifest : Manifest) (truncatedEnd : Nat) :
    Except TreeError (Patched DB H) :=
  match this.patch with
  | none => do return { this with inner := ← Database.truncate this.inner manifest truncatedEnd }
  | some patch => do
    let minVersionInPatch := patch.patchesByVersion.keys.head?
    let patch := patch.truncate manifest
    -- A fully truncated patch will not be flushed, so the database is truncated at once.
    if patch.patchesByVersion.isEmpty then
      assert (patch.sortedNewLeaves.isEmpty = true) "assertion failed"
      let inner ← Database.truncate this.inner manifest (minVersionInPatch.getD truncatedEnd)
      return ⟨inner, none⟩
    else return { this with patch := some patch }

end Patched

instance {DB H : Type} [Database DB H] : Database (Patched DB H) H where
  indices := Patched.indices
  tryManifest := Patched.tryManifest
  tryRoot := Patched.tryRoot
  tryNodes := Patched.tryNodes
  applyPatch := Patched.applyPatch
  truncate := Patched.truncate

end MerkleTree
