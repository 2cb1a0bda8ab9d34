import ZksyncOsServer.Lib.BinaryMerkle
import ZksyncOsServer.Lib.Fallible
import ZksyncOsServer.Lib.SortedMap

/-!
# Data types of the persistent Merkle tree

The types of `merkle_tree_api` and `merkle_tree`. Keys and values are 256-bit
words. A hash is a 256-bit word in the source as well, but the hasher is a
parameter there and only its output type matters, so hashes are an arbitrary
type `H`: collision freedom is then an assumption that can hold. `B256::ZERO`
as a placeholder hash is `default`. Indices, counts and versions are natural
numbers; where the source's `u64` addition can overflow it is checked.
-/
namespace MerkleTree

instance neZero_words : NeZero (2 ^ 256) := inferInstance

/-- `B256`, ordered lexicographically on big-endian bytes, that is as a number. -/
def B256 : Type := Fin (2 ^ 256)
  deriving DecidableEq

instance : LinearOrder B256 := inferInstanceAs (LinearOrder (Fin (2 ^ 256)))
instance : BoundedOrder B256 := inferInstanceAs (BoundedOrder (Fin (2 ^ 256)))
instance (n : Nat) : OfNat B256 n := inferInstanceAs (OfNat (Fin (2 ^ 256)) n)

/-- `BTreeMap`. A `HashMap` is modelled by the same type: the source iterates
over its hash maps only where the order does not matter. -/
abbrev Map (K V : Type) [Ord K] := Std.ExtTreeMap K V compare

/-- `BTreeSet<u64>`. -/
abbrev IndexSet := Std.ExtTreeSet Nat compare

def u64Bound : Nat := 2 ^ 64

structure TreeEntry where
  key : B256
  value : B256
  deriving DecidableEq

def TreeEntry.minGuard : TreeEntry := ⟨⊥, 0⟩
def TreeEntry.maxGuard : TreeEntry := ⟨⊤, 0⟩

structure Leaf where
  key : B256
  value : B256
  nextIndex : Nat
  deriving DecidableEq

def Leaf.minGuard : Leaf := ⟨⊥, 0, 1⟩
def Leaf.maxGuard : Leaf := ⟨⊤, 0, 1⟩

/-- `Leaf::default()`, the leaf hashed at empty positions. -/
def Leaf.zero : Leaf := ⟨0, 0, 0⟩

structure TreeBatchOutput (H : Type) where
  rootHash : H
  leafCount : Nat
  deriving DecidableEq

/-- `trait HashTree`. The law of `empty_subtree_hash` is part of the structure. -/
structure HashTree (H : Type) where
  name : String
  hashLeaf : Leaf → H
  hashBranch : H → H → H
  emptySubtreeHash : Nat → H
  empty_succ : ∀ d, emptySubtreeHash (d + 1) = hashBranch (emptySubtreeHash d) (emptySubtreeHash d)

def computeEmptyTreeHashes {H : Type} (hashLeaf : Leaf → H) (hashBranch : H → H → H) : Nat → H
  | 0 => hashLeaf .zero
  | d + 1 => hashBranch (computeEmptyTreeHashes hashLeaf hashBranch d) (computeEmptyTreeHashes hashLeaf hashBranch d)

/-- `Blake2Hasher`, with the two hash functions as parameters. -/
def HashTree.blake2 {H : Type} (hashLeaf : Leaf → H) (hashBranch : H → H → H) : HashTree H :=
  ⟨"Blake2s256", hashLeaf, hashBranch, computeEmptyTreeHashes hashLeaf hashBranch, fun _ => rfl⟩

/-- A symbolic digest is the term that was hashed. -/
inductive Digest where
  | leaf : Leaf → Digest
  | branch : Digest → Digest → Digest
  deriving DecidableEq

instance : Inhabited Digest := ⟨.leaf .zero⟩

def Digest.emptySubtreeHash : Nat → Digest
  | 0 => .leaf .zero
  | d + 1 => .branch (emptySubtreeHash d) (emptySubtreeHash d)

/-- The hasher without collisions. -/
def Digest.hasher : HashTree Digest := ⟨"symbolic", .leaf, .branch, emptySubtreeHash, fun _ => rfl⟩

/-- `trait TreeParams`, with the compile-time assertions of `DefaultTreeParams`. -/
structure TreeParams where
  treeDepth : Nat
  internalNodeDepth : Nat
  treeDepth_pos : 0 < treeDepth
  treeDepth_le : treeDepth ≤ 64
  internalNodeDepth_pos : 0 < internalNodeDepth
  internalNodeDepth_lt : internalNodeDepth < 8

/-- Room for eight leaves below a root that uses half of its radix. -/
def TreeParams.small : TreeParams := ⟨3, 2, by decide, by decide, by decide, by decide⟩

/-- `leaf_nibbles`: `TREE_DEPTH.div_ceil(INTERNAL_NODE_DEPTH)`. -/
def leafNibbles (P : TreeParams) : Nat :=
  (P.treeDepth + P.internalNodeDepth - 1) / P.internalNodeDepth

def maxNibblesForInternalNode (P : TreeParams) : Nat := leafNibbles P - 1

def maxNodeChildren (P : TreeParams) : Nat := 2 ^ P.internalNodeDepth

theorem leafNibbles_pos (P : TreeParams) : 0 < leafNibbles P := by
  have h₁ := P.treeDepth_pos
  have h₂ := P.internalNodeDepth_pos
  exact Nat.div_pos (by omega) h₂

theorem maxNibbles_mul_lt (P : TreeParams) : maxNibblesForInternalNode P * P.internalNodeDepth < P.treeDepth := by
  have h₁ := P.treeDepth_pos
  have h₂ := P.internalNodeDepth_pos
  have h₃ := Nat.div_mul_le_self (P.treeDepth + P.internalNodeDepth - 1) P.internalNodeDepth
  have h₄ := leafNibbles_pos P
  simp only [maxNibblesForInternalNode]
  change leafNibbles P * P.internalNodeDepth ≤ _ at h₃
  rw [Nat.sub_mul, Nat.one_mul]
  omega

theorem treeDepth_le_mul (P : TreeParams) : P.treeDepth ≤ leafNibbles P * P.internalNodeDepth := by
  have h₁ := P.internalNodeDepth_pos
  have h₂ := Nat.lt_div_mul_add (a := P.treeDepth + P.internalNodeDepth - 1) h₁
  change _ < leafNibbles P * _ + _ at h₂
  omega

structure ChildRef (H : Type) where
  version : Nat
  hash : H
  deriving DecidableEq

structure InternalNode (H : Type) where
  children : List (ChildRef H)
  deriving DecidableEq

inductive Node (H : Type) where
  | internal : InternalNode H → Node H
  | leaf : Leaf → Node H
  deriving DecidableEq

inductive KeyLookup where
  | existing (index : Nat)
  | missing (prevKeyAndIndex nextKeyAndIndex : B256 × Nat)
  deriving DecidableEq

structure NodeKey where
  version : Nat
  nibbleCount : Nat
  indexOnLevel : Nat
  deriving DecidableEq

def NodeKey.root (version : Nat) : NodeKey := ⟨version, 0, 0⟩

structure Root (H : Type) where
  leafCount : Nat
  rootNode : InternalNode H
  deriving DecidableEq

structure TreeTags where
  architecture : String
  depth : Nat
  internalNodeDepth : Nat
  hasher : String
  deriving DecidableEq

def TreeTags.forParams (P : TreeParams) {H : Type} (hasher : HashTree H) : TreeTags :=
  ⟨"AmortizedLinkedListMT", P.treeDepth, P.internalNodeDepth, hasher.name⟩

def TreeTags.default : TreeTags := ⟨"AmortizedLinkedListMT", 64, 3, "Blake2s256"⟩

structure Manifest where
  versionCount : Nat
  tags : TreeTags
  deriving DecidableEq

def Manifest.default : Manifest := ⟨0, TreeTags.default⟩

/-- Ways a tree operation fails: `DeserializeErrorKind::MissingNode` with its
node key, an `anyhow` error with its text, or a panic. -/
inductive TreeError where
  | missingNode (key : NodeKey)
  | bail (message : String)
  | panic (message : String)
  deriving DecidableEq

def expect {α : Type} (message : String) : Option α → Except TreeError α
  | some a => .ok a
  | none => .error (.panic message)

def ensure (p : Prop) [Decidable p] (message : String) : Except TreeError Unit :=
  if p then .ok () else .error (.bail message)

def assert (p : Prop) [Decidable p] (message : String) : Except TreeError Unit :=
  if p then .ok () else .error (.panic message)

@[simp] theorem expect_eq_ok {α : Type} {message : String} {o : Option α} {a : α} :
    expect message o = .ok a ↔ o = some a := by
  cases o <;> simp [expect]

@[simp] theorem ensure_eq_ok {p : Prop} [Decidable p] {message : String} {u : Unit} : ensure p message = .ok u ↔ p := by
  simp [ensure]

@[simp] theorem assert_eq_ok {p : Prop} [Decidable p] {message : String} {u : Unit} : assert p message = .ok u ↔ p := by
  simp [assert]

end MerkleTree
