import ZksyncOsServer.MerkleTree.Hashing
import ZksyncOsServer.MerkleTree.Tree

/-!
# Stored trees and their loading

A node of height `h` covers `span P h` leaf positions; leaves have height zero
and the root has height `leafNibbles P`. `Stored` says that a node store holds
the whole subtree of a row of leaves under a version, child by child. Loading
the nodes on the way to some leaves of a stored tree succeeds and returns
exactly the ancestors of these leaves.
-/
namespace MerkleTree

open BinaryMerkle Fallible List WorkingPatchSet

variable {H DB : Type} {P : TreeParams} {hasher : HashTree H}

/-- Number of leaf positions below a node of height `h`. -/
def span (P : TreeParams) (h : Nat) : Nat := 2 ^ (h * P.internalNodeDepth)

@[simp] theorem span_zero (P : TreeParams) : span P 0 = 1 := by simp [span]

theorem span_pos (P : TreeParams) (h : Nat) : 0 < span P h := Nat.two_pow_pos _

theorem span_succ (P : TreeParams) (h : Nat) : span P (h + 1) = span P h * maxNodeChildren P := by
  rw [span, span, maxNodeChildren, Nat.succ_mul, Nat.pow_add]

theorem maxNodeChildren_pos (P : TreeParams) : 0 < maxNodeChildren P := Nat.two_pow_pos _

theorem div_span_succ (P : TreeParams) (i h : Nat) : i / span P (h + 1) = i / span P h / maxNodeChildren P := by
  rw [span_succ, Nat.div_div_eq_div_mul]

theorem mul_maxNodeChildren_add_mod (P : TreeParams) (i h : Nat) :
    i / span P (h + 1) * maxNodeChildren P + i / span P h % maxNodeChildren P = i / span P h := by
  rw [div_span_succ, Nat.mul_comm]
  exact Nat.div_add_mod _ _

theorem leafNibbles_eq (P : TreeParams) : leafNibbles P = maxNibblesForInternalNode P + 1 := by
  have := leafNibbles_pos P
  simp only [maxNibblesForInternalNode]
  omega

theorem child_first_div (P : TreeParams) (h idx : Nat) {j : Nat} (hj : j < maxNodeChildren P) :
    (idx * maxNodeChildren P + j) * span P h / span P (h + 1) = idx := by
  rw [div_span_succ, Nat.mul_div_cancel _ (span_pos P h), Nat.mul_comm, Nat.mul_add_div (maxNodeChildren_pos P),
    Nat.div_eq_of_lt hj, Nat.add_zero]

variable {leaves : List Leaf} {h idx bound : Nat} {nodes : NodeKey → Option (Node H)} {I : List Nat}

theorem ChildrenOf.congr {leaves' : List Leaf} {node : InternalNode H}
    (hl : ∀ j, j / span P (h + 1) = idx → leaves[j]? = leaves'[j]?)
    (hc : ChildrenOf P hasher leaves h idx node) : ChildrenOf P hasher leaves' h idx node where
  length j := by
    rw [hc.length]
    refine and_congr_right fun hj => ?_
    have he := hl ((idx * maxNodeChildren P + j) * span P h) (child_first_div P h idx hj)
    have hlt : ∀ (l : List Leaf) (p : Nat), p < l.length ↔ l[p]?.isSome := by simp
    change _ * span P h < _ ↔ _ * span P h < _
    rw [hlt, hlt, he]
  hash j child hj := by
    rw [hc.hash j child hj]
    have hlt : j < maxNodeChildren P := ((hc.length j).mp (List.getElem?_eq_some_iff.mp hj).1).1
    refine subtreeHash_congr fun i hi => hl i ?_
    change i / span P h = _ at hi
    rw [div_span_succ, hi, Nat.mul_comm, Nat.mul_add_div (maxNodeChildren_pos P), Nat.div_eq_of_lt hlt, Nat.add_zero]

structure StoredBelow (P : TreeParams) (hasher : HashTree H) (leaves : List Leaf)
    (S : Nat → Nat → Prop) (h idx : Nat) (node : InternalNode H) : Prop where
  children : ChildrenOf P hasher leaves h idx node
  stored : ∀ j child, node.children[j]? = some child → S (idx * maxNodeChildren P + j) child.version

/-- The store holds the subtree of height `h` at `idx` under a version, using
versions below `bound` only. -/
def Stored (P : TreeParams) (hasher : HashTree H) (nodes : NodeKey → Option (Node H)) (bound : Nat)
    (leaves : List Leaf) : Nat → Nat → Nat → Prop
  | 0 => fun idx version => version < bound ∧
    ∃ leaf, leaves[idx]? = some leaf ∧ nodes ⟨version, leafNibbles P, idx⟩ = some (.leaf leaf)
  | h + 1 => fun idx version => version < bound ∧
    ∃ node, nodes ⟨version, leafNibbles P - (h + 1), idx⟩ = some (.internal node) ∧
      StoredBelow P hasher leaves (Stored P hasher nodes bound leaves h) h idx node

theorem Stored.lt {version : Nat} (hs : Stored P hasher nodes bound leaves h idx version) : version < bound := by
  cases h with
  | zero => exact hs.1
  | succ h => exact hs.1

theorem Stored.frame {nodes' : NodeKey → Option (Node H)} {bound' : Nat}
    {leaves' : List Leaf} (hn : ∀ key, key.version < bound → 0 < key.nibbleCount → nodes' key = nodes key)
    (hb : bound ≤ bound') {version : Nat} (hh : h < leafNibbles P)
    (hl : ∀ j, j / span P h = idx → leaves[j]? = leaves'[j]?) (hs : Stored P hasher nodes bound leaves h idx version) :
    Stored P hasher nodes' bound' leaves' h idx version := by
  induction h generalizing idx version with
  | zero =>
    obtain ⟨hv, leaf, hleaf, hnode⟩ := hs
    refine ⟨hv.trans_le hb, leaf, ?_, ?_⟩
    · rw [← hl idx (by simp)]
      exact hleaf
    · rw [hn _ hv hh]
      exact hnode
  | succ h ih =>
    obtain ⟨hv, node, hnode, hbelow⟩ := hs
    refine ⟨hv.trans_le hb, node, ?_, hbelow.children.congr hl, fun j child hj => ?_⟩
    · rw [hn _ hv (Nat.sub_pos_of_lt hh)]
      exact hnode
    · refine ih (by omega) (fun i hi => hl i ?_) (hbelow.stored j child hj)
      have hlt : j < maxNodeChildren P :=
        ((hbelow.children.length j).mp (List.getElem?_eq_some_iff.mp hj).1).1
      rw [div_span_succ, hi, Nat.mul_comm, Nat.mul_add_div (maxNodeChildren_pos P), Nat.div_eq_of_lt hlt,
        Nat.add_zero]

/-! ### Loading one level -/

def Reads [Database DB H] (db : DB) (nodes : NodeKey → Option (Node H)) : Prop :=
  ∀ keys ns, (∀ key ∈ keys, 0 < key.nibbleCount) →
    List.Forall₂ (fun key n => nodes key = some n) keys ns → Database.tryNodes db keys = .ok ns

/-- Some of the leaf indices lies below the node of height `h` at `idx`. -/
def Anc (P : TreeParams) (I : List Nat) (h idx : Nat) : Prop := ∃ i ∈ I, i / span P h = idx

theorem Anc.parent (ha : Anc P I h idx) : Anc P I (h + 1) (idx / maxNodeChildren P) := by
  obtain ⟨i, hi, rfl⟩ := ha
  exact ⟨i, hi, div_span_succ P i h⟩

@[simp] theorem anc_zero : Anc P I 0 idx ↔ idx ∈ I := by
  simp [Anc]

def childAt (P : TreeParams) (parentLevel : Level H) (p : Nat) : Option (ChildRef H) :=
  parentLevel[p / maxNodeChildren P]?.bind (·.children[p % maxNodeChildren P]?)

theorem childAt_eq_some {parentLevel : Level H} {p : Nat} {child : ChildRef H}
    (h : childAt P parentLevel p = some child) : ∃ parent, parentLevel[p / maxNodeChildren P]? = some parent ∧
      parent.children[p % maxNodeChildren P]? = some child :=
  Option.bind_eq_some_iff.mp h

/-- Every ancestor of sorted indices is listed once, in order. -/
theorem ancestorsOnLevel_spec {width : Nat} {prev : Option Nat} (hI : I.Pairwise (· ≤ ·))
    (hprev : ∀ q ∈ prev, ∀ i ∈ I, q ≤ i / width) : (ancestorsOnLevel width I prev).Pairwise (· < ·) ∧
      ∀ p, p ∈ ancestorsOnLevel width I prev ↔ (∃ i ∈ I, i / width = p) ∧ prev ≠ some p := by
  induction I generalizing prev with
  | nil => exact ⟨.nil, by simp [ancestorsOnLevel]⟩
  | cons i I ih =>
    obtain ⟨hi, hI⟩ := pairwise_cons.mp hI
    rw [ancestorsOnLevel]
    by_cases hp : prev = some (i / width)
    · obtain ⟨hsorted, hmem⟩ := ih hI fun q hq j hj => hprev q hq j (mem_cons_of_mem i hj)
      rw [if_pos hp]
      refine ⟨hsorted, fun p => ?_⟩
      rw [hmem, exists_mem_cons_iff]
      constructor
      · rintro ⟨h₁, h₂⟩
        exact ⟨.inr h₁, h₂⟩
      · rintro ⟨h₁ | h₁, h₂⟩
        · exact absurd (h₁ ▸ hp) h₂
        · exact ⟨h₁, h₂⟩
    · have hmono : ∀ j ∈ I, i / width ≤ j / width := fun j hj => Nat.div_le_div_right (hi j hj)
      obtain ⟨hsorted, hmem⟩ := ih hI (show ∀ q ∈ some (i / width), _ by simpa using hmono)
      rw [if_neg hp]
      refine ⟨pairwise_cons.mpr ⟨fun p hpm => ?_, hsorted⟩, fun p => ?_⟩
      · obtain ⟨⟨j, hj, rfl⟩, hne⟩ := (hmem p).mp hpm
        exact lt_of_le_of_ne (hmono j hj) fun he => hne (by rw [he])
      · rw [mem_cons, hmem, exists_mem_cons_iff]
        constructor
        · rintro (rfl | ⟨h₁, h₂⟩)
          · exact ⟨.inl rfl, hp⟩
          · refine ⟨.inr h₁, fun he => h₂ ?_⟩
            obtain ⟨j, hj, rfl⟩ := h₁
            have h₃ := hprev _ he i (by simp)
            have h₄ := hmono j hj
            rw [show i / width = j / width by omega]
        · rintro ⟨h₁ | h₁, h₂⟩
          · exact .inl h₁.symm
          · by_cases he : p = i / width
            · exact .inl he
            · exact .inr ⟨h₁, fun hs => he (Option.some.inj hs).symm⟩

theorem mem_ancestorsOnLevel (hI : I.Pairwise (· ≤ ·)) (h p : Nat) :
    p ∈ ancestorsOnLevel (span P h) I none ↔ Anc P I h p := by
  rw [(ancestorsOnLevel_spec hI (by simp)).2, Anc]
  simp

def requestedKey (P : TreeParams) (parentLevel : Level H) (nibbleCount p : Nat) : NodeKey :=
  ⟨((childAt P parentLevel p).map ChildRef.version).getD 0, nibbleCount, p⟩

theorem requestedKeys_eq {parentLevel : Level H} (nibbleCount : Nat)
    (hI : I.Pairwise (· ≤ ·)) (hchild : ∀ p, Anc P I h p → ∃ child, childAt P parentLevel p = some child) :
    requestedKeys P parentLevel nibbleCount (h * P.internalNodeDepth) I = .ok ((ancestorsOnLevel (span P h) I none).map
        fun p => (p, requestedKey P parentLevel nibbleCount p)) := by
  refine mapM_eq_map fun p hp => ?_
  obtain ⟨child, hc⟩ := hchild p ((mem_ancestorsOnLevel hI h p).mp hp)
  obtain ⟨parent, hparent, hcref⟩ := childAt_eq_some hc
  rw [requestedKey, hc]
  change (expect "no parent" parentLevel[p / maxNodeChildren P]? >>= _) = _
  rw [hparent]
  change (expect "index out of bounds" parent.children[p % maxNodeChildren P]? >>= _) = _
  rw [hcref]
  rfl

theorem loadLevel_ok {V : Type} [Nonempty V] (hI : I.Pairwise (· ≤ ·)) (unwrap : Node H → Except TreeError V) (hh : h ≤ maxNibblesForInternalNode P) (parentLevel : Level H)
    (hload : ∀ p, Anc P I h p → ∃ child node x, childAt P parentLevel p = some child ∧
      nodes ⟨child.version, leafNibbles P - h, p⟩ = some node ∧ unwrap node = .ok x) :
    ∃ m, (∀ {DB : Type} [Database DB H] {db : DB}, Reads db nodes → loadLevel P db I unwrap h parentLevel = .ok m) ∧
      (∀ p, (∃ x, m[p]? = some x) ↔ Anc P I h p) ∧
      ∀ p x, m[p]? = some x → ∃ child node, childAt P parentLevel p = some child ∧
        nodes ⟨child.version, leafNibbles P - h, p⟩ = some node ∧ unwrap node = .ok x := by
  have hreq := requestedKeys_eq (leafNibbles P - h) hI fun p hp => by
    obtain ⟨child, -, -, hc, -⟩ := hload p hp
    exact ⟨child, hc⟩
  have hkey : ∀ {p child}, childAt P parentLevel p = some child →
      requestedKey P parentLevel (leafNibbles P - h) p = ⟨child.version, leafNibbles P - h, p⟩ := by
    intro p child hc
    rw [requestedKey, hc]
    rfl
  -- Every requested node is there and has the expected kind.
  have hnode : ∀ p, Anc P I h p → ∃ node x,
      nodes (requestedKey P parentLevel (leafNibbles P - h) p) = some node ∧ unwrap node = .ok x := by
    intro p hp
    obtain ⟨child, node, x, hc, hn, hx⟩ := hload p hp
    exact ⟨node, x, by rw [hkey hc]; exact hn, hx⟩
  have : Nonempty (Node H) := ⟨.leaf .zero⟩
  choose! node x hn hx using hnode
  set ps := ancestorsOnLevel (span P h) I none with hps
  have hanc : ∀ p ∈ ps, Anc P I h p := fun p hp => (mem_ancestorsOnLevel hI h p).mp hp
  have htry : ∀ {DB : Type} [Database DB H] {db : DB}, Reads db nodes →
      Database.tryNodes db (ps.map (requestedKey P parentLevel (leafNibbles P - h))) = .ok (ps.map node) := by
    intro DB _ db hdb
    refine hdb _ _ (fun key hk => ?_) ?_
    · obtain ⟨p, -, rfl⟩ := mem_map.mp hk
      have := leafNibbles_eq P
      simp only [requestedKey]
      omega
    · rw [forall₂_map_left_iff, forall₂_map_right_iff, forall₂_same]
      exact fun p hp => hn p (hanc p hp)
  have hmap : (ps.map fun p => (node p, p)).mapM (fun e : Node H × Nat => do return (e.2, ← unwrap e.1)) =
      (.ok (ps.map fun p => (p, x p)) : Except TreeError (List (Nat × V))) := by
    rw [mapM_eq_ok, forall₂_map_left_iff, forall₂_map_right_iff, forall₂_same]
    intro p hp
    simp [hx p (hanc p hp), pure, Except.pure]
  have hget : ∀ p y, (Std.ExtTreeMap.ofList (ps.map fun p => (p, x p)) compare)[p]? = some y ↔
      Anc P I h p ∧ x p = y := by
    intro p y
    have hd : (ps.map fun p => (p, x p)).Pairwise fun a b => a.1 ≠ b.1 := by
      rw [pairwise_map]
      exact (ancestorsOnLevel_spec hI (by simp)).1.imp fun hlt => hlt.ne
    rw [SortedMap.getElem?_ofList hd, ← mem_ancestorsOnLevel hI]
    simp only [mem_map, Prod.mk.injEq]
    exact ⟨fun ⟨q, hq, he, hy⟩ => he ▸ ⟨hq, hy⟩, fun ⟨hq, hy⟩ => ⟨p, hq, rfl, hy⟩⟩
  refine ⟨.ofList (ps.map fun p => (p, x p)), fun {DB} _ {db} hdb => ?_, fun p => ?_, fun p y hp => ?_⟩
  · rw [loadLevel, hreq, ok_bind, map_map, map_map]
    change (Database.tryNodes db (ps.map (requestedKey P parentLevel (leafNibbles P - h))) >>= _) = _
    rw [htry hdb, ok_bind]
    have hzip : (ps.map node).zip (ps.map (Prod.fst ∘ fun p =>
        (p, requestedKey P parentLevel (leafNibbles P - h) p))) = ps.map fun p => (node p, p) := zip_map'
    rw [hzip]
    exact bind_eq_ok.mpr ⟨_, hmap, rfl⟩
  · simp only [hget, exists_and_left, exists_eq', and_true]
  · obtain ⟨ha, rfl⟩ := (hget p y).mp hp
    obtain ⟨child, -, -, hc, -⟩ := hload p ha
    exact ⟨child, node p, hc, by rw [← hkey hc]; exact hn p ha, hx p ha⟩

/-! ### Loading a tree -/

structure LevelIs (dom : Nat → Prop) (Q : Nat → InternalNode H → Prop) (level : Level H) : Prop where
  mem : ∀ idx, (∃ node, level[idx]? = some node) ↔ dom idx
  node : ∀ idx node, level[idx]? = some node → Q idx node

/-- Levels from the top down; a level followed by `h` others has child height `h`. -/
def LevelsAre (dom : Nat → Nat → Prop) (Q : Nat → Nat → InternalNode H → Prop) : List (Level H) → Prop
  | [] => True
  | level :: lower => LevelIs (dom lower.length) (Q lower.length) level ∧ LevelsAre dom Q lower

/-- Every loaded leaf is the one of the row. -/
def LeavesAre (leaves : List Leaf) (I : List Nat) (m : Map Nat Leaf) : Prop :=
  ∀ i, m[i]? = if i ∈ I then leaves[i]? else none

theorem childAt_stored {S : Nat → Nat → Prop} {p : Nat}
    {level : Level H} (hmem : ∀ idx, Anc P I (h + 1) idx → ∃ node, level[idx]? = some node)
    (hnode : ∀ idx node, level[idx]? = some node → StoredBelow P hasher leaves S h idx node)
    (hI : ∀ i ∈ I, i < leaves.length) (hp : Anc P I h p) :
    ∃ child, childAt P level p = some child ∧ S p child.version := by
  obtain ⟨parent, hparent⟩ := hmem _ hp.parent
  have hbelow := hnode _ _ hparent
  have hpos : p / maxNodeChildren P * maxNodeChildren P + p % maxNodeChildren P = p := by
    rw [Nat.mul_comm]
    exact Nat.div_add_mod _ _
  have hlt : p % maxNodeChildren P < parent.children.length := by
    rw [hbelow.children.length, hpos]
    refine ⟨Nat.mod_lt _ (maxNodeChildren_pos P), ?_⟩
    obtain ⟨i, hi, rfl⟩ := hp
    exact (Nat.div_mul_le_self i (span P h)).trans_lt (hI i hi)
  have hget : parent.children[p % maxNodeChildren P]? = some parent.children[p % maxNodeChildren P] :=
    getElem?_eq_getElem hlt
  refine ⟨_, by rw [childAt, hparent]; exact hget, ?_⟩
  have hs := hbelow.stored _ _ hget
  rwa [hpos] at hs

/-- Loading from a level down to the leaves returns the ancestors of the leaf
indices on every level, as they are stored. -/
theorem loadLevels_ok (hI : I.Pairwise (· ≤ ·))
    (hlt : ∀ i ∈ I, i < leaves.length) (hh : h ≤ maxNibblesForInternalNode P) (parentLevel : Level H)
    (hmem : ∀ idx, Anc P I (h + 1) idx → ∃ node, parentLevel[idx]? = some node)
    (hnode : ∀ idx node, parentLevel[idx]? = some node →
      StoredBelow P hasher leaves (Stored P hasher nodes bound leaves h) h idx node) :
    ∃ levels ls, (∀ {DB : Type} [Database DB H] {db : DB}, Reads db nodes →
        loadLevels P db I h parentLevel = .ok (levels, ls)) ∧ levels.length = h ∧ LevelsAre (fun h => Anc P I (h + 1))
        (fun h => StoredBelow P hasher leaves (Stored P hasher nodes bound leaves h) h) levels ∧
      LeavesAre leaves I ls := by
  have : Nonempty Leaf := ⟨.zero⟩
  have : Nonempty (InternalNode H) := ⟨.empty⟩
  induction h generalizing parentLevel with
  | zero =>
    obtain ⟨ls, hload, hmem', hnode'⟩ := loadLevel_ok (P := P) hI unwrapLeaf
      (h := 0) (Nat.zero_le _) parentLevel fun p hp => by
        obtain ⟨child, hc, -, leaf, -, hnode⟩ := childAt_stored hmem hnode hlt hp
        exact ⟨child, _, leaf, hc, hnode, rfl⟩
    refine ⟨[], ls, fun hdb => by rw [loadLevels, hload hdb]; rfl, rfl, trivial, fun i => ?_⟩
    by_cases hi : i ∈ I
    · obtain ⟨leaf, hleaf⟩ := (hmem' i).mpr (anc_zero.mpr hi)
      obtain ⟨child, node, hc, hn, hunwrap⟩ := hnode' i leaf hleaf
      obtain ⟨child', hc', -, leaf', hl', hn'⟩ := childAt_stored hmem hnode hlt (anc_zero.mpr hi)
      rw [hc] at hc'
      cases Option.some.inj hc'
      rw [Nat.sub_zero, hn'] at hn
      cases Option.some.inj hn
      cases hunwrap
      rw [if_pos hi, hleaf, hl']
    · rw [if_neg hi]
      cases hget : ls[i]? with
      | none => rfl
      | some leaf => exact absurd (anc_zero.mp ((hmem' i).mp ⟨leaf, hget⟩)) hi
  | succ h ih =>
    obtain ⟨level, hload, hmem', hnode'⟩ := loadLevel_ok (P := P) hI
      unwrapInternal hh parentLevel fun p hp => by
        obtain ⟨child, hc, -, node, hnode, -⟩ := childAt_stored hmem hnode hlt hp
        exact ⟨child, _, node, hc, hnode, rfl⟩
    have hbelow : LevelIs (Anc P I (h + 1))
        (StoredBelow P hasher leaves (Stored P hasher nodes bound leaves h) h) level := by
      refine ⟨hmem', fun p x hx => ?_⟩
      obtain ⟨child, node, hc, hn, hunwrap⟩ := hnode' p x hx
      obtain ⟨child', hc', -, node', hn', hb⟩ := childAt_stored hmem hnode hlt ((hmem' p).mp ⟨x, hx⟩)
      rw [hc] at hc'
      cases Option.some.inj hc'
      rw [hn'] at hn
      cases Option.some.inj hn
      cases hunwrap
      exact hb
    obtain ⟨levels, ls, hrest, hlen, hlevels, hleaves⟩ := ih (by omega) level (fun idx => (hbelow.mem idx).mpr) hbelow.node
    refine ⟨level :: levels, ls, fun hdb => ?_, by rw [length_cons, hlen], ⟨by rw [hlen]; exact hbelow, hlevels⟩, hleaves⟩
    rw [loadLevels, hload hdb, ok_bind, hrest hdb]
    rfl

def StoredTree (P : TreeParams) (hasher : HashTree H) (nodes : NodeKey → Option (Node H)) (bound : Nat)
    (leaves : List Leaf) (root : Root H) : Prop :=
  root.leafCount = leaves.length ∧ leaves.length ≤ span P (leafNibbles P) ∧
    StoredBelow P hasher leaves (Stored P hasher nodes bound leaves (maxNibblesForInternalNode P))
      (maxNibblesForInternalNode P) 0 root.rootNode

theorem StoredTree.frame {nodes' : NodeKey → Option (Node H)}
    {root : Root H} (hn : ∀ key, key.version < bound → 0 < key.nibbleCount → nodes' key = nodes key)
    (ht : StoredTree P hasher nodes bound leaves root) : StoredTree P hasher nodes' bound leaves root := by
  obtain ⟨hcount, hfits, hbelow⟩ := ht
  refine ⟨hcount, hfits, hbelow.children, fun j child hj => ?_⟩
  exact (hbelow.stored j child hj).frame hn le_rfl (by rw [leafNibbles_eq]; omega) fun _ _ => rfl

/-- The nodes of a working set: the ancestors of the given leaves and the root. -/
def Touched (P : TreeParams) (I : List Nat) (h idx : Nat) : Prop :=
  Anc P I (h + 1) idx ∨ h = maxNibblesForInternalNode P ∧ idx = 0

theorem touched_of_lt (hh : h < maxNibblesForInternalNode P) : Touched P I h idx ↔ Anc P I (h + 1) idx :=
  ⟨fun ht => ht.elim id fun he => absurd he.1 hh.ne, .inl⟩

structure Loaded (P : TreeParams) (hasher : HashTree H) (nodes : NodeKey → Option (Node H)) (bound : Nat)
    (leaves : List Leaf) (I : List Nat) (w : WorkingPatchSet H) : Prop where
  leafCount : w.leafCount = leaves.length
  length : w.internal.length = leafNibbles P
  levels : LevelsAre (Touched P I)
    (fun h => StoredBelow P hasher leaves (Stored P hasher nodes bound leaves h) h) w.internal
  leaves : LeavesAre leaves I w.leaves

theorem LevelsAre.imp {dom dom' : Nat → Nat → Prop} {Q Q' : Nat → Nat → InternalNode H → Prop}
    {levels : List (Level H)} (hd : ∀ h, h < levels.length → ∀ idx, dom h idx ↔ dom' h idx)
    (hQ : ∀ h, h < levels.length → ∀ idx node, dom' h idx → Q h idx node → Q' h idx node)
    (hl : LevelsAre dom Q levels) : LevelsAre dom' Q' levels := by
  induction levels with
  | nil => trivial
  | cons level lower ih =>
    obtain ⟨hlevel, hlower⟩ := hl
    refine ⟨⟨fun idx => (hlevel.mem idx).trans (hd _ (by simp) idx), fun idx node hn => ?_⟩,
      ih (fun h hh => hd h (by simp; omega)) (fun h hh => hQ h (by simp; omega)) hlower⟩
    exact hQ _ (by simp) idx node ((hd _ (by simp) idx).mp ((hlevel.mem idx).mp ⟨node, hn⟩))
      (hlevel.node idx node hn)

theorem div_span_eq_zero {i n : Nat} (hi : i < n) (hn : n ≤ span P (leafNibbles P)) :
    i / span P (leafNibbles P) = 0 := Nat.div_eq_of_lt (hi.trans_le hn)

/-- `load_nodes` on a stored tree returns the same working set from every
database that serves its nodes. -/
theorem loadNodes_ok {root : Root H} (hroot : StoredTree P hasher nodes bound leaves root) (hI : I.Pairwise (· ≤ ·)) (hlt : ∀ i ∈ I, i < leaves.length) :
    ∃ w, (∀ {DB : Type} [Database DB H] {db : DB}, Reads db nodes → loadNodes P db I (.new P root) = .ok w) ∧
      Loaded P hasher nodes bound leaves I w := by
  obtain ⟨hcount, hfits, hbelow⟩ := hroot
  have hget : ∀ idx node, ((∅ : Level H).insert 0 root.rootNode)[idx]? = some node ↔
      idx = 0 ∧ root.rootNode = node := by
    intro idx node
    rw [Std.ExtTreeMap.getElem?_insert]
    by_cases h0 : idx = 0
    · simp [h0]
    · simp [h0, Ne.symm h0]
  have hanc : ∀ idx, Anc P I (maxNibblesForInternalNode P + 1) idx → idx = 0 := by
    rintro idx ⟨i, hi, rfl⟩
    rw [← leafNibbles_eq]
    exact div_span_eq_zero (hlt i hi) hfits
  obtain ⟨levels, ls, hload, hlen, hlevels, hleaves⟩ :=
    loadLevels_ok hI hlt (le_refl (maxNibblesForInternalNode P))
      ((∅ : Level H).insert 0 root.rootNode)
      (fun idx ha => ⟨root.rootNode, (hget idx _).mpr ⟨hanc idx ha, rfl⟩⟩)
      (fun idx node hn => by
        obtain ⟨rfl, rfl⟩ := (hget idx node).mp hn
        exact hbelow)
  refine ⟨⟨root.leafCount, (∅ : Level H).insert 0 root.rootNode :: levels, ls⟩, fun hdb => ?_, ?_⟩
  · simp only [loadNodes, new, getElem?_cons_zero, expect, ok_bind, hload hdb]
    rfl
  · refine ⟨hcount, by rw [length_cons, hlen, leafNibbles_eq], ⟨?_, ?_⟩, hleaves⟩
    · rw [hlen]
      refine ⟨fun idx => ⟨?_, ?_⟩, fun idx node hn => ?_⟩
      · rintro ⟨node, hn⟩
        exact .inr ⟨rfl, ((hget idx node).mp hn).1⟩
      · rintro (ha | ⟨-, rfl⟩)
        · exact ⟨root.rootNode, (hget idx _).mpr ⟨hanc idx ha, rfl⟩⟩
        · exact ⟨root.rootNode, (hget 0 _).mpr ⟨rfl, rfl⟩⟩
      · obtain ⟨rfl, rfl⟩ := (hget idx node).mp hn
        exact hbelow
    · exact hlevels.imp (fun h hh idx => (touched_of_lt (by omega)).symm) fun _ _ _ _ _ hq => hq

end MerkleTree
