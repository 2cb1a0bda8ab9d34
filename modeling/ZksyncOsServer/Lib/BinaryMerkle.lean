import Mathlib

/-!
# Binary Merkle trees over an infinite row of leaves

`node br leaf d i` is the hash of the subtree of height `d` that is the `i`-th
one on its level; it covers the leaf positions `j` with `j / 2 ^ d = i`. A
fixed-depth tree is the node of that height at index zero, so neither the
number of leaves nor the depth is bounded here.
-/
namespace BinaryMerkle

variable {H : Type}

/-- Hash of the subtree of height `d` at index `i` of its level. -/
def node (br : H → H → H) (leaf : Nat → H) : Nat → Nat → H
  | 0, i => leaf i
  | d + 1, i => br (node br leaf d (2 * i)) (node br leaf d (2 * i + 1))

@[simp] theorem node_zero (br : H → H → H) (leaf : Nat → H) (i : Nat) : node br leaf 0 i = leaf i := rfl

@[simp] theorem node_succ (br : H → H → H) (leaf : Nat → H) (d i : Nat) :
    node br leaf (d + 1) i = br (node br leaf d (2 * i)) (node br leaf d (2 * i + 1)) := rfl

/-- A position of a subtree lies in one of its two halves. -/
theorem div_pow_succ (j d : Nat) : j / 2 ^ (d + 1) = j / 2 ^ d / 2 := by
  rw [Nat.pow_succ, Nat.div_div_eq_div_mul]

theorem div_pow_add (j a b : Nat) : j / 2 ^ (a + b) = j / 2 ^ a / 2 ^ b := by
  rw [Nat.pow_add, Nat.div_div_eq_div_mul]

variable {d i : Nat} {br : H → H → H} {f : Nat → H} {xs : List H}

/-- Membership in the halves of a subtree, read from its parent. -/
theorem div_pow_succ_of_half {j c : Nat} (h : j / 2 ^ d = c) (hc : c / 2 = i) : j / 2 ^ (d + 1) = i := by
  rw [div_pow_succ, h, hc]

/-- A subtree hash only depends on the leaves below it. -/
theorem node_congr {g : Nat → H} (h : ∀ j, j / 2 ^ d = i → f j = g j) : node br f d i = node br g d i := by
  induction d generalizing i with
  | zero => exact h i (by simp)
  | succ d ih =>
    have hl : node br f d (2 * i) = node br g d (2 * i) :=
      ih fun j hj => h j (div_pow_succ_of_half hj (by omega))
    have hr : node br f d (2 * i + 1) = node br g d (2 * i + 1) :=
      ih fun j hj => h j (div_pow_succ_of_half hj (by omega))
    rw [node_succ, node_succ, hl, hr]

/-- A subtree without leaves hashes to the empty subtree of its height. -/
theorem node_empty {e : Nat → H} (he : ∀ d, e (d + 1) = br (e d) (e d))
    (h : ∀ j, j / 2 ^ d = i → f j = e 0) : node br f d i = e d := by
  induction d generalizing i with
  | zero => exact h i (by simp)
  | succ d ih =>
    have hl : node br f d (2 * i) = e d :=
      ih fun j hj => h j (div_pow_succ_of_half hj (by omega))
    have hr : node br f d (2 * i + 1) = e d :=
      ih fun j hj => h j (div_pow_succ_of_half hj (by omega))
    rw [node_succ, hl, hr, he]

/-- Levels compose: the nodes of one level are the leaves of the tree above it. -/
theorem node_add (br : H → H → H) (f : Nat → H) (a b i : Nat) : node br f (a + b) i = node br (node br f a) b i := by
  induction b generalizing i with
  | zero => rfl
  | succ b ih => rw [← Nat.add_assoc, node_succ, node_succ, ih, ih]

/-- A subtree is the tree over the row of leaves that starts where it does. -/
theorem node_shift (br : H → H → H) (f : Nat → H) (d i : Nat) :
    node br f d i = node br (fun j => f (i * 2 ^ d + j)) d 0 := by
  induction d generalizing f i with
  | zero => simp
  | succ d ih =>
    have hl : 2 * i * 2 ^ d = i * 2 ^ (d + 1) := by rw [Nat.pow_succ]; ring
    have hr : ∀ j, (2 * i + 1) * 2 ^ d + j = i * 2 ^ (d + 1) + (1 * 2 ^ d + j) := by
      intro j
      rw [Nat.pow_succ]
      ring
    rw [node_succ, node_succ, ih f (2 * i), ih f (2 * i + 1), hl, Nat.mul_zero, Nat.zero_add,
      ih (fun j => f (i * 2 ^ (d + 1) + j)) 1]
    simp only [hr]

/-- With leaf and branch images apart, equal hashes of subtrees whose leftmost
leaves are real have equal heights and agree on those leaves. -/
theorem node_spine {α : Type} (hbr : Function.Injective2 br) {mk : α → H}
    (hd : ∀ a x y, mk a ≠ br x y) {g : Nat → H} {e j : Nat} {a b : α}
    (ha : f (i * 2 ^ d) = mk a) (hb : g (j * 2 ^ e) = mk b)
    (h : node br f d i = node br g e j) : d = e ∧ mk a = mk b := by
  induction d generalizing e i j with
  | zero =>
    cases e with
    | zero => exact ⟨rfl, by simpa [← ha, ← hb] using h⟩
    | succ e =>
      simp only [Nat.pow_zero, Nat.mul_one] at ha
      exact absurd (ha.symm.trans h) (hd a _ _)
  | succ d ih =>
    cases e with
    | zero =>
      simp only [Nat.pow_zero, Nat.mul_one] at hb
      exact absurd (hb.symm.trans h.symm) (hd b _ _)
    | succ e =>
      obtain ⟨hl, -⟩ := hbr h
      have hi : 2 * i * 2 ^ d = i * 2 ^ (d + 1) := by rw [Nat.pow_succ]; ring
      have hj : 2 * j * 2 ^ e = j * 2 ^ (e + 1) := by rw [Nat.pow_succ]; ring
      obtain ⟨he, hm⟩ := ih (by rw [hi]; exact ha) (by rw [hj]; exact hb) hl
      exact ⟨by rw [he], hm⟩

/-- A finite row of hashes continued by a fixed filler. -/
def row (xs : List H) (e : H) (i : Nat) : H := xs[i]?.getD e

@[simp] theorem row_nil (e : H) (i : Nat) : row [] e i = e := by simp [row]

theorem row_of_lt {e : H} (h : i < xs.length) : row xs e i = xs[i] := by simp [row, h]

theorem row_of_le {e : H} (h : xs.length ≤ i) : row xs e i = e := by
  simp [row, h]

/-- A row is exhausted past its end, and so is every subtree that starts there. -/
theorem node_row_of_le {e : Nat → H} (he : ∀ d, e (d + 1) = br (e d) (e d)) (h : xs.length ≤ i * 2 ^ d) : node br (row xs (e 0)) d i = e d := by
  refine node_empty he fun j hj => row_of_le (h.trans ?_)
  rw [← hj]
  exact Nat.div_mul_le_self j (2 ^ d)

/-- One pass up a row: neighbours are joined, a lone last node is joined with
the filler of its level. -/
def pairUp (br : H → H → H) (e : H) : List H → List H
  | [] => []
  | [x] => [br x e]
  | x :: y :: rest => br x y :: pairUp br e rest

@[simp] theorem length_pairUp (br : H → H → H) (e : H) (xs : List H) :
    (pairUp br e xs).length = (xs.length + 1) / 2 := by
  fun_induction pairUp br e xs with
  | case1 => simp
  | case2 x => simp
  | case3 x y rest ih =>
    simp only [List.length_cons, ih]
    omega

theorem row_pairUp (br : H → H → H) (e : H) (xs : List H) (i : Nat) :
    row (pairUp br e xs) (br e e) i = br (row xs e (2 * i)) (row xs e (2 * i + 1)) := by
  fun_induction pairUp br e xs generalizing i with
  | case1 => simp
  | case2 x =>
    cases i with
    | zero => simp [row]
    | succ i => simp [row, show 2 * (i + 1) = 2 * i + 1 + 1 by omega]
  | case3 x y rest ih =>
    cases i with
    | zero => simp [row]
    | succ i =>
      have h := ih i
      simpa [row, show 2 * (i + 1) = 2 * i + 1 + 1 by omega] using h

/-- The hash that a node at index `i` of its level and the siblings above it amount to: the
sibling of an even index stands on the right. -/
def climb (br : H → H → H) (hash : H) (i : Nat) : List H → H
  | [] => hash
  | sibling :: path => climb br (if i % 2 = 0 then br hash sibling else br sibling hash) (i / 2) path

theorem climb_siblings (br : H → H → H) (leaf : Nat → H) (level count i : Nat) :
    climb br (node br leaf level (i / 2 ^ level)) (i / 2 ^ level) ((List.range' level count).map fun l =>
      node br leaf l (if i / 2 ^ l % 2 = 0 then i / 2 ^ l + 1 else i / 2 ^ l - 1)) =
        node br leaf (level + count) (i / 2 ^ (level + count)) := by
  induction count generalizing level with
  | zero => rfl
  | succ count ih =>
    rw [List.range'_succ, List.map_cons, climb, ← div_pow_succ]
    have hnode : (if i / 2 ^ level % 2 = 0 then
          br (node br leaf level (i / 2 ^ level)) (node br leaf level
            (if i / 2 ^ level % 2 = 0 then i / 2 ^ level + 1 else i / 2 ^ level - 1))
        else br (node br leaf level (if i / 2 ^ level % 2 = 0 then i / 2 ^ level + 1 else i / 2 ^ level - 1))
          (node br leaf level (i / 2 ^ level))) = node br leaf (level + 1) (i / 2 ^ (level + 1)) := by
      rw [node_succ, div_pow_succ]
      generalize i / 2 ^ level = x
      by_cases hx : x % 2 = 0
      · rw [if_pos hx, if_pos hx, show 2 * (x / 2) = x by omega]
      · rw [if_neg hx, if_neg hx, show 2 * (x / 2) = x - 1 by omega, show x - 1 + 1 = x by omega]
    rw [hnode, ih (level + 1), Nat.add_right_comm, Nat.add_assoc]

end BinaryMerkle
