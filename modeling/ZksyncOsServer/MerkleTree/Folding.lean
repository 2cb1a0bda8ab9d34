import ZksyncOsServer.MerkleTree.Hashing

/-!
# Folding revealed leaves into a root hash

`zip_leaves` computes the hashes of all ancestors of the revealed leaves. Run on
the hashes of a binary tree it succeeds and stays on the tree; without hash
collisions it also runs backwards: a fold that ends at the root of a tree was
given leaves and hashes of that tree, each at its own location.
-/
namespace MerkleTree

open BinaryMerkle Fallible LevelWalk List

variable {H : Type} {hasher : HashTree H}

/-- The hashes one level up. -/
def above (hasher : HashTree H) (f : Nat → H) (p : Nat) : H := hasher.hashBranch (f (2 * p)) (f (2 * p + 1))

theorem above_even (f : Nat → H) {i : Nat} (hi : i % 2 = 0) :
    above hasher f (i / 2) = hasher.hashBranch (f i) (f (i + 1)) := by
  rw [above, show 2 * (i / 2) = i by omega]

theorem above_odd (f : Nat → H) {i : Nat} (hi : i % 2 = 1) :
    above hasher f (i / 2) = hasher.hashBranch (f (i - 1)) (f i) := by
  rw [above, show 2 * (i / 2) = i - 1 by omega, show i - 1 + 1 = i by omega]

theorem zipStep_eq {depth last : Nat} {f : Nat → H} (hempty : f (last + 1) = hasher.emptySubtreeHash depth)
    {step : Step H} (halign : step.Aligned) (hnodes : ∀ x ∈ step.nodes, x.2 = f x.1) (rest : List H) :
    zipStep hasher depth last step ((step.needs last).toList.map f ++ rest) =
      .ok ((step.position / 2, above hasher f (step.position / 2)), rest,
        (step.siblings last).map fun s => ⟨f s, depth, s⟩) := by
  cases step with
  | odd i a =>
    have ha : a = f i := hnodes (i, a) (by simp [Step.nodes])
    rw [position_odd, above_odd f halign, ha]
    rfl
  | pair i a b =>
    have ha : a = f i := hnodes (i, a) (by simp [Step.nodes])
    have hb : b = f (i + 1) := hnodes (i + 1, b) (by simp [Step.nodes])
    rw [position_pair, above_even f halign, ha, hb]
    rfl
  | single i a =>
    have ha : a = f i := hnodes (i, a) (by simp [Step.nodes])
    rw [position_single, above_even f halign, ha]
    by_cases hl : i = last
    · simp [zipStep, Step.needs, Step.siblings, hl, hempty]
    · simp [zipStep, Step.needs, Step.siblings, hl]

/-- One step of the fold, run backwards: a branch of the tree came from two
hashes of the tree. -/
theorem zipStep_inv (hbr : Function.Injective2 hasher.hashBranch) {depth last : Nat} (f : Nat → H) (Q : Nat → Prop)
    {step : Step H} (halign : step.Aligned) {hashes rest : List H} {node : Nat × H}
    {siblings : List (SiblingHash H)} (h : zipStep hasher depth last step hashes = .ok (node, rest, siblings)) :
    node.1 = step.position / 2 ∧ ∃ used, hashes = used ++ rest ∧
      ((Q node.1 → node.2 = above hasher f node.1) → (∀ x ∈ step.nodes, Q (x.1 / 2) → x.2 = f x.1) ∧
        List.Forall₂ (fun s h => Q (s / 2) → h = f s) (step.needs last).toList used) := by
  cases step with
  | odd i a =>
    change i % 2 = 1 at halign
    cases hashes with
    | nil => exact absurd h (by simp [zipStep])
    | cons lhs hashes =>
      cases h
      refine ⟨rfl, [lhs], rfl, fun hnode => ?_⟩
      simp only [above_odd f halign] at hnode
      have hi : (i - 1) / 2 = i / 2 := by omega
      simp only [Step.nodes, mem_singleton, forall_eq, Step.needs, Option.toList_some,
        forall₂_cons, forall₂_nil_left_iff, and_true, hi]
      exact ⟨fun hq => (hbr (hnode hq)).2, fun hq => (hbr (hnode hq)).1⟩
  | pair i a b =>
    change i % 2 = 0 at halign
    cases h
    refine ⟨rfl, [], rfl, fun hnode => ?_⟩
    simp only [above_even f halign] at hnode
    have hi : (i + 1) / 2 = i / 2 := by omega
    simp only [Step.nodes, forall_mem_cons, not_mem_nil, false_imp_iff, implies_true, and_true, hi,
      Step.needs, Option.toList_none, forall₂_nil_left_iff]
    exact ⟨fun hq => (hbr (hnode hq)).1, fun hq => (hbr (hnode hq)).2⟩
  | single i a =>
    change i % 2 = 0 at halign
    have hi : (i + 1) / 2 = i / 2 := by omega
    by_cases hl : i = last
    · simp only [zipStep, if_pos hl] at h
      cases h
      refine ⟨rfl, [], rfl, fun hnode => ?_⟩
      simp only [above_even f halign] at hnode
      simp only [Step.nodes, mem_singleton, forall_eq, Step.needs, if_pos hl, Option.toList_none,
        forall₂_nil_left_iff, and_true]
      exact fun hq => (hbr (hnode hq)).1
    · simp only [zipStep, if_neg hl] at h
      cases hashes with
      | nil => exact absurd h (by simp)
      | cons rhs hashes =>
        cases h
        refine ⟨rfl, [rhs], rfl, fun hnode => ?_⟩
        simp only [above_even f halign] at hnode
        simp only [Step.nodes, mem_singleton, forall_eq, Step.needs, if_neg hl, Option.toList_some,
          forall₂_cons, forall₂_nil_left_iff, and_true, hi]
        exact ⟨fun hq => (hbr (hnode hq)).1, fun hq => (hbr (hnode hq)).2⟩

theorem filterMap_cons_toList {α β : Type} (f : α → Option β) (a : α) (l : List α) :
    (a :: l).filterMap f = (f a).toList ++ l.filterMap f := by
  cases h : f a <;> simp [h]

theorem zipSteps_eq {depth last : Nat} {f : Nat → H} (hempty : f (last + 1) = hasher.emptySubtreeHash depth)
    {ss : List (Step H)} (halign : ∀ s ∈ ss, s.Aligned) (hnodes : ∀ x ∈ ss.flatMap Step.nodes, x.2 = f x.1)
    (rest : List H) : zipSteps hasher depth last ss ((ss.filterMap (Step.needs last)).map f ++ rest) =
      .ok ((ss.map (·.position / 2)).map fun p => (p, above hasher f p), rest,
        (ss.flatMap (Step.siblings last)).map fun s => ⟨f s, depth, s⟩) := by
  induction ss with
  | nil => rfl
  | cons step ss ih =>
    rw [forall_mem_cons] at halign
    rw [flatMap_cons, forall_mem_append] at hnodes
    rw [filterMap_cons_toList, map_append, append_assoc, zipSteps, zipStep_eq hempty halign.1 hnodes.1, ok_bind]
    simp only [ih halign.2 hnodes.2, ok_bind, map_cons, flatMap_cons, map_append]
    rfl

theorem zipSteps_inv (hbr : Function.Injective2 hasher.hashBranch) {depth last : Nat} (f : Nat → H)
    (Q : Nat → Prop) {ss : List (Step H)} (halign : ∀ s ∈ ss, s.Aligned) {hashes rest : List H}
    {nodes : List (Nat × H)} {siblings : List (SiblingHash H)}
    (h : zipSteps hasher depth last ss hashes = .ok (nodes, rest, siblings)) :
    nodes.map Prod.fst = ss.map (·.position / 2) ∧ ∃ used, hashes = used ++ rest ∧
      ((∀ x ∈ nodes, Q x.1 → x.2 = above hasher f x.1) → (∀ x ∈ ss.flatMap Step.nodes, Q (x.1 / 2) → x.2 = f x.1) ∧
        List.Forall₂ (fun s h => Q (s / 2) → h = f s) (ss.filterMap (Step.needs last)) used) := by
  induction ss generalizing hashes nodes siblings with
  | nil =>
    cases h
    exact ⟨rfl, [], rfl, fun _ => ⟨by simp, .nil⟩⟩
  | cons step ss ih =>
    rw [forall_mem_cons] at halign
    rw [zipSteps] at h
    obtain ⟨⟨node, hashes₁, siblings₁⟩, hstep, h⟩ := bind_eq_ok.mp h
    obtain ⟨⟨nodes₂, hashes₂, siblings₂⟩, hrec, h⟩ := bind_eq_ok.mp h
    cases pure_eq_ok.mp h
    obtain ⟨hpos, used, rfl, hback⟩ := zipStep_inv hbr f Q halign.1 hstep
    obtain ⟨hfst, used', rfl, hback'⟩ := ih halign.2 hrec
    refine ⟨by rw [map_cons, map_cons, hpos, hfst], used ++ used', by rw [append_assoc], fun hall => ?_⟩
    rw [forall_mem_cons] at hall
    obtain ⟨hnodes, hused⟩ := hback hall.1
    obtain ⟨hnodes', hused'⟩ := hback' hall.2
    rw [flatMap_cons, forall_mem_append, filterMap_cons_toList]
    exact ⟨⟨hnodes, hnodes'⟩, rel_append hused hused'⟩

/-! ### All levels -/

section Levels

variable {F : Nat → Nat → H} (hF : ∀ d, F (d + 1) = above hasher (F d))
include hF

theorem zipLevels_eq {count depth last : Nat} {I : List Nat}
    (hempty : ∀ j, j < count → F (depth + j) (last / 2 ^ j + 1) = hasher.emptySubtreeHash (depth + j)) (rest : List H) :
    zipLevels hasher count depth last (I.map fun i => (i, F depth i))
        ((locations count depth last I).map (fun x => F x.1 x.2) ++ rest) =
      .ok ((ancestors count I).map fun p => (p, F (depth + count) p), rest,
        (siblingLocations count depth last I).map fun x => ⟨F x.1 x.2, x⟩) := by
  induction count generalizing depth last I with
  | zero => rfl
  | succ count ih =>
    have hnodes : ∀ x ∈ (steps (I.map fun i => (i, F depth i))).flatMap Step.nodes, x.2 = F depth x.1 := by
      rw [flatMap_nodes_steps]
      intro x hx
      obtain ⟨i, -, rfl⟩ := mem_map.mp hx
      rfl
    have hfst : (I.map fun i => (i, F depth i)).map Prod.fst = I := by simp [Function.comp_def]
    have hneeds := needs_bare last (I.map fun i => (i, F depth i))
    have hparents := parents_bare (I.map fun i => (i, F depth i))
    have hsiblings := siblings_bare last (I.map fun i => (i, F depth i))
    rw [hfst] at hneeds hparents hsiblings
    have hstep : zipSteps hasher depth last (steps (I.map fun i => (i, F depth i)))
        ((needs last (bare I)).map (F depth) ++
          ((locations count (depth + 1) (last / 2) (parents (bare I))).map (fun x => F x.1 x.2) ++ rest)) =
        .ok ((parents (bare I)).map fun p => (p, F (depth + 1) p),
          (locations count (depth + 1) (last / 2) (parents (bare I))).map (fun x => F x.1 x.2) ++ rest,
          (siblings last (bare I)).map fun s => ⟨F depth s, depth, s⟩) := by
      rw [hneeds, hparents, hsiblings, hF]
      exact zipSteps_eq (by simpa using hempty 0 (by omega)) (aligned_of_mem_steps _) hnodes _
    have hempty' : ∀ j, j < count →
        F (depth + 1 + j) (last / 2 / 2 ^ j + 1) = hasher.emptySubtreeHash (depth + 1 + j) := by
      intro j hj
      have := hempty (j + 1) (by omega)
      rwa [Nat.pow_succ', ← Nat.div_div_eq_div_mul, show depth + (j + 1) = depth + 1 + j by omega] at this
    rw [zipLevels, locations, map_append, map_map, append_assoc]
    change (zipSteps hasher depth last _ ((needs last (bare I)).map (F depth) ++ _) >>= _) = _
    rw [hstep, ok_bind]
    simp only [ih hempty', ok_bind]
    rw [siblingLocations, map_append, map_map, ancestors, show depth + (count + 1) = depth + 1 + count by omega]
    rfl

theorem zipLevels_inv (hbr : Function.Injective2 hasher.hashBranch) (Q : Nat → Prop) {count depth last : Nat}
    {nodes nodes' : List (Nat × H)} {hashes rest : List H} {siblings : List (SiblingHash H)}
    (h : zipLevels hasher count depth last nodes hashes = .ok (nodes', rest, siblings)) :
    nodes'.map Prod.fst = ancestors count (nodes.map Prod.fst) ∧ ∃ used, hashes = used ++ rest ∧
      ((∀ x ∈ nodes', Q x.1 → x.2 = F (depth + count) x.1) → (∀ x ∈ nodes, Q (x.1 / 2 ^ count) → x.2 = F depth x.1) ∧
        List.Forall₂ (fun x h => Q (x.2 / 2 ^ (depth + count - x.1)) → h = F x.1 x.2)
          (locations count depth last (nodes.map Prod.fst)) used) := by
  induction count generalizing depth last nodes hashes siblings with
  | zero =>
    cases h
    refine ⟨rfl, [], rfl, fun hall => ⟨fun x hx hq => hall x hx (by simpa using hq), .nil⟩⟩
  | succ count ih =>
    rw [zipLevels] at h
    obtain ⟨⟨nodes₁, hashes₁, siblings₁⟩, hstep, h⟩ := bind_eq_ok.mp h
    obtain ⟨⟨nodes₂, hashes₂, siblings₂⟩, hrec, h⟩ := bind_eq_ok.mp h
    cases pure_eq_ok.mp h
    obtain ⟨hfst, used, rfl, hback⟩ :=
      zipSteps_inv hbr (F depth) (fun p => Q (p / 2 ^ count)) (aligned_of_mem_steps nodes) hstep
    obtain ⟨hfst', used', rfl, hback'⟩ := ih hrec
    have hparents : nodes₁.map Prod.fst = parents (bare (nodes.map Prod.fst)) := by
      rw [hfst, parents_bare]
      rfl
    refine ⟨by rw [hfst', hparents, ancestors], used ++ used', by rw [append_assoc], fun hall => ?_⟩
    obtain ⟨hnodes', hused'⟩ := hback' fun x hx hq => by
      rw [show depth + 1 + count = depth + (count + 1) by omega]
      exact hall x hx hq
    obtain ⟨hnodes, hused⟩ := hback fun x hx hq => by
      rw [← hF]
      exact hnodes' x hx hq
    rw [flatMap_nodes_steps] at hnodes
    refine ⟨fun x hx hq => hnodes x hx ?_, ?_⟩
    · rwa [Nat.div_div_eq_div_mul, ← Nat.pow_succ']
    · rw [locations, ← hparents]
      refine rel_append ?_ (hused'.imp fun x h hx hq => hx ?_)
      · rw [needs_bare, forall₂_map_left_iff]
        refine hused.imp fun s h hx hq => hx ?_
        change Q (s / 2 ^ (depth + (count + 1) - depth)) at hq
        rwa [Nat.add_sub_cancel_left, Nat.pow_succ', ← Nat.div_div_eq_div_mul] at hq
      · rwa [show depth + 1 + count - x.1 = depth + (count + 1) - x.1 by omega]

end Levels

/-! ### From leaves to the root -/

theorem subtreeHash_succ (leaves : List Leaf) (d : Nat) :
    subtreeHash hasher leaves (d + 1) = above hasher (subtreeHash hasher leaves d) := rfl

theorem subtreeHash_past_last (leaves : List Leaf) (d : Nat) :
    subtreeHash hasher leaves d ((leaves.length - 1) / 2 ^ d + 1) = hasher.emptySubtreeHash d := by
  refine subtreeHash_of_le ?_
  have := Nat.lt_div_mul_add (a := leaves.length - 1) (Nat.two_pow_pos d)
  rw [Nat.add_mul, Nat.one_mul]
  omega

/-- The hash at the given level and index. -/
def hashAt (hasher : HashTree H) (leaves : List Leaf) (x : Nat × Nat) : H := subtreeHash hasher leaves x.1 x.2

theorem head?_of_zero_mem {l : List Nat} (hl : l.Pairwise (· < ·)) (h0 : 0 ∈ l) : l.head? = some 0 := by
  cases l with
  | nil => exact absurd h0 (by simp)
  | cons i l =>
    rcases mem_cons.mp h0 with rfl | h0
    · rfl
    · exact absurd ((pairwise_cons.mp hl).1 0 h0) (by simp)

theorem zero_mem_ancestors {I : List Nat} (hI : I.Pairwise (· < ·)) {treeDepth : Nat}
    (hfirst : ∃ i ∈ I, i < 2 ^ treeDepth) : 0 ∈ ancestors treeDepth I := by
  obtain ⟨i, hi, hlt⟩ := hfirst
  exact (mem_ancestors hI treeDepth 0).mpr ⟨i, hi, Nat.div_eq_of_lt hlt⟩

variable {leaves : List Leaf} {L : List (Nat × Leaf)} {treeDepth : Nat}

theorem zipLeaves_eq (hs : (L.map Prod.fst).Pairwise (· < ·)) (hL : ∀ x ∈ L, leaves[x.1]? = some x.2)
    (hfirst : ∃ i ∈ L.map Prod.fst, i < 2 ^ treeDepth) : zipLeaves hasher treeDepth leaves.length L
        ((locations treeDepth 0 (leaves.length - 1) (L.map Prod.fst)).map (hashAt hasher leaves)) =
      .ok (subtreeHash hasher leaves treeDepth 0,
        (siblingLocations treeDepth 0 (leaves.length - 1) (L.map Prod.fst)).map
          fun x => ⟨hashAt hasher leaves x, x⟩) := by
  obtain ⟨i, hi, hlt⟩ := hfirst
  obtain ⟨x, hx, rfl⟩ := mem_map.mp hi
  have hpos : 0 < leaves.length := (Nat.zero_le _).trans_lt (List.getElem?_eq_some_iff.mp (hL x hx)).1
  have hnodes : L.map (fun x => (x.1, hasher.hashLeaf x.2)) =
      (L.map Prod.fst).map fun i => (i, subtreeHash hasher leaves 0 i) := by
    rw [map_map]
    refine map_congr_left fun y hy => ?_
    rw [Function.comp_apply, subtreeHash_zero (hL y hy)]
  have hempty : ∀ j, j < treeDepth → subtreeHash hasher leaves (0 + j) ((leaves.length - 1) / 2 ^ j + 1) =
      hasher.emptySubtreeHash (0 + j) := by
    intro j _
    rw [Nat.zero_add, subtreeHash_past_last]
  have hne : L.isEmpty = false := by
    rw [isEmpty_eq_false_iff]
    exact ne_nil_of_mem hx
  have hlevels := zipLevels_eq (subtreeHash_succ leaves) hempty (I := L.map Prod.fst) []
  rw [append_nil] at hlevels
  have htop := head?_of_zero_mem (ancestors_pairwise hs treeDepth) (zero_mem_ancestors hs ⟨x.1, hi, hlt⟩)
  rw [zipLeaves, isEmpty_map, hne, hnodes]
  simp only [ensure, assert, if_true, if_pos hpos, ok_bind]
  change (zipLevels hasher treeDepth 0 (leaves.length - 1) _ ((locations treeDepth 0 (leaves.length - 1) _).map
    fun x => subtreeHash hasher leaves x.1 x.2) >>= _) = _
  rw [hlevels]
  simp only [ok_bind, isEmpty_nil, if_true, head?_map, htop, Option.map_some, expect]
  rw [Nat.zero_add]
  rfl

/-- Without collisions, leaves and hashes that fold to the root of a tree are
those of the tree, as far as they lie below that root. -/
theorem zipLeaves_inv (hbr : Function.Injective2 hasher.hashBranch) {leafCount : Nat} {hashes : List H}
    {siblings : List (SiblingHash H)} (hs : (L.map Prod.fst).Pairwise (· < ·))
    (hfirst : ∃ i ∈ L.map Prod.fst, i < 2 ^ treeDepth)
    (h : zipLeaves hasher treeDepth leafCount L hashes = .ok (subtreeHash hasher leaves treeDepth 0, siblings)) :
    (∀ x ∈ L, x.1 < 2 ^ treeDepth → hasher.hashLeaf x.2 = subtreeHash hasher leaves 0 x.1) ∧
      List.Forall₂ (fun x h => x.2 / 2 ^ (treeDepth - x.1) = 0 → h = hashAt hasher leaves x)
        (locations treeDepth 0 (leafCount - 1) (L.map Prod.fst)) hashes := by
  rw [zipLeaves] at h
  obtain ⟨_, -, h⟩ := bind_eq_ok.mp h
  obtain ⟨_, -, h⟩ := bind_eq_ok.mp h
  obtain ⟨⟨nodes, rest, siblings'⟩, hlevels, h⟩ := bind_eq_ok.mp h
  obtain ⟨_, hrest, h⟩ := bind_eq_ok.mp h
  obtain ⟨top, htop, h⟩ := bind_eq_ok.mp h
  obtain ⟨hroot, -⟩ := Prod.mk.inj (pure_eq_ok.mp h)
  rw [ensure_eq_ok, List.isEmpty_iff] at hrest
  rw [expect_eq_ok] at htop
  subst hrest
  have hfst : (L.map fun x => (x.1, hasher.hashLeaf x.2)).map Prod.fst = L.map Prod.fst := by
    rw [map_map]
    rfl
  obtain ⟨hnodes, used, hused, hback⟩ := zipLevels_inv (subtreeHash_succ leaves) hbr (fun p => p = 0) hlevels
  rw [hfst] at hnodes hback
  rw [append_nil] at hused
  subst hused
  have hzero := head?_of_zero_mem (ancestors_pairwise hs treeDepth) (zero_mem_ancestors hs hfirst)
  have hsorted := ancestors_pairwise hs treeDepth
  rw [← hnodes] at hzero hsorted
  obtain ⟨hleaves, hhashes⟩ := hback fun x hx hx0 => by
    -- The node at index zero is the first one.
    cases nodes with
    | nil => exact absurd hx (by simp)
    | cons node nodes =>
      simp only [head?_cons, Option.some.injEq] at htop
      simp only [map_cons, head?_cons, Option.some.injEq] at hzero
      rcases mem_cons.mp hx with rfl | hx
      · rw [hx0, Nat.zero_add, ← hroot, htop]
      · have := (pairwise_cons.mp hsorted).1 x.1 (mem_map_of_mem hx)
        omega
  refine ⟨fun x hx hlt => ?_, ?_⟩
  · exact hleaves (x.1, hasher.hashLeaf x.2) (mem_map_of_mem hx) (Nat.div_eq_of_lt hlt)
  · rw [Nat.zero_add] at hhashes
    exact hhashes

/-! ### Revealed leaves of a tree -/

/-- The leaves at the given positions. -/
def revealed (leaves : List Leaf) (I : List Nat) : List (Nat × Leaf) :=
  I.filterMap fun i => leaves[i]?.map fun leaf => (i, leaf)

theorem mem_revealed {I : List Nat} {x : Nat × Leaf} : x ∈ revealed leaves I ↔ x.1 ∈ I ∧ leaves[x.1]? = some x.2 := by
  simp only [revealed, mem_filterMap, Option.map_eq_some_iff]
  constructor
  · rintro ⟨i, hi, leaf, hleaf, rfl⟩
    exact ⟨hi, hleaf⟩
  · rintro ⟨hi, hleaf⟩
    exact ⟨x.1, hi, x.2, hleaf, rfl⟩

theorem map_fst_revealed {I : List Nat} (hI : ∀ i ∈ I, i < leaves.length) : (revealed leaves I).map Prod.fst = I := by
  induction I with
  | nil => rfl
  | cons i I ih =>
    obtain ⟨hi, hI⟩ := forall_mem_cons.mp hI
    rw [revealed, filterMap_cons, getElem?_eq_getElem hi, Option.map_some, map_cons]
    exact congrArg _ (ih hI)

theorem revealed_range (leaves : List Leaf) :
    revealed leaves (range leaves.length) = leaves.zipIdx.map fun x => (x.2, x.1) := by
  induction leaves using reverseRecOn with
  | nil => rfl
  | append_singleton leaves leaf ih =>
    have hold : revealed (leaves ++ [leaf]) (range leaves.length) = revealed leaves (range leaves.length) := by
      refine filterMap_congr fun i hi => ?_
      rw [getElem?_append_left (mem_range.mp hi)]
    rw [length_append, length_singleton, range_succ, revealed, filterMap_append]
    change revealed (leaves ++ [leaf]) _ ++ _ = _
    rw [hold, ih, zipIdx_append, map_append]
    simp

theorem zipLeaves_revealed {I : List Nat} (hs : I.Pairwise (· < ·)) (hI : ∀ i ∈ I, i < leaves.length)
    (hfirst : ∃ i ∈ I, i < 2 ^ treeDepth) : zipLeaves hasher treeDepth leaves.length (revealed leaves I)
        ((locations treeDepth 0 (leaves.length - 1) I).map (hashAt hasher leaves)) =
      .ok (subtreeHash hasher leaves treeDepth 0,
        (siblingLocations treeDepth 0 (leaves.length - 1) I).map fun x => ⟨hashAt hasher leaves x, x⟩) := by
  have h := @zipLeaves_eq _ hasher leaves (revealed leaves I) treeDepth
  rw [map_fst_revealed hI] at h
  exact h hs (fun x hx => (mem_revealed.mp hx).2) hfirst

end MerkleTree
