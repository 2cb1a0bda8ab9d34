import Mathlib

/-!
# Walking over the known nodes of one level of a binary tree

A sparse level is a list of positions in increasing order, each with a payload.
Going up one level, a node meets its sibling in the list, or the sibling has to
come from elsewhere. `steps` is the sequence of these three situations, `needs`
the positions of the siblings that have to be supplied when the level ends at
position `last`.
-/
namespace LevelWalk

open List

variable {α β : Type}

inductive Step (α : Type) where
  | odd (i : Nat) (a : α)
  | pair (i : Nat) (a b : α)
  | single (i : Nat) (a : α)
  deriving DecidableEq

def steps : List (Nat × α) → List (Step α)
  | [] => []
  | (i, a) :: rest =>
    if i % 2 = 1 then .odd i a :: steps rest
    else match rest with
      | (j, b) :: rest' =>
        if j = i + 1 then .pair i a b :: steps rest' else .single i a :: steps ((j, b) :: rest')
      | [] => [.single i a]

theorem steps_cons_odd {i : Nat} (hi : i % 2 = 1) (a : α) (rest : List (Nat × α)) :
    steps ((i, a) :: rest) = .odd i a :: steps rest := by
  cases rest <;> simp [steps, hi]

def Step.nodes : Step α → List (Nat × α)
  | .odd i a => [(i, a)]
  | .pair i a b => [(i, a), (i + 1, b)]
  | .single i a => [(i, a)]

/-- The position of the first node has the parity its step is for. -/
def Step.Aligned : Step α → Prop
  | .odd i _ => i % 2 = 1
  | .pair i _ _ => i % 2 = 0
  | .single i _ => i % 2 = 0

/-- The steps take every node of the level once, in order. -/
theorem flatMap_nodes_steps (nodes : List (Nat × α)) : (steps nodes).flatMap Step.nodes = nodes := by
  fun_induction steps nodes with
  | case1 => rfl
  | case2 i a rest hi ih => simp [Step.nodes, ih]
  | case3 i a hi b rest ih => simp [Step.nodes, ih]
  | case4 i a hi j b rest hj ih => simp [Step.nodes, ih]
  | case5 i a hi => rfl

theorem aligned_of_mem_steps (nodes : List (Nat × α)) : ∀ s ∈ steps nodes, s.Aligned := by
  fun_induction steps nodes with
  | case1 => simp
  | case2 i a rest hi ih => exact forall_mem_cons.mpr ⟨hi, ih⟩
  | case3 i a hi b rest ih => exact forall_mem_cons.mpr ⟨Nat.mod_two_ne_one.mp hi, ih⟩
  | case4 i a hi j b rest hj ih => exact forall_mem_cons.mpr ⟨Nat.mod_two_ne_one.mp hi, ih⟩
  | case5 i a hi => simpa [Step.Aligned] using Nat.mod_two_ne_one.mp hi

def Step.position : Step α → Nat
  | .odd i _ => i
  | .pair i _ _ => i
  | .single i _ => i

@[simp] theorem position_odd (i : Nat) (a : α) : (Step.odd i a).position = i := rfl
@[simp] theorem position_pair (i : Nat) (a b : α) : (Step.pair i a b).position = i := rfl
@[simp] theorem position_single (i : Nat) (a : α) : (Step.single i a).position = i := rfl

/-- The sibling a step takes from elsewhere; past `last` there is none. -/
def Step.needs (last : Nat) : Step α → Option Nat
  | .odd i _ => some (i - 1)
  | .pair _ _ _ => none
  | .single i _ => if i = last then none else some (i + 1)

def sibling (i : Nat) : Nat := if i % 2 = 0 then i + 1 else i - 1

/-- The sibling asked for at a position; past `last` there is none. -/
def query (last i : Nat) : Option Nat := if i % 2 = 0 ∧ i = last then none else some (sibling i)

def Step.siblings (last : Nat) : Step α → List Nat
  | .odd i _ => [i - 1]
  | .pair i _ _ => [i + 1, i]
  | .single i _ => if i = last then [] else [i + 1]

theorem sibling_div (i : Nat) : sibling i / 2 = i / 2 := by
  rw [sibling]
  split <;> omega

theorem query_eq_some {last i s : Nat} : query last i = some s ↔ sibling i = s ∧ ¬ (i % 2 = 0 ∧ i = last) := by
  rw [query]
  split
  next h => exact ⟨nofun, fun h' => absurd h h'.2⟩
  next h => simp [h]

/-- The step of a node whose sibling is not in the list. -/
def lone (i : Nat) (a : α) : Step α := if i % 2 = 1 then .odd i a else .single i a

@[simp] theorem position_lone (i : Nat) (a : α) : (lone i a).position = i := by
  rw [lone]
  split <;> rfl

theorem needs_lone (last i : Nat) (a : α) : (lone i a).needs last = query last i := by
  rw [lone, query, sibling]
  split
  next hi => simp [Step.needs, hi]
  next hi => simp [Step.needs, Nat.mod_two_ne_one.mp hi]

theorem siblings_lone (last i : Nat) (a : α) : (lone i a).siblings last = (query last i).toList := by
  rw [lone, query, sibling]
  split
  next hi => simp [Step.siblings, hi]
  next hi =>
    simp only [Step.siblings, Nat.mod_two_ne_one.mp hi, true_and, if_true]
    split <;> rfl

def needs (last : Nat) (nodes : List (Nat × α)) : List Nat :=
  (steps nodes).filterMap (Step.needs last)

def parents (nodes : List (Nat × α)) : List Nat := (steps nodes).map (·.position / 2)

/-- Increasing positions. -/
abbrev Sorted (nodes : List (Nat × α)) : Prop := nodes.Pairwise fun a b => a.1 < b.1

/-- The induction the walk follows on a sorted level: a node without its sibling, or a pair. -/
theorem steps_induction {motive : List (Nat × α) → List (Step α) → Prop} (nil : motive [] [])
    (single : ∀ i a rest, (∀ x ∈ rest, i / 2 < x.1 / 2) → Sorted rest → motive rest (steps rest) →
      motive ((i, a) :: rest) (lone i a :: steps rest))
    (pair : ∀ i a b rest, i % 2 = 0 → (∀ x ∈ rest, i / 2 < x.1 / 2) → Sorted rest →
      motive rest (steps rest) → motive ((i, a) :: (i + 1, b) :: rest) (.pair i a b :: steps rest)) :
    ∀ nodes, Sorted nodes → motive nodes (steps nodes) := by
  intro nodes hs
  fun_induction steps nodes with
  | case1 => exact nil
  | case2 i a rest hi ih =>
    obtain ⟨hlt, hs⟩ := pairwise_cons.mp hs
    have h := single i a rest (fun x hx => by have := hlt x hx; omega) hs (ih hs)
    rwa [lone, if_pos hi] at h
  | case3 i a hi b rest ih =>
    obtain ⟨-, hs⟩ := pairwise_cons.mp hs
    obtain ⟨hlt, hs⟩ := pairwise_cons.mp hs
    exact pair i a b rest (by omega) (fun x hx => by have := hlt x hx; omega) hs (ih hs)
  | case4 i a hi j b rest hj ih =>
    obtain ⟨hlt, hs⟩ := pairwise_cons.mp hs
    have hij : i + 1 < j := by
      have := hlt (j, b) (by simp)
      simp only at this
      omega
    have h := single i a _ (fun x hx => ?_) hs (ih hs)
    · rwa [lone, if_neg hi] at h
    · rcases mem_cons.mp hx with rfl | hx
      · simp only
        omega
      · have := (pairwise_cons.mp hs).1 x hx
        simp only at this
        omega
  | case5 i a hi =>
    have h := single i a [] (by simp) .nil nil
    rwa [lone, if_neg hi] at h

/-- The steps only look at positions. -/
def Step.map (f : α → β) : Step α → Step β
  | .odd i a => .odd i (f a)
  | .pair i a b => .pair i (f a) (f b)
  | .single i a => .single i (f a)

theorem steps_map (f : α → β) (nodes : List (Nat × α)) :
    steps (nodes.map fun x => (x.1, f x.2)) = (steps nodes).map (Step.map f) := by
  fun_induction steps nodes with
  | case1 => rfl
  | case2 i a rest hi ih => simp [steps_cons_odd hi, ih, Step.map]
  | case3 i a hi b rest ih => simp [steps, hi, ih, Step.map]
  | case4 i a hi j b rest hj ih =>
    simp only [map_cons] at ih
    simp [steps, hi, hj, ih, Step.map]
  | case5 i a hi => simp [steps, hi, Step.map]

@[simp] theorem position_map (f : α → β) (s : Step α) : (s.map f).position = s.position := by
  cases s <;> rfl

@[simp] theorem needs_step_map (last : Nat) (f : α → β) (s : Step α) : (s.map f).needs last = s.needs last := by
  cases s <;> rfl

theorem filterMap_needs_lone (last i : Nat) (a : α) (ss : List (Step α)) :
    (lone i a :: ss).filterMap (Step.needs last) = (query last i).toList ++ ss.filterMap (Step.needs last) := by
  rw [filterMap_cons, needs_lone]
  cases query last i <;> rfl

theorem filterMap_needs_pair (last i : Nat) (a b : α) (ss : List (Step α)) :
    (Step.pair i a b :: ss).filterMap (Step.needs last) = ss.filterMap (Step.needs last) := rfl

theorem needs_map (last : Nat) (f : α → β) (nodes : List (Nat × α)) :
    needs last (nodes.map fun x => (x.1, f x.2)) = needs last nodes := by
  simp [needs, steps_map, filterMap_map]

theorem parents_map (f : α → β) (nodes : List (Nat × α)) :
    parents (nodes.map fun x => (x.1, f x.2)) = parents nodes := by
  simp [parents, steps_map]

theorem mem_parents {nodes : List (Nat × α)} (hs : Sorted nodes) (p : Nat) :
    p ∈ parents nodes ↔ ∃ x ∈ nodes, x.1 / 2 = p := by
  refine steps_induction (motive := fun nodes ss => p ∈ ss.map (·.position / 2) ↔ ∃ x ∈ nodes, x.1 / 2 = p)
    ?_ ?_ ?_ nodes hs
  · simp
  · intro i a rest _ _ ih
    simp only [map_cons, position_lone, mem_cons, ih, exists_eq_or_imp]
    exact or_congr_left eq_comm
  · intro i a b rest hi _ _ ih
    have he : (i + 1) / 2 = i / 2 := by omega
    simp only [map_cons, position_pair, mem_cons, ih, exists_eq_or_imp, he]
    rw [← or_assoc, or_self]
    exact or_congr_left eq_comm

theorem parents_pairwise {nodes : List (Nat × α)} (hs : Sorted nodes) : (parents nodes).Pairwise (· < ·) := by
  have hmem : ∀ {rest : List (Nat × α)} {i : Nat}, Sorted rest → (∀ x ∈ rest, i < x.1 / 2) →
      ∀ p ∈ parents rest, i < p := by
    intro rest i hr hi p hp
    obtain ⟨x, hx, rfl⟩ := (mem_parents hr p).mp hp
    exact hi x hx
  refine steps_induction (motive := fun _ ss => (ss.map (·.position / 2)).Pairwise (· < ·)) ?_ ?_ ?_ nodes hs
  · simp
  · intro i a rest hlt hr ih
    rw [map_cons, position_lone]
    exact pairwise_cons.mpr ⟨hmem hr hlt, ih⟩
  · exact fun i a b rest _ hlt hr ih => pairwise_cons.mpr ⟨hmem hr hlt, ih⟩

/-- A supplied node shares its parent with a known one. -/
theorem exists_of_mem_needs {nodes : List (Nat × α)} (hs : Sorted nodes) {last s : Nat}
    (h : s ∈ needs last nodes) : ∃ x ∈ nodes, x.1 / 2 = s / 2 := by
  revert h
  refine steps_induction (motive := fun nodes ss => s ∈ ss.filterMap (Step.needs last) →
    ∃ x ∈ nodes, x.1 / 2 = s / 2) ?_ ?_ ?_ nodes hs
  · simp
  · intro i a rest _ _ ih h
    rw [filterMap_needs_lone, mem_append, Option.mem_toList, query_eq_some] at h
    rcases h with ⟨rfl, -⟩ | h
    · exact ⟨(i, a), mem_cons_self, (sibling_div i).symm⟩
    · obtain ⟨x, hx, he⟩ := ih h
      exact ⟨x, mem_cons_of_mem _ hx, he⟩
  · intro i a b rest _ _ _ ih h
    obtain ⟨x, hx, he⟩ := ih h
    exact ⟨x, mem_cons_of_mem _ (mem_cons_of_mem _ hx), he⟩

theorem needs_pairwise {nodes : List (Nat × α)} (hs : Sorted nodes) (last : Nat) :
    (needs last nodes).Pairwise (· < ·) := by
  refine steps_induction (motive := fun _ ss => (ss.filterMap (Step.needs last)).Pairwise (· < ·)) ?_ ?_ ?_ nodes hs
  · simp
  · intro i a rest hlt hr ih
    rw [filterMap_needs_lone]
    refine pairwise_append.mpr ⟨by cases query last i <;> simp, ih, fun t ht s hmem => ?_⟩
    rw [Option.mem_toList, query_eq_some] at ht
    obtain ⟨x, hx, he⟩ := exists_of_mem_needs hr hmem
    have := hlt x hx
    have := sibling_div i
    omega
  · exact fun i a b rest _ _ _ ih => ih

/-- The supplied positions: siblings of known nodes that are not known
themselves and do not lie past the end of the level. -/
theorem mem_needs {nodes : List (Nat × α)} (hs : Sorted nodes) {last : Nat}
    (hlast : ∀ x ∈ nodes, x.1 ≤ last) (s : Nat) : s ∈ needs last nodes ↔
      s ≤ last ∧ (∀ x ∈ nodes, x.1 ≠ s) ∧ ∃ x ∈ nodes, x.1 = sibling s := by
  revert hlast
  refine steps_induction (motive := fun nodes ss => (∀ x ∈ nodes, x.1 ≤ last) → (s ∈ ss.filterMap (Step.needs last) ↔
      s ≤ last ∧ (∀ x ∈ nodes, x.1 ≠ s) ∧ ∃ x ∈ nodes, x.1 = sibling s)) ?_ ?_ ?_ nodes hs
  · simp
  · intro i a rest hlt _ ih hlast
    have hil : i ≤ last := hlast (i, a) (by simp)
    have ih := ih fun x hx => hlast x (mem_cons_of_mem _ hx)
    rw [filterMap_needs_lone, mem_append, Option.mem_toList, query_eq_some, ih]
    simp only [mem_cons, forall_eq_or_imp, exists_eq_or_imp]
    have hown : i = sibling s ↔ sibling i = s := by
      simp only [sibling]
      split <;> split <;> omega
    have hdiv := sibling_div s
    constructor
    · rintro (⟨rfl, hend⟩ | ⟨h₁, h₂, x, hx, he⟩)
      · have hdiv := sibling_div i
        refine ⟨?_, ⟨?_, fun x hx => ?_⟩, .inl (hown.mpr rfl)⟩
        · rw [sibling]
          split <;> omega
        · rw [sibling]
          split <;> omega
        · have := hlt x hx
          omega
      · have := hlt x hx
        exact ⟨h₁, ⟨by omega, h₂⟩, .inr ⟨x, hx, he⟩⟩
    · rintro ⟨h₁, ⟨h₂, h₃⟩, h₄ | h₄⟩
      · refine .inl ⟨hown.mp h₄, ?_⟩
        rw [sibling] at h₄
        split at h₄ <;> omega
      · exact .inr ⟨h₁, h₃, h₄⟩
  · intro i a b rest hi hlt _ ih hlast
    have ih := ih fun x hx => hlast x (mem_cons_of_mem _ (mem_cons_of_mem _ hx))
    rw [filterMap_needs_pair, ih]
    simp only [mem_cons, forall_eq_or_imp, exists_eq_or_imp]
    constructor
    · rintro ⟨h₁, h₂, x, hx, he⟩
      have := hlt x hx
      have := sibling_div s
      exact ⟨h₁, ⟨by omega, by omega, h₂⟩, .inr (.inr ⟨x, hx, he⟩)⟩
    · rintro ⟨h₁, ⟨h₂, h₃, h₄⟩, h₅ | h₅ | h₅⟩
      · rw [sibling] at h₅
        split at h₅ <;> omega
      · rw [sibling] at h₅
        split at h₅ <;> omega
      · exact ⟨h₁, h₄, h₅⟩

def siblings (last : Nat) (nodes : List (Nat × α)) : List Nat :=
  (steps nodes).flatMap (Step.siblings last)

theorem siblings_map (last : Nat) (f : α → β) (nodes : List (Nat × α)) :
    siblings last (nodes.map fun x => (x.1, f x.2)) = siblings last nodes := by
  rw [siblings, steps_map, flatMap_map]
  refine flatMap_congr fun s _ => ?_
  cases s <;> rfl

/-- The siblings met by the walk are those its nodes ask for, in order. -/
theorem siblings_eq_filterMap {nodes : List (Nat × α)} (hs : Sorted nodes) {last : Nat}
    (hlast : ∀ x ∈ nodes, x.1 ≤ last) : siblings last nodes = (nodes.map Prod.fst).filterMap (query last) := by
  revert hlast
  refine steps_induction (motive := fun nodes ss => (∀ x ∈ nodes, x.1 ≤ last) →
    ss.flatMap (Step.siblings last) = (nodes.map Prod.fst).filterMap (query last)) ?_ ?_ ?_ nodes hs
  · simp
  · intro i a rest _ _ ih hlast
    rw [map_cons, filterMap_cons, flatMap_cons, siblings_lone, ih fun x hx => hlast x (mem_cons_of_mem _ hx)]
    cases query last i <;> rfl
  · intro i a b rest hi _ _ ih hlast
    have hle : i + 1 ≤ last := hlast (i + 1, b) (by simp)
    have hq : query last i = some (i + 1) := by
      rw [query, if_neg (by omega), sibling, if_pos hi]
    have hq' : query last (i + 1) = some i := by
      rw [query, if_neg (by omega), sibling, if_neg (by omega), Nat.add_sub_cancel]
    rw [map_cons, map_cons, filterMap_cons_some hq, filterMap_cons_some hq', flatMap_cons,
      ih fun x hx => hlast x (mem_cons_of_mem _ (mem_cons_of_mem _ hx))]
    rfl

theorem query_injective (last : Nat) {i j s : Nat} (hi : query last i = some s) (hj : query last j = some s) :
    i = j := by
  rw [query_eq_some] at hi hj
  simp only [sibling] at hi hj
  split at hi <;> split at hj <;> omega

/-! ### Several levels -/

/-- The positions of a level without payload. -/
def bare (I : List Nat) : List (Nat × Unit) := I.map fun i => (i, ())

theorem sorted_bare {I : List Nat} : Sorted (bare I) ↔ I.Pairwise (· < ·) := by
  rw [bare, Sorted, pairwise_map]

theorem bare_map_fst (nodes : List (Nat × α)) : bare (nodes.map Prod.fst) = nodes.map fun x => (x.1, ()) := by
  rw [bare, map_map]
  rfl

theorem needs_bare (last : Nat) (nodes : List (Nat × α)) :
    needs last (bare (nodes.map Prod.fst)) = needs last nodes := by
  rw [bare_map_fst, needs_map last (fun _ => ())]

theorem parents_bare (nodes : List (Nat × α)) : parents (bare (nodes.map Prod.fst)) = parents nodes := by
  rw [bare_map_fst, parents_map fun _ => ()]

theorem siblings_bare (last : Nat) (nodes : List (Nat × α)) :
    siblings last (bare (nodes.map Prod.fst)) = siblings last nodes := by
  rw [bare_map_fst, siblings_map last fun _ => ()]

/-! ### Repeated visits -/

/-- The second list visits the elements of the first one in order, each at least once. -/
inductive Stutter : List α → List α → Prop where
  | nil : Stutter [] []
  | fresh (x : α) {xs ys : List α} : Stutter xs ys → Stutter (x :: xs) (x :: ys)
  | again (x : α) {xs ys : List α} : Stutter (x :: xs) ys → Stutter (x :: xs) (x :: ys)

namespace Stutter

theorem refl (xs : List α) : Stutter xs xs := by
  induction xs with
  | nil => exact .nil
  | cons x xs ih => exact .fresh x ih

theorem map (f : α → β) {xs ys : List α} (h : Stutter xs ys) : Stutter (xs.map f) (ys.map f) := by
  induction h with
  | nil => exact .nil
  | fresh x _ ih => exact .fresh (f x) ih
  | again x _ ih => exact .again (f x) ih

theorem filterMap (f : α → Option β) {xs ys : List α} (h : Stutter xs ys) :
    Stutter (xs.filterMap f) (ys.filterMap f) := by
  induction h with
  | nil => exact .nil
  | fresh x _ ih =>
    rw [filterMap_cons, filterMap_cons]
    cases f x with
    | none => exact ih
    | some y => exact .fresh y ih
  | again x _ ih =>
    rw [filterMap_cons] at ih ⊢
    rw [filterMap_cons]
    cases hx : f x with
    | none => simpa only [hx] using ih
    | some y =>
      simp only [hx] at ih
      exact .again y ih

theorem trans {xs ys zs : List α} (h : Stutter xs ys) (h' : Stutter ys zs) : Stutter xs zs := by
  induction h' generalizing xs with
  | nil => exact h
  | fresh x _ ih =>
    cases h with
    | fresh _ h => exact .fresh x (ih h)
    | again _ h => exact .again x (ih h)
  | again x _ ih =>
    have hrest := ih h
    cases h with
    | fresh _ _ => exact .again x hrest
    | again _ _ => exact .again x hrest

end Stutter

theorem stutter_parents {nodes : List (Nat × α)} (hs : Sorted nodes) :
    Stutter (parents nodes) (nodes.map fun x => x.1 / 2) := by
  refine steps_induction (motive := fun nodes ss => Stutter (ss.map (·.position / 2)) (nodes.map fun x => x.1 / 2))
    .nil ?_ ?_ nodes hs
  · intro i a rest _ _ ih
    rw [map_cons, position_lone]
    exact .fresh (i / 2) ih
  · intro i a b rest hi _ _ ih
    have hi' : (i + 1) / 2 = i / 2 := by omega
    change Stutter (i / 2 :: _) (i / 2 :: (i + 1) / 2 :: _)
    rw [hi']
    exact .again (i / 2) (.fresh (i / 2) ih)

/-- The positions `count` levels up. -/
def ancestors : Nat → List Nat → List Nat
  | 0, I => I
  | count + 1, I => ancestors count (parents (bare I))

/-- The siblings to be supplied on `count` levels, with their levels. -/
def locations : Nat → Nat → Nat → List Nat → List (Nat × Nat)
  | 0, _, _, _ => []
  | count + 1, depth, last, I =>
    (needs last (bare I)).map (fun s => (depth, s)) ++ locations count (depth + 1) (last / 2) (parents (bare I))

/-- All siblings met on `count` levels, with their levels. -/
def siblingLocations : Nat → Nat → Nat → List Nat → List (Nat × Nat)
  | 0, _, _, _ => []
  | count + 1, depth, last, I => (siblings last (bare I)).map (fun s => (depth, s)) ++
      siblingLocations count (depth + 1) (last / 2) (parents (bare I))

variable {I : List Nat}

section
variable (hI : I.Pairwise (· < ·))
include hI

theorem mem_parents_bare (p : Nat) : p ∈ parents (bare I) ↔ ∃ i ∈ I, i / 2 = p := by
  rw [mem_parents (sorted_bare.mpr hI)]
  simp [bare]

theorem parents_bare_pairwise : (parents (bare I)).Pairwise (· < ·) :=
  parents_pairwise (sorted_bare.mpr hI)

theorem parents_bare_le {last : Nat} (hlast : ∀ i ∈ I, i ≤ last) :
    ∀ p ∈ parents (bare I), p ≤ last / 2 := by
  intro p hp
  obtain ⟨i, hi, rfl⟩ := (mem_parents_bare hI p).mp hp
  exact Nat.div_le_div_right (hlast i hi)

theorem stutter_parents_bare : Stutter (parents (bare I)) (I.map (· / 2)) := by
  have h := stutter_parents (sorted_bare.mpr hI)
  rwa [bare, map_map] at h

theorem siblings_bare_eq {last : Nat} (hlast : ∀ i ∈ I, i ≤ last) :
    siblings last (bare I) = I.filterMap (query last) := by
  rw [siblings_eq_filterMap (sorted_bare.mpr hI) (by simpa [bare] using hlast), bare, map_map]
  simp [Function.comp_def]

theorem ancestors_pairwise (count : Nat) : (ancestors count I).Pairwise (· < ·) := by
  induction count generalizing I with
  | zero => exact hI
  | succ count ih => exact ih (parents_bare_pairwise hI)

theorem mem_ancestors (count p : Nat) : p ∈ ancestors count I ↔ ∃ i ∈ I, i / 2 ^ count = p := by
  induction count generalizing I with
  | zero => simp [ancestors]
  | succ count ih =>
    rw [ancestors, ih (parents_bare_pairwise hI)]
    simp only [mem_parents_bare hI, Nat.pow_succ', ← Nat.div_div_eq_div_mul]
    constructor
    · rintro ⟨q, ⟨i, hi, rfl⟩, rfl⟩
      exact ⟨i, hi, rfl⟩
    · rintro ⟨i, hi, rfl⟩
      exact ⟨i / 2, ⟨i, hi, rfl⟩, rfl⟩

/-- The supplied locations: not above a known position themselves, but their
siblings are, and not past the end of their level. -/
theorem mem_locations {last : Nat} (hlast : ∀ i ∈ I, i ≤ last) (count depth d s : Nat) :
    (d, s) ∈ locations count depth last I ↔ ∃ j, j < count ∧ d = depth + j ∧ s ≤ last / 2 ^ j ∧
      (∀ i ∈ I, i / 2 ^ j ≠ s) ∧ ∃ i ∈ I, i / 2 ^ j = sibling s := by
  induction count generalizing I depth last with
  | zero => simp [locations]
  | succ count ih =>
    have hbare : ∀ x ∈ bare I, x.1 ≤ last := by simpa [bare] using hlast
    rw [locations, mem_append, ih (parents_bare_pairwise hI) (parents_bare_le hI hlast)]
    simp only [mem_map, Prod.mk.injEq, mem_needs (sorted_bare.mpr hI) hbare, mem_parents_bare hI,
      Nat.div_div_eq_div_mul, ← Nat.pow_succ']
    constructor
    · rintro (⟨s', ⟨h₁, h₂, x, hx, h₃⟩, rfl, rfl⟩ | ⟨j, hj, rfl, h₁, h₂, p, ⟨i, hi, rfl⟩, h₃⟩)
      · refine ⟨0, by omega, rfl, by simpa using h₁, fun i hi => ?_, x.1, ?_, by simpa using h₃⟩
        · simpa using h₂ (i, ()) (mem_map_of_mem hi)
        · obtain ⟨i, hi, rfl⟩ := mem_map.mp hx
          exact hi
      · refine ⟨j + 1, by omega, by omega, h₁, fun i hi => ?_, i, hi, ?_⟩
        · have := h₂ (i / 2) ⟨i, hi, rfl⟩
          rwa [Nat.div_div_eq_div_mul, ← Nat.pow_succ'] at this
        · rwa [Nat.div_div_eq_div_mul, ← Nat.pow_succ'] at h₃
    · rintro ⟨j, hj, rfl, h₁, h₂, i, hi, h₃⟩
      cases j with
      | zero =>
        refine .inl ⟨s, ⟨by simpa using h₁, fun x hx => ?_, (i, ()), mem_map_of_mem hi, by simpa using h₃⟩, rfl, rfl⟩
        obtain ⟨i', hi', rfl⟩ := mem_map.mp hx
        simpa using h₂ i' hi'
      | succ j =>
        refine .inr ⟨j, by omega, by omega, h₁, fun p hp => ?_, i / 2, ⟨i, hi, rfl⟩, ?_⟩
        · obtain ⟨i', hi', rfl⟩ := hp
          rw [Nat.div_div_eq_div_mul, ← Nat.pow_succ']
          exact h₂ i' hi'
        · rwa [Nat.div_div_eq_div_mul, ← Nat.pow_succ']

end

/-- Locations by level, then from left to right. -/
abbrev Before (a b : Nat × Nat) : Prop := a.1 < b.1 ∨ a.1 = b.1 ∧ a.2 < b.2

theorem le_of_mem_locations {count depth last : Nat} {x : Nat × Nat} (hx : x ∈ locations count depth last I) :
    depth ≤ x.1 := by
  induction count generalizing I depth last with
  | zero => simp [locations] at hx
  | succ count ih =>
    rw [locations, mem_append] at hx
    rcases hx with hx | hx
    · obtain ⟨s, -, rfl⟩ := mem_map.mp hx
      exact le_rfl
    · exact (Nat.le_succ depth).trans (ih hx)

theorem le_of_mem_siblingLocations {count depth last : Nat} {x : Nat × Nat}
    (hx : x ∈ siblingLocations count depth last I) : depth ≤ x.1 := by
  induction count generalizing I depth last with
  | zero => simp [siblingLocations] at hx
  | succ count ih =>
    rcases mem_append.mp hx with hx | hx
    · obtain ⟨s, -, rfl⟩ := mem_map.mp hx
      exact le_rfl
    · exact (Nat.le_succ depth).trans (ih hx)

theorem siblingLocations_nodup (hI : I.Pairwise (· < ·)) (count depth : Nat) {last : Nat} (hlast : ∀ i ∈ I, i ≤ last) :
    (siblingLocations count depth last I).Nodup := by
  induction count generalizing I depth last with
  | zero => exact nodup_nil
  | succ count ih =>
    rw [siblingLocations, siblings_bare_eq hI hlast]
    refine nodup_append.mpr ⟨?_, ih (parents_bare_pairwise hI) _ (parents_bare_le hI hlast), ?_⟩
    · have hnodup : (I.filterMap (query last)).Nodup :=
        List.Nodup.filterMap (fun i j s hi hj => query_injective last hi hj) (hI.imp fun h => h.ne)
      exact hnodup.map fun a b h => (Prod.mk.inj h).2
    · intro x hx y hy he
      obtain ⟨s, -, rfl⟩ := mem_map.mp hx
      have := le_of_mem_siblingLocations hy
      rw [← he] at this
      exact absurd this (by simp)

theorem siblingLocations_nil (count depth last : Nat) : siblingLocations count depth last [] = [] := by
  induction count generalizing depth last with
  | zero => rfl
  | succ count ih => exact ih (depth + 1) (last / 2)

theorem locations_nil (count depth last : Nat) : locations count depth last [] = [] := by
  induction count generalizing depth last with
  | zero => rfl
  | succ count ih => exact ih (depth + 1) (last / 2)

theorem locations_pairwise (hI : I.Pairwise (· < ·)) (count depth last : Nat) :
    (locations count depth last I).Pairwise Before := by
  induction count generalizing I depth last with
  | zero => exact .nil
  | succ count ih =>
    rw [locations, pairwise_append]
    refine ⟨?_, ih (parents_bare_pairwise hI) _ _, fun a ha b hb => .inl ?_⟩
    · rw [pairwise_map]
      exact (needs_pairwise (sorted_bare.mpr hI) last).imp fun h => .inr ⟨rfl, h⟩
    · obtain ⟨s, -, rfl⟩ := mem_map.mp ha
      exact le_of_mem_locations hb

theorem locations_eq_iff {I' : List Nat} (hI : I.Pairwise (· < ·)) (hI' : I'.Pairwise (· < ·))
    (count depth last last' : Nat) : locations count depth last I = locations count depth last' I' ↔
      ∀ x, x ∈ locations count depth last I ↔ x ∈ locations count depth last' I' := by
  refine ⟨fun h x => by rw [h], fun h => ?_⟩
  have : Std.Irrefl Before := ⟨fun a h => by simp [Before] at h⟩
  have : Std.Antisymm Before := ⟨fun a b h₁ h₂ => absurd h₂ (by simp only [Before] at *; omega)⟩
  exact (locations_pairwise hI _ _ _).eq_of_mem_iff (locations_pairwise hI' _ _ _) fun x => h x

/-! ### Growing rows -/

/-- The subtrees that the end of a row of length `n` cuts are above known positions. -/
def EdgeKnown (n : Nat) (I : List Nat) : Prop := ∀ d, ¬ 2 ^ d ∣ n → ∃ i ∈ I, i / 2 ^ d = (n - 1) / 2 ^ d

theorem edgeKnown_of_mem {n : Nat} {I : List Nat} (h : n - 1 ∈ I) : EdgeKnown n I := fun _ _ => ⟨n - 1, h, rfl⟩

/-- The known positions after the row grew from length `n` to `n'`. -/
def withNew (I : List Nat) (n n' : Nat) : List Nat := I ++ List.range' n (n' - n)

section Grown

variable {n n' count : Nat}

theorem mem_withNew (i : Nat) : i ∈ withNew I n n' ↔ i ∈ I ∨ n ≤ i ∧ i < n' := by
  simp only [withNew, mem_append, mem_range'_1]
  exact or_congr_right (by omega)

theorem le_of_mem_withNew (hlt : ∀ i ∈ I, i < n) (hn : n < n') : ∀ i ∈ withNew I n n', i ≤ n' - 1 := by
  intro i hi
  rcases (mem_withNew i).mp hi with hi | hi
  · have := hlt i hi
    omega
  · omega

theorem pow_dvd_iff (hn : 0 < n) (d : Nat) : 2 ^ d ∣ n ↔ n / 2 ^ d ≠ (n - 1) / 2 ^ d := by
  obtain ⟨m, rfl⟩ := Nat.exists_eq_succ_of_ne_zero hn.ne'
  rw [Nat.succ_div]
  split <;> simp_all

variable (hI : I.Pairwise (· < ·)) (hlt : ∀ i ∈ I, i < n)
include hI hlt

theorem withNew_pairwise : (withNew I n n').Pairwise (· < ·) := by
  refine pairwise_append.mpr ⟨hI, pairwise_lt_range', fun i hi j hj => ?_⟩
  exact (hlt i hi).trans_le (mem_range'_1.mp hj).1

theorem mem_locations_zero (d s : Nat) :
    (d, s) ∈ locations count 0 (n - 1) I ↔ d < count ∧ s ≤ (n - 1) / 2 ^ d ∧
      (∀ i ∈ I, i / 2 ^ d ≠ s) ∧ ∃ i ∈ I, i / 2 ^ d = sibling s := by
  rw [mem_locations hI fun i hi => by have := hlt i hi; omega]
  simp

variable (hn : n < n')
include hn

theorem mem_locations_withNew (d s : Nat) :
    (d, s) ∈ locations count 0 (n' - 1) (withNew I n n') ↔ d < count ∧ s ≤ (n' - 1) / 2 ^ d ∧
      (∀ i ∈ withNew I n n', i / 2 ^ d ≠ s) ∧ ∃ i ∈ withNew I n n', i / 2 ^ d = sibling s := by
  rw [mem_locations (withNew_pairwise hI hlt) (le_of_mem_withNew hlt hn)]
  simp

/-- A supplied location of the grown row starts at an old position. -/
theorem lt_of_mem_locations_withNew {d s : Nat}
    (h : (d, s) ∈ locations count 0 (n' - 1) (withNew I n n')) : s * 2 ^ d < n := by
  obtain ⟨-, hle, hnot, -⟩ := (mem_locations_withNew hI hlt hn d s).mp h
  by_contra hc
  have hmul : s * 2 ^ d ≤ n' - 1 := (Nat.le_div_iff_mul_le (Nat.two_pow_pos d)).mp hle
  exact hnot (s * 2 ^ d) ((mem_withNew _).mpr (.inr (by omega))) (Nat.mul_div_cancel s (Nat.two_pow_pos d))

theorem mem_locations_withNew_iff (hedge : EdgeKnown n I) (x : Nat × Nat) :
    x ∈ locations count 0 (n - 1) I ↔ x ∈ locations count 0 (n' - 1) (withNew I n n') := by
  obtain ⟨d, s⟩ := x
  constructor
  · intro h
    obtain ⟨hd, hs, hnot, i, hi, hsib⟩ := (mem_locations_zero hI hlt d s).mp h
    have hpos : 0 < n := (Nat.zero_le i).trans_lt (hlt i hi)
    refine (mem_locations_withNew hI hlt hn d s).mpr ⟨hd, hs.trans (Nat.div_le_div_right (by omega)),
      fun j hj => ?_, i, (mem_withNew i).mpr (.inl hi), hsib⟩
    rcases (mem_withNew j).mp hj with hj | ⟨hj, -⟩
    · exact hnot j hj
    · -- A new position below an old location makes it a cut one.
      rintro rfl
      have h₁ : n / 2 ^ d ≤ j / 2 ^ d := Nat.div_le_div_right hj
      have h₂ : (n - 1) / 2 ^ d ≤ n / 2 ^ d := Nat.div_le_div_right (by omega)
      have hcut : ¬ 2 ^ d ∣ n := fun hdvd => (pow_dvd_iff hpos d).mp hdvd (by omega)
      obtain ⟨k, hk, hkd⟩ := hedge d hcut
      exact hnot k hk (by omega)
  · intro h
    have hstart := lt_of_mem_locations_withNew hI hlt hn h
    obtain ⟨hd, -, hnot, j, hj, hsib⟩ := (mem_locations_withNew hI hlt hn d s).mp h
    have hpos : 0 < n := (Nat.zero_le _).trans_lt hstart
    have hs : s ≤ (n - 1) / 2 ^ d := (Nat.le_div_iff_mul_le (Nat.two_pow_pos d)).mpr (by omega)
    refine (mem_locations_zero hI hlt d s).mpr ⟨hd, hs, fun i hi => hnot i ((mem_withNew i).mpr (.inl hi)), ?_⟩
    rcases (mem_withNew j).mp hj with hj | ⟨hj, -⟩
    · exact ⟨j, hj, hsib⟩
    · -- The sibling holds new positions, so it lies to the right and ends the row.
      have hnd := hnot n ((mem_withNew n).mpr (.inr ⟨le_rfl, hn⟩))
      have h₁ : n / 2 ^ d ≤ j / 2 ^ d := Nat.div_le_div_right hj
      have h₂ : (n - 1) / 2 ^ d ≤ n / 2 ^ d := Nat.div_le_div_right (by omega)
      have heven : s % 2 = 0 ∧ sibling s = s + 1 := by
        rw [sibling] at hsib ⊢
        split at hsib <;> [simp_all; omega]
      by_cases hdvd : 2 ^ d ∣ n
      · have hne := (pow_dvd_iff hpos d).mp hdvd
        have hquot : n / 2 ^ d = s + 1 := by omega
        have hcut : ¬ 2 ^ (d + 1) ∣ n := by
          rintro ⟨m, hm⟩
          rw [hm, Nat.pow_succ, Nat.mul_assoc, Nat.mul_div_cancel_left _ (Nat.two_pow_pos d)] at hquot
          omega
        obtain ⟨k, hk, hkd⟩ := hedge (d + 1) hcut
        have hks := hnot k ((mem_withNew k).mpr (.inl hk))
        rw [Nat.pow_succ, ← Nat.div_div_eq_div_mul, ← Nat.div_div_eq_div_mul] at hkd
        exact ⟨k, hk, by omega⟩
      · obtain ⟨k, hk, hkd⟩ := hedge d hdvd
        have : n / 2 ^ d = (n - 1) / 2 ^ d := not_not.mp fun h => hdvd ((pow_dvd_iff hpos d).mpr h)
        exact ⟨k, hk, by omega⟩

/-- Otherwise the highest cut subtree without a known position is supplied only
before the row grew. -/
theorem edgeKnown_of_locations_eq (hcap : n ≤ 2 ^ count) (hne : I ≠ [])
    (h : locations count 0 (n - 1) I = locations count 0 (n' - 1) (withNew I n n')) : EdgeKnown n I := by
  by_contra hedge
  simp only [EdgeKnown, not_forall, not_exists, not_and] at hedge
  obtain ⟨d, hdvd, hd⟩ := hedge
  obtain ⟨i₀, hi₀⟩ := exists_mem_of_ne_nil I hne
  have hpos : 0 < n := (Nat.zero_le _).trans_lt (hlt i₀ hi₀)
  have htop : ∀ e, count ≤ e → i₀ / 2 ^ e = (n - 1) / 2 ^ e := fun e he => by
    have hle : n ≤ 2 ^ e := hcap.trans (Nat.pow_le_pow_right (by omega) he)
    have := hlt i₀ hi₀
    rw [Nat.div_eq_of_lt (by omega), Nat.div_eq_of_lt (by omega)]
  obtain ⟨e, hde, he, hmax⟩ : ∃ e, d ≤ e ∧ (∀ i ∈ I, i / 2 ^ e ≠ (n - 1) / 2 ^ e) ∧
      ∃ i ∈ I, i / 2 ^ (e + 1) = (n - 1) / 2 ^ (e + 1) := by
    by_contra hc
    simp only [not_exists, not_and] at hc
    have hall : ∀ k, ∀ i ∈ I, i / 2 ^ (d + k) ≠ (n - 1) / 2 ^ (d + k) := by
      intro k
      induction k with
      | zero => exact hd
      | succ k ih => exact hc (d + k) (by omega) ih
    exact hall count i₀ hi₀ (htop _ (by omega))
  have hecount : e < count := by
    by_contra hc
    exact he i₀ hi₀ (htop e (by omega))
  have hmem : (e, (n - 1) / 2 ^ e) ∈ locations count 0 (n - 1) I := by
    refine (mem_locations_zero hI hlt _ _).mpr ⟨hecount, le_rfl, he, ?_⟩
    obtain ⟨i, hi, hie⟩ := hmax
    refine ⟨i, hi, ?_⟩
    have hie' := he i hi
    rw [Nat.pow_succ, ← Nat.div_div_eq_div_mul, ← Nat.div_div_eq_div_mul] at hie
    generalize i / 2 ^ e = a, (n - 1) / 2 ^ e = b at hie hie' ⊢
    rw [sibling]
    split <;> omega
  rw [h, mem_locations_withNew hI hlt hn] at hmem
  -- It is cut by the end of the row as well, so it holds the first new position.
  have hcut : ¬ 2 ^ e ∣ n := fun hdvd' => hdvd ((Nat.pow_dvd_pow 2 hde).trans hdvd')
  refine hmem.2.2.1 n ((mem_withNew n).mpr (.inr ⟨le_rfl, hn⟩)) ?_
  exact not_not.mp fun hc => hcut ((pow_dvd_iff hpos e).mpr hc)

theorem locations_withNew_eq_iff (hcap : n ≤ 2 ^ count) (hne : I ≠ []) :
    locations count 0 (n - 1) I = locations count 0 (n' - 1) (withNew I n n') ↔ EdgeKnown n I :=
  ⟨edgeKnown_of_locations_eq hI hlt hn hcap hne, fun hedge =>
    (locations_eq_iff hI (withNew_pairwise hI hlt) _ _ _ _).mpr (mem_locations_withNew_iff hI hlt hn hedge)⟩

end Grown

end LevelWalk
