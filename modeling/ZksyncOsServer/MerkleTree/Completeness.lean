import ZksyncOsServer.MerkleTree.History
import ZksyncOsServer.MerkleTree.Soundness

/-!
# Completeness of batch proofs

`collect_hashes` walks over the loaded leaves like the verifier does and takes
the hashes it skips from the amortized nodes: they are the hashes of the plain
binary tree at the locations the verifier asks for. Since the last leaf is
loaded whenever leaves are added, both folds of the verifier succeed.
-/
namespace MerkleTree

open BinaryMerkle Contents Fallible LevelWalk List SortedMap WorkingPatchSet TreeEntry

variable {H : Type} {P : TreeParams} {hasher : HashTree H} {leaves : List Leaf}

/-! ### Hashes inside nodes -/

theorem subtreeHash_inside (leaves : List Leaf) (base idx : Nat) {c k : Nat} (hc : c ≤ k) (j : Nat) :
    node hasher.hashBranch (fun i => subtreeHash hasher leaves base (idx * 2 ^ k + i)) c j =
      subtreeHash hasher leaves (base + c) (idx * 2 ^ (k - c) + j) := by
  have hpow : 2 ^ k = 2 ^ (k - c) * 2 ^ c := by rw [← Nat.pow_add, Nat.sub_add_cancel hc]
  rw [node_shift, subtreeHash_add]
  congr 1
  funext t
  congr 1
  rw [hpow]
  ring

/-- A level of nodes serves the hashes of all existing subtrees inside its nodes. -/
theorem internalHashes_get {level : Level H} {h : Nat} (hh : h ≤ maxNibblesForInternalNode P)
    (hnode : ∀ (idx : Nat) (node : InternalNode H), level[idx]? = some node →
      ChildrenOf P hasher leaves h idx node ∧ node.children ≠ []) :
    ∃ ih, InternalHashes.new P hasher level (h * P.internalNodeDepth) = .ok ih ∧
      ∀ j s, j < P.internalNodeDepth → h * P.internalNodeDepth + j < P.treeDepth →
        (∃ node, level[s / 2 ^ (P.internalNodeDepth - j)]? = some node) →
        s * 2 ^ (h * P.internalNodeDepth + j) < leaves.length →
          ih.get j s = .ok (subtreeHash hasher leaves (h * P.internalNodeDepth + j) s) := by
  obtain ⟨ih, hnew, hget⟩ := InternalHashes.exists_new hasher
    (Nat.mul_le_mul_right P.internalNodeDepth hh) fun idx node hidx =>
      ⟨(hnode idx node hidx).2, (hnode idx node hidx).1.length_le⟩
  refine ⟨ih, hnew, fun j s hj hdepth ⟨node, hidx⟩ hs => ?_⟩
  obtain ⟨hc, -⟩ := hnode _ node hidx
  have hpos := Nat.div_add_mod' s (2 ^ (P.internalNodeDepth - j))
  have hmod : s % 2 ^ (P.internalNodeDepth - j) < 2 ^ (P.internalNodeDepth - j) := Nat.mod_lt _ (Nat.two_pow_pos _)
  rw [hget j s node hj hdepth hidx ?_, InternalNode.naiveHash, hc.node_row_hash ?_, maxNodeChildren,
    subtreeHash_inside leaves _ _ hj.le, hpos]
  · calc (s % 2 ^ (P.internalNodeDepth - j) + 1) * 2 ^ j ≤ 2 ^ (P.internalNodeDepth - j) * 2 ^ j :=
        Nat.mul_le_mul_right _ hmod
      _ = maxNodeChildren P := by rw [← Nat.pow_add, Nat.sub_add_cancel hj.le]; rfl
  · rintro rfl
    rw [Nat.sub_zero] at hpos hmod hc
    refine (hc.length _).mpr ⟨hmod, ?_⟩
    rwa [maxNodeChildren, hpos]

/-! ### Collected hashes -/

theorem collectSteps_ok {ih : InternalHashes H} {depthInNode lastIdx : Nat} {f : Nat → H} {J : List Nat}
    (hJ : ∀ i ∈ J, i ≤ lastIdx) (hget : ∀ s ∈ needs lastIdx (bare J), ih.get depthInNode s = .ok (f s)) :
    ∃ hashes, (steps (bare J)).mapM (collectStep ih depthInNode lastIdx) = .ok hashes ∧
      hashes.flatten = (needs lastIdx (bare J)).map f := by
  have hall : ∀ st ∈ steps (bare J), collectStep ih depthInNode lastIdx st =
      .ok ((st.needs lastIdx).toList.map f) := by
    intro st hst
    have hneed : ∀ s, st.needs lastIdx = some s → ih.get depthInNode s = .ok (f s) := fun s hs =>
      hget s (mem_filterMap.mpr ⟨st, hst, hs⟩)
    cases st with
    | odd i a =>
      rw [collectStep, hneed (i - 1) rfl]
      rfl
    | pair i a b => rfl
    | single i a =>
      have hi : i ≤ lastIdx := by
        have hmem : (i, a) ∈ (steps (bare J)).flatMap Step.nodes :=
          mem_flatMap.mpr ⟨_, hst, mem_singleton.mpr rfl⟩
        rw [flatMap_nodes_steps] at hmem
        obtain ⟨i', hi', he⟩ := mem_map.mp hmem
        cases he
        exact hJ i hi'
      rw [collectStep]
      by_cases hlast : i = lastIdx
      · rw [if_neg (by omega), Step.needs, if_pos hlast]
        rfl
      · rw [if_pos (by omega), Step.needs, if_neg hlast, hneed (i + 1) (by rw [Step.needs, if_neg hlast])]
        rfl
  refine ⟨_, mapM_eq_map hall, ?_⟩
  rw [← flatMap_def, needs, filterMap_eq_flatMap_toList, map_flatMap]

/-- The hashes of one level of nodes, as far as they lie above the leaves `I`. -/
def ServesInside (P : TreeParams) (hasher : HashTree H) (leaves : List Leaf) (I : List Nat) (h : Nat)
    (ih : InternalHashes H) : Prop :=
  ∀ j s, j < P.internalNodeDepth → h * P.internalNodeDepth + j < P.treeDepth →
    Anc P I (h + 1) (s / 2 ^ (P.internalNodeDepth - j)) → s * 2 ^ (h * P.internalNodeDepth + j) < leaves.length →
      ih.get j s = .ok (subtreeHash hasher leaves (h * P.internalNodeDepth + j) s)

section Collect

variable {I : List Nat} {levels : List (Level H)}

theorem anc_of_mem_needs {depth last s : Nat} {J : List Nat} (hJs : J.Pairwise (· < ·))
    (hJ : ∀ j ∈ J, ∃ i ∈ I, i / 2 ^ depth = j) (hs : s ∈ needs last (bare J)) :
    Anc P I (depth / P.internalNodeDepth + 1) (s / 2 ^ (P.internalNodeDepth - depth % P.internalNodeDepth)) := by
  obtain ⟨x, hx, hhalf⟩ := exists_of_mem_needs (sorted_bare.mpr hJs) hs
  obtain ⟨j, hj, rfl⟩ := mem_map.mp hx
  obtain ⟨i, hi, rfl⟩ := hJ j hj
  have hmod := Nat.mod_lt depth P.internalNodeDepth_pos
  have hsplit : P.internalNodeDepth - depth % P.internalNodeDepth =
      1 + (P.internalNodeDepth - depth % P.internalNodeDepth - 1) := by omega
  have htotal : (depth / P.internalNodeDepth + 1) * P.internalNodeDepth =
      depth + (P.internalNodeDepth - depth % P.internalNodeDepth) := by
    have := Nat.div_add_mod' depth P.internalNodeDepth
    rw [Nat.add_mul, Nat.one_mul]
    omega
  refine ⟨i, hi, ?_⟩
  rw [span, htotal, div_pow_add, hsplit, div_pow_add _ 1, div_pow_add s 1, Nat.pow_one]
  exact congrArg (· / 2 ^ (P.internalNodeDepth - depth % P.internalNodeDepth - 1)) hhalf

/-- The loop of `collect_hashes`, from a level on. The unused levels are those
above, and inside a level of nodes its hashes are at hand. -/
theorem collectLevels_ok (hlen : levels.length = leafNibbles P) (hserve : ∀ h level, levels[h]? = some level → ∃ ih,
      InternalHashes.new P hasher level (h * P.internalNodeDepth) = .ok ih ∧ ServesInside P hasher leaves I h ih)
    (hpos : 0 < leaves.length) {count depth : Nat} (hcount : depth + count = P.treeDepth) {J : List Nat}
    (hJs : J.Pairwise (· < ·)) (hJ : ∀ j ∈ J, ∃ i ∈ I, i / 2 ^ depth = j) (hI : ∀ i ∈ I, i < leaves.length)
    {current : Option (InternalHashes H)} (hcurrent : depth % P.internalNodeDepth ≠ 0 → ∃ ih, current = some ih ∧
      ServesInside P hasher leaves I (depth / P.internalNodeDepth) ih) :
    collectLevels P hasher count depth ((leaves.length - 1) / 2 ^ depth) J
        (levels.drop ((depth + P.internalNodeDepth - 1) / P.internalNodeDepth)) current =
      .ok ((locations count depth ((leaves.length - 1) / 2 ^ depth) J).map (hashAt hasher leaves)) := by
  have hk := P.internalNodeDepth_pos
  induction count generalizing depth J current with
  | zero => rfl
  | succ count ihcount =>
    have hmod := Nat.mod_lt depth hk
    have hdm := Nat.div_add_mod' depth P.internalNodeDepth
    -- The levels left over for the next iteration.
    have hnext : (depth + 1 + P.internalNodeDepth - 1) / P.internalNodeDepth = depth / P.internalNodeDepth + 1 := by
      rw [show depth + 1 + P.internalNodeDepth - 1 = depth + P.internalNodeDepth by omega, Nat.add_div_right _ hk]
    have hJlast : ∀ j ∈ J, j ≤ (leaves.length - 1) / 2 ^ depth := by
      intro j hj
      obtain ⟨i, hi, rfl⟩ := hJ j hj
      have := hI i hi
      exact Nat.div_le_div_right (by omega)
    -- An iteration once the hashes of the current level of nodes are at hand.
    have hiteration : ∀ ih, ServesInside P hasher leaves I (depth / P.internalNodeDepth) ih → (do
          let hashes ← (steps (bare J)).mapM
            (collectStep ih (depth % P.internalNodeDepth) ((leaves.length - 1) / 2 ^ depth))
          let rest ← collectLevels P hasher count (depth + 1) ((leaves.length - 1) / 2 ^ depth / 2)
            (parents (bare J)) (levels.drop (depth / P.internalNodeDepth + 1)) (some ih)
          pure (hashes.flatten ++ rest)) =
        .ok ((locations (count + 1) depth ((leaves.length - 1) / 2 ^ depth) J).map (hashAt hasher leaves)) := by
      intro ih hih
      have hget : ∀ s ∈ needs ((leaves.length - 1) / 2 ^ depth) (bare J),
          ih.get (depth % P.internalNodeDepth) s = .ok (subtreeHash hasher leaves depth s) := by
        intro s hs
        have hle := ((mem_needs (sorted_bare.mpr hJs) (by simpa [bare] using hJlast) s).mp hs).1
        have hlt : s * 2 ^ depth < leaves.length := by
          have := (Nat.le_div_iff_mul_le (Nat.two_pow_pos depth)).mp hle
          omega
        have := hih (depth % P.internalNodeDepth) s hmod (by omega) (anc_of_mem_needs hJs hJ hs) (by rwa [hdm])
        rwa [hdm] at this
      obtain ⟨hashes, hmap, hflat⟩ := collectSteps_ok hJlast hget
      have hrest := @ihcount (depth + 1) (by omega) (parents (bare J)) (parents_bare_pairwise hJs)
        (fun p hp => by
          obtain ⟨j, hj, rfl⟩ := (mem_parents_bare hJs p).mp hp
          obtain ⟨i, hi, rfl⟩ := hJ j hj
          exact ⟨i, hi, div_pow_succ i depth⟩)
        (some ih) (fun hne => ⟨ih, rfl, by
          rwa [Nat.succ_div_of_not_dvd fun hdvd => hne (Nat.mod_eq_zero_of_dvd hdvd)]⟩)
      rw [div_pow_succ, hnext] at hrest
      rw [hmap, ok_bind, hrest, ok_bind, hflat, locations, map_append, map_map]
      rfl
    rw [collectLevels]
    simp only
    by_cases h0 : depth % P.internalNodeDepth = 0
    · have hquot : (depth + P.internalNodeDepth - 1) / P.internalNodeDepth = depth / P.internalNodeDepth := by
        refine Nat.div_eq_of_lt_le ?_ ?_
        · omega
        · rw [Nat.add_mul]
          omega
      have hlt : depth / P.internalNodeDepth < levels.length := by
        rw [hlen, Nat.div_lt_iff_lt_mul hk]
        have := treeDepth_le_mul P
        omega
      have hget := getElem?_eq_getElem hlt
      obtain ⟨ih, hnew, hih⟩ := hserve _ _ hget
      rw [show depth / P.internalNodeDepth * P.internalNodeDepth = depth by omega] at hnew
      rw [if_pos h0, hquot, head?_drop, hget, expect, ok_bind, hnew, ok_bind, tail_drop]
      exact hiteration ih hih
    · have hquot : (depth + P.internalNodeDepth - 1) / P.internalNodeDepth = depth / P.internalNodeDepth + 1 := by
        refine Nat.div_eq_of_lt_le ?_ ?_
        · rw [Nat.add_mul]
          omega
        · rw [Nat.add_mul, Nat.add_mul]
          omega
      obtain ⟨ih, rfl, hih⟩ := hcurrent h0
      rw [if_neg h0, hquot]
      exact hiteration ih hih

theorem Loaded.servesInside {nodes : NodeKey → Option (Node H)} {bound : Nat} {w : WorkingPatchSet H}
    (hl : Loaded P hasher nodes bound leaves I w) (hI : ∀ i ∈ I, i < leaves.length) (hpos : 0 < leaves.length)
    {h : Nat} {level : Level H} (hlevel : w.internal.reverse[h]? = some level) : ∃ ih,
      InternalHashes.new P hasher level (h * P.internalNodeDepth) = .ok ih ∧ ServesInside P hasher leaves I h ih := by
  have hlt := (List.getElem?_eq_some_iff.mp hlevel).1
  rw [length_reverse] at hlt
  rw [getElem?_reverse hlt] at hlevel
  have his := hl.levels.getElem? (h := h) hlevel (by omega)
  have hh : h ≤ maxNibblesForInternalNode P := by
    rw [hl.length, leafNibbles_eq] at hlt
    omega
  obtain ⟨ih, hnew, hget⟩ := internalHashes_get hh fun idx node hnode => by
    have hc := (his.node idx node hnode).children
    refine ⟨hc, hc.ne_nil ?_⟩
    rcases (his.mem idx).mp ⟨node, hnode⟩ with ha | ⟨-, rfl⟩
    · exact ha.live hI
    · simpa using hpos
  exact ⟨ih, hnew, fun j s hj hdepth ha hs => hget j s hj hdepth ((his.mem _).mpr (.inl ha)) hs⟩

theorem LeavesAre.mem_keys {m : Map Nat Leaf} (hm : LeavesAre leaves I m) (hI : ∀ i ∈ I, i < leaves.length) (i : Nat) :
    i ∈ m.keys ↔ i ∈ I := by
  rw [SortedMap.mem_keys, hm i]
  by_cases hi : i ∈ I
  · simp [hi, hI i hi]
  · simp [hi]

theorem Loaded.createBatchProof {nodes : NodeKey → Option (Node H)} {bound : Nat} {w : WorkingPatchSet H}
    (hl : Loaded P hasher nodes bound leaves I w) (hI : ∀ i ∈ I, i < leaves.length)
    (operations readOperations : List TreeOperation) :
    createBatchProof P hasher w operations readOperations = .ok ⟨operations, readOperations, w.leaves,
      (locations P.treeDepth 0 (leaves.length - 1) w.leaves.keys).map (hashAt hasher leaves)⟩ := by
  have hmem := hl.leaves.mem_keys hI
  have hcollect : collectHashes P hasher w w.leaves.keys =
      .ok ((locations P.treeDepth 0 (leaves.length - 1) w.leaves.keys).map (hashAt hasher leaves)) := by
    rw [collectHashes]
    by_cases hempty : w.leaves.keys = []
    · rw [hempty, locations_nil]
      rfl
    · rw [if_neg (by simpa using hempty), hl.leafCount]
      obtain ⟨i, hi⟩ := exists_mem_of_ne_nil _ hempty
      have hpos : 0 < leaves.length := (Nat.zero_le i).trans_lt (hI i ((hmem i).mp hi))
      have hcollect := @collectLevels_ok _ P hasher leaves I w.internal.reverse (by rw [length_reverse, hl.length])
        (fun h level hlevel => hl.servesInside hI hpos hlevel) hpos P.treeDepth 0 (Nat.zero_add _) w.leaves.keys
        (keys_pairwise _) (fun j hj => ⟨j, (hmem j).mp hj, by simp⟩) hI none (by simp)
      have hzero : (0 + P.internalNodeDepth - 1) / P.internalNodeDepth = 0 :=
        Nat.div_eq_of_lt (by have := P.internalNodeDepth_pos; omega)
      rw [hzero, drop_zero, Nat.pow_zero, Nat.div_one] at hcollect
      exact hcollect
  rw [WorkingPatchSet.createBatchProof, hcollect, ok_bind]
  rfl

end Collect

/-! ### Acceptance -/

theorem KeyLookup.indices_ne_nil (l : KeyLookup) : l.indices ≠ [] := by
  cases l <;> simp [indices]

theorem zip_map_self {α β : Type} (f : α → β) (l : List α) : (l.map f).zip l = l.map fun a => (f a, a) := by
  induction l with
  | nil => rfl
  | cons a l ih => rw [map_cons, zip_cons_cons, ih, map_cons]

section Accept

variable {nodes : NodeKey → Option (Node H)} {c : Contents} {version : Nat} {es : List TreeEntry} {keys : List B256}
  {I J : List Nat} {w : WorkingPatchSet H} {u : TreeUpdate}

/-- The proof of a plan is accepted, with the root hash of the new contents and
the values of the old ones. -/
theorem Planned.verify [DecidableEq H] (hp : Planned P hasher nodes c version es keys I J w u)
    (hcap : c.entries.length ≤ 2 ^ P.treeDepth)
    (hbound : c.fresh es = [] ∨ (c.upsertAll es).entries.length < u64Bound) :
    ∃ proof view, createBatchProof P hasher w u.operations u.readOperations = .ok proof ∧
      proof.verify hasher P.treeDepth (some (c.output hasher P.treeDepth)) es keys = .ok view ∧
      view.rootHash = (c.upsertAll es).root hasher P.treeDepth ∧
      ∀ k ∈ keys, view.readEntries[k]? = some (c.value? k) := by
  have hN := hp.newKeys.nodup
  have hI : ∀ i ∈ I, i < c.entries.length := fun i hi => ((hp.mem i).mp hi).elim WrittenAt.lt ReadAt.lt
  have hI' : ∀ i ∈ I, i < c.leaves.length := by simpa using hI
  have hkeys : ∀ i, i ∈ w.leaves.keys ↔ WrittenAt c es i ∨ ReadAt c keys i := fun i => by
    rw [hp.loaded.leaves.mem_keys hI', hp.mem]
  have hs := keys_pairwise w.leaves
  have hR : ∀ i ∈ w.leaves.keys, i < c.entries.length := fun i hi => ((hkeys i).mp hi).elim WrittenAt.lt ReadAt.lt
  have hm : LeavesAre c.leaves w.leaves.keys w.leaves := fun i => by
    rw [hp.loaded.leaves i]
    simp only [hp.loaded.leaves.mem_keys hI']
  have hrev : ∀ e ∈ es, ∀ i ∈ (c.lookup e.key).indices, i ∈ w.leaves.keys := fun e he i hi =>
    (hkeys i).mpr (.inl (.inl ⟨e, he, hi⟩))
  have hreads : ∀ k ∈ keys, ∀ i ∈ (c.lookup k).indices, i ∈ w.leaves.keys := fun k hk i hi =>
    (hkeys i).mpr (.inr ⟨k, hk, hi⟩)
  have hproof := hp.loaded.createBatchProof hI' u.operations u.readOperations
  rw [length_leaves] at hproof
  by_cases hempty : es = [] ∧ keys = []
  · obtain ⟨rfl, rfl⟩ := hempty
    refine ⟨_, ⟨c.root hasher P.treeDepth, ∅⟩, hproof, verify_eq_ok.mpr ⟨?_, ?_, hR, .inl ⟨rfl, rfl, rfl⟩⟩, rfl, by simp⟩
    · simp [hp.operations]
    · simp [hp.readOperations]
  -- Some leaf is loaded, and both folds ask for the same hashes.
  have hne : w.leaves.keys ≠ [] := by
    intro h0
    have hnone : ∀ k, (k ∈ keys ∨ ∃ e ∈ es, e.key = k) → False := by
      rintro k hk
      obtain ⟨i, hi⟩ := exists_mem_of_ne_nil _ (KeyLookup.indices_ne_nil (c.lookup k))
      have : i ∈ w.leaves.keys := by
        rcases hk with hk | ⟨e, he, rfl⟩
        · exact hreads k hk i hi
        · exact hrev e he i hi
      simp [h0] at this
    refine hempty ⟨eq_nil_iff_forall_not_mem.mpr fun e he => hnone e.key (.inr ⟨e, he, rfl⟩),
      eq_nil_iff_forall_not_mem.mpr fun k hk => hnone k (.inl hk)⟩
  obtain ⟨i₀, hi₀⟩ := exists_mem_of_ne_nil _ hne
  have hfirst : ∃ i ∈ w.leaves.keys, i < 2 ^ P.treeDepth := ⟨i₀, hi₀, (hR i₀ hi₀).trans_le hcap⟩
  have hedge : c.fresh es = [] ∨ EdgeKnown c.entries.length w.leaves.keys := by
    by_cases hf : c.fresh es = []
    · exact .inl hf
    · exact .inr (edgeKnown_of_mem ((hkeys _).mpr (.inl (.inr ⟨hf, rfl⟩))))
  have hfold := @zipLeaves_revealed _ hasher c.leaves P.treeDepth _ hs (by simpa using hR) hfirst
  rw [length_leaves] at hfold
  have hfold' := @root_eq_of_locations_eq _ hasher _ _ _ _ hN hs hR hfirst hrev
    (locations_eq_of_edgeKnown hN hs hR hedge)
  have hreadOps : u.readOperations.zip keys = keys.map fun k => ((c.lookup k).operation, k) := by
    rw [hp.readOperations, zip_map_self]
  refine ⟨_, ⟨(c.upsertAll es).root hasher P.treeDepth, _⟩, hproof, verify_eq_ok.mpr ⟨?_, ?_, hR, .inr ⟨hempty,
    (verifyReadOperations_eq_ok hm rfl).mpr ⟨?_, rfl⟩, (verifyRoots_eq_ok hm rfl hs hR hN ?_).mpr
      ⟨?_, hbound, ⟨_, hfold⟩, _, hfold'⟩⟩⟩, rfl, fun k hk => ?_⟩
  · simp [hp.operations]
  · simp [hp.readOperations]
  · intro x hx
    rw [hreadOps] at hx
    obtain ⟨k, hk, rfl⟩ := mem_map.mp hx
    exact ⟨rfl, hreads k hk⟩
  · simp [hp.operations]
  · intro x hx
    rw [hp.operations, zip_map_self] at hx
    obtain ⟨e, he, rfl⟩ := mem_map.mp hx
    exact ⟨rfl, hrev e he⟩
  · simp only [hreadOps, getElem?_readEntries, map_map]
    rw [if_pos (by simpa using hk)]

end Accept

/-! ### The empty tree -/

section EmptyTree

variable {c : Contents} {es : List TreeEntry} {S : List Nat} {indexByKey : Map B256 Nat}

theorem KeysAt.nextIndex_eq (hB : KeysAt c S indexByKey)
    (hS : ∀ k ∈ c.keys, k ≠ ⊥ → k ≠ ⊤ → c.keys.idxOf k ∈ S) {k : B256} (hk : k ≠ ⊤) :
    ((MerkleTree.nextEntry indexByKey k).map Prod.snd).getD 1 = Successor.nextIndex c.keys k := by
  have hget : ∀ z ∈ c.keys, k < z → z ≠ ⊤ → indexByKey[z]? = some (c.keys.idxOf z) := fun z hz hlt htop =>
    (hB z _).mpr ⟨hS z hz (fun hb => absurd hlt (hb ▸ not_lt_bot)) htop, (c.getElem?_keys_iff _ _).mpr ⟨hz, rfl⟩⟩
  cases hn : MerkleTree.nextEntry indexByKey k with
  | none =>
    have hnone := first_eq_none.mp hn
    have hisNext : Successor.IsNext c.keys k ⊤ := by
      refine ⟨c.top_mem, lt_top_iff_ne_top.mpr hk, fun z hz hlt => ?_⟩
      by_contra htop
      exact absurd (hnone z _ (hget z hz hlt fun he => htop he.ge)) (by simpa using hlt)
    rw [Successor.nextIndex_of_isNext hisNext, c.idxOf_top]
    rfl
  | some e =>
    obtain ⟨hmem, hlt, hleast⟩ := first_eq_some hn
    obtain ⟨hy, hidx⟩ := (c.getElem?_keys_iff _ _).mp ((hB e.1 e.2).mp hmem).2
    have hisNext : Successor.IsNext c.keys k e.1 := by
      refine ⟨hy, of_decide_eq_true hlt, fun z hz hkz => ?_⟩
      by_cases htop : z = ⊤
      · exact htop ▸ le_top
      · exact hleast z _ (hget z hz hkz htop) (decide_eq_true hkz)
    rw [Successor.nextIndex_of_isNext hisNext, hidx]
    rfl

theorem locations_range (count n : Nat) : locations count 0 (n - 1) (range n) = [] := by
  refine eq_nil_iff_forall_not_mem.mpr fun x hx => ?_
  obtain ⟨-, hle, hnot, i, hi, -⟩ := (mem_locations_zero pairwise_lt_range (by simp) x.1 x.2).mp hx
  have hmul := (Nat.le_div_iff_mul_le (Nat.two_pow_pos x.1)).mp hle
  have hpos : 0 < n := (Nat.zero_le i).trans_lt (mem_range.mp hi)
  exact hnot (x.2 * 2 ^ x.1) (mem_range.mpr (by omega)) (Nat.mul_div_cancel _ (Nat.two_pow_pos _))

theorem keysAt_of_entries (hes : c.entries = minGuard :: maxGuard :: es)
    (hindex : indexByKey = .ofList (es.zipIdx.map fun x => (x.1.key, x.2 + 2))) :
    KeysAt c (range' 2 es.length) indexByKey ∧ indexByKey.size = es.length := by
  subst hindex
  have hkeys : c.keys = ⊥ :: ⊤ :: es.map key := by rw [Contents.keys, hes]; rfl
  have hnodup := c.keys_nodup
  rw [hkeys] at hnodup
  have hd : (es.zipIdx.map fun x => (x.1.key, x.2 + 2)).Pairwise fun a b => a.1 ≠ b.1 := by
    have hfst : ((es.zipIdx.map fun x => (x.1.key, x.2 + 2)).map Prod.fst) = es.map key := by
      rw [map_map, ← zipIdx_map_fst 0 es, map_map]
      simp [Function.comp_def]
    refine pairwise_map.mp ?_
    rw [hfst]
    exact hnodup.tail.tail
  refine ⟨fun k i => ?_, ?_⟩
  swap
  · rw [Std.ExtTreeMap.size_ofList (hd.imp fun hne => by simpa using hne)]
    simp
  rw [getElem?_ofList hd, hkeys]
  simp only [mem_map, Prod.mk.injEq, mem_range'_1]
  constructor
  · rintro ⟨⟨e, j⟩, hx, rfl, rfl⟩
    rw [mk_mem_zipIdx_iff_getElem?] at hx
    have hlt := (List.getElem?_eq_some_iff.mp hx).1
    exact ⟨by omega, by simp [hx]⟩
  · rintro ⟨⟨hle, hlt⟩, hget⟩
    obtain ⟨j, rfl⟩ := Nat.exists_eq_add_of_le' hle
    simp only [getElem?_cons_succ, getElem?_map, Option.map_eq_some_iff] at hget
    obtain ⟨e, he, rfl⟩ := hget
    exact ⟨(e, j), mk_mem_zipIdx_iff_getElem?.mpr he, rfl, rfl⟩

theorem verifyForEmptyTree_eq_ok {treeDepth : Nat}
    (hes : c.entries = minGuard :: maxGuard :: es) (readKeys : List B256) :
    (⟨[], [], ∅, []⟩ : BatchTreeProof H).verifyForEmptyTree hasher treeDepth es readKeys =
      .ok ⟨c.root hasher treeDepth, .ofList (readKeys.map fun key => (key, none))⟩ := by
  have hkeys : c.keys = ⊥ :: ⊤ :: es.map key := by rw [Contents.keys, hes]; rfl
  set indexByKey : Map B256 Nat := .ofList (es.zipIdx.map fun x => (x.1.key, x.2 + 2)) with hindex
  obtain ⟨hB, hsize⟩ := keysAt_of_entries hes hindex
  have hget : ∀ i e, es[i]? = some e → indexByKey[e.key]? = some (i + 2) := fun i e he => by
    refine (hB e.key (i + 2)).mpr ⟨?_, by simp [hkeys, he]⟩
    have := (List.getElem?_eq_some_iff.mp he).1
    rw [mem_range'_1]
    omega
  have hS : ∀ k ∈ c.keys, k ≠ ⊥ → k ≠ ⊤ → c.keys.idxOf k ∈ range' 2 es.length := by
    intro k hk hbot htop
    simp only [hkeys, mem_cons, hbot, htop, false_or] at hk
    obtain ⟨e, he, rfl⟩ := mem_map.mp hk
    obtain ⟨i, hi⟩ := mem_iff_getElem?.mp he
    obtain ⟨hmem, hidx⟩ := (hB e.key (i + 2)).mp (hget i e hi)
    rw [((c.getElem?_keys_iff _ _).mp hidx).2]
    exact hmem
  have hnodup := c.keys_nodup
  rw [hkeys, nodup_cons, nodup_cons] at hnodup
  have hbot : ∀ e ∈ es, e.key ≠ ⊥ := fun e he h =>
    hnodup.1 (mem_cons_of_mem _ (mem_map.mpr ⟨e, he, h⟩))
  have htop : ∀ e ∈ es, e.key ≠ ⊤ := fun e he h => hnodup.2.1 (mem_map.mpr ⟨e, he, h⟩)
  -- The leaves the verifier builds are those of the contents.
  have hleaf : es.map (fun entry => Leaf.mk entry.key entry.value
      (((rangeFrom indexByKey entry.key)[1]?.map Prod.snd).getD 1)) = es.map (toLeaf c.keys) := by
    refine map_congr_left fun e he => ?_
    obtain ⟨i, hi⟩ := mem_iff_getElem?.mp he
    rw [(rangeFrom_of_getElem? (hget i e hi)).2, hB.nextIndex_eq hS (htop e he)]
    rfl
  have hmin : (indexByKey.toList.head?.map Prod.snd).getD 1 = Successor.nextIndex c.keys ⊥ := by
    rw [← hB.nextIndex_eq hS (by decide)]
    congr 2
    have hpos : ∀ x ∈ indexByKey.toList, ⊥ < x.1 := by
      intro x hx
      have hx' := ((hB x.1 x.2).mp (Std.ExtTreeMap.mem_toList_iff_getElem?_eq_some.mp hx))
      refine bot_lt_iff_ne_bot.mpr fun he => ?_
      have h0 := ((c.getElem?_keys_iff _ _).mp hx'.2).2
      rw [he, c.idxOf_bot] at h0
      have := mem_range'_1.mp hx'.1
      omega
    rw [MerkleTree.nextEntry, first]
    cases hl : indexByKey.toList with
    | nil => rfl
    | cons x l =>
      have := hpos x (by rw [hl]; exact mem_cons_self)
      simp [this]
  have hleaves : c.leaves = ⟨⊥, 0, Successor.nextIndex c.keys ⊥⟩ :: Leaf.maxGuard :: es.map (toLeaf c.keys) := by
    have hmax : toLeaf c.keys maxGuard = Leaf.maxGuard := by
      rw [toLeaf, show maxGuard.key = ⊤ from rfl, c.nextIndex_top]
      rfl
    rw [leaves, hes, map_cons, map_cons, hmax]
    rfl
  have hlen : 2 + es.length = c.leaves.length := by
    rw [length_leaves, hes]
    simp only [length_cons]
    omega
  have hrow : (0, ⟨⊥, 0, Successor.nextIndex c.keys ⊥⟩) :: (1, Leaf.maxGuard) ::
      (es.map (toLeaf c.keys)).zipIdx.map (fun x => (x.2 + 2, x.1)) = revealed c.leaves (range c.leaves.length) := by
    rw [revealed_range, hleaves, zipIdx_cons, zipIdx_cons, zipIdx_eq_map_add (i := 0 + 1 + 1)]
    simp [Function.comp_def, Nat.add_comm]
  have hfold := @zipLeaves_revealed _ hasher c.leaves treeDepth (range c.leaves.length) pairwise_lt_range
    (fun i hi => mem_range.mp hi) ⟨0, by rw [mem_range, ← hlen]; omega, Nat.two_pow_pos _⟩
  rw [locations_range, map_nil, ← hrow] at hfold
  rw [BatchTreeProof.verifyForEmptyTree]
  simp only [ensure, ← hindex, hsize, hleaf, hmin, hlen, if_true, ok_bind, isEmpty_nil, Std.ExtTreeMap.isEmpty_empty]
  change (zipLeaves hasher treeDepth c.leaves.length ((0, ⟨⊥, 0, Successor.nextIndex c.keys ⊥⟩) :: (1, Leaf.maxGuard) ::
      (es.map (toLeaf c.keys)).zipIdx.map (fun x => (x.2 + 2, x.1))) [] >>= _) = _
  rw [hfold, ok_bind]
  rfl

end EmptyTree

/-! ### Extensions with proofs -/

theorem lt_bound_of_update [Inhabited H] {w w' : WorkingPatchSet H} {u : TreeUpdate} {final : FinalTreeUpdate}
    (h : update P w u = .ok (w', final)) : u.inserts = [] ∨ w.leafCount + u.inserts.length < u64Bound := by
  rw [update] at h
  obtain ⟨⟨internal, idxs⟩, -, h⟩ := bind_eq_ok.mp h
  obtain ⟨m, -, h⟩ := bind_eq_ok.mp h
  by_cases hins : u.inserts = []
  · exact .inl hins
  · simp only [List.isEmpty_iff, if_neg hins] at h
    obtain ⟨_, hbound, -⟩ := bind_eq_ok.mp h
    exact .inr (assert_eq_ok.mp hbound)

variable {DB : Type} [Database DB H] {nodes : NodeKey → Option (Node H)} {hist : List Contents}
  {es : List TreeEntry} {readKeys : List B256}

theorem entries_of_forEmptyTree {E : Type} [AsEntry E] {entries : List E} {u : TreeUpdate}
    (hes : es = entries.map AsEntry.asEntry) (h : TreeUpdate.forEmptyTree entries = .ok u) :
    (empty.upsertAll es).entries = minGuard :: maxGuard :: es := by
  rw [TreeUpdate.forEmptyTree] at h
  obtain ⟨m, hindex, h⟩ := bind_eq_ok.mp h
  obtain ⟨_, hsize, h⟩ := bind_eq_ok.mp h
  exact (keys_of_size hes hindex (ensure_eq_ok.mp hsize)).1

/-- The proof of an extension is accepted against the output of the previous
version, with the new root hash and the previous values. -/
theorem Holds.extendWithProof [Inhabited H] [DecidableEq H] {db db' : DB} (hh : Holds P hasher nodes db hist)
    (hcap : ∀ c, hist.getLast? = some c → c.entries.length ≤ 2 ^ P.treeDepth) {output : TreeBatchOutput H}
    {proof : BatchTreeProof H} (h : extendWithProof P hasher db es readKeys = .ok (db', output, proof)) :
    ∃ view, proof.verify hasher P.treeDepth (hist.getLast?.map (·.output hasher P.treeDepth)) es readKeys = .ok view ∧
      view.rootHash = output.rootHash ∧
      ∀ k ∈ readKeys, view.readEntries[k]? = some (hist.getLast?.bind (·.value? k)) := by
  rw [MerkleTree.extendWithProof] at h
  obtain ⟨⟨w, u⟩, hload, h⟩ := bind_eq_ok.mp h
  obtain ⟨proof', hproof, h⟩ := bind_eq_ok.mp h
  obtain ⟨⟨db'', output'⟩, hcommit, h⟩ := bind_eq_ok.mp h
  cases pure_eq_ok.mp h
  have hout := (hh.committed hload hcommit).1
  have hes : es.map AsEntry.asEntry = es := map_id es
  rw [hes] at hout
  rw [hout]
  obtain ⟨rfl, rfl, hu⟩ | ⟨c, I, J, hc, -, hp⟩ := hh.planned hload
  · obtain ⟨-, -, -, hops, hreads, -⟩ := forEmptyTree_eq_ok rfl hu
    rw [hops, hreads] at hproof
    cases hproof
    refine ⟨_, verifyForEmptyTree_eq_ok (entries_of_forEmptyTree hes.symm hu) readKeys, rfl, fun k hk => ?_⟩
    change (Std.ExtTreeMap.ofList (readKeys.map fun key => (key, none)) compare)[k]? = _
    rw [Std.ExtTreeMap.ofList_eq_insertMany_empty, getElem?_insertMany_const, if_pos hk]
    rfl
  · rw [hes] at hp
    have hbound : c.fresh es = [] ∨ (c.upsertAll es).entries.length < u64Bound := by
      rw [commitUpdate] at hcommit
      obtain ⟨⟨w', final⟩, hupdate, -⟩ := bind_eq_ok.mp hcommit
      rw [length_upsertAll hp.newKeys.nodup]
      have := lt_bound_of_update hupdate
      rwa [hp.inserts, map_eq_nil_iff, hp.loaded.leafCount, length_map, length_leaves] at this
    obtain ⟨proof', view, hproof', hverify, hroot, hvalues⟩ := hp.verify (hcap c hc) hbound
    rw [hproof] at hproof'
    cases hproof'
    rw [hc, nextContents, hc]
    exact ⟨view, hverify, hroot, hvalues⟩

end MerkleTree
