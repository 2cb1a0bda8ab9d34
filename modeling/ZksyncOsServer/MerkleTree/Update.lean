import ZksyncOsServer.MerkleTree.Stored

/-!
# Updating a working set

`WorkingPatchSet::update` and `finalize`, level by level. `Ready` is the state
of the internal nodes between the two: below a touched child the new version is
referenced and the hash is still to be written, every other child is already
the stored subtree of the new leaves.
-/
namespace MerkleTree

open BinaryMerkle Fallible List WorkingPatchSet
open LevelWalk (withNew mem_withNew)

variable {H : Type} {P : TreeParams} {hasher : HashTree H}

/-! ### Changing child references -/

/-- Effect of changes of child references on one node. -/
structure ChildrenModified (P : TreeParams) (mods : List (Nat × (ChildRef H → ChildRef H))) (p : Nat)
    (node node' : InternalNode H) : Prop where
  length : node'.children.length = node.children.length
  hit : ∀ j child f, node.children[j]? = some child → (p * maxNodeChildren P + j, f) ∈ mods →
    node'.children[j]? = some (f child)
  miss : ∀ j, (∀ f, (p * maxNodeChildren P + j, f) ∉ mods) → node'.children[j]? = node.children[j]?

theorem child_position {p j idx : Nat} (hj : j < maxNodeChildren P) :
    p * maxNodeChildren P + j = idx ↔ p = idx / maxNodeChildren P ∧ j = idx % maxNodeChildren P := by
  constructor
  · rintro rfl
    rw [Nat.mul_comm, Nat.mul_add_div (maxNodeChildren_pos P), Nat.mul_add_mod, Nat.div_eq_of_lt hj,
      Nat.mod_eq_of_lt hj]
    simp
  · rintro ⟨rfl, rfl⟩
    rw [Nat.mul_comm]
    exact Nat.div_add_mod _ _

theorem modifyChild_eq_ok {node node' : InternalNode H} {i : Nat} {f : ChildRef H → ChildRef H}
    (h : node.modifyChild i f = .ok node') :
    ∃ child, node.children[i]? = some child ∧ node' = ⟨node.children.set i (f child)⟩ := by
  rw [InternalNode.modifyChild, bind_eq_ok] at h
  obtain ⟨child, hc, hn⟩ := h
  exact ⟨child, expect_eq_ok.mp hc, (pure_eq_ok.mp hn).symm⟩

def Short (P : TreeParams) (level : Level H) : Prop :=
  ∀ (p : Nat) (node : InternalNode H), level[p]? = some node → node.children.length ≤ maxNodeChildren P

theorem modifyChildren_ok {mods : List (Nat × (ChildRef H → ChildRef H))} {level level' : Level H}
    (hd : mods.Pairwise fun a b => a.1 ≠ b.1) (hs : Short P level)
    (h : modifyChildren P mods level = .ok level') (p : Nat) : (level[p]? = none → level'[p]? = none) ∧
    ∀ node, level[p]? = some node → ∃ node', level'[p]? = some node' ∧ ChildrenModified P mods p node node' := by
  induction mods generalizing level with
  | nil =>
    cases h
    exact ⟨id, fun node hn => ⟨node, hn, rfl, fun _ _ _ _ hm => by simp at hm, fun _ _ => rfl⟩⟩
  | cons x rest ih =>
    obtain ⟨idx, f⟩ := x
    obtain ⟨hidx, hd⟩ := pairwise_cons.mp hd
    rw [modifyChildren] at h
    obtain ⟨parent, hparent, h⟩ := bind_eq_ok.mp h
    obtain ⟨parent', hparent', h⟩ := bind_eq_ok.mp h
    rw [expect_eq_ok] at hparent
    change level[idx / maxNodeChildren P]? = some parent at hparent
    change modifyChildren P rest (level.insert (idx / maxNodeChildren P) parent') = _ at h
    obtain ⟨child, hchild, rfl⟩ := modifyChild_eq_ok hparent'
    have hget : ∀ q, (level.insert (idx / maxNodeChildren P)
        (⟨parent.children.set (idx % maxNodeChildren P) (f child)⟩ : InternalNode H))[q]? =
        if q = idx / maxNodeChildren P then some ⟨parent.children.set (idx % maxNodeChildren P) (f child)⟩
        else level[q]? := by
      exact SortedMap.getElem?_insert level _ _
    have hs' : Short P (level.insert (idx / maxNodeChildren P)
        (⟨parent.children.set (idx % maxNodeChildren P) (f child)⟩ : InternalNode H)) := by
      intro q node hq
      rw [hget] at hq
      split at hq
      · cases hq
        simpa using hs _ _ hparent
      · exact hs q node hq
    obtain ⟨hnone, hsome⟩ := ih hd hs' h
    have hlt : ∀ {node : InternalNode H} {j : Nat} {c : ChildRef H}, level[p]? = some node →
        node.children[j]? = some c → j < maxNodeChildren P := by
      intro node j c hn hj
      exact (List.getElem?_eq_some_iff.mp hj).1.trans_le (hs p node hn)
    by_cases hp : p = idx / maxNodeChildren P
    · subst hp
      refine ⟨fun hn => by simp [hn] at hparent, fun node hn => ?_⟩
      rw [hparent] at hn
      cases hn
      obtain ⟨node', hn', hm⟩ := hsome _ (by rw [hget, if_pos rfl])
      refine ⟨node', hn', by simpa using hm.length, fun j c g hj hg => ?_, fun j hj => ?_⟩
      · by_cases hjr : j = idx % maxNodeChildren P
        · subst hjr
          have hpos := (child_position (P := P) (Nat.mod_lt idx (maxNodeChildren_pos P))).mpr ⟨rfl, rfl⟩
          rw [hpos] at hg
          have hg' : g = f := by
            rcases mem_cons.mp hg with he | hg
            · exact (Prod.mk.inj he).2
            · exact absurd rfl (hidx (idx, g) hg)
          rw [hm.miss _ fun g hg => hidx _ hg hpos.symm]
          rw [hchild] at hj
          cases hj
          rw [hg']
          simp only [getElem?_set, List.getElem?_eq_some_iff.mp hchild |>.1, if_true]
        · have hne : idx / maxNodeChildren P * maxNodeChildren P + j ≠ idx :=
            (child_position (hlt hparent hj)).not.mpr fun he => hjr he.2
          refine hm.hit j c g ?_ ((mem_cons.mp hg).resolve_left fun he => hne (Prod.mk.inj he).1)
          simp only [getElem?_set, Ne.symm hjr, if_false]
          exact hj
      · rw [hm.miss j fun g hg => hj g (mem_cons_of_mem _ hg)]
        have hjr : idx % maxNodeChildren P ≠ j := by
          rintro rfl
          refine hj f (mem_cons.mpr (.inl ?_))
          rw [(child_position (P := P) (Nat.mod_lt idx (maxNodeChildren_pos P))).mpr ⟨rfl, rfl⟩]
        simp only [getElem?_set, hjr, if_false]
    · rw [hget, if_neg hp] at hnone hsome
      refine ⟨hnone, fun node hn => ?_⟩
      obtain ⟨node', hn', hm⟩ := hsome node hn
      refine ⟨node', hn', hm.length, fun j c g hj hg => ?_, fun j hj => ?_⟩
      · have hne : p * maxNodeChildren P + j ≠ idx :=
          (child_position (hlt hn hj)).not.mpr fun he => hp he.1
        exact hm.hit j c g hj ((mem_cons.mp hg).resolve_left fun he => hne (Prod.mk.inj he).1)
      · exact hm.miss j fun g hg => hj g (mem_cons_of_mem _ hg)

theorem modifyChildren_spec {mods : List (Nat × (ChildRef H → ChildRef H))} {level level' : Level H}
    (hd : mods.Pairwise fun a b => a.1 ≠ b.1) (hs : Short P level) (h : modifyChildren P mods level = .ok level') :
    (∀ p : Nat, (∃ node', level'[p]? = some node') ↔ ∃ node, level[p]? = some node) ∧
      ∀ (p : Nat) (node' : InternalNode H), level'[p]? = some node' →
        ∃ node, level[p]? = some node ∧ ChildrenModified P mods p node node' := by
  have hspec := modifyChildren_ok hd hs h
  have hback : ∀ (p : Nat) (node' : InternalNode H), level'[p]? = some node' →
      ∃ node, level[p]? = some node ∧ ChildrenModified P mods p node node' := by
    intro p node' hn'
    cases hn : level[p]? with
    | none => simp [(hspec p).1 hn] at hn'
    | some node =>
      obtain ⟨node'', hn'', hm⟩ := (hspec p).2 node hn
      rw [hn'] at hn''
      cases Option.some.inj hn''
      exact ⟨node, rfl, hm⟩
  refine ⟨fun p => ⟨?_, ?_⟩, hback⟩
  · rintro ⟨node', hn'⟩
    obtain ⟨node, hn, -⟩ := hback p node' hn'
    exact ⟨node, hn⟩
  · rintro ⟨node, hn⟩
    obtain ⟨node', hn', -⟩ := (hspec p).2 node hn
    exact ⟨node', hn'⟩

/-! ### Marking the touched children -/

section Stages

variable {nodes : NodeKey → Option (Node H)} {version : Nat} {old leaves : List Leaf} {I J : List Nat}

/-- A node of an update to version `version` whose child hashes are not written
yet; `J` are the touched leaves and `old` the leaves before the update. -/
structure Ready (P : TreeParams) (hasher : HashTree H) (nodes : NodeKey → Option (Node H)) (version : Nat)
    (old leaves : List Leaf) (J : List Nat) (h idx : Nat) (node : InternalNode H) : Prop where
  length : ∀ j, j < node.children.length ↔
    j < maxNodeChildren P ∧ (idx * maxNodeChildren P + j) * span P h < leaves.length
  touched : ∀ j child, node.children[j]? = some child → Anc P J h (idx * maxNodeChildren P + j) →
    child.version = version
  rest : ∀ j child, node.children[j]? = some child → ¬ Anc P J h (idx * maxNodeChildren P + j) →
    child.hash = subtreeHash hasher leaves (h * P.internalNodeDepth) (idx * maxNodeChildren P + j) ∧
      Stored P hasher nodes version old h (idx * maxNodeChildren P + j) child.version

theorem length_le_of_forall {n m : Nat} {q : Nat → Prop} (h : ∀ j, j < n ↔ j < m ∧ q j) : n ≤ m := by
  by_contra hc
  exact absurd ((h m).mp (by omega)).1 (lt_irrefl m)

theorem LevelIs.short {dom : Nat → Prop} {S : Nat → Nat → Prop} {h : Nat} {level : Level H}
    (hl : LevelIs dom (StoredBelow P hasher leaves S h) level) : Short P level :=
  fun p node hn => length_le_of_forall (hl.node p node hn).children.length

theorem ChildrenModified.getElem? {mods : List (Nat × (ChildRef H → ChildRef H))} {p : Nat}
    {node node' : InternalNode H} (hm : ChildrenModified P mods p node node') {j : Nat} {child' : ChildRef H}
    (hj : node'.children[j]? = some child') : ∃ child, node.children[j]? = some child := by
  have hlt := (List.getElem?_eq_some_iff.mp hj).1
  rw [hm.length] at hlt
  exact ⟨_, getElem?_eq_getElem hlt⟩

theorem ready_of_modified {idxs : List Nat} {h p : Nat} (hidxs : ∀ q, q ∈ idxs ↔ Anc P J h q)
    {node node' : InternalNode H} (hb : StoredBelow P hasher old (Stored P hasher nodes version old h) h p node)
    (hm : ChildrenModified P (idxs.map fun idx => (idx, fun child => { child with version })) p node node') :
    Ready P hasher nodes version old old J h p node' where
  length j := by rw [hm.length]; exact hb.children.length j
  touched j child' hj ha := by
    obtain ⟨child, hc⟩ := hm.getElem? hj
    have hhit := hm.hit j child _ hc (mem_map.mpr ⟨_, (hidxs _).mpr ha, rfl⟩)
    rw [hj] at hhit
    rw [Option.some.inj hhit]
  rest j child' hj ha := by
    have hmiss := hm.miss j fun f hf => by
      obtain ⟨q, hq, he⟩ := mem_map.mp hf
      exact ha ((hidxs _).mp ((Prod.mk.inj he).1 ▸ hq))
    rw [hj] at hmiss
    exact ⟨hb.children.hash j child' hmiss.symm, hb.stored j child' hmiss.symm⟩

theorem updateAncestorVersions_ok {dom : Nat → Nat → Prop} {levels levels' : List (Level H)} {idxs : List Nat}
    (hJ : J.Pairwise (· < ·))
    (hl : LevelsAre dom (fun h => StoredBelow P hasher old (Stored P hasher nodes version old h) h) levels)
    (h : PartialPatchSet.updateAncestorVersions P version J levels = .ok (levels', idxs)) :
    levels'.length = levels.length ∧ LevelsAre dom (Ready P hasher nodes version old old J) levels' ∧
      idxs.Pairwise (· < ·) ∧ ∀ p, p ∈ idxs ↔ Anc P J levels.length p := by
  induction levels generalizing levels' idxs with
  | nil =>
    cases h
    exact ⟨rfl, trivial, hJ, fun p => anc_zero.symm⟩
  | cons level lower ih =>
    obtain ⟨hlevel, hlower⟩ := hl
    rw [PartialPatchSet.updateAncestorVersions] at h
    obtain ⟨⟨lower', below⟩, hrec, h⟩ := bind_eq_ok.mp h
    obtain ⟨⟨level', parents⟩, htouch, h⟩ := bind_eq_ok.mp h
    cases pure_eq_ok.mp h
    obtain ⟨hlen, hlower', hsorted, hmem⟩ := ih hlower hrec
    rw [PartialPatchSet.touchLevel] at htouch
    obtain ⟨level'', hmod, htouch⟩ := bind_eq_ok.mp htouch
    cases pure_eq_ok.mp htouch
    have hd : (below.map fun idx => (idx, fun child : ChildRef H => { child with version })).Pairwise
        fun a b => a.1 ≠ b.1 := by
      rw [pairwise_map]
      exact hsorted.imp fun hlt => hlt.ne
    obtain ⟨hdom, hback⟩ := modifyChildren_spec hd hlevel.short hmod
    obtain ⟨hpsorted, hpmem⟩ : (ancestorsOnLevel (2 ^ P.internalNodeDepth) below none).Pairwise (· < ·) ∧ _ :=
      ancestorsOnLevel_spec
      (hsorted.imp fun hlt => hlt.le) (by simp)
    refine ⟨by simp [hlen], ⟨⟨fun p => ?_, fun p node' hn' => ?_⟩, hlower'⟩, hpsorted, fun p => ?_⟩
    · rw [hlen, hdom, hlevel.mem p]
    · rw [hlen]
      obtain ⟨node, hn, hm⟩ := hback p node' hn'
      exact ready_of_modified hmem (hlevel.node p node hn) hm
    · rw [hpmem, length_cons]
      simp only [ne_eq, reduceCtorEq, not_false_eq_true, and_true, hmem, Anc, div_span_succ]
      constructor
      · rintro ⟨q, ⟨i, hi, rfl⟩, rfl⟩
        exact ⟨i, hi, rfl⟩
      · rintro ⟨i, hi, rfl⟩
        exact ⟨_, ⟨i, hi, rfl⟩, rfl⟩

theorem subtreeHash_of_not_anc {J' : List Nat} {h : Nat} (hsame : ∀ i, i ∉ J' → old[i]? = leaves[i]?) {q : Nat}
    (ha : ¬ Anc P J' h q) : subtreeHash hasher old (h * P.internalNodeDepth) q =
      subtreeHash hasher leaves (h * P.internalNodeDepth) q :=
  subtreeHash_congr fun i hi => hsame i fun hmem => ha ⟨i, hmem, hi⟩

/-- A node of the update holds a marked child exactly when a touched leaf lies
below it. -/
theorem Ready.any_version_iff (hJ : ∀ i ∈ J, i < leaves.length) {h idx : Nat} {node : InternalNode H}
    (hr : Ready P hasher nodes version old leaves J h idx node) :
    (node.children.any fun child => child.version = version) = true ↔ Anc P J (h + 1) idx := by
  rw [any_eq_true]
  constructor
  · rintro ⟨child, hmem, hv⟩
    obtain ⟨j, hj⟩ := mem_iff_getElem?.mp hmem
    have hlt : j < maxNodeChildren P := ((hr.length j).mp (List.getElem?_eq_some_iff.mp hj).1).1
    by_cases ha : Anc P J h (idx * maxNodeChildren P + j)
    · have hp := ha.parent
      rwa [← ((child_position hlt).mp rfl).1] at hp
    · exact absurd (of_decide_eq_true hv) (hr.rest j child hj ha).2.lt.ne
  · rintro ⟨i, hi, rfl⟩
    have hpos := mul_maxNodeChildren_add_mod P i h
    have hlt : i / span P h % maxNodeChildren P < node.children.length := by
      rw [hr.length, hpos]
      exact ⟨Nat.mod_lt _ (maxNodeChildren_pos P), (Nat.div_mul_le_self _ _).trans_lt (hJ i hi)⟩
    have hget := getElem?_eq_getElem hlt
    refine ⟨_, getElem_mem hlt, decide_eq_true (hr.touched _ _ hget ?_)⟩
    rw [hpos]
    exact ⟨i, hi, rfl⟩

theorem removeReadonlyNodes_levels {levels : List (Level H)} (hlen : levels.length = leafNibbles P)
    (hJ : ∀ i ∈ J, i < leaves.length) (hfits : leaves.length ≤ span P (leafNibbles P))
    (hI : ∀ i ∈ I, i < leaves.length) (hJI : ∀ i ∈ J, i ∈ I)
    (hl : LevelsAre (Touched P I) (Ready P hasher nodes version old leaves J) levels) :
    LevelsAre (Touched P J) (Ready P hasher nodes version old leaves J)
      (PartialPatchSet.removeReadonlyNodes version levels) := by
  have hroot : ∀ {K : List Nat}, (∀ i ∈ K, i < leaves.length) → ∀ idx,
      Touched P K (maxNibblesForInternalNode P) idx ↔ idx = 0 := by
    intro K hK idx
    refine ⟨?_, fun h0 => .inr ⟨rfl, h0⟩⟩
    rintro (⟨i, hi, rfl⟩ | ⟨-, h0⟩)
    · rw [← leafNibbles_eq]
      exact div_span_eq_zero (hK i hi) hfits
    · exact h0
  cases levels with
  | nil => trivial
  | cons root rest =>
    obtain ⟨hlevel, hrest⟩ := hl
    have hM : rest.length = maxNibblesForInternalNode P := by
      rw [length_cons, leafNibbles_eq] at hlen
      omega
    rw [hM] at hlevel
    refine ⟨?_, ?_⟩
    · rw [length_map, hM]
      exact ⟨fun idx => (hlevel.mem idx).trans ((hroot hI idx).trans (hroot hJ idx).symm), hlevel.node⟩
    · have hlow : ∀ {lower : List (Level H)}, lower.length ≤ maxNibblesForInternalNode P →
          LevelsAre (Touched P I) (Ready P hasher nodes version old leaves J) lower →
          LevelsAre (Touched P J) (Ready P hasher nodes version old leaves J) (lower.map fun level =>
            level.filter fun _ node => node.children.any fun child => child.version = version) := by
        intro lower hle hlow
        induction lower with
        | nil => trivial
        | cons level lower ih =>
          obtain ⟨hlevel, hlower⟩ := hlow
          rw [length_cons] at hle
          refine ⟨?_, ih (by omega) hlower⟩
          rw [length_map]
          have hget : ∀ (idx : Nat) (node : InternalNode H), (level.filter fun _ node => node.children.any
              fun child => child.version = version)[idx]? = some node ↔
              level[idx]? = some node ∧ Anc P J (lower.length + 1) idx := by
            intro idx node
            rw [Std.ExtTreeMap.getElem?_filter', Option.filter_eq_some_iff]
            exact and_congr_right fun hn => (hlevel.node idx node hn).any_version_iff hJ
          refine ⟨fun idx => ?_, fun idx node hn => hlevel.node idx node ((hget idx node).mp hn).1⟩
          have hlt : lower.length < maxNibblesForInternalNode P := by omega
          simp only [hget, exists_and_right, hlevel.mem]
          rw [touched_of_lt hlt, touched_of_lt hlt]
          refine ⟨fun h => h.2, fun ha => ⟨?_, ha⟩⟩
          obtain ⟨i, hi, rfl⟩ := ha
          exact ⟨i, hJI i hi, rfl⟩
      exact hlow hM.le hrest

end Stages

/-! ### Adding nodes for new leaves -/

section Grow

variable [Inhabited H] {nodes : NodeKey → Option (Node H)} {version : Nat} {old leaves : List Leaf} {J : List Nat}

theorem mul_span_lt_iff {n h q : Nat} (hn : 0 < n) : q * span P h < n ↔ q ≤ (n - 1) / span P h := by
  rw [Nat.le_div_iff_mul_le (span_pos P h)]
  omega

theorem exists_div_span_iff {n n' h q : Nat} (hn : n < n') :
    (∃ i, (n ≤ i ∧ i < n') ∧ i / span P h = q) ↔ n / span P h ≤ q ∧ q ≤ (n' - 1) / span P h := by
  constructor
  · rintro ⟨i, ⟨h₁, h₂⟩, rfl⟩
    exact ⟨Nat.div_le_div_right h₁, Nat.div_le_div_right (by omega)⟩
  · rintro ⟨h₁, h₂⟩
    rcases Nat.eq_or_lt_of_le h₁ with he | hlt
    · exact ⟨n, ⟨le_rfl, hn⟩, he⟩
    · refine ⟨q * span P h, ⟨?_, ?_⟩, Nat.mul_div_cancel q (span_pos P h)⟩
      · rw [Nat.div_lt_iff_lt_mul (span_pos P h)] at hlt
        exact hlt.le
      · exact (mul_span_lt_iff (by omega)).mpr h₂

theorem anc_withNew {n n' h q : Nat} (hn : n < n') :
    Anc P (withNew J n n') h q ↔ Anc P J h q ∨ (n / span P h ≤ q ∧ q ≤ (n' - 1) / span P h) := by
  rw [← exists_div_span_iff hn, Anc, Anc, withNew]
  simp only [mem_append, mem_range'_1, show n + (n' - n) = n' by omega, or_and_right, exists_or]

/-- A node that existed before is touched only if a loaded leaf lies below it:
next to new leaves that is the last old leaf. -/
theorem anc_of_withNew {n n' h q : Nat} (hn : n < n') (hlast : n = 0 ∨ n - 1 ∈ J) (hq : q * span P h < n)
    (ha : Anc P (withNew J n n') h q) : Anc P J h q := by
  rcases (anc_withNew hn).mp ha with ha | ⟨hle, -⟩
  · exact ha
  · have hn0 : 0 < n := by omega
    have h₁ := (mul_span_lt_iff hn0).mp hq
    have h₂ : (n - 1) / span P h ≤ n / span P h := Nat.div_le_div_right (by omega)
    exact ⟨n - 1, hlast.resolve_left (by omega), by omega⟩

theorem length_expected {n' h idx j : Nat} (hn : 0 < n') (hidx : idx ≤ (n' - 1) / span P (h + 1)) :
    j < (if idx = (n' - 1) / span P h / maxNodeChildren P then (n' - 1) / span P h % maxNodeChildren P + 1
      else maxNodeChildren P) ↔
    j < maxNodeChildren P ∧ (idx * maxNodeChildren P + j) * span P h < n' := by
  rw [mul_span_lt_iff hn]
  rw [div_span_succ] at hidx
  set lc := (n' - 1) / span P h
  have hc := maxNodeChildren_pos P
  have hdm := Nat.div_add_mod lc (maxNodeChildren P)
  have hmod := Nat.mod_lt lc hc
  split
  next he =>
    rw [he, Nat.mul_comm]
    constructor
    · intro hj
      exact ⟨by omega, by omega⟩
    · intro hj
      omega
  next hne =>
    have hlt : (idx + 1) * maxNodeChildren P ≤ lc / maxNodeChildren P * maxNodeChildren P :=
      Nat.mul_le_mul_right _ (by omega)
    rw [Nat.succ_mul, Nat.mul_comm (lc / _)] at hlt
    constructor
    · intro hj
      exact ⟨hj, by omega⟩
    · intro hj
      exact hj.1

theorem getElem?_ensureLen {node : InternalNode H} {len : Nat} (hlen : node.children.length ≤ len) (j : Nat) :
    (node.ensureLen len version).children[j]? = if j < node.children.length then node.children[j]?
      else if j < len then some ⟨version, default⟩ else none := by
  simp only [InternalNode.ensureLen, take_of_length_le hlen]
  split
  next hj =>
    rw [getElem?_append_left hj]
  next hj =>
    rw [getElem?_append_right (by omega), getElem?_replicate]
    by_cases hl : j < len
    · rw [if_pos hl, if_pos (by omega)]
    · rw [if_neg hl, if_neg (by omega)]

/-- Number of children a level needs at `idx` for the leaves below `n'`. -/
def expectedLen (P : TreeParams) (n' h idx : Nat) : Nat :=
  if idx = (n' - 1) / span P h / maxNodeChildren P then (n' - 1) / span P h % maxNodeChildren P + 1
  else maxNodeChildren P

/-- A level after `growLevel`: nodes are added from the first to the last index
of the new leaves, where the first one may exist already. -/
theorem getElem?_growLevel {n n' h nibbleCount : Nat} (hn : n < n')
    (hh : maxNibblesForInternalNode P - nibbleCount = h) (level : Level H) (idx : Nat) :
    (growLevel P version n (n' - 1) nibbleCount level)[idx]? =
      if n / span P (h + 1) ≤ idx ∧ idx ≤ (n' - 1) / span P (h + 1) then
        some (match if idx = n / span P (h + 1) then level[idx]? else none with
          | some parent => parent.ensureLen (expectedLen P n' h idx) version
          | none => .new (expectedLen P n' h idx) version)
      else level[idx]? := by
  subst hh
  set h := maxNibblesForInternalNode P - nibbleCount
  have hle : n / span P (h + 1) ≤ (n' - 1) / span P (h + 1) := Nat.div_le_div_right (by omega)
  rw [div_span_succ, div_span_succ] at hle ⊢
  have hgrow : growLevel P version n (n' - 1) nibbleCount level = match level[n / span P h / maxNodeChildren P]? with
      | some parent => addNodes (expectedLen P n' h) version
          (n / span P h / maxNodeChildren P + 1) ((n' - 1) / span P h / maxNodeChildren P)
          (level.insert (n / span P h / maxNodeChildren P)
            (parent.ensureLen (expectedLen P n' h (n / span P h / maxNodeChildren P)) version))
      | none => addNodes (expectedLen P n' h) version
          (n / span P h / maxNodeChildren P) ((n' - 1) / span P h / maxNodeChildren P) level := rfl
  rw [hgrow]
  set F := n / span P h / maxNodeChildren P
  set L := (n' - 1) / span P h / maxNodeChildren P
  cases hF : level[F]? with
  | some parent =>
    simp only [addNodes, SortedMap.getElem?_insertMany_range', SortedMap.getElem?_insert]
    by_cases he : idx = F
    · subst he
      rw [if_neg (by omega), if_pos rfl, if_pos ⟨le_rfl, hle⟩, if_pos rfl, hF]
    · rw [if_neg he, if_neg he]
      by_cases hi : F ≤ idx ∧ idx ≤ L
      · rw [if_pos (by omega), if_pos hi]
      · rw [if_neg (by omega), if_neg hi]
  | none =>
    simp only [addNodes, SortedMap.getElem?_insertMany_range']
    by_cases hi : F ≤ idx ∧ idx ≤ L
    · rw [if_pos (by omega), if_pos hi]
      by_cases he : idx = F
      · rw [if_pos he, he, hF]
      · rw [if_neg he]
    · rw [if_neg (by omega), if_neg hi]

variable {h idx : Nat} {node : InternalNode H} (hn : old.length < leaves.length)
    (hlast : old.length = 0 ∨ old.length - 1 ∈ J)
  (hsame : ∀ i, i ∉ withNew J old.length leaves.length → old[i]? = leaves[i]?)
include hn hlast hsame

omit [Inhabited H] in
theorem Ready.kept (hr : Ready P hasher nodes version old old J h idx node) {j : Nat} {child : ChildRef H}
    (hj : node.children[j]? = some child) :
    (Anc P (withNew J old.length leaves.length) h (idx * maxNodeChildren P + j) → child.version = version) ∧
    (¬ Anc P (withNew J old.length leaves.length) h (idx * maxNodeChildren P + j) →
      child.hash = subtreeHash hasher leaves (h * P.internalNodeDepth) (idx * maxNodeChildren P + j) ∧
        Stored P hasher nodes version old h (idx * maxNodeChildren P + j) child.version) := by
  have hlive := ((hr.length j).mp (List.getElem?_eq_some_iff.mp hj).1).2
  refine ⟨fun ha => hr.touched j child hj (anc_of_withNew hn hlast hlive ha), fun ha => ?_⟩
  obtain ⟨hhash, hstored⟩ := hr.rest j child hj fun hJ => ha ((anc_withNew hn).mpr (.inl hJ))
  exact ⟨hhash.trans (subtreeHash_of_not_anc hsame ha), hstored⟩

omit [Inhabited H] in
theorem Ready.of_lt (hidx : idx < old.length / span P (h + 1))
    (hr : Ready P hasher nodes version old old J h idx node) :
    Ready P hasher nodes version old leaves (withNew J old.length leaves.length) h idx node where
  length j := by
    rw [hr.length]
    refine and_congr_right fun hj => ?_
    have h₁ : (idx + 1) * maxNodeChildren P ≤ old.length / span P (h + 1) * maxNodeChildren P :=
      Nat.mul_le_mul_right _ hidx
    have h₂ : old.length / span P (h + 1) * maxNodeChildren P * span P h ≤ old.length := by
      rw [Nat.mul_assoc, Nat.mul_comm (maxNodeChildren P), ← span_succ]
      exact Nat.div_mul_le_self _ _
    have h₃ : (idx * maxNodeChildren P + j) * span P h <
        old.length / span P (h + 1) * maxNodeChildren P * span P h := by
      refine Nat.mul_lt_mul_of_pos_right ?_ (span_pos P h)
      rw [Nat.succ_mul] at h₁
      omega
    omega
  touched _ _ hj := (hr.kept hn hlast hsame hj).1
  rest _ _ hj := (hr.kept hn hlast hsame hj).2

theorem Ready.ensureLen (hidx : idx ≤ (leaves.length - 1) / span P (h + 1))
    (hr : Ready P hasher nodes version old old J h idx node) :
    Ready P hasher nodes version old leaves (withNew J old.length leaves.length) h idx
      (node.ensureLen (expectedLen P leaves.length h idx) version) := by
  have hexp : ∀ j, j < expectedLen P leaves.length h idx ↔ j < maxNodeChildren P ∧
      (idx * maxNodeChildren P + j) * span P h < leaves.length :=
    fun j => length_expected (by omega) hidx
  have hle : node.children.length ≤ expectedLen P leaves.length h idx := by
    by_contra hc
    have h₁ := (hr.length (expectedLen P leaves.length h idx)).mp (by omega)
    exact absurd ((hexp _).mpr ⟨h₁.1, h₁.2.trans hn⟩) (lt_irrefl _)
  have hget : ∀ j, (node.ensureLen _ version).children[j]? = _ := getElem?_ensureLen hle
  refine ⟨fun j => ?_, fun j child hj ha => ?_, fun j child hj ha => ?_⟩
  · rw [← hexp]
    simp only [InternalNode.ensureLen, length_append, length_take, length_replicate]
    omega
  · rw [hget] at hj
    split_ifs at hj
    · exact (hr.kept hn hlast hsame hj).1 ha
    · rw [← Option.some.inj hj]
  · rw [hget] at hj
    split_ifs at hj with hold hnew
    · exact (hr.kept hn hlast hsame hj).2 ha
    · -- A child beyond the old leaves starts with a new leaf.
      obtain ⟨hc, hlive⟩ := (hexp j).mp hnew
      rw [hr.length] at hold
      refine absurd ⟨(idx * maxNodeChildren P + j) * span P h, ?_, Nat.mul_div_cancel _ (span_pos P h)⟩ ha
      rw [withNew, mem_append, mem_range'_1]
      exact .inr ⟨by omega, by omega⟩

theorem Ready.new (hidx : idx ≤ (leaves.length - 1) / span P (h + 1)) (hfirst : old.length ≤ idx * span P (h + 1)) :
    Ready P hasher nodes version old leaves (withNew J old.length leaves.length) h idx
      (.new (expectedLen P leaves.length h idx) version : InternalNode H) := by
  have hempty : Ready P hasher nodes version old old J h idx ⟨[]⟩ := by
    refine ⟨fun j => ?_, by simp, by simp⟩
    rw [span_succ, Nat.mul_comm (span P h), ← Nat.mul_assoc] at hfirst
    have := hfirst.trans (Nat.mul_le_mul_right (span P h) (Nat.le_add_right _ j))
    simp [this]
  simpa [InternalNode.ensureLen, InternalNode.new] using hempty.ensureLen hn hlast hsame hidx

theorem growLevel_levelIs {level : Level H} {nibbleCount : Nat} (hJ : ∀ i ∈ J, i < old.length)
    (hh : maxNibblesForInternalNode P - nibbleCount = h)
    (hl : LevelIs (Touched P J h) (Ready P hasher nodes version old old J h) level) :
    LevelIs (Touched P (withNew J old.length leaves.length) h)
      (Ready P hasher nodes version old leaves (withNew J old.length leaves.length) h)
      (growLevel P version old.length (leaves.length - 1) nibbleCount level) := by
  have hget : ∀ idx, (growLevel P version _ _ nibbleCount level)[idx]? = _ :=
    getElem?_growLevel hn hh level
  have hle : ∀ idx, Touched P J h idx → idx ≤ old.length / span P (h + 1) := by
    rintro idx (⟨i, hi, rfl⟩ | ⟨-, rfl⟩)
    · exact Nat.div_le_div_right (hJ i hi).le
    · exact Nat.zero_le _
  refine ⟨fun idx => ?_, fun idx node hnode => ?_⟩
  · rw [hget, Touched, anc_withNew hn]
    by_cases hi : old.length / span P (h + 1) ≤ idx ∧ idx ≤ (leaves.length - 1) / span P (h + 1)
    · rw [if_pos hi]
      simp [hi]
    · rw [if_neg hi, hl.mem, Touched, or_iff_left hi]
  · rw [hget] at hnode
    split at hnode
    next hi =>
      have hnode := Option.some.inj hnode
      split at hnode
      next parent hparent =>
        rw [← hnode]
        split at hparent
        · exact (hl.node idx parent hparent).ensureLen hn hlast hsame hi.2
        · exact absurd hparent (by simp)
      next hparent =>
        rw [← hnode]
        refine Ready.new hn hlast hsame hi.2 ?_
        split at hparent
        · -- The first node is new, so the old leaves end where it starts.
          rename_i he
          have habs : ¬ Touched P J h idx := fun ht => by
            obtain ⟨node', hn'⟩ := (hl.mem idx).mpr ht
            rw [hn'] at hparent
            exact absurd hparent (by simp)
          rcases hlast with h0 | hmem
          · omega
          · have hne : (old.length - 1) / span P (h + 1) ≠ idx := fun hd =>
              habs (.inl ⟨_, hmem, hd⟩)
            by_contra hc
            have hlt : idx * span P (h + 1) ≤ old.length - 1 := by omega
            have h₁ := (Nat.le_div_iff_mul_le (span_pos P (h + 1))).mpr hlt
            have h₂ : (old.length - 1) / span P (h + 1) ≤ old.length / span P (h + 1) :=
              Nat.div_le_div_right (by omega)
            omega
        next hne =>
          have hlt : old.length / span P (h + 1) < idx := by omega
          rw [Nat.div_lt_iff_lt_mul (span_pos P (h + 1))] at hlt
          exact hlt.le
    next hi =>
      have hidx := hle idx ((hl.mem idx).mp ⟨node, hnode⟩)
      have hlast' : old.length / span P (h + 1) ≤ (leaves.length - 1) / span P (h + 1) :=
        Nat.div_le_div_right (by omega)
      exact (hl.node idx node hnode).of_lt hn hlast hsame (by omega)

end Grow

theorem LevelsAre.mapIdx {dom dom' : Nat → Nat → Prop} {Q Q' : Nat → Nat → InternalNode H → Prop}
    {levels : List (Level H)} {g : Nat → Level H → Level H}
    (hg : ∀ i h level, i + h + 1 = levels.length → LevelIs (dom h) (Q h) level →
      LevelIs (dom' h) (Q' h) (g i level)) (hl : LevelsAre dom Q levels) : LevelsAre dom' Q' (levels.mapIdx g) := by
  induction levels generalizing g with
  | nil => trivial
  | cons level lower ih =>
    obtain ⟨hlevel, hlower⟩ := hl
    rw [mapIdx_cons]
    refine ⟨?_, ih (fun i h level' he => hg (i + 1) h level' (by simp only [length_cons]; omega)) hlower⟩
    rw [length_mapIdx]
    exact hg 0 _ level (by simp) hlevel

end MerkleTree
