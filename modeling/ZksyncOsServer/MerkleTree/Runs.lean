import ZksyncOsServer.MerkleTree.Completeness

/-!
# Runs of tree operations

A lawful database relates its states to histories of contents: applying the
patch of a new version appends to the history, truncating takes a prefix of it,
and neither changes what is stored for the versions that stay. Everything a tree
reads about a version is then determined by that version alone, whatever calls
came after it.
-/
namespace MerkleTree

open BinaryMerkle Contents Fallible List Successor

variable {H DB : Type} {P : TreeParams} {hasher : HashTree H} {nodes nodes' : NodeKey → Option (Node H)}
  {hist : List Contents} {c : Contents} {es : List TreeEntry} {v : Nat}

/-! ### Lawful databases -/

/-- Two states of a database agree on the versions below `bound`. -/
structure Keeps [Database DB H] (node : DB → NodeKey → Option (Node H)) (bound : Nat) (db db' : DB) : Prop where
  node : ∀ key, key.version < bound → node db' key = node db key
  root : ∀ v, v < bound → Database.tryRoot db' v = Database.tryRoot db v

theorem Keeps.refl [Database DB H] (node : DB → NodeKey → Option (Node H)) (bound : Nat) (db : DB) :
    Keeps node bound db db :=
  ⟨fun _ _ => rfl, fun _ _ => rfl⟩

theorem Keeps.trans [Database DB H] {node : DB → NodeKey → Option (Node H)} {bound : Nat} {db db' db'' : DB}
    (h : Keeps node bound db db') (h' : Keeps node bound db' db'') : Keeps node bound db db'' :=
  ⟨fun key hk => (h'.node key hk).trans (h.node key hk), fun v hv => (h'.root v hv).trans (h.root v hv)⟩

theorem Keeps.mono [Database DB H] {node : DB → NodeKey → Option (Node H)} {bound bound' : Nat} {db db' : DB}
    (h : Keeps node bound db db') (hb : bound' ≤ bound) : Keeps node bound' db db' :=
  ⟨fun key hk => h.node key (hk.trans_le hb), fun v hv => h.root v (hv.trans_le hb)⟩

/-- The state after the patch of a new version: the version is added, the others
are kept. -/
structure Applied [Database DB H] (node : DB → NodeKey → Option (Node H)) (version : Nat)
    (part : PartialPatchSet H) (db db' : DB) : Prop where
  keeps : Keeps node version db db'
  node : ∀ key, key.version = version → 0 < key.nibbleCount →
    node db' key = part.node key.nibbleCount key.indexOnLevel
  root : Database.tryRoot db' version = some <$> part.root

/-- A database whose states store histories. Retaining no version at all may be
refused. -/
class LawfulDatabase (DB : Type) (H : outParam Type) [Database DB H] where
  node : DB → NodeKey → Option (Node H)
  Stores : TreeParams → HashTree H → DB → List Contents → Prop
  holds : ∀ {P : TreeParams} {hasher : HashTree H} {db : DB} {hist : List Contents},
    Stores P hasher db hist → Holds P hasher (node db) db hist
  applyPatch : ∀ {P : TreeParams} {hasher : HashTree H} {db : DB} {hist : List Contents} {c' : Contents}
      {J : List Nat} {part : PartialPatchSet H} {patch : PatchSet H}, Stores P hasher db hist →
    Committed P hasher (node db) hist.length (latestLeaves hist) c' J part patch →
    ∃ db', Database.applyPatch db patch = .ok db' ∧ Stores P hasher db' (hist ++ [c']) ∧
      Applied node hist.length part db db'
  truncate : ∀ {P : TreeParams} {hasher : HashTree H} {db : DB} {hist : List Contents}, Stores P hasher db hist →
    ∀ n, (n = 0 ∧ ∃ e, truncateRecentVersions db n = .error e) ∨
      ∃ db', truncateRecentVersions db n = .ok db' ∧ Stores P hasher db' (hist.take n) ∧
        Keeps node (min n hist.length) db db'

open LawfulDatabase (Stores)

theorem truncateRecentVersions_eq [Database DB H] (db : DB) (manifest : Manifest) (n : Nat)
    (hm : Database.tryManifest db = .ok (if manifest.versionCount = 0 then none else some manifest)) :
    truncateRecentVersions db n = if n < manifest.versionCount then
      Database.truncate db { manifest with versionCount := n } manifest.versionCount else .ok db := by
  rw [truncateRecentVersions, hm, ok_bind]
  by_cases h0 : manifest.versionCount = 0
  · have hlt : ¬ n < manifest.versionCount := by omega
    rw [if_pos h0, if_neg hlt]
    exact if_neg (Nat.not_lt_zero n)
  · rw [if_neg h0]
    rfl

instance : LawfulDatabase (PatchSet H) H where
  node := PatchSet.node
  Stores := Represents
  holds := Represents.holds
  applyPatch hr hc := by
    obtain ⟨ps', happly⟩ := hr.exists_applyPatch hc
    obtain ⟨hr', hnode, hroot⟩ := hr.applyPatch hc happly
    have hparts := Represents.getElem?_applyPatch hc happly
    refine ⟨ps', happly, hr', ⟨hnode, hroot⟩, fun key hk _ => ?_, ?_⟩
    · rw [PatchSet.node, hk, hparts, if_pos rfl]
      rfl
    · change ps'.tryRoot _ = _
      rw [PatchSet.tryRoot, hparts, if_pos rfl]
      rfl
  truncate {P hasher ps hist} hr n := by
    refine .inr ?_
    rw [truncateRecentVersions_eq ps ps.manifest n rfl, hr.count]
    by_cases hn : n < hist.length
    · obtain ⟨hr', hnode, hroot⟩ := hr.truncate ⟨n, ps.manifest.tags⟩ hn.le
      rw [if_pos hn, Nat.min_eq_left hn.le]
      exact ⟨_, rfl, hr', hnode, hroot⟩
    · rw [if_neg hn, take_of_length_le (Nat.le_of_not_lt hn)]
      exact ⟨ps, rfl, hr, .refl _ _ _⟩

/-! ### Calls and runs -/

/-- Calls that change a tree. -/
inductive Call where
  | extend (entries : List TreeEntry)
  | extendWithReference (entries : List (Nat × TreeEntry))
  | extendWithProof (entries : List TreeEntry) (readKeys : List B256)
  | truncate (retainedVersionCount : Nat)
  deriving DecidableEq

def Call.apply [Database DB H] [Inhabited H] (P : TreeParams) (hasher : HashTree H) (db : DB) :
    Call → Except TreeError DB
  | .extend entries => do return (← MerkleTree.extend P hasher db entries).1
  | .extendWithReference entries => do return (← MerkleTree.extendWithReference P hasher db entries).1
  | .extendWithProof entries readKeys => do
    return (← MerkleTree.extendWithProof P hasher db entries readKeys).1
  | .truncate retainedVersionCount => truncateRecentVersions db retainedVersionCount

def Call.step [Database DB H] [Inhabited H] (P : TreeParams) (hasher : HashTree H) (db : DB) (call : Call) : DB :=
  match call.apply P hasher db with
  | .ok db' => db'
  | .error _ => db

def run [Database DB H] [Inhabited H] (P : TreeParams) (hasher : HashTree H) (calls : List Call) (db : DB) : DB :=
  calls.foldl (Call.step P hasher) db

def Call.Retains (v : Nat) : Call → Prop
  | .truncate n => v < n
  | _ => True

instance (v : Nat) : DecidablePred (Call.Retains v) := fun call => by
  cases call <;> unfold Call.Retains <;> infer_instance

theorem Holds.length_lt [Database DB H] [Inhabited H] {E : Type} [AsEntry E] {db db' : DB}
    (hh : Holds P hasher nodes db hist) (hlast : ∀ c, hist.getLast? = some c → c.entries.length < u64Bound)
    {entries : List E} {keys : List B256} {w : WorkingPatchSet H} {u : TreeUpdate} {output : TreeBatchOutput H}
    (hload : loadForUpdate P db entries keys = .ok (w, u)) (h : commitUpdate P hasher db w u = .ok (db', output)) :
    (nextContents hist (entries.map AsEntry.asEntry)).entries.length < u64Bound := by
  rw [commitUpdate] at h
  obtain ⟨⟨w', final⟩, hupdate, -⟩ := bind_eq_ok.mp h
  have hbound := lt_bound_of_update hupdate
  obtain ⟨rfl, rfl, hu⟩ | ⟨c, I, J, hc, -, hp⟩ := hh.planned hload
  · obtain ⟨-, -, -, -, -, hinserts, -⟩ := forEmptyTree_eq_ok rfl hu
    have htwo := (empty.upsertAll (entries.map AsEntry.asEntry)).two_le_length
    rw [hinserts, map_eq_nil_iff, length_map, length_leaves, ← length_eq_zero_iff, length_leaves] at hbound
    change _ ∨ 0 + _ < _ at hbound
    rw [nextContents, getLast?_nil, Option.getD_none]
    omega
  · rw [nextContents, hc, Option.getD_some, length_upsertAll hp.newKeys.nodup]
    have := hlast c hc
    rw [hp.inserts, map_eq_nil_iff, length_map, hp.loaded.leafCount, length_leaves] at hbound
    rcases hbound with hnil | hlt
    · rw [hnil, length_nil, Nat.add_zero]
      exact this
    · exact hlt

/-- A state reached by calls, with its history. -/
structure Reached [Database DB H] [LawfulDatabase DB H] (P : TreeParams) (hasher : HashTree H) (db : DB)
    (hist : List Contents) : Prop where
  stores : Stores P hasher db hist
  bound : hist.length < u64Bound
  small : ∀ c ∈ hist, c.entries.length < u64Bound

namespace Reached

variable [Database DB H] [LawfulDatabase DB H] {db db' : DB}

theorem holds (hr : Reached P hasher db hist) : Holds P hasher (LawfulDatabase.node db) db hist :=
  LawfulDatabase.holds hr.stores

variable [Inhabited H]

section
variable (hr : Reached P hasher db hist)
include hr

theorem commit {E : Type} [AsEntry E] {entries : List E} {keys : List B256}
    {w : WorkingPatchSet H} {u : TreeUpdate} {output : TreeBatchOutput H}
    (hload : loadForUpdate P db entries keys = .ok (w, u)) (h : commitUpdate P hasher db w u = .ok (db', output)) :
    Reached P hasher db' (hist ++ [nextContents hist (entries.map AsEntry.asEntry)]) ∧
      Keeps LawfulDatabase.node hist.length db db' := by
  have hlt := hr.holds.length_lt (fun c hc => hr.small c (mem_of_getLast? hc)) hload h
  obtain ⟨-, J, part, patch, hc, happly⟩ := hr.holds.committed hload h
  obtain ⟨db'', happly', hs, happlied⟩ := LawfulDatabase.applyPatch hr.stores hc
  rw [happly] at happly'
  cases happly'
  refine ⟨⟨hs, by simpa using hc.bound, fun c hc => ?_⟩, happlied.keeps⟩
  rcases mem_append.mp hc with hc | hc
  · exact hr.small c hc
  · rw [mem_singleton.mp hc]
    exact hlt

theorem apply {call : Call} (h : call.apply P hasher db = .ok db') :
    ∃ hist', Reached P hasher db' hist' ∧ ∀ v, v < hist.length → call.Retains v →
      hist'[v]? = hist[v]? ∧ Keeps LawfulDatabase.node (v + 1) db db' := by
  -- All extensions load a working set and commit it.
  have hextend : ∀ {E : Type} [AsEntry E] {entries : List E} {keys : List B256} {w : WorkingPatchSet H}
      {u : TreeUpdate} {output : TreeBatchOutput H}, loadForUpdate P db entries keys = .ok (w, u) →
      commitUpdate P hasher db w u = .ok (db', output) → ∃ hist', Reached P hasher db' hist' ∧
        ∀ v, v < hist.length → hist'[v]? = hist[v]? ∧ Keeps LawfulDatabase.node (v + 1) db db' := by
    intro E _ entries keys w u output hload hcommit
    obtain ⟨hr', hkeeps⟩ := hr.commit hload hcommit
    exact ⟨_, hr', fun v hv => ⟨getElem?_append_left hv, hkeeps.mono hv⟩⟩
  cases call with
  | extend entries =>
    rw [Call.apply] at h
    obtain ⟨⟨db'', output⟩, hext, h⟩ := bind_eq_ok.mp h
    cases pure_eq_ok.mp h
    rw [extend, extendInner] at hext
    obtain ⟨⟨w, u⟩, hload, hcommit⟩ := bind_eq_ok.mp hext
    obtain ⟨hist', hr', hkeep⟩ := hextend hload hcommit
    exact ⟨hist', hr', fun v hv _ => hkeep v hv⟩
  | extendWithReference entries =>
    rw [Call.apply] at h
    obtain ⟨⟨db'', output⟩, hext, h⟩ := bind_eq_ok.mp h
    cases pure_eq_ok.mp h
    rw [extendWithReference, extendInner] at hext
    obtain ⟨⟨w, u⟩, hload, hcommit⟩ := bind_eq_ok.mp hext
    obtain ⟨hist', hr', hkeep⟩ := hextend hload hcommit
    exact ⟨hist', hr', fun v hv _ => hkeep v hv⟩
  | extendWithProof entries readKeys =>
    rw [Call.apply] at h
    obtain ⟨⟨db'', output, proof⟩, hext, h⟩ := bind_eq_ok.mp h
    cases pure_eq_ok.mp h
    rw [extendWithProof] at hext
    obtain ⟨⟨w, u⟩, hload, hext⟩ := bind_eq_ok.mp hext
    obtain ⟨proof', -, hext⟩ := bind_eq_ok.mp hext
    obtain ⟨⟨db₁, output₁⟩, hcommit, hext⟩ := bind_eq_ok.mp hext
    cases pure_eq_ok.mp hext
    obtain ⟨hist', hr', hkeep⟩ := hextend hload hcommit
    exact ⟨hist', hr', fun v hv _ => hkeep v hv⟩
  | truncate n =>
    change truncateRecentVersions db n = .ok db' at h
    rcases LawfulDatabase.truncate hr.stores n with ⟨-, e, he⟩ | ⟨db'', hok, hs, hkeeps⟩
    · rw [h] at he
      cases he
    · rw [h] at hok
      cases hok
      have hbound : (hist.take n).length < u64Bound := (length_take_le' n hist).trans_lt hr.bound
      refine ⟨hist.take n, ⟨hs, hbound, fun c hc => hr.small c (mem_of_mem_take hc)⟩, fun v hv hn => ?_⟩
      have hlt : v < n := hn
      exact ⟨by rw [getElem?_take, if_pos hlt], hkeeps.mono (by omega)⟩

theorem step (call : Call) :
    ∃ hist', Reached P hasher (call.step P hasher db) hist' ∧ ∀ v, v < hist.length → call.Retains v →
      hist'[v]? = hist[v]? ∧ Keeps LawfulDatabase.node (v + 1) db (call.step P hasher db) := by
  rw [Call.step]
  cases h : call.apply P hasher db with
  | error e => exact ⟨hist, hr, fun v _ _ => ⟨rfl, .refl _ _ _⟩⟩
  | ok db' => exact hr.apply h

/-- Along a run, a version stays the same until a call truncates it. -/
theorem run (calls : List Call) : ∃ hist', Reached P hasher (run P hasher calls db) hist' ∧
      ∀ v, v < hist.length → (∀ call ∈ calls, call.Retains v) →
        hist'[v]? = hist[v]? ∧ Keeps LawfulDatabase.node (v + 1) db (run P hasher calls db) := by
  induction calls generalizing db hist with
  | nil => exact ⟨hist, hr, fun v _ _ => ⟨rfl, .refl _ _ _⟩⟩
  | cons call calls ih =>
    obtain ⟨hist₁, hr₁, hkeep₁⟩ := hr.step call
    obtain ⟨hist', hr', hkeep⟩ := ih hr₁
    refine ⟨hist', hr', fun v hv hall => ?_⟩
    obtain ⟨hget₁, hk₁⟩ := hkeep₁ v hv (hall call mem_cons_self)
    have hv₁ : v < hist₁.length := by
      rw [getElem?_eq_getElem hv] at hget₁
      exact (List.getElem?_eq_some_iff.mp hget₁).1
    obtain ⟨hget, hk⟩ := hkeep v hv₁ fun call hc => hall call (mem_cons_of_mem _ hc)
    exact ⟨hget.trans hget₁, hk₁.trans hk⟩

end

end Reached

/-! ### Reading one version -/

def nodesUpTo (v : Nat) (nodes : NodeKey → Option (Node H)) (key : NodeKey) : Option (Node H) :=
  if key.version ≤ v ∧ 0 < key.nibbleCount then nodes key else none

theorem nodesUpTo_congr (h : ∀ key, key.version ≤ v → 0 < key.nibbleCount → nodes' key = nodes key) :
    nodesUpTo v nodes' = nodesUpTo v nodes := by
  funext key
  rw [nodesUpTo, nodesUpTo]
  split
  next hk =>
    exact h key hk.1 hk.2
  · rfl

section Reading

variable [Database DB H] {db : DB} {root : Root H}

theorem Serves.upTo (hs : Serves P hasher nodes c root db v) : Serves P hasher (nodesUpTo v nodes) c root db v where
  reads keys ns hpos hall := hs.reads keys ns hpos (hall.imp fun key n hn => by
    rw [nodesUpTo] at hn
    split at hn
    · exact hn
    · exact absurd hn (by simp))
  tree := hs.tree.frame fun key hk hpos => by rw [nodesUpTo, if_pos ⟨Nat.lt_succ_iff.mp hk, hpos⟩]
  root := hs.root
  indices := hs.indices

variable {DB' : Type} [Database DB' H] {db' : DB'}

structure SameVersion (P : TreeParams) (hasher : HashTree H) (db : DB) (db' : DB') (v : Nat) : Prop where
  same : ∃ nodes c root, Serves P hasher nodes c root db v ∧ Serves P hasher nodes c root db' v

theorem Serves.sameVersion (hs : Serves P hasher nodes c root db v) (hs' : Serves P hasher nodes' c root db' v)
    (h : ∀ key, key.version ≤ v → 0 < key.nibbleCount → nodes' key = nodes key) : SameVersion P hasher db db' v :=
  ⟨nodesUpTo v nodes, c, root, hs.upTo, nodesUpTo_congr h ▸ hs'.upTo⟩

namespace SameVersion

theorem rootInfo_eq (h : SameVersion P hasher db db' v) : rootInfo P hasher db v = rootInfo P hasher db' v := by
  obtain ⟨nodes, c, root, hs, hs'⟩ := h.same
  rw [rootInfo, rootInfo, hs.root, hs'.root]

theorem rootHash_eq (h : SameVersion P hasher db db' v) : rootHash P hasher db v = rootHash P hasher db' v := by
  obtain ⟨nodes, c, root, hs, hs'⟩ := h.same
  rw [rootHash, rootHash, hs.root, hs'.root]

theorem prove_eq (h : SameVersion P hasher db db' v) (keys : List B256) :
    prove P hasher db v keys = prove P hasher db' v keys := by
  obtain ⟨nodes, c, root, hs, hs'⟩ := h.same
  rw [prove, prove, hs.root, hs'.root, createPatch_congr hs hs']

end SameVersion

end Reading

section Read

variable [Database DB H] {db : DB} {root : Root H}

def readLeaf (P : TreeParams) (db : DB) (version index : Nat) : Except TreeError Leaf := do
  let patch ← createPatchForSingleRead P db version index
  expect "leaf is not loaded" patch.leaves[index]?

def readLeaves (P : TreeParams) (db : DB) (version : Nat) : Except TreeError (List Leaf) := do
  let some root ← Database.tryRoot db version
    | throw (.missingNode (.root version))
  (List.range root.leafCount).mapM (readLeaf P db version)

def readValue (P : TreeParams) (db : DB) (version : Nat) (key : B256) : Except TreeError (Option B256) := do
  match ← Database.indices db version [key] with
  | [.existing index] => return some (← readLeaf P db version index).value
  | _ => return none

def latestOutput (P : TreeParams) (hasher : HashTree H) (db : DB) :
    Except TreeError (Option (TreeBatchOutput H)) := do
  match ← latestVersion db with
  | none => return none
  | some version =>
    let info ← rootInfo P hasher db version
    return info.map fun (rootHash, leafCount) => ⟨rootHash, leafCount⟩

def latestValue (P : TreeParams) (db : DB) (key : B256) : Except TreeError (Option B256) := do
  match ← latestVersion db with
  | none => return none
  | some version => readValue P db version key

section
variable (hs : Serves P hasher nodes c root db v)
include hs

theorem Serves.readLeaf {i : Nat} {leaf : Leaf}
    (hi : c.leaves[i]? = some leaf) : MerkleTree.readLeaf P db v i = .ok leaf := by
  have hlt := (List.getElem?_eq_some_iff.mp hi).1
  obtain ⟨w, hload, hl⟩ := loadNodes_ok hs.tree (pairwise_singleton _ i) (by simpa using hlt)
  have hget : w.leaves[i]? = some leaf := by rw [hl.leaves i, if_pos (by simp), hi]
  simp only [MerkleTree.readLeaf, createPatchForSingleRead, hs.root, ok_bind, hload hs.reads, hget]
  rfl

theorem Serves.readLeaves : MerkleTree.readLeaves P db v = .ok c.leaves := by
  simp only [MerkleTree.readLeaves, hs.root, ok_bind]
  rw [hs.tree.1]
  refine mapM_eq_ok.mpr (forall₂_iff_get.mpr ⟨length_range, fun i h₁ h₂ => hs.readLeaf ?_⟩)
  rw [get_eq_getElem, getElem_range, get_eq_getElem, getElem?_eq_getElem h₂]

theorem Serves.readValue (k : B256) : MerkleTree.readValue P db v k = .ok (c.value? k) := by
  simp only [MerkleTree.readValue, hs.indices, ok_bind, map_cons, map_nil]
  by_cases hk : k ∈ c.keys
  · have hget : (c.leaves.map Leaf.key)[c.keys.idxOf k]? = some k := by
      rw [map_key_leaves]
      exact getElem?_idxOf hk
    rw [getElem?_map, Option.map_eq_some_iff] at hget
    obtain ⟨leaf, hleaf, rfl⟩ := hget
    rw [lookup_of_mem hk, value?_of_getElem? hleaf]
    simp only [hs.readLeaf hleaf, ok_bind]
    rfl
  · obtain ⟨p, n, -, -, hlookup⟩ := lookup_of_not_mem hk
    rw [hlookup, value?_eq_none.mpr hk]
    rfl

theorem Serves.rootInfo :
    MerkleTree.rootInfo P hasher db v = .ok (some (c.root hasher P.treeDepth, c.entries.length)) := by
  have hne : root.rootNode.children ≠ [] := by
    have h0 := (hs.tree.2.2.children.length 0).mpr ⟨maxNodeChildren_pos P, ?_⟩
    · exact ne_nil_of_length_pos h0
    · have := c.two_le_length
      simp
      omega
  have hhash : root.hash P hasher = .ok (c.root hasher P.treeDepth) := hs.tree.2.2.children.rootHash_eq hne
  simp only [MerkleTree.rootInfo, hs.root, ok_bind, hhash, hs.tree.1, length_leaves]
  rfl

end

/-! ### What the latest version shows -/

theorem Holds.latest_cases (hh : Holds P hasher nodes db hist) :
    hist = [] ∧ latestVersion db = .ok none ∨ ∃ c root, hist.getLast? = some c ∧
      latestVersion db = .ok (some (hist.length - 1)) ∧ Serves P hasher nodes c root db (hist.length - 1) := by
  cases hist using reverseRecOn with
  | nil => exact .inl ⟨rfl, hh.latest⟩
  | append_singleton hist c _ =>
    obtain ⟨root, hs⟩ := hh.serves hist.length c (by simp)
    refine .inr ⟨c, root, by simp, ?_, by simpa using hs⟩
    rw [hh.latest, if_neg (by simp)]

theorem Holds.latestOutput (hh : Holds P hasher nodes db hist) :
    latestOutput P hasher db = .ok (hist.getLast?.map (·.output hasher P.treeDepth)) := by
  obtain ⟨rfl, hl⟩ | ⟨c, root, hc, hl, hs⟩ := hh.latest_cases
  · rw [latestOutput, hl]
    rfl
  · rw [MerkleTree.latestOutput, hl, hc]
    simp only [ok_bind, hs.rootInfo]
    rfl

theorem Holds.latestValue (hh : Holds P hasher nodes db hist) (k : B256) :
    latestValue P db k = .ok (hist.getLast?.bind (·.value? k)) := by
  obtain ⟨rfl, hl⟩ | ⟨c, root, hc, hl, hs⟩ := hh.latest_cases
  · rw [latestValue, hl]
    rfl
  · rw [MerkleTree.latestValue, hl, hc]
    exact hs.readValue k

end Read

end MerkleTree
