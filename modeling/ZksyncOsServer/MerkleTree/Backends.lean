import ZksyncOsServer.MerkleTree.RocksdbHistory

/-!
# Trees over both databases

Properties of every tree that calls can reach from a fresh database, for the
in-memory patch set and for RocksDB.
-/
namespace MerkleTree

open Successor Fallible Contents

variable {H DB : Type} {P : TreeParams} {hasher : HashTree H} {hist : List Contents} {c : Contents}

theorem Reached.patchSet : Reached P hasher (PatchSet.empty : PatchSet H) [] :=
  ⟨Represents.empty, by decide, by simp⟩

theorem Reached.rocksdb : Reached P hasher (RocksDBWrapper.empty : RocksDBWrapper H) [] :=
  ⟨RocksRepresents.empty, by decide, by simp⟩

/-! ### Proofs of extensions -/

/-- In every tree reached from `init`, the proof of an extension is accepted
against the output of the previous version (unless the tree exceeds a capacity
below 64 bits), gives the new root hash and shows the previous values. -/
def ProofsVerify [Database DB H] [Inhabited H] [DecidableEq H] (P : TreeParams) (hasher : HashTree H) (init : DB) :
    Prop :=
  ∀ (calls : List Call) (db db' : DB) (entries : List TreeEntry) (readKeys : List B256)
    (output : TreeBatchOutput H) (proof : BatchTreeProof H), db = run P hasher calls init →
    extendWithProof P hasher db entries readKeys = .ok (db', output, proof) →
    ∃ previous, latestOutput P hasher db = .ok previous ∧
      ((∀ out ∈ previous, P.treeDepth < 64 → out.leafCount ≤ 2 ^ P.treeDepth) →
        ∃ view, proof.verify hasher P.treeDepth previous entries readKeys = .ok view ∧
          view.rootHash = output.rootHash ∧
          ∀ key ∈ readKeys, ∃ value, latestValue P db key = .ok value ∧ view.readEntries[key]? = some value)

variable {init db : DB}

theorem Reached.proofsVerify [Database DB H] [LawfulDatabase DB H] [Inhabited H] [DecidableEq H]
    (hinit : Reached P hasher init []) : ProofsVerify P hasher init := by
  rintro calls db db' entries readKeys output proof rfl hext
  obtain ⟨hist, hr, -⟩ := hinit.run calls
  refine ⟨_, hr.holds.latestOutput, fun hcap => ?_⟩
  have hfits : ∀ c, hist.getLast? = some c → c.entries.length ≤ 2 ^ P.treeDepth := by
    intro c hc
    rcases Nat.lt_or_ge P.treeDepth 64 with hlt | hge
    · exact hcap (c.output hasher P.treeDepth) (by simp [hc]) hlt
    · have hsmall : c.entries.length < 2 ^ 64 := hr.small c (List.mem_of_getLast? hc)
      exact hsmall.le.trans (Nat.pow_le_pow_right (by omega) hge)
  obtain ⟨view, hverify, hroot, hvalues⟩ := hr.holds.extendWithProof hfits hext
  exact ⟨view, hverify, hroot, fun key hkey => ⟨_, hr.holds.latestValue key, hvalues key hkey⟩⟩

/-- Proofs returned by `extend_with_proof` are accepted. -/
theorem extendWithProof_verifies [Inhabited H] [DecidableEq H] (P : TreeParams) (hasher : HashTree H) :
    ProofsVerify P hasher (PatchSet.empty : PatchSet H) ∧
      ProofsVerify P hasher (RocksDBWrapper.empty : RocksDBWrapper H) :=
  ⟨Reached.patchSet.proofsVerify, Reached.rocksdb.proofsVerify⟩

theorem extendWithProof_verifies_small : ∃ (db' : RocksDBWrapper Digest) (output : TreeBatchOutput Digest)
    (proof : BatchTreeProof Digest) (previous : Option (TreeBatchOutput Digest)) (view : MerkleTreeView Digest),
    extendWithProof .small Digest.hasher (run .small Digest.hasher [.extend [⟨5, 1⟩], .extend [⟨7, 1⟩], .truncate 1]
      (RocksDBWrapper.empty : RocksDBWrapper Digest)) [⟨6, 3⟩, ⟨5, 2⟩] [5, 7] = .ok (db', output, proof) ∧
    proof.verify Digest.hasher 3 previous [⟨6, 3⟩, ⟨5, 2⟩] [5, 7] = .ok view ∧ view.rootHash = output.rootHash := by
  obtain ⟨⟨db', output, proof⟩, hext⟩ := exists_of_isOk (x := extendWithProof .small Digest.hasher
    (run .small Digest.hasher [.extend [⟨5, 1⟩], .extend [⟨7, 1⟩], .truncate 1]
      (RocksDBWrapper.empty : RocksDBWrapper Digest)) [⟨6, 3⟩, ⟨5, 2⟩] [5, 7]) (by decide +kernel)
  obtain ⟨previous, hprev, hview⟩ := (extendWithProof_verifies .small Digest.hasher).2 _ _ _ _ _ _ _ rfl hext
  have hcap : (latestOutput .small Digest.hasher
      (run .small Digest.hasher [.extend [⟨5, 1⟩], .extend [⟨7, 1⟩], .truncate 1]
        (RocksDBWrapper.empty : RocksDBWrapper Digest))).toOption.join.all (fun out => decide (out.leafCount ≤ 8)) =
      true := by decide +kernel
  rw [hprev] at hcap
  obtain ⟨view, hverify, hroot, -⟩ := hview fun out hout _ => by
    cases hout
    change out.leafCount ≤ 8
    simpa [Except.toOption] using hcap
  exact ⟨db', output, proof, previous, view, hext, hverify, hroot⟩

/-! ### The linked list of leaves -/

/-- The leaves form a list linked in key order, from the first leaf to the second. -/
structure Linked (leaves : List Leaf) : Prop where
  min_key : leaves[0]?.map Leaf.key = some ⊥
  max_key : leaves[1]?.map Leaf.key = some ⊤
  max_next : leaves[1]?.map Leaf.nextIndex = some 1
  nodup : (leaves.map Leaf.key).Nodup
  walk : Walk (leaves.map Leaf.key)
    (List.iterate (fun i => (leaves[i]?.map Leaf.nextIndex).getD 0) 0 leaves.length) 1

theorem Contents.linked (c : Contents) : Linked c.leaves := by
  have hget : ∀ i : Nat, c.leaves[i]? = c.entries[i]?.map (toLeaf c.keys) := fun i => List.getElem?_map
  have hkey : ∀ i : Nat, c.leaves[i]?.map Leaf.key = c.keys[i]? := fun i => by
    rw [← List.getElem?_map, map_key_leaves]
  have hnext : ∀ (i : Nat) (k : B256), c.keys[i]? = some k →
      c.leaves[i]?.map Leaf.nextIndex = some (nextIndex c.keys k) := by
    intro i k hk
    rw [keys, List.getElem?_map, Option.map_eq_some_iff] at hk
    obtain ⟨e, he, rfl⟩ := hk
    rw [hget, he]
    rfl
  refine ⟨by rw [hkey]; exact c.min_key, by rw [hkey]; exact c.max_key, ?_, ?_, ?_⟩
  · rw [hnext 1 ⊤ c.max_key, c.nextIndex_top]
  · rw [map_key_leaves]
    exact c.keys_nodup
  · have hwalk := walk_of_links c.keys_nodup (fun i => (c.leaves[i]?.map Leaf.nextIndex).getD 0)
      (fun k hk => by rw [hnext _ k (List.getElem?_idxOf hk), Option.getD_some])
      c.bot_mem (fun k _ => bot_le) c.top_mem fun k _ => le_top
    rwa [c.idxOf_bot, c.idxOf_top, length_keys, ← length_leaves, ← map_key_leaves] at hwalk

/-- In every tree reached from `init`, the leaves of all versions are linked. -/
def VersionsLinked [Database DB H] [Inhabited H] (P : TreeParams) (hasher : HashTree H) (init : DB) : Prop :=
  ∀ (calls : List Call) (db : DB) (manifest : Manifest) (v : Nat), db = run P hasher calls init →
    Database.tryManifest db = .ok (some manifest) → v < manifest.versionCount →
    ∃ leaves, readLeaves P db v = .ok leaves ∧ Linked leaves

theorem Holds.versionCount_eq [Database DB H] {nodes : NodeKey → Option (Node H)}
    (hh : Holds P hasher nodes db hist) {manifest : Manifest}
    (hm : Database.tryManifest db = .ok (some manifest)) : manifest.versionCount = hist.length := by
  have hl := hh.latest
  rw [latestVersion, hm, ok_bind] at hl
  have := Except.ok.inj hl
  split at this <;> split at this <;> simp at this <;> omega

theorem Reached.versionsLinked [Database DB H] [LawfulDatabase DB H] [Inhabited H]
    (hinit : Reached P hasher init []) : VersionsLinked P hasher init := by
  rintro calls db manifest v rfl hm hv
  obtain ⟨hist, hr, -⟩ := hinit.run calls
  rw [hr.holds.versionCount_eq hm] at hv
  obtain ⟨root, hs⟩ := hr.holds.serves v hist[v] (List.getElem?_eq_getElem hv)
  exact ⟨_, hs.readLeaves, linked _⟩

/-- The leaves of every version are linked in key order. -/
theorem versions_linked [Inhabited H] (P : TreeParams) (hasher : HashTree H) :
    VersionsLinked P hasher (PatchSet.empty : PatchSet H) ∧
      VersionsLinked P hasher (RocksDBWrapper.empty : RocksDBWrapper H) :=
  ⟨Reached.patchSet.versionsLinked, Reached.rocksdb.versionsLinked⟩

theorem versions_linked_small : ∃ leaves, readLeaves .small (run .small Digest.hasher
      [.extend [⟨5, 1⟩], .extend [⟨7, 1⟩], .truncate 1, .extend [⟨7, 2⟩, ⟨6, 1⟩]]
      (RocksDBWrapper.empty : RocksDBWrapper Digest)) 1 = .ok leaves ∧ Linked leaves :=
  (versions_linked .small Digest.hasher).2 _ _ ⟨2, TreeTags.forParams .small Digest.hasher⟩ 1 rfl
    (by decide +kernel) (by decide)

/-! ### Historic versions -/

/-- In every tree reached from `init`, what is read of a version stays the same
under calls that do not truncate it. -/
def HistoryKept [Database DB H] [Inhabited H] (P : TreeParams) (hasher : HashTree H) (init : DB) : Prop :=
  ∀ (calls later : List Call) (db : DB) (latest v : Nat), db = run P hasher calls init →
    latestVersion db = .ok (some latest) → v ≤ latest → (∀ call ∈ later, call.Retains v) →
    rootInfo P hasher (run P hasher later db) v = rootInfo P hasher db v ∧
      ∀ keys, prove P hasher (run P hasher later db) v keys = prove P hasher db v keys

theorem Holds.lt_of_le_latest [Database DB H] {nodes : NodeKey → Option (Node H)}
    (hh : Holds P hasher nodes db hist) {latest v : Nat} (hl : latestVersion db = .ok (some latest)) (hv : v ≤ latest) :
    v < hist.length := by
  have hlatest := hh.latest
  rw [hl] at hlatest
  split at hlatest
  · exact absurd hlatest (by simp)
  · have := Option.some.inj (Except.ok.inj hlatest)
    omega

theorem Reached.sameVersion [Database DB H] [LawfulDatabase DB H] [Inhabited H]
    (hr : Reached P hasher db hist) {later : List Call} {v : Nat} (hv : v < hist.length)
    (hretains : ∀ call ∈ later, call.Retains v) : SameVersion P hasher (MerkleTree.run P hasher later db) db v := by
  obtain ⟨hist', hr', hkeep⟩ := hr.run later
  obtain ⟨hget, hkeeps⟩ := hkeep v hv hretains
  have hc : hist[v]? = some hist[v] := List.getElem?_eq_getElem hv
  obtain ⟨root, hs⟩ := hr.holds.serves v _ hc
  obtain ⟨root', hs'⟩ := hr'.holds.serves v _ (hget.trans hc)
  have hroot : root' = root := by
    have := hs'.root.symm.trans ((hkeeps.root v (Nat.lt_succ_self v)).trans hs.root)
    exact Option.some.inj (Except.ok.inj this)
  subst hroot
  exact hs'.sameVersion hs fun key hk _ => (hkeeps.node key (Nat.lt_succ_iff.mpr hk)).symm

theorem Reached.historyKept [Database DB H] [LawfulDatabase DB H] [Inhabited H]
    (hinit : Reached P hasher init []) : HistoryKept P hasher init := by
  rintro calls later db latest v rfl hl hv hretains
  obtain ⟨hist, hr, -⟩ := hinit.run calls
  have hsame := hr.sameVersion (hr.holds.lt_of_le_latest hl hv) hretains
  exact ⟨hsame.rootInfo_eq, hsame.prove_eq⟩

/-- Historic versions are immutable. -/
theorem history_kept [Inhabited H] (P : TreeParams) (hasher : HashTree H) :
    HistoryKept P hasher (PatchSet.empty : PatchSet H) ∧
      HistoryKept P hasher (RocksDBWrapper.empty : RocksDBWrapper H) :=
  ⟨Reached.patchSet.historyKept, Reached.rocksdb.historyKept⟩

theorem history_kept_small : rootInfo .small Digest.hasher (run .small Digest.hasher
        [.extend [⟨7, 1⟩], .truncate 1, .extend [⟨7, 2⟩, ⟨6, 1⟩]]
        (run .small Digest.hasher [.extend [⟨5, 1⟩]] (RocksDBWrapper.empty : RocksDBWrapper Digest))) 0 =
      rootInfo .small Digest.hasher
        (run .small Digest.hasher [.extend [⟨5, 1⟩]] (RocksDBWrapper.empty : RocksDBWrapper Digest)) 0 :=
  ((history_kept .small Digest.hasher).2 _ _ _ 0 0 rfl (by decide +kernel) le_rfl (by decide)).1

end MerkleTree
