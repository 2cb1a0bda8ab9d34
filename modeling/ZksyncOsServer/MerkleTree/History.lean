import ZksyncOsServer.MerkleTree.Extend

/-!
# Histories of versions

The abstract tree is the list of the contents of its versions. `Holds` says that
a database serves such a history, `Represents` is the invariant of a `PatchSet`
from which it follows. Extending a tree appends the upserted contents, truncating
it drops the latest ones.
-/
namespace MerkleTree

open BinaryMerkle Contents Fallible List Successor SortedMap PatchSet
open LevelWalk (withNew mem_withNew)

variable {H DB E : Type} {P : TreeParams} {hasher : HashTree H} {nodes : NodeKey → Option (Node H)}
  {hist : List Contents} {c : Contents} {es : List TreeEntry} {v : Nat}

def nextContents (hist : List Contents) (es : List TreeEntry) : Contents :=
  (hist.getLast?.getD Contents.empty).upsertAll es

def latestLeaves (hist : List Contents) : List Leaf := (hist.getLast?.map Contents.leaves).getD []

theorem getElem?_append_singleton {c' : Contents} (h : (hist ++ [c'])[v]? = some c) :
    v < hist.length ∧ hist[v]? = some c ∨ v = hist.length ∧ c = c' := by
  rcases Nat.lt_or_ge v hist.length with hlt | hge
  · rw [getElem?_append_left hlt] at h
    exact .inl ⟨hlt, h⟩
  · rw [getElem?_append_right hge, getElem?_singleton] at h
    split at h
    · exact .inr ⟨by omega, (Option.some.inj h).symm⟩
    · exact absurd h (by simp)

/-! ### Databases that serve a history -/

structure Holds [Database DB H] (P : TreeParams) (hasher : HashTree H) (nodes : NodeKey → Option (Node H)) (db : DB)
    (hist : List Contents) : Prop where
  latest : latestVersion db = .ok (if hist.length = 0 then none else some (hist.length - 1))
  serves : ∀ v c, hist[v]? = some c → ∃ root, Serves P hasher nodes c root db v

variable {db : DB} {entries : List E} {keys : List B256} {w : WorkingPatchSet H} {u : TreeUpdate}

theorem Holds.planned [Database DB H] [AsEntry E] (hh : Holds P hasher nodes db hist)
    (h : loadForUpdate P db entries keys = .ok (w, u)) :
    hist = [] ∧ w = WorkingPatchSet.empty P ∧ TreeUpdate.forEmptyTree entries = .ok u ∨
      ∃ c I J, hist.getLast? = some c ∧ c.leaves.length ≤ span P (leafNibbles P) ∧
        Planned P hasher nodes c hist.length (entries.map AsEntry.asEntry) keys I J w u := by
  rw [loadForUpdate, hh.latest, ok_bind] at h
  cases hist using reverseRecOn with
  | nil =>
    simp only [length_nil, if_true] at h
    obtain ⟨u', hu, h⟩ := bind_eq_ok.mp h
    cases pure_eq_ok.mp h
    exact .inl ⟨rfl, rfl, hu⟩
  | append_singleton hist c _ =>
    obtain ⟨root, hs⟩ := hh.serves hist.length c (by simp)
    simp only [length_append, length_singleton, Nat.add_eq_zero_iff, one_ne_zero, and_false, if_false,
      Nat.add_sub_cancel] at h
    obtain ⟨I, J, hp⟩ := createPatch_eq_ok hs h
    exact .inr ⟨c, I, J, by simp, hs.tree.2.1, by simpa using hp⟩

theorem Holds.prepared [Database DB H] [AsEntry E] (hh : Holds P hasher nodes db hist)
    (h : loadForUpdate P db entries keys = .ok (w, u)) : ∃ I J, Prepared P hasher nodes hist.length (latestLeaves hist)
      (nextContents hist (entries.map AsEntry.asEntry)) I J w u := by
  obtain ⟨rfl, rfl, hu⟩ | ⟨c, I, J, hc, hfits, hp⟩ := hh.planned h
  · exact ⟨[], [], prepared_empty rfl hu⟩
  · refine ⟨I, J, ?_⟩
    rw [nextContents, latestLeaves, hc]
    exact hp.prepared hfits

theorem Holds.committed [Database DB H] [AsEntry E] [Inhabited H] {db' : DB} (hh : Holds P hasher nodes db hist) {output : TreeBatchOutput H}
    (hload : loadForUpdate P db entries keys = .ok (w, u)) (h : commitUpdate P hasher db w u = .ok (db', output)) :
    output = (nextContents hist (entries.map AsEntry.asEntry)).output hasher P.treeDepth ∧
      ∃ J part patch, Committed P hasher nodes hist.length (latestLeaves hist)
        (nextContents hist (entries.map AsEntry.asEntry)) J part patch ∧ Database.applyPatch db patch = .ok db' := by
  obtain ⟨I, J, hp⟩ := hh.prepared hload
  rw [commitUpdate] at h
  obtain ⟨⟨w', final⟩, hu, h⟩ := bind_eq_ok.mp h
  obtain ⟨⟨patch, output'⟩, hf, h⟩ := bind_eq_ok.mp h
  obtain ⟨db'', happly, h⟩ := bind_eq_ok.mp h
  cases pure_eq_ok.mp h
  obtain ⟨hout, part, hc⟩ := hp.committed hu hf
  exact ⟨hout, _, part, patch, hc, happly⟩

theorem Holds.extend [Database DB H] [Inhabited H] {db' : DB} (hh : Holds P hasher nodes db hist)
    {output : TreeBatchOutput H} (h : extend P hasher db es = .ok (db', output)) :
    output = (nextContents hist es).output hasher P.treeDepth ∧
      ∃ J part patch, Committed P hasher nodes hist.length (latestLeaves hist) (nextContents hist es) J part patch ∧
        Database.applyPatch db patch = .ok db' := by
  rw [MerkleTree.extend, extendInner] at h
  obtain ⟨⟨w, u⟩, hload, h⟩ := bind_eq_ok.mp h
  have hes : es.map AsEntry.asEntry = es := map_id es
  have := hh.committed hload h
  rwa [hes] at this

/-! ### The key index -/

/-- The key index of all versions: restricted to a version, it holds the keys of
that version with their positions. -/
structure KeyIndexed (hist : List Contents) (m : Map B256 InsertedKeyEntry) : Prop where
  lt : ∀ (k : B256) (e : InsertedKeyEntry), m[k]? = some e → e.insertedAt < hist.length
  get : ∀ (v : Nat) (c : Contents), hist[v]? = some c → ∀ (k : B256) (i : Nat),
    (∃ e, m[k]? = some e ∧ e.insertedAt ≤ v ∧ e.index = i) ↔ c.keys[i]? = some k

namespace KeyIndexed

variable {m m' : Map B256 InsertedKeyEntry}

theorem mem_iff (hm : KeyIndexed hist m) (hc : hist[v]? = some c) (k : B256) :
    (∃ e, m[k]? = some e ∧ e.insertedAt ≤ v) ↔ k ∈ c.keys := by
  rw [mem_iff_getElem?]
  constructor
  · rintro ⟨e, he, hv⟩
    exact ⟨e.index, (hm.get v c hc k e.index).mp ⟨e, he, hv, rfl⟩⟩
  · rintro ⟨i, hi⟩
    obtain ⟨e, he, hv, -⟩ := (hm.get v c hc k i).mpr hi
    exact ⟨e, he, hv⟩

theorem index_eq (hm : KeyIndexed hist m) (hc : hist[v]? = some c) {k : B256} {e : InsertedKeyEntry}
    (he : m[k]? = some e) (hv : e.insertedAt ≤ v) : e.index = c.keys.idxOf k :=
  (((c.getElem?_keys_iff _ _).mp ((hm.get v c hc k e.index).mp ⟨e, he, hv, rfl⟩)).2).symm

theorem first_eq (hm : KeyIndexed hist m) (hc : hist[v]? = some c) {q : B256 → Bool} {n : B256} (hn : n ∈ c.keys)
    (hq : q n = true) (hleast : ∀ k ∈ c.keys, q k = true → n ≤ k) :
    (first m fun k e => q k && e.insertedAt ≤ v).map (fun e => (e.1, e.2.index)) = some (n, c.keys.idxOf n) := by
  obtain ⟨e, he, hv⟩ := (hm.mem_iff hc n).mpr hn
  rw [first_of_least he (by simp [hq, hv]) fun k e' he' hp => ?_]
  · rw [Option.map_some, hm.index_eq hc he hv]
  · rw [Bool.and_eq_true, decide_eq_true_eq] at hp
    exact hleast k ((hm.mem_iff hc k).mp ⟨e', he', hp.2⟩) hp.1

theorem last_eq (hm : KeyIndexed hist m) (hc : hist[v]? = some c) {q : B256 → Bool} {p : B256} (hp : p ∈ c.keys)
    (hq : q p = true) (hgreatest : ∀ k ∈ c.keys, q k = true → k ≤ p) :
    (last m fun k e => q k && e.insertedAt ≤ v).map (fun e => (e.1, e.2.index)) = some (p, c.keys.idxOf p) := by
  obtain ⟨e, he, hv⟩ := (hm.mem_iff hc p).mpr hp
  rw [last_of_greatest he (by simp [hq, hv]) fun k e' he' hp => ?_]
  · rw [Option.map_some, hm.index_eq hc he hv]
  · rw [Bool.and_eq_true, decide_eq_true_eq] at hp
    exact hgreatest k ((hm.mem_iff hc k).mp ⟨e', he', hp.2⟩) hp.1

theorem first_of_mem (hm : KeyIndexed hist m) (hc : hist[v]? = some c) {k : B256} (hk : k ∈ c.keys) :
    (first m fun k' e => k ≤ k' && e.insertedAt ≤ v).map (fun e => (e.1, e.2.index)) = some (k, c.keys.idxOf k) :=
  hm.first_eq hc (q := fun k' => k ≤ k') hk (by simp) fun _ _ hle => of_decide_eq_true hle

theorem first_of_isNext (hm : KeyIndexed hist m) (hc : hist[v]? = some c) {k n : B256} (hk : k ∉ c.keys)
    (hn : IsNext c.keys k n) : (first m fun k' e => k ≤ k' && e.insertedAt ≤ v).map (fun e => (e.1, e.2.index)) =
      some (n, c.keys.idxOf n) := by
  refine hm.first_eq hc (q := fun k' => k ≤ k') hn.mem (decide_eq_true hn.lt.le) fun k' hk' hle => ?_
  exact hn.least k' hk' (lt_of_le_of_ne (of_decide_eq_true hle) fun he => hk (he ▸ hk'))

theorem index_eq_lookup (ps : PatchSet H) (hm : KeyIndexed hist ps.sortedNewLeaves) (hc : hist[v]? = some c)
    (k : B256) : ps.index v k = c.lookup k := by
  rw [index]
  by_cases hk : k ∈ c.keys
  · rw [hm.first_of_mem hc hk, lookup_of_mem hk]
    simp
  · obtain ⟨p, n, hp, hn, hlookup⟩ := lookup_of_not_mem hk
    have hprev := hm.last_eq hc (q := fun k' => k' < k) hp.mem (decide_eq_true hp.lt)
      fun k' hk' hlt => hp.greatest k' hk' (of_decide_eq_true hlt)
    rw [hm.first_of_isNext hc hk hn, hlookup, hprev]
    simp [hn.lt.ne']

theorem get_latest (hm : KeyIndexed hist m) (k : B256) (i : Nat) :
    (∃ e, m[k]? = some e ∧ e.index = i) ↔ ((latestLeaves hist).map Leaf.key)[i]? = some k := by
  cases hist using reverseRecOn with
  | nil =>
    constructor
    · rintro ⟨e, he, -⟩
      exact absurd (hm.lt k e he) (by simp)
    · intro h
      exact absurd h (by simp [latestLeaves])
  | append_singleton hist last _ =>
    have hleaves : latestLeaves (hist ++ [last]) = last.leaves := by simp [latestLeaves]
    rw [hleaves, map_key_leaves, ← hm.get hist.length last (by simp) k i]
    constructor
    · rintro ⟨e, he, hi⟩
      have := hm.lt k e he
      rw [length_append, length_singleton] at this
      exact ⟨e, he, by omega, hi⟩
    · rintro ⟨e, he, -, hi⟩
      exact ⟨e, he, hi⟩

theorem append (hm : KeyIndexed hist m) {c' : Contents}
    (hold : ∀ i, i < (latestLeaves hist).length → c'.keys[i]? = (latestLeaves hist)[i]?.map Leaf.key)
    (hnew : IndexedFrom hist.length (latestLeaves hist).length c' m') :
    KeyIndexed (hist ++ [c']) (m.insertMany m'.toList) := by
  -- An old entry points to an old position, where the key stays.
  have hkeep : ∀ (k : B256) (e : InsertedKeyEntry), m[k]? = some e →
      e.index < (latestLeaves hist).length ∧ c'.keys[e.index]? = some k := by
    intro k e he
    have hget := (hm.get_latest k e.index).mp ⟨e, he, rfl⟩
    have hlt := (List.getElem?_eq_some_iff.mp hget).1
    rw [length_map] at hlt
    rw [hold _ hlt, ← getElem?_map]
    exact ⟨hlt, hget⟩
  have hdisjoint : ∀ (k : B256) (e : InsertedKeyEntry), m[k]? = some e → m'[k]? = none := by
    intro k e he
    obtain ⟨hlt, hget⟩ := hkeep k e he
    cases hk : m'[k]? with
    | none => rfl
    | some e' =>
      obtain ⟨-, hle, hget'⟩ := (hnew k e').mp hk
      have h₁ := ((c'.getElem?_keys_iff _ _).mp hget).2
      have h₂ := ((c'.getElem?_keys_iff _ _).mp hget').2
      omega
  have hget : ∀ (k : B256) (e : InsertedKeyEntry),
      (m.insertMany m'.toList)[k]? = some e ↔ m[k]? = some e ∨ m'[k]? = some e := by
    intro k e
    rw [getElem?_insertMany_toList]
    cases hk : m[k]? with
    | none => simp
    | some e' => simp [hdisjoint k e' hk]
  refine ⟨fun k e he => ?_, fun v c hc k i => ?_⟩
  · rw [length_append, length_singleton]
    rcases (hget k e).mp he with he | he
    · have := hm.lt k e he
      omega
    · have := ((hnew k e).mp he).1
      omega
  · obtain ⟨hv, hc⟩ | ⟨rfl, rfl⟩ := getElem?_append_singleton hc
    · rw [← hm.get v c hc k i]
      refine exists_congr fun e => and_congr_left fun hle => ?_
      rw [hget]
      refine or_iff_left fun he => ?_
      have := ((hnew k e).mp he).1
      omega
    · constructor
      · rintro ⟨e, he, -, rfl⟩
        rcases (hget k e).mp he with he | he
        · exact (hkeep k e he).2
        · exact ((hnew k e).mp he).2.2
      · intro hi
        rcases Nat.lt_or_ge i (latestLeaves hist).length with hlt | hle
        · rw [hold i hlt, ← getElem?_map] at hi
          obtain ⟨e, he, hidx⟩ := (hm.get_latest k i).mpr hi
          exact ⟨e, (hget k e).mpr (.inl he), (hm.lt k e he).le, hidx⟩
        · exact ⟨⟨i, hist.length⟩, (hget k _).mpr (.inr ((hnew k _).mpr ⟨rfl, hle, hi⟩)), le_rfl, rfl⟩

theorem take (hm : KeyIndexed hist m) {n : Nat} (hn : n ≤ hist.length)
    (hm' : ∀ (k : B256) (e : InsertedKeyEntry), m'[k]? = some e ↔ m[k]? = some e ∧ e.insertedAt < n) :
    KeyIndexed (hist.take n) m' := by
  refine ⟨fun k e he => ?_, fun v c hc k i => ?_⟩
  · rw [length_take, Nat.min_eq_left hn]
    exact ((hm' k e).mp he).2
  · rw [getElem?_take] at hc
    split at hc
    next hv =>
      rw [← hm.get v c hc k i]
      refine exists_congr fun e => and_congr_left fun hle => ?_
      rw [hm' k e]
      exact and_iff_left (hle.1.trans_lt hv)
    · exact absurd hc (by simp)

end KeyIndexed

/-! ### Patch sets -/

structure Represents (P : TreeParams) (hasher : HashTree H) (ps : PatchSet H) (hist : List Contents) : Prop where
  count : ps.manifest.versionCount = hist.length
  bound : hist.length < u64Bound
  parts : ∀ (v : Nat) (part : PartialPatchSet H), ps.patchesByVersion[v]? = some part → v < hist.length
  trees : ∀ v c, hist[v]? = some c → ∃ root, ps.tryRoot v = .ok (some root) ∧
    StoredTree P hasher ps.node (v + 1) c.leaves root
  keys : KeyIndexed hist ps.sortedNewLeaves

theorem reads_patchSet (ps : PatchSet H) : Reads ps ps.node := by
  intro keys ns hpos hall
  refine mapM_eq_ok.mpr (((forall₂_and_left _ _).mpr ⟨hpos, hall⟩).imp fun key n hn => ?_)
  rw [tryNode, assert, if_pos hn.1, ok_bind, hn.2]
  rfl

namespace Represents

variable {ps ps' : PatchSet H}

theorem empty : Represents P hasher (empty : PatchSet H) [] :=
  ⟨rfl, by decide, by simp [PatchSet.empty], by simp, ⟨by simp [PatchSet.empty], by simp⟩⟩

theorem holds (hr : Represents P hasher ps hist) : Holds P hasher ps.node ps hist where
  latest := by
    change (Except.ok ps.tryManifest >>= _) = _
    rw [ok_bind, tryManifest, hr.count]
    by_cases h0 : hist.length = 0
    · rw [if_pos h0, if_pos h0]
      rfl
    · rw [if_neg h0, if_neg h0]
      simp only [hr.count, if_neg h0]
      rfl
  serves v c hc := by
    obtain ⟨root, hroot, htree⟩ := hr.trees v c hc
    refine ⟨root, reads_patchSet ps, htree, hroot, fun keys => ?_⟩
    exact congrArg Except.ok (map_congr_left fun k _ => hr.keys.index_eq_lookup ps hc k)

variable {c' : Contents} {J : List Nat} {part : PartialPatchSet H} {patch : PatchSet H}

theorem exists_applyPatch (hr : Represents P hasher ps hist)
    (hc : Committed P hasher ps.node hist.length (latestLeaves hist) c' J part patch) :
    ∃ ps', ps.applyPatch patch = .ok ps' := by
  have hle : ps.manifest.versionCount ≤ patch.manifest.versionCount := by
    rw [hr.count, hc.manifest]
    exact Nat.le_succ _
  rw [applyPatch, ensure, if_pos hle, ok_bind]
  exact ⟨_, rfl⟩

theorem getElem?_applyPatch
    (hc : Committed P hasher nodes v (latestLeaves hist) c' J part patch) (h : ps.applyPatch patch = .ok ps')
    (v' : Nat) : ps'.patchesByVersion[v']? = if v' = v then some part else ps.patchesByVersion[v']? := by
  rw [PatchSet.applyPatch] at h
  obtain ⟨_, -, h⟩ := bind_eq_ok.mp h
  cases pure_eq_ok.mp h
  rw [SortedMap.getElem?_insertMany_toList, hc.parts, SortedMap.getElem?_insert]
  by_cases hv : v' = v
  · simp [hv]
  · simp [hv]

theorem applyPatch (hr : Represents P hasher ps hist)
    (hc : Committed P hasher ps.node hist.length (latestLeaves hist) c' J part patch)
    (h : ps.applyPatch patch = .ok ps') :
    Represents P hasher ps' (hist ++ [c']) ∧ (∀ key, key.version < hist.length → ps'.node key = ps.node key) ∧
      ∀ v, v < hist.length → ps'.tryRoot v = ps.tryRoot v := by
  have hparts := getElem?_applyPatch hc h
  rw [PatchSet.applyPatch] at h
  obtain ⟨_, -, h⟩ := bind_eq_ok.mp h
  cases pure_eq_ok.mp h
  set ps' : PatchSet H := ⟨patch.manifest, ps.patchesByVersion.insertMany patch.patchesByVersion.toList,
    ps.sortedNewLeaves.insertMany patch.sortedNewLeaves.toList⟩
  have hnode : ∀ key, key.version < hist.length → ps'.node key = ps.node key := by
    intro key hlt
    rw [PatchSet.node, hparts, if_neg hlt.ne, PatchSet.node]
  have hroot : ∀ v, v < hist.length → ps'.tryRoot v = ps.tryRoot v := by
    intro v hlt
    rw [PatchSet.tryRoot, hparts, if_neg hlt.ne, PatchSet.tryRoot]
  refine ⟨⟨?_, ?_, fun v part' hv => ?_, fun v c hv => ?_, hr.keys.append hc.oldKeys hc.newKeys⟩, hnode, hroot⟩
  · change patch.manifest.versionCount = _
    rw [hc.manifest, length_append, length_singleton]
  · rw [length_append, length_singleton]
    exact hc.bound
  · rw [length_append, length_singleton]
    rw [hparts] at hv
    split at hv
    · omega
    · have := hr.parts v part' hv
      omega
  · obtain ⟨hlt, hv⟩ | ⟨rfl, rfl⟩ := getElem?_append_singleton hv
    · obtain ⟨root, hroot', htree⟩ := hr.trees v c hv
      exact ⟨root, (hroot v hlt).trans hroot', htree.frame fun key hk _ => hnode key (by omega)⟩
    · obtain ⟨root, hpart, htree⟩ := hc.storedTree ⟨fun key hk _ => hnode key hk, fun key hk _ => by
        rw [PatchSet.node, hparts, hk, if_pos rfl]
        rfl⟩
      refine ⟨root, ?_, htree⟩
      rw [tryRoot, hparts, if_pos rfl]
      simp only [hpart, ok_bind]
      rfl

theorem truncate (hr : Represents P hasher ps hist) (manifest : Manifest) (hn : manifest.versionCount ≤ hist.length) :
    Represents P hasher (ps.truncate manifest) (hist.take manifest.versionCount) ∧
      (∀ key, key.version < manifest.versionCount → (ps.truncate manifest).node key = ps.node key) ∧
      ∀ v, v < manifest.versionCount → (ps.truncate manifest).tryRoot v = ps.tryRoot v := by
  have hparts : ∀ v, v < manifest.versionCount →
      (ps.truncate manifest).patchesByVersion[v]? = ps.patchesByVersion[v]? := by
    intro v hv
    ext part
    rw [PatchSet.truncate, SortedMap.getElem?_filter, decide_eq_true_eq, and_iff_left hv]
  have hnode : ∀ key, key.version < manifest.versionCount → (ps.truncate manifest).node key = ps.node key := by
    intro key hlt
    rw [PatchSet.node, hparts _ hlt, PatchSet.node]
  have hroot : ∀ v, v < manifest.versionCount → (ps.truncate manifest).tryRoot v = ps.tryRoot v := by
    intro v hlt
    rw [tryRoot, hparts v hlt, tryRoot]
  have hlen : (hist.take manifest.versionCount).length = manifest.versionCount := by
    rw [length_take, Nat.min_eq_left hn]
  refine ⟨⟨hlen.symm, ?_, fun v part hv => ?_, fun v c hv => ?_, hr.keys.take hn fun k e => ?_⟩, hnode, hroot⟩
  · rw [hlen]
    exact hn.trans_lt hr.bound
  · rw [hlen]
    rw [PatchSet.truncate, SortedMap.getElem?_filter, decide_eq_true_eq] at hv
    exact hv.2
  · have hlt : v < manifest.versionCount := hlen ▸ (List.getElem?_eq_some_iff.mp hv).1
    rw [getElem?_take, if_pos hlt] at hv
    obtain ⟨root, hroot', htree⟩ := hr.trees v c hv
    exact ⟨root, (hroot v hlt).trans hroot', htree.frame fun key hk _ => hnode key (by omega)⟩
  · rw [PatchSet.truncate, SortedMap.getElem?_filter, decide_eq_true_eq]

variable [Inhabited H]

theorem extend (hr : Represents P hasher ps hist) {output : TreeBatchOutput H}
    (h : extend P hasher ps es = .ok (ps', output)) :
    output = (nextContents hist es).output hasher P.treeDepth ∧
      Represents P hasher ps' (hist ++ [nextContents hist es]) := by
  obtain ⟨hout, J, part, patch, hc, happly⟩ := hr.holds.extend h
  exact ⟨hout, (hr.applyPatch hc happly).1⟩

end Represents

/-! ### Runs of `extend` -/

def extendAll [Database DB H] [Inhabited H] (P : TreeParams) (hasher : HashTree H) :
    List (List TreeEntry) → DB → Except TreeError DB
  | [], db => .ok db
  | entries :: batches, db => do
    let (db, _) ← extend P hasher db entries
    extendAll P hasher batches db

theorem extendAll_append [Database DB H] [Inhabited H] (batches batches' : List (List TreeEntry)) (db : DB) :
    extendAll P hasher (batches ++ batches') db = extendAll P hasher batches db >>= extendAll P hasher batches' := by
  induction batches generalizing db with
  | nil => rfl
  | cons entries batches ih =>
    rw [cons_append, extendAll, extendAll, bind_assoc]
    exact congrArg _ (funext fun x => ih x.1)

theorem upsertAll_append (c : Contents) (es es' : List TreeEntry) :
    c.upsertAll (es ++ es') = (c.upsertAll es).upsertAll es' := foldl_append

theorem nextContents_append (hist : List Contents) (es es' : List TreeEntry) :
    nextContents (hist ++ [nextContents hist es]) es' = nextContents hist (es ++ es') := by
  simp [nextContents, upsertAll_append]

theorem Represents.extendAll [Inhabited H] {ps ps' : PatchSet H} {batches : List (List TreeEntry)}
    (hr : Represents P hasher ps hist) (h : extendAll P hasher batches ps = .ok ps') :
    ∃ hist', Represents P hasher ps' hist' ∧
      ∀ es, nextContents hist' es = nextContents hist (batches.flatten ++ es) := by
  induction batches generalizing ps hist with
  | nil =>
    cases h
    exact ⟨hist, hr, fun es => rfl⟩
  | cons entries batches ih =>
    rw [extendAll] at h
    obtain ⟨⟨ps₁, output⟩, hext, h⟩ := bind_eq_ok.mp h
    obtain ⟨hist', hr', hnext⟩ := ih (hr.extend hext).2 h
    refine ⟨hist', hr', fun es => ?_⟩
    rw [hnext, nextContents_append, flatten_cons, append_assoc]

theorem length_upsertAll_empty (es : List TreeEntry) :
    (empty.upsertAll es).entries.length = 2 + ((es.map TreeEntry.key).toFinset \ {⊥, ⊤}).card := by
  have hset : (Contents.empty.upsertAll es).keys.toFinset = (es.map TreeEntry.key).toFinset ∪ {⊥, ⊤} := by
    ext k
    rw [mem_toFinset, mem_keys_upsertAll]
    simp [Contents.empty, Contents.keys, TreeEntry.minGuard, TreeEntry.maxGuard, or_comm, or_assoc]
  have hguards : ({⊥, ⊤} : Finset B256).card = 2 := Finset.card_pair (by decide)
  rw [← length_keys, ← toFinset_card_of_nodup (keys_nodup _), hset, ← Finset.card_sdiff_add_card, hguards,
    Nat.add_comm]

/-- After any run of successful extensions of an empty patch set, the returned
root hash is that of the plain Merkle tree of all entries upserted in order. -/
theorem extend_refines_contents [Inhabited H] {batches : List (List TreeEntry)} {entries : List TreeEntry}
    {db db' : PatchSet H} {output : TreeBatchOutput H}
    (hrun : extendAll P hasher batches (PatchSet.empty : PatchSet H) = .ok db)
    (hlast : extend P hasher db entries = .ok (db', output)) :
    output.rootHash = (Contents.empty.upsertAll (batches.flatten ++ entries)).root hasher P.treeDepth ∧
      output.leafCount = 2 + (((batches.flatten ++ entries).map TreeEntry.key).toFinset \ {⊥, ⊤}).card := by
  obtain ⟨hist, hr, hnext⟩ := Represents.empty.extendAll hrun
  obtain ⟨rfl, -⟩ := hr.extend hlast
  rw [hnext]
  exact ⟨rfl, length_upsertAll_empty _⟩

theorem extend_refines_contents_small : ∃ (db db' : PatchSet Digest) (output : TreeBatchOutput Digest),
    extendAll .small Digest.hasher [[⟨5, 1⟩], [⟨7, 1⟩, ⟨3, 2⟩]] (PatchSet.empty : PatchSet Digest) = .ok db ∧
    extend .small Digest.hasher db [⟨5, 4⟩, ⟨4, 1⟩] = .ok (db', output) ∧ output.rootHash =
      (Contents.empty.upsertAll [⟨5, 1⟩, ⟨7, 1⟩, ⟨3, 2⟩, ⟨5, 4⟩, ⟨4, 1⟩]).root Digest.hasher 3 := by
  have hok : (extendAll .small Digest.hasher ([[⟨5, 1⟩], [⟨7, 1⟩, ⟨3, 2⟩]] ++ [[⟨5, 4⟩, ⟨4, 1⟩]])
    (empty : PatchSet Digest)).isOk = true := by decide +kernel
  obtain ⟨db', h⟩ := exists_of_isOk hok
  rw [extendAll_append] at h
  obtain ⟨db, hrun, h⟩ := bind_eq_ok.mp h
  obtain ⟨⟨db'', output⟩, hlast, -⟩ := bind_eq_ok.mp h
  exact ⟨db, db'', output, hrun, hlast, (extend_refines_contents hrun hlast).1⟩

end MerkleTree
