import ZksyncOsServer.MerkleTree.Create
import ZksyncOsServer.MerkleTree.Folding

/-!
# Verifying operations against revealed leaves

What the checks of `BatchTreeProof::verify` establish when the revealed leaves
are leaves of the tree: every operation is the result of looking its key up, and
the leaves expanded by the entries are those of the new contents.
-/
namespace MerkleTree

open Contents Fallible List Successor BatchTreeProof KeyLookup SortedMap
open LevelWalk (withNew mem_withNew)

variable {H : Type} {proof : BatchTreeProof H} {c : Contents} {R : List Nat} {prevOutput : TreeBatchOutput H}

/-- The positions of the revealed leaves and of those that the entries add. -/
abbrev Contents.expanded (c : Contents) (es : List TreeEntry) (R : List Nat) : List Nat :=
  withNew R c.entries.length (c.upsertAll es).entries.length

/-- The operation is the result of looking the key up, and the leaves it refers
to are revealed. -/
def Proven (c : Contents) (R : List Nat) (operation : TreeOperation) (key : B256) : Prop :=
  operation = (c.lookup key).operation ∧ ∀ i ∈ (c.lookup key).indices, i ∈ R

variable {m : Map Nat Leaf} {i : Nat} {k key : B256}

theorem LeavesAre.eq_some (hm : LeavesAre c.leaves R m) {leaf : Leaf} :
    m[i]? = some leaf ↔ i ∈ R ∧ c.leaves[i]? = some leaf := by
  rw [hm i]
  by_cases hi : i ∈ R <;> simp [hi]

theorem exists_leaf_of_mem (hk : k ∈ c.keys) : ∃ leaf, c.leaves[c.keys.idxOf k]? = some leaf ∧ leaf.key = k := by
  obtain ⟨leaf, hleaf⟩ : ∃ leaf, c.leaves[c.keys.idxOf k]? = some leaf :=
    ⟨_, getElem?_eq_getElem (by simpa using c.idxOf_lt hk)⟩
  have h₁ := (nextIndex_of_getElem?_leaves hleaf).1
  rw [(c.getElem?_keys_iff _ _).mpr ⟨hk, rfl⟩] at h₁
  exact ⟨leaf, hleaf, (Option.some.inj h₁).symm⟩

theorem idxOf_of_leaf {leaf : Leaf} (h : c.leaves[i]? = some leaf) : leaf.key ∈ c.keys ∧ c.keys.idxOf leaf.key = i :=
  (c.getElem?_keys_iff _ _).mp (nextIndex_of_getElem?_leaves h).1

theorem lookup_of_gap {prev next : Leaf} (hprev : c.leaves[i]? = some prev)
    (hnext : c.leaves[prev.nextIndex]? = some next) (hlt : prev.key < k) (hgt : k < next.key) :
    c.lookup k = .missing (prev.key, i) (next.key, prev.nextIndex) := by
  obtain ⟨hpmem, hpidx⟩ := idxOf_of_leaf hprev
  obtain ⟨hnmem, hnidx⟩ := idxOf_of_leaf hnext
  have hlink := (nextIndex_of_getElem?_leaves hprev).2
  -- The link of the left leaf goes to the next larger key, since it is not the greatest.
  obtain ⟨n, hn⟩ := c.exists_isNext (k := prev.key) fun he => absurd hlt (he ▸ not_top_lt)
  rw [nextIndex_of_isNext hn] at hlink
  have hnn : n = next.key := by
    rw [hlink] at hnidx
    exact ((idxOf_inj hnmem).mp hnidx).symm
  subst hnn
  have hk : k ∉ c.keys := hn.not_mem_gap hlt hgt
  rw [lookup_of_isPrev_isNext hk (IsPrev.of_gap hpmem hn hlt hgt) (hn.of_gap hlt hgt), hpidx, hnidx]

theorem verifyOperation_hit {index : Nat} :
    proof.verifyOperation prevOutput (.hit index) key = .ok () ↔ index < prevOutput.leafCount ∧
      ∃ leaf, proof.sortedLeaves[index]? = some leaf ∧ leaf.key = key := by
  rw [verifyOperation, bind_eq_ok]
  simp only [ensure_eq_ok, exists_const]
  refine and_congr_right fun _ => ?_
  cases proof.sortedLeaves[index]? with
  | none => simp [throw, throwThe, MonadExceptOf.throw]
  | some leaf => simp

theorem verifyOperation_miss {prevIndex : Nat} : proof.verifyOperation prevOutput (.miss prevIndex) key = .ok () ↔
      ∃ prev, proof.sortedLeaves[prevIndex]? = some prev ∧ prev.key < key ∧
        ∃ next, proof.sortedLeaves[prev.nextIndex]? = some next ∧ key < next.key := by
  rw [verifyOperation]
  cases proof.sortedLeaves[prevIndex]? with
  | none => simp [throw, throwThe, MonadExceptOf.throw]
  | some prev =>
    simp only [bind_eq_ok, ensure_eq_ok, exists_const, Option.some.injEq, exists_eq_left']
    refine and_congr_right fun _ => ?_
    cases proof.sortedLeaves[prev.nextIndex]? with
    | none => simp [throw, throwThe, MonadExceptOf.throw]
    | some next => simp

section
variable (hm : LeavesAre c.leaves R proof.sortedLeaves)
include hm

theorem verifyOperation_eq_ok (hcount : prevOutput.leafCount = c.entries.length) {operation : TreeOperation} :
    proof.verifyOperation prevOutput operation key = .ok () ↔ Proven c R operation key := by
  cases operation with
  | hit index =>
    simp only [verifyOperation_hit, hm.eq_some, hcount]
    constructor
    · rintro ⟨-, leaf, ⟨hi, hleaf⟩, rfl⟩
      obtain ⟨hmem, hidx⟩ := idxOf_of_leaf hleaf
      rw [Proven, lookup_of_mem hmem, hidx]
      exact ⟨rfl, by simpa [indices] using hi⟩
    · rintro ⟨hop, hrev⟩
      by_cases hk : key ∈ c.keys
      · rw [lookup_of_mem hk] at hop hrev
        cases hop
        obtain ⟨leaf, hleaf, hkey⟩ := exists_leaf_of_mem hk
        exact ⟨c.idxOf_lt hk, leaf, ⟨hrev _ (by simp [indices]), hleaf⟩, hkey⟩
      · obtain ⟨p, n, -, -, hlookup⟩ := lookup_of_not_mem hk
        rw [hlookup] at hop
        cases hop
  | miss prevIndex =>
    simp only [verifyOperation_miss, hm.eq_some]
    constructor
    · rintro ⟨prev, ⟨hi, hprev⟩, hlt, next, ⟨hj, hnext⟩, hgt⟩
      rw [Proven, lookup_of_gap hprev hnext hlt hgt]
      refine ⟨rfl, ?_⟩
      simpa [indices] using ⟨hi, hj⟩
    · rintro ⟨hop, hrev⟩
      by_cases hk : key ∈ c.keys
      · rw [lookup_of_mem hk] at hop
        cases hop
      · obtain ⟨p, n, hp, hn, hlookup⟩ := lookup_of_not_mem hk
        rw [hlookup] at hop hrev
        cases hop
        obtain ⟨prev, hprev, rfl⟩ := exists_leaf_of_mem hp.mem
        obtain ⟨next, hnext, rfl⟩ := exists_leaf_of_mem hn.mem
        have hlink : prev.nextIndex = c.keys.idxOf next.key :=
          (nextIndex_of_getElem?_leaves hprev).2.trans (nextIndex_of_isNext (IsPrev.isNext hk hp hn))
        refine ⟨prev, ⟨hrev _ (by simp [indices]), hprev⟩, hp.lt, next, ⟨?_, hlink ▸ hnext⟩, hn.lt⟩
        rw [hlink]
        exact hrev _ (by simp [indices])

/-! ### Reads -/

theorem readValue_eq {operation : TreeOperation}
    (hp : Proven c R operation key) : proof.readValue operation = .ok (c.value? key) := by
  obtain ⟨rfl, hrev⟩ := hp
  by_cases hk : key ∈ c.keys
  · obtain ⟨leaf, hleaf, rfl⟩ := exists_leaf_of_mem hk
    rw [lookup_of_mem hk] at hrev ⊢
    have hget : proof.sortedLeaves[c.keys.idxOf leaf.key]? = some leaf :=
      hm.eq_some.mpr ⟨hrev _ (by simp [indices]), hleaf⟩
    simp only [operation, readValue, hget, value?_of_getElem? hleaf]
    rfl
  · obtain ⟨p, n, -, -, hlookup⟩ := lookup_of_not_mem hk
    rw [hlookup, value?_eq_none.mpr hk]
    rfl

theorem verifyReadOperations_eq_ok
    (hcount : prevOutput.leafCount = c.entries.length) {reads : List (TreeOperation × B256)}
    {acc readEntries : Map B256 (Option B256)} : proof.verifyReadOperations prevOutput reads acc = .ok readEntries ↔
      (∀ x ∈ reads, Proven c R x.1 x.2) ∧
        reads.foldl (fun acc x => acc.insert x.2 (c.value? x.2)) acc = readEntries := by
  induction reads generalizing acc with
  | nil => simp [verifyReadOperations]
  | cons x reads ih =>
    obtain ⟨operation, key⟩ := x
    rw [verifyReadOperations, bind_eq_ok, forall_mem_cons, foldl_cons, and_assoc, ← ih]
    constructor
    · rintro ⟨_, hop, h⟩
      have hp := (verifyOperation_eq_ok hm hcount).mp hop
      rw [readValue_eq hm hp, ok_bind] at h
      exact ⟨hp, h⟩
    · rintro ⟨hp, h⟩
      refine ⟨(), (verifyOperation_eq_ok hm hcount).mpr hp, ?_⟩
      rw [readValue_eq hm hp, ok_bind]
      exact h

end

theorem getElem?_readEntries {reads : List (TreeOperation × B256)} {acc : Map B256 (Option B256)} (k : B256) :
    (reads.foldl (fun acc x => acc.insert x.2 (c.value? x.2)) acc)[k]? =
      if k ∈ reads.map Prod.snd then some (c.value? k) else acc[k]? := by
  induction reads generalizing acc with
  | nil => simp
  | cons x reads ih =>
    rw [foldl_cons, ih, SortedMap.getElem?_insert, map_cons]
    by_cases hmem : k ∈ reads.map Prod.snd
    · rw [if_pos hmem, if_pos (mem_cons_of_mem _ hmem)]
    · rw [if_neg hmem]
      by_cases hx : k = x.2
      · rw [if_pos hx, if_pos (hx ▸ mem_cons_self), hx]
      · rw [if_neg hx, if_neg fun h => (mem_cons.mp h).elim hx hmem]

/-! ### Updates and inserts -/

theorem verifyEntries_eq_ok (hm : LeavesAre c.leaves R proof.sortedLeaves)
    (hcount : prevOutput.leafCount = c.entries.length) {pairs : List (TreeOperation × TreeEntry)}
    {indexByKey : Map B256 Nat} {next : Nat} {result : Map B256 Nat × Nat} :
    proof.verifyEntries prevOutput pairs indexByKey next = .ok result ↔ (∀ x ∈ pairs, Proven c R x.1 x.2.key) ∧
      (c.fresh (pairs.map Prod.snd) = [] ∨ next + (c.fresh (pairs.map Prod.snd)).length < u64Bound) ∧
      (indexByKey.insertMany (((c.fresh (pairs.map Prod.snd)).map TreeEntry.key).zipIdx next),
        next + (c.fresh (pairs.map Prod.snd)).length) = result := by
  induction pairs generalizing indexByKey next with
  | nil => simp [verifyEntries, fresh]
  | cons x pairs ih =>
    obtain ⟨operation, entry⟩ := x
    rw [verifyEntries.eq_def]
    simp only
    rw [bind_eq_ok, forall_mem_cons, map_cons, and_assoc]
    simp only [verifyOperation_eq_ok hm hcount, exists_const]
    refine and_congr_right fun hp => ?_
    obtain ⟨rfl, -⟩ := hp
    by_cases hk : entry.key ∈ c.keys
    · rw [lookup_of_mem hk, fresh_cons_of_mem hk]
      exact ih
    · obtain ⟨p, n, -, -, hlookup⟩ := lookup_of_not_mem hk
      rw [hlookup, fresh_cons_of_not_mem hk, map_cons, zipIdx_cons, Std.ExtTreeMap.insertMany_cons, length_cons]
      simp only [operation, bind_eq_ok, assert_eq_ok, exists_const, ih, reduceCtorEq, false_or]
      rw [show next + 1 + (c.fresh (pairs.map Prod.snd)).length =
        next + ((c.fresh (pairs.map Prod.snd)).length + 1) by omega]
      constructor
      · rintro ⟨h₁, h₂, h₃ | h₃, h₄⟩
        · exact ⟨h₂, by rw [h₃]; simpa using h₁, h₄⟩
        · exact ⟨h₂, h₃, h₄⟩
      · rintro ⟨h₁, h₂, h₃⟩
        exact ⟨by omega, h₁, .inr h₂, h₃⟩

def KeysAt (c : Contents) (S : List Nat) (indexByKey : Map B256 Nat) : Prop :=
  ∀ (k : B256) (i : Nat), indexByKey[k]? = some i ↔ i ∈ S ∧ c.keys[i]? = some k

theorem keysAt_ofList (hm : LeavesAre c.leaves R m) : KeysAt c R (.ofList (m.toList.map fun x => (x.2.key, x.1))) := by
  have hleaf : ∀ x ∈ m.toList, x.1 ∈ R ∧ c.leaves[x.1]? = some x.2 := fun x hx =>
    hm.eq_some.mp (Std.ExtTreeMap.mem_toList_iff_getElem?_eq_some.mp hx)
  have hd : (m.toList.map fun x => (x.2.key, x.1)).Pairwise fun a b => a.1 ≠ b.1 := by
    rw [pairwise_map]
    refine (pairwise_toList m).imp_of_mem fun {x y} hx hy hlt he => hlt.ne ?_
    change x.2.key = y.2.key at he
    rw [← (idxOf_of_leaf (hleaf x hx).2).2, ← (idxOf_of_leaf (hleaf y hy).2).2, he]
  intro k i
  rw [getElem?_ofList hd, mem_map]
  constructor
  · rintro ⟨x, hx, he⟩
    cases he
    exact ⟨(hleaf x hx).1, (nextIndex_of_getElem?_leaves (hleaf x hx).2).1⟩
  · rintro ⟨hi, hk⟩
    obtain ⟨hmem, rfl⟩ := (c.getElem?_keys_iff _ _).mp hk
    obtain ⟨leaf, hleaf, rfl⟩ := exists_leaf_of_mem hmem
    exact ⟨(_, leaf), Std.ExtTreeMap.mem_toList_iff_getElem?_eq_some.mpr (hm.eq_some.mpr ⟨hi, hleaf⟩), rfl⟩

variable {es : List TreeEntry} {indexByKey : Map B256 Nat}

theorem KeysAt.insertMany (hB : KeysAt c R indexByKey) (hR : ∀ i ∈ R, i < c.entries.length)
    (hN : (c.freshKeys es).Nodup) : KeysAt (c.upsertAll es) (c.expanded es R)
      (indexByKey.insertMany ((c.freshKeys es).zipIdx c.entries.length)) := by
  have hkeys := keys_upsertAll c es hN
  have hd : ((c.freshKeys es).zipIdx c.entries.length).Pairwise fun a b => a.1 ≠ b.1 := by
    have hnd : (((c.freshKeys es).zipIdx c.entries.length).map Prod.fst).Nodup := by
      rw [zipIdx_map_fst]
      exact hN
    exact pairwise_map.mp hnd
  intro k i
  rw [getElem?_insertMany hd, hB k i, hkeys]
  simp only [mk_mem_zipIdx_iff_le_and_getElem?_sub, withNew, mem_append, mem_range'_1,
    length_upsertAll hN, Nat.add_sub_cancel_left]
  change _ ↔ _ ∧ (c.keys ++ c.freshKeys es)[i]? = some k
  rcases Nat.lt_or_ge i c.entries.length with hi | hi
  · rw [getElem?_append_left (by simpa using hi)]
    have hfresh : c.keys[i]? = some k → ∀ w, ¬ (c.entries.length ≤ w ∧ (c.freshKeys es)[w - c.entries.length]? = some k) :=
      fun hk w hw => not_mem_of_mem_freshKeys (mem_of_getElem? hw.2) (mem_of_getElem? hk)
    constructor
    · rintro (⟨h₁, -⟩ | ⟨-, h₁, h₂⟩)
      · omega
      · exact ⟨.inl h₁, h₂⟩
    · rintro ⟨h₁ | h₁, h₂⟩
      · exact .inr ⟨hfresh h₂, h₁, h₂⟩
      · omega
  · rw [getElem?_append_right (by simpa using hi), length_keys]
    constructor
    · rintro (⟨-, h₂⟩ | ⟨-, h₁, -⟩)
      · have := (List.getElem?_eq_some_iff.mp h₂).1
        rw [freshKeys, length_map] at this
        exact ⟨.inr ⟨hi, by omega⟩, h₂⟩
      · exact absurd (hR i h₁) (by omega)
    · rintro ⟨-, h₂⟩
      exact .inl ⟨hi, h₂⟩

theorem KeysAt.get {S : List Nat} (hB : KeysAt c S indexByKey) (hk : k ∈ c.keys) (hi : c.keys.idxOf k ∈ S) :
    indexByKey[k]? = some (c.keys.idxOf k) := (hB k _).mpr ⟨hi, (c.getElem?_keys_iff _ _).mpr ⟨hk, rfl⟩⟩

/-- Searching the index finds the next larger key of the tree, if every key that
is not indexed lies behind an indexed one. -/
theorem KeysAt.nextEntry {S : List Nat} {x n : B256} (hB : KeysAt c S indexByKey) (hn : n ∈ c.keys)
    (hnS : c.keys.idxOf n ∈ S) (hlt : x < n) (hcover : ∀ z ∈ c.keys, c.keys.idxOf z ∉ S → x < z → n ≤ z) :
    ∃ y, nextEntry indexByKey x = some (y, c.keys.idxOf y) ∧ IsNext c.keys x y := by
  cases hy : MerkleTree.nextEntry indexByKey x with
  | none => exact absurd (first_eq_none.mp hy n _ (hB.get hn hnS)) (by simpa using hlt)
  | some e =>
    obtain ⟨hmem, hxy, hleast⟩ := first_eq_some hy
    obtain ⟨hy₁, hy₂⟩ := (c.getElem?_keys_iff _ _).mp ((hB e.1 e.2).mp hmem).2
    refine ⟨e.1, by rw [hy₂], hy₁, of_decide_eq_true hxy, fun z hz hxz => ?_⟩
    by_cases hzS : c.keys.idxOf z ∈ S
    · exact hleast z _ (hB.get hz hzS) (decide_eq_true hxz)
    · exact (hleast n _ (hB.get hn hnS) (decide_eq_true hlt)).trans (hcover z hz hzS hxz)

theorem KeysAt.prevEntry {S : List Nat} {x p : B256} (hB : KeysAt c S indexByKey) (hp : p ∈ c.keys)
    (hpS : c.keys.idxOf p ∈ S) (hlt : p < x) (hcover : ∀ z ∈ c.keys, c.keys.idxOf z ∉ S → z < x → z ≤ p) :
    ∃ y, prevEntry indexByKey x = some (y, c.keys.idxOf y) ∧ IsPrev c.keys x y := by
  cases hy : MerkleTree.prevEntry indexByKey x with
  | none => exact absurd (last_eq_none.mp hy p _ (hB.get hp hpS)) (by simpa using hlt)
  | some e =>
    obtain ⟨hmem, hxy, hgreatest⟩ := last_eq_some hy
    obtain ⟨hy₁, hy₂⟩ := (c.getElem?_keys_iff _ _).mp ((hB e.1 e.2).mp hmem).2
    refine ⟨e.1, by rw [hy₂], hy₁, of_decide_eq_true hxy, fun z hz hxz => ?_⟩
    by_cases hzS : c.keys.idxOf z ∈ S
    · exact hgreatest z _ (hB.get hz hzS) (decide_eq_true hxz)
    · exact (hcover z hz hzS hxz).trans (hgreatest p _ (hB.get hp hpS) (decide_eq_true hlt))

theorem rangeFrom_of_getElem? (h : indexByKey[k]? = some i) :
    (rangeFrom indexByKey k)[0]? = some (k, i) ∧ (rangeFrom indexByKey k)[1]? = nextEntry indexByKey k := by
  have hcons : ∀ l : List (B256 × Nat), l.Pairwise (fun a b => a.1 < b.1) → (k, i) ∈ l →
      l.filter (fun e => k ≤ e.1) = (k, i) :: l.filter fun e => k < e.1 := by
    intro l hl hmem
    induction l with
    | nil => exact absurd hmem (by simp)
    | cons e l ih =>
      obtain ⟨hlt, hl⟩ := pairwise_cons.mp hl
      rcases mem_cons.mp hmem with rfl | hmem
      · rw [filter_cons_of_pos (by simp), filter_cons_of_neg (by simp)]
        congr 1
        refine filter_congr fun y hy => ?_
        have := hlt y hy
        simp [this, this.le]
      · have := hlt _ hmem
        rw [filter_cons_of_neg (by simpa using this), filter_cons_of_neg (by simpa using this.le)]
        exact ih hl hmem
  have hmem := Std.ExtTreeMap.mem_toList_iff_getElem?_eq_some.mpr h
  rw [rangeFrom, hcons _ (pairwise_toList _) hmem]
  refine ⟨rfl, ?_⟩
  rw [getElem?_cons_succ, ← head?_eq_getElem?, head?_filter]
  rfl

/-- Leaves between the revealed ones and those of the new contents, while the
entries `rest` are still to be processed. -/
structure Expanding (c : Contents) (es : List TreeEntry) (R : List Nat) (rest : List TreeEntry)
    (m : Map Nat Leaf) : Prop where
  mem : ∀ i, (∃ leaf, m[i]? = some leaf) ↔ i ∈ R ∨ c.entries.length ≤ i ∧
    ∃ k, (c.upsertAll es).keys[i]? = some k ∧ ∀ e ∈ rest, e.key ≠ k
  key : ∀ (i : Nat) (leaf : Leaf), m[i]? = some leaf → (c.upsertAll es).keys[i]? = some leaf.key
  value : ∀ (i : Nat) (leaf : Leaf), m[i]? = some leaf → (∀ e ∈ rest, e.key ≠ leaf.key) →
    (c.upsertAll es).value? leaf.key = some leaf.value
  next : ∀ (i : Nat) (leaf : Leaf), m[i]? = some leaf →
    (∀ e ∈ rest, e.key ∉ c.keys → ¬ IsNext (c.upsertAll es).keys leaf.key e.key) →
    leaf.nextIndex = nextIndex (c.upsertAll es).keys leaf.key

namespace Expanding

variable {m : Map Nat Leaf} {rest before : List TreeEntry} {entry : TreeEntry}

theorem start (hN : (c.freshKeys es).Nodup) (hR : ∀ i ∈ R, i < c.entries.length) (hm : LeavesAre c.leaves R m) :
    Expanding c es R es m := by
  have hkeys : (c.upsertAll es).keys = c.keys ++ c.freshKeys es := keys_upsertAll c es hN
  have hkey : ∀ (i : Nat) (leaf : Leaf), m[i]? = some leaf → (c.upsertAll es).keys[i]? = some leaf.key := by
    intro i leaf hleaf
    have hk := (nextIndex_of_getElem?_leaves (hm.eq_some.mp hleaf).2).1
    rw [hkeys, getElem?_append_left (List.getElem?_eq_some_iff.mp hk).1, hk]
  refine ⟨fun i => ?_, hkey, fun i leaf hleaf hne => ?_, fun i leaf hleaf hnone => ?_⟩
  · simp only [hm.eq_some]
    constructor
    · rintro ⟨leaf, hi, -⟩
      exact .inl hi
    · rintro (hi | ⟨hle, k, hk, hne⟩)
      · exact ⟨_, hi, getElem?_eq_getElem (by simpa using hR i hi)⟩
      · rw [hkeys, getElem?_append_right (by simpa using hle)] at hk
        obtain ⟨e, he, rfl⟩ := mem_map.mp (mem_of_getElem? hk)
        exact absurd rfl (hne e (mem_filter.mp he).1)
  · rw [value?_upsertAll_of_forall_ne hne, value?_of_getElem? (hm.eq_some.mp hleaf).2]
  · obtain ⟨hk, hnext⟩ := nextIndex_of_getElem?_leaves (hm.eq_some.mp hleaf).2
    rw [hkeys] at hnone ⊢
    rw [hnext]
    refine (nextIndex_append_of_forall_not (mem_of_getElem? hk) fun x hx => ?_).symm
    obtain ⟨e, he, rfl⟩ := mem_map.mp hx
    exact hnone e (mem_filter.mp he).1 (not_mem_of_mem_freshKeys hx)

theorem key_ne (hx : Expanding c es R rest m) {i j : Nat} {leaf : Leaf} {k : B256} (hleaf : m[i]? = some leaf)
    (hk : (c.upsertAll es).keys[j]? = some k) (hij : i ≠ j) : k ≠ leaf.key := by
  rintro rfl
  have h₁ := ((getElem?_keys_iff _ _ _).mp (hx.key i leaf hleaf)).2
  have h₂ := ((getElem?_keys_iff _ _ _).mp hk).2
  exact hij (h₁.symm.trans h₂)

theorem mem_congr (hN : (c.freshKeys es).Nodup) (hmem : entry.key ∈ c.keys) {j : Nat} (hj : c.entries.length ≤ j) :
    (∃ k, (c.upsertAll es).keys[j]? = some k ∧ ∀ e ∈ entry :: rest, e.key ≠ k) ↔
      ∃ k, (c.upsertAll es).keys[j]? = some k ∧ ∀ e ∈ rest, e.key ≠ k := by
  refine exists_congr fun k => and_congr_right fun hk => ?_
  rw [keys_upsertAll c es hN, getElem?_append_right (by simpa using hj)] at hk
  have hk' := not_mem_of_mem_freshKeys (mem_of_getElem? hk)
  rw [forall_mem_cons]
  exact and_iff_right fun he => hk' (he ▸ hmem)

theorem hit (hN : (c.freshKeys es).Nodup) (hx : Expanding c es R (entry :: rest) m) (hes : es = before ++ entry :: rest)
    (hmem : entry.key ∈ c.keys) {i : Nat} {leaf : Leaf} (hleaf : m[i]? = some leaf)
    (hi : (c.upsertAll es).keys[i]? = some entry.key) :
    Expanding c es R rest (m.insert i { leaf with value := entry.value }) := by
  have hkey : leaf.key = entry.key := by
    have := hx.key i leaf hleaf
    rw [hi] at this
    exact (Option.some.inj this).symm
  have hget : ∀ (j : Nat) (leaf' : Leaf), (m.insert i { leaf with value := entry.value })[j]? = some leaf' →
      j = i ∧ leaf' = { leaf with value := entry.value } ∨ j ≠ i ∧ m[j]? = some leaf' := by
    intro j leaf' h
    rw [SortedMap.getElem?_insert] at h
    split at h
    next hj =>
      exact .inl ⟨hj, (Option.some.inj h).symm⟩
    next hj =>
      exact .inr ⟨hj, h⟩
  refine ⟨fun j => ?_, fun j leaf' h => ?_, fun j leaf' h hne => ?_, fun j leaf' h hnone => ?_⟩
  · have hsame : (∃ leaf', (m.insert i { leaf with value := entry.value })[j]? = some leaf') ↔
        ∃ leaf', m[j]? = some leaf' := by
      rw [SortedMap.getElem?_insert]
      by_cases hj : j = i
      · simp [hj, hleaf]
      · simp [hj]
    rw [hsame, hx.mem j]
    exact or_congr_right (and_congr_right fun hj => mem_congr hN hmem hj)
  · rcases hget j leaf' h with ⟨rfl, rfl⟩ | ⟨-, h⟩
    · exact hx.key j leaf hleaf
    · exact hx.key j leaf' h
  · rcases hget j leaf' h with ⟨rfl, rfl⟩ | ⟨hj, h⟩
    · simp only [hkey] at hne ⊢
      rw [hes]
      exact value?_upsertAll_append hne
    · exact hx.value j leaf' h (forall_mem_cons.mpr ⟨hx.key_ne h hi hj, hne⟩)
  · have hnone' : ∀ e ∈ entry :: rest, e.key ∉ c.keys → ¬ IsNext (c.upsertAll es).keys leaf'.key e.key :=
      forall_mem_cons.mpr ⟨fun h => absurd hmem h, hnone⟩
    rcases hget j leaf' h with ⟨rfl, rfl⟩ | ⟨-, h⟩
    · exact hx.next j leaf hleaf hnone'
    · exact hx.next j leaf' h hnone'

/-- The leaves after an insert: the new leaf, and the previous one redirected if
it is there already. -/
def withInserted (m : Map Nat Leaf) (thisIndex prevIndex : Nat) (leaf : Leaf) : Map Nat Leaf :=
  match (m.insert thisIndex leaf)[prevIndex]? with
  | some prevLeaf => (m.insert thisIndex leaf).insert prevIndex { prevLeaf with nextIndex := thisIndex }
  | none => m.insert thisIndex leaf

theorem getElem?_withInserted {thisIndex prevIndex : Nat} (hne : prevIndex ≠ thisIndex) (leaf : Leaf) (j : Nat) :
    (withInserted m thisIndex prevIndex leaf)[j]? = if j = thisIndex then some leaf
      else if j = prevIndex then m[j]?.map fun prevLeaf => { prevLeaf with nextIndex := thisIndex } else m[j]? := by
  rw [withInserted]
  have hprev : (m.insert thisIndex leaf)[prevIndex]? = m[prevIndex]? := by
    rw [SortedMap.getElem?_insert, if_neg hne]
  rw [hprev]
  cases hget : m[prevIndex]? <;> simp only [SortedMap.getElem?_insert] <;> by_cases h₂ : j = prevIndex <;>
    simp [h₂, hne, hget]

theorem key_ne_of_mem_rest (hN : (c.freshKeys es).Nodup) (hes : es = before ++ entry :: rest)
    (hnew : entry.key ∉ c.keys) : ∀ e ∈ rest, e.key ≠ entry.key := by
  intro e he heq
  rw [hes, freshKeys, fresh_append, map_append, fresh_cons_of_not_mem hnew, map_cons] at hN
  refine (nodup_cons.mp (nodup_append.mp hN).2.1).1 (heq ▸ mem_map_of_mem ?_)
  exact mem_filter.mpr ⟨he, by simpa [heq] using hnew⟩

theorem miss (hN : (c.freshKeys es).Nodup) (hx : Expanding c es R (entry :: rest) m)
    (hes : es = before ++ entry :: rest) (hnew : entry.key ∉ c.keys) {thisIndex prevIndex : Nat} {p : B256}
    (hthis : (c.upsertAll es).keys[thisIndex]? = some entry.key)
    (hprev : (c.upsertAll es).keys[prevIndex]? = some p) (hp : IsNext (c.upsertAll es).keys p entry.key) :
    Expanding c es R rest (withInserted m thisIndex prevIndex
      ⟨entry.key, entry.value, nextIndex (c.upsertAll es).keys entry.key⟩) := by
  have hne : prevIndex ≠ thisIndex := by
    rintro rfl
    rw [hprev] at hthis
    exact hp.lt.ne (Option.some.inj hthis)
  have hidx : (c.upsertAll es).keys.idxOf entry.key = thisIndex := ((getElem?_keys_iff _ _ _).mp hthis).2
  have hge : c.entries.length ≤ thisIndex := by
    by_contra hlt
    rw [keys_upsertAll c es hN, getElem?_append_left (by simpa using hlt)] at hthis
    exact hnew (mem_of_getElem? hthis)
  -- The leaves afterwards: the new one, the redirected one and the others.
  have hget : ∀ (j : Nat) (leaf' : Leaf), (withInserted m thisIndex prevIndex
      ⟨entry.key, entry.value, nextIndex (c.upsertAll es).keys entry.key⟩)[j]? = some leaf' →
      j = thisIndex ∧ leaf' = ⟨entry.key, entry.value, nextIndex (c.upsertAll es).keys entry.key⟩ ∨
      j ≠ thisIndex ∧ ∃ leaf, m[j]? = some leaf ∧ leaf'.key = leaf.key ∧ leaf'.value = leaf.value ∧
        (j = prevIndex ∧ leaf'.nextIndex = thisIndex ∨ j ≠ prevIndex ∧ leaf'.nextIndex = leaf.nextIndex) := by
    intro j leaf' h
    rw [getElem?_withInserted hne] at h
    split at h
    next hj =>
      exact .inl ⟨hj, (Option.some.inj h).symm⟩
    next hj =>
      split at h
      next hj' =>
        obtain ⟨leaf, hleaf, rfl⟩ := Option.map_eq_some_iff.mp h
        exact .inr ⟨hj, leaf, hleaf, rfl, rfl, .inl ⟨hj', rfl⟩⟩
      next hj' =>
        exact .inr ⟨hj, leaf', h, rfl, rfl, .inr ⟨hj', rfl⟩⟩
  refine ⟨fun j => ?_, fun j leaf' h => ?_, fun j leaf' h hrest => ?_, fun j leaf' h hnone => ?_⟩
  · have hex : (∃ leaf', (withInserted m thisIndex prevIndex
        ⟨entry.key, entry.value, nextIndex (c.upsertAll es).keys entry.key⟩)[j]? = some leaf') ↔
        j = thisIndex ∨ ∃ leaf', m[j]? = some leaf' := by
      rw [getElem?_withInserted hne]
      by_cases h₁ : j = thisIndex
      · simp [h₁]
      · by_cases h₂ : j = prevIndex
        · simp [h₂, hne]
        · simp [h₁, h₂]
    rw [hex, hx.mem j]
    constructor
    · rintro (rfl | hj | ⟨hj, k, hk, hrest⟩)
      · exact .inr ⟨hge, entry.key, hthis, key_ne_of_mem_rest hN hes hnew⟩
      · exact .inl hj
      · exact .inr ⟨hj, k, hk, (forall_mem_cons.mp hrest).2⟩
    · rintro (hj | ⟨hj, k, hk, hrest⟩)
      · exact .inr (.inl hj)
      · by_cases hke : entry.key = k
        · subst hke
          exact .inl (((getElem?_keys_iff _ _ _).mp hk).2.symm.trans hidx)
        · exact .inr (.inr ⟨hj, k, hk, forall_mem_cons.mpr ⟨hke, hrest⟩⟩)
  · rcases hget j leaf' h with ⟨rfl, rfl⟩ | ⟨-, leaf, hleaf, hk, -, -⟩
    · exact hthis
    · rw [hk]
      exact hx.key j leaf hleaf
  · rcases hget j leaf' h with ⟨rfl, rfl⟩ | ⟨hj, leaf, hleaf, hk, hv, -⟩
    · rw [hes]
      exact value?_upsertAll_append hrest
    · rw [hk] at hrest ⊢
      rw [hv]
      exact hx.value j leaf hleaf (forall_mem_cons.mpr ⟨hx.key_ne hleaf hthis hj, hrest⟩)
  · rcases hget j leaf' h with ⟨rfl, rfl⟩ | ⟨hj, leaf, hleaf, hk, -, hlink⟩
    · rfl
    · have hkey := hx.key j leaf hleaf
      rw [hk] at hnone ⊢
      rcases hlink with ⟨rfl, hl⟩ | ⟨hjp, hl⟩
      · rw [hprev] at hkey
        rw [hl, ← Option.some.inj hkey, nextIndex_of_isNext hp, hidx]
      · rw [hl]
        refine hx.next j leaf hleaf (forall_mem_cons.mpr ⟨fun _ hn => hjp ?_, hnone⟩)
        -- Only the previous leaf has the new key next.
        obtain ⟨hmem, hj'⟩ := (getElem?_keys_iff _ _ _).mp hkey
        obtain ⟨hpmem, hp'⟩ := (getElem?_keys_iff _ _ _).mp hprev
        rw [← hj', ← hp', hn.source_unique hp hmem hpmem]

theorem finish (hN : (c.freshKeys es).Nodup) (hx : Expanding c es R [] m) :
    LeavesAre (c.upsertAll es).leaves (c.expanded es R) m := by
  have hmem : ∀ i, (∃ leaf, m[i]? = some leaf) ↔ i ∈ c.expanded es R := by
    intro i
    have hlt : (∃ k, (c.upsertAll es).keys[i]? = some k) ↔ i < (c.upsertAll es).entries.length := by
      rw [← length_keys, ← Option.isSome_iff_exists, isSome_getElem?]
    rw [hx.mem i]
    simp only [not_mem_nil, false_imp_iff, implies_true, and_true, hlt, withNew, mem_append, mem_range'_1]
    have := length_upsertAll hN (c := c)
    exact or_congr_right (and_congr_right fun _ => by omega)
  intro i
  cases hget : m[i]? with
  | none =>
    rw [if_neg fun hi => ?_]
    obtain ⟨leaf, hleaf⟩ := (hmem i).mpr hi
    rw [hget] at hleaf
    cases hleaf
  | some leaf =>
    rw [if_pos ((hmem i).mp ⟨leaf, hget⟩)]
    obtain ⟨hk, hidx⟩ := (getElem?_keys_iff _ _ _).mp (hx.key i leaf hget)
    obtain ⟨leaf', hleaf', hkey⟩ := exists_leaf_of_mem hk
    rw [hidx] at hleaf'
    have hv := hx.value i leaf hget (by simp)
    rw [← hkey, value?_of_getElem? hleaf'] at hv
    have hn := hx.next i leaf hget (by simp)
    rw [← hkey, ← (nextIndex_of_getElem?_leaves hleaf').2] at hn
    rw [hleaf']
    cases leaf
    cases leaf'
    simp_all

end Expanding

theorem expandLeaves_ok (hN : (c.freshKeys es).Nodup)
    (hB : KeysAt (c.upsertAll es) (c.expanded es R) indexByKey)
    {pairs : List (TreeOperation × TreeEntry)} (hp : ∀ x ∈ pairs, Proven c R x.1 x.2.key)
    {before : List TreeEntry} (hes : es = before ++ pairs.map Prod.snd) (hx : Expanding c es R (pairs.map Prod.snd) m) :
    ∃ m', expandLeaves indexByKey pairs m = .ok m' ∧ Expanding c es R [] m' := by
  have hkeys := keys_upsertAll c es hN
  induction pairs generalizing before m with
  | nil => exact ⟨m, rfl, hx⟩
  | cons x pairs ih =>
    obtain ⟨operation, entry⟩ := x
    rw [map_cons] at hx hes
    obtain ⟨⟨hop, hrev⟩, hrest⟩ := forall_mem_cons.mp hp
    simp only at hop hrev hes hx
    subst hop
    have hes' : es = (before ++ [entry]) ++ pairs.map Prod.snd := by rw [hes]; simp
    by_cases hk : entry.key ∈ c.keys
    · rw [lookup_of_mem hk] at hrev ⊢
      have hi := hrev (c.keys.idxOf entry.key) (by simp [indices])
      obtain ⟨leaf, hleaf⟩ := (hx.mem _).mpr (.inl hi)
      have hi' : (c.upsertAll es).keys[c.keys.idxOf entry.key]? = some entry.key := by
        rw [hkeys, getElem?_append_left (by simpa using c.idxOf_lt hk)]
        exact (c.getElem?_keys_iff _ _).mpr ⟨hk, rfl⟩
      obtain ⟨m', hm', hx'⟩ := ih hrest hes' (hx.hit hN hes hk hleaf hi')
      refine ⟨m', ?_, hx'⟩
      simp only [operation, expandLeaves, hleaf]
      exact hm'
    · obtain ⟨p, n, hp', hn', hlookup⟩ := lookup_of_not_mem hk
      rw [hlookup] at hrev ⊢
      -- The neighbours in the old tree bound the search in the index.
      have hold : ∀ z ∈ c.keys, (c.upsertAll es).keys.idxOf z = c.keys.idxOf z := fun z hz => by
        rw [hkeys, idxOf_append_of_mem hz]
      have hrevealed : ∀ z ∈ c.keys, c.keys.idxOf z ∈ R → z ∈ (c.upsertAll es).keys ∧
          (c.upsertAll es).keys.idxOf z ∈ c.expanded es R := by
        intro z hz hi
        rw [hold z hz]
        exact ⟨hkeys ▸ mem_append_left _ hz, mem_append_left _ hi⟩
      have hhidden : ∀ z ∈ (c.upsertAll es).keys, (c.upsertAll es).keys.idxOf z ∉
          c.expanded es R → z ∈ c.keys := by
        intro z hz hi
        by_contra hzc
        refine hi (mem_append_right _ (mem_range'_1.mpr ⟨?_, ?_⟩))
        · rw [hkeys, idxOf_append_of_notMem hzc, length_keys]
          omega
        · have := (c.upsertAll es).idxOf_lt hz
          omega
      obtain ⟨hnmem, hnS⟩ := hrevealed n hn'.mem (hrev _ (by simp [indices]))
      obtain ⟨hpmem, hpS⟩ := hrevealed p hp'.mem (hrev _ (by simp [indices]))
      have hmem : entry.key ∈ (c.upsertAll es).keys :=
        (mem_keys_upsertAll _ _ _).mpr (.inr ⟨entry, by rw [hes]; simp, rfl⟩)
      have hthis := ((c.upsertAll es).getElem?_keys_iff _ _).mpr ⟨hmem, rfl⟩
      have hthisS : (c.upsertAll es).keys.idxOf entry.key ∈
          c.expanded es R := by
        by_contra hi
        exact hk (hhidden _ hmem hi)
      obtain ⟨y, hnext, hy⟩ := hB.nextEntry hnmem hnS hn'.lt
        fun z hz hi hlt => hn'.least z (hhidden z hz hi) hlt
      obtain ⟨q, hprev, hq⟩ := hB.prevEntry hpmem hpS hp'.lt
        fun z hz hi hlt => hp'.greatest z (hhidden z hz hi) hlt
      obtain ⟨hfirst, hsecond⟩ := rangeFrom_of_getElem? (hB.get hmem hthisS)
      obtain ⟨m', hm', hx'⟩ := ih hrest hes' (hx.miss hN hes hk hthis
        (((c.upsertAll es).getElem?_keys_iff _ _).mpr ⟨hq.mem, rfl⟩) (hq.isNext_of_mem hmem))
      refine ⟨m', ?_, hx'⟩
      rw [nextIndex_of_isNext hy] at hm'
      simp only [operation, expandLeaves, hfirst, hsecond, hnext, hprev, expect, ok_bind]
      exact hm'

/-! ### The whole verification -/

theorem LeavesAre.toList_eq {leaves : List Leaf} (hm : LeavesAre leaves R m)
    (hs : R.Pairwise (· < ·)) (hR : ∀ i ∈ R, i < leaves.length) : m.toList = revealed leaves R := by
  have : Std.Irrefl fun a b : Nat × Leaf => a.1 < b.1 := ⟨fun a => lt_irrefl a.1⟩
  have : Std.Antisymm fun a b : Nat × Leaf => a.1 < b.1 := ⟨fun a b h₁ h₂ => absurd (h₁.trans h₂) (lt_irrefl _)⟩
  have hs' : (revealed leaves R).Pairwise fun a b => a.1 < b.1 := by
    refine pairwise_map.mp ?_
    rwa [map_fst_revealed hR]
  refine (pairwise_toList m).eq_of_mem_iff hs' fun x => ?_
  rw [mem_revealed, show x = (x.1, x.2) from rfl, Std.ExtTreeMap.mem_toList_iff_getElem?_eq_some, hm x.1]
  by_cases hi : x.1 ∈ R <;> simp [hi]

/-- The second part of `verify` on revealed leaves of the tree: the operations
are results of lookups, and the hashes restore both roots. -/
theorem verifyRoots_eq_ok [DecidableEq H] {hasher : HashTree H} {treeDepth : Nat} {root : H}
    (hm : LeavesAre c.leaves R proof.sortedLeaves) (hcount : prevOutput.leafCount = c.entries.length)
    (hs : R.Pairwise (· < ·)) (hR : ∀ i ∈ R, i < c.entries.length) (hN : (c.freshKeys es).Nodup)
    (hlen : proof.operations.length = es.length) : proof.verifyRoots hasher treeDepth prevOutput es = .ok root ↔
      (∀ x ∈ proof.operations.zip es, Proven c R x.1 x.2.key) ∧
      (c.fresh es = [] ∨ (c.upsertAll es).entries.length < u64Bound) ∧
      (∃ s, zipLeaves hasher treeDepth c.entries.length (revealed c.leaves R) proof.hashes =
        .ok (prevOutput.rootHash, s)) ∧
      ∃ s, zipLeaves hasher treeDepth (c.upsertAll es).entries.length (revealed (c.upsertAll es).leaves
        (c.expanded es R)) proof.hashes = .ok (root, s) := by
  have hlist := hm.toList_eq hs (by simpa using hR)
  have hes : (proof.operations.zip es).map Prod.snd = es := map_snd_zip hlen.ge
  have hB := (keysAt_ofList hm).insertMany hR hN
  have hnew : c.entries.length + (c.fresh es).length = (c.upsertAll es).entries.length := (length_upsertAll hN).symm
  have hentries := @verifyEntries_eq_ok _ proof c R prevOutput hm hcount (proof.operations.zip es)
    (.ofList (proof.sortedLeaves.toList.map fun x => (x.2.key, x.1))) c.entries.length
  rw [hes, hnew, ← freshKeys] at hentries
  -- The leaves folded to the new root, if the operations are proven.
  have hleaves : (∀ x ∈ proof.operations.zip es, Proven c R x.1 x.2.key) → ∃ m',
      expandLeaves _ (proof.operations.zip es) proof.sortedLeaves = .ok m' ∧
        m'.toList = revealed (c.upsertAll es).leaves
          (c.expanded es R) := fun hp => by
    obtain ⟨m', hm', hx⟩ := expandLeaves_ok hN hB hp (show es = [] ++ _ by simp [hes])
      (by rw [hes]; exact .start hN hR hm)
    refine ⟨m', hm', (hx.finish hN).toList_eq (LevelWalk.withNew_pairwise hs hR) fun i hi => ?_⟩
    rcases (mem_withNew i).mp hi with hi | hi
    · rw [length_leaves, ← hnew]
      exact (hR i hi).trans_le (Nat.le_add_right _ _)
    · rw [length_leaves]
      exact hi.2
  have hempty : proof.operations.isEmpty = true → es = [] := fun h =>
    eq_nil_of_length_eq_zero (by rw [← hlen, isEmpty_iff.mp h, length_nil])
  rw [verifyRoots, hcount]
  constructor
  · intro h
    obtain ⟨⟨indexByKey, next⟩, hok, h⟩ := bind_eq_ok.mp h
    obtain ⟨hp, hbound, heq⟩ := hentries.mp hok
    obtain ⟨rfl, rfl⟩ := Prod.mk.inj heq
    obtain ⟨⟨restored, s⟩, hzip, h⟩ := bind_eq_ok.mp h
    obtain ⟨_, hroot, h⟩ := bind_eq_ok.mp h
    obtain rfl : restored = prevOutput.rootHash := ensure_eq_ok.mp hroot
    rw [hlist] at hzip
    refine ⟨hp, hbound, ⟨s, hzip⟩, ?_⟩
    split at h
    next hop =>
      obtain rfl := pure_eq_ok.mp h
      obtain rfl := hempty hop
      simpa [withNew] using ⟨s, hzip⟩
    · obtain ⟨m', hm', hm''⟩ := hleaves hp
      rw [hm', ok_bind, hm''] at h
      obtain ⟨⟨root', s'⟩, hzip', h⟩ := bind_eq_ok.mp h
      obtain rfl := pure_eq_ok.mp h
      exact ⟨s', hzip'⟩
  · rintro ⟨hp, hbound, ⟨s, hzip⟩, s', hzip'⟩
    have hfold := hzip
    rw [← hlist] at hfold
    rw [hentries.mpr ⟨hp, hbound, rfl⟩, ok_bind]
    simp only [hfold, ok_bind, ensure, if_true]
    split
    next hop =>
      obtain rfl := hempty hop
      simp only [upsertAll_nil, withNew, Nat.sub_self, range'_zero, append_nil, hzip] at hzip'
      exact congrArg _ (Prod.mk.inj (Except.ok.inj hzip')).1
    · obtain ⟨m', hm', hm''⟩ := hleaves hp
      rw [hm', ok_bind, hm'', hzip', ok_bind]
      rfl

theorem verify_eq_ok [DecidableEq H] {hasher : HashTree H} {treeDepth : Nat} {readKeys : List B256}
    {view : MerkleTreeView H} : proof.verify hasher treeDepth (some prevOutput) es readKeys = .ok view ↔
      proof.operations.length = es.length ∧ proof.readOperations.length = readKeys.length ∧
      (∀ i ∈ proof.sortedLeaves.keys, i < prevOutput.leafCount) ∧
      (es = [] ∧ readKeys = [] ∧ view = ⟨prevOutput.rootHash, ∅⟩ ∨ ¬ (es = [] ∧ readKeys = []) ∧
        proof.verifyReadOperations prevOutput (proof.readOperations.zip readKeys) ∅ = .ok view.readEntries ∧
        proof.verifyRoots hasher treeDepth prevOutput es = .ok view.rootHash) := by
  have hlast : (∀ e ∈ last proof.sortedLeaves (fun _ _ => true), e.1 < prevOutput.leafCount) ↔
      ∀ i ∈ proof.sortedLeaves.keys, i < prevOutput.leafCount := by
    simp only [SortedMap.mem_keys]
    cases hl : last proof.sortedLeaves (fun _ _ => true) with
    | none =>
      have := last_eq_none.mp hl
      simp at this
      simp [this]
    | some e =>
      obtain ⟨hget, -, hgreatest⟩ := last_eq_some hl
      simp only [Option.mem_some_iff, forall_eq']
      exact ⟨fun h i ⟨leaf, hi⟩ => (hgreatest i leaf hi rfl).trans_lt h, fun h => h e.1 ⟨e.2, hget⟩⟩
  rw [verify]
  simp only [bind_eq_ok, ensure_eq_ok, exists_const, hlast]
  refine and_congr_right fun h₁ => and_congr_right fun h₂ => and_congr_right fun _ => ?_
  have hempty : (proof.operations.isEmpty && proof.readOperations.isEmpty) = true ↔ es = [] ∧ readKeys = [] := by
    rw [Bool.and_eq_true, isEmpty_iff_length_eq_zero, isEmpty_iff_length_eq_zero, h₁, h₂,
      length_eq_zero_iff, length_eq_zero_iff]
  by_cases he : es = [] ∧ readKeys = []
  · rw [if_pos (hempty.mpr he), pure_eq_ok]
    simp [he, eq_comm]
  · rw [if_neg (mt hempty.mp he), bind_eq_ok]
    simp only [bind_eq_ok, pure_eq_ok]
    constructor
    · rintro ⟨r, hr, root, hroot, rfl⟩
      exact .inr ⟨he, hr, hroot⟩
    · rintro (⟨h, h', -⟩ | ⟨-, hr, hroot⟩)
      · exact absurd ⟨h, h'⟩ he
      · exact ⟨_, hr, _, hroot, rfl⟩

end MerkleTree
