import ZksyncOsServer.MerkleTree.Tree
import ZksyncOsServer.MerkleTree.Contents

/-!
# Relinking leaves for a batch

`create_patch` resolves the neighbours of an inserted key from the old tree and
from the sorted keys of the batch. The resolved links are the links of the new
contents: the inserted leaves point to their next larger key, and an old leaf is
redirected exactly when its next larger key is inserted by the batch.
-/
namespace MerkleTree

open List Successor

theorem isNext_of_nextEntry {m : Map B256 InsertedKeyEntry} {N : List B256}
    (hm : ∀ k, (∃ e, m[k]? = some e) ↔ k ∈ N) {x y : B256} {e : InsertedKeyEntry}
    (h : nextEntry m x = some (y, e)) : IsNext N x y := by
  obtain ⟨hy, hlt, hleast⟩ := SortedMap.first_eq_some h
  refine ⟨(hm y).mp ⟨e, hy⟩, of_decide_eq_true hlt, fun z hz hxz => ?_⟩
  obtain ⟨e', he'⟩ := (hm z).mpr hz
  exact hleast z e' he' (decide_eq_true hxz)

theorem forall_not_lt_of_nextEntry {m : Map B256 InsertedKeyEntry} {N : List B256}
    (hm : ∀ k, (∃ e, m[k]? = some e) ↔ k ∈ N) {x : B256} (h : nextEntry m x = none) : ∀ y ∈ N, ¬ x < y := by
  intro y hy hlt
  obtain ⟨e, he⟩ := (hm y).mpr hy
  exact absurd (SortedMap.first_eq_none.mp h y e he) (by simpa using hlt)

/-- The key index of a batch: fresh keys with consecutive indices. -/
structure NewKeys (c : Contents) (N : List B256) (version : Nat) (m : Map B256 InsertedKeyEntry) : Prop where
  nodup : N.Nodup
  fresh : ∀ k ∈ N, k ∉ c.keys
  get : ∀ k e, m[k]? = some e ↔ k ∈ N ∧ e = ⟨c.entries.length + N.idxOf k, version⟩

namespace NewKeys

variable {c : Contents} {N : List B256} {version : Nat} {m : Map B256 InsertedKeyEntry} {x p n : B256}

section
variable (hm : NewKeys c N version m)
include hm

theorem mem_iff (k : B256) : (∃ e, m[k]? = some e) ↔ k ∈ N := by
  simp only [hm.get, exists_and_left, exists_eq, and_true]

theorem nextEntry_eq_some {y : B256} {e : InsertedKeyEntry}
    (h : nextEntry m x = some (y, e)) : IsNext N x y ∧ e.index = c.entries.length + N.idxOf y :=
  ⟨isNext_of_nextEntry hm.mem_iff h, by rw [((hm.get y e).mp (SortedMap.first_eq_some h).1).2]⟩

theorem nextEntry_eq_none (h : nextEntry m x = none) : ∀ y ∈ N, ¬ x < y :=
  forall_not_lt_of_nextEntry hm.mem_iff h

theorem prevEntry_eq_some {y : B256} {e : InsertedKeyEntry} (h : prevEntry m x = some (y, e)) : IsPrev N x y := by
  obtain ⟨hy, hlt, hgreatest⟩ := SortedMap.last_eq_some h
  refine ⟨((hm.get y e).mp hy).1, of_decide_eq_true hlt, fun z hz hzx => ?_⟩
  obtain ⟨e', he'⟩ := (hm.mem_iff z).mpr hz
  exact hgreatest z e' he' (decide_eq_true hzx)

theorem prevEntry_eq_none (h : prevEntry m x = none) : ∀ y ∈ N, ¬ y < x := by
  intro y hy hlt
  obtain ⟨e, he⟩ := (hm.mem_iff y).mpr hy
  exact absurd (SortedMap.last_eq_none.mp h y e he) (by simpa using hlt)

theorem insertedLeaf_leaf {entry : TreeEntry} {prev : B256 × Nat} (hn : IsNext c.keys entry.key n) :
    (insertedLeaf m entry prev (n, c.keys.idxOf n)).leaf = Contents.toLeaf (c.keys ++ N) entry := by
  have hold : (∀ y ∈ N, entry.key < y → n ≤ y) → c.keys.idxOf n = nextIndex (c.keys ++ N) entry.key := by
    intro hle
    rw [nextIndex_of_isNext (hn.append_left hle), idxOf_append_of_mem hn.mem]
  simp only [insertedLeaf, Contents.toLeaf, Leaf.mk.injEq, true_and]
  cases hne : nextEntry m entry.key with
  | none => exact hold fun y hy hlt => absurd hlt (hm.nextEntry_eq_none hne y hy)
  | some ye =>
    obtain ⟨hy, hidx⟩ := hm.nextEntry_eq_some hne
    simp only
    split
    next hlt =>
      have hnext : IsNext (c.keys ++ N) entry.key ye.1 :=
        hy.append_right fun z hz hxz => hlt.le.trans (hn.least z hz hxz)
      rw [nextIndex_of_isNext hnext, idxOf_append_of_notMem (hm.fresh _ hy.mem), c.length_keys, hidx]
    next hlt =>
      exact hold fun z hz hxz => (not_lt.mp hlt).trans (hy.least z hz hxz)

/-- The inserted leaf names an old leaf as its previous one exactly when that
leaf is to be redirected to it. -/
theorem insertedLeaf_prevIndex {entry : TreeEntry} {next : B256 × Nat}
    (hx : entry.key ∈ N) (hp : IsPrev c.keys entry.key p) (i : Nat) :
    (insertedLeaf m entry (p, c.keys.idxOf p) next).prevIndex = some i ↔
      ∃ k, c.keys[i]? = some k ∧ IsNext (c.keys ++ N) k entry.key := by
  have hiff : (∃ k, c.keys[i]? = some k ∧ IsNext (c.keys ++ N) k entry.key) ↔
      c.keys.idxOf p = i ∧ ∀ y ∈ N, y < entry.key → y ≤ p := by
    constructor
    · rintro ⟨k, hk, hnext⟩
      obtain ⟨hmem, hidx⟩ := (c.getElem?_keys_iff i k).mp hk
      have hkp : p = k := hp.unique (hnext.isPrev hmem)
      refine ⟨hkp ▸ hidx, fun y hy hlt => ?_⟩
      by_contra hc
      rw [hkp, not_le] at hc
      exact absurd (hnext.least y (mem_append_right _ hy) hc) (not_le.mpr hlt)
    · rintro ⟨hidx, hgap⟩
      refine ⟨p, (c.getElem?_keys_iff i p).mpr ⟨hp.mem, hidx⟩, hp.isNext_append hx fun y hy hlt => ?_⟩
      by_contra hc
      exact absurd (hgap y hy (not_le.mp hc)) (not_le.mpr hlt)
  rw [hiff]
  simp only [insertedLeaf]
  cases hpe : prevEntry m entry.key with
  | none =>
    simp only [Option.some.injEq]
    exact ⟨fun h => ⟨h, fun y hy hlt => absurd hlt (hm.prevEntry_eq_none hpe y hy)⟩, fun h => h.1⟩
  | some ye =>
    have hy := hm.prevEntry_eq_some hpe
    simp only
    split
    next hlt =>
      simp only [reduceCtorEq, false_iff, not_and, not_forall]
      exact fun _ => ⟨ye.1, hy.mem, hy.lt, not_le.mpr hlt⟩
    next hlt =>
      simp only [Option.some.injEq]
      exact ⟨fun h => ⟨h, fun z hz hzx => (hy.greatest z hz hzx).trans (not_lt.mp hlt)⟩, fun h => h.1⟩

end

end NewKeys

/-! ### The leaves of the new contents -/

def KeyLookup.indices : KeyLookup → List Nat
  | .existing index => [index]
  | .missing prev next => [prev.2, next.2]

namespace Contents

variable {c : Contents} {es : List TreeEntry}

/-- The keys a batch adds. -/
def freshKeys (c : Contents) (es : List TreeEntry) : List B256 := (c.fresh es).map TreeEntry.key

theorem not_mem_of_mem_freshKeys {k : B256} (h : k ∈ c.freshKeys es) : k ∉ c.keys := by
  obtain ⟨e, he, rfl⟩ := mem_map.mp h
  simpa using (mem_filter.mp he).2

theorem leaves_upsertAll (hN : (c.freshKeys es).Nodup) : (c.upsertAll es).leaves =
    c.entries.map (fun e => toLeaf (c.keys ++ c.freshKeys es) (updated es e)) ++
      (c.fresh es).map (toLeaf (c.keys ++ c.freshKeys es)) := by
  rw [leaves, keys_upsertAll c es hN, entries_upsertAll c es hN, map_append, map_map]
  rfl

theorem length_upsertAll (hN : (c.freshKeys es).Nodup) :
    (c.upsertAll es).entries.length = c.entries.length + (c.fresh es).length := by
  rw [entries_upsertAll c es hN, length_append, length_map]

variable {i : Nat} {mods : List (Nat × (Leaf → Leaf))}

theorem getElem?_leaves_upsertAll_lt (hN : (c.freshKeys es).Nodup) (hi : i < c.entries.length) :
    (c.upsertAll es).leaves[i]? = c.leaves[i]?.map fun leaf =>
      ⟨leaf.key, valueAfter es leaf.key leaf.value, nextIndex (c.keys ++ c.freshKeys es) leaf.key⟩ := by
  rw [leaves_upsertAll hN, getElem?_append_left (by simpa using hi), getElem?_leaves]
  simp [toLeaf, updated, Function.comp_def]

theorem getElem?_leaves_upsertAll_ge (hN : (c.freshKeys es).Nodup) (hi : c.entries.length ≤ i) :
    (c.upsertAll es).leaves[i]? = (c.fresh es)[i - c.entries.length]?.map (toLeaf (c.keys ++ c.freshKeys es)) := by
  rw [leaves_upsertAll hN, getElem?_append_right (by simpa using hi)]
  simp

theorem getElem?_leaves_upsertAll_of_untouched (hN : (c.freshKeys es).Nodup)
    (hi : i < c.entries.length) (hun : ∀ e ∈ es, i ∉ (c.lookup e.key).indices) :
    (c.upsertAll es).leaves[i]? = c.leaves[i]? := by
  rw [getElem?_leaves_upsertAll_lt hN hi]
  cases hleaf : c.leaves[i]? with
  | none => rfl
  | some leaf =>
    obtain ⟨hk, hnext⟩ := nextIndex_of_getElem?_leaves hleaf
    obtain ⟨hmem, hidx⟩ := (c.getElem?_keys_iff i leaf.key).mp hk
    have hvalue : valueAfter es leaf.key leaf.value = leaf.value := by
      refine valueAfter_of_forall_ne (fun e he hkey => hun e he ?_) _
      rw [hkey, lookup_of_mem hmem, KeyLookup.indices, mem_singleton]
      exact hidx.symm
    have hlink : nextIndex (c.keys ++ c.freshKeys es) leaf.key = leaf.nextIndex := by
      rw [hnext]
      refine nextIndex_append_of_forall_not hmem fun x hx hnx => ?_
      obtain ⟨e, he, rfl⟩ := mem_map.mp hx
      have hx' := not_mem_of_mem_freshKeys hx
      obtain ⟨p, n, hp, -, hlookup⟩ := lookup_of_not_mem hx'
      refine hun e (mem_filter.mp he).1 ?_
      rw [hlookup, hp.unique (hnx.isPrev hmem), KeyLookup.indices, hidx]
      exact mem_cons_self
    simp [hvalue, hlink]

/-- The leaf inserted for a fresh entry, as `create_patch` resolves it. -/
def insertFor (c : Contents) (m : Map B256 InsertedKeyEntry) (e : TreeEntry) : InsertedLeaf :=
  match c.lookup e.key with
  | .missing prev next => insertedLeaf m e prev next
  | .existing index => ⟨⟨e.key, e.value, index⟩, none⟩

theorem insertFor_spec {version : Nat} {m : Map B256 InsertedKeyEntry}
    (hm : NewKeys c (c.freshKeys es) version m) {e : TreeEntry} (he : e ∈ c.fresh es) :
    (c.insertFor m e).leaf = toLeaf (c.keys ++ c.freshKeys es) e ∧ ∀ i, (c.insertFor m e).prevIndex = some i ↔
      ∃ k, c.keys[i]? = some k ∧ IsNext (c.keys ++ c.freshKeys es) k e.key := by
  have hx : e.key ∈ c.freshKeys es := mem_map_of_mem he
  obtain ⟨p, n, hp, hn, hlookup⟩ := lookup_of_not_mem (not_mem_of_mem_freshKeys hx)
  simp only [insertFor, hlookup]
  exact ⟨hm.insertedLeaf_leaf hn, hm.insertedLeaf_prevIndex hx hp⟩

theorem filterMap_entryInsert (m : Map B256 InsertedKeyEntry) :
    (es.zip (es.map fun e => c.lookup e.key)).filterMap (entryInsert m) = (c.fresh es).map (c.insertFor m) := by
  induction es with
  | nil => rfl
  | cons e es ih =>
    rw [map_cons, zip_cons_cons, filterMap_cons, ih]
    by_cases hk : e.key ∈ c.keys
    · simp [lookup_of_mem hk, entryInsert, fresh_cons_of_mem hk]
    · obtain ⟨p, n, -, -, hlookup⟩ := lookup_of_not_mem hk
      simp [hlookup, entryInsert, fresh_cons_of_not_mem hk, insertFor]

/-- The leaf at position `i` after a sequence of changes. -/
def applyMods (mods : List (Nat × (Leaf → Leaf))) (i : Nat) (leaf : Leaf) : Leaf :=
  mods.foldl (fun l x => if x.1 = i then x.2 l else l) leaf

@[simp] theorem applyMods_cons (x : Nat × (Leaf → Leaf)) (mods : List (Nat × (Leaf → Leaf))) (i : Nat)
    (leaf : Leaf) : applyMods (x :: mods) i leaf = applyMods mods i (if x.1 = i then x.2 leaf else leaf) := rfl

theorem applyMods_of_forall_ne (h : ∀ x ∈ mods, x.1 ≠ i) (leaf : Leaf) : applyMods mods i leaf = leaf := by
  induction mods with
  | nil => rfl
  | cons x mods ih =>
    rw [applyMods_cons, if_neg (h x (by simp))]
    exact ih fun y hy => h y (mem_cons_of_mem x hy)

theorem applyMods_of_exists {f : Leaf → Leaf}
    (hf : ∀ l, f (f l) = f l) (h : ∀ x ∈ mods, x.1 = i → x.2 = f) (hex : ∃ x ∈ mods, x.1 = i) (leaf : Leaf) :
    applyMods mods i leaf = f leaf := by
  have hstable : ∀ {mods : List (Nat × (Leaf → Leaf))}, (∀ x ∈ mods, x.1 = i → x.2 = f) →
      ∀ l, applyMods mods i (f l) = f l := by
    intro mods hm l
    induction mods with
    | nil => rfl
    | cons x mods ih =>
      rw [applyMods_cons]
      have hx : (if x.1 = i then x.2 (f l) else f l) = f l := by
        split
        next he =>
          rw [hm x (by simp) he, hf]
        · rfl
      rw [hx]
      exact ih fun y hy => hm y (mem_cons_of_mem x hy)
  induction mods generalizing leaf with
  | nil => exact absurd hex (by simp)
  | cons x mods ih =>
    have hrest : ∀ y ∈ mods, y.1 = i → y.2 = f := fun y hy => h y (mem_cons_of_mem x hy)
    rw [applyMods_cons]
    by_cases hx : x.1 = i
    · rw [if_pos hx, h x (by simp) hx]
      exact hstable hrest leaf
    · rw [if_neg hx]
      obtain ⟨y, hy, hyi⟩ := hex
      exact ih hrest ⟨y, (mem_cons.mp hy).resolve_left fun he => hx (he ▸ hyi), hyi⟩ leaf

open WorkingPatchSet in
theorem getElem?_modifyLeaves {m m' : Map Nat Leaf}
    (h : modifyLeaves mods m = .ok m') (i : Nat) : m'[i]? = m[i]?.map (applyMods mods i) := by
  induction mods generalizing m with
  | nil =>
    cases h
    exact Option.map_id'.symm
  | cons x mods ih =>
    rw [modifyLeaves] at h
    obtain ⟨leaf, hleaf, h⟩ := Fallible.bind_eq_ok.mp h
    rw [expect_eq_ok] at hleaf
    rw [ih h, SortedMap.getElem?_insert]
    by_cases hi : i = x.1
    · subst hi
      rw [if_pos rfl, hleaf]
      simp
    · have hskip : applyMods (x :: mods) i = applyMods mods i := by
        funext l
        simp [Ne.symm hi]
      rw [if_neg hi, hskip]

end Contents

end MerkleTree
