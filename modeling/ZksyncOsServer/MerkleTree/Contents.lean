import ZksyncOsServer.Lib.Successor
import ZksyncOsServer.MerkleTree.Proofs

/-!
# What a tree stands for

A tree version is a list of entries in insertion order: the two guards, then
every key where it was first inserted, with its latest value. Its leaves are
these entries linked in key order, its root hash is the root of the plain
binary Merkle tree over the leaves. Nothing here mentions versions, nodes or
radices.
-/
namespace MerkleTree

open BinaryMerkle List Successor

variable {H : Type}

/-- Distinct keys after the two guards. -/
structure Contents where
  entries : List TreeEntry
  min_key : (entries.map TreeEntry.key)[0]? = some ⊥
  max_key : (entries.map TreeEntry.key)[1]? = some ⊤
  nodup : (entries.map TreeEntry.key).Nodup

namespace Contents

def empty : Contents := ⟨[TreeEntry.minGuard, TreeEntry.maxGuard], rfl, rfl, by decide⟩

def keys (c : Contents) : List B256 := c.entries.map TreeEntry.key

@[simp] theorem length_keys (c : Contents) : c.keys.length = c.entries.length := by simp [keys]

def setValue (entry : TreeEntry) (e : TreeEntry) : TreeEntry :=
  if e.key = entry.key then { e with value := entry.value } else e

@[simp] theorem setValue_key (entry e : TreeEntry) : (setValue entry e).key = e.key := by
  simp only [setValue]
  split <;> rfl

theorem map_key_map_setValue (entry : TreeEntry) (l : List TreeEntry) :
    (l.map (setValue entry)).map TreeEntry.key = l.map TreeEntry.key := by
  simp [Function.comp_def]

/-- Updates the entry in place, or appends it. -/
def upsert (c : Contents) (entry : TreeEntry) : Contents :=
  if h : entry.key ∈ c.keys then
    { entries := c.entries.map (setValue entry)
      min_key := by rw [map_key_map_setValue]; exact c.min_key
      max_key := by rw [map_key_map_setValue]; exact c.max_key
      nodup := by rw [map_key_map_setValue]; exact c.nodup }
  else
    { entries := c.entries ++ [entry]
      min_key := by
        have h₀ := c.min_key
        rw [map_append, getElem?_append_left (List.getElem?_eq_some_iff.mp h₀).1]
        exact h₀
      max_key := by
        have h₁ := c.max_key
        rw [map_append, getElem?_append_left (List.getElem?_eq_some_iff.mp h₁).1]
        exact h₁
      nodup := by
        rw [map_append]
        refine c.nodup.append (nodup_singleton _) fun x hx hx' => h ?_
        have he : x = entry.key := by simpa using hx'
        exact he ▸ hx }

def upsertAll (c : Contents) (entries : List TreeEntry) : Contents := entries.foldl upsert c

@[simp] theorem upsertAll_nil (c : Contents) : c.upsertAll [] = c := rfl

@[simp] theorem upsertAll_cons (c : Contents) (entry : TreeEntry) (entries : List TreeEntry) :
    c.upsertAll (entry :: entries) = (c.upsert entry).upsertAll entries := rfl

variable {c : Contents} {entry e : TreeEntry} {k : B256}

theorem upsert_of_mem (h : entry.key ∈ c.keys) : (c.upsert entry).entries = c.entries.map (setValue entry) := by
  simp [upsert, h]

theorem upsert_of_not_mem (h : entry.key ∉ c.keys) : (c.upsert entry).entries = c.entries ++ [entry] := by
  simp [upsert, h]

theorem keys_upsert_of_mem (h : entry.key ∈ c.keys) : (c.upsert entry).keys = c.keys := by
  rw [keys, upsert_of_mem h, map_key_map_setValue, keys]

theorem keys_upsert_of_not_mem (h : entry.key ∉ c.keys) : (c.upsert entry).keys = c.keys ++ [entry.key] := by
  rw [keys, upsert_of_not_mem h, map_append, keys]
  rfl

theorem mem_keys_upsert (c : Contents) (entry : TreeEntry) (k : B256) :
    k ∈ (c.upsert entry).keys ↔ k ∈ c.keys ∨ k = entry.key := by
  by_cases h : entry.key ∈ c.keys
  · rw [keys_upsert_of_mem h]
    exact ⟨.inl, fun hk => hk.elim id fun he => he ▸ h⟩
  · rw [keys_upsert_of_not_mem h]
    simp

theorem mem_keys_upsertAll (c : Contents) (entries : List TreeEntry) (k : B256) :
    k ∈ (c.upsertAll entries).keys ↔ k ∈ c.keys ∨ ∃ e ∈ entries, e.key = k := by
  induction entries generalizing c with
  | nil => simp
  | cons entry entries ih =>
    rw [upsertAll_cons, ih, mem_keys_upsert, or_assoc]
    simp [eq_comm]

def fresh (c : Contents) (entries : List TreeEntry) : List TreeEntry :=
  entries.filter fun e => e.key ∉ c.keys

theorem fresh_append (c : Contents) (entries entries' : List TreeEntry) :
    c.fresh (entries ++ entries') = c.fresh entries ++ c.fresh entries' :=
  filter_append _ _

theorem fresh_cons_of_mem (h : e.key ∈ c.keys) (entries : List TreeEntry) :
    c.fresh (e :: entries) = c.fresh entries := by simp [fresh, h]

theorem fresh_cons_of_not_mem (h : e.key ∉ c.keys) (entries : List TreeEntry) :
    c.fresh (e :: entries) = e :: c.fresh entries := by simp [fresh, h]

/-- The last value a batch gives to a key. -/
def valueAfter (entries : List TreeEntry) (k : B256) (old : B256) : B256 :=
  entries.foldl (fun v e => if e.key = k then e.value else v) old

@[simp] theorem valueAfter_cons (e : TreeEntry) (entries : List TreeEntry) (k old : B256) :
    valueAfter (e :: entries) k old = valueAfter entries k (if e.key = k then e.value else old) := rfl

theorem valueAfter_of_forall_ne {entries : List TreeEntry}
    (h : ∀ e ∈ entries, e.key ≠ k) (old : B256) : valueAfter entries k old = old := by
  induction entries with
  | nil => rfl
  | cons e entries ih =>
    rw [valueAfter_cons, if_neg (h e (by simp)), ih fun e' he => h e' (mem_cons_of_mem _ he)]

/-- An existing entry after a batch. -/
def updated (entries : List TreeEntry) (e : TreeEntry) : TreeEntry :=
  ⟨e.key, valueAfter entries e.key e.value⟩

/-- A batch without repeated fresh keys updates the old entries in place and
appends the fresh ones in order. -/
theorem entries_upsertAll (c : Contents) (entries : List TreeEntry) (h : ((c.fresh entries).map TreeEntry.key).Nodup) :
    (c.upsertAll entries).entries = c.entries.map (updated entries) ++ c.fresh entries := by
  induction entries generalizing c with
  | nil =>
    have hid : updated [] = id := rfl
    simp [fresh, hid]
  | cons e entries ih =>
    rw [upsertAll_cons]
    by_cases he : e.key ∈ c.keys
    · have hfresh := fresh_cons_of_mem he entries
      have hsame : (c.upsert e).fresh entries = c.fresh entries := by
        simp only [fresh, keys_upsert_of_mem he]
      rw [hfresh] at h ⊢
      rw [ih (c.upsert e) (by rw [hsame]; exact h), hsame, upsert_of_mem he, map_map]
      congr 1
      refine map_congr_left fun x _ => ?_
      by_cases hx : x.key = e.key
      · simp [updated, setValue, hx]
      · simp [updated, setValue, hx, Ne.symm hx]
    · have hfresh := fresh_cons_of_not_mem he entries
      rw [hfresh, map_cons, nodup_cons] at h
      have hne : ∀ x ∈ entries, x.key ≠ e.key := by
        intro x hx hk
        refine h.1 (mem_map.mpr ⟨x, ?_, hk⟩)
        exact mem_filter.mpr ⟨hx, by simpa [hk] using he⟩
      have hsame : (c.upsert e).fresh entries = c.fresh entries := by
        simp only [fresh, keys_upsert_of_not_mem he]
        refine filter_congr fun x hx => ?_
        simp [hne x hx]
      rw [ih (c.upsert e) (by rw [hsame]; exact h.2), hsame, upsert_of_not_mem he, hfresh, map_append, append_assoc]
      congr 1
      · refine map_congr_left fun x hx => ?_
        have hx' : e.key ≠ x.key := fun hk => he (hk ▸ mem_map.mpr ⟨x, hx, rfl⟩)
        simp [updated, hx']
      · simp [updated, valueAfter_of_forall_ne hne]

theorem keys_upsertAll (c : Contents) (entries : List TreeEntry) (h : ((c.fresh entries).map TreeEntry.key).Nodup) :
    (c.upsertAll entries).keys = c.keys ++ (c.fresh entries).map TreeEntry.key := by
  rw [keys, entries_upsertAll c entries h, map_append, map_map]
  rfl

/-! ### Leaves -/

def toLeaf (keys : List B256) (e : TreeEntry) : Leaf := ⟨e.key, e.value, nextIndex keys e.key⟩

def leaves (c : Contents) : List Leaf := c.entries.map (toLeaf c.keys)

@[simp] theorem length_leaves (c : Contents) : c.leaves.length = c.entries.length := by simp [leaves]

theorem two_le_length (c : Contents) : 2 ≤ c.entries.length := by
  have h := (List.getElem?_eq_some_iff.mp c.max_key).1
  rw [length_map] at h
  omega

theorem keys_zero (c : Contents) : c.keys[0]? = some ⊥ := c.min_key

theorem keys_one (c : Contents) : c.keys[1]? = some ⊤ := c.max_key

theorem bot_mem (c : Contents) : ⊥ ∈ c.keys := mem_of_getElem? c.keys_zero

theorem top_mem (c : Contents) : ⊤ ∈ c.keys := mem_of_getElem? c.keys_one

theorem keys_nodup (c : Contents) : c.keys.Nodup := c.nodup

theorem getElem?_keys_iff (c : Contents) (i : Nat) (k : B256) :
    c.keys[i]? = some k ↔ k ∈ c.keys ∧ c.keys.idxOf k = i := by
  constructor
  · intro h
    obtain ⟨hi, rfl⟩ := List.getElem?_eq_some_iff.mp h
    exact ⟨getElem_mem hi, c.keys_nodup.idxOf_getElem i hi⟩
  · rintro ⟨hk, rfl⟩
    rw [getElem?_eq_getElem (idxOf_lt_length_of_mem hk)]
    simp

theorem idxOf_bot (c : Contents) : c.keys.idxOf ⊥ = 0 := ((c.getElem?_keys_iff 0 ⊥).mp c.keys_zero).2

theorem idxOf_top (c : Contents) : c.keys.idxOf ⊤ = 1 := ((c.getElem?_keys_iff 1 ⊤).mp c.keys_one).2

theorem idxOf_lt (c : Contents) (hk : k ∈ c.keys) : c.keys.idxOf k < c.entries.length := by
  rw [← c.length_keys]
  exact idxOf_lt_length_of_mem hk

theorem getElem?_leaves (c : Contents) (i : Nat) : c.leaves[i]? = c.entries[i]?.map (toLeaf c.keys) := by simp [leaves]

theorem map_key_leaves (c : Contents) : c.leaves.map Leaf.key = c.keys := by
  simp [leaves, keys, toLeaf, Function.comp_def]

theorem nextIndex_of_getElem?_leaves {i : Nat} {leaf : Leaf} (h : c.leaves[i]? = some leaf) :
    c.keys[i]? = some leaf.key ∧ leaf.nextIndex = nextIndex c.keys leaf.key := by
  rw [getElem?_leaves] at h
  obtain ⟨e, he, rfl⟩ := Option.map_eq_some_iff.mp h
  exact ⟨by simp [keys, he, toLeaf], rfl⟩

theorem exists_isNext (c : Contents) (h : k ≠ ⊤) : ∃ k', IsNext c.keys k k' :=
  Successor.exists_isNext c.top_mem (lt_top_iff_ne_top.mpr h)

theorem exists_isPrev (c : Contents) (h : k ≠ ⊥) : ∃ k', IsPrev c.keys k k' :=
  Successor.exists_isPrev c.bot_mem (bot_lt_iff_ne_bot.mpr h)

theorem nextIndex_top (c : Contents) : nextIndex c.keys ⊤ = 1 := by
  rw [nextIndex_of_max fun _ _ => le_top, c.idxOf_top]

def value? (c : Contents) (k : B256) : Option B256 :=
  (c.entries.find? fun e => e.key = k).map TreeEntry.value

theorem value?_eq_none : c.value? k = none ↔ k ∉ c.keys := by
  simp [value?, keys]

theorem value?_of_getElem? {i : Nat} {leaf : Leaf} (h : c.leaves[i]? = some leaf) :
    c.value? leaf.key = some leaf.value := by
  rw [getElem?_leaves] at h
  obtain ⟨e, he, rfl⟩ := Option.map_eq_some_iff.mp h
  have hmem := mem_of_getElem? he
  cases hf : c.entries.find? fun x => x.key = e.key with
  | none => exact absurd (find?_eq_none.mp hf e hmem) (by simp)
  | some x =>
    have hk : x.key = e.key := by simpa using find?_some hf
    have hx := inj_on_of_nodup_map c.nodup (mem_of_find?_eq_some hf) hmem hk
    change (c.entries.find? fun x => x.key = e.key).map TreeEntry.value = some e.value
    rw [hf, hx]
    rfl

theorem value?_upsert (c : Contents) (e : TreeEntry) (k : B256) :
    (c.upsert e).value? k = if e.key = k then some e.value else c.value? k := by
  by_cases he : e.key ∈ c.keys
  · rw [value?, upsert_of_mem he, find?_map]
    have hsame : (fun x : TreeEntry => decide (x.key = k)) ∘ setValue e = fun x => decide (x.key = k) := by
      funext x
      simp
    rw [hsame]
    cases hf : c.entries.find? fun x => decide (x.key = k) with
    | none =>
      rw [if_neg fun hk => ?_, value?, hf]
      · rfl
      · obtain ⟨x, hx, hxk⟩ := mem_map.mp he
        exact absurd (find?_eq_none.mp hf x hx) (by simp [hxk, hk])
    | some x =>
      have hx : x.key = k := by simpa using find?_some hf
      rw [value?, hf]
      by_cases hk : e.key = k
      · simp [setValue, hx, hk]
      · simp [setValue, hx, hk, Ne.symm hk]
  · rw [value?, upsert_of_not_mem he, find?_append]
    by_cases hk : e.key = k
    · have hnone : c.entries.find? (fun x => decide (x.key = k)) = none := by
        rw [find?_eq_none]
        intro x hx hxk
        exact he (hk ▸ mem_map.mpr ⟨x, hx, by simpa using hxk⟩)
      simp [hnone, hk]
    · simp [hk, value?]

theorem value?_upsertAll_of_forall_ne {es : List TreeEntry} (h : ∀ e ∈ es, e.key ≠ k) :
    (c.upsertAll es).value? k = c.value? k := by
  induction es generalizing c with
  | nil => rfl
  | cons e es ih =>
    rw [forall_mem_cons] at h
    rw [upsertAll_cons, ih h.2, value?_upsert, if_neg h.1]

theorem value?_upsertAll_append {before after : List TreeEntry}
    (h : ∀ e' ∈ after, e'.key ≠ e.key) : (c.upsertAll (before ++ e :: after)).value? e.key = some e.value := by
  rw [upsertAll, foldl_append, foldl_cons]
  exact (value?_upsertAll_of_forall_ne h).trans (by rw [value?_upsert, if_pos rfl])

/-- Result of looking a key up: its index, or its two neighbours. -/
def lookup (c : Contents) (k : B256) : KeyLookup :=
  if k ∈ c.keys then .existing (c.keys.idxOf k)
  else
    let prev := (c.keys.filter (· < k)).max?.getD ⊥
    let next := (c.keys.filter (k < ·)).min?.getD ⊤
    .missing (prev, c.keys.idxOf prev) (next, c.keys.idxOf next)

theorem lookup_of_mem (h : k ∈ c.keys) : c.lookup k = .existing (c.keys.idxOf k) := if_pos h

theorem lookup_of_isPrev_isNext {p n : B256} (h : k ∉ c.keys) (hp : IsPrev c.keys k p) (hn : IsNext c.keys k n) :
    c.lookup k = .missing (p, c.keys.idxOf p) (n, c.keys.idxOf n) := by
  simp only [lookup, if_neg h, isNext_iff_min?.mp hn, isPrev_iff_max?.mp hp, Option.getD_some]

theorem lookup_of_not_mem (h : k ∉ c.keys) : ∃ p n, IsPrev c.keys k p ∧ IsNext c.keys k n ∧
      c.lookup k = .missing (p, c.keys.idxOf p) (n, c.keys.idxOf n) := by
  obtain ⟨p, hp⟩ := c.exists_isPrev (k := k) fun he => h (he ▸ c.bot_mem)
  obtain ⟨n, hn⟩ := c.exists_isNext (k := k) fun he => h (he ▸ c.top_mem)
  exact ⟨p, n, hp, hn, lookup_of_isPrev_isNext h hp hn⟩

end Contents

/-! ### Hashes -/

def subtreeHash (hasher : HashTree H) (leaves : List Leaf) (d i : Nat) : H :=
  node hasher.hashBranch (row (leaves.map hasher.hashLeaf) (hasher.emptySubtreeHash 0)) d i

def Contents.root (hasher : HashTree H) (treeDepth : Nat) (c : Contents) : H :=
  subtreeHash hasher c.leaves treeDepth 0

def Contents.output (hasher : HashTree H) (treeDepth : Nat) (c : Contents) : TreeBatchOutput H :=
  ⟨c.root hasher treeDepth, c.entries.length⟩

end MerkleTree
