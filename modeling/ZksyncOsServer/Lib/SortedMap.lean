import Mathlib

/-!
# Ordered finite maps: searching a range, collecting a list

Facts about `Std.ExtTreeMap` for keys of a linear order. `first` and `last`
are the searches `range(..).find(..)` and `range(..).rev().find(..)`.
-/
namespace SortedMap

open List

variable {K V : Type} [LinearOrder K] {m : Std.ExtTreeMap K V compare} {p : K → V → Bool} {k : K} {v : V}

-- The proof has one name, so that it is the same constant in every definition over such maps.
instance transCmp_compare : Std.TransCmp (compare : K → K → Ordering) := inferInstance
instance transOrd_lex : Std.TransOrd (Lex (K × Nat)) := inferInstance

/-- First entry in key order that satisfies `p`. -/
def first (m : Std.ExtTreeMap K V compare) (p : K → V → Bool) : Option (K × V) :=
  m.toList.find? fun e => p e.1 e.2

/-- Last entry in key order that satisfies `p`. -/
def last (m : Std.ExtTreeMap K V compare) (p : K → V → Bool) : Option (K × V) :=
  m.toList.reverse.find? fun e => p e.1 e.2

/-- A scan that stops at the first failure keeps everything that satisfies `q`,
if no element satisfies `q` after one that does not. -/
theorem takeWhile_eq_filter {α : Type} {q : α → Bool} {l : List α}
    (hl : l.Pairwise fun a b => q b = true → q a = true) : l.takeWhile q = l.filter q := by
  induction l with
  | nil => rfl
  | cons a l ih =>
    obtain ⟨ha, hl⟩ := pairwise_cons.mp hl
    by_cases hq : q a = true
    · rw [takeWhile_cons_of_pos hq, filter_cons_of_pos hq, ih hl]
    · rw [takeWhile_cons_of_neg hq, filter_cons_of_neg hq, eq_comm, filter_eq_nil_iff]
      exact fun b hb hqb => hq (ha b hb hqb)

theorem find?_sorted {α : Type} {r : α → α → Prop} {l : List α} (hl : l.Pairwise r) {q : α → Bool}
    {a : α} (h : l.find? q = some a) : ∀ b ∈ l, q b = true → b = a ∨ r a b := by
  induction l with
  | nil => simp at h
  | cons c l ih =>
    obtain ⟨hc, hl⟩ := pairwise_cons.mp hl
    intro b hb hq
    rw [find?_cons] at h
    split at h
    · cases h
      rcases mem_cons.mp hb with he | hb
      · exact .inl he
      · exact .inr (hc b hb)
    next hn =>
      rcases mem_cons.mp hb with he | hb
      · rw [he, hn] at hq
        exact absurd hq (by simp)
      · exact ih hl h b hb hq

theorem pairwise_toList (m : Std.ExtTreeMap K V compare) : m.toList.Pairwise fun a b => a.1 < b.1 := by
  simpa only [compare_lt_iff_lt] using m.ordered_keys_toList

theorem mem_toList : (k, v) ∈ m.toList ↔ m[k]? = some v :=
  Std.ExtTreeMap.mem_toList_iff_getElem?_eq_some

theorem first_eq_none : first m p = none ↔ ∀ k v, m[k]? = some v → p k v = false := by
  simp only [first, find?_eq_none, Prod.forall, Std.ExtTreeMap.mem_toList_iff_getElem?_eq_some, Bool.not_eq_true]

theorem last_eq_none : last m p = none ↔ ∀ k v, m[k]? = some v → p k v = false := by
  simp only [last, find?_eq_none, Prod.forall, mem_reverse,
    Std.ExtTreeMap.mem_toList_iff_getElem?_eq_some, Bool.not_eq_true]

/-- A forward search returns the match with the smallest key. -/
theorem first_eq_some (h : first m p = some (k, v)) :
    m[k]? = some v ∧ p k v = true ∧ ∀ k' v', m[k']? = some v' → p k' v' = true → k ≤ k' := by
  refine ⟨?_, ?_, fun k' v' hm hp => ?_⟩
  · exact Std.ExtTreeMap.mem_toList_iff_getElem?_eq_some.mp (mem_of_find?_eq_some h)
  · exact find?_some (p := fun e : K × V => p e.1 e.2) h
  · have hmem := Std.ExtTreeMap.mem_toList_iff_getElem?_eq_some.mpr hm
    rcases find?_sorted (pairwise_toList m) h (k', v') hmem hp with he | hlt
    · exact (congrArg Prod.fst he).ge
    · exact hlt.le

/-- A backward search returns the match with the largest key. -/
theorem last_eq_some (h : last m p = some (k, v)) :
    m[k]? = some v ∧ p k v = true ∧ ∀ k' v', m[k']? = some v' → p k' v' = true → k' ≤ k := by
  have hs : m.toList.reverse.Pairwise fun a b => b.1 < a.1 :=
    pairwise_reverse.mpr (pairwise_toList m)
  refine ⟨?_, ?_, fun k' v' hm hp => ?_⟩
  · exact Std.ExtTreeMap.mem_toList_iff_getElem?_eq_some.mp
      (mem_reverse.mp (mem_of_find?_eq_some h))
  · exact find?_some (p := fun e : K × V => p e.1 e.2) h
  · have hmem := mem_reverse.mpr (Std.ExtTreeMap.mem_toList_iff_getElem?_eq_some.mpr hm)
    rcases find?_sorted hs h (k', v') hmem hp with he | hlt
    · exact (congrArg Prod.fst he).le
    · exact hlt.le

theorem first_of_least (hm : m[k]? = some v) (hp : p k v = true)
    (hk : ∀ k' v', m[k']? = some v' → p k' v' = true → k ≤ k') : first m p = some (k, v) := by
  cases h : first m p with
  | none => exact absurd hp (by simp [first_eq_none.mp h k v hm])
  | some e =>
    obtain ⟨hm', hp', hle⟩ := first_eq_some h
    have he : e.1 = k := le_antisymm (hle k v hm hp) (hk e.1 e.2 hm' hp')
    rw [he, hm] at hm'
    rw [← he, Option.some.inj hm']

theorem last_of_greatest (hm : m[k]? = some v) (hp : p k v = true)
    (hk : ∀ k' v', m[k']? = some v' → p k' v' = true → k' ≤ k) : last m p = some (k, v) := by
  cases h : last m p with
  | none => exact absurd hp (by simp [last_eq_none.mp h k v hm])
  | some e =>
    obtain ⟨hm', hp', hle⟩ := last_eq_some h
    have he : e.1 = k := le_antisymm (hk e.1 e.2 hm' hp') (hle k v hm hp)
    rw [he, hm] at hm'
    rw [← he, Option.some.inj hm']

theorem keys_pairwise (m : Std.ExtTreeMap K V compare) : m.keys.Pairwise (· < ·) := by
  simpa only [compare_lt_iff_lt] using m.ordered_keys

theorem mem_keys : k ∈ m.keys ↔ ∃ v, m[k]? = some v := by
  rw [Std.ExtTreeMap.mem_keys, Std.ExtTreeMap.mem_iff_isSome_getElem?, Option.isSome_iff_exists]

theorem getElem?_insert (m : Std.ExtTreeMap K V compare) (k : K) (v : V) (a : K) :
    (m.insert k v)[a]? = if a = k then some v else m[a]? := by
  rw [Std.ExtTreeMap.getElem?_insert]
  by_cases h : a = k
  · simp [h]
  · simp [h, Ne.symm h]

theorem getElem?_erase (m : Std.ExtTreeMap K V compare) (k a : K) :
    (m.erase k)[a]? = if a = k then none else m[a]? := by
  rw [Std.ExtTreeMap.getElem?_erase]
  by_cases h : a = k
  · simp [h]
  · simp [h, Ne.symm h]

theorem getElem?_foldl_erase (m : Std.ExtTreeMap K V compare) (ks : List K) (k : K) :
    (ks.foldl (fun m k => m.erase k) m)[k]? = if k ∈ ks then none else m[k]? := by
  induction ks generalizing m with
  | nil => simp
  | cons k' ks ih =>
    rw [foldl_cons, ih, getElem?_erase]
    by_cases h₁ : k ∈ ks
    · simp [h₁]
    · by_cases h₂ : k = k'
      · simp [h₂]
      · simp [h₁, h₂]

theorem getElem?_foldl_insert {α : Type} (m : Std.ExtTreeMap K V compare) (key : α → K) (value : α → V) (l : List α)
    (k : K) : (l.foldl (fun m a => m.insert (key a) (value a)) m)[k]? =
      ((l.reverse.find? fun a => key a = k).map value).or m[k]? := by
  induction l generalizing m with
  | nil => rfl
  | cons a l ih =>
    rw [foldl_cons, ih, reverse_cons, find?_append, Option.map_or, Option.or_assoc, getElem?_insert]
    congr 1
    by_cases hk : k = key a
    · simp [hk]
    · simp [hk, Ne.symm hk]

/-- Inserting a list that has one value for each of its keys overrides exactly these keys. -/
theorem getElem?_insertMany_of_functional {l : List (K × V)} (hl : ∀ k v w, (k, v) ∈ l → (k, w) ∈ l → v = w) :
    (m.insertMany l)[k]? = some v ↔ (k, v) ∈ l ∨ (∀ w, (k, w) ∉ l) ∧ m[k]? = some v := by
  induction l generalizing m with
  | nil => simp
  | cons a l ih =>
    obtain ⟨a, b⟩ := a
    have hl' : ∀ k v w, (k, v) ∈ l → (k, w) ∈ l → v = w := fun k v w hv hw =>
      hl k v w (mem_cons_of_mem _ hv) (mem_cons_of_mem _ hw)
    rw [Std.ExtTreeMap.insertMany_cons, ih hl', getElem?_insert]
    by_cases hk : k = a
    · subst hk
      have hb : ∀ w, (k, w) ∈ l → w = b := fun w hw => hl k w b (mem_cons_of_mem _ hw) mem_cons_self
      simp only [if_true, mem_cons, Prod.mk.injEq, true_and, Option.some.injEq, not_or]
      constructor
      · rintro (h | ⟨-, rfl⟩)
        · exact .inl (.inr h)
        · exact .inl (.inl rfl)
      · rintro ((rfl | h) | ⟨h, -⟩)
        · by_cases hex : ∃ w, (k, w) ∈ l
          · obtain ⟨w, hw⟩ := hex
            exact .inl (hb w hw ▸ hw)
          · exact .inr ⟨fun w hw => hex ⟨w, hw⟩, rfl⟩
        · exact .inl h
        · exact absurd rfl (h b).1
    · simp [hk]

theorem getElem?_insertMany {l : List (K × V)} (hl : l.Pairwise fun a b => a.1 ≠ b.1) :
    (m.insertMany l)[k]? = some v ↔ (k, v) ∈ l ∨ (∀ w, (k, w) ∉ l) ∧ m[k]? = some v := by
  refine getElem?_insertMany_of_functional fun k v w hv hw => ?_
  have hnodup : (l.map Prod.fst).Nodup := pairwise_map.mpr hl
  exact (Prod.mk.inj (inj_on_of_nodup_map hnodup hv hw rfl)).2

/-- Collecting a list with distinct keys keeps exactly its entries. -/
theorem getElem?_ofList {l : List (K × V)} (hl : l.Pairwise fun a b => a.1 ≠ b.1) :
    (Std.ExtTreeMap.ofList l compare)[k]? = some v ↔ (k, v) ∈ l := by
  rw [Std.ExtTreeMap.ofList_eq_insertMany_empty, getElem?_insertMany hl]
  simp

/-- Inserting one value under several keys, repeated or not. -/
theorem getElem?_insertMany_const (m : Std.ExtTreeMap K V compare) (v : V) (ks : List K) (k : K) :
    (m.insertMany (ks.map fun k => (k, v)))[k]? = if k ∈ ks then some v else m[k]? := by
  induction ks generalizing m with
  | nil => simp
  | cons k' ks ih =>
    rw [map_cons, Std.ExtTreeMap.insertMany_cons, ih, getElem?_insert]
    by_cases hk : k ∈ ks
    · simp [hk]
    · by_cases he : k = k'
      · simp [he]
      · simp [hk, he]

theorem getElem?_filter (m : Std.ExtTreeMap K V compare) (p : K → V → Bool) :
    (m.filter p)[k]? = some v ↔ m[k]? = some v ∧ p k v = true := by
  rw [Std.ExtTreeMap.getElem?_filter', Option.filter_eq_some_iff]

theorem isEmpty_iff : m.isEmpty = true ↔ ∀ (k : K) (v : V), m[k]? ≠ some v := by
  rw [Std.ExtTreeMap.isEmpty_iff]
  constructor
  · rintro rfl
    simp
  · intro h
    refine Std.ExtTreeMap.ext_getElem? fun k => ?_
    rw [Std.ExtTreeMap.getElem?_empty, Option.eq_none_iff_forall_ne_some]
    exact h k

theorem keys_eq_nil : m.keys = [] ↔ m.isEmpty = true := by
  rw [isEmpty_iff, eq_nil_iff_forall_not_mem]
  simp only [mem_keys, not_exists]

theorem getElem?_insertMany_toList (m m' : Std.ExtTreeMap K V compare) (k : K) :
    (m.insertMany m'.toList)[k]? = m'[k]?.or m[k]? := by
  have hd : m'.toList.Pairwise fun a b => a.1 ≠ b.1 := (pairwise_toList m').imp fun hlt => hlt.ne
  ext v
  rw [getElem?_insertMany hd]
  simp only [Std.ExtTreeMap.mem_toList_iff_getElem?_eq_some]
  cases hk : m'[k]? with
  | none => simp
  | some w => simp

theorem toList_insert_empty (k : K) (v : V) : ((∅ : Std.ExtTreeMap K V compare).insert k v).toList = [(k, v)] := by
  have hmem : ∀ e, e ∈ ((∅ : Std.ExtTreeMap K V compare).insert k v).toList ↔ e = (k, v) := by
    rintro ⟨a, b⟩
    rw [mem_toList, getElem?_insert]
    by_cases ha : a = k
    · simp [ha, eq_comm]
    · simp [ha]
  have hsorted := pairwise_toList ((∅ : Std.ExtTreeMap K V compare).insert k v)
  generalize ((∅ : Std.ExtTreeMap K V compare).insert k v).toList = l at hmem hsorted
  match l with
  | [] => exact absurd ((hmem (k, v)).mpr rfl) (by simp)
  | [e] => rw [(hmem e).mp mem_cons_self]
  | e :: e' :: l =>
    have hlt := (pairwise_cons.mp hsorted).1 e' mem_cons_self
    rw [(hmem e).mp (by simp), (hmem e').mp (by simp)] at hlt
    exact absurd hlt (lt_irrefl _)

theorem nodup_of_size {l : List (K × V)}
    (h : ((∅ : Std.ExtTreeMap K V compare).insertMany l).size = l.length) : (l.map Prod.fst).Nodup := by
  set m := (∅ : Std.ExtTreeMap K V compare).insertMany l
  have hnodup : m.keys.Nodup := (keys_pairwise m).imp fun hlt => hlt.ne
  have hsub : m.keys ⊆ l.map Prod.fst := by
    intro k hk
    rw [Std.ExtTreeMap.mem_keys, Std.ExtTreeMap.mem_insertMany_list] at hk
    simpa using hk
  have hlen : (l.map Prod.fst).length ≤ m.keys.length := by
    rw [length_map, Std.ExtTreeMap.length_keys, h]
  exact ((hnodup.subperm hsub).perm_of_length_le hlen).nodup_iff.mp hnodup

theorem numbered_of_size {N : List K} {n : Nat} {f : Nat → V} {m : Std.ExtTreeMap K V compare}
    (hm : m = (∅ : Std.ExtTreeMap K V compare).insertMany ((N.zipIdx n).map fun x => (x.1, f x.2)))
    (h : m.size = N.length) : N.Nodup ∧ ∀ k v, m[k]? = some v ↔ ∃ i, N[i]? = some k ∧ v = f (n + i) := by
  have hmap : ((N.zipIdx n).map fun x => (x.1, f x.2)).map Prod.fst = N := by
    rw [map_map]
    exact zipIdx_map_fst _ _
  have hnodup : N.Nodup := by
    rw [← hmap]
    refine nodup_of_size ?_
    rw [← hm, h, length_map, length_zipIdx]
  have hd : ((N.zipIdx n).map fun x => (x.1, f x.2)).Pairwise fun a b => a.1 ≠ b.1 :=
    pairwise_map.mp (hmap.symm ▸ hnodup)
  refine ⟨hnodup, fun k v => ?_⟩
  rw [hm, getElem?_insertMany hd]
  simp only [mem_map, Prod.mk.injEq, Std.ExtTreeMap.getElem?_empty, reduceCtorEq, and_false, or_false]
  constructor
  · rintro ⟨⟨k', i⟩, hx, rfl, rfl⟩
    obtain ⟨hle, hget⟩ := mk_mem_zipIdx_iff_le_and_getElem?_sub.mp hx
    exact ⟨i - n, hget, by rw [Nat.add_sub_cancel' hle]⟩
  · rintro ⟨i, hget, rfl⟩
    refine ⟨(k, n + i), ?_, rfl, rfl⟩
    rw [mk_mem_zipIdx_iff_le_and_getElem?_sub, Nat.add_sub_cancel_left]
    exact ⟨Nat.le_add_right _ _, hget⟩

theorem getElem?_insertMany_range' (m : Std.ExtTreeMap Nat V compare) (g : Nat → V) (s c k : Nat) :
    (m.insertMany ((range' s c).map fun i => (i, g i)))[k]? = if s ≤ k ∧ k < s + c then some (g k) else m[k]? := by
  have hl : ((range' s c).map fun i => (i, g i)).Pairwise fun a b => a.1 ≠ b.1 := by
    rw [pairwise_map]
    exact nodup_range'
  have hmem : ∀ w, (k, w) ∈ (range' s c).map (fun i => (i, g i)) ↔ (s ≤ k ∧ k < s + c) ∧ g k = w := by
    intro w
    simp only [mem_map, Prod.mk.injEq, mem_range'_1]
    exact ⟨fun ⟨i, hi, he, hw⟩ => he ▸ ⟨hi, hw⟩, fun ⟨hi, hw⟩ => ⟨k, hi, rfl, hw⟩⟩
  ext v
  rw [getElem?_insertMany hl]
  simp only [hmem]
  by_cases h : s ≤ k ∧ k < s + c
  · simp [h]
  · simp [h]

theorem getElem?_insertMany_zipIdx {α : Type} (m : Std.ExtTreeMap Nat V compare) (f : α → V) (l : List α)
    (n k : Nat) : (m.insertMany ((l.zipIdx n).map fun x => (x.2, f x.1)))[k]? =
      if n ≤ k ∧ k < n + l.length then l[k - n]?.map f else m[k]? := by
  have hl : ((l.zipIdx n).map fun x => (x.2, f x.1)).Pairwise fun a b => a.1 ≠ b.1 := by
    have hnd : ((l.zipIdx n).map Prod.snd).Nodup := by
      rw [zipIdx_map_snd]
      exact nodup_range'
    rw [pairwise_map]
    exact pairwise_map.mp hnd
  have hmem : ∀ v, (k, v) ∈ (l.zipIdx n).map (fun x => (x.2, f x.1)) ↔ n ≤ k ∧ l[k - n]?.map f = some v := by
    intro v
    rw [mem_map, Option.map_eq_some_iff]
    constructor
    · rintro ⟨⟨a, i⟩, hx, he⟩
      cases he
      obtain ⟨hle, hget⟩ := mk_mem_zipIdx_iff_le_and_getElem?_sub.mp hx
      exact ⟨hle, a, hget, rfl⟩
    · rintro ⟨hle, a, hget, rfl⟩
      exact ⟨(a, k), mk_mem_zipIdx_iff_le_and_getElem?_sub.mpr ⟨hle, hget⟩, rfl⟩
  ext v
  rw [getElem?_insertMany hl]
  simp only [hmem]
  by_cases h : n ≤ k ∧ k < n + l.length
  · obtain ⟨a, ha⟩ : ∃ a, l[k - n]? = some a := ⟨_, getElem?_eq_getElem (by omega)⟩
    simp [h, ha]
  · rw [if_neg h]
    by_cases hle : n ≤ k
    · have hnone : l[k - n]? = none := getElem?_eq_none (by omega)
      simp [hnone]
    · simp [hle]

end SortedMap
