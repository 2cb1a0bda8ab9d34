import Mathlib

/-!
# Lists of keys linked in key order

A list of distinct keys, in any order, is turned into a linked list by giving
each position the position of the next larger key. The results say what
appending keys does to these links and that following them from the smallest
key visits every position once, in key order.
-/
namespace Successor

open List

variable {K : Type} [LinearOrder K] {S N : List K} {k k' x : K}

/-- The smallest member above `k`. -/
structure IsNext (S : List K) (k k' : K) : Prop where
  mem : k' ∈ S
  lt : k < k'
  least : ∀ x ∈ S, k < x → k' ≤ x

/-- The largest member below `k`. -/
structure IsPrev (S : List K) (k k' : K) : Prop where
  mem : k' ∈ S
  lt : k' < k
  greatest : ∀ x ∈ S, x < k → x ≤ k'

/-- Position of the next larger key; the largest key is linked to itself. -/
def nextIndex (S : List K) (k : K) : Nat :=
  match (S.filter (k < ·)).min? with
  | some k' => S.idxOf k'
  | none => S.idxOf k

theorem IsPrev.unique (h : IsPrev S k k') (h' : IsPrev S k x) : k' = x :=
  le_antisymm (h'.greatest k' h.mem h.lt) (h.greatest x h'.mem h'.lt)

theorem IsNext.source_unique {p q : K} (hp : IsNext S p k) (hq : IsNext S q k) (hpS : p ∈ S) (hqS : q ∈ S) : p = q := by
  rcases lt_trichotomy p q with h | h | h
  · exact absurd (hp.least q hqS h) (not_le.mpr hq.lt)
  · exact h
  · exact absurd (hq.least p hpS h) (not_le.mpr hp.lt)

theorem isNext_iff_min? : IsNext S k k' ↔ (S.filter (k < ·)).min? = some k' := by
  rw [min?_eq_some_iff]
  simp only [mem_filter, decide_eq_true_eq, and_imp]
  exact ⟨fun h => ⟨⟨h.mem, h.lt⟩, h.least⟩, fun h => ⟨h.1.1, h.1.2, h.2⟩⟩

theorem isPrev_iff_max? : IsPrev S k k' ↔ (S.filter (· < k)).max? = some k' := by
  rw [max?_eq_some_iff]
  simp only [mem_filter, decide_eq_true_eq, and_imp]
  exact ⟨fun h => ⟨⟨h.mem, h.lt⟩, h.greatest⟩, fun h => ⟨h.1.1, h.1.2, h.2⟩⟩

theorem nextIndex_of_isNext (h : IsNext S k k') : nextIndex S k = S.idxOf k' := by
  simp [nextIndex, isNext_iff_min?.mp h]

theorem nextIndex_of_max (h : ∀ x ∈ S, x ≤ k) : nextIndex S k = S.idxOf k := by
  have he : S.filter (k < ·) = [] := by simpa using h
  simp [nextIndex, he]

theorem exists_isNext (hx : x ∈ S) (h : k < x) : ∃ k', IsNext S k k' := by
  cases hm : (S.filter (k < ·)).min? with
  | none =>
    rw [min?_eq_none_iff, filter_eq_nil_iff] at hm
    exact absurd (by simpa using h) (hm x hx)
  | some k' => exact ⟨k', isNext_iff_min?.mpr hm⟩

theorem exists_isPrev (hx : x ∈ S) (h : x < k) : ∃ k', IsPrev S k k' := by
  cases hm : (S.filter (· < k)).max? with
  | none =>
    rw [max?_eq_none_iff, filter_eq_nil_iff] at hm
    exact absurd (by simpa using h) (hm x hx)
  | some k' => exact ⟨k', isPrev_iff_max?.mpr hm⟩

/-- An old link survives an append that puts nothing into its gap. -/
theorem IsNext.append_left (h : IsNext S k k') (hN : ∀ y ∈ N, k < y → k' ≤ y) : IsNext (S ++ N) k k' where
  mem := mem_append_left N h.mem
  lt := h.lt
  least y hy hky := (mem_append.mp hy).elim (fun hS => h.least y hS hky) fun hN' => hN y hN' hky

/-- The smallest appended key of a gap becomes the target of the old link. -/
theorem IsNext.append_right (h : IsNext N k k') (hS : ∀ y ∈ S, k < y → k' ≤ y) : IsNext (S ++ N) k k' where
  mem := mem_append_right S h.mem
  lt := h.lt
  least y hy hky := (mem_append.mp hy).elim (fun hS' => hS y hS' hky) fun hN => h.least y hN hky

/-- A key strictly inside a gap is no member, and the gap is seen from it. -/
theorem IsNext.not_mem_gap (h : IsNext S k k') (hl : k < x) (hr : x < k') : x ∉ S :=
  fun hx => absurd (h.least x hx hl) (not_le.mpr hr)

theorem IsNext.of_gap (h : IsNext S k k') (hl : k < x) (hr : x < k') : IsNext S x k' :=
  ⟨h.mem, hr, fun y hy hxy => h.least y hy (hl.trans hxy)⟩

theorem IsPrev.of_gap (hk : k ∈ S) (h : IsNext S k k') (hl : k < x) (hr : x < k') : IsPrev S x k where
  mem := hk
  lt := hl
  greatest y hy hyx := by
    by_contra hc
    exact absurd (h.least y hy (not_le.mp hc)) (not_le.mpr (hyx.trans hr))

/-- The two neighbours of an absent key are linked to each other. -/
theorem IsPrev.isNext {p n : K} (hx : x ∉ S) (hp : IsPrev S x p) (hn : IsNext S x n) : IsNext S p n where
  mem := hn.mem
  lt := hp.lt.trans hn.lt
  least y hy hpy := by
    rcases lt_trichotomy y x with h | h | h
    · exact absurd (hp.greatest y hy h) (not_le.mpr hpy)
    · exact absurd (h ▸ hy) hx
    · exact hn.least y hy h

theorem IsPrev.isNext_of_mem (h : IsPrev S x k) (hx : x ∈ S) : IsNext S k x where
  mem := hx
  lt := h.lt
  least y hy hky := by
    by_contra hc
    exact absurd (h.greatest y hy (not_le.mp hc)) (not_le.mpr hky)

/-- Seen from its target, the source of a link is the previous old key. -/
theorem IsNext.isPrev (h : IsNext (S ++ N) k x) (hk : k ∈ S) : IsPrev S x k where
  mem := hk
  lt := h.lt
  greatest y hy hyx := by
    by_contra hc
    exact absurd (h.least y (mem_append_left N hy) (not_le.mp hc)) (not_le.mpr hyx)

/-- The previous old key is linked to the smallest appended key of its gap. -/
theorem IsPrev.isNext_append (h : IsPrev S x k) (hx : x ∈ N) (hgap : ∀ y ∈ N, k < y → x ≤ y) : IsNext (S ++ N) k x where
  mem := mem_append_right S hx
  lt := h.lt
  least y hy hky := by
    rcases mem_append.mp hy with hy | hy
    · by_contra hc
      exact absurd (h.greatest y hy (not_le.mp hc)) (not_le.mpr hky)
    · exact hgap y hy hky

/-- A link that leads to no appended key is the old link. -/
theorem nextIndex_append_of_forall_not (hk : k ∈ S) (h : ∀ x ∈ N, ¬ IsNext (S ++ N) k x) :
    nextIndex (S ++ N) k = nextIndex S k := by
  by_cases hex : ∃ y ∈ S ++ N, k < y
  · obtain ⟨y, hy, hky⟩ := hex
    obtain ⟨k', hk'⟩ := exists_isNext hy hky
    have hS : k' ∈ S := (mem_append.mp hk'.mem).resolve_right fun hN => h k' hN hk'
    have hold : IsNext S k k' := ⟨hS, hk'.lt, fun z hz => hk'.least z (mem_append_left N hz)⟩
    rw [nextIndex_of_isNext hk', nextIndex_of_isNext hold, idxOf_append_of_mem hS]
  · have hmax : ∀ y ∈ S ++ N, y ≤ k := fun y hy => not_lt.mp fun hlt => hex ⟨y, hy, hlt⟩
    rw [nextIndex_of_max hmax, nextIndex_of_max fun y hy => hmax y (mem_append_left N hy), idxOf_append_of_mem hk]

/-- Following the links of an upward closed sorted run reads off its positions. -/
theorem iterate_eq_map_idxOf {step : Nat → Nat} (hstep : ∀ k ∈ S, step (S.idxOf k) = nextIndex S k) (t : K) (T : List K)
    (hs : (t :: T).Pairwise (· < ·)) (hm : ∀ x ∈ t :: T, x ∈ S) (hu : ∀ x ∈ S, t ≤ x → x ∈ t :: T) :
    iterate step (S.idxOf t) (T.length + 1) = (t :: T).map S.idxOf := by
  induction T generalizing t with
  | nil => rfl
  | cons u T ih =>
    obtain ⟨ht, hs'⟩ := pairwise_cons.mp hs
    have hn : IsNext S t u := by
      refine ⟨hm u (by simp), ht u (by simp), fun x hx htx => ?_⟩
      rcases mem_cons.mp (hu x hx htx.le) with he | hx'
      · exact absurd he htx.ne'
      · rcases mem_cons.mp hx' with he | hx''
        · exact he.ge
        · exact ((pairwise_cons.mp hs').1 x hx'').le
    have htail : iterate step (S.idxOf u) (T.length + 1) = (u :: T).map S.idxOf := by
      refine ih u hs' (fun x hx => hm x (mem_cons_of_mem t hx)) fun x hx hux => ?_
      rcases mem_cons.mp (hu x hx (hn.lt.le.trans hux)) with he | hx'
      · exact absurd (he ▸ hux) (not_le.mpr hn.lt)
      · exact hx'
    have hfirst : step (S.idxOf t) = S.idxOf u := by
      rw [hstep t (hm t (by simp)), nextIndex_of_isNext hn]
    rw [length_cons, iterate, hfirst, htail]
    rfl

/-- What a complete walk along the links of a row of keys has to satisfy. -/
structure Walk (S : List K) (visit : List Nat) (last : Nat) : Prop where
  nodup : visit.Nodup
  mem : ∀ i, i ∈ visit ↔ i < S.length
  sorted : (visit.filterMap (S[·]?)).Pairwise (· < ·)
  ends : visit.getLast? = some last

theorem filterMap_getElem?_idxOf {T : List K} (h : ∀ x ∈ T, x ∈ S) : (T.map S.idxOf).filterMap (S[·]?) = T := by
  induction T with
  | nil => rfl
  | cons t T ih =>
    have ht : S[S.idxOf t]? = some t := by
      rw [getElem?_eq_getElem (idxOf_lt_length_of_mem (h t (by simp)))]
      simp
    simp [ht, ih fun x hx => h x (mem_cons_of_mem t hx)]

/-- Starting at the smallest of distinct keys, the links visit every position
once, in increasing key order, and stop at the largest key. -/
theorem walk_of_links {lo hi : K} (hS : S.Nodup) (step : Nat → Nat) (hstep : ∀ k ∈ S, step (S.idxOf k) = nextIndex S k)
    (hlo : lo ∈ S) (hmin : ∀ x ∈ S, lo ≤ x) (hhi : hi ∈ S) (hmax : ∀ x ∈ S, x ≤ hi) :
    Walk S (iterate step (S.idxOf lo) S.length) (S.idxOf hi) := by
  obtain ⟨T, hperm, hsort⟩ : ∃ T : List K, T.Perm S ∧ T.Pairwise (· < ·) := by
    refine ⟨S.mergeSort (· ≤ ·), mergeSort_perm S _, ?_⟩
    have hle := pairwise_mergeSort' (· ≤ ·) S
    have hnd : (S.mergeSort (· ≤ ·)).Nodup := (mergeSort_perm S _).nodup_iff.mpr hS
    exact (hle.and hnd).imp fun h => lt_of_le_of_ne h.1 h.2
  cases T with
  | nil => exact absurd (hperm.mem_iff.mpr hlo) (by simp)
  | cons t T =>
    have ht : t = lo := by
      refine le_antisymm ?_ (hmin t (hperm.mem_iff.mp (by simp)))
      rcases mem_cons.mp (hperm.mem_iff.mpr hlo) with he | hl
      · exact he.ge
      · exact ((pairwise_cons.mp hsort).1 lo hl).le
    subst ht
    have hwalk := iterate_eq_map_idxOf hstep t T hsort (fun x hx => hperm.mem_iff.mp hx)
      fun x hx _ => hperm.mem_iff.mpr hx
    have hlen : T.length + 1 = S.length := hperm.length_eq
    rw [← hlen, hwalk]
    have hmem : ∀ x ∈ t :: T, x ∈ S := fun x hx => hperm.mem_iff.mp hx
    constructor
    · refine (List.Perm.nodup_iff hperm).mpr hS |>.map_on fun x hx y _ he => ?_
      exact (idxOf_inj (hmem x hx)).mp he
    · intro i
      simp only [mem_map]
      constructor
      · rintro ⟨x, hx, rfl⟩
        exact idxOf_lt_length_of_mem (hmem x hx)
      · intro hi
        exact ⟨S[i], hperm.mem_iff.mpr (getElem_mem hi), hS.idxOf_getElem i hi⟩
    · rw [filterMap_getElem?_idxOf hmem]
      exact hsort
    · rw [getLast?_map]
      have hl : (t :: T).getLast? = some hi := by
        rw [getLast?_eq_some_getLast (by simp)]
        have hlast := getLast_mem (show t :: T ≠ [] by simp)
        refine congrArg some (le_antisymm (hmax _ (hmem _ hlast)) ?_)
        have hle : (t :: T).Pairwise (· ≤ ·) := hsort.imp fun h => le_of_lt h
        exact hle.rel_getLast (hperm.mem_iff.mpr hhi)
      rw [hl]
      rfl

end Successor
