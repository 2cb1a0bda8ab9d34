import ZksyncOsServer.MerkleTree.Agreement
import ZksyncOsServer.MerkleTree.Patched

/-!
# Transparency of `Patched`

A `Patched` patch set stands for its inner database with the pending patch put
on top. Reading it reads the merged database, changing it changes the merged
database, and flushing it makes the inner database the merged one.
-/
namespace MerkleTree

open Contents Fallible List Successor PatchSet SortedMap Patched

variable {H : Type} {P : TreeParams} {hasher : HashTree H} {hist : List Contents} {c : Contents} {v m n : Nat}

def PatchSet.over (p inner : PatchSet H) : PatchSet H where
  manifest := p.manifest
  patchesByVersion := inner.patchesByVersion.insertMany p.patchesByVersion.toList
  sortedNewLeaves := inner.sortedNewLeaves.insertMany p.sortedNewLeaves.toList

theorem PatchSet.getElem?_over_parts (p inner : PatchSet H) (v : Nat) :
    (p.over inner).patchesByVersion[v]? = p.patchesByVersion[v]?.or inner.patchesByVersion[v]? :=
  getElem?_insertMany_toList _ _ v

theorem PatchSet.getElem?_over_keys (p inner : PatchSet H) (k : B256) :
    (p.over inner).sortedNewLeaves[k]? = p.sortedNewLeaves[k]?.or inner.sortedNewLeaves[k]? :=
  getElem?_insertMany_toList _ _ k

theorem PatchSet.ext_iff' {a b : PatchSet H} : a = b ↔ a.manifest = b.manifest ∧
    (∀ v : Nat, a.patchesByVersion[v]? = b.patchesByVersion[v]?) ∧
    ∀ k : B256, a.sortedNewLeaves[k]? = b.sortedNewLeaves[k]? := by
  constructor
  · rintro rfl
    exact ⟨rfl, fun _ => rfl, fun _ => rfl⟩
  · rintro ⟨h₁, h₂, h₃⟩
    cases a
    cases b
    simp only [mk.injEq]
    exact ⟨h₁, Std.ExtTreeMap.ext_getElem? h₂, Std.ExtTreeMap.ext_getElem? h₃⟩

theorem PatchSet.over_assoc (q p inner : PatchSet H) : q.over (p.over inner) = (q.over p).over inner := by
  rw [ext_iff']
  refine ⟨rfl, fun v => ?_, fun k => ?_⟩
  · simp only [getElem?_over_parts, Option.or_assoc]
  · simp only [getElem?_over_keys, Option.or_assoc]

/-- The database that a `Patched` one stands for. -/
def Patched.merged (this : Patched (PatchSet H) H) : PatchSet H :=
  match this.patch with
  | none => this.inner
  | some p => p.over this.inner

/-- The patch holds the versions from `m` on, the inner database those below. -/
structure Overlay (P : TreeParams) (hasher : HashTree H) (m : Nat) (p inner : PatchSet H) (hist : List Contents) :
    Prop where
  below : Represents P hasher inner (hist.take m)
  merged : Represents P hasher (p.over inner) hist
  lt : m < hist.length
  parts : ∀ (v : Nat) (part : PartialPatchSet H), p.patchesByVersion[v]? = some part → m ≤ v
  keys : ∀ (k : B256) (e : InsertedKeyEntry), p.sortedNewLeaves[k]? = some e → m ≤ e.insertedAt

namespace Overlay

variable {p inner : PatchSet H} (ho : Overlay P hasher m p inner hist)
include ho

theorem innerPart_lt {part : PartialPatchSet H} (h : inner.patchesByVersion[v]? = some part) : v < m := by
  have := ho.below.parts v part h
  rw [length_take] at this
  omega

theorem count : p.manifest.versionCount = hist.length := ho.merged.count

theorem inner_eq_none (hv : m ≤ v) : inner.patchesByVersion[v]? = none :=
  Option.eq_none_iff_forall_ne_some.mpr fun _ h => absurd (ho.innerPart_lt h) hv.not_gt

theorem patch_eq_none (hv : v < m) : p.patchesByVersion[v]? = none :=
  Option.eq_none_iff_forall_ne_some.mpr fun part h => absurd (ho.parts v part h) hv.not_ge

theorem parts_of_lt (hv : v < m) : (p.over inner).patchesByVersion[v]? = inner.patchesByVersion[v]? := by
  rw [getElem?_over_parts, ho.patch_eq_none hv, Option.none_or]

theorem parts_of_ge (hv : m ≤ v) : (p.over inner).patchesByVersion[v]? = p.patchesByVersion[v]? := by
  rw [getElem?_over_parts, ho.inner_eq_none hv, Option.or_none]

theorem isNewVersion_iff : p.isNewVersion v = true ↔ m ≤ v := by
  rw [isNewVersion, Bool.or_eq_true, decide_eq_true_eq, ho.count, Std.ExtTreeMap.contains_iff_mem,
    Std.ExtTreeMap.mem_iff_isSome_getElem?, Option.isSome_iff_exists]
  constructor
  · rintro (hle | ⟨part, hpart⟩)
    · exact ho.lt.le.trans hle
    · exact ho.parts v part hpart
  · intro hm
    rcases Nat.lt_or_ge v hist.length with hlt | hge
    · obtain ⟨root, hroot, -⟩ := ho.merged.trees v hist[v] (getElem?_eq_getElem hlt)
      rw [PatchSet.tryRoot, ho.parts_of_ge hm] at hroot
      cases hp : p.patchesByVersion[v]? with
      | some part => exact .inr ⟨part, rfl⟩
      | none =>
        rw [hp] at hroot
        cases hroot
    · exact .inl hge

end Overlay

/-! ### Lookups -/

structure FoundNext (S : B256 → Prop) (c : Contents) (k : B256) (x : B256 × Nat) : Prop where
  position : x.2 = c.keys.idxOf x.1
  mem : S x.1 ∨ x.1 = ⊤
  le : k ≤ x.1
  least : ∀ y, S y → k ≤ y → x.1 ≤ y

structure FoundPrev (S : B256 → Prop) (c : Contents) (k : B256) (x : B256 × Nat) : Prop where
  position : x.2 = c.keys.idxOf x.1
  mem : S x.1 ∧ x.1 < k ∨ x.1 = ⊥
  greatest : ∀ y, S y → y < k → y ≤ x.1

/-- Keys inserted up to a version. -/
def PatchSet.KnownAt (ps : PatchSet H) (v : Nat) (k : B256) : Prop :=
  ∃ e, ps.sortedNewLeaves[k]? = some e ∧ e.insertedAt ≤ v

theorem PatchSet.index_found {ps : PatchSet H}
    (hpos : ∀ (k : B256) (e : InsertedKeyEntry), ps.sortedNewLeaves[k]? = some e → e.insertedAt ≤ v →
      e.index = c.keys.idxOf k) (k : B256) :
    ∃ prev next, FoundPrev (ps.KnownAt v) c k prev ∧ FoundNext (ps.KnownAt v) c k next ∧
      ps.index v k = if next.1 = k then .existing next.2 else .missing prev next := by
  refine ⟨_, _, ?_, ?_, rfl⟩
  · cases h : last ps.sortedNewLeaves fun k' entry => k' < k && entry.insertedAt ≤ v with
    | none =>
      refine ⟨c.idxOf_bot.symm, .inr rfl, fun y ⟨e, he, hv⟩ hy => ?_⟩
      have := last_eq_none.mp h y e he
      simp [hy, hv] at this
    | some x =>
      obtain ⟨hx, hp, hmax⟩ := last_eq_some h
      rw [Bool.and_eq_true, decide_eq_true_eq, decide_eq_true_eq] at hp
      refine ⟨hpos _ _ hx hp.2, .inl ⟨⟨x.2, hx, hp.2⟩, hp.1⟩, fun y ⟨e, he, hv⟩ hy => ?_⟩
      exact hmax y e he (by simp [hy, hv])
  · cases h : first ps.sortedNewLeaves fun k' entry => k ≤ k' && entry.insertedAt ≤ v with
    | none =>
      refine ⟨c.idxOf_top.symm, .inr rfl, le_top, fun y ⟨e, he, hv⟩ hy => ?_⟩
      have := first_eq_none.mp h y e he
      simp [hy, hv] at this
    | some x =>
      obtain ⟨hx, hp, hmin⟩ := first_eq_some h
      rw [Bool.and_eq_true, decide_eq_true_eq, decide_eq_true_eq] at hp
      refine ⟨hpos _ _ hx hp.2, .inl ⟨x.2, hx, hp.2⟩, hp.1, fun y ⟨e, he, hv⟩ hy => ?_⟩
      exact hmin y e he (by simp [hy, hv])

def KeyLookup.merge : KeyLookup → KeyLookup → KeyLookup
  | .existing index, _ => .existing index
  | .missing _ _, .existing index => .existing index
  | .missing patchPrev patchNext, .missing dbPrev dbNext =>
    .missing (Patched.maxPair patchPrev dbPrev) (Patched.minPair patchNext dbNext)

theorem Patched.mergeLookups_eq (f g : B256 → KeyLookup) (keys : List B256) : mergeLookups (keys.map f)
      ((((keys.zip (keys.map f)).filter fun x => !x.2.isExisting).map Prod.fst).map g) =
      .ok (keys.map fun k => (f k).merge (g k)) := by
  induction keys with
  | nil => rfl
  | cons k keys ih =>
    simp only [map_cons, zip_cons_cons]
    cases hf : f k with
    | existing index =>
      rw [filter_cons_of_neg (by simp [KeyLookup.isExisting])]
      rw [mergeLookups, ih]
      rfl
    | missing prev next =>
      rw [filter_cons_of_pos (by simp [KeyLookup.isExisting]), map_cons, map_cons,
        mergeLookups, head?_cons, tail_cons, ih]
      cases hg : g k with
      | existing index => rfl
      | missing dbPrev dbNext => rfl

theorem Patched.maxPair_cases (a b : B256 × Nat) : maxPair a b = b ∧ a.1 ≤ b.1 ∨ maxPair a b = a ∧ b.1 ≤ a.1 := by
  rw [maxPair]
  split
  next h =>
    exact .inl ⟨rfl, h.elim le_of_lt fun h => h.1.le⟩
  next h =>
    exact .inr ⟨rfl, not_lt.mp fun hlt => h (.inl hlt)⟩

theorem Patched.minPair_cases (a b : B256 × Nat) : minPair a b = a ∧ a.1 ≤ b.1 ∨ minPair a b = b ∧ b.1 ≤ a.1 := by
  rw [minPair]
  split
  next h =>
    exact .inl ⟨rfl, h.elim le_of_lt fun h => h.1.le⟩
  next h =>
    exact .inr ⟨rfl, not_lt.mp fun hlt => h (.inl hlt)⟩

section

variable {S S' : B256 → Prop} {k : B256} {x x' : B256 × Nat}

/-- Of what is found in two parts of the keys, the smaller one is found in both together. -/
theorem FoundNext.or (h : FoundNext S c k x) (h' : FoundNext S' c k x') :
    FoundNext (fun y => S y ∨ S' y) c k (minPair x x') := by
  obtain ⟨he, hle⟩ | ⟨he, hle⟩ := minPair_cases x x'
  · rw [he]
    exact ⟨h.position, h.mem.imp_left .inl, h.le,
      fun y hy hk => hy.elim (h.least y · hk) fun hy => hle.trans (h'.least y hy hk)⟩
  · rw [he]
    exact ⟨h'.position, h'.mem.imp_left .inr, h'.le,
      fun y hy hk => hy.elim (fun hy => hle.trans (h.least y hy hk)) (h'.least y · hk)⟩

theorem FoundPrev.or (h : FoundPrev S c k x) (h' : FoundPrev S' c k x') :
    FoundPrev (fun y => S y ∨ S' y) c k (maxPair x x') := by
  obtain ⟨he, hle⟩ | ⟨he, hle⟩ := maxPair_cases x x'
  · rw [he]
    exact ⟨h'.position, h'.mem.imp_left (And.imp_left .inr),
      fun y hy hk => hy.elim (fun hy => (h.greatest y hy hk).trans hle) (h'.greatest y · hk)⟩
  · rw [he]
    exact ⟨h.position, h.mem.imp_left (And.imp_left .inl),
      fun y hy hk => hy.elim (h.greatest y · hk) fun hy => (h'.greatest y hy hk).trans hle⟩

theorem FoundNext.mem_keys (h : FoundNext S c k x) (hS : ∀ y, S y → y ∈ c.keys) : x.1 ∈ c.keys :=
  h.mem.elim (hS _) (· ▸ c.top_mem)

theorem FoundNext.isNext (h : FoundNext (· ∈ c.keys) c k x) (hk : k ∉ c.keys) : IsNext c.keys k x.1 :=
  have hx := h.mem_keys fun _ => id
  ⟨hx, h.le.lt_of_ne fun he => hk (he ▸ hx), fun y hy hlt => h.least y hy hlt.le⟩

theorem FoundPrev.isPrev (h : FoundPrev (· ∈ c.keys) c k x) (hk : k ∉ c.keys) : IsPrev c.keys k x.1 := by
  rcases h.mem with hx | hx
  · exact ⟨hx.1, hx.2, h.greatest⟩
  · have hbot : ⊥ < k := bot_lt_iff_ne_bot.mpr fun he => hk (he ▸ c.bot_mem)
    exact ⟨hx ▸ c.bot_mem, hx ▸ hbot, h.greatest⟩

theorem lookup_of_found {prev prev' next next' : B256 × Nat} (hunion : ∀ y, y ∈ c.keys ↔ S y ∨ S' y)
    (hp : FoundPrev S c k prev) (hp' : FoundPrev S' c k prev') (hn : FoundNext S c k next)
    (hn' : FoundNext S' c k next') :
    KeyLookup.merge (if next.1 = k then .existing next.2 else .missing prev next)
      (if next'.1 = k then .existing next'.2 else .missing prev' next') = c.lookup k := by
  by_cases hk : k ∈ c.keys
  · -- One of the parts finds the key itself.
    rw [lookup_of_mem hk]
    by_cases h₁ : next.1 = k
    · rw [if_pos h₁, KeyLookup.merge, hn.position, h₁]
    · have h₂ : next'.1 = k := by
        rcases (hunion k).mp hk with h | h
        · exact absurd (le_antisymm (hn.least k h le_rfl) hn.le) h₁
        · exact le_antisymm (hn'.least k h le_rfl) hn'.le
      rw [if_neg h₁, if_pos h₂, KeyLookup.merge, hn'.position, h₂]
  · have h₁ : next.1 ≠ k := fun he => hk (he ▸ hn.mem_keys fun y hy => (hunion y).mpr (.inl hy))
    have h₂ : next'.1 ≠ k := fun he => hk (he ▸ hn'.mem_keys fun y hy => (hunion y).mpr (.inr hy))
    have hmax := hp.or hp'
    have hmin := hn.or hn'
    simp only [← hunion] at hmax hmin
    rw [if_neg h₁, if_neg h₂, KeyLookup.merge, lookup_of_isPrev_isNext hk (hmax.isPrev hk) (hmin.isNext hk),
      ← hmax.position, ← hmin.position]

end

namespace Overlay

variable {p inner : PatchSet H} (ho : Overlay P hasher m p inner hist)
include ho

theorem keys_disjoint {k : B256} {e : InsertedKeyEntry}
    (he : inner.sortedNewLeaves[k]? = some e) : p.sortedNewLeaves[k]? = none := by
  have hlt := ho.below.keys.lt k e he
  have hc : (hist.take m)[e.insertedAt]? = some (hist.take m)[e.insertedAt] := getElem?_eq_getElem hlt
  rw [length_take] at hlt
  have hk := (ho.below.keys.mem_iff hc k).mp ⟨e, he, le_rfl⟩
  rw [getElem?_take, if_pos (by omega)] at hc
  obtain ⟨e', he', hv'⟩ := (ho.merged.keys.mem_iff hc k).mpr hk
  cases hp : p.sortedNewLeaves[k]? with
  | none => rfl
  | some e'' =>
    rw [getElem?_over_keys, hp, Option.some_or] at he'
    cases he'
    have := ho.keys k e' hp
    omega

theorem getElem?_keys_iff {k : B256} {e : InsertedKeyEntry} :
    (p.over inner).sortedNewLeaves[k]? = some e ↔ p.sortedNewLeaves[k]? = some e ∨ inner.sortedNewLeaves[k]? = some e := by
  rw [getElem?_over_keys]
  cases hi : inner.sortedNewLeaves[k]? with
  | none => simp
  | some e' => simp [ho.keys_disjoint hi]

theorem indices (hc : hist[v]? = some c) (keys : List B256) :
    (⟨inner, some p⟩ : Patched (PatchSet H) H).indices v keys = .ok (keys.map c.lookup) := by
  rw [Patched.indices]
  simp only
  by_cases hv : m ≤ v
  · rw [if_pos (ho.isNewVersion_iff.mpr hv)]
    change (Except.ok (_ : List KeyLookup) >>= _) = _
    rw [ok_bind, Patched.mergeLookups_eq]
    refine congrArg Except.ok (map_congr_left fun k _ => ?_)
    have hpos : ∀ (k : B256) (e : InsertedKeyEntry), (p.over inner).sortedNewLeaves[k]? = some e →
        e.insertedAt ≤ v → e.index = c.keys.idxOf k := fun k e he hle => ho.merged.keys.index_eq hc he hle
    obtain ⟨prev, next, hp, hn, hindex⟩ := p.index_found (c := c) (v := v)
      (fun k e he hle => hpos k e (ho.getElem?_keys_iff.mpr (.inl he)) hle) k
    obtain ⟨prev', next', hp', hn', hindex'⟩ := inner.index_found (c := c) (v := v)
      (fun k e he hle => hpos k e (ho.getElem?_keys_iff.mpr (.inr he)) hle) k
    rw [hindex, hindex']
    refine lookup_of_found (fun y => ?_) hp hp' hn hn'
    rw [← ho.merged.keys.mem_iff hc y]
    simp only [ho.getElem?_keys_iff, or_and_right, exists_or]
    rfl
  · rw [if_neg (mt ho.isNewVersion_iff.mp hv)]
    have hc' : (hist.take m)[v]? = some c := by rw [getElem?_take, if_pos (by omega), hc]
    exact congrArg Except.ok (map_congr_left fun k _ => ho.below.keys.index_eq_lookup inner hc' k)

theorem tryRoot (v : Nat) : (⟨inner, some p⟩ : Patched (PatchSet H) H).tryRoot v = (p.over inner).tryRoot v := by
  rw [Patched.tryRoot]
  simp only
  by_cases hv : m ≤ v
  · rw [if_pos (ho.isNewVersion_iff.mpr hv), PatchSet.tryRoot, PatchSet.tryRoot, ho.parts_of_ge hv]
  · rw [if_neg (mt ho.isNewVersion_iff.mp hv), PatchSet.tryRoot, ho.parts_of_lt (by omega)]
    rfl

theorem node_cases {key : NodeKey} {node : Node H} (hpos : 0 < key.nibbleCount)
    (h : (p.over inner).node key = some node) :
    (⟨inner, some p⟩ : Patched (PatchSet H) H).lookupPatch key = .ok (some node) ∨
      (⟨inner, some p⟩ : Patched (PatchSet H) H).lookupPatch key = .ok none ∧ inner.tryNode key = .ok node := by
  rw [lookupPatch]
  simp only
  by_cases hv : m ≤ key.version
  · rw [PatchSet.node, ho.parts_of_ge hv] at h
    rw [if_pos (ho.isNewVersion_iff.mpr hv), PatchSet.tryNode, assert, if_pos hpos, ok_bind, PatchSet.node, h]
    exact .inl rfl
  · rw [PatchSet.node, ho.parts_of_lt (by omega)] at h
    rw [if_neg (mt ho.isNewVersion_iff.mp hv), PatchSet.tryNode, assert, if_pos hpos, ok_bind, PatchSet.node, h]
    exact .inr ⟨rfl, rfl⟩

theorem reads : Reads (⟨inner, some p⟩ : Patched (PatchSet H) H) (p.over inner).node := by
  intro keys ns hpos hall
  change tryNodes _ _ = _
  -- The lookups in the patch, and the rest as read from the inner database.
  obtain ⟨found, hfound, hmerge⟩ : ∃ found,
      keys.mapM (⟨inner, some p⟩ : Patched (PatchSet H) H).lookupPatch = .ok found ∧
      ∃ rest, (((keys.zip found).filter fun x => x.2.isNone).map Prod.fst).mapM inner.tryNode = .ok rest ∧
        mergeNodes found rest = .ok ns := by
    induction hall with
    | nil => exact ⟨[], rfl, [], rfl, rfl⟩
    | @cons key node keys ns hnode hall ih =>
      obtain ⟨found, hfound, rest, hrest, hmerge⟩ := ih fun k hk => hpos k (mem_cons_of_mem _ hk)
      obtain hkey | ⟨hkey, hinner⟩ := ho.node_cases (hpos key mem_cons_self) hnode
      · refine ⟨some node :: found, by rw [mapM_cons, hkey, ok_bind, hfound, ok_bind], rest, ?_, ?_⟩
        · rw [zip_cons_cons, filter_cons_of_neg (by simp)]
          exact hrest
        · rw [mergeNodes, hmerge]
          rfl
      · refine ⟨none :: found, by rw [mapM_cons, hkey, ok_bind, hfound, ok_bind], node :: rest, ?_, ?_⟩
        · rw [zip_cons_cons, filter_cons_of_pos (by simp), map_cons, mapM_cons, hinner, ok_bind, hrest, ok_bind]
        · rw [mergeNodes, head?_cons, tail_cons, hmerge]
          rfl
  obtain ⟨rest, hrest, hmerge⟩ := hmerge
  simp only [tryNodes, hfound, ok_bind]
  change (mapM inner.tryNode _ >>= _) = _
  rw [hrest, ok_bind, hmerge]

end Overlay

/-! ### The invariant -/

/-- A `Patched` database stands for a history. -/
structure PatchedRepresents (P : TreeParams) (hasher : HashTree H) (this : Patched (PatchSet H) H)
    (hist : List Contents) : Prop where
  merged : Represents P hasher this.merged hist
  overlay : ∀ p, this.patch = some p → ∃ m, Overlay P hasher m p this.inner hist

theorem PatchSet.eq_over_of_applyPatch {ps ps' patch : PatchSet H} (h : ps.applyPatch patch = .ok ps') :
    ps' = patch.over ps := by
  rw [applyPatch] at h
  obtain ⟨_, -, h⟩ := bind_eq_ok.mp h
  cases pure_eq_ok.mp h
  rfl

namespace PatchedRepresents

variable {this this' : Patched (PatchSet H) H} {inner : PatchSet H} {manifest : Manifest}

theorem new (hr : Represents P hasher inner hist) : PatchedRepresents P hasher (new inner) hist :=
  ⟨hr, fun p hp => absurd hp (by simp [Patched.new])⟩

theorem cases (hr : PatchedRepresents P hasher this hist) :
    (∃ inner, this = ⟨inner, none⟩ ∧ Represents P hasher inner hist) ∨
      ∃ m p inner, this = ⟨inner, some p⟩ ∧ Overlay P hasher m p inner hist := by
  obtain ⟨inner, patch⟩ := this
  cases patch with
  | none => exact .inl ⟨inner, rfl, hr.merged⟩
  | some p =>
    obtain ⟨m, ho⟩ := hr.overlay p rfl
    exact .inr ⟨m, p, inner, rfl, ho⟩

theorem tryRoot (hr : PatchedRepresents P hasher this hist) (v : Nat) : this.tryRoot v = this.merged.tryRoot v := by
  obtain ⟨inner, rfl, -⟩ | ⟨m, p, inner, rfl, ho⟩ := hr.cases
  · rfl
  · exact ho.tryRoot v

theorem tryManifest (hr : PatchedRepresents P hasher this hist) :
    this.tryManifest = .ok (if this.merged.manifest.versionCount = 0 then none else some this.merged.manifest) := by
  obtain ⟨inner, rfl, -⟩ | ⟨m, p, inner, rfl, ho⟩ := hr.cases
  · rfl
  · change Except.ok (some p.manifest) = .ok (if p.manifest.versionCount = 0 then none else some p.manifest)
    rw [ho.count, if_neg (Nat.zero_lt_of_lt ho.lt).ne']

theorem holds (hr : PatchedRepresents P hasher this hist) : Holds P hasher this.merged.node this hist where
  latest := by
    have h := hr.merged.holds.latest
    rw [latestVersion] at h ⊢
    change (this.tryManifest >>= _) = _
    rw [hr.tryManifest]
    exact h
  serves v c hc := by
    obtain ⟨root, hs⟩ := hr.merged.holds.serves v c hc
    refine ⟨root, ?_, hs.tree, (hr.tryRoot v).trans hs.root, ?_⟩
    · obtain ⟨inner, rfl, -⟩ | ⟨m, p, inner, rfl, ho⟩ := hr.cases
      · exact reads_patchSet inner
      · exact ho.reads
    · obtain ⟨inner, rfl, -⟩ | ⟨m, p, inner, rfl, ho⟩ := hr.cases
      · exact hs.indices
      · exact ho.indices hc

theorem applyPatch {c' : Contents} {J : List Nat} {part : PartialPatchSet H} {patch : PatchSet H}
    (hr : PatchedRepresents P hasher this hist)
    (hc : Committed P hasher this.merged.node hist.length (latestLeaves hist) c' J part patch) :
    ∃ this', this.applyPatch patch = .ok this' ∧ this'.merged = patch.over this.merged ∧
      PatchedRepresents P hasher this' (hist ++ [c']) := by
  obtain ⟨ps', happly⟩ := hr.merged.exists_applyPatch hc
  have hmerged := (hr.merged.applyPatch hc happly).1
  rw [eq_over_of_applyPatch happly] at hmerged
  have hparts : ∀ (v : Nat) (part' : PartialPatchSet H), patch.patchesByVersion[v]? = some part' →
      hist.length ≤ v := by
    intro v part' hv
    rw [hc.parts, SortedMap.getElem?_insert] at hv
    split at hv
    · omega
    · exact absurd hv (by simp)
  have hkeys : ∀ (k : B256) (e : InsertedKeyEntry), patch.sortedNewLeaves[k]? = some e →
      hist.length ≤ e.insertedAt := fun k e he => ((hc.newKeys k e).mp he).1.ge
  obtain ⟨inner, rfl, hinner⟩ | ⟨m, p, inner, rfl, ho⟩ := hr.cases
  · refine ⟨⟨inner, some patch⟩, rfl, rfl, hmerged, fun p hp => ⟨hist.length, ?_⟩⟩
    cases hp
    refine ⟨?_, hmerged, by simp, hparts, hkeys⟩
    rw [take_left' rfl]
    exact hinner
  · have hle : p.manifest.versionCount ≤ patch.manifest.versionCount := by
      rw [ho.count, hc.manifest]
      exact Nat.le_succ _
    have hmerged' : Represents P hasher ((patch.over p).over inner) (hist ++ [c']) := by
      rw [← over_assoc]
      exact hmerged
    refine ⟨⟨inner, some (patch.over p)⟩, ?_, (PatchSet.over_assoc _ _ _).symm, hmerged', fun q hq => ⟨m, ?_⟩⟩
    · rw [Patched.applyPatch]
      simp only [PatchSet.applyPatch, ensure, if_pos hle, ok_bind]
      rfl
    · cases hq
      have hlt := ho.lt
      refine ⟨?_, hmerged', ?_, fun v part' hv => ?_, fun k e he => ?_⟩
      · rw [take_append_of_le_length hlt.le]
        exact ho.below
      · rw [length_append]
        omega
      · rw [getElem?_over_parts] at hv
        rcases Option.or_eq_some_iff.mp hv with hv | ⟨-, hv⟩
        · exact hlt.le.trans (hparts v part' hv)
        · exact ho.parts v part' hv
      · rw [getElem?_over_keys] at he
        rcases Option.or_eq_some_iff.mp he with he | ⟨-, he⟩
        · exact hlt.le.trans (hkeys k e he)
        · exact ho.keys k e he

theorem getElem?_truncate_parts {ps : PatchSet H} {part : PartialPatchSet H} :
    (ps.truncate manifest).patchesByVersion[v]? = some part ↔
      ps.patchesByVersion[v]? = some part ∧ v < manifest.versionCount := by
  rw [PatchSet.truncate, SortedMap.getElem?_filter, decide_eq_true_eq]

theorem getElem?_truncate_keys {ps : PatchSet H} {k : B256} {e : InsertedKeyEntry} :
    (ps.truncate manifest).sortedNewLeaves[k]? = some e ↔
      ps.sortedNewLeaves[k]? = some e ∧ e.insertedAt < manifest.versionCount := by
  rw [PatchSet.truncate, SortedMap.getElem?_filter, decide_eq_true_eq]

theorem truncate_below {p : PatchSet H} (ho : Overlay P hasher m p inner hist) (hn : manifest.versionCount ≤ m) :
    (p.over inner).truncate manifest = inner.truncate manifest ∧ (p.truncate manifest).patchesByVersion.isEmpty = true ∧
      (p.truncate manifest).sortedNewLeaves.isEmpty = true := by
  refine ⟨ext_iff'.mpr ⟨rfl, fun v => ?_, fun k => ?_⟩, isEmpty_iff.mpr fun v part hv => ?_,
    isEmpty_iff.mpr fun k e he => ?_⟩
  · ext part
    rw [getElem?_truncate_parts, getElem?_truncate_parts]
    refine and_congr_left fun hv => ?_
    rw [ho.parts_of_lt (by omega)]
  · ext e
    rw [getElem?_truncate_keys, getElem?_truncate_keys, ho.getElem?_keys_iff]
    refine and_congr_left fun hv => or_iff_right fun he => ?_
    have := ho.keys k e he
    omega
  · obtain ⟨hv, hlt⟩ := getElem?_truncate_parts.mp hv
    have := ho.parts v part hv
    omega
  · obtain ⟨he, hlt⟩ := getElem?_truncate_keys.mp he
    have := ho.keys k e he
    omega

theorem truncate_above {p : PatchSet H} (ho : Overlay P hasher m p inner hist) (hn : m < manifest.versionCount) :
    (p.truncate manifest).over inner = (p.over inner).truncate manifest ∧
      ¬ (p.truncate manifest).patchesByVersion.isEmpty = true := by
  refine ⟨ext_iff'.mpr ⟨rfl, fun v => ?_, fun k => ?_⟩, fun hempty => ?_⟩
  · ext part
    rw [getElem?_over_parts, getElem?_truncate_parts]
    by_cases hv : m ≤ v
    · rw [ho.inner_eq_none hv, Option.or_none, getElem?_truncate_parts, ho.parts_of_ge hv]
    · have hpatch : (p.truncate manifest).patchesByVersion[v]? = none :=
        Option.eq_none_iff_forall_ne_some.mpr fun part' hp =>
          hv (ho.parts v part' (getElem?_truncate_parts.mp hp).1)
      rw [hpatch, Option.none_or, ho.parts_of_lt (by omega)]
      exact (and_iff_left (by omega)).symm
  · ext e
    rw [getElem?_over_keys, getElem?_truncate_keys, ho.getElem?_keys_iff]
    cases hi : inner.sortedNewLeaves[k]? with
    | none => rw [Option.or_none, getElem?_truncate_keys]; simp
    | some e' =>
      have hpatch : (p.truncate manifest).sortedNewLeaves[k]? = none :=
        Option.eq_none_iff_forall_ne_some.mpr fun e'' hp => by
          simp [getElem?_truncate_keys, ho.keys_disjoint hi] at hp
      rw [hpatch, Option.none_or, ho.keys_disjoint hi]
      simp only [reduceCtorEq, false_or, Option.some.injEq]
      refine (and_iff_left_of_imp fun he => ?_).symm
      have := ho.below.keys.lt k e' hi
      rw [length_take] at this
      subst he
      omega
  · -- The first version of the patch stays.
    obtain ⟨root, hroot, -⟩ := ho.merged.trees m _ (getElem?_eq_getElem ho.lt)
    rw [PatchSet.tryRoot, ho.parts_of_ge le_rfl] at hroot
    cases hp : p.patchesByVersion[m]? with
    | none =>
      rw [hp] at hroot
      cases hroot
    | some part => exact isEmpty_iff.mp hempty m part (getElem?_truncate_parts.mpr ⟨hp, hn⟩)

theorem truncate (hr : PatchedRepresents P hasher this hist) (manifest : Manifest)
    (hn : manifest.versionCount ≤ hist.length) (truncatedEnd : Nat) :
    ∃ this', this.truncate manifest truncatedEnd = .ok this' ∧ this'.merged = this.merged.truncate manifest ∧
      PatchedRepresents P hasher this' (hist.take manifest.versionCount) := by
  have hmerged := (hr.merged.truncate manifest hn).1
  obtain ⟨inner, rfl, hinner⟩ | ⟨m, p, inner, rfl, ho⟩ := hr.cases
  · exact ⟨⟨inner.truncate manifest, none⟩, rfl, rfl, hmerged, fun p hp => absurd hp (by simp)⟩
  · rcases Nat.lt_or_ge m manifest.versionCount with hlt | hge
    · obtain ⟨hover, hne⟩ := truncate_above ho hlt
      refine ⟨⟨inner, some (p.truncate manifest)⟩, ?_, hover, ?_, fun q hq => ⟨m, ?_⟩⟩
      · rw [Patched.truncate]
        simp only [if_neg hne]
        rfl
      · change Represents P hasher ((p.truncate manifest).over inner) _
        rw [hover]
        exact hmerged
      · cases hq
        refine ⟨?_, ?_, ?_, fun v part hv => ?_, fun k e he => ?_⟩
        · rw [take_take, Nat.min_eq_left hlt.le]
          exact ho.below
        · rw [hover]
          exact hmerged
        · rw [length_take]
          have := ho.lt
          omega
        · exact ho.parts v part (getElem?_truncate_parts.mp hv).1
        · exact ho.keys k e (getElem?_truncate_keys.mp he).1
    · obtain ⟨hover, hparts, hkeys⟩ := truncate_below ho hge
      refine ⟨⟨inner.truncate manifest, none⟩, ?_, hover.symm, ?_, fun p hp => absurd hp (by simp)⟩
      · rw [Patched.truncate]
        simp only [if_pos hparts, hkeys, assert, if_true, ok_bind]
        rfl
      · change Represents P hasher (inner.truncate manifest) _
        rw [← hover]
        exact hmerged

theorem flush (hr : PatchedRepresents P hasher this hist) : this.flush = .ok (Patched.new this.merged) := by
  obtain ⟨inner, rfl, -⟩ | ⟨m, p, inner, rfl, ho⟩ := hr.cases
  · rfl
  · have hle : inner.manifest.versionCount ≤ p.manifest.versionCount := by
      rw [ho.below.count, ho.count, length_take]
      omega
    rw [flush]
    simp only
    change (inner.applyPatch p >>= _) = _
    rw [PatchSet.applyPatch, ensure, if_pos hle]
    rfl

end PatchedRepresents

instance : LawfulDatabase (Patched (PatchSet H) H) H where
  node this := this.merged.node
  Stores := PatchedRepresents
  holds := PatchedRepresents.holds
  applyPatch {P hasher this hist c' J part patch} hr hc := by
    obtain ⟨this', happly, hmerged, hr'⟩ := hr.applyPatch hc
    obtain ⟨ps', happly', -, happlied⟩ :=
      LawfulDatabase.applyPatch (show LawfulDatabase.Stores P hasher this.merged hist from hr.merged) hc
    have hps : ps' = this'.merged := (PatchSet.eq_over_of_applyPatch happly').trans hmerged.symm
    subst hps
    refine ⟨this', happly, hr', ⟨happlied.keeps.node, fun v hv => ?_⟩, happlied.node, ?_⟩
    · exact (hr'.tryRoot v).trans ((happlied.keeps.root v hv).trans (hr.tryRoot v).symm)
    · exact (hr'.tryRoot _).trans happlied.root
  truncate {P hasher this hist} hr n := by
    refine .inr ?_
    rw [truncateRecentVersions_eq this this.merged.manifest n hr.tryManifest, hr.merged.count]
    by_cases hn : n < hist.length
    · obtain ⟨this', hok, hmerged, hr'⟩ := hr.truncate ⟨n, this.merged.manifest.tags⟩ hn.le hist.length
      obtain ⟨-, hnode, hroot⟩ := hr.merged.truncate ⟨n, this.merged.manifest.tags⟩ hn.le
      rw [← hmerged] at hnode hroot
      rw [if_pos hn, Nat.min_eq_left hn.le]
      refine ⟨this', hok, hr', hnode, fun v hv => ?_⟩
      exact (hr'.tryRoot v).trans ((hroot v hv).trans (hr.tryRoot v).symm)
    · rw [if_neg hn, take_of_length_le (Nat.le_of_not_lt hn)]
      exact ⟨this, rfl, hr, .refl _ _ _⟩

/-! ### Runs with flushes -/

variable [Inhabited H]

/-- A request through `Patched`, or a flush. -/
inductive PatchedStep where
  | serve (request : Request)
  | flush
  deriving DecidableEq

def PatchedStep.request? : PatchedStep → Option Request
  | .serve request => some request
  | .flush => none

/-- The answers to the requests and the database afterwards. -/
def patchedResponses (P : TreeParams) (hasher : HashTree H) : Patched (PatchSet H) H → List PatchedStep →
    Except TreeError (List (Except TreeError (Response H)) × Patched (PatchSet H) H)
  | this, [] => .ok ([], this)
  | this, .serve request :: steps => do
    let (response, this) := request.serve P hasher this
    let (responses, this) ← patchedResponses P hasher this steps
    return (response :: responses, this)
  | this, .flush :: steps => do
    let this ← this.flush
    patchedResponses P hasher this steps

/-- The database after a sequence of requests. -/
def serveAll (P : TreeParams) (hasher : HashTree H) (db : PatchSet H) (requests : List Request) : PatchSet H :=
  requests.foldl (fun db request => (request.serve P hasher db).2) db

variable {this : Patched (PatchSet H) H}

omit [Inhabited H] in
theorem Patched.merged_applyPatch {this' : Patched (PatchSet H) H} {patch : PatchSet H}
    (h : this.applyPatch patch = .ok this') : this'.merged = patch.over this.merged := by
  obtain ⟨inner, pending⟩ := this
  cases pending with
  | none =>
    cases h
    rfl
  | some p =>
    obtain ⟨q, hq, h⟩ := bind_eq_ok.mp h
    cases pure_eq_ok.mp h
    rw [eq_over_of_applyPatch hq]
    exact (over_assoc _ _ _).symm

omit [Inhabited H] in
theorem PatchedRepresents.truncateRecentVersions (hr : PatchedRepresents P hasher this hist) (n : Nat) :
    ∃ db' this', truncateRecentVersions this.merged n = .ok db' ∧
      truncateRecentVersions this n = .ok this' ∧ this'.merged = db' := by
  rw [truncateRecentVersions_eq this.merged this.merged.manifest n rfl,
    truncateRecentVersions_eq this this.merged.manifest n hr.tryManifest, hr.merged.count]
  by_cases hn : n < hist.length
  · obtain ⟨this', hok, hmerged, -⟩ := hr.truncate ⟨n, this.merged.manifest.tags⟩ hn.le hist.length
    rw [if_pos hn, if_pos hn]
    exact ⟨_, this', rfl, hok, hmerged⟩
  · rw [if_neg hn, if_neg hn]
    exact ⟨_, this, rfl, rfl, rfl⟩

/-- One request to a patch set and to a `Patched` one that stands for it. -/
theorem PatchedRepresents.serve (hr : PatchedRepresents P hasher this hist) (request : Request) :
    (request.serve P hasher this.merged).1 = (request.serve P hasher this).1 ∧
      (request.serve P hasher this).2.merged = (request.serve P hasher this.merged).2 ∧
      ∃ hist', PatchedRepresents P hasher (request.serve P hasher this).2 hist' := by
  have ha : Agree P hasher this.merged this hist := ⟨hr.merged, hr, fun _ _ _ => rfl, fun v _ => hr.tryRoot v⟩
  obtain ⟨hresponse, hchange, hist', ha'⟩ := ha.serve request
    (fun n _ => by
      obtain ⟨db', this', h, h', -⟩ := hr.truncateRecentVersions n
      exact ⟨⟨db', h⟩, ⟨this', h'⟩⟩)
    fun v _ hv => ⟨hr.merged.tryRoot_of_ge hv, (hr.tryRoot v).trans (hr.merged.tryRoot_of_ge hv)⟩
  refine ⟨hresponse, ?_, hist', ha'.right⟩
  generalize (request.serve P hasher this.merged).2 = db₁ at hchange
  generalize (request.serve P hasher this).2 = this₁ at hchange
  cases hchange with
  | none => rfl
  | patch h h' => rw [merged_applyPatch h', ← eq_over_of_applyPatch h]
  | truncate h h' =>
    obtain ⟨db', this', ht, ht', hmerged⟩ := hr.truncateRecentVersions _
    cases h.symm.trans ht
    cases h'.symm.trans ht'
    exact hmerged

theorem PatchedRepresents.responses_eq (hr : PatchedRepresents P hasher this hist)
    (steps : List PatchedStep) : ∃ this', patchedResponses P hasher this steps =
        .ok (responses P hasher this.merged (steps.filterMap PatchedStep.request?), this') ∧
      this'.flush = .ok (Patched.new (serveAll P hasher this.merged (steps.filterMap PatchedStep.request?))) := by
  induction steps generalizing this hist with
  | nil => exact ⟨this, rfl, hr.flush⟩
  | cons step steps ih =>
    cases step with
    | serve request =>
      obtain ⟨hresponse, hmerged, hist', hr'⟩ := hr.serve request
      obtain ⟨this', hrest, hflush⟩ := ih hr'
      rw [hmerged] at hrest hflush
      refine ⟨this', ?_, hflush⟩
      simp only [patchedResponses, hrest, ok_bind, ← hresponse]
      rfl
    | flush =>
      obtain ⟨this', hrest, hflush⟩ := ih (new hr.merged)
      refine ⟨this', ?_, hflush⟩
      simp only [patchedResponses, hr.flush, ok_bind, hrest]
      rfl

/-- Requests through `Patched`, flushed at any points, are answered as by the
wrapped database itself, and a flush at the end makes the two databases equal. -/
theorem patched_transparent (P : TreeParams) (hasher : HashTree H) (calls : List Call) (steps : List PatchedStep) :
    ∃ this, patchedResponses P hasher (Patched.new (run P hasher calls (PatchSet.empty : PatchSet H))) steps =
        .ok (responses P hasher (run P hasher calls (PatchSet.empty : PatchSet H))
          (steps.filterMap PatchedStep.request?), this) ∧
      this.flush = .ok (Patched.new (serveAll P hasher (run P hasher calls (PatchSet.empty : PatchSet H))
        (steps.filterMap PatchedStep.request?))) := by
  obtain ⟨hist, hr, -⟩ := (Reached.patchSet : Reached P hasher _ []).run calls
  exact (PatchedRepresents.new hr.stores).responses_eq steps

end MerkleTree
