import ZksyncOsServer.Repository.Rollback

/-!
# The log index loses no block

A block is a candidate for a filter that one of its logs satisfies: the bit of the block is
set for the address and for all topics of the log as long as the block is stored, and blocks
that were written before the index existed are outside the range it covers. This is so until
the blocks reach `2 ^ 32 - 1`, when the end of the covered range no longer fits 32 bits.
-/
namespace Repository

open Fallible List KeyedLog RepositoryDb
open MerkleTree (B256 Map)

variable {P : Type}

/-! ### Bits -/

section Bits
variable {K : Type} [LinearOrder K] {db cache : Chunks K} {key : K} {f : Nat → Bitmap → Bitmap} {m n : Nat}

def offsetOf (n : Nat) : Nat := n - chunkStart n

def HasBit (db : Chunks K) (key : K) (n : Nat) : Prop := offsetOf n ∈ (db[toLex (key, chunkStart n)]?).getD ∅

def cached (db cache : Chunks K) (key : K ×ₗ Nat) : Bitmap := (cache[key]?).getD ((db[key]?).getD ∅)

def CachedBit (db cache : Chunks K) (key : K) (n : Nat) : Prop :=
  offsetOf n ∈ cached db cache (toLex (key, chunkStart n))

theorem chunkStart_le (n : Nat) : chunkStart n ≤ n := Nat.div_mul_le_self n chunkSize

theorem eq_of_chunk (hc : chunkStart m = chunkStart n) (ho : offsetOf m = offsetOf n) : m = n := by
  have hm := chunkStart_le m
  have hn := chunkStart_le n
  rw [offsetOf, offsetOf] at ho
  omega

theorem cached_withChunk (key key' : K ×ₗ Nat) (g : Bitmap → Bitmap) :
    cached db (withChunk db cache key g) key' = if key' = key then g (cached db cache key) else cached db cache key' := by
  rw [cached, withChunk, SortedMap.getElem?_insert]
  split <;> rfl

def OnlyOffset (f : Nat → Bitmap → Bitmap) : Prop := ∀ offset bitmap x, x ≠ offset → (x ∈ f offset bitmap ↔ x ∈ bitmap)

theorem cachedBit_withChunk_of_ne (hf : OnlyOffset f) (hne : m ≠ n) (key key' : K) :
    CachedBit db (withChunk db cache (toLex (key', chunkStart n)) (f (offsetOf n))) key m ↔
      CachedBit db cache key m := by
  rw [CachedBit, CachedBit, cached_withChunk]
  split
  next heq =>
    obtain ⟨rfl, hc⟩ := Prod.mk.inj (toLex.injective heq)
    rw [hf _ _ _ fun ho => hne (eq_of_chunk hc ho), ← hc]
  · exact Iff.rfl

theorem cachedBit_touchChunks_of_ne (hf : OnlyOffset f) (hne : m ≠ n) (keys : List K) (cache : Chunks K) :
    CachedBit db (touchChunks db n f cache keys) key m ↔ CachedBit db cache key m := by
  induction keys generalizing cache with
  | nil => exact Iff.rfl
  | cons key' keys ih =>
    exact (ih _).trans (cachedBit_withChunk_of_ne hf hne key key')

theorem cachedBit_withChunk_insert (key' : K) (h : key = key' ∨ CachedBit db cache key n) :
    CachedBit db (withChunk db cache (toLex (key', chunkStart n)) (insert (offsetOf n))) key n := by
  rw [CachedBit, cached_withChunk]
  split
  · exact Finset.mem_insert_self _ _
  next hne =>
    exact h.resolve_left fun heq => hne (by rw [heq])

theorem cachedBit_touchChunks_insert {keys : List K} (h : key ∈ keys ∨ CachedBit db cache key n) :
    CachedBit db (touchChunks db n insert cache keys) key n := by
  induction keys generalizing cache with
  | nil => exact h.resolve_left not_mem_nil
  | cons key' keys ih =>
    refine ih ?_
    rcases h with h | h
    · rcases mem_cons.mp h with rfl | h
      · exact .inr (cachedBit_withChunk_insert _ (.inl rfl))
      · exact .inl h
    · exact .inr (cachedBit_withChunk_insert _ (.inr h))

theorem last_toList (m : Chunks K) (key : K ×ₗ Nat) : (last Prod.fst m.toList key).map Prod.snd = m[key]? := by
  cases h : m[key]? with
  | none =>
    have hnone : last Prod.fst m.toList key = none := by
      rw [last_eq_none]
      rintro ⟨_, b⟩ hmem rfl
      rw [SortedMap.mem_toList.mp hmem] at h
      cases h
    rw [hnone]
    rfl
  | some b =>
    refine last_map_of_unique Prod.fst (SortedMap.mem_toList.mpr h) ?_
    rintro ⟨_, b'⟩ hmem rfl
    exact Option.some.inj ((SortedMap.mem_toList.mp hmem).symm.trans h)

theorem getD_foldl_write (l : List ((K ×ₗ Nat) × Bitmap)) (db : Chunks K) (key : K ×ₗ Nat) :
    ((l.foldl (fun db (key, bitmap) => if bitmap = ∅ then db.erase key else db.insert key bitmap) db)[key]?).getD ∅ =
      ((last Prod.fst l key).map Prod.snd).getD ((db[key]?).getD ∅) := by
  induction l generalizing db with
  | nil => rfl
  | cons e l ih =>
    rw [foldl_cons, ih, ← singleton_append, last_append]
    cases last Prod.fst l key with
    | some e' => rfl
    | none =>
      obtain ⟨key', bitmap⟩ := e
      rcases eq_or_ne key key' with rfl | hkey
      · by_cases hempty : bitmap = ∅ <;> simp [last, hempty]
      · by_cases hempty : bitmap = ∅ <;>
          simp [last, hempty, SortedMap.getElem?_erase, SortedMap.getElem?_insert, hkey, hkey.symm]

theorem hasBit_writeBitmaps : HasBit (writeBitmaps cache db) key n ↔ CachedBit db cache key n := by
  rw [HasBit, writeBitmaps, getD_foldl_write, last_toList]
  rfl

end Bits

/-! ### Bits of the stored blocks -/

structure Indexed (db : RepositoryDb P) (entry : Entry P) : Prop where
  address : ∀ log ∈ entry.2.flatMap (·.receipt.logs), HasBit db.logBlocksByAddress log.address entry.1.number
  topic : ∀ log ∈ entry.2.flatMap (·.receipt.logs), ∀ topic ∈ log.topics,
    HasBit db.logBlocksByTopic topic entry.1.number

section Indexed
variable {db db' : RepositoryDb P} {entry : Entry P} {k m n : Nat} {f : Nat → Bitmap → Bitmap}

structure SameBits (db : RepositoryDb P) (n : Nat) (cache cache' : BitmapCache) : Prop where
  address : ∀ key, CachedBit db.logBlocksByAddress cache'.byAddress key n ↔
    CachedBit db.logBlocksByAddress cache.byAddress key n
  topic : ∀ key, CachedBit db.logBlocksByTopic cache'.byTopic key n ↔
    CachedBit db.logBlocksByTopic cache.byTopic key n

theorem SameBits.touchLogs (hf : OnlyOffset f) (hne : m ≠ n) (cache : BitmapCache) (txs : List (StoredTxData P)) :
    SameBits db m cache (db.touchLogs f cache n txs) :=
  ⟨fun _ => cachedBit_touchChunks_of_ne hf hne _ _, fun _ => cachedBit_touchChunks_of_ne hf hne _ _⟩

theorem SameBits.trans {a b c : BitmapCache} (h : SameBits db n a b) (h' : SameBits db n b c) : SameBits db n a c :=
  ⟨fun key => (h'.address key).trans (h.address key), fun key => (h'.topic key).trans (h.topic key)⟩

theorem SameBits.foldl (hf : OnlyOffset f) (l : List (Nat × Entry P)) (cache : BitmapCache) (hm : ∀ e ∈ l, m ≠ e.1) :
    SameBits db m cache (l.foldl (fun cache (n, _, txs) => db.touchLogs f cache n txs) cache) := by
  induction l generalizing cache with
  | nil => exact ⟨fun _ => Iff.rfl, fun _ => Iff.rfl⟩
  | cons e l ih =>
    rw [forall_mem_cons] at hm
    exact (touchLogs hf hm.1 cache e.2.2).trans (ih _ hm.2)

theorem Indexed.flush (h : Indexed db entry) {cache : BitmapCache} (hs : SameBits db entry.1.number ⟨∅, ∅⟩ cache)
    (haddress : db'.logBlocksByAddress = (db.flush cache).logBlocksByAddress)
    (htopic : db'.logBlocksByTopic = (db.flush cache).logBlocksByTopic) : Indexed db' entry := by
  constructor
  · intro log hlog
    rw [haddress, RepositoryDb.flush, hasBit_writeBitmaps, hs.address]
    exact h.address log hlog
  · intro log hlog topic ht
    rw [htopic, RepositoryDb.flush, hasBit_writeBitmaps, hs.topic]
    exact h.topic log hlog topic ht

theorem onlyOffset_insert : OnlyOffset insert := by
  intro offset bitmap x hx
  simp [hx]

theorem onlyOffset_erase : OnlyOffset fun offset bitmap => bitmap.erase offset := by
  intro offset bitmap x hx
  simp [hx]

theorem indexed_writeBlock (db : RepositoryDb P) (entry : Entry P) : Indexed (db.writeBlock entry.1 entry.2) entry := by
  constructor
  · intro log hlog
    exact hasBit_writeBitmaps.mpr (cachedBit_touchChunks_insert (.inl (mem_map_of_mem hlog)))
  · intro log hlog topic ht
    exact hasBit_writeBitmaps.mpr (cachedBit_touchChunks_insert (.inl (mem_flatMap.mpr ⟨log, hlog, ht⟩)))

theorem Indexed.writeBlock (h : Indexed db entry) {block : Block P} (hne : entry.1.number ≠ block.number)
    (txs : List (StoredTxData P)) : Indexed (db.writeBlock block txs) entry :=
  h.flush (SameBits.touchLogs onlyOffset_insert hne _ txs) rfl rfl

theorem Indexed.deleteBlocks (h : Indexed db entry) {numbers : List Nat} (hm : entry.1.number ∉ numbers)
    (removed : List (Entry P)) : Indexed (db.deleteBlocks k numbers removed) entry := by
  refine h.flush (SameBits.foldl onlyOffset_erase (numbers.zip removed) _ fun e he heq => hm ?_) rfl rfl
  exact heq ▸ (of_mem_zip he).1

end Indexed

/-! ### Histories -/

/-- The blocks have consecutive numbers from 0. -/
def Numbered (entries : List (Entry P)) : Prop :=
  ∀ (i : Nat) (entry : Entry P), entries[i]? = some entry → entry.1.number = i

/-- A database from before the index. -/
def preIndex (entries : List (Entry P)) : RepositoryDb P :=
  entries.foldl (fun db entry => db.writeData entry.1 entry.2) .empty

/-- A database and the blocks it stores, after any writes and rollbacks. The first blocks may have
been written before there was an index. -/
inductive History : RepositoryDb P → List (Entry P) → Prop
  | start (entries : List (Entry P)) (h : Numbered entries) : History (preIndex entries) entries
  | write {db : RepositoryDb P} {chain : List (Entry P)} (h : History db chain) (entry : Entry P)
    (hn : entry.1.number = chain.length) : History (db.writeBlock entry.1 entry.2) (chain ++ [entry])
  | rollback {db db' : RepositoryDb P} {chain : List (Entry P)} (h : History db chain) (k : Nat)
    (hk : db.rollback k = .ok db') : History db' (chain.take (k + 1))

structure Covers (db : RepositoryDb P) (chain : List (Entry P)) : Prop where
  number : Numbered chain
  latest : ∀ n, db.blockNumber = some n → chain.length = n + 1
  last : ∀ first, db.logIndexFirstBlock = some first → ∃ last, db.logIndexLastBlock = some last ∧
    chain.length = last + 1
  indexed : ∀ first, db.logIndexFirstBlock = some first → ∀ entry ∈ chain, first ≤ entry.1.number → Indexed db entry

section History
variable {db db' : RepositoryDb P} {chain : List (Entry P)} {entry : Entry P} {k : Nat}

theorem preIndex_fields (entries : List (Entry P)) : (preIndex entries).logIndexFirstBlock = none ∧
    (preIndex entries).blockNumber = entries.getLast?.map (·.1.number) := by
  induction entries using reverseRecOn with
  | nil => exact ⟨rfl, rfl⟩
  | append_singleton entries entry ih =>
    rw [preIndex, foldl_append, ← preIndex, getLast?_append]
    exact ⟨ih.1, rfl⟩

theorem covers_preIndex {entries : List (Entry P)} (h : Numbered entries) : Covers (preIndex entries) entries := by
  obtain ⟨hfirst, hlatest⟩ := preIndex_fields entries
  refine ⟨h, fun n hn => ?_, fun first hf => ?_, fun first hf => ?_⟩
  · rw [hlatest, Option.map_eq_some_iff] at hn
    obtain ⟨entry, he, rfl⟩ := hn
    rw [getLast?_eq_getElem?] at he
    have hlt := (List.getElem?_eq_some_iff.mp he).1
    rw [h _ entry he]
    omega
  all_goals
    rw [hfirst] at hf
    cases hf

theorem Covers.write (h : Covers db chain) (hn : entry.1.number = chain.length) :
    Covers (db.writeBlock entry.1 entry.2) (chain ++ [entry]) := by
  constructor
  case number =>
    intro i e he
    rcases Nat.lt_trichotomy i chain.length with hi | rfl | hi
    · rw [getElem?_append_left hi] at he
      exact h.number i e he
    · simp at he
      rw [← he, hn]
    · rw [getElem?_eq_none (by simp; omega)] at he
      cases he
  case latest =>
    intro n hlatest
    obtain rfl : entry.1.number = n := Option.some.inj hlatest
    simp [hn]
  case last => exact fun first _ => ⟨entry.1.number, rfl, by simp [hn]⟩
  case indexed =>
    intro first hf e he hle
    rcases mem_append.mp he with he | he
    · obtain ⟨i, hi⟩ := mem_iff_getElem?.mp he
      have hlt := (List.getElem?_eq_some_iff.mp hi).1
      have hnumber := h.number i e hi
      have hne : e.1.number ≠ entry.1.number := by omega
      refine Indexed.writeBlock ?_ hne entry.2
      -- an older block is only covered if the index was there before
      cases hfirst : db.logIndexFirstBlock with
      | none =>
        simp only [writeBlock, writeData, writeIndex, hfirst, Option.getD_none, Option.some.injEq] at hf
        omega
      | some first' =>
        simp only [writeBlock, writeData, writeIndex, hfirst, Option.getD_some, Option.some.injEq] at hf
        exact h.indexed first' hfirst e he (by omega)
    · rw [mem_singleton.mp he]
      exact indexed_writeBlock db entry

theorem Covers.rollback (h : Covers db chain) (hk : db.rollback k = .ok db') : Covers db' (chain.take (k + 1)) := by
  obtain ⟨latest, hlatest, hk⟩ := bind_eq_ok.mp hk
  have hlen := h.latest latest (ofOption_eq_ok.mp hlatest)
  split at hk
  next hlt =>
    obtain ⟨removed, -, hk⟩ := bind_eq_ok.mp hk
    obtain rfl := pure_eq_ok.mp hk
    have htake : (chain.take (k + 1)).length = k + 1 := by
      rw [length_take]
      omega
    have hmem : ∀ e ∈ chain.take (k + 1), e.1.number ≤ k := by
      intro e he
      obtain ⟨i, hi⟩ := mem_iff_getElem?.mp he
      have hlt' := (List.getElem?_eq_some_iff.mp hi).1
      rw [getElem?_take, if_pos (by omega)] at hi
      rw [h.number i e hi]
      omega
    constructor
    case number =>
      intro i e he
      rw [getElem?_take] at he
      split at he
      · exact h.number i e he
      · cases he
    case latest =>
      intro n hn
      obtain rfl : k = n := Option.some.inj hn
      exact htake
    case last => exact fun first _ => ⟨k, rfl, htake⟩
    case indexed =>
      intro first hf e he hle
      refine (h.indexed first hf e (mem_of_mem_take he) hle).deleteBlocks (fun hin => ?_) removed
      have hbound := hmem e he
      rw [mem_range'_1] at hin
      omega
  · obtain rfl := pure_eq_ok.mp hk
    rwa [take_of_length_le (by omega)]

theorem History.covers (h : History db chain) : Covers db chain := by
  induction h with
  | start entries h => exact covers_preIndex h
  | write _ entry hn ih => exact ih.write hn
  | rollback _ k hk ih => exact ih.rollback hk

end History

/-! ### Queries -/

theorem Candidates.mayContain_iff {n : Nat} {c : Candidates} :
    c.mayContain n = true ↔ (c.covered.1 ≤ n → n < c.covered.2 → asU32 n ∈ c.bitmap) := by
  simp only [mayContain, Bool.or_eq_true, Bool.not_eq_true', Bool.and_eq_false_imp, decide_eq_true_iff,
    decide_eq_false_iff_not]
  tauto

section Queries
variable {K : Type} [LinearOrder K] {db : Chunks K} {key : K} {n : Nat} {range : Nat × Nat}

theorem mem_foldl_union {α : Type} (g : α → Bitmap) (l : List α) (start : Bitmap) (x : Nat) :
    x ∈ l.foldl (fun result a => result ∪ g a) start ↔ x ∈ start ∨ ∃ a ∈ l, x ∈ g a := by
  induction l generalizing start with
  | nil => simp
  | cons a l ih => rw [foldl_cons, ih, Finset.mem_union, or_assoc, exists_mem_cons_iff]

theorem asU32_of_lt (h : n < 2 ^ 32) : asU32 n = n := Nat.mod_eq_of_lt h

theorem chunkStart_mono {m : Nat} (h : m ≤ n) : chunkStart m ≤ chunkStart n :=
  Nat.mul_le_mul_right _ (Nat.div_le_div_right h)

theorem mem_readRange (hbit : HasBit db key n) (hle : range.1 ≤ n) (hlt : n < range.2) (hend : range.2 < 2 ^ 32) :
    asU32 n ∈ readRange db key range := by
  obtain ⟨bitmap, hget, hoffset⟩ : ∃ bitmap, db[toLex (key, chunkStart n)]? = some bitmap ∧ offsetOf n ∈ bitmap := by
    rw [HasBit] at hbit
    cases hget : db[toLex (key, chunkStart n)]? with
    | none => rw [hget] at hbit; exact absurd hbit (Finset.notMem_empty _)
    | some bitmap => exact ⟨bitmap, rfl, by rwa [hget] at hbit⟩
  have hstart := chunkStart_le n
  have hchunk : chunkStart n < chunkStart (range.2 - 1) + chunkSize :=
    Nat.lt_of_le_of_lt (chunkStart_mono (by omega)) (Nat.lt_add_of_pos_right (by decide))
  rw [readRange, Finset.mem_filter, mem_foldl_union (fun e : (K ×ₗ Nat) × Bitmap => e.2.image fun offset =>
    asU32 (ofLex e.1).2 + offset), asU32_of_lt (by omega), asU32_of_lt (by omega), asU32_of_lt hend]
  refine ⟨.inr ⟨(toLex (key, chunkStart n), bitmap), ?_, ?_⟩, hle, hlt⟩
  · rw [mem_filter, decide_eq_true_iff]
    exact ⟨SortedMap.mem_toList.mpr hget, rfl, chunkStart_mono hle, hchunk⟩
  · refine Finset.mem_image.mpr ⟨offsetOf n, hoffset, ?_⟩
    rw [ofLex_toLex, asU32_of_lt (by omega), offsetOf]
    omega

theorem readRange_wrapped (db : Chunks K) (key : K) (start : Nat) : readRange db key (start, 2 ^ 32) = ∅ := by
  rw [readRange, Finset.filter_eq_empty_iff]
  have hwrap : asU32 (2 ^ 32) = 0 := by decide
  rintro x - ⟨-, hx⟩
  rw [hwrap] at hx
  exact absurd hx (Nat.not_lt_zero x)

/-- An answer to a query admits the blocks whose bit is set, and those that it does not cover. -/
theorem mayContain_query {cov : Option (Nat × Nat)}
    (h : ∀ c, cov = some c → c.1 ≤ n → n < c.2 → HasBit db key n ∧ min range.2 c.2 < 2 ^ 32) :
    (Candidates.mk (query cov db key range).1 (query cov db key range).2).mayContain n = true := by
  rw [Candidates.mayContain_iff]
  cases cov with
  | none => exact fun _ hlt => absurd hlt (Nat.not_lt_zero n)
  | some c =>
    rw [query]
    dsimp only
    split
    · intro hle hlt
      dsimp only at hle hlt
      obtain ⟨hbit, hend⟩ := h c rfl (by omega) (by omega)
      exact mem_readRange hbit hle hlt hend
    · exact fun _ hlt => absurd hlt (Nat.not_lt_zero n)

end Queries

/-! ### Candidates -/

namespace Candidates

variable {a b : Candidates} {n : Nat}

theorem mayContain_or (h : a.mayContain n = true ∨ b.mayContain n = true) : (a.or b).mayContain n = true := by
  simp only [mayContain_iff] at h ⊢
  intro hle hlt
  simp only [or, intersect, max_le_iff, lt_min_iff] at hle hlt
  rw [or, Finset.mem_union]
  exact h.imp (fun h => h hle.1 hlt.1) fun h => h hle.2 hlt.2

theorem mayContain_and (ha : a.mayContain n = true) (hb : b.mayContain n = true) : (a.and b).mayContain n = true := by
  rw [mayContain_iff] at ha hb ⊢
  intro hle hlt
  simp only [and, intersect, max_le_iff, lt_min_iff] at hle hlt
  exact Finset.mem_inter.mpr ⟨ha hle.1 hlt.1, hb hle.2 hlt.2⟩

theorem mayContain_foldl_or (cs : List Candidates) (h : a.mayContain n = true ∨ ∃ c ∈ cs, c.mayContain n = true) :
    (cs.foldl or a).mayContain n = true := by
  induction cs generalizing a with
  | nil => exact h.resolve_right (by simp)
  | cons c cs ih =>
    refine ih ?_
    rw [exists_mem_cons_iff, ← or_assoc] at h
    exact h.imp_left mayContain_or

theorem mayContain_foldl_and (cs : List Candidates) (ha : a.mayContain n = true)
    (h : ∀ c ∈ cs, c.mayContain n = true) : (cs.foldl and a).mayContain n = true := by
  induction cs generalizing a with
  | nil => exact ha
  | cons c cs ih =>
    rw [forall_mem_cons] at h
    exact ih (mayContain_and ha h.1) h.2

theorem mayContain_reduce_or {cs : List Candidates} (h : ∃ c ∈ cs, c.mayContain n = true) :
    (reduce or cs).mayContain n = true := by
  cases cs with
  | nil => exact absurd h (by simp)
  | cons c cs =>
    rw [exists_mem_cons_iff] at h
    exact mayContain_foldl_or cs h

theorem mayContain_reduce_and {cs : List Candidates} (h : ∀ c ∈ cs, c.mayContain n = true) :
    (reduce and cs).mayContain n = true := by
  cases cs with
  | nil => exact mayContain_iff.mpr fun _ hlt => absurd hlt (Nat.not_lt_zero n)
  | cons c cs =>
    rw [forall_mem_cons] at h
    exact mayContain_foldl_and cs h.1 h.2

end Candidates

/-! ### Soundness -/

/-- Every stored block that has a log for a filter is a candidate in every range with the block. -/
def CandidatesSound (db : RepositoryDb P) (chain : List (Entry P)) : Prop :=
  ∀ (filter : Filter) (range : Nat × Nat), ∀ entry ∈ chain, entry.1.number < 2 ^ 32 - 1 →
    range.1 ≤ entry.1.number → entry.1.number < range.2 →
    (∃ log ∈ entry.2.flatMap (·.receipt.logs), filter.Matches log) →
    (db.candidates filter range).mayContain entry.1.number = true

def Covered (db : RepositoryDb P) (n : Nat) : Prop := ∃ first, db.logIndexFirstBlock = some first ∧ first ≤ n

section Sound
variable {db : RepositoryDb P} {chain : List (Entry P)} {entry : Entry P} {range : Nat × Nat} {filter : Filter}

theorem Covers.coverage (h : Covers db chain) {c : Nat × Nat} (hc : db.coverage = some c) :
    db.logIndexFirstBlock = some c.1 ∧ c.2 = chain.length := by
  rw [RepositoryDb.coverage] at hc
  split at hc
  next first last hfirst hlast =>
    obtain rfl := Option.some.inj hc
    obtain ⟨last', hlast', hlen⟩ := h.last first hfirst
    rw [hlast, Option.some.injEq] at hlast'
    exact ⟨hfirst, by omega⟩
  · cases hc

theorem mayContain_candidates {n : Nat}
    (haddress : filter.address ≠ [] → ∃ a ∈ filter.address, (db.blocksForAddress a range).mayContain n = true)
    (htopic : ∀ topics ∈ filter.topics, topics ≠ [] →
      ∃ topic ∈ topics, (db.blocksForTopic topic range).mayContain n = true) :
    (db.candidates filter range).mayContain n = true := by
  refine Candidates.mayContain_reduce_and fun c hc => ?_
  rcases mem_append.mp hc with hc | hc
  · split at hc
    next hne =>
      rw [mem_singleton.mp hc]
      obtain ⟨a, ha, hmay⟩ := haddress hne
      exact Candidates.mayContain_reduce_or ⟨_, mem_map_of_mem ha, hmay⟩
    · exact absurd hc not_mem_nil
  · obtain ⟨topics, htopics, rfl⟩ := mem_map.mp hc
    obtain ⟨hmem, hne⟩ := mem_filter.mp htopics
    obtain ⟨topic, ht, hmay⟩ := htopic topics hmem (by simpa using hne)
    exact Candidates.mayContain_reduce_or ⟨_, mem_map_of_mem ht, hmay⟩

theorem Covers.mayContain (h : Covers db chain) (hentry : entry ∈ chain)
    (hlen : Covered db entry.1.number → min range.2 chain.length < 2 ^ 32)
    (hmatch : ∃ log ∈ entry.2.flatMap (·.receipt.logs), filter.Matches log) :
    (db.candidates filter range).mayContain entry.1.number = true := by
  obtain ⟨log, hlog, haddress, htopics⟩ := hmatch
  have hindexed : ∀ c, db.coverage = some c → c.1 ≤ entry.1.number → Indexed db entry ∧ min range.2 c.2 < 2 ^ 32 := by
    intro c hc hle
    obtain ⟨hfirst, hend⟩ := h.coverage hc
    have hlt := hlen ⟨c.1, hfirst, hle⟩
    exact ⟨h.indexed c.1 hfirst entry hentry hle, by rwa [hend]⟩
  refine mayContain_candidates (fun hne => ⟨log.address, haddress hne, ?_⟩) fun topics hmem hne => ?_
  · refine mayContain_query fun c hc hle _ => ?_
    exact ⟨(hindexed c hc hle).1.address log hlog, (hindexed c hc hle).2⟩
  · obtain ⟨i, hi⟩ := mem_iff_getElem?.mp hmem
    obtain ⟨topic, htopic, hin⟩ := htopics i topics hi hne
    refine ⟨topic, hin, mayContain_query fun c hc hle _ => ?_⟩
    exact ⟨(hindexed c hc hle).1.topic log hlog topic (mem_of_getElem? htopic), (hindexed c hc hle).2⟩

theorem Covers.lost (h : Covers db chain) (hlen : 2 ^ 32 ≤ chain.length) {n : Nat} (hc : Covered db n)
    (hn : n < 2 ^ 32) (address : Address) : (db.candidates ⟨[address], []⟩ (0, 2 ^ 32)).mayContain n = false := by
  obtain ⟨first, hfirst, hle⟩ := hc
  obtain ⟨last, hlast, hlen'⟩ := h.last first hfirst
  have hcov : db.coverage = some (first, last + 1) := by rw [RepositoryDb.coverage, hfirst, hlast]
  have hmin : min (2 ^ 32) (last + 1) = 2 ^ 32 := by omega
  have hcandidates : db.candidates ⟨[address], []⟩ (0, 2 ^ 32) = ⟨∅, first, 2 ^ 32⟩ := by
    have hquery : db.blocksForAddress address (0, 2 ^ 32) = ⟨∅, first, 2 ^ 32⟩ := by
      rw [blocksForAddress, hcov, query]
      simp only [Nat.zero_max, hmin, readRange_wrapped]
      rw [if_pos (by omega)]
    exact hquery
  rw [hcandidates, Candidates.mayContain]
  simpa [hle] using hn

/-- In every history the index is sound as long as there are fewer than `2 ^ 32` blocks, and from then on
only if no covered block has a log. -/
theorem candidates_sound_iff (h : History db chain) :
    CandidatesSound db chain ↔ chain.length < 2 ^ 32 ∨ ∀ entry ∈ chain, entry.1.number < 2 ^ 32 - 1 →
      Covered db entry.1.number → entry.2.flatMap (·.receipt.logs) = [] := by
  have hcovers := h.covers
  constructor
  · intro hsound
    by_contra! hneg
    obtain ⟨hlen, entry, hentry, hn, hc, hlogs⟩ := hneg
    obtain ⟨log, hlog⟩ := exists_mem_of_ne_nil _ hlogs
    have hmay := hsound ⟨[log.address], []⟩ (0, 2 ^ 32) entry hentry hn (Nat.zero_le _)
      (Nat.lt_of_lt_of_le hn (Nat.sub_le _ _)) ⟨log, hlog, by simp [Filter.Matches]⟩
    rw [hcovers.lost hlen hc (by omega)] at hmay
    cases hmay
  · intro hcond filter range entry hentry hn _ _ hmatch
    refine hcovers.mayContain hentry (fun hc => ?_) hmatch
    refine (min_le_right _ _).trans_lt (hcond.resolve_right fun hnone => ?_)
    obtain ⟨log, hlog, -⟩ := hmatch
    rw [hnone entry hentry hn hc] at hlog
    exact absurd hlog not_mem_nil

/-- Two blocks before the index, then a block with a log. -/
theorem candidates_sound_sample : CandidatesSound (P := Nat)
      ((preIndex [(⟨0, 100, [], 0⟩, []), (⟨1, 101, [], 0⟩, [])]).writeBlock ⟨2, 102, [7], 0⟩
        [⟨⟨7, 1, 0, 0⟩, ⟨[⟨1, [5]⟩], 0⟩, 0⟩])
      [(⟨0, 100, [], 0⟩, []), (⟨1, 101, [], 0⟩, []), (⟨2, 102, [7], 0⟩, [⟨⟨7, 1, 0, 0⟩, ⟨[⟨1, [5]⟩], 0⟩, 0⟩])] := by
  refine (candidates_sound_iff (.write (.start _ ?_) (⟨2, 102, [7], 0⟩, _) rfl)).mpr (.inl (by decide))
  intro i entry h
  match i with
  | 0 | 1 => cases h; rfl
  | i + 2 => cases h

def emptyBlocks (n : Nat) : List (Entry Nat) := (List.range n).map fun i => (⟨i, 0, [], 0⟩, [])

theorem emptyBlocks_numbered (n : Nat) : Numbered (emptyBlocks n) := by
  intro i entry h
  simp only [emptyBlocks, getElem?_map, Option.map_eq_some_iff] at h
  obtain ⟨j, hj, rfl⟩ := h
  exact (List.getElem?_eq_some_iff.mp hj).2 ▸ by simp

def blockWithLog (n : Nat) : Entry Nat := (⟨n, 1, [7], 0⟩, [⟨⟨7, 1, 0, 0⟩, ⟨[⟨1, []⟩], 0⟩, 0⟩])

def emptyBlock (n : Nat) : Entry Nat := (⟨n, 2, [], 0⟩, [])

def longDb (n : Nat) : RepositoryDb Nat :=
  ((preIndex (emptyBlocks n)).writeBlock (blockWithLog n).1 (blockWithLog n).2).writeBlock (emptyBlock (n + 1)).1
    (emptyBlock (n + 1)).2

def longChain (n : Nat) : List (Entry Nat) := emptyBlocks n ++ [blockWithLog n] ++ [emptyBlock (n + 1)]

theorem longDb_history (n : Nat) : History (longDb n) (longChain n) :=
  .write (.write (.start _ (emptyBlocks_numbered n)) (blockWithLog n) (by simp [blockWithLog, emptyBlocks]))
    (emptyBlock (n + 1)) (by simp [emptyBlock, emptyBlocks])

theorem longDb_covered (n : Nat) : Covered (longDb n) n := by
  refine ⟨n, ?_, Nat.le_refl n⟩
  simp [longDb, writeBlock, writeData, writeIndex, flush, (preIndex_fields _).1, blockWithLog]

theorem longDb_lost {n : Nat} (hn : n + 2 = 2 ^ 32) :
    ((longDb n).candidates ⟨[1], []⟩ (0, 2 ^ 32)).mayContain n = false := by
  have hlen : (longChain n).length = n + 2 := by simp [longChain, emptyBlocks]
  exact (longDb_history n).covers.lost (by omega) (longDb_covered n) (by omega) 1

theorem blockWithLog_mem (n : Nat) : blockWithLog n ∈ longChain n := by simp [longChain]

/-- Once block `2 ^ 32 - 1` is stored, block `2 ^ 32 - 2` is no candidate for its own log. -/
theorem covered_end_truncated : History (longDb (2 ^ 32 - 2)) (longChain (2 ^ 32 - 2)) ∧
      blockWithLog (2 ^ 32 - 2) ∈ longChain (2 ^ 32 - 2) ∧
      ((longDb (2 ^ 32 - 2)).candidates ⟨[1], []⟩ (0, 2 ^ 32)).mayContain (2 ^ 32 - 2) = false ∧
      ¬ CandidatesSound (longDb (2 ^ 32 - 2)) (longChain (2 ^ 32 - 2)) := by
  generalize hn : 2 ^ 32 - 2 = n
  have hlost := longDb_lost (n := n) (by omega)
  refine ⟨longDb_history n, blockWithLog_mem n, hlost, fun hsound => ?_⟩
  have hmay := hsound ⟨[1], []⟩ (0, 2 ^ 32) (blockWithLog n) (blockWithLog_mem n) (by simp only [blockWithLog]; omega)
    (Nat.zero_le _) (by simp only [blockWithLog]; omega)
    ⟨⟨1, []⟩, by simp [blockWithLog], by simp [Filter.Matches]⟩
  exact absurd (hmay.symm.trans hlost) (by simp)

end Sound

end Repository
