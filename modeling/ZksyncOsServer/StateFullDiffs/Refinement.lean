import ZksyncOsServer.Lib.Run
import ZksyncOsServer.StateFullDiffs.Storage

/-!
# Versioned state refines a list of block diffs

The abstract state is the list of the writes of all blocks of the current chain. The
rows of the store are the last writes of each block, and a read, one reverse seek,
finds the last write up to a block. A rollback deletes rows in a batch of its own,
before the marker moves, so a crash between the two batches leaves the rows of the
common prefix under the marker of the old chain.
-/
namespace StateFullDiffs

open Fallible List FullDiffsStorage
open MerkleTree (B256 Map)

/-! ### The abstract state -/

def lastWrite (writes : List StorageWrite) (key : B256) : Option B256 :=
  (writes.reverse.find? (·.key = key)).map (·.value)

abbrev Chain := List (List StorageWrite)

namespace Chain

def valueAt (chain : Chain) (blockNumber : Nat) (key : B256) : Option B256 :=
  lastWrite (chain.take (blockNumber + 1)).flatten key

def rowAt (chain : Chain) (blockNumber : Nat) (key : B256) : Option B256 :=
  chain[blockNumber]?.bind (lastWrite · key)

/-- The chain after a call: a block that is there already stays unless it may be overridden. -/
def addBlock (chain : Chain) (blockNumber : Nat) (writes : List StorageWrite) (overrideAllowed : Bool) : Chain :=
  if !overrideAllowed && decide (blockNumber < chain.length) then chain else chain.take blockNumber ++ [writes]

end Chain

theorem lastWrite_append (writes writes' : List StorageWrite) (key : B256) :
    lastWrite (writes ++ writes') key = (lastWrite writes' key).or (lastWrite writes key) := by
  rw [lastWrite, reverse_append, find?_append, Option.map_or]
  rfl

namespace Chain

variable {chain : Chain} {key : B256} {b n : Nat}

theorem valueAt_zero : chain.valueAt 0 key = chain.rowAt 0 key := by
  cases chain with
  | nil => rfl
  | cons writes chain => simp [valueAt, rowAt]

theorem valueAt_succ : chain.valueAt (b + 1) key = (chain.rowAt (b + 1) key).or (chain.valueAt b key) := by
  rw [valueAt, take_add_one, flatten_append, lastWrite_append, rowAt, valueAt]
  congr 1
  cases chain[b + 1]? with
  | none => rfl
  | some writes => simp

theorem valueAt_eq_none (h : ∀ b' ≤ b, chain.rowAt b' key = none) : chain.valueAt b key = none := by
  induction b with
  | zero => exact valueAt_zero.trans (h 0 le_rfl)
  | succ b ih =>
    rw [valueAt_succ, h (b + 1) le_rfl, ih fun b' hb => h b' (Nat.le_succ_of_le hb)]
    rfl

theorem valueAt_eq_rowAt {last : Nat} {value : B256} (hb : last ≤ b) (hrow : chain.rowAt last key = some value)
    (hnone : ∀ b', last < b' → b' ≤ b → chain.rowAt b' key = none) : chain.valueAt b key = some value := by
  induction b with
  | zero =>
    obtain rfl : last = 0 := by omega
    exact valueAt_zero.trans hrow
  | succ b ih =>
    rw [valueAt_succ]
    obtain hlt | rfl := Nat.lt_or_eq_of_le hb
    · rw [hnone (b + 1) hlt le_rfl]
      exact ih (by omega) fun b' h₁ h₂ => hnone b' h₁ (by omega)
    · rw [hrow]
      rfl

theorem rowAt_take : rowAt (chain.take n) b key = if b < n then chain.rowAt b key else none := by
  rw [rowAt, getElem?_take]
  split <;> rfl

theorem rowAt_append_singleton {writes : List StorageWrite} :
    rowAt (chain ++ [writes]) b key = if b < chain.length then chain.rowAt b key
      else if b = chain.length then lastWrite writes key else none := by
  rw [rowAt, rowAt, getElem?_append]
  split
  · rfl
  · split
    · simp [*]
    · rw [getElem?_eq_none (by simp; omega)]
      rfl

end Chain

/-! ### Rows -/

def HoldsRows (rocks : Rocks) (chain : Chain) : Prop :=
  ∀ b key, rocks.data[keyForStorageWrite b key]? = chain.rowAt b key

theorem keyForStorageWrite_le {b b' : Nat} {key : B256} :
    keyForStorageWrite b' key ≤ keyForStorageWrite b key ↔ b' ≤ b := by
  simp [keyForStorageWrite, Prod.Lex.toLex_le_toLex]

namespace FullDiffsStorage

variable {this : FullDiffsStorage} {chain : Chain}

theorem readAt_eq (h : HoldsRows this.rocks chain) {b : Nat} (hb : b ≤ this.latestBlock) (key : B256) :
    this.readAt b key = chain.valueAt b key := by
  rw [readAt, if_neg (Nat.not_lt.mpr hb)]
  symm
  cases hlast : SortedMap.last this.rocks.data fun k _ => decide (k ≤ keyForStorageWrite b key) with
  | none =>
    refine Chain.valueAt_eq_none fun b' hb' => ?_
    rw [← h, Option.eq_none_iff_forall_ne_some]
    intro value hrow
    have := SortedMap.last_eq_none.mp hlast _ value hrow
    rw [decide_eq_false_iff_not, keyForStorageWrite_le] at this
    exact this hb'
  | some row =>
    obtain ⟨k, value⟩ := row
    obtain ⟨hrow, hle, hgreatest⟩ := SortedMap.last_eq_some hlast
    replace hle := of_decide_eq_true hle
    -- Any row of the key up to the block is at most the one found.
    have hrows : ∀ b' ≤ b, ∀ value', chain.rowAt b' key = some value' → keyForStorageWrite b' key ≤ k := by
      intro b' hb' value' hrow'
      rw [← h] at hrow'
      exact hgreatest _ value' hrow' (decide_eq_true (keyForStorageWrite_le.mpr hb'))
    obtain ⟨⟨key', last⟩, rfl⟩ := toLex.surjective k
    rw [keyForStorageWrite, Prod.Lex.toLex_le_toLex] at hle
    by_cases hkey : key' = key
    · subst hkey
      have hlast_le : last ≤ b := by simpa using hle
      refine Eq.trans ?_ (if_neg (not_not.mpr rfl)).symm
      refine Chain.valueAt_eq_rowAt hlast_le ((h last key').symm.trans hrow) fun b' hlt hb' => ?_
      rw [Option.eq_none_iff_forall_ne_some]
      intro value' hrow'
      have := keyForStorageWrite_le.mp (hrows b' hb' value' hrow')
      omega
    · have hlt : key' < key := by simpa [hkey] using hle
      refine Eq.trans ?_ (if_pos hkey).symm
      refine Chain.valueAt_eq_none fun b' hb' => ?_
      rw [Option.eq_none_iff_forall_ne_some]
      intro value' hrow'
      have := hrows b' hb' value' hrow'
      rw [keyForStorageWrite, Prod.Lex.toLex_le_toLex] at this
      obtain hlt' | ⟨heq, -⟩ := this
      · exact lt_asymm hlt hlt'
      · exact hkey heq.symm

theorem getElem?_perKey (writes : List StorageWrite) (key : B256) : (perKey writes)[key]? = lastWrite writes key := by
  rw [perKey, SortedMap.getElem?_foldl_insert, lastWrite]
  simp

end FullDiffsStorage

namespace Rocks

variable {rocks : Rocks}

theorem write_append (batch batch' : List BatchOp) :
    rocks.write (batch ++ batch') = (rocks.write batch).write batch' := foldl_append

theorem write_putData (rows : List (DataKey × B256)) :
    rocks.write (rows.map fun row => .putData row.1 row.2) = { rocks with data := rocks.data.insertMany rows } := by
  induction rows generalizing rocks with
  | nil => simp [write]
  | cons row rows ih =>
    rw [map_cons, write, foldl_cons, ← write, ih, Std.ExtTreeMap.insertMany_cons]
    rfl

theorem write_deleteData (keys : List DataKey) : rocks.write (keys.map .deleteData) =
      { rocks with data := keys.foldl (fun data key => data.erase key) rocks.data } := by
  induction keys generalizing rocks with
  | nil => rfl
  | cons key keys ih =>
    rw [map_cons, write, foldl_cons, ← write, ih]
    rfl

end Rocks

section Batches
variable {rocks : Rocks} {chain : Chain} {n : Nat} {writes : List StorageWrite}

theorem HoldsRows.rollback {this : FullDiffsStorage} (h : HoldsRows this.rocks chain) :
    HoldsRows (this.rocks.write (this.rollbackBatch n)) (chain.take n) := by
  intro b key
  have hmem : keyForStorageWrite b key ∈ this.rocks.data.keys.filter (fun k => n ≤ (ofLex k).2) ↔
      (∃ value, chain.rowAt b key = some value) ∧ n ≤ b := by
    rw [mem_filter, SortedMap.mem_keys, h b key, decide_eq_true_iff]
    rfl
  rw [FullDiffsStorage.rollbackBatch, Rocks.write_deleteData, SortedMap.getElem?_foldl_erase, Chain.rowAt_take, h]
  by_cases hb : b < n
  · rw [if_neg fun hdelete => Nat.not_lt.mpr (hmem.mp hdelete).2 hb, if_pos hb]
  · rw [if_neg hb]
    cases hrow : chain.rowAt b key with
    | none => exact ite_self none
    | some value => exact if_pos (hmem.mpr ⟨⟨value, hrow⟩, Nat.not_lt.mp hb⟩)

theorem HoldsRows.write_blockBatch (h : HoldsRows rocks chain) (writes : List StorageWrite) :
    HoldsRows (rocks.write (FullDiffsStorage.blockBatch chain.length writes)) (chain ++ [writes]) := by
  have hbatch : blockBatch chain.length writes =
      ((perKey writes).toList.map fun row => (keyForStorageWrite chain.length row.1, row.2)).map
        (fun row => .putData row.1 row.2) ++ [.putLatestBlock chain.length] := by
    rw [map_map]
    rfl
  intro b key
  rw [hbatch, Rocks.write_append, Rocks.write_putData, Chain.rowAt_append_singleton]
  ext value
  refine (SortedMap.getElem?_insertMany ?_).trans ?_
  · rw [pairwise_map]
    refine (SortedMap.pairwise_toList _).imp fun hlt heq => ?_
    simp only [keyForStorageWrite, EmbeddingLike.apply_eq_iff_eq, Prod.mk.injEq, and_true] at heq
    exact hlt.ne heq
  · have hmem (value : B256) : (keyForStorageWrite b key, value) ∈ (perKey writes).toList.map
        (fun row => (keyForStorageWrite chain.length row.1, row.2)) ↔
        b = chain.length ∧ lastWrite writes key = some value := by
      simp only [mem_map, Prod.exists, SortedMap.mem_toList, getElem?_perKey, Prod.mk.injEq,
        keyForStorageWrite, EmbeddingLike.apply_eq_iff_eq]
      constructor
      · rintro ⟨k, v, hv, ⟨rfl, rfl⟩, rfl⟩
        exact ⟨rfl, hv⟩
      · rintro ⟨rfl, hv⟩
        exact ⟨key, value, hv, ⟨rfl, rfl⟩, rfl⟩
    simp only [hmem, h b key]
    by_cases hb : b = chain.length
    · subst hb
      have hnone : chain.rowAt chain.length key = none := by simp [Chain.rowAt]
      simp [hnone]
    · by_cases hlt : b < chain.length
      · simp [hb, hlt]
      · have hnone : chain.rowAt b key = none := by
          rw [Chain.rowAt, getElem?_eq_none (by omega)]
          rfl
        simp [hb, hlt, hnone]

@[simp] theorem latestBlock_write_rollbackBatch {this : FullDiffsStorage} :
    (this.rocks.write (this.rollbackBatch n)).latestBlock = this.rocks.latestBlock := by
  rw [rollbackBatch, Rocks.write_deleteData]

@[simp] theorem latestBlock_write_blockBatch : (rocks.write (blockBatch n writes)).latestBlock = some n := by
  rw [blockBatch, Rocks.write_append]
  rfl

end Batches

/-! ### Calls -/

/-- The store holds the chain: its rows, and the marker of its last block. -/
structure Represents (this : FullDiffsStorage) (chain : Chain) : Prop where
  rows : HoldsRows this.rocks chain
  latest : this.latestBlock = chain.length - 1
  marker : this.rocks.latestBlock.getD 0 = this.latestBlock

theorem represents_empty : Represents .empty [] where
  rows := by
    intro b key
    simp [FullDiffsStorage.empty, FullDiffsStorage.new, Chain.rowAt]
  latest := rfl
  marker := rfl

/-- The arguments of `add_block`. -/
structure Call where
  blockNumber : Nat
  writes : List StorageWrite
  overrideAllowed : Bool

/-- The block is the next one or one that is there; the genesis block is not added again
without permission to override it. -/
def Call.Valid (chain : Chain) (call : Call) : Prop :=
  call.blockNumber ≤ chain.length ∧ (call.blockNumber = 0 → call.overrideAllowed = false → chain = [])

def Chain.serve (chain : Chain) (call : Call) : Chain :=
  chain.addBlock call.blockNumber call.writes call.overrideAllowed

/-- The calls one after the other, all of them successful. -/
def run (calls : List Call) : Except String FullDiffsStorage :=
  calls.foldlM (fun this call => this.addBlock call.blockNumber call.writes call.overrideAllowed) .empty

section Calls
variable {this this' : FullDiffsStorage} {chain : Chain} {n : Nat} {writes : List StorageWrite}

theorem HoldsRows.next {rocks : Rocks} (h : HoldsRows rocks (chain.take n)) (hn : n ≤ chain.length) :
    Represents ⟨rocks.write (blockBatch n writes), n⟩ (chain.take n ++ [writes]) where
  rows := by
    have hlen : (chain.take n).length = n := by simpa using hn
    have := h.write_blockBatch writes
    rwa [hlen] at this
  latest := by simp [hn]
  marker := by simp

/-- What a successful `add_block` does: roll back and store, leave the store as it is, or store. -/
theorem addBlock_cases {overrideAllowed : Bool} (hadd : this.addBlock n writes overrideAllowed = .ok this') :
    overrideAllowed = true ∧ n ≤ this.latestBlock ∧
        this' = ⟨(this.rocks.write (this.rollbackBatch n)).write (blockBatch n writes), n⟩ ∨
      overrideAllowed = false ∧ n ≠ 0 ∧ n ≤ this.latestBlock ∧ this' = this ∨
      (overrideAllowed = false ∧ n = 0 ∨ this.latestBlock < n) ∧
        this' = ⟨this.rocks.write (blockBatch n writes), n⟩ := by
  rw [addBlock, addBlockBatches] at hadd
  by_cases hle : n ≤ this.latestBlock
  · cases overrideAllowed with
    | true =>
      rw [if_pos rfl, if_pos hle] at hadd
      exact .inl ⟨rfl, hle, (Except.ok.inj hadd).symm⟩
    | false =>
      rw [if_neg Bool.false_ne_true] at hadd
      by_cases hn : n ≠ 0
      · simp only [if_pos hn, if_pos hle, bind_eq_ok, require_eq_ok, pure_eq_ok, exists_const] at hadd
        obtain ⟨batches, ⟨-, rfl⟩, heq⟩ := hadd
        exact .inr (.inl ⟨rfl, hn, hle, (Except.ok.inj heq).symm⟩)
      · rw [if_neg hn] at hadd
        exact .inr (.inr ⟨.inl ⟨rfl, not_not.mp hn⟩, (Except.ok.inj hadd).symm⟩)
  · have hlt : this.latestBlock < n := Nat.not_le.mp hle
    refine .inr (.inr ⟨.inr hlt, ?_⟩)
    cases overrideAllowed with
    | true =>
      rw [if_pos rfl, if_neg hle] at hadd
      exact (Except.ok.inj hadd).symm
    | false =>
      simp only [Bool.false_eq_true, if_false, if_pos (Nat.ne_of_gt (Nat.zero_lt_of_lt hlt)), if_neg hle, bind_eq_ok,
        require_eq_ok, pure_eq_ok, exists_const] at hadd
      obtain ⟨batches, ⟨-, rfl⟩, heq⟩ := hadd
      exact (Except.ok.inj heq).symm

theorem Represents.addBlock (h : Represents this chain) {call : Call} (hvalid : call.Valid chain)
    (hadd : this.addBlock call.blockNumber call.writes call.overrideAllowed = .ok this') :
    Represents this' (chain.serve call) := by
  obtain ⟨n, writes, overrideAllowed⟩ := call
  obtain ⟨hn, hgenesis⟩ := hvalid
  have hlatest := h.latest
  simp only at hn hgenesis hadd
  rw [Chain.serve, Chain.addBlock]
  obtain ⟨rfl, hle, rfl⟩ | ⟨rfl, hn0, hle, rfl⟩ | ⟨hnew, rfl⟩ := addBlock_cases hadd
  · exact h.rows.rollback.next hn
  · have hlt : n < chain.length := by omega
    rwa [if_pos (by simp [hlt])]
  · -- The block is the next one: the chain is taken as a whole.
    have hlen : n = chain.length := by
      obtain ⟨rfl, rfl⟩ | hlt := hnew
      · rw [hgenesis rfl rfl]
        rfl
      · omega
    have htake : chain.take n = chain := by rw [hlen, take_length]
    rw [if_neg (by simp [hlen])]
    exact HoldsRows.next (htake.symm ▸ h.rows) hn

theorem Represents.foldlM (h : Represents this chain) {calls : List Call}
    (hvalid : Run.Steps Chain.serve (fun chain call => call.Valid chain) chain calls)
    (hrun : calls.foldlM (fun this call => this.addBlock call.blockNumber call.writes call.overrideAllowed) this =
      .ok this') : Represents this' (calls.foldl Chain.serve chain) := by
  induction calls generalizing this chain with
  | nil =>
    cases hrun
    exact h
  | cons call calls ih =>
    rw [foldlM_cons, bind_eq_ok] at hrun
    obtain ⟨next, hadd, hrun⟩ := hrun
    exact ih (h.addBlock hvalid.1 hadd) hvalid.2 hrun

theorem exists_addBlock_genesis (this : FullDiffsStorage) :
    ∃ writes next, this.addBlock 0 writes false = .ok next ∧ next ≠ this := by
  -- A value that is not the one of the first row.
  obtain ⟨value, hvalue⟩ : ∃ value : B256, this.rocks.data[keyForStorageWrite 0 0]? ≠ some value := by
    by_cases hzero : this.rocks.data[keyForStorageWrite 0 0]? = some 0
    · exact ⟨1, by rw [hzero]; decide⟩
    · exact ⟨0, hzero⟩
  refine ⟨[⟨0, value⟩], _, rfl, fun heq => hvalue ?_⟩
  rw [← heq]
  exact SortedMap.getElem?_insert _ _ _ _ |>.trans (if_pos rfl)

end Calls

/-- After any successful calls from a fresh database, each for the next block or for one that is
there (only the genesis block not re-added without permission to override it): a read at a block
gives the value of the last write up to that block of the current chain; and re-adding a block
without permission to override it never changes anything exactly when it is not the genesis
block. -/
theorem reads_refine_chain (calls : List Call) (storage : FullDiffsStorage)
    (hvalid : Run.Steps Chain.serve (fun chain call => call.Valid chain) [] calls) (hrun : run calls = .ok storage) :
    (∀ b key, b ≤ storage.latestBlock → storage.readAt b key = (calls.foldl Chain.serve []).valueAt b key) ∧
      ∀ n ≤ storage.latestBlock,
        (∀ writes next, storage.addBlock n writes false = .ok next → next = storage) ↔ n ≠ 0 := by
  have h := represents_empty.foldlM hvalid hrun
  refine ⟨fun b key hb => storage.readAt_eq h.rows hb key, fun n hn => ⟨?_, ?_⟩⟩
  · rintro hkeep rfl
    obtain ⟨writes, next, hadd, hne⟩ := exists_addBlock_genesis storage
    exact hne (hkeep writes next hadd)
  · intro hn0 writes next hadd
    obtain ⟨hover, -⟩ | ⟨-, -, -, heq⟩ | ⟨⟨-, hzero⟩ | hlt, -⟩ := addBlock_cases hadd
    · cases hover
    · exact heq
    · exact absurd hzero hn0
    · omega

/-- Blocks 0, 1 and 2, then an override of block 1. -/
def sampleCalls : List Call :=
  [⟨0, [⟨1, 10⟩], false⟩, ⟨1, [⟨1, 11⟩, ⟨2, 20⟩], false⟩, ⟨2, [⟨1, 12⟩], false⟩, ⟨1, [⟨1, 13⟩], true⟩]

theorem reads_refine_chain_sample : ∃ storage, run sampleCalls = .ok storage ∧
      (∀ b key, b ≤ storage.latestBlock → storage.readAt b key = (sampleCalls.foldl Chain.serve []).valueAt b key) ∧
      ∀ n ≤ storage.latestBlock,
        (∀ writes next, storage.addBlock n writes false = .ok next → next = storage) ↔ n ≠ 0 := by
  have hvalid : Run.Steps Chain.serve (fun chain call => call.Valid chain) [] sampleCalls := by
    simp [sampleCalls, Run.Steps, Call.Valid, Chain.serve, Chain.addBlock]
  obtain ⟨storage, hrun⟩ := exists_of_isOk (by decide +kernel : (run sampleCalls).isOk = true)
  exact ⟨storage, hrun, reads_refine_chain sampleCalls storage hvalid hrun⟩

/-- A node that restarts at the genesis block adds it again, here with another value. -/
theorem genesis_readded_changes_reads :
    (run [⟨0, [⟨1, 10⟩], false⟩]).toOption.map (fun this => (this.latestBlock, this.readAt 0 1)) = some (0, some 10) ∧
      ((run [⟨0, [⟨1, 10⟩], false⟩]).bind fun this =>
        (FullDiffsStorage.new this.rocks).addBlock 0 [⟨1, 11⟩] false).toOption.map (fun this => this.readAt 0 1) =
          some (some 11) := by
  decide +kernel

/-! ### Crashes -/

/-- The store that is opened after a crash that let only the first batches be written. -/
def FullDiffsStorage.crashAfter (this : FullDiffsStorage) (batches : List (List BatchOp)) (count : Nat) :
    FullDiffsStorage :=
  .new ((batches.take count).foldl Rocks.write this.rocks)

/-- At every crash point of an overriding call, all reads of the reopened store are those of one
chain: the one before the call, or the one after it. -/
def CrashConsistent (storage : FullDiffsStorage) (chain : Chain) (n : Nat) (writes : List StorageWrite) : Prop :=
  ∀ batches, storage.addBlockBatches n writes true = .ok batches → ∀ count,
    ∃ c ∈ [chain, chain.addBlock n writes true], ∀ b ≤ (storage.crashAfter batches count).latestBlock, ∀ key,
      b < c.length ∧ (storage.crashAfter batches count).readAt b key = c.valueAt b key

/-- The blocks from a number on change no value. -/
def Chain.Silent (chain : Chain) (n : Nat) : Prop :=
  ∀ b, n ≤ b → b < chain.length → ∀ key, chain.valueAt b key = Chain.valueAt (chain.take n) b key

theorem Chain.valueAt_take_of_lt {chain : Chain} {n b : Nat} (hb : b < n) (key : B256) :
    valueAt (chain.take n) b key = chain.valueAt b key := by
  rw [valueAt, take_take, Nat.min_eq_left hb, valueAt]

section Crash
variable {storage : FullDiffsStorage} {chain : Chain} {n : Nat} {writes : List StorageWrite}

section
variable (h : Represents storage chain)
include h

/-- The rows between the two batches are those of the common prefix, under the old marker. -/
theorem Represents.crashAfter_one (n : Nat) (writes : List StorageWrite) {b : Nat}
    (hb : b ≤ storage.latestBlock) (key : B256) :
    (storage.crashAfter [storage.rollbackBatch n, blockBatch n writes] 1).latestBlock = storage.latestBlock ∧
      (storage.crashAfter [storage.rollbackBatch n, blockBatch n writes] 1).readAt b key =
        Chain.valueAt (chain.take n) b key := by
  have hlatest : (storage.crashAfter [storage.rollbackBatch n, blockBatch n writes] 1).latestBlock =
      storage.latestBlock := by
    simp [crashAfter, new, h.marker]
  exact ⟨hlatest, readAt_eq h.rows.rollback (hlatest ▸ hb) key⟩

theorem Represents.crashAfter_zero (hne : chain ≠ []) (batches : List (List BatchOp)) :
    ∀ b ≤ (storage.crashAfter batches 0).latestBlock, ∀ key,
      b < chain.length ∧ (storage.crashAfter batches 0).readAt b key = chain.valueAt b key := by
  intro b hb key
  have hpos := length_pos_of_ne_nil hne
  have hlatest : (storage.crashAfter batches 0).latestBlock = chain.length - 1 := h.marker.trans h.latest
  have hrows : HoldsRows (storage.crashAfter batches 0).rocks chain := h.rows
  exact ⟨by omega, readAt_eq hrows hb key⟩

theorem Represents.crashAfter_two (hn : n ≤ chain.length) (count : Nat) :
    ∀ b ≤ (storage.crashAfter [storage.rollbackBatch n, blockBatch n writes] (count + 2)).latestBlock,
      ∀ key, b < (chain.take n ++ [writes]).length ∧
        (storage.crashAfter [storage.rollbackBatch n, blockBatch n writes] (count + 2)).readAt b key =
          Chain.valueAt (chain.take n ++ [writes]) b key := by
  intro b hb key
  have hrows : HoldsRows (storage.crashAfter
      [storage.rollbackBatch n, blockBatch n writes] (count + 2)).rocks (chain.take n ++ [writes]) := by
    simpa [crashAfter, new] using (h.rows.rollback.next hn).rows
  have hlatest : b ≤ n := by simpa [crashAfter, new] using hb
  exact ⟨by simp; omega, readAt_eq hrows hb key⟩

theorem Represents.crashConsistent_iff (hne : chain ≠ []) (hn : n ≤ storage.latestBlock) :
    CrashConsistent storage chain n writes ↔
      chain.Silent n ∨ n = storage.latestBlock ∧ Chain.Silent (chain.take n ++ [writes]) n := by
  have hpos := length_pos_of_ne_nil hne
  have hlatest := h.latest
  have hbatches : storage.addBlockBatches n writes true = .ok [storage.rollbackBatch n, blockBatch n writes] := by
    rw [addBlockBatches, if_pos rfl, if_pos hn]
  have hafter : chain.addBlock n writes true = chain.take n ++ [writes] := rfl
  have htake : (chain.take n ++ [writes]).take n = chain.take n := by
    rw [take_append_of_le_length (by simp; omega), take_take, Nat.min_self]
  constructor
  · intro hc
    obtain ⟨c, hmem, hreads⟩ := hc _ hbatches 1
    have hread (b : Nat) (hb : b ≤ storage.latestBlock) (key : B256) :
        b < c.length ∧ Chain.valueAt (chain.take n) b key = c.valueAt b key := by
      obtain ⟨hmarker, heq⟩ := h.crashAfter_one n writes hb key
      rw [← heq]
      exact hreads b (hmarker ▸ hb) key
    rw [mem_pair, hafter] at hmem
    obtain rfl | rfl := hmem
    · exact .inl fun b _ hb key => (hread b (by omega) key).2.symm
    · -- The chain after the call ends at the overridden block.
      have hlen : storage.latestBlock < (chain.take n ++ [writes]).length := (hread _ le_rfl 0).1
      simp only [length_append, length_take, length_singleton] at hlen
      refine .inr ⟨by omega, fun b hnb hb key => ?_⟩
      simp only [length_append, length_take, length_singleton] at hb
      rw [htake]
      exact (hread b (by omega) key).2.symm
  · intro hsilent batches hb count
    obtain rfl : _ = batches := Except.ok.inj (hbatches.symm.trans hb)
    match count with
    | 0 => exact ⟨chain, mem_cons_self, h.crashAfter_zero hne _⟩
    | 1 =>
      have hread {b : Nat} (hb : b ≤ storage.latestBlock) (key : B256) :=
        h.crashAfter_one n writes hb key
      obtain hs | ⟨heq, hs⟩ := hsilent
      · refine ⟨chain, mem_cons_self, fun b hb key => ?_⟩
        have hmarker := (hread le_rfl 0).1
        rw [hmarker] at hb
        refine ⟨by omega, (hread hb key).2.trans ?_⟩
        by_cases hbn : b < n
        · exact Chain.valueAt_take_of_lt hbn key
        · exact (hs b (by omega) (by omega) key).symm
      · refine ⟨_, mem_cons_of_mem _ mem_cons_self, fun b hb key => ?_⟩
        have hmarker := (hread le_rfl 0).1
        rw [hmarker] at hb
        rw [hafter]
        have hlen : b < (chain.take n ++ [writes]).length := by simp; omega
        refine ⟨hlen, (hread hb key).2.trans ?_⟩
        by_cases hbn : b < n
        · have hprefix := @Chain.valueAt_take_of_lt (chain.take n ++ [writes]) n b hbn key
          rwa [htake] at hprefix
        · rw [hs b (by omega) hlen key, htake]
    | count + 2 => exact ⟨_, mem_cons_of_mem _ mem_cons_self, h.crashAfter_two (by omega) count⟩

end

end Crash

theorem foldl_serve_ne_nil {calls : List Call} (hne : calls ≠ []) : calls.foldl Chain.serve [] ≠ [] := by
  have hserve (chain : Chain) (call : Call) : chain.serve call ≠ [] := by
    rw [Chain.serve, Chain.addBlock]
    split
    next h =>
      rintro rfl
      simp at h
    · simp
  obtain ⟨calls, call, rfl⟩ := (eq_nil_or_concat' calls).resolve_left hne
  rw [foldl_concat]
  exact hserve _ call

/-- An overriding call on any reachable store is crash consistent exactly when the overridden
blocks change no value, or the last block is overridden by one that changes none. -/
theorem override_crash_consistent_iff (calls : List Call) (storage : FullDiffsStorage) (n : Nat)
    (writes : List StorageWrite) (hvalid : Run.Steps Chain.serve (fun chain call => call.Valid chain) [] calls)
    (hne : calls ≠ []) (hrun : run calls = .ok storage) (hn : n ≤ storage.latestBlock) :
    CrashConsistent storage (calls.foldl Chain.serve []) n writes ↔ Chain.Silent (calls.foldl Chain.serve []) n ∨
        n = storage.latestBlock ∧ Chain.Silent ((calls.foldl Chain.serve []).take n ++ [writes]) n :=
  (represents_empty.foldlM hvalid hrun).crashConsistent_iff (foldl_serve_ne_nil hne) hn

theorem override_crash_consistent_iff_sample : ∃ storage, run sampleCalls = .ok storage ∧
      (CrashConsistent storage (sampleCalls.foldl Chain.serve []) 1 [⟨1, 14⟩] ↔
        Chain.Silent (sampleCalls.foldl Chain.serve []) 1 ∨
          1 = storage.latestBlock ∧ Chain.Silent ((sampleCalls.foldl Chain.serve []).take 1 ++ [[⟨1, 14⟩]]) 1) := by
  have hvalid : Run.Steps Chain.serve (fun chain call => call.Valid chain) [] sampleCalls := by
    simp [sampleCalls, Run.Steps, Call.Valid, Chain.serve, Chain.addBlock]
  have hlatest : (run sampleCalls).toOption.map FullDiffsStorage.latestBlock = some 1 := by decide +kernel
  obtain ⟨storage, hrun⟩ := exists_of_isOk (by decide +kernel : (run sampleCalls).isOk = true)
  have hn : 1 ≤ storage.latestBlock := by
    rw [hrun] at hlatest
    exact (Option.some.inj hlatest).ge
  exact ⟨storage, hrun,
    override_crash_consistent_iff sampleCalls storage 1 [⟨1, 14⟩] hvalid (cons_ne_nil _ _) hrun hn⟩

def twoBlocks : List Call := [⟨0, [⟨1, 10⟩], false⟩, ⟨1, [⟨1, 11⟩], false⟩]

/-- The override of the second block, interrupted between its two batches: the reopened store
still has the second block, with the value of the first one. -/
theorem crash_between_batches : ∃ storage, run twoBlocks = .ok storage ∧
      ¬CrashConsistent storage (twoBlocks.foldl Chain.serve []) 1 [⟨1, 12⟩] := by
  obtain ⟨storage, hrun⟩ := exists_of_isOk (by decide +kernel : (run twoBlocks).isOk = true)
  refine ⟨storage, hrun, fun h => ?_⟩
  have hreopened : (run twoBlocks).toOption.map (fun storage => storage.latestBlock) = some 1 ∧
      (run twoBlocks).toOption.map (fun storage =>
        let reopened := storage.crashAfter [storage.rollbackBatch 1, blockBatch 1 [⟨1, 12⟩]] 1
        (reopened.latestBlock, reopened.readAt 1 1)) = some (1, some 10) := by
    decide +kernel
  rw [hrun] at hreopened
  have hlatest := Option.some.inj hreopened.1
  obtain ⟨hmarker, hread⟩ := Prod.mk.inj (Option.some.inj hreopened.2)
  have hbatches : storage.addBlockBatches 1 [⟨1, 12⟩] true =
      .ok [storage.rollbackBatch 1, blockBatch 1 [⟨1, 12⟩]] := by
    rw [addBlockBatches, if_pos rfl, if_pos hlatest.ge]
  obtain ⟨c, hc, hreads⟩ := h _ hbatches 1
  have hvalue := hread.symm.trans (hreads 1 hmarker.ge 1).2
  rw [mem_pair] at hc
  obtain rfl | rfl := hc
  · exact absurd hvalue (by decide +kernel)
  · exact absurd hvalue (by decide +kernel)

end StateFullDiffs
