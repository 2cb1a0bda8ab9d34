import ZksyncOsServer.Lib.KeyedLog
import ZksyncOsServer.Lib.Run
import ZksyncOsServer.Replay.Storage

/-!
# Reading the replay log back

The storage refines the list of the records that were written: what is read for a block is
the last record of its number. The hashes of a stripped row are those that the other blocks
have now, so this is so for the blocks whose ancestors were not replaced after them.
-/
namespace Replay

open Fallible BlockReplayStorage
open MerkleTree (B256)

variable {T : Type}

def SealedRecord.number (r : SealedRecord T) : Nat := r.blockContext.blockNumber

/-- The canonical record of a block: the last one that was written. -/
def canonical (log : List (SealedRecord T)) (n : Nat) : Option (SealedRecord T) :=
  KeyedLog.last SealedRecord.number log n

theorem canonical_append (log : List (SealedRecord T)) (r : SealedRecord T) (n : Nat) :
    canonical (log ++ [r]) n = if r.number = n then some r else canonical log n := by
  rw [canonical, KeyedLog.last_append]
  by_cases h : r.number = n <;> simp [KeyedLog.last, h, canonical]

variable {log : List (SealedRecord T)} {r : SealedRecord T}

theorem canonical_number {n : Nat} (h : canonical log n = some r) : r.number = n :=
  (KeyedLog.mem_of_last h).2

/-! ### Rows -/

structure HasRow (s : BlockReplayStorage T) (key : DbKey) (r : ReplayRecord T) : Prop where
  context : s.context key = some r.blockContext
  startingL1SerialId : s.startingL1SerialId key = some r.startingCursors.l1PriorityId
  txs : s.txs key = some r.transactions
  nodeVersion : s.nodeVersion key = some r.nodeVersion
  protocolVersion : s.protocolVersion key = some r.protocolVersion
  forcePreimages : s.forcePreimages key = some r.forcePreimages
  blockOutputHash : s.blockOutputHash key = some r.blockOutputHash
  startingInteropRootId : s.startingInteropRootId key = some r.startingCursors.interopRootId
  startingMigrationNumber : s.startingMigrationNumber key = some r.startingCursors.migrationNumber
  startingInteropFeeNumber : s.startingInteropFeeNumber key = some r.startingCursors.interopFeeNumber

section Rows
variable {s s' : BlockReplayStorage T} {key key' : DbKey} {r r' : ReplayRecord T}

@[simp] theorem putCf_same {K V : Type} [DecidableEq K] (cf : K → Option V) (key : K) (value : V) :
    putCf cf key value key = some value := by simp [putCf]

theorem putCf_other {K V : Type} [DecidableEq K] (cf : K → Option V) {key key' : K} (value : V) (h : key ≠ key') :
    putCf cf key' value key = cf key := by simp [putCf, h]

theorem hasRow_putRow (s : BlockReplayStorage T) (key : DbKey) (r : ReplayRecord T) : HasRow (s.putRow key r) key r := by
  constructor <;> exact putCf_same _ _ _

theorem HasRow.putRow (h : HasRow s key r) (hne : key ≠ key') (r' : ReplayRecord T) :
    HasRow (s.putRow key' r') key r := by
  cases h
  constructor <;> exact (putCf_other _ _ hne).trans (by assumption)

def BlockReplayStorage.previousTimestamp (s : BlockReplayStorage T) (n : Nat) : Nat :=
  if n = 0 then 0 else (s.getBlockTimestamp (n - 1)).getD 0

theorem HasRow.assemble (h : HasRow s key r) (n : Nat) (context : BlockContext) : s.assembleReplayRecord n key context =
      .ok { r with blockContext := context, previousBlockTimestamp := s.previousTimestamp n } := by
  simp only [assembleReplayRecord, readProtocolVersion, h.startingL1SerialId,
    h.txs, h.nodeVersion, h.protocolVersion, h.forcePreimages, h.blockOutputHash, h.startingInteropRootId,
    h.startingMigrationNumber, h.startingInteropFeeNumber, ofOption_some, ok_bind]
  rfl

end Rows

/-! ### Single batches -/

def SealedRecord.key (r : SealedRecord T) (isCanonical : Bool) : DbKey :=
  if isCanonical then .number r.number else .hash r.hash

/-- The effect of `write_replay_unchecked`. -/
structure Written (s : BlockReplayStorage T) (r : SealedRecord T) (isCanonical : Bool) (s' : BlockReplayStorage T) :
    Prop where
  chainId : s'.chainId = s.chainId
  row : HasRow s' (r.key isCanonical) r.toReplayRecord
  rows : ∀ key old, key ≠ r.key isCanonical → HasRow s key old → HasRow s' key old
  contextV2 : s'.contextV2 =
    if isCanonical then putCf s.contextV2 (.number r.number) (.strip r.blockContext) else s.contextV2
  canonicalHash : s'.canonicalHash = if isCanonical then putCf s.canonicalHash r.number r.hash else s.canonicalHash
  latest : s'.latest = some (r.key isCanonical) ∧ (s.latest = none ∨ ∃ n < r.number, s.latest = some (.number n)) ∨
    s'.latest = s.latest ∧ ∃ n, r.number ≤ n ∧ s.latest = some (.number n)

section Batches
variable {s s' : BlockReplayStorage T} {r : SealedRecord T} {isCanonical : Bool}

theorem latestRecordChecked_eq_ok {latest : Option Nat} :
    s.latestRecordChecked = .ok latest ↔ s.latest = latest.map .number := by
  rw [latestRecordChecked]
  cases s.latest with
  | none => cases latest <;> simp
  | some key => cases key <;> cases latest <;> simp

/-- The storage that a batch is applied to, with the columns of canonical rows already written. -/
def batchBase (s : BlockReplayStorage T) (r : SealedRecord T) (isCanonical : Bool) (latest : Option DbKey) :
    BlockReplayStorage T :=
  { (if isCanonical then s.putCanonical r else s) with latest }

theorem HasRow.batchBase {key : DbKey} {old : ReplayRecord T} (h : HasRow s key old) (latest : Option DbKey) :
    HasRow (batchBase s r isCanonical latest) key old := by
  cases isCanonical <;> exact { h with }

theorem written_of_ok (h : s.writeReplayUnchecked r isCanonical = .ok s') : Written s r isCanonical s' := by
  obtain ⟨latest, hlatest, h⟩ := bind_eq_ok.mp h
  rw [latestRecordChecked_eq_ok] at hlatest
  obtain ⟨latest', rfl, hlatest'⟩ : ∃ latest',
      s' = (batchBase s r isCanonical latest').putRow (r.key isCanonical) r.toReplayRecord ∧
        latest' = if latest.all (· < r.number) then some (r.key isCanonical) else s.latest := by
    rw [← pure_eq_ok.mp h]
    by_cases hc : latest.all (· < r.number) = true
    · exact ⟨some (r.key isCanonical), (if_pos hc).trans (by cases isCanonical <;> rfl), (if_pos hc).symm⟩
    · exact ⟨s.latest, (if_neg hc).trans (by cases isCanonical <;> rfl), (if_neg hc).symm⟩
  constructor
  case chainId => cases isCanonical <;> rfl
  case row => exact hasRow_putRow _ _ _
  case rows => exact fun key old hne hold => (hold.batchBase latest').putRow hne _
  case contextV2 => cases isCanonical <;> rfl
  case canonicalHash => cases isCanonical <;> rfl
  case latest =>
    change latest' = _ ∧ _ ∨ latest' = _ ∧ _
    rw [hlatest', hlatest]
    cases latest with
    | none => exact .inl ⟨rfl, .inl rfl⟩
    | some n =>
      by_cases hn : n < r.number
      · exact .inl ⟨by simp [hn], .inr ⟨n, hn, rfl⟩⟩
      · exact .inr ⟨by simp [hn], n, by omega, rfl⟩

end Batches

/-! ### The invariant -/

structure Stores (s : BlockReplayStorage T) (log : List (SealedRecord T)) : Prop where
  row : ∀ n r, canonical log n = some r → HasRow s (.number n) r.toReplayRecord
  stripped : ∀ n v, s.contextV2 (.number n) = some v → ∃ r, canonical log n = some r ∧ v = .strip r.blockContext
  hash : ∀ n h, s.canonicalHash n = some h → ∃ r, canonical log n = some r ∧ r.hash = h
  latest : log = [] ∧ s.latest = none ∨
    ∃ n, s.latest = some (.number n) ∧ ∀ m, (∃ r, canonical log m = some r) ↔ m ≤ n

section Invariant
variable {s s' : BlockReplayStorage T} {log : List (SealedRecord T)} {r old : SealedRecord T} {n : Nat}

theorem stores_empty (chainId : Nat) : Stores (newWithoutGenesis chainId : BlockReplayStorage T) [] := by
  constructor
  case latest => exact .inl ⟨rfl, rfl⟩
  all_goals simp [canonical, KeyedLog.last, newWithoutGenesis]

theorem Stores.exists_canonical_iff (h : Stores s log) (hlatest : s.latest = some (.number n)) (m : Nat) :
    (∃ r, canonical log m = some r) ↔ m ≤ n := by
  rcases h.latest with ⟨-, hnone⟩ | ⟨n', hsome, hiff⟩
  · rw [hlatest] at hnone; cases hnone
  · rw [hlatest] at hsome
    obtain rfl : n = n' := by simpa using hsome
    exact hiff m

theorem Stores.append (h : Stores s log) (hw : Written s r true s')
    (hnext : s.latest = none ∧ r.number = 0 ∨ ∃ n, s.latest = some (.number n) ∧ r.number ≤ n + 1) :
    Stores s' (log ++ [r]) := by
  constructor
  case row =>
    intro n r' hr'
    rw [canonical_append] at hr'
    split at hr'
    next hn =>
      obtain rfl := Option.some.inj hr'
      exact hn ▸ hw.row
    next hn =>
      exact hw.rows _ _ (fun heq => hn (DbKey.number.inj heq).symm) (h.row n r' hr')
  case stripped =>
    intro n v hv
    rw [canonical_append]
    rw [hw.contextV2, if_pos rfl] at hv
    split
    next hn =>
      rw [hn, putCf_same] at hv
      exact ⟨r, rfl, (Option.some.inj hv).symm⟩
    next hn =>
      rw [putCf_other _ _ fun heq => hn (DbKey.number.inj heq).symm] at hv
      exact h.stripped n v hv
  case hash =>
    intro n hash hh
    rw [canonical_append]
    rw [hw.canonicalHash, if_pos rfl] at hh
    split
    next hn =>
      rw [hn, putCf_same] at hh
      exact ⟨r, rfl, Option.some.inj hh⟩
    next hn =>
      rw [putCf_other _ _ (Ne.symm hn)] at hh
      exact h.hash n hash hh
  case latest =>
    have hexists : ∀ m, (∃ r', canonical (log ++ [r]) m = some r') ↔
        m = r.number ∨ ∃ r', canonical log m = some r' := by
      intro m
      rw [canonical_append]
      by_cases hm : r.number = m
      · simp [hm]
      · simp [hm, Ne.symm hm]
    refine .inr ?_
    rcases hw.latest with ⟨hl, hold⟩ | ⟨hl, n, hn, hold⟩
    · refine ⟨r.number, hl, fun m => (hexists m).trans ?_⟩
      rcases h.latest with ⟨rfl, hnone⟩ | ⟨n, hsome, hiff⟩
      · rw [hnone] at hnext
        have hzero : r.number = 0 := by simpa using hnext
        simp [canonical, KeyedLog.last, hzero]
      · rw [hsome] at hold hnext
        have hlt : n < r.number := by simpa using hold
        have hle : r.number ≤ n + 1 := by simpa using hnext
        rw [hiff]
        omega
    · refine ⟨n, hl.trans hold, fun m => (hexists m).trans ?_⟩
      rw [h.exists_canonical_iff hold]
      omega

theorem Written.latest_kept {isCanonical : Bool} (hw : Written s r isCanonical s') (hn : s.latest = some (.number n))
    (hle : r.number ≤ n) : s'.latest = s.latest := by
  rcases hw.latest with ⟨-, hnone | ⟨n', hlt, hsome⟩⟩ | ⟨hl, -⟩
  · rw [hn] at hnone; cases hnone
  · rw [hn] at hsome
    obtain rfl : n = n' := by simpa using hsome
    omega
  · exact hl

theorem Stores.archived (h : Stores s log) (hw : Written s r false s') (hn : s.latest = some (.number n))
    (hle : r.number ≤ n) : Stores s' log := by
  constructor
  case row => exact fun n r' hr' => hw.rows _ _ (by simp [SealedRecord.key]) (h.row n r' hr')
  case stripped => rw [hw.contextV2]; exact h.stripped
  case hash => rw [hw.canonicalHash]; exact h.hash
  case latest =>
    rw [hw.latest_kept hn hle]
    exact h.latest

theorem Stores.originalHashes (h : Stores s log) (hr : canonical log n = some r) :
    s.getReplayRecordWithOriginalHashes n =
      .ok (some { r.toReplayRecord with previousBlockTimestamp := s.previousTimestamp n }) := by
  have hrow := h.row n r hr
  rw [getReplayRecordWithOriginalHashes, hrow.context]
  dsimp only
  rw [hrow.assemble]
  rfl

variable [DecidableEq T]

theorem Stores.archive_eq_ok (h : Stores s log) (hold : canonical log r.number = some old) (ha : s.archive r = .ok s') :
    let oldRecord := { old.toReplayRecord with previousBlockTimestamp := s.previousTimestamp r.number }
    oldRecord.eq r.toReplayRecord = true ∧ s' = s ∨
      oldRecord.eq r.toReplayRecord = false ∧ ∃ hash, s.getCanonicalBlockHash r.number = .ok hash ∧
        Written s { oldRecord with hash } false s' := by
  rw [archive, ← SealedRecord.number, h.originalHashes hold, ok_bind, ofOption_some, ok_bind] at ha
  split at ha
  next heq =>
    exact .inl ⟨heq, (pure_eq_ok.mp ha).symm⟩
  next hne =>
    obtain ⟨hash, hhash, ha⟩ := bind_eq_ok.mp ha
    exact .inr ⟨by simpa using hne, hash, hhash, written_of_ok ha⟩

variable {overrideAllowed : Bool}

theorem write_eq_true (hw : s.write r overrideAllowed = .ok (true, s')) :
    s.latest = none ∧ r.number = 0 ∧ Written s r true s' ∨ ∃ n, s.latest = some (.number n) ∧ r.number ≤ n + 1 ∧
        (n < r.number ∧ Written s r true s' ∨
          r.number ≤ n ∧ ∃ archived, s.archive r = .ok archived ∧ Written archived r true s') := by
  obtain ⟨latest, hlatest, hw⟩ := bind_eq_ok.mp hw
  rw [latestRecordChecked_eq_ok] at hlatest
  cases latest with
  | none =>
    simp only [bind_eq_ok, require_eq_ok, pure_eq_ok, Prod.mk.injEq, true_and] at hw
    obtain ⟨-, hzero, written, hwritten, rfl⟩ := hw
    exact .inl ⟨hlatest, hzero, written_of_ok hwritten⟩
  | some n =>
    dsimp only at hw
    split at hw
    · cases hw
    · obtain ⟨_, hnext, hw⟩ := bind_eq_ok.mp hw
      refine .inr ⟨n, hlatest, require_eq_ok.mp hnext, ?_⟩
      split at hw
      next hle =>
        obtain ⟨archived, ha, hw⟩ := bind_eq_ok.mp hw
        obtain ⟨written, hwritten, hw⟩ := bind_eq_ok.mp hw
        obtain rfl := (Prod.mk.inj (pure_eq_ok.mp hw)).2
        exact .inr ⟨hle, archived, ha, written_of_ok hwritten⟩
      next hgt =>
        rw [pure_bind] at hw
        obtain ⟨written, hwritten, hw⟩ := bind_eq_ok.mp hw
        obtain rfl := (Prod.mk.inj (pure_eq_ok.mp hw)).2
        exact .inl ⟨Nat.lt_of_not_le hgt, written_of_ok hwritten⟩

theorem write_eq_false (hw : s.write r overrideAllowed = .ok (false, s')) :
    s' = s ∧ overrideAllowed = false ∧ ∃ n, s.latest = some (.number n) ∧ r.number ≤ n := by
  obtain ⟨latest, hlatest, hw⟩ := bind_eq_ok.mp hw
  rw [latestRecordChecked_eq_ok] at hlatest
  cases latest with
  | none => simp [bind_eq_ok, map_eq_ok] at hw
  | some n =>
    dsimp only at hw
    split at hw
    next hskip =>
      exact ⟨(Prod.mk.inj (pure_eq_ok.mp hw)).2.symm, hskip.2, n, hlatest, hskip.1⟩
    · obtain ⟨-, -, hw⟩ := bind_eq_ok.mp hw
      split at hw <;> simp [bind_eq_ok, map_eq_ok] at hw

theorem Stores.archive (h : Stores s log) (hlatest : s.latest = some (.number n)) (hle : r.number ≤ n)
    (ha : s.archive r = .ok s') : Stores s' log ∧ s'.latest = s.latest ∧ s'.chainId = s.chainId := by
  obtain ⟨old, hold⟩ := (h.exists_canonical_iff hlatest _).mpr hle
  rcases h.archive_eq_ok hold ha with ⟨-, rfl⟩ | ⟨-, hash, -, hw⟩
  · exact ⟨h, rfl, rfl⟩
  · have hnumber : old.number ≤ n := (canonical_number hold).trans_le hle
    exact ⟨h.archived hw hlatest hnumber, hw.latest_kept hlatest hnumber, hw.chainId⟩

theorem Stores.write (h : Stores s log) (hw : s.write r overrideAllowed = .ok (true, s')) :
    Stores s' (log ++ [r]) ∧ s'.chainId = s.chainId := by
  rcases write_eq_true hw with ⟨hnone, hzero, hw⟩ | ⟨n, hsome, hnext, ⟨-, hw⟩ | ⟨hle, archived, ha, hw⟩⟩
  · exact ⟨h.append hw (.inl ⟨hnone, hzero⟩), hw.chainId⟩
  · exact ⟨h.append hw (.inr ⟨n, hsome, hnext⟩), hw.chainId⟩
  · obtain ⟨harchived, hlatest, hchainId⟩ := h.archive hsome hle ha
    exact ⟨harchived.append hw (.inr ⟨n, hlatest.trans hsome, hnext⟩), hw.chainId.trans hchainId⟩

end Invariant

/-! ### Linked records -/

/-- The window of the record is the one of its canonical predecessor, pushed with the hash of
that one, and its previous timestamp is that of the predecessor. Block 0 has an empty window. -/
def Follows (log : List (SealedRecord T)) (r : SealedRecord T) : Prop :=
  match r.number with
  | 0 => r.blockContext.blockHashes = .empty ∧ r.previousBlockTimestamp = 0
  | n + 1 => ∃ p, canonical log n = some p ∧
    r.blockContext.blockHashes = BlockHashes.push p.blockContext.blockHashes p.hash ∧
    r.previousBlockTimestamp = p.blockContext.timestamp

/-- The canonical records of block `m` and of the blocks in its window follow the canonical record
before them, but for the oldest one. -/
def LinkedUpTo (log : List (SealedRecord T)) (m : Nat) : Prop :=
  ∀ n ≤ m, m < n + 256 → ∃ r, canonical log n = some r ∧ Follows log r

section Linked
variable {s : BlockReplayStorage T} {log : List (SealedRecord T)} {r : SealedRecord T} {m n : Nat}

theorem follows_of_linked {depth : Nat} (h : ∀ n ≤ m, m < n + depth → ∃ r, canonical log n = some r ∧ Follows log r)
    (hpos : 0 < depth) (hr : canonical log m = some r) : Follows log r := by
  obtain ⟨r', hr', hf⟩ := h m le_rfl (Nat.lt_add_of_pos_right hpos)
  rwa [Option.some.inj (hr.symm.trans hr')]

theorem follows_zero (hn : r.number = 0) :
    Follows log r ↔ r.blockContext.blockHashes = .empty ∧ r.previousBlockTimestamp = 0 := by
  rw [Follows, hn]

theorem follows_succ (hn : r.number = n + 1) : Follows log r ↔ ∃ p, canonical log n = some p ∧
    r.blockContext.blockHashes = BlockHashes.push p.blockContext.blockHashes p.hash ∧
    r.previousBlockTimestamp = p.blockContext.timestamp := by
  rw [Follows, hn]

instance (log : List (SealedRecord T)) (r : SealedRecord T) : Decidable (Follows log r) :=
  match hn : r.number with
  | 0 => decidable_of_iff _ (follows_zero hn).symm
  | n + 1 =>
    match hp : canonical log n with
    | some p => decidable_of_iff
        (r.blockContext.blockHashes = BlockHashes.push p.blockContext.blockHashes p.hash ∧
          r.previousBlockTimestamp = p.blockContext.timestamp) (by simp [follows_succ hn, hp])
    | none => isFalse (by simp [follows_succ hn, hp])

/-- The window of a record holds the hashes of the canonical blocks before it, as deep as they are linked. -/
theorem window_of_linked {depth : Nat} (h : ∀ n ≤ m, m < n + depth → ∃ r, canonical log n = some r ∧ Follows log r)
    (hr : canonical log m = some r) (i : Fin 256) (hi : 256 ≤ i.val + depth) :
    256 ≤ m + i.val ∧ (∃ p, canonical log (m + i.val - 256) = some p ∧ r.blockContext.blockHashes i = p.hash) ∨
      m + i.val < 256 ∧ r.blockContext.blockHashes i = 0 := by
  induction m generalizing r i depth with
  | zero =>
    have hf := (follows_zero (canonical_number hr)).mp (follows_of_linked h (by omega) hr)
    exact .inr ⟨by omega, by rw [hf.1]; rfl⟩
  | succ m ih =>
    obtain ⟨p, hp, hwindow, -⟩ := (follows_succ (canonical_number hr)).mp (follows_of_linked h (by omega) hr)
    rw [hwindow, BlockHashes.push]
    split
    next hlt =>
      have hshift : m + 1 + i.val = m + (i.val + 1) := by omega
      rw [hshift]
      have hlinked : ∀ n ≤ m, m < n + (depth - 1) → ∃ r, canonical log n = some r ∧ Follows log r :=
        fun n hn hdepth => h n (by omega) (by omega)
      refine ih hlinked hp ⟨i.val + 1, hlt⟩ ?_
      dsimp only
      omega
    next hlt =>
      have hm : m + 1 + i.val - 256 = m := by omega
      exact .inl ⟨by omega, p, by rw [hm]; exact hp, rfl⟩

theorem Stores.readBlockHashes (h : Stores s log) (hlinked : LinkedUpTo log m) (hr : canonical log m = some r) :
    s.readBlockHashes m (.number m) = .ok r.blockContext.blockHashes := by
  obtain ⟨embedded, hread, hembedded⟩ : ∃ embedded : BlockHashes, s.readBlockHashes m (.number m) = .ok (fun i =>
      if 256 ≤ m + i.val then (s.canonicalHash (m + i.val - 256)).getD (embedded i) else 0) ∧
        ∀ i : Fin 256, 256 ≤ m + i.val → s.canonicalHash (m + i.val - 256) = none →
          embedded i = r.blockContext.blockHashes i := by
    rw [BlockReplayStorage.readBlockHashes]
    split
    next hall =>
      refine ⟨_, rfl, fun i hi hnone => ?_⟩
      have hsome := List.all_eq_true.mp hall (m + i.val - 256) (by rw [List.mem_range'_1]; omega)
      rw [hnone] at hsome
      cases hsome
    · rw [(h.row m r hr).context]
      exact ⟨_, rfl, fun _ _ _ => rfl⟩
  rw [hread]
  refine congrArg _ (funext fun i => ?_)
  rcases window_of_linked hlinked hr i (by omega) with ⟨hi, p, hp, hwindow⟩ | ⟨hi, hwindow⟩
  · rw [if_pos hi]
    cases hhash : s.canonicalHash (m + i.val - 256) with
    | none => exact hembedded i hi hhash
    | some hash =>
      obtain ⟨p', hp', rfl⟩ := h.hash _ _ hhash
      obtain rfl := Option.some.inj (hp.symm.trans hp')
      exact hwindow.symm
  · rw [if_neg (by omega), hwindow]

theorem Stores.strip_eq (h : Stores s log) (hr : canonical log m = some r) {v : StoredBlockContextV2}
    (hv : s.contextV2 (.number m) = some v) : v = .strip r.blockContext := by
  obtain ⟨r', hr', rfl⟩ := h.stripped m v hv
  rw [Option.some.inj (hr.symm.trans hr')]

theorem Stores.getContext (h : Stores s log) (hlinked : LinkedUpTo log m) (hr : canonical log m = some r)
    (hchain : r.blockContext.chainId = s.chainId) : s.getContext m = .ok (some r.blockContext) := by
  rw [BlockReplayStorage.getContext, BlockReplayStorage.getContextByKey]
  cases hv : s.contextV2 (.number m) with
  | none => exact congrArg _ (h.row m r hr).context
  | some v =>
    obtain rfl := h.strip_eq hr hv
    have hnumber : (StoredBlockContextV2.strip r.blockContext).blockNumber = m := canonical_number hr
    dsimp only
    rw [require_pos hnumber, ok_bind, h.readBlockHashes hlinked hr, ok_bind, ← hchain]
    rfl

theorem Stores.getBlockTimestamp (h : Stores s log) (hr : canonical log m = some r) :
    s.getBlockTimestamp m = some r.blockContext.timestamp := by
  rw [BlockReplayStorage.getBlockTimestamp, (h.row m r hr).context]
  cases hv : s.contextV2 (.number m) with
  | none => rfl
  | some v => rw [h.strip_eq hr hv]; rfl

theorem Stores.previousTimestamp (h : Stores s log) (hlinked : LinkedUpTo log m) (hr : canonical log m = some r) :
    s.previousTimestamp m = r.previousBlockTimestamp := by
  have hf := follows_of_linked hlinked (by decide) hr
  rw [BlockReplayStorage.previousTimestamp]
  cases m with
  | zero => exact ((follows_zero (canonical_number hr)).mp hf).2.symm
  | succ m =>
    obtain ⟨p, hp, -, hts⟩ := (follows_succ (canonical_number hr)).mp hf
    rw [if_neg (Nat.succ_ne_zero m), Nat.add_sub_cancel, h.getBlockTimestamp hp, hts]
    rfl

/-- Both reads of a block return what was written last for it. -/
def ReadsBack (s : BlockReplayStorage T) (log : List (SealedRecord T)) (m : Nat) : Prop :=
  ∃ r, canonical log m = some r ∧ s.getReplayRecord m = .ok (some r.toReplayRecord) ∧
    s.getContext m = .ok (some r.blockContext)

theorem Stores.readsBack (h : Stores s log) (hchain : ∀ r ∈ log, r.blockContext.chainId = s.chainId)
    (hlinked : LinkedUpTo log m) : ReadsBack s log m := by
  obtain ⟨r, hr, -⟩ := hlinked m le_rfl (by omega)
  have hcontext := h.getContext hlinked hr (hchain r (KeyedLog.mem_of_last hr).1)
  refine ⟨r, hr, ?_, hcontext⟩
  rw [BlockReplayStorage.getContext] at hcontext
  rw [BlockReplayStorage.getReplayRecord, BlockReplayStorage.getReplayRecordByKey, Option.getD_none, hcontext, ok_bind]
  dsimp only
  rw [(h.row m r hr).assemble, h.previousTimestamp hlinked hr]
  rfl

end Linked

/-- Each record is at most one block above the one that was written before it. -/
def InWaves (log : List (SealedRecord T)) : Prop := log.IsChain fun a b => b.number ≤ a.number + 1

instance (log : List (SealedRecord T)) : Decidable (InWaves log) := inferInstanceAs (Decidable (List.IsChain _ _))

def LinkedIfInWaves (log : List (SealedRecord T)) : Prop :=
  InWaves log → ∀ last, log.getLast? = some last → ∀ n ≤ last.number, ∃ r, canonical log n = some r ∧ Follows log r

theorem follows_append {r' : SealedRecord T} (hle : r'.number ≤ r.number) :
    Follows (log ++ [r]) r' ↔ Follows log r' := by
  rw [Follows, Follows]
  cases hn : r'.number with
  | zero => exact Iff.rfl
  | succ n =>
    dsimp only
    rw [canonical_append, if_neg (by omega)]

theorem LinkedIfInWaves.append (h : LinkedIfInWaves log) (hr : Follows log r) : LinkedIfInWaves (log ++ [r]) := by
  intro hwaves last hlast
  obtain rfl : r = last := by simpa using hlast
  have hbelow : ∀ n < r.number, ∃ r', canonical log n = some r' ∧ Follows log r' := by
    rcases List.eq_nil_or_concat' log with rfl | ⟨log', last', rfl⟩
    · intro n hn
      obtain ⟨k, hk⟩ : ∃ k, r.number = k + 1 := ⟨r.number - 1, by omega⟩
      rw [follows_succ hk] at hr
      obtain ⟨p, hp, -⟩ := hr
      cases hp
    · obtain ⟨hwaves', -, hnext⟩ := List.isChain_append.mp hwaves
      have hle := hnext last' (by simp) r (by simp)
      exact fun n hn => h hwaves' last' (by simp) n (by omega)
  intro n hn
  rw [canonical_append]
  split
  · exact ⟨r, rfl, (follows_append le_rfl).mpr hr⟩
  · obtain ⟨r', hr', hf⟩ := hbelow n (by omega)
    exact ⟨r', hr', (follows_append ((canonical_number hr').trans_le hn)).mpr hf⟩

/-! ### Runs -/

/-- A call of `write`, or the loss of some stripped rows and hash entries. -/
inductive Op (T : Type) where
  | write (record : SealedRecord T) (overrideAllowed : Bool)
  | lose (rows hashes : Nat → Bool)

/-- Some stripped rows and hash entries are missing. -/
def BlockReplayStorage.lose (s : BlockReplayStorage T) (rows hashes : Nat → Bool) : BlockReplayStorage T :=
  { s with
    contextV2 := fun key =>
      match key with
      | .number n => if rows n then none else s.contextV2 (.number n)
      | .hash h => s.contextV2 (.hash h)
    canonicalHash := fun n => if hashes n then none else s.canonicalHash n }

/-- The storage and the records that were written and not skipped. -/
structure LogState (T : Type) where
  storage : BlockReplayStorage T
  log : List (SealedRecord T)

def LogState.empty (chainId : Nat) : LogState T := ⟨.newWithoutGenesis chainId, []⟩

theorem Stores.lose {s : BlockReplayStorage T} (h : Stores s log)
    (rows hashes : Nat → Bool) : Stores (s.lose rows hashes) log := by
  constructor
  case latest => exact h.latest
  case row => exact fun n r hr => { h.row n r hr with }
  case stripped =>
    intro n v hv
    simp only [BlockReplayStorage.lose] at hv
    split at hv
    · cases hv
    · exact h.stripped n v hv
  case hash =>
    intro n hash hh
    simp only [BlockReplayStorage.lose] at hh
    split at hh
    · cases hh
    · exact h.hash n hash hh

section Runs
variable [DecidableEq T]

def LogState.step (s : LogState T) : Op T → LogState T
  | .write record overrideAllowed =>
    match s.storage.write record overrideAllowed with
    | .ok (true, storage) => ⟨storage, s.log ++ [record]⟩
    | .ok (false, storage) => ⟨storage, s.log⟩
    | .error _ => s
  | .lose rows hashes => ⟨s.storage.lose rows hashes, s.log⟩

def LogState.writes (s : LogState T) (record : SealedRecord T) (overrideAllowed : Bool) : Bool :=
  (s.storage.write record overrideAllowed).toOption.any (·.1)

/-- A record that is written follows its canonical predecessor and has the chain id of the storage. -/
def LogState.Linked (s : LogState T) : Op T → Prop
  | .write record overrideAllowed => s.writes record overrideAllowed = true →
    Follows s.log record ∧ record.blockContext.chainId = s.storage.chainId
  | .lose _ _ => True

instance (s : LogState T) : DecidablePred s.Linked := fun op => by
  unfold LogState.Linked
  split <;> infer_instance

theorem LogState.step_cases (s : LogState T) (op : Op T) : (s.step op).log = s.log ∧ ((s.step op).storage = s.storage ∨
      ∃ rows hashes, op = .lose rows hashes ∧ (s.step op).storage = s.storage.lose rows hashes) ∨
    ∃ record overrideAllowed storage, op = .write record overrideAllowed ∧
      s.storage.write record overrideAllowed = .ok (true, storage) ∧ s.step op = ⟨storage, s.log ++ [record]⟩ := by
  cases op with
  | lose rows hashes => exact .inl ⟨rfl, .inr ⟨rows, hashes, rfl, rfl⟩⟩
  | write record overrideAllowed =>
    cases hw : s.storage.write record overrideAllowed with
    | error e => exact .inl ⟨by rw [step, hw], .inl (by rw [step, hw])⟩
    | ok result =>
      obtain ⟨written, storage⟩ := result
      cases written with
      | true => exact .inr ⟨record, overrideAllowed, storage, rfl, hw, by rw [step, hw]⟩
      | false => exact .inl ⟨by rw [step, hw], .inl (by rw [step, hw]; exact (write_eq_false hw).1)⟩

theorem writes_of_ok {s : LogState T} {record : SealedRecord T} {overrideAllowed : Bool} {storage : BlockReplayStorage T}
    (hw : s.storage.write record overrideAllowed = .ok (true, storage)) : s.writes record overrideAllowed = true := by
  rw [LogState.writes, hw]
  rfl

/-- What holds after every linked run. -/
structure Refines (s : LogState T) : Prop where
  stores : Stores s.storage s.log
  chainId : ∀ r ∈ s.log, r.blockContext.chainId = s.storage.chainId
  waves : LinkedIfInWaves s.log

theorem Refines.step (s : LogState T) (op : Op T) (h : Refines s) (hop : s.Linked op) : Refines (s.step op) := by
  rcases s.step_cases op with ⟨hlog, hs | ⟨rows, hashes, -, hs⟩⟩ | ⟨record, overrideAllowed, storage, rfl, hw, hs⟩
  · exact ⟨by rw [hlog, hs]; exact h.stores, by rw [hlog, hs]; exact h.chainId, by rw [hlog]; exact h.waves⟩
  · exact ⟨by rw [hlog, hs]; exact h.stores.lose rows hashes, by rw [hlog, hs]; exact h.chainId,
      by rw [hlog]; exact h.waves⟩
  · rw [hs]
    obtain ⟨hfollows, hchain⟩ := hop (writes_of_ok hw)
    obtain ⟨hstores, hchainId⟩ := h.stores.write hw
    refine ⟨hstores, fun r hr => ?_, h.waves.append hfollows⟩
    rw [hchainId]
    rcases List.mem_append.mp hr with hr | hr
    · exact h.chainId r hr
    · rwa [List.mem_singleton.mp hr]

/-- In every run, a block is read back as it was written last if the canonical records of its window
are linked, which is so for all blocks up to the last written one if records are written in waves. -/
theorem replay_reads_back (chainId : Nat) (ops : List (Op T))
    (h : Run.Steps LogState.step LogState.Linked (LogState.empty chainId) ops) :
    let s := ops.foldl LogState.step (LogState.empty chainId)
    (∀ m, LinkedUpTo s.log m → ReadsBack s.storage s.log m) ∧
      (InWaves s.log → ∀ last, s.log.getLast? = some last → ∀ m ≤ last.number, ReadsBack s.storage s.log m) := by
  have hempty : Refines (LogState.empty chainId : LogState T) :=
    ⟨stores_empty chainId, fun r hr => absurd hr List.not_mem_nil, fun _ last hlast => by cases hlast⟩
  have hinv := (Run.Steps.invariant Refines.step hempty h).last
  have hread := fun m hm => hinv.stores.readsBack hinv.chainId (m := m) hm
  exact ⟨hread, fun hwaves last hlast m hm => hread m fun n hn _ => hinv.waves hwaves last hlast n (hn.trans hm)⟩

/-- A record without transactions; the gas limit tells records of one block apart. -/
def sampleRecord (number : Nat) (blockHashes : BlockHashes) (previousBlockTimestamp gasLimit : Nat) (nodeVersion : String)
    (hash : B256) : SealedRecord Nat where
  blockContext := ⟨270, number, blockHashes, 1000 + number, 0, 0, 0, 0, gasLimit, 0, 0, 0, 0⟩
  transactions := []
  previousBlockTimestamp
  nodeVersion
  protocolVersion := ⟨0, 29, 1⟩
  blockOutputHash := 0
  forcePreimages := []
  startingCursors := ⟨0, 0, 0, 0⟩
  hash

/-- Blocks 0 and 1 are written, then replaced one after the other; a stripped row and a hash entry get lost. -/
def waveOps : List (Op Nat) :=
  [.write (sampleRecord 0 .empty 0 100 "1.0.0" 10) false,
    .write (sampleRecord 1 (BlockHashes.push .empty 10) 1000 100 "1.0.0" 11) false,
    .write (sampleRecord 0 .empty 0 200 "1.0.0" 20) true,
    .write (sampleRecord 1 (BlockHashes.push .empty 20) 1000 200 "1.0.0" 21) true,
    .lose (fun n => n = 0) fun n => n = 0]

theorem replay_reads_back_wave : ReadsBack (waveOps.foldl LogState.step (LogState.empty 270)).storage
      (waveOps.foldl LogState.step (LogState.empty 270)).log 1 :=
  (replay_reads_back 270 waveOps (by decide +kernel)).2 (by decide +kernel)
    (sampleRecord 1 (BlockHashes.push .empty 20) 1000 200 "1.0.0" 21) (by decide +kernel) 1 (by decide)

/-- Block 0 is replaced and block 2 is appended on top of the old block 1. -/
def gapOps : List (Op Nat) :=
  [.write (sampleRecord 0 .empty 0 100 "1.0.0" 10) false,
    .write (sampleRecord 1 (BlockHashes.push .empty 10) 1000 100 "1.0.0" 11) false,
    .write (sampleRecord 0 .empty 0 200 "1.0.0" 20) true,
    .write (sampleRecord 2 (BlockHashes.push (BlockHashes.push .empty 10) 11) 1001 100 "1.0.0" 12) false]

/-- The hash of the new block 0 is read for the old block 1. -/
theorem stale_successor_misread : Run.Steps LogState.step LogState.Linked (LogState.empty 270) gapOps ∧
      ((gapOps.foldl LogState.step (LogState.empty 270)).log.getLast?.map (·.number)) = some 2 ∧
      canonical (gapOps.foldl LogState.step (LogState.empty 270)).log 1 =
        some (sampleRecord 1 (BlockHashes.push .empty 10) 1000 100 "1.0.0" 11) ∧
      (gapOps.foldl LogState.step (LogState.empty 270)).storage.getContext 1 =
        .ok (some (sampleRecord 1 (BlockHashes.push .empty 20) 1000 100 "1.0.0" 11).blockContext) ∧
      ¬ ReadsBack (gapOps.foldl LogState.step (LogState.empty 270)).storage
        (gapOps.foldl LogState.step (LogState.empty 270)).log 1 := by
  have hread : (gapOps.foldl LogState.step (LogState.empty 270)).storage.getContext 1 =
      .ok (some (sampleRecord 1 (BlockHashes.push .empty 20) 1000 100 "1.0.0" 11).blockContext) :=
    toOption_eq_some.mp (by decide +kernel)
  have hlast : canonical (gapOps.foldl LogState.step (LogState.empty 270)).log 1 =
      some (sampleRecord 1 (BlockHashes.push .empty 10) 1000 100 "1.0.0" 11) := by decide +kernel
  refine ⟨by decide +kernel, by decide +kernel, hlast, hread, ?_⟩
  rintro ⟨r, hr, -, hcontext⟩
  obtain rfl := Option.some.inj (hlast.symm.trans hr)
  have hhash := congrArg (fun context => context.toOption.map (·.map (·.blockHashes 255))) (hread.symm.trans hcontext)
  exact absurd hhash (by decide +kernel)

end Runs

end Replay
