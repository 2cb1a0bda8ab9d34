import ZksyncOsServer.L1Watcher.Contract

/-!
# Discovering the committed batches at startup

`l1_watcher/src/committed_batch_provider.rs`, `sweep_startup_commits` with the chunked pass of
`sweep_committed_batch_events` and the batch numbers that `startup_batch_numbers` requests. The
reports and the commitments are collected separately, the later log of a batch replacing the
earlier one.
-/
namespace L1Watcher

open Fallible List Run MinedTx History
open MerkleTree (B256 Map)

structure SweptCommit where
  blockRange : BlockRange
  commitment : B256
  txHash : B256
  l1BlockNumber : Nat
  deriving DecidableEq

inductive SweepError where
  | watcher (error : L1WatcherError)
  | notCommitted (maxBatch latest totalCommitted : Nat)
  | overflow
  | outOfRounds
  | unexpectedTopic
  deriving DecidableEq

/-- An addition of `u64`s, with overflow checks. -/
def checkedAdd (a b : Nat) : Except SweepError Nat := do
  require (a + b ≤ u64Max) .overflow
  return a + b

structure Sweep where
  reports : Map Nat (BlockRange × B256 × Nat)
  commitments : Map Nat B256

def Event.swept : Event → Bool
  | .reportCommittedBatchRange .. | .blockCommit .. => true
  | _ => false

def Sweep.record (this : Sweep) (log : Log) : Except SweepError Sweep :=
  match log.event with
  | .reportCommittedBatchRange n range =>
    .ok { this with reports := this.reports.insert n (range, log.transactionHash, log.blockNumber) }
  | .blockCommit n commitment => .ok { this with commitments := this.commitments.insert n commitment }
  | _ => .error .unexpectedTopic

/-- The order of logs in the chain. -/
def Log.Before (a b : Log) : Prop :=
  a.blockNumber < b.blockNumber ∨ a.blockNumber = b.blockNumber ∧ a.logIndex ≤ b.logIndex

instance : DecidableRel Log.Before := fun _ _ => inferInstanceAs (Decidable (_ ∨ _))

def filterToBlock (latest currentBlock maxBlocksPerQuery : Nat) : Except SweepError Nat := do
  let next ← checkedAdd currentBlock maxBlocksPerQuery
  require (1 ≤ next) .overflow
  return min latest (next - 1)

/-- The logs of one chunk, in the order of the chain. -/
def sweepChunk (history : History) (currentBlock toBlock : Nat) (sweep : Sweep) : Except SweepError Sweep :=
  ((history.getLogs currentBlock toBlock Event.swept).insertionSort Log.Before).foldlM Sweep.record sweep

def sweepChunks (history : History) (latest maxBlocksPerQuery : Nat) : Nat → Nat → Sweep → Except SweepError Sweep
  | 0, _, _ => .error .outOfRounds
  | fuel + 1, currentBlock, sweep =>
    if currentBlock ≤ latest then do
      let toBlock ← filterToBlock latest currentBlock maxBlocksPerQuery
      let sweep ← sweepChunk history currentBlock toBlock sweep
      let nextBlock ← checkedAdd toBlock 1
      sweepChunks history latest maxBlocksPerQuery fuel nextBlock sweep
    else .ok sweep

def Sweep.zip (this : Sweep) : Map Nat SweptCommit :=
  this.reports.filterMap fun batchNumber (blockRange, txHash, l1BlockNumber) =>
    this.commitments[batchNumber]?.map fun commitment => ⟨blockRange, commitment, txHash, l1BlockNumber⟩

def sweepCommittedBatchEvents (history : History) (latest fromBlock maxBlocksPerQuery : Nat) :
    Except SweepError (Map Nat SweptCommit) := do
  let sweep ← sweepChunks history latest maxBlocksPerQuery (latest + 2) fromBlock ⟨∅, ∅⟩
  return sweep.zip

def minMax (batchNumbers : List Nat) : Option Nat × Option Nat :=
  batchNumbers.foldl (fun (lo, hi) n => (some (min n (lo.getD n)), some (max n (hi.getD n)))) (none, none)

def sweepStartupCommits (history : History) (latest maxBlocksPerQuery : Nat) (batchNumbers : List Nat) :
    Except SweepError (Map Nat SweptCommit) :=
  match minMax batchNumbers with
  | (some minBatch, some maxBatch) => do
    let totalCommitted := (history.contractAt latest).totalBatchesCommitted
    require (maxBatch ≤ totalCommitted) (.notCommitted maxBatch latest totalCommitted)
    let (fromBlock, _) ← (findL1CommitBlockByBatchNumber history latest minBatch).mapError .watcher
    sweepCommittedBatchEvents history latest fromBlock maxBlocksPerQuery
  | _ => .ok ∅

def startupBatchNumbers (lastCommittedBatch lastProvedBatch lastExecutedBatch lastFinalizedExecutedBatch : Nat) :
    List Nat × List Nat :=
  let prioritized := [lastCommittedBatch, lastProvedBatch, lastExecutedBatch, lastFinalizedExecutedBatch]
  let first := max lastFinalizedExecutedBatch 1
  (List.range' first (lastCommittedBatch + 1 - first)).partition (prioritized.contains ·)

/-- The batches that a start asks for. -/
def requestedBatches (lastCommittedBatch lastProvedBatch lastExecutedBatch lastFinalizedExecutedBatch : Nat) : List Nat :=
  let (prioritized, remaining) :=
    startupBatchNumbers lastCommittedBatch lastProvedBatch lastExecutedBatch lastFinalizedExecutedBatch
  prioritized ++ remaining

/-! ### The requested batches -/

theorem minMax_append (xs : List Nat) (n : Nat) :
    minMax (xs ++ [n]) = (some (min n ((minMax xs).1.getD n)), some (max n ((minMax xs).2.getD n))) := by
  simp [minMax]

/-- The fold finds the bounds of the batch numbers. -/
theorem minMax_spec (xs : List Nat) : xs = [] ∧ minMax xs = (none, none) ∨
    ∃ lo hi, minMax xs = (some lo, some hi) ∧ lo ∈ xs ∧ hi ∈ xs ∧ ∀ n ∈ xs, lo ≤ n ∧ n ≤ hi := by
  induction xs using reverseRecOn with
  | nil => exact .inl ⟨rfl, rfl⟩
  | append_singleton xs n ih =>
    right
    rw [minMax_append]
    rcases ih with ⟨rfl, hnone⟩ | ⟨lo, hi, hsome, hlo, hhi, hbounds⟩
    · exact ⟨n, n, by simp [hnone], by simp⟩
    · rw [hsome]
      refine ⟨min n lo, max n hi, rfl, ?_, ?_, ?_⟩
      · rcases min_choice n lo with h | h <;> simp [h, hlo]
      · rcases max_choice n hi with h | h <;> simp [h, hhi]
      · intro k hk
        rcases mem_append.mp hk with hk | hk
        · have := hbounds k hk
          omega
        · rw [mem_singleton.mp hk]
          omega

theorem minMax_eq {xs : List Nat} {lo hi : Nat} (hlo : lo ∈ xs) (hhi : hi ∈ xs) (h : ∀ n ∈ xs, lo ≤ n ∧ n ≤ hi) :
    minMax xs = (some lo, some hi) := by
  rcases minMax_spec xs with ⟨rfl, -⟩ | ⟨lo', hi', hsome, hlo', hhi', hbounds⟩
  · cases hlo
  · have hlow : lo' = lo := le_antisymm (hbounds lo hlo).1 (h lo' hlo').1
    have hhigh : hi' = hi := le_antisymm (h hi' hhi').2 (hbounds hi hhi).2
    rw [hsome, hlow, hhigh]

theorem mem_requestedBatches {committed proved executed finalized n : Nat} :
    n ∈ requestedBatches committed proved executed finalized ↔ max finalized 1 ≤ n ∧ n ≤ committed := by
  simp only [requestedBatches, startupBatchNumbers, partition_eq_filter_filter, mem_append, mem_filter,
    Function.comp_apply, mem_range'_1]
  cases ([committed, proved, executed, finalized].contains n) <;> simp <;> omega

/-! ### One chunk -/

variable {history : History} {n : Nat}

theorem MinedTx.logIndex_of_mem_logs {tx : MinedTx} {log : Log} (h : log ∈ tx.logs) :
    2 * tx.index ≤ log.logIndex ∧ log.logIndex ≤ 2 * tx.index + 1 := by
  rw [logs] at h
  cases hop : tx.operation with
  | commit commit =>
    simp only [hop, mem_cons, not_mem_nil, or_false] at h
    rcases h with rfl | rfl <;> simp
  | revert newTotal =>
    simp only [hop, mem_singleton] at h
    simp [h]
  | execute batchNumber =>
    simp only [hop, mem_singleton] at h
    simp [h]

theorem History.logs_ordered (history : History) : (history.txs.flatMap logs).Pairwise Log.Before := by
  rw [pairwise_flatMap]
  constructor
  · intro tx _
    rw [logs]
    cases tx.operation <;> simp [Log.Before]
  · refine history.ordered.imp fun {a b} hab x hx y hy => ?_
    have hxb := blockNumber_of_mem_logs hx
    have hyb := blockNumber_of_mem_logs hy
    have hxi := logIndex_of_mem_logs hx
    have hyi := logIndex_of_mem_logs hy
    rw [Log.Before]
    omega

theorem History.getLogs_sorted (history : History) (fromBlock toBlock : Nat) (watched : Event → Bool) :
    (history.getLogs fromBlock toBlock watched).insertionSort Log.Before = history.getLogs fromBlock toBlock watched :=
  (history.logs_ordered.filter _).insertionSort_eq

theorem History.getLogs_append (history : History) {fromBlock midBlock toBlock : Nat} (hfrom : fromBlock ≤ midBlock + 1)
    (hto : midBlock ≤ toBlock) (watched : Event → Bool) :
    history.getLogs fromBlock midBlock watched ++ history.getLogs (midBlock + 1) toBlock watched =
      history.getLogs fromBlock toBlock watched := by
  have hcut := filter_append_filter_not (p := fun log => decide (log.blockNumber ≤ midBlock))
    (history.logs_ordered.filter fun log =>
      decide (fromBlock ≤ log.blockNumber) && decide (log.blockNumber ≤ toBlock) && watched log.event)
    fun a b hab hb => by
      rw [Log.Before] at hab
      simp only [decide_eq_true_eq] at hb ⊢
      omega
  rw [filter_filter, filter_filter] at hcut
  rw [getLogs, getLogs, getLogs, ← hcut]
  congr 1 <;> refine filter_congr fun log _ => ?_
  · cases watched log.event
    · simp
    · rw [Bool.eq_iff_iff]
      simp
      omega
  · cases watched log.event
    · simp
    · rw [Bool.eq_iff_iff]
      simp
      omega

theorem History.getLogs_eq_nil (history : History) {fromBlock toBlock : Nat} (h : toBlock < fromBlock)
    (watched : Event → Bool) : history.getLogs fromBlock toBlock watched = [] := by
  rw [getLogs, filter_eq_nil_iff]
  intro log _
  simp only [Bool.and_eq_true, decide_eq_true_eq, not_and]
  omega

def Sweep.add (this : Sweep) (log : Log) : Sweep := (this.record log).toOption.getD this

theorem Sweep.record_eq_add (this : Sweep) {log : Log} (h : log.event.swept = true) : this.record log = .ok (this.add log) := by
  cases hevent : log.event <;> simp_all [add, record, Event.swept, Except.toOption]

theorem Sweep.foldlM_record {logs : List Log} (h : ∀ log ∈ logs, log.event.swept = true) (this : Sweep) :
    logs.foldlM record this = .ok (logs.foldl add this) := by
  induction logs generalizing this with
  | nil => rfl
  | cons log logs ih =>
    obtain ⟨hlog, hlogs⟩ := forall_mem_cons.mp h
    rw [foldlM_cons, this.record_eq_add hlog, ok_bind, ih hlogs, foldl_cons]

theorem swept_of_mem_getLogs {fromBlock toBlock : Nat} {log : Log} (h : log ∈ history.getLogs fromBlock toBlock Event.swept) :
    log.event.swept = true := by
  have := (mem_filter.mp h).2
  simp only [Bool.and_eq_true] at this
  exact this.2

theorem sweepChunk_eq (history : History) (currentBlock toBlock : Nat) (sweep : Sweep) :
    sweepChunk history currentBlock toBlock sweep =
      .ok ((history.getLogs currentBlock toBlock Event.swept).foldl Sweep.add sweep) := by
  rw [sweepChunk, getLogs_sorted, Sweep.foldlM_record fun log => swept_of_mem_getLogs]

/-! ### All chunks -/

/-- The arithmetic of the chunks from a block on stays within 64 bits. -/
def ChunksFit (latest maxBlocksPerQuery fromBlock : Nat) : Prop :=
  ∀ k, fromBlock + k * maxBlocksPerQuery ≤ latest → fromBlock + k * maxBlocksPerQuery + maxBlocksPerQuery ≤ u64Max

variable {latest maxBlocksPerQuery fromBlock : Nat}

/-- The condition on the chunks is one on the first chunk and one on the others. -/
theorem chunksFit_step (hmax : 1 ≤ maxBlocksPerQuery) (hle : fromBlock ≤ latest) :
    ChunksFit latest maxBlocksPerQuery fromBlock ↔ fromBlock + maxBlocksPerQuery ≤ u64Max ∧
        ChunksFit latest maxBlocksPerQuery (min latest (fromBlock + maxBlocksPerQuery - 1) + 1) := by
  have hnext : min latest (fromBlock + maxBlocksPerQuery - 1) + 1 = min (latest + 1) (fromBlock + maxBlocksPerQuery) := by
    omega
  rw [hnext]
  constructor
  · intro h
    refine ⟨by simpa using h 0 (by omega), fun k hk => ?_⟩
    have hlast : min (latest + 1) (fromBlock + maxBlocksPerQuery) = fromBlock + maxBlocksPerQuery := by omega
    have hshift : fromBlock + (k + 1) * maxBlocksPerQuery = fromBlock + maxBlocksPerQuery + k * maxBlocksPerQuery := by
      rw [Nat.succ_mul]
      omega
    have := h (k + 1)
    rw [hlast] at hk ⊢
    rw [hshift] at this
    exact this hk
  · rintro ⟨hfirst, hrest⟩ k hk
    cases k with
    | zero => simpa using hfirst
    | succ k =>
      have hshift : fromBlock + (k + 1) * maxBlocksPerQuery = fromBlock + maxBlocksPerQuery + k * maxBlocksPerQuery := by
        rw [Nat.succ_mul]
        omega
      have hlast : min (latest + 1) (fromBlock + maxBlocksPerQuery) = fromBlock + maxBlocksPerQuery := by
        have := Nat.zero_le (k * maxBlocksPerQuery)
        omega
      rw [hshift] at hk ⊢
      rw [hlast] at hrest
      exact hrest k hk

theorem sweepChunks_eq (history : History) (hmax : 1 ≤ maxBlocksPerQuery) {fuel : Nat} (hfuel : latest + 2 ≤ fromBlock + fuel)
    (hfrom : fromBlock ≤ latest + 1) (sweep : Sweep) :
    (ChunksFit latest maxBlocksPerQuery fromBlock → sweepChunks history latest maxBlocksPerQuery fuel fromBlock sweep =
      .ok ((history.getLogs fromBlock latest Event.swept).foldl Sweep.add sweep)) ∧
    (¬ ChunksFit latest maxBlocksPerQuery fromBlock →
      ∃ e, sweepChunks history latest maxBlocksPerQuery fuel fromBlock sweep = .error e) := by
  induction fuel generalizing fromBlock sweep with
  | zero => omega
  | succ fuel ih =>
    rw [sweepChunks]
    by_cases hle : fromBlock ≤ latest
    · rw [if_pos hle, chunksFit_step hmax hle]
      by_cases hadd : fromBlock + maxBlocksPerQuery ≤ u64Max
      · have hto : filterToBlock latest fromBlock maxBlocksPerQuery =
            .ok (min latest (fromBlock + maxBlocksPerQuery - 1)) := by
          simp [filterToBlock, checkedAdd, require, hadd, show 1 ≤ fromBlock + maxBlocksPerQuery by omega]
        have hnext : checkedAdd (min latest (fromBlock + maxBlocksPerQuery - 1)) 1 =
            .ok (min latest (fromBlock + maxBlocksPerQuery - 1) + 1) := by
          simp [checkedAdd, require, show min latest (fromBlock + maxBlocksPerQuery - 1) + 1 ≤ u64Max by omega]
        rw [hto, ok_bind, sweepChunk_eq, ok_bind, hnext, ok_bind, and_iff_right hadd,
          ← history.getLogs_append (show fromBlock ≤ min latest (fromBlock + maxBlocksPerQuery - 1) + 1 by omega)
            (min_le_left ..), foldl_append]
        exact ih (by omega) (by omega) _
      · have hto : filterToBlock latest fromBlock maxBlocksPerQuery = .error .overflow := by
          simp [filterToBlock, checkedAdd, require, hadd, bind, Except.bind]
        rw [hto]
        exact ⟨fun h => absurd h.1 hadd, fun _ => ⟨_, rfl⟩⟩
    · rw [if_neg hle, history.getLogs_eq_nil (by omega)]
      exact ⟨fun _ => rfl, fun h => absurd (fun k hk => absurd hk (by omega)) h⟩

/-! ### What is collected -/

/-- The logs of some operations that the sweep looks at. -/
def sweptLogs (txs : List MinedTx) : List Log := (txs.flatMap MinedTx.logs).filter (·.event.swept)

theorem History.getLogs_swept (history : History) (fromBlock toBlock : Nat) :
    history.getLogs fromBlock toBlock Event.swept =
      sweptLogs (history.txs.filter fun tx => decide (fromBlock ≤ tx.blockNumber) && decide (tx.blockNumber ≤ toBlock)) := by
  rw [getLogs, sweptLogs]
  induction history.txs with
  | nil => rfl
  | cons tx txs ih =>
    rw [flatMap_cons, filter_append, ih]
    cases hin : (decide (fromBlock ≤ tx.blockNumber) && decide (tx.blockNumber ≤ toBlock)) with
    | true =>
      simp only [filter_cons, hin, if_true]
      rw [flatMap_cons, filter_append]
      congr 1
      refine filter_congr fun log hlog => ?_
      rw [blockNumber_of_mem_logs hlog, hin, Bool.true_and]
    | false =>
      simp only [filter_cons, hin, Bool.false_eq_true, if_false]
      have hnone : tx.logs.filter (fun log => decide (fromBlock ≤ log.blockNumber) && decide (log.blockNumber ≤ toBlock) &&
          log.event.swept) = [] := by
        rw [filter_eq_nil_iff]
        intro log hlog
        rw [blockNumber_of_mem_logs hlog, hin]
        simp
      rw [hnone, nil_append]

theorem getElem?_sweptLogs (txs : List MinedTx) (n : Nat) : ((sweptLogs txs).foldl Sweep.add ⟨∅, ∅⟩).reports[n]? =
      (lastCommit n txs).map (fun m => (m.commit.blockRange, m.hash, m.blockNumber)) ∧
    ((sweptLogs txs).foldl Sweep.add ⟨∅, ∅⟩).commitments[n]? = (lastCommit n txs).map (·.commit.commitment) := by
  induction txs using reverseRecOn with
  | nil => exact ⟨Std.ExtTreeMap.getElem?_empty, Std.ExtTreeMap.getElem?_empty⟩
  | append_singleton txs tx ih =>
    have hsplit : sweptLogs (txs ++ [tx]) = sweptLogs txs ++ tx.logs.filter (·.event.swept) := by
      simp [sweptLogs]
    rw [hsplit, foldl_append, lastCommit_append, lastCommit_singleton]
    cases hop : tx.operation with
    | commit commit =>
      have hlogs : tx.logs.filter (·.event.swept) = tx.logs := by simp [logs, hop, Event.swept]
      rw [hlogs, logs, hop, commitOf, hop]
      simp only [foldl_cons, foldl_nil, Sweep.add, Sweep.record, Except.toOption, Option.getD_some,
        SortedMap.getElem?_insert]
      by_cases hn : n = commit.commitInfo.batchNumber
      · simp [hn]
      · simpa [hn, Ne.symm hn] using ih
    | revert newTotal => simpa [logs, hop, Event.swept, commitOf] using ih
    | execute batchNumber => simpa [logs, hop, Event.swept, commitOf] using ih

/-- What the sweep is to return for a commit. -/
def MinedCommit.swept (this : MinedCommit) : SweptCommit :=
  ⟨this.commit.blockRange, this.commit.commitment, this.hash, this.blockNumber⟩

theorem getElem?_zip (txs : List MinedTx) (n : Nat) :
    ((sweptLogs txs).foldl Sweep.add ⟨∅, ∅⟩).zip[n]? = (lastCommit n txs).map MinedCommit.swept := by
  obtain ⟨hreports, hcommitments⟩ := getElem?_sweptLogs txs n
  rw [Sweep.zip, Std.ExtTreeMap.getElem?_filterMap', hreports]
  cases h : lastCommit n txs with
  | none => rfl
  | some m =>
    rw [h] at hcommitments
    simp [hcommitments, MinedCommit.swept]

/-! ### The swept window -/

theorem Contract.lastCommit_mono {hash : StoredBatchInfo → B256} {c : Contract} {txs : List MinedTx} {k : Nat}
    {mk mn : MinedCommit} (h : Steps (apply hash) Contract.Allows c txs)
    (hordered : txs.Pairwise fun a b => a.blockNumber ≤ b.blockNumber) (hkn : k ≤ n)
    (hn : n ≤ (txs.foldl (apply hash) c).totalBatchesCommitted)
    (hmk : lastCommit k txs = some mk) (hmn : lastCommit n txs = some mn) : mk.blockNumber ≤ mn.blockNumber := by
  induction txs using reverseRecOn with
  | nil => cases hmn
  | append_singleton txs tx ih =>
    obtain ⟨htxs, hallows, -⟩ := steps_append.mp h
    have hordered' := (pairwise_append.mp hordered).1
    -- the case of an operation that is no commit of either batch
    have hearlier : tx.commitOf k = none → tx.commitOf n = none →
        n ≤ (txs.foldl (apply hash) c).totalBatchesCommitted → mk.blockNumber ≤ mn.blockNumber := by
      intro hk hn' hle
      rw [lastCommit_append, lastCommit_singleton, hk, Option.none_or] at hmk
      rw [lastCommit_append, lastCommit_singleton, hn', Option.none_or] at hmn
      exact ih htxs hordered' hle hmk hmn
    rw [foldl_append, foldl_cons, foldl_nil, apply] at hn
    rw [Contract.Allows] at hallows
    cases hop : tx.operation with
    | commit commit =>
      simp only [hop, Contract.AllowsOperation] at hallows hn
      by_cases hlast : commit.commitInfo.batchNumber = n
      · have hcommit : tx.commitOf n = some ⟨tx.blockNumber, tx.hash, commit⟩ :=
          commitOf_eq_some.mpr ⟨commit, hop, hlast, rfl⟩
        rw [lastCommit_append, lastCommit_singleton, hcommit, Option.some_or, Option.some.injEq] at hmn
        obtain ⟨tx', htx', hcommit'⟩ := mem_of_lastCommit hmk
        obtain ⟨_, -, -, rfl⟩ := commitOf_eq_some.mp hcommit'
        rw [← hmn]
        rcases mem_append.mp htx' with hmem | hmem
        · exact (pairwise_append.mp hordered).2.2 tx' hmem tx (mem_singleton_self tx)
        · rw [mem_singleton.mp hmem]
      · refine hearlier ?_ ?_ (by omega) <;> rw [commitOf, hop] <;> exact if_neg (by omega)
    | revert newTotal =>
      rw [hop] at hallows hn
      exact hearlier (by rw [commitOf, hop]) (by rw [commitOf, hop]) (hn.trans hallows.2)
    | execute batchNumber =>
      rw [hop] at hn
      exact hearlier (by rw [commitOf, hop]) (by rw [commitOf, hop]) hn

/-- The sweep from a block at or before the last commit of a batch returns the last commits of this
batch and of those above it. -/
theorem sweepCommittedBatchEvents_live {k : Nat} {mk : MinedCommit} (hmax : 1 ≤ maxBlocksPerQuery) (hpos : 0 < k)
    (hmk : lastCommit k (history.upTo latest) = some mk) (hfrom : fromBlock ≤ mk.blockNumber) :
    (ChunksFit latest maxBlocksPerQuery fromBlock →
      ∃ swept, sweepCommittedBatchEvents history latest fromBlock maxBlocksPerQuery = .ok swept ∧
        ∀ n, k ≤ n → n ≤ (history.contractAt latest).totalBatchesCommitted →
          ∃ m, lastCommit n (history.upTo latest) = some m ∧ swept[n]? = some m.swept) ∧
    (¬ ChunksFit latest maxBlocksPerQuery fromBlock →
      ∃ e, sweepCommittedBatchEvents history latest fromBlock maxBlocksPerQuery = .error e) := by
  have hblock := (blockNumber_of_lastCommit hmk).2
  obtain ⟨hfits, hoverflow⟩ := sweepChunks_eq history hmax (show latest + 2 ≤ fromBlock + (latest + 2) by omega)
    (show fromBlock ≤ latest + 1 by omega) ⟨∅, ∅⟩
  constructor
  · intro h
    rw [sweepCommittedBatchEvents, hfits h, ok_bind, history.getLogs_swept]
    refine ⟨_, rfl, fun n hkn hn => ?_⟩
    obtain ⟨m, hm⟩ := Contract.exists_lastCommit (history.allowed_upTo latest) rfl (by omega) hn
    have hmono := Contract.lastCommit_mono (history.allowed_upTo latest) (history.blocks_ordered.filter _) hkn hn hmk hm
    refine ⟨m, hm, ?_⟩
    have hwindow : history.txs.filter (fun tx => decide (fromBlock ≤ tx.blockNumber) && decide (tx.blockNumber ≤ latest)) =
        (history.upTo latest).filter (fromBlock ≤ ·.blockNumber) := by
      rw [upTo, filter_filter]
    rw [getElem?_zip, hwindow, lastCommit_filter hm fun tx htx => ?_]
    · rfl
    · obtain ⟨_, -, -, heq⟩ := commitOf_eq_some.mp htx
      have hsame : m.blockNumber = tx.blockNumber := congrArg MinedCommit.blockNumber heq
      simp only [decide_eq_true_eq]
      omega
  · intro h
    obtain ⟨e, he⟩ := hoverflow h
    rw [sweepCommittedBatchEvents, he]
    exact ⟨e, rfl⟩

def SweepFits (history : History) (latest maxBlocksPerQuery batchNumber : Nat) : Prop :=
  ∀ fromBlock liveHash, findL1CommitBlockByBatchNumber history latest batchNumber = .ok (fromBlock, liveHash) →
    ChunksFit latest maxBlocksPerQuery fromBlock

theorem sweepFits_of_le (h : latest + maxBlocksPerQuery ≤ u64Max) (batchNumber : Nat) :
    SweepFits history latest maxBlocksPerQuery batchNumber :=
  fun _ _ _ _ hk => (Nat.add_le_add_right hk _).trans h

/-- A start discovers the last commit of every batch from the last finalized executed one to the
last committed one, exactly when no chunk of the sweep overflows. None does if the tip and the limit
on the blocks of a query sum up to less than 2 ^ 64. -/
theorem sweep_startup_commits_live (history : History) (latest : Fin (2 ^ 64)) (maxBlocksPerQuery : Nat)
    (hmax : 1 ≤ maxBlocksPerQuery) (lastProvedBatch lastExecutedBatch lastFinalizedExecutedBatch : Nat) :
    let requested := requestedBatches (history.contractAt latest).totalBatchesCommitted lastProvedBatch lastExecutedBatch
      lastFinalizedExecutedBatch
    ((∃ swept, sweepStartupCommits history latest maxBlocksPerQuery requested = .ok swept ∧
      ∀ n ∈ requested, ∃ m, lastCommit n (history.upTo latest) = some m ∧ swept[n]? = some m.swept) ↔
    SweepFits history latest maxBlocksPerQuery (max lastFinalizedExecutedBatch 1)) ∧
    (latest + maxBlocksPerQuery ≤ u64Max →
      SweepFits history latest maxBlocksPerQuery (max lastFinalizedExecutedBatch 1)) := by
  intro requested
  refine ⟨?_, fun h => sweepFits_of_le h _⟩
  have hmem : ∀ n, n ∈ requested ↔
      max lastFinalizedExecutedBatch 1 ≤ n ∧ n ≤ (history.contractAt latest).totalBatchesCommitted :=
    fun n => mem_requestedBatches
  have hlatest : (latest : Nat) ≤ u64Max := by
    have := latest.isLt
    simp only [u64Max]
    omega
  by_cases hany : max lastFinalizedExecutedBatch 1 ≤ (history.contractAt latest).totalBatchesCommitted
  · have hbounds : minMax requested = (some (max lastFinalizedExecutedBatch 1),
        some (history.contractAt latest).totalBatchesCommitted) :=
      minMax_eq ((hmem _).mpr ⟨le_rfl, hany⟩) ((hmem _).mpr ⟨hany, le_rfl⟩) fun n hn => (hmem n).mp hn
    obtain ⟨mk, hmk⟩ := Contract.exists_lastCommit (history.allowed_upTo latest) rfl
      (show 0 < max lastFinalizedExecutedBatch 1 by omega) hany
    obtain ⟨fromBlock, liveHash, hfind, -, hfrom⟩ := findL1CommitBlock_of_lastCommit hany hlatest hmk
    have hsweep : sweepStartupCommits history latest maxBlocksPerQuery requested =
        sweepCommittedBatchEvents history latest fromBlock maxBlocksPerQuery := by
      rw [sweepStartupCommits, hbounds]
      simp [require, hfind, Except.mapError]
    have hiff : SweepFits history latest maxBlocksPerQuery (max lastFinalizedExecutedBatch 1) ↔
        ChunksFit latest maxBlocksPerQuery fromBlock := by
      rw [SweepFits, hfind]
      exact ⟨fun h => h fromBlock liveHash rfl, fun h _ _ heq => by cases heq; exact h⟩
    obtain ⟨hfits, hoverflow⟩ := sweepCommittedBatchEvents_live hmax (by omega) hmk hfrom
    rw [hsweep, hiff]
    constructor
    · rintro ⟨swept, hok, -⟩
      by_contra hno
      obtain ⟨e, he⟩ := hoverflow hno
      rw [he] at hok
      cases hok
    · intro h
      obtain ⟨swept, hok, hlive⟩ := hfits h
      exact ⟨swept, hok, fun n hn => hlive n ((hmem n).mp hn).1 ((hmem n).mp hn).2⟩
  · have hnone : requested = [] := eq_nil_iff_forall_not_mem.mpr fun n hn => hany (((hmem n).mp hn).1.trans ((hmem n).mp hn).2)
    rw [hnone]
    refine ⟨fun _ fromBlock liveHash hfind => ?_, fun _ => ⟨∅, rfl, by simp⟩⟩
    rw [findL1CommitBlockByBatchNumber, require, if_neg hany] at hfind
    cases hfind

theorem sweep_startup_commits_live_sample :
    ∃ swept, sweepStartupCommits recommitted 15 2 (requestedBatches 2 1 1 1) = .ok swept ∧
      ∀ n ∈ requestedBatches 2 1 1 1, ∃ m, lastCommit n (recommitted.upTo 15) = some m ∧ swept[n]? = some m.swept := by
  obtain ⟨hiff, hfits⟩ := sweep_startup_commits_live recommitted 15 2 (by decide) 1 1 1
  exact hiff.mpr (hfits (by decide))

/-- With the largest limit on the blocks of a query, the end of the first chunk overflows. -/
theorem sweep_overflows_at_largest_limit :
    sweepStartupCommits recommitted 15 u64Max (requestedBatches 2 1 1 1) = .error .overflow := by
  decide +kernel

end L1Watcher
