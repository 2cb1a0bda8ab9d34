import ZksyncOsServer.L1Watcher.PersistBatch

/-!
# The watcher follows the contract

The invariant relates the watcher to the contract after the operations whose logs it has
processed. After a restart the watcher runs behind its storage; it has caught up as soon as it
has seen a commit of the last stored batch. From then on it holds the last commit of every batch
that is committed and not yet stored.
-/
namespace L1Watcher

open Fallible List Run MinedTx Contract
open MerkleTree (B256)

/-! ### The logs and the operations -/

def MinedTx.watchedLog (tx : MinedTx) : Option Log :=
  match tx.operation with
  | .commit commit =>
    some ⟨tx.blockNumber, 2 * tx.index, tx.hash,
      .reportCommittedBatchRange commit.commitInfo.batchNumber commit.blockRange⟩
  | .revert _ => none
  | .execute batchNumber => some ⟨tx.blockNumber, 2 * tx.index, tx.hash, .blockExecution batchNumber⟩

theorem filter_logs_watched {startBlock : Nat} {tx : MinedTx} (h : tx.blockNumber ≤ u64Max) :
    tx.logs.filter (fun log => decide (startBlock ≤ log.blockNumber) && decide (log.blockNumber ≤ u64Max) &&
      log.event.watched) = if startBlock ≤ tx.blockNumber then tx.watchedLog.toList else [] := by
  rw [logs, watchedLog]
  by_cases hstart : startBlock ≤ tx.blockNumber <;> cases tx.operation <;>
    simp [hstart, h, Event.watched]

theorem History.getLogs_watched (history : History) (startBlock : Nat) :
    history.getLogs startBlock u64Max Event.watched =
      (history.txs.filter (startBlock ≤ ·.blockNumber)).filterMap watchedLog := by
  rw [getLogs]
  have hfits := history.fits.2
  generalize history.txs = txs at hfits ⊢
  induction txs with
  | nil => rfl
  | cons tx txs ih =>
    rw [flatMap_cons, filter_append, filter_logs_watched (hfits tx mem_cons_self),
      ih fun tx' h => hfits tx' (mem_cons_of_mem _ h)]
    by_cases hstart : startBlock ≤ tx.blockNumber
    · rw [if_pos hstart, filter_cons_of_pos (by simpa using hstart), filterMap_cons]
      cases tx.watchedLog <;> rfl
    · rw [if_neg hstart, filter_cons_of_neg (by simpa using hstart), nil_append]

/-- What the watcher makes of a commit: the commitment is that of the last commit of the batch in
the same block. -/
def History.parsed (history : History) (m : MinedCommit) : DiscoveredCommittedBatch :=
  let last := lastCommit m.commit.commitInfo.batchNumber (history.txs.filter (·.blockNumber = m.blockNumber))
  ⟨(CommittedBatchInfo.mk m.commit.commitInfo ((last.map (·.commit.commitment)).getD 0)).intoStored, m.commit.blockRange⟩

variable {history : History} {tx : MinedTx} {done todo : List MinedTx} {n : Nat} {m : MinedCommit}

theorem parseCommittedBatch_eq (htx : tx ∈ history.txs) {commit : Commit} (hop : tx.operation = .commit commit)
    {log : Log} (hhash : log.transactionHash = tx.hash) (hblock : log.blockNumber = tx.blockNumber) :
    parseCommittedBatch history commit.commitInfo.batchNumber commit.blockRange log =
      .ok (history.parsed ⟨tx.blockNumber, tx.hash, commit⟩) := by
  obtain ⟨last, hlast, hfetch⟩ := History.fetchCommittedBatchData_eq htx hop
  rw [parseCommittedBatch, hhash, hblock, hfetch, ok_bind, History.parsed]
  dsimp only
  rw [hlast]
  rfl

theorem History.parsed_of_lastCommit (h : lastCommit n history.txs = some m) :
    history.parsed m = m.commit.discovered := by
  obtain ⟨tx, -, hcommit⟩ := mem_of_lastCommit h
  obtain ⟨commit, -, rfl, rfl⟩ := commitOf_eq_some.mp hcommit
  rw [parsed]
  dsimp only
  rw [lastCommit_filter h fun tx' htx' => ?_]
  · rfl
  · obtain ⟨_, -, -, heq⟩ := commitOf_eq_some.mp htx'
    simpa using (congrArg MinedCommit.blockNumber heq).symm

/-! ### Executions -/

theorem MinedTx.executes_eq_true : tx.executes n = true ↔ tx.operation = .execute n := by
  rw [executes]
  cases tx.operation <;> simp

theorem Contract.executed_of_executes {hash : StoredBatchInfo → B256} {c : Contract} {txs : List MinedTx}
    (hc : c.totalBatchesExecuted ≤ c.totalBatchesCommitted)
    (h : Steps (apply hash) Contract.Allows c txs) (htx : tx ∈ txs) (hn : tx.executes n = true) :
    c.totalBatchesExecuted < n ∧ n ≤ (txs.foldl (apply hash) c).totalBatchesExecuted := by
  induction txs generalizing c with
  | nil => cases htx
  | cons tx' txs ih =>
    obtain ⟨hc', hle⟩ := apply_ordered hc h.1
    rcases mem_cons.mp htx with rfl | htx
    · have hmono := executed_le_foldl hc' h.2
      have hallows := h.1
      rw [Contract.Allows, executes_eq_true.mp hn] at hallows
      have hexecuted : (c.apply hash tx).totalBatchesExecuted = n := by
        rw [apply, executes_eq_true.mp hn]
      rw [hexecuted] at hmono
      simp only [Contract.AllowsOperation] at hallows
      exact ⟨by omega, hmono⟩
    · obtain ⟨hlt, hle'⟩ := ih hc' h.2 htx
      exact ⟨by omega, hle'⟩

theorem executedBatch_eq_none {txs : List MinedTx} (h : ∀ tx ∈ txs, tx.executes n = false) :
    executedBatch txs n = none := by
  have hdrop : txs.dropWhile (fun tx => !tx.executes n) = [] :=
    dropWhile_eq_nil_iff.mpr fun tx htx => by simp [h tx htx]
  rw [executedBatch, hdrop]

theorem executedBatch_append (hdone : ∀ tx ∈ done, tx.executes n = false) (htx : tx.executes n = true) :
    executedBatch (done ++ tx :: todo) n =
      (lastCommit n done).map fun m => ⟨m.commit.discovered, some tx.blockNumber⟩ := by
  have hpos : ∀ tx ∈ done, (!tx.executes n) = true := fun tx h => by simp [hdone tx h]
  rw [executedBatch, dropWhile_append_of_pos hpos, takeWhile_append_of_pos hpos]
  simp [htx]

/-! ### Following the contract -/

def History.after (history : History) (done : List MinedTx) : Contract :=
  done.foldl (Contract.apply history.hash) (Contract.init history.genesisHash)

theorem History.after_append (history : History) (done : List MinedTx) (tx : MinedTx) :
    history.after (done ++ [tx]) = (history.after done).apply history.hash tx := by
  simp [after]

/-- How many batches are stored. -/
def L1PersistBatchWatcher.count (watcher : L1PersistBatchWatcher) (history : History) (done : List MinedTx) : Nat :=
  max watcher.lastPersistedBatchOnStart (history.after done).totalBatchesExecuted

structure Stores (history : History) (storage : ExecutedBatchStorage) (count : Nat) : Prop where
  latest : storage.latestBatch = count
  stored : ∀ n, storage.getBatchByNumber n = if n ≤ count then executedBatch history.txs n else none
  present : ∀ n, 0 < n → n ≤ count → (executedBatch history.txs n).isSome = true

theorem Stores.write {storage : ExecutedBatchStorage} {count : Nat} (h : Stores history storage count)
    {batch : PersistedBatch} (hnumber : batch.committedBatch.batchInfo.batchNumber = count + 1)
    (hbatch : executedBatch history.txs (count + 1) = some batch) : Stores history (storage.write batch) (count + 1) := by
  refine ⟨hnumber, fun k => ?_, fun k hpos hk => ?_⟩
  · rw [ExecutedBatchStorage.getBatchByNumber, ExecutedBatchStorage.write, SortedMap.getElem?_insert, hnumber]
    by_cases hk : k = count + 1
    · rw [if_pos hk, if_pos hk.le, hk, hbatch]
    · have hsame := h.stored k
      rw [ExecutedBatchStorage.getBatchByNumber] at hsame
      rw [if_neg hk, hsame]
      by_cases hle : k ≤ count
      · rw [if_pos hle, if_pos (by omega)]
      · rw [if_neg hle, if_neg (by omega)]
  · by_cases hlast : k = count + 1
    · rw [hlast, hbatch]
      rfl
    · exact h.present k hpos (by omega)

/-- The watcher has caught up with the contract. -/
structure Tracks (history : History) (watcher : L1PersistBatchWatcher) (done : List MinedTx) : Prop where
  total_le : (history.after done).totalBatchesCommitted ≤ watcher.lastProcessedCommitBatch
  entries : ∀ n, watcher.count history done < n → n ≤ (history.after done).totalBatchesCommitted →
    watcher.committedBatches[n]? = (lastCommit n done).map history.parsed

structure Follows (history : History) (watcher : L1PersistBatchWatcher) (done todo : List MinedTx) : Prop where
  split : done ++ todo = history.txs
  stores : Stores history watcher.batchStorage (watcher.count history done)
  le_processed : watcher.lastPersistedBatchOnStart ≤ watcher.lastProcessedCommitBatch
  tracks : (∃ tx ∈ todo, (tx.commitOf watcher.lastPersistedBatchOnStart).isSome = true) ∨ Tracks history watcher done

def MinedTx.AgreesUpTo (tx : MinedTx) (history : History) (persisted : Nat) : Prop :=
  ∀ n m, n ≤ persisted → tx.commitOf n = some m →
    (executedBatch history.txs n).map (·.committedBatch) = some (history.parsed m)

namespace Follows

variable {watcher : L1PersistBatchWatcher}

theorem allowed (h : Follows history watcher done todo) :
    Steps (apply history.hash) Contract.Allows (history.after done) todo := by
  have hallowed := history.allowed
  rw [← h.split] at hallowed
  exact (steps_append.mp hallowed).2

theorem ordered (h : Follows history watcher done todo) :
    (history.after done).totalBatchesExecuted ≤ (history.after done).totalBatchesCommitted := by
  have hallowed := history.allowed
  rw [← h.split] at hallowed
  exact foldl_ordered le_rfl (steps_append.mp hallowed).1

theorem split_cons (h : Follows history watcher done (tx :: todo)) : (done ++ [tx]) ++ todo = history.txs := by
  rw [append_assoc]
  exact h.split

theorem mem (h : Follows history watcher done (tx :: todo)) : tx ∈ history.txs :=
  h.split ▸ mem_append_right _ mem_cons_self

/-- A commit of the last batch stored at the start that is still to come stays so. -/
theorem commit_to_come (h : ∃ tx' ∈ tx :: todo, (tx'.commitOf n).isSome = true) (hnone : tx.commitOf n = none) :
    ∃ tx' ∈ todo, (tx'.commitOf n).isSome = true := by
  obtain ⟨tx', htx', hcommit⟩ := h
  rcases mem_cons.mp htx' with rfl | htx'
  · simp [hnone] at hcommit
  · exact ⟨tx', htx', hcommit⟩

section
variable (h : Follows history watcher done (tx :: todo))
include h

theorem pass (hnone : ∀ k, tx.commitOf k = none)
    (hcount : watcher.count history (done ++ [tx]) = watcher.count history done)
    (htotal : (history.after (done ++ [tx])).totalBatchesCommitted ≤ (history.after done).totalBatchesCommitted) :
    Follows history watcher (done ++ [tx]) todo := by
  refine ⟨h.split_cons, hcount ▸ h.stores, h.le_processed, ?_⟩
  rcases h.tracks with hcome | htracks
  · exact .inl (commit_to_come hcome (hnone _))
  · refine .inr ⟨htotal.trans htracks.total_le, fun n hlt hle => ?_⟩
    rw [hcount] at hlt
    rw [htracks.entries n hlt (hle.trans htotal), lastCommit_append, lastCommit_singleton, hnone, Option.none_or]

theorem revert {newTotal : Nat} (hop : tx.operation = .revert newTotal) :
    Follows history watcher (done ++ [tx]) todo := by
  have hafter : history.after (done ++ [tx]) = { history.after done with totalBatchesCommitted := newTotal } := by
    rw [history.after_append, apply, hop]
  have hlower : newTotal ≤ (history.after done).totalBatchesCommitted := by
    have hallows := h.allowed.1
    rw [Contract.Allows, hop] at hallows
    exact hallows.2
  refine h.pass (fun n => by rw [commitOf, hop]) ?_ ?_
  · rw [L1PersistBatchWatcher.count, L1PersistBatchWatcher.count, hafter]
  · rw [hafter]
    exact hlower

section
variable (hop : tx.operation = .execute n)
include hop

theorem lastCommit_of_execute :
    ∃ m, lastCommit n done = some m ∧ lastCommit n history.txs = some m ∧ m.commit.commitInfo.batchNumber = n := by
  have hallows := h.allowed.1
  rw [Contract.Allows, hop] at hallows
  simp only [Contract.AllowsOperation] at hallows
  have hdone := history.allowed
  rw [← h.split] at hdone
  obtain ⟨m, hm⟩ := exists_lastCommit (steps_append.mp hdone).1 rfl (by omega) hallows.2
  have hnone : lastCommit n (tx :: todo) = none := by
    cases hlate : lastCommit n (tx :: todo) with
    | none => rfl
    | some m' =>
      obtain ⟨tx', htx', hcommit⟩ := mem_of_lastCommit hlate
      have htodo : tx' ∈ todo := by
        rcases mem_cons.mp htx' with rfl | htx'
        · simp [commitOf, hop] at hcommit
        · exact htx'
      have hlt := executed_lt_of_commitOf (apply_ordered h.ordered h.allowed.1).1 h.allowed.2 htodo
        hcommit
      simp only [apply, hop] at hlt
      omega
  refine ⟨m, hm, ?_, ?_⟩
  · rw [← h.split, lastCommit_append, hnone, Option.none_or, hm]
  · obtain ⟨tx', -, hcommit⟩ := mem_of_lastCommit hm
    obtain ⟨commit, -, hn, rfl⟩ := commitOf_eq_some.mp hcommit
    exact hn

theorem executedBatch_of_execute (hm : lastCommit n done = some m) :
    executedBatch history.txs n = some ⟨m.commit.discovered, some tx.blockNumber⟩ := by
  have hallows := h.allowed.1
  rw [Contract.Allows, hop] at hallows
  simp only [Contract.AllowsOperation] at hallows
  have hdone := history.allowed
  rw [← h.split] at hdone
  have hfirst : ∀ tx' ∈ done, tx'.executes n = false := by
    intro tx' htx'
    by_contra hexecutes
    obtain ⟨-, hle⟩ := executed_of_executes le_rfl (steps_append.mp hdone).1 htx'
      (Bool.eq_true_of_not_eq_false hexecutes)
    exact absurd hallows.1 (by simp only [History.after]; omega)
  rw [← h.split, executedBatch_append hfirst (executes_eq_true.mpr hop), hm]
  rfl

theorem allows_execute :
    n = (history.after done).totalBatchesExecuted + 1 ∧ n ≤ (history.after done).totalBatchesCommitted ∧
      history.after (done ++ [tx]) = { history.after done with totalBatchesExecuted := n } := by
  have hallows := h.allowed.1
  rw [Contract.Allows, hop] at hallows
  refine ⟨hallows.1, hallows.2, ?_⟩
  rw [history.after_append, apply, hop]

theorem execute_new (hnew : watcher.lastPersistedBatchOnStart < n) :
    ∃ committedBatch, watcher.committedBatches[n]? = some committedBatch ∧ Follows history { watcher with
        committedBatches := watcher.committedBatches.erase n
        batchStorage := watcher.batchStorage.write ⟨committedBatch, some tx.blockNumber⟩ } (done ++ [tx]) todo := by
  obtain ⟨hnext, hcommitted, hafter⟩ := h.allows_execute hop
  -- the watcher has caught up: a commit of the last stored batch cannot come any more
  have hcaught : Tracks history watcher done := by
    refine h.tracks.resolve_left ?_
    rintro ⟨tx', htx', hcommit⟩
    obtain ⟨m, hm⟩ := Option.isSome_iff_exists.mp hcommit
    have hlt := executed_lt_of_commitOf h.ordered h.allowed htx' hm
    omega
  have hcount : watcher.count history done + 1 = n := by
    rw [L1PersistBatchWatcher.count]
    omega
  have hcount' : max watcher.lastPersistedBatchOnStart (history.after (done ++ [tx])).totalBatchesExecuted =
      watcher.count history done + 1 := by
    rw [hafter, hcount]
    exact max_eq_right hnew.le
  obtain ⟨m, hm, hlive, hnumber⟩ := h.lastCommit_of_execute hop
  have hbatch := h.executedBatch_of_execute hop hm
  refine ⟨m.commit.discovered, ?_, h.split_cons, ?_, h.le_processed, .inr ⟨?_, fun k hlt hle => ?_⟩⟩
  · rw [hcaught.entries n (by omega) hcommitted, hm, Option.map_some, History.parsed_of_lastCommit hlive]
  · rw [L1PersistBatchWatcher.count, hcount']
    exact h.stores.write (hnumber.trans hcount.symm) (hcount ▸ hbatch)
  · rw [hafter]
    exact hcaught.total_le
  · rw [L1PersistBatchWatcher.count, hcount'] at hlt
    rw [hafter] at hle
    have hnone : tx.commitOf k = none := by rw [commitOf, hop]
    rw [lastCommit_append, lastCommit_singleton, hnone, Option.none_or, ← hcaught.entries k (by omega) hle,
      SortedMap.getElem?_erase, if_neg (by omega)]

theorem execute {log : Log} (hblock : log.blockNumber = tx.blockNumber) :
    ∃ watcher', watcher.processExecution n log = .ok watcher' ∧ Follows history watcher' (done ++ [tx]) todo ∧
      watcher'.lastPersistedBatchOnStart = watcher.lastPersistedBatchOnStart := by
  rw [L1PersistBatchWatcher.processExecution, hblock]
  by_cases hnew : watcher.lastPersistedBatchOnStart < n
  · obtain ⟨committedBatch, hentry, hfollows⟩ := h.execute_new hop hnew
    rw [if_pos hnew, hentry]
    exact ⟨_, rfl, hfollows, rfl⟩
  · obtain ⟨hnext, -, hafter⟩ := h.allows_execute hop
    rw [if_neg hnew]
    refine ⟨watcher, rfl, h.pass (fun k => by rw [commitOf, hop]) ?_ ?_, rfl⟩
    · rw [L1PersistBatchWatcher.count, L1PersistBatchWatcher.count, hafter]
      dsimp only
      omega
    · rw [hafter]

end

theorem allows_commit {commit : Commit} (hop : tx.operation = .commit commit) :
    commit.commitInfo.batchNumber = (history.after done).totalBatchesCommitted + 1 ∧
      (history.after (done ++ [tx])).totalBatchesCommitted = commit.commitInfo.batchNumber ∧
      (history.after (done ++ [tx])).totalBatchesExecuted = (history.after done).totalBatchesExecuted := by
  have hallows := h.allowed.1
  rw [Contract.Allows, hop] at hallows
  refine ⟨hallows, ?_, ?_⟩ <;> rw [history.after_append, apply, hop]

end

theorem commitOf_of_commit {commit : Commit} (hop : tx.operation = .commit commit) (k : Nat) :
    tx.commitOf k = if commit.commitInfo.batchNumber = k then some ⟨tx.blockNumber, tx.hash, commit⟩ else none := by
  rw [commitOf, hop]

section
variable (h : Follows history watcher done (tx :: todo))
include h

theorem commit_old {commit : Commit} (hop : tx.operation = .commit commit)
    (hold : commit.commitInfo.batchNumber ≤ watcher.lastPersistedBatchOnStart) :
    ∃ stored, watcher.batchStorage.getBatchByNumber commit.commitInfo.batchNumber = some stored ∧
      commit.commitInfo.batchNumber ≤ watcher.lastProcessedCommitBatch ∧
      (tx.AgreesUpTo history watcher.lastPersistedBatchOnStart ↔
        stored.committedBatch = history.parsed ⟨tx.blockNumber, tx.hash, commit⟩) ∧
      Follows history watcher (done ++ [tx]) todo := by
  obtain ⟨hnext, htotal, hexecuted⟩ := h.allows_commit hop
  have hcount : watcher.count history (done ++ [tx]) = watcher.count history done := by
    rw [L1PersistBatchWatcher.count, L1PersistBatchWatcher.count, hexecuted]
  have hle : commit.commitInfo.batchNumber ≤ watcher.count history done := hold.trans (le_max_left ..)
  obtain ⟨stored, hstored⟩ := Option.isSome_iff_exists.mp (h.stores.present _ (by omega) hle)
  refine ⟨stored, ?_, hold.trans h.le_processed, ?_, ?_⟩
  · rw [h.stores.stored, if_pos hle, hstored]
  · constructor
    · intro hagrees
      have hsame := hagrees _ _ hold (commitOf_eq_some.mpr ⟨commit, hop, rfl, rfl⟩)
      rw [hstored] at hsame
      exact Option.some.inj hsame
    · intro hsame n m _ hm
      obtain ⟨commit', hop', rfl, rfl⟩ := commitOf_eq_some.mp hm
      obtain rfl : commit = commit' := by simpa using hop.symm.trans hop'
      rw [hstored, Option.map_some, hsame]
  · refine ⟨h.split_cons, hcount ▸ h.stores, h.le_processed, .inr ⟨?_, fun k hlt hle' => ?_⟩⟩
    · rw [htotal]
      exact hold.trans h.le_processed
    · rw [hcount] at hlt
      rw [htotal] at hle'
      omega

/-- A later commit is taken up, or skipped as long as the watcher has not caught up. -/
theorem commit_new {commit : Commit} (hop : tx.operation = .commit commit)
    (hnew : watcher.lastPersistedBatchOnStart < commit.commitInfo.batchNumber) {log : Log}
    (hhash : log.transactionHash = tx.hash) (hblock : log.blockNumber = tx.blockNumber) :
    ∃ watcher', watcher.discover history commit.commitInfo.batchNumber commit.blockRange log = .ok watcher' ∧
      Follows history watcher' (done ++ [tx]) todo ∧
      watcher'.lastPersistedBatchOnStart = watcher.lastPersistedBatchOnStart := by
  obtain ⟨hnext, htotal, hexecuted⟩ := h.allows_commit hop
  have hcount : max watcher.lastPersistedBatchOnStart (history.after (done ++ [tx])).totalBatchesExecuted =
      watcher.count history done := by
    rw [L1PersistBatchWatcher.count, hexecuted]
  have hstores : Stores history watcher.batchStorage
      (max watcher.lastPersistedBatchOnStart (history.after (done ++ [tx])).totalBatchesExecuted) := hcount ▸ h.stores
  have hother : tx.commitOf watcher.lastPersistedBatchOnStart = none := by
    rw [commitOf_of_commit hop, if_neg hnew.ne']
  rw [L1PersistBatchWatcher.discover]
  by_cases hskip : watcher.lastProcessedCommitBatch + 1 < commit.commitInfo.batchNumber ∧
      watcher.lastProcessedCommitBatch ≠ 0
  · rw [if_pos hskip]
    have hcome := h.tracks.resolve_right fun hcaught => by
      have := hcaught.total_le
      omega
    exact ⟨watcher, rfl, ⟨h.split_cons, hstores, h.le_processed, .inl (commit_to_come hcome hother)⟩, rfl⟩
  · rw [if_neg hskip, parseCommittedBatch_eq h.mem hop hhash hblock]
    refine ⟨_, rfl, ⟨h.split_cons, hstores, hnew.le, ?_⟩, rfl⟩
    rcases h.tracks with hcome | hcaught
    · exact .inl (commit_to_come hcome hother)
    · refine .inr ⟨htotal.le, fun k hlt hle => ?_⟩
      rw [htotal] at hle
      rw [lastCommit_append, lastCommit_singleton, commitOf_of_commit hop, SortedMap.getElem?_insert]
      by_cases hk : k = commit.commitInfo.batchNumber
      · simp [hk]
      · rw [if_neg hk, if_neg (Ne.symm hk), Option.none_or]
        rw [L1PersistBatchWatcher.count, hcount] at hlt
        exact hcaught.entries k hlt (by omega)

/-- A commit fails exactly when it is compared with a stored batch and differs from it. -/
theorem commit {commit : Commit} (hop : tx.operation = .commit commit)
    {log : Log} (hhash : log.transactionHash = tx.hash) (hblock : log.blockNumber = tx.blockNumber) :
    (tx.AgreesUpTo history watcher.lastPersistedBatchOnStart ∧
      ∃ watcher', watcher.processCommit history commit.commitInfo.batchNumber commit.blockRange log = .ok watcher' ∧
        Follows history watcher' (done ++ [tx]) todo ∧
        watcher'.lastPersistedBatchOnStart = watcher.lastPersistedBatchOnStart) ∨
    (¬ tx.AgreesUpTo history watcher.lastPersistedBatchOnStart ∧
      ∃ e, watcher.processCommit history commit.commitInfo.batchNumber commit.blockRange log = .error e) := by
  rw [L1PersistBatchWatcher.processCommit]
  by_cases hold : commit.commitInfo.batchNumber ≤ watcher.lastPersistedBatchOnStart
  · obtain ⟨stored, hstored, hprocessed, hagrees, hfollows⟩ := h.commit_old hop hold
    rw [hstored, hagrees]
    dsimp only
    rw [if_pos hprocessed, L1PersistBatchWatcher.validate, parseCommittedBatch_eq h.mem hop hhash hblock, ok_bind]
    by_cases hsame : stored.committedBatch = history.parsed ⟨tx.blockNumber, tx.hash, commit⟩
    · rw [require_pos hsame]
      exact .inl ⟨hsame, watcher, rfl, hfollows, rfl⟩
    · rw [require, if_neg hsame]
      exact .inr ⟨hsame, _, rfl⟩
  · have hnew := Nat.lt_of_not_le hold
    have hagrees : tx.AgreesUpTo history watcher.lastPersistedBatchOnStart := by
      intro n m hn hm
      obtain ⟨commit', hop', rfl, -⟩ := commitOf_eq_some.mp hm
      obtain rfl : commit = commit' := by simpa using hop.symm.trans hop'
      omega
    obtain ⟨hnext, -, -⟩ := h.allows_commit hop
    have hunstored : watcher.batchStorage.getBatchByNumber commit.commitInfo.batchNumber = none := by
      rw [h.stores.stored, if_neg]
      have := h.ordered
      rw [L1PersistBatchWatcher.count]
      omega
    rw [hunstored]
    exact .inl ⟨hagrees, h.commit_new hop hnew hhash hblock⟩

end

end Follows

end L1Watcher
