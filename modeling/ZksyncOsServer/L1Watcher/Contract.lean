import ZksyncOsServer.BatchTypes.BatchInfo
import ZksyncOsServer.L1Watcher.BlockSearch

/-!
# The settlement contract as the watchers see it

A finalized history of the contract is a list of mined operations: a commit appends a batch and
stores its hash, a revert lowers the number of committed batches, an execution takes the next
batch. The watchers read it through event logs, transactions and calls at a block;
`find_l1_commit_block_by_batch_number` and the functions that fetch the data of a commit are
those of `l1_watcher/src/util.rs`.
-/
namespace L1Watcher

open BatchTypes (CommitBatchInfo)
open Fallible List Run
open MerkleTree (B256 Map)

/-! ### Batches -/

/-- `StoredBatchInfo`, without the unused timestamp. -/
structure StoredBatchInfo where
  batchNumber : Nat
  stateCommitment : B256
  numberOfLayer1Txs : Nat
  priorityOperationsHash : B256
  dependencyRootsRollingHash : B256
  l2ToL1LogsRootHash : B256
  commitment : B256
  deriving DecidableEq

structure CommittedBatchInfo where
  commitInfo : CommitBatchInfo
  commitment : B256

def CommittedBatchInfo.intoStored (this : CommittedBatchInfo) : StoredBatchInfo where
  batchNumber := this.commitInfo.batchNumber
  stateCommitment := this.commitInfo.newStateCommitment
  numberOfLayer1Txs := this.commitInfo.numberOfLayer1Txs
  priorityOperationsHash := this.commitInfo.priorityOperationsHash
  dependencyRootsRollingHash := this.commitInfo.dependencyRootsRollingHash
  l2ToL1LogsRootHash := this.commitInfo.l2ToL1LogsRootHash
  commitment := this.commitment

structure BlockRange where
  first : Nat
  last : Nat
  deriving DecidableEq

structure DiscoveredCommittedBatch where
  batchInfo : StoredBatchInfo
  blockRange : BlockRange
  deriving DecidableEq

/-! ### The contract -/

/-- What a commit transaction carries and reports. -/
structure Commit extends CommittedBatchInfo where
  blockRange : BlockRange

def Commit.discovered (this : Commit) : DiscoveredCommittedBatch := ⟨this.intoStored, this.blockRange⟩

inductive Operation where
  | commit (commit : Commit)
  | revert (newTotal : Nat)
  | execute (batchNumber : Nat)

structure MinedTx where
  blockNumber : Nat
  index : Nat
  hash : B256
  operation : Operation

structure Contract where
  totalBatchesCommitted : Nat
  totalBatchesExecuted : Nat
  storedBatchHash : Nat → B256

namespace Contract

def init (genesisHash : B256) : Contract := ⟨0, 0, fun n => if n = 0 then genesisHash else 0⟩

def apply (hash : StoredBatchInfo → B256) (this : Contract) (tx : MinedTx) : Contract :=
  match tx.operation with
  | .commit commit =>
    { this with
      totalBatchesCommitted := commit.commitInfo.batchNumber
      storedBatchHash := Function.update this.storedBatchHash commit.commitInfo.batchNumber (hash commit.intoStored) }
  | .revert newTotal => { this with totalBatchesCommitted := newTotal }
  | .execute batchNumber => { this with totalBatchesExecuted := batchNumber }

def AllowsOperation (this : Contract) : Operation → Prop
  | .commit commit => commit.commitInfo.batchNumber = this.totalBatchesCommitted + 1
  | .revert newTotal => this.totalBatchesExecuted ≤ newTotal ∧ newTotal ≤ this.totalBatchesCommitted
  | .execute batchNumber => batchNumber = this.totalBatchesExecuted + 1 ∧ batchNumber ≤ this.totalBatchesCommitted

instance (this : Contract) : DecidablePred this.AllowsOperation := fun operation => by
  unfold AllowsOperation
  split <;> infer_instance

def Allows (this : Contract) (tx : MinedTx) : Prop := this.AllowsOperation tx.operation
  deriving Decidable

end Contract

/-- A history of the contract: its operations in the order they were mined. -/
structure History where
  deploymentBlock : Nat
  hash : StoredBatchInfo → B256
  genesisHash : B256
  txs : List MinedTx
  deployed : ∀ tx ∈ txs, deploymentBlock ≤ tx.blockNumber
  fits : deploymentBlock ≤ u64Max ∧ ∀ tx ∈ txs, tx.blockNumber ≤ u64Max
  ordered : txs.Pairwise fun a b => a.blockNumber < b.blockNumber ∨ a.blockNumber = b.blockNumber ∧ a.index < b.index
  distinct : (txs.map (·.hash)).Nodup
  allowed : Steps (Contract.apply hash) Contract.Allows (Contract.init genesisHash) txs

/-! ### Reading the contract -/

inductive Event where
  | reportCommittedBatchRange (batchNumber : Nat) (range : BlockRange)
  | blockCommit (batchNumber : Nat) (commitment : B256)
  | blocksRevert (totalBatchesCommitted : Nat)
  | blockExecution (batchNumber : Nat)
  deriving DecidableEq

structure Log where
  blockNumber : Nat
  logIndex : Nat
  transactionHash : B256
  event : Event
  deriving DecidableEq

/-- The logs of a transaction; the commit of a batch emits its range and its commitment. -/
def MinedTx.logs (tx : MinedTx) : List Log :=
  match tx.operation with
  | .commit commit =>
    [⟨tx.blockNumber, 2 * tx.index, tx.hash, .reportCommittedBatchRange commit.commitInfo.batchNumber commit.blockRange⟩,
      ⟨tx.blockNumber, 2 * tx.index + 1, tx.hash, .blockCommit commit.commitInfo.batchNumber commit.commitment⟩]
  | .revert newTotal => [⟨tx.blockNumber, 2 * tx.index, tx.hash, .blocksRevert newTotal⟩]
  | .execute batchNumber => [⟨tx.blockNumber, 2 * tx.index, tx.hash, .blockExecution batchNumber⟩]

namespace History

def upTo (this : History) (block : Nat) : List MinedTx := this.txs.filter (·.blockNumber ≤ block)

/-- The state that calls at a block read. -/
def contractAt (this : History) (block : Nat) : Contract :=
  (this.upTo block).foldl (Contract.apply this.hash) (Contract.init this.genesisHash)

/-- `eth_getLogs`, for the events of interest and an inclusive range of blocks. -/
def getLogs (this : History) (fromBlock toBlock : Nat) (watched : Event → Bool) : List Log :=
  (this.txs.flatMap MinedTx.logs).filter fun log =>
    decide (fromBlock ≤ log.blockNumber) && decide (log.blockNumber ≤ toBlock) && watched log.event

def getTransactionByHash (this : History) (txHash : B256) : Option MinedTx := this.txs.find? (·.hash == txHash)

end History

inductive L1WatcherError where
  | notCommitted (batchNumber latest totalCommitted : Nat)
  | conditionNotSatisfied
  | outOfRounds
  | commitTxNotFound (txHash : B256)
  | undecodableCalldata
  | wrongBatch (txHash : B256) (encoded expected : Nat)
  | blockCommitNotFound (batchNumber l1BlockNumber : Nat)
  | storedBatchMismatch (batchNumber : Nat)
  | executedNotCommitted (batchNumber : Nat)
  | unexpectedTopic
  deriving DecidableEq

def findL1BlockByPredicate (latest startBlockNumber : Nat) (predicate : Nat → Bool) : Except L1WatcherError Nat := do
  require (predicate latest = true) .conditionNotSatisfied
  ofOption .outOfRounds (findFirstTrueBlock startBlockNumber latest predicate)

def findL1CommitBlockByBatchNumber (history : History) (latest batchNumber : Nat) :
    Except L1WatcherError (Nat × B256) := do
  let totalCommitted := (history.contractAt latest).totalBatchesCommitted
  require (batchNumber ≤ totalCommitted) (.notCommitted batchNumber latest totalCommitted)
  let liveHash := (history.contractAt latest).storedBatchHash batchNumber
  let liveCommitBlock ← findL1BlockByPredicate latest history.deploymentBlock
    fun block => (history.contractAt block).storedBatchHash batchNumber == liveHash
  return (liveCommitBlock, liveHash)

def decodeCommitCalldata : Operation → Except L1WatcherError CommitBatchInfo
  | .commit commit => .ok commit.commitInfo
  | _ => .error .undecodableCalldata

def fetchCommitBatchInfo (history : History) (txHash : B256) (batchNumber : Nat) :
    Except L1WatcherError CommitBatchInfo := do
  let tx ← ofOption (.commitTxNotFound txHash) (history.getTransactionByHash txHash)
  let commitBatchInfo ← decodeCommitCalldata tx.operation
  require (commitBatchInfo.batchNumber = batchNumber) (.wrongBatch txHash commitBatchInfo.batchNumber batchNumber)
  return commitBatchInfo

variable (batchNumber : Nat)

def Event.commitmentOf : Event → Option B256
  | .blockCommit n commitment => if n = batchNumber then some commitment else none
  | _ => none

def fetchCommittedBatchData (history : History) (txHash : B256) (l1BlockNumber batchNumber : Nat) :
    Except L1WatcherError CommittedBatchInfo := do
  let commitInfo ← fetchCommitBatchInfo history txHash batchNumber
  let logs := history.getLogs l1BlockNumber l1BlockNumber fun event => (event.commitmentOf batchNumber).isSome
  let commitment ← ofOption (.blockCommitNotFound batchNumber l1BlockNumber)
    (logs.getLast?.bind (·.event.commitmentOf batchNumber))
  return ⟨commitInfo, commitment⟩

/-! ### Live commits -/

structure MinedCommit where
  blockNumber : Nat
  hash : B256
  commit : Commit

def MinedTx.commitOf (tx : MinedTx) : Option MinedCommit :=
  match tx.operation with
  | .commit commit =>
    if commit.commitInfo.batchNumber = batchNumber then some ⟨tx.blockNumber, tx.hash, commit⟩ else none
  | _ => none

def lastCommit (txs : List MinedTx) : Option MinedCommit :=
  (txs.filterMap (MinedTx.commitOf batchNumber)).getLast?

@[simp] theorem lastCommit_nil (n : Nat) : lastCommit n [] = none := rfl

theorem lastCommit_append (n : Nat) (xs ys : List MinedTx) :
    lastCommit n (xs ++ ys) = (lastCommit n ys).or (lastCommit n xs) := by
  simp [lastCommit, filterMap_append, getLast?_append]

@[simp] theorem lastCommit_singleton (n : Nat) (tx : MinedTx) : lastCommit n [tx] = tx.commitOf n := by
  cases h : tx.commitOf n <;> simp [lastCommit, h]

variable {n : Nat} {txs : List MinedTx} {m : MinedCommit} {tx : MinedTx}

theorem mem_of_lastCommit (h : lastCommit n txs = some m) : ∃ tx ∈ txs, tx.commitOf n = some m :=
  mem_filterMap.mp (mem_of_getLast? h)

theorem exists_lastCommit_of_mem (htx : tx ∈ txs)
    (hm : tx.commitOf n = some m) : ∃ last, lastCommit n txs = some last :=
  Option.isSome_iff_exists.mp (getLast?_isSome.mpr (ne_nil_of_mem (mem_filterMap.mpr ⟨tx, htx, hm⟩)))

theorem MinedTx.commitOf_eq_some : tx.commitOf n = some m ↔
      ∃ commit, tx.operation = .commit commit ∧ commit.commitInfo.batchNumber = n ∧
        m = ⟨tx.blockNumber, tx.hash, commit⟩ := by
  rw [commitOf]
  cases htx : tx.operation with
  | commit commit =>
    by_cases hn : commit.commitInfo.batchNumber = n
    · simp only [if_pos hn, Option.some.injEq, Operation.commit.injEq]
      constructor
      · rintro rfl
        exact ⟨commit, rfl, hn, rfl⟩
      · rintro ⟨_, rfl, -, rfl⟩
        rfl
    · simp only [if_neg hn, reduceCtorEq, Operation.commit.injEq, false_iff]
      rintro ⟨_, rfl, hn', -⟩
      exact hn hn'
  | revert newTotal => simp
  | execute batchNumber => simp

theorem lastCommit_filter (h : lastCommit n txs = some m)
    {q : MinedTx → Bool} (hq : ∀ tx, tx.commitOf n = some m → q tx = true) : lastCommit n (txs.filter q) = some m := by
  induction txs using reverseRecOn with
  | nil => cases h
  | append_singleton txs tx ih =>
    rw [lastCommit_append, lastCommit_singleton, Option.or_eq_some_iff] at h
    rw [filter_append, lastCommit_append]
    rcases h with hcommit | ⟨hnone, h⟩
    · simp [hq tx hcommit, hcommit]
    · by_cases hkeep : q tx = true <;> simp [hkeep, hnone, ih h]

theorem MinedTx.blockNumber_of_mem_logs {log : Log} (h : log ∈ tx.logs) : log.blockNumber = tx.blockNumber := by
  rw [logs] at h
  cases hop : tx.operation with
  | commit commit =>
    simp only [hop, mem_cons, not_mem_nil, or_false] at h
    rcases h with rfl | rfl <;> rfl
  | revert newTotal =>
    simp only [hop, mem_singleton] at h
    rw [h]
  | execute batchNumber =>
    simp only [hop, mem_singleton] at h
    rw [h]

namespace Contract

variable {hash : StoredBatchInfo → B256} {c : Contract} {txs : List MinedTx} {n : Nat}

theorem storedBatchHash_foldl : (txs.foldl (apply hash) c).storedBatchHash n =
      ((lastCommit n txs).map (hash ·.commit.intoStored)).getD (c.storedBatchHash n) := by
  induction txs using reverseRecOn with
  | nil => rfl
  | append_singleton txs tx ih =>
    rw [foldl_append, lastCommit_append, lastCommit_singleton, MinedTx.commitOf, foldl_cons, foldl_nil, apply]
    cases tx.operation with
    | commit commit =>
      by_cases h : commit.commitInfo.batchNumber = n
      · simp [h]
      · simp [h, Function.update_of_ne (Ne.symm h), ih]
    | revert newTotal => simpa using ih
    | execute batchNumber => simpa using ih

theorem apply_ordered {tx : MinedTx} (hc : c.totalBatchesExecuted ≤ c.totalBatchesCommitted) (htx : c.Allows tx) :
    (c.apply hash tx).totalBatchesExecuted ≤ (c.apply hash tx).totalBatchesCommitted ∧
      c.totalBatchesExecuted ≤ (c.apply hash tx).totalBatchesExecuted := by
  rw [Allows] at htx
  rw [apply]
  cases h : tx.operation with
  | commit commit =>
    rw [h] at htx
    simp only [AllowsOperation] at htx
    constructor
    · simp only [htx]
      omega
    · exact le_rfl
  | revert newTotal =>
    rw [h] at htx
    exact ⟨htx.1, le_rfl⟩
  | execute batchNumber =>
    rw [h] at htx
    simp only [AllowsOperation] at htx ⊢
    omega

theorem foldl_ordered (hc : c.totalBatchesExecuted ≤ c.totalBatchesCommitted) (h : Steps (apply hash) Allows c txs) :
    (txs.foldl (apply hash) c).totalBatchesExecuted ≤ (txs.foldl (apply hash) c).totalBatchesCommitted :=
  Steps.last (I := fun c => c.totalBatchesExecuted ≤ c.totalBatchesCommitted)
    (fun _ _ hc htx => (apply_ordered hc htx).1) hc h

theorem executed_le_foldl (hc : c.totalBatchesExecuted ≤ c.totalBatchesCommitted)
    (h : Steps (apply hash) Allows c txs) : c.totalBatchesExecuted ≤ (txs.foldl (apply hash) c).totalBatchesExecuted := by
  induction txs generalizing c with
  | nil => exact le_rfl
  | cons tx txs ih =>
    obtain ⟨hc', hle⟩ := apply_ordered hc h.1
    exact hle.trans (ih hc' h.2)

theorem executed_lt_of_commitOf (hc : c.totalBatchesExecuted ≤ c.totalBatchesCommitted)
    (h : Steps (apply hash) Allows c txs) {tx : MinedTx} (htx : tx ∈ txs) {m : MinedCommit}
    (hm : tx.commitOf n = some m) : c.totalBatchesExecuted < n := by
  induction txs generalizing c with
  | nil => cases htx
  | cons tx' txs ih =>
    rcases mem_cons.mp htx with rfl | htx
    · obtain ⟨commit, hop, rfl, -⟩ := MinedTx.commitOf_eq_some.mp hm
      have hallows := h.1
      rw [Allows, hop] at hallows
      simp only [AllowsOperation] at hallows
      omega
    · obtain ⟨hc', hle⟩ := apply_ordered hc h.1
      exact hle.trans_lt (ih hc' h.2 htx)

theorem exists_lastCommit (h : Steps (apply hash) Allows c txs) (hzero : c.totalBatchesCommitted = 0) (hpos : 0 < n)
    (hn : n ≤ (txs.foldl (apply hash) c).totalBatchesCommitted) : ∃ m, lastCommit n txs = some m := by
  induction txs using reverseRecOn with
  | nil =>
    simp only [foldl_nil, hzero] at hn
    omega
  | append_singleton txs tx ih =>
    obtain ⟨htxs, htx, -⟩ := steps_append.mp h
    rw [foldl_append, foldl_cons, foldl_nil, apply] at hn
    rw [lastCommit_append, lastCommit_singleton]
    rw [Allows] at htx
    cases hop : tx.operation with
    | commit commit =>
      rw [hop] at hn htx
      simp only [AllowsOperation] at htx hn
      by_cases heq : commit.commitInfo.batchNumber = n
      · exact ⟨⟨tx.blockNumber, tx.hash, commit⟩, by simp [MinedTx.commitOf, hop, heq]⟩
      · obtain ⟨m, hm⟩ := ih htxs (by omega)
        exact ⟨m, by simp [MinedTx.commitOf, hop, heq, hm]⟩
    | revert newTotal =>
      rw [hop] at hn htx
      obtain ⟨m, hm⟩ := ih htxs (hn.trans htx.2)
      exact ⟨m, by simp [MinedTx.commitOf, hop, hm]⟩
    | execute batchNumber =>
      rw [hop] at hn
      obtain ⟨m, hm⟩ := ih htxs hn
      exact ⟨m, by simp [MinedTx.commitOf, hop, hm]⟩

end Contract

/-! ### Histories cut at a block -/

theorem filter_append_filter_not {α : Type} {R : α → α → Prop} {p : α → Bool} {l : List α} (hl : l.Pairwise R)
    (hp : ∀ a b, R a b → p b = true → p a = true) : l.filter p ++ l.filter (fun a => !p a) = l := by
  induction hl with
  | nil => rfl
  | @cons a l ha hl ih =>
    cases h : p a with
    | true => simp [h, ih]
    | false =>
      have hnone : l.filter p = [] := by
        rw [filter_eq_nil_iff]
        intro b hb hpb
        rw [hp a b (ha b hb) hpb] at h
        cases h
      rw [hnone] at ih
      simp only [filter_cons, h, hnone, Bool.not_false, if_true]
      simpa using ih

namespace History

variable {history : History} {block latest n : Nat} {m : MinedCommit}

theorem blocks_ordered (history : History) : history.txs.Pairwise (fun a b => a.blockNumber ≤ b.blockNumber) :=
  history.ordered.imp fun h => by omega

theorem upTo_append (history : History) (block : Nat) :
    history.upTo block ++ history.txs.filter (fun tx => !decide (tx.blockNumber ≤ block)) = history.txs :=
  filter_append_filter_not history.blocks_ordered fun a b hab hb => by
    simp only [decide_eq_true_eq] at hb ⊢
    omega

theorem upTo_append_of_le (history : History) (h : block ≤ latest) :
    history.upTo block ++ (history.upTo latest).filter (fun tx => !decide (tx.blockNumber ≤ block)) =
      history.upTo latest := by
  have hupTo : history.upTo block = (history.upTo latest).filter (·.blockNumber ≤ block) := by
    rw [upTo, upTo, filter_filter]
    exact filter_congr fun tx _ => by simp; omega
  rw [hupTo]
  exact filter_append_filter_not (history.blocks_ordered.filter _) fun a b hab hb => by
    simp only [decide_eq_true_eq] at hb ⊢
    omega

theorem allowed_upTo (history : History) (block : Nat) :
    Steps (Contract.apply history.hash) Contract.Allows (Contract.init history.genesisHash) (history.upTo block) := by
  have h := history.allowed
  rw [← history.upTo_append block] at h
  exact (steps_append.mp h).1

theorem contractAt_ordered (history : History) (block : Nat) :
    (history.contractAt block).totalBatchesExecuted ≤ (history.contractAt block).totalBatchesCommitted :=
  Contract.foldl_ordered le_rfl (history.allowed_upTo block)

theorem lastCommit_upTo (hm : lastCommit n (history.upTo latest) = some m) (hblock : m.blockNumber ≤ block)
    (hlatest : block ≤ latest) : lastCommit n (history.upTo block) = some m := by
  rw [← history.upTo_append_of_le hlatest, lastCommit_append, Option.or_eq_some_iff] at hm
  rcases hm with hlate | ⟨-, hm⟩
  · obtain ⟨tx, htx, hcommit⟩ := mem_of_lastCommit hlate
    obtain ⟨commit, -, -, rfl⟩ := MinedTx.commitOf_eq_some.mp hcommit
    have hafter := (mem_filter.mp htx).2
    simp only [Bool.not_eq_true', decide_eq_false_iff_not] at hafter
    exact absurd hblock hafter
  · exact hm

theorem blockNumber_of_lastCommit (hm : lastCommit n (history.upTo latest) = some m) :
    history.deploymentBlock ≤ m.blockNumber ∧ m.blockNumber ≤ latest := by
  obtain ⟨tx, htx, hcommit⟩ := mem_of_lastCommit hm
  obtain ⟨commit, -, -, rfl⟩ := MinedTx.commitOf_eq_some.mp hcommit
  obtain ⟨hmem, hle⟩ := mem_filter.mp htx
  exact ⟨history.deployed tx hmem, by simpa using hle⟩

theorem storedBatchHash_congr (h : lastCommit n (history.upTo block) = lastCommit n (history.upTo latest)) :
    (history.contractAt block).storedBatchHash n = (history.contractAt latest).storedBatchHash n := by
  rw [contractAt, contractAt, Contract.storedBatchHash_foldl, Contract.storedBatchHash_foldl, h]

/-- The search for a committed batch succeeds, and goes back at least to where the last commit
of the batch stopped changing. -/
theorem findL1CommitBlock_le (hn : n ≤ (history.contractAt latest).totalBatchesCommitted) (hlatest : latest ≤ u64Max)
    {first : Nat} (hfirst : history.deploymentBlock ≤ first ∧ first ≤ latest)
    (hlast : ∀ block, first ≤ block → block ≤ latest →
      lastCommit n (history.upTo block) = lastCommit n (history.upTo latest)) :
    ∃ start liveHash, findL1CommitBlockByBatchNumber history latest n = .ok (start, liveHash) ∧
      history.deploymentBlock ≤ start ∧ start ≤ first := by
  have hsame : ∀ block, first ≤ block → block ≤ latest →
      ((history.contractAt block).storedBatchHash n == (history.contractAt latest).storedBatchHash n) = true := by
    intro block hblock hle
    exact beq_iff_eq.mpr (storedBatchHash_congr (hlast block hblock hle))
  obtain ⟨start, hstart, hge, hle⟩ := findFirstTrueBlock_le hfirst.1 hfirst.2 hlatest hsame
  refine ⟨start, (history.contractAt latest).storedBatchHash n, ?_, hge, hle⟩
  simp [findL1CommitBlockByBatchNumber, findL1BlockByPredicate, require, hn, hstart]

theorem findL1CommitBlock_of_lastCommit (hn : n ≤ (history.contractAt latest).totalBatchesCommitted)
    (hlatest : latest ≤ u64Max) (hm : lastCommit n (history.upTo latest) = some m) :
    ∃ start liveHash, findL1CommitBlockByBatchNumber history latest n = .ok (start, liveHash) ∧
      history.deploymentBlock ≤ start ∧ start ≤ m.blockNumber :=
  findL1CommitBlock_le hn hlatest (blockNumber_of_lastCommit hm) fun _ hblock hle =>
    (lastCommit_upTo hm hblock hle).trans hm.symm

theorem findL1CommitBlock_zero (hlatest : latest ≤ u64Max) (hdeployed : history.deploymentBlock ≤ latest) :
    ∃ liveHash, findL1CommitBlockByBatchNumber history latest 0 = .ok (history.deploymentBlock, liveHash) := by
  have hnone : ∀ block, lastCommit 0 (history.upTo block) = none := by
    intro block
    cases hm : lastCommit 0 (history.upTo block) with
    | none => rfl
    | some m =>
      obtain ⟨tx, htx, hcommit⟩ := mem_of_lastCommit hm
      exact absurd (Contract.executed_lt_of_commitOf le_rfl (history.allowed_upTo block) htx hcommit) (Nat.not_lt_zero _)
  obtain ⟨start, liveHash, hfind, hge, hle⟩ := findL1CommitBlock_le (Nat.zero_le _) hlatest
    ⟨le_rfl, hdeployed⟩ fun block _ _ => (hnone block).trans (hnone latest).symm
  obtain rfl : start = history.deploymentBlock := le_antisymm hle hge
  exact ⟨liveHash, hfind⟩

/-! ### The data of a commit -/

theorem getTransactionByHash_of_mem {tx : MinedTx} (htx : tx ∈ history.txs) :
    history.getTransactionByHash tx.hash = some tx := by
  rw [getTransactionByHash]
  cases h : history.txs.find? (·.hash == tx.hash) with
  | none => exact absurd (find?_eq_none.mp h tx htx) (by simp)
  | some tx' =>
    have hhash : tx'.hash = tx.hash := by simpa using find?_some h
    rw [inj_on_of_nodup_map history.distinct (mem_of_find?_eq_some h) htx hhash]

theorem commitment_in_block (txs : List MinedTx) :
    (((txs.flatMap MinedTx.logs).filter fun log => decide (block ≤ log.blockNumber) && decide (log.blockNumber ≤ block) &&
      (log.event.commitmentOf n).isSome).getLast?.bind (·.event.commitmentOf n)) =
      (lastCommit n (txs.filter (·.blockNumber = block))).map (·.commit.commitment) := by
  induction txs using reverseRecOn with
  | nil => rfl
  | append_singleton txs tx ih =>
    rw [flatMap_append, filter_append, filter_append, getLast?_append, lastCommit_append]
    by_cases hblock : tx.blockNumber = block
    · cases hop : tx.operation with
      | commit commit =>
        by_cases hn : commit.commitInfo.batchNumber = n
        · simp [MinedTx.logs, MinedTx.commitOf, Event.commitmentOf, hop, hn, hblock]
        · simpa [MinedTx.logs, MinedTx.commitOf, Event.commitmentOf, hop, hn, hblock] using ih
      | revert newTotal => simpa [MinedTx.logs, MinedTx.commitOf, Event.commitmentOf, hop, hblock] using ih
      | execute batchNumber => simpa [MinedTx.logs, MinedTx.commitOf, Event.commitmentOf, hop, hblock] using ih
    · have hlogs : ([tx].flatMap MinedTx.logs).filter (fun log => decide (block ≤ log.blockNumber) &&
          decide (log.blockNumber ≤ block) && (log.event.commitmentOf n).isSome) = [] := by
        rw [filter_eq_nil_iff]
        intro log hlog
        have hsame := MinedTx.blockNumber_of_mem_logs (flatMap_singleton MinedTx.logs tx ▸ hlog)
        simp only [Bool.and_eq_true, decide_eq_true_eq, not_and]
        omega
      rw [hlogs, getLast?_nil, Option.none_or, ih]
      simp [hblock]

/-- The data fetched for a commit is its own, with the commitment of the last commit of the
batch in the same block. -/
theorem fetchCommittedBatchData_eq {tx : MinedTx} (htx : tx ∈ history.txs) {commit : Commit}
    (hop : tx.operation = .commit commit) :
    ∃ last, lastCommit commit.commitInfo.batchNumber (history.txs.filter (·.blockNumber = tx.blockNumber)) = some last ∧
      fetchCommittedBatchData history tx.hash tx.blockNumber commit.commitInfo.batchNumber =
        .ok ⟨commit.commitInfo, last.commit.commitment⟩ := by
  have hcommits : tx.commitOf commit.commitInfo.batchNumber = some ⟨tx.blockNumber, tx.hash, commit⟩ :=
    MinedTx.commitOf_eq_some.mpr ⟨commit, hop, rfl, rfl⟩
  have hmem : tx ∈ history.txs.filter (·.blockNumber = tx.blockNumber) := mem_filter.mpr ⟨htx, by simp⟩
  obtain ⟨last, hlast⟩ := exists_lastCommit_of_mem hmem hcommits
  have hinfo : fetchCommitBatchInfo history tx.hash commit.commitInfo.batchNumber = .ok commit.commitInfo := by
    simp [fetchCommitBatchInfo, getTransactionByHash_of_mem htx, hop, decodeCommitCalldata, require]
  refine ⟨last, hlast, ?_⟩
  rw [fetchCommittedBatchData, hinfo, ok_bind, getLogs]
  dsimp only
  rw [commitment_in_block, hlast]
  rfl

end History

/-! ### Examples of histories -/

def sampleCommit (state : B256) : Operation :=
  .commit
    { commitInfo :=
        { batchNumber, newStateCommitment := state, numberOfLayer1Txs := 0, numberOfLayer2Txs := 1,
          priorityOperationsHash := 0, dependencyRootsRollingHash := 0, l2ToL1LogsRootHash := 0,
          l2DaCommitmentScheme := .emptyNoDA, daCommitment := 0, firstBlockTimestamp := 0,
          firstBlockNumber := some batchNumber, lastBlockTimestamp := 0, lastBlockNumber := some batchNumber,
          chainId := 270, operatorDaInput := [], slChainId := 1 }
      commitment := state
      blockRange := ⟨batchNumber, batchNumber⟩ }

/-- Batch 1 is committed, reverted and committed again as it was, batch 2 with another state. -/
def recommitted : History where
  deploymentBlock := 10
  hash batch := batch.stateCommitment
  genesisHash := 7
  txs := [⟨11, 0, 1, sampleCommit 1 50⟩, ⟨11, 1, 2, .revert 0⟩, ⟨12, 0, 3, sampleCommit 1 50⟩,
    ⟨12, 1, 4, sampleCommit 2 60⟩, ⟨13, 0, 5, .execute 1⟩, ⟨13, 1, 6, .revert 1⟩, ⟨14, 0, 7, sampleCommit 2 61⟩,
    ⟨15, 0, 8, .execute 2⟩]
  deployed := by decide +kernel
  fits := by decide +kernel
  ordered := by decide +kernel
  distinct := by decide +kernel
  allowed := by decide +kernel

end L1Watcher
