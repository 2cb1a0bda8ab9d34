import ZksyncOsServer.L1Watcher.Contract

/-!
# Persisting executed batches

`l1_watcher/src/persist_batch_watcher.rs` with the storage of `storage/src/db/batch.rs`: the
watcher keeps the commits it discovers in memory and writes a batch when its execution is
finalized. A restart loses the memory and goes back to the block of the last stored batch's
commit, from where every commit of a batch that is stored already is compared with the storage.
-/
namespace L1Watcher

open Fallible Run
open MerkleTree (B256 Map)

structure PersistedBatch where
  committedBatch : DiscoveredCommittedBatch
  executeSlBlockNumber : Option Nat
  deriving DecidableEq

/-- `ExecutedBatchStorage`: the batches by number, and the number written last. -/
structure ExecutedBatchStorage where
  batchInfo : Map Nat PersistedBatch
  latest : Option Nat

namespace ExecutedBatchStorage

def empty : ExecutedBatchStorage := ⟨∅, none⟩

def write (this : ExecutedBatchStorage) (executedBatch : PersistedBatch) : ExecutedBatchStorage where
  batchInfo := this.batchInfo.insert executedBatch.committedBatch.batchInfo.batchNumber executedBatch
  latest := some executedBatch.committedBatch.batchInfo.batchNumber

def getBatchByNumber (this : ExecutedBatchStorage) (batchNumber : Nat) : Option PersistedBatch :=
  this.batchInfo[batchNumber]?

def latestBatch (this : ExecutedBatchStorage) : Nat := this.latest.getD 0

end ExecutedBatchStorage

structure L1PersistBatchWatcher where
  batchStorage : ExecutedBatchStorage
  committedBatches : Map Nat DiscoveredCommittedBatch
  lastProcessedCommitBatch : Nat
  lastPersistedBatchOnStart : Nat

def Event.watched : Event → Bool
  | .reportCommittedBatchRange .. | .blockExecution _ => true
  | _ => false

variable (history : History)

def parseCommittedBatch (batchNumber : Nat) (range : BlockRange) (log : Log) :
    Except L1WatcherError DiscoveredCommittedBatch := do
  let committedBatchInfo ← fetchCommittedBatchData history log.transactionHash log.blockNumber batchNumber
  return ⟨committedBatchInfo.intoStored, range⟩

namespace L1PersistBatchWatcher

/-- The processor that a start with the given storage builds. -/
def resume (batchStorage : ExecutedBatchStorage) : L1PersistBatchWatcher :=
  ⟨batchStorage, ∅, batchStorage.latestBatch, batchStorage.latestBatch⟩

/-- The block that a start scans from, when `latest` is the tip of the chain. -/
def resolveStart (history : History) (latest : Nat) (batchStorage : ExecutedBatchStorage) : Except L1WatcherError Nat := do
  let (startBlock, _) ← findL1CommitBlockByBatchNumber history latest batchStorage.latestBatch
  return startBlock

variable (history : History) (this : L1PersistBatchWatcher) (batchNumber : Nat)

def validate (range : BlockRange) (log : Log) (storedBatch : PersistedBatch) :
    Except L1WatcherError L1PersistBatchWatcher := do
  let committedBatch ← parseCommittedBatch history batchNumber range log
  require (storedBatch.committedBatch = committedBatch) (.storedBatchMismatch batchNumber)
  return this

/-- Keeping a commit in memory, unless it follows a commit that was skipped. -/
def discover (range : BlockRange) (log : Log) : Except L1WatcherError L1PersistBatchWatcher :=
  -- a gap right at the start of a chain are legacy batches and is not skipped
  if this.lastProcessedCommitBatch + 1 < batchNumber ∧ this.lastProcessedCommitBatch ≠ 0 then .ok this
  else do
    let committedBatch ← parseCommittedBatch history batchNumber range log
    return { this with
      committedBatches := this.committedBatches.insert batchNumber committedBatch
      lastProcessedCommitBatch := batchNumber }

def processCommit (range : BlockRange) (log : Log) : Except L1WatcherError L1PersistBatchWatcher :=
  match this.batchStorage.getBatchByNumber batchNumber with
  | some storedBatch =>
    if batchNumber ≤ this.lastProcessedCommitBatch then this.validate history batchNumber range log storedBatch
    else this.discover history batchNumber range log
  | none => this.discover history batchNumber range log

def processExecution (log : Log) : Except L1WatcherError L1PersistBatchWatcher :=
  if this.lastPersistedBatchOnStart < batchNumber then
    match this.committedBatches[batchNumber]? with
    | some committedBatch =>
      .ok { this with
        committedBatches := this.committedBatches.erase batchNumber
        batchStorage := this.batchStorage.write ⟨committedBatch, some log.blockNumber⟩ }
    | none =>
      -- no report was processed yet, so the batch counts as a legacy one
      if this.lastProcessedCommitBatch = this.lastPersistedBatchOnStart then .ok this
      else .error (.executedNotCommitted batchNumber)
  else .ok this

def processRawEvent (log : Log) : Except L1WatcherError L1PersistBatchWatcher :=
  match log.event with
  | .reportCommittedBatchRange batchNumber range => this.processCommit history batchNumber range log
  | .blockExecution batchNumber => this.processExecution batchNumber log
  | _ => .error .unexpectedTopic

end L1PersistBatchWatcher

/-! ### Runs with restarts -/

/-- The watcher with the logs it has still to process, and the last finalized block. -/
structure Node where
  finalized : Nat
  pending : List Log
  watcher : L1PersistBatchWatcher
  failed : Option L1WatcherError

inductive Action where
  | finalize (block : Fin (2 ^ 64))
  | next
  | restart (latest : Fin (2 ^ 64))
  deriving DecidableEq

namespace Node

variable (history : History)

/-- Starting the watcher over what is stored. -/
def start (finalized latest : Nat) (batchStorage : ExecutedBatchStorage) : Node :=
  match L1PersistBatchWatcher.resolveStart history latest batchStorage with
  | .ok startBlock => ⟨finalized, history.getLogs startBlock u64Max Event.watched, .resume batchStorage, none⟩
  | .error e => ⟨finalized, [], .resume batchStorage, some e⟩

def init : Node := start history history.deploymentBlock history.deploymentBlock .empty

def process (this : Node) (log : Log) (rest : List Log) : Node :=
  match this.watcher.processRawEvent history log with
  | .ok watcher => { this with pending := rest, watcher }
  | .error e => { this with failed := some e }

/-- Logs are processed in order, those of finalized blocks only. The tip that a restart reads is
not before the finalized block. -/
def act (this : Node) : Action → Node
  | .finalize block => { this with finalized := max this.finalized block }
  | .next =>
    match this.pending with
    | log :: rest => if log.blockNumber ≤ this.finalized then this.process history log rest else this
    | [] => this
  | .restart latest => start history this.finalized (max this.finalized latest) this.watcher.batchStorage

/-- An error ends the run. -/
def step (this : Node) (action : Action) : Node :=
  if this.failed.isSome then this else this.act history action

/-- Everything is finalized and the watcher processes what is left. -/
def drain (this : Node) : Node :=
  (.finalize (Fin.last _) :: List.replicate history.txs.length .next).foldl (step history) this

end Node

/-! ### What is to be stored -/

def MinedTx.executes (batchNumber : Nat) (tx : MinedTx) : Bool :=
  match tx.operation with
  | .execute n => n == batchNumber
  | _ => false

/-- The last commit of a batch before its execution, with the block of the execution. -/
def executedBatch (txs : List MinedTx) (batchNumber : Nat) : Option PersistedBatch :=
  match txs.dropWhile (fun tx => !tx.executes batchNumber) with
  | [] => none
  | tx :: _ =>
    (lastCommit batchNumber (txs.takeWhile fun tx => !tx.executes batchNumber)).map fun m =>
      ⟨m.commit.discovered, some tx.blockNumber⟩

/-- No error so far, and only executed batches are stored. -/
structure Sound (history : History) (node : Node) : Prop where
  failed : node.failed = none
  stored : ∀ n batch, node.watcher.batchStorage.getBatchByNumber n = some batch → executedBatch history.txs n = some batch

/-- No error, and exactly the executed batches are stored. -/
structure Complete (history : History) (node : Node) : Prop where
  failed : node.failed = none
  stored : ∀ n, node.watcher.batchStorage.getBatchByNumber n = executedBatch history.txs n

def AgreesEvent (storage : ExecutedBatchStorage) (log : Log) : Event → Prop
  | .reportCommittedBatchRange n range =>
    n ≤ storage.latestBatch →
      (parseCommittedBatch history n range log).toOption = (storage.getBatchByNumber n).map (·.committedBatch)
  | _ => True

instance (history : History) (storage : ExecutedBatchStorage) (log : Log) : DecidablePred (AgreesEvent history storage log) := fun event => by
  unfold AgreesEvent
  split <;> infer_instance

/-- The commits of stored batches that a start re-reads all describe the batches as stored. -/
def Revalidates (storage : ExecutedBatchStorage) : Except L1WatcherError Nat → Prop
  | .ok startBlock =>
    ∀ log ∈ history.getLogs startBlock u64Max Event.watched, AgreesEvent history storage log log.event
  | .error _ => True

instance (history : History) (storage : ExecutedBatchStorage) : DecidablePred (Revalidates history storage) := fun startBlock => by
  unfold Revalidates
  split <;> infer_instance

/-- What an action needs: a restart needs that the commits it re-reads agree with the storage. -/
def Resumes (node : Node) : Action → Prop
  | .restart latest =>
    Revalidates history node.watcher.batchStorage
      (L1PersistBatchWatcher.resolveStart history (max node.finalized latest) node.watcher.batchStorage)
  | .finalize _ | .next => True

instance (history : History) (node : Node) : DecidablePred (Resumes history node) := fun action => by
  unfold Resumes
  split <;> infer_instance

end L1Watcher
