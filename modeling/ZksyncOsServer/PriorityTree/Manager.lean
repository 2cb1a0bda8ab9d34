import ZksyncOsServer.Lib.Run
import ZksyncOsServer.MiniMerkleTree.Cached
import ZksyncOsServer.Types.Transaction

/-!
# The priority tree manager

`priority_tree/src/lib.rs` and `db.rs`. One task pushes the L1 transactions of a batch and proves
their range, the other one trims and saves the tree once the batch is executed and final. A crash
loses the tree and the queue between the tasks; the start that follows loads the saved tree and
pushes the blocks after the saved one up to the last executed one.
-/
namespace PriorityTree

open Fallible List MiniMerkleTree.Tree
open MerkleTree (B256)
open MiniMerkleTree
open Types (InteropRoot L1PriorityEnvelope ZkTransaction)

/-- The transactions of a replay record. -/
abbrev Block := List ZkTransaction

abbrev Batches := List (List Block)

def l1Txs (block : Block) : List L1PriorityEnvelope :=
  block.filterMap fun tx => match tx.envelope with
    | .l1 tx => some tx
    | _ => none

def interopRoots (block : Block) : List InteropRoot :=
  block.flatMap fun tx => match tx.envelope with
    | .system (.importInteropRoots roots _) => roots
    | _ => []

namespace Batches

variable (batches : Batches)

/-- The last block of a batch; batch zero is the genesis block. -/
def lastBlock (batch : Nat) : Nat := (batches.take batch).flatten.length

def blockRange (first last : Nat) : List Block := (batches.flatten.take last).drop (first - 1)

def blocksOf (batch : Nat) : List Block := blockRange batches (lastBlock batches (batch - 1) + 1) (lastBlock batches batch)

def l1TxsUpTo (batch : Nat) : List L1PriorityEnvelope := (batches.take batch).flatten.flatMap l1Txs

def hashesUpTo (batch : Nat) : List B256 := (l1TxsUpTo batches batch).map (·.hash)

def countUpTo (batch : Nat) : Nat := (l1TxsUpTo batches batch).length

end Batches

structure PriorityOpsBatchInfo where
  leftPath : List B256
  rightPath : List B256
  itemHashes : List B256
  deriving DecidableEq

def PriorityOpsBatchInfo.default : PriorityOpsBatchInfo := ⟨[], [], []⟩

/-- `ExecuteCommand`, for the one batch it carries. -/
structure ExecuteCommand where
  batchNumber : Nat
  priorityOps : PriorityOpsBatchInfo
  interopRoots : List InteropRoot
  deriving DecidableEq

abbrev OpsTree := MiniMerkleTree.Tree B256

structure CachedTreeData where
  startIndex : Nat
  cache : List (Option B256)

/-- `PriorityTreeDB`: both keys are written at once. -/
abbrev PriorityTreeDB := Option (Nat × CachedTreeData)

def PriorityTreeDB.initTree (db : PriorityTreeDB) : Except String (Nat × OpsTree) :=
  match db with
  | some (blockNumber, data) => do return (blockNumber, ← Tree.initCached data.startIndex data.cache)
  | none => do return (0, ← Tree.fromHashes [] none)

def PriorityTreeDB.cacheTree (tree : OpsTree) (blockNumber : Nat) : PriorityTreeDB :=
  some (blockNumber, ⟨tree.startIndex, tree.cache⟩)

/-- What the first task tells the second one: the batch, its last block and its last priority operation. -/
structure CacheEvent where
  batchNumber : Nat
  lastBlockNumber : Nat
  lastPriorityOpId : Option Nat
  deriving DecidableEq

structure State where
  db : PriorityTreeDB
  lastExecutedBatch : Nat
  lastFinalizedExecutedBatch : Nat
  tree : OpsTree
  lastExecutedBatchOnInit : Nat
  lastProcessedBatch : Nat
  /-- The number of the next envelope in the channel of the main node. -/
  nextEnvelope : Nat
  unsent : Option CacheEvent
  queue : List CacheEvent
  commands : List ExecuteCommand
  failed : Option String

inductive Event where
  | receive
  | notify
  | cache
  | finality (lastExecutedBatch lastFinalizedExecutedBatch : Nat)
  /-- A crash, and a start at which the channel resumes with the given batch. -/
  | restart (nextEnvelope : Nat)

structure Config where
  hasher : Hasher B256
  batches : Batches
  mainNode : Bool

variable (config : Config)

/-- The L1 transactions of several blocks are pushed. -/
def pushBlocks (tree : OpsTree) (blocks : List Block) : OpsTree :=
  ((blocks.flatMap l1Txs).map (·.hash)).foldl Tree.pushHash tree

/-- The proof for the priority operations of a batch, which are in the tree already. -/
def proveRange (tree : OpsTree) (firstPriorityOpId priorityOpCount : Nat) : Except String PriorityOpsBatchInfo := do
  require (tree.startIndex ≤ firstPriorityOpId) "attempt to subtract with overflow"
  let start := firstPriorityOpId - tree.startIndex
  let (_, left, right) ← tree.merkleRootAndPathsForRange config.hasher start (start + priorityOpCount)
  require (start + priorityOpCount ≤ tree.hashes.length) "range end index out of range"
  return {
    leftPath := left.map (·.getD 0)
    rightPath := right.map (·.getD 0)
    itemHashes := (tree.hashes.drop start).take priorityOpCount }

/-- Batches without L1 transactions have nothing to prove. -/
def proveOps (tree : OpsTree) (firstPriorityOpId : Option Nat) (priorityOpCount : Nat) :
    Except String PriorityOpsBatchInfo :=
  match firstPriorityOpId with
  | none => .ok .default
  | some id => proveRange config tree id priorityOpCount

namespace State

variable (s : State)

def fail (e : String) : State := { s with failed := some e }

/-- One turn of `prepare_execute_commands`. -/
def prepare (batch : Nat) : State :=
  let blocks := config.batches.blocksOf batch
  let txs := blocks.flatMap l1Txs
  let tree := pushBlocks s.tree blocks
  let firstPriorityOpId := txs.head?.map (·.priorityId)
  match proveOps config tree firstPriorityOpId txs.length with
  | .error e => s.fail e
  | .ok priorityOps =>
    { s with
      tree
      lastProcessedBatch := batch
      unsent := some ⟨batch, config.batches.lastBlock batch, firstPriorityOpId.map (· + txs.length - 1)⟩
      commands := s.commands ++ [⟨batch, priorityOps, blocks.flatMap interopRoots⟩] }

/-- The next batch is taken; the previous event was sent before. -/
def receive : State :=
  if s.unsent.isSome then s
  else if config.mainNode then
    if config.batches.length < s.nextEnvelope then s
    else if s.nextEnvelope ≤ s.lastExecutedBatchOnInit then { s with nextEnvelope := s.nextEnvelope + 1 }
    else if s.nextEnvelope = s.lastProcessedBatch + 1 then
      { s.prepare config s.nextEnvelope with nextEnvelope := s.nextEnvelope + 1 }
    else s.fail "Unexpected envelope received"
  else if s.lastProcessedBatch + 1 ≤ s.lastExecutedBatch then s.prepare config (s.lastProcessedBatch + 1)
  else s

def notify : State := { s with unsent := none, queue := s.queue ++ s.unsent.toList }

/-- One turn of `keep_caching`. -/
def cache : State :=
  match s.queue with
  | [] => s
  | event :: queue =>
    if config.batches.lastBlock s.lastFinalizedExecutedBatch < event.lastBlockNumber then s
    else
      match event.lastPriorityOpId with
      | none => { s with queue }
      | some id =>
        if id + 1 < s.tree.startIndex then s.fail "called unwrap on a None value"
        else
          match s.tree.trimStart config.hasher (id + 1 - s.tree.startIndex) with
          | .error e => s.fail e
          | .ok tree => { s with queue, tree, db := .cacheTree tree event.lastBlockNumber }

/-- Executed batches are never undone once they are final. -/
def finality (lastExecutedBatch lastFinalizedExecutedBatch : Nat) : State :=
  if s.lastFinalizedExecutedBatch ≤ lastFinalizedExecutedBatch ∧ lastFinalizedExecutedBatch ≤ lastExecutedBatch ∧
      lastExecutedBatch ≤ config.batches.length then
    { s with lastExecutedBatch, lastFinalizedExecutedBatch }
  else s

/-- `new` and `init`: the channel resumes at most one batch after the executed ones. -/
def restart (nextEnvelope : Nat) : State :=
  if s.lastExecutedBatch + 1 < nextEnvelope ∨ nextEnvelope = 0 then s
  else
    match s.db.initTree with
    | .error e => s.fail e
    | .ok (initialBlockNumber, tree) =>
      let lastExecutedBlock := config.batches.lastBlock s.lastExecutedBatch
      let tree := pushBlocks tree (config.batches.blockRange (initialBlockNumber + 1) lastExecutedBlock)
      match tree.merkleRoot config.hasher with
      | .error e => s.fail e
      | .ok _ =>
        { s with
          tree
          lastExecutedBatchOnInit := s.lastExecutedBatch
          lastProcessedBatch := s.lastExecutedBatch
          nextEnvelope
          unsent := none
          queue := [] }

def step (event : Event) : State :=
  if s.failed.isSome then s
  else
    match event with
    | .receive => s.receive config
    | .notify => s.notify
    | .cache => s.cache config
    | .finality lastExecutedBatch lastFinalizedExecutedBatch => s.finality config lastExecutedBatch lastFinalizedExecutedBatch
    | .restart nextEnvelope => s.restart config nextEnvelope

section
variable {config} {s : State} (h : s.failed = none)
include h

theorem step_running (event : Event) : s.step config event = match event with
    | .receive => s.receive config
    | .notify => s.notify
    | .cache => s.cache config
    | .finality executed final => s.finality config executed final
    | .restart nextEnvelope => s.restart config nextEnvelope := by
  simp [step, h]

end

/-- A manager that was never started: the database is empty and no batch is executed. -/
def fresh : State where
  db := none
  lastExecutedBatch := 0
  lastFinalizedExecutedBatch := 0
  tree := { hashes := [], binaryTreeSize := 1, startIndex := 0, cache := [], emptyLeafHash := none }
  lastExecutedBatchOnInit := 0
  lastProcessedBatch := 0
  nextEnvelope := 1
  unsent := none
  queue := []
  commands := []
  failed := none

/-- The manager that starts from an empty tree and takes the batches up to the given one without a crash. -/
def uninterrupted (hasher : Hasher B256) (batches : Batches) (batch : Nat) : State :=
  (List.replicate batch [Event.receive, .notify]).flatten.foldl (step ⟨hasher, batches, true⟩) fresh

end State

/-! ### Batches -/

namespace Batches

variable (batches : Batches) {m n : Nat}

theorem lastBlock_mono (h : m ≤ n) : batches.lastBlock m ≤ batches.lastBlock n :=
  ((take_prefix_take_left h).flatten).length_le

theorem flatten_take (n : Nat) : batches.flatten.take (batches.lastBlock n) = (batches.take n).flatten := by
  have hsplit : batches.flatten = (batches.take n).flatten ++ (batches.drop n).flatten := by
    rw [← flatten_append, take_append_drop]
  rw [hsplit]
  exact take_left

theorem l1TxsUpTo_append (h : m ≤ n) : batches.l1TxsUpTo n = batches.l1TxsUpTo m ++
    (batches.blockRange (batches.lastBlock m + 1) (batches.lastBlock n)).flatMap l1Txs := by
  have hsplit : (batches.take n).flatten = (batches.take m).flatten ++
      batches.blockRange (batches.lastBlock m + 1) (batches.lastBlock n) := by
    rw [blockRange, Nat.add_sub_cancel, ← flatten_take batches m,
      ← take_append_drop (batches.lastBlock m) (batches.take n).flatten, ← flatten_take batches n, take_take,
      Nat.min_eq_left (lastBlock_mono batches h)]
  rw [l1TxsUpTo, hsplit, flatMap_append]
  rfl

theorem hashesUpTo_append (h : m ≤ n) : batches.hashesUpTo n = batches.hashesUpTo m ++
    ((batches.blockRange (batches.lastBlock m + 1) (batches.lastBlock n)).flatMap l1Txs).map (·.hash) := by
  rw [hashesUpTo, l1TxsUpTo_append batches h, map_append]
  rfl

theorem countUpTo_mono (h : m ≤ n) : batches.countUpTo m ≤ batches.countUpTo n := by
  rw [countUpTo, countUpTo, l1TxsUpTo_append batches h, length_append]
  exact Nat.le_add_right _ _

theorem countUpTo_succ (n : Nat) :
    batches.countUpTo (n + 1) = batches.countUpTo n + ((batches.blocksOf (n + 1)).flatMap l1Txs).length := by
  rw [countUpTo, l1TxsUpTo_append batches (Nat.le_succ n), length_append]
  rfl

@[simp] theorem length_hashesUpTo (n : Nat) : (batches.hashesUpTo n).length = batches.countUpTo n := by
  rw [hashesUpTo, length_map, countUpTo]

/-- The priority ids of the chain are the numbers from zero on. -/
def Contiguous (batches : Batches) : Prop :=
  (batches.flatten.flatMap l1Txs).map (·.priorityId) = List.range (batches.flatten.flatMap l1Txs).length

instance (batches : Batches) : Decidable batches.Contiguous := inferInstanceAs (Decidable (_ = _))

variable {batches} in
theorem Contiguous.first (h : batches.Contiguous) (n : Nat) :
    ((batches.blocksOf (n + 1)).flatMap l1Txs).head?.map (·.priorityId) =
      if batches.countUpTo n < batches.countUpTo (n + 1) then some (batches.countUpTo n) else none := by
  have hbatch := l1TxsUpTo_append batches (Nat.le_succ n)
  have hcount := countUpTo_succ batches n
  have hall : batches.flatten.flatMap l1Txs = batches.l1TxsUpTo n ++ (batches.blocksOf (n + 1)).flatMap l1Txs ++
      (batches.drop (n + 1)).flatten.flatMap l1Txs := by
    rw [blocksOf, Nat.add_sub_cancel, ← hbatch, l1TxsUpTo, ← flatMap_append, ← flatten_append, take_append_drop]
  have hget := congrArg (·[batches.countUpTo n]?) h
  simp only [hall] at hget
  cases htxs : (batches.blocksOf (n + 1)).flatMap l1Txs with
  | nil => rw [if_neg (by rw [hcount, htxs]; simp)]; rfl
  | cons tx txs =>
    rw [if_pos (by rw [hcount, htxs]; simp)]
    have hlt : batches.countUpTo n <
        (batches.l1TxsUpTo n ++ tx :: txs ++ (batches.drop (n + 1)).flatten.flatMap l1Txs).length := by
      simp only [countUpTo, length_append, length_cons]
      omega
    rw [htxs, getElem?_range hlt, getElem?_map, append_assoc, countUpTo,
      getElem?_append_right le_rfl, Nat.sub_self] at hget
    exact hget

end Batches

/-! ### What is expected of a batch -/

/-- The paths of the first and the last priority operation of a batch in the plain tree over the operations of
all batches up to it. -/
def expectedOps (hasher : Hasher B256) (batches : Batches) (batch : Nat) : PriorityOpsBatchInfo :=
  let first := batches.countUpTo (batch - 1)
  let count := batches.countUpTo batch
  let nodes := naiveNode hasher hasher.emptyLeafHash (batches.hashesUpTo batch)
  if first < count then {
    leftPath := (sidePath nodes (some .left) 0 (minDepth count) first).map (·.getD 0)
    rightPath := (sidePath nodes (some .right) 0 (minDepth count) (count - 1)).map (·.getD 0)
    itemHashes := (batches.hashesUpTo batch).drop first }
  else .default

def expectedCommand (hasher : Hasher B256) (batches : Batches) (batch : Nat) : ExecuteCommand :=
  ⟨batch, expectedOps hasher batches batch, (batches.blocksOf batch).flatMap interopRoots⟩

variable {config : Config} {tree : OpsTree}

theorem proveRange_eq {leaves : List B256} (h : Grown config.hasher tree leaves) {first : Nat}
    (hstart : tree.startIndex ≤ first) (hfirst : first < leaves.length) :
    proveRange config tree first (leaves.length - first) = .ok {
      leftPath := (sidePath (naiveNode config.hasher config.hasher.emptyLeafHash leaves) (some .left) 0
        (minDepth leaves.length) first).map (·.getD 0)
      rightPath := (sidePath (naiveNode config.hasher config.hasher.emptyLeafHash leaves) (some .right) 0
        (minDepth leaves.length) (leaves.length - 1)).map (·.getD 0)
      itemHashes := leaves.drop first } := by
  obtain ⟨hr, hnone⟩ := h
  have hlen : tree.hashes.length = leaves.length - tree.startIndex := by rw [hr.hashes, length_drop]
  have hend : first - tree.startIndex + (leaves.length - first) = leaves.length - tree.startIndex := by omega
  have hrange := hr.merkleRootAndPathsForRange
    (show first - tree.startIndex < first - tree.startIndex + (leaves.length - first) by omega)
    (show first - tree.startIndex + (leaves.length - first) ≤ tree.hashes.length by omega)
  have hleaf : tree.emptyLeaf config.hasher = config.hasher.emptyLeafHash := by rw [emptyLeaf, hnone]; rfl
  rw [hleaf, Nat.add_sub_cancel' hstart, hend,
    show tree.startIndex + (leaves.length - tree.startIndex - 1) = leaves.length - 1 by omega] at hrange
  rw [proveRange, require_pos hstart, ok_bind]
  dsimp only
  rw [hend, hrange]
  dsimp only [ok_bind]
  rw [require_pos (by omega), ok_bind, hr.hashes, drop_drop, Nat.add_sub_cancel' hstart,
    take_of_length_le (by rw [length_drop])]
  rfl

variable {n count : Nat} {batches : Batches}

theorem grown_pushBlocks {m : Nat} (htree : Grown config.hasher tree (config.batches.hashesUpTo m)) (hle : m ≤ n)
    (hmax : config.batches.countUpTo n ≤ 2 ^ maxTreeDepth) : Grown config.hasher
      (pushBlocks tree (config.batches.blockRange (config.batches.lastBlock m + 1) (config.batches.lastBlock n)))
      (config.batches.hashesUpTo n) := by
  have happend := Batches.hashesUpTo_append config.batches hle
  rw [happend]
  refine htree.pushHashes ?_
  rwa [← happend, Batches.length_hashesUpTo]

theorem proveOps_eq (hids : config.batches.Contiguous)
    (htree : Grown config.hasher tree (config.batches.hashesUpTo n)) (hstart : tree.startIndex ≤ config.batches.countUpTo n)
    (hmax : config.batches.countUpTo (n + 1) ≤ 2 ^ maxTreeDepth) :
    Grown config.hasher (pushBlocks tree (config.batches.blocksOf (n + 1))) (config.batches.hashesUpTo (n + 1)) ∧
      proveOps config (pushBlocks tree (config.batches.blocksOf (n + 1)))
        (((config.batches.blocksOf (n + 1)).flatMap l1Txs).head?.map (·.priorityId))
        ((config.batches.blocksOf (n + 1)).flatMap l1Txs).length = .ok (expectedOps config.hasher config.batches (n + 1)) := by
  have hgrown : Grown config.hasher (pushBlocks tree (config.batches.blocksOf (n + 1)))
      (config.batches.hashesUpTo (n + 1)) := grown_pushBlocks htree (Nat.le_succ n) hmax
  refine ⟨hgrown, ?_⟩
  have hcount : ((config.batches.blocksOf (n + 1)).flatMap l1Txs).length =
      (config.batches.hashesUpTo (n + 1)).length - config.batches.countUpTo n := by
    rw [Batches.length_hashesUpTo, Batches.countUpTo_succ, Nat.add_sub_cancel_left]
  rw [hids.first, hcount, expectedOps, Nat.add_sub_cancel]
  split
  next hlt =>
    rw [proveOps, proveRange_eq hgrown (by rwa [pushBlocks, startIndex_pushHashes])
      (by rwa [Batches.length_hashesUpTo]), Batches.length_hashesUpTo]
  next => rfl

/-! ### The invariant -/

/-- What the second task is told of a batch. -/
def expectedEvent (batches : Batches) (batch : Nat) : CacheEvent :=
  ⟨batch, batches.lastBlock batch,
    if batches.countUpTo (batch - 1) < batches.countUpTo batch then some (batches.countUpTo batch - 1) else none⟩

def Saved (config : Config) (lastFinalizedExecutedBatch : Nat) (db : PriorityTreeDB) : Prop :=
  ∃ batch ≤ lastFinalizedExecutedBatch, ∃ tree, db.initTree = .ok (config.batches.lastBlock batch, tree) ∧
    Grown config.hasher tree (config.batches.hashesUpTo batch)

/-- The events on their way, the one that is still to be sent last. -/
def State.events (s : State) : List CacheEvent := s.queue ++ s.unsent.toList

/-- The batches of the events follow each other, and none of their operations is trimmed yet. -/
structure Pending (batches : Batches) (events : List CacheEvent) (lastProcessedBatch startIndex : Nat) : Prop where
  expected : ∀ event ∈ events, event = expectedEvent batches event.batchNumber
  sorted : events.Pairwise fun a b => a.batchNumber < b.batchNumber
  bounds : ∀ event ∈ events, 1 ≤ event.batchNumber ∧ event.batchNumber ≤ lastProcessedBatch
  untrimmed : ∀ event ∈ events, startIndex ≤ batches.countUpTo (event.batchNumber - 1)

theorem Pending.nil {processed start : Nat} : Pending batches [] processed start := ⟨nofun, .nil, nofun, nofun⟩

structure Inv (config : Config) (s : State) : Prop where
  running : s.failed = none
  final : s.lastFinalizedExecutedBatch ≤ s.lastExecutedBatch
  executed : s.lastExecutedBatch ≤ config.batches.length
  processed : s.lastProcessedBatch ≤ config.batches.length
  envelope : config.mainNode = true → s.nextEnvelope = s.lastProcessedBatch + 1 ∨
    s.nextEnvelope ≤ s.lastProcessedBatch ∧ s.lastProcessedBatch = s.lastExecutedBatchOnInit
  onInit : s.lastExecutedBatchOnInit ≤ s.lastProcessedBatch
  tree : Grown config.hasher s.tree (config.batches.hashesUpTo s.lastProcessedBatch)
  saved : Saved config s.lastFinalizedExecutedBatch s.db
  pending : Pending config.batches s.events s.lastProcessedBatch s.tree.startIndex
  commands : ∀ command ∈ s.commands, 1 ≤ command.batchNumber ∧ command.batchNumber ≤ config.batches.length ∧
    command = expectedCommand config.hasher config.batches command.batchNumber

/-- The L1 transactions that a tree can hold. -/
def Fits (config : Config) : Prop := config.batches.countUpTo config.batches.length ≤ 2 ^ maxTreeDepth
  deriving Decidable

variable {s : State}

theorem Inv.startIndex_le (h : Inv config s) : s.tree.startIndex ≤ config.batches.countUpTo s.lastProcessedBatch := by
  have hle := h.tree.1.start_le
  rwa [Batches.length_hashesUpTo] at hle

theorem Fits.countUpTo (h : Fits config) (hn : n ≤ config.batches.length) :
    config.batches.countUpTo n ≤ 2 ^ maxTreeDepth := (Batches.countUpTo_mono config.batches hn).trans h

theorem lastPriorityOpId_eq (hids : config.batches.Contiguous) (n : Nat) :
    (((config.batches.blocksOf (n + 1)).flatMap l1Txs).head?.map (·.priorityId)).map
        (· + ((config.batches.blocksOf (n + 1)).flatMap l1Txs).length - 1) =
      (expectedEvent config.batches (n + 1)).lastPriorityOpId := by
  rw [hids.first, expectedEvent, Nat.add_sub_cancel, Batches.countUpTo_succ]
  split <;> rfl

theorem Inv.prepare_eq (h : Inv config s) (hids : config.batches.Contiguous) (hfits : Fits config)
    (hnext : s.lastProcessedBatch + 1 ≤ config.batches.length) : s.prepare config (s.lastProcessedBatch + 1) = { s with
      tree := pushBlocks s.tree (config.batches.blocksOf (s.lastProcessedBatch + 1))
      lastProcessedBatch := s.lastProcessedBatch + 1
      unsent := some (expectedEvent config.batches (s.lastProcessedBatch + 1))
      commands := s.commands ++ [expectedCommand config.hasher config.batches (s.lastProcessedBatch + 1)] } := by
  obtain ⟨-, hops⟩ := proveOps_eq hids h.tree h.startIndex_le (hfits.countUpTo hnext)
  simp only [State.prepare, hops, lastPriorityOpId_eq hids]
  rfl

theorem Inv.prepare (h : Inv config s) (hids : config.batches.Contiguous) (hfits : Fits config)
    (hunsent : s.unsent = none) (hnext : s.lastProcessedBatch + 1 ≤ config.batches.length) {nextEnvelope : Nat}
    (henvelope : config.mainNode = true → nextEnvelope = s.lastProcessedBatch + 2) :
    Inv config { s.prepare config (s.lastProcessedBatch + 1) with nextEnvelope } := by
  obtain ⟨htree, -⟩ := proveOps_eq hids h.tree h.startIndex_le (hfits.countUpTo hnext)
  have hevents : s.events = s.queue := by rw [State.events, hunsent, Option.toList_none, append_nil]
  have hold := h.pending
  rw [h.prepare_eq hids hfits hnext]
  refine { h with
    processed := hnext
    envelope := fun hmain => .inl (henvelope hmain)
    onInit := h.onInit.trans (Nat.le_succ _)
    tree := htree
    pending := ?_
    commands := ?_ }
  · -- the event of the batch comes after those of the batches before it
    have hmem : ∀ event ∈ s.queue ++ [expectedEvent config.batches (s.lastProcessedBatch + 1)],
        event ∈ s.events ∨ event = expectedEvent config.batches (s.lastProcessedBatch + 1) := fun event hevent => by
      rwa [mem_append, mem_singleton, ← hevents] at hevent
    constructor
    · intro event hevent
      rcases hmem event hevent with hold' | rfl
      · exact hold.expected event hold'
      · rfl
    · refine pairwise_append.mpr ⟨hevents ▸ hold.sorted, pairwise_singleton _ _, fun a ha b hb => ?_⟩
      rw [← hevents] at ha
      obtain rfl : b = _ := mem_singleton.mp hb
      exact Nat.lt_succ_of_le (hold.bounds a ha).2
    · intro event hevent
      rcases hmem event hevent with hold' | rfl
      · obtain ⟨hpos, hle⟩ := hold.bounds event hold'
        exact ⟨hpos, hle.trans (Nat.le_succ _)⟩
      · exact ⟨Nat.succ_pos _, le_rfl⟩
    · intro event hevent
      rw [pushBlocks, startIndex_pushHashes]
      rcases hmem event hevent with hold' | rfl
      · exact hold.untrimmed event hold'
      · exact h.startIndex_le
  · intro command hcommand
    rcases mem_append.mp hcommand with hold' | hnew
    · exact h.commands command hold'
    · obtain rfl : command = _ := mem_singleton.mp hnew
      exact ⟨Nat.succ_pos _, hnext, rfl⟩

theorem Inv.receive (h : Inv config s) (hids : config.batches.Contiguous) (hfits : Fits config) :
    Inv config (s.receive config) := by
  rw [State.receive]
  split
  next => exact h
  next hunsent =>
    rw [Bool.not_eq_true, Option.isSome_eq_false_iff, Option.isNone_iff_eq_none] at hunsent
    split
    next hmain =>
      have henvelope := h.envelope hmain
      split
      next => exact h
      next havailable =>
        split
        next hold =>
          have honInit := h.onInit
          exact { h with envelope := fun _ => by dsimp only; omega }
        next hnew =>
          have heq : s.nextEnvelope = s.lastProcessedBatch + 1 := by omega
          rw [if_pos heq, heq]
          exact h.prepare hids hfits hunsent (by omega) fun _ => rfl
    next hmain =>
      split
      next hnext =>
        have hexecuted := h.executed
        have hprepared := h.prepare hids hfits hunsent (by omega)
          (show config.mainNode = true → (s.prepare config (s.lastProcessedBatch + 1)).nextEnvelope = _ from
            fun h => absurd h hmain)
        exact hprepared
      next => exact h

theorem Inv.notify (h : Inv config s) : Inv config s.notify := by
  have hevents : s.notify.events = s.events := by
    rw [State.events, State.notify, Option.toList_none, append_nil]
    rfl
  exact { h with pending := hevents ▸ h.pending }

/-- The first event is done, and the tree was trimmed no further than to the end of its batch. -/
theorem Pending.tail {event : CacheEvent} {events : List CacheEvent} {processed start start' : Nat}
    (h : Pending batches (event :: events) processed start) (hstart : start' ≤ batches.countUpTo event.batchNumber) :
    Pending batches events processed start' := by
  obtain ⟨hfirst, hsorted⟩ := pairwise_cons.mp h.sorted
  refine ⟨fun e he => h.expected e (mem_cons_of_mem event he), hsorted,
    fun e he => h.bounds e (mem_cons_of_mem event he), fun e he => ?_⟩
  have hlt := hfirst e he
  exact hstart.trans (Batches.countUpTo_mono batches (by omega))

theorem final_of_lastBlock (hne : ∀ batch ∈ batches, batch ≠ []) {m : Nat}
    (hm : m ≤ batches.length) (h : batches.lastBlock m ≤ batches.lastBlock n) : m ≤ n := by
  by_contra hlt
  have hn : n < batches.length := by omega
  have hstep : batches.lastBlock n < batches.lastBlock (n + 1) := by
    rw [Batches.lastBlock, Batches.lastBlock, take_add_one, getElem?_eq_getElem hn, Option.toList_some,
      flatten_append, length_append, flatten_singleton]
    have hpos := length_pos_iff.mpr (hne batches[n] (getElem_mem hn))
    omega
  have hmono := Batches.lastBlock_mono batches (show n + 1 ≤ m by omega)
  omega

theorem Inv.trim (h : Inv config s) {batch : Nat} (hbatch : batch ≤ s.lastProcessedBatch)
    (hfinal : batch ≤ s.lastFinalizedExecutedBatch) (hstart : s.tree.startIndex < config.batches.countUpTo batch) :
    ∃ tree, s.tree.trimStart config.hasher (config.batches.countUpTo batch - s.tree.startIndex) = .ok tree ∧
      Grown config.hasher tree (config.batches.hashesUpTo s.lastProcessedBatch) ∧
      tree.startIndex = config.batches.countUpTo batch ∧
      Saved config s.lastFinalizedExecutedBatch (.cacheTree tree (config.batches.lastBlock batch)) := by
  have hcount := Batches.countUpTo_mono config.batches hbatch
  have hlen : s.tree.hashes.length = config.batches.countUpTo s.lastProcessedBatch - s.tree.startIndex := by
    rw [h.tree.1.hashes, length_drop, Batches.length_hashesUpTo]
  obtain ⟨tree, htrim, hgrown, hexact, hindex⟩ :=
    h.tree.trimStart (show 0 < config.batches.countUpTo batch - s.tree.startIndex by omega) (by omega)
  have hindex' : tree.startIndex = config.batches.countUpTo batch := by omega
  refine ⟨tree, htrim, hgrown, hindex', batch, hfinal, ?_⟩
  obtain ⟨loaded, hload, hloaded, -⟩ := grown_initCached hgrown.1 hgrown.2 hexact
  refine ⟨loaded, ?_, ?_⟩
  · rw [PriorityTreeDB.cacheTree, PriorityTreeDB.initTree, hload, ok_bind]
    rfl
  · rwa [hindex', Batches.hashesUpTo_append config.batches hbatch, ← Batches.length_hashesUpTo, take_left] at hloaded

theorem Inv.cache (h : Inv config s) (hne : ∀ batch ∈ config.batches, batch ≠ []) : Inv config (s.cache config) := by
  rw [State.cache]
  split
  next => exact h
  next event queue hqueue =>
    have hpending := h.pending
    rw [State.events, hqueue, cons_append] at hpending
    split
    next => exact h
    next hfinal =>
      have hevent := hpending.expected event mem_cons_self
      obtain ⟨-, hprocessed⟩ := hpending.bounds event mem_cons_self
      have huntrimmed := hpending.untrimmed event mem_cons_self
      have hmono := Batches.countUpTo_mono config.batches (Nat.sub_le event.batchNumber 1)
      split
      next => exact { h with pending := hpending.tail (huntrimmed.trans hmono) }
      next id hid =>
        rw [hevent] at hid hfinal
        simp only [expectedEvent, Option.ite_none_right_eq_some, Option.some.injEq] at hid hfinal
        obtain ⟨hlt, rfl⟩ := hid
        rw [if_neg (by omega), Nat.sub_add_cancel (by omega)]
        have hbatch : event.batchNumber ≤ s.lastFinalizedExecutedBatch :=
          final_of_lastBlock hne (hprocessed.trans h.processed) (Nat.le_of_not_lt hfinal)
        obtain ⟨tree, htrim, hgrown, hindex, hsaved⟩ := h.trim hprocessed hbatch (by omega)
        rw [htrim, hevent]
        exact { h with tree := hgrown, saved := hsaved, pending := hpending.tail hindex.le }

theorem Inv.finality (h : Inv config s) (executed final : Nat) : Inv config (s.finality config executed final) := by
  rw [State.finality]
  split
  next hvalid =>
    obtain ⟨batch, hbatch, hsaved⟩ := h.saved
    exact { h with final := hvalid.2.1, executed := hvalid.2.2, saved := ⟨batch, hbatch.trans hvalid.1, hsaved⟩ }
  next => exact h

theorem Inv.restart (h : Inv config s) (hfits : Fits config) (nextEnvelope : Nat) :
    Inv config (s.restart config nextEnvelope) := by
  rw [State.restart]
  split
  next => exact h
  next henvelope =>
    obtain ⟨batch, hbatch, tree, hload, hgrown⟩ := h.saved
    have hpushed := grown_pushBlocks hgrown (hbatch.trans h.final) (hfits.countUpTo h.executed)
    have hroot := hpushed.1.merkleRoot fun _ => hpushed.2
    simp only [hload, hroot]
    exact { h with
      processed := h.executed
      envelope := fun _ => by dsimp only; omega
      onInit := le_rfl
      tree := hpushed
      pending := .nil }

theorem Inv.step (hids : config.batches.Contiguous) (hne : ∀ batch ∈ config.batches, batch ≠ []) (hfits : Fits config)
    (s : State) (event : Event) (h : Inv config s) : Inv config (s.step config event) := by
  rw [State.step_running h.running]
  cases event with
  | receive => exact h.receive hids hfits
  | notify => exact h.notify
  | cache => exact h.cache hne
  | finality executed final => exact h.finality executed final
  | restart nextEnvelope => exact h.restart hfits nextEnvelope

theorem fromHashes_nil : fromHashes ([] : List B256) none = .ok State.fresh.tree := by
  have hsize : nextPowerOfTwo 0 = 1 := by simp [nextPowerOfTwo]
  have hdepth : treeDepthBySize 1 = 0 := by decide
  simp [fromHashes, hsize, hdepth, require_pos]
  rfl

theorem inv_fresh (config : Config) : Inv config .fresh := by
  obtain ⟨tree, htree, hgrown⟩ := grown_fromHashes_nil config.hasher
  obtain rfl : State.fresh.tree = tree := Except.ok.inj (fromHashes_nil.symm.trans htree)
  have hnone : config.batches.hashesUpTo 0 = [] := by simp [Batches.hashesUpTo, Batches.l1TxsUpTo]
  exact {
    running := rfl
    final := le_rfl
    executed := Nat.zero_le _
    processed := Nat.zero_le _
    envelope := fun _ => .inl rfl
    onInit := le_rfl
    tree := by rwa [State.fresh, hnone]
    saved := ⟨0, le_rfl, State.fresh.tree, by rw [State.fresh, PriorityTreeDB.initTree, htree]; rfl, by rwa [hnone]⟩
    pending := .nil
    commands := by simp [State.fresh] }

/-- A manager on the main node that took the first batches without a crash. -/
structure Straight (config : Config) (s : State) (batch : Nat) : Prop extends Inv config s where
  lastProcessedBatch : s.lastProcessedBatch = batch
  unsent : s.unsent = none
  nextEnvelope : s.nextEnvelope = batch + 1
  lastExecutedBatchOnInit : s.lastExecutedBatchOnInit = 0
  done : s.commands = (List.range' 1 batch).map (expectedCommand config.hasher config.batches)

theorem Straight.next (hids : config.batches.Contiguous) (hfits : Fits config)
    (hmain : config.mainNode = true) (h : Straight config s n) (hn : n + 1 ≤ config.batches.length) :
    Straight config ((s.step config .receive).step config .notify) (n + 1) := by
  obtain ⟨hinv, rfl, hunsent, hnext, honInit, hdone⟩ := h
  have hreceive : s.receive config =
      { s.prepare config (s.lastProcessedBatch + 1) with nextEnvelope := s.lastProcessedBatch + 2 } := by
    rw [State.receive, hunsent, hmain, hnext, honInit, if_neg (by simp), if_pos rfl, if_neg (by omega), if_neg (by omega),
      if_pos rfl]
  have hinv' := hinv.receive hids hfits
  have hstep := hinv'.notify
  rw [State.step_running hinv.running, State.step_running hinv'.running]
  rw [hreceive, hinv.prepare_eq hids hfits hn] at hstep ⊢
  refine ⟨hstep, rfl, rfl, rfl, honInit, ?_⟩
  rw [range'_concat, map_append, ← hdone, Nat.one_mul, Nat.add_comm 1]
  rfl

/-- Without a crash the manager gives the expected command of every batch, in order. -/
theorem straight_uninterrupted (hasher : Hasher B256) (hids : batches.Contiguous)
    (hfits : Fits ⟨hasher, batches, true⟩) (hn : n ≤ batches.length) :
    Straight ⟨hasher, batches, true⟩ (State.uninterrupted hasher batches n) n := by
  induction n with
  | zero => exact ⟨inv_fresh _, rfl, rfl, rfl, rfl, rfl⟩
  | succ n ih =>
    rw [State.uninterrupted, replicate_succ', flatten_append, foldl_append, flatten_singleton]
    exact (ih (Nat.le_of_succ_le hn)).next hids hfits rfl hn

/-- What a manager may have done at any time: it did not fail, and its commands are those of the manager that was
never interrupted. -/
def Equivalent (config : Config) (s : State) : Prop :=
  s.failed = none ∧ ∀ command ∈ s.commands,
    command ∈ (State.uninterrupted config.hasher config.batches command.batchNumber).commands

/-- Whenever the manager crashes and starts again, it goes on as if it had never been interrupted. -/
theorem restarts_equivalent (config : Config) (hids : config.batches.Contiguous)
    (hne : ∀ batch ∈ config.batches, batch ≠ []) (hfits : Fits config) (events : List Event) :
    Run.States (State.step config) (Equivalent config) .fresh events := by
  refine (Run.states_of_invariant (Inv.step hids hne hfits) (inv_fresh config)).imp fun s h => ⟨h.running, ?_⟩
  intro command hcommand
  obtain ⟨hpos, hle, hexpected⟩ := h.commands command hcommand
  have hstraight := straight_uninterrupted config.hasher hids hfits hle
  rw [hstraight.done, mem_map]
  exact ⟨command.batchNumber, mem_range'_1.mpr ⟨hpos, by omega⟩, hexpected.symm⟩

def opsBlock (count : Nat) : Block := (List.range count).map fun id => ⟨.l1 ⟨0, id, 0⟩, 0⟩

theorem l1Txs_opsBlock (count : Nat) : l1Txs (opsBlock count) = (range count).map fun id => ⟨0, id, 0⟩ := by
  simp [l1Txs, opsBlock, filterMap_map]

def opsConfig (hasher : Hasher B256) (count : Nat) : Config := ⟨hasher, [[opsBlock count]], true⟩

theorem opsConfig_contiguous (hasher : Hasher B256) (count : Nat) : (opsConfig hasher count).batches.Contiguous := by
  simp [opsConfig, Batches.Contiguous, l1Txs_opsBlock, Function.comp_def]

/-- The batch is processed, becomes final and is saved, then the manager starts again. -/
def savedThenRestarted : List Event := [.receive, .notify, .finality 1 1, .cache, .restart 2]

theorem State.step_failed {e : String} (h : s.failed = some e) (event : Event) : s.step config event = s := by
  simp [step, h]

theorem State.foldl_failed (h : s.failed.isSome = true) (events : List Event) :
    (events.foldl (step config) s).failed.isSome = true := by
  obtain ⟨e, he⟩ := Option.isSome_iff_exists.mp h
  induction events with
  | nil => exact h
  | cons event events ih => rwa [foldl_cons, step_failed he]

theorem initCached_too_deep {start : Nat} (cache : List (Option B256)) (hlow : 2 ^ maxTreeDepth < start)
    (hhigh : start ≤ 2 ^ (maxTreeDepth + 1)) : ∃ e, initCached start cache = .error e := by
  have hdepth : minDepth start = maxTreeDepth + 1 := by
    refine le_antisymm (minDepth_le_iff.mpr hhigh) ?_
    have : ¬ minDepth start ≤ maxTreeDepth := by rw [minDepth_le_iff]; omega
    omega
  have hsize : treeDepthBySize (nextPowerOfTwo start) = maxTreeDepth + 1 := by
    rw [nextPowerOfTwo, ← minDepth, hdepth]
    exact treeDepthBySize_two_pow (by decide)
  rw [initCached, hsize, require, if_neg (by omega)]
  exact ⟨_, rfl⟩

theorem trimStart_startIndex {hasher : Hasher B256} {this tree : OpsTree} (h : this.trimStart hasher count = .ok tree) :
    tree.startIndex = this.startIndex + count := by
  simp only [trimStart, bind_eq_ok, pure_eq_ok] at h
  obtain ⟨-, -, -, -, rfl⟩ := h
  rfl

theorem opsConfig_receive (hasher : Hasher B256) (hpos : 0 < count) :
    (State.fresh.step (opsConfig hasher count) .receive).failed.isSome = true ∨
      ∃ tree command, tree.startIndex = 0 ∧ State.fresh.step (opsConfig hasher count) .receive = { State.fresh with
        tree, lastProcessedBatch := 1, nextEnvelope := 2, unsent := some ⟨1, 1, some (count - 1)⟩, commands := [command] } := by
  have htxs : ((opsConfig hasher count).batches.blocksOf 1).flatMap l1Txs = (List.range count).map fun id => ⟨0, id, 0⟩ := by
    simp [opsConfig, Batches.blocksOf, Batches.blockRange, Batches.lastBlock, l1Txs_opsBlock]
  have hfirst : ((range count).map fun id => (⟨0, id, 0⟩ : L1PriorityEnvelope)).head?.map (·.priorityId) = some 0 := by
    obtain ⟨n, rfl⟩ : ∃ n, count = n + 1 := ⟨count - 1, by omega⟩
    simp [range_succ_eq_map]
  have hreceive : State.fresh.step (opsConfig hasher count) .receive =
      { State.fresh.prepare (opsConfig hasher count) 1 with nextEnvelope := 2 } := by
    rw [State.step_running rfl]
    rfl
  rw [hreceive]
  simp only [State.prepare, htxs, hfirst, length_map, length_range]
  cases proveOps (opsConfig hasher count) _ _ _ with
  | error e => exact .inl rfl
  | ok ops =>
    refine .inr ⟨pushBlocks State.fresh.tree ((opsConfig hasher count).batches.blocksOf 1),
      ⟨1, ops, ((opsConfig hasher count).batches.blocksOf 1).flatMap interopRoots⟩, ?_, ?_⟩
    · rw [pushBlocks, startIndex_pushHashes]
      rfl
    · simp only [Option.map_some, Nat.zero_add]
      rfl

theorem opsConfig_cache (hasher : Hasher B256) (hpos : 0 < count) (hqueue : s.queue = [⟨1, 1, some (count - 1)⟩])
    (hfinal : s.lastFinalizedExecutedBatch = 1) (hstart : s.tree.startIndex = 0) :
    s.cache (opsConfig hasher count) = match s.tree.trimStart hasher count with
      | .error e => s.fail e
      | .ok tree => { s with queue := [], tree, db := .cacheTree tree 1 } := by
  have hlast : (opsConfig hasher count).batches.lastBlock 1 = 1 := rfl
  have hid : count - 1 + 1 - 0 = count := by omega
  rw [State.cache, hqueue]
  dsimp only
  rw [hfinal, hlast, if_neg (by omega), hstart, if_neg (by omega), hid]
  rfl

/-- Once a batch with more operations than a tree can hold is saved, the manager does not start again. -/
theorem opsConfig_fails (hasher : Hasher B256) (hlow : 2 ^ maxTreeDepth < count)
    (hhigh : count ≤ 2 ^ (maxTreeDepth + 1)) :
    (savedThenRestarted.foldl (State.step (opsConfig hasher count)) .fresh).failed.isSome = true := by
  have hpos : 0 < count := (Nat.two_pow_pos _).trans hlow
  rw [savedThenRestarted, foldl_cons]
  rcases opsConfig_receive hasher hpos with hfailed | ⟨tree, command, hstart, hreceived⟩
  · exact State.foldl_failed hfailed _
  have hfinal : [Event.notify, .finality 1 1].foldl (State.step (opsConfig hasher count))
      (State.fresh.step (opsConfig hasher count) .receive) = { State.fresh with
        tree, lastProcessedBatch := 1, nextEnvelope := 2, queue := [⟨1, 1, some (count - 1)⟩], commands := [command]
        lastExecutedBatch := 1, lastFinalizedExecutedBatch := 1 } := by
    rw [hreceived, foldl_cons, State.step_running rfl, foldl_cons, State.step_running rfl]
    rfl
  rw [show [Event.notify, .finality 1 1, .cache, .restart 2] = [.notify, .finality 1 1] ++ [.cache, .restart 2] from rfl,
    foldl_append, hfinal, foldl_cons, State.step_running rfl, opsConfig_cache hasher hpos rfl rfl hstart]
  cases htrim : tree.trimStart hasher count with
  | error e => exact State.foldl_failed rfl _
  | ok trimmed =>
    have hindex : trimmed.startIndex = count := by rw [trimStart_startIndex htrim, hstart, Nat.zero_add]
    obtain ⟨e, he⟩ := initCached_too_deep trimmed.cache (hindex ▸ hlow) (hindex ▸ hhigh)
    rw [foldl_cons, State.step_running rfl]
    dsimp only
    rw [State.restart, if_neg (by dsimp only; omega)]
    simp only [PriorityTreeDB.cacheTree, PriorityTreeDB.initTree, he]
    rfl

/-- A manager that saved more operations than a tree can hold fails at the next start. -/
theorem too_many_ops : ∃ config : Config, config.batches.Contiguous ∧ (∀ batch ∈ config.batches, batch ≠ []) ∧
    ∃ events, ¬ Run.States (State.step config) (Equivalent config) .fresh events := by
  refine ⟨opsConfig ⟨fun x _ => x, 0⟩ (2 ^ 32 + 1), opsConfig_contiguous _ _, by simp [opsConfig], savedThenRestarted, ?_⟩
  intro h
  have hfailed := opsConfig_fails ⟨fun x _ => x, 0⟩ (show 2 ^ maxTreeDepth < 2 ^ 32 + 1 by decide) (by decide)
  rw [h.last.1] at hfailed
  cases hfailed

/-- Two batches of which the first one has operations in both of its blocks. -/
def sampleConfig : Config where
  hasher := ⟨fun x y => Fin.ofNat _ (3 * x.val + 5 * y.val + 1), 7⟩
  batches := [[[⟨.l1 ⟨11, 0, 0⟩, 0⟩, ⟨.l2 ⟨1, 0⟩, 0⟩], [⟨.l1 ⟨12, 1, 0⟩, 0⟩]], [[⟨.l1 ⟨13, 2, 0⟩, 0⟩]]]
  mainNode := true

/-- The first batch is saved, and the second one is proved after a restart. -/
def sampleEvents : List Event := [.receive, .notify, .finality 1 1, .cache, .restart 1, .receive, .receive]

theorem restarts_equivalent_sample :
    (sampleEvents.foldl (State.step sampleConfig) .fresh).commands.map (·.batchNumber) = [1, 2] ∧
      Run.States (State.step sampleConfig) (Equivalent sampleConfig) .fresh sampleEvents :=
  ⟨by decide +kernel, restarts_equivalent sampleConfig (by decide +kernel) (by decide) (by decide +kernel) sampleEvents⟩

end PriorityTree
