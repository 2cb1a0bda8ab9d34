import ZksyncOsServer.Lib.Run
import ZksyncOsServer.Replay.Storage
import ZksyncOsServer.Types.Transaction

/-!
# Batch sealing

`node/bin/src/batcher`: the loop of `Batcher::run` past the last committed batch, with
`create_batch` and the accumulator of `seal_criteria.rs`. At each turn of the loop either the
armed deadline fires or the next block is peeked at; which one is up to the run. Sealing a
batch may fail, which ends the loop, as a panic does.
-/
namespace Batcher

open Fallible List
open ProverApi (ProtocolSemanticVersion)
open Replay (ReplayRecord)
open Types (SystemTxType ZkTransaction)

/-- `ProverBlock`, the record and what the accumulator reads of the output; a transaction
result holds the number of its logs. -/
structure ProverBlock where
  record : ReplayRecord ZkTransaction
  computationalNativeUsed : Nat
  pubdataUsed : Nat
  txResults : List (Option Nat)

namespace ProverBlock

def blockNumber (block : ProverBlock) : Nat := block.record.blockContext.blockNumber

def protocolVersion (block : ProverBlock) : ProtocolSemanticVersion := block.record.protocolVersion

def executionVersion (block : ProverBlock) : Nat := block.record.blockContext.executionVersion

variable (block : ProverBlock)

def txCount : Nat := block.record.transactions.length

def logsCount : Nat := (block.txResults.map (·.getD 0)).sum

def interopRootsCount (block : ProverBlock) : Nat := (block.record.transactions.map (·.interopRootsCount)).sum

def hasUpgradeTx : Bool := block.record.transactions.any (·.txType = .upgrade)

def hasSetSLChainId : Bool := block.record.transactions.any (·.isSetSLChainId)

end ProverBlock

/-- The configured limits and those of the proving system. -/
structure Limits where
  txPerBatchLimit : Nat
  batchPubdataLimitBytes : Nat
  interopRootsPerBatchLimit : Nat
  maxNativeComputational : Nat
  maxNumberOfLogs : Nat

/-! ### Seal criteria -/

structure BatchInfoAccumulator where
  nativeCycles : Nat
  pubdataBytes : Nat
  l2ToL1LogsCount : Nat
  blockCount : Nat
  txCount : Nat
  hasUpgradeTx : Bool
  interopRootsCount : Nat
  shouldSealForGatewayMigration : Bool
  protocolVersions : Finset ProtocolSemanticVersion
  executionVersions : Finset Nat

def isPostV31 (version : ProtocolSemanticVersion) : Bool := 31 ≤ version.minor

/-- Addition of 64-bit numbers. -/
def checkedAdd (a b : Nat) : Except String Nat := do
  require (a + b < 2 ^ 64) "attempt to add with overflow"
  return a + b

namespace BatchInfoAccumulator

def new : BatchInfoAccumulator := ⟨0, 0, 0, 0, 0, false, 0, false, ∅, ∅⟩

def upgradeAlone (record : ReplayRecord ZkTransaction) : Bool :=
  record.transactions.length = 1 ||
    (record.transactions.length = 2 && isPostV31 record.protocolVersion &&
      match (record.transactions[1]?.bind ZkTransaction.asSystemTxType : Option SystemTxType) with
      | some (.setSLChainId _ migrationNumber) => migrationNumber = 2 ^ 64 - 1
      | _ => false)

def add (this : BatchInfoAccumulator) (block : ProverBlock) : Except String BatchInfoAccumulator := do
  let nativeCycles ← checkedAdd this.nativeCycles block.computationalNativeUsed
  let pubdataBytes ← checkedAdd this.pubdataBytes block.pubdataUsed
  let l2ToL1LogsCount ← checkedAdd this.l2ToL1LogsCount block.logsCount
  let blockCount ← checkedAdd this.blockCount 1
  let txCount ← checkedAdd this.txCount block.txCount
  let interopRootsCount ← checkedAdd this.interopRootsCount block.interopRootsCount
  let firstUpgrade := !this.hasUpgradeTx && block.hasUpgradeTx
  require (firstUpgrade = true → upgradeAlone block.record = true) "upgrade tx must be the only tx in the block"
  return {
    nativeCycles, pubdataBytes, l2ToL1LogsCount, blockCount, txCount, interopRootsCount
    hasUpgradeTx := this.hasUpgradeTx || block.hasUpgradeTx
    shouldSealForGatewayMigration := this.shouldSealForGatewayMigration || (block.hasSetSLChainId && 1 < blockCount)
    protocolVersions := insert block.protocolVersion this.protocolVersions
    executionVersions := insert block.executionVersion this.executionVersions }

def shouldSeal (limits : Limits) (this : BatchInfoAccumulator) : Bool :=
  this.hasUpgradeTx && 1 < this.blockCount ||
  1 < this.protocolVersions.card ||
  limits.txPerBatchLimit < this.txCount ||
  limits.maxNativeComputational < this.nativeCycles ||
  limits.batchPubdataLimitBytes < this.pubdataBytes ||
  limits.maxNumberOfLogs < this.l2ToL1LogsCount ||
  limits.interopRootsPerBatchLimit < this.interopRootsCount ||
  this.shouldSealForGatewayMigration ||
  1 < this.executionVersions.card

end BatchInfoAccumulator

/-! ### The loop -/

/-- `BatchEnvelope`, the numbers, and the blocks that were sealed. -/
structure Batch where
  batchNumber : Nat
  firstBlockNumber : Nat
  lastBlockNumber : Nat
  blocks : List ProverBlock

structure State where
  input : List ProverBlock
  prevBatchNumber : Nat
  blocks : List ProverBlock
  accumulator : BatchInfoAccumulator
  firstBlockTimestamp : Option Nat
  deadline : Option Nat
  batches : List Batch
  failed : Option String

inductive Event where
  | timeout
  | peek

structure Config where
  limits : Limits
  lastPersistedBlock : Nat
  batchTimeout : Nat
  /-- The rest of `seal_batch`: the prover input and the data to commit. -/
  buildBatch : List ProverBlock → Nat → Except String Unit

variable (config : Config)

def sealBatch (blocks : List ProverBlock) (batchNumber : Nat) : Except String Batch := do
  let first ← ofOption "called unwrap on a None value" blocks.head?
  let last ← ofOption "called unwrap on a None value" blocks.getLast?
  config.buildBatch blocks batchNumber
  require (∀ block ∈ blocks.tail, block.protocolVersion = first.protocolVersion) "mismatched protocol versions in batch"
  return ⟨batchNumber, first.blockNumber, last.blockNumber, blocks⟩

namespace State

def start (stream : List ProverBlock) (prevBatchNumber : Nat) : State where
  input := stream
  prevBatchNumber
  blocks := []
  accumulator := .new
  firstBlockTimestamp := none
  deadline := none
  batches := []
  failed := none

/-- The end of `create_batch`, and the next call of it. -/
def sealPending (s : State) : State :=
  match sealBatch config s.blocks (s.prevBatchNumber + 1) with
  | .error e => { s with failed := some e }
  | .ok batch =>
    { start s.input batch.batchNumber with batches := s.batches ++ [batch] }

def pushBlock (s : State) (block : ProverBlock) (accumulator : BatchInfoAccumulator) : State :=
  let firstBlockTimestamp := s.firstBlockTimestamp.getD block.record.blockContext.timestamp
  { s with
    input := s.input.tail
    blocks := s.blocks ++ [block]
    accumulator
    firstBlockTimestamp := some firstBlockTimestamp
    deadline :=
      if s.deadline.isNone ∧ config.lastPersistedBlock ≤ block.blockNumber then
        some (min (firstBlockTimestamp + config.batchTimeout) (2 ^ 64 - 1))
      else s.deadline }

def peek (s : State) : State :=
  match s.input with
  | [] => s
  | block :: _ =>
    match s.accumulator.add block with
    | .error e => { s with failed := some e }
    | .ok accumulator =>
      if accumulator.shouldSeal config.limits then
        if s.blocks = [] then (s.pushBlock config block accumulator).sealPending config else s.sealPending config
      else s.pushBlock config block accumulator

def timeout (s : State) : State := if s.deadline.isSome then s.sealPending config else s

def step (s : State) (event : Event) : State :=
  if s.failed.isSome then s
  else
    match event with
    | .timeout => s.timeout config
    | .peek => s.peek config

end State

/-! ### The rules -/

/-- What holds for the blocks of a batch. -/
structure Rules (limits : Limits) (blocks : List ProverBlock) : Prop where
  nonempty : blocks ≠ []
  protocolVersion : ∀ a ∈ blocks, ∀ b ∈ blocks, a.protocolVersion = b.protocolVersion
  executionVersion : ∀ a ∈ blocks, ∀ b ∈ blocks, a.executionVersion = b.executionVersion
  upgrade : ∀ block ∈ blocks, block.hasUpgradeTx = true → blocks = [block]
  setSLChainId : ∀ block ∈ blocks.tail, block.hasSetSLChainId = false
  limits : blocks.length ≠ 1 →
    (blocks.map (·.txCount)).sum ≤ limits.txPerBatchLimit ∧
    (blocks.map (·.computationalNativeUsed)).sum ≤ limits.maxNativeComputational ∧
    (blocks.map (·.pubdataUsed)).sum ≤ limits.batchPubdataLimitBytes ∧
    (blocks.map (·.logsCount)).sum ≤ limits.maxNumberOfLogs ∧
    (blocks.map (·.interopRootsCount)).sum ≤ limits.interopRootsPerBatchLimit

/-- The block numbers of a batch. -/
def Batch.range (batch : Batch) : List Nat :=
  List.range' batch.firstBlockNumber (batch.lastBlockNumber + 1 - batch.firstBlockNumber)

/-- The batches so far are numbered one after the other, cover the consumed blocks in consecutive ranges, and
keep the rules. -/
structure Sound (stream : List ProverBlock) (prevBatchNumber : Nat) (s : State) : Prop where
  numbers : s.batches.map (·.batchNumber) = List.range' (prevBatchNumber + 1) s.batches.length
  partition : s.batches.flatMap (·.blocks) ++ s.blocks ++ s.input = stream
  ranges : ∀ batch ∈ s.batches, batch.range = batch.blocks.map (·.blockNumber)
  rules : ∀ batch ∈ s.batches, Rules config.limits batch.blocks

/-! ### The accumulator -/

structure Accumulates (blocks : List ProverBlock) (acc : BatchInfoAccumulator) : Prop where
  nativeCycles : acc.nativeCycles = (blocks.map (·.computationalNativeUsed)).sum
  pubdataBytes : acc.pubdataBytes = (blocks.map (·.pubdataUsed)).sum
  l2ToL1LogsCount : acc.l2ToL1LogsCount = (blocks.map (·.logsCount)).sum
  blockCount : acc.blockCount = blocks.length
  txCount : acc.txCount = (blocks.map (·.txCount)).sum
  interopRootsCount : acc.interopRootsCount = (blocks.map (·.interopRootsCount)).sum
  hasUpgradeTx : acc.hasUpgradeTx = blocks.any (·.hasUpgradeTx)
  gatewayMigration : acc.shouldSealForGatewayMigration = blocks.tail.any (·.hasSetSLChainId)
  protocolVersions : acc.protocolVersions = (blocks.map (·.protocolVersion)).toFinset
  executionVersions : acc.executionVersions = (blocks.map (·.executionVersion)).toFinset

theorem accumulates_new : Accumulates [] .new := by
  constructor <;> rfl

theorem checkedAdd_eq_ok {a b c : Nat} (h : checkedAdd a b = .ok c) : c = a + b := by
  obtain ⟨_, -, h⟩ := bind_eq_ok.mp h
  exact (pure_eq_ok.mp h).symm

theorem Accumulates.add {blocks : List ProverBlock} {acc acc' : BatchInfoAccumulator} {block : ProverBlock}
    (h : Accumulates blocks acc) (hadd : acc.add block = .ok acc') : Accumulates (blocks ++ [block]) acc' := by
  simp only [BatchInfoAccumulator.add, bind_eq_ok] at hadd
  obtain ⟨native, hnative, pubdata, hpubdata, logs, hlogs, count, hcount, txs, htxs, roots, hroots, -, -, hadd⟩ := hadd
  obtain rfl := checkedAdd_eq_ok hnative
  obtain rfl := checkedAdd_eq_ok hpubdata
  obtain rfl := checkedAdd_eq_ok hlogs
  obtain rfl := checkedAdd_eq_ok hcount
  obtain rfl := checkedAdd_eq_ok htxs
  obtain rfl := checkedAdd_eq_ok hroots
  rw [← pure_eq_ok.mp hadd]
  constructor
  case nativeCycles => simp [h.nativeCycles]
  case pubdataBytes => simp [h.pubdataBytes]
  case l2ToL1LogsCount => simp [h.l2ToL1LogsCount]
  case blockCount => simp [h.blockCount]
  case txCount => simp [h.txCount]
  case interopRootsCount => simp [h.interopRootsCount]
  case hasUpgradeTx => simp [h.hasUpgradeTx]
  case gatewayMigration =>
    rw [h.gatewayMigration, h.blockCount]
    cases blocks <;> simp
  case protocolVersions => simp [h.protocolVersions, toFinset_append]
  case executionVersions => simp [h.executionVersions, toFinset_append]

theorem eq_of_card_le_one {α β : Type} [DecidableEq β] {l : List α} {f : α → β} (h : (l.map f).toFinset.card ≤ 1)
    {a b : α} (ha : a ∈ l) (hb : b ∈ l) : f a = f b :=
  Finset.card_le_one.mp h _ (by simpa using ⟨a, ha, rfl⟩) _ (by simpa using ⟨b, hb, rfl⟩)

/-- A batch of one block, and a batch that does not have to be sealed, keep the rules. -/
theorem Accumulates.rules {limits : Limits} {blocks : List ProverBlock} {acc : BatchInfoAccumulator}
    (h : Accumulates blocks acc) (hne : blocks ≠ []) (hseal : blocks.length = 1 ∨ acc.shouldSeal limits = false) :
    Rules limits blocks := by
  rcases hseal with hone | hopen
  · obtain ⟨block, rfl⟩ := length_eq_one_iff.mp hone
    constructor
    case upgrade =>
      intro b hb _
      rw [mem_singleton.mp hb]
    all_goals simp
  · simp only [BatchInfoAccumulator.shouldSeal, Bool.or_eq_false_iff, Bool.and_eq_false_iff, decide_eq_false_iff_not,
      Nat.not_lt] at hopen
    obtain ⟨⟨⟨⟨⟨⟨⟨⟨hupgrade, hprotocol⟩, htxs⟩, hnative⟩, hpubdata⟩, hlogs⟩, hroots⟩, hgateway⟩, hexecution⟩ := hopen
    rw [h.protocolVersions] at hprotocol
    rw [h.executionVersions] at hexecution
    constructor
    case nonempty => exact hne
    case protocolVersion => exact fun a ha b hb => eq_of_card_le_one hprotocol ha hb
    case executionVersion => exact fun a ha b hb => eq_of_card_le_one hexecution ha hb
    case upgrade =>
      intro block hmem hhas
      rw [h.hasUpgradeTx, h.blockCount] at hupgrade
      have hlength : blocks.length ≤ 1 := hupgrade.resolve_left fun hnone => by
        rw [any_eq_false] at hnone
        exact hnone block hmem hhas
      obtain ⟨b, rfl⟩ := length_eq_one_iff.mp
        (Nat.le_antisymm hlength (length_pos_iff.mpr hne))
      rw [mem_singleton.mp hmem]
    case setSLChainId =>
      intro block hmem
      rw [h.gatewayMigration, any_eq_false] at hgateway
      simpa using hgateway block hmem
    case limits =>
      intro _
      rw [← h.txCount, ← h.nativeCycles, ← h.pubdataBytes, ← h.l2ToL1LogsCount, ← h.interopRootsCount]
      exact ⟨htxs, hnative, hpubdata, hlogs, hroots⟩

/-! ### Steps -/

section Steps
variable {config} {stream : List ProverBlock} {first prevBatchNumber : Nat} {s : State}

structure Pending (config : Config) (prevBatchNumber : Nat) (s : State) : Prop where
  prevBatch : s.prevBatchNumber = prevBatchNumber + s.batches.length
  accumulates : Accumulates s.blocks s.accumulator
  fits : s.blocks ≠ [] → s.accumulator.shouldSeal config.limits = false
  deadline : s.deadline.isSome → s.blocks ≠ []

/-- The batches, and the pending one unless the loop has ended. -/
structure Inv (config : Config) (stream : List ProverBlock) (prevBatchNumber : Nat) (s : State) : Prop where
  sound : Sound config stream prevBatchNumber s
  pending : s.failed = none → Pending config prevBatchNumber s

theorem sealBatch_eq_ok {blocks : List ProverBlock} {batchNumber : Nat} {batch : Batch}
    (h : sealBatch config blocks batchNumber = .ok batch) :
    ∃ first last, blocks.head? = some first ∧ blocks.getLast? = some last ∧
      batch = ⟨batchNumber, first.blockNumber, last.blockNumber, blocks⟩ := by
  simp only [sealBatch, bind_eq_ok, ofOption_eq_ok] at h
  obtain ⟨first, hfirst, last, hlast, -, -, -, -, h⟩ := h
  exact ⟨first, last, hfirst, hlast, (pure_eq_ok.mp h).symm⟩

theorem range_eq {blocks : List ProverBlock} {n : Nat} (hnumbers : blocks.map (·.blockNumber) = range' n blocks.length)
    {first last : ProverBlock} (hfirst : blocks.head? = some first) (hlast : blocks.getLast? = some last) :
    range' first.blockNumber (last.blockNumber + 1 - first.blockNumber) = blocks.map (·.blockNumber) := by
  have hpos : 0 < blocks.length := length_pos_iff.mpr (by rintro rfl; cases hfirst)
  have hn : first.blockNumber = n := by
    have h := congrArg head? hnumbers
    rw [head?_map, hfirst, head?_range'] at h
    simpa [hpos.ne'] using h
  have hm : last.blockNumber = n + blocks.length - 1 := by
    have h := congrArg getLast? hnumbers
    rw [getLast?_map, hlast, getLast?_range'] at h
    simpa [hpos.ne'] using h
  rw [hnumbers, hn, hm]
  congr 1
  omega

theorem Sound.numbers_pending (h : Sound config stream prevBatchNumber s)
    (hstream : stream.map (·.blockNumber) = range' first stream.length) :
    ∃ n, s.blocks.map (·.blockNumber) = range' n s.blocks.length := by
  have hnumbers := hstream
  rw [← h.partition, append_assoc, map_append, map_append, length_append, length_append,
    ← range'_append, ← range'_append] at hnumbers
  have hrest := append_inj_right hnumbers (by simp)
  exact ⟨_, append_inj_left hrest (by simp)⟩

theorem Sound.sealPending (h : Sound config stream prevBatchNumber s)
    (hstream : stream.map (·.blockNumber) = range' first stream.length)
    (hprev : s.prevBatchNumber = prevBatchNumber + s.batches.length) (hrules : Rules config.limits s.blocks) :
    Inv config stream prevBatchNumber (s.sealPending config) := by
  rw [State.sealPending]
  split
  · exact ⟨{ h with }, fun hnone => by cases hnone⟩
  next batch hbatch =>
    obtain ⟨head, last, hhead, hlast, rfl⟩ := sealBatch_eq_ok hbatch
    obtain ⟨n, hpending⟩ := h.numbers_pending hstream
    refine ⟨⟨?_, ?_, ?_, ?_⟩, fun _ => ⟨?_, accumulates_new, fun hne => absurd rfl hne, by simp [State.start]⟩⟩
    · simp only [map_append, h.numbers, hprev, length_append, map_singleton, length_singleton,
        range'_concat, Nat.one_mul]
      rw [Nat.add_right_comm]
    · simp only [State.start, flatMap_append, flatMap_singleton, append_nil]
      exact h.partition
    · intro batch hmem
      rcases mem_append.mp hmem with hmem | hmem
      · exact h.ranges batch hmem
      · rw [mem_singleton.mp hmem]
        exact range_eq hpending hhead hlast
    · intro batch hmem
      rcases mem_append.mp hmem with hmem | hmem
      · exact h.rules batch hmem
      · rw [mem_singleton.mp hmem]
        exact hrules
    · simp only [State.start, hprev, length_append, length_singleton]
      omega

theorem Sound.pushBlock (h : Sound config stream prevBatchNumber s) {block : ProverBlock} {input : List ProverBlock}
    (hinput : s.input = block :: input) (accumulator : BatchInfoAccumulator) :
    Sound config stream prevBatchNumber (s.pushBlock config block accumulator) where
  numbers := h.numbers
  partition := by
    have hpartition := h.partition
    rw [hinput] at hpartition
    simpa [State.pushBlock, hinput] using hpartition
  ranges := h.ranges
  rules := h.rules

theorem Inv.peek (hstream : stream.map (·.blockNumber) = range' first stream.length)
    (h : Sound config stream prevBatchNumber s) (hp : Pending config prevBatchNumber s) :
    Inv config stream prevBatchNumber (s.peek config) := by
  rw [State.peek]
  split
  · exact ⟨h, fun _ => hp⟩
  next block input hinput =>
    split
    · exact ⟨{ h with }, fun hnone => by cases hnone⟩
    next accumulator hadd =>
      have hpush := h.pushBlock hinput accumulator
      have hacc := hp.accumulates.add hadd
      split
      · split
        next hempty =>
          -- the block alone exceeds a limit
          have hone : (s.blocks ++ [block]).length = 1 := by simp [hempty]
          exact hpush.sealPending hstream hp.prevBatch (hacc.rules (by simp) (.inl hone))
        next hne =>
          exact h.sealPending hstream hp.prevBatch (hp.accumulates.rules hne (.inr (hp.fits hne)))
      next hfits =>
        exact ⟨hpush, fun _ => ⟨hp.prevBatch, hacc, fun _ => Bool.eq_false_of_not_eq_true hfits, fun _ => by simp [State.pushBlock]⟩⟩

theorem Inv.timeout (hstream : stream.map (·.blockNumber) = range' first stream.length)
    (h : Sound config stream prevBatchNumber s) (hp : Pending config prevBatchNumber s) :
    Inv config stream prevBatchNumber (s.timeout config) := by
  rw [State.timeout]
  split
  next harmed =>
    have hne := hp.deadline harmed
    exact h.sealPending hstream hp.prevBatch (hp.accumulates.rules hne (.inr (hp.fits hne)))
  · exact ⟨h, fun _ => hp⟩

theorem Inv.step (hstream : stream.map (·.blockNumber) = range' first stream.length) (s : State) (event : Event)
    (h : Inv config stream prevBatchNumber s) : Inv config stream prevBatchNumber (s.step config event) := by
  unfold State.step
  split
  · exact h
  next hrunning =>
    have hp := h.pending (by simpa using hrunning)
    cases event with
    | timeout => exact timeout hstream h.sound hp
    | peek => exact peek hstream h.sound hp

end Steps

/-- For every stream of consecutive blocks and every choice of when the deadline fires. -/
theorem batches_keep_rules (config : Config) (stream : List ProverBlock) (first prevBatchNumber : Nat)
    (hstream : stream.map (·.blockNumber) = List.range' first stream.length) (events : List Event) :
    Run.States (State.step config) (Sound config stream prevBatchNumber) (.start stream prevBatchNumber) events := by
  have hstart : Inv config stream prevBatchNumber (.start stream prevBatchNumber) :=
    ⟨⟨rfl, rfl, by simp [State.start], by simp [State.start]⟩,
      fun _ => ⟨rfl, accumulates_new, fun hne => absurd rfl hne, by simp [State.start]⟩⟩
  exact (Run.states_of_invariant (Inv.step hstream) hstart).imp fun s h => h.sound

def sampleBlock (number : Nat) (transactions : List ZkTransaction) (version : ProtocolSemanticVersion) : ProverBlock where
  record := {
    blockContext := ⟨270, number, .empty, 1000 + number, 0, 0, 0, 0, 0, 0, 0, 0, 0⟩
    transactions
    previousBlockTimestamp := 0
    nodeVersion := "1.0.0"
    protocolVersion := version
    blockOutputHash := 0
    forcePreimages := []
    startingCursors := ⟨0, 0, 0, 0⟩ }
  computationalNativeUsed := 10
  pubdataUsed := 100
  txResults := transactions.map fun _ => some 1

/-- Two L2 blocks, the block of an upgrade, and two more. -/
def sampleStream : List ProverBlock :=
  let l2 : ZkTransaction := ⟨.l2 ⟨1, 21000⟩, 7⟩
  [sampleBlock 5 [l2, l2] ⟨0, 30, 2⟩, sampleBlock 6 [l2] ⟨0, 30, 2⟩,
    sampleBlock 7 [⟨.upgrade ⟨2, 1000⟩, 1⟩, ⟨.system (.setSLChainId 1 (2 ^ 64 - 1)), 1⟩] ⟨0, 31, 0⟩,
    sampleBlock 8 [l2, l2, l2, l2] ⟨0, 31, 0⟩, sampleBlock 9 [l2] ⟨0, 31, 0⟩]

def sampleConfig : Config := ⟨⟨3, 1000, 10, 1000, 100⟩, 9, 60, fun _ _ => .ok ()⟩

def sampleEvents : List Event := List.replicate 7 .peek ++ [.timeout]

theorem batches_keep_rules_sample :
    ((sampleEvents.foldl (State.step sampleConfig) (.start sampleStream 3)).batches.map (·.blocks.length)) =
        [2, 1, 1, 1] ∧
      Run.States (State.step sampleConfig) (Sound sampleConfig sampleStream 3) (.start sampleStream 3) sampleEvents :=
  ⟨by decide +kernel, batches_keep_rules sampleConfig sampleStream 5 3 (by decide +kernel) sampleEvents⟩

end Batcher
