import ZksyncOsServer.Sequencer.ExecuteBlock

/-!
# Preparing block commands

`sequencer/src/execution/block_context_provider.rs`: what `Produce`, `Replay` and `Rebuild` become
before the executor sees them. A prepared command comes with the transactions that its source yields,
for `Produce` those that follow the stream of the pool.
-/
namespace BlockExecutor

open Fallible
open MerkleTree (B256)
open ProverApi (ProtocolSemanticVersion)
open Replay (BlockContext BlockHashes BlockStartCursors ReplayRecord)
open Types (Bytes SystemTxEnvelope ZkTransaction)

def versionLt (a b : ProtocolSemanticVersion) : Bool :=
  a.major < b.major || a.major = b.major && (a.minor < b.minor || a.minor = b.minor && a.patch < b.patch)

def executionVersion (version : ProtocolSemanticVersion) : Except String Nat :=
  match version.minor with
  | 29 => .ok 4
  | 30 => .ok 5
  | 31 => .ok 6
  | 32 => .ok 7
  | 33 => .ok 7
  | _ => .error "Cannot instantiate a block for unsupported execution version"

structure Config where
  l2ChainId : Nat
  l1ChainId : Nat
  gasLimit : Nat
  pubdataLimit : Nat
  feeCollectorAddress : Nat
  blockTime : Nat
  maxTransactionsInBlock : Nat
  interopRootsPerBlock : Nat

structure LastBlock where
  record : ReplayRecord ZkTransaction
  hash : B256
  nextCursors : BlockStartCursors

structure FeeParams where
  eip1559Basefee : Nat
  nativePrice : Nat
  pubdataPrice : Nat

structure UpgradeMetadata where
  timestamp : Nat
  protocolVersion : ProtocolSemanticVersion
  forcePreimages : List (B256 × Bytes)
  deriving DecidableEq

structure RebuildCommand where
  replayRecord : ReplayRecord ZkTransaction
  makeEmpty : Bool
  resetTimestamp : Bool

def bootloaderFormalAddress : Nat := 0x8001

/-- `From<SystemTxEnvelope> for ZkTransaction`. -/
def ofSystemTx (tx : SystemTxEnvelope) : ZkTransaction := ⟨.system tx, bootloaderFormalAddress⟩

def slChainIdTxAfterUpgrade : List ZkTransaction → Bool
  | first :: second :: txs =>
    first.txType = .upgrade && second.isSetSLChainId || slChainIdTxAfterUpgrade (second :: txs)
  | _ => false

/-- The protocol version of a produced block and its forced preimages; an upgrade that does not raise the
version is skipped. -/
def producedVersion (previous : ProtocolSemanticVersion) (timestamp : Nat) (upgradeMetadata : Option UpgradeMetadata) :
    Except String (ProtocolSemanticVersion × List (B256 × Bytes)) := do
  match upgradeMetadata.filter fun metadata => versionLt previous metadata.protocolVersion with
  | some metadata =>
    require (metadata.timestamp ≤ timestamp + 5) "upgrade transaction received too early"
    return (metadata.protocolVersion, metadata.forcePreimages)
  | none => return (previous, [])

/-- `produce`, once the pool offers transactions at the given time. -/
def produce (config : Config) (last : LastBlock) (feeParams : FeeParams) (timestamp : Nat)
    (upgradeMetadata : Option UpgradeMetadata) : Except String (PreparedBlockCommand × List ZkTransaction) := do
  let previous := last.record
  let (protocolVersion, forcePreimages) ← producedVersion previous.protocolVersion timestamp upgradeMetadata
  let version ← executionVersion protocolVersion
  let injected := decide (31 ≤ protocolVersion.minor ∧
    (previous.protocolVersion.minor < 31 ∨ previous.blockContext.blockNumber = 0))
  return ({
    blockContext := {
      chainId := config.l2ChainId
      blockNumber := previous.blockContext.blockNumber + 1
      blockHashes := previous.blockContext.blockHashes.push last.hash
      timestamp
      eip1559Basefee := feeParams.eip1559Basefee
      pubdataPrice := feeParams.pubdataPrice
      nativePrice := feeParams.nativePrice
      coinbase := config.feeCollectorAddress
      gasLimit := config.gasLimit
      pubdataLimit := config.pubdataLimit
      mixHash := 0
      executionVersion := version
      blobFee := 1 }
    sealPolicy := .decide config.blockTime config.maxTransactionsInBlock
    invalidTxPolicy := .rejectAndContinue true
    protocolVersion
    expectedBlockOutputHash := none
    previousBlockTimestamp := previous.blockContext.timestamp
    forcePreimages
    expectSlChainIdTxAfterUpgrade := injected
    startingCursors := last.nextCursors
    interopRootsPerBlock := config.interopRootsPerBlock
    strictSubpoolCleanup := true },
    if injected then [ofSystemTx (.setSLChainId config.l1ChainId (2 ^ 64 - 1))] else [])

def checkFollows (lastBlock : Option LastBlock) (record : ReplayRecord ZkTransaction) : Except String Unit := do
  let some last := lastBlock | return ()
  require (last.record.blockContext.blockNumber + 1 = record.blockContext.blockNumber) "blocks received our of order"
  require (last.record.blockContext.timestamp = record.previousBlockTimestamp)
    "inconsistent previous block timestamp"
  require (∀ i : Fin 255, last.record.blockContext.blockHashes i.succ = record.blockContext.blockHashes i.castSucc)
    "inconsistent previous block hashes"

def replayCommand (config : Config) (record : ReplayRecord ZkTransaction) : PreparedBlockCommand where
  blockContext := record.blockContext
  sealPolicy := .untilExhausted false
  invalidTxPolicy := .abort
  protocolVersion := record.protocolVersion
  expectedBlockOutputHash := some record.blockOutputHash
  previousBlockTimestamp := record.previousBlockTimestamp
  forcePreimages := record.forcePreimages
  expectSlChainIdTxAfterUpgrade := slChainIdTxAfterUpgrade record.transactions
  startingCursors := record.startingCursors
  interopRootsPerBlock := config.interopRootsPerBlock
  strictSubpoolCleanup := false

/-- `replay`; genesis is not executed. -/
def replay (config : Config) (lastBlock : Option LastBlock) (record : ReplayRecord ZkTransaction) :
    Except String (Option (PreparedBlockCommand × List ZkTransaction)) := do
  if record.blockContext.blockNumber = 0 then
    return none
  checkFollows lastBlock record
  return some (replayCommand config record, record.transactions)

/-- Whether the L1 transactions of a record that is rebuilt are dropped. -/
def filterL1Txs (txs : List ZkTransaction) (nextCursors : BlockStartCursors) : Bool :=
  match txs.findSome? l1PriorityId? with
  | some id => id ≠ nextCursors.l1PriorityId
  | none => false

def rebuildTxs (rebuild : RebuildCommand) (nextCursors : BlockStartCursors) : List ZkTransaction :=
  let txs := rebuild.replayRecord.transactions
  if rebuild.makeEmpty then []
  else if filterL1Txs txs nextCursors then txs.filter fun tx => tx.txType ≠ .l1
  else txs

/-- `rebuild`, at the given time. -/
def rebuild (config : Config) (lastBlock : Option LastBlock) (now : Nat) (rebuild : RebuildCommand) :
    Except String (PreparedBlockCommand × List ZkTransaction) := do
  let record := rebuild.replayRecord
  let context := record.blockContext
  let (previousBlockTimestamp, nextCursors, blockHashes) :=
    match lastBlock with
    | some last => (last.record.blockContext.timestamp, last.nextCursors,
      last.record.blockContext.blockHashes.push last.hash)
    | none => (record.previousBlockTimestamp, record.startingCursors, context.blockHashes)
  require (¬(rebuild.makeEmpty ∧ record.transactions.any fun tx => tx.txType = .upgrade))
    "Cannot make an empty block when there is an upgrade transaction in the replay record"
  let txs := rebuildTxs rebuild nextCursors
  return ({
    blockContext := { context with
      timestamp := if rebuild.resetTimestamp then now else context.timestamp
      chainId := config.l2ChainId
      coinbase := config.feeCollectorAddress
      blockHashes
      gasLimit := config.gasLimit
      pubdataLimit := config.pubdataLimit
      mixHash := 0 }
    sealPolicy := .untilExhausted true
    invalidTxPolicy := .rejectAndContinue false
    protocolVersion := record.protocolVersion
    expectedBlockOutputHash := none
    previousBlockTimestamp
    forcePreimages := record.forcePreimages
    expectSlChainIdTxAfterUpgrade := slChainIdTxAfterUpgrade txs
    startingCursors := nextCursors
    interopRootsPerBlock := config.interopRootsPerBlock
    strictSubpoolCleanup := false }, txs)

end BlockExecutor
