import ZksyncOsServer.Replay.Storage
import ZksyncOsServer.StateFullDiffs.Storage
import ZksyncOsServer.Types.BlockOutput

/-!
# Execution of one block

`sequencer/src/execution/execute_block_in_vm.rs`. At each turn of the main loop either the armed
deadline fires or the transaction source answers; which one is up to the run, so the loop reads a
list of events. The virtual machine is a deterministic oracle.
-/
namespace BlockExecutor

open Fallible
open MerkleTree (B256)
open ProverApi (ProtocolSemanticVersion)
open Replay (BlockContext BlockStartCursors ReplayRecord)
open StateFullDiffs (StorageWrite)
open Types (Bytes Primitives SystemTxType TxOutput ZkTransaction ZkTxType)

/-- `InvalidTransaction`; what the variants hold is only printed. -/
inductive InvalidTransaction where
  | invalidEncoding
  | invalidStructure
  | priorityFeeGreaterThanMaxFee
  | callerGasLimitMoreThanBlock
  | callerGasLimitMoreThanTxLimit
  | callGasCostMoreThanGasLimit
  | rejectCallerWithCode
  | overflowPaymentInTransaction
  | nonceOverflowInTransaction
  | nonceTooLow
  | malleableSignature
  | incorrectFrom
  | createInitCodeSizeLimit
  | invalidChainId
  | accessListNotSupported
  | pubdataPriceTooHigh
  | blockGasLimitTooHigh
  | upgradeTxNotFirst
  | revert
  | receivedInsufficientFees
  | invalidMagic
  | invalidReturndataLength
  | outOfGasDuringValidation
  | outOfNativeResourcesDuringValidation
  | nonceUsedAlready
  | nonceNotIncreased
  | paymasterReturnDataTooShort
  | paymasterInvalidMagic
  | paymasterContextInvalid
  | paymasterContextOffsetTooLong
  | authListIsEmpty
  | blobElementIsNotSupported
  | eip7623IntrinsicGasIsTooLow
  | nativeResourcesAreTooExpensive
  | otherUnrecoverable
  | eip7702HasNullDestination
  | blobListTooLong
  | emptyBlobList
  | filteredByValidator
  | callerGasLimitTooHigh
  | friProofTxNotSupported
  | friProofSidecarMissing
  | friProofVerificationFailed
  | friProofStatementHashMismatch
  | tooManyFriStatements
  | gasPriceLessThanBasefee
  | lackOfFundForMaxFee
  | nonceTooHigh
  | baseFeeGreaterThanMaxFee
  | blobBaseFeeGreaterThanMaxFeePerBlobGas
  | blockGasLimitReached
  | blockNativeLimitReached
  | blockPubdataLimitReached
  | blockL2ToL1LogsLimitReached
  | blockBlobGasLimitReached
  | otherLimitReached
  deriving DecidableEq

inductive SealReason where
  | txStreamExhausted
  | timeout
  | txCountLimit
  | gasLimit
  | gasVm
  | nativeCycles
  | pubdata
  | l2ToL1Logs
  | blobs
  | upgradeTx
  | slChainIdUpdateTx
  | limitedInteropOnlyBlock
  | other
  deriving DecidableEq

inductive TxRejectionMethod where
  | purge
  | skip
  | sealBlock (reason : SealReason)
  deriving DecidableEq

/-- `rejection_method`: what is neither skipped nor a reason to seal is purged. -/
def rejectionMethod : InvalidTransaction → TxRejectionMethod
  | .gasPriceLessThanBasefee => .skip
  | .lackOfFundForMaxFee => .skip
  | .nonceTooHigh => .skip
  | .baseFeeGreaterThanMaxFee => .skip
  | .blobBaseFeeGreaterThanMaxFeePerBlobGas => .skip
  | .blockGasLimitReached => .sealBlock .gasVm
  | .blockNativeLimitReached => .sealBlock .nativeCycles
  | .blockPubdataLimitReached => .sealBlock .pubdata
  | .blockL2ToL1LogsLimitReached => .sealBlock .l2ToL1Logs
  | .blockBlobGasLimitReached => .sealBlock .blobs
  | .otherLimitReached => .sealBlock .other
  | _ => .purge

inductive InvalidTxPolicy where
  | rejectAndContinue (markInSource : Bool)
  | abort
  deriving DecidableEq

inductive SealPolicy where
  | decide (duration limit : Nat)
  | untilExhausted (allowedToFinishEarly : Bool)
  deriving DecidableEq

namespace SealPolicy

/-- Whether a block may be sealed after an upgrade or a `SetSLChainId` transaction. -/
def mayFinishEarly : SealPolicy → Bool
  | decide _ _ => true
  | untilExhausted allowedToFinishEarly => allowedToFinishEarly

def deadlineDur : SealPolicy → Option Nat
  | decide duration _ => some duration
  | untilExhausted _ => none

/-- The policy that the loop runs under: an upgrade needs two transactions to fit in its block. -/
def withRoomForUpgrade (expectSlChainIdTxAfterUpgrade : Bool) : SealPolicy → SealPolicy
  | decide duration limit => decide duration (if expectSlChainIdTxAfterUpgrade && limit < 2 then 2 else limit)
  | untilExhausted allowedToFinishEarly => untilExhausted allowedToFinishEarly

end SealPolicy

/-- `PreparedBlockCommand` without its transaction source. -/
structure PreparedBlockCommand where
  blockContext : BlockContext
  sealPolicy : SealPolicy
  invalidTxPolicy : InvalidTxPolicy
  protocolVersion : ProtocolSemanticVersion
  expectedBlockOutputHash : Option B256
  previousBlockTimestamp : Nat
  forcePreimages : List (B256 × Bytes)
  expectSlChainIdTxAfterUpgrade : Bool
  startingCursors : BlockStartCursors
  interopRootsPerBlock : Nat
  strictSubpoolCleanup : Bool

/-- `BlockOutput` with what only the sequencer and the state read of it. -/
structure BlockOutput extends Types.BlockOutput where
  storageWrites : List StorageWrite
  publishedPreimages : List (B256 × Bytes)
  deriving DecidableEq

/-- The error of a `BlockDump`, with what its message prints. -/
inductive DumpError where
  | executeNextTx (message : String)
  | upgradeTxReverted (txHash : B256)
  | invalidTx (txType : ZkTxType) (error : InvalidTransaction) (txHash : B256)
  | invalidSystemTx (systemTxType : Option SystemTxType) (error : InvalidTransaction) (txHash : B256)
  | invalidL2Tx (error : InvalidTransaction) (txHash : B256)
  | streamExhausted (blockNumber : Nat)
  | sealedEarly (reason : SealReason) (blockNumber : Nat)
  | sealBlock (message : String)
  | outputHashMismatch (blockNumber : Nat) (expected actual : B256)
  deriving DecidableEq

structure BlockDump where
  ctx : BlockContext
  txs : List ZkTransaction
  error : DumpError
  deriving DecidableEq

inductive Failure where
  | dump (dump : BlockDump)
  | panic (message : String)
  deriving DecidableEq

/-- Addition of 64-bit numbers. -/
def checkedAdd (a b : Nat) : Except Failure Nat := do
  require (a + b < 2 ^ 64) (.panic "attempt to add with overflow")
  return a + b

/-- The virtual machine behind `VmWrapper`. A rejected transaction returns no state: it leaves the
one before it. A transaction that the validator of block production lets through has the same result
without the validator. -/
structure Vm (S : Type) where
  new : BlockContext → List (B256 × Bytes) → S
  executeNextTx : Bool → S → ZkTransaction → Except String (Except InvalidTransaction (TxOutput × S))
  sealBlock : S → Except String BlockOutput
  accepted_unvalidated : ∀ {state tx res state'}, executeNextTx true state tx = .ok (.ok (res, state')) →
    executeNextTx false state tx = .ok (.ok (res, state'))

variable {S : Type}

/-- What the main loop carries. The virtual machine keeps a result for each transaction that it was
given, rejected ones included. -/
structure Loop (S : Type) where
  state : S
  txResults : List (Option TxOutput)
  executedTxs : List ZkTransaction
  cumulativeGasUsed : Nat
  purgedTxs : List (B256 × InvalidTransaction)
  allProcessedTxs : List ZkTransaction
  deadlineArmed : Bool
  interopRootsCount : Nat
  /-- The calls of `mark_last_l2_tx_as_invalid`. -/
  markedTxs : List ZkTransaction

inductive Turn (S : Type) where
  | next (s : Loop S)
  | sealed (reason : SealReason) (s : Loop S)

/-- A branch of the loop's `select`. -/
inductive Event where
  | deadline
  | next (maybeTx : Option ZkTransaction)
  deriving DecidableEq

def shouldExcludeAndSeal (ctx : BlockContext) (cumulativeGasUsed interopRootsCount interopRootsPerBlock : Nat)
    (tx : ZkTransaction) : Except Failure (Option SealReason) := do
  let gas ← checkedAdd cumulativeGasUsed tx.gasLimit
  if ctx.gasLimit < gas then
    return some .gasLimit
  match tx.asSystemTxType with
  | some (.importInteropRoots rootsCount) => do
    let roots ← checkedAdd interopRootsCount rootsCount
    return if interopRootsPerBlock < roots then some .limitedInteropOnlyBlock else none
  | _ => return none

namespace Loop

/-- The state before the first turn. -/
def start (vm : Vm S) (command : PreparedBlockCommand) : Loop S where
  state := vm.new command.blockContext command.forcePreimages
  txResults := []
  executedTxs := []
  cumulativeGasUsed := 0
  purgedTxs := []
  allProcessedTxs := []
  deadlineArmed := false
  interopRootsCount := 0
  markedTxs := []

def fail {α : Type} (s : Loop S) (command : PreparedBlockCommand) (error : DumpError) : Except Failure α :=
  .error (.dump ⟨command.blockContext, s.allProcessedTxs, error⟩)

def executed (s : Loop S) (tx : ZkTransaction) (res : TxOutput) (state : S) (interopRootsCount cumulativeGasUsed : Nat) :
    Loop S :=
  { s with
    state
    txResults := s.txResults ++ [some res]
    executedTxs := s.executedTxs ++ [tx]
    cumulativeGasUsed
    interopRootsCount }

end Loop

variable (command : PreparedBlockCommand)

def sealReasonAfter (executedCount : Nat) (tx : ZkTransaction) : Option SealReason :=
  let policy := command.sealPolicy.withRoomForUpgrade command.expectSlChainIdTxAfterUpgrade
  if tx.txType = .upgrade && !command.expectSlChainIdTxAfterUpgrade && policy.mayFinishEarly then
    some .upgradeTx
  else if tx.isSetSLChainId && policy.mayFinishEarly then
    some .slChainIdUpdateTx
  else
    match policy with
    | .decide _ limit => if limit ≤ executedCount then some .txCountLimit else none
    | .untilExhausted _ => none

def addInteropRoots (interopRootsCount : Nat) (tx : ZkTransaction) : Except Failure Nat :=
  match tx.asSystemTxType with
  | some (.importInteropRoots rootsCount) => checkedAdd interopRootsCount rootsCount
  | _ => .ok interopRootsCount

variable (primitives : Primitives)

def onAccepted (command : PreparedBlockCommand) (s : Loop S) (tx : ZkTransaction)
    (res : TxOutput) (state : S) : Except Failure (Turn S) := do
  let interopRootsCount ← addInteropRoots s.interopRootsCount tx
  let cumulativeGasUsed ← checkedAdd s.cumulativeGasUsed res.gasUsed
  let s := s.executed tx res state interopRootsCount cumulativeGasUsed
  if tx.txType = .upgrade && !res.success then
    s.fail command (.upgradeTxReverted (tx.hash primitives))
  else
    match sealReasonAfter command s.executedTxs.length tx with
    | some reason => return .sealed reason s
    | none => return .next s

def onRejected (command : PreparedBlockCommand) (s : Loop S) (tx : ZkTransaction)
    (e : InvalidTransaction) : Except Failure (Turn S) :=
  match tx.txType, command.invalidTxPolicy with
  | .l1, _ | .upgrade, _ =>
    match rejectionMethod e with
    -- the empty block is sealed too, with an error in the log
    | .sealBlock reason => .ok (.sealed reason s)
    | _ => s.fail command (.invalidTx tx.txType e (tx.hash primitives))
  | .system, _ => s.fail command (.invalidSystemTx tx.asSystemTxType e (tx.hash primitives))
  | .l2, .rejectAndContinue markInSource =>
    let s := if markInSource then { s with markedTxs := s.markedTxs ++ [tx] } else s
    let purged := { s with purgedTxs := s.purgedTxs ++ [(tx.hash primitives, e)] }
    match rejectionMethod e, command.sealPolicy, s.executedTxs.isEmpty with
    | .purge, _, _ => .ok (.next purged)
    | .skip, _, _ => .ok (.next s)
    | .sealBlock _, .decide _ _, true => .ok (.next purged)
    | .sealBlock reason, _, _ => .ok (.sealed reason s)
  | .l2, .abort => s.fail command (.invalidL2Tx e (tx.hash primitives))

def Loop.attempt (s : Loop S) (command : PreparedBlockCommand) (tx : ZkTransaction) : Loop S :=
  { s with
    allProcessedTxs := s.allProcessedTxs ++ [tx]
    deadlineArmed := s.deadlineArmed || command.sealPolicy.deadlineDur.isSome }

/-- A transaction that is given to the virtual machine. -/
def executeTx (vm : Vm S) (validated : Bool) (command : PreparedBlockCommand) (s : Loop S)
    (tx : ZkTransaction) : Except Failure (Turn S) :=
  let s := s.attempt command tx
  match vm.executeNextTx validated s.state tx with
  | .error message => s.fail command (.executeNextTx message)
  | .ok (.ok (res, state)) => onAccepted primitives command s tx res state
  | .ok (.error e) => onRejected primitives command { s with txResults := s.txResults ++ [none] } tx e

/-- One turn; the branch of a deadline that is not armed is disabled. -/
def step (vm : Vm S) (validated : Bool) (command : PreparedBlockCommand) (s : Loop S) :
    Event → Except Failure (Turn S)
  | .deadline => if s.deadlineArmed then .ok (.sealed .timeout s) else .ok (.next s)
  | .next none => .ok (.sealed .txStreamExhausted s)
  | .next (some tx) => do
    match ← shouldExcludeAndSeal command.blockContext s.cumulativeGasUsed s.interopRootsCount
        command.interopRootsPerBlock tx with
    | some reason => return .sealed reason s
    | none => executeTx primitives vm validated command s tx

/-- The main loop, up to where the events end or a turn seals the block. -/
def run (primitives : Primitives) (vm : Vm S) (validated : Bool) (command : PreparedBlockCommand) :
    List Event → Loop S → Except Failure (Turn S)
  | [], s => .ok (.next s)
  | event :: events, s => do
    match ← step primitives vm validated command s event with
    | .next s => run primitives vm validated command events s
    | .sealed reason s => return .sealed reason s

def checkSealReason (reason : SealReason) (s : Loop S) : Except Failure Unit :=
  match command.sealPolicy with
  | .decide _ _ =>
    if reason = .txStreamExhausted then s.fail command (.streamExhausted command.blockContext.blockNumber) else .ok ()
  | .untilExhausted allowedToFinishEarly =>
    if !allowedToFinishEarly && reason ≠ .txStreamExhausted then
      s.fail command (.sealedEarly reason command.blockContext.blockNumber)
    else .ok ()

def hashBlockOutput (output : BlockOutput) : B256 :=
  primitives.keccak256 (Types.bytesOf output.header.hash ++
    (output.okResults.flatMap fun tx => (if tx.success then 1 else 0) :: Types.beBytes 8 tx.gasUsed) ++
    output.storageWrites.flatMap fun write => Types.bytesOf write.key ++ Types.bytesOf write.value)

def checkOutputHash (hash : B256) (s : Loop S) : Except Failure Unit :=
  match command.expectedBlockOutputHash with
  | some expected =>
    if expected ≠ hash then s.fail command (.outputHashMismatch command.blockContext.blockNumber expected hash)
    else .ok ()
  | none => .ok ()

def l1PriorityId? (tx : ZkTransaction) : Option Nat :=
  match tx.envelope with
  | .l1 l1Tx => some l1Tx.priorityId
  | _ => none

/-- The assertion of `ReplayRecord::new`. -/
def checkFirstL1Tx (transactions : List ZkTransaction) (startingCursors : BlockStartCursors) : Except Failure Unit :=
  match transactions.findSome? l1PriorityId? with
  | some id => require (id = startingCursors.l1PriorityId)
    (.panic "First L1 tx priority id must match next_l1_priority_id")
  | none => .ok ()

/-- What `execute_block_in_vm` returns. -/
structure Executed where
  output : BlockOutput
  record : ReplayRecord ZkTransaction
  purgedTxs : List (B256 × InvalidTransaction)
  strictSubpoolCleanup : Bool
  deriving DecidableEq

/-- The output of the virtual machine as it leaves the executor: with the forced preimages and without
the results of rejected transactions. -/
def finalOutput (s : Loop S) (output : BlockOutput) : BlockOutput :=
  { output with
    txResults := s.txResults.filter (·.isSome)
    publishedPreimages := output.publishedPreimages ++ command.forcePreimages }

/-- What follows the main loop. -/
def sealAndReturn (vm : Vm S) (nodeVersion : String) (command : PreparedBlockCommand)
    (reason : SealReason) (s : Loop S) : Except Failure Executed := do
  checkSealReason command reason s
  match vm.sealBlock s.state with
  | .error message => s.fail command (.sealBlock message)
  | .ok output => do
    let output := finalOutput command s output
    let hash := hashBlockOutput primitives output
    checkOutputHash command hash s
    checkFirstL1Tx s.executedTxs command.startingCursors
    return {
      output
      record := ⟨command.blockContext, s.executedTxs, command.previousBlockTimestamp, nodeVersion,
        command.protocolVersion, hash, command.forcePreimages, command.startingCursors⟩
      purgedTxs := s.purgedTxs
      strictSubpoolCleanup := command.strictSubpoolCleanup }

/-- `execute_block_in_vm`; nothing is returned while the loop waits. -/
def executeBlockInVm (vm : Vm S) (nodeVersion : String) (validated : Bool)
    (command : PreparedBlockCommand) (events : List Event) : Except Failure (Option Executed) := do
  match ← run primitives vm validated command events (.start vm command) with
  | .next _ => return none
  | .sealed reason s => some <$> sealAndReturn primitives vm nodeVersion command reason s

end BlockExecutor
