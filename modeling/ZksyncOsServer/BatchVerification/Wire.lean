import ZksyncOsServer.L1Watcher.Contract

/-!
# Verification requests on the wire

`batch_verification/src/verify_batch_wire.rs`: how the message of a peer becomes a verification
request. The decoders of the contract interface are parameters; numbers of 256 bits are converted to
64 bits by a conversion that panics, and so is a commitment scheme that the ABI does not know.
-/
namespace BatchVerification

open BatchTypes Fallible
open L1Watcher (StoredBatchInfo)
open MerkleTree (B256)
open Types (Bytes)

/-- What ends a component: a panic of its task, or an error that its `run` returns. -/
inductive Stop where
  | panic (message : String)
  | error (message : String)
  deriving DecidableEq

/-- A computation of other modules, whose errors are panics. -/
def panicking {α : Type} : Except String α → Except Stop α
  | .ok a => .ok a
  | .error message => .error (.panic message)

/-- A result whose error is returned. -/
def failing {α : Type} : Except String α → Except Stop α
  | .ok a => .ok a
  | .error message => .error (.error message)

section

variable {α : Type} {x : Except String α} {a : α}

@[simp] theorem panicking_eq_ok : panicking x = .ok a ↔ x = .ok a := by
  cases x <;> simp [panicking]

@[simp] theorem failing_eq_ok : failing x = .ok a ↔ x = .ok a := by
  cases x <;> simp [failing]

end

/-! ### The contract interface -/

/-- `IExecutorV29::CommitBatchInfoZKsyncOS`, the fields that are read. -/
structure CommitBatchInfoV29 where
  batchNumber : Nat
  newStateCommitment : B256
  numberOfLayer1Txs : B256
  priorityOperationsHash : B256
  dependencyRootsRollingHash : B256
  l2LogsTreeRoot : B256
  daCommitment : B256
  firstBlockTimestamp : Nat
  lastBlockTimestamp : Nat
  chainId : B256
  operatorDAInput : Bytes
  deriving DecidableEq

/-- `IExecutorV30::CommitBatchInfoZKsyncOS`; the scheme may be `__Invalid`. -/
structure CommitBatchInfoV30 extends CommitBatchInfoV29 where
  daCommitmentScheme : Option DACommitmentScheme
  firstBlockNumber : Nat
  lastBlockNumber : Nat
  deriving DecidableEq

/-- `IExecutor::CommitBatchInfoZKsyncOS`. -/
structure CommitBatchInfoV31 extends CommitBatchInfoV30 where
  numberOfLayer2Txs : B256
  slChainId : B256
  deriving DecidableEq

/-- `IExecutor::StoredBatchInfo`, the fields that are read. -/
structure SolStoredBatchInfo where
  batchNumber : Nat
  batchHash : B256
  numberOfLayer1Txs : B256
  priorityOperationsHash : B256
  dependencyRootsRollingHash : B256
  l2LogsTreeRoot : B256
  commitment : B256
  deriving DecidableEq

structure AbiDecoders where
  commitV29 : Bytes → Except String CommitBatchInfoV29
  commitV30 : Bytes → Except String CommitBatchInfoV30
  commitV31 : Bytes → Except String CommitBatchInfoV31
  stored : Bytes → Except String SolStoredBatchInfo

def toU64 (value : B256) : Except Stop Nat :=
  if value.val < 2 ^ 64 then .ok value.val else .error (.panic "Uint conversion error")

/-- `From<L2DACommitmentScheme> for DACommitmentScheme`. -/
def toScheme (scheme : Option DACommitmentScheme) : Except Stop DACommitmentScheme :=
  ofOption (.panic "Invalid IExecutor::L2DACommitmentScheme from l1") scheme

@[simp] theorem toU64_eq_ok {value : B256} {n : Nat} : toU64 value = .ok n ↔ value.val < 2 ^ 64 ∧ value.val = n := by
  rw [toU64]
  split <;> simp_all

def SolStoredBatchInfo.into (value : SolStoredBatchInfo) : Except Stop StoredBatchInfo := do
  let numberOfLayer1Txs ← toU64 value.numberOfLayer1Txs
  return {
    batchNumber := value.batchNumber
    stateCommitment := value.batchHash
    numberOfLayer1Txs
    priorityOperationsHash := value.priorityOperationsHash
    dependencyRootsRollingHash := value.dependencyRootsRollingHash
    l2ToL1LogsRootHash := value.l2LogsTreeRoot
    commitment := value.commitment }

/-- The arm of `decode_commit_data` for version 29. -/
def CommitBatchInfoV29.into (value : CommitBatchInfoV29) (firstBlockNumber lastBlockNumber : Nat) :
    Except Stop CommitBatchInfo := do
  let numberOfLayer1Txs ← toU64 value.numberOfLayer1Txs
  let chainId ← toU64 value.chainId
  return {
    batchNumber := value.batchNumber
    newStateCommitment := value.newStateCommitment
    numberOfLayer1Txs
    numberOfLayer2Txs := 0
    priorityOperationsHash := value.priorityOperationsHash
    dependencyRootsRollingHash := value.dependencyRootsRollingHash
    l2ToL1LogsRootHash := value.l2LogsTreeRoot
    l2DaCommitmentScheme := .blobsAndPubdataKeccak256
    daCommitment := value.daCommitment
    firstBlockTimestamp := value.firstBlockTimestamp
    firstBlockNumber := some firstBlockNumber
    lastBlockTimestamp := value.lastBlockTimestamp
    lastBlockNumber := some lastBlockNumber
    chainId
    operatorDaInput := value.operatorDAInput
    slChainId := 0 }

/-- `From<IExecutorV30::CommitBatchInfoZKsyncOS> for CommitBatchInfo`: the fields of version 29, the
scheme and the numbers of the blocks. -/
def CommitBatchInfoV30.into (value : CommitBatchInfoV30) : Except Stop CommitBatchInfo := do
  let info ← value.toCommitBatchInfoV29.into value.firstBlockNumber value.lastBlockNumber
  let l2DaCommitmentScheme ← toScheme value.daCommitmentScheme
  return { info with l2DaCommitmentScheme }

def CommitBatchInfoV31.into (value : CommitBatchInfoV31) : Except Stop CommitBatchInfo := do
  let info ← value.toCommitBatchInfoV30.into
  let numberOfLayer2Txs ← toU64 value.numberOfLayer2Txs
  let slChainId ← toU64 value.slChainId
  return { info with numberOfLayer2Txs, slChainId }

/-! ### Requests -/

structure VerifyBatch where
  requestId : Nat
  batchNumber : Nat
  firstBlockNumber : Nat
  lastBlockNumber : Nat
  pubdataMode : Nat
  commitData : Bytes
  prevCommitData : Bytes
  executionProtocolVersion : Nat
  deriving DecidableEq

structure VerificationRequest where
  executionProtocolVersion : Nat
  batchNumber : Nat
  firstBlockNumber : Nat
  lastBlockNumber : Nat
  pubdataMode : PubdataMode
  requestId : Nat
  commitData : CommitBatchInfo
  prevCommitData : StoredBatchInfo

def pubdataModeFromU8 : Nat → Option PubdataMode
  | 0 => some .blobs
  | 1 => some .calldata
  | 2 => some .validium
  | _ => none

variable (decoders : AbiDecoders)

def decodeCommitData (commitData : Bytes) (executionProtocolVersion firstBlockNumber lastBlockNumber : Nat) :
    Except Stop CommitBatchInfo :=
  match executionProtocolVersion with
  | 29 => do
    let decoded ← failing (decoders.commitV29 commitData)
    decoded.into firstBlockNumber lastBlockNumber
  | 30 => do
    let decoded ← failing (decoders.commitV30 commitData)
    decoded.into
  | 31 | 32 => do
    let decoded ← failing (decoders.commitV31 commitData)
    decoded.into
  | _ => .error (.error "Unsupported execution protocol version")

def VerificationRequest.tryFrom (request : VerifyBatch) : Except Stop VerificationRequest := do
  let commitData ← decodeCommitData decoders request.commitData request.executionProtocolVersion request.firstBlockNumber
    request.lastBlockNumber
  let prev ← failing (decoders.stored request.prevCommitData)
  let prevCommitData ← prev.into
  let pubdataMode ← ofOption (.error "Unsupported pubdata mode") (pubdataModeFromU8 request.pubdataMode)
  return {
    executionProtocolVersion := request.executionProtocolVersion
    batchNumber := request.batchNumber
    firstBlockNumber := request.firstBlockNumber
    lastBlockNumber := request.lastBlockNumber
    pubdataMode
    requestId := request.requestId
    commitData
    prevCommitData }

def normalizedCommitData (commitData : CommitBatchInfo) (executionProtocolVersion : Nat) : CommitBatchInfo :=
  if executionProtocolVersion ≤ 30 then { commitData with numberOfLayer2Txs := 0, slChainId := 0 } else commitData

/-! ### What decodes -/

/-- Numbers of version 29 that fit into 64 bits. -/
structure CommitBatchInfoV29.Fits (value : CommitBatchInfoV29) : Prop where
  layer1Txs : value.numberOfLayer1Txs.val < 2 ^ 64
  chainId : value.chainId.val < 2 ^ 64

structure CommitBatchInfoV30.Fits (value : CommitBatchInfoV30) : Prop where
  base : value.toCommitBatchInfoV29.Fits
  scheme : value.daCommitmentScheme.isSome = true

structure CommitBatchInfoV31.Fits (value : CommitBatchInfoV31) : Prop where
  base : value.toCommitBatchInfoV30.Fits
  layer2Txs : value.numberOfLayer2Txs.val < 2 ^ 64
  slChainId : value.slChainId.val < 2 ^ 64

theorem SolStoredBatchInfo.exists_into {value : SolStoredBatchInfo} :
    (∃ info, value.into = .ok info) ↔ value.numberOfLayer1Txs.val < 2 ^ 64 := by
  rw [into, exists_bind_eq_ok]
  simp only [toU64_eq_ok, pure_eq_ok]
  constructor
  · rintro ⟨_, htxs, -⟩
    exact htxs.1
  · exact fun htxs => ⟨_, ⟨htxs, rfl⟩, _, rfl⟩

theorem CommitBatchInfoV29.exists_into {value : CommitBatchInfoV29} (first last : Nat) :
    (∃ info, value.into first last = .ok info) ↔ value.Fits := by
  rw [into, exists_bind_eq_ok]
  simp only [exists_bind_eq_ok, toU64_eq_ok, pure_eq_ok]
  constructor
  · rintro ⟨-, ⟨htxs, -⟩, -, ⟨hchain, -⟩, -⟩
    exact ⟨htxs, hchain⟩
  · intro h
    exact ⟨_, ⟨h.layer1Txs, rfl⟩, _, ⟨h.chainId, rfl⟩, _, rfl⟩

theorem CommitBatchInfoV30.exists_into {value : CommitBatchInfoV30} : (∃ info, value.into = .ok info) ↔ value.Fits := by
  rw [into, exists_bind_eq_ok]
  simp only [exists_bind_eq_ok, toScheme, ofOption_eq_ok, pure_eq_ok]
  constructor
  · rintro ⟨base, hbase, scheme, hscheme, -⟩
    exact ⟨(CommitBatchInfoV29.exists_into _ _).mp ⟨base, hbase⟩, by rw [hscheme]; rfl⟩
  · intro h
    obtain ⟨base, hbase⟩ := (CommitBatchInfoV29.exists_into _ _).mpr h.base
    obtain ⟨scheme, hscheme⟩ := Option.isSome_iff_exists.mp h.scheme
    exact ⟨base, hbase, scheme, hscheme, _, rfl⟩

theorem CommitBatchInfoV31.exists_into {value : CommitBatchInfoV31} : (∃ info, value.into = .ok info) ↔ value.Fits := by
  rw [into, exists_bind_eq_ok]
  simp only [exists_bind_eq_ok, toU64_eq_ok, pure_eq_ok]
  constructor
  · rintro ⟨base, hbase, -, ⟨htxs, -⟩, -, ⟨hchain, -⟩, -⟩
    exact ⟨CommitBatchInfoV30.exists_into.mp ⟨base, hbase⟩, htxs, hchain⟩
  · intro h
    obtain ⟨base, hbase⟩ := CommitBatchInfoV30.exists_into.mpr h.base
    exact ⟨base, hbase, _, ⟨h.layer2Txs, rfl⟩, _, ⟨h.slChainId, rfl⟩, _, rfl⟩

def CommitDataDecodes (request : VerifyBatch) : Prop :=
  match request.executionProtocolVersion with
  | 29 => ∃ decoded, decoders.commitV29 request.commitData = .ok decoded ∧ decoded.Fits
  | 30 => ∃ decoded, decoders.commitV30 request.commitData = .ok decoded ∧ decoded.Fits
  | 31 | 32 => ∃ decoded, decoders.commitV31 request.commitData = .ok decoded ∧ decoded.Fits
  | _ => False

/-- Messages that become requests. -/
structure WellFormed (request : VerifyBatch) : Prop where
  commitData : CommitDataDecodes decoders request
  prevCommitData : ∃ stored, decoders.stored request.prevCommitData = .ok stored ∧ stored.numberOfLayer1Txs.val < 2 ^ 64
  pubdataMode : request.pubdataMode ≤ 2

variable {decoders}

theorem exists_decodeCommitData {request : VerifyBatch} :
    (∃ info, decodeCommitData decoders request.commitData request.executionProtocolVersion request.firstBlockNumber
      request.lastBlockNumber = .ok info) ↔ CommitDataDecodes decoders request := by
  unfold CommitDataDecodes decodeCommitData
  split
  · simp only [exists_bind_eq_ok, failing_eq_ok, CommitBatchInfoV29.exists_into]
  · simp only [exists_bind_eq_ok, failing_eq_ok, CommitBatchInfoV30.exists_into]
  · simp only [exists_bind_eq_ok, failing_eq_ok, CommitBatchInfoV31.exists_into]
  · simp only [exists_bind_eq_ok, failing_eq_ok, CommitBatchInfoV31.exists_into]
  · simp

theorem exists_pubdataModeFromU8 {value : Nat} : (∃ mode, pubdataModeFromU8 value = some mode) ↔ value ≤ 2 := by
  rcases value with _ | _ | _ | n <;> simp [pubdataModeFromU8]

theorem exists_tryFrom {request : VerifyBatch} :
    (∃ decoded, VerificationRequest.tryFrom decoders request = .ok decoded) ↔ WellFormed decoders request := by
  rw [VerificationRequest.tryFrom, exists_bind_eq_ok]
  simp only [exists_bind_eq_ok, failing_eq_ok, ofOption_eq_ok, pure_eq_ok]
  constructor
  · rintro ⟨info, hinfo, stored, hstored, prev, hprev, mode, hmode, -⟩
    exact ⟨exists_decodeCommitData.mp ⟨info, hinfo⟩, ⟨stored, hstored, SolStoredBatchInfo.exists_into.mp ⟨prev, hprev⟩⟩,
      exists_pubdataModeFromU8.mp ⟨mode, hmode⟩⟩
  · intro h
    obtain ⟨info, hinfo⟩ := exists_decodeCommitData.mpr h.commitData
    obtain ⟨stored, hstored, htxs⟩ := h.prevCommitData
    obtain ⟨prev, hprev⟩ := SolStoredBatchInfo.exists_into.mpr htxs
    obtain ⟨mode, hmode⟩ := exists_pubdataModeFromU8.mpr h.pubdataMode
    exact ⟨info, hinfo, stored, hstored, prev, hprev, mode, hmode, _, rfl⟩

theorem tryFrom_eq_ok {request : VerifyBatch} {decoded : VerificationRequest}
    (h : VerificationRequest.tryFrom decoders request = .ok decoded) :
    decoded.firstBlockNumber = request.firstBlockNumber ∧ decoded.lastBlockNumber = request.lastBlockNumber ∧
      pubdataModeFromU8 request.pubdataMode = some decoded.pubdataMode := by
  simp only [VerificationRequest.tryFrom, bind_eq_ok, ofOption_eq_ok, pure_eq_ok] at h
  obtain ⟨-, -, -, -, -, -, mode, hmode, rfl⟩ := h
  exact ⟨rfl, rfl, hmode⟩

end BatchVerification
