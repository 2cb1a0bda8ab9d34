import ZksyncOsServer.BatchTypes.Envelope
import ZksyncOsServer.BatchVerification.Wire

/-!
# Encoding batches

The sending half of `batch_verification/src/verify_batch_wire.rs` with the conversions of
`contract_interface/src/models.rs`, `encode_commit_batch_data` of `contract_interface/src/calldata.rs` and
the digest of `batch_types/src/batch_signature.rs`. The ABI encoders and the hash of typed data are
parameters. What is encoded for a version decodes to the normalised commit data of that version.
-/
namespace BatchVerification

open BatchTypes SolStoredBatchInfo CommitBatchInfoV29 Fallible
open L1Watcher (StoredBatchInfo)
open MerkleTree (B256)
open ProverApi (ProtocolSemanticVersion ProvingVersion)
open Repository (Address)
open Types (Bytes)

/-- The encoders of `sol!` types; `params` encode the arguments of a commit call. -/
structure AbiEncoders where
  commitV29 : CommitBatchInfoV29 → Bytes
  commitV30 : CommitBatchInfoV30 → Bytes
  commitV31 : CommitBatchInfoV31 → Bytes
  stored : SolStoredBatchInfo → Bytes
  paramsV29 : SolStoredBatchInfo → List CommitBatchInfoV29 → Bytes
  paramsV30 : SolStoredBatchInfo → List CommitBatchInfoV30 → Bytes
  paramsV31 : SolStoredBatchInfo → List CommitBatchInfoV31 → Bytes

def toU256 (value : Nat) : B256 := Fin.ofNat (2 ^ 256) value

theorem toU64_toU256 {value : Nat} (h : value < 2 ^ 64) : toU64 (toU256 value) = .ok value := by
  have hval : (toU256 value).val = value := Nat.mod_eq_of_lt (by omega)
  rw [toU64_eq_ok, hval]
  exact ⟨h, rfl⟩

def SolStoredBatchInfo.ofStored (value : StoredBatchInfo) : SolStoredBatchInfo where
  batchNumber := value.batchNumber
  batchHash := value.stateCommitment
  numberOfLayer1Txs := toU256 value.numberOfLayer1Txs
  priorityOperationsHash := value.priorityOperationsHash
  dependencyRootsRollingHash := value.dependencyRootsRollingHash
  l2LogsTreeRoot := value.l2ToL1LogsRootHash
  commitment := value.commitment

def CommitBatchInfoV29.ofCommitInfo (value : CommitBatchInfo) : CommitBatchInfoV29 where
  batchNumber := value.batchNumber
  newStateCommitment := value.newStateCommitment
  numberOfLayer1Txs := toU256 value.numberOfLayer1Txs
  priorityOperationsHash := value.priorityOperationsHash
  dependencyRootsRollingHash := value.dependencyRootsRollingHash
  l2LogsTreeRoot := value.l2ToL1LogsRootHash
  daCommitment := value.daCommitment
  firstBlockTimestamp := value.firstBlockTimestamp
  lastBlockTimestamp := value.lastBlockTimestamp
  chainId := toU256 value.chainId
  operatorDAInput := value.operatorDaInput

/-- `From<CommitBatchInfo> for IExecutorV30::CommitBatchInfoZKsyncOS`, which unwraps the numbers of the
blocks. -/
def CommitBatchInfoV30.ofCommitInfo (value : CommitBatchInfo) : Except Stop CommitBatchInfoV30 := do
  let firstBlockNumber ← ofOption (.panic "called unwrap on a None value") value.firstBlockNumber
  let lastBlockNumber ← ofOption (.panic "called unwrap on a None value") value.lastBlockNumber
  return {
    toCommitBatchInfoV29 := .ofCommitInfo value
    daCommitmentScheme := some value.l2DaCommitmentScheme
    firstBlockNumber
    lastBlockNumber }

def CommitBatchInfoV31.ofCommitInfo (value : CommitBatchInfo) : Except Stop CommitBatchInfoV31 := do
  let base ← CommitBatchInfoV30.ofCommitInfo value
  return {
    toCommitBatchInfoV30 := base
    numberOfLayer2Txs := toU256 value.numberOfLayer2Txs
    slChainId := toU256 value.slChainId }

def pubdataModeToU8 : PubdataMode → Nat
  | .blobs => 0
  | .calldata => 1
  | .validium => 2

@[simp] theorem pubdataModeFromU8_toU8 (mode : PubdataMode) : pubdataModeFromU8 (pubdataModeToU8 mode) = some mode := by
  cases mode <;> rfl

variable (encoders : AbiEncoders)

def encodeCommitData (commitInfo : CommitBatchInfo) (protocolVersionMinor : Nat) : Except Stop Bytes :=
  match protocolVersionMinor with
  | 29 => .ok (encoders.commitV29 (.ofCommitInfo commitInfo))
  | 30 => do return encoders.commitV30 (← CommitBatchInfoV30.ofCommitInfo commitInfo)
  | 31 | 32 => do return encoders.commitV31 (← CommitBatchInfoV31.ofCommitInfo commitInfo)
  | _ => .error (.error "Internal error: Unsupported protocol version")

def encodeVerifyBatchRequest {E : Type} (batchEnvelope : BatchForSigning E) (requestId : Nat) : Except Stop VerifyBatch := do
  let minor := batchEnvelope.batch.batchInfo.protocolVersion.minor
  require (minor < 2 ^ 16) (.error "Internal error: protocol version overflow")
  let commitData ← encodeCommitData encoders batchEnvelope.batch.batchInfo.commitInfo minor
  return {
    requestId
    batchNumber := batchEnvelope.batchNumber
    firstBlockNumber := batchEnvelope.batch.firstBlockNumber
    lastBlockNumber := batchEnvelope.batch.lastBlockNumber
    pubdataMode := pubdataModeToU8 batchEnvelope.batch.pubdataMode
    commitData
    prevCommitData := encoders.stored (.ofStored batchEnvelope.batch.previousStoredBatchInfo)
    executionProtocolVersion := minor }

/-! ### Signed data -/

/-- `encode_commit_batch_data`; the first byte is the version of the encoding. -/
def encodeCommitBatchData (prevBatchInfo : StoredBatchInfo) (commitInfo : CommitBatchInfo) (protocolVersionMinor : Nat) :
    Except Stop Bytes :=
  let storedBatchInfo := SolStoredBatchInfo.ofStored prevBatchInfo
  match protocolVersionMinor with
  | 29 => .ok (2 :: encoders.paramsV29 storedBatchInfo [.ofCommitInfo commitInfo])
  | 30 => do return 3 :: encoders.paramsV30 storedBatchInfo [← CommitBatchInfoV30.ofCommitInfo commitInfo]
  | 31 | 32 => do return 4 :: encoders.paramsV31 storedBatchInfo [← CommitBatchInfoV31.ofCommitInfo commitInfo]
  | _ => .error (.panic ("Unsupported protocol version: " ++ toString protocolVersionMinor))

structure CommitBatchesMultisig where
  chainAddress : Address
  processBatchFrom : B256
  processBatchTo : B256
  batchData : Bytes

structure Eip712Domain where
  name : String
  version : String
  chainId : B256
  verifyingContract : Address

/-- Signatures of other crates: parsing the bytes of a signature, recovering its signer, and the hash of
typed data. -/
structure Signing where
  fromRawArray : Bytes → Option BatchSignature
  recoverAddressFromPrehash : BatchSignature → B256 → Option Address
  eip712SigningHash : CommitBatchesMultisig → Eip712Domain → B256

def eip712MultisigDigest (eip712SigningHash : CommitBatchesMultisig → Eip712Domain → B256) (prevBatchInfo : StoredBatchInfo)
    (commitBatchInfo : CommitBatchInfo) (diamondProxy : Address) (slChainId : Nat) (multisigCommitter : Address)
    (protocolVersion : ProtocolSemanticVersion) : Except Stop B256 := do
  let batchData ← encodeCommitBatchData encoders prevBatchInfo commitBatchInfo protocolVersion.minor
  return eip712SigningHash
    ⟨diamondProxy, toU256 commitBatchInfo.batchNumber, toU256 commitBatchInfo.batchNumber, batchData⟩
    ⟨"MultisigCommitter", "1", toU256 slChainId, multisigCommitter⟩

def verifySignature (signing : Signing) (this : BatchSignature) (prevBatchInfo : StoredBatchInfo)
    (commitBatchInfo : CommitBatchInfo) (diamondProxy : Address) (slChainId : Nat) (multisigCommitter : Address)
    (protocolVersion : ProtocolSemanticVersion) : Except Stop (Option ValidatedBatchSignature) := do
  let digest ← eip712MultisigDigest encoders signing.eip712SigningHash prevBatchInfo commitBatchInfo diamondProxy slChainId
    multisigCommitter protocolVersion
  return (signing.recoverAddressFromPrehash this digest).map (⟨this, ·⟩)

/-! ### Round trips -/

/-- Decoding what is encoded of a batch gives it back. -/
structure RoundTrips (decoders : AbiDecoders) (prev : StoredBatchInfo) (info : CommitBatchInfo) : Prop where
  commitV30 : ∀ value, CommitBatchInfoV30.ofCommitInfo info = .ok value →
    decoders.commitV30 (encoders.commitV30 value) = .ok value
  commitV31 : ∀ value, CommitBatchInfoV31.ofCommitInfo info = .ok value →
    decoders.commitV31 (encoders.commitV31 value) = .ok value
  stored : decoders.stored (encoders.stored (.ofStored prev)) = .ok (.ofStored prev)

/-- The numbers of commit data that are widened on the wire are 64-bit numbers. -/
structure WithinU64 (info : CommitBatchInfo) : Prop where
  layer1Txs : info.numberOfLayer1Txs < 2 ^ 64
  layer2Txs : info.numberOfLayer2Txs < 2 ^ 64
  chainId : info.chainId < 2 ^ 64
  slChainId : info.slChainId < 2 ^ 64

theorem SolStoredBatchInfo.into_ofStored {value : StoredBatchInfo} (h : value.numberOfLayer1Txs < 2 ^ 64) :
    (ofStored value).into = .ok value := by
  rw [into, ofStored, toU64_toU256 h]
  rfl

theorem CommitBatchInfoV29.into_ofCommitInfo {value : CommitBatchInfo} (h : WithinU64 value) (first last : Nat) :
    (ofCommitInfo value).into first last = .ok { value with
      numberOfLayer2Txs := 0, slChainId := 0, l2DaCommitmentScheme := .blobsAndPubdataKeccak256
      firstBlockNumber := some first, lastBlockNumber := some last } := by
  rw [into, ofCommitInfo, toU64_toU256 h.layer1Txs, ok_bind, toU64_toU256 h.chainId]
  rfl

section

variable {value : CommitBatchInfo} {first last : Nat}

theorem CommitBatchInfoV30.ofCommitInfo_eq (hfirst : value.firstBlockNumber = some first)
    (hlast : value.lastBlockNumber = some last) :
    ofCommitInfo value = .ok ⟨.ofCommitInfo value, some value.l2DaCommitmentScheme, first, last⟩ := by
  rw [ofCommitInfo, hfirst, hlast]
  rfl

/-- Version 30 drops the number of L2 transactions and the chain id of the settlement layer. -/
theorem CommitBatchInfoV30.into_ofCommitInfo (h : WithinU64 value) (hfirst : value.firstBlockNumber = some first)
    (hlast : value.lastBlockNumber = some last) :
    (⟨.ofCommitInfo value, some value.l2DaCommitmentScheme, first, last⟩ : CommitBatchInfoV30).into =
      .ok { value with numberOfLayer2Txs := 0, slChainId := 0 } := by
  rw [CommitBatchInfoV30.into, CommitBatchInfoV29.into_ofCommitInfo h, ok_bind, toScheme, ofOption_some, ok_bind,
    ← hfirst, ← hlast]
  rfl

theorem CommitBatchInfoV31.into_ofCommitInfo (h : WithinU64 value) (hfirst : value.firstBlockNumber = some first)
    (hlast : value.lastBlockNumber = some last) :
    (⟨⟨.ofCommitInfo value, some value.l2DaCommitmentScheme, first, last⟩, toU256 value.numberOfLayer2Txs,
      toU256 value.slChainId⟩ : CommitBatchInfoV31).into = .ok value := by
  rw [into, CommitBatchInfoV30.into_ofCommitInfo h hfirst hlast, ok_bind, toU64_toU256 h.layer2Txs,
    ok_bind, toU64_toU256 h.slChainId]
  rfl

theorem CommitBatchInfoV31.ofCommitInfo_eq (hfirst : value.firstBlockNumber = some first)
    (hlast : value.lastBlockNumber = some last) :
    ofCommitInfo value = .ok ⟨⟨.ofCommitInfo value, some value.l2DaCommitmentScheme, first, last⟩,
      toU256 value.numberOfLayer2Txs, toU256 value.slChainId⟩ := by
  rw [ofCommitInfo, CommitBatchInfoV30.ofCommitInfo_eq hfirst hlast]
  rfl

variable {encoders} {decoders : AbiDecoders} {prev : StoredBatchInfo}

variable (encoders prev) in
theorem exists_encodeCommitBatchData (hfirst : value.firstBlockNumber = some first) (hlast : value.lastBlockNumber = some last)
    {version : ProtocolSemanticVersion} {provingVersion : ProvingVersion}
    (h : ProvingVersion.tryFrom version = .ok provingVersion) :
    ∃ batchData, encodeCommitBatchData encoders prev value version.minor = .ok batchData := by
  obtain ⟨major, minor, patch⟩ := version
  have hminor : minor = 30 ∨ minor = 31 ∨ minor = 32 := by
    unfold ProvingVersion.tryFrom at h
    split at h <;> simp_all
  rcases hminor with rfl | rfl | rfl
  · rw [encodeCommitBatchData, CommitBatchInfoV30.ofCommitInfo_eq hfirst hlast]
    exact ⟨_, rfl⟩
  · rw [encodeCommitBatchData, CommitBatchInfoV31.ofCommitInfo_eq hfirst hlast]
    exact ⟨_, rfl⟩
  · rw [encodeCommitBatchData, CommitBatchInfoV31.ofCommitInfo_eq hfirst hlast]
    exact ⟨_, rfl⟩

theorem exists_encodeCommitData (hcoding : RoundTrips encoders decoders prev value) (h : WithinU64 value)
    (hfirst : value.firstBlockNumber = some first) (hlast : value.lastBlockNumber = some last) {minor : Nat}
    (hminor : minor = 30 ∨ minor = 31) (requestFirst requestLast : Nat) :
    ∃ commitData, encodeCommitData encoders value minor = .ok commitData ∧
      decodeCommitData decoders commitData minor requestFirst requestLast = .ok (normalizedCommitData value minor) := by
  obtain rfl | rfl := hminor
  · have hvalue := CommitBatchInfoV30.ofCommitInfo_eq hfirst hlast
    refine ⟨_, by rw [encodeCommitData, hvalue]; rfl, ?_⟩
    rw [decodeCommitData, hcoding.commitV30 _ hvalue]
    exact CommitBatchInfoV30.into_ofCommitInfo h hfirst hlast
  · have hvalue := CommitBatchInfoV31.ofCommitInfo_eq hfirst hlast
    refine ⟨_, by rw [encodeCommitData, hvalue]; rfl, ?_⟩
    rw [decodeCommitData, hcoding.commitV31 _ hvalue]
    exact CommitBatchInfoV31.into_ofCommitInfo h hfirst hlast

/-- The request for a batch of version 30 or 31 is encoded, and decodes to the batch with normalised
commit data. -/
theorem exists_encodeVerifyBatchRequest {E : Type} {batchEnvelope : BatchForSigning E}
    (hcoding : RoundTrips encoders decoders batchEnvelope.batch.previousStoredBatchInfo
      batchEnvelope.batch.batchInfo.commitInfo) (h : WithinU64 batchEnvelope.batch.batchInfo.commitInfo)
    (hprev : batchEnvelope.batch.previousStoredBatchInfo.numberOfLayer1Txs < 2 ^ 64)
    (hfirst : batchEnvelope.batch.batchInfo.commitInfo.firstBlockNumber = some first)
    (hlast : batchEnvelope.batch.batchInfo.commitInfo.lastBlockNumber = some last)
    (hminor : batchEnvelope.batch.batchInfo.protocolVersion.minor = 30 ∨
      batchEnvelope.batch.batchInfo.protocolVersion.minor = 31) (requestId : Nat) :
    ∃ message, encodeVerifyBatchRequest encoders batchEnvelope requestId = .ok message ∧ message.requestId = requestId ∧
      message.batchNumber = batchEnvelope.batchNumber ∧ VerificationRequest.tryFrom decoders message = .ok {
        executionProtocolVersion := batchEnvelope.batch.batchInfo.protocolVersion.minor
        batchNumber := batchEnvelope.batchNumber
        firstBlockNumber := batchEnvelope.batch.firstBlockNumber
        lastBlockNumber := batchEnvelope.batch.lastBlockNumber
        pubdataMode := batchEnvelope.batch.pubdataMode
        requestId
        commitData := normalizedCommitData batchEnvelope.batch.batchInfo.commitInfo
          batchEnvelope.batch.batchInfo.protocolVersion.minor
        prevCommitData := batchEnvelope.batch.previousStoredBatchInfo } := by
  obtain ⟨commitData, hencode, hdecode⟩ := exists_encodeCommitData hcoding h hfirst hlast hminor
    batchEnvelope.batch.firstBlockNumber batchEnvelope.batch.lastBlockNumber
  have hwidth : batchEnvelope.batch.batchInfo.protocolVersion.minor < 2 ^ 16 := by omega
  refine ⟨_, by rw [encodeVerifyBatchRequest, require_pos hwidth, ok_bind, hencode]; rfl, rfl, rfl, ?_⟩
  rw [VerificationRequest.tryFrom, hdecode, ok_bind, hcoding.stored]
  simp only [failing, ok_bind, into_ofStored hprev, pubdataModeFromU8_toU8, ofOption_some]
  rfl

end

end BatchVerification
