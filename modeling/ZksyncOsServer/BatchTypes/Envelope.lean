import ZksyncOsServer.L1Watcher.Contract

/-!
# Batch envelopes and their signatures

`batch_types/src/batcher_model.rs` and the sets of signatures of `batch_types/src/batch_signature.rs`, which
have one signature for each of their signers.
-/
namespace BatchTypes

open Fallible
open L1Watcher (StoredBatchInfo)
open MerkleTree (B256)
open ProverApi (ProtocolSemanticVersion ProvingVersion)
open Repository (Address)
open Types (Bytes)

structure BatchSignature where
  raw : Bytes
  deriving DecidableEq

structure ValidatedBatchSignature where
  signature : BatchSignature
  signer : Address
  deriving DecidableEq

/-- `BatchSignatureSet`; signatures are compared by their signers. -/
structure BatchSignatureSet where
  signatures : List ValidatedBatchSignature
  distinct : signatures.Pairwise fun a b => a.signer ≠ b.signer
  deriving DecidableEq

namespace BatchSignatureSet

def new : BatchSignatureSet := ⟨[], .nil⟩

theorem distinct_push {signatures : List ValidatedBatchSignature} {signature : ValidatedBatchSignature}
    (h : signatures.Pairwise fun a b => a.signer ≠ b.signer) (hnew : ¬ ∃ s ∈ signatures, s.signer = signature.signer) :
    (signatures ++ [signature]).Pairwise fun a b => a.signer ≠ b.signer := by
  refine List.pairwise_append.mpr ⟨h, List.pairwise_singleton _ _, fun a ha b hb heq => ?_⟩
  rw [List.mem_singleton.mp hb] at heq
  exact hnew ⟨a, ha, heq⟩

/-- `push`; a second signature of a signer is an error. -/
def push (this : BatchSignatureSet) (signature : ValidatedBatchSignature) : Option BatchSignatureSet :=
  if h : ∃ s ∈ this.signatures, s.signer = signature.signer then none
  else some ⟨this.signatures ++ [signature], distinct_push this.distinct h⟩

def len (this : BatchSignatureSet) : Nat := this.signatures.length

def filter (this : BatchSignatureSet) (allowedSigners : List Address) : BatchSignatureSet :=
  ⟨this.signatures.filter fun s => s.signer ∈ allowedSigners, this.distinct.filter _⟩

end BatchSignatureSet

/-- `BatchMetadata`, the fields that verification and commitment read. -/
structure BatchMetadata where
  previousStoredBatchInfo : StoredBatchInfo
  batchInfo : PendingBatchInfo
  chainAddress : Address
  firstBlockNumber : Nat
  lastBlockNumber : Nat
  pubdataMode : PubdataMode
  deriving DecidableEq

inductive BatchSignatureData where
  | signed (signatures : BatchSignatureSet)
  | alreadyCommitted
  | notNeeded
  deriving DecidableEq

/-- `BatchEnvelope`, without the measurement of latencies. -/
structure BatchEnvelope (E S : Type) where
  batch : BatchMetadata
  data : E
  signatureData : S
  deriving DecidableEq

abbrev BatchForSigning (E : Type) := BatchEnvelope E Unit

abbrev SignedBatchEnvelope (E : Type) := BatchEnvelope E BatchSignatureData

namespace BatchEnvelope

variable {E S : Type}

def batchNumber (this : BatchEnvelope E S) : Nat := this.batch.batchInfo.commitInfo.batchNumber

def withSignatures (this : BatchForSigning E) (signatureData : BatchSignatureData) : SignedBatchEnvelope E :=
  ⟨this.batch, this.data, signatureData⟩

end BatchEnvelope

/-! ### Sealing -/

/-- The batch of `seal_batch`. `nativeBatchInfo` is the one that a native run builds for the versions that
have such runs. -/
def sealedBatchInfo (env : Env) (nativeBatchInfo : List ExecutedBlock → Except String PendingBatchInfo)
    (blocks : List ExecutedBlock) (first last : ExecutedBlock) (batchNumber chainId : Nat) (pubdataMode : PubdataMode)
    (slChainId : Nat) (stateView : StateView) : ProvingVersion → Except String PendingBatchInfo
  | .v8 => nativeBatchInfo blocks
  | .v6 | .v7 => do
    let built ← PendingBatchInfo.build env.primitives env.buildSidecar
      (blocks.map fun block => (block.output, block.record.transactions, block.treeOutput)) chainId batchNumber pubdataMode
      slChainId (readMultichainRoot env.primitives env.deriveFlatStorageKey stateView) first.record.protocolVersion
      last.record.blockContext.blockHashes
    return built.1

/-- `seal_batch`; `computeBatchProverInput` makes the input of the prover. -/
def sealBatch {E : Type} (env : Env) (nativeBatchInfo : List ExecutedBlock → Except String PendingBatchInfo)
    (computeBatchProverInput : List ExecutedBlock → ProvingVersion → PubdataMode → Except String E)
    (blocks : List ExecutedBlock) (prevBatchInfo : StoredBatchInfo) (batchNumber chainId : Nat) (chainAddress : Address)
    (pubdataMode : PubdataMode) (slChainId : Nat) : Except String (BatchForSigning E) := do
  let first ← ofOption "called unwrap on a None value" blocks.head?
  let last ← ofOption "called unwrap on a None value" blocks.getLast?
  let provingVersion ← ProvingVersion.tryFrom first.record.protocolVersion
  let stateView ← env.stateViewAt last.record.blockContext.blockNumber
  let batchInfo ← sealedBatchInfo env nativeBatchInfo blocks first last batchNumber chainId pubdataMode slChainId stateView
    provingVersion
  let data ← computeBatchProverInput blocks provingVersion pubdataMode
  require (∀ block ∈ blocks.tail, block.record.protocolVersion = first.record.protocolVersion)
    "mismatched protocol versions in batch"
  return {
    batch := {
      previousStoredBatchInfo := prevBatchInfo
      batchInfo
      chainAddress
      firstBlockNumber := first.record.blockContext.blockNumber
      lastBlockNumber := last.record.blockContext.blockNumber
      pubdataMode }
    data
    signatureData := () }

/-! ### The policy of the settlement layer -/

structure BatchVerificationSLConfig where
  threshold : Nat
  validators : List Address
  deriving DecidableEq

inductive BatchVerificationSL where
  | disabled
  | enabled (config : BatchVerificationSLConfig)
  deriving DecidableEq

end BatchTypes
