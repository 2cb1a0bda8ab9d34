import ZksyncOsServer.BatchVerification.Encode

/-!
# Commands of the L1 senders

`l1_sender/src/commands`. Batches that are committed or proved already pass through.
-/
namespace L1Sender.Commands

open BatchTypes
open BatchVerification (AbiEncoders Stop encodeCommitBatchData)
open Repository (Address)
open Types (Bytes)

variable {E C : Type}

inductive L1SenderCommand (C E : Type) where
  | sendToL1 (command : C)
  | passthrough (envelope : SignedBatchEnvelope E)
  deriving DecidableEq

/-! ### Proving -/

structure ProofCommand (E Proof : Type) where
  batches : List (SignedBatchEnvelope E)
  proof : Proof
  nonempty : batches ≠ []
  deriving DecidableEq

section Proof
variable {Proof : Type}

def L1SenderCommand.firstBatchNumber : L1SenderCommand (ProofCommand E Proof) E → Nat
  | .sendToL1 command => (command.batches.head command.nonempty).batchNumber
  | .passthrough envelope => envelope.batchNumber

def L1SenderCommand.batchCount : L1SenderCommand (ProofCommand E Proof) E → Nat
  | .sendToL1 command => command.batches.length
  | .passthrough _ => 1

end Proof

/-! ### Committing -/

structure CommitCommand (E : Type) where
  input : SignedBatchEnvelope E
  signatures : Option BatchSignatureSet
  deriving DecidableEq

inductive BatchVerificationError where
  | batchNotSigned
  | notEnoughSignatures (have_ need : Nat)
  deriving DecidableEq

def CommitCommand.tryNew (l1Config : BatchVerificationSL) (input : SignedBatchEnvelope E) :
    Except BatchVerificationError (CommitCommand E) :=
  match l1Config, input.signatureData with
  | .disabled, _ => .ok ⟨input, none⟩
  | .enabled l1Config, .signed signatures =>
    let filteredSignatures := signatures.filter l1Config.validators
    if filteredSignatures.len < l1Config.threshold then
      .error (.notEnoughSignatures filteredSignatures.len l1Config.threshold)
    else .ok ⟨input, some filteredSignatures⟩
  | .enabled l1Config, _ => if l1Config.threshold = 0 then .ok ⟨input, none⟩ else .error .batchNotSigned

theorem CommitCommand.tryNew_signed {l1Config : BatchVerificationSLConfig} {input : SignedBatchEnvelope E}
    {signatures : BatchSignatureSet} (hsigned : input.signatureData = .signed signatures)
    (hlen : l1Config.threshold ≤ (signatures.filter l1Config.validators).len) :
    tryNew (.enabled l1Config) input = .ok ⟨input, some (signatures.filter l1Config.validators)⟩ := by
  obtain ⟨batch, data, signatureData⟩ := input
  obtain rfl := hsigned
  exact if_neg (Nat.not_lt.mpr hlen)

inductive CommitCall where
  | commitBatchesMultisig (chainAddress : Address) (processFrom processTo : Nat) (commitData : Bytes)
      (signers : List Address) (signatures : List Bytes)
  | commitBatchesSharedBridge (chainAddress : Address) (processFrom processTo : Nat) (commitData : Bytes)
  deriving DecidableEq

def CommitCommand.solidityCall (encoders : AbiEncoders) (this : CommitCommand E) : Except Stop CommitCall := do
  let batch := this.input.batch
  let commitData ← encodeCommitBatchData encoders batch.previousStoredBatchInfo batch.batchInfo.commitInfo
    batch.batchInfo.protocolVersion.minor
  match this.signatures with
  | some signaturesSet =>
    let signatures := signaturesSet.signatures.mergeSort fun a b => a.signer ≤ b.signer
    return .commitBatchesMultisig batch.chainAddress this.input.batchNumber this.input.batchNumber commitData
      (signatures.map (·.signer)) (signatures.map (·.signature.raw))
  | none =>
    return .commitBatchesSharedBridge batch.chainAddress this.input.batchNumber this.input.batchNumber commitData

def CommitCall.signers : CommitCall → List Address
  | .commitBatchesMultisig _ _ _ _ signers _ => signers
  | .commitBatchesSharedBridge .. => []

def CommitCall.signatures : CommitCall → List Bytes
  | .commitBatchesMultisig _ _ _ _ _ signatures => signatures
  | .commitBatchesSharedBridge .. => []

/-- A call lists signatures with their signers strictly increasing, each signer at the place of its
signature. -/
structure CommitCall.Lists (call : CommitCall) (listed : List ValidatedBatchSignature) : Prop where
  increasing : call.signers.Pairwise (· < ·)
  lengths : call.signers.length = call.signatures.length
  entries : (call.signers.zip call.signatures).Perm (listed.map fun s => (s.signer, s.signature.raw))

theorem pairwise_lt_mergeSort (signatures : BatchSignatureSet) :
    (signatures.signatures.mergeSort fun a b => a.signer ≤ b.signer).Pairwise fun a b => a.signer < b.signer := by
  have hperm := List.mergeSort_perm signatures.signatures fun a b => decide (a.signer ≤ b.signer)
  have hsorted : (signatures.signatures.mergeSort fun a b => a.signer ≤ b.signer).Pairwise
      fun a b => decide (a.signer ≤ b.signer) = true := by
    refine List.pairwise_mergeSort ?_ ?_ _
    · intro a b c
      simpa using le_trans
    · intro a b
      simpa using le_total a.signer b.signer
  have hdistinct := (hperm.pairwise_iff fun hne heq => hne heq.symm).mpr signatures.distinct
  refine (hsorted.and hdistinct).imp ?_
  rintro a b ⟨hle, hne⟩
  exact lt_of_le_of_ne (of_decide_eq_true hle) hne

theorem CommitCommand.exists_solidityCall {encoders : AbiEncoders} {this : CommitCommand E}
    {commitData : Bytes} (hencode : encodeCommitBatchData encoders this.input.batch.previousStoredBatchInfo
      this.input.batch.batchInfo.commitInfo this.input.batch.batchInfo.protocolVersion.minor = .ok commitData) :
    ∃ call, this.solidityCall encoders = .ok call ∧
      call.Lists (this.signatures.elim [] BatchSignatureSet.signatures) := by
  obtain ⟨input, signatures⟩ := this
  rw [solidityCall, hencode]
  cases signatures with
  | none => exact ⟨_, rfl, .nil, rfl, .nil⟩
  | some signatures =>
    refine ⟨_, rfl, List.pairwise_map.mpr (pairwise_lt_mergeSort signatures), ?_, ?_⟩
    · simp only [CommitCall.signers, CommitCall.signatures, List.length_map]
    · simp only [CommitCall.signers, CommitCall.signatures, Option.elim_some]
      rw [List.zip_map']
      exact (List.mergeSort_perm _ _).map _

end L1Sender.Commands
