import ZksyncOsServer.BatchVerification.Encode
import ZksyncOsServer.BatchVerification.Responder
import ZksyncOsServer.L1Sender.Commands

/-!
# Collecting signatures

`batch_verification/src/main_node/component.rs`: the runner asks the peers for signatures of one batch
after another and repeats a request until enough of them came in time. What it emits as signed meets the
policy that is merged from the configuration of the node and that of the settlement layer, and the L1
sender accepts it.
-/
namespace BatchVerification

open BatchTypes List Fallible
open L1Sender.Commands (CommitCommand CommitCall)
open L1Watcher (StoredBatchInfo)
open MerkleTree (B256)
open Repository (Address)
open Types (Bytes)

/-- `BatchVerificationConfig`, the fields that decide on signatures; the signers are parsed. -/
structure BatchVerificationConfig where
  threshold : Nat
  acceptedSigners : List Address

structure L1State where
  batchVerification : BatchVerificationSL
  l1ChainId : Nat
  diamondProxyAddress : Address
  validatorTimelock : Address

def effectiveVerificationPolicy (config : BatchVerificationConfig) (l1State : L1State) : Nat × List Address :=
  match l1State.batchVerification with
  | .enabled l1Config =>
    if l1Config.validators ≠ [] ∨ 0 < l1Config.threshold then (max config.threshold l1Config.threshold, l1Config.validators)
    else (config.threshold, config.acceptedSigners)
  | .disabled => (config.threshold, config.acceptedSigners)

/-- `BatchVerificationRunner`, what does not change while it runs. -/
structure BatchVerificationRunner where
  acceptedSigners : List Address
  threshold : Nat
  l1ChainId : Nat
  diamondProxy : Address
  multisigCommitter : Address
  lastCommittedBatchNumber : Nat

def BatchVerificationRunner.new (config : BatchVerificationConfig) (l1State : L1State) (lastCommittedBatchNumber : Nat) :
    BatchVerificationRunner where
  acceptedSigners := (effectiveVerificationPolicy config l1State).2
  threshold := (effectiveVerificationPolicy config l1State).1
  l1ChainId := l1State.l1ChainId
  diamondProxy := l1State.diamondProxyAddress
  multisigCommitter := l1State.validatorTimelock
  lastCommittedBatchNumber

/-- What the runner is doing: waiting for a batch, about to send a request for one, or collecting the
answers to a request. -/
inductive Phase (E : Type) where
  | idle
  | signing (batchEnvelope : BatchForSigning E)
  | collecting (batchEnvelope : BatchForSigning E) (requestId : Nat) (responses : BatchSignatureSet)
  | stopped
  deriving DecidableEq

/-- The state of the runner, with the requests it has sent and the batches it has emitted. -/
structure RunnerState (E : Type) where
  requestIdCounter : Nat
  phase : Phase E
  requests : List VerifyBatch
  output : List (SignedBatchEnvelope E)
  deriving DecidableEq

/-- What happens to the runner: the next batch, the start of an attempt, an answer of a peer, the end of
the time for answers, and the end of a channel. Sending succeeds or finds its channel closed. -/
inductive RunnerEvent (E : Type) where
  | batch (batchEnvelope : BatchForSigning E) (delivered : Bool)
  | attempt (delivered : Bool)
  | response (message : VerifyBatchResult) (delivered : Bool)
  | deadline
  | closed

section

variable {E : Type} (signing : Signing) (encoders : AbiEncoders) (runner : BatchVerificationRunner)

def RunnerState.start : RunnerState E := ⟨1, .idle, [], []⟩

def BatchVerificationRunner.processResponse (batchEnvelope : BatchForSigning E) :
    VerifyBatchOutcome → Except Stop (Option ValidatedBatchSignature)
  | .approved signature =>
    if signature.length ≠ 65 then .ok none
    else match signing.fromRawArray signature with
    | none => .ok none
    | some signature => do
      let validatedSignature ← verifySignature encoders signing signature batchEnvelope.batch.previousStoredBatchInfo
        batchEnvelope.batch.batchInfo.commitInfo runner.diamondProxy runner.l1ChainId runner.multisigCommitter
        batchEnvelope.batch.batchInfo.protocolVersion
      return validatedSignature.filter (·.signer ∈ runner.acceptedSigners)
  | .refused _ => .ok none

/-- Sends a batch to the next component. -/
def RunnerState.emit (this : RunnerState E) (envelope : SignedBatchEnvelope E) (delivered : Bool) : RunnerState E :=
  if delivered then { this with phase := .idle, output := this.output ++ [envelope] } else { this with phase := .stopped }

/-- The start of `collect_batch_verification_signatures`. -/
def RunnerState.request (this : RunnerState E) (batchEnvelope : BatchForSigning E) (delivered : Bool) : RunnerState E :=
  let requestId := this.requestIdCounter
  let this := { this with requestIdCounter := requestId + 1 }
  match encodeVerifyBatchRequest encoders batchEnvelope requestId with
  | .error (.panic _) => { this with phase := .stopped }
  | .error (.error _) => this
  | .ok request =>
    if delivered then { this with phase := .collecting batchEnvelope requestId .new, requests := this.requests ++ [request] }
    else { this with phase := .stopped }

/-- An answer in the loop of `collect_batch_verification_signatures`. -/
def RunnerState.collect (this : RunnerState E) (batchEnvelope : BatchForSigning E) (requestId : Nat)
    (responses : BatchSignatureSet) (message : VerifyBatchResult) (delivered : Bool) : RunnerState E :=
  if message.requestId ≠ requestId then this
  else match runner.processResponse signing encoders batchEnvelope message.result with
  | .error _ => { this with phase := .stopped }
  | .ok none => this
  | .ok (some validatedSignature) =>
    match responses.push validatedSignature with
    | none => this
    | some responses =>
      if runner.threshold ≤ responses.len then this.emit (batchEnvelope.withSignatures (.signed responses)) delivered
      else { this with phase := .collecting batchEnvelope requestId responses }

def RunnerState.step (this : RunnerState E) (event : RunnerEvent E) : RunnerState E :=
  match this.phase, event with
  | .idle, .batch batchEnvelope delivered =>
    if batchEnvelope.batchNumber ≤ runner.lastCommittedBatchNumber then
      this.emit (batchEnvelope.withSignatures .alreadyCommitted) delivered
    else { this with phase := .signing batchEnvelope }
  | .signing batchEnvelope, .attempt delivered => this.request encoders batchEnvelope delivered
  | .collecting batchEnvelope requestId responses, .response message delivered =>
    this.collect signing encoders runner batchEnvelope requestId responses message delivered
  | .collecting batchEnvelope _ _, .deadline => { this with phase := .signing batchEnvelope }
  | .idle, .closed | .collecting _ _ _, .closed => { this with phase := .stopped }
  | _, _ => this

end

/-! ### What is collected -/

section

variable {E : Type} {signing : Signing} {encoders : AbiEncoders} {runner : BatchVerificationRunner}

structure Accepted (signing : Signing) (encoders : AbiEncoders) (runner : BatchVerificationRunner) (batch : BatchMetadata)
    (signature : ValidatedBatchSignature) : Prop where
  signer : signature.signer ∈ runner.acceptedSigners
  recovers : ∃ digest, eip712MultisigDigest encoders signing.eip712SigningHash batch.previousStoredBatchInfo
      batch.batchInfo.commitInfo runner.diamondProxy runner.l1ChainId runner.multisigCommitter
      batch.batchInfo.protocolVersion = .ok digest ∧
    signing.recoverAddressFromPrehash signature.signature digest = some signature.signer

theorem BatchVerificationRunner.processResponse_eq_some {batchEnvelope : BatchForSigning E} {result : VerifyBatchOutcome}
    {signature : ValidatedBatchSignature}
    (h : runner.processResponse signing encoders batchEnvelope result = .ok (some signature)) :
    Accepted signing encoders runner batchEnvelope.batch signature := by
  cases result with
  | refused reason => cases h
  | approved raw =>
    rw [processResponse] at h
    split at h
    · cases h
    · split at h
      · cases h
      · simp only [verifySignature, bind_eq_ok, pure_eq_ok] at h
        obtain ⟨_, ⟨digest, hdigest, rfl⟩, h⟩ := h
        obtain ⟨hmap, haccepted⟩ := Option.filter_eq_some_iff.mp h
        obtain ⟨signer, hrecovers, rfl⟩ := Option.map_eq_some_iff.mp hmap
        exact ⟨of_decide_eq_true haccepted, digest, hdigest, hrecovers⟩

theorem BatchVerificationRunner.processResponse_approved {batchEnvelope : BatchForSigning E} {raw : Bytes}
    {signature : BatchSignature} {signer : Address} (hlength : raw.length = 65)
    (hparsed : signing.fromRawArray raw = some signature)
    (haccepted : Accepted signing encoders runner batchEnvelope.batch ⟨signature, signer⟩) :
    runner.processResponse signing encoders batchEnvelope (.approved raw) = .ok (some ⟨signature, signer⟩) := by
  obtain ⟨hsigner, digest, hdigest, hrecovers⟩ := haccepted
  dsimp only at hsigner hrecovers
  simp only [processResponse, verifySignature, hlength, ne_eq, not_true_eq_false, if_false, hparsed, hdigest, ok_bind,
    hrecovers, Option.map_some]
  exact congrArg Except.ok (Option.filter_some_pos (decide_eq_true hsigner))

def Collected (signing : Signing) (encoders : AbiEncoders) (runner : BatchVerificationRunner) (batch : BatchMetadata)
    (responses : BatchSignatureSet) : Prop :=
  ∀ signature ∈ responses.signatures, Accepted signing encoders runner batch signature

theorem collected_new {batch : BatchMetadata} : Collected signing encoders runner batch .new := forall_mem_nil _

theorem Collected.push {batch : BatchMetadata} {responses pushed : BatchSignatureSet} {signature : ValidatedBatchSignature}
    (h : Collected signing encoders runner batch responses) (hsignature : Accepted signing encoders runner batch signature)
    (hpush : responses.push signature = some pushed) :
    Collected signing encoders runner batch pushed ∧ pushed.signatures ≠ [] := by
  unfold BatchSignatureSet.push at hpush
  split at hpush
  · cases hpush
  · obtain rfl := Option.some.inj hpush
    exact ⟨forall_mem_append.mpr ⟨h, forall_mem_singleton.mpr hsignature⟩, by simp⟩

/-- An emitted batch that is signed has enough accepted signatures, at least one. -/
def Quorate (signing : Signing) (encoders : AbiEncoders) (runner : BatchVerificationRunner)
    (envelope : SignedBatchEnvelope E) : Prop :=
  ∀ signatures, envelope.signatureData = .signed signatures →
    (Collected signing encoders runner envelope.batch signatures ∧ signatures.signatures ≠ []) ∧
      runner.threshold ≤ signatures.len

/-- What every reachable state satisfies. -/
structure RunnerInv (signing : Signing) (encoders : AbiEncoders) (runner : BatchVerificationRunner)
    (state : RunnerState E) : Prop where
  output : ∀ envelope ∈ state.output, Quorate signing encoders runner envelope
  collecting : ∀ batchEnvelope requestId responses, state.phase = .collecting batchEnvelope requestId responses →
    Collected signing encoders runner batchEnvelope.batch responses

namespace RunnerInv

variable {state : RunnerState E}

section
variable (h : RunnerInv signing encoders runner state)
include h

theorem of_output {next : RunnerState E} (houtput : next.output = state.output)
    (hphase : ∀ batchEnvelope requestId responses, next.phase ≠ .collecting batchEnvelope requestId responses) :
    RunnerInv signing encoders runner next :=
  ⟨houtput ▸ h.output, fun _ _ _ heq => absurd heq (hphase _ _ _)⟩

theorem emit {envelope : SignedBatchEnvelope E} (henvelope : Quorate signing encoders runner envelope) (delivered : Bool) :
    RunnerInv signing encoders runner (state.emit envelope delivered) := by
  cases delivered with
  | false => exact h.of_output rfl (by rintro _ _ _ ⟨⟩)
  | true =>
    refine ⟨forall_mem_append.mpr ⟨h.output, forall_mem_singleton.mpr henvelope⟩, ?_⟩
    rintro _ _ _ ⟨⟩

theorem request {batchEnvelope : BatchForSigning E} (hphase : state.phase = .signing batchEnvelope) (delivered : Bool) :
    RunnerInv signing encoders runner (state.request encoders batchEnvelope delivered) := by
  unfold RunnerState.request
  dsimp only
  split
  · exact h.of_output rfl (by rintro _ _ _ ⟨⟩)
  · exact h.of_output rfl (by simp [hphase])
  · split
    · refine ⟨h.output, ?_⟩
      rintro _ _ _ ⟨⟩
      exact collected_new
    · exact h.of_output rfl (by rintro _ _ _ ⟨⟩)

theorem collect {batchEnvelope : BatchForSigning E} {requestId : Nat}
    {responses : BatchSignatureSet} (hphase : state.phase = .collecting batchEnvelope requestId responses)
    (message : VerifyBatchResult) (delivered : Bool) :
    RunnerInv signing encoders runner (state.collect signing encoders runner batchEnvelope requestId responses message delivered) := by
  unfold RunnerState.collect
  split
  · exact h
  · split
    · exact h.of_output rfl (by rintro _ _ _ ⟨⟩)
    · exact h
    next signature hsignature =>
      split
      · exact h
      next pushed hpushed =>
        have hcollected := (h.collecting _ _ _ hphase).push (runner.processResponse_eq_some hsignature) hpushed
        split
        next hthreshold =>
          refine h.emit ?_ delivered
          rintro _ ⟨⟩
          exact ⟨hcollected, hthreshold⟩
        · refine ⟨h.output, ?_⟩
          rintro _ _ _ ⟨⟩
          exact hcollected.1

theorem step (event : RunnerEvent E) : RunnerInv signing encoders runner (state.step signing encoders runner event) := by
  unfold RunnerState.step
  split
  · split
    · refine h.emit ?_ _
      rintro _ ⟨⟩
    · exact h.of_output rfl (by rintro _ _ _ ⟨⟩)
  next hphase =>
    exact h.request hphase _
  next hphase =>
    exact h.collect hphase _ _
  · exact h.of_output rfl (by rintro _ _ _ ⟨⟩)
  · exact h.of_output rfl (by rintro _ _ _ ⟨⟩)
  · exact h.of_output rfl (by rintro _ _ _ ⟨⟩)
  · exact h

theorem foldl (events : List (RunnerEvent E)) :
    RunnerInv signing encoders runner (events.foldl (RunnerState.step signing encoders runner) state) := by
  induction events generalizing state with
  | nil => exact h
  | cons event events ih => exact ih (h.step event)

end

end RunnerInv

theorem runnerInv_start : RunnerInv signing encoders runner (RunnerState.start : RunnerState E) :=
  ⟨forall_mem_nil _, by rintro _ _ _ ⟨⟩⟩

end

/-! ### What is committed -/

/-- The signatures that the settlement layer counts: all if it names validators or asks for signatures,
none if it does not verify batches. -/
def countedSignatures (signatures : BatchSignatureSet) : BatchVerificationSL → List ValidatedBatchSignature
  | .disabled => []
  | .enabled l1Config => if l1Config.validators ≠ [] ∨ 0 < l1Config.threshold then signatures.signatures else []

section

variable {E : Type} (signing : Signing) (encoders : AbiEncoders) (config : BatchVerificationConfig) (l1State : L1State)

def batchDigest (batch : BatchMetadata) : Except Stop B256 :=
  eip712MultisigDigest encoders signing.eip712SigningHash batch.previousStoredBatchInfo batch.batchInfo.commitInfo
    l1State.diamondProxyAddress l1State.l1ChainId l1State.validatorTimelock batch.batchInfo.protocolVersion

/-- The L1 sender accepts an envelope and its call lists the signatures that are counted. -/
def Committable (envelope : SignedBatchEnvelope E) (listed : List ValidatedBatchSignature) : Prop :=
  ∃ command call, CommitCommand.tryNew l1State.batchVerification envelope = .ok command ∧
    command.solidityCall encoders = .ok call ∧ call.Lists listed

structure Quorum (envelope : SignedBatchEnvelope E) (signatures : BatchSignatureSet) : Prop where
  distinct : (signatures.signatures.map (·.signer)).Nodup
  validators : ∀ signature ∈ signatures.signatures, signature.signer ∈ (effectiveVerificationPolicy config l1State).2
  recovers : ∃ digest, batchDigest signing encoders l1State envelope.batch = .ok digest ∧
    ∀ signature ∈ signatures.signatures,
      signing.recoverAddressFromPrehash signature.signature digest = some signature.signer
  threshold : (effectiveVerificationPolicy config l1State).1 ≤ signatures.len
  committable : Committable encoders l1State envelope (countedSignatures signatures l1State.batchVerification)

variable {signing encoders config l1State} {envelope : SignedBatchEnvelope E} {signatures : BatchSignatureSet}

theorem filter_eq_self_of_forall {allowed : List Address} (h : ∀ s ∈ signatures.signatures, s.signer ∈ allowed) :
    (signatures.filter allowed).signatures = signatures.signatures :=
  filter_eq_self.mpr fun s hs => decide_eq_true (h s hs)

/-- The filter of the L1 sender keeps what the settlement layer counts, and that is enough. -/
theorem exists_tryNew (hsigned : envelope.signatureData = .signed signatures)
    (hvalidators : ∀ s ∈ signatures.signatures, s.signer ∈ (effectiveVerificationPolicy config l1State).2)
    (hthreshold : (effectiveVerificationPolicy config l1State).1 ≤ signatures.len) :
    ∃ command, CommitCommand.tryNew l1State.batchVerification envelope = .ok command ∧ command.input = envelope ∧
      command.signatures.elim [] BatchSignatureSet.signatures = countedSignatures signatures l1State.batchVerification := by
  obtain ⟨batchVerification, l1ChainId, diamondProxy, timelock⟩ := l1State
  dsimp only
  cases batchVerification with
  | disabled => exact ⟨⟨envelope, none⟩, by rw [CommitCommand.tryNew], rfl, rfl⟩
  | enabled l1Config =>
    by_cases henforced : l1Config.validators ≠ [] ∨ 0 < l1Config.threshold
    · simp only [effectiveVerificationPolicy, if_pos henforced] at hvalidators hthreshold
      have hfilter := filter_eq_self_of_forall hvalidators
      have hlen : l1Config.threshold ≤ (signatures.filter l1Config.validators).len := by
        rw [BatchSignatureSet.len, hfilter]
        exact (le_max_right _ _).trans hthreshold
      refine ⟨_, CommitCommand.tryNew_signed hsigned hlen, rfl, ?_⟩
      rw [countedSignatures, if_pos henforced]
      exact hfilter
    · obtain ⟨hnil, hzero⟩ : l1Config.validators = [] ∧ l1Config.threshold = 0 := by
        simpa [not_or] using henforced
      refine ⟨_, CommitCommand.tryNew_signed hsigned (by omega), rfl, ?_⟩
      rw [countedSignatures, if_neg henforced, hnil]
      exact filter_eq_nil_iff.mpr fun s _ => by simp

theorem committable_of_quorum (hsigned : envelope.signatureData = .signed signatures)
    (hvalidators : ∀ s ∈ signatures.signatures, s.signer ∈ (effectiveVerificationPolicy config l1State).2)
    (hthreshold : (effectiveVerificationPolicy config l1State).1 ≤ signatures.len) {digest : B256}
    (hdigest : batchDigest signing encoders l1State envelope.batch = .ok digest) :
    Committable encoders l1State envelope (countedSignatures signatures l1State.batchVerification) := by
  obtain ⟨command, hcommand, rfl, hlisted⟩ := exists_tryNew hsigned hvalidators hthreshold
  obtain ⟨commitData, hencode, -⟩ := bind_eq_ok.mp hdigest
  obtain ⟨call, hcall, hlists⟩ := CommitCommand.exists_solidityCall hencode
  exact ⟨command, call, hcommand, hcall, hlisted ▸ hlists⟩

end

/-! ### Emitted batches -/

/-- Signatures by address 5, of 65 bytes that start with the digest. -/
def sampleSignHash (digest : B256) : Bytes := Types.bytesOf digest ++ List.replicate 33 1

/-- The hash of a batch is the checksum of its data. -/
def sampleSigning : Signing where
  fromRawArray raw := some ⟨raw⟩
  recoverAddressFromPrehash signature digest := if signature.raw = sampleSignHash digest then some 5 else none
  eip712SigningHash message _ := toU256 (message.batchData.map UInt8.toNat).sum

def commitWords (value : CommitBatchInfoV29) : List B256 :=
  [toU256 value.batchNumber, value.newStateCommitment, value.numberOfLayer1Txs, value.priorityOperationsHash,
    value.dependencyRootsRollingHash, value.l2LogsTreeRoot, value.daCommitment, toU256 value.firstBlockTimestamp,
    toU256 value.lastBlockTimestamp, value.chainId]

def blockWords (value : CommitBatchInfoV30) : List B256 :=
  [toU256 ((value.daCommitmentScheme.map schemeNumber).getD 5), toU256 value.firstBlockNumber, toU256 value.lastBlockNumber]

def storedWords (value : SolStoredBatchInfo) : List B256 :=
  [toU256 value.batchNumber, value.batchHash, value.numberOfLayer1Txs, value.priorityOperationsHash,
    value.dependencyRootsRollingHash, value.l2LogsTreeRoot, value.commitment]

def encodeV29 (value : CommitBatchInfoV29) : Bytes := (commitWords value).flatMap Types.bytesOf ++ value.operatorDAInput

def encodeV30 (value : CommitBatchInfoV30) : Bytes :=
  (blockWords value).flatMap Types.bytesOf ++ encodeV29 value.toCommitBatchInfoV29

def encodeV31 (value : CommitBatchInfoV31) : Bytes :=
  [value.numberOfLayer2Txs, value.slChainId].flatMap Types.bytesOf ++ encodeV30 value.toCommitBatchInfoV30

/-- Values are encoded field by field. -/
def sampleEncoders : AbiEncoders where
  commitV29 := encodeV29
  commitV30 := encodeV30
  commitV31 := encodeV31
  stored value := (storedWords value).flatMap Types.bytesOf
  paramsV29 stored values := (storedWords stored).flatMap Types.bytesOf ++ values.flatMap encodeV29
  paramsV30 stored values := (storedWords stored).flatMap Types.bytesOf ++ values.flatMap encodeV30
  paramsV31 stored values := (storedWords stored).flatMap Types.bytesOf ++ values.flatMap encodeV31

/-- Batch one, of block five. -/
def sampleEnvelope : BatchForSigning Unit where
  batch := {
    previousStoredBatchInfo := ⟨0, 0, 0, 0, 0, 0, 0⟩
    batchInfo := {
      commitInfo := ⟨1, 0, 0, 0, 0, 0, 0, .emptyNoDA, 0, 10, some 5, 10, some 5, 270, List.replicate 32 0, 9⟩
      upgradeTxHash := none
      protocolVersion := ⟨0, 31, 0⟩ }
    chainAddress := 2
    firstBlockNumber := 5
    lastBlockNumber := 5
    pubdataMode := .validium }
  data := ()
  signatureData := ()

/-- A settlement layer that does not verify batches. -/
def unverifiedL1 : L1State := ⟨.disabled, 9, 2, 3⟩

/-- A settlement layer that asks for a signature of one of two validators. -/
def verifiedL1 : L1State := ⟨.enabled ⟨1, [5, 6]⟩, 9, 2, 3⟩

def sampleSignature : ValidatedBatchSignature := ⟨⟨sampleSignHash 60⟩, 5⟩

def sampleSignatures : BatchSignatureSet := ⟨[sampleSignature], pairwise_singleton _ _⟩

/-- A first request times out, its late answer is ignored and so is a wrong signature, and the second request is
answered. -/
def signedOnRetry : List (RunnerEvent Unit) :=
  [.batch sampleEnvelope true, .attempt true, .deadline, .attempt true, .response ⟨1, 1, .approved (sampleSignHash 60)⟩ true,
    .response ⟨2, 1, .refused "Batch data mismatch"⟩ true, .response ⟨2, 1, .approved (sampleSignHash 0)⟩ true,
    .response ⟨2, 1, .approved (sampleSignHash 60)⟩ true]

/-- Every batch that is emitted as signed, after any sequence of events, has a quorum of signatures. -/
theorem signed_batches_have_quorum {E : Type} (signing : Signing) (encoders : AbiEncoders) (config : BatchVerificationConfig)
    (l1State : L1State) (lastCommittedBatchNumber : Nat) (events : List (RunnerEvent E)) : ∀ envelope ∈ (events.foldl
      (RunnerState.step signing encoders (.new config l1State lastCommittedBatchNumber)) .start).output,
    ∀ signatures, envelope.signatureData = .signed signatures →
      Quorum signing encoders config l1State envelope signatures := by
  intro envelope henvelope signatures hsigned
  obtain ⟨⟨hcollected, hne⟩, hthreshold⟩ := (runnerInv_start.foldl events).output envelope henvelope signatures hsigned
  have hvalidators := fun s hs => (hcollected s hs).signer
  obtain ⟨first, hfirst⟩ := exists_mem_of_ne_nil _ hne
  obtain ⟨digest, hdigest, -⟩ := (hcollected first hfirst).recovers
  have hrecovers : ∀ s ∈ signatures.signatures,
      signing.recoverAddressFromPrehash s.signature digest = some s.signer := by
    intro s hs
    obtain ⟨digest', hdigest', hrecovers⟩ := (hcollected s hs).recovers
    rwa [← Except.ok.inj (hdigest.symm.trans hdigest')] at hrecovers
  exact {
    distinct := pairwise_map.mpr signatures.distinct
    validators := hvalidators
    recovers := ⟨digest, hdigest, hrecovers⟩
    threshold := hthreshold
    committable := committable_of_quorum hsigned hvalidators hthreshold hdigest }

theorem signed_batches_have_quorum_on_retry : sampleEnvelope.withSignatures (.signed sampleSignatures) ∈
      (signedOnRetry.foldl (RunnerState.step sampleSigning sampleEncoders (.new ⟨1, []⟩ verifiedL1 0)) .start).output ∧
    Quorum sampleSigning sampleEncoders ⟨1, []⟩ verifiedL1 (sampleEnvelope.withSignatures (.signed sampleSignatures)) sampleSignatures :=
  have hemitted : sampleEnvelope.withSignatures (.signed sampleSignatures) ∈
      (signedOnRetry.foldl (RunnerState.step sampleSigning sampleEncoders (.new ⟨1, []⟩ verifiedL1 0)) .start).output := by
    decide +kernel
  ⟨hemitted, signed_batches_have_quorum sampleSigning sampleEncoders ⟨1, []⟩ verifiedL1 0 signedOnRetry _ hemitted _ rfl⟩

/-- The batch is emitted with the signature of its signer, which the call does not list. -/
theorem signed_batch_committed_without_signers :
    (signedOnRetry.foldl (RunnerState.step sampleSigning sampleEncoders (.new ⟨1, [5]⟩ unverifiedL1 0)) .start).output =
      [sampleEnvelope.withSignatures (.signed sampleSignatures)] ∧
    ¬ Committable sampleEncoders unverifiedL1 (sampleEnvelope.withSignatures (.signed sampleSignatures)) sampleSignatures.signatures := by
  refine ⟨by decide +kernel, ?_⟩
  rintro ⟨command, call, hcommand, hcall, hlists⟩
  obtain rfl : (⟨sampleEnvelope.withSignatures (.signed sampleSignatures), none⟩ : CommitCommand Unit) = command :=
    Except.ok.inj hcommand
  obtain rfl := Except.ok.inj hcall
  exact absurd hlists.entries.length_eq (by decide)

end BatchVerification
