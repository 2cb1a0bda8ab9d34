import ZksyncOsServer.BatchVerification.Runner

/-!
# Honest verification

A batch that the main node sealed by `PendingBatchInfo::build` is approved by a verifier that holds the
same blocks, and the main node accepts its signature. The commit data goes over the wire without the
fields that version 30 does not have, and is compared with the rebuilt data without these fields; both
sides sign the digest of the full data.
-/
namespace BatchVerification

open BatchTypes List Fallible
open L1Watcher (StoredBatchInfo)
open MerkleTree (B256 TreeBatchOutput)
open ProverApi (ProtocolSemanticVersion ProvingVersion)
open Replay (BlockHashes)
open Repository (Address)
open Types (BlockOutput Bytes Primitives ZkTransaction)

/-! ### The cached blocks -/

def TreeBlock.ofExecuted (block : ExecutedBlock) : TreeBlock := ⟨block.output, block.record, block.treeOutput⟩

def Consecutive (blocks : List ExecutedBlock) : Prop :=
  blocks.IsChain fun a b => b.record.blockContext.blockNumber = a.record.blockContext.blockNumber + 1

def BlockCache.Holds (cache : BlockCache) (blocks : List ExecutedBlock) : Prop :=
  ∀ block ∈ blocks, cache.data[block.record.blockContext.blockNumber]? = some (.ofExecuted block)

section

variable {cache : BlockCache} {first last : ExecutedBlock} {rest blocks : List ExecutedBlock}

theorem cachedBlocks_of_holds (hconsecutive : Consecutive (first :: rest)) (hheld : cache.Holds (first :: rest)) :
    cachedBlocks cache (rest.length + 1) first.record.blockContext.blockNumber =
      .ok ((first :: rest).map TreeBlock.ofExecuted) := by
  induction rest generalizing first with
  | nil =>
    rw [cachedBlocks, hheld first mem_cons_self]
    rfl
  | cons second rest ih =>
    obtain ⟨hnext, hconsecutive⟩ := isChain_cons_cons.mp hconsecutive
    rw [length_cons, cachedBlocks, hheld first mem_cons_self]
    dsimp only
    rw [← hnext, ih hconsecutive fun block hblock => hheld block (mem_cons_of_mem _ hblock)]
    rfl

theorem blockNumber_getLast (hconsecutive : Consecutive (first :: rest)) :
    ((first :: rest).getLast (cons_ne_nil _ _)).record.blockContext.blockNumber =
      first.record.blockContext.blockNumber + rest.length := by
  induction rest generalizing first with
  | nil => rfl
  | cons second rest ih =>
    obtain ⟨hnext, hconsecutive⟩ := isChain_cons_cons.mp hconsecutive
    rw [getLast_cons_cons, ih hconsecutive, hnext, length_cons]
    omega

theorem cachedBlocks_range (hconsecutive : Consecutive blocks) (hheld : cache.Holds blocks)
    (hfirst : blocks.head? = some first) (hlast : blocks.getLast? = some last) :
    cachedBlocks cache (last.record.blockContext.blockNumber + 1 - first.record.blockContext.blockNumber)
      first.record.blockContext.blockNumber = .ok (blocks.map TreeBlock.ofExecuted) := by
  cases blocks with
  | nil => cases hfirst
  | cons block rest =>
    obtain rfl : block = first := Option.some.inj hfirst
    obtain rfl : (block :: rest).getLast (cons_ne_nil _ _) = last := by
      simpa [getLast?_eq_some_getLast] using hlast
    have hcount : ((block :: rest).getLast (cons_ne_nil _ _)).record.blockContext.blockNumber + 1 -
        block.record.blockContext.blockNumber = rest.length + 1 := by
      rw [blockNumber_getLast hconsecutive]
      omega
    rw [hcount]
    exact cachedBlocks_of_holds hconsecutive hheld

end

/-! ### The sealed batch -/

section

variable {primitives : Primitives} {buildSidecar : Bytes → Except String (List B256)} {chainId batchNumber slChainId : Nat}
  {pubdataMode : PubdataMode} {E : Type} {main : Env} {nativeBatchInfo : List ExecutedBlock → Except String PendingBatchInfo}
  {computeBatchProverInput : List ExecutedBlock → ProvingVersion → PubdataMode → Except String E}
  {blocks : List ExecutedBlock} {prev : StoredBatchInfo} {chainAddress : Address} {envelope : BatchForSigning E}

/-- A sealed batch of a version that the server builds itself. -/
structure Sealed (main : Env) (blocks : List ExecutedBlock) (first last : ExecutedBlock) (stateView : StateView)
    (chainId batchNumber : Nat) (pubdataMode : PubdataMode) (slChainId : Nat) (batch : BatchMetadata) : Prop where
  head : blocks.head? = some first
  getLast : blocks.getLast? = some last
  view : main.stateViewAt last.record.blockContext.blockNumber = .ok stateView
  built : ∃ sidecar, PendingBatchInfo.build main.primitives main.buildSidecar
    (blocks.map fun block => (block.output, block.record.transactions, block.treeOutput)) chainId batchNumber pubdataMode
    slChainId (readMultichainRoot main.primitives main.deriveFlatStorageKey stateView) first.record.protocolVersion
    last.record.blockContext.blockHashes = .ok (batch.batchInfo, sidecar)
  firstBlockNumber : batch.firstBlockNumber = first.record.blockContext.blockNumber
  lastBlockNumber : batch.lastBlockNumber = last.record.blockContext.blockNumber
  mode : batch.pubdataMode = pubdataMode

theorem exists_sealed {version : ProtocolSemanticVersion}
    (hsealed : sealBatch main nativeBatchInfo computeBatchProverInput blocks prev batchNumber chainId chainAddress pubdataMode
      slChainId = .ok envelope) (hversion : ∀ block ∈ blocks, block.record.protocolVersion = version)
    (hminor : version.minor = 30 ∨ version.minor = 31) :
    (∃ provingVersion, ProvingVersion.tryFrom version = .ok provingVersion ∧ provingVersion ≠ .v8) ∧
      envelope.batch.previousStoredBatchInfo = prev ∧ ∃ first last stateView,
        Sealed main blocks first last stateView chainId batchNumber pubdataMode slChainId envelope.batch := by
  simp only [sealBatch, bind_eq_ok, ofOption_eq_ok, pure_eq_ok] at hsealed
  obtain ⟨first, hfirst, last, hlast, provingVersion, hproving, stateView, hview, batchInfo, hinfo, -, -, -, -, rfl⟩ := hsealed
  have hfirstVersion := hversion first (mem_of_mem_head? hfirst)
  rw [hfirstVersion] at hproving
  have hv8 : provingVersion ≠ .v8 := by
    rintro rfl
    obtain ⟨major, minor, patch⟩ := version
    unfold ProvingVersion.tryFrom at hproving
    split at hproving <;> simp_all
  refine ⟨⟨provingVersion, hproving, hv8⟩, rfl, first, last, stateView, hfirst, hlast, hview, ?_, rfl, rfl, rfl⟩
  cases provingVersion with
  | v8 => exact absurd rfl hv8
  | v6 | v7 =>
    simp only [sealedBatchInfo, bind_eq_ok, pure_eq_ok] at hinfo
    obtain ⟨⟨info, sidecar⟩, hbuilt, rfl⟩ := hinfo
    exact ⟨sidecar, hbuilt⟩

end

/-! ### The verifier -/

/-- The key of a verifier. -/
structure SigningKey where
  address : Address
  signHash : B256 → Bytes

/-- A key makes signatures of 65 bytes, from which its address is recovered. -/
def SigningKey.Sound (signing : Signing) (key : SigningKey) : Prop :=
  ∀ digest, (key.signHash digest).length = 65 ∧ ∃ signature, signing.fromRawArray (key.signHash digest) = some signature ∧
    signing.recoverAddressFromPrehash signature digest = some key.address

/-- A verifier that computes as the main node does, for the same chain and the same contracts, and holds
the blocks with the state after them. -/
structure HonestVerifier (main : Env) (l1State : L1State) (signing : Signing) (encoders : AbiEncoders) (chainId : Nat)
    (blocks : List ExecutedBlock) (env : ResponderEnv) (key : SigningKey) (cache : BlockCache) : Prop where
  primitives : env.primitives = main.primitives
  buildSidecar : env.buildSidecar = main.buildSidecar
  deriveFlatStorageKey : env.deriveFlatStorageKey = main.deriveFlatStorageKey
  holds : cache.Holds blocks
  stateViewAt : ∀ block ∈ blocks,
    env.stateViewAt block.record.blockContext.blockNumber = main.stateViewAt block.record.blockContext.blockNumber
  sameChainId : env.chainId = chainId
  l1ChainId : env.l1ChainId = l1State.l1ChainId
  diamondProxy : env.diamondProxy = l1State.diamondProxyAddress
  validatorTimelock : env.validatorTimelock = l1State.validatorTimelock
  sameEncoders : env.encoders = encoders
  eip712SigningHash : env.eip712SigningHash = signing.eip712SigningHash
  signHash : env.signHash = key.signHash
  sound : key.Sound signing

section

variable {main : Env} {l1State : L1State} {signing : Signing} {encoders : AbiEncoders} {chainId batchNumber : Nat}
  {blocks : List ExecutedBlock} {env : ResponderEnv} {key : SigningKey} {cache : BlockCache} {first last : ExecutedBlock}
  {stateView : StateView} {pubdataMode : PubdataMode} {batch : BatchMetadata}

theorem rebuildCommitInfo_of_sealed (honest : HonestVerifier main l1State signing encoders chainId blocks env key cache)
    (hsealed : Sealed main blocks first last stateView chainId batchNumber pubdataMode l1State.l1ChainId batch)
    {request : VerificationRequest} (hnumber : request.batchNumber = batchNumber)
    (hmode : request.pubdataMode = pubdataMode) {provingVersion : ProvingVersion} (hv8 : provingVersion ≠ .v8) :
    rebuildCommitInfo env request (blocks.map TreeBlock.ofExecuted) (.ofExecuted first) (.ofExecuted last) stateView
      provingVersion = .ok (.ok batch.batchInfo.commitInfo) := by
  obtain ⟨sidecar, hbuilt⟩ := hsealed.built
  cases provingVersion with
  | v8 => exact absurd rfl hv8
  | v6 | v7 =>
    simp only [rebuildCommitInfo, map_map, honest.primitives, honest.buildSidecar, honest.deriveFlatStorageKey,
      honest.sameChainId, honest.l1ChainId, hnumber, hmode]
    exact bind_eq_ok.mpr ⟨(batch.batchInfo, sidecar), panicking_eq_ok.mpr hbuilt, rfl⟩

theorem handleVerificationRequest_of_sealed
    (honest : HonestVerifier main l1State signing encoders chainId blocks env key cache)
    (hsealed : Sealed main blocks first last stateView chainId batchNumber pubdataMode l1State.l1ChainId batch)
    (hconsecutive : Consecutive blocks) (request : VerificationRequest) (hnumber : request.batchNumber = batchNumber)
    (hmode : request.pubdataMode = pubdataMode) (hfirst : request.firstBlockNumber = batch.firstBlockNumber)
    (hlast : request.lastBlockNumber = batch.lastBlockNumber)
    (hdata : request.commitData = normalizedCommitData batch.batchInfo.commitInfo request.executionProtocolVersion)
    {provingVersion : ProvingVersion} (hproving : ProvingVersion.tryFrom first.record.protocolVersion = .ok provingVersion)
    (hv8 : provingVersion ≠ .v8) :
    ∃ digest, eip712MultisigDigest encoders signing.eip712SigningHash request.prevCommitData batch.batchInfo.commitInfo
        l1State.diamondProxyAddress l1State.l1ChainId l1State.validatorTimelock first.record.protocolVersion = .ok digest ∧
      handleVerificationRequest env cache request = .ok (.ok (key.signHash digest)) := by
  have hview : env.stateViewAt request.lastBlockNumber = .ok stateView := by
    rw [hlast, hsealed.lastBlockNumber, honest.stateViewAt last (mem_of_getLast? hsealed.getLast), hsealed.view]
  have hrebuilt := rebuildCommitInfo_of_sealed honest hsealed hnumber hmode hv8
  obtain ⟨_, _, hfirstNumber, hlastNumber⟩ := numbers_of_rebuildCommitInfo hrebuilt
  obtain ⟨digest, hdigest, hsigned⟩ :=
    signBatch_eq env request.prevCommitData hproving hfirstNumber hlastNumber
  rw [honest.sameEncoders, honest.eip712SigningHash, honest.diamondProxy, honest.l1ChainId, honest.validatorTimelock] at hdigest
  refine ⟨digest, hdigest, ?_⟩
  rw [handleVerificationRequest, hview, hfirst, hlast, hsealed.firstBlockNumber, hsealed.lastBlockNumber,
    cachedBlocks_range hconsecutive honest.holds hsealed.head hsealed.getLast]
  dsimp only
  rw [verifyBlocks, getLast?_map, hsealed.getLast, head?_map, hsealed.head]
  simp only [Option.map_some, ofOption_some, ok_bind]
  rw [show (TreeBlock.ofExecuted first).record = first.record from rfl, hproving]
  dsimp only
  rw [hrebuilt, ok_bind]
  dsimp only
  rw [if_neg (not_not.mpr hdata.symm), hsigned, honest.signHash]
  rfl

end

/-! ### Two blocks -/

/-- A block of version 30 with the given transactions. -/
def sampleExecutedBlock (number : Nat) (transactions : List ZkTransaction) : ExecutedBlock where
  output := ⟨⟨toU256 number, number, 10 * number, none⟩, transactions.map fun _ => some ⟨true, 21000, none, [], []⟩, .bytes []⟩
  record := { sampleTreeBlock.record with
    blockContext := { sampleTreeBlock.record.blockContext with blockNumber := number, timestamp := 10 * number }
    transactions
    protocolVersion := ⟨0, 30, 2⟩ }
  treeOutput := ⟨toU256 number, number⟩
  results := by
    induction transactions with
    | nil => rfl
    | cons tx transactions ih => exact congrArg Nat.succ ih
  number := rfl

/-- Block 5 with one transaction and block 6. -/
def sampleBlocks : List ExecutedBlock := [sampleExecutedBlock 5 [⟨.l2 ⟨8, 30000⟩, 7⟩], sampleExecutedBlock 6 []]

def lengthPrimitives : Primitives where
  keccak256 bytes := toU256 bytes.length
  blake2s256 bytes := toU256 bytes.length
  systemTxHash _ := 0

def sampleMain : Env where
  primitives := lengthPrimitives
  buildSidecar := sampleEnv.buildSidecar
  deriveFlatStorageKey := sampleEnv.deriveFlatStorageKey
  effectiveGasPrice _ _ := 0
  stateViewAt := sampleEnv.stateViewAt

def word (data : Bytes) (i : Nat) : B256 := Types.B256.ofBytes ((data.drop (32 * i)).take 32)

def decodeV29 (data : Bytes) : CommitBatchInfoV29 :=
  ⟨(word data 0).val, word data 1, word data 2, word data 3, word data 4, word data 5, word data 6, (word data 7).val,
    (word data 8).val, word data 9, data.drop 320⟩

def decodeV30 (data : Bytes) : CommitBatchInfoV30 :=
  ⟨decodeV29 (data.drop 96), [.none, .emptyNoDA, .pubdataKeccak256, .blobsAndPubdataKeccak256, .blobsZKsyncOS][(word data 0).val]?,
    (word data 1).val, (word data 2).val⟩

/-- What `sampleEncoders` encode is read field by field. -/
def sampleDecoders : AbiDecoders where
  commitV29 data := .ok (decodeV29 data)
  commitV30 data := .ok (decodeV30 data)
  commitV31 data := .ok ⟨decodeV30 (data.drop 64), word data 0, word data 1⟩
  stored data := .ok ⟨(word data 0).val, word data 1, word data 2, word data 3, word data 4, word data 5, word data 6⟩

def sampleKey : SigningKey := ⟨5, sampleSignHash⟩

def verifierEnv : ResponderEnv := { sampleEnv with
  primitives := lengthPrimitives
  decoders := sampleDecoders
  encoders := sampleEncoders
  eip712SigningHash := sampleSigning.eip712SigningHash
  signHash := sampleSignHash }

def verifierCache : BlockCache :=
  ⟨(Std.ExtTreeMap.empty.insert 5 (.ofExecuted (sampleExecutedBlock 5 [⟨.l2 ⟨8, 30000⟩, 7⟩]))).insert 6
    (.ofExecuted (sampleExecutedBlock 6 [])), some (5, 6)⟩

/-- The settlement layer knows another validator only. -/
def otherValidatorL1 : L1State := ⟨.enabled ⟨1, [6]⟩, 9, 2, 3⟩

def sampleStored : StoredBatchInfo := ⟨0, 11, 1, 12, 13, 14, 15⟩

/-- The batch of both blocks. -/
def sampleSealed : BatchForSigning Unit where
  batch := {
    previousStoredBatchInfo := sampleStored
    batchInfo := {
      commitInfo := ⟨1, 88, 0, 1, 0, 0, 64, .emptyNoDA, 0, 50, some 5, 60, some 6, 270, List.replicate 32 0, 9⟩
      upgradeTxHash := none
      protocolVersion := ⟨0, 30, 2⟩ }
    chainAddress := 2
    firstBlockNumber := 5
    lastBlockNumber := 6
    pubdataMode := .validium }
  data := ()
  signatureData := ()

theorem sampleSealed_eq :
    sealBatch sampleMain (fun _ => .error "not supported") (fun _ _ _ => .ok ()) sampleBlocks sampleStored 1 270 2 .validium 9 =
      .ok sampleSealed := by
  decide +kernel

theorem sampleSealed_roundTrips :
    RoundTrips sampleEncoders sampleDecoders sampleStored sampleSealed.batch.batchInfo.commitInfo := by
  refine ⟨?_, ?_, by decide +kernel⟩
  · rintro _ ⟨⟩
    decide +kernel
  · rintro _ ⟨⟩
    decide +kernel

theorem sampleBlocks_consecutive : Consecutive sampleBlocks := .cons_cons rfl (.singleton _)

theorem honestVerifier_sample (batchVerification : BatchVerificationSL) :
    HonestVerifier sampleMain ⟨batchVerification, 9, 2, 3⟩ sampleSigning sampleEncoders 270 sampleBlocks verifierEnv sampleKey
      verifierCache where
  primitives := rfl
  buildSidecar := rfl
  deriveFlatStorageKey := rfl
  holds := by
    refine forall_mem_cons.mpr ⟨?_, forall_mem_singleton.mpr Std.ExtTreeMap.getElem?_insert_self⟩
    exact (Std.ExtTreeMap.getElem?_insert ..).trans Std.ExtTreeMap.getElem?_insert_self
  stateViewAt := fun _ _ => rfl
  sameChainId := rfl
  l1ChainId := rfl
  diamondProxy := rfl
  validatorTimelock := rfl
  sameEncoders := rfl
  eip712SigningHash := rfl
  signHash := rfl
  sound := fun digest => ⟨by simp [sampleKey, sampleSignHash, Types.bytesOf, Types.beBytes], ⟨sampleSignHash digest⟩, rfl, if_pos rfl⟩

/-- A batch of version 30 or 31 that the main node sealed is approved by a verifier that is honest, and
the main node accepts the signature if it accepts the signer. -/
theorem honest_verification_succeeds {E : Type} (main : Env) (l1State : L1State) (config : BatchVerificationConfig)
    (lastCommittedBatchNumber : Nat) (signing : Signing) (encoders : AbiEncoders) (env : ResponderEnv) (key : SigningKey)
    (cache : BlockCache) (nativeBatchInfo : List ExecutedBlock → Except String PendingBatchInfo)
    (computeBatchProverInput : List ExecutedBlock → ProvingVersion → PubdataMode → Except String E)
    (blocks : List ExecutedBlock) (version : ProtocolSemanticVersion) (prev : StoredBatchInfo) (batchNumber chainId : Nat)
    (chainAddress : Address) (pubdataMode : PubdataMode) (requestId : Nat) (envelope : BatchForSigning E)
    (hconsecutive : Consecutive blocks) (hversion : ∀ block ∈ blocks, block.record.protocolVersion = version)
    (hminor : version.minor = 30 ∨ version.minor = 31)
    (hsealed : sealBatch main nativeBatchInfo computeBatchProverInput blocks prev batchNumber chainId chainAddress pubdataMode
      l1State.l1ChainId = .ok envelope)
    (hwidths : WithinU64 envelope.batch.batchInfo.commitInfo) (hprevWidth : prev.numberOfLayer1Txs < 2 ^ 64)
    (hcoding : RoundTrips encoders env.decoders prev envelope.batch.batchInfo.commitInfo)
    (honest : HonestVerifier main l1State signing encoders chainId blocks env key cache) :
    ∃ message, encodeVerifyBatchRequest encoders envelope requestId = .ok message ∧
    ∃ signature, handleVerificationMessage env cache message = .ok ⟨requestId, batchNumber, .approved signature⟩ ∧
    (key.address ∈ (effectiveVerificationPolicy config l1State).2 →
      ∃ validated, (BatchVerificationRunner.new config l1State lastCommittedBatchNumber).processResponse signing encoders
        envelope (.approved signature) = .ok (some validated) ∧ validated.signer = key.address) := by
  obtain ⟨⟨provingVersion, hproving, hv8⟩, rfl, first, last, stateView, hbatch⟩ := exists_sealed hsealed hversion hminor
  obtain ⟨sidecar, hbuilt⟩ := hbatch.built
  obtain ⟨⟨firstNumber, lastNumber, hfirst, hlast⟩, hnumber, hbatchVersion, -⟩ := PendingBatchInfo.build_eq_ok hbuilt
  have hfirstVersion := hversion first (mem_of_mem_head? hbatch.head)
  rw [hfirstVersion] at hbatchVersion
  have hbatchMinor : envelope.batch.batchInfo.protocolVersion.minor = 30 ∨
      envelope.batch.batchInfo.protocolVersion.minor = 31 := by
    rwa [hbatchVersion]
  obtain ⟨message, hencode, hid, hmessageNumber, hdecode⟩ :=
    exists_encodeVerifyBatchRequest hcoding hwidths hprevWidth hfirst hlast hbatchMinor requestId
  obtain ⟨digest, hdigest, hhandled⟩ := handleVerificationRequest_of_sealed honest hbatch hconsecutive {
      executionProtocolVersion := envelope.batch.batchInfo.protocolVersion.minor, batchNumber := envelope.batchNumber
      firstBlockNumber := envelope.batch.firstBlockNumber, lastBlockNumber := envelope.batch.lastBlockNumber
      pubdataMode := envelope.batch.pubdataMode, requestId
      commitData := normalizedCommitData envelope.batch.batchInfo.commitInfo envelope.batch.batchInfo.protocolVersion.minor
      prevCommitData := envelope.batch.previousStoredBatchInfo }
    hnumber hbatch.mode rfl rfl rfl (hfirstVersion ▸ hproving) hv8
  refine ⟨message, hencode, key.signHash digest, ?_, fun haccepted => ?_⟩
  · rw [handleVerificationMessage, hdecode, ok_bind, hhandled, ok_bind, hid, hmessageNumber, BatchEnvelope.batchNumber, hnumber]
    rfl
  · obtain ⟨hlength, signature, hparsed, hrecovers⟩ := honest.sound digest
    refine ⟨⟨signature, key.address⟩, BatchVerificationRunner.processResponse_approved hlength hparsed
      ⟨haccepted, digest, ?_, hrecovers⟩, rfl⟩
    rw [hbatchVersion, ← hfirstVersion]
    exact hdigest

theorem honest_verification_succeeds_for_two_blocks :
    ∃ message, encodeVerifyBatchRequest sampleEncoders sampleSealed 7 = .ok message ∧
    ∃ signature, handleVerificationMessage verifierEnv verifierCache message = .ok ⟨7, 1, .approved signature⟩ ∧
    ∃ validated, (BatchVerificationRunner.new ⟨1, []⟩ verifiedL1 0).processResponse sampleSigning sampleEncoders sampleSealed
      (.approved signature) = .ok (some validated) ∧ validated.signer = 5 := by
  obtain ⟨message, hencode, signature, hhandled, haccepts⟩ := honest_verification_succeeds sampleMain verifiedL1 ⟨1, []⟩ 0
    sampleSigning sampleEncoders verifierEnv sampleKey verifierCache (fun _ => .error "not supported") (fun _ _ _ => .ok ())
    sampleBlocks ⟨0, 30, 2⟩ sampleStored 1 270 2 .validium 7 sampleSealed sampleBlocks_consecutive
    (by simp [sampleBlocks, sampleExecutedBlock]) (.inl rfl) sampleSealed_eq ⟨by decide, by decide, by decide, by decide⟩
    (by decide) sampleSealed_roundTrips (honestVerifier_sample _)
  exact ⟨message, hencode, signature, hhandled, haccepts (by decide)⟩

/-- The signature of a verifier that is not among the validators is not accepted. -/
theorem verifier_outside_the_policy_is_rejected :
    HonestVerifier sampleMain otherValidatorL1 sampleSigning sampleEncoders 270 sampleBlocks verifierEnv sampleKey
      verifierCache ∧
    sealBatch sampleMain (fun _ => .error "not supported") (fun _ _ _ => .ok ()) sampleBlocks sampleStored 1 270 2 .validium 9 =
      .ok sampleSealed ∧
    RoundTrips sampleEncoders sampleDecoders sampleStored sampleSealed.batch.batchInfo.commitInfo ∧
    ∃ message, encodeVerifyBatchRequest sampleEncoders sampleSealed 7 = .ok message ∧
    ∃ signature, handleVerificationMessage verifierEnv verifierCache message = .ok ⟨7, 1, .approved signature⟩ ∧
      (BatchVerificationRunner.new ⟨1, []⟩ otherValidatorL1 0).processResponse sampleSigning sampleEncoders sampleSealed
        (.approved signature) = .ok none :=
  ⟨honestVerifier_sample _, sampleSealed_eq, sampleSealed_roundTrips, _, rfl, sampleSignHash 359, by decide +kernel,
    by decide +kernel⟩

end BatchVerification
