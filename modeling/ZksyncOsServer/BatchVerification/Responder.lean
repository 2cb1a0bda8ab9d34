import ZksyncOsServer.BatchTypes.Buildable
import ZksyncOsServer.BatchVerification.Encode

/-!
# The batch verification responder

`batch_verification/src/verifier`: a verifier keeps the blocks of batches that are not committed yet
and answers requests of peers by rebuilding the batch from them. Errors of the rebuild are refusals.
Errors of decoding a message are returned by the component, and a panic ends it as well: a message
that does not decode, an empty range of blocks, or a range whose blocks cannot form one batch stops
the responder. Otherwise every request is answered.
-/
namespace BatchVerification

open BatchTypes Fallible
open L1Watcher (StoredBatchInfo)
open MerkleTree (B256 Map TreeBatchOutput)
open ProverApi (ProtocolSemanticVersion ProvingVersion)
open Replay (ReplayRecord)
open Repository (Address)
open Run Types

structure TreeBlock where
  output : BlockOutput
  record : ReplayRecord ZkTransaction
  treeOutput : TreeBatchOutput B256

structure NativeBatchRunOutput where
  pubdata : Bytes
  previousStateCommitment : B256
  batchPublicInputHash : B256
  newStateCommitment : B256
  daCommitment : B256
  numberOfLayer1Txs : Nat
  numberOfLayer2Txs : Nat
  priorityOperationsHash : B256
  dependencyRootsRollingHash : B256
  l2ToL1LogsRootHash : B256
  firstBlockTimestamp : Nat
  lastBlockTimestamp : Nat
  chainId : Nat
  slChainId : Nat
  upgradeTxHash : Option B256

/-- What the responder is given: its configuration, the state, the ABI, the hash of typed data and the signer. An error
of `generateBatchRun` is one of the run or a panic of the task that it runs in. -/
structure ResponderEnv where
  primitives : Primitives
  buildSidecar : Bytes → Except String (List B256)
  deriveFlatStorageKey : B256 → B256
  stateViewAt : Nat → Except String StateView
  decoders : AbiDecoders
  encoders : AbiEncoders
  chainId : Nat
  l1ChainId : Nat
  generateBatchRun : List TreeBlock → PubdataMode → Except String NativeBatchRunOutput
  chainConfigHash : Nat → Except String B256
  diamondProxy : Address
  validatorTimelock : Address
  eip712SigningHash : CommitBatchesMultisig → Eip712Domain → B256
  signHash : B256 → Bytes

/-! ### The block cache -/

structure BlockCache where
  data : Map Nat TreeBlock
  range : Option (Nat × Nat)

namespace BlockCache

def new : BlockCache := ⟨∅, none⟩

def removeLowerThen (this : BlockCache) (blockNumber : Nat) : BlockCache :=
  match this.range with
  | none => this
  | some (low, high) =>
    if blockNumber ≤ low then this
    else if high < blockNumber then ⟨∅, none⟩
    else ⟨this.data.filter fun number _ => blockNumber ≤ number, some (blockNumber, high)⟩

def insert (this : BlockCache) (blockNumber : Nat) (block : TreeBlock) (lastCommittedBlock : Nat) : Except Stop BlockCache :=
  match this.range with
  | some (low, high) =>
    if blockNumber ≠ high + 1 then .error (.error "Out of order block received. This should never happen")
    else .ok (removeLowerThen ⟨this.data.insert blockNumber block, some (low, blockNumber)⟩ (lastCommittedBlock + 1))
  | none =>
    .ok (removeLowerThen ⟨this.data.insert blockNumber block, some (blockNumber, blockNumber)⟩ (lastCommittedBlock + 1))

end BlockCache

/-! ### Handling a request -/

inductive BatchVerificationError where
  | missingBlock (blockNumber : Nat)
  | batchDataMismatch
  | state (error : String)
  | internal (error : String)
  deriving DecidableEq

def BatchVerificationError.message : BatchVerificationError → String
  | .missingBlock blockNumber => "Missing records for block " ++ toString blockNumber
  | .batchDataMismatch => "Batch data mismatch"
  | .state error => "State error: " ++ error
  | .internal error => error

/-- The cached blocks of a range, given by its length and its first number. -/
def cachedBlocks (cache : BlockCache) : Nat → Nat → Except BatchVerificationError (List TreeBlock)
  | 0, _ => .ok []
  | count + 1, blockNumber =>
    match cache.data[blockNumber]? with
    | none => .error (.missingBlock blockNumber)
    | some block => do return block :: (← cachedBlocks cache count (blockNumber + 1))

variable (env : ResponderEnv)

/-- `build_from_canonical_output`; an inner error is returned, an outer one is a panic. -/
def buildFromCanonicalOutput (run : NativeBatchRunOutput) (batchNumber firstBlockNumber lastBlockNumber : Nat)
    (pubdataMode : PubdataMode) : Except Stop (Except String CommitBatchInfo) := do
  let daFields ← panicking (calculateDaFields env.primitives env.buildSidecar run.pubdata pubdataMode)
  return if daFields.daCommitment ≠ run.daCommitment then .error "canonical batch DA commitment mismatch"
  else .ok {
    batchNumber
    newStateCommitment := run.newStateCommitment
    numberOfLayer1Txs := run.numberOfLayer1Txs
    numberOfLayer2Txs := run.numberOfLayer2Txs
    priorityOperationsHash := run.priorityOperationsHash
    dependencyRootsRollingHash := run.dependencyRootsRollingHash
    l2ToL1LogsRootHash := run.l2ToL1LogsRootHash
    l2DaCommitmentScheme := pubdataMode.daCommitmentScheme
    daCommitment := run.daCommitment
    firstBlockTimestamp := run.firstBlockTimestamp
    firstBlockNumber := some firstBlockNumber
    lastBlockTimestamp := run.lastBlockTimestamp
    lastBlockNumber := some lastBlockNumber
    chainId := run.chainId
    operatorDaInput := daFields.operatorDaInput
    slChainId := run.slChainId }

def schemeNumber : DACommitmentScheme → Nat
  | .none => 0
  | .emptyNoDA => 1
  | .pubdataKeccak256 => 2
  | .blobsAndPubdataKeccak256 => 3
  | .blobsZKsyncOS => 4

def v32BatchOutputHash (primitives : Primitives) (info : CommitBatchInfo) (upgradeTxHash : Option B256) : B256 :=
  primitives.keccak256 (beBytes 8 info.firstBlockTimestamp ++ beBytes 8 info.lastBlockTimestamp ++
    beBytes 32 (schemeNumber info.l2DaCommitmentScheme) ++ bytesOf info.daCommitment ++ beBytes 32 info.numberOfLayer1Txs ++
    beBytes 32 info.numberOfLayer2Txs ++ bytesOf info.priorityOperationsHash ++ bytesOf info.l2ToL1LogsRootHash ++
    bytesOf (upgradeTxHash.getD 0) ++ bytesOf info.dependencyRootsRollingHash ++ beBytes 32 info.slChainId)

def checkPublicInput (run : NativeBatchRunOutput) (info : CommitBatchInfo) : Except String CommitBatchInfo := do
  let chainConfigHash ← env.chainConfigHash env.chainId
  let reconstructed := env.primitives.keccak256 (bytesOf run.previousStateCommitment ++ bytesOf info.newStateCommitment ++
    bytesOf chainConfigHash ++ bytesOf (v32BatchOutputHash env.primitives info run.upgradeTxHash))
  require (reconstructed = run.batchPublicInputHash) "batch public input hash mismatch"
  return info

def buildBatchInfo (run : NativeBatchRunOutput) (request : VerificationRequest) :
    Except Stop (Except String CommitBatchInfo) :=
  if run.chainId ≠ env.chainId then .ok (.error "native batch run chain id mismatch")
  else if run.slChainId ≠ env.l1ChainId then .ok (.error "native batch run SL chain id mismatch")
  else do
    let built ← buildFromCanonicalOutput env run request.batchNumber request.firstBlockNumber request.lastBlockNumber
      request.pubdataMode
    return built >>= checkPublicInput env run

def rebuildCommitInfo (request : VerificationRequest) (blocks : List TreeBlock) (first last : TreeBlock)
    (stateView : StateView) : ProvingVersion → Except Stop (Except String CommitBatchInfo)
  | .v8 =>
    match env.generateBatchRun blocks request.pubdataMode with
    | .error error => .ok (.error error)
    | .ok run => buildBatchInfo env run request
  | .v6 | .v7 => do
    let built ← panicking (PendingBatchInfo.build env.primitives env.buildSidecar
      (blocks.map fun block => (block.output, block.record.transactions, block.treeOutput)) env.chainId request.batchNumber
      request.pubdataMode env.l1ChainId (readMultichainRoot env.primitives env.deriveFlatStorageKey stateView)
      first.record.protocolVersion last.record.blockContext.blockHashes)
    return .ok built.1.commitInfo

def signBatch (prev : StoredBatchInfo) (info : CommitBatchInfo) (version : ProtocolSemanticVersion) : Except Stop Bytes := do
  let digest ← eip712MultisigDigest env.encoders env.eip712SigningHash prev info env.diamondProxy env.l1ChainId
    env.validatorTimelock version
  return env.signHash digest

/-- The part of `handle_verification_request` after the data is there. -/
def verifyBlocks (request : VerificationRequest) (blocks : List TreeBlock) (stateView : StateView) :
    Except Stop (Except BatchVerificationError Bytes) := do
  let last ← ofOption (.panic "called unwrap on a None value") blocks.getLast?
  let first ← ofOption (.panic "called unwrap on a None value") blocks.head?
  match ProvingVersion.tryFrom first.record.protocolVersion with
  | .error error => return .error (.internal error)
  | .ok provingVersion =>
    match ← rebuildCommitInfo env request blocks first last stateView provingVersion with
    | .error error => return .error (.internal error)
    | .ok commitInfo =>
      if normalizedCommitData commitInfo request.executionProtocolVersion ≠ request.commitData then
        return .error .batchDataMismatch
      else
        let signature ← signBatch env request.prevCommitData commitInfo first.record.protocolVersion
        return .ok signature

def handleVerificationRequest (cache : BlockCache) (request : VerificationRequest) :
    Except Stop (Except BatchVerificationError Bytes) :=
  match cachedBlocks cache (request.lastBlockNumber + 1 - request.firstBlockNumber) request.firstBlockNumber with
  | .error error => .ok (.error error)
  | .ok blocks =>
    match env.stateViewAt request.lastBlockNumber with
    | .error error => .ok (.error (.state error))
    | .ok stateView => verifyBlocks env request blocks stateView

inductive VerifyBatchOutcome where
  | approved (signature : Bytes)
  | refused (reason : String)
  deriving DecidableEq

structure VerifyBatchResult where
  requestId : Nat
  batchNumber : Nat
  result : VerifyBatchOutcome
  deriving DecidableEq

/-- The outcome of a handled request. -/
def outcome : Except BatchVerificationError Bytes → VerifyBatchOutcome
  | .ok signature => .approved signature
  | .error reason => .refused reason.message

def handleVerificationMessage (cache : BlockCache) (message : VerifyBatch) : Except Stop VerifyBatchResult := do
  let request ← VerificationRequest.tryFrom env.decoders message
  let handled ← handleVerificationRequest env cache request
  return ⟨message.requestId, message.batchNumber, outcome handled⟩

/-! ### The component -/

inductive Status where
  | running
  | returned
  | stopped (stop : Stop)
  deriving DecidableEq

/-- The component, with the answers it has sent. -/
structure Responder where
  cache : BlockCache
  status : Status
  answers : List (Nat × VerifyBatchResult)

/-- What the loop of `run` selects: a block, with the last committed one at that time, a request of a
peer, or the end of one of the channels. -/
inductive ResponderEvent where
  | block (block : TreeBlock) (lastCommittedBlock : Nat)
  | request (peerId : Nat) (message : VerifyBatch)
  | closed

def Responder.new : Responder := ⟨.new, .running, []⟩

variable (this : Responder)

/-- A turn of the loop of `run`. -/
def Responder.turn : ResponderEvent → Responder
  | .block block lastCommittedBlock =>
    match this.cache.insert block.record.blockContext.blockNumber block lastCommittedBlock with
    | .ok cache => { this with cache }
    | .error stop => { this with status := .stopped stop }
  | .request peerId message =>
    match handleVerificationMessage env this.cache message with
    | .ok result => { this with answers := this.answers ++ [(peerId, result)] }
    | .error stop => { this with status := .stopped stop }
  | .closed => { this with status := .returned }

def Responder.step (event : ResponderEvent) : Responder :=
  if this.status = .running then this.turn env event else this

/-! ### Requests that are answered -/

def Rebuildable (blocks : List TreeBlock) (pubdataMode : PubdataMode) : ProvingVersion → Prop
  | .v8 => ∀ run, env.generateBatchRun blocks pubdataMode = .ok run → run.chainId = env.chainId →
      run.slChainId = env.l1ChainId → pubdataMode = .blobs → ∃ hashes, env.buildSidecar run.pubdata = .ok hashes
  | .v6 | .v7 => Buildable env.buildSidecar
      (blocks.map fun block => (block.output, block.record.transactions, block.treeOutput)) pubdataMode

/-- The message decodes, and if its blocks and its state are there, they are at least one block and
form a batch. -/
structure Answerable (cache : BlockCache) (message : VerifyBatch) : Prop where
  wellFormed : WellFormed env.decoders message
  range : (∃ stateView, env.stateViewAt message.lastBlockNumber = .ok stateView) →
    message.firstBlockNumber ≤ message.lastBlockNumber
  batch : (∃ stateView, env.stateViewAt message.lastBlockNumber = .ok stateView) → ∀ first rest pubdataMode provingVersion,
    cachedBlocks cache (message.lastBlockNumber + 1 - message.firstBlockNumber) message.firstBlockNumber =
      .ok (first :: rest) →
    pubdataModeFromU8 message.pubdataMode = some pubdataMode →
    ProvingVersion.tryFrom first.record.protocolVersion = .ok provingVersion →
    Rebuildable env (first :: rest) pubdataMode provingVersion

variable {env} {cache : BlockCache} {blocks : List TreeBlock} {request : VerificationRequest}

theorem length_cachedBlocks {count blockNumber : Nat}
    (h : cachedBlocks cache count blockNumber = .ok blocks) : blocks.length = count := by
  induction count generalizing blockNumber blocks with
  | zero =>
    cases h
    rfl
  | succ count ih =>
    rw [cachedBlocks] at h
    cases hget : cache.data[blockNumber]? with
    | none =>
      rw [hget] at h
      cases h
    | some block =>
      simp only [hget, bind_eq_ok, pure_eq_ok] at h
      obtain ⟨rest, hrest, rfl⟩ := h
      rw [List.length_cons, ih hrest]

theorem exists_buildFromCanonicalOutput {run : NativeBatchRunOutput} {batchNumber first last : Nat} {mode : PubdataMode} :
    (∃ built, buildFromCanonicalOutput env run batchNumber first last mode = .ok built) ↔
      (mode = .blobs → ∃ hashes, env.buildSidecar run.pubdata = .ok hashes) := by
  rw [buildFromCanonicalOutput, exists_bind_eq_ok]
  simp only [panicking_eq_ok, pure_eq_ok, exists_eq', and_true]
  exact exists_calculateDaFields

theorem exists_buildBatchInfo {run : NativeBatchRunOutput} :
    (∃ built, buildBatchInfo env run request = .ok built) ↔ (run.chainId = env.chainId → run.slChainId = env.l1ChainId →
      request.pubdataMode = .blobs → ∃ hashes, env.buildSidecar run.pubdata = .ok hashes) := by
  rw [buildBatchInfo]
  by_cases hchain : run.chainId = env.chainId
  · by_cases hsl : run.slChainId = env.l1ChainId
    · rw [if_neg (not_not.mpr hchain), if_neg (not_not.mpr hsl), exists_bind_eq_ok]
      simp only [pure_eq_ok, exists_eq', and_true, hchain, hsl, true_imp_iff]
      exact exists_buildFromCanonicalOutput
    · simp [hchain, hsl]
  · simp [hchain]

theorem exists_rebuildCommitInfo {first last : TreeBlock} {stateView : StateView} {provingVersion : ProvingVersion} :
    (∃ built, rebuildCommitInfo env request blocks first last stateView provingVersion = .ok built) ↔
      Rebuildable env blocks request.pubdataMode provingVersion := by
  cases provingVersion with
  | v8 =>
    rw [rebuildCommitInfo, Rebuildable]
    cases hrun : env.generateBatchRun blocks request.pubdataMode with
    | error error => simp
    | ok run => simpa using exists_buildBatchInfo
  | v6 | v7 =>
    simp only [rebuildCommitInfo, Rebuildable, exists_bind_eq_ok, panicking_eq_ok, pure_eq_ok, exists_eq', and_true]
    exact PendingBatchInfo.exists_build

theorem numbers_of_rebuildCommitInfo {first last : TreeBlock} {stateView : StateView} {provingVersion : ProvingVersion}
    {info : CommitBatchInfo} (h : rebuildCommitInfo env request blocks first last stateView provingVersion = .ok (.ok info)) :
    ∃ firstNumber lastNumber, info.firstBlockNumber = some firstNumber ∧ info.lastBlockNumber = some lastNumber := by
  cases provingVersion with
  | v8 =>
    rw [rebuildCommitInfo] at h
    split at h
    · cases h
    · rw [buildBatchInfo] at h
      split at h
      · cases h
      · split at h
        · cases h
        · simp only [bind_eq_ok, pure_eq_ok] at h
          obtain ⟨built, hbuilt, hchecked⟩ := h
          simp only [checkPublicInput, bind_eq_ok, pure_eq_ok] at hchecked
          obtain ⟨_, rfl, _, -, _, -, rfl⟩ := hchecked
          simp only [buildFromCanonicalOutput, bind_eq_ok, pure_eq_ok] at hbuilt
          obtain ⟨daFields, -, hbuilt⟩ := hbuilt
          split at hbuilt <;> cases hbuilt
          exact ⟨_, _, rfl, rfl⟩
  | v6 | v7 =>
    simp only [rebuildCommitInfo, bind_eq_ok, panicking_eq_ok, pure_eq_ok, Except.ok.injEq] at h
    obtain ⟨built, hbuilt, rfl⟩ := h
    exact (PendingBatchInfo.build_eq_ok hbuilt).1

variable (env) in
theorem signBatch_eq (prev : StoredBatchInfo) {info : CommitBatchInfo} {version : ProtocolSemanticVersion}
    {provingVersion : ProvingVersion} (h : ProvingVersion.tryFrom version = .ok provingVersion) {first last : Nat}
    (hfirst : info.firstBlockNumber = some first) (hlast : info.lastBlockNumber = some last) :
    ∃ digest, eip712MultisigDigest env.encoders env.eip712SigningHash prev info env.diamondProxy env.l1ChainId
      env.validatorTimelock version = .ok digest ∧ signBatch env prev info version = .ok (env.signHash digest) := by
  obtain ⟨batchData, hdata⟩ := exists_encodeCommitBatchData env.encoders prev hfirst hlast h
  simp only [signBatch, eip712MultisigDigest, hdata]
  exact ⟨_, rfl, rfl⟩

theorem exists_verifyBlocks {stateView : StateView} :
    (∃ verified, verifyBlocks env request blocks stateView = .ok verified) ↔ ∃ first rest, blocks = first :: rest ∧
      ∀ provingVersion, ProvingVersion.tryFrom first.record.protocolVersion = .ok provingVersion →
        Rebuildable env blocks request.pubdataMode provingVersion := by
  cases blocks with
  | nil => simp [verifyBlocks, ofOption, bind, Except.bind]
  | cons first rest =>
    have hlast : (first :: rest).getLast? = some ((first :: rest).getLast (List.cons_ne_nil _ _)) :=
      List.getLast?_eq_some_getLast _
    rw [verifyBlocks, hlast, ofOption_some, ok_bind, List.head?_cons, ofOption_some, ok_bind]
    cases hversion : ProvingVersion.tryFrom first.record.protocolVersion with
    | error error => simp [pure, Except.pure, hversion]
    | ok provingVersion =>
      simp only [exists_bind_eq_ok, List.cons.injEq]
      constructor
      · rintro ⟨built, hbuilt, -⟩
        refine ⟨first, rest, ⟨rfl, rfl⟩, ?_⟩
        rw [hversion]
        rintro _ ⟨⟩
        exact exists_rebuildCommitInfo.mp ⟨built, hbuilt⟩
      · rintro ⟨_, _, ⟨rfl, rfl⟩, hrebuild⟩
        obtain ⟨built, hbuilt⟩ := exists_rebuildCommitInfo.mpr (hrebuild provingVersion hversion)
        refine ⟨built, hbuilt, ?_⟩
        cases built with
        | error error => exact ⟨_, rfl⟩
        | ok commitInfo =>
          dsimp only
          split
          · exact ⟨_, rfl⟩
          · obtain ⟨_, _, hfirst, hlast⟩ := numbers_of_rebuildCommitInfo hbuilt
            obtain ⟨digest, -, hsigned⟩ := signBatch_eq env request.prevCommitData hversion hfirst hlast
            rw [hsigned, ok_bind]
            exact ⟨_, rfl⟩

theorem exists_handleVerificationRequest : (∃ handled, handleVerificationRequest env cache request = .ok handled) ↔
      ∀ blocks stateView,
        cachedBlocks cache (request.lastBlockNumber + 1 - request.firstBlockNumber) request.firstBlockNumber = .ok blocks →
        env.stateViewAt request.lastBlockNumber = .ok stateView → ∃ first rest, blocks = first :: rest ∧
          ∀ provingVersion, ProvingVersion.tryFrom first.record.protocolVersion = .ok provingVersion →
            Rebuildable env blocks request.pubdataMode provingVersion := by
  rw [handleVerificationRequest]
  cases hblocks : cachedBlocks cache (request.lastBlockNumber + 1 - request.firstBlockNumber) request.firstBlockNumber with
  | error error => simp
  | ok blocks =>
    cases hview : env.stateViewAt request.lastBlockNumber with
    | error error => simp
    | ok stateView =>
      refine exists_verifyBlocks.trans ⟨?_, fun h => h blocks stateView rfl rfl⟩
      rintro h _ _ ⟨⟩ ⟨⟩
      exact h

theorem exists_handleVerificationMessage {message : VerifyBatch} :
    (∃ result, handleVerificationMessage env cache message = .ok result) ↔ Answerable env cache message := by
  rw [handleVerificationMessage, exists_bind_eq_ok]
  simp only [exists_bind_eq_ok, pure_eq_ok, exists_eq', and_true]
  constructor
  · rintro ⟨request, hrequest, handled, hhandled⟩
    obtain ⟨hfirst, hlast, hmode⟩ := tryFrom_eq_ok hrequest
    have hrebuild := exists_handleVerificationRequest.mp ⟨handled, hhandled⟩
    rw [hfirst, hlast] at hrebuild
    refine ⟨exists_tryFrom.mp ⟨request, hrequest⟩, ?_, ?_⟩
    · rintro ⟨stateView, hview⟩
      by_contra hempty
      have hcount : message.lastBlockNumber + 1 - message.firstBlockNumber = 0 := by omega
      rw [hcount] at hrebuild
      obtain ⟨first, rest, hnil, -⟩ := hrebuild [] stateView rfl hview
      cases hnil
    · rintro ⟨stateView, hview⟩ first rest pubdataMode provingVersion hblocks hmode' hversion
      obtain ⟨_, _, ⟨⟩, hbatch⟩ := hrebuild _ stateView hblocks hview
      rw [hmode, Option.some.injEq] at hmode'
      rw [← hmode']
      exact hbatch provingVersion hversion
  · intro h
    obtain ⟨request, hrequest⟩ := exists_tryFrom.mpr h.wellFormed
    obtain ⟨hfirst, hlast, hmode⟩ := tryFrom_eq_ok hrequest
    refine ⟨request, hrequest, exists_handleVerificationRequest.mpr ?_⟩
    rw [hfirst, hlast]
    intro blocks stateView hblocks hview
    have hlength := length_cachedBlocks hblocks
    have hrange := h.range ⟨stateView, hview⟩
    obtain ⟨first, rest, rfl⟩ : ∃ first rest, blocks = first :: rest := List.exists_cons_of_length_pos (by omega)
    exact ⟨first, rest, rfl, fun provingVersion hversion =>
      h.batch ⟨stateView, hview⟩ first rest _ provingVersion hblocks hmode hversion⟩

theorem handleVerificationMessage_ids {message : VerifyBatch} {result : VerifyBatchResult}
    (h : handleVerificationMessage env cache message = .ok result) :
    result.requestId = message.requestId ∧ result.batchNumber = message.batchNumber := by
  simp only [handleVerificationMessage, bind_eq_ok, pure_eq_ok] at h
  obtain ⟨-, -, -, -, rfl⟩ := h
  exact ⟨rfl, rfl⟩

/-! ### Runs -/

variable (env)

/-- The node itself does not end the component: blocks arrive in order and no channel is closed. -/
def Undisturbed : ResponderEvent → Prop
  | .block block lastCommittedBlock =>
    ∃ cache, this.cache.insert block.record.blockContext.blockNumber block lastCommittedBlock = .ok cache
  | .request .. => True
  | .closed => False

/-- A request gets an answer and has no other effect. -/
def Served : ResponderEvent → Prop
  | .request peerId message => ∃ result, handleVerificationMessage env this.cache message = .ok result ∧
      result.requestId = message.requestId ∧ result.batchNumber = message.batchNumber ∧
      this.step env (.request peerId message) = { this with answers := this.answers ++ [(peerId, result)] }
  | _ => True

def RequestAnswerable : ResponderEvent → Prop
  | .request _ message => Answerable env this.cache message
  | _ => True

variable {env}

theorem served_iff {this : Responder} (hrunning : this.status = .running) (event : ResponderEvent) :
    Served env this event ↔ RequestAnswerable env this event := by
  cases event with
  | block block lastCommittedBlock => exact Iff.rfl
  | closed => exact Iff.rfl
  | request peerId message =>
    rw [RequestAnswerable, ← exists_handleVerificationMessage]
    constructor
    · rintro ⟨result, hresult, -⟩
      exact ⟨result, hresult⟩
    · rintro ⟨result, hresult⟩
      obtain ⟨hid, hbatch⟩ := handleVerificationMessage_ids hresult
      refine ⟨result, hresult, hid, hbatch, ?_⟩
      rw [Responder.step, if_pos hrunning, Responder.turn, hresult]

theorem running_step {this : Responder} {event : ResponderEvent} (hrunning : this.status = .running)
    (hnode : Undisturbed this event) (hserved : Served env this event) : (this.step env event).status = .running := by
  cases event with
  | block block lastCommittedBlock =>
    obtain ⟨cache, hcache⟩ := hnode
    rw [Responder.step, if_pos hrunning, Responder.turn, hcache]
    exact hrunning
  | request peerId message =>
    obtain ⟨result, -, -, -, hstep⟩ := hserved
    rw [hstep]
    exact hrunning
  | closed => exact absurd hnode id

/-- Every request of a run is answered, without an effect on later ones, exactly if every message is
answerable when it comes. -/
theorem requests_served_iff_answerable (env : ResponderEnv) (events : List ResponderEvent)
    (hnode : Steps (Responder.step env) Undisturbed .new events) :
    Steps (Responder.step env) (Served env) .new events ↔ Steps (Responder.step env) (RequestAnswerable env) .new events :=
  steps_congr (I := fun this => this.status = .running) (fun _ _ => running_step) (fun _ event hrunning _ => served_iff hrunning event)
    rfl hnode

/-- A responder for toy hashes, whose decoder reads the commit data of an empty batch. -/
def sampleEnv : ResponderEnv where
  primitives := ⟨fun _ => 0, fun _ => 0, fun _ => 0⟩
  buildSidecar _ := .ok []
  deriveFlatStorageKey key := key
  stateViewAt _ := .ok fun _ => none
  decoders := {
    commitV29 := fun _ => .error "buffer overrun"
    commitV30 := fun _ => .error "buffer overrun"
    commitV31 := fun _ => .ok {
      batchNumber := 1, newStateCommitment := 0, numberOfLayer1Txs := 0, priorityOperationsHash := 0
      dependencyRootsRollingHash := 0, l2LogsTreeRoot := 0, daCommitment := 0, firstBlockTimestamp := 10
      lastBlockTimestamp := 10, chainId := 270, operatorDAInput := List.replicate 32 0, daCommitmentScheme := some .emptyNoDA
      firstBlockNumber := 5, lastBlockNumber := 5, numberOfLayer2Txs := 0, slChainId := 9 }
    stored := fun _ => .ok ⟨0, 0, 0, 0, 0, 0, 0⟩ }
  chainId := 270
  l1ChainId := 9
  generateBatchRun _ _ := .error "not supported"
  chainConfigHash _ := .ok 0
  diamondProxy := 2
  validatorTimelock := 3
  encoders := ⟨fun _ => [], fun _ => [], fun _ => [], fun _ => [], fun _ _ => [], fun _ _ => [], fun _ _ => []⟩
  eip712SigningHash message _ := message.processBatchFrom
  signHash := bytesOf

def sampleTreeBlock : TreeBlock where
  output := ⟨⟨0, 5, 10, none⟩, [], .bytes []⟩
  record := {
    blockContext := {
      chainId := 270, blockNumber := 5, blockHashes := fun _ => 0, timestamp := 10, eip1559Basefee := 0, pubdataPrice := 0
      nativePrice := 0, coinbase := 0, gasLimit := 0, pubdataLimit := 0, mixHash := 0, executionVersion := 5, blobFee := 0 }
    transactions := [], previousBlockTimestamp := 9, nodeVersion := "", protocolVersion := ⟨0, 31, 0⟩, blockOutputHash := 0
    forcePreimages := [], startingCursors := ⟨0, 0, 0, 0⟩ }
  treeOutput := ⟨0, 1⟩

def honestRequest : VerifyBatch := ⟨7, 1, 5, 5, 2, [], [], 31⟩

/-- The same with a version that is not supported. -/
def unsupportedRequest : VerifyBatch := { honestRequest with executionProtocolVersion := 28 }

/-- The same with the bounds of its blocks swapped. -/
def emptyRequest : VerifyBatch := { honestRequest with firstBlockNumber := 6 }

/-- An honest request is approved, but not after one message of either kind. -/
theorem one_message_stops_the_responder :
    (([.block sampleTreeBlock 0, .request 1 honestRequest].foldl (Responder.step sampleEnv) .new).answers =
      [(1, ⟨7, 1, .approved (bytesOf 1)⟩)]) ∧
    (let unserved := [.block sampleTreeBlock 0, .request 2 unsupportedRequest, .request 1 honestRequest].foldl
      (Responder.step sampleEnv) .new
    unserved.answers = [] ∧ unserved.status = .stopped (.error "Unsupported execution protocol version")) ∧
    (let unserved := [.block sampleTreeBlock 0, .request 2 emptyRequest, .request 1 honestRequest].foldl
      (Responder.step sampleEnv) .new
    unserved.answers = [] ∧ unserved.status = .stopped (.panic "called unwrap on a None value")) := by
  decide +kernel

/-- Without its block the request is refused, with the block it is approved. -/
theorem requests_served_before_and_after_block :
    let events := [.request 1 honestRequest, .block sampleTreeBlock 0, .request 1 honestRequest]
    Steps (Responder.step sampleEnv) Undisturbed .new events ∧
    (events.foldl (Responder.step sampleEnv) .new).answers =
      [(1, ⟨7, 1, .refused "Missing records for block 5"⟩), (1, ⟨7, 1, .approved (bytesOf 1)⟩)] ∧
    Steps (Responder.step sampleEnv) (Served sampleEnv) .new events := by
  intro events
  have hnode : Steps (Responder.step sampleEnv) Undisturbed .new events := ⟨trivial, ⟨_, rfl⟩, trivial, trivial⟩
  have hrefused : handleVerificationMessage sampleEnv .new honestRequest =
      .ok ⟨7, 1, .refused "Missing records for block 5"⟩ := by decide +kernel
  have happroved : handleVerificationMessage sampleEnv
      ((events.take 2).foldl (Responder.step sampleEnv) .new).cache honestRequest = .ok ⟨7, 1, .approved (bytesOf 1)⟩ := by
    decide +kernel
  refine ⟨hnode, by decide +kernel, (requests_served_iff_answerable sampleEnv _ hnode).mpr ?_⟩
  exact ⟨exists_handleVerificationMessage.mp ⟨_, hrefused⟩, trivial, exists_handleVerificationMessage.mp ⟨_, happroved⟩, trivial⟩

end BatchVerification
