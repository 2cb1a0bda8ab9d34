import ZksyncOsServer.Lib.Tasks
import ZksyncOsServer.ProverApi.JobMap

/-!
# The FRI and SNARK job managers

`fri_job_manager.rs` and `snark_job_manager.rs` as programs of interleaved tasks.
A method is suspended where it awaits: at the lock of the job map, and while a FRI
proof is verified on a blocking thread. One turn runs from there to the next such
point, so a permit obtained in one turn is used in a later one, and the removal of
jobs and the sending of the result happen in the same turn. The answers of the
environment (the time, the verdict on a proof, whether the channel has capacity)
are inputs of a turn. `sent` is all that was ever sent downstream, `added` the
batches whose `add_job` has returned.
-/
namespace ProverApi

open Tasks (Progress Program)

abbrev Bytes := List UInt8

inductive ProverInput where
  | real (witness : List UInt32)
  | fake
  deriving DecidableEq

inductive RealFriProof where
  | v1 (proof : Bytes)
  | v2 (proof : Bytes) (provingExecutionVersion : Nat)
  deriving DecidableEq

inductive FriProof where
  | fake
  | alreadySubmittedToL1
  | real (proof : RealFriProof)
  deriving DecidableEq

def FriProof.isFake : FriProof → Bool
  | fake => true
  | _ => false

inductive RealSnarkProof where
  | v1 (proof : Bytes)
  | v2 (proof : Bytes) (provingExecutionVersion : Nat)
  deriving DecidableEq

inductive SnarkProof where
  | fake
  | real (proof : RealSnarkProof)
  deriving DecidableEq

/-- The answer of `try_reserve` on the channel downstream. -/
inductive Reserve where
  | permit | full | closed
  deriving DecidableEq

/-- The filter of the provers that declare the versions they support. -/
def supports {T : Type} (supportedProvingVersions : Option (List ProvingVersion)) (job : JobEntry T) : Bool :=
  supportedProvingVersions.all (·.contains job.metadata.provingVersion)

/-! ### FRI proofs -/

inductive SubmitError where
  | friProofVerificationError (expectedHashU32s proofFinalRegisterValues : List UInt32)
  | unknownJob (batchNumber : Nat)
  | deserializationFailed (error : String)
  | provingVersionMismatch (server prover : ProvingVersion)
  | shuttingDown
  | other (message : String)
  deriving DecidableEq

structure FriJobManager where
  jobs : ProverJobMap ProverInput
  sent : List (SignedBatchEnvelope FriProof)
  added : List Nat

inductive FriRequest where
  | addJob (batchEnvelope : SignedBatchEnvelope ProverInput)
  | pickNextJob (minAge : Nat) (proverId : String) (supportedProvingVersions : Option (List ProvingVersion))
  | submitProof (batchNumber : Nat) (proofBytes : Bytes) (provingVersion : ProvingVersion) (proverId : String)
  | submitFakeProof (batchNumber : Nat) (proverId : String)
  deriving DecidableEq

inductive FriTask where
  | request (request : FriRequest)
  | verifying (batchNumber : Nat) (proofBytes : Bytes) (provingVersion : ProvingVersion) (proverId : String)
  | rejecting (batchNumber : Nat) (proverId : String) (error : SubmitError)
  | completing (batchNumber : Nat) (proofBytes : Bytes) (provingVersion : ProvingVersion) (proverId : String)
  /-- A permit is held for a fake proof. -/
  | completingFake (batchNumber : Nat) (proverId : String)
  deriving DecidableEq

structure FriInput where
  now : Nat
  verdict : Except SubmitError Unit
  reserve : Reserve

inductive FriResponse where
  | done
  | job (job : Option (FriJob × ProverInput))
  deriving DecidableEq

/-- An error is a panic, an error inside is the method's own. -/
abbrev FriResult := Except String (Except SubmitError FriResponse)

namespace FriJobManager

def new (assignmentTimeout maxAssignedBatchRange : Nat) : FriJobManager :=
  ⟨.new assignmentTimeout maxAssignedBatchRange, [], []⟩

def tryReservePermitDownstream : Reserve → Except SubmitError Unit
  | .permit => .ok ()
  | .full => .error (.other "downstream backpressure")
  | .closed => .error .shuttingDown

def addJob (this : FriJobManager) (batchEnvelope : SignedBatchEnvelope ProverInput) (now : Nat) :
    FriJobManager × Progress FriTask FriResult :=
  match this.jobs.addJob batchEnvelope now with
  | .error message => (this, .finished (.error message))
  | .ok none => (this, .pending (.request (.addJob batchEnvelope)))
  | .ok (some jobs) =>
    ({ this with jobs, added := this.added ++ [batchEnvelope.batchNumber] }, .finished (.ok (.ok .done)))

/-- The last turn of `submit_proof` and of `submit_fake_proof`: complete the job and send it
downstream with its proof. A job that is gone has been completed by another submission. -/
def complete (this : FriJobManager) (batchNumber now : Nat) (proverId : String) (proof : FriProof)
    (missing : Except SubmitError FriResponse) : FriJobManager × Progress FriTask FriResult :=
  let (jobs, result) := this.jobs.completeJob batchNumber now proverId
  match result with
  | .error message => ({ this with jobs }, .finished (.error message))
  | .ok none => ({ this with jobs }, .finished (.ok missing))
  | .ok (some removedJob) =>
    ({ this with jobs, sent := this.sent ++ [removedJob.withData proof] }, .finished (.ok (.ok .done)))

def snapshot (this : FriJobManager) (batchNumber : Nat) (proofBytes : Bytes) (provingVersion : ProvingVersion)
    (proverId : String) : Progress FriTask FriResult :=
  match this.jobs.getJobBatchMetadata batchNumber with
  | none => .finished (.ok (.error (.unknownJob batchNumber)))
  | some batchMetadata =>
    match batchMetadata.provingVersion with
    | .error _ => .finished (.error "Must be valid execution as set by the server")
    | .ok serverProvingVersion =>
      if serverProvingVersion ≠ provingVersion then
        .pending (.rejecting batchNumber proverId (.provingVersionMismatch serverProvingVersion provingVersion))
      else .pending (.verifying batchNumber proofBytes provingVersion proverId)

/-- One turn. -/
def resume (input : FriInput) (task : FriTask) (this : FriJobManager) : FriJobManager × Progress FriTask FriResult :=
  match task with
  | .request (.addJob batchEnvelope) => this.addJob batchEnvelope input.now
  | .request (.pickNextJob minAge proverId supportedProvingVersions) =>
    let (jobs, result) := this.jobs.pickJob input.now minAge proverId (supports supportedProvingVersions)
    ({ this with jobs }, .finished ((fun job => .ok (.job job)) <$> result))
  | .request (.submitProof batchNumber proofBytes provingVersion proverId) =>
    (this, this.snapshot batchNumber proofBytes provingVersion proverId)
  | .request (.submitFakeProof batchNumber proverId) =>
    match tryReservePermitDownstream input.reserve with
    | .error error => (this, .finished (.ok (.error error)))
    | .ok () => (this, .pending (.completingFake batchNumber proverId))
  | .verifying batchNumber proofBytes provingVersion proverId =>
    match input.verdict with
    | .error error => (this, .pending (.rejecting batchNumber proverId error))
    | .ok () =>
      match tryReservePermitDownstream input.reserve with
      | .error error => (this, .finished (.ok (.error error)))
      | .ok () => (this, .pending (.completing batchNumber proofBytes provingVersion proverId))
  | .rejecting batchNumber proverId error =>
    ({ this with jobs := this.jobs.unassignJob batchNumber proverId }, .finished (.ok (.error error)))
  | .completing batchNumber proofBytes provingVersion proverId =>
    this.complete batchNumber input.now proverId (.real (.v2 proofBytes provingVersion.toU32)) (.ok .done)
  | .completingFake batchNumber proverId =>
    this.complete batchNumber input.now proverId .fake (.error (.unknownJob batchNumber))

def program : Program FriJobManager FriRequest FriTask FriInput FriResult := ⟨.request, resume⟩

end FriJobManager

/-! ### SNARK proofs -/

structure ProofCommand where
  batches : List (SignedBatchEnvelope FriProof)
  proof : SnarkProof
  nonempty : batches ≠ []

def ProofCommand.new (batches : List (SignedBatchEnvelope FriProof)) (proof : SnarkProof) :
    Except String ProofCommand :=
  if nonempty : batches ≠ [] then .ok { batches, proof, nonempty }
  else .error "ProofCommand must contain at least one batch"

theorem ProofCommand.new_of_ne_nil {batches : List (SignedBatchEnvelope FriProof)} (proof : SnarkProof)
    (nonempty : batches ≠ []) : new batches proof = .ok ⟨batches, proof, nonempty⟩ :=
  dif_pos nonempty

structure SnarkJobManager where
  jobs : ProverJobMap FriProof
  sent : List ProofCommand
  added : List Nat
  maxFrisPerSnark : Nat

inductive SnarkRequest where
  | addJob (batchEnvelope : SignedBatchEnvelope FriProof)
  | pickRealJob (proverId : String) (supportedProvingVersions : Option (List ProvingVersion))
  | submitProof (batchFrom batchTo : Nat) (provingVersion : ProvingVersion) (payload : Bytes) (proverId : String)
  /-- An iteration of the fake prover. -/
  | processPending (timeoutForRealFris : Nat)
  deriving DecidableEq

/-- What follows the loop over pending fake proofs: `pick_real_job` goes on to pick. -/
abbrev AfterPending := Option (String × Option (List ProvingVersion))

inductive SnarkTask where
  | adding (batchEnvelope : SignedBatchEnvelope FriProof)
  | submitting (batchFrom batchTo : Nat) (provingVersion : ProvingVersion) (payload : Bytes) (proverId : String)
  | completing (batchFrom batchTo : Nat) (provingVersion : ProvingVersion) (payload : Bytes) (proverId : String)
  | scanning (timeoutForRealFris : Option Nat) (after : AfterPending)
  | pickingFake (timeoutForRealFris : Option Nat) (after : AfterPending)
  /-- A permit is held for a fake proof of the given batches. -/
  | completingFake (timeoutForRealFris : Option Nat) (after : AfterPending) (batchFrom batchTo : Nat)
  | pickingReal (proverId : String) (supportedProvingVersions : Option (List ProvingVersion))
  deriving DecidableEq

structure SnarkInput where
  now : Nat
  reserve : Reserve

inductive SnarkResponse where
  | done
  | jobs (jobs : Option (List (FriJob × FriProof)))
  deriving DecidableEq

abbrev SnarkResult := Except String (Except String SnarkResponse)

namespace SnarkJobManager

def new (maxFrisPerSnark assignmentTimeout maxAssignedBatchRange : Nat) : SnarkJobManager :=
  ⟨.new assignmentTimeout maxAssignedBatchRange, [], [], maxFrisPerSnark⟩

def tryReservePermitDownstream : Reserve → Except String Unit
  | .permit => .ok ()
  | .full => .error "downstream backpressure"
  | .closed => .error "server is shutting down"

def isFakeOrTimedOut (now : Nat) (timeoutForRealFris : Option Nat) (job : JobEntry FriProof) : Bool :=
  job.batchEnvelope.data.isFake || timeoutForRealFris.any fun timeout => timeout ≤ now - job.metadata.addedAt

def addJob (this : SnarkJobManager) (batchEnvelope : SignedBatchEnvelope FriProof) (now : Nat) :
    SnarkJobManager × Progress SnarkTask SnarkResult :=
  match this.jobs.addJob batchEnvelope now with
  | .error message => (this, .finished (.error message))
  | .ok none => (this, .pending (.adding batchEnvelope))
  | .ok (some jobs) =>
    ({ this with jobs, added := this.added ++ [batchEnvelope.batchNumber] }, .finished (.ok (.ok .done)))

/-- Complete the jobs and send them downstream with their proof: `sent` and `missing` say how
the turn ends when the jobs were sent, and when some of them are gone. -/
def complete (this : SnarkJobManager) (batchFrom batchTo now : Nat) (proverId : String) (proof : SnarkProof)
    (sent missing : Progress SnarkTask SnarkResult) : SnarkJobManager × Progress SnarkTask SnarkResult :=
  let (jobs, result) := this.jobs.completeManyJobs batchFrom batchTo now proverId
  match result with
  | .error message => ({ this with jobs }, .finished (.error message))
  | .ok none => ({ this with jobs }, missing)
  | .ok (some consumedBatches) =>
    match ProofCommand.new consumedBatches proof with
    | .error message => ({ this with jobs }, .finished (.error message))
    | .ok command => ({ this with jobs, sent := this.sent ++ [command] }, sent)

/-- The first turn of `submit_proof`: only the first batch of the range is looked at. -/
def submit (this : SnarkJobManager) (batchFrom batchTo : Nat) (provingVersion : ProvingVersion) (payload : Bytes)
    (proverId : String) (reserve : Reserve) : Progress SnarkTask SnarkResult :=
  match this.jobs.getJobBatchMetadata batchFrom with
  | none => .finished (.ok (.error "race condition: some batches were completed earlier"))
  | some batchMetadata =>
    match batchMetadata.verificationKeyHash with
    | .error _ => .finished (.error "verification key hash must be present as it was set by server")
    | .ok serverVk =>
      let proverVk := provingVersion.vkHash
      if serverVk ≠ proverVk then
        .finished (.ok (.error
          s!"Verification key hash mismatch: server got {serverVk}, prover got {proverVk}"))
      else
        match tryReservePermitDownstream reserve with
        | .error error => .finished (.ok (.error error))
        | .ok () => .pending (.completing batchFrom batchTo provingVersion payload proverId)

/-- The end of the loop over pending fake proofs. -/
def afterPending : AfterPending → Progress SnarkTask SnarkResult
  | none => .finished (.ok (.ok .done))
  | some (proverId, supportedProvingVersions) => .pending (.pickingReal proverId supportedProvingVersions)

/-- One turn. -/
def resume (input : SnarkInput) (task : SnarkTask) (this : SnarkJobManager) :
    SnarkJobManager × Progress SnarkTask SnarkResult :=
  match task with
  | .adding batchEnvelope => this.addJob batchEnvelope input.now
  | .submitting batchFrom batchTo provingVersion payload proverId =>
    (this, this.submit batchFrom batchTo provingVersion payload proverId input.reserve)
  | .completing batchFrom batchTo provingVersion payload proverId =>
    this.complete batchFrom batchTo input.now proverId (.real (.v2 payload provingVersion.toU32))
      (.finished (.ok (.ok .done)))
      (.finished (.ok (.error "race condition: some batches were completed earlier")))
  | .scanning timeoutForRealFris after =>
    if this.jobs.hasAssignableJob input.now (isFakeOrTimedOut input.now timeoutForRealFris) then
      match tryReservePermitDownstream input.reserve with
      | .error error => (this, .finished (.ok (.error error)))
      | .ok () => (this, .pending (.pickingFake timeoutForRealFris after))
    else (this, afterPending after)
  | .pickingFake timeoutForRealFris after =>
    let (jobs, result) := this.jobs.pickJobsWhileWithLimit input.now this.maxFrisPerSnark "fake_prover"
      (isFakeOrTimedOut input.now timeoutForRealFris)
    ({ this with jobs },
      match result with
      | .error message => .finished (.error message)
      | .ok assigned =>
        match assigned.head?, assigned.getLast? with
        | some first, some last =>
          .pending (.completingFake timeoutForRealFris after first.1.batchNumber last.1.batchNumber)
        | _, _ => afterPending after)
  | .completingFake timeoutForRealFris after batchFrom batchTo =>
    -- Another prover may have completed a part of the range: the loop starts over.
    this.complete batchFrom batchTo input.now "fake_prover" .fake
      (.pending (.scanning timeoutForRealFris after)) (.pending (.scanning timeoutForRealFris after))
  | .pickingReal proverId supportedProvingVersions =>
    let (jobs, result) := this.jobs.pickJobsWhileWithLimit input.now this.maxFrisPerSnark proverId fun job =>
      !job.batchEnvelope.data.isFake && supports supportedProvingVersions job
    ({ this with jobs },
      .finished ((fun batches => .ok (.jobs (if batches.isEmpty then none else some batches))) <$> result))

/-- Where the methods start. -/
def enter : SnarkRequest → SnarkTask
  | .addJob batchEnvelope => .adding batchEnvelope
  | .pickRealJob proverId supportedProvingVersions => .scanning none (some (proverId, supportedProvingVersions))
  | .submitProof batchFrom batchTo provingVersion payload proverId =>
    .submitting batchFrom batchTo provingVersion payload proverId
  | .processPending timeoutForRealFris => .scanning (some timeoutForRealFris) none

def program : Program SnarkJobManager SnarkRequest SnarkTask SnarkInput SnarkResult := ⟨enter, resume⟩

end SnarkJobManager

end ProverApi
