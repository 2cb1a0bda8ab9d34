import ZksyncOsServer.ProverApi.JobManagers

/-!
# Submitting a SNARK proof

`SnarkJobManager::submit_proof` has two turns: the first one looks at the first batch
of the range, the second one completes the range. Other requests may be served in
between, so the two turns see different states of the manager. What is not checked
in the first turn decides whether the call is safe.
-/
namespace ProverApi

open ProverJobMap SnarkJobManager

open Tasks (Progress)

/-- The arguments of `submit_proof`, as the prover API passes them. -/
structure Submission where
  batchFrom : Nat
  batchTo : Nat
  provingVersion : ProvingVersion
  payload : Bytes
  proverId : String
  deriving DecidableEq

namespace Submission

/-- The first turn of the call. -/
def submitting (s : Submission) : SnarkTask :=
  .submitting s.batchFrom s.batchTo s.provingVersion s.payload s.proverId

/-- The second turn of the call, with a permit held. -/
def completing (s : Submission) : SnarkTask :=
  .completing s.batchFrom s.batchTo s.provingVersion s.payload s.proverId

def range (s : Submission) : List Nat := ProverJobMap.batchRange s.batchFrom s.batchTo

/-- The command is one for the batches of the submission, all of them of its version and
none with a fake FRI proof. -/
structure Sends (s : Submission) (command : ProofCommand) : Prop where
  nonempty : command.batches ≠ []
  numbers : command.batches.map (·.batchNumber) = s.range
  version : ∀ batch ∈ command.batches, batch.batch.verificationKeyHash = .ok s.provingVersion.vkHash
  real : ∀ batch ∈ command.batches, batch.data.isFake = false

instance (s : Submission) (command : ProofCommand) : Decidable (s.Sends command) :=
  decidable_of_iff (_ ∧ _ ∧ _ ∧ _)
    ⟨fun h => ⟨h.1, h.2.1, h.2.2.1, h.2.2.2⟩, fun h => ⟨h.nonempty, h.numbers, h.version, h.real⟩⟩

def Panics : Progress SnarkTask SnarkResult → Bool
  | .finished (.error _) => true
  | _ => false

def pendingTask : Progress SnarkTask SnarkResult → Option SnarkTask
  | .pending task => some task
  | _ => none

def SafeTurn (s : Submission) (manager : SnarkJobManager) (input : SnarkInput) (task : SnarkTask) : Prop :=
  Panics (manager.resume input task).2 = false ∧
    ∀ command ∈ (manager.resume input task).1.sent.drop manager.sent.length, s.Sends command
  deriving Decidable

/-- Both turns of the call are safe; the manager has changed from `first` to `second` in between. -/
def Safe (s : Submission) (first second : SnarkJobManager) (input₁ input₂ : SnarkInput) : Prop :=
  s.SafeTurn first input₁ s.submitting ∧
    ∀ task ∈ pendingTask (first.resume input₁ s.submitting).2, s.SafeTurn second input₂ task
  deriving Decidable

/-- The first turn comes to its end: the first batch has the version of the proof, and the
channel has capacity. -/
def Accepted (s : Submission) (manager : SnarkJobManager) (input : SnarkInput) : Prop :=
  input.reserve = .permit ∧
    ∃ entry ∈ manager.jobs.jobs[s.batchFrom]?, entry.metadata.provingVersion = s.provingVersion

/-- The range is not empty; if all its jobs are there, they have the version of the proof, none
has a fake FRI proof, and their statistics can be computed. -/
structure Completable (s : Submission) (manager : SnarkJobManager) (input : SnarkInput) : Prop where
  nonempty : s.batchFrom ≤ s.batchTo
  version : (∀ n ∈ s.range, n ∈ manager.jobs.jobs) →
    ∀ entry ∈ manager.jobs.completed s.batchFrom s.batchTo, entry.metadata.provingVersion = s.provingVersion
  real : (∀ n ∈ s.range, n ∈ manager.jobs.jobs) →
    ∀ entry ∈ manager.jobs.completed s.batchFrom s.batchTo, entry.batchEnvelope.data.isFake = false
  stats : (∀ n ∈ s.range, n ∈ manager.jobs.jobs) →
    StatsFit ((manager.jobs.completed s.batchFrom s.batchTo).map (·.metadata)) input.now s.proverId

variable {s : Submission} {manager : SnarkJobManager} {input : SnarkInput}

theorem safeTurn_submitting : s.SafeTurn manager input s.submitting := by
  refine ⟨?_, ?_⟩
  · simp only [submitting, resume, submit, getJobBatchMetadata]
    cases hentry : manager.jobs.jobs[s.batchFrom]? with
    | none => rfl
    | some entry =>
      simp only [Option.map_some, entry.verificationKeyHash_eq]
      split
      · rfl
      · cases input.reserve <;> rfl
  · simp [submitting, resume]

/-- The first turn goes on to the second one exactly when it accepts the submission. -/
theorem pendingTask_submitting {task : SnarkTask} :
    task ∈ pendingTask (manager.resume input s.submitting).2 ↔ s.Accepted manager input ∧ task = s.completing := by
  simp only [submitting, resume, submit, getJobBatchMetadata, Accepted]
  cases hentry : manager.jobs.jobs[s.batchFrom]? with
  | none => simp [pendingTask]
  | some entry =>
    simp only [Option.map_some, entry.verificationKeyHash_eq]
    by_cases hversion : entry.metadata.provingVersion = s.provingVersion
    · rw [if_neg (by simp [hversion])]
      cases input.reserve <;>
        simp [tryReservePermitDownstream, pendingTask, hversion, completing, eq_comm]
    · rw [if_pos (fun h => hversion (ProvingVersion.vkHash_injective h))]
      simp [pendingTask, hversion]

section SecondTurn
variable (hmem : ∀ n ∈ s.range, n ∈ manager.jobs.jobs)
include hmem

theorem completed_eq_nil : manager.jobs.completed s.batchFrom s.batchTo = [] ↔ s.batchTo < s.batchFrom := by
  rw [← List.map_eq_nil_iff, manager.jobs.batchNumber_completed hmem, batchRange, List.range'_eq_nil_iff]
  omega

theorem panics_completing
    (hrecord : recordCompletion (manager.jobs.completed s.batchFrom s.batchTo) input.now s.proverId ≠
      .ok ()) : Panics (manager.resume input s.completing).2 = true := by
  simp only [completing, resume, complete, manager.jobs.completeManyJobs_of_mem input.now s.proverId hmem]
  cases h : recordCompletion (manager.jobs.completed s.batchFrom s.batchTo) input.now s.proverId with
  | error message => rfl
  | ok u => exact absurd h hrecord

theorem resume_completing (hne : manager.jobs.completed s.batchFrom s.batchTo ≠ [])
    (hrecord : recordCompletion (manager.jobs.completed s.batchFrom s.batchTo) input.now s.proverId = .ok ()) :
    ∃ command, command.batches = (manager.jobs.completed s.batchFrom s.batchTo).map (·.batchEnvelope) ∧
      (manager.resume input s.completing).1.sent = manager.sent ++ [command] ∧
      (manager.resume input s.completing).2 = .finished (.ok (.ok .done)) := by
  have hbatches : (manager.jobs.completed s.batchFrom s.batchTo).map (·.batchEnvelope) ≠ [] := by simpa using hne
  simp only [completing, resume, complete,
    manager.jobs.completeManyJobs_of_mem input.now s.proverId hmem, hrecord, Fallible.ok_bind, pure, Except.pure,
    ProofCommand.new_of_ne_nil _ hbatches]
  exact ⟨_, rfl, rfl, trivial⟩

/-- The command for the completed jobs is right exactly when all of them have the version of
the proof and real FRI proofs. -/
theorem sends_iff {command : ProofCommand}
    (h : command.batches = (manager.jobs.completed s.batchFrom s.batchTo).map (·.batchEnvelope)) : s.Sends command ↔
      (∀ entry ∈ manager.jobs.completed s.batchFrom s.batchTo, entry.metadata.provingVersion = s.provingVersion) ∧
        ∀ entry ∈ manager.jobs.completed s.batchFrom s.batchTo, entry.batchEnvelope.data.isFake = false := by
  have hversion (entry : JobEntry FriProof) :
      entry.batchEnvelope.batch.verificationKeyHash = .ok s.provingVersion.vkHash ↔
        entry.metadata.provingVersion = s.provingVersion := by
    rw [entry.verificationKeyHash_eq, Except.ok.injEq, ProvingVersion.vkHash_injective.eq_iff]
  constructor
  · rintro ⟨-, -, hvk, hreal⟩
    rw [h, List.forall_mem_map] at hvk hreal
    exact ⟨fun entry he => (hversion entry).mp (hvk entry he), hreal⟩
  · rintro ⟨hvk, hreal⟩
    refine ⟨command.nonempty, ?_, ?_, ?_⟩
    · rw [h, List.map_map]
      exact manager.jobs.batchNumber_completed hmem
    · rw [h, List.forall_mem_map]
      exact fun entry he => (hversion entry).mpr (hvk entry he)
    · rw [h, List.forall_mem_map]
      exact hreal

end SecondTurn

theorem safeTurn_completing_iff : s.SafeTurn manager input s.completing ↔ s.Completable manager input := by
  by_cases hmem : ∀ n ∈ s.range, n ∈ manager.jobs.jobs
  · by_cases hrecord : recordCompletion (manager.jobs.completed s.batchFrom s.batchTo) input.now s.proverId = .ok ()
    · obtain ⟨hne, hfit⟩ := recordCompletion_eq_ok.mp hrecord
      obtain ⟨command, hbatches, hsent, hprogress⟩ := resume_completing hmem hne hrecord
      have hle : s.batchFrom ≤ s.batchTo := by
        rw [Ne, completed_eq_nil hmem] at hne
        omega
      have hsafe : s.SafeTurn manager input s.completing ↔ s.Sends command := by
        rw [SafeTurn, hsent, hprogress, List.drop_left]
        simp [Panics]
      rw [hsafe, sends_iff hmem hbatches]
      exact ⟨fun h => ⟨hle, fun _ => h.1, fun _ => h.2, fun _ => hfit⟩, fun h => ⟨h.version hmem, h.real hmem⟩⟩
    · refine iff_of_false (fun h => ?_) (fun h => ?_)
      · rw [SafeTurn, panics_completing hmem hrecord] at h
        cases h.1
      · have hne : manager.jobs.completed s.batchFrom s.batchTo ≠ [] := by
          rw [Ne, completed_eq_nil hmem]
          exact Nat.not_lt.mpr h.nonempty
        exact hrecord (recordCompletion_eq_ok.mpr ⟨hne, h.stats hmem⟩)
  · -- A job of the range is missing: the call fails, and the range has a member.
    have hmissing := hmem
    push Not at hmissing
    obtain ⟨n, hn, hnot⟩ := hmissing
    have hle : s.batchFrom ≤ s.batchTo := by
      rw [range, mem_batchRange] at hn
      omega
    refine iff_of_true ?_ ⟨hle, (absurd · hmem), (absurd · hmem), (absurd · hmem)⟩
    simp [SafeTurn, completing, resume, complete,
      manager.jobs.completeManyJobs_of_not_mem input.now s.proverId hn hnot, Panics]

end Submission

/-- A call of `submit_proof`, whatever happens between its two turns, does not panic and sends
only a command for exactly the batches of its range, all of its version and with real FRI
proofs, exactly when: if the first turn accepts the submission, then the range is completable
at the second turn. -/
theorem submission_safe_iff (s : Submission) (first second : SnarkJobManager) (input₁ input₂ : SnarkInput) :
    s.Safe first second input₁ input₂ ↔ (s.Accepted first input₁ → s.Completable second input₂) := by
  rw [Submission.Safe, and_iff_right Submission.safeTurn_submitting]
  constructor
  · intro h ha
    exact Submission.safeTurn_completing_iff.mp (h _ (Submission.pendingTask_submitting.mpr ⟨ha, rfl⟩))
  · intro h task htask
    obtain ⟨ha, rfl⟩ := Submission.pendingTask_submitting.mp htask
    exact Submission.safeTurn_completing_iff.mpr (h ha)

def managerWith (batches : List (SignedBatchEnvelope FriProof)) : SnarkJobManager :=
  ((batches.flatMap fun batch => [.start (.addJob batch), .resume 0 ⟨0, .permit⟩]).foldl
    SnarkJobManager.program.step ⟨.new 5 60 10, []⟩).state

/-- A range whose end is before its start panics; a range that goes beyond the batches of the
version of the proof is sent, and so is a range with a fake proof. -/
theorem submission_unsafe :
    let input : SnarkInput := ⟨0, .permit⟩
    let batch (n minor : Nat) (proof : FriProof) : SignedBatchEnvelope FriProof := ⟨⟨n, ⟨0, minor, 0⟩, 1, none⟩, proof⟩
    let real : FriProof := .real (.v2 [] 7)
    let inverted := managerWith [batch 1 31 real, batch 2 31 real]
    let mixed := managerWith [batch 1 31 real, batch 2 32 real]
    let fake := managerWith [batch 1 31 real, batch 2 31 .fake]
    ¬Submission.Safe ⟨2, 1, .v7, [], "prover"⟩ inverted inverted input input ∧
      ¬Submission.Safe ⟨1, 2, .v7, [], "prover"⟩ mixed mixed input input ∧
      ¬Submission.Safe ⟨1, 2, .v7, [], "prover"⟩ fake fake input input := by
  decide +kernel

end ProverApi
