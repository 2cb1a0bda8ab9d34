import ZksyncOsServer.L1Sender.Commands
import ZksyncOsServer.Lib.ReorderBuffer

/-!
# Gapless hand-over to L1

`prover_api/gapless_l1_proof_sender.rs` and `prover_api/gapless_committer.rs`: proofs and batches that
arrive in any order go on in the order of their numbers. Both components end with the first write that
fails, of the proof storage or to the channel downstream; what they forward in one turn is known before
the first write.
-/
namespace Gapless

open BatchTypes List BatchEnvelope L1Sender.Commands
open ReorderBuffer

/-! ### Proofs -/

section Proofs
variable {E Proof : Type}

abbrev ProofSenderCommand (E Proof : Type) := L1SenderCommand (ProofCommand E Proof) E

/-- A command with what the channel answers to the writes of its turn. -/
structure Arrival (E Proof : Type) where
  command : ProofSenderCommand E Proof
  sends : Nat → Bool

structure GaplessL1ProofSender (E Proof : Type) where
  buffer : Buffer (ProofSenderCommand E Proof)
  output : List (ProofSenderCommand E Proof)
  failed : Bool

namespace GaplessL1ProofSender

def new (nextExpectedBatchNumber : Nat) : GaplessL1ProofSender E Proof := ⟨⟨∅, nextExpectedBatchNumber⟩, [], false⟩

/-- The writes of a turn, up to the first that fails. -/
def forward (sends : Nat → Bool) : Nat → List (ProofSenderCommand E Proof) → List (ProofSenderCommand E Proof) × Bool
  | _, [] => ([], false)
  | k, command :: ready =>
    if sends k then
      let (sent, failed) := forward sends (k + 1) ready
      (command :: sent, failed)
    else ([], true)

/-- A turn of the loop of `run`. -/
def step (this : GaplessL1ProofSender E Proof) (arrival : Arrival E Proof) : GaplessL1ProofSender E Proof :=
  if this.failed then this
  else
    let (ready, buffer) := push L1SenderCommand.firstBatchNumber L1SenderCommand.batchCount this.buffer arrival.command
    let (sent, failed) := forward arrival.sends 0 ready
    ⟨buffer, this.output ++ sent, failed⟩

end GaplessL1ProofSender

end Proofs

/-! ### Commitments -/

section Commitments
variable {E : Type}

abbrev CommitSenderCommand (E : Type) := L1SenderCommand (CommitCommand E) E

def envelope : CommitSenderCommand E → SignedBatchEnvelope E
  | .sendToL1 command => command.input
  | .passthrough envelope => envelope

/-- A batch with what the storage and the channel answer to the writes of its turn. -/
structure BatchArrival (E : Type) where
  batch : SignedBatchEnvelope E
  saves : Nat → Bool
  sends : Nat → Bool

/-- `GaplessCommitter`, with what it has forwarded. -/
structure GaplessCommitter (E : Type) where
  lastCommittedBatchNumber : Nat
  batchVerificationL1Config : BatchVerificationSL
  buffer : Buffer (SignedBatchEnvelope E)
  proofStorage : List (SignedBatchEnvelope E)
  output : List (CommitSenderCommand E)
  failed : Bool

namespace GaplessCommitter

def new (nextExpectedBatchNumber lastCommittedBatchNumber : Nat) (config : BatchVerificationSL) : GaplessCommitter E :=
  ⟨lastCommittedBatchNumber, config, ⟨∅, nextExpectedBatchNumber⟩, [], [], false⟩

def commandFor (this : GaplessCommitter E) (batch : SignedBatchEnvelope E) :
    Except BatchVerificationError (CommitSenderCommand E) :=
  if batch.batchNumber ≤ this.lastCommittedBatchNumber then .ok (.passthrough batch)
  else (CommitCommand.tryNew this.batchVerificationL1Config batch).map .sendToL1

def forward (saves sends : Nat → Bool) : Nat → List (SignedBatchEnvelope E) → GaplessCommitter E → GaplessCommitter E
  | _, [], this => this
  | k, batch :: ready, this =>
    if saves k then
      match this.commandFor batch with
      | .error _ => { this with proofStorage := this.proofStorage ++ [batch], failed := true }
      | .ok command =>
        if sends k then
          forward saves sends (k + 1) ready
            { this with proofStorage := this.proofStorage ++ [batch], output := this.output ++ [command] }
        else { this with proofStorage := this.proofStorage ++ [batch], failed := true }
    else { this with failed := true }

/-- A turn of the loop of `run`. -/
def step (this : GaplessCommitter E) (arrival : BatchArrival E) : GaplessCommitter E :=
  if this.failed then this
  else
    let (ready, buffer) := push BatchEnvelope.batchNumber (fun _ => 1) this.buffer arrival.batch
    forward arrival.saves arrival.sends 0 ready { this with buffer }

end GaplessCommitter

end Commitments

/-! ### What is forwarded -/

abbrev ProofPlan {E Proof : Type} (next : Nat) (plan : List (ProofSenderCommand E Proof)) : Prop :=
  Contiguous L1SenderCommand.firstBatchNumber L1SenderCommand.batchCount next plan

/-- The numbers of the batches are those from `next` on. -/
abbrev BatchPlan {E : Type} (next : Nat) (plan : List (SignedBatchEnvelope E)) : Prop :=
  Contiguous BatchEnvelope.batchNumber (fun _ => 1) next plan

section Spec
variable {E Proof : Type} [DecidableEq E] [DecidableEq Proof]

/-- What was forwarded is the longest initial run of the plan that has arrived; if a write has failed, a
part of it. -/
structure Forwarded {α : Type} [DecidableEq α] (first : α → Nat) (plan arrived output : List α) (failed : Bool) : Prop where
  part : output <+: run plan arrived
  complete : failed = false → output = run plan arrived
  ordered : output.Pairwise fun a b => first a < first b

/-- Batches that are committed already pass through before the first commitment. -/
def PassedFirst (last : Nat) (output : List (CommitSenderCommand E)) : Prop :=
  ∃ (passed : List (SignedBatchEnvelope E)) (commands : List (CommitCommand E)),
    output = passed.map .passthrough ++ commands.map .sendToL1 ∧ (∀ e ∈ passed, e.batchNumber ≤ last) ∧
    ∀ command ∈ commands, last < command.input.batchNumber

/-! ### Proofs in order -/

variable {next : Nat} {α : Type} {first count : α → Nat} {plan arrived : List α} {a : α}

theorem Forwarded.of_released [DecidableEq α] {output : List α} {failed : Bool} {buffer : Buffer α}
    (hplan : Contiguous first count next plan) (h : Released first count plan arrived output failed buffer) :
    Forwarded first plan arrived output failed :=
  ⟨h.part, h.complete, h.ordered hplan⟩

omit [DecidableEq E] [DecidableEq Proof] in
theorem forward_spec (sends : Nat → Bool) (k : Nat) (ready : List (ProofSenderCommand E Proof)) :
    (GaplessL1ProofSender.forward sends k ready).1 <+: ready ∧
      ((GaplessL1ProofSender.forward sends k ready).2 = false → (GaplessL1ProofSender.forward sends k ready).1 = ready) ∧
      ((∀ k, sends k = true) → (GaplessL1ProofSender.forward sends k ready).2 = false) := by
  induction ready generalizing k with
  | nil => exact ⟨prefix_refl _, fun _ => rfl, fun _ => rfl⟩
  | cons command ready ih =>
    obtain ⟨hpart, hcomplete, hrunning⟩ := ih (k + 1)
    rw [GaplessL1ProofSender.forward]
    split
    next hsend => exact ⟨prefix_cons_inj _ |>.mpr hpart, fun h => congrArg (command :: ·) (hcomplete h), hrunning⟩
    next hsend => exact ⟨List.nil_prefix, nofun, fun hall => absurd (hall k) hsend⟩

abbrev ProofInv (plan arrived : List (ProofSenderCommand E Proof)) (s : GaplessL1ProofSender E Proof) : Prop :=
  Released L1SenderCommand.firstBatchNumber L1SenderCommand.batchCount plan arrived s.output s.failed s.buffer

section
variable {plan arrived : List (ProofSenderCommand E Proof)} {s : GaplessL1ProofSender E Proof}

theorem ProofInv.step {arrival : Arrival E Proof} (h : ProofInv plan arrived s) (hmem : arrival.command ∈ plan)
    (hnew : arrival.command ∉ arrived) : ProofInv plan (arrived ++ [arrival.command]) (s.step arrival) ∧
      ((∀ k, arrival.sends k = true) → s.failed = false → (s.step arrival).failed = false) := by
  rw [GaplessL1ProofSender.step]
  split
  next hfailed =>
    rw [ProofInv, hfailed] at h ⊢
    exact ⟨h.stopped _, fun _ hrunning => hrunning⟩
  next hrunning =>
    rw [ProofInv, Bool.eq_false_of_not_eq_true hrunning] at h
    obtain ⟨hpart, hcomplete, hsends⟩ := forward_spec arrival.sends 0
      (push L1SenderCommand.firstBatchNumber L1SenderCommand.batchCount s.buffer arrival.command).1
    exact ⟨h.push hmem hnew hpart hcomplete, fun hall _ => hsends hall⟩

end

/-! ### Batches in order -/

/-- Committed batches pass through, others are sent. -/
def Fits (lastCommittedBatchNumber : Nat) : CommitSenderCommand E → Prop
  | .passthrough envelope => envelope.batchNumber ≤ lastCommittedBatchNumber
  | .sendToL1 command => lastCommittedBatchNumber < command.input.batchNumber

section Committer
omit [DecidableEq E]
variable {s : GaplessCommitter E} {batch : SignedBatchEnvelope E}

theorem tryNew_input {config : BatchVerificationSL} {command : CommitCommand E}
    (h : CommitCommand.tryNew config batch = .ok command) : command.input = batch := by
  unfold CommitCommand.tryNew at h
  split at h
  next => cases h; rfl
  next =>
    dsimp only at h
    split at h
    next => exact nomatch h
    next => cases h; rfl
  next =>
    split at h
    next => cases h; rfl
    next => exact nomatch h

theorem commandFor_spec {command : CommitSenderCommand E} (h : s.commandFor batch = .ok command) :
    envelope command = batch ∧ Fits s.lastCommittedBatchNumber command := by
  rw [GaplessCommitter.commandFor] at h
  split at h
  next hle =>
    cases h
    exact ⟨rfl, hle⟩
  next hgt =>
    obtain ⟨commit, hcommit, rfl⟩ := Fallible.map_eq_ok.mp h
    have hinput := tryNew_input hcommit
    exact ⟨hinput, by rw [Fits, hinput]; exact Nat.lt_of_not_le hgt⟩

theorem commandFor_congr {s' : GaplessCommitter E} (hlast : s'.lastCommittedBatchNumber = s.lastCommittedBatchNumber)
    (hconfig : s'.batchVerificationL1Config = s.batchVerificationL1Config) : s'.commandFor batch = s.commandFor batch := by
  rw [GaplessCommitter.commandFor, GaplessCommitter.commandFor, hlast, hconfig]

/-- The storage, the channel and the policy accept every batch. -/
def Accepts (s : GaplessCommitter E) (saves sends : Nat → Bool) (batches : List (SignedBatchEnvelope E)) : Prop :=
  (∀ k, saves k = true) ∧ (∀ k, sends k = true) ∧ ∀ batch ∈ batches, ∃ command, s.commandFor batch = .ok command

structure Sent (s : GaplessCommitter E) (ready : List (SignedBatchEnvelope E)) (s' : GaplessCommitter E)
    (sent : List (CommitSenderCommand E)) : Prop where
  buffer : s'.buffer = s.buffer
  last : s'.lastCommittedBatchNumber = s.lastCommittedBatchNumber
  config : s'.batchVerificationL1Config = s.batchVerificationL1Config
  output : s'.output = s.output ++ sent
  part : sent.map envelope <+: ready
  complete : s'.failed = false → sent.map envelope = ready
  fits : ∀ command ∈ sent, Fits s.lastCommittedBatchNumber command

theorem sent_nothing (ready storage : List (SignedBatchEnvelope E)) :
    Sent s ready { s with proofStorage := storage, failed := true } [] where
  buffer := rfl
  last := rfl
  config := rfl
  output := (append_nil _).symm
  part := List.nil_prefix
  complete := fun hfailed => nomatch hfailed
  fits := forall_mem_nil _

theorem forward_sent (saves sends : Nat → Bool) (k : Nat) (ready : List (SignedBatchEnvelope E)) (s : GaplessCommitter E) :
    ∃ sent, Sent s ready (GaplessCommitter.forward saves sends k ready s) sent := by
  induction ready generalizing k s with
  | nil => exact ⟨[], rfl, rfl, rfl, (append_nil _).symm, List.nil_prefix, fun _ => rfl, forall_mem_nil _⟩
  | cons batch ready ih =>
    rw [GaplessCommitter.forward]
    split
    next =>
      split
      next => exact ⟨[], sent_nothing _ _⟩
      next command hcommand =>
        obtain ⟨henvelope, hfits⟩ := commandFor_spec hcommand
        split
        next =>
          obtain ⟨sent, h⟩ := ih (k + 1)
            { s with proofStorage := s.proofStorage ++ [batch], output := s.output ++ [command] }
          refine ⟨command :: sent, h.buffer, h.last, h.config, ?_, ?_, fun hok => ?_, ?_⟩
          · rw [h.output, append_assoc]
            rfl
          · rw [map_cons, henvelope]
            exact (prefix_cons_inj _).mpr h.part
          · rw [map_cons, henvelope, h.complete hok]
          · intro c hc
            rcases mem_cons.mp hc with rfl | hc
            · exact hfits
            · exact h.fits c hc
        next => exact ⟨[], sent_nothing _ _⟩
    next => exact ⟨[], sent_nothing _ s.proofStorage⟩

theorem forward_running {saves sends : Nat → Bool} {ready : List (SignedBatchEnvelope E)} (k : Nat)
    (haccepts : Accepts s saves sends ready) (hrunning : s.failed = false) :
    (GaplessCommitter.forward saves sends k ready s).failed = false := by
  obtain ⟨hsaves, hsends, hpolicy⟩ := haccepts
  induction ready generalizing k s with
  | nil => exact hrunning
  | cons batch ready ih =>
    obtain ⟨command, hcommand⟩ := hpolicy batch mem_cons_self
    rw [GaplessCommitter.forward, if_pos (hsaves k), hcommand]
    dsimp only
    rw [if_pos (hsends k)]
    refine ih (k + 1) hrunning fun b hb => ?_
    obtain ⟨c, hc⟩ := hpolicy b (mem_cons_of_mem batch hb)
    exact ⟨c, (commandFor_congr rfl rfl).trans hc⟩

theorem exists_passed {last : Nat} {output : List (CommitSenderCommand E)}
    (hordered : (output.map envelope).Pairwise fun a b => a.batchNumber < b.batchNumber)
    (hfits : ∀ command ∈ output, Fits last command) : PassedFirst last output := by
  induction output with
  | nil => exact ⟨[], [], rfl, forall_mem_nil _, forall_mem_nil _⟩
  | cons command output ih =>
    rw [map_cons, pairwise_cons] at hordered
    obtain ⟨passed, commands, rfl, hpassed, hcommands⟩ := ih hordered.2 fun c hc => hfits c (mem_cons_of_mem command hc)
    have hhead := hfits command mem_cons_self
    cases command with
    | passthrough e =>
      refine ⟨e :: passed, commands, rfl, fun e' he' => ?_, hcommands⟩
      rcases mem_cons.mp he' with rfl | he'
      · exact hhead
      · exact hpassed e' he'
    | sendToL1 command =>
      -- Nothing passes through after the first commitment.
      have hnil : passed = [] := by
        refine eq_nil_iff_forall_not_mem.mpr fun e he => ?_
        have hlt := hordered.1 e (by simp only [map_append, map_map, mem_append, mem_map]
                                     exact .inl ⟨e, he, rfl⟩)
        have hle := hpassed e he
        have hhead' : last < command.input.batchNumber := hhead
        have hlt' : command.input.batchNumber < e.batchNumber := hlt
        omega
      subst hnil
      refine ⟨[], command :: commands, rfl, forall_mem_nil _, fun c hc => ?_⟩
      rcases mem_cons.mp hc with rfl | hc
      · exact hhead
      · exact hcommands c hc

end Committer

structure BatchInv (plan arrived : List (SignedBatchEnvelope E)) (last : Nat) (config : BatchVerificationSL)
    (s : GaplessCommitter E) : Prop where
  released : Released BatchEnvelope.batchNumber (fun _ => 1) plan arrived (s.output.map envelope) s.failed s.buffer
  fits : ∀ command ∈ s.output, Fits last command
  last : s.lastCommittedBatchNumber = last
  config : s.batchVerificationL1Config = config

namespace BatchInv

variable {plan arrived : List (SignedBatchEnvelope E)} {last : Nat} {config : BatchVerificationSL} {s : GaplessCommitter E}

variable (next) in
theorem step {arrival : BatchArrival E} (h : BatchInv plan arrived last config s) (hmem : arrival.batch ∈ plan)
    (hnew : arrival.batch ∉ arrived) : BatchInv plan (arrived ++ [arrival.batch]) last config (s.step arrival) ∧
      (Accepts (.new next last config) arrival.saves arrival.sends plan → s.failed = false →
        (s.step arrival).failed = false) := by
  have hreleased := h.released
  rw [GaplessCommitter.step]
  split
  next hfailed =>
    rw [hfailed] at hreleased
    exact ⟨{ h with released := by rw [hfailed]; exact hreleased.stopped _ }, fun _ hrunning => hrunning⟩
  next hrunning =>
    rw [Bool.eq_false_of_not_eq_true hrunning] at hreleased
    obtain ⟨sent, hsent⟩ := forward_sent arrival.saves arrival.sends 0
      (push batchNumber (fun _ => 1) s.buffer arrival.batch).1
      { s with buffer := (push batchNumber (fun _ => 1) s.buffer arrival.batch).2 }
    constructor
    · refine ⟨?_, fun command hcommand => ?_, hsent.last.trans h.last, hsent.config.trans h.config⟩
      · rw [hsent.output, hsent.buffer, map_append]
        exact hreleased.push hmem hnew hsent.part hsent.complete
      · rw [hsent.output] at hcommand
        rcases mem_append.mp hcommand with hold | hsend
        · exact h.fits command hold
        · exact h.last ▸ hsent.fits command hsend
    · rintro ⟨hsaves, hsends, hpolicy⟩ hs
      refine forward_running 0 ⟨hsaves, hsends, fun batch hbatch => ?_⟩ hs
      -- Every ready batch is one of the plan.
      have hrun : batch ∈ run plan (arrived ++ [arrival.batch]) := by
        rw [← (push_spec (hreleased.held rfl) hmem hnew).1]
        exact mem_append_right _ hbatch
      obtain ⟨command, hcommand⟩ := hpolicy batch ((takeWhile_sublist _).subset hrun)
      exact ⟨command, (commandFor_congr h.last h.config).trans hcommand⟩

end BatchInv

/-! ### Runs -/

/-- After any arrivals, in any order, of commands whose ranges partition the numbers from `next` on, both
components have forwarded exactly the longest initial run of what arrived, in order and once, and committed
batches pass through before the first commitment. A component that stops at a failed write has forwarded a
part of that run, and without such failures none stops. -/
theorem handed_over_gapless (proofPlan : List (ProofSenderCommand E Proof)) (proofArrivals : List (Arrival E Proof))
    (batchPlan : List (SignedBatchEnvelope E)) (batchArrivals : List (BatchArrival E)) (next : Nat)
    (hproofs : ProofPlan next proofPlan) (hproofArrivals : (proofArrivals.map (·.command)).Subperm proofPlan)
    (hbatches : BatchPlan next batchPlan) (hbatchArrivals : (batchArrivals.map (·.batch)).Subperm batchPlan)
    (last : Nat) (config : BatchVerificationSL) :
    let sender := proofArrivals.foldl GaplessL1ProofSender.step (.new next)
    let committer := batchArrivals.foldl GaplessCommitter.step (.new next last config)
    (Forwarded L1SenderCommand.firstBatchNumber proofPlan (proofArrivals.map (·.command)) sender.output sender.failed ∧
      ((∀ a ∈ proofArrivals, ∀ k, a.sends k = true) → sender.failed = false)) ∧
    (Forwarded BatchEnvelope.batchNumber batchPlan (batchArrivals.map (·.batch)) (committer.output.map envelope)
        committer.failed ∧ PassedFirst last committer.output ∧
      ((∀ a ∈ batchArrivals, Accepts (.new next last config) a.saves a.sends batchPlan) →
        committer.failed = false)) := by
  obtain ⟨hsender, hsends⟩ := hproofs.foldl_arrivals (I := ProofInv proofPlan) (Q := (·.failed = false))
    (fun h => h.step) (s := .new next) (.start hproofs) hproofArrivals
  obtain ⟨hcommitter, haccepts⟩ := hbatches.foldl_arrivals (I := fun arrived => BatchInv batchPlan arrived last config)
    (Q := (·.failed = false)) (fun h => h.step next) (s := .new next last config)
    ⟨.start hbatches, forall_mem_nil _, rfl, rfl⟩ hbatchArrivals
  have hforwarded := Forwarded.of_released hbatches hcommitter.released
  exact ⟨⟨.of_released hproofs hsender, fun h => hsends h rfl⟩, hforwarded,
    exists_passed hforwarded.ordered hcommitter.fits, fun h => haccepts h rfl⟩

end Spec

def sampleBatch (batchNumber : Nat) : SignedBatchEnvelope Unit where
  batch := {
    previousStoredBatchInfo := ⟨batchNumber - 1, 0, 0, 0, 0, 0, 0⟩
    batchInfo := {
      commitInfo := {
        batchNumber := batchNumber, newStateCommitment := 0, numberOfLayer1Txs := 0, numberOfLayer2Txs := 0, priorityOperationsHash := 0
        dependencyRootsRollingHash := 0, l2ToL1LogsRootHash := 0, l2DaCommitmentScheme := .none, daCommitment := 0
        firstBlockTimestamp := 0, firstBlockNumber := none, lastBlockTimestamp := 0, lastBlockNumber := none, chainId := 270
        operatorDaInput := [], slChainId := 9 }
      upgradeTxHash := none
      protocolVersion := ⟨0, 30, 0⟩ }
    chainAddress := 0, firstBlockNumber := 0, lastBlockNumber := 0, pubdataMode := .calldata }
  data := ()
  signatureData := .notNeeded

/-- A range of two batches and two that pass through. -/
def samplePlan : List (ProofSenderCommand Unit Unit) :=
  [.sendToL1 ⟨[sampleBatch 5, sampleBatch 6], (), by simp⟩, .passthrough (sampleBatch 7), .passthrough (sampleBatch 8)]

def sampleBatches : List (SignedBatchEnvelope Unit) := [sampleBatch 5, sampleBatch 6, sampleBatch 7]

/-! Both components get the later items first. -/

def sampleProofArrivals : List (Arrival Unit Unit) := samplePlan.reverse.map fun command => ⟨command, fun _ => true⟩

def sampleBatchArrivals : List (BatchArrival Unit) :=
  sampleBatches.reverse.map fun batch => ⟨batch, fun _ => true, fun _ => true⟩

theorem handed_over_gapless_reversed :
    let sender := sampleProofArrivals.foldl GaplessL1ProofSender.step (.new 5)
    let committer := sampleBatchArrivals.foldl GaplessCommitter.step (.new 5 5 .disabled)
    (sender.output = samplePlan ∧
      Forwarded L1SenderCommand.firstBatchNumber samplePlan samplePlan.reverse sender.output sender.failed) ∧
    committer.output = [.passthrough (sampleBatch 5), .sendToL1 ⟨sampleBatch 6, none⟩,
        .sendToL1 ⟨sampleBatch 7, none⟩] ∧
      Forwarded BatchEnvelope.batchNumber sampleBatches sampleBatches.reverse (committer.output.map envelope)
        committer.failed ∧ PassedFirst 5 committer.output := by
  have h := handed_over_gapless samplePlan sampleProofArrivals sampleBatches sampleBatchArrivals 5 (by decide)
    (reverse_perm samplePlan).subperm (by decide) (reverse_perm sampleBatches).subperm 5 .disabled
  exact ⟨⟨by decide +kernel, h.1.1⟩, by decide +kernel, h.2.1, h.2.2.1⟩

end Gapless
