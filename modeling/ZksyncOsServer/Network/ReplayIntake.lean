import ZksyncOsServer.Lib.Tasks
import ZksyncOsServer.Replay.Storage

/-!
# Replay intake of an external node

`network/src/protocol/en.rs`: one task per connection, all sharing the counter of the next
block and the bounded channel to the sequencer. A turn of a task ends where the code awaits:
the outbound channel, the next message, or a slot in the replay channel. The peers send any
messages; the sequencer receives records at any time and may go away.
-/
namespace Network

open Fallible List
open MerkleTree (B256)
open ProverApi (ProtocolSemanticVersion)
open Replay (BlockContext BlockStartCursors ReplayRecord)
open Tasks (Progress Program)

/-! ### Messages -/

/-- `v3::ReplayRecord`; `E` is the type of transaction envelopes. -/
structure WireReplayRecord (E : Type) where
  blockContext : BlockContext
  startingL1PriorityId : Nat
  transactions : List E
  previousBlockTimestamp : Nat
  protocolVersion : ProtocolSemanticVersion
  blockOutputHash : B256
  forcePreimages : List (B256 × List UInt8)
  startingInteropRootId : Nat
  startingMigrationNumber : Nat
  startingInteropFeeNumber : Nat

structure RecordOverride where
  blockNumber : Nat
  dbKey : List UInt8

structure GetBlockReplays where
  startingBlock : Nat
  maxBlocksPerMessage : Option Nat
  recordOverrides : List RecordOverride

inductive ZksMessage (E : Type) where
  | getBlockReplays (request : GetBlockReplays)
  | blockReplays (records : List (WireReplayRecord E))

variable {E T : Type}

def WireReplayRecord.blockNumber (record : WireReplayRecord E) : Nat := record.blockContext.blockNumber

/-- `try_from`; `tryIntoRecovered` finds the signer of a transaction. -/
def WireReplayRecord.tryInto (tryIntoRecovered : E → Except String T) (nodeVersion : String)
    (value : WireReplayRecord E) : Except String (ReplayRecord T) := do
  let transactions ← value.transactions.mapM tryIntoRecovered
  return {
    blockContext := value.blockContext
    transactions
    previousBlockTimestamp := value.previousBlockTimestamp
    nodeVersion
    protocolVersion := value.protocolVersion
    blockOutputHash := value.blockOutputHash
    forcePreimages := value.forcePreimages
    startingCursors := ⟨value.startingL1PriorityId, value.startingInteropRootId, value.startingMigrationNumber,
      value.startingInteropFeeNumber⟩ }

/-! ### The shared state -/

structure ExternalNodeProtocolConfig where
  recordOverrides : List RecordOverride
  maxBlocksPerMessage : Nat

def maxBlocksPerMessage : Nat := 64

structure ReplayStreamStalled where
  peerId : Nat
  nextBlock : Nat
  deriving DecidableEq

structure Intake (T : Type) where
  startingBlock : Nat
  capacity : Nat
  sent : List (ReplayRecord T)
  received : Nat
  closed : Bool
  events : List ReplayStreamStalled

namespace Intake

def new (capacity startingBlock : Nat) : Intake T := ⟨startingBlock, capacity, [], 0, false, []⟩

def hasRoom (s : Intake T) : Bool := s.sent.length < s.received + s.capacity

def reportStalled (s : Intake T) (peerId : Nat) : Intake T :=
  { s with events := s.events ++ [⟨peerId, s.startingBlock⟩] }

/-- A record gets into the channel and the counter is increased. -/
def push (s : Intake T) (record : ReplayRecord T) : Intake T :=
  { s with sent := s.sent ++ [record], startingBlock := s.startingBlock + 1 }

@[simp] theorem push_sent (s : Intake T) (record : ReplayRecord T) : (s.push record).sent = s.sent ++ [record] := rfl

@[simp] theorem push_startingBlock (s : Intake T) (record : ReplayRecord T) :
    (s.push record).startingBlock = s.startingBlock + 1 := rfl

end Intake

/-! ### The tasks -/

inductive Task (E T : Type) where
  | opened (peerId : Nat)
  | requesting (peerId : Nat) (request : GetBlockReplays)
  | receiving (peerId : Nat)
  | sending (peerId : Nat) (record : ReplayRecord T) (rest : List (WireReplayRecord E))
  /-- The receiving end of the replay channel. -/
  | sequencer

inductive Request where
  | connection (peerId : Nat)
  | sequencer

inductive Incoming (E : Type) where
  | message (message : ZksMessage E)
  | ended
  | timeout

/-- What the environment answers to a turn; after `budget` sends the runtime lets the task yield. -/
structure Input (E : Type) where
  outboundOpen : Bool
  incoming : Incoming E
  budget : Nat
  close : Bool

section Tasks
variable (tryIntoRecovered : E → Except String T) (nodeVersion : String) (config : ExternalNodeProtocolConfig)

/-- The records of a message, from one on; the send waits if the channel is full. -/
def forward (peerId : Nat) : List (WireReplayRecord E) → Nat → Intake T → Intake T × Progress (Task E T) Unit
  | [], _, s => (s, .pending (.receiving peerId))
  | wire :: rest, budget, s =>
    match wire.tryInto tryIntoRecovered nodeVersion with
    | .error _ => (s.reportStalled peerId, .finished ())
    | .ok record =>
      if wire.blockNumber ≠ s.startingBlock then (s.reportStalled peerId, .finished ())
      else if s.closed then (s, .finished ())
      else
        match budget with
        | 0 => (s, .pending (.sending peerId record rest))
        | budget + 1 =>
          if s.hasRoom then forward peerId rest budget (s.push record)
          else (s, .pending (.sending peerId record rest))

def replayRequest (s : Intake T) : GetBlockReplays :=
  ⟨s.startingBlock, some (min (max 1 config.maxBlocksPerMessage) maxBlocksPerMessage), config.recordOverrides⟩

/-- One turn of `run_en_connection`, or of the receiving end of the channel. -/
def resume (input : Input E) : Task E T → Intake T → Intake T × Progress (Task E T) Unit
  | .opened peerId, s => (s, .pending (.requesting peerId (replayRequest config s)))
  | .requesting peerId _, s =>
    if input.outboundOpen then (s, .pending (.receiving peerId)) else (s, .finished ())
  | .receiving peerId, s =>
    match input.incoming with
    | .timeout | .ended => (s.reportStalled peerId, .finished ())
    | .message (.getBlockReplays _) => (s, .pending (.receiving peerId))
    | .message (.blockReplays records) => forward tryIntoRecovered nodeVersion peerId records input.budget s
  | .sending peerId record rest, s =>
    if s.closed then (s, .finished ())
    else
      match input.budget with
      | 0 => (s, .pending (.sending peerId record rest))
      | budget + 1 =>
        if s.hasRoom then forward tryIntoRecovered nodeVersion peerId rest budget (s.push record)
        else (s, .pending (.sending peerId record rest))
  | .sequencer, s =>
    if input.close then ({ s with closed := true }, .finished ())
    else ({ s with received := min (s.received + 1) s.sent.length }, .pending .sequencer)

def program : Program (Intake T) Request (Task E T) (Input E) Unit where
  enter
    | .connection peerId => .opened peerId
    | .sequencer => .sequencer
  resume := resume tryIntoRecovered nodeVersion config

end Tasks

/-! ### The order of the records -/

namespace Intake

/-- The records in the channel are the blocks from `first` on, and the counter is the block after them. -/
structure Consecutive (first : Nat) (s : Intake T) : Prop where
  numbers : s.sent.map (·.blockContext.blockNumber) = List.range' first s.sent.length
  counter : s.startingBlock = first + s.sent.length

variable {first : Nat} {s s' : Intake T} {record : ReplayRecord T}

theorem consecutive_new (capacity first : Nat) : (new capacity first : Intake T).Consecutive first := ⟨rfl, rfl⟩

theorem consecutive_push (h : s.Consecutive first) :
    (s.push record).Consecutive first ↔ record.blockContext.blockNumber = s.startingBlock := by
  have hnumbers : (s.push record).sent.map (·.blockContext.blockNumber) =
      range' first s.sent.length ++ [record.blockContext.blockNumber] := by
    rw [push_sent, map_append, h.numbers]
    rfl
  have hrange : range' first (s.push record).sent.length = range' first s.sent.length ++ [first + s.sent.length] := by
    rw [push_sent, length_append, length_singleton, range'_concat, Nat.one_mul]
  rw [h.counter]
  constructor
  · intro h'
    have heq := hnumbers.symm.trans (h'.numbers.trans hrange)
    simpa using heq
  · intro hrecord
    refine ⟨by rw [hnumbers, hrange, hrecord], ?_⟩
    rw [push_startingBlock, push_sent, h.counter, length_append, length_singleton, Nat.add_assoc]

/-- More records have been sent, and counted. -/
def Extends (s' s : Intake T) : Prop :=
  ∃ more, s'.sent = s.sent ++ more ∧ s'.startingBlock = s.startingBlock + more.length

theorem Extends.refl (hsent : s'.sent = s.sent) (hcounter : s'.startingBlock = s.startingBlock) : s'.Extends s :=
  ⟨[], by simpa using hsent, by simpa using hcounter⟩

theorem Consecutive.of_extends (h : s'.Consecutive first) (hextends : s'.Extends s) : s.Consecutive first := by
  obtain ⟨more, hsent, hcounter⟩ := hextends
  have hnumbers := h.numbers
  have hstarting := h.counter
  rw [hsent, map_append, length_append, ← range'_append, Nat.one_mul] at hnumbers
  rw [hsent, length_append] at hstarting
  exact ⟨append_inj_left hnumbers (by simp), by omega⟩

end Intake

section Turns
variable {tryIntoRecovered : E → Except String T} {nodeVersion : String} {config : ExternalNodeProtocolConfig}
  {first : Nat}

theorem tryInto_blockNumber {wire : WireReplayRecord E} {record : ReplayRecord T}
    (h : wire.tryInto tryIntoRecovered nodeVersion = .ok record) :
    record.blockContext.blockNumber = wire.blockNumber := by
  obtain ⟨transactions, -, h⟩ := bind_eq_ok.mp h
  rw [← pure_eq_ok.mp h]
  rfl

theorem forward_cons (peerId : Nat) (wire : WireReplayRecord E) (rest : List (WireReplayRecord E)) (budget : Nat)
    (s : Intake T) :
    let s' := (forward tryIntoRecovered nodeVersion peerId (wire :: rest) budget s).1
    (s'.sent = s.sent ∧ s'.startingBlock = s.startingBlock) ∨
      ∃ record budget', record.blockContext.blockNumber = s.startingBlock ∧
        s' = (forward tryIntoRecovered nodeVersion peerId rest budget' (s.push record)).1 := by
  dsimp only
  rw [forward]
  split
  · exact .inl ⟨rfl, rfl⟩
  next record hrecord =>
    split
    · exact .inl ⟨rfl, rfl⟩
    next hnumber =>
      split
      · exact .inl ⟨rfl, rfl⟩
      · cases budget with
        | zero => exact .inl ⟨rfl, rfl⟩
        | succ budget =>
          dsimp only
          split
          · exact .inr ⟨record, budget, (tryInto_blockNumber hrecord).trans (not_not.mp hnumber), rfl⟩
          · exact .inl ⟨rfl, rfl⟩

theorem forward_extends (peerId : Nat) (records : List (WireReplayRecord E)) (budget : Nat) (s : Intake T) :
    (forward tryIntoRecovered nodeVersion peerId records budget s).1.Extends s := by
  induction records generalizing budget s with
  | nil => exact .refl rfl rfl
  | cons wire rest ih =>
    rcases forward_cons peerId wire rest budget s with ⟨hsent, hcounter⟩ | ⟨record, budget', -, hs⟩
    · exact .refl hsent hcounter
    · rw [hs]
      obtain ⟨more, hsent, hcounter⟩ := ih budget' (s.push record)
      rw [Intake.push_sent, append_assoc] at hsent
      rw [Intake.push_startingBlock] at hcounter
      exact ⟨record :: more, hsent, by rw [hcounter, length_cons]; omega⟩

/-- A message does not break the order: every record is compared with the counter and sent in the same turn. -/
theorem consecutive_forward (peerId : Nat) (records : List (WireReplayRecord E)) (budget : Nat) (s : Intake T)
    (h : s.Consecutive first) : (forward tryIntoRecovered nodeVersion peerId records budget s).1.Consecutive first := by
  induction records generalizing budget s with
  | nil => exact h
  | cons wire rest ih =>
    rcases forward_cons peerId wire rest budget s with ⟨hsent, hcounter⟩ | ⟨record, budget', hnumber, hs⟩
    · exact h.of_extends (.refl hsent.symm hcounter.symm)
    · rw [hs]
      exact ih budget' _ ((Intake.consecutive_push h).mpr hnumber)

/-- The turn completes a send that had to wait. -/
def Completes (s : Intake T) (input : Input E) : Bool := !s.closed && input.budget ≠ 0 && s.hasRoom

/-- A send that had to wait completes while the counter still is the number of its block. -/
def Fresh (s : Intake T) (task : Task E T) (input : Input E) : Prop :=
  match task with
  | .sending _ record _ => Completes s input = true → record.blockContext.blockNumber = s.startingBlock
  | _ => True

theorem consecutive_resume_sending (peerId : Nat) (record : ReplayRecord T) (rest : List (WireReplayRecord E))
    (input : Input E) (s : Intake T) (h : s.Consecutive first) :
    (resume tryIntoRecovered nodeVersion config input (.sending peerId record rest) s).1.Consecutive first ↔
      Fresh s (.sending peerId record rest : Task E T) input := by
  rw [resume, Fresh, Completes]
  split
  next hclosed =>
    exact iff_of_true h (by simp [hclosed])
  next hopen =>
    cases hbudget : input.budget with
    | zero => exact iff_of_true h (by simp)
    | succ budget =>
      dsimp only
      split
      next hroom =>
        simp only [hopen, hroom, Bool.not_false, ne_eq, Nat.succ_ne_zero, not_false_eq_true, decide_true, Bool.and_self,
          forall_const]
        rw [← Intake.consecutive_push h]
        exact ⟨fun h' => h'.of_extends (forward_extends peerId rest budget _), consecutive_forward peerId rest budget _⟩
      next hfull =>
        exact iff_of_true h (by simp [hfull])

theorem consecutive_resume (s : Intake T) (task : Task E T) (input : Input E) (h : s.Consecutive first) :
    (resume tryIntoRecovered nodeVersion config input task s).1.Consecutive first ↔ Fresh s task input := by
  cases task with
  | sending peerId record rest => exact consecutive_resume_sending peerId record rest input s h
  | opened peerId => exact iff_of_true h trivial
  | requesting peerId request =>
    refine iff_of_true ?_ trivial
    rw [resume]
    split
    · exact h
    · exact h
  | receiving peerId =>
    refine iff_of_true ?_ trivial
    rw [resume]
    split
    · exact ⟨h.numbers, h.counter⟩
    · exact ⟨h.numbers, h.counter⟩
    · exact h
    · exact consecutive_forward peerId _ input.budget s h
  | sequencer =>
    refine iff_of_true ?_ trivial
    rw [resume]
    split
    · exact ⟨h.numbers, h.counter⟩
    · exact ⟨h.numbers, h.counter⟩

end Turns

/-- In every interleaving of any connections, with any messages and any aborts: the records reach the sequencer's
channel in order, without duplicates or gaps, exactly if no send that had to wait completes after the counter
has moved on. -/
theorem replays_consecutive_iff (tryIntoRecovered : E → Except String T) (nodeVersion : String)
    (config : ExternalNodeProtocolConfig) (capacity first : Nat) (events : List (Tasks.Event Request (Input E))) :
    Run.States (program tryIntoRecovered nodeVersion config).step (fun pool => pool.state.Consecutive first)
        ⟨.new capacity first, []⟩ events ↔
      Run.Steps (program tryIntoRecovered nodeVersion config).step (Program.Turns Fresh)
        ⟨.new capacity first, []⟩ events :=
  Program.states_iff_turns _ (fun s task input h => consecutive_resume s task input h)
    (Intake.consecutive_new capacity first)

def sampleWire (number : Nat) : WireReplayRecord Nat where
  blockContext := ⟨270, number, .empty, 1000, 0, 0, 0, 0, 0, 0, 0, 0, 0⟩
  startingL1PriorityId := 0
  transactions := []
  previousBlockTimestamp := 0
  protocolVersion := ⟨0, 29, 1⟩
  blockOutputHash := 0
  forcePreimages := []
  startingInteropRootId := 0
  startingMigrationNumber := 0
  startingInteropFeeNumber := 0

/-- Two connections get block 6 while the channel is full, and both send it once the sequencer goes on. -/
def racingConnections : List (Tasks.Event Request (Input Nat)) :=
  let deliver (numbers : List Nat) : Input Nat := ⟨true, .message (.blockReplays (numbers.map sampleWire)), 10, false⟩
  [.start (.connection 1), .start (.connection 2), .start .sequencer,
    .resume 0 (deliver []), .resume 0 (deliver []), .resume 1 (deliver []), .resume 1 (deliver []),
    .resume 0 (deliver [5, 6]), .resume 1 (deliver [6, 7]),
    .resume 2 (deliver []), .resume 0 (deliver []), .resume 2 (deliver []), .resume 1 (deliver [])]

/-- Block 6 is in the channel twice and block 7 is skipped. -/
theorem duplicate_replay :
    let pool := racingConnections.foldl (program Except.ok "1.0.0" ⟨[], 64⟩).step ⟨.new 1 5, []⟩
    pool.state.sent.map (·.blockContext.blockNumber) = [5, 6, 6] ∧ pool.state.startingBlock = 8 ∧
      ¬ pool.state.Consecutive 5 :=
  ⟨by decide +kernel, by decide +kernel, fun h => absurd h.numbers (by decide +kernel)⟩

end Network
