import ZksyncOsServer.Raft.CrashSafety

/-!
# The canonization fence

`sequencer/src/execution/block_canonizer.rs`: a produced block goes downstream only after consensus has
returned it. The component waits for consensus and for the executor at once, but for the executor only
while there is room for another proposal, and for nothing else while it proposes. Consensus is whatever
sequence of records it returns; `NoopCanonization` returns the proposals.
-/
namespace Canonizer

open Raft (BlockCommandType)
open Replay (ReplayRecord)
open Run

variable {O T : Type}

/-- `BlockPayload`; `O` is the output of the block with the failed transactions. -/
structure BlockPayload (O T : Type) where
  output : O
  record : ReplayRecord T
  commandType : BlockCommandType
  deriving DecidableEq

namespace BlockPayload

def isReplay (this : BlockPayload O T) : Bool := this.commandType = .replay

/-- `Produce` or `Rebuild`. -/
def isProposal (this : BlockPayload O T) : Bool := !this.isReplay

end BlockPayload

inductive Status where
  | running
  | returned
  | failed (message : String)
  deriving DecidableEq

/-- `BlockCanonizer::run`, with what it has sent. -/
structure BlockCanonizer (O T : Type) where
  producedQueue : List (BlockPayload O T)
  proposing : Option (BlockPayload O T)
  status : Status
  output : List (BlockPayload O T)
  canonizedBlocksForExecution : List (ReplayRecord T)
  deriving DecidableEq

/-- What the task is woken by, with what the channel it then writes to answers. -/
inductive Event (O T : Type) where
  | canonized (result : Except String (ReplayRecord T)) (sent : Bool)
  | executed (payload : Option (BlockPayload O T)) (sent : Bool)
  | proposed (result : Except String Unit)

def maxProducedQueueSize : Nat := 2

variable [DecidableEq T]

namespace BlockCanonizer

def new : BlockCanonizer O T := ⟨[], none, .running, [], []⟩

variable (this : BlockCanonizer O T)

def sendOutput (payload : BlockPayload O T) (sent : Bool) : BlockCanonizer O T :=
  if sent then { this with output := this.output ++ [payload] } else { this with status := .failed "pipeline send failed" }

/-- The arm for a record that consensus has returned. -/
def handleCanonized (record : ReplayRecord T) (sent : Bool) : BlockCanonizer O T :=
  match this.producedQueue with
  | payload :: producedQueue =>
    if payload.record.eq record then { this with producedQueue }.sendOutput payload sent
    else { this with producedQueue, status := .failed "canonized replay record mismatch. Other node became the leader?" }
  | [] =>
    if sent then { this with canonizedBlocksForExecution := this.canonizedBlocksForExecution ++ [record] }
    else { this with status := .failed "channel closed" }

def handleExecuted (payload : BlockPayload O T) (sent : Bool) : BlockCanonizer O T :=
  match payload.commandType with
  | .replay => this.sendOutput payload sent
  | .produce | .rebuild => { this with proposing := some payload }

/-- One turn of the loop, or the end of the proposal that it waits for. -/
def turn (event : Event O T) : BlockCanonizer O T :=
  match this.proposing, event with
  | some payload, .proposed (.ok ()) =>
    { this with proposing := none, producedQueue := this.producedQueue ++ [payload] }
  | some _, .proposed (.error message) => { this with status := .failed message }
  | none, .canonized (.ok record) sent => this.handleCanonized record sent
  | none, .canonized (.error message) _ => { this with status := .failed message }
  | none, .executed payload sent =>
    if this.producedQueue.length < maxProducedQueueSize then
      match payload with
      | some payload => this.handleExecuted payload sent
      | none => { this with status := .returned }
    else this
  | _, _ => this

def step (event : Event O T) : BlockCanonizer O T :=
  if this.status = .running then this.turn event else this

end BlockCanonizer

/-! ### What the component is for -/

namespace Event

def record : Event O T → Option (ReplayRecord T)
  | .canonized (.ok record) _ => some record
  | _ => none

def payload : Event O T → Option (BlockPayload O T)
  | .executed payload _ => payload
  | _ => none

/-- Consensus has taken the proposal. -/
def isProposed : Event O T → Bool
  | .proposed (.ok ()) => true
  | _ => false

end Event

/-- What the component waits for: the end of its proposal, or else consensus, and the executor while there
is room. -/
def Awaits (s : BlockCanonizer O T) : Event O T → Prop
  | .canonized .. => s.proposing = none
  | .executed .. => s.proposing = none ∧ s.producedQueue.length < maxProducedQueueSize
  | .proposed _ => s.proposing ≠ none

instance decidableAwaits (s : BlockCanonizer O T) (event : Event O T) : Decidable (Awaits s event) := by
  cases event <;> unfold Awaits <;> infer_instance

/-- The events of a run that the component has taken. -/
def taken (s : BlockCanonizer O T) (events : List (Event O T)) : List (Event O T) :=
  collect BlockCanonizer.step (fun s event => if s.status = .running ∧ Awaits s event then [event] else []) s events

/-- Every canonized record was matched to one payload with an equal record or forwarded once, in order. -/
inductive Dispatched : List (ReplayRecord T) → List (BlockPayload O T) → List (ReplayRecord T) → Prop
  | nil : Dispatched [] [] []
  | matched {canonized : List (ReplayRecord T)} {sent : List (BlockPayload O T)} {forwarded : List (ReplayRecord T)}
      {record : ReplayRecord T} {payload : BlockPayload O T} (h : Dispatched canonized sent forwarded)
      (hrecord : payload.record.eq record = true) : Dispatched (canonized ++ [record]) (sent ++ [payload]) forwarded
  | forwarded {canonized : List (ReplayRecord T)} {sent : List (BlockPayload O T)} {forwarded : List (ReplayRecord T)}
      {record : ReplayRecord T} (h : Dispatched canonized sent forwarded) :
      Dispatched (canonized ++ [record]) sent (forwarded ++ [record])

/-- What the component has made of the events it has taken, as long as it has not failed. -/
structure Fenced (events : List (Event O T)) (s : BlockCanonizer O T) : Prop where
  dispatched : Dispatched (events.filterMap (·.record)) (s.output.filter (·.isProposal)) s.canonizedBlocksForExecution
  /-- What was sent downstream are the oldest proposals in their order, the rest is pending. -/
  proposals : s.output.filter (·.isProposal) ++ s.producedQueue ++ s.proposing.toList =
    (events.filterMap (·.payload)).filter (·.isProposal)
  /-- Only a completed proposal is sent or waits for its record. -/
  proposed : (s.output.filter (·.isProposal)).length + s.producedQueue.length = events.countP (·.isProposed)
  replays : s.output.filter (·.isReplay) = (events.filterMap (·.payload)).filter (·.isReplay)
  pending : s.producedQueue.length + s.proposing.toList.length ≤ maxProducedQueueSize

/-- `run` has not returned an error. -/
def NotFailed (s : BlockCanonizer O T) : Prop := ∀ message, s.status ≠ .failed message

/-- What `run` fails on: an error of consensus, a closed channel, or another record than the proposed one. -/
def Refuses (s : BlockCanonizer O T) : Event O T → Prop
  | .canonized (.ok record) sent => sent = false ∨ ∃ payload ∈ s.producedQueue.head?, payload.record.eq record = false
  | .canonized (.error _) _ => True
  | .executed _ sent => sent = false
  | .proposed result => result ≠ .ok ()

/-! ### Every turn keeps the fence -/

section Fence
variable {events : List (Event O T)} {s : BlockCanonizer O T} {payload : BlockPayload O T} {record : ReplayRecord T}
  {sent : Bool}

omit [DecidableEq T] in
theorem isProposal_of_ne_replay (h : payload.commandType ≠ .replay) : payload.isProposal = true := by
  simp [BlockPayload.isProposal, BlockPayload.isReplay, h]

omit [DecidableEq T] in
theorem isReplay_eq_false (h : payload.isProposal = true) : payload.isReplay = false := by
  simpa [BlockPayload.isProposal] using h

theorem Fenced.isProposal_of_mem (h : Fenced events s) (hpayload : payload ∈ s.producedQueue) :
    payload.isProposal = true := by
  have hmem : payload ∈ (events.filterMap (·.payload)).filter (·.isProposal) := by
    rw [← h.proposals]
    exact List.mem_append_left _ (List.mem_append_right _ hpayload)
  exact (List.mem_filter.mp hmem).2

theorem Fenced.new : Fenced [] (.new : BlockCanonizer O T) :=
  ⟨.nil, rfl, rfl, rfl, Nat.zero_le _⟩

theorem Fenced.proposal (h : Fenced events s) (hproposing : s.proposing = some payload) :
    Fenced (events ++ [.proposed (.ok ())])
      { s with proposing := none, producedQueue := s.producedQueue ++ [payload] } := by
  obtain ⟨hdispatched, hproposals, hproposed, hreplays, hpending⟩ := h
  rw [hproposing] at hproposals hpending
  refine ⟨?_, ?_, ?_, ?_, ?_⟩
  · simpa [Event.record] using hdispatched
  · simpa [Event.payload] using hproposals
  · rw [List.countP_append, ← hproposed]
    simp [Event.isProposed, Nat.add_assoc]
  · simpa [Event.payload] using hreplays
  · simpa using hpending

omit [DecidableEq T] in
theorem sendOutput_eq (hok : NotFailed (s.sendOutput payload sent)) :
    s.sendOutput payload sent = { s with output := s.output ++ [payload] } := by
  cases sent with
  | true => rfl
  | false => exact absurd rfl (hok _)

/-- A record is forwarded if nothing is pending, and otherwise releases the oldest proposal. -/
theorem handleCanonized_cases (hok : NotFailed (s.handleCanonized record sent)) :
    s.producedQueue = [] ∧ s.handleCanonized record sent =
        { s with canonizedBlocksForExecution := s.canonizedBlocksForExecution ++ [record] } ∨
      ∃ payload producedQueue, s.producedQueue = payload :: producedQueue ∧ payload.record.eq record = true ∧
        s.handleCanonized record sent = { s with producedQueue, output := s.output ++ [payload] } := by
  rw [BlockCanonizer.handleCanonized] at hok ⊢
  cases hqueue : s.producedQueue with
  | nil =>
    rw [hqueue] at hok
    cases sent with
    | true => exact .inl ⟨rfl, by simp⟩
    | false => exact absurd rfl (hok _)
  | cons payload producedQueue =>
    simp only [hqueue] at hok ⊢
    split at hok
    next hrecord => exact .inr ⟨payload, producedQueue, rfl, hrecord, (if_pos hrecord).trans (sendOutput_eq hok)⟩
    next => exact absurd rfl (hok _)

theorem Fenced.canonized (h : Fenced events s) (hok : NotFailed (s.handleCanonized record sent)) :
    Fenced (events ++ [.canonized (.ok record) sent]) (s.handleCanonized record sent) := by
  have hpayloads : (events ++ [Event.canonized (.ok record) sent]).filterMap Event.payload =
      events.filterMap Event.payload := by simp [Event.payload]
  have hproposed : (events ++ [Event.canonized (.ok record) sent]).countP Event.isProposed =
      events.countP Event.isProposed := by simp [Event.isProposed]
  have hrecords : (events ++ [Event.canonized (.ok record) sent]).filterMap Event.record =
      events.filterMap Event.record ++ [record] := by simp [Event.record]
  obtain ⟨-, hstep⟩ | ⟨payload, producedQueue, hqueue, hrecord, hstep⟩ := handleCanonized_cases hok
  · rw [hstep]
    exact ⟨hrecords ▸ h.dispatched.forwarded, hpayloads ▸ h.proposals, hproposed ▸ h.proposed, hpayloads ▸ h.replays,
      h.pending⟩
  · have hproposal := h.isProposal_of_mem (hqueue ▸ List.mem_cons_self)
    obtain ⟨hdispatched, hproposals, hcompleted, hreplays, hpending⟩ := h
    rw [hqueue] at hproposals hpending hcompleted
    rw [hstep]
    refine ⟨?_, ?_, ?_, ?_, ?_⟩
    · rw [hrecords]
      simpa [hproposal] using hdispatched.matched hrecord
    · rw [hpayloads]
      simpa [hproposal] using hproposals
    · rw [hproposed, ← hcompleted]
      simp [hproposal]
      omega
    · rw [hpayloads]
      simpa [isReplay_eq_false hproposal] using hreplays
    · rw [List.length_cons] at hpending
      dsimp only
      omega

theorem Fenced.executed (h : Fenced events s) (hproposing : s.proposing = none)
    (hroom : s.producedQueue.length < maxProducedQueueSize) (hok : NotFailed (s.handleExecuted payload sent)) :
    Fenced (events ++ [.executed (some payload) sent]) (s.handleExecuted payload sent) := by
  obtain ⟨hdispatched, hproposals, hproposed, hreplays, hpending⟩ := h
  have hpropose : payload.commandType ≠ .replay →
      Fenced (events ++ [.executed (some payload) sent]) { s with proposing := some payload } := by
    intro hcommand
    have hproposal := isProposal_of_ne_replay hcommand
    rw [hproposing] at hproposals
    refine ⟨?_, ?_, ?_, ?_, hroom⟩
    · simpa [Event.record] using hdispatched
    · simpa [Event.payload, hproposal] using congrArg (· ++ [payload]) hproposals
    · simpa [Event.isProposed] using hproposed
    · simpa [Event.payload, isReplay_eq_false hproposal] using hreplays
  rw [BlockCanonizer.handleExecuted] at hok ⊢
  split
  next hcommand =>
    have hreplay : payload.isReplay = true := by simp [BlockPayload.isReplay, hcommand]
    have hproposal : payload.isProposal = false := by simp [BlockPayload.isProposal, hreplay]
    simp only [hcommand] at hok
    rw [sendOutput_eq hok]
    refine ⟨?_, ?_, ?_, ?_, hpending⟩
    · simpa [Event.record, hproposal] using hdispatched
    · simpa [Event.payload, hproposal] using hproposals
    · simpa [Event.isProposed, hproposal] using hproposed
    · simpa [Event.payload, hreplay] using hreplays
  next hcommand => exact hpropose (by rw [hcommand]; nofun)
  next hcommand => exact hpropose (by rw [hcommand]; nofun)

/-- As long as it does not fail, a step keeps the fence. -/
theorem Fenced.step (event : Event O T) (h : NotFailed s → Fenced events s) (hok : NotFailed (s.step event)) :
    Fenced (events ++ if s.status = .running ∧ Awaits s event then [event] else []) (s.step event) := by
  rw [BlockCanonizer.step] at hok ⊢
  by_cases hrunning : s.status = .running
  case neg =>
    rw [if_neg hrunning] at hok ⊢
    simpa [hrunning] using h hok
  have hfenced := h (by rw [NotFailed, hrunning]; nofun)
  rw [if_pos hrunning] at hok ⊢
  unfold BlockCanonizer.turn at hok ⊢
  cases hproposing : s.proposing with
  | some payload =>
    cases event with
    | proposed result =>
      cases result with
      | ok => simpa [hrunning, Awaits, hproposing] using hfenced.proposal hproposing
      | error message => simp [hproposing, NotFailed] at hok
    | canonized | executed => simpa [Awaits, hproposing] using hfenced
  | none =>
    cases event with
    | proposed => simpa [Awaits, hproposing] using hfenced
    | canonized result sent =>
      cases result with
      | ok record =>
        simp only [hproposing] at hok
        simpa [hrunning, Awaits, hproposing] using hfenced.canonized hok
      | error message => simp [hproposing, NotFailed] at hok
    | executed payload sent =>
      simp only [hproposing] at hok ⊢
      by_cases hroom : s.producedQueue.length < maxProducedQueueSize
      case neg => simpa [Awaits, hroom] using hfenced
      rw [if_pos hroom] at hok ⊢
      rw [if_pos ⟨hrunning, hproposing, hroom⟩]
      cases payload with
      | some payload => exact hfenced.executed hproposing hroom hok
      | none =>
        obtain ⟨hdispatched, hproposals, hproposed, hreplays, hpending⟩ := hfenced
        rw [hproposing] at hproposals hpending
        refine ⟨?_, ?_, ?_, ?_, hpending⟩
        · simpa [Event.record] using hdispatched
        · simpa [Event.payload] using hproposals
        · simpa [Event.isProposed] using hproposed
        · simpa [Event.payload] using hreplays

theorem NotFailed.step (event : Event O T) (h : NotFailed s) (haccepts : ¬Refuses s event) : NotFailed (s.step event) := by
  rw [BlockCanonizer.step]
  split
  case isFalse => exact h
  unfold BlockCanonizer.turn BlockCanonizer.handleCanonized BlockCanonizer.handleExecuted BlockCanonizer.sendOutput
  grind [NotFailed, Refuses]

end Fence

/-- For every interleaving of executor payloads and canonized records, of which the component takes those
it waits for, as long as it has not failed: what leaves as `Produce` or `Rebuild` are the oldest completed
proposals, in order and once, each after consensus has returned an equal record; canonized records are
matched so or forwarded once; replays leave once; at most two proposals are pending. It fails only on an
error, a closed channel or a mismatch. -/
theorem canonization_fence (events : List (Event O T)) :
    let s := events.foldl BlockCanonizer.step .new
    (NotFailed s → Fenced (taken .new events) s) ∧
      ∀ event, NotFailed s → ¬Refuses s event → NotFailed (s.step event) :=
  ⟨collect_induction (J := fun events s => NotFailed s → Fenced events s)
    (fun _ _ event h => Fenced.step event h) fun _ => Fenced.new, fun event h => h.step event⟩

/-- A proposal, a replay while it is pending, its record from a node of another version and a foreign one. -/
def sampleEvents : List (Event Unit Nat) :=
  [.executed (some ⟨(), Raft.Node.firstBlock, .produce⟩) true, .proposed (.ok ()),
    .executed (some ⟨(), Raft.Node.secondBlock, .replay⟩) true,
    .canonized (.ok { Raft.Node.firstBlock with nodeVersion := "2.0.0" }) true,
    .canonized (.ok Raft.Node.rebuiltBlock) true]

theorem canonization_fence_sample :
    let s := sampleEvents.foldl BlockCanonizer.step .new
    s.output = [⟨(), Raft.Node.secondBlock, .replay⟩, ⟨(), Raft.Node.firstBlock, .produce⟩] ∧
      s.canonizedBlocksForExecution = [Raft.Node.rebuiltBlock] ∧ (taken .new sampleEvents).length = 5 ∧
      Fenced (taken .new sampleEvents) s := by
  refine ⟨by decide +kernel, by decide +kernel, by decide +kernel, (canonization_fence sampleEvents).1 ?_⟩
  have hrunning : (sampleEvents.foldl BlockCanonizer.step .new).status = .running := by decide +kernel
  simp [NotFailed, hrunning]

/-! ### The degenerate consensus -/

/-- `NoopCanonization`, the component and the channel from it to itself. -/
structure NoopCanonizer (O T : Type) where
  canonizer : BlockCanonizer O T
  channel : List (ReplayRecord T)

inductive NoopEvent (O T : Type) where
  | executed (payload : BlockPayload O T)
  | proposed
  | canonized

namespace NoopCanonizer

def new : NoopCanonizer O T := ⟨.new, []⟩

/-- A step of the component with `propose` and `next_canonized` of the channel. -/
def step (this : NoopCanonizer O T) : NoopEvent O T → NoopCanonizer O T
  | .executed payload => { this with canonizer := this.canonizer.step (.executed (some payload) true) }
  | .proposed =>
    match this.canonizer.proposing with
    | some payload => ⟨this.canonizer.step (.proposed (.ok ())), this.channel ++ [payload.record]⟩
    | none => this
  | .canonized =>
    match this.canonizer.proposing, this.channel with
    | none, record :: channel => ⟨this.canonizer.step (.canonized (.ok record) true), channel⟩
    | _, _ => this

end NoopCanonizer

/-- The channel holds the records of the pending proposals. -/
structure Looped (s : NoopCanonizer O T) : Prop where
  running : s.canonizer.status = .running
  channel : s.channel = s.canonizer.producedQueue.map (·.record)
  forExecution : s.canonizer.canonizedBlocksForExecution = []

theorem eq_refl (record : ReplayRecord T) : record.eq record = true := by simp [ReplayRecord.eq]

theorem Looped.step {s : NoopCanonizer O T} (h : Looped s) (event : NoopEvent O T) : Looped (s.step event) := by
  obtain ⟨hrunning, hchannel, hforward⟩ := h
  cases event with
  | executed payload =>
    rw [NoopCanonizer.step, BlockCanonizer.step, if_pos hrunning]
    unfold BlockCanonizer.turn
    cases hproposing : s.canonizer.proposing with
    | some waiting => exact ⟨hrunning, hchannel, hforward⟩
    | none =>
      dsimp only
      split
      next =>
        rw [BlockCanonizer.handleExecuted]
        split <;> exact ⟨hrunning, hchannel, hforward⟩
      next => exact ⟨hrunning, hchannel, hforward⟩
  | proposed =>
    rw [NoopCanonizer.step]
    split
    next payload hproposing =>
      rw [BlockCanonizer.step, if_pos hrunning]
      unfold BlockCanonizer.turn
      simp only [hproposing]
      refine ⟨hrunning, ?_, hforward⟩
      simp [hchannel]
    next => exact ⟨hrunning, hchannel, hforward⟩
  | canonized =>
    rw [NoopCanonizer.step]
    split
    next record channel hproposing hrecord =>
      rw [hrecord] at hchannel
      obtain ⟨payload, queue, hqueue, rfl, rfl⟩ := List.map_eq_cons_iff.mp hchannel.symm
      rw [BlockCanonizer.step, if_pos hrunning]
      unfold BlockCanonizer.turn
      simp only [hproposing, BlockCanonizer.handleCanonized, hqueue, eq_refl, if_true, BlockCanonizer.sendOutput]
      exact ⟨hrunning, rfl, hforward⟩
    next => exact ⟨hrunning, hchannel, hforward⟩

/-- Alone, the node never fails on a mismatch and forwards nothing for execution. -/
theorem noop_never_fails (events : List (NoopEvent O T)) :
    States NoopCanonizer.step Looped (.new : NoopCanonizer O T) events :=
  states_of_invariant (fun _ event h => h.step event) ⟨rfl, rfl, rfl⟩

end Canonizer
