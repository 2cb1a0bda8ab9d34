import ZksyncOsServer.L1Sender.Pipelined

/-!
# Deadlocks of the pipelined L1 sender

Permits are only released by the inclusion watcher, and evicted transactions are only resent by the
submitter. The two waits of the submitter's loop take resend requests, the wait for a permit during
the seeding does not: when more transactions are recovered than the window has slots, an eviction at
the head of the line makes the submitter and the watcher wait for each other. With no more recovered
transactions than slots no cyclic wait is reachable.
-/
namespace L1Sender

open List Run Sender Submitter

variable {C E : Type}

/-! ### Waiting -/

/-- What a task waits for: nothing, an answer of L1 or an inbound command, another task; or it has
finished. -/
inductive Wait where
  | ready
  | event
  | task
  | finished
  deriving DecidableEq

namespace Sender

def readyIf (condition : Bool) : Wait := if condition then .ready else .task

variable (window : Nat) (s : Sender C E)

def submitterWait : Wait :=
  match s.submitter with
  | .seeding _ | .wave _ | .submitting [] => .ready
  | .seedPermit .. => readyIf (0 < s.slots)
  | .seedSend .. | .handOver .. => readyIf (s.submitted.length < window)
  | .awaitPermit => readyIf (s.resendRequest.isSome || 0 < s.slots)
  | .receiving _ => if s.resendRequest.isSome || !s.inbound.isEmpty || s.closed then .ready else .event
  | .submitting (_ :: _) | .resending .. => .event
  | .done => .finished

def watcherWait : Wait :=
  match s.watcher with
  | .receiving => readyIf (!s.submitted.isEmpty || s.submitter.isDone)
  | .polling .. | .probing .. | .evicted .. => .event
  | .requesting .. => readyIf (s.submitter.isDone || s.resendRequest.isNone)
  | .awaitReply .. => readyIf (s.resendReply.isSome || s.submitter.isDone)
  | .sending _ => readyIf (s.minedQueue.length < minedQueueCapacity window)
  | .done => .finished

def forwarderWait : Wait :=
  match s.forwarder with
  | .receiving => readyIf (!s.minedQueue.isEmpty || s.watcher.isDone)
  | .confirming _ => .event
  | .done => .finished

/-- No event is outstanding and every task that has not finished waits for another one. -/
def Deadlocked : Prop :=
  s.failed = false ∧
  (∀ wait ∈ [s.submitterWait window, s.watcherWait window, s.forwarderWait], wait = .task ∨ wait = .finished) ∧
  ∃ wait ∈ [s.submitterWait window, s.watcherWait window, s.forwarderWait], wait = .task
  deriving Decidable

end Sender

/-! ### A task that waits for another one does not move -/

theorem Sender.readyIf_blocked {condition : Bool} (h : readyIf condition = .task ∨ readyIf condition = .finished) :
    condition = false := by
  cases condition <;> simp_all [readyIf]

section

variable {window : Nat} {s : Sender C E}

theorem Sender.submitterStep_blocked [DecidableEq C] (h : s.submitterWait window = .task ∨ s.submitterWait window = .finished)
    (answer : TxHash) : s.submitterStep window answer = s := by
  rw [submitterWait] at h
  rw [submitterStep]
  cases hsub : s.submitter with
  | done => rfl
  | seeding seeds | wave commands | resending nonce resume => simp [hsub] at h
  | submitting commands => cases commands <;> simp [hsub] at h
  | receiving permits =>
    rw [hsub] at h
    dsimp only at h
    split at h <;> simp at h
  | seedPermit seed rest | seedSend seed rest | handOver entry commands =>
    rw [hsub] at h
    have hblocked := readyIf_blocked h
    simp only [decide_eq_false_iff_not] at hblocked
    dsimp only
    rw [if_neg hblocked]
  | awaitPermit =>
    rw [hsub] at h
    have hblocked := readyIf_blocked h
    simp only [Bool.or_eq_false_iff, Option.isSome_eq_false_iff, Option.isNone_iff_eq_none, decide_eq_false_iff_not]
      at hblocked
    simp [hblocked.1, hblocked.2]

theorem Sender.watcherStep_blocked (h : s.watcherWait window = .task ∨ s.watcherWait window = .finished) :
    s.watcherStep window = s := by
  rw [watcherWait] at h
  rw [watcherStep]
  cases hw : s.watcher with
  | done => rfl
  | polling entry polls absent | probing entry polls absent | evicted entry polls => simp [hw] at h
  | receiving | awaitReply entry polls | sending mined =>
    rw [hw] at h
    have hblocked := readyIf_blocked h
    simp_all
  | requesting entry polls =>
    rw [hw] at h
    have hblocked := readyIf_blocked h
    simp only [Bool.or_eq_false_iff, Option.isNone_eq_false_iff, Option.isSome_iff_ne_none] at hblocked
    simp [hblocked.1, hblocked.2]

theorem Sender.forwarderStep_blocked (h : s.forwarderWait = .task ∨ s.forwarderWait = .finished) (status : Bool) :
    s.forwarderStep status = s := by
  rw [forwarderWait] at h
  rw [forwarderStep]
  cases hf : s.forwarder with
  | done => rfl
  | confirming mined => simp [hf] at h
  | receiving =>
    rw [hf] at h
    have hblocked := readyIf_blocked h
    simp_all

/-- In a deadlock no task makes a step. -/
theorem Sender.Deadlocked.stuck [DecidableEq C] (h : s.Deadlocked window) (answer : TxHash) (status : Bool) :
    s.submitterStep window answer = s ∧ s.watcherStep window = s ∧ s.forwarderStep status = s :=
  ⟨submitterStep_blocked (h.2.1 _ (by simp)) answer, watcherStep_blocked (h.2.1 _ (by simp)),
    forwarderStep_blocked (h.2.1 _ (by simp)) status⟩

end

/-! ### Permits and the resend channels -/

def Submitter.permits : Submitter C E → Nat
  | .seeding _ | .seedPermit .. | .awaitPermit | .done | .resending _ none => 0
  | .seedSend .. => 1
  | .receiving permits | .resending _ (some permits) => permits
  | .wave commands | .submitting commands => commands.length
  | .handOver _ commands => commands.length + 1

def Submitter.resends : Submitter C E → Option Nat
  | .resending nonce _ => some nonce
  | _ => none

def Watcher.permits (watcher : Watcher C E) : Nat := watcher.entry?.toList.length

/-- A resend that the watcher waits for is in the request channel, in the submitter's hands or in
the reply; otherwise none is under way. -/
def ResendAt (watcher : Watcher C E) (request resends : Option Nat) (reply : Option TxHash) : Prop :=
  match watcher with
  | .awaitReply entry _ =>
    request = some entry.nonce ∧ resends = none ∧ reply = none ∨
    request = none ∧ resends = some entry.nonce ∧ reply = none ∨
    request = none ∧ resends = none ∧ reply.isSome = true
  | _ => request = none ∧ resends = none ∧ reply = none

/-- Every permit is accounted for, resends follow the protocol, and the tasks finish in order. -/
structure Balanced (window : Nat) (s : Sender C E) : Prop where
  permits : s.slots + s.submitter.permits + s.submitted.length + s.watcher.permits = window
  resend : ResendAt s.watcher s.resendRequest s.submitter.resends s.resendReply
  finished : s.watcher.isDone = true → s.submitter.isDone = true
  forwarded : s.forwarder = .done → s.watcher.isDone = true

variable {window : Nat} {s t : Sender C E} {watcher : Watcher C E} {reply : Option TxHash}

theorem ResendAt.of_not_awaiting {request resends : Option Nat} (h : watcher.isAwaiting = false) :
    ResendAt watcher request resends reply ↔ request = none ∧ resends = none ∧ reply = none := by
  cases watcher <;> first | exact Iff.rfl | cases h

theorem ResendAt.take {nonce : Nat} {resends : Option Nat}
    (h : ResendAt watcher (some nonce) resends reply) : ResendAt watcher none (some nonce) reply := by
  cases watcher <;> simp_all [ResendAt]

theorem ResendAt.answer {nonce : Nat} {request : Option Nat}
    (h : ResendAt watcher request (some nonce) reply) (answer : TxHash) :
    ResendAt watcher request none (some answer) := by
  cases watcher <;> simp_all [ResendAt]

@[simp] theorem Submitter.resends_wait (permits : Option Nat) : (wait permits : Submitter C E).resends = none := by
  cases permits <;> rfl

@[simp] theorem Submitter.permits_wait (permits : Option Nat) : (wait permits : Submitter C E).permits = permits.getD 0 := by
  cases permits <;> rfl

@[simp] theorem Submitter.permits_resending (nonce : Nat) (resume : Option Nat) :
    (resending nonce resume : Submitter C E).permits = resume.getD 0 := by
  cases resume <;> rfl

@[simp] theorem Submitter.isDone_wait (permits : Option Nat) : (wait permits : Submitter C E).isDone = false := by
  cases permits <;> rfl

theorem Watcher.isDone_of_entry {entry : InFlightTx C E} (h : watcher.entry? = some entry) :
    watcher.isDone = false := by
  cases watcher <;> first | rfl | cases h

variable [DecidableEq C]

theorem Balanced.submitterMove (h : Balanced window s) (hmove : SubmitterMove window s t) : Balanced window t := by
  have hpermits := h.permits
  have hresend := h.resend
  have hfinished := h.finished
  cases hmove with
  | stay => exact h
  | fail => exact { h with }
  | seeded hsub | seed hsub | seedPermit hsub hslots | seedSend hsub hroom | takePermits hsub hrequest hslots
  | prune hsub | submitted hsub | submit hsub haccept | handOver hsub hroom =>
    rw [hsub] at hpermits hresend hfinished
    refine ⟨?_, hresend, fun hdone => (by cases hfinished hdone), h.forwarded⟩
    simp only [prune, takePermits, Submitter.permits, length_cons, length_append, length_nil] at hpermits ⊢
    omega
  | takeRequest hsub hrequest =>
    rw [hsub] at hpermits hresend hfinished
    rw [hrequest] at hresend
    refine ⟨?_, hresend.take, fun hdone => absurd (hfinished hdone) (by simp), h.forwarded⟩
    simpa [takeRequest] using hpermits
  | receive hsub hrequest hinbound hcommands =>
    rw [hsub] at hpermits hresend hfinished
    refine ⟨?_, hresend, fun hdone => (by cases hfinished hdone), h.forwarded⟩
    have hlength := congrArg List.length (mapM_command?_eq_some hcommands)
    simp only [length_map, length_take] at hlength
    simp only [Submitter.permits, length_take] at hpermits ⊢
    omega
  | close hsub hrequest hinbound hclosed =>
    rw [hsub] at hpermits hresend
    refine ⟨?_, hresend, fun _ => rfl, h.forwarded⟩
    simp only [Submitter.permits] at hpermits ⊢
    omega
  | resend hsub hentry haccept =>
    rw [hsub] at hpermits hresend hfinished
    refine ⟨?_, ?_, fun hdone => (by cases hfinished hdone), h.forwarded⟩
    · simpa using hpermits
    · simpa using hresend.answer _

omit [DecidableEq C] in
theorem Balanced.watcherMove (h : Balanced window s) (hmove : WatcherMove window s t) : Balanced window t := by
  have hpermits := h.permits
  have hresend := h.resend
  have hforwarded := h.forwarded
  cases hmove with
  | stay => exact h
  | fail => exact { h with }
  | take hwatcher hentry =>
    rw [hwatcher] at hpermits hresend hforwarded
    rw [hentry] at hpermits
    refine ⟨?_, hresend, nofun, fun hdone => nomatch hforwarded hdone⟩
    simp only [Watcher.permits, Watcher.entry?, Option.toList, length_cons, length_nil] at hpermits ⊢
    omega
  | finish hwatcher hsubmitted hdone =>
    rw [hwatcher] at hpermits hresend
    exact ⟨hpermits, hresend, fun _ => hdone, fun _ => rfl⟩
  | sighted hentry hpolling hhash hmined =>
    rw [ResendAt.of_not_awaiting hpolling] at hresend
    rw [Watcher.isDone_of_entry hentry] at hforwarded
    refine ⟨?_, hresend, nofun, fun hdone => nomatch hforwarded hdone⟩
    rw [Watcher.permits, hentry] at hpermits
    simp only [Watcher.permits, Watcher.entry?, Option.toList, length_cons, length_nil] at hpermits ⊢
    omega
  | look hentry hpolling hentry' hlook =>
    rw [ResendAt.of_not_awaiting hpolling] at hresend
    rw [Watcher.isDone_of_entry hentry] at hforwarded
    refine ⟨?_, (ResendAt.of_not_awaiting hlook).mpr hresend, fun hdone => ?_, fun hdone => nomatch hforwarded hdone⟩
    · simpa only [Watcher.permits, hentry, hentry'] using hpermits
    · rw [Watcher.isDone_of_entry hentry'] at hdone
      cases hdone
  | request hwatcher hrequest hdone =>
    rw [hwatcher] at hpermits hresend hforwarded
    exact ⟨hpermits, .inl ⟨rfl, hresend.2.1, hresend.2.2⟩, nofun, fun hdone => nomatch hforwarded hdone⟩
  | reply hwatcher hreply =>
    rw [hwatcher] at hpermits hresend hforwarded
    rw [hreply] at hresend
    refine ⟨hpermits, ?_, nofun, fun hdone => nomatch hforwarded hdone⟩
    rcases hresend with ⟨-, -, hnone⟩ | ⟨-, -, hnone⟩ | ⟨hrequest, hresends, -⟩
    · cases hnone
    · cases hnone
    · exact ⟨hrequest, hresends, rfl⟩
  | send hwatcher hroom =>
    rw [hwatcher] at hpermits hresend hforwarded
    exact ⟨hpermits, hresend, nofun, fun hdone => nomatch hforwarded hdone⟩

omit [DecidableEq C] in
theorem Balanced.forwarderMove (h : Balanced window s) (hmove : ForwarderMove s t) : Balanced window t := by
  cases hmove with
  | stay => exact h
  | fail => exact { h with }
  | take hforwarder hmined => exact ⟨h.permits, h.resend, h.finished, nofun⟩
  | finish hforwarder hqueue hdone => exact ⟨h.permits, h.resend, h.finished, fun _ => hdone⟩
  | forward hforwarder hconfirmed => exact ⟨h.permits, h.resend, h.finished, nofun⟩

theorem Balanced.step (h : Balanced window s) (event : Event C E) : Balanced window (s.step window event) := by
  rw [Sender.step]
  split
  · exact h
  cases event with
  | submitter answer => exact h.submitterMove (submitterStep_move window s answer)
  | watcher => exact h.watcherMove (watcherStep_move window s)
  | forwarder status => exact h.forwarderMove (forwarderStep_move s status)
  | arrive command =>
    rw [act]
    split
    · exact h
    · exact { h with }
  | mine hash | evict hash | confirm | close | fault => exact { h with }

omit [DecidableEq C] in
theorem balanced_init (l1 : L1 C) (start : PipelinedStart C E) (arrived inbound : List (L1SenderCommand C E)) :
    Balanced window (init window l1 start arrived inbound) :=
  ⟨rfl, ⟨rfl, rfl, rfl⟩, nofun, nofun⟩

/-! ### Seeding within the window -/

def Submitter.unseeded : Submitter C E → Nat
  | .seeding seeds => seeds.length
  | .seedPermit _ rest => rest.length + 1
  | .seedSend _ rest => rest.length
  | _ => 0

theorem unseeded_submitterMove (h : s.submitter.unseeded ≤ s.slots) (hmove : SubmitterMove window s t) :
    t.submitter.unseeded ≤ t.slots := by
  cases hmove with
  | stay | fail => exact h
  | seeded hsub | seed hsub | seedPermit hsub hslots | seedSend hsub hroom =>
    rw [hsub] at h
    simp only [unseeded, length_cons, length_nil] at h ⊢
    omega
  | takeRequest | takePermits | receive | close | prune | submitted | submit | handOver => exact Nat.zero_le _
  | @resend nonce resume => cases resume <;> exact Nat.zero_le _

omit [DecidableEq C] in
theorem watcherMove_frame (hmove : WatcherMove window s t) : t.submitter = s.submitter ∧ s.slots ≤ t.slots := by
  cases hmove <;> exact ⟨rfl, by simp [fail]⟩

omit [DecidableEq C] in
theorem forwarderMove_frame (hmove : ForwarderMove s t) : t.submitter = s.submitter ∧ t.slots = s.slots := by
  cases hmove <;> exact ⟨rfl, rfl⟩

theorem unseeded_step (h : s.submitter.unseeded ≤ s.slots) (event : Event C E) :
    (s.step window event).submitter.unseeded ≤ (s.step window event).slots := by
  rw [step]
  split
  · exact h
  cases event with
  | submitter answer => exact unseeded_submitterMove h (submitterStep_move window s answer)
  | watcher =>
    obtain ⟨hsubmitter, hslots⟩ := watcherMove_frame (watcherStep_move window s)
    rw [act, hsubmitter]
    exact h.trans hslots
  | forwarder status =>
    obtain ⟨hsubmitter, hslots⟩ := forwarderMove_frame (forwarderStep_move s status)
    rw [act, hsubmitter, hslots]
    exact h
  | arrive command =>
    rw [act]
    split <;> exact h
  | mine hash | evict hash | confirm | close | fault => exact h

/-! ### No cyclic wait within the window -/

theorem Sender.readyIf_eq_task {condition : Bool} : readyIf condition = .task ↔ condition = false := by
  cases condition <;> simp [readyIf]

section

omit [DecidableEq C]

/-- Within the window the submitter waits for another task only when no permit is free and no resend
is requested. -/
theorem Balanced.submitter_waits (h : Balanced window s) (hseeds : s.submitter.unseeded ≤ s.slots)
    (hwait : s.submitterWait window = .task) : s.submitter = .awaitPermit ∧ s.resendRequest = none ∧ s.slots = 0 := by
  have hpermits := h.permits
  rw [submitterWait] at hwait
  cases hsub : s.submitter with
  | seeding seeds | wave commands | resending nonce resume | done =>
    rw [hsub] at hwait
    cases hwait
  | seedPermit seed rest =>
    rw [hsub] at hwait hseeds
    simp only [readyIf_eq_task, decide_eq_false_iff_not] at hwait
    simp only [unseeded] at hseeds
    omega
  | seedSend seed rest | handOver entry commands =>
    rw [hsub] at hwait hpermits
    simp only [readyIf_eq_task, decide_eq_false_iff_not] at hwait
    simp only [Submitter.permits] at hpermits
    omega
  | awaitPermit =>
    rw [hsub] at hwait
    simp only [readyIf_eq_task, Bool.or_eq_false_iff, Option.isSome_eq_false_iff, Option.isNone_iff_eq_none,
      decide_eq_false_iff_not] at hwait
    exact ⟨rfl, hwait.1, by omega⟩
  | receiving permits =>
    rw [hsub] at hwait
    dsimp only at hwait
    split at hwait <;> cases hwait
  | submitting commands =>
    rw [hsub] at hwait
    cases commands <;> cases hwait

theorem submitterWait_finished (h : s.submitterWait window = .finished) : s.submitter.isDone = true := by
  rw [submitterWait] at h
  cases hsub : s.submitter with
  | done => rfl
  | seeding seeds | wave commands | resending nonce resume =>
    rw [hsub] at h
    cases h
  | seedPermit seed rest | seedSend seed rest | handOver entry commands | awaitPermit =>
    rw [hsub] at h
    dsimp only [readyIf] at h
    split at h <;> cases h
  | receiving permits =>
    rw [hsub] at h
    dsimp only at h
    split at h <;> cases h
  | submitting commands =>
    rw [hsub] at h
    cases commands <;> cases h

theorem Balanced.forwarder_waits (h : Balanced window s) (hwait : s.forwarderWait = .task ∨ s.forwarderWait = .finished) :
    s.watcher.isDone = true ∧ s.forwarderWait = .finished ∨ s.watcher.isDone = false ∧ s.minedQueue = [] := by
  have hforwarded := h.forwarded
  rw [forwarderWait] at hwait ⊢
  cases hforwarder : s.forwarder with
  | done => exact .inl ⟨hforwarded hforwarder, rfl⟩
  | confirming mined =>
    rw [hforwarder] at hwait
    rcases hwait with hwait | hwait <;> cases hwait
  | receiving =>
    rw [hforwarder] at hwait
    have hblocked := readyIf_blocked hwait
    simp only [Bool.or_eq_false_iff, Bool.not_eq_false', List.isEmpty_iff] at hblocked
    exact .inr hblocked.symm

/-- Within the window no deadlock is possible: permits that are not free belong to entries that the
watcher is going to see, and a resend that the watcher waits for is never left in the channel. -/
theorem Balanced.not_deadlocked (h : Balanced window s) (hwindow : 1 ≤ window)
    (hseeds : s.submitter.unseeded ≤ s.slots) : ¬ s.Deadlocked window := by
  rintro ⟨-, hall, hsome⟩
  simp only [mem_cons, not_mem_nil, or_false, forall_eq_or_imp, forall_eq, exists_eq_or_imp,
    exists_eq_left] at hall hsome
  obtain ⟨hsubmitter, hwatcher, hforwarder⟩ := hall
  have hpermits := h.permits
  have hresend := h.resend
  have hblocked : s.submitter.isDone = false → s.submitter = .awaitPermit ∧ s.resendRequest = none ∧ s.slots = 0 := by
    intro hdone
    refine h.submitter_waits hseeds (hsubmitter.resolve_right fun hfinished => ?_)
    rw [submitterWait_finished hfinished] at hdone
    cases hdone
  cases hw : s.watcher with
  | receiving =>
    rw [watcherWait, hw] at hwatcher
    have hempty := readyIf_blocked hwatcher
    simp only [Bool.or_eq_false_iff, Bool.not_eq_false', List.isEmpty_iff] at hempty
    obtain ⟨hsub, -, hslots⟩ := hblocked hempty.2
    rw [hsub, hw, hempty.1, hslots] at hpermits
    exact absurd hwindow (Nat.not_le.mpr (Nat.lt_succ_of_le hpermits.ge))
  | polling entry polls absent | probing entry polls absent | evicted entry polls =>
    rw [watcherWait, hw] at hwatcher
    rcases hwatcher with hwatcher | hwatcher <;> cases hwatcher
  | requesting entry polls =>
    rw [hw] at hresend
    rw [watcherWait, hw, hresend.1] at hwatcher
    simp [readyIf] at hwatcher
  | awaitReply entry polls =>
    rw [watcherWait, hw] at hwatcher
    have hnone := readyIf_blocked hwatcher
    simp only [Bool.or_eq_false_iff, Option.isSome_eq_false_iff, Option.isNone_iff_eq_none] at hnone
    obtain ⟨hsub, hrequest, -⟩ := hblocked hnone.2
    rw [hw, hsub, hrequest, hnone.1] at hresend
    simp [ResendAt, resends] at hresend
  | sending mined =>
    rcases h.forwarder_waits hforwarder with ⟨hdone, -⟩ | ⟨-, hqueue⟩
    · rw [hw] at hdone
      cases hdone
    · rw [watcherWait, hw, hqueue] at hwatcher
      simp [readyIf, minedQueueCapacity] at hwatcher
  | done =>
    have hdone : s.submitter.isDone = true := h.finished (by rw [hw]; rfl)
    have hsub : s.submitterWait window = .finished := by
      rw [submitterWait]
      cases hs : s.submitter <;> rw [hs] at hdone <;> first | rfl | cases hdone
    have hwait : s.watcherWait window = .finished := by rw [watcherWait, hw]
    rcases h.forwarder_waits hforwarder with ⟨-, hfinished⟩ | ⟨hunfinished, -⟩
    · rw [hsub, hwait, hfinished] at hsome
      simp at hsome
    · rw [hw] at hunfinished
      cases hunfinished

end

/-! ### The cyclic wait beyond the window -/

def RecoveredInFlight.entry (seed : RecoveredInFlight C E) : InFlightTx C E := ⟨[seed.txHash], seed.nonce, seed.command⟩

/-- Seeds handed over, with others left. -/
def Sender.handSeeds (s : Sender C E) (seeds rest : List (RecoveredInFlight C E)) : Sender C E :=
  { s with
    slots := s.slots - seeds.length
    submitted := s.submitted ++ seeds.map RecoveredInFlight.entry
    inFlightPrefix := s.inFlightPrefix ++ seeds.map fun seed => ⟨seed.nonce, seed.command.solidityCall⟩
    submitter := .seeding rest }

theorem seed_steps (window : Nat) (seeds rest : List (RecoveredInFlight C E)) (hsub : s.submitter = .seeding (seeds ++ rest))
    (hslots : seeds.length ≤ s.slots) (hroom : s.submitted.length + seeds.length ≤ window) (hfailed : s.failed = false) :
    (replicate (3 * seeds.length) (.submitter 0)).foldl (step window) s = s.handSeeds seeds rest := by
  induction seeds generalizing s with
  | nil =>
    cases s
    simp_all [handSeeds]
  | cons seed seeds ih =>
    simp only [length_cons] at hslots hroom
    have hthree : 3 * (seed :: seeds).length = 3 * seeds.length + 1 + 1 + 1 := by
      simp only [length_cons]
      omega
    have hfirst : ((s.step window (.submitter 0)).step window (.submitter 0)).step window (.submitter 0) =
        s.handSeeds [seed] (seeds ++ rest) := by
      simp [step, act, submitterStep, handSeeds, hsub, hfailed, show 0 < s.slots by omega,
        show s.submitted.length < window by omega, RecoveredInFlight.entry]
    rw [hthree, replicate_succ, replicate_succ, replicate_succ, foldl_cons, foldl_cons,
      foldl_cons, hfirst, ih (s := s.handSeeds [seed] (seeds ++ rest)) rfl ?_ ?_ hfailed]
    · simp [handSeeds, Nat.sub_sub, Nat.add_comm]
    · simp only [handSeeds, length_cons, length_nil]
      omega
    · simp only [handSeeds, map_cons, map_nil, length_append, length_cons, length_nil]
      omega

/-- The watcher takes an entry with one candidate that is gone from L1, and asks for a resend after two
probes of five polls each. -/
theorem watcher_requests (hash nonce : Nat) (command : Command C E) (rest : List (InFlightTx C E))
    (hwatcher : s.watcher = .receiving) (hsubmitted : s.submitted = ⟨[hash], nonce, command⟩ :: rest)
    (hpool : hash ∉ s.l1.pool) (hmined : hash ∉ s.l1.mined) (hnonce : s.l1.transactionCount ≤ nonce)
    (hdone : s.submitter.isDone = false) (hrequest : s.resendRequest = none) (hfailed : s.failed = false) :
    (replicate 15 .watcher).foldl (step window) s = { s with
        submitted := rest
        resendRequest := some nonce
        watcher := .awaitReply ⟨[hash], nonce, command⟩ 10 } := by
  have hcount : ¬ nonce < s.l1.transactionCount := by omega
  simp [replicate_succ, step, act, watcherStep, poll, probe, checkNonce,
    allCandidatesAbsent, evictionProbeEvery, evictionProbesToConfirm, hwatcher, hsubmitted, hpool, hmined, hcount,
    hdone, hrequest, hfailed]

structure SlotsTaken (s : Sender C E) (head : RecoveredInFlight C E) : Prop where
  submitter : ∃ seed rest, s.submitter = .seeding (seed :: rest)
  submitted : ∃ rest, s.submitted = head.entry :: rest
  slots : s.slots = 0
  minedQueue : s.minedQueue = []
  request : s.resendRequest = none
  reply : s.resendReply = none
  watcher : s.watcher = .receiving
  forwarder : s.forwarder = .receiving
  failed : s.failed = false
  unmined : s.l1.mined = []
  nonce : s.l1.base ≤ head.nonce

/-- The submitter waits for a permit, the transaction at the head of the line is evicted, and the
watcher waits for its resend. -/
theorem SlotsTaken.deadlocked (window : Nat) {head : RecoveredInFlight C E} (h : SlotsTaken s head) :
    (([.submitter 0, .evict head.txHash] ++ replicate 15 .watcher : List (Event C E)).foldl
      (step window) s).Deadlocked window := by
  obtain ⟨seed, rest, hsub⟩ := h.submitter
  obtain ⟨queue, hqueue⟩ := h.submitted
  have hevicted : [.submitter 0, .evict head.txHash].foldl (step window) s = { s with
        l1 := s.l1.evict head.txHash
        inFlightPrefix := s.inFlightPrefix ++ [⟨seed.nonce, seed.command.solidityCall⟩]
        submitter := .seedPermit seed rest } := by
    simp [step, act, submitterStep, hsub, h.failed]
  rw [foldl_append, hevicted,
    watcher_requests head.txHash head.nonce head.command queue ?watcher ?queue ?pool ?mined ?nonce ?_ ?request ?failed]
  case watcher => exact h.watcher
  case queue => exact hqueue
  case pool => simp [L1.evict]
  case mined => simp [L1.evict, h.unmined]
  case nonce => simpa [L1.transactionCount, L1.evict, h.unmined] using h.nonce
  case request => exact h.request
  case failed => exact h.failed
  · simp [Deadlocked, submitterWait, watcherWait, forwarderWait, readyIf, h.failed,
      h.slots, h.reply, h.forwarder, h.minedQueue, isDone, Watcher.isDone]
  · rfl

/-- L1 with the recovered transactions in the pool. -/
def L1.pooled (start : PipelinedStart C E) : L1 C where
  base := start.minedFloor
  known hash := (start.seeds.find? (·.txHash = hash)).map fun seed => (seed.nonce, seed.command.solidityCall)
  pool := start.seeds.map (·.txHash)
  mined := []
  confirmed := 0

section

omit [DecidableEq C]

theorem PipelinedStart.Recovered.nodup {start : PipelinedStart C E} {l1 : L1 C} (h : start.Recovered l1) :
    (start.seeds.map (·.txHash)).Nodup := by
  have hnonces : (start.seeds.map (·.nonce)).Nodup := by
    rw [h.nonces]
    exact nodup_range'
  refine List.Nodup.map_on (fun seed hseed other hother hhash => ?_) (List.Nodup.of_map _ hnonces)
  have hknown := h.known seed hseed
  rw [hhash, h.known other hother, Option.some.injEq, Prod.mk.injEq] at hknown
  exact inj_on_of_nodup_map hnonces hseed hother hknown.1.symm

theorem PipelinedStart.Recovered.pooled {start : PipelinedStart C E} {l1 : L1 C} (h : start.Recovered l1) :
    start.Recovered (.pooled start) := by
  refine ⟨fun seed hseed => ?_, h.nonces, h.next⟩
  cases hfind : start.seeds.find? (·.txHash = seed.txHash) with
  | none => exact absurd (find?_eq_none.mp hfind seed hseed) (by simp)
  | some found =>
    have hhash : found.txHash = seed.txHash := by simpa using find?_some hfind
    have hsame : found = seed := inj_on_of_nodup_map h.nodup (mem_of_find?_eq_some hfind) hseed hhash
    simp [L1.pooled, hfind, hsame]

end

theorem slotsTaken_init {start : PipelinedStart C E} {head : RecoveredInFlight C E} {rest : List (RecoveredInFlight C E)}
    (hseeds : start.seeds = head :: rest) (hnonce : start.minedFloor ≤ head.nonce) (hwindow : 1 ≤ window)
    (hmany : window < start.seeds.length) (arrived inbound : List (L1SenderCommand C E)) :
    SlotsTaken ((replicate (3 * window) (.submitter 0)).foldl (step window)
      (init window (.pooled start) start arrived inbound)) head := by
  obtain ⟨slots, rfl⟩ : ∃ slots, window = slots + 1 := ⟨window - 1, by omega⟩
  rw [hseeds, length_cons] at hmany
  obtain ⟨seed, left, hleft⟩ : ∃ seed left, rest.drop slots = seed :: left :=
    exists_cons_of_length_pos (by rw [length_drop]; omega)
  have hsplit : start.seeds = (head :: rest.take slots) ++ (seed :: left) := by
    rw [hseeds, ← hleft, cons_append, take_append_drop]
  have hlength : (head :: rest.take slots).length = slots + 1 := by
    rw [length_cons, length_take]
    omega
  have hseeded := seed_steps (slots + 1) (s := init (slots + 1) (.pooled start) start arrived inbound)
    (head :: rest.take slots) (seed :: left) (by rw [init, hsplit]) hlength.le
    (by rw [hlength]; exact Nat.le_of_eq (Nat.zero_add _)) rfl
  rw [hlength] at hseeded
  rw [hseeded]
  exact ⟨⟨seed, left, rfl⟩, ⟨_, rfl⟩, by rw [handSeeds, hlength]; exact Nat.sub_self _, rfl, rfl, rfl, rfl, rfl, rfl, rfl, hnonce⟩

/-! ### Every run -/

/-- The runs of the sender after a recovery are free of deadlocks, for every behaviour of L1 and
every inbound sequence, exactly if no more transactions were recovered than the window has slots. -/
theorem no_deadlock_iff_seeds_fit (window : Nat) (hwindow : 1 ≤ window) (start : PipelinedStart C E)
    (hstart : ∃ l1, start.Recovered l1) (arrived inbound : List (L1SenderCommand C E)) :
    (∀ l1, start.Recovered l1 → ∀ events : List (Event C E),
      ¬ (events.foldl (Sender.step window) (Sender.init window l1 start arrived inbound)).Deadlocked window) ↔
      start.seeds.length ≤ window := by
  constructor
  · intro hfree
    by_contra hmany
    obtain ⟨l1, hrecovered⟩ := hstart
    obtain ⟨head, rest, hseeds⟩ : ∃ head rest, start.seeds = head :: rest :=
      exists_cons_of_length_pos (by omega)
    have hnonce : start.minedFloor ≤ head.nonce := by
      have hnonces := hrecovered.nonces
      rw [hseeds, map_cons, length_cons, range'_succ, List.cons.injEq] at hnonces
      exact hnonces.1.ge
    have hdeadlocked := (slotsTaken_init hseeds hnonce hwindow (by omega) arrived inbound).deadlocked window
    rw [← foldl_append] at hdeadlocked
    exact hfree _ hrecovered.pooled _ hdeadlocked
  · rintro hfit l1 - events
    have hinv : States (step window) (fun s => Balanced window s ∧ s.submitter.unseeded ≤ s.slots)
        (init window l1 start arrived inbound) events :=
      states_of_invariant (fun s event hs => ⟨hs.1.step event, unseeded_step hs.2 event⟩)
        ⟨balanced_init l1 start arrived inbound, hfit⟩
    exact hinv.last.1.not_deadlocked hwindow hinv.last.2

/-- A sender with a window of one transaction that found two of them in flight. -/
def overfull : PipelinedStart Nat Nat where
  seeds := [⟨100, 7, ⟨1, [11]⟩⟩, ⟨101, 8, ⟨2, [12]⟩⟩]
  nextNonce := 9
  minedFloor := 7

def overfullAnswers : RecoveryAnswers Nat where
  pendingNonce := 9
  forceTransactionResubmission := false
  lookupSupported := true
  settledNonce := 0
  txByNonce nonce := [(7, 100, 1), (8, 101, 2)].lookup nonce

def overfullInbound : List (L1SenderCommand Nat Nat) := [.sendToL1 ⟨1, [11]⟩, .sendToL1 ⟨2, [12]⟩]

/-- The recovery finds both, the first is evicted while the submitter waits for a permit for the
second, and all three tasks wait for each other. -/
theorem deadlock_after_recovery : planPipelinedRecovery overfullAnswers 7 overfullInbound = some (overfull, []) ∧
    ((List.replicate 4 (.submitter 0) ++ [.evict 100] ++ List.replicate 15 .watcher : List (Event Nat Nat)).foldl
      (Sender.step 1) (Sender.init 1 (.pooled overfull) overfull overfullInbound [])).Deadlocked 1 := by
  decide +kernel

/-- With a window of two the same run is none. -/
theorem no_deadlock_in_wider_window : overfull.seeds.length ≤ 2 ∧
    ¬ ((List.replicate 4 (.submitter 0) ++ [.evict 100] ++ List.replicate 15 .watcher : List (Event Nat Nat)).foldl
      (Sender.step 2) (Sender.init 2 (.pooled overfull) overfull [] [])).Deadlocked 2 := by
  have hrecovered : overfull.Recovered (.pooled overfull) := ⟨by decide, by decide, by decide⟩
  exact ⟨by decide, (no_deadlock_iff_seeds_fit 2 (by decide) overfull ⟨_, hrecovered⟩ [] []).mpr (by decide) _ hrecovered _⟩

end L1Sender
