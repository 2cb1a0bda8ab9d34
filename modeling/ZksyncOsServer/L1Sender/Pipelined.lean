import ZksyncOsServer.Lib.Run

/-!
# The pipelined L1 sender

`l1_sender/src/pipelined.rs`: the submitter, the inclusion watcher and the confirmation forwarder
as three tasks that share a semaphore, bounded queues and the resend channels, with the recovery of
in-flight transactions that decides where they start. A step of a task runs it up to the next point
where it may wait. L1 mines the account's transactions in the order of their nonces, evicts pooled
ones at will, and answers what the tasks ask for. Fees, gas limits and blob sidecars do not
influence any of this and are left out, as are the stages of envelopes.
-/
namespace L1Sender

abbrev TxHash := Nat

/-- A command: the calldata it sends to L1 and the envelopes it forwards once it is confirmed. -/
structure Command (C E : Type) where
  solidityCall : C
  envelopes : List E
  deriving DecidableEq

inductive L1SenderCommand (C E : Type) where
  | sendToL1 (command : Command C E)
  | passthrough
  deriving DecidableEq

variable {C E : Type}

/-! ### L1 -/

/-- The operator's account on L1: what is known by hash, what is pooled, and what is mined from nonce
`base` on in the order of the nonces, of which the first `confirmed` have the required depth. -/
structure L1 (C : Type) where
  base : Nat
  known : TxHash → Option (Nat × C)
  pool : List TxHash
  mined : List TxHash
  confirmed : Nat

namespace L1

/-- The confirmed nonce of the account. -/
def transactionCount (this : L1 C) : Nat := this.base + this.mined.length

/-- A transaction is accepted, or one like it has landed already; `none` if L1 cannot answer so. -/
def accept [DecidableEq C] (this : L1 C) (hash : TxHash) (nonce : Nat) (call : C) : Option (L1 C) :=
  match this.known hash with
  | none =>
    some { this with known := Function.update this.known hash (some (nonce, call)), pool := this.pool ++ [hash] }
  | some tx =>
    if tx = (nonce, call) then
      some (if hash ∈ this.pool ∨ hash ∈ this.mined then this else { this with pool := this.pool ++ [hash] })
    else none

def mine (this : L1 C) (hash : TxHash) : L1 C :=
  match this.known hash with
  | some (nonce, _) =>
    if nonce = this.transactionCount then
      { this with pool := this.pool.filter (· ≠ hash), mined := this.mined ++ [hash] }
    else this
  | none => this

def evict (this : L1 C) (hash : TxHash) : L1 C := { this with pool := this.pool.filter (· ≠ hash) }

/-- One more mined transaction gets the required depth. -/
def confirm (this : L1 C) : L1 C := { this with confirmed := min (this.confirmed + 1) this.mined.length }

end L1

/-! ### Recovery -/

structure RecoveredInFlight (C E : Type) where
  txHash : TxHash
  nonce : Nat
  command : Command C E
  deriving DecidableEq

structure PipelinedStart (C E : Type) where
  seeds : List (RecoveredInFlight C E)
  nextNonce : Nat
  minedFloor : Nat
  deriving DecidableEq

/-- L1 knows the recovered transactions, and they have the nonces from the floor on. -/
structure PipelinedStart.Recovered (start : PipelinedStart C E) (l1 : L1 C) : Prop where
  known : ∀ seed ∈ start.seeds, l1.known seed.txHash = some (seed.nonce, seed.command.solidityCall)
  nonces : start.seeds.map (·.nonce) = List.range' start.minedFloor start.seeds.length
  next : start.nextNonce = start.minedFloor + start.seeds.length

/-- What the recovery reads: the pending nonce, the configuration, whether the provider can look up
transactions by nonce, the nonce after everything has settled, and the transaction at a nonce. -/
structure RecoveryAnswers (C : Type) where
  pendingNonce : Nat
  forceTransactionResubmission : Bool
  lookupSupported : Bool
  settledNonce : Nat
  txByNonce : Nat → Option (TxHash × C)

/-- Pairing the pending nonces with the queued commands; `none` if the inbound channel is closed. -/
def pairInFlight [DecidableEq C] (txByNonce : Nat → Option (TxHash × C)) :
    Nat → Nat → List (L1SenderCommand C E) → Option (List (RecoveredInFlight C E) × List (L1SenderCommand C E))
  | 0, _, inbound => some ([], inbound)
  | count + 1, nonce, inbound =>
    match txByNonce nonce with
    -- dropped from the pool: the queued commands are sent from this nonce on
    | none => some ([], inbound)
    | some (txHash, input) =>
      match inbound with
      | [] => none
      | .sendToL1 command :: rest =>
        if command.solidityCall = input then do
          let (seeds, inbound) ← pairInFlight txByNonce count (nonce + 1) rest
          return (⟨txHash, nonce, command⟩ :: seeds, inbound)
        else some ([], inbound)
      | .passthrough :: _ => some ([], inbound)

/-- `plan_pipelined_recovery`, with the commands that stay in the inbound channel. -/
def planPipelinedRecovery [DecidableEq C] (answers : RecoveryAnswers C) (latestNonce : Nat)
    (inbound : List (L1SenderCommand C E)) : Option (PipelinedStart C E × List (L1SenderCommand C E)) :=
  if answers.forceTransactionResubmission then some (⟨[], latestNonce, latestNonce⟩, inbound)
  else if answers.pendingNonce ≤ latestNonce then
    some (⟨[], max answers.pendingNonce latestNonce, latestNonce⟩, inbound)
  else if !answers.lookupSupported then some (⟨[], answers.settledNonce, answers.settledNonce⟩, inbound)
  else do
    let (seeds, inbound) ← pairInFlight answers.txByNonce (answers.pendingNonce - latestNonce) latestNonce inbound
    return (⟨seeds, latestNonce + seeds.length, latestNonce⟩, inbound)

/-! ### The tasks -/

structure InFlightTx (C E : Type) where
  txHashes : List TxHash
  nonce : Nat
  command : Command C E
  deriving DecidableEq

structure MinedTx (C E : Type) where
  txHash : TxHash
  nonce : Nat
  command : Command C E
  deriving DecidableEq

structure SimPrefixEntry (C : Type) where
  nonce : Nat
  calldata : C
  deriving DecidableEq

/-- Where the submitter is. The waits for a permit and for commands are the two that also take
resend requests; `resume` is the wait that a resend goes back to, with its permits. -/
inductive Submitter (C E : Type) where
  | seeding (seeds : List (RecoveredInFlight C E))
  | seedPermit (seed : RecoveredInFlight C E) (rest : List (RecoveredInFlight C E))
  | seedSend (seed : RecoveredInFlight C E) (rest : List (RecoveredInFlight C E))
  | awaitPermit
  | receiving (permits : Nat)
  | wave (commands : List (Command C E))
  | submitting (commands : List (Command C E))
  | handOver (entry : InFlightTx C E) (commands : List (Command C E))
  | resending (nonce : Nat) (resume : Option Nat)
  | done
  deriving DecidableEq

/-- Where the inclusion watcher is, with the counts of polls and of probes without any candidate. -/
inductive Watcher (C E : Type) where
  | receiving
  | polling (entry : InFlightTx C E) (polls consecutiveAbsent : Nat)
  | probing (entry : InFlightTx C E) (polls consecutiveAbsent : Nat)
  | evicted (entry : InFlightTx C E) (polls : Nat)
  | requesting (entry : InFlightTx C E) (polls : Nat)
  | awaitReply (entry : InFlightTx C E) (polls : Nat)
  | sending (mined : MinedTx C E)
  | done
  deriving DecidableEq

inductive Forwarder (C E : Type) where
  | receiving
  | confirming (mined : MinedTx C E)
  | done
  deriving DecidableEq

def Submitter.isDone : Submitter C E → Bool
  | .done => true
  | _ => false

def Submitter.wait : Option Nat → Submitter C E
  | none => .awaitPermit
  | some permits => .receiving permits

def Watcher.isDone : Watcher C E → Bool
  | .done => true
  | _ => false

def Watcher.entry? : Watcher C E → Option (InFlightTx C E)
  | .polling entry _ _ | .probing entry _ _ | .evicted entry _ | .requesting entry _ | .awaitReply entry _ => some entry
  | .receiving | .sending _ | .done => none

/-- The watcher has asked for a resend. -/
def Watcher.isAwaiting : Watcher C E → Bool
  | .awaitReply .. => true
  | _ => false

/-- The sender. `assigned` and `arrived` are its history: the nonces given to commands, and all
commands that have come in. -/
structure Sender (C E : Type) where
  l1 : L1 C
  inbound : List (L1SenderCommand C E)
  closed : Bool
  slots : Nat
  submitted : List (InFlightTx C E)
  minedQueue : List (MinedTx C E)
  minedFloor : Nat
  resendRequest : Option Nat
  resendReply : Option TxHash
  nextNonce : Nat
  inFlightPrefix : List (SimPrefixEntry C)
  submitter : Submitter C E
  watcher : Watcher C E
  forwarder : Forwarder C E
  outbound : List E
  failed : Bool
  assigned : List (Nat × Command C E)
  arrived : List (L1SenderCommand C E)

def evictionProbeEvery : Nat := 5

def evictionProbesToConfirm : Nat := 2

def minedQueueCapacityFactor : Nat := 4

def minedQueueCapacity (window : Nat) : Nat := minedQueueCapacityFactor * window + 64

def L1SenderCommand.command? : L1SenderCommand C E → Option (Command C E)
  | .sendToL1 command => some command
  | .passthrough => none

theorem mapM_command?_eq_some {raw : List (L1SenderCommand C E)} {commands : List (Command C E)}
    (h : raw.mapM L1SenderCommand.command? = some commands) : raw = commands.map .sendToL1 := by
  induction raw generalizing commands with
  | nil =>
    cases h
    rfl
  | cons command raw ih =>
    rw [List.mapM_cons] at h
    cases command with
    | passthrough => cases h
    | sendToL1 command =>
      cases hraw : raw.mapM L1SenderCommand.command? with
      | none => simp [L1SenderCommand.command?, hraw] at h
      | some rest =>
        obtain rfl : command :: rest = commands := by simpa [L1SenderCommand.command?, hraw] using h
        rw [ih hraw, List.map_cons]

namespace Sender

variable [DecidableEq C]

/-- The state after the recovery, for the commands that have arrived by then. -/
def init (window : Nat) (l1 : L1 C) (start : PipelinedStart C E) (arrived inbound : List (L1SenderCommand C E)) :
    Sender C E where
  l1
  inbound
  closed := false
  slots := window
  submitted := []
  minedQueue := []
  minedFloor := start.minedFloor
  resendRequest := none
  resendReply := none
  nextNonce := start.nextNonce
  inFlightPrefix := []
  submitter := .seeding start.seeds
  watcher := .receiving
  forwarder := .receiving
  outbound := []
  failed := false
  assigned := start.seeds.map fun seed => (seed.nonce, seed.command)
  arrived

variable (s : Sender C E)

def fail : Sender C E := { s with failed := true }

/-- Taking a resend request out of the channel. -/
def takeRequest (nonce : Nat) (resume : Option Nat) : Sender C E :=
  { s with resendRequest := none, submitter := .resending nonce resume }

/-- The permits for the next wave: one, and what else is idle. -/
def takePermits (window : Nat) (s : Sender C E) : Sender C E :=
  { s with slots := s.slots - min s.slots window, submitter := .receiving (min s.slots window) }

/-- `recv_many` with a limit; the permits that are not needed are released. -/
def receive (permits : Nat) : Sender C E :=
  let received := s.inbound.take permits
  match received.mapM L1SenderCommand.command? with
  | some commands =>
    { s with inbound := s.inbound.drop permits, slots := s.slots + (permits - received.length), submitter := .wave commands }
  | none => s.fail

/-- The wait for commands, when no resend is requested. -/
def receiveOrClose (permits : Nat) : Sender C E :=
  if s.inbound ≠ [] then s.receive permits
  else if s.closed then { s with slots := s.slots + permits, submitter := .done }
  else s

/-- Entries of transactions that were observed mined are dropped from the front. -/
def prune (commands : List (Command C E)) : Sender C E :=
  { s with
    inFlightPrefix := s.inFlightPrefix.dropWhile (·.nonce < s.minedFloor)
    submitter := .submitting commands }

def submit (command : Command C E) (rest : List (Command C E)) (answer : TxHash) : Sender C E :=
  match s.l1.accept answer s.nextNonce command.solidityCall with
  | some l1 =>
    { s with
      l1
      nextNonce := s.nextNonce + 1
      inFlightPrefix := s.inFlightPrefix ++ [⟨s.nextNonce, command.solidityCall⟩]
      submitter := .handOver ⟨[answer], s.nextNonce, command⟩ rest
      assigned := s.assigned ++ [(s.nextNonce, command)] }
  | none => s

def resendEvicted (nonce : Nat) (resume : Option Nat) (answer : TxHash) : Sender C E :=
  match s.inFlightPrefix.find? (·.nonce = nonce) with
  | none => s.fail
  | some entry =>
    match s.l1.accept answer nonce entry.calldata with
    | some l1 =>
      { s with l1, resendReply := some answer, submitter := .wait resume }
    | none => s

/-- A step of the submitter; `answer` is the hash that L1 answers with if it is asked to send. -/
def submitterStep (window : Nat) (s : Sender C E) (answer : TxHash) : Sender C E :=
  match s.submitter with
  | .seeding [] => { s with submitter := .awaitPermit }
  | .seeding (seed :: rest) =>
    { s with
      inFlightPrefix := s.inFlightPrefix ++ [⟨seed.nonce, seed.command.solidityCall⟩]
      submitter := .seedPermit seed rest }
  | .seedPermit seed rest =>
    if 0 < s.slots then { s with slots := s.slots - 1, submitter := .seedSend seed rest } else s
  | .seedSend seed rest =>
    if s.submitted.length < window then
      { s with submitted := s.submitted ++ [⟨[seed.txHash], seed.nonce, seed.command⟩], submitter := .seeding rest }
    else s
  | .awaitPermit =>
    match s.resendRequest with
    | some nonce => s.takeRequest nonce none
    | none => if 0 < s.slots then s.takePermits window else s
  | .receiving permits =>
    match s.resendRequest with
    | some nonce => s.takeRequest nonce (some permits)
    | none => s.receiveOrClose permits
  | .wave commands => s.prune commands
  | .submitting [] => { s with submitter := .awaitPermit }
  | .submitting (command :: rest) => s.submit command rest answer
  | .handOver entry rest =>
    if s.submitted.length < window then { s with submitted := s.submitted ++ [entry], submitter := .submitting rest }
    else s
  | .resending nonce resume => s.resendEvicted nonce resume answer
  | .done => s

/-- A poll for the receipts of the candidates. -/
def poll (entry : InFlightTx C E) (polls consecutiveAbsent : Nat) : Sender C E :=
  match entry.txHashes.find? (· ∈ s.l1.mined) with
  | some hash =>
    -- the first sighting frees the permit
    { s with
      slots := s.slots + 1
      minedFloor := entry.nonce + 1
      watcher := .sending ⟨hash, entry.nonce, entry.command⟩ }
  | none =>
    if (polls + 1) % evictionProbeEvery = 0 then { s with watcher := .probing entry (polls + 1) consecutiveAbsent }
    else { s with watcher := .polling entry (polls + 1) consecutiveAbsent }

def allCandidatesAbsent (entry : InFlightTx C E) : Bool :=
  entry.txHashes.all fun hash => hash ∉ s.l1.pool && hash ∉ s.l1.mined

def probe (entry : InFlightTx C E) (polls consecutiveAbsent : Nat) : Sender C E :=
  if s.allCandidatesAbsent entry then
    if evictionProbesToConfirm ≤ consecutiveAbsent + 1 then { s with watcher := .evicted entry polls }
    else { s with watcher := .polling entry polls (consecutiveAbsent + 1) }
  else { s with watcher := .polling entry polls 0 }

/-- The start of `handle_evicted_entry`: a nonce that another transaction consumed is fatal. -/
def checkNonce (entry : InFlightTx C E) (polls : Nat) : Sender C E :=
  if entry.nonce < s.l1.transactionCount then
    if entry.txHashes.any (· ∈ s.l1.mined) then { s with watcher := .polling entry polls 0 } else s.fail
  else { s with watcher := .requesting entry polls }

def watcherStep (window : Nat) (s : Sender C E) : Sender C E :=
  match s.watcher with
  | .receiving =>
    match s.submitted with
    | entry :: rest => { s with submitted := rest, watcher := .polling entry 0 0 }
    | [] => if s.submitter.isDone then { s with watcher := .done } else s
  | .polling entry polls consecutiveAbsent => s.poll entry polls consecutiveAbsent
  | .probing entry polls consecutiveAbsent => s.probe entry polls consecutiveAbsent
  | .evicted entry polls => s.checkNonce entry polls
  | .requesting entry polls =>
    if s.submitter.isDone then s.fail
    else if s.resendRequest = none then
      { s with resendRequest := some entry.nonce, watcher := .awaitReply entry polls }
    else s
  | .awaitReply entry polls =>
    match s.resendReply with
    | some hash =>
      { s with resendReply := none, watcher := .polling { entry with txHashes := entry.txHashes ++ [hash] } polls 0 }
    | none => if s.submitter.isDone then s.fail else s
  | .sending mined =>
    if s.minedQueue.length < minedQueueCapacity window then
      { s with minedQueue := s.minedQueue ++ [mined], watcher := .receiving }
    else s
  | .done => s

/-- A step of the confirmation forwarder; `status` is that of the receipt. -/
def forwarderStep (status : Bool) : Sender C E :=
  match s.forwarder with
  | .receiving =>
    match s.minedQueue with
    | mined :: rest => { s with minedQueue := rest, forwarder := .confirming mined }
    | [] => if s.watcher.isDone then { s with forwarder := .done } else s
  | .confirming mined =>
    if mined.txHash ∈ s.l1.mined.take s.l1.confirmed then
      if status then { s with outbound := s.outbound ++ mined.command.envelopes, forwarder := .receiving } else s.fail
    else s
  | .done => s

end Sender

/-- What happens: L1 and the inbound channel move on their own, a request to L1 fails for good, or
a task makes a step. -/
inductive Event (C E : Type) where
  | mine (hash : TxHash)
  | evict (hash : TxHash)
  | confirm
  | arrive (command : L1SenderCommand C E)
  | close
  | fault
  | submitter (answer : TxHash)
  | watcher
  | forwarder (status : Bool)
  deriving DecidableEq

namespace Sender

variable [DecidableEq C]

def act (window : Nat) (s : Sender C E) : Event C E → Sender C E
  | .mine hash => { s with l1 := s.l1.mine hash }
  | .evict hash => { s with l1 := s.l1.evict hash }
  | .confirm => { s with l1 := s.l1.confirm }
  | .arrive command =>
    if s.closed then s else { s with inbound := s.inbound ++ [command], arrived := s.arrived ++ [command] }
  | .close => { s with closed := true }
  | .fault => s.fail
  | .submitter answer => s.submitterStep window answer
  | .watcher => s.watcherStep window
  | .forwarder status => s.forwarderStep status

/-- The first error ends all three tasks. -/
def step (window : Nat) (s : Sender C E) (event : Event C E) : Sender C E :=
  if s.failed then s else s.act window event

/-! ### What a step can do -/

inductive SubmitterMove (window : Nat) (s : Sender C E) : Sender C E → Prop where
  | stay : SubmitterMove window s s
  | fail : SubmitterMove window s s.fail
  | seeded (h : s.submitter = .seeding []) : SubmitterMove window s { s with submitter := .awaitPermit }
  | seed {seed rest} (h : s.submitter = .seeding (seed :: rest)) :
      SubmitterMove window s
        { s with
          inFlightPrefix := s.inFlightPrefix ++ [⟨seed.nonce, seed.command.solidityCall⟩]
          submitter := .seedPermit seed rest }
  | seedPermit {seed rest} (h : s.submitter = .seedPermit seed rest) (hslots : 0 < s.slots) :
      SubmitterMove window s { s with slots := s.slots - 1, submitter := .seedSend seed rest }
  | seedSend {seed rest} (h : s.submitter = .seedSend seed rest) (hroom : s.submitted.length < window) :
      SubmitterMove window s
        { s with submitted := s.submitted ++ [⟨[seed.txHash], seed.nonce, seed.command⟩], submitter := .seeding rest }
  | takeRequest {nonce resume} (h : s.submitter = .wait resume) (hrequest : s.resendRequest = some nonce) :
      SubmitterMove window s (s.takeRequest nonce resume)
  | takePermits (h : s.submitter = .awaitPermit) (hrequest : s.resendRequest = none) (hslots : 0 < s.slots) :
      SubmitterMove window s (s.takePermits window)
  | receive {permits commands} (h : s.submitter = .receiving permits) (hrequest : s.resendRequest = none)
      (hinbound : s.inbound ≠ []) (hcommands : (s.inbound.take permits).mapM L1SenderCommand.command? = some commands) :
      SubmitterMove window s
        { s with
          inbound := s.inbound.drop permits
          slots := s.slots + (permits - (s.inbound.take permits).length)
          submitter := .wave commands }
  | close {permits} (h : s.submitter = .receiving permits) (hrequest : s.resendRequest = none) (hinbound : s.inbound = [])
      (hclosed : s.closed = true) : SubmitterMove window s { s with slots := s.slots + permits, submitter := .done }
  | prune {commands} (h : s.submitter = .wave commands) : SubmitterMove window s (s.prune commands)
  | submitted (h : s.submitter = .submitting []) : SubmitterMove window s { s with submitter := .awaitPermit }
  | submit {command rest answer l1} (h : s.submitter = .submitting (command :: rest))
      (haccept : s.l1.accept answer s.nextNonce command.solidityCall = some l1) :
      SubmitterMove window s
        { s with
          l1
          nextNonce := s.nextNonce + 1
          inFlightPrefix := s.inFlightPrefix ++ [⟨s.nextNonce, command.solidityCall⟩]
          submitter := .handOver ⟨[answer], s.nextNonce, command⟩ rest
          assigned := s.assigned ++ [(s.nextNonce, command)] }
  | handOver {entry rest} (h : s.submitter = .handOver entry rest) (hroom : s.submitted.length < window) :
      SubmitterMove window s { s with submitted := s.submitted ++ [entry], submitter := .submitting rest }
  | resend {nonce resume entry answer l1} (h : s.submitter = .resending nonce resume)
      (hentry : s.inFlightPrefix.find? (·.nonce = nonce) = some entry)
      (haccept : s.l1.accept answer nonce entry.calldata = some l1) :
      SubmitterMove window s { s with l1, resendReply := some answer, submitter := .wait resume }

theorem receiveOrClose_move {window permits : Nat} {s : Sender C E} (h : s.submitter = .receiving permits)
    (hrequest : s.resendRequest = none) : SubmitterMove window s (s.receiveOrClose permits) := by
  rw [receiveOrClose]
  split
  · rw [receive]
    cases hcommands : (s.inbound.take permits).mapM L1SenderCommand.command? with
    | some commands => exact .receive h hrequest ‹_› hcommands
    | none => exact .fail
  · split
    · exact .close h hrequest (by simpa using ‹¬ s.inbound ≠ []›) ‹_›
    · exact .stay

theorem submitterStep_move (window : Nat) (s : Sender C E) (answer : TxHash) :
    SubmitterMove window s (s.submitterStep window answer) := by
  rw [submitterStep]
  cases h : s.submitter with
  | seeding seeds =>
    cases seeds with
    | nil => exact .seeded h
    | cons seed rest => exact .seed h
  | seedPermit seed rest =>
    dsimp only
    split
    · exact .seedPermit h ‹_›
    · exact .stay
  | seedSend seed rest =>
    dsimp only
    split
    · exact .seedSend h ‹_›
    · exact .stay
  | awaitPermit =>
    dsimp only
    cases hrequest : s.resendRequest with
    | some nonce => exact .takeRequest h hrequest
    | none =>
      dsimp only
      split
      · exact .takePermits h hrequest ‹_›
      · exact .stay
  | receiving permits =>
    dsimp only
    cases hrequest : s.resendRequest with
    | some nonce => exact .takeRequest h hrequest
    | none => exact receiveOrClose_move h hrequest
  | wave commands => exact .prune h
  | submitting commands =>
    cases commands with
    | nil => exact .submitted h
    | cons command rest =>
      dsimp only
      rw [submit]
      cases haccept : s.l1.accept answer s.nextNonce command.solidityCall with
      | some l1 => exact .submit h haccept
      | none => exact .stay
  | handOver entry rest =>
    dsimp only
    split
    · exact .handOver h ‹_›
    · exact .stay
  | resending nonce resume =>
    dsimp only
    rw [resendEvicted]
    cases hentry : s.inFlightPrefix.find? (·.nonce = nonce) with
    | none => exact .fail
    | some entry =>
      dsimp only
      cases haccept : s.l1.accept answer nonce entry.calldata with
      | some l1 => exact .resend h hentry haccept
      | none => exact .stay
  | done => exact .stay

/-- The steps of the inclusion watcher. -/
inductive WatcherMove (window : Nat) (s : Sender C E) : Sender C E → Prop where
  | stay : WatcherMove window s s
  | fail : WatcherMove window s s.fail
  | take {entry rest} (h : s.watcher = .receiving) (hentry : s.submitted = entry :: rest) :
      WatcherMove window s { s with submitted := rest, watcher := .polling entry 0 0 }
  | finish (h : s.watcher = .receiving) (hsubmitted : s.submitted = []) (hdone : s.submitter.isDone = true) :
      WatcherMove window s { s with watcher := .done }
  | sighted {entry hash} (h : s.watcher.entry? = some entry) (hpolling : s.watcher.isAwaiting = false)
      (hhash : hash ∈ entry.txHashes) (hmined : hash ∈ s.l1.mined) :
      WatcherMove window s
        { s with
          slots := s.slots + 1
          minedFloor := entry.nonce + 1
          watcher := .sending ⟨hash, entry.nonce, entry.command⟩ }
  | look {entry watcher} (h : s.watcher.entry? = some entry) (hpolling : s.watcher.isAwaiting = false)
      (hentry : watcher.entry? = some entry) (hlook : watcher.isAwaiting = false) :
      WatcherMove window s { s with watcher }
  | request {entry polls} (h : s.watcher = .requesting entry polls) (hrequest : s.resendRequest = none)
      (hdone : s.submitter.isDone = false) :
      WatcherMove window s { s with resendRequest := some entry.nonce, watcher := .awaitReply entry polls }
  | reply {entry polls hash} (h : s.watcher = .awaitReply entry polls) (hreply : s.resendReply = some hash) :
      WatcherMove window s
        { s with resendReply := none, watcher := .polling { entry with txHashes := entry.txHashes ++ [hash] } polls 0 }
  | send {mined} (h : s.watcher = .sending mined) (hroom : s.minedQueue.length < minedQueueCapacity window) :
      WatcherMove window s { s with minedQueue := s.minedQueue ++ [mined], watcher := .receiving }

omit [DecidableEq C] in
theorem watcherStep_move (window : Nat) (s : Sender C E) : WatcherMove window s (s.watcherStep window) := by
  rw [watcherStep]
  cases h : s.watcher with
  | receiving =>
    dsimp only
    cases hsubmitted : s.submitted with
    | cons entry rest => exact .take h hsubmitted
    | nil =>
      dsimp only
      split
      · rw [← hsubmitted]
        exact .finish h hsubmitted ‹_›
      · exact .stay
  | polling entry polls consecutiveAbsent =>
    dsimp only
    have hentry : s.watcher.entry? = some entry := by rw [h]; rfl
    have hpolling : s.watcher.isAwaiting = false := by rw [h]; rfl
    rw [poll]
    cases hfind : entry.txHashes.find? (· ∈ s.l1.mined) with
    | some hash =>
      exact .sighted hentry hpolling (List.mem_of_find?_eq_some hfind) (by simpa using List.find?_some hfind)
    | none =>
      dsimp only
      split <;> exact .look hentry hpolling rfl rfl
  | probing entry polls consecutiveAbsent =>
    dsimp only
    have hentry : s.watcher.entry? = some entry := by rw [h]; rfl
    have hpolling : s.watcher.isAwaiting = false := by rw [h]; rfl
    rw [probe]
    split
    · split <;> exact .look hentry hpolling rfl rfl
    · exact .look hentry hpolling rfl rfl
  | evicted entry polls =>
    dsimp only
    have hentry : s.watcher.entry? = some entry := by rw [h]; rfl
    have hpolling : s.watcher.isAwaiting = false := by rw [h]; rfl
    rw [checkNonce]
    split
    · split
      · exact .look hentry hpolling rfl rfl
      · exact .fail
    · exact .look hentry hpolling rfl rfl
  | requesting entry polls =>
    dsimp only
    split
    · exact .fail
    · split
      · exact .request h ‹_› (by simpa using ‹¬ s.submitter.isDone = true›)
      · exact .stay
  | awaitReply entry polls =>
    dsimp only
    cases hreply : s.resendReply with
    | some hash => exact .reply h hreply
    | none =>
      dsimp only
      split
      · exact .fail
      · exact .stay
  | sending mined =>
    dsimp only
    split
    · exact .send h ‹_›
    · exact .stay
  | done => exact .stay

inductive ForwarderMove (s : Sender C E) : Sender C E → Prop where
  | stay : ForwarderMove s s
  | fail : ForwarderMove s s.fail
  | take {mined rest} (h : s.forwarder = .receiving) (hmined : s.minedQueue = mined :: rest) :
      ForwarderMove s { s with minedQueue := rest, forwarder := .confirming mined }
  | finish (h : s.forwarder = .receiving) (hqueue : s.minedQueue = []) (hdone : s.watcher.isDone = true) :
      ForwarderMove s { s with forwarder := .done }
  | forward {mined} (h : s.forwarder = .confirming mined) (hconfirmed : mined.txHash ∈ s.l1.mined.take s.l1.confirmed) :
      ForwarderMove s { s with outbound := s.outbound ++ mined.command.envelopes, forwarder := .receiving }

omit [DecidableEq C] in
theorem forwarderStep_move (s : Sender C E) (status : Bool) : ForwarderMove s (s.forwarderStep status) := by
  rw [forwarderStep]
  cases h : s.forwarder with
  | receiving =>
    dsimp only
    cases hqueue : s.minedQueue with
    | cons mined rest => exact .take h hqueue
    | nil =>
      dsimp only
      split
      · rw [← hqueue]
        exact .finish h hqueue ‹_›
      · exact .stay
  | confirming mined =>
    dsimp only
    split
    · split
      · exact .forward h ‹_›
      · exact .fail
    · exact .stay
  | done => exact .stay

end Sender

end L1Sender
