import ZksyncOsServer.Sequencer.BlockContextProvider

/-!
# A produced block replays

Block production may reject or skip transactions and may stop at many places; a replay runs the
executed transactions alone. Both go through the same accumulations: a turn of the loop either leaves
what the block has accumulated or adds one executed transaction to it, and a replay makes exactly the
turns of the second kind.
-/
namespace BlockExecutor

open Fallible
open MerkleTree (B256)
open Replay (ReplayRecord)
open Types (Primitives TxOutput ZkTransaction)

variable {S : Type} {primitives : Primitives} {vm : Vm S} {validated : Bool}
  {command command' : PreparedBlockCommand}

structure Accumulated (S : Type) where
  state : S
  results : List (Option TxOutput)
  executedTxs : List ZkTransaction
  cumulativeGasUsed : Nat
  interopRootsCount : Nat

def Loop.accumulated (s : Loop S) : Accumulated S :=
  ⟨s.state, s.txResults.filter (·.isSome), s.executedTxs, s.cumulativeGasUsed, s.interopRootsCount⟩

@[simp] theorem accumulated_executedTxs (s : Loop S) : s.accumulated.executedTxs = s.executedTxs := rfl

def Turn.loop : Turn S → Loop S
  | next s => s
  | sealed _ s => s

def Turn.isSealed : Turn S → Bool
  | next _ => false
  | sealed _ _ => true

/-- The transaction that the block accumulates next, with its result and the counters after it. -/
structure Addition (S : Type) where
  tx : ZkTransaction
  res : TxOutput
  state : S
  interopRootsCount : Nat
  cumulativeGasUsed : Nat

def Accumulated.add (a : Accumulated S) (x : Addition S) : Accumulated S :=
  ⟨x.state, a.results ++ [some x.res], a.executedTxs ++ [x.tx], x.cumulativeGasUsed, x.interopRootsCount⟩

/-- Every check that a transaction passes on its way into the block. -/
structure Accepts (vm : Vm S) (validated : Bool) (command : PreparedBlockCommand) (a : Accumulated S)
    (x : Addition S) : Prop where
  included : shouldExcludeAndSeal command.blockContext a.cumulativeGasUsed a.interopRootsCount
    command.interopRootsPerBlock x.tx = .ok none
  accepted : vm.executeNextTx validated a.state x.tx = .ok (.ok (x.res, x.state))
  roots : addInteropRoots a.interopRootsCount x.tx = .ok x.interopRootsCount
  gas : checkedAdd a.cumulativeGasUsed x.res.gasUsed = .ok x.cumulativeGasUsed
  notReverted : (x.tx.txType = .upgrade && !x.res.success) = false

@[simp] theorem accumulated_executed (s : Loop S) (x : Addition S) :
    (s.executed x.tx x.res x.state x.interopRootsCount x.cumulativeGasUsed).accumulated = s.accumulated.add x := by
  simp [Loop.accumulated, Loop.executed, Accumulated.add, List.filter_append]

@[simp] theorem accumulated_rejected (s : Loop S) :
    ({ s with txResults := s.txResults ++ [none] } : Loop S).accumulated = s.accumulated := by
  simp [Loop.accumulated, List.filter_append]

@[simp] theorem fail_ne_ok {α : Type} (s : Loop S) (error : DumpError) (a : α) : s.fail command error ≠ .ok a := by
  simp [Loop.fail]

/-! ### One turn -/

variable {s : Loop S} {turn : Turn S} {events : List Event} {nodeVersion : String} {executed : Executed}

theorem onRejected_eq_ok {tx : ZkTransaction} {e : InvalidTransaction}
    (h : onRejected primitives command s tx e = .ok turn) :
    (∃ purgedTxs markedTxs, turn.loop = { s with purgedTxs, markedTxs }) ∧ (tx.txType ≠ .l2 → turn.isSealed = true) := by
  rw [onRejected] at h
  split at h
  · split at h
    · cases h; exact ⟨⟨_, _, rfl⟩, fun _ => rfl⟩
    · exact absurd h (fail_ne_ok _ _ _)
  · split at h
    · cases h; exact ⟨⟨_, _, rfl⟩, fun _ => rfl⟩
    · exact absurd h (fail_ne_ok _ _ _)
  · exact absurd h (fail_ne_ok _ _ _)
  next markInSource hl2 _ =>
    refine ⟨?_, fun hne => absurd hl2 hne⟩
    cases markInSource <;> (dsimp only at h; split at h <;> (cases h; exact ⟨_, _, rfl⟩))
  · exact absurd h (fail_ne_ok _ _ _)

theorem onAccepted_eq_ok {tx : ZkTransaction} {res : TxOutput} {state : S}
    (h : onAccepted primitives command s tx res state = .ok turn) :
    ∃ interopRootsCount cumulativeGasUsed, addInteropRoots s.interopRootsCount tx = .ok interopRootsCount ∧
      checkedAdd s.cumulativeGasUsed res.gasUsed = .ok cumulativeGasUsed ∧
      (tx.txType = .upgrade && !res.success) = false ∧
      turn.loop = s.executed tx res state interopRootsCount cumulativeGasUsed := by
  rw [onAccepted, bind_eq_ok] at h
  obtain ⟨roots, hroots, h⟩ := h
  rw [bind_eq_ok] at h
  obtain ⟨gas, hgas, h⟩ := h
  dsimp only at h
  split at h
  · exact absurd h (fail_ne_ok _ _ _)
  next hsuccess =>
    refine ⟨roots, gas, hroots, hgas, by simpa using hsuccess, ?_⟩
    split at h <;> (cases h; rfl)

/-- What a turn does: it may arm the deadline; it leaves the block as it is, and goes on only with an L2
transaction, or adds a transaction that passes every check. -/
theorem step_cases {event : Event} (h : step primitives vm validated command s event = .ok turn) :
    (turn.loop.deadlineArmed = true → s.deadlineArmed = true ∨ command.sealPolicy.deadlineDur.isSome = true) ∧
      (turn.loop.accumulated = s.accumulated ∧
          (∀ tx, event = .next (some tx) → tx.txType ≠ .l2 → turn.isSealed = true) ∨
        ∃ x, event = .next (some x.tx) ∧ Accepts vm validated command s.accumulated x ∧
          turn.loop.accumulated = s.accumulated.add x) := by
  cases event with
  | deadline =>
    rw [step] at h
    split at h <;> (cases h; exact ⟨.inl, .inl ⟨rfl, nofun⟩⟩)
  | next maybeTx =>
    cases maybeTx with
    | none => cases h; exact ⟨.inl, .inl ⟨rfl, nofun⟩⟩
    | some tx =>
      rw [step, bind_eq_ok] at h
      obtain ⟨reason, hincluded, h⟩ := h
      cases reason with
      | some reason => cases h; exact ⟨.inl, .inl ⟨rfl, fun _ _ _ => rfl⟩⟩
      | none =>
        dsimp only [executeTx] at h
        split at h
        · exact absurd h (fail_ne_ok _ _ _)
        next res state haccepted =>
          obtain ⟨roots, gas, hroots, hgas, hsuccess, hloop⟩ := onAccepted_eq_ok h
          let x : Addition S := ⟨tx, res, state, roots, gas⟩
          rw [hloop]
          exact ⟨fun harmed => by simpa [Loop.executed, Loop.attempt] using harmed, .inr ⟨x, rfl,
            ⟨hincluded, haccepted, hroots, hgas, hsuccess⟩, accumulated_executed (s.attempt command tx) x⟩⟩
        · obtain ⟨⟨purged, marked, hloop⟩, hsealed⟩ := onRejected_eq_ok h
          rw [hloop]
          refine ⟨fun harmed => by simpa [Loop.attempt] using harmed,
            .inl ⟨accumulated_rejected (s.attempt command tx), ?_⟩⟩
          intro _ hevent hne
          cases hevent
          exact hsealed hne

theorem step_replay (primitives : Primitives) {x : Addition S} (hpolicy : command.sealPolicy = .untilExhausted false)
    (hx : Accepts vm validated command s.accumulated x) :
    ∃ s', step primitives vm validated command s (.next (some x.tx)) = .ok (.next s') ∧
      s'.accumulated = s.accumulated.add x ∧ s'.purgedTxs = s.purgedTxs := by
  have hnone (n : Nat) : sealReasonAfter command n x.tx = none := by
    simp [sealReasonAfter, hpolicy, SealPolicy.withRoomForUpgrade, SealPolicy.mayFinishEarly]
  refine ⟨_, ?_, accumulated_executed (s.attempt command x.tx) x, rfl⟩
  rw [step, show shouldExcludeAndSeal command.blockContext s.cumulativeGasUsed s.interopRootsCount
    command.interopRootsPerBlock x.tx = .ok none from hx.included, ok_bind]
  dsimp only [executeTx]
  rw [show vm.executeNextTx validated (s.attempt command x.tx).state x.tx = .ok (.ok (x.res, x.state)) from hx.accepted]
  dsimp only [onAccepted]
  rw [show addInteropRoots (s.attempt command x.tx).interopRootsCount x.tx = .ok x.interopRootsCount from hx.roots,
    ok_bind, show checkedAdd (s.attempt command x.tx).cumulativeGasUsed x.res.gasUsed = .ok x.cumulativeGasUsed from
    hx.gas, ok_bind, hx.notReverted, hnone]
  rfl

/-- The checks of a replay are those of the command that made the record, less the validator's. -/
theorem Accepts.replay {a : Accumulated S} {x : Addition S} (h : Accepts vm validated command a x)
    (hcontext : command'.blockContext = command.blockContext)
    (hlimit : command'.interopRootsPerBlock = command.interopRootsPerBlock) : Accepts vm false command' a x where
  included := by rw [hcontext, hlimit]; exact h.included
  accepted := by
    cases validated with
    | false => exact h.accepted
    | true => exact vm.accepted_unvalidated h.accepted
  roots := h.roots
  gas := h.gas
  notReverted := h.notReverted

/-! ### The whole loop -/

/-- A source that yields the given transactions. -/
def offers (txs : List ZkTransaction) : List Event := txs.map fun tx => .next (some tx)

/-- The events of a source that yields the given transactions and ends. -/
def exhausting (txs : List ZkTransaction) : List Event := offers txs ++ [.next none]

theorem run_append {s' : Loop S}
    (h : run primitives vm validated command events s = .ok (.next s')) (rest : List Event) :
    run primitives vm validated command (events ++ rest) s = run primitives vm validated command rest s' := by
  induction events generalizing s with
  | nil => cases h; rfl
  | cons event events ih =>
    rw [run, bind_eq_ok] at h
    obtain ⟨turn, hstep, h⟩ := h
    rw [List.cons_append, run, hstep, ok_bind]
    cases turn with
    | next s => exact ih h
    | sealed reason s => cases h

/-- A loop without an armed deadline that executes what its source yields ends with the source, whenever
deadlines are looked at. -/
theorem run_exhausting {txs : List ZkTransaction} {s' : Loop S}
    (hpolicy : command.sealPolicy = .untilExhausted false) (hs : s.deadlineArmed = false)
    (hevents : events.filter (· ≠ .deadline) = exhausting txs)
    (h : run primitives vm validated command (offers txs) s = .ok (.next s')) :
    run primitives vm validated command events s = .ok (.sealed .txStreamExhausted s') := by
  induction events generalizing txs s with
  | nil => simp [exhausting] at hevents
  | cons event events ih =>
    cases event with
    | deadline =>
      rw [run, step, if_neg (by simp [hs]), ok_bind]
      exact ih hs (by simpa using hevents) h
    | next maybeTx =>
      cases txs with
      | nil =>
        obtain ⟨rfl, -⟩ : maybeTx = none ∧ _ := by simpa [exhausting, offers] using hevents
        cases h
        rfl
      | cons tx txs =>
        obtain ⟨rfl, hrest⟩ : maybeTx = some tx ∧ events.filter (· ≠ .deadline) = exhausting txs := by
          simpa [exhausting, offers] using hevents
        rw [offers, List.map_cons, run, bind_eq_ok] at h
        obtain ⟨turn, hstep, h⟩ := h
        cases turn with
        | sealed reason s => cases h
        | next s₁ =>
          rw [run, hstep, ok_bind]
          refine ih (Bool.eq_false_iff.mpr fun harmed => ?_) hrest h
          obtain harmed | hsome := (step_cases hstep).1 harmed
          · exact absurd harmed (by simp [hs])
          · simp [hpolicy, SealPolicy.deadlineDur] at hsome

theorem run_replay (h : run primitives vm validated command events s = .ok turn) {r : Loop S}
    (hcontext : command'.blockContext = command.blockContext)
    (hlimit : command'.interopRootsPerBlock = command.interopRootsPerBlock)
    (hpolicy : command'.sealPolicy = .untilExhausted false) (hr : r.accumulated = s.accumulated) :
    ∃ txs r', turn.loop.executedTxs = s.executedTxs ++ txs ∧
      run primitives vm false command' (offers txs) r = .ok (.next r') ∧
      r'.accumulated = turn.loop.accumulated ∧ r'.purgedTxs = r.purgedTxs := by
  induction events generalizing s r with
  | nil =>
    cases h
    exact ⟨[], r, by simp [Turn.loop], rfl, hr, rfl⟩
  | cons event events ih =>
    rw [run, bind_eq_ok] at h
    obtain ⟨first, hstep, h⟩ := h
    -- the first turn, replayed
    obtain ⟨txs₁, r₁, htxs₁, hrun₁, hr₁, hpurged₁⟩ : ∃ txs r', first.loop.executedTxs = s.executedTxs ++ txs ∧
          run primitives vm false command' (offers txs) r = .ok (.next r') ∧
          r'.accumulated = first.loop.accumulated ∧ r'.purgedTxs = r.purgedTxs := by
      obtain ⟨hkept, -⟩ | ⟨x, -, hx, hadd⟩ := (step_cases hstep).2
      · exact ⟨[], r, by simpa using congrArg Accumulated.executedTxs hkept, rfl, by rw [hr, hkept], rfl⟩
      · obtain ⟨r', hstep', hr', hpurged⟩ := step_replay primitives hpolicy
          (by rw [hr]; exact hx.replay hcontext hlimit)
        refine ⟨[x.tx], r', congrArg Accumulated.executedTxs hadd, ?_, by rw [hr', hr, hadd], hpurged⟩
        rw [offers, List.map_singleton, run, hstep']
        rfl
    cases first with
    | sealed reason s₁ =>
      cases h
      exact ⟨txs₁, r₁, htxs₁, hrun₁, hr₁, hpurged₁⟩
    | next s₁ =>
      obtain ⟨txs₂, r₂, htxs₂, hrun₂, hr₂, hpurged₂⟩ := ih h hr₁
      refine ⟨txs₁ ++ txs₂, r₂, ?_, ?_, hr₂, hpurged₂.trans hpurged₁⟩
      · rw [htxs₂, ← List.append_assoc, ← htxs₁]
        rfl
      · rw [offers, List.map_append]
        exact (run_append hrun₁ _).trans hrun₂

/-! ### The whole block -/

theorem sealAndReturn_eq_ok {reason : SealReason} :
    sealAndReturn primitives vm nodeVersion command reason s = .ok executed ↔
      checkSealReason command reason s = .ok () ∧ ∃ output, vm.sealBlock s.state = .ok output ∧
        checkOutputHash command (hashBlockOutput primitives (finalOutput command s output)) s = .ok () ∧
        checkFirstL1Tx s.executedTxs command.startingCursors = .ok () ∧
        executed = ⟨finalOutput command s output, ⟨command.blockContext, s.executedTxs,
          command.previousBlockTimestamp, nodeVersion, command.protocolVersion,
          hashBlockOutput primitives (finalOutput command s output), command.forcePreimages,
          command.startingCursors⟩, s.purgedTxs, command.strictSubpoolCleanup⟩ := by
  rw [sealAndReturn, bind_eq_ok]
  constructor
  · rintro ⟨_, hreason, h⟩
    split at h
    · exact absurd h (fail_ne_ok _ _ _)
    next output houtput =>
      obtain ⟨_, hhash, h⟩ := bind_eq_ok.mp h
      obtain ⟨_, hfirst, h⟩ := bind_eq_ok.mp h
      exact ⟨hreason, output, houtput, hhash, hfirst, (pure_eq_ok.mp h).symm⟩
  · rintro ⟨hreason, output, houtput, hhash, hfirst, rfl⟩
    refine ⟨(), hreason, ?_⟩
    rw [houtput]
    dsimp only
    rw [hhash, ok_bind, hfirst]
    rfl

theorem executeBlockInVm_eq_ok :
    executeBlockInVm primitives vm nodeVersion validated command events = .ok (some executed) ↔
      ∃ reason s, run primitives vm validated command events (.start vm command) = .ok (.sealed reason s) ∧
        sealAndReturn primitives vm nodeVersion command reason s = .ok executed := by
  rw [executeBlockInVm, bind_eq_ok]
  constructor
  · rintro ⟨turn, hrun, h⟩
    cases turn with
    | next s => simp at h
    | sealed reason s =>
      obtain ⟨_, hseal, heq⟩ := map_eq_ok.mp h
      cases heq
      exact ⟨reason, s, hrun, hseal⟩
  · rintro ⟨reason, s, hrun, hseal⟩
    exact ⟨_, hrun, by dsimp only; rw [hseal]; rfl⟩

theorem replay_eq_ok {config : Config} {lastBlock : Option LastBlock} {record : ReplayRecord ZkTransaction}
    {prepared : PreparedBlockCommand × List ZkTransaction} (h : replay config lastBlock record = .ok (some prepared)) :
    prepared = (replayCommand config record, record.transactions) := by
  rw [replay] at h
  split at h
  · simp at h
  · obtain ⟨_, -, h⟩ := bind_eq_ok.mp h
    exact (Option.some.inj (pure_eq_ok.mp h)).symm

/-- The record of a produced block can be replayed on top of the block that it was produced on. -/
theorem replay_produced {config config' : Config} {last : LastBlock} {feeParams : FeeParams} {timestamp : Nat}
    {upgradeMetadata : Option UpgradeMetadata} {appended : List ZkTransaction}
    (hproduce : produce config last feeParams timestamp upgradeMetadata = .ok (command, appended))
    (hexecuted : executeBlockInVm primitives vm nodeVersion validated command events = .ok (some executed)) :
    replay config' (some last) executed.record =
      .ok (some (replayCommand config' executed.record, executed.record.transactions)) := by
  obtain ⟨_, _, -, hseal⟩ := executeBlockInVm_eq_ok.mp hexecuted
  obtain ⟨-, _, -, -, -, rfl⟩ := sealAndReturn_eq_ok.mp hseal
  rw [produce] at hproduce
  obtain ⟨⟨version, preimages⟩, -, hproduce⟩ := bind_eq_ok.mp hproduce
  obtain ⟨execution, -, hproduce⟩ := bind_eq_ok.mp hproduce
  obtain ⟨rfl, -⟩ := Prod.mk.inj (pure_eq_ok.mp hproduce)
  have hhashes (i : Fin 255) : last.record.blockContext.blockHashes i.succ =
      last.record.blockContext.blockHashes.push last.hash i.castSucc := by
    simp [Replay.BlockHashes.push, Fin.succ]
  simp [replay, checkFollows, require_pos, hhashes]

/-- A block that the executor sealed replays: the command made of its record executes the recorded
transactions in order and ends with them, and the output and its hash are those of the record. Only
the version of the node differs between the two records. -/
theorem sealed_block_replays {nodeVersion : String} {events : List Event} {executed : Executed}
    (hexecuted : executeBlockInVm primitives vm nodeVersion validated command events = .ok (some executed))
    {config : Config} (hlimit : config.interopRootsPerBlock = command.interopRootsPerBlock)
    {lastBlock : Option LastBlock} {txs : List ZkTransaction}
    (hreplay : replay config lastBlock executed.record = .ok (some (command', txs)))
    {schedule : List Event} (hschedule : schedule.filter (· ≠ .deadline) = exhausting txs) (replayVersion : String) :
    txs = executed.record.transactions ∧
      (∃ s, run primitives vm false command' schedule (.start vm command') = .ok (.sealed .txStreamExhausted s) ∧
        s.executedTxs = executed.record.transactions) ∧
      executeBlockInVm primitives vm replayVersion false command' schedule =
        .ok (some ⟨executed.output, { executed.record with nodeVersion := replayVersion }, [], false⟩) := by
  obtain ⟨hcommand', rfl⟩ := Prod.mk.inj (replay_eq_ok hreplay)
  obtain ⟨reason, s, hrun, hseal⟩ := executeBlockInVm_eq_ok.mp hexecuted
  obtain ⟨-, output, houtput, -, hfirst, hexecuted⟩ := sealAndReturn_eq_ok.mp hseal
  have hcontext : command'.blockContext = command.blockContext := by rw [hcommand', hexecuted]; rfl
  have hpreimages : command'.forcePreimages = command.forcePreimages := by rw [hcommand', hexecuted]; rfl
  have hpolicy : command'.sealPolicy = .untilExhausted false := by rw [hcommand']; rfl
  have hstart : (Loop.start vm command').accumulated = (Loop.start vm command).accumulated := by
    simp [Loop.start, Loop.accumulated, hcontext, hpreimages]
  obtain ⟨txs, r, htxs, hreplayed, hr, hpurged⟩ :=
    run_replay hrun hcontext (by rw [hcommand']; exact hlimit) hpolicy hstart
  have hrecorded : executed.record.transactions = txs := by rw [hexecuted]; exact htxs
  have hexhausted := run_exhausting hpolicy rfl hschedule (by rw [hrecorded]; exact hreplayed)
  obtain ⟨hstate, hresults, hexecutedTxs, -, -⟩ := Accumulated.mk.inj hr
  have houtput' : finalOutput command' r output = finalOutput command s output := by
    simp only [finalOutput, hresults, hpreimages, Turn.loop]
  refine ⟨rfl, ⟨r, hexhausted, by rw [hexecuted]; exact hexecutedTxs⟩, executeBlockInVm_eq_ok.mpr
    ⟨.txStreamExhausted, r, hexhausted, sealAndReturn_eq_ok.mpr ⟨?_, output, ?_, ?_, ?_, ?_⟩⟩⟩
  · simp [checkSealReason, hpolicy]
  · rw [hstate]; exact houtput
  · rw [houtput', hcommand', hexecuted]
    simp [checkOutputHash, replayCommand]
  · rw [hexecutedTxs, hcommand', hexecuted]; exact hfirst
  · rw [houtput', hpurged, hcommand', hexecuted, hexecutedTxs]
    rfl

/-- A virtual machine that counts transactions: one transaction is rejected, one only by the validator. -/
def sampleVm : Vm Nat where
  new _ _ := 0
  executeNextTx validated state tx :=
    if tx.signer = 7 then .ok (.error .nonceTooHigh)
    else if tx.signer = 8 ∧ validated = true then .ok (.error .filteredByValidator)
    else .ok (.ok (⟨true, 21000, none, [], []⟩, state + 1))
  sealBlock state := .ok ⟨⟨⟨Fin.ofNat _ state, 1, 1001, none⟩, [], .length 0⟩, [⟨1, Fin.ofNat _ state⟩], []⟩
  accepted_unvalidated := by
    intro state tx res state' h
    split_ifs at h with hrejected hfiltered
    · cases h
    · cases h
    · rw [if_neg hrejected, if_neg (by simp)]
      exact h

def samplePrimitives : Primitives where
  keccak256 bytes := Fin.ofNat _ (bytes.foldl (fun n byte => n * 31 + byte.toNat) 1)
  blake2s256 _ := 0
  systemTxHash _ := 0

def sampleConfig : Config where
  l2ChainId := 270
  l1ChainId := 1
  gasLimit := 100000
  pubdataLimit := 1000
  feeCollectorAddress := 5
  blockTime := 1
  maxTransactionsInBlock := 10
  interopRootsPerBlock := 5

def sampleLast : LastBlock where
  record := ⟨⟨270, 0, .empty, 1000, 0, 0, 0, 0, 0, 0, 0, 0, 0⟩, [], 0, "1.0.0", ⟨0, 32, 0⟩, 0, [], ⟨0, 0, 0, 0⟩⟩
  hash := 3
  nextCursors := ⟨0, 0, 0, 0⟩

/-- Two transactions are executed, two are rejected, and then the deadline fires. -/
def sampleEvents : List Event :=
  [.next (some ⟨.l1 ⟨1, 0, 30000⟩, 1⟩), .next (some ⟨.l2 ⟨2, 30000⟩, 7⟩), .next (some ⟨.l2 ⟨3, 30000⟩, 8⟩),
    .next (some ⟨.l2 ⟨4, 30000⟩, 2⟩), .deadline]

def sampleTxs : List ZkTransaction := [⟨.l1 ⟨1, 0, 30000⟩, 1⟩, ⟨.l2 ⟨4, 30000⟩, 2⟩]

def sampleCommand : PreparedBlockCommand where
  blockContext := ⟨270, 1, Replay.BlockHashes.empty.push 3, 1001, 1, 2, 3, 5, 100000, 1000, 0, 7, 1⟩
  sealPolicy := .decide 1 10
  invalidTxPolicy := .rejectAndContinue true
  protocolVersion := ⟨0, 32, 0⟩
  expectedBlockOutputHash := none
  previousBlockTimestamp := 1000
  forcePreimages := []
  expectSlChainIdTxAfterUpgrade := true
  startingCursors := ⟨0, 0, 0, 0⟩
  interopRootsPerBlock := 5
  strictSubpoolCleanup := true

def sampleOutput : BlockOutput :=
  ⟨⟨⟨2, 1, 1001, none⟩, [some ⟨true, 21000, none, [], []⟩, some ⟨true, 21000, none, [], []⟩], .length 0⟩, [⟨1, 2⟩], []⟩

def sampleExecuted : Executed where
  output := sampleOutput
  record := ⟨sampleCommand.blockContext, sampleTxs, 1000, "1.0.0", ⟨0, 32, 0⟩,
    hashBlockOutput samplePrimitives sampleOutput, [], ⟨0, 0, 0, 0⟩⟩
  purgedTxs := [(3, .filteredByValidator)]
  strictSubpoolCleanup := true

theorem sealed_block_replays_sample :
    executeBlockInVm samplePrimitives sampleVm "1.0.0" true sampleCommand sampleEvents = .ok (some sampleExecuted) ∧
      executeBlockInVm samplePrimitives sampleVm "1.0.1" false (replayCommand sampleConfig sampleExecuted.record)
        ([.deadline] ++ exhausting sampleTxs) =
        .ok (some ⟨sampleOutput, { sampleExecuted.record with nodeVersion := "1.0.1" }, [], false⟩) :=
  have hexecuted : executeBlockInVm samplePrimitives sampleVm "1.0.0" true sampleCommand sampleEvents =
      .ok (some sampleExecuted) := by decide +kernel
  have hproduce : produce sampleConfig sampleLast ⟨1, 3, 2⟩ 1001 none =
      .ok (sampleCommand, [ofSystemTx (.setSLChainId 1 (2 ^ 64 - 1))]) := by rfl
  ⟨hexecuted, (sealed_block_replays hexecuted rfl (replay_produced hproduce hexecuted) (by decide) "1.0.1").2.2⟩

end BlockExecutor
