import ZksyncOsServer.Mempool.Subpools
import ZksyncOsServer.Sequencer.ProduceReplay

/-!
# Rebuilding a range of blocks

`BlockContextProvider::rebuild` and `on_canonical_state_change` over the end of the WAL. Dropping the
transactions of one block moves what later blocks may contain: the L1 transactions of later blocks are
filtered by the L1 cursor, their import and upgrade transactions are not filtered at all.
-/
namespace Rebuilds

open BlockExecutor List Fallible
open Mempool
open MerkleTree (B256)
open Replay (BlockStartCursors ReplayRecord)
open Types (L1PriorityEnvelope SystemTxEnvelope ZkTransaction)

/-- The transactions that are executed of those that a rebuilt block is offered, by the answers of the
virtual machine: a rejected L2 transaction is left out, any other seals the block, as does the end of
the answers. -/
def executedOf : List ZkTransaction → List Bool → List ZkTransaction
  | tx :: txs, true :: answers => tx :: executedOf txs answers
  | tx :: txs, false :: answers => if tx.txType = .l2 then executedOf txs answers else []
  | _, _ => []

/-- One block of the WAL that is rebuilt, and what the executor, the clock and the watcher make of it. -/
structure RebuildStep where
  command : RebuildCommand
  now : Nat
  answers : List Bool
  nodeVersion : String
  outputHash : B256
  blockHash : B256
  /-- The number of upgrades that have been delivered. -/
  delivered : Nat

def RebuildStep.record (x : RebuildStep) : ReplayRecord ZkTransaction := x.command.replayRecord

structure Provider where
  pool : Pool
  lastBlock : Option LastBlock
  /-- The rebuilt blocks. -/
  chain : List (ReplayRecord ZkTransaction)
  stopped : Option Stop

def startingCursors (lastBlock : Option LastBlock) (record : ReplayRecord ZkTransaction) : BlockStartCursors :=
  match lastBlock with
  | some last => last.nextCursors
  | none => record.startingCursors

def advanceCursors (cursors : BlockStartCursors) (outcome : StateChangeOutcome) : BlockStartCursors where
  l1PriorityId := outcome.lastL1PriorityId.elim cursors.l1PriorityId (· + 1)
  interopRootId := nextRootId cursors.interopRootId outcome.lastInteropLogId
  migrationNumber := cursors.migrationNumber
  interopFeeNumber := outcome.lastInteropFeeNumber.elim cursors.interopFeeNumber (· + 1)

namespace Provider

def start (pool : Pool) (lastBlock : Option LastBlock) : Provider := ⟨pool, lastBlock, [], none⟩

def onCanonicalStateChange (s : Provider) (x : RebuildStep) (record : ReplayRecord ZkTransaction)
    (strictSubpoolCleanup : Bool) : Except Stop Provider := do
  let (outcome, pool) ← s.pool.onCanonicalStateChange record x.delivered strictSubpoolCleanup
  return { s with
    pool
    lastBlock := some ⟨record, x.blockHash, advanceCursors record.startingCursors outcome⟩
    chain := s.chain ++ [record] }

def executed (s : Provider) (x : RebuildStep) : List ZkTransaction :=
  executedOf (rebuildTxs x.command (startingCursors s.lastBlock x.record)) x.answers

def rebuildBlock (config : Config) (s : Provider) (x : RebuildStep) : Except Stop Provider := do
  let (command, txs) ← (rebuild config s.lastBlock x.now x.command).mapError .refused
  let executed := executedOf txs x.answers
  (checkFirstL1Tx executed command.startingCursors).mapError
    fun _ => .panic "First L1 tx priority id must match next_l1_priority_id"
  s.onCanonicalStateChange x ⟨command.blockContext, executed, command.previousBlockTimestamp, x.nodeVersion,
    command.protocolVersion, x.outputHash, command.forcePreimages, command.startingCursors⟩
    command.strictSubpoolCleanup

def step (config : Config) (s : Provider) (x : RebuildStep) : Provider :=
  if s.stopped.isSome then s
  else
    match s.rebuildBlock config x with
    | .ok s' => s'
    | .error stop => { s with stopped := some stop }

end Provider

/-! ### The property -/

def Contiguous (first : Nat) (txs : List L1PriorityEnvelope) : Prop :=
  txs.map (·.priorityId) = List.range' first txs.length
  deriving Decidable

def chainL1Txs (chain : List (ReplayRecord ZkTransaction)) : List L1PriorityEnvelope :=
  chain.flatMap fun record => l1Txs record.transactions

/-- No subpool has panicked, and the L1 transactions of the rebuilt chain are contiguous. -/
structure Sound (first : Nat) (s : Provider) : Prop where
  noPanic : ∀ message, s.stopped ≠ some (.panic message)
  contiguous : Contiguous first (chainL1Txs s.chain)

/-- The pool and the cursors where the WAL was produced. -/
structure Position where
  pool : Pool
  cursors : BlockStartCursors

def Position.advance (w : Position) (x : RebuildStep) : Except Stop Position := do
  let cursors := x.record.startingCursors
  require (cursors.l1PriorityId = w.cursors.l1PriorityId ∧ cursors.interopRootId = w.cursors.interopRootId)
    (.refused "the block does not start at the position")
  require (Contiguous w.cursors.l1PriorityId (l1Txs x.record.transactions)) (.refused "gap in the L1 transactions")
  let (outcome, pool) ← w.pool.onCanonicalStateChange x.record x.delivered false
  return ⟨pool, advanceCursors w.cursors outcome⟩

/-- The WAL was produced in subpool order. -/
def InOrder (w : Position) (steps : List RebuildStep) : Prop := (steps.foldlM Position.advance w).isOk = true
  deriving Decidable

/-- The import transactions that a step executes carry on at the interop cursor, and it executes the
upgrade transactions of its record where these are consumed. -/
def Keeps (s : Provider) (x : RebuildStep) : Prop :=
  s.stopped = none →
    (interopTxs (s.executed x) = [] ∨
      x.record.startingCursors.interopRootId = (startingCursors s.lastBlock x.record).interopRootId) ∧
    (upgradeTxs (s.executed x) = upgradeTxs x.record.transactions ∨
      UpgradeSubpool.unreliable x.record.protocolVersion = true ∧
        x.record.protocolVersion ≠ s.pool.upgrades.currentProtocolVersion)
  deriving Decidable

/-! ### What a step executes -/

theorem prefix_executedOf {α : Type} {read : ZkTransaction → Option α} (hread : ∀ tx, tx.txType = .l2 → read tx = none)
    (txs : List ZkTransaction) (answers : List Bool) :
    (executedOf txs answers).filterMap read <+: txs.filterMap read := by
  induction txs generalizing answers with
  | nil => simp [executedOf]
  | cons tx txs ih =>
    cases answers with
    | nil => simp [executedOf]
    | cons answer answers =>
      cases answer with
      | true =>
        rw [executedOf, filterMap_cons, filterMap_cons]
        cases read tx with
        | none => exact ih answers
        | some a => exact (prefix_cons_inj a).mpr (ih answers)
      | false =>
        rw [executedOf]
        split
        next hl2 =>
          rw [filterMap_cons, hread tx hl2]
          exact ih answers
        · simp

theorem l1Txs_executedOf (txs : List ZkTransaction) (answers : List Bool) :
    l1Txs (executedOf txs answers) <+: l1Txs txs :=
  prefix_executedOf (fun tx h => by unfold ZkTransaction.txType at h; split at h <;> simp_all) txs answers

theorem interopTxs_executedOf (txs : List ZkTransaction) (answers : List Bool) :
    interopTxs (executedOf txs answers) <+: interopTxs txs :=
  prefix_executedOf (fun tx h => by unfold ZkTransaction.txType at h; split at h <;> simp_all) txs answers

theorem findSome_l1PriorityId (txs : List ZkTransaction) :
    txs.findSome? l1PriorityId? = (l1Txs txs).head?.map (·.priorityId) := by
  induction txs with
  | nil => rfl
  | cons tx txs ih =>
    rw [findSome?_cons, l1Txs, filterMap_cons]
    unfold l1PriorityId?
    cases tx.envelope with
    | l1 l1Tx => rfl
    | system _ => exact ih
    | upgrade _ => exact ih
    | l2 _ => exact ih

/-- What is offered of the L1 transactions are those of the record, if the first one is next, or none. -/
theorem l1Txs_rebuildTxs (command : RebuildCommand) (cursors : BlockStartCursors) :
    l1Txs (rebuildTxs command cursors) = [] ∨
      l1Txs (rebuildTxs command cursors) = l1Txs command.replayRecord.transactions ∧
        ∀ tx ∈ (l1Txs command.replayRecord.transactions).head?, tx.priorityId = cursors.l1PriorityId := by
  rw [rebuildTxs]
  split
  · exact .inl rfl
  · split
    · refine .inl (filterMap_eq_nil_iff.mpr fun tx htx => ?_)
      have hne := (mem_filter.mp htx).2
      unfold ZkTransaction.txType at hne
      split at hne <;> simp_all
    next hfilter =>
      refine .inr ⟨rfl, fun tx htx => ?_⟩
      rw [filterL1Txs, findSome_l1PriorityId, Option.mem_def.mp htx] at hfilter
      simpa using hfilter

theorem interopTxs_rebuildTxs (command : RebuildCommand) (cursors : BlockStartCursors) :
    interopTxs (rebuildTxs command cursors) <+: interopTxs command.replayRecord.transactions := by
  rw [rebuildTxs]
  split
  · exact List.nil_prefix
  · split
    · rw [interopTxs, filterMap_filter]
      refine (filterMap_congr fun tx _ => ?_) ▸ prefix_rfl
      unfold ZkTransaction.txType
      split <;> simp_all
    · exact prefix_rfl

variable {config : Config} {first : Nat} {w w' : Position} {x : RebuildStep} {s : Provider}

theorem rebuild_eq_ok {lastBlock : Option LastBlock} {now : Nat} {command : RebuildCommand}
    {prepared : PreparedBlockCommand} {txs : List ZkTransaction}
    (h : rebuild config lastBlock now command = .ok (prepared, txs)) :
    prepared.startingCursors = startingCursors lastBlock command.replayRecord ∧
      txs = rebuildTxs command (startingCursors lastBlock command.replayRecord) ∧
      prepared.protocolVersion = command.replayRecord.protocolVersion ∧ prepared.strictSubpoolCleanup = false := by
  unfold rebuild at h
  cases lastBlock <;>
    (obtain ⟨_, -, h⟩ := bind_eq_ok.mp h
     obtain ⟨rfl, rfl⟩ := Prod.mk.inj (pure_eq_ok.mp h)
     exact ⟨rfl, rfl, rfl, rfl⟩)

/-! ### Each subpool -/

theorem contiguous_append {txs txs' : List L1PriorityEnvelope} :
    Contiguous first (txs ++ txs') ↔ Contiguous first txs ∧ Contiguous (first + txs.length) txs' := by
  rw [Contiguous, map_append, length_append, ← range'_append_1]
  exact ⟨fun h => append_inj h (by simp), fun h => congrArg₂ (· ++ ·) h.1 h.2⟩

theorem Contiguous.next {txs : List L1PriorityEnvelope} (h : Contiguous first txs) :
    (txs.getLast?.map (·.priorityId)).elim first (· + 1) = first + txs.length := by
  cases txs using reverseRecOn with
  | nil => rfl
  | append_singleton txs tx _ =>
    have hlast := (contiguous_append.mp h).2
    simp only [Contiguous, map_cons, map_nil, length_singleton, range'_one, cons.injEq, and_true] at hlast
    simp [hlast]
    omega

/-- L1 transactions are executed from the cursor on, and only where the chain has all before them. -/
theorem consumeL1_executed {cursor position : Nat} {pending pending' rest executed txs : List L1PriorityEnvelope}
    (hat : pending = pending' ∧ cursor = position ∨ cursor < position) (htxs : Contiguous position txs)
    (hconsume : consumeL1 pending' txs = .ok rest) (hpart : executed <+: txs)
    (hfirst : executed ≠ [] → ∀ tx ∈ txs.head?, tx.priorityId = cursor) :
    ∃ left, consumeL1 pending executed = .ok left ∧ Contiguous cursor executed ∧
      (left = rest ∧ cursor + executed.length = position + txs.length ∨
        cursor + executed.length < position + txs.length) := by
  obtain ⟨dropped, rfl⟩ := hpart
  obtain rfl := consumeL1_eq_ok.mp hconsume
  rw [length_append]
  cases executed with
  | nil =>
    refine ⟨pending, consumeL1_eq_ok.mpr rfl, rfl, ?_⟩
    cases dropped with
    | nil => simpa using hat
    | cons tx dropped =>
      right
      obtain ⟨-, rfl⟩ | hlt := hat
      · simp
      · simp only [length_nil, length_cons]
        omega
  | cons tx executed =>
    have hcursor : tx.priorityId = cursor := hfirst (by simp) tx (by simp)
    have hposition : tx.priorityId = position := by
      simpa [Contiguous, range'_succ] using (congrArg head? htxs)
    obtain ⟨rfl, rfl⟩ : pending = _ ∧ cursor = position := by
      obtain hat | hlt := hat
      · exact hat
      · omega
    refine ⟨dropped ++ rest, consumeL1_eq_ok.mpr (by simp), (contiguous_append.mp htxs).1, ?_⟩
    cases dropped with
    | nil => exact .inl ⟨rfl, by simp⟩
    | cons tx dropped => exact .inr (by simp)

theorem consumeRoots_executed {cursor position : Nat} {pending pending' rest : List (Nat × Types.InteropRoot)}
    {last : Option Nat} {executed txs : List SystemTxEnvelope}
    (himports : ∀ tx ∈ txs, ∃ roots id, tx = .importInteropRoots roots id) (hahead : AheadOf position pending')
    (hat : pending = pending' ∧ cursor = position ∨ cursor < position)
    (hconsume : consumeRoots pending' none txs = .ok (last, rest)) (hpart : executed <+: txs)
    (hnext : executed = [] ∨ position = cursor) : ∃ last' left, consumeRoots pending none executed = .ok (last', left) ∧
      (left = rest ∧ nextRootId cursor last' = nextRootId position last ∨
        nextRootId cursor last' < nextRootId position last) := by
  have hahead : AheadOf (nextRootId position none) pending' := hahead
  obtain ⟨rfl, rfl⟩ | hlt := hat
  · obtain ⟨dropped, rfl⟩ := hpart
    rw [consumeRoots_append] at hconsume
    obtain ⟨⟨last', left⟩, hexecuted, hdropped⟩ := bind_eq_ok.mp hconsume
    refine ⟨last', left, hexecuted, ?_⟩
    cases dropped with
    | nil =>
      obtain ⟨rfl, rfl⟩ := Prod.mk.inj (Except.ok.inj hdropped)
      exact .inl ⟨rfl, rfl⟩
    | cons tx dropped =>
      have hleft := (hahead.consumeRoots (fun tx htx => himports tx (mem_append_left _ htx)) hexecuted).1
      exact .inr ((hleft.consumeRoots (fun tx htx => himports tx (mem_append_right _ htx)) hdropped).2.2 (by simp))
  · obtain rfl : executed = [] := hnext.resolve_right (by omega)
    exact ⟨none, pending, rfl, .inr (lt_of_lt_of_le hlt (hahead.consumeRoots himports hconsume).2.1)⟩

/-! ### The whole range -/

def Current (s : Provider) (w : Position) (cursors : BlockStartCursors) : Prop :=
  match s.lastBlock with
  | some last => cursors = last.nextCursors
  | none => cursors.l1PriorityId = w.cursors.l1PriorityId ∧ cursors.interopRootId = w.cursors.interopRootId

/-- The rebuilt chain stands where the WAL stood or, once transactions were dropped, behind it. -/
structure Follows (first : Nat) (s : Provider) (w : Position) (cursors : BlockStartCursors) : Prop where
  l1 : s.pool.l1 = w.pool.l1 ∧ cursors.l1PriorityId = w.cursors.l1PriorityId ∨
    cursors.l1PriorityId < w.cursors.l1PriorityId
  roots : s.pool.interopRoots = w.pool.interopRoots ∧ cursors.interopRootId = w.cursors.interopRootId ∨
    cursors.interopRootId < w.cursors.interopRootId
  upgrades : s.pool.upgrades = w.pool.upgrades
  next : cursors.l1PriorityId = first + (chainL1Txs s.chain).length

structure Inv (first : Nat) (s : Provider) (w : Position) : Prop where
  sound : Sound first s
  ahead : AheadOf w.cursors.interopRootId w.pool.interopRoots
  follows : s.stopped = none → ∀ cursors, Current s w cursors → Follows first s w cursors

theorem advance_eq_ok (h : w.advance x = .ok w') : x.record.startingCursors.l1PriorityId = w.cursors.l1PriorityId ∧
      x.record.startingCursors.interopRootId = w.cursors.interopRootId ∧
      Contiguous w.cursors.l1PriorityId (l1Txs x.record.transactions) ∧
      ∃ outcome, w.pool.onCanonicalStateChange x.record x.delivered false = .ok (outcome, w'.pool) ∧
        w'.cursors = advanceCursors w.cursors outcome := by
  obtain ⟨_, hstarts, h⟩ := bind_eq_ok.mp h
  obtain ⟨_, hcontiguous, h⟩ := bind_eq_ok.mp h
  obtain ⟨⟨outcome, pool⟩, hpool, h⟩ := bind_eq_ok.mp h
  obtain rfl := pure_eq_ok.mp h
  rw [require_eq_ok] at hstarts hcontiguous
  exact ⟨hstarts.1, hstarts.2, hcontiguous, outcome, hpool, rfl⟩

/-- The consumption of upgrades depends on the executed upgrade transactions only as far as they are
consumed at all. -/
theorem upgrades_executed {subpool : UpgradeSubpool} {version : ProverApi.ProtocolSemanticVersion}
    {executed txs : List Types.L1UpgradeEnvelope} (delivered : Nat)
    (h : executed = txs ∨ UpgradeSubpool.unreliable version = true ∧ version ≠ subpool.currentProtocolVersion) :
    subpool.onCanonicalStateChange version executed delivered = subpool.onCanonicalStateChange version txs delivered := by
  obtain rfl | ⟨hunreliable, hne⟩ := h
  · rfl
  · simp [UpgradeSubpool.onCanonicalStateChange, hunreliable, hne]

theorem Follows.consume (hs : Follows first s w (startingCursors s.lastBlock x.record))
    (hahead : AheadOf w.cursors.interopRootId w.pool.interopRoots) (hadvance : w.advance x = .ok w')
    (hstopped : s.stopped = none) (hkeeps : Keeps s x) (record : ReplayRecord ZkTransaction)
    (htxs : record.transactions = s.executed x) (hversion : record.protocolVersion = x.record.protocolVersion) :
    Contiguous (startingCursors s.lastBlock x.record).l1PriorityId (l1Txs record.transactions) ∧
      ∃ outcome pool, s.pool.onCanonicalStateChange record x.delivered false = .ok (outcome, pool) ∧
        ∀ lastBlock, Follows first { s with pool, lastBlock, chain := s.chain ++ [record] } w'
          (advanceCursors (startingCursors s.lastBlock x.record) outcome) := by
  set cursors := startingCursors s.lastBlock x.record
  obtain ⟨-, hroot, hcontiguous, walOutcome, hwal, hcursors'⟩ := advance_eq_ok hadvance
  obtain ⟨hwalUpgrades, hwalRoots, -, hwalL1, hwalLast⟩ := onCanonicalStateChange_eq_ok.mp hwal
  obtain ⟨himports, hupgrades⟩ := hkeeps hstopped
  have hl1Prefix := l1Txs_executedOf (rebuildTxs x.command cursors) x.answers
  have hoffered : l1Txs (s.executed x) <+: l1Txs x.record.transactions ∧ (l1Txs (s.executed x) ≠ [] →
      ∀ tx ∈ (l1Txs x.record.transactions).head?, tx.priorityId = cursors.l1PriorityId) := by
    obtain hnone | ⟨hall, hfirst⟩ := l1Txs_rebuildTxs x.command cursors
    · have hnil : l1Txs (s.executed x) = [] := prefix_nil.mp (hnone ▸ hl1Prefix)
      exact ⟨hnil ▸ List.nil_prefix, fun hne => absurd hnil hne⟩
    · exact ⟨hall ▸ hl1Prefix, fun _ => hfirst⟩
  obtain ⟨l1, hl1, hl1Contiguous, hl1At⟩ :=
    consumeL1_executed hs.l1 hcontiguous hwalL1 hoffered.1 hoffered.2
  obtain ⟨lastLogId, roots, hroots, hrootsAt⟩ := consumeRoots_executed (interopTxs_imports x.record.transactions) hahead
    hs.roots hwalRoots ((interopTxs_executedOf _ x.answers).trans (interopTxs_rebuildTxs x.command cursors))
    (himports.imp_right fun h => hroot.symm.trans h)
  obtain ⟨⟨number, fee⟩, hfee⟩ := interopFee_lenient s.pool.interopFee record.transactions
  rw [← htxs] at hl1 hl1Contiguous hl1At hupgrades
  have hwalNext : w'.cursors.l1PriorityId = w.cursors.l1PriorityId + (l1Txs x.record.transactions).length := by
    rw [hcursors']
    exact (congrArg (Option.elim · _ _) hwalLast).trans hcontiguous.next
  refine ⟨hl1Contiguous, ⟨lastLogId, (l1Txs record.transactions).getLast?.map (·.priorityId), number⟩,
    ⟨w'.pool.upgrades, roots, fee, l1⟩, onCanonicalStateChange_eq_ok.mpr ⟨?_, ?_, hfee, hl1, rfl⟩, fun _ => ⟨?_, ?_, rfl, ?_⟩⟩
  · rw [hversion, upgrades_executed x.delivered hupgrades, hs.upgrades]
    exact hwalUpgrades
  · rw [htxs]
    exact hroots
  · rw [hwalNext, advanceCursors, hl1Contiguous.next]
    exact hl1At
  · rw [hcursors']
    exact hrootsAt
  · rw [advanceCursors, hl1Contiguous.next, hs.next]
    simp only [chainL1Txs, flatMap_append, flatMap_singleton, length_append]
    omega

theorem current_startingCursors (hadvance : w.advance x = .ok w') :
    Current s w (startingCursors s.lastBlock x.record) := by
  obtain ⟨hl1, hroot, -⟩ := advance_eq_ok hadvance
  unfold Current startingCursors
  cases s.lastBlock with
  | none => exact ⟨hl1, hroot⟩
  | some last => rfl

theorem checkFirstL1Tx_of_contiguous {txs : List ZkTransaction} {cursors : BlockStartCursors}
    (h : Contiguous cursors.l1PriorityId (l1Txs txs)) : checkFirstL1Tx txs cursors = .ok () := by
  rw [checkFirstL1Tx, findSome_l1PriorityId, ← head?_map, h]
  cases (l1Txs txs).length with
  | zero => rfl
  | succ n => simp [range'_succ, require_pos]

theorem rebuildBlock_eq {command : PreparedBlockCommand}
    {txs : List ZkTransaction} (hrebuild : rebuild config s.lastBlock x.now x.command = .ok (command, txs))
    (hfirst : checkFirstL1Tx (executedOf txs x.answers) command.startingCursors = .ok ()) :
    s.rebuildBlock config x = s.onCanonicalStateChange x ⟨command.blockContext, executedOf txs x.answers,
      command.previousBlockTimestamp, x.nodeVersion, command.protocolVersion, x.outputHash, command.forcePreimages,
      command.startingCursors⟩ command.strictSubpoolCleanup := by
  rw [Provider.rebuildBlock, hrebuild]
  change ((checkFirstL1Tx (executedOf txs x.answers) command.startingCursors).mapError _ >>= _) = _
  rw [hfirst]
  rfl

/-- What one step of a run keeps. -/
theorem Inv.step (h : Inv first s w) (hadvance : w.advance x = .ok w') (hkeeps : Keeps s x) :
    Inv first (s.step config x) w' := by
  have hahead' : AheadOf w'.cursors.interopRootId w'.pool.interopRoots := by
    obtain ⟨-, -, -, outcome, hwal, hcursors'⟩ := advance_eq_ok hadvance
    obtain ⟨-, hwalRoots, -⟩ := onCanonicalStateChange_eq_ok.mp hwal
    have hahead : AheadOf (nextRootId w.cursors.interopRootId none) w.pool.interopRoots := h.ahead
    rw [hcursors']
    exact (hahead.consumeRoots (interopTxs_imports _) hwalRoots).1
  rw [Provider.step]
  split
  next hstopped =>
    exact ⟨h.sound, hahead', fun hnone => by simp [hnone] at hstopped⟩
  next hrunning =>
    have hstopped : s.stopped = none := by simpa using hrunning
    have hfollows := h.follows hstopped _ (current_startingCursors hadvance)
    cases hrebuild : rebuild config s.lastBlock x.now x.command with
    | error message =>
      have hrefused : s.rebuildBlock config x = .error (.refused message) := by
        rw [Provider.rebuildBlock, hrebuild]
        rfl
      rw [hrefused]
      exact ⟨⟨by simp, h.sound.contiguous⟩, hahead', by simp⟩
    | ok prepared =>
      obtain ⟨command, txs⟩ := prepared
      obtain ⟨hcursors, rfl, hversion, hstrict⟩ := rebuild_eq_ok hrebuild
      let record : ReplayRecord ZkTransaction := ⟨command.blockContext, s.executed x, command.previousBlockTimestamp,
        x.nodeVersion, command.protocolVersion, x.outputHash, command.forcePreimages, command.startingCursors⟩
      obtain ⟨hcontiguous, outcome, pool, hpool, hfollows'⟩ :=
        hfollows.consume h.ahead hadvance hstopped hkeeps record rfl hversion
      have hblock : s.rebuildBlock config x = .ok { s with
          pool
          lastBlock := some ⟨record, x.blockHash, advanceCursors (startingCursors s.lastBlock x.record) outcome⟩
          chain := s.chain ++ [record] } := by
        have hfirst : checkFirstL1Tx (s.executed x) command.startingCursors = .ok () := by
          rw [hcursors]
          exact checkFirstL1Tx_of_contiguous hcontiguous
        rw [rebuildBlock_eq hrebuild hfirst]
        change s.onCanonicalStateChange x record command.strictSubpoolCleanup = _
        rw [hstrict, Provider.onCanonicalStateChange, hpool, show record.startingCursors = _ from hcursors]
        rfl
      rw [hblock]
      refine ⟨⟨h.sound.noPanic, ?_⟩, hahead', ?_⟩
      · rw [chainL1Txs, flatMap_append, flatMap_singleton]
        exact contiguous_append.mpr ⟨h.sound.contiguous, by rw [hfollows.next] at hcontiguous; exact hcontiguous⟩
      · rintro _ _ rfl
        exact hfollows' _

/-- What a whole run keeps. -/
theorem Inv.run {steps : List RebuildStep}
    (h : Inv first s w) (horder : InOrder w steps) (hkeeps : Run.Steps (Provider.step config) Keeps s steps) :
    Run.States (Provider.step config) (Sound first) s steps := by
  induction steps generalizing s w with
  | nil => exact h.sound
  | cons x steps ih =>
    obtain ⟨w', hw'⟩ := exists_of_isOk horder
    rw [foldlM_cons] at hw'
    obtain ⟨w₁, hadvance, hrest⟩ := bind_eq_ok.mp hw'
    refine ⟨h.sound, ih (h.step hadvance hkeeps.1) ?_ hkeeps.2⟩
    rw [InOrder, hrest]
    rfl

/-- Where each step executes the import transactions at the interop cursor or none, and the upgrade
transactions of its record, no subpool panics and the L1 transactions stay contiguous. -/
theorem rebuild_sound (config : Config) (w : Position) (lastBlock : Option LastBlock)
    (hlast : ∀ last ∈ lastBlock, last.nextCursors = w.cursors)
    (hahead : AheadOf w.cursors.interopRootId w.pool.interopRoots) (steps : List RebuildStep)
    (horder : InOrder w steps) (hkeeps : Run.Steps (Provider.step config) Keeps (.start w.pool lastBlock) steps) :
    Run.States (Provider.step config) (Sound w.cursors.l1PriorityId) (.start w.pool lastBlock) steps := by
  have hstart : Inv w.cursors.l1PriorityId (.start w.pool lastBlock) w := by
    refine ⟨⟨by simp [Provider.start], rfl⟩, hahead, fun _ cursors hcurrent => ?_⟩
    obtain ⟨hl1, hroot⟩ : cursors.l1PriorityId = w.cursors.l1PriorityId ∧
        cursors.interopRootId = w.cursors.interopRootId := by
      cases lastBlock with
      | none => exact hcurrent
      | some last =>
        rw [show cursors = last.nextCursors from hcurrent, hlast last rfl]
        exact ⟨rfl, rfl⟩
    exact ⟨.inl ⟨rfl, hl1⟩, .inl ⟨rfl, hroot⟩, rfl, hl1⟩
  exact hstart.run horder hkeeps

def sampleConfig : Config := ⟨270, 1, 100000, 1000, 5, 1, 10, 5⟩

def root (n : Nat) : Types.InteropRoot := ⟨1, n, [0]⟩

def importTx (ids : List Nat) : ZkTransaction :=
  ofSystemTx (.importInteropRoots (ids.map root) (ids.getLast?.getD 0))

def l1Tx (id : Nat) : ZkTransaction := ⟨.l1 ⟨0, id, 30000⟩, 1⟩

/-- A block of the WAL that starts at the given L1 and interop cursors; of its transactions as many are
executed as there are answers. -/
def sampleStep (number l1PriorityId interopRootId : Nat) (transactions : List ZkTransaction) (makeEmpty : Bool)
    (answers : List Bool) : RebuildStep where
  command := ⟨⟨⟨270, number, .empty, 1000, 0, 0, 0, 0, 0, 0, 0, 7, 1⟩, transactions, 999, "1.0.0", ⟨0, 32, 0⟩, 0, [],
    ⟨l1PriorityId, interopRootId, 0, 0⟩⟩, makeEmpty, false⟩
  now := 2000
  answers
  nodeVersion := "1.0.0"
  outputHash := 0
  blockHash := 0
  delivered := 0

def samplePosition : Position where
  pool := ⟨⟨⟨0, 32, 0⟩, []⟩, [(5, root 5), (6, root 6), (7, root 7)], ⟨none, 0⟩,
    [⟨0, 3, 30000⟩, ⟨0, 4, 30000⟩, ⟨0, 5, 30000⟩]⟩
  cursors := ⟨3, 5, 0, 0⟩

/-- Block 1 is sealed before its second L1 transaction and block 2 is left without its own. -/
def keptSteps : List RebuildStep :=
  [sampleStep 1 3 5 [l1Tx 3, l1Tx 4] false [true], sampleStep 2 5 5 [l1Tx 5, importTx [5, 6]] false [true],
    sampleStep 3 6 7 [importTx [7]] false [true]]

theorem rebuild_sound_sample :
    ((keptSteps.foldl (Provider.step sampleConfig) (.start samplePosition.pool none)).chain.map (·.transactions)) =
        [[l1Tx 3], [importTx [5, 6]], [importTx [7]]] ∧
      Run.States (Provider.step sampleConfig) (Sound 3) (.start samplePosition.pool none) keptSteps :=
  ⟨by decide +kernel,
    rebuild_sound sampleConfig samplePosition none nofun (by decide) keptSteps (by decide +kernel) (by decide +kernel)⟩

/-- Block 1 is made empty; the import of block 2 is compared with the roots that block 1 had imported. -/
def droppedImport : List RebuildStep :=
  [sampleStep 1 3 5 [importTx [5]] true [], sampleStep 2 3 6 [importTx [6]] false [true]]

theorem dropped_import_panics : InOrder samplePosition droppedImport ∧
      AheadOf samplePosition.cursors.interopRootId samplePosition.pool.interopRoots ∧
      (droppedImport.foldl (Provider.step sampleConfig) (.start samplePosition.pool none)).stopped =
        some (.panic "assertion `left == right` failed") := by
  decide +kernel

end Rebuilds
