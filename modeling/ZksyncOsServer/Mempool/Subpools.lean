import ZksyncOsServer.Mempool.InteropRoots
import ZksyncOsServer.Sequencer.BlockContextProvider

/-!
# The subpools and the canonical chain

`on_canonical_state_change` of `mempool/src/pool.rs` and of its subpools. A subpool is the sequence of
what its watcher delivers and no block has consumed yet; `pop_wait` takes the first item and waits where
there is none. Only the upgrade subpool looks at more than the first item, so that it matters there how
much has been delivered. The pool is initialised.
-/
namespace Mempool

open BlockExecutor (UpgradeMetadata versionLt)
open Fallible List
open ProverApi (ProtocolSemanticVersion)
open Replay (ReplayRecord)
open Types (InteropRoot L1PriorityEnvelope L1UpgradeEnvelope SystemTxEnvelope ZkTransaction)

/-- Why the sequencer does not go on. -/
inductive Stop where
  | panic (message : String)
  | waiting
  | refused (message : String)
  deriving DecidableEq

def assertEq {α : Type} [DecidableEq α] (left right : α) : Except Stop Unit :=
  require (left = right) (.panic "assertion `left == right` failed")

/-! ### L1 transactions -/

/-- The pops of `L1Subpool::on_canonical_state_change`; returns what is left. -/
def consumeL1 : List L1PriorityEnvelope → List L1PriorityEnvelope → Except Stop (List L1PriorityEnvelope)
  | pending, [] => .ok pending
  | [], _ :: _ => .error .waiting
  | pendingTx :: pending, tx :: txs => do
    assertEq tx pendingTx
    consumeL1 pending txs

/-! ### Interop roots -/

def popRoots (rootsCount : Nat) (pending : List (Nat × InteropRoot)) :
    Except Stop (List (Nat × InteropRoot) × List (Nat × InteropRoot)) := do
  require (rootsCount ≤ pending.length) .waiting
  return (pending.take rootsCount, pending.drop rootsCount)

/-- One transaction of `InteropRootsSubpool::on_canonical_state_change`; returns its last log id and
what is left. -/
def consumeImport (pending : List (Nat × InteropRoot)) (tx : SystemTxEnvelope) (rootsCount : Nat) :
    Except Stop (Nat × List (Nat × InteropRoot)) := do
  let (roots, rest) ← popRoots rootsCount pending
  let (txLastLogId, _) ← ofOption (.panic "roots_count > 0") roots.getLast?
  assertEq (importInteropRoots roots txLastLogId) tx
  return (txLastLogId, rest)

/-- `InteropRootsSubpool::on_canonical_state_change`. -/
def consumeRoots : List (Nat × InteropRoot) → Option Nat → List SystemTxEnvelope →
    Except Stop (Option Nat × List (Nat × InteropRoot))
  | pending, lastLogId, [] => .ok (lastLogId, pending)
  | pending, lastLogId, tx :: txs =>
    match tx.systemSubtype with
    | .importInteropRoots rootsCount => do
      let (txLastLogId, rest) ← consumeImport pending tx rootsCount
      consumeRoots rest (some txLastLogId) txs
    | _ => consumeRoots pending lastLogId txs

/-! ### Interop fees -/

structure InteropFeeSubpool where
  pendingFee : Option Nat
  nextInteropFeeNumber : Nat
  deriving DecidableEq

def InteropFeeSubpool.consumeExpectedTx (this : InteropFeeSubpool) (tx : SystemTxEnvelope) :
    Except Stop (Nat × InteropFeeSubpool) := do
  let fee ← ofOption .waiting this.pendingFee
  assertEq tx (.setInteropFee fee this.nextInteropFeeNumber)
  return (this.nextInteropFeeNumber, ⟨none, this.nextInteropFeeNumber + 1⟩)

def InteropFeeSubpool.consumeAll : InteropFeeSubpool → Option Nat → List SystemTxEnvelope →
    Except Stop (Option Nat × InteropFeeSubpool)
  | this, last, [] => .ok (last, this)
  | this, _, tx :: txs => do
    let (number, this) ← this.consumeExpectedTx tx
    this.consumeAll (some number) txs

def interopFeeNumber (tx : SystemTxEnvelope) : Except Stop Nat :=
  match tx.systemSubtype with
  | .setInteropFee interopFeeNumber => .ok interopFeeNumber
  | _ => .error (.panic "tried to process unrelated system tx in `InteropFeeSubpool`")

def InteropFeeSubpool.onCanonicalStateChange (this : InteropFeeSubpool) (txs : List SystemTxEnvelope)
    (strictSubpoolCleanup : Bool) : Except Stop (Option Nat × InteropFeeSubpool) := do
  if strictSubpoolCleanup then
    this.consumeAll none txs
  else
    let last := (← txs.mapM interopFeeNumber).getLast?
    return (last, { this with
      nextInteropFeeNumber := last.elim this.nextInteropFeeNumber fun last => max this.nextInteropFeeNumber (last + 1) })

/-! ### Upgrades -/

structure UpgradeInfo where
  tx : Option L1UpgradeEnvelope
  protocolVersion : ProtocolSemanticVersion
  deriving DecidableEq

structure UpgradeSubpool where
  currentProtocolVersion : ProtocolSemanticVersion
  pendingUpgrades : List UpgradeInfo
  deriving DecidableEq

namespace UpgradeSubpool

def minVersionWithReliableUpgradeLogs : ProtocolSemanticVersion := ⟨0, 30, 2⟩

/-- Whether the logs of an upgrade to the version are not relied upon. -/
def unreliable (version : ProtocolSemanticVersion) : Bool := versionLt version minVersionWithReliableUpgradeLogs

/-- The next upgrade with a transaction; patch upgrades before it are skipped. -/
def popTx : List UpgradeInfo → Except Stop (L1UpgradeEnvelope × UpgradeSubpool)
  | [] => .error .waiting
  | upgrade :: pending =>
    match upgrade.tx with
    | some tx => .ok (tx, ⟨upgrade.protocolVersion, pending⟩)
    | none => popTx pending

/-- The pops for the upgrade transactions of a block. -/
def consumeTxs : UpgradeSubpool → List L1UpgradeEnvelope → Except Stop UpgradeSubpool
  | this, [] => .ok this
  | this, tx :: txs => do
    let (pendingTx, this) ← popTx this.pendingUpgrades
    assertEq tx pendingTx
    consumeTxs this txs

def advance (protocolVersion current : ProtocolSemanticVersion) : List UpgradeInfo → Except Stop UpgradeSubpool
  | [] =>
    if current = protocolVersion then .ok ⟨current, []⟩
    else if versionLt current protocolVersion then .error .waiting
    else .error (.panic "current protocol version is larger than block's protocol version")
  | upgrade :: pending =>
    if current = protocolVersion then .ok ⟨current, upgrade :: pending⟩
    else if versionLt current protocolVersion then
      if upgrade.tx.isSome then
        .error (.panic "expected patch protocol upgrade but found minor protocol upgrade with unapplied upgrade transaction")
      else advance protocolVersion upgrade.protocolVersion pending
    else .error (.panic "current protocol version is larger than block's protocol version")

/-- `pending_upgrades.retain`, when the given number of upgrades has been delivered. -/
def retain (this : UpgradeSubpool) (delivered : Nat) : UpgradeSubpool :=
  { this with
    pendingUpgrades := (this.pendingUpgrades.take delivered).filter (!unreliable ·.protocolVersion) ++
      this.pendingUpgrades.drop delivered }

def onCanonicalStateChange (this : UpgradeSubpool) (protocolVersion : ProtocolSemanticVersion)
    (txs : List L1UpgradeEnvelope) (delivered : Nat) : Except Stop UpgradeSubpool := do
  if txs = [] ∧ protocolVersion = this.currentProtocolVersion then
    return this
  let this := this.retain delivered
  if unreliable protocolVersion then
    return { this with currentProtocolVersion := protocolVersion }
  else
    let this ← this.consumeTxs txs
    advance protocolVersion this.currentProtocolVersion this.pendingUpgrades

end UpgradeSubpool

/-! ### The pool -/

structure Pool where
  upgrades : UpgradeSubpool
  interopRoots : List (Nat × InteropRoot)
  interopFee : InteropFeeSubpool
  l1 : List L1PriorityEnvelope

structure StateChangeOutcome where
  lastInteropLogId : Option Nat
  lastL1PriorityId : Option Nat
  lastInteropFeeNumber : Option Nat

variable (txs : List ZkTransaction)

def upgradeTxs : List L1UpgradeEnvelope :=
  txs.filterMap fun tx => match tx.envelope with
    | .upgrade upgrade => some upgrade
    | _ => none

def interopTxs : List SystemTxEnvelope :=
  txs.filterMap fun tx => match tx.envelope with
    | .system (.importInteropRoots roots latestLogId) => some (.importInteropRoots roots latestLogId)
    | _ => none

def interopFeeTxs : List SystemTxEnvelope :=
  txs.filterMap fun tx => match tx.envelope with
    | .system (.setInteropFee interopFee number) => some (.setInteropFee interopFee number)
    | _ => none

def l1Txs : List L1PriorityEnvelope :=
  txs.filterMap fun tx => match tx.envelope with
    | .l1 l1Tx => some l1Tx
    | _ => none

def Pool.onCanonicalStateChange (this : Pool) (record : ReplayRecord ZkTransaction) (delivered : Nat)
    (strictSubpoolCleanup : Bool) : Except Stop (StateChangeOutcome × Pool) := do
  let txs := record.transactions
  let upgrades ← this.upgrades.onCanonicalStateChange record.protocolVersion (upgradeTxs txs) delivered
  let (lastInteropLogId, interopRoots) ← consumeRoots this.interopRoots none (interopTxs txs)
  let (lastInteropFeeNumber, interopFee) ←
    this.interopFee.onCanonicalStateChange (interopFeeTxs txs) strictSubpoolCleanup
  let l1 ← consumeL1 this.l1 (l1Txs txs)
  return (⟨lastInteropLogId, (l1Txs txs).getLast?.map (·.priorityId), lastInteropFeeNumber⟩,
    ⟨upgrades, interopRoots, interopFee, l1⟩)

/-! ### What a consumption leaves -/

theorem assertEq_eq_ok {α : Type} [DecidableEq α] {left right : α} {u : Unit} :
    assertEq left right = .ok u ↔ left = right := require_eq_ok

theorem consumeL1_eq_ok {pending txs rest : List L1PriorityEnvelope} :
    consumeL1 pending txs = .ok rest ↔ pending = txs ++ rest := by
  induction txs generalizing pending with
  | nil => simp [consumeL1]
  | cons tx txs ih =>
    cases pending with
    | nil => simp [consumeL1]
    | cons pendingTx pending =>
      rw [consumeL1, bind_eq_ok]
      simp only [assertEq_eq_ok, ih, cons_append, cons.injEq]
      exact ⟨fun ⟨_, htx, hpending⟩ => ⟨htx.symm, hpending⟩, fun ⟨htx, hpending⟩ => ⟨(), htx.symm, hpending⟩⟩

theorem consumeRoots_append (pending : List (Nat × InteropRoot)) (last : Option Nat)
    (txs txs' : List SystemTxEnvelope) : consumeRoots pending last (txs ++ txs') =
      consumeRoots pending last txs >>= fun left => consumeRoots left.2 left.1 txs' := by
  induction txs generalizing pending last with
  | nil => rfl
  | cons tx txs ih =>
    simp only [cons_append, consumeRoots]
    split
    · cases consumeImport pending tx _ with
      | error stop => rfl
      | ok left => exact ih left.2 (some left.1)
    · exact ih pending last

def nextRootId (cursor : Nat) (lastLogId : Option Nat) : Nat := lastLogId.elim cursor (· + 1)

def AheadOf (cursor : Nat) (roots : List (Nat × InteropRoot)) : Prop :=
  roots.Pairwise (fun a b => a.1 < b.1) ∧ ∀ root ∈ roots, cursor ≤ root.1
  deriving Decidable

theorem AheadOf.consumeImport {cursor : Nat} {pending rest : List (Nat × InteropRoot)} {tx : SystemTxEnvelope}
    {rootsCount lastLogId : Nat} (h : AheadOf cursor pending)
    (hconsume : consumeImport pending tx rootsCount = .ok (lastLogId, rest)) :
    AheadOf (lastLogId + 1) rest ∧ cursor ≤ lastLogId := by
  obtain ⟨⟨roots, rest'⟩, hpop, hconsume⟩ := bind_eq_ok.mp hconsume
  obtain ⟨_, -, hpop⟩ := bind_eq_ok.mp hpop
  obtain ⟨rfl, rfl⟩ := Prod.mk.inj (pure_eq_ok.mp hpop)
  obtain ⟨⟨id, root⟩, hlast, hconsume⟩ := bind_eq_ok.mp hconsume
  obtain ⟨_, -, hconsume⟩ := bind_eq_ok.mp hconsume
  obtain ⟨rfl, rfl⟩ := Prod.mk.inj (pure_eq_ok.mp hconsume)
  have hmem := mem_of_getLast? (ofOption_eq_ok.mp hlast)
  have hsplit := h.1
  rw [← take_append_drop rootsCount pending, pairwise_append] at hsplit
  exact ⟨⟨hsplit.2.1, fun root hroot => hsplit.2.2 _ hmem root hroot⟩, h.2 _ (mem_of_mem_take hmem)⟩

theorem AheadOf.consumeRoots {cursor : Nat} {pending rest : List (Nat × InteropRoot)} {last last' : Option Nat}
    {txs : List SystemTxEnvelope} (himports : ∀ tx ∈ txs, ∃ roots id, tx = .importInteropRoots roots id)
    (h : AheadOf (nextRootId cursor last) pending) (hconsume : consumeRoots pending last txs = .ok (last', rest)) :
    AheadOf (nextRootId cursor last') rest ∧ nextRootId cursor last ≤ nextRootId cursor last' ∧
      (txs ≠ [] → nextRootId cursor last < nextRootId cursor last') := by
  induction txs generalizing pending last with
  | nil =>
    obtain ⟨rfl, rfl⟩ := Prod.mk.inj (Except.ok.inj hconsume)
    exact ⟨h, le_rfl, fun hne => absurd rfl hne⟩
  | cons tx txs ih =>
    obtain ⟨roots, id, rfl⟩ := himports tx mem_cons_self
    obtain ⟨⟨lastLogId, rest'⟩, himport, hconsume⟩ := bind_eq_ok.mp hconsume
    obtain ⟨hrest, hle⟩ := h.consumeImport himport
    have hrest : AheadOf (nextRootId cursor (some lastLogId)) rest' := hrest
    obtain ⟨hahead, hmono, -⟩ := ih (fun tx htx => himports tx (mem_cons_of_mem _ htx)) hrest hconsume
    have hlt : nextRootId cursor last < nextRootId cursor last' := lt_of_lt_of_le (Nat.lt_succ_of_le hle) hmono
    exact ⟨hahead, hlt.le, fun _ => hlt⟩

theorem interopTxs_imports (txs : List ZkTransaction) :
    ∀ tx ∈ interopTxs txs, ∃ roots id, tx = .importInteropRoots roots id := by
  intro tx htx
  obtain ⟨a, -, ha⟩ := mem_filterMap.mp htx
  split at ha
  · exact ⟨_, _, (Option.some.inj ha).symm⟩
  · cases ha

theorem interopFee_lenient (this : InteropFeeSubpool) (txs : List ZkTransaction) :
    ∃ left, this.onCanonicalStateChange (interopFeeTxs txs) false = .ok left := by
  have hnumbers : ∀ tx ∈ interopFeeTxs txs, ∃ number, interopFeeNumber tx = .ok number := by
    intro tx htx
    obtain ⟨a, -, ha⟩ := mem_filterMap.mp htx
    split at ha
    · obtain rfl := Option.some.inj ha
      exact ⟨_, rfl⟩
    · cases ha
  obtain ⟨numbers, hnumbers⟩ := exists_mapM_eq_ok hnumbers
  exact ⟨_, by rw [InteropFeeSubpool.onCanonicalStateChange, if_neg (by simp), hnumbers]; rfl⟩

theorem onCanonicalStateChange_eq_ok {this : Pool} {record : ReplayRecord ZkTransaction} {delivered : Nat}
    {strictSubpoolCleanup : Bool} {left : StateChangeOutcome × Pool} :
    this.onCanonicalStateChange record delivered strictSubpoolCleanup = .ok left ↔
      this.upgrades.onCanonicalStateChange record.protocolVersion (upgradeTxs record.transactions) delivered =
          .ok left.2.upgrades ∧ consumeRoots this.interopRoots none (interopTxs record.transactions) =
          .ok (left.1.lastInteropLogId, left.2.interopRoots) ∧
        this.interopFee.onCanonicalStateChange (interopFeeTxs record.transactions) strictSubpoolCleanup =
          .ok (left.1.lastInteropFeeNumber, left.2.interopFee) ∧
        consumeL1 this.l1 (l1Txs record.transactions) = .ok left.2.l1 ∧
        left.1.lastL1PriorityId = (l1Txs record.transactions).getLast?.map (·.priorityId) := by
  rw [Pool.onCanonicalStateChange]
  constructor
  · intro h
    obtain ⟨upgrades, hupgrades, h⟩ := bind_eq_ok.mp h
    obtain ⟨⟨lastLogId, roots⟩, hroots, h⟩ := bind_eq_ok.mp h
    obtain ⟨⟨number, fee⟩, hfee, h⟩ := bind_eq_ok.mp h
    obtain ⟨l1, hl1, h⟩ := bind_eq_ok.mp h
    obtain rfl := pure_eq_ok.mp h
    exact ⟨hupgrades, hroots, hfee, hl1, rfl⟩
  · rintro ⟨hupgrades, hroots, hfee, hl1, hlast⟩
    dsimp only
    rw [hupgrades, ok_bind, hroots, ok_bind, hfee, ok_bind, hl1, ok_bind, ← hlast]
    rfl

end Mempool
