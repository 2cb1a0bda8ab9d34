import ZksyncOsServer.Mempool.Subpools

/-!
# Upgrades on their way into blocks

`insert` and `UpgradeInfoStream` of `mempool/src/subpools/upgrade.rs` while blocks are produced. A block
opens a stream, `best_transactions_stream` waits until an upgrade or some other source has a transaction,
the block is built from what was served and then reported to `on_canonical_state_change`. Upgrades are
inserted at any time in between, also while the report runs.
-/
namespace Mempool

open BlockExecutor (UpgradeMetadata producedVersion versionLt)
open Fallible List UpgradeSubpool
open ProverApi (ProtocolSemanticVersion)
open Run
open Types (Bytes L1UpgradeEnvelope)

namespace UpgradeStream

/-- `StreamState`; an open stream comes with the slot of its channel. -/
inductive StreamState where
  | empty (slot : Option UpgradeInfo)
  | pending (upgrade : UpgradeInfo)
  | closed
  deriving DecidableEq

def StreamState.pollNext : StreamState → Option UpgradeInfo × StreamState
  | .empty none => (none, .empty none)
  | .empty (some upgrade) => (some upgrade, .closed)
  | .pending upgrade => (some upgrade, .closed)
  | .closed => (none, .closed)

/-- Where the block producer is. -/
inductive Phase where
  | idle
  | picking (stream : StreamState) (upgradeMetadata : Option UpgradeInfo)
  | building (served : Option UpgradeInfo)
  deriving DecidableEq

structure Block where
  protocolVersion : ProtocolSemanticVersion
  upgradeTxs : List L1UpgradeEnvelope
  trackedVersion : ProtocolSemanticVersion
  deriving DecidableEq

structure State where
  subpool : UpgradeSubpool
  sender : Bool
  phase : Phase
  lastVersion : ProtocolSemanticVersion
  inserted : List UpgradeInfo
  blocks : List Block
  stopped : Option Stop

/-- The subpool after `init`. -/
def start (initial : ProtocolSemanticVersion) : State where
  subpool := ⟨initial, []⟩
  sender := false
  phase := .idle
  lastVersion := initial
  inserted := []
  blocks := []
  stopped := none

/-- `pending_upgrades.push_front`; the queue is kept with its oldest upgrade first. -/
def State.push (s : State) (upgrades : List UpgradeInfo) : State :=
  { s with
    subpool := { s.subpool with pendingUpgrades := s.subpool.pendingUpgrades ++ upgrades }
    inserted := s.inserted ++ upgrades }

def State.insert (s : State) (upgrade : UpgradeInfo) : State :=
  if s.sender then
    match s.phase with
    | .picking (.empty none) upgradeMetadata =>
      { s with phase := .picking (.empty (some upgrade)) upgradeMetadata }.push [upgrade]
    -- The slot is taken: `send` waits until the stream is polled or dropped.
    | .picking (.empty (some _)) _ => s
    -- The receiver has been dropped.
    | _ => { s with sender := false }.push [upgrade]
  else s.push [upgrade]

def State.upgradeInfoStream (s : State) : State :=
  { s with
    sender := true
    phase := .picking (match s.subpool.pendingUpgrades with
      | upgrade :: _ => .pending upgrade
      | [] => .empty none) none }

/-- The upgrade branch of `best_transactions_stream`; a patch upgrade leaves the choice of the
transactions to the other sources. -/
def State.pollUpgrade (s : State) (stream : StreamState) (upgradeMetadata : Option UpgradeInfo) : State :=
  match stream.pollNext with
  | (some upgrade, stream) =>
    { s with phase := if upgrade.tx.isSome then .building (some upgrade) else .picking stream (some upgrade) }
  | (none, stream) => { s with phase := .picking stream upgradeMetadata }

def takenVersion (previous : ProtocolSemanticVersion) (served : Option UpgradeInfo) : ProtocolSemanticVersion :=
  match served with
  | some upgrade => if versionLt previous upgrade.protocolVersion then upgrade.protocolVersion else previous
  | none => previous

/-- The block is reported; the given upgrades are inserted after the report has looked at the queue. -/
def State.report (s : State) (served : Option UpgradeInfo) (late : List UpgradeInfo) : State :=
  let delivered := s.subpool.pendingUpgrades.length
  let version := takenVersion s.lastVersion served
  let upgradeTxs := (served.bind (·.tx)).toList
  let s := s.push late
  match s.subpool.onCanonicalStateChange version upgradeTxs delivered with
  | .ok subpool =>
    { s with
      subpool
      phase := .idle
      lastVersion := version
      blocks := s.blocks ++ [⟨version, upgradeTxs, subpool.currentProtocolVersion⟩] }
  | .error stop => { s with stopped := some stop }

inductive Event where
  | insert (upgrade : UpgradeInfo)
  /-- The producer asks for transactions. -/
  | openStream
  | poll
  /-- Another source has a transaction. -/
  | otherSource
  /-- The block is complete and gets reported. -/
  | report (late : List UpgradeInfo)
  deriving DecidableEq

def step (s : State) (event : Event) : State :=
  if s.stopped.isSome then s
  else match event, s.phase with
    | .insert upgrade, _ => s.insert upgrade
    | .openStream, .idle => s.upgradeInfoStream
    | .poll, .picking stream upgradeMetadata => s.pollUpgrade stream upgradeMetadata
    | .otherSource, .picking _ upgradeMetadata => { s with phase := .building upgradeMetadata }
    | .report late, .building served => s.report served late
    | _, _ => s

/-- The upgrades that an event inserts, unless `insert` waits for the slot of the channel. -/
def inserts (s : State) (event : Event) : List UpgradeInfo :=
  if s.stopped.isSome then []
  else match event, s.sender, s.phase with
    | .insert _, true, .picking (.empty (some _)) _ => []
    | .insert upgrade, _, _ => [upgrade]
    | .report late, _, .building _ => late
    | _, _, _ => []

/-! ### The order of versions -/

theorem versionLt_irrefl (version : ProtocolSemanticVersion) : versionLt version version = false := by
  simp [versionLt]

variable {a b : ProtocolSemanticVersion} {late pending : List UpgradeInfo}

theorem versionLt_trans {c : ProtocolSemanticVersion} (hab : versionLt a b = true) (hbc : versionLt b c = true) :
    versionLt a c = true := by
  simp only [versionLt, Bool.or_eq_true, Bool.and_eq_true, decide_eq_true_eq] at *
  omega

theorem ne_of_versionLt (h : versionLt a b = true) : b ≠ a := by
  rintro rfl
  simp [versionLt_irrefl] at h

theorem versionLt_false_trans {c : ProtocolSemanticVersion} (hab : versionLt b a = false) (hbc : versionLt b c = true) :
    versionLt c a = false := by
  cases hca : versionLt c a with
  | false => rfl
  | true => exact absurd (versionLt_trans hbc hca) (by simp [hab])

/-! ### What a report leaves -/

section Report

variable {current : ProtocolSemanticVersion} {upgrade : UpgradeInfo} {pending late : List UpgradeInfo}

theorem report_none (this : UpgradeSubpool) (delivered : Nat) :
    this.onCanonicalStateChange this.currentProtocolVersion [] delivered = .ok this := by
  simp [onCanonicalStateChange, pure, Except.pure]

theorem retain_eq_self {this : UpgradeSubpool} (delivered : Nat)
    (h : ∀ upgrade ∈ this.pendingUpgrades, unreliable upgrade.protocolVersion = false) :
    this.retain delivered = this := by
  have hfilter : (this.pendingUpgrades.take delivered).filter (!unreliable ·.protocolVersion) =
      this.pendingUpgrades.take delivered :=
    filter_eq_self.mpr fun upgrade hmem => by simp [h upgrade (mem_of_mem_take hmem)]
  rw [retain, hfilter, take_append_drop]

theorem report_served (delivered : Nat) (hlt : versionLt current upgrade.protocolVersion = true)
    (hreliable : ∀ known ∈ upgrade :: pending, unreliable known.protocolVersion = false) :
    onCanonicalStateChange ⟨current, upgrade :: pending⟩ upgrade.protocolVersion
      upgrade.tx.toList delivered = .ok ⟨upgrade.protocolVersion, pending⟩ := by
  have hne := ne_of_versionLt hlt
  have hadvanced : advance upgrade.protocolVersion upgrade.protocolVersion pending =
      .ok ⟨upgrade.protocolVersion, pending⟩ := by
    cases pending <;> simp [advance]
  rw [onCanonicalStateChange, if_neg (fun h => hne h.2)]
  dsimp only
  rw [retain_eq_self delivered hreliable, if_neg (by simp [hreliable upgrade mem_cons_self])]
  cases htx : upgrade.tx with
  | some tx =>
    have hconsumed : consumeTxs ⟨current, upgrade :: pending⟩ [tx] = .ok ⟨upgrade.protocolVersion, pending⟩ := by
      simp [consumeTxs, popTx, htx, assertEq, ok_bind, require_pos]
    rw [Option.toList_some, hconsumed, ok_bind, hadvanced]
  | none =>
    rw [Option.toList_none, consumeTxs, ok_bind, advance, if_neg hne.symm, if_pos hlt,
      if_neg (by simp [htx]), hadvanced]

end Report

/-! ### One queue in three views -/

variable {initial : ProtocolSemanticVersion} {s : State}

/-- The new upgrades continue the sequence: versions increase, from above the initial one, and their logs
are reliable. -/
structure Follows (initial : ProtocolSemanticVersion) (inserted late : List UpgradeInfo) : Prop where
  increasing : (inserted ++ late).Pairwise fun a b => versionLt a.protocolVersion b.protocolVersion = true
  above : ∀ upgrade ∈ late, versionLt initial upgrade.protocolVersion = true
  reliable : ∀ upgrade ∈ late, UpgradeSubpool.unreliable upgrade.protocolVersion = false

instance (initial : ProtocolSemanticVersion) (inserted late : List UpgradeInfo) : Decidable (Follows initial inserted late) :=
  decidable_of_iff (_ ∧ _ ∧ _) ⟨fun ⟨h, h', h''⟩ => ⟨h, h', h''⟩, fun ⟨h, h', h''⟩ => ⟨h, h', h''⟩⟩

/-- Upgrades are inserted in the order of their versions. -/
def Ordered (initial : ProtocolSemanticVersion) (s : State) : Event → Prop
  | .insert upgrade => Follows initial s.inserted [upgrade]
  | .report late => Follows initial s.inserted late
  | _ => True

instance (initial : ProtocolSemanticVersion) (s : State) : DecidablePred (Ordered initial s) := fun event => by
  unfold Ordered
  split <;> infer_instance

/-- What the blocks made of the upgrades so far. -/
structure InStep (initial : ProtocolSemanticVersion) (s : State) : Prop where
  running : s.stopped = none
  monotone : (initial :: s.blocks.map (·.protocolVersion)).Pairwise fun a b => versionLt b a = false
  tracked : ∀ block ∈ s.blocks, block.trackedVersion = block.protocolVersion
  executed : s.blocks.flatMap (·.upgradeTxs) <+: s.inserted.filterMap (·.tx)

def Phase.Serves (sender : Bool) (pending : List UpgradeInfo) : Phase → Prop
  | .idle => True
  | .picking (.empty none) upgradeMetadata => sender = true ∧ pending = [] ∧ upgradeMetadata = none
  | .picking (.empty (some upgrade)) upgradeMetadata => pending.head? = some upgrade ∧ upgradeMetadata = none
  | .picking (.pending upgrade) upgradeMetadata => pending.head? = some upgrade ∧ upgradeMetadata = none
  | .picking .closed upgradeMetadata => ∀ upgrade ∈ upgradeMetadata, pending.head? = some upgrade
  | .building served => ∀ upgrade ∈ served, pending.head? = some upgrade

/-- The queue is what no block has consumed yet, and all of it is above the last block. -/
structure Inv (initial : ProtocolSemanticVersion) (s : State) : Prop where
  inStep : InStep initial s
  current : s.subpool.currentProtocolVersion = s.lastVersion
  consumed : ∃ consumed, s.inserted = consumed ++ s.subpool.pendingUpgrades ∧
    s.blocks.flatMap (·.upgradeTxs) = consumed.filterMap (·.tx)
  last : s.lastVersion = initial ∨ ∃ upgrade ∈ s.inserted, upgrade.protocolVersion = s.lastVersion
  top : ∀ version ∈ initial :: s.blocks.map (·.protocolVersion), versionLt s.lastVersion version = false
  ahead : ∀ upgrade ∈ s.subpool.pendingUpgrades, versionLt s.lastVersion upgrade.protocolVersion = true
  increasing : s.inserted.Pairwise fun a b => versionLt a.protocolVersion b.protocolVersion = true
  reliable : ∀ upgrade ∈ s.inserted, UpgradeSubpool.unreliable upgrade.protocolVersion = false
  serves : s.phase.Serves s.sender s.subpool.pendingUpgrades

theorem inv_start (initial : ProtocolSemanticVersion) : Inv initial (start initial) where
  inStep := ⟨rfl, pairwise_singleton _ _, forall_mem_nil _, List.nil_prefix⟩
  current := rfl
  consumed := ⟨[], rfl, rfl⟩
  last := .inl rfl
  top := by simp [start, versionLt_irrefl]
  ahead := forall_mem_nil _
  increasing := List.Pairwise.nil
  reliable := forall_mem_nil _
  serves := trivial

/-- Later upgrades join the end of the queue; what has been served stays its first one. -/
theorem Inv.push (h : Inv initial s) (sender : Bool) (phase : Phase)
    (hlate : Follows initial s.inserted late) (hphase : phase.Serves sender (s.subpool.pendingUpgrades ++ late)) :
    Inv initial ({ s with sender, phase }.push late) where
  inStep := by
    refine ⟨h.inStep.running, h.inStep.monotone, h.inStep.tracked, h.inStep.executed.trans ?_⟩
    change _ <+: (s.inserted ++ late).filterMap (·.tx)
    rw [filterMap_append]
    exact prefix_append _ _
  current := h.current
  consumed := by
    obtain ⟨consumed, hinserted, hexecuted⟩ := h.consumed
    exact ⟨consumed, by simp [State.push, hinserted], hexecuted⟩
  last := h.last.imp_right fun ⟨upgrade, hmem, hversion⟩ => ⟨upgrade, mem_append_left _ hmem, hversion⟩
  top := h.top
  ahead := by
    intro upgrade hmem
    rcases mem_append.mp hmem with hmem | hmem
    · exact h.ahead upgrade hmem
    · change versionLt s.lastVersion upgrade.protocolVersion = true
      rcases h.last with hlast | ⟨known, hknown, hlast⟩
      · rw [hlast]
        exact hlate.above upgrade hmem
      · rw [← hlast]
        exact (pairwise_append.mp hlate.increasing).2.2 known hknown upgrade hmem
  increasing := hlate.increasing
  reliable := fun upgrade hmem => (mem_append.mp hmem).elim (h.reliable upgrade) (hlate.reliable upgrade)
  serves := hphase

theorem Phase.Serves.append {sender : Bool} {phase : Phase} (late : List UpgradeInfo)
    (h : phase.Serves sender pending) (hopen : ∀ metadata, phase ≠ .picking (.empty none) metadata) :
    phase.Serves false (pending ++ late) := by
  have hhead : ∀ upgrade, pending.head? = some upgrade → (pending ++ late).head? = some upgrade := by
    intro upgrade hupgrade
    rw [head?_append, hupgrade]
    rfl
  match phase, h with
  | .idle, _ => trivial
  | .picking (.empty none) metadata, _ => exact absurd rfl (hopen metadata)
  | .picking (.empty (some upgrade)) _, h => exact ⟨hhead upgrade h.1, h.2⟩
  | .picking (.pending upgrade) _, h => exact ⟨hhead upgrade h.1, h.2⟩
  | .picking .closed _, h => exact fun upgrade hmem => hhead upgrade (h upgrade hmem)
  | .building _, h => exact fun upgrade hmem => hhead upgrade (h upgrade hmem)

section
variable (h : Inv initial s)
include h

theorem Inv.phase (sender : Bool) (phase : Phase)
    (hphase : phase.Serves sender s.subpool.pendingUpgrades) : Inv initial { s with sender, phase } :=
  { h with
    inStep := ⟨h.inStep.running, h.inStep.monotone, h.inStep.tracked, h.inStep.executed⟩
    serves := hphase }

theorem Inv.insert {upgrade : UpgradeInfo} (hnext : Follows initial s.inserted [upgrade]) :
    Inv initial (s.insert upgrade) := by
  have hserves := h.serves
  rw [State.insert]
  split
  · split
    next upgradeMetadata hphase =>
      rw [hphase] at hserves
      obtain ⟨-, hpending, hmetadata⟩ := hserves
      exact h.push s.sender (.picking (.empty (some upgrade)) upgradeMetadata) hnext ⟨by rw [hpending]; rfl, hmetadata⟩
    · exact h
    next hopen _ =>
      exact h.push false s.phase hnext (hserves.append [upgrade] hopen)
  next hsender =>
    have hsender : s.sender = false := Bool.eq_false_iff.mpr hsender
    have hopen : ∀ metadata, s.phase ≠ .picking (.empty none) metadata := by
      intro metadata hphase
      rw [hphase] at hserves
      exact Bool.false_ne_true (hsender.symm.trans hserves.1)
    exact h.push s.sender s.phase hnext (hsender ▸ hserves.append [upgrade] hopen)

theorem Inv.upgradeInfoStream : Inv initial s.upgradeInfoStream := by
  refine h.phase true _ ?_
  cases hpending : s.subpool.pendingUpgrades with
  | nil => exact ⟨rfl, rfl, rfl⟩
  | cons upgrade pending => exact ⟨rfl, rfl⟩

theorem Inv.pollUpgrade {stream : StreamState} {upgradeMetadata : Option UpgradeInfo}
    (hphase : s.phase = .picking stream upgradeMetadata) : Inv initial (s.pollUpgrade stream upgradeMetadata) := by
  have hserves := h.serves
  rw [hphase] at hserves
  have hserved : ∀ upgrade, s.subpool.pendingUpgrades.head? = some upgrade →
      (if upgrade.tx.isSome then Phase.building (some upgrade) else .picking .closed (some upgrade)).Serves
        s.sender s.subpool.pendingUpgrades := by
    intro upgrade hhead
    split
    · exact fun served hmem => Option.some.inj hmem ▸ hhead
    · exact fun served hmem => Option.some.inj hmem ▸ hhead
  match stream, hserves with
  | .empty none, hserves => exact h.phase s.sender _ hserves
  | .empty (some upgrade), hserves => exact h.phase s.sender _ (hserved upgrade hserves.1)
  | .pending upgrade, hserves => exact h.phase s.sender _ (hserved upgrade hserves.1)
  | .closed, hserves => exact h.phase s.sender _ hserves

theorem Inv.otherSource {stream : StreamState} {upgradeMetadata : Option UpgradeInfo}
    (hphase : s.phase = .picking stream upgradeMetadata) : Inv initial { s with phase := .building upgradeMetadata } := by
  have hserves := h.serves
  rw [hphase] at hserves
  refine h.phase s.sender _ ?_
  match stream, hserves with
  | .empty none, hserves => exact hserves.2.2 ▸ nofun
  | .empty (some upgrade), hserves => exact hserves.2 ▸ nofun
  | .pending upgrade, hserves => exact hserves.2 ▸ nofun
  | .closed, hserves => exact hserves

theorem Inv.block {version : ProtocolSemanticVersion}
    (served : List UpgradeInfo) (hpending : s.subpool.pendingUpgrades = served ++ pending)
    (hversion : versionLt s.lastVersion version = true ∧ (∃ upgrade ∈ served, upgrade.protocolVersion = version) ∨
      s.lastVersion = version) (hahead : ∀ upgrade ∈ pending, versionLt version upgrade.protocolVersion = true) :
    Inv initial { s with
      subpool := ⟨version, pending⟩
      phase := .idle
      lastVersion := version
      blocks := s.blocks ++ [⟨version, served.filterMap (·.tx), version⟩] } := by
  obtain ⟨consumed, hinserted, hexecuted⟩ := h.consumed
  have hsplit : s.inserted = (consumed ++ served) ++ pending := by rw [hinserted, hpending, append_assoc]
  have hblocks : (s.blocks ++ [Block.mk version (served.filterMap (·.tx)) version]).flatMap (·.upgradeTxs) =
      (consumed ++ served).filterMap (·.tx) := by
    rw [flatMap_append, hexecuted, filterMap_append]
    simp
  -- No earlier block is above the new one.
  have htop : ∀ known ∈ initial :: s.blocks.map (·.protocolVersion), versionLt version known = false := by
    intro known hknown
    rcases hversion with ⟨hlt, -⟩ | rfl
    · exact versionLt_false_trans (h.top known hknown) hlt
    · exact h.top known hknown
  refine ⟨⟨h.inStep.running, ?_, ?_, ?_⟩, rfl, ⟨consumed ++ served, hsplit, hblocks⟩, ?_, ?_, hahead, h.increasing,
    h.reliable, trivial⟩
  · rw [map_append, ← cons_append, pairwise_append]
    refine ⟨h.inStep.monotone, pairwise_singleton _ _, fun known hknown new hnew => ?_⟩
    obtain rfl := mem_singleton.mp hnew
    exact htop known hknown
  · intro block hblock
    rcases mem_append.mp hblock with hblock | hblock
    · exact h.inStep.tracked block hblock
    · obtain rfl := mem_singleton.mp hblock
      rfl
  · rw [hblocks, hsplit]
    exact (prefix_append _ _).filterMap _
  · rcases hversion with ⟨-, upgrade, hmem, rfl⟩ | rfl
    · exact .inr ⟨upgrade, by rw [hsplit]; simp [hmem], rfl⟩
    · exact h.last
  · intro known hknown
    rw [map_append, ← cons_append] at hknown
    rcases mem_append.mp hknown with hknown | hknown
    · exact htop known hknown
    · obtain rfl := mem_singleton.mp hknown
      exact versionLt_irrefl _

end

theorem report_eq {served : Option UpgradeInfo} {version : ProtocolSemanticVersion} (hversion : takenVersion s.lastVersion served = version)
    (h : (s.push late).subpool.onCanonicalStateChange version (served.bind (·.tx)).toList
      s.subpool.pendingUpgrades.length = .ok ⟨version, pending⟩) :
    s.report served late = { s.push late with
      subpool := ⟨version, pending⟩
      phase := .idle
      lastVersion := version
      blocks := s.blocks ++ [⟨version, served.toList.filterMap (·.tx), version⟩] } := by
  have htxs : served.toList.filterMap (·.tx) = (served.bind (·.tx)).toList := by
    cases served with
    | none => rfl
    | some upgrade => cases htx : upgrade.tx <;> simp [htx]
  rw [State.report, hversion, h, htxs]
  rfl

theorem Inv.report {served : Option UpgradeInfo} (h : Inv initial s)
    (hphase : s.phase = .building served) (hlate : Follows initial s.inserted late) :
    Inv initial (s.report served late) := by
  have hserves : ∀ upgrade ∈ served, s.subpool.pendingUpgrades.head? = some upgrade := by
    have hserves := h.serves
    rwa [hphase] at hserves
  have hhead : ∀ upgrade ∈ served, (s.subpool.pendingUpgrades ++ late).head? = some upgrade := by
    intro upgrade hmem
    rw [head?_append, hserves upgrade hmem]
    rfl
  have hpushed : Inv initial (s.push late) := h.push s.sender s.phase hlate (hphase ▸ hhead)
  have hsubpool : (s.push late).subpool = ⟨s.lastVersion, s.subpool.pendingUpgrades ++ late⟩ := by
    rw [← h.current]
    rfl
  cases served with
  | none =>
    have hreport : (s.push late).subpool.onCanonicalStateChange s.lastVersion [] s.subpool.pendingUpgrades.length =
        .ok ⟨s.lastVersion, s.subpool.pendingUpgrades ++ late⟩ := by
      rw [hsubpool]
      exact report_none ⟨s.lastVersion, s.subpool.pendingUpgrades ++ late⟩ _
    have htaken : takenVersion s.lastVersion none = s.lastVersion := rfl
    rw [report_eq htaken hreport]
    exact hpushed.block [] rfl (.inr rfl) hpushed.ahead
  | some upgrade =>
    obtain ⟨pending, hpending⟩ := head?_eq_some_iff.mp (hhead upgrade rfl)
    rw [hpending] at hsubpool
    have hlt : versionLt s.lastVersion upgrade.protocolVersion = true :=
      h.ahead upgrade (mem_of_head? (hserves upgrade rfl))
    obtain ⟨consumed, hinserted, -⟩ := hpushed.consumed
    rw [hsubpool] at hinserted
    have hreliable : ∀ known ∈ upgrade :: pending, unreliable known.protocolVersion = false := by
      intro known hknown
      refine hpushed.reliable known ?_
      rw [hinserted]
      exact mem_append_right _ hknown
    have hqueue : (upgrade :: pending).Pairwise fun a b => versionLt a.protocolVersion b.protocolVersion = true := by
      have hincreasing := hpushed.increasing
      rw [hinserted] at hincreasing
      exact (pairwise_append.mp hincreasing).2.1
    have hreport : (s.push late).subpool.onCanonicalStateChange upgrade.protocolVersion upgrade.tx.toList
        s.subpool.pendingUpgrades.length = .ok ⟨upgrade.protocolVersion, pending⟩ := by
      rw [hsubpool]
      exact report_served _ hlt hreliable
    have htaken : takenVersion s.lastVersion (some upgrade) = upgrade.protocolVersion := if_pos hlt
    rw [report_eq htaken hreport]
    exact hpushed.block [upgrade] hpending (.inl ⟨hlt, upgrade, mem_singleton_self _, rfl⟩)
      (pairwise_cons.mp hqueue).1

theorem inv_step (s : State) (event : Event) (h : Inv initial s) (hordered : Ordered initial s event) :
    Inv initial (step s event) := by
  unfold step
  rw [if_neg (by simp [h.inStep.running])]
  split
  · exact h.insert hordered
  · exact h.upgradeInfoStream
  next hphase =>
    exact h.pollUpgrade hphase
  next hphase =>
    exact h.otherSource hphase
  next hphase =>
    exact h.report hphase hordered
  · exact h

theorem inserted_step (s : State) (event : Event) : (step s event).inserted = s.inserted ++ inserts s event := by
  unfold step inserts State.insert State.upgradeInfoStream State.pollUpgrade State.report State.push
  grind

/-- Serving, inserting and consuming upgrades stay in step: no report fails, versions never decrease, the
subpool tracks the version of every block, and the upgrade transactions are executed once and in order. -/
theorem upgrades_stay_in_step (initial : ProtocolSemanticVersion) (events : List Event)
    (h : Steps step (Ordered initial) (start initial) events) :
    States step (InStep initial) (start initial) events ∧
      (events.foldl step (start initial)).inserted = collect step inserts (start initial) events :=
  ⟨(Steps.invariant inv_step (inv_start initial) h).imp fun _ h => h.inStep, eq_collect inserted_step rfl⟩

/-- A minor upgrade that arrives while a stream is open, and two patch upgrades that are pending together. -/
def sampleEvents : List Event :=
  [.openStream, .insert ⟨none, ⟨0, 30, 2⟩⟩, .insert ⟨none, ⟨0, 30, 3⟩⟩, .poll, .insert ⟨none, ⟨0, 30, 3⟩⟩, .otherSource,
    .report [⟨some ⟨7, 1⟩, ⟨0, 31, 0⟩⟩], .openStream, .poll, .otherSource, .report [], .openStream, .poll, .report []]

theorem minor_and_patch_upgrades_stay_in_step :
    (sampleEvents.foldl step (start ⟨0, 30, 1⟩)).blocks =
        [⟨⟨0, 30, 2⟩, [], ⟨0, 30, 2⟩⟩, ⟨⟨0, 30, 3⟩, [], ⟨0, 30, 3⟩⟩, ⟨⟨0, 31, 0⟩, [⟨7, 1⟩], ⟨0, 31, 0⟩⟩] ∧
      States step (InStep ⟨0, 30, 1⟩) (start ⟨0, 30, 1⟩) sampleEvents :=
  ⟨by decide +kernel, (upgrades_stay_in_step _ _ (by decide +kernel)).1⟩

end UpgradeStream

end Mempool
