import ZksyncOsServer.Replay.Archive

/-!
# Applying Raft entries across crashes

`raft/src/state_machine.rs` with the processes around it: OpenRaft passes the committed
entries on one after the other, `apply` saves the log id of a block and then sends its record
down the pipeline, and `BlockApplier` writes the records to the replay log in order. A restart
loses everything but the tables and the replay log, and OpenRaft goes on after the log id that
`applied_state` returns. The log id of an entry is its index.
-/
namespace Raft

open Fallible List Replay
open MerkleTree (B256)

/-! ### The state machine store -/

inductive EntryPayload (T M : Type) where
  | blank
  | normal (record : ReplayRecord T)
  | membership (membership : M)
  deriving DecidableEq

structure RaftStateMachineStore (M : Type) where
  raftApplied : Nat → Option Nat
  lastMembership : Option (Nat × M)

inductive BlockCommandType where
  | replay
  | produce
  | rebuild
  deriving DecidableEq

variable {T M : Type}

def number (record : ReplayRecord T) : Nat := record.blockContext.blockNumber

namespace RaftStateMachineStore

/-- `applied_state`: the log id of the latest block of the replay log. -/
def appliedState (this : RaftStateMachineStore M) (wal : BlockReplayStorage T) :
    Except String (Option Nat × Option (Nat × M)) := do
  let latestWalBlock ← wal.latestRecord
  return (this.raftApplied latestWalBlock, this.lastMembership)

def saveBlockLogId (this : RaftStateMachineStore M) (blockNumber logId : Nat) : RaftStateMachineStore M :=
  { this with raftApplied := putCf this.raftApplied blockNumber logId }

end RaftStateMachineStore

/-! ### The node -/

structure Node (T M : Type) where
  wal : BlockReplayStorage T
  store : RaftStateMachineStore M
  committed : List (EntryPayload T M)
  /-- The entry that OpenRaft passes to `apply` next. -/
  next : Nat
  /-- The record that `apply` has saved the log id for and is about to send. -/
  sending : Option (Nat × ReplayRecord T)
  /-- The records on their way to the replay log, with their log ids. -/
  channel : List (Nat × ReplayRecord T)

inductive Event (T M : Type) where
  | commit (entry : EntryPayload T M)
  /-- `apply` takes the next entry, up to the point where it sends. -/
  | apply
  | send
  /-- `BlockApplier` gets the next record, as executed by this node. -/
  | persist (nodeVersion : String) (hash : B256) (commandType : BlockCommandType)
  | restart

namespace Node

def apply (s : Node T M) : Node T M :=
  match s.sending, s.committed[s.next]? with
  | none, some .blank => { s with next := s.next + 1 }
  | none, some (.normal record) =>
    { s with store := s.store.saveBlockLogId (number record) s.next, sending := some (s.next, record) }
  | none, some (.membership membership) =>
    { s with store := { s.store with lastMembership := some (s.next, membership) }, next := s.next + 1 }
  | _, _ => s

def send (s : Node T M) : Node T M :=
  match s.sending with
  | some sent => { s with next := s.next + 1, sending := none, channel := s.channel ++ [sent] }
  | none => s

/-- Nothing but the tables and the replay log is left. -/
def restart (s : Node T M) : Node T M :=
  match s.store.appliedState s.wal with
  | .ok (lastApplied, _) => { s with next := lastApplied.elim 0 (· + 1), sending := none, channel := [] }
  | .error _ => s

/-- A fresh cluster over an existing replay log. -/
def start (wal : BlockReplayStorage T) : Node T M where
  wal
  store := ⟨fun _ => none, none⟩
  committed := []
  next := 0
  sending := none
  channel := []

/-- The records that are saved as applied and not yet handled by `BlockApplier`. -/
def inFlight (s : Node T M) : List (Nat × ReplayRecord T) := s.channel ++ s.sending.toList

def Holds (wal : BlockReplayStorage T) (record : ReplayRecord T) : Prop :=
  ∃ nodeVersion, HasRow wal (.number (number record)) { record with nodeVersion }

def Superseded (committed : List (EntryPayload T M)) (logId : Nat) (record : ReplayRecord T) : Prop :=
  ∃ later record', logId < later ∧ committed[later]? = some (.normal record') ∧ number record' = number record

/-- If the node stops now, the entry is not lost: it is in the replay log or superseded, or it
is applied again. -/
def Kept (s : Node T M) (logId : Nat) (record : ReplayRecord T) : Prop :=
  Holds s.wal record ∨ Superseded s.committed logId record ∨ s.restart.next ≤ logId

/-- A restart succeeds and skips no committed record. -/
def NoneSkipped (s : Node T M) : Prop :=
  (∃ state, s.store.appliedState s.wal = .ok state) ∧
    ∀ logId record, s.committed[logId]? = some (.normal record) → s.Kept logId record

/-- The latest block of the replay log is not being rebuilt. -/
def LatestSettled (s : Node T M) : Prop :=
  ∀ n, s.wal.latest = some (.number n) → ∀ sent ∈ s.inFlight, number sent.2 ≠ n

/-- A condition on the states in which the node stops. -/
def OnRestart (Q : Node T M → Prop) (s : Node T M) : Event T M → Prop
  | .restart => Q s
  | _ => True

/-- A record at or below the latest block is written with permission to override, unless it is there already. -/
def RebuiltOverride (s : Node T M) : Event T M → Prop
  | .persist _ _ commandType => ∀ logId record, (logId, record) ∈ s.channel.head? →
    ∀ latest, s.wal.latest = some (.number latest) → number record ≤ latest →
      commandType = .rebuild ∨ Holds s.wal record
  | _ => True

section Step
variable [DecidableEq T]

/-- `BlockApplier` on a main node; a failed write stops it. -/
def persist (s : Node T M) (nodeVersion : String) (hash : B256) (commandType : BlockCommandType) : Node T M :=
  match s.channel with
  | [] => s
  | (_, record) :: channel =>
    match s.wal.write { record with nodeVersion, hash } (commandType = .rebuild) with
    | .ok (_, wal) => { s with wal, channel }
    | .error _ => s

def step (s : Node T M) : Event T M → Node T M
  | .commit entry => { s with committed := s.committed ++ [entry] }
  | .apply => s.apply
  | .send => s.send
  | .persist nodeVersion hash commandType => s.persist nodeVersion hash commandType
  | .restart => s.restart

end Step

/-! ### The invariant -/

/-- Past the entries that are saved as applied. -/
def top (s : Node T M) : Nat := s.next + s.sending.toList.length

/-- The entries below `low` have been handled by `BlockApplier`; those from there on are in flight. -/
structure Inv (low : Nat) (s : Node T M) : Prop where
  stores : ∃ log, log ≠ [] ∧ Stores s.wal log
  low_le : low ≤ s.top
  top_le : s.top ≤ s.committed.length
  sending : ∀ logId record, s.sending = some (logId, record) → logId = s.next
  sorted : s.inFlight.Pairwise fun a b => a.1 < b.1
  inFlight : ∀ logId record, (logId, record) ∈ s.inFlight ↔
    low ≤ logId ∧ logId < s.top ∧ s.committed[logId]? = some (.normal record)
  handled : ∀ logId record, logId < low → s.committed[logId]? = some (.normal record) →
    Holds s.wal record ∨ Superseded s.committed logId record
  applied : ∀ n logId, s.store.raftApplied n = some logId →
    s.wal.latest = some (.number n) ∨ (∃ sent ∈ s.inFlight, number sent.2 = n) →
    logId < low ∨ ∃ record, (logId, record) ∈ s.inFlight ∧ number record = n

theorem inv_start {wal : BlockReplayStorage T} {log : List (SealedRecord T)} (hne : log ≠ []) (h : Stores wal log) :
    Inv 0 (start wal : Node T M) := {
  stores := ⟨log, hne, h⟩
  low_le := Nat.le_refl 0
  top_le := Nat.le_refl 0
  sending := by simp [start]
  sorted := List.Pairwise.nil
  inFlight := by simp [start, inFlight]
  handled := by simp
  applied := by simp [start] }

variable {s : Node T M} {low : Nat} {n : Nat} {record : ReplayRecord T}

theorem appliedState_eq_ok (h : s.wal.latest = some (.number n)) :
    s.store.appliedState s.wal = .ok (s.store.raftApplied n, s.store.lastMembership) := by
  have hchecked : s.wal.latestRecordChecked = .ok (some n) := latestRecordChecked_eq_ok.mpr h
  rw [RaftStateMachineStore.appliedState, BlockReplayStorage.latestRecord, hchecked]
  rfl

theorem restart_eq (h : s.wal.latest = some (.number n)) :
    s.restart = { s with next := (s.store.raftApplied n).elim 0 (· + 1), sending := none, channel := [] } := by
  rw [restart, appliedState_eq_ok h]

theorem Inv.exists_latest (h : Inv low s) : ∃ n, s.wal.latest = some (.number n) := by
  obtain ⟨log, hne, hstores⟩ := h.stores
  obtain ⟨n, hn, -⟩ := hstores.latest.resolve_left fun hempty => hne hempty.1
  exact ⟨n, hn⟩

/-- The node goes on at the latest with the first entry that `BlockApplier` has not handled. -/
theorem Inv.restart_next_le (h : Inv low s) (hsettled : s.LatestSettled) : s.restart.next ≤ low := by
  obtain ⟨n, hn⟩ := h.exists_latest
  rw [restart_eq hn]
  cases happlied : s.store.raftApplied n with
  | none => exact Nat.zero_le _
  | some logId =>
    rcases h.applied n logId happlied (.inl hn) with hlow | ⟨record, hmem, hnumber⟩
    · exact hlow
    · exact absurd hnumber (hsettled n hn _ hmem)

theorem Inv.noneSkipped (h : Inv low s) (hsettled : s.LatestSettled) : s.NoneSkipped := by
  obtain ⟨n, hn⟩ := h.exists_latest
  refine ⟨⟨_, appliedState_eq_ok hn⟩, fun logId record hentry => ?_⟩
  by_cases hlow : logId < low
  · exact (h.handled logId record hlow hentry).imp_right .inl
  · exact .inr (.inr ((h.restart_next_le hsettled).trans (Nat.le_of_not_lt hlow)))

/-! ### Steps -/

theorem getElem?_append_some {α : Type} {l l' : List α} {i : Nat} {a : α} (h : l[i]? = some a) :
    (l ++ l')[i]? = some a := by
  rw [getElem?_append_left (List.getElem?_eq_some_iff.mp h).1, h]

theorem Superseded.append {committed : List (EntryPayload T M)} {logId : Nat}
    (h : Superseded committed logId record) (entries : List (EntryPayload T M)) :
    Superseded (committed ++ entries) logId record := by
  obtain ⟨later, record', hlt, hentry, hnumber⟩ := h
  exact ⟨later, record', hlt, getElem?_append_some hentry, hnumber⟩

theorem Inv.commit (h : Inv low s) (entry : EntryPayload T M) :
    Inv low { s with committed := s.committed ++ [entry] } := by
  have hentries : ∀ logId < s.top, (s.committed ++ [entry])[logId]? = s.committed[logId]? := fun logId hlt =>
    getElem?_append_left (hlt.trans_le h.top_le)
  exact { h with
    top_le := h.top_le.trans (by simp)
    inFlight := by
      intro logId record
      refine (h.inFlight logId record).trans (and_congr_right fun _ => and_congr_right fun htop => ?_)
      exact iff_of_eq (congrArg (· = _) (hentries logId htop).symm)
    handled := by
      intro logId record hlt hentry
      rw [hentries logId (hlt.trans_le h.low_le)] at hentry
      exact (h.handled logId record hlt hentry).imp_right fun hs => hs.append _ }

@[simp] theorem top_of_none (h : s.sending = none) : s.top = s.next := by simp [top, h]

@[simp] theorem inFlight_of_none (h : s.sending = none) : s.inFlight = s.channel := by simp [inFlight, h]

theorem Inv.skip (h : Inv low s) (hnone : s.sending = none) (hlt : s.next < s.committed.length)
    (hentry : ∀ record, s.committed[s.next]? ≠ some (.normal record)) (lastMembership : Option (Nat × M)) :
    Inv low { s with store := { s.store with lastMembership }, next := s.next + 1 } := by
  have htop := top_of_none hnone
  set s' : Node T M := { s with store := { s.store with lastMembership }, next := s.next + 1 }
  have htop' : s'.top = s.next + 1 := top_of_none (s := s') hnone
  exact {
    stores := h.stores
    low_le := by have := h.low_le; omega
    top_le := htop' ▸ hlt
    sending := fun logId record hs => absurd (hnone.symm.trans hs) (by simp)
    sorted := h.sorted
    inFlight := by
      intro logId record
      refine (h.inFlight logId record).trans ?_
      rw [htop, htop']
      constructor
      · rintro ⟨hlow, hlt, hentry⟩
        exact ⟨hlow, Nat.lt_succ_of_lt hlt, hentry⟩
      · rintro ⟨hlow, hlt', hnormal⟩
        refine ⟨hlow, lt_of_le_of_ne (Nat.le_of_lt_succ hlt') ?_, hnormal⟩
        rintro rfl
        exact hentry record hnormal
    handled := h.handled
    applied := h.applied }

theorem Inv.save (h : Inv low s) (hnone : s.sending = none) (hentry : s.committed[s.next]? = some (.normal record)) :
    Inv low { s with store := s.store.saveBlockLogId (number record) s.next, sending := some (s.next, record) } := by
  have htop := top_of_none hnone
  have hflight := inFlight_of_none hnone
  have hlow := h.low_le
  exact {
    stores := h.stores
    low_le := by simp only [top, Option.toList_some, length_singleton]; omega
    top_le := (List.getElem?_eq_some_iff.mp hentry).1
    sending := fun logId record hs => (Prod.mk.inj (Option.some.inj hs)).1.symm
    sorted := by
      simp only [Node.inFlight, Option.toList_some, pairwise_append, pairwise_singleton, true_and]
      refine ⟨hflight ▸ h.sorted, ?_⟩
      rintro ⟨logId, record'⟩ hmem b hb
      obtain rfl := mem_singleton.mp hb
      exact htop ▸ ((h.inFlight logId record').mp (hflight ▸ hmem)).2.1
    inFlight := by
      intro logId record'
      simp only [Node.inFlight, top, Option.toList_some, mem_append, mem_singleton, length_singleton]
      rw [← hflight, h.inFlight, htop, Prod.mk.injEq]
      constructor
      · rintro (⟨hlow', hlt, hnormal⟩ | ⟨rfl, rfl⟩)
        · exact ⟨hlow', Nat.lt_succ_of_lt hlt, hnormal⟩
        · exact ⟨htop ▸ hlow, Nat.lt_succ_self _, hentry⟩
      · rintro ⟨hlow', hlt, hnormal⟩
        rcases Nat.lt_succ_iff_lt_or_eq.mp hlt with hlt | rfl
        · exact .inl ⟨hlow', hlt, hnormal⟩
        · rw [hentry] at hnormal
          exact .inr ⟨rfl, (EntryPayload.normal.inj (Option.some.inj hnormal)).symm⟩
    handled := h.handled
    applied := by
      intro n logId happlied hn
      simp only [Node.inFlight, Option.toList_some, mem_append, mem_singleton] at hn ⊢
      change putCf s.store.raftApplied (number record) s.next n = some logId at happlied
      by_cases hsame : n = number record
      · rw [hsame, putCf_same] at happlied
        exact .inr ⟨record, .inr (by rw [Option.some.inj happlied]), hsame.symm⟩
      · rw [putCf_other _ _ hsame] at happlied
        refine (h.applied n logId happlied (hn.imp_right ?_)).imp_right ?_
        · rintro ⟨sent, hmem | rfl, hnumber⟩
          · exact ⟨sent, hflight ▸ hmem, hnumber⟩
          · exact absurd hnumber.symm hsame
        · rintro ⟨record', hmem, hnumber⟩
          exact ⟨record', .inl (hflight ▸ hmem), hnumber⟩ }

theorem Inv.apply (h : Inv low s) : Inv low s.apply := by
  rw [Node.apply]
  split
  next hnone hentry =>
    exact h.skip hnone (List.getElem?_eq_some_iff.mp hentry).1 (by simp [hentry]) s.store.lastMembership
  next record hnone hentry =>
    exact h.save hnone hentry
  next membership hnone hentry =>
    exact h.skip hnone (List.getElem?_eq_some_iff.mp hentry).1 (by simp [hentry]) (some (s.next, membership))
  · exact h

theorem Inv.send (h : Inv low s) : Inv low s.send := by
  rw [Node.send]
  split
  next sent hsent =>
    set s' : Node T M := { s with next := s.next + 1, sending := none, channel := s.channel ++ [sent] }
    have htop : s'.top = s.top := by simp [s', top, hsent]
    have hflight : s'.inFlight = s.inFlight := by simp [s', Node.inFlight, hsent]
    exact {
      stores := h.stores
      low_le := htop ▸ h.low_le
      top_le := htop ▸ h.top_le
      sending := by simp [s']
      sorted := hflight ▸ h.sorted
      inFlight := by rw [hflight, htop]; exact h.inFlight
      handled := h.handled
      applied := by rw [hflight]; exact h.applied }
  · exact h

theorem Inv.restart (h : Inv low s) (hsettled : s.LatestSettled) : Inv s.restart.next s.restart := by
  obtain ⟨n, hn⟩ := h.exists_latest
  have hnext := h.restart_next_le hsettled
  have heq := restart_eq hn
  generalize s.restart = s' at *
  subst heq
  exact {
    stores := h.stores
    low_le := Nat.le_refl _
    top_le := (hnext.trans h.low_le).trans h.top_le
    sending := by simp
    sorted := List.Pairwise.nil
    inFlight := by
      intro logId record
      simp only [Node.inFlight, top, Option.toList_none, append_nil, not_mem_nil, length_nil, false_iff]
      omega
    handled := fun logId record hlt => h.handled logId record (hlt.trans_le hnext)
    applied := by
      intro n' logId happlied hn'
      obtain rfl : n = n' := by simpa [inFlight, hn] using hn'
      change s.store.raftApplied n = some logId at happlied
      simp [happlied] }

structure Handled (wal : BlockReplayStorage T) (record : ReplayRecord T) (wal' : BlockReplayStorage T) : Prop where
  stores : ∃ log, log ≠ [] ∧ Stores wal' log
  holds : Holds wal' record
  others : ∀ other, number other ≠ number record → Holds wal other → Holds wal' other
  latest : wal'.latest = some (.number (number record)) ∨ wal'.latest = wal.latest

section Handling
variable {wal wal' : BlockReplayStorage T} {log : List (SealedRecord T)} {r : SealedRecord T} {overrideAllowed : Bool}

theorem Holds.of_written {isCanonical : Bool} (hw : Written wal r isCanonical wal') {other : ReplayRecord T}
    (hne : .number (number other) ≠ r.key isCanonical) (h : Holds wal other) : Holds wal' other :=
  h.imp fun _ hrow => hw.rows _ _ hne hrow

variable [DecidableEq T]

theorem Holds.archive (hstores : Stores wal log) {n : Nat} (hlatest : wal.latest = some (.number n)) (hle : r.number ≤ n)
    (ha : wal.archive r = .ok wal') {other : ReplayRecord T} (h : Holds wal other) : Holds wal' other := by
  obtain ⟨old, hold⟩ := (hstores.exists_canonical_iff hlatest _).mpr hle
  rcases hstores.archive_eq_ok hold ha with ⟨-, rfl⟩ | ⟨-, hash, -, hw⟩
  · exact h
  · exact h.of_written hw (by simp [SealedRecord.key])

theorem handled_of_write (hstores : Stores wal log) (hw : wal.write r overrideAllowed = .ok (true, wal')) :
    Handled wal r.toReplayRecord wal' := by
  obtain ⟨before, hbefore, hlatest, hwritten⟩ : ∃ before, (∀ other, Holds wal other → Holds before other) ∧
      before.latest = wal.latest ∧ Written before r true wal' := by
    rcases write_eq_true hw with ⟨-, -, hw⟩ | ⟨n, hn, -, ⟨-, hw⟩ | ⟨hle, archived, ha, hw⟩⟩
    · exact ⟨wal, fun _ => id, rfl, hw⟩
    · exact ⟨wal, fun _ => id, rfl, hw⟩
    · exact ⟨archived, fun _ hholds => hholds.archive hstores hn hle ha, (hstores.archive hn hle ha).2.1, hw⟩
  exact {
    stores := ⟨log ++ [r], by simp, (hstores.write hw).1⟩
    holds := ⟨r.nodeVersion, hwritten.row⟩
    others := fun other hne hholds => (hbefore other hholds).of_written hwritten fun heq => hne (DbKey.number.inj heq)
    latest := hlatest ▸ hwritten.latest.imp (fun h => h.1) fun h => h.1 }

end Handling

theorem Inv.advance (h : Inv low s) {logId : Nat} {channel : List (Nat × ReplayRecord T)}
    (hchannel : s.channel = (logId, record) :: channel) {wal : BlockReplayStorage T} (hw : Handled s.wal record wal) :
    Inv (logId + 1) { s with wal, channel } := by
  have hflight : s.inFlight = (logId, record) :: (channel ++ s.sending.toList) := by simp [Node.inFlight, hchannel]
  obtain ⟨hlow, htop, hentry⟩ := (h.inFlight logId record).mp (by simp [hflight])
  have hsorted := h.sorted
  rw [hflight, pairwise_cons] at hsorted
  -- the entries in front of the head have no record
  have hfirst : ∀ id record', low ≤ id → id < s.top → s.committed[id]? = some (.normal record') →
      id = logId ∧ record' = record ∨ logId < id ∧ (id, record') ∈ channel ++ s.sending.toList := by
    intro id record' hlow hlt hnormal
    have hmem := (h.inFlight id record').mpr ⟨hlow, hlt, hnormal⟩
    rw [hflight, mem_cons, Prod.mk.injEq] at hmem
    exact hmem.imp_right fun hmem => ⟨hsorted.1 _ hmem, hmem⟩
  exact {
    stores := hw.stores
    low_le := htop
    top_le := h.top_le
    sending := h.sending
    sorted := hsorted.2
    inFlight := by
      intro id record'
      constructor
      · intro hmem
        have hin := (h.inFlight id record').mp (hflight ▸ mem_cons_of_mem _ hmem)
        exact ⟨hsorted.1 _ hmem, hin.2⟩
      · rintro ⟨hlt, htop', hnormal⟩
        rcases hfirst id record' (by omega) htop' hnormal with ⟨rfl, -⟩ | ⟨-, hmem⟩
        · omega
        · exact hmem
    handled := by
      intro id record' hlt hnormal
      by_cases hbelow : id < low
      · rcases h.handled id record' hbelow hnormal with hholds | hsup
        · by_cases hsame : number record' = number record
          · exact .inr ⟨logId, record, by omega, hentry, hsame.symm⟩
          · exact .inl (hw.others record' hsame hholds)
        · exact .inr hsup
      · rcases hfirst id record' (Nat.le_of_not_lt hbelow) (Nat.lt_of_le_of_lt (Nat.le_of_lt_succ hlt) htop) hnormal with
          ⟨-, rfl⟩ | ⟨hgt, -⟩
        · exact .inl hw.holds
        · omega
    applied := by
      intro n id happlied hn
      have hbefore : s.wal.latest = some (.number n) ∨ ∃ sent ∈ s.inFlight, number sent.2 = n := by
        rcases hn with hn | ⟨sent, hmem, hnumber⟩
        · rcases hw.latest with hlatest | hlatest
          · have heq : number record = n := by simpa [hlatest] using hn
            exact .inr ⟨(logId, record), by simp [hflight], heq⟩
          · exact .inl (hlatest ▸ hn)
        · exact .inr ⟨sent, hflight ▸ mem_cons_of_mem _ hmem, hnumber⟩
      rcases h.applied n id happlied hbefore with hlt | ⟨record', hmem, hnumber⟩
      · exact .inl (by omega)
      · rw [hflight, mem_cons, Prod.mk.injEq] at hmem
        rcases hmem with ⟨rfl, -⟩ | hmem
        · exact .inl (Nat.lt_succ_self _)
        · exact .inr ⟨record', hmem, hnumber⟩ }

theorem rebuiltOverride_of_lt (hn : s.wal.latest = some (.number n))
    (h : ∀ head ∈ s.channel.head?, n < number head.2) (event : Event T M) : s.RebuiltOverride event := by
  cases event with
  | persist nodeVersion hash commandType =>
    intro logId record hhead latest hlatest hle
    obtain rfl : n = latest := by simpa [hn] using hlatest
    exact absurd hle (Nat.not_le_of_lt (h _ hhead))
  | commit | apply | send | restart => trivial

variable [DecidableEq T]

theorem persist_cases (h : Inv low s) (nodeVersion : String) (hash : B256) (commandType : BlockCommandType)
    (hover : s.RebuiltOverride (.persist nodeVersion hash commandType)) :
    s.persist nodeVersion hash commandType = s ∨ ∃ logId record channel wal, s.channel = (logId, record) :: channel ∧
      Handled s.wal record wal ∧ s.persist nodeVersion hash commandType = { s with wal, channel } := by
  rw [persist]
  split
  · exact .inl rfl
  next logId record channel hchannel =>
    split
    next written wal hwrite =>
      refine .inr ⟨logId, record, channel, wal, hchannel, ?_, rfl⟩
      obtain ⟨log, hne, hstores⟩ := h.stores
      cases written with
      | true =>
        have hw := handled_of_write hstores hwrite
        exact { hw with holds := hw.holds.imp fun _ hrow => { hrow with } }
      | false =>
        obtain ⟨rfl, hreplay, n, hn, hle⟩ := write_eq_false hwrite
        have hholds := (hover logId record (by rw [hchannel]; rfl) n hn hle).resolve_left (by simpa using hreplay)
        exact ⟨⟨log, hne, hstores⟩, hholds, fun _ _ => id, .inr rfl⟩
    · exact .inl rfl

theorem Inv.step (s : Node T M) (event : Event T M) (h : ∃ low, Inv low s)
    (hallowed : s.RebuiltOverride event ∧ OnRestart LatestSettled s event) : ∃ low, Inv low (s.step event) := by
  obtain ⟨low, h⟩ := h
  cases event with
  | commit entry => exact ⟨low, h.commit entry⟩
  | apply => exact ⟨low, h.apply⟩
  | send => exact ⟨low, h.send⟩
  | persist nodeVersion hash commandType =>
    rw [Node.step]
    rcases persist_cases h nodeVersion hash commandType hallowed.1 with hs | ⟨logId, record, channel, wal, hchannel, hw, hs⟩
    · rw [hs]
      exact ⟨low, h⟩
    · rw [hs]
      exact ⟨logId + 1, h.advance hchannel hw⟩
  | restart => exact ⟨_, h.restart hallowed.2⟩

/-- Over every run in which rebuilt blocks are written with permission to override, restarts go on with every
committed record that is not in the replay log, if the node never stops while the latest block of the log is
being rebuilt. -/
theorem restarts_skip_nothing (chainId : Nat) (calls : List (SealedRecord T × Bool))
    (hne : (writeAll chainId calls).log ≠ []) (events : List (Event T M))
    (hallowed : Run.Steps step (fun s event => s.RebuiltOverride event ∧ OnRestart LatestSettled s event)
      (start (writeAll chainId calls).storage) events) :
    Run.Steps step (OnRestart NoneSkipped) (start (writeAll chainId calls).storage) events := by
  refine Run.Steps.imp Inv.step ?_ ⟨0, inv_start hne (archives_writeAll chainId calls).stores⟩ hallowed
  rintro s event ⟨low, h⟩ ⟨-, hsettled⟩
  cases event with
  | restart => exact h.noneSkipped hsettled
  | commit | apply | send | persist => trivial

/-- A replay log with the genesis block, a block 1 and another block 1. -/
def genesisCalls : List (SealedRecord Nat × Bool) := [(sampleRecord 0 .empty 0 100 "1.0.0" 10, false)]

def firstBlock : ReplayRecord Nat := (sampleRecord 1 (BlockHashes.push .empty 10) 1000 100 "1.0.0" 0).toReplayRecord

def rebuiltBlock : ReplayRecord Nat := (sampleRecord 1 (BlockHashes.push .empty 10) 1000 200 "1.0.0" 0).toReplayRecord

def secondBlock : ReplayRecord Nat :=
  (sampleRecord 2 (BlockHashes.push (BlockHashes.push .empty 10) 21) 1001 100 "1.0.0" 0).toReplayRecord

/-- Block 1 is written and rebuilt, and block 2 applied. -/
def rebuildFirst : List (Event Nat Unit) :=
  [.commit (.normal firstBlock), .apply, .send, .persist "1.0.0" 11 .produce, .commit (.normal rebuiltBlock), .apply,
    .send, .persist "1.0.0" 21 .rebuild, .commit (.normal secondBlock), .apply]

theorem restarts_skip_nothing_after_rebuild :
    ((rebuildFirst ++ [Event.restart]).foldl step (start (writeAll 270 genesisCalls).storage)).next = 2 ∧
      Run.Steps step (OnRestart NoneSkipped) (start (writeAll 270 genesisCalls).storage) (rebuildFirst ++ [.restart]) := by
  refine ⟨by decide +kernel, restarts_skip_nothing 270 genesisCalls (by decide +kernel) _ ?_⟩
  refine Run.steps_append.mpr ⟨⟨⟨trivial, trivial⟩, ⟨trivial, trivial⟩, ⟨trivial, trivial⟩, ⟨?_, trivial⟩,
    ⟨trivial, trivial⟩, ⟨trivial, trivial⟩, ⟨trivial, trivial⟩, ⟨fun _ _ _ _ _ _ => .inl rfl, trivial⟩,
    ⟨trivial, trivial⟩, ⟨trivial, trivial⟩, trivial⟩, ⟨trivial, fun n hn => ?_⟩, trivial⟩
  · exact rebuiltOverride_of_lt (n := 0) (by decide +kernel) (by decide +kernel) _
  · have hlatest : (rebuildFirst.foldl step (start (writeAll 270 genesisCalls).storage)).wal.latest =
      some (.number 1) := by decide +kernel
    obtain rfl : 1 = n := by simpa [hlatest] using hn
    decide +kernel

/-- Block 1 is written and rebuilt, and the node stops before the rebuilt block is written. -/
def stopInRebuild : List (Event Nat Unit) :=
  [.commit (.normal firstBlock), .apply, .send, .persist "1.0.0" 11 .produce, .commit (.normal rebuiltBlock), .apply,
    .restart]

def stoppedInRebuild : Node Nat Unit := (stopInRebuild.take 6).foldl step (start (writeAll 270 genesisCalls).storage)

/-- The log id of the rebuilt block is already the one of the latest block, so it is not applied again. -/
theorem rebuilt_block_skipped :
    Run.Steps step RebuiltOverride (start (writeAll 270 genesisCalls).storage) stopInRebuild ∧
      ¬ Run.Steps step (OnRestart NoneSkipped) (start (writeAll 270 genesisCalls).storage) stopInRebuild := by
  constructor
  · refine ⟨trivial, trivial, trivial, ?_, trivial, trivial, trivial, trivial⟩
    exact rebuiltOverride_of_lt (n := 0) (by decide +kernel) (by decide +kernel) _
  · rintro ⟨-, -, -, -, -, -, hnone, -⟩
    have hkept : stoppedInRebuild.Kept 1 rebuiltBlock := hnone.2 1 rebuiltBlock (by decide +kernel)
    have hlength : stoppedInRebuild.committed.length = 2 := by decide +kernel
    have hgasLimit : (stoppedInRebuild.wal.context (.number 1)).map (·.gasLimit) = some 100 := by decide +kernel
    rcases hkept with ⟨nodeVersion, hrow⟩ | ⟨later, record, hlt, hentry, -⟩ | hnext
    · have hcontext : stoppedInRebuild.wal.context (.number 1) = some rebuiltBlock.blockContext := hrow.context
      rw [hcontext] at hgasLimit
      exact absurd hgasLimit (by decide +kernel)
    · have hlater := (List.getElem?_eq_some_iff.mp hentry).1
      omega
    · exact absurd hnext (by decide +kernel)

end Node

end Raft
