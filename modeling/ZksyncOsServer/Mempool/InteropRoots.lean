import ZksyncOsServer.Lib.KeyedLog
import ZksyncOsServer.Lib.Run
import ZksyncOsServer.Types.Transaction

/-!
# Interop roots from L1 to canonical blocks

`L1Watcher::poll` with `InteropWatcher` (`l1_watcher`), and `InteropRootsSubpool`
(`mempool/src/subpools/interop_roots.rs`). Three processes share the pending roots: the watcher,
which fetches a range of logs and pushes its roots one by one, in the order of a hash map; the
stream of import transactions; and the clean-up after the blocks that executed them. They may
interleave between any two accesses of the pending roots. A panic of one of them ends the run.
-/
namespace Mempool

open List SortedMap

open MerkleTree (B256 Map)
open Types (InteropRoot SystemTxEnvelope)

/-! ### Logs and transactions -/

structure NewInteropRoot where
  chainId : Nat
  blockNumber : Nat
  logId : Nat
  sides : List B256
  deriving DecidableEq

inductive Log where
  | newInteropRoot (event : NewInteropRoot)
  | undecodable
  deriving DecidableEq

def Log.decode : Log → Option NewInteropRoot
  | .newInteropRoot event => some event
  | .undecodable => none

def NewInteropRoot.interopRoot (event : NewInteropRoot) : InteropRoot :=
  ⟨event.chainId, event.blockNumber, event.sides⟩

/-- `InteropWatcher::filter_events`, up to the order of the values. -/
def filterEvents (logs : List Log) : List Log :=
  ((logs.filterMap Log.decode).foldl
    (fun (indexes : Map Nat Log) event => indexes.insert event.logId (.newInteropRoot event)) ∅).toList.map (·.2)

def importInteropRoots (roots : List (Nat × InteropRoot)) (latestLogId : Nat) : SystemTxEnvelope :=
  .importInteropRoots (roots.map (·.2)) latestLogId

/-! ### The processes -/

structure System where
  startingInteropRootId : Nat
  interopRootsPerTx : Nat
  /-- The events of the ranges fetched so far. -/
  emitted : List NewInteropRoot
  /-- The events of the current range that are not yet processed. -/
  events : List Log
  pendingRoots : Map Nat InteropRoot
  cursor : Nat
  buffer : List (Nat × InteropRoot)
  yielded : List SystemTxEnvelope
  imported : List (Nat × InteropRoot)
  /-- The roots popped for the transaction that is being cleaned up. -/
  popped : List (Nat × InteropRoot)
  /-- What the last `on_canonical_state_change` returns. -/
  lastLogId : Option Nat
  failed : Option String

inductive Event where
  /-- The watcher fetches the next range; the hash map yields the given order. -/
  | fetch (logs order : List Log)
  | process
  | poll
  /-- The clean-up pops the next root. -/
  | pop

namespace System

def new (startingInteropRootId interopRootsPerTx : Nat) : System where
  startingInteropRootId
  interopRootsPerTx
  emitted := []
  events := []
  pendingRoots := ∅
  cursor := 0
  buffer := []
  yielded := []
  imported := []
  popped := []
  lastLogId := none
  failed := none

/-- `L1Watcher::poll`, one range. -/
def fetch (s : System) (logs order : List Log) : System :=
  if s.events = [] ∧ order.Perm (filterEvents logs) then
    { s with emitted := s.emitted ++ logs.filterMap Log.decode, events := order }
  else s

/-- `process_raw_event` and `add_root`. -/
def process (s : System) : System :=
  match s.events with
  | [] => s
  | log :: events =>
    match log.decode with
    | none => { s with failed := some "failed to decode interop root log" }
    | some event =>
      if 2 ^ 64 ≤ event.logId then { s with failed := some "Uint conversion error" }
      else if event.logId < s.startingInteropRootId then { s with events }
      else { s with events, pendingRoots := s.pendingRoots.insert event.logId event.interopRoot }

/-- The roots that a poll of the stream reads. -/
def unreadRoots (s : System) : List (Nat × InteropRoot) := s.pendingRoots.toList.filter (s.cursor ≤ ·.1)

/-- A poll of the stream of `interop_transactions_with_delay`. -/
def poll (s : System) : System :=
  if s.unreadRoots.any (2 ^ 64 ≤ ·.1 + 1) then { s with failed := some "attempt to add with overflow" }
  else
    let cursor := s.unreadRoots.foldl (fun _ root => root.1 + 1) s.cursor
    let buffer := s.unreadRoots.foldl (fun buffer root => root :: buffer) s.buffer
    if buffer = [] then s
    else
      let startingIndex := buffer.length - min buffer.length s.interopRootsPerTx
      let rootsToConsume := (buffer.drop startingIndex).reverse
      match rootsToConsume.getLast? with
      | none => { s with failed := some "roots_to_consume is non-empty" }
      | some (lastLogId, _) =>
        { s with
          cursor
          buffer := buffer.take startingIndex
          yielded := s.yielded ++ [importInteropRoots rootsToConsume lastLogId]
          imported := s.imported ++ rootsToConsume }

/-- `on_canonical_state_change`: the roots of the next transaction are popped one by one; it waits
while there are none. -/
def pop (s : System) : System :=
  match s.yielded with
  | [] => s
  | tx :: yielded =>
    match tx.systemSubtype, s.pendingRoots.toList.head? with
    | .importInteropRoots rootsCount, some root =>
      let pendingRoots := s.pendingRoots.erase root.1
      let popped := s.popped ++ [root]
      if popped.length < rootsCount then { s with pendingRoots, popped }
      else if importInteropRoots popped root.1 = tx then
        { s with pendingRoots, yielded, popped := [], lastLogId := some root.1 }
      else { s with pendingRoots, popped, failed := some "assertion failed: envelope == tx" }
    | .importInteropRoots _, none => s
    | _, _ => { s with yielded }

def step (s : System) (event : Event) : System :=
  if s.failed.isSome then s
  else
    match event with
    | .fetch logs order => s.fetch logs order
    | .process => s.process
    | .poll => s.poll
    | .pop => s.pop

/-! ### The property -/

/-- The events of the range that is fetched. -/
def fetched (s : System) : Event → List NewInteropRoot
  | .fetch logs order =>
    if s.failed.isSome = false ∧ s.events = [] ∧ order.Perm (filterEvents logs) then logs.filterMap Log.decode else []
  | _ => []

/-- The roots that are to be imported, in the order of L1. -/
def expected (s : System) : List (Nat × InteropRoot) :=
  (s.emitted.filter (s.startingInteropRootId ≤ ·.logId)).map fun event => (event.logId, event.interopRoot)

/-- All fetched events are processed and a poll of the stream finds nothing. -/
def Quiet (s : System) : Prop := s.events = [] ∧ s.unreadRoots = [] ∧ s.buffer = []

/-- No assertion has failed; the roots are imported in order, none twice, and none is left out in the end,
which polls of the stream reach. -/
structure Sound (s : System) : Prop where
  failed : s.failed = none
  inOrder : s.imported.Sublist s.expected
  complete : s.Quiet → s.imported = s.expected
  polled : s.events = [] → ∃ polls : Nat, ((replicate polls Event.poll).foldl step s).imported = s.expected

/-- The contract emits increasing log ids. -/
def Increasing (s : System) : Event → Prop
  | .fetch logs _ => (s.emitted ++ logs.filterMap Log.decode).Pairwise fun a b => a.logId < b.logId
  | _ => True

/-- A root is pushed before the stream has gone past its id. -/
def Ahead (s : System) : Event → Prop
  | .process => ∀ event ∈ s.events.head?.bind Log.decode, event.logId + 1 < 2 ^ 64 ∧
    (s.startingInteropRootId ≤ event.logId → s.cursor ≤ event.logId)
  | _ => True

instance (s : System) : DecidablePred s.Increasing := fun event => by
  unfold Increasing
  split <;> infer_instance

instance (s : System) : DecidablePred s.Ahead := fun event => by
  unfold Ahead
  split <;> infer_instance

/-! ### The invariant -/

def queuedIds (s : System) : List Nat := s.events.filterMap fun log => log.decode.map (·.logId)

/-- The roots that have been added to the subpool. -/
def pushed (s : System) : List (Nat × InteropRoot) := s.expected.filter (·.1 ∉ s.queuedIds)

/-- The transaction that imports the given roots. -/
def chunkTx (roots : List (Nat × InteropRoot)) : SystemTxEnvelope :=
  importInteropRoots roots ((roots.getLast?.map (·.1)).getD 0)

/-- `chunks` are the roots of the transactions that are not yet cleaned up, `unread` the roots
that the stream has not yet read. -/
structure Inv (chunks : List (List (Nat × InteropRoot))) (unread : List (Nat × InteropRoot)) (s : System) : Prop where
  perTx : 0 < s.interopRootsPerTx
  failed : s.failed = none
  sorted : s.emitted.Pairwise fun a b => a.logId < b.logId
  queued : ∀ log ∈ s.events, ∃ event ∈ s.emitted, log = .newInteropRoot event
  distinct : s.events.Nodup
  split : s.pushed = s.imported ++ s.buffer.reverse ++ unread
  readBelow : ∀ p ∈ s.imported ++ s.buffer.reverse, p.1 < s.cursor
  unreadAbove : ∀ p ∈ unread, s.cursor ≤ p.1 ∧ p.1 + 1 < 2 ^ 64
  yielded : s.yielded = chunks.map chunkTx
  nonempty : ∀ chunk ∈ chunks, chunk ≠ []
  suffix : chunks.flatten <:+ s.imported
  popped : s.popped <+: chunks.flatten
  unfinished : ∀ chunk ∈ chunks.head?, s.popped.length < chunk.length
  pending : s.pendingRoots.toList = (chunks.flatten ++ s.buffer.reverse).drop s.popped.length ++ unread

variable {s : System} {chunks : List (List (Nat × InteropRoot))} {unread : List (Nat × InteropRoot)}
    {l : List (Nat × InteropRoot)} {event : NewInteropRoot} {events : List Log}

theorem eq_of_sorted {l' : List (Nat × InteropRoot)} (h : l.Pairwise fun a b => a.1 < b.1)
    (h' : l'.Pairwise fun a b => a.1 < b.1) (hmem : ∀ p, p ∈ l ↔ p ∈ l') : l = l' := by
  have : Std.Irrefl fun a b : Nat × InteropRoot => a.1 < b.1 := ⟨fun a => Nat.lt_irrefl a.1⟩
  have : Std.Antisymm fun a b : Nat × InteropRoot => a.1 < b.1 := ⟨fun a b hab hba => absurd hab (Nat.lt_asymm hba)⟩
  exact h.eq_of_mem_iff h' hmem

theorem mem_expected {p : Nat × InteropRoot} : p ∈ s.expected ↔
    ∃ event ∈ s.emitted, s.startingInteropRootId ≤ event.logId ∧ (event.logId, event.interopRoot) = p := by
  simp [expected, and_assoc]

theorem expected_sorted (h : s.emitted.Pairwise fun a b => a.logId < b.logId) :
    s.expected.Pairwise fun a b => a.1 < b.1 :=
  pairwise_map.mpr (h.filter _)

theorem pushed_sorted (h : s.emitted.Pairwise fun a b => a.logId < b.logId) : s.pushed.Pairwise fun a b => a.1 < b.1 :=
  (expected_sorted h).filter _

theorem Inv.split_sorted (h : Inv chunks unread s) :
    (s.imported ++ s.buffer.reverse ++ unread).Pairwise fun a b => a.1 < b.1 := h.split ▸ pushed_sorted h.sorted

theorem Inv.unpoppedBelow (h : Inv chunks unread s) :
    ∀ p ∈ (chunks.flatten ++ s.buffer.reverse).drop s.popped.length, p.1 < s.cursor := by
  intro p hp
  refine h.readBelow p ?_
  rcases mem_append.mp (mem_of_mem_drop hp) with hp | hp
  · exact mem_append_left _ (h.suffix.subset hp)
  · exact mem_append_right _ hp

theorem Inv.unreadRoots_eq (h : Inv chunks unread s) : s.unreadRoots = unread := by
  rw [unreadRoots, h.pending, filter_append, filter_eq_nil_iff.mpr, nil_append,
    filter_eq_self.mpr fun p hp => decide_eq_true (h.unreadAbove p hp).1]
  intro p hp
  simpa using h.unpoppedBelow p hp

theorem Inv.complete (h : Inv chunks unread s) (hquiet : s.Quiet) : s.imported = s.expected := by
  obtain ⟨hevents, hunread, hbuffer⟩ := hquiet
  have hsplit := h.split
  rw [h.unreadRoots_eq] at hunread
  rw [hunread, hbuffer, reverse_nil, append_nil, append_nil] at hsplit
  rw [← hsplit, pushed, queuedIds, hevents]
  simp

/-! ### Steps of the watcher -/

theorem getElem?_indexes (events : List NewInteropRoot) (id : Nat) :
    (events.foldl (fun (indexes : Map Nat Log) event => indexes.insert event.logId (.newInteropRoot event)) ∅)[id]? =
      (KeyedLog.last NewInteropRoot.logId events id).map .newInteropRoot := by
  rw [getElem?_foldl_insert]
  simp [KeyedLog.last]

theorem mem_filterEvents {logs : List Log} {log : Log} (h : log ∈ filterEvents logs) :
    ∃ event ∈ logs.filterMap Log.decode, log = .newInteropRoot event := by
  obtain ⟨⟨id, log⟩, hmem, rfl⟩ := mem_map.mp h
  rw [mem_toList, getElem?_indexes] at hmem
  obtain ⟨event, hlast, rfl⟩ := Option.map_eq_some_iff.mp hmem
  exact ⟨event, (KeyedLog.mem_of_last hlast).1, rfl⟩

theorem filterEvents_nodup (logs : List Log) : (filterEvents logs).Nodup := by
  refine pairwise_map.mpr ((pairwise_toList _).imp_of_mem ?_)
  rintro ⟨id, log⟩ ⟨id', log'⟩ hmem hmem' hlt rfl
  rw [mem_toList, getElem?_indexes] at hmem hmem'
  obtain ⟨event, hlast, rfl⟩ := Option.map_eq_some_iff.mp hmem
  obtain ⟨event', hlast', heq⟩ := Option.map_eq_some_iff.mp hmem'
  obtain rfl := Log.newInteropRoot.inj heq
  have hid := (KeyedLog.mem_of_last hlast).2
  have hid' := (KeyedLog.mem_of_last hlast').2
  simp only at hlt
  omega

theorem filterEvents_complete {logs : List Log} (h : event ∈ logs.filterMap Log.decode) :
    ∃ event', .newInteropRoot event' ∈ filterEvents logs ∧ event'.logId = event.logId := by
  obtain ⟨event', hlast⟩ := KeyedLog.exists_last NewInteropRoot.logId h
  refine ⟨event', mem_map.mpr ⟨(event.logId, .newInteropRoot event'), ?_, rfl⟩, (KeyedLog.mem_of_last hlast).2⟩
  rw [mem_toList, getElem?_indexes, hlast]
  rfl

theorem mem_queuedIds {id : Nat} : id ∈ s.queuedIds ↔ ∃ event, .newInteropRoot event ∈ s.events ∧ event.logId = id := by
  simp only [queuedIds, mem_filterMap, Option.map_eq_some_iff]
  constructor
  · rintro ⟨log, hlog, event, hdecode, rfl⟩
    cases log with
    | undecodable => cases hdecode
    | newInteropRoot event' =>
      obtain rfl := Option.some.inj hdecode
      exact ⟨event', hlog, rfl⟩
  · rintro ⟨event, hevent, rfl⟩
    exact ⟨_, hevent, event, rfl, rfl⟩

theorem Inv.fetch (h : Inv chunks unread s) (logs order : List Log) (hincreasing : s.Increasing (.fetch logs order)) :
    Inv chunks unread (s.fetch logs order) := by
  rw [System.fetch]
  split
  next hcond =>
    obtain ⟨hempty, hperm⟩ := hcond
    have hincreasing : (s.emitted ++ logs.filterMap Log.decode).Pairwise fun a b => a.logId < b.logId := hincreasing
    set s' : System := { s with emitted := s.emitted ++ logs.filterMap Log.decode, events := order }
    have hqueued : ∀ id, id ∈ s'.queuedIds ↔ ∃ event ∈ logs.filterMap Log.decode, event.logId = id := by
      intro id
      rw [mem_queuedIds]
      constructor
      · rintro ⟨event, hevent, rfl⟩
        obtain ⟨event', hmem, heq⟩ := mem_filterEvents (hperm.mem_iff.mp hevent)
        exact ⟨event', hmem, by rw [Log.newInteropRoot.inj heq]⟩
      · rintro ⟨event, hmem, rfl⟩
        obtain ⟨event', hevent, hid⟩ := filterEvents_complete hmem
        exact ⟨event', hperm.mem_iff.mpr hevent, hid⟩
    -- the new events are all in the queue, and it was empty before
    have hpushed : s'.pushed = s.pushed := by
      have hold : s.pushed = s.expected := by simp [pushed, queuedIds, hempty]
      have hexpected : s'.expected = s.expected ++ ((logs.filterMap Log.decode).filter
          (s.startingInteropRootId ≤ ·.logId)).map fun event => (event.logId, event.interopRoot) := by
        simp only [expected, s', filter_append, map_append]
      rw [hold, pushed, hexpected, filter_append, filter_eq_self.mpr, filter_eq_nil_iff.mpr, append_nil]
      · intro p hp
        obtain ⟨event, hmem, rfl⟩ := mem_map.mp hp
        simpa using (hqueued _).mpr ⟨event, (mem_filter.mp hmem).1, rfl⟩
      · intro p hp
        obtain ⟨event, hmem, -, rfl⟩ := mem_expected.mp hp
        simp only [decide_eq_true_eq, hqueued]
        rintro ⟨event', hmem', heq⟩
        have hlt := (pairwise_append.mp hincreasing).2.2 event hmem event' hmem'
        omega
    exact { h with
      sorted := hincreasing
      queued := by
        intro log hlog
        obtain ⟨event, hmem, rfl⟩ := mem_filterEvents (hperm.mem_iff.mp hlog)
        exact ⟨event, mem_append_right _ hmem, rfl⟩
      distinct := hperm.nodup_iff.mpr (filterEvents_nodup logs)
      split := hpushed.trans h.split }
  · exact h

theorem not_mem_queuedIds (hevents : s.events = .newInteropRoot event :: events) (p : Nat × InteropRoot) :
    p.1 ∉ s.queuedIds ↔ p.1 ≠ event.logId ∧ p.1 ∉ { s with events }.queuedIds := by
  simp only [queuedIds, hevents]
  simp [Log.decode]

theorem Inv.skip (h : Inv chunks unread s)
    (hevents : s.events = .newInteropRoot event :: events) (hlt : event.logId < s.startingInteropRootId) :
    Inv chunks unread { s with events } := by
  have hpushed : { s with events }.pushed = s.pushed := by
    refine filter_congr fun p hp => ?_
    obtain ⟨event', -, hle, rfl⟩ := mem_expected.mp hp
    have hne : event'.logId ≠ event.logId := (hlt.trans_le hle).ne'
    rw [decide_eq_decide, not_mem_queuedIds hevents]
    exact ⟨fun hnot => ⟨hne, hnot⟩, fun hnot => hnot.2⟩
  exact { h with
    queued := fun log hlog => h.queued log (hevents ▸ mem_cons_of_mem _ hlog)
    distinct := (nodup_cons.mp (hevents ▸ h.distinct)).2
    split := hpushed.trans h.split }

theorem sorted_split (h : l.Pairwise fun a b => a.1 < b.1) (cursor : Nat) :
    l = l.filter (·.1 < cursor) ++ l.filter (cursor ≤ ·.1) := by
  refine eq_of_sorted h (pairwise_append.mpr ⟨h.filter _, h.filter _, fun p hp q hq => ?_⟩) fun p => ?_
  · have hlt := (mem_filter.mp hp).2
    have hge := (mem_filter.mp hq).2
    simp only [decide_eq_true_eq] at hlt hge
    omega
  · simp only [mem_append, mem_filter, decide_eq_true_eq, ← and_or_left, Nat.lt_or_ge, and_true]

theorem Inv.addRoot (h : Inv chunks unread s)
    (hevents : s.events = .newInteropRoot event :: events) (hle : s.startingInteropRootId ≤ event.logId)
    (hbound : event.logId + 1 < 2 ^ 64) (hcursor : s.cursor ≤ event.logId) : ∃ unread, Inv chunks unread
      { s with events, pendingRoots := s.pendingRoots.insert event.logId event.interopRoot } := by
  set s' : System := { s with events, pendingRoots := s.pendingRoots.insert event.logId event.interopRoot }
  obtain ⟨event', hemitted, heq⟩ := h.queued (.newInteropRoot event) (by simp [hevents])
  obtain rfl := Log.newInteropRoot.inj heq
  have hid : event.logId ∈ s.queuedIds := mem_queuedIds.mpr ⟨event, by simp [hevents], rfl⟩
  -- an id determines the event
  have hsame : ∀ other ∈ s.emitted, other.logId = event.logId → other = event := by
    have hnodup : (s.emitted.map NewInteropRoot.logId).Nodup := pairwise_map.mpr (h.sorted.imp Nat.ne_of_lt)
    exact fun other hother hid => inj_on_of_nodup_map hnodup hother hemitted hid
  have hnew : event.logId ∉ s'.queuedIds := by
    rw [mem_queuedIds]
    rintro ⟨other, hother, hid⟩
    obtain ⟨other', hmem, heq⟩ := h.queued _ (hevents ▸ mem_cons_of_mem _ hother)
    obtain rfl := Log.newInteropRoot.inj heq
    rw [hsame other hmem hid] at hother
    exact (nodup_cons.mp (hevents ▸ h.distinct)).1 hother
  have hmem : ∀ p, p ∈ s'.pushed ↔ p = (event.logId, event.interopRoot) ∨ p ∈ s.pushed := by
    intro p
    simp only [pushed, mem_filter, decide_eq_true_eq, not_mem_queuedIds hevents]
    constructor
    · rintro ⟨hp, hnot⟩
      by_cases hpid : p.1 = event.logId
      · obtain ⟨other, hother, -, rfl⟩ := mem_expected.mp hp
        exact .inl (by rw [hsame other hother hpid])
      · exact .inr ⟨hp, hpid, hnot⟩
    · rintro (rfl | ⟨hp, -, hnot⟩)
      · exact ⟨mem_expected.mpr ⟨event, hemitted, hle, rfl⟩, hnew⟩
      · exact ⟨hp, hnot⟩
  have hold : ∀ p, p ∈ s.pushed ↔ p ∈ s.imported ++ s.buffer.reverse ∨ p ∈ unread := by
    intro p
    rw [h.split, mem_append]
  have hsorted : s'.pushed.Pairwise fun a b => a.1 < b.1 := pushed_sorted h.sorted
  have hread : s'.pushed.filter (·.1 < s.cursor) = s.imported ++ s.buffer.reverse := by
    refine eq_of_sorted (hsorted.filter _) (pairwise_append.mp h.split_sorted).1 fun p => ?_
    rw [mem_filter, hmem, hold, decide_eq_true_eq]
    constructor
    · rintro ⟨rfl | hp | hp, hlt⟩
      · exact absurd hlt hcursor.not_gt
      · exact hp
      · exact absurd hlt (h.unreadAbove p hp).1.not_gt
    · intro hp
      exact ⟨.inr (.inl hp), h.readBelow p hp⟩
  have hunread : ∀ p, p ∈ s'.pushed.filter (s.cursor ≤ ·.1) ↔ p = (event.logId, event.interopRoot) ∨ p ∈ unread := by
    intro p
    rw [mem_filter, hmem, hold, decide_eq_true_eq]
    constructor
    · rintro ⟨rfl | hp | hp, hge⟩
      · exact .inl rfl
      · exact absurd (h.readBelow p hp) hge.not_gt
      · exact .inr hp
    · rintro (rfl | hp)
      · exact ⟨.inl rfl, hcursor⟩
      · exact ⟨.inr (.inr hp), (h.unreadAbove p hp).1⟩
  refine ⟨s'.pushed.filter (s.cursor ≤ ·.1), ?_⟩
  exact { h with
    queued := fun log hlog => h.queued log (hevents ▸ mem_cons_of_mem _ hlog)
    distinct := (nodup_cons.mp (hevents ▸ h.distinct)).2
    split := by
      rw [← hread]
      exact sorted_split hsorted s.cursor
    unreadAbove := by
      intro p hp
      rcases (hunread p).mp hp with rfl | hp
      · exact ⟨hcursor, hbound⟩
      · exact h.unreadAbove p hp
    pending := by
      have hpending := pairwise_toList s.pendingRoots
      rw [h.pending] at hpending
      refine eq_of_sorted (pairwise_toList _) (pairwise_append.mpr
        ⟨(pairwise_append.mp hpending).1, hsorted.filter _, ?_⟩) ?_
      · intro p hp q hq
        have hlt := h.unpoppedBelow p hp
        have hge : s.cursor ≤ q.1 := by simpa using (mem_filter.mp hq).2
        omega
      · rintro ⟨id, root⟩
        rw [mem_toList, SortedMap.getElem?_insert, mem_append, hunread]
        split
        next heq =>
          subst heq
          constructor
          · intro hroot
            exact .inr (.inl (by rw [Option.some.inj hroot]))
          · rintro (hp | hp | hp)
            · exact absurd (h.unpoppedBelow _ hp) hcursor.not_gt
            · rw [(Prod.mk.inj hp).2]
            · have hpushed := (hold _).mpr (.inr hp)
              exact absurd hid (by simpa using (mem_filter.mp hpushed).2)
        next hne =>
          rw [← mem_toList, h.pending, mem_append]
          exact or_congr_right ⟨.inr, fun hp => hp.resolve_left fun heq => hne (Prod.mk.inj heq).1⟩ }

theorem Inv.process (h : Inv chunks unread s) (hahead : s.Ahead .process) : ∃ unread, Inv chunks unread s.process := by
  rw [System.process]
  split
  · exact ⟨unread, h⟩
  next log events hevents =>
    obtain ⟨event, -, rfl⟩ := h.queued log (by simp [hevents])
    obtain ⟨hbound, hcursor⟩ := hahead event (by simp [hevents, Log.decode])
    dsimp only [Log.decode]
    rw [if_neg (by omega)]
    split
    next hlt => exact ⟨unread, h.skip hevents hlt⟩
    next hle =>
      have hle := not_lt.mp hle
      exact h.addRoot hevents hle hbound (hcursor hle)

/-! ### Steps of the stream -/

theorem cursor_foldl (hsorted : l.Pairwise fun a b => a.1 < b.1) {cursor : Nat} (hge : ∀ p ∈ l, cursor ≤ p.1) :
    cursor ≤ l.foldl (fun _ p => p.1 + 1) cursor ∧ ∀ p ∈ l, p.1 < l.foldl (fun _ p => p.1 + 1) cursor := by
  induction l generalizing cursor with
  | nil => simp
  | cons p l ih =>
    obtain ⟨hp, hl⟩ := pairwise_cons.mp hsorted
    have hnext : ∀ q ∈ l, p.1 + 1 ≤ q.1 := hp
    obtain ⟨hle, hlt⟩ := ih hl hnext
    have hcursor := hge p mem_cons_self
    rw [foldl_cons]
    refine ⟨by omega, fun q hq => ?_⟩
    rcases mem_cons.mp hq with rfl | hq
    · omega
    · exact hlt q hq

theorem Inv.poll (h : Inv chunks unread s) : ∃ chunks' unread', Inv chunks' unread' s.poll ∧
    (unread ++ s.buffer ≠ [] → (unread' ++ s.poll.buffer).length < (unread ++ s.buffer).length) := by
  have hoverflow : unread.any (2 ^ 64 ≤ ·.1 + 1) = false := by
    rw [any_eq_false]
    intro p hp
    have hbound := (h.unreadAbove p hp).2
    simp only [decide_eq_true_eq]
    omega
  obtain ⟨hcursor, hread⟩ := cursor_foldl (pairwise_append.mp h.split_sorted).2.1 fun p hp => (h.unreadAbove p hp).1
  have hbuffer : unread.foldl (fun buffer root => root :: buffer) s.buffer = unread.reverse ++ s.buffer := by simp
  rw [System.poll, h.unreadRoots_eq, hoverflow]
  simp only [Bool.false_eq_true, if_false]
  rw [hbuffer]
  generalize hcursor' : unread.foldl (fun _ p => p.1 + 1) s.cursor = cursor at hcursor hread
  generalize hbuffer' : unread.reverse ++ s.buffer = buffer
  have hreverse : buffer.reverse = s.buffer.reverse ++ unread := by simp [← hbuffer']
  split
  next hempty =>
    refine ⟨chunks, unread, h, fun hne => absurd ?_ hne⟩
    obtain ⟨hnil, hnil'⟩ := append_eq_nil_iff.mp (hbuffer'.trans hempty)
    rw [reverse_eq_nil_iff.mp hnil, hnil', nil_append]
  next hne =>
    have hlength := length_pos_iff.mpr hne
    have hsize : buffer.length = (unread ++ s.buffer).length := by simp [← hbuffer']
    generalize hstart : buffer.length - min buffer.length s.interopRootsPerTx = startingIndex
    set chunk := (buffer.drop startingIndex).reverse
    have hpos := h.perTx
    have hchunk : chunk ≠ [] := by
      rw [← length_pos_iff, length_reverse, length_drop]
      omega
    have hchunks : chunk ++ (buffer.take startingIndex).reverse = s.buffer.reverse ++ unread := by
      rw [← reverse_append, take_append_drop, hreverse]
    have hlast : chunk.getLast? = some (chunk.getLast hchunk) := getLast?_eq_some_getLast hchunk
    rw [hlast]
    dsimp only
    refine ⟨chunks ++ [chunk], [], ?_, fun _ => by rw [nil_append, length_take, ← hsize]; omega⟩
    exact { h with
      split := by
        rw [append_nil, append_assoc, hchunks, ← append_assoc]
        exact h.split
      readBelow := by
        rw [append_assoc, hchunks, ← append_assoc]
        intro p hp
        rcases mem_append.mp hp with hp | hp
        · exact (h.readBelow p hp).trans_le hcursor
        · exact hread p hp
      unreadAbove := by simp
      yielded := by
        rw [h.yielded, map_append, map_singleton, chunkTx, hlast]
        rfl
      nonempty := by
        intro c hc
        rcases mem_append.mp hc with hc | hc
        · exact h.nonempty c hc
        · exact mem_singleton.mp hc ▸ hchunk
      suffix := by
        rw [flatten_append, flatten_singleton]
        obtain ⟨cleaned, hcleaned⟩ := h.suffix
        exact ⟨cleaned, by rw [← hcleaned, append_assoc]⟩
      popped := by
        rw [flatten_append]
        exact h.popped.trans (prefix_append _ _)
      unfinished := by
        intro c hc
        cases chunks with
        | cons c' rest => exact h.unfinished c hc
        | nil =>
          obtain rfl : chunk = c := Option.some.inj hc
          rw [prefix_nil.mp h.popped]
          exact length_pos_iff.mpr hchunk
      pending := by
        rw [append_nil, flatten_append, flatten_singleton, append_assoc, hchunks, ← append_assoc,
          drop_append_of_le_length, h.pending]
        rw [length_append]
        exact h.popped.length_le.trans (Nat.le_add_right _ _) }

/-! ### Steps of the clean-up -/

theorem toList_erase_head {m : Map Nat InteropRoot} {p : Nat × InteropRoot}
    (h : m.toList = p :: l) : (m.erase p.1).toList = l := by
  have hsorted := pairwise_toList m
  rw [h, pairwise_cons] at hsorted
  refine eq_of_sorted (pairwise_toList _) hsorted.2 ?_
  rintro ⟨id, root⟩
  rw [mem_toList, getElem?_erase]
  split
  next heq =>
    subst heq
    exact iff_of_false (by simp) fun hmem => absurd (hsorted.1 _ hmem) (Nat.lt_irrefl _)
  next hne =>
    rw [← mem_toList, h, mem_cons]
    exact ⟨fun hmem => hmem.resolve_left fun heq => hne (congrArg Prod.fst heq), .inr⟩

theorem Inv.pop (h : Inv chunks unread s) : ∃ chunks, Inv chunks unread s.pop := by
  cases chunks with
  | nil =>
    rw [pop, h.yielded]
    exact ⟨[], h⟩
  | cons chunk rest =>
    -- the first root of the transaction that is not yet popped is the least pending one
    have hlt := h.unfinished chunk rfl
    have htake : s.popped = chunk.take s.popped.length := by
      have hprefix := prefix_iff_eq_take.mp h.popped
      rwa [flatten_cons, take_append_of_le_length hlt.le] at hprefix
    generalize hn : s.popped.length = n at hlt htake
    have hdrop : chunk.drop n = chunk[n] :: chunk.drop (n + 1) := drop_eq_getElem_cons hlt
    have htake' : s.popped ++ [chunk[n]] = chunk.take (n + 1) := by
      rw [htake, take_append_getElem]
    have hpending := h.pending
    rw [hn, flatten_cons, append_assoc, drop_append_of_le_length hlt.le, hdrop, cons_append, cons_append] at hpending
    have herase := toList_erase_head hpending
    have hsubtype : (chunkTx chunk).systemSubtype = .importInteropRoots chunk.length :=
      congrArg _ (length_map _)
    rw [pop, h.yielded, map_cons]
    dsimp only
    rw [hsubtype, hpending, head?_cons]
    dsimp only
    rw [length_append, hn, length_singleton, htake']
    split
    next hmore =>
      refine ⟨chunk :: rest, { h with yielded := rfl, popped := ?_, unfinished := ?_, pending := ?_ }⟩
      · rw [flatten_cons]
        exact (List.take_prefix _ _).trans (prefix_append _ _)
      · intro c hc
        obtain rfl := Option.some.inj hc
        rw [length_take]
        omega
      · rw [flatten_cons, append_assoc, length_take, Nat.min_eq_left hmore.le, drop_append_of_le_length hmore.le]
        exact herase
    next hdone =>
      have hlength : n + 1 = chunk.length := by omega
      have hall : chunk.take (n + 1) = chunk := take_of_length_le hlength.ge
      have htx : importInteropRoots chunk (chunk[n]).1 = chunkTx chunk := by
        have hlast : chunk.getLast? = some chunk[n] := by
          rw [getLast?_eq_getElem?, ← hlength, Nat.add_sub_cancel, getElem?_eq_getElem hlt]
        rw [chunkTx, hlast]
        rfl
      rw [hall, if_pos htx]
      rw [drop_of_length_le hlength.ge, nil_append] at herase
      have hrest := fun c hc => h.nonempty c (mem_cons_of_mem chunk hc)
      exact ⟨rest, { h with
        yielded := rfl
        nonempty := hrest
        suffix := (suffix_append _ _).trans h.suffix
        popped := List.nil_prefix
        unfinished := fun c hc => length_pos_iff.mpr (hrest c (mem_of_head? hc))
        pending := herase }⟩

/-! ### Runs -/

theorem Inv.step (s : System) (event : Event) (h : ∃ chunks unread, Inv chunks unread s)
    (hallowed : s.Increasing event ∧ s.Ahead event) : ∃ chunks unread, Inv chunks unread (s.step event) := by
  obtain ⟨chunks, unread, h⟩ := h
  unfold System.step
  rw [h.failed, Option.isSome_none, if_neg Bool.false_ne_true]
  cases event with
  | fetch logs order => exact ⟨chunks, unread, h.fetch logs order hallowed.1⟩
  | process => exact ⟨chunks, h.process hallowed.2⟩
  | poll =>
    obtain ⟨chunks, unread, h, -⟩ := h.poll
    exact ⟨chunks, unread, h⟩
  | pop =>
    obtain ⟨chunks, h⟩ := h.pop
    exact ⟨chunks, unread, h⟩

theorem poll_eq (s : System) : s.poll.events = s.events ∧ s.poll.expected = s.expected := by
  unfold System.poll expected
  grind

/-- The induction is on the roots that are not yet imported. -/
theorem Inv.polled (h : Inv chunks unread s) (hevents : s.events = []) :
    ∃ polls : Nat, ((replicate polls Event.poll).foldl System.step s).imported = s.expected := by
  induction hn : (unread ++ s.buffer).length using Nat.strong_induction_on generalizing s chunks unread with
  | h n ih =>
    by_cases hnil : unread ++ s.buffer = []
    · obtain ⟨hunread, hbuffer⟩ := append_eq_nil_iff.mp hnil
      exact ⟨0, h.complete ⟨hevents, h.unreadRoots_eq.trans hunread, hbuffer⟩⟩
    · obtain ⟨chunks', unread', h', hlt⟩ := h.poll
      obtain ⟨hevents', hexpected⟩ := s.poll_eq
      obtain ⟨polls, hpolls⟩ := ih _ (hn ▸ hlt hnil) h' (hevents'.trans hevents) rfl
      have hstep : s.step .poll = s.poll := by simp [System.step, h.failed]
      exact ⟨polls + 1, by rw [replicate_succ, foldl_cons, hstep, hpolls, hexpected]⟩

theorem Inv.sound (h : Inv chunks unread s) : s.Sound where
  failed := h.failed
  inOrder := by
    have hpushed : s.imported.Sublist s.pushed := by
      rw [h.split, append_assoc]
      exact sublist_append_left _ _
    exact hpushed.trans filter_sublist
  complete := h.complete
  polled := h.polled

theorem emitted_step (s : System) (event : Event) : (s.step event).emitted = s.emitted ++ s.fetched event := by
  unfold System.step fetched
  cases event with
  | fetch logs order => grind [System.fetch]
  | process => grind [System.process]
  | poll => grind [System.poll]
  | pop => grind [System.pop]

/-- In every run in which no root is pushed after the stream has gone past its id, no assertion fails and every root
from the start on is imported once, in order. -/
theorem interop_roots_imported (startingInteropRootId interopRootsPerTx : Nat) (hpos : 0 < interopRootsPerTx)
    (events : List Event) (hrun : Run.Steps step (fun s event => s.Increasing event ∧ s.Ahead event)
      (new startingInteropRootId interopRootsPerTx) events) :
    Run.States step Sound (new startingInteropRootId interopRootsPerTx) events ∧
      (events.foldl step (new startingInteropRootId interopRootsPerTx)).emitted =
        Run.collect step fetched (new startingInteropRootId interopRootsPerTx) events := by
  have hnew : Inv [] [] (new startingInteropRootId interopRootsPerTx) := by
    constructor
    case perTx => exact hpos
    all_goals simp [new, pushed, expected, queuedIds]
  refine ⟨(Run.Steps.invariant Inv.step ⟨[], [], hnew⟩ hrun).imp ?_, ?_⟩
  · rintro s ⟨chunks, unread, h⟩
    exact h.sound
  · exact Run.eq_collect emitted_step rfl

def sampleLogs : List Log := [5, 6].map fun id => .newInteropRoot ⟨1, id, id, [0]⟩

/-- The roots of the range are pushed in the given order, with the other processes in between. -/
def sampleRun (order : List Log) : List Event :=
  [.fetch sampleLogs order, .process, .poll, .process, .pop, .poll, .pop]

theorem interop_roots_imported_in_order :
    ((sampleRun sampleLogs).foldl step (new 5 1)).imported.map (·.1) = [5, 6] ∧
      Run.States step Sound (new 5 1) (sampleRun sampleLogs) :=
  ⟨by decide +kernel, (interop_roots_imported 5 1 (by decide) (sampleRun sampleLogs) (by decide +kernel)).1⟩

/-- The hash map yields root 6 before root 5: the stream imports root 6 first and skips root 5, and
the clean-up finds another root than the one that was imported. -/
theorem root_skipped :
    let s := (sampleRun sampleLogs.reverse).foldl step (new 5 1)
    Run.Steps step Increasing (new 5 1) (sampleRun sampleLogs.reverse) ∧
      s.imported.map (·.1) = [6] ∧ s.expected.map (·.1) = [5, 6] ∧
      s.failed = some "assertion failed: envelope == tx" ∧
      ¬ Run.States step Sound (new 5 1) (sampleRun sampleLogs.reverse) := by
  refine ⟨by decide +kernel, by decide +kernel, by decide +kernel, by decide +kernel, fun h => ?_⟩
  exact absurd h.last.failed (by decide +kernel)

end System

end Mempool
