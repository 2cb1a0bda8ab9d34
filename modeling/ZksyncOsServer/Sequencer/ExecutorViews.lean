import ZksyncOsServer.StateFullDiffs.Refinement

/-!
# State views of the block executor

`OverlayBuffer` (`storage_api/src/overlay_buffer.rs`) with the two processes around it, the
loops of `BlockExecutor` and `BlockApplier`. A block is executed between two steps of the
executor, with any steps of the applier in between; its view reads the base state as it is
at that time. What execution yields, the storage writes of a block, is arbitrary.
-/
namespace Sequencer

open Fallible List
open MerkleTree (B256 Map)
open StateFullDiffs

/-! ### The overlay buffer -/

structure OverlayBuffer where
  overlays : Map Nat (Map B256 B256)

/-- `OverriddenStateView` over the base state of a block. -/
structure View where
  block : Nat
  overlays : Map Nat (Map B256 B256)

/-- `ReadStorage::read`: the most recent overlay counts. -/
def View.read (view : View) (base : FullDiffsStorage) (key : B256) : Option B256 :=
  (view.overlays.toList.reverse.findSome? fun (_, overlay) => overlay[key]?).or (base.readAt view.block key)

namespace OverlayBuffer

def purgeAlreadyPersistedBlocks (this : OverlayBuffer) (baseLatest : Nat) : Except String OverlayBuffer := do
  require (∀ first ∈ this.overlays.keys.head?, first ≤ baseLatest + 1) "Cannot clean tail: base is behind overlay tail"
  return ⟨this.overlays.filter fun block _ => baseLatest < block⟩

def stateViewAt (base : FullDiffsStorage) (block : Nat) : Except String Nat := do
  require (block ≤ base.latestBlock) "block not found"
  return block

def syncWithBaseAndBuildViewForBlock (this : OverlayBuffer) (base : FullDiffsStorage) (blockNumberToExecute : Nat) :
    Except String (OverlayBuffer × View) := do
  let baseLatest := base.latestBlock
  let this ← this.purgeAlreadyPersistedBlocks baseLatest
  let firstOverlay := this.overlays.keys.head?
  let lastOverlay := this.overlays.keys.getLast?
  if blockNumberToExecute - 1 ≤ baseLatest then
    return (this, ⟨← stateViewAt base (blockNumberToExecute - 1), this.overlays⟩)
  let baseView ← stateViewAt base baseLatest
  require (firstOverlay = some (baseLatest + 1) ∧ lastOverlay = some (blockNumberToExecute - 1))
    "Unexpected state of overlay_buffer when preparing state view"
  return (this, ⟨baseView, this.overlays⟩)

def addBlock (this : OverlayBuffer) (blockNumber : Nat) (storageWrites : List StorageWrite) :
    Except String OverlayBuffer := do
  require (∀ last ∈ this.overlays.keys.getLast?, blockNumber = last + 1) "Overlay head must be contiguous"
  return ⟨this.overlays.insert blockNumber (FullDiffsStorage.perKey storageWrites)⟩

end OverlayBuffer

/-! ### The two processes -/

/-- `BlockPayload`: `overrideAllowed` is what the applier makes of the type of the command. -/
structure BlockPayload where
  blockNumber : Nat
  storageWrites : List StorageWrite
  overrideAllowed : Bool

structure Pipeline where
  base : FullDiffsStorage
  overlayBuffer : OverlayBuffer
  next : Nat
  lastBlockNumber : Option Nat
  executing : Option View
  executorError : Option String
  queue : List BlockPayload
  appliedBlockNumber : Option Nat
  applierStopped : Bool
  /-- The writes of the blocks executed so far. -/
  executed : List (List StorageWrite)

inductive Event where
  /-- The executor has a command, passes the wait and builds the view. -/
  | prepare
  /-- The block is executed, added to the buffer and sent. -/
  | finish (storageWrites : List StorageWrite) (overrideAllowed : Bool)
  /-- The applier persists the next payload. -/
  | apply

namespace Pipeline

variable (s : Pipeline)

/-- `wait_for_block_applier` lets the executor go on; the genesis block is not waited for. -/
def mayProceed : Bool :=
  s.lastBlockNumber.all fun last => last = 0 || s.appliedBlockNumber.any (last ≤ ·)

def prepare : Pipeline :=
  if s.executing.isNone && s.executorError.isNone && s.mayProceed then
    match s.overlayBuffer.syncWithBaseAndBuildViewForBlock s.base s.next with
    | .ok (overlayBuffer, view) => { s with overlayBuffer, executing := some view }
    | .error e => { s with executorError := some e }
  else s

def finish (storageWrites : List StorageWrite) (overrideAllowed : Bool) : Pipeline :=
  if s.executing.isSome && s.executorError.isNone then
    match s.overlayBuffer.addBlock s.next storageWrites with
    | .ok overlayBuffer =>
      { s with
        overlayBuffer
        next := s.next + 1
        lastBlockNumber := some s.next
        executing := none
        queue := s.queue ++ [⟨s.next, storageWrites, overrideAllowed⟩]
        executed := s.executed ++ [storageWrites] }
    | .error e => { s with executing := none, executorError := some e }
  else s

def apply : Pipeline :=
  match s.queue with
  | [] => s
  | payload :: queue =>
    if s.applierStopped then s
    else
      match s.base.addBlock payload.blockNumber payload.storageWrites payload.overrideAllowed with
      | .ok base => { s with base, queue, appliedBlockNumber := some payload.blockNumber }
      | .error _ => { s with applierStopped := true }

def step : Event → Pipeline
  | .prepare => s.prepare
  | .finish storageWrites overrideAllowed => s.finish storageWrites overrideAllowed
  | .apply => s.apply

/-- Before the first command; the genesis block may have been replayed. -/
def start (base : FullDiffsStorage) (first : Nat) (lastBlockNumber : Option Nat) : Pipeline where
  base
  overlayBuffer := ⟨∅⟩
  next := first
  lastBlockNumber
  executing := none
  executorError := none
  queue := []
  appliedBlockNumber := none
  applierStopped := false
  executed := []

/-- A block that is persisted again without permission to override it has to leave every key as
the base state has it. -/
def Allowed : Event → Prop
  | .apply => ∀ payload ∈ s.queue.head?, payload.overrideAllowed = true ∨ s.base.latestBlock < payload.blockNumber ∨
    ∀ key, s.base.readAt payload.blockNumber key =
      (lastWrite payload.storageWrites key).or (s.base.readAt (payload.blockNumber - 1) key)
  | _ => True

/-- The value of a key after the executed blocks, on top of the base state before the first of them. -/
def expected (base : FullDiffsStorage) (first : Nat) (executed : List (List StorageWrite)) (key : B256) : Option B256 :=
  (lastWrite executed.flatten key).or (base.readAt (first - 1) key)

/-- The executor got no error, and the view of the block that is being executed reads all keys as expected. -/
def Sound (base : FullDiffsStorage) (first : Nat) (s : Pipeline) : Prop :=
  s.executorError = none ∧
    ∀ view, s.executing = some view → ∀ key, view.read s.base key = expected base first s.executed key

structure Drained (base : FullDiffsStorage) (first : Nat) (s : Pipeline) : Prop where
  queue : s.queue = []
  latest : s.next ≤ s.base.latestBlock + 1
  values : ∀ key, s.base.readAt (s.next - 1) key = expected base first s.executed key

structure Pending (base : FullDiffsStorage) (first : Nat) (s : Pipeline) : Prop where
  idle : s.executing = none
  waiting : s.mayProceed = false
  next : 2 ≤ s.next
  latest : s.next - 1 ≤ s.base.latestBlock + 1
  payload : ∃ writes overrideAllowed before, s.queue = [⟨s.next - 1, writes, overrideAllowed⟩] ∧
    s.executed = before ++ [writes] ∧ ∀ key, s.base.readAt (s.next - 2) key = expected base first before key

structure Inv (base : FullDiffsStorage) (first : Nat) (s : Pipeline) : Prop where
  error : s.executorError = none
  positive : 1 ≤ s.next
  chain : ∃ chain, chain ≠ [] ∧ Represents s.base chain
  overlays : ∀ block overlay, s.overlayBuffer.overlays[block]? = some overlay → block < s.next
  applied : ∀ block, s.appliedBlockNumber = some block → block < s.next
  executing : ∀ view, s.executing = some view → s.overlayBuffer.overlays = ∅ ∧ view = ⟨s.next - 1, ∅⟩
  phase : Drained base first s ∨ Pending base first s

section Proofs
variable {base : FullDiffsStorage} {first : Nat} {s : Pipeline}

theorem Inv.sound (h : Inv base first s) : Sound base first s := by
  refine ⟨h.error, fun view hview key => ?_⟩
  obtain ⟨-, rfl⟩ := h.executing view hview
  rcases h.phase with hd | hp
  · exact hd.values key
  · rw [hp.idle] at hview
    cases hview

theorem sync_of_latest {buffer : OverlayBuffer} {storage : FullDiffsStorage} {n : Nat}
    (hoverlays : ∀ block overlay, buffer.overlays[block]? = some overlay → block < n)
    (hn : n ≤ storage.latestBlock + 1) : buffer.syncWithBaseAndBuildViewForBlock storage n = .ok (⟨∅⟩, ⟨n - 1, ∅⟩) := by
  have hkeys : ∀ block ∈ buffer.overlays.keys.head?, block ≤ storage.latestBlock + 1 := by
    intro block hblock
    obtain ⟨overlay, ho⟩ := SortedMap.mem_keys.mp (mem_of_head? hblock)
    have hlt := hoverlays block overlay ho
    omega
  have hempty : (buffer.overlays.filter fun block _ => decide (storage.latestBlock < block)) = ∅ := by
    rw [← Std.ExtTreeMap.isEmpty_iff, SortedMap.isEmpty_iff]
    intro block overlay ho
    obtain ⟨ho, hlt⟩ := (SortedMap.getElem?_filter _ _).mp ho
    have hlt' := hoverlays block overlay ho
    simp only [decide_eq_true_eq] at hlt
    omega
  rw [OverlayBuffer.syncWithBaseAndBuildViewForBlock, OverlayBuffer.purgeAlreadyPersistedBlocks, require_pos hkeys,
    ok_bind, hempty]
  simp only [pure_bind]
  rw [if_pos (by omega), OverlayBuffer.stateViewAt, require_pos (by omega)]
  rfl

theorem Inv.prepare (h : Inv base first s) : Inv base first s.prepare := by
  rw [Pipeline.prepare]
  split
  next hcond =>
    simp only [Bool.and_eq_true, Option.isNone_iff_eq_none] at hcond
    rcases h.phase with hd | hp
    · rw [sync_of_latest h.overlays hd.latest]
      exact {
        error := h.error
        positive := h.positive
        chain := h.chain
        overlays := by simp
        applied := h.applied
        executing := fun view hview => ⟨rfl, (Option.some.inj hview).symm⟩
        phase := .inl ⟨hd.queue, hd.latest, hd.values⟩ }
    · rw [hp.waiting] at hcond
      exact absurd hcond.2 (by simp)
  · exact h

theorem Inv.finish (h : Inv base first s) (writes : List StorageWrite) (overrideAllowed : Bool) :
    Inv base first (s.finish writes overrideAllowed) := by
  rw [Pipeline.finish]
  split
  next hcond =>
    obtain ⟨view, hview⟩ : ∃ view, s.executing = some view := by
      rw [← Option.isSome_iff_exists]
      exact (Bool.and_eq_true_iff.mp hcond).1
    obtain ⟨hempty, -⟩ := h.executing view hview
    have hd : Drained base first s := h.phase.resolve_right fun hp => by
      rw [hp.idle] at hview
      cases hview
    have hadd : s.overlayBuffer.addBlock s.next writes = .ok ⟨(∅ : Map Nat (Map B256 B256)).insert s.next
        (FullDiffsStorage.perKey writes)⟩ := by
      rw [OverlayBuffer.addBlock, hempty]
      rfl
    rw [hadd]
    have hpositive := h.positive
    have hlatest := hd.latest
    exact {
      error := h.error
      positive := Nat.le_add_left 1 s.next
      chain := h.chain
      overlays := by
        intro block overlay ho
        rw [SortedMap.getElem?_insert] at ho
        split at ho
        next heq =>
          exact heq ▸ Nat.lt_succ_self _
        · simp at ho
      applied := fun block hb => Nat.lt_succ_of_lt (h.applied block hb)
      executing := fun view hview => by cases hview
      phase := .inr {
        idle := rfl
        waiting := by
          have happlied : s.appliedBlockNumber.any (s.next ≤ ·) = false := by
            rw [Option.any_eq_false]
            intro block hb
            simpa using h.applied block hb
          simp only [mayProceed, Option.all_some, happlied, Bool.or_false, decide_eq_false_iff_not]
          omega
        next := Nat.succ_le_succ hpositive
        latest := hlatest
        payload := ⟨writes, overrideAllowed, s.executed, by simp [hd.queue], rfl, hd.values⟩ } }
  · exact h

theorem expected_append (executed : List (List StorageWrite)) (writes : List StorageWrite) (key : B256) :
    expected base first (executed ++ [writes]) key = (lastWrite writes key).or (expected base first executed key) := by
  rw [expected, expected, flatten_append, lastWrite_append, flatten_singleton, Option.or_assoc]

theorem readAt_addBlock {storage storage' : FullDiffsStorage} {chain : Chain} {n : Nat} {writes : List StorageWrite}
    {overrideAllowed : Bool} (hrep : Represents storage chain) (hne : chain ≠ []) (hn : 1 ≤ n)
    (hle : n ≤ storage.latestBlock + 1) (hadd : storage.addBlock n writes overrideAllowed = .ok storage')
    (hagrees : overrideAllowed = true ∨ storage.latestBlock < n ∨
      ∀ key, storage.readAt n key = (lastWrite writes key).or (storage.readAt (n - 1) key)) :
    (∃ chain', chain' ≠ [] ∧ Represents storage' chain') ∧ n ≤ storage'.latestBlock ∧
      ∀ key, storage'.readAt n key = (lastWrite writes key).or (storage.readAt (n - 1) key) := by
  have hlen := length_pos_iff.mpr hne
  have hlatest := hrep.latest
  have hvalid : Call.Valid chain ⟨n, writes, overrideAllowed⟩ := ⟨by simp only; omega, fun hzero => by simp only at hzero; omega⟩
  have hrep' := hrep.addBlock hvalid hadd
  have hlatest' := hrep'.latest
  have hread : ∀ key, storage.readAt (n - 1) key = chain.valueAt (n - 1) key :=
    fun key => storage.readAt_eq hrep.rows (by omega) key
  by_cases hkeep : overrideAllowed = false ∧ n < chain.length
  · have hchain : chain.serve ⟨n, writes, overrideAllowed⟩ = chain := by simp [Chain.serve, Chain.addBlock, hkeep]
    rw [hchain] at hrep' hlatest'
    refine ⟨⟨chain, hne, hrep'⟩, by omega, fun key => ?_⟩
    have hsame : storage'.readAt n key = storage.readAt n key :=
      (storage'.readAt_eq hrep'.rows (by omega) key).trans (storage.readAt_eq hrep.rows (by omega) key).symm
    rw [hsame]
    rcases hagrees with htrue | hlt | hagrees
    · rw [hkeep.1] at htrue; cases htrue
    · omega
    · exact hagrees key
  · have hchain : chain.serve ⟨n, writes, overrideAllowed⟩ = chain.take n ++ [writes] := by
      rw [Chain.serve, Chain.addBlock, if_neg]
      simpa using hkeep
    rw [hchain] at hrep' hlatest'
    have hlen' : (chain.take n ++ [writes]).length = n + 1 := by
      rw [length_append, length_take, length_singleton]
      omega
    refine ⟨⟨_, by simp, hrep'⟩, by omega, fun key => ?_⟩
    rw [storage'.readAt_eq hrep'.rows (by omega) key, Chain.valueAt, take_of_length_le (by omega), flatten_append,
      lastWrite_append, flatten_singleton, hread, Chain.valueAt, Nat.sub_add_cancel hn]

theorem Inv.apply (h : Inv base first s) (hallowed : s.Allowed .apply) : Inv base first s.apply := by
  rcases h.phase with hd | hp
  · rw [Pipeline.apply, hd.queue]
    exact h
  · obtain ⟨writes, overrideAllowed, before, hqueue, hexecuted, hvalues⟩ := hp.payload
    rw [Pipeline.apply, hqueue]
    dsimp only
    split
    · exact h
    · cases hadd : s.base.addBlock (s.next - 1) writes overrideAllowed with
      | error e =>
        exact { h with
          phase := .inr ⟨hp.idle, hp.waiting, hp.next, hp.latest, writes, overrideAllowed, before, rfl, hexecuted, hvalues⟩ }
      | ok base' =>
        obtain ⟨chain, hne, hrep⟩ := h.chain
        have hnext := hp.next
        have hstep := readAt_addBlock hrep hne (by omega) hp.latest hadd
          (hallowed ⟨s.next - 1, writes, overrideAllowed⟩ (by rw [hqueue]; rfl))
        obtain ⟨hchain, hlatest, hread⟩ := hstep
        exact {
          error := h.error
          positive := h.positive
          chain := hchain
          overlays := h.overlays
          applied := fun block hb => by
            obtain rfl := Option.some.inj hb
            exact Nat.sub_lt h.positive Nat.one_pos
          executing := h.executing
          phase := .inl {
            queue := rfl
            latest := by simp only; omega
            values := fun key => by
              rw [hexecuted, expected_append, ← hvalues key]
              exact hread key } }

theorem Inv.step (s : Pipeline) (event : Event) (h : Inv base first s) (hallowed : s.Allowed event) :
    Inv base first (s.step event) := by
  cases event with
  | prepare => exact h.prepare
  | finish writes overrideAllowed => exact h.finish writes overrideAllowed
  | apply => exact h.apply hallowed

/-- In every interleaving in which blocks that are persisted again leave all keys as they are, every block is
executed on the state after the blocks before it, and building its view does not fail. -/
theorem executor_views_sound (calls : List Call) (base : FullDiffsStorage) (hne : calls ≠ [])
    (hvalid : Run.Steps Chain.serve (fun chain call => call.Valid chain) [] calls) (hrun : StateFullDiffs.run calls = .ok base)
    (first : Nat) (hpos : 1 ≤ first) (hfirst : first ≤ base.latestBlock + 1) (lastBlockNumber : Option Nat)
    (events : List Event) (hallowed : Run.Steps step Allowed (start base first lastBlockNumber) events) :
    Run.States step (Sound base first) (start base first lastBlockNumber) events := by
  have hstart : Inv base first (start base first lastBlockNumber) := {
    error := rfl
    positive := hpos
    chain := ⟨_, foldl_serve_ne_nil hne, represents_empty.foldlM hvalid hrun⟩
    overlays := by simp [start]
    applied := by simp [start]
    executing := by simp [start]
    phase := .inl ⟨rfl, hfirst, fun key => rfl⟩ }
  exact (Run.Steps.invariant Inv.step hstart hallowed).imp fun s h => h.sound

/-- Block 0 and a block 1 that writes key 7. -/
def persistedCalls : List Call := [⟨0, [], false⟩, ⟨1, [⟨7, 5⟩], false⟩]

theorem persistedCalls_valid : Run.Steps Chain.serve (fun chain call => call.Valid chain) [] persistedCalls := by
  simp [persistedCalls, Run.Steps, Call.Valid, Chain.serve, Chain.addBlock]

def secondBlock (writes : List StorageWrite) (overrideAllowed : Bool) : List Event :=
  [.prepare, .finish writes overrideAllowed, .apply, .prepare]

/-- Block 1 is rebuilt with another write; the next block reads it, and no longer that of the old block 1. -/
theorem executor_views_sound_rebuild : ∃ base, StateFullDiffs.run persistedCalls = .ok base ∧
      ((secondBlock [⟨8, 6⟩] true).foldl step (start base 1 none)).executing.map (fun view =>
        [7, 8].map (view.read ((secondBlock [⟨8, 6⟩] true).foldl step (start base 1 none)).base)) = some [none, some 6] ∧
      Run.States step (Sound base 1) (start base 1 none) (secondBlock [⟨8, 6⟩] true) := by
  obtain ⟨base, hrun⟩ := exists_of_isOk (by decide +kernel : (StateFullDiffs.run persistedCalls).isOk = true)
  have hreads : (StateFullDiffs.run persistedCalls).toOption.map (fun base =>
      ((secondBlock [⟨8, 6⟩] true).foldl step (start base 1 none)).executing.map (fun view =>
        [7, 8].map (view.read ((secondBlock [⟨8, 6⟩] true).foldl step (start base 1 none)).base))) =
        some (some [none, some 6]) := by
    decide +kernel
  rw [hrun] at hreads
  refine ⟨base, hrun, Option.some.inj hreads, executor_views_sound persistedCalls base (by simp [persistedCalls]) persistedCalls_valid hrun 1
    (Nat.le_refl 1) (Nat.le_add_left 1 _) none (secondBlock [⟨8, 6⟩] true) ?_⟩
  have hqueue : (StateFullDiffs.run persistedCalls).toOption.map (fun base =>
      ((((start base 1 none).step .prepare).step (.finish [⟨8, 6⟩] true)).queue.head?.all (·.overrideAllowed))) =
        some true := by
    decide +kernel
  rw [hrun] at hqueue
  refine ⟨trivial, trivial, fun payload hp => .inl ?_, trivial, trivial⟩
  exact (Option.all_eq_true _ _).mp (Option.some.inj hqueue) payload hp

/-- Block 1 is replayed without writes: key 7 keeps the value of the old block 1. -/
theorem replayed_block_misses_write : (StateFullDiffs.run persistedCalls).toOption.map (fun base =>
        (((secondBlock [] false).foldl step (start base 1 none)).executing.map fun view =>
          view.read ((secondBlock [] false).foldl step (start base 1 none)).base 7, expected base 1 [[]] 7)) =
      some (some (some 5), none) := by
  decide +kernel

end Proofs

end Pipeline

end Sequencer
