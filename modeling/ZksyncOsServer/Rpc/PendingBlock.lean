import ZksyncOsServer.Replay.ReadBack
import ZksyncOsServer.Sequencer.ProduceReplay

/-!
# The context of the pending block

`rpc/src/eth_call_handler.rs`: calls at the pending block run in a context that is built from the last
record of the replay log. It is compared with the context in which the sequencer produces the next block.
-/
namespace PendingBlock

open BlockExecutor Fallible Replay
open MerkleTree (B256)
open Types (Primitives ZkTransaction)

def rotateLeft (blockHashes : BlockHashes) : BlockHashes := fun i => blockHashes (i + 1)

def buildPendingBlockContext (storage : BlockReplayStorage ZkTransaction) (chainId now : Nat) :
    Except String BlockContext := do
  let latestBlockNumber ← storage.latestRecord
  let latestBlock ← ofOption "latest block record must exist" (← storage.getReplayRecord latestBlockNumber)
  let blockHashes := Function.update (rotateLeft latestBlock.blockContext.blockHashes) 255 latestBlock.blockOutputHash
  return { latestBlock.blockContext with
    chainId
    blockNumber := latestBlockNumber + 1
    blockHashes
    timestamp := now }

theorem update_rotateLeft (blockHashes : BlockHashes) (hash : B256) :
    Function.update (rotateLeft blockHashes) 255 hash = blockHashes.push hash := by
  funext i
  rw [Function.update_apply, BlockHashes.push]
  by_cases hi : i.val + 1 < 256
  · have hne : i ≠ 255 := by rintro rfl; simp at hi
    have hnext : i + 1 = ⟨i.val + 1, hi⟩ := Fin.ext (by simp [Fin.val_add]; omega)
    rw [if_neg hne, dif_pos hi, rotateLeft, hnext]
  · have hlast : i = 255 := Fin.ext (by have := i.isLt; simp; omega)
    rw [if_pos hlast, dif_neg hi]

theorem push_eq_push {blockHashes : BlockHashes} {hash hash' : B256} :
    blockHashes.push hash = blockHashes.push hash' ↔ hash = hash' :=
  ⟨fun h => congrFun h 255, congrArg _⟩

theorem push_apply_of_ne (blockHashes : BlockHashes) (hash hash' : B256) {i : Fin 256} (hi : i ≠ 255) :
    blockHashes.push hash i = blockHashes.push hash' i := by
  have hlt : i.val + 1 < 256 := by
    have hne : i.val ≠ 255 := fun h => hi (Fin.ext h)
    omega
  simp [BlockHashes.push, hlt]

/-! ### Chains -/

/-- The commands that extend the last block: a produced one, or the replay of a record of the chain. The
checks of `replay` leave out the hash of the last block itself. -/
inductive Prepared (config : Config) (last : LastBlock) : PreparedBlockCommand → Prop where
  | produced {feeParams : FeeParams} {timestamp : Nat} {upgradeMetadata : Option UpgradeMetadata}
      {command : PreparedBlockCommand} {txs : List ZkTransaction}
      (h : produce config last feeParams timestamp upgradeMetadata = .ok (command, txs)) : Prepared config last command
  | replayed {record : ReplayRecord ZkTransaction} {command : PreparedBlockCommand} {txs : List ZkTransaction}
      (h : replay config (some last) record = .ok (some (command, txs)))
      (hhash : record.blockContext.blockHashes 255 = last.hash)
      (hchain : record.blockContext.chainId = config.l2ChainId) : Prepared config last command

/-- The replay log and the last block of the sequencer, from genesis on: every block is executed, becomes the
last block with the hash of its header, and is appended to the log. -/
inductive Chain (primitives : Primitives) (config : Config) : LogState ZkTransaction → LastBlock → Prop where
  | genesis (record : SealedRecord ZkTransaction) (cursors : BlockStartCursors) (hnumber : record.number = 0)
      (hfollows : Follows [] record) (hchain : record.blockContext.chainId = config.l2ChainId)
      (hw : (LogState.empty config.l2ChainId).writes record false = true) :
      Chain primitives config ((LogState.empty config.l2ChainId).step (.write record false))
        ⟨record.toReplayRecord, record.hash, cursors⟩
  | block {s : LogState ZkTransaction} {last : LastBlock} (h : Chain primitives config s last) {S : Type} (vm : Vm S)
      {nodeVersion : String} {validated : Bool} {command : PreparedBlockCommand} {events : List Event}
      {executed : Executed} (hcommand : Prepared config last command)
      (hexecuted : executeBlockInVm primitives vm nodeVersion validated command events = .ok (some executed))
      (hw : s.writes ⟨executed.record, executed.output.header.hash⟩ false = true) (cursors : BlockStartCursors) :
      Chain primitives config (s.step (.write ⟨executed.record, executed.output.header.hash⟩ false))
        ⟨executed.record, executed.output.header.hash, cursors⟩

section Chains
variable {primitives : Primitives} {config : Config} {last : LastBlock} {s : LogState ZkTransaction}

structure Continues (config : Config) (last : LastBlock) (command : PreparedBlockCommand) : Prop where
  number : command.blockContext.blockNumber = last.record.blockContext.blockNumber + 1
  window : command.blockContext.blockHashes = last.record.blockContext.blockHashes.push last.hash
  timestamp : command.previousBlockTimestamp = last.record.blockContext.timestamp
  chainId : command.blockContext.chainId = config.l2ChainId

theorem produce_continues {feeParams : FeeParams} {timestamp : Nat} {upgradeMetadata : Option UpgradeMetadata}
    {command : PreparedBlockCommand} {txs : List ZkTransaction}
    (h : produce config last feeParams timestamp upgradeMetadata = .ok (command, txs)) : Continues config last command := by
  obtain ⟨⟨version, preimages⟩, -, h⟩ := bind_eq_ok.mp h
  obtain ⟨execution, -, h⟩ := bind_eq_ok.mp h
  obtain ⟨rfl, -⟩ := Prod.mk.inj (pure_eq_ok.mp h)
  exact ⟨rfl, rfl, rfl, rfl⟩

theorem eq_push_of_shifted {window next : BlockHashes} {hash : B256}
    (h : ∀ i : Fin 255, window i.succ = next i.castSucc) (hlast : next 255 = hash) : next = window.push hash := by
  funext i
  rw [BlockHashes.push]
  split
  next hi =>
    exact (h ⟨i.val, by omega⟩).symm
  · have hi : i = 255 := Fin.ext (by have := i.isLt; simp; omega)
    rw [hi, hlast]

theorem Prepared.continues {command : PreparedBlockCommand} (h : Prepared config last command) :
    Continues config last command := by
  cases h with
  | produced h => exact produce_continues h
  | @replayed record command txs h hhash hchain =>
    have hcommand : command = replayCommand config record := (Prod.mk.inj (replay_eq_ok h)).1
    rw [replay] at h
    split at h
    · simp at h
    · obtain ⟨_, hchecks, -⟩ := bind_eq_ok.mp h
      simp only [checkFollows, bind_eq_ok, require_eq_ok] at hchecks
      obtain ⟨-, hnumber, -, htimestamp, hshifted⟩ := hchecks
      rw [hcommand]
      exact ⟨hnumber.symm, eq_push_of_shifted hshifted hhash, htimestamp.symm, hchain⟩

structure Synced (config : Config) (s : LogState ZkTransaction) (last : LastBlock) : Prop where
  refines : Refines s
  waves : InWaves s.log
  getLast : s.log.getLast? = some ⟨last.record, last.hash⟩
  latest : s.storage.latest = some (.number last.record.blockContext.blockNumber)
  chainId : s.storage.chainId = config.l2ChainId

theorem Synced.canonical (h : Synced config s last) :
    canonical s.log last.record.blockContext.blockNumber = some ⟨last.record, last.hash⟩ := by
  obtain ⟨log, hlog⟩ := List.getLast?_eq_some_iff.mp h.getLast
  rw [hlog, canonical_append]
  exact if_pos rfl

variable {record : SealedRecord ZkTransaction}

theorem latest_of_write {storage storage' : BlockReplayStorage ZkTransaction} {record : SealedRecord ZkTransaction}
    (hw : storage.write record false = .ok (true, storage'))
    (hnext : ∀ n, storage.latest = some (.number n) → n < record.number) :
    storage'.latest = some (.number record.number) := by
  have hwritten : Written storage record true storage' := by
    rcases write_eq_true hw with ⟨-, -, hw⟩ | ⟨n, hn, -, ⟨-, hw⟩ | ⟨hle, -⟩⟩
    · exact hw
    · exact hw
    · exact absurd (hnext n hn) (Nat.not_lt.mpr hle)
  rcases hwritten.latest with ⟨hl, -⟩ | ⟨-, n, hle, hn⟩
  · exact hl
  · exact absurd (hnext n hn) (Nat.not_lt.mpr hle)

theorem step_of_writes (hw : s.writes record false = true) :
    ∃ storage, s.storage.write record false = .ok (true, storage) ∧
      s.step (.write record false) = ⟨storage, s.log ++ [record]⟩ := by
  rw [LogState.writes, Option.any_eq_true] at hw
  obtain ⟨⟨written, storage⟩, hw, rfl⟩ := hw
  have hok := toOption_eq_some.mp hw
  exact ⟨storage, hok, by rw [LogState.step, hok]⟩

theorem synced_of_write (h : Refines s) (hwaves : InWaves (s.log ++ [record]))
    (hid : s.storage.chainId = config.l2ChainId) (hw : s.writes record false = true) (hfollows : Follows s.log record)
    (hchain : record.blockContext.chainId = config.l2ChainId)
    (hnext : ∀ n, s.storage.latest = some (.number n) → n < record.number) (cursors : BlockStartCursors) :
    Synced config (s.step (.write record false)) ⟨record.toReplayRecord, record.hash, cursors⟩ := by
  have hrefines := Refines.step s (.write record false) h fun _ => ⟨hfollows, hchain.trans hid.symm⟩
  obtain ⟨storage, hok, hs⟩ := step_of_writes hw
  rw [hs] at hrefines ⊢
  exact ⟨hrefines, hwaves, by simp, latest_of_write hok hnext, (h.stores.write hok).2.trans hid⟩

theorem Chain.synced (h : Chain primitives config s last) : Synced config s last := by
  induction h with
  | genesis record cursors hnumber hfollows hchain hw =>
    have hempty : Refines (LogState.empty config.l2ChainId : LogState ZkTransaction) :=
      ⟨stores_empty _, fun r hr => absurd hr List.not_mem_nil, fun _ last hlast => by cases hlast⟩
    exact synced_of_write hempty (List.isChain_singleton _) rfl hw hfollows hchain nofun cursors
  | @block s last _ S vm nodeVersion validated command events executed hcommand hexecuted hw cursors ih =>
    obtain ⟨_, _, -, hseal⟩ := executeBlockInVm_eq_ok.mp hexecuted
    obtain ⟨-, _, -, -, -, hrecord⟩ := sealAndReturn_eq_ok.mp hseal
    obtain ⟨hnumber, hhashes, htimestamp, hchain⟩ := hcommand.continues
    have hcontext : executed.record.blockContext = command.blockContext := by rw [hrecord]
    have hprevious : executed.record.previousBlockTimestamp = command.previousBlockTimestamp := by rw [hrecord]
    have hnext : SealedRecord.number ⟨executed.record, executed.output.header.hash⟩ =
        last.record.blockContext.blockNumber + 1 := by rw [SealedRecord.number, hcontext, hnumber]
    refine synced_of_write ih.refines ?_ ih.chainId hw ?_ (by rw [hcontext, hchain]) (fun n hn => ?_) cursors
    · refine List.isChain_append.mpr ⟨ih.waves, List.isChain_singleton _, fun a ha b hb => ?_⟩
      obtain rfl : ⟨last.record, last.hash⟩ = a := by simpa [ih.getLast] using ha
      obtain rfl : ⟨executed.record, executed.output.header.hash⟩ = b := by simpa using hb
      exact hnext.le
    · exact (follows_succ hnext).mpr ⟨_, ih.canonical, by rw [hcontext, hhashes], by rw [hprevious, htimestamp]⟩
    · rw [ih.latest] at hn
      cases hn
      omega

/-- The pending context holds the output hash of the last block where the next block will have its hash. -/
theorem Synced.buildPendingBlockContext (h : Synced config s last) (chainId now : Nat) :
    buildPendingBlockContext s.storage chainId now = .ok { last.record.blockContext with
      chainId
      blockNumber := last.record.blockContext.blockNumber + 1
      blockHashes := last.record.blockContext.blockHashes.push last.record.blockOutputHash
      timestamp := now } := by
  have hlinked := h.refines.waves h.waves _ h.getLast
  obtain ⟨record, hrecord, hread, -⟩ := h.refines.stores.readsBack h.refines.chainId fun n hn _ => hlinked n hn
  obtain rfl := Option.some.inj (h.canonical.symm.trans hrecord)
  have hread : s.storage.getReplayRecord last.record.blockContext.blockNumber = .ok (some last.record) := hread
  have hlatest : s.storage.latestRecord = .ok last.record.blockContext.blockNumber := by
    rw [BlockReplayStorage.latestRecord, BlockReplayStorage.latestRecordChecked, h.latest]
    rfl
  rw [PendingBlock.buildPendingBlockContext, hlatest, ok_bind, hread, ok_bind, ofOption_some, ok_bind]
  dsimp only
  rw [update_rotateLeft]
  rfl

/-- The last block after genesis has the hash of its header; its record has the hash of the whole output. -/
theorem Chain.exists_output (h : Chain primitives config s last) (hblock : last.record.blockContext.blockNumber ≠ 0) :
    ∃ output : BlockOutput, last.hash = output.header.hash ∧
      last.record.blockOutputHash = hashBlockOutput primitives output := by
  cases h with
  | genesis record cursors hnumber => exact absurd hnumber hblock
  | block _ vm _ hexecuted =>
    obtain ⟨_, _, -, hseal⟩ := executeBlockInVm_eq_ok.mp hexecuted
    obtain ⟨-, _, -, -, -, rfl⟩ := sealAndReturn_eq_ok.mp hseal
    exact ⟨_, rfl, rfl⟩

/-- On every chain past genesis, the window of the pending block and the window of the block that is produced
next agree on all older hashes, and on the hash of the last block exactly if the hash of its whole output is
the hash of its header. -/
theorem pending_window_iff (h : Chain primitives config s last) (hblock : last.record.blockContext.blockNumber ≠ 0)
    {feeParams : FeeParams} {timestamp : Nat} {upgradeMetadata : Option UpgradeMetadata}
    {next : PreparedBlockCommand} {txs : List ZkTransaction}
    (hnext : produce config last feeParams timestamp upgradeMetadata = .ok (next, txs)) (chainId now : Nat) :
    ∃ (output : BlockOutput) (pending : BlockContext),
      last.hash = output.header.hash ∧ last.record.blockOutputHash = hashBlockOutput primitives output ∧
      buildPendingBlockContext s.storage chainId now = .ok pending ∧
      pending.blockNumber = next.blockContext.blockNumber ∧
      (∀ i, i ≠ 255 → pending.blockHashes i = next.blockContext.blockHashes i) ∧
      (pending.blockHashes = next.blockContext.blockHashes ↔
        hashBlockOutput primitives output = output.header.hash) := by
  obtain ⟨output, hhash, houtput⟩ := h.exists_output hblock
  obtain ⟨hnumber, hhashes, -⟩ := produce_continues hnext
  refine ⟨output, _, hhash, houtput, h.synced.buildPendingBlockContext chainId now, hnumber.symm, fun i hi => ?_, ?_⟩
  · rw [hhashes]
    exact push_apply_of_ne _ _ _ hi
  · rw [hhashes, push_eq_push, houtput, hhash]

end Chains

/-! ### A chain of two blocks -/

def sampleGenesis : SealedRecord ZkTransaction := ⟨sampleLast.record, sampleLast.hash⟩

def sampleWal : LogState ZkTransaction := (LogState.empty 270).step (.write sampleGenesis false)

/-- The block of `sampleCommand`, whose header has the hash 2. -/
def sampleBlock (primitives : Primitives) : SealedRecord ZkTransaction :=
  ⟨{ sampleExecuted.record with blockOutputHash := hashBlockOutput primitives sampleOutput }, 2⟩

def sampleTip (primitives : Primitives) : LastBlock := ⟨(sampleBlock primitives).toReplayRecord, 2, ⟨1, 0, 0, 0⟩⟩

theorem sampleChain {primitives : Primitives} (hexecuted : executeBlockInVm primitives sampleVm "1.0.0" true sampleCommand
      sampleEvents = .ok (some { sampleExecuted with record := (sampleBlock primitives).toReplayRecord })) :
    Chain primitives sampleConfig (sampleWal.step (.write (sampleBlock primitives) false)) (sampleTip primitives) :=
  have hgenesis : Chain primitives sampleConfig sampleWal sampleLast :=
    .genesis sampleGenesis _ rfl ⟨rfl, rfl⟩ rfl (by decide +kernel)
  have hproduce : produce sampleConfig sampleLast ⟨1, 3, 2⟩ 1001 none =
      .ok (sampleCommand, [ofSystemTx (.setSLChainId 1 (2 ^ 64 - 1))]) := by rfl
  .block hgenesis sampleVm (.produced hproduce) hexecuted rfl _

/-- The hash of the last block is 2, but its output hash is read at the pending block. -/
theorem pending_window_differs :
    Chain samplePrimitives sampleConfig (sampleWal.step (.write (sampleBlock samplePrimitives) false))
        (sampleTip samplePrimitives) ∧
      ((buildPendingBlockContext (sampleWal.step (.write (sampleBlock samplePrimitives) false)).storage 270
        1002).toOption.map fun pending => pending.blockHashes 255) = some (hashBlockOutput samplePrimitives sampleOutput) ∧
      hashBlockOutput samplePrimitives sampleOutput ≠ 2 ∧
      ((produce sampleConfig (sampleTip samplePrimitives) ⟨1, 3, 2⟩ 1002 none).toOption.map fun next =>
        next.1.blockContext.blockHashes 255) = some 2 :=
  ⟨sampleChain (by decide +kernel), by decide +kernel, by decide +kernel, by decide +kernel⟩

/-- The hash of an input is its first word. -/
def firstWordPrimitives : Primitives := { samplePrimitives with keccak256 := fun bytes => Types.B256.ofBytes (bytes.take 32) }

theorem pending_window_iff_firstWord :
    ∃ (output : BlockOutput) (pending : BlockContext), hashBlockOutput firstWordPrimitives output = output.header.hash ∧
      buildPendingBlockContext (sampleWal.step (.write (sampleBlock firstWordPrimitives) false)).storage 270 1002 =
        .ok pending ∧ pending.blockHashes = (sampleTip firstWordPrimitives).record.blockContext.blockHashes.push 2 := by
  have hchain : Chain firstWordPrimitives sampleConfig (sampleWal.step (.write (sampleBlock firstWordPrimitives) false))
      (sampleTip firstWordPrimitives) := sampleChain (by decide +kernel)
  obtain ⟨next, hnext, hhashes⟩ : ∃ next, produce sampleConfig (sampleTip firstWordPrimitives) ⟨1, 3, 2⟩ 1002 none =
      .ok (next, []) ∧ next.blockContext.blockHashes =
        (sampleTip firstWordPrimitives).record.blockContext.blockHashes.push 2 := ⟨_, rfl, rfl⟩
  obtain ⟨output, pending, hhash, houtput, hpending, -, -, hiff⟩ :=
    pending_window_iff hchain (by decide) hnext 270 1002
  have hword : (sampleTip firstWordPrimitives).record.blockOutputHash = 2 := by decide +kernel
  have hequal : hashBlockOutput firstWordPrimitives output = output.header.hash :=
    houtput.symm.trans (hword.trans hhash)
  exact ⟨output, pending, hequal, hpending, (hiff.mpr hequal).trans hhashes⟩

end PendingBlock
