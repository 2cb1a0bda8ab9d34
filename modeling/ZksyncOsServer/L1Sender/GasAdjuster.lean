import ZksyncOsServer.Lib.Fallible
import ZksyncOsServer.Lib.Run

/-!
# Fee history of the gas adjuster

`gas_adjuster/src/lib.rs` and `statistics.rs`. The fees of the L1 blocks since the last update are requested in
chunks and added to the samples; the last processed block is counted from the number of samples received.
-/
namespace GasAdjuster

open Fallible List Run

structure BaseFees where
  baseFeePerGas : Nat
  baseFeePerBlobGas : Nat
  deriving DecidableEq

structure FeeHistory where
  oldestBlock : Nat
  baseFeePerGas : List Nat
  baseFeePerBlobGas : List Nat

/-- The answer to `eth_feeHistory`: the fees of as many blocks up to the newest one, and those of the next block. -/
def ethFeeHistory (fees : Nat → BaseFees) (blockCount newest : Nat) : FeeHistory :=
  let blocks := List.range' (newest + 1 - blockCount) (blockCount + 1)
  ⟨newest + 1 - blockCount, blocks.map fun block => (fees block).baseFeePerGas,
    blocks.map fun block => (fees block).baseFeePerBlobGas⟩

def feeHistoryMaxRequestChunk : Nat := 1023

def chunkFees (fees : Nat → BaseFees) (uptoBlock chunkStart : Nat) : Except String (List BaseFees) := do
  let chunkEnd := min (chunkStart + feeHistoryMaxRequestChunk) uptoBlock
  let chunkSize := chunkEnd - chunkStart + 1
  let feeHistory := ethFeeHistory fees chunkSize chunkEnd
  require (feeHistory.oldestBlock = chunkStart) "unexpected oldest_block"
  return ((feeHistory.baseFeePerGas.zip feeHistory.baseFeePerBlobGas).take chunkSize).map fun fee => ⟨fee.1, fee.2⟩

/-- The starts of the chunks, `(from_block..=upto_block).step_by(..)`. -/
def chunkStarts (fromBlock uptoBlock : Nat) : List Nat :=
  (List.range ((uptoBlock - fromBlock) / feeHistoryMaxRequestChunk + 1)).map (fromBlock + feeHistoryMaxRequestChunk * ·)

def baseFeeHistory (fees : Nat → BaseFees) (uptoBlock blockCount : Nat) : Except String (List BaseFees) := do
  require (1 ≤ blockCount) "attempt to subtract with overflow"
  let chunks ← (chunkStarts (uptoBlock - (blockCount - 1)) uptoBlock).mapM (chunkFees fees uptoBlock)
  return chunks.flatten

structure GasStatistics (T : Type) where
  samples : List T
  medianCached : T
  maxSamples : Nat
  lastProcessedBlock : Nat

section Statistics

variable {T : Type} [LinearOrder T] [Inhabited T]

def GasStatistics.addSamples (this : GasStatistics T) (fees : List T) : GasStatistics T :=
  let samples := (this.samples ++ fees).rtake this.maxSamples
  { this with
    samples
    lastProcessedBlock := this.lastProcessedBlock + fees.length
    medianCached := (samples.mergeSort (· ≤ ·))[samples.length / 2]?.getD this.medianCached }

def GasStatistics.new (maxSamples block : Nat) (feeHistory : List T) : GasStatistics T :=
  { GasStatistics.addSamples ⟨[], default, maxSamples, 0⟩ feeHistory with lastProcessedBlock := block }

end Statistics

structure Adjuster where
  baseFeeStatistics : GasStatistics Nat
  blobBaseFeeStatistics : GasStatistics Nat

variable (fees : Nat → BaseFees)

def Adjuster.new (maxBaseFeeSamples numSamplesForBlobBaseFeeEstimate latest : Nat) : Except String Adjuster := do
  let feeHistory ← baseFeeHistory fees (latest - 1) maxBaseFeeSamples
  return ⟨.new maxBaseFeeSamples (latest - 1) (feeHistory.map (·.baseFeePerGas)),
    .new numSamplesForBlobBaseFeeEstimate (latest - 1) (feeHistory.map (·.baseFeePerBlobGas))⟩

def Adjuster.updateFees (this : Adjuster) (latest : Nat) : Except String Adjuster :=
  let lastProcessedBlock := this.baseFeeStatistics.lastProcessedBlock
  if lastProcessedBlock < latest - 1 then do
    let feeData ← baseFeeHistory fees (latest - 1) (latest - 1 - lastProcessedBlock)
    return ⟨this.baseFeeStatistics.addSamples (feeData.map (·.baseFeePerGas)),
      this.blobBaseFeeStatistics.addSamples (feeData.map (·.baseFeePerBlobGas))⟩
  else .ok this

/-! ### The fees of a range of blocks -/

variable {fees} {uptoBlock fromBlock : Nat}

theorem chunkFees_eq {chunkStart : Nat} (h : chunkStart ≤ uptoBlock) : chunkFees fees uptoBlock chunkStart =
      .ok ((range' chunkStart (min 1024 (uptoBlock + 1 - chunkStart))).map fees) := by
  have hsize : min (chunkStart + 1023) uptoBlock - chunkStart + 1 = min 1024 (uptoBlock + 1 - chunkStart) := by omega
  have holdest : min (chunkStart + 1023) uptoBlock + 1 - min 1024 (uptoBlock + 1 - chunkStart) = chunkStart := by omega
  simp only [chunkFees, feeHistoryMaxRequestChunk, ethFeeHistory, hsize, holdest, require, if_true, ok_bind]
  rw [zip_map', range'_concat, map_append, take_left' (by simp), map_map]
  rfl

theorem sum_chunks {count m : Nat} (hpos : 1 ≤ count) (hm : (count - 1) / 1023 = m) :
    ((range (m + 1)).map fun i => min 1024 (count - 1023 * i)).sum = count + m := by
  induction m generalizing count with
  | zero =>
    have : count ≤ 1024 := by omega
    simp [this]
  | succ m ih =>
    have hrest : ((range (m + 1)).map fun i => min 1024 (count - 1023 - 1023 * i)).sum = count - 1023 + m :=
      ih (by omega) (by omega)
    rw [range_succ_eq_map, map_cons, sum_cons, map_map]
    have hshift : ((fun i => min 1024 (count - 1023 * i)) ∘ Nat.succ) = fun i => min 1024 (count - 1023 - 1023 * i) := by
      funext i
      simp only [Function.comp_apply, Nat.succ_eq_add_one]
      omega
    rw [hshift, hrest]
    omega

variable {blockCount n : Nat}

theorem baseFeeHistory_eq (hcount : 1 ≤ blockCount) (hn : min blockCount (uptoBlock + 1) = n) :
    baseFeeHistory fees uptoBlock blockCount = .ok ((range ((n - 1) / 1023 + 1)).flatMap fun i =>
      (range' (uptoBlock + 1 - n + 1023 * i) (min 1024 (n - 1023 * i))).map fees) := by
  have hfrom : uptoBlock - (blockCount - 1) = uptoBlock + 1 - n := by omega
  have hspan : uptoBlock - (uptoBlock + 1 - n) = n - 1 := by omega
  have hchunks : ∀ i ∈ range ((n - 1) / 1023 + 1), chunkFees fees uptoBlock (uptoBlock + 1 - n + 1023 * i) =
      .ok ((range' (uptoBlock + 1 - n + 1023 * i) (min 1024 (n - 1023 * i))).map fees) := by
    intro i hi
    have hle : i ≤ (n - 1) / 1023 := Nat.le_of_lt_succ (mem_range.mp hi)
    rw [chunkFees_eq (by omega), show uptoBlock + 1 - (uptoBlock + 1 - n + 1023 * i) = n - 1023 * i by omega]
  rw [baseFeeHistory, require_pos hcount, ok_bind, hfrom, chunkStarts, feeHistoryMaxRequestChunk, hspan, mapM_map,
    Function.comp_def, mapM_eq_map hchunks, ok_bind, ← flatMap_def]
  rfl

theorem baseFeeHistory_of_le (hcount : 1 ≤ blockCount) (hn : min blockCount (uptoBlock + 1) = n) (hle : n ≤ 1023) :
    baseFeeHistory fees uptoBlock blockCount = .ok ((range' (uptoBlock + 1 - n) n).map fees) := by
  have hone : (n - 1) / 1023 + 1 = 1 := by omega
  rw [baseFeeHistory_eq hcount hn, hone]
  simp [show n ≤ 1024 by omega]

theorem length_baseFeeHistory {history : List BaseFees} (hcount : 1 ≤ blockCount)
    (hn : min blockCount (uptoBlock + 1) = n) (h : baseFeeHistory fees uptoBlock blockCount = .ok history) :
    history.length = n + (n - 1) / 1023 := by
  rw [baseFeeHistory_eq hcount hn] at h
  rw [← Except.ok.inj h, length_flatMap]
  have hsum : ((range ((n - 1) / 1023 + 1)).map fun i => min 1024 (n - 1023 * i)).sum = n + (n - 1) / 1023 :=
    sum_chunks (by omega) rfl
  simpa using hsum

/-! ### Samples over many updates -/

theorem rtake_append_rtake {T : Type} (l l' : List T) (n : Nat) : (l.rtake n ++ l').rtake n = (l ++ l').rtake n := by
  simp only [rtake_eq_reverse_take_reverse, reverse_append, reverse_reverse, take_append, take_take]
  rw [Nat.min_eq_left (Nat.sub_le _ _)]

variable (fees)

/-- The samples are the fees of the last blocks, from `first` up to the processed head. -/
structure GasStatistics.Synced (value : BaseFees → Nat) (first head maxSamples : Nat) (this : GasStatistics Nat) : Prop where
  first_le : first ≤ head
  last : this.lastProcessedBlock = head
  bound : this.maxSamples = maxSamples
  samples : this.samples = ((List.range' first (head + 1 - first)).map fun block => value (fees block)).rtake maxSamples

variable {fees} {value : BaseFees → Nat} {first head head' maxSamples : Nat} {this : GasStatistics Nat}

theorem GasStatistics.Synced.addSamples (h : this.Synced fees value first head maxSamples) (hle : head ≤ head') :
    (this.addSamples ((range' (head + 1) (head' - head)).map fun block => value (fees block))).Synced fees value
      first head' maxSamples := by
  have hfirst := h.first_le
  have hblocks : range' first (head' + 1 - first) =
      range' first (head + 1 - first) ++ range' (head + 1) (head' - head) := by
    rw [show head' + 1 - first = head + 1 - first + (head' - head) by omega, ← range'_append_1,
      show first + (head + 1 - first) = head + 1 by omega]
  refine ⟨hfirst.trans hle, ?_, h.bound, ?_⟩
  · rw [GasStatistics.addSamples, h.last, length_map, length_range']
    dsimp only
    omega
  · rw [GasStatistics.addSamples, h.samples, h.bound]
    dsimp only
    rw [rtake_append_rtake, hblocks, map_append]

theorem GasStatistics.synced_new (hn : 1 ≤ n) (hle : n ≤ head + 1) :
    (new maxSamples head ((range' (head + 1 - n) n).map fun block => value (fees block))).Synced fees
      value (head + 1 - n) head maxSamples := by
  refine ⟨by omega, rfl, rfl, ?_⟩
  rw [new, addSamples, show head + 1 - (head + 1 - n) = n by omega]
  rfl

/-- The adjuster and the head that it processed last. -/
structure State where
  adjuster : Adjuster
  head : Nat

variable (fees) (first maxBaseFeeSamples maxBlobSamples : Nat)

def State.Synced (s : State) : Prop :=
  s.adjuster.baseFeeStatistics.Synced fees (·.baseFeePerGas) first s.head maxBaseFeeSamples ∧
    s.adjuster.blobBaseFeeStatistics.Synced fees (·.baseFeePerBlobGas) first s.head maxBlobSamples

/-- A successful update at the given L1 head. -/
def step (s : State) (latest : Nat) : State :=
  match s.adjuster.updateFees fees latest with
  | .ok adjuster => ⟨adjuster, latest - 1⟩
  | .error _ => s

def NonDecreasing (s : State) (latest : Nat) : Prop := s.head ≤ latest - 1

/-- The blocks since the last update fit into one chunk. -/
def OneChunk (s : State) (latest : Nat) : Prop := latest - 1 - s.head ≤ 1023

instance (s : State) (latest : Nat) : Decidable (NonDecreasing s latest) := inferInstanceAs (Decidable (_ ≤ _))
instance (s : State) (latest : Nat) : Decidable (OneChunk s latest) := inferInstanceAs (Decidable (_ ≤ _))

variable {fees first maxBaseFeeSamples maxBlobSamples} {s : State} {latest : Nat}

theorem State.Synced.step_iff (h : s.Synced fees first maxBaseFeeSamples maxBlobSamples) (hlatest : NonDecreasing s latest) :
    (step fees s latest).Synced fees first maxBaseFeeSamples maxBlobSamples ↔ OneChunk s latest := by
  have hlatest : s.head ≤ latest - 1 := hlatest
  have hlast := h.1.last
  rw [step, Adjuster.updateFees, hlast, OneChunk]
  by_cases hnew : s.head < latest - 1
  · rw [if_pos hnew]
    have hcount : 1 ≤ latest - 1 - s.head := by omega
    have hn : min (latest - 1 - s.head) (latest - 1 + 1) = latest - 1 - s.head := by omega
    obtain ⟨history, hhistory⟩ : ∃ history, baseFeeHistory fees (latest - 1) (latest - 1 - s.head) = .ok history :=
      ⟨_, baseFeeHistory_eq hcount hn⟩
    constructor
    · intro hsynced
      rw [hhistory] at hsynced
      have hcounted : s.head + history.length = latest - 1 := by
        have := hsynced.1.last
        simpa [GasStatistics.addSamples, hlast] using this
      have hlength := length_baseFeeHistory hcount hn hhistory
      omega
    · intro hle
      rw [baseFeeHistory_of_le hcount hn hle, show latest - 1 + 1 - (latest - 1 - s.head) = s.head + 1 by omega]
      simp only [ok_bind, map_map]
      exact ⟨h.1.addSamples hlatest, h.2.addSamples hlatest⟩
  · rw [if_neg hnew]
    obtain heq : latest - 1 = s.head := by omega
    exact iff_of_true (heq ▸ h) (by omega)

/-- The history has the fees of the blocks asked for if and only if they fit into one chunk. A new adjuster is
synchronized if its first blocks do, and stays so in a run if and only if the new blocks always do. -/
theorem fee_history_exact_iff (fees : Nat → BaseFees) :
    (∀ uptoBlock blockCount, 1 ≤ blockCount → blockCount ≤ uptoBlock + 1 → (baseFeeHistory fees uptoBlock blockCount =
        .ok ((List.range' (uptoBlock + 1 - blockCount) blockCount).map fees) ↔ blockCount ≤ 1023)) ∧
    (∀ maxBaseFeeSamples maxBlobSamples latest, 1 ≤ maxBaseFeeSamples → min maxBaseFeeSamples (latest - 1 + 1) ≤ 1023 →
      ∃ adjuster, Adjuster.new fees maxBaseFeeSamples maxBlobSamples latest = .ok adjuster ∧
        State.Synced fees (latest - 1 + 1 - min maxBaseFeeSamples (latest - 1 + 1)) maxBaseFeeSamples maxBlobSamples
          ⟨adjuster, latest - 1⟩) ∧
    ∀ first maxBaseFeeSamples maxBlobSamples s latests, State.Synced fees first maxBaseFeeSamples maxBlobSamples s →
      Steps (step fees) NonDecreasing s latests →
        (States (step fees) (State.Synced fees first maxBaseFeeSamples maxBlobSamples) s latests ↔
          Steps (step fees) OneChunk s latests) := by
  refine ⟨fun uptoBlock blockCount hcount hle => ⟨fun h => ?_, ?_⟩, ?_, ?_⟩
  · have hlength := length_baseFeeHistory hcount (Nat.min_eq_left hle) h
    rw [length_map, length_range'] at hlength
    omega
  · exact baseFeeHistory_of_le hcount (Nat.min_eq_left hle)
  · intro maxBaseFeeSamples maxBlobSamples latest hmax hle
    rw [Adjuster.new, baseFeeHistory_of_le hmax rfl hle, ok_bind]
    simp only [map_map]
    exact ⟨_, rfl, GasStatistics.synced_new (by omega) (by omega), GasStatistics.synced_new (by omega) (by omega)⟩
  · intro first maxBaseFeeSamples maxBlobSamples s latests hsynced hsteps
    exact states_iff_steps (fun _ _ _ _ => trivial) (fun s latest (_ : True) hsynced hlatest => hsynced.step_iff hlatest)
      trivial hsynced hsteps

def sampleFees (block : Nat) : BaseFees := ⟨block, block⟩

theorem fee_history_exact_for_two_blocks : baseFeeHistory sampleFees 5 2 = .ok [sampleFees 4, sampleFees 5] :=
  ((fee_history_exact_iff sampleFees).1 5 2 (by decide) (by decide)).mpr (by decide)

/-- Of 1024 blocks the last one is returned twice, and an update counts one block too many. -/
theorem last_of_1024_blocks_is_repeated : (baseFeeHistory sampleFees 1024 1024).toOption.map (·.length) = some 1025 ∧
      (baseFeeHistory sampleFees 1024 1024).toOption.map (·.drop 1022) =
        some [sampleFees 1023, sampleFees 1024, sampleFees 1024] ∧
      ((Adjuster.mk ⟨[0], 0, 5, 0⟩ ⟨[0], 0, 5, 0⟩).updateFees sampleFees 1025).toOption.map
        (·.baseFeeStatistics.lastProcessedBlock) = some 1025 := by
  decide +kernel

end GasAdjuster
