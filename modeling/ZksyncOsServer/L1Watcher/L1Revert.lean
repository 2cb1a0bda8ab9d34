import ZksyncOsServer.Lib.Fallible

/-!
# The batch to keep in an L1 revert

`node/bin/src/l1_revert.rs`: the last batch that stays committed when the chain is rebuilt from a block. It is
found by a look at the last committed batch and a binary search of the batches that are not executed.
-/
namespace L1Revert

open Fallible

inductive RevertError where
  | noCommittedBatches
  | allExecuted
  | fetchFailed (batch : Nat)
  | beyondLastCommitted
  | withinExecuted
  | subtractOverflow
  | outOfRounds
  deriving DecidableEq

structure CommittedBatch where
  firstBlockNumber : Nat
  lastBlockNumber : Nat
  deriving DecidableEq

structure L1State where
  lastCommittedBatch : Nat
  lastExecutedBatch : Nat
  fetchLiveCommittedBatch : Nat → Except RevertError CommittedBatch

/-- Subtraction of unsigned numbers. -/
def checkedSub (a b : Nat) : Except RevertError Nat := if b ≤ a then .ok (a - b) else .error .subtractOverflow

theorem checkedSub_one {a : Nat} (h : 0 < a) : checkedSub a 1 = .ok (a - 1) := if_pos h

section

variable (l1State : L1State) (fromBlockNumber : Nat)

/-- The binary search, with the first batch to revert as far as it is known. -/
def search : Nat → Nat → Nat → Option Nat → Except RevertError (Option Nat)
  | 0, _, _, _ => .error .outOfRounds
  | rounds + 1, lowBatch, highBatch, firstBatchToRevert =>
    if lowBatch ≤ highBatch then do
      let midBatch := lowBatch + (highBatch - lowBatch) / 2
      let mid ← l1State.fetchLiveCommittedBatch midBatch
      if mid.firstBlockNumber ≤ fromBlockNumber then search rounds (midBatch + 1) highBatch (some midBatch)
      else
        let highBatch ← checkedSub midBatch 1
        search rounds lowBatch highBatch firstBatchToRevert
    else .ok firstBatchToRevert

def deriveLastL1BatchToKeep : Except RevertError Nat := do
  require (0 < l1State.lastCommittedBatch) .noCommittedBatches
  require (l1State.lastExecutedBatch < l1State.lastCommittedBatch) .allExecuted
  let top ← l1State.fetchLiveCommittedBatch l1State.lastCommittedBatch
  require (fromBlockNumber ≤ top.lastBlockNumber) .beyondLastCommitted
  if top.firstBlockNumber ≤ fromBlockNumber then checkedSub l1State.lastCommittedBatch 1
  else
    let highBatch ← checkedSub l1State.lastCommittedBatch 1
    match ← search l1State fromBlockNumber l1State.lastCommittedBatch (l1State.lastExecutedBatch + 1) highBatch none with
    | some batch => checkedSub batch 1
    | none => .error .withinExecuted

end

/-! ### Layouts of committed batches -/

/-- The numbers of blocks in the committed batches from batch 0 on, and how many of the batches are executed. -/
structure Layout where
  sizes : List Nat
  committed : Nat
  executed : Nat
  length_eq : sizes.length = committed + 1
  pos : ∀ size ∈ sizes, 0 < size
  executed_le : executed ≤ committed

namespace Layout

variable (layout : Layout)

def firstBlock (batch : Nat) : Nat := (layout.sizes.take batch).sum

/-- The blocks of a batch end right before the next one. -/
def lastBlock (batch : Nat) : Nat := layout.firstBlock (batch + 1) - 1

def l1State : L1State where
  lastCommittedBatch := layout.committed
  lastExecutedBatch := layout.executed
  fetchLiveCommittedBatch batch :=
    if batch ≤ layout.committed then .ok ⟨layout.firstBlock batch, layout.lastBlock batch⟩ else .error (.fetchFailed batch)

variable {layout} {i j b : Nat}

theorem firstBlock_lt_succ (hi : i ≤ layout.committed) : layout.firstBlock i < layout.firstBlock (i + 1) := by
  have hlen : i < layout.sizes.length := by
    rw [layout.length_eq]
    omega
  have hpos := layout.pos _ (List.getElem_mem hlen)
  rw [firstBlock, firstBlock, List.sum_take_succ _ _ hlen]
  omega

theorem firstBlock_le (hij : i ≤ j) (hj : j ≤ layout.committed + 1) : layout.firstBlock i ≤ layout.firstBlock j := by
  induction j, hij using Nat.le_induction with
  | base => exact Nat.le_refl _
  | succ j _ ih => exact (ih (by omega)).trans (firstBlock_lt_succ (by omega)).le

theorem le_lastBlock_iff (hi : i ≤ layout.committed) : b ≤ layout.lastBlock i ↔ b < layout.firstBlock (i + 1) := by
  have hlt := firstBlock_lt_succ hi
  rw [lastBlock]
  omega

/-- The batch is committed, not executed and contains the block. -/
def Reverts (layout : Layout) (b batch : Nat) : Prop :=
  batch ≤ layout.committed ∧ layout.executed < batch ∧ layout.firstBlock batch ≤ b ∧ b ≤ layout.lastBlock batch

theorem Reverts.le (hi : layout.Reverts b i) (hj : layout.Reverts b j) : i ≤ j := by
  by_contra hlt
  have hafter : layout.firstBlock (j + 1) ≤ layout.firstBlock i :=
    firstBlock_le (Nat.lt_of_not_le hlt) (hi.1.trans (Nat.le_succ _))
  have hbefore := (le_lastBlock_iff hj.1).mp hj.2.2.2
  exact absurd (hafter.trans hi.2.2.1) hbefore.not_ge

/-- What the search knows: the first batch to revert that it has found is the one below its interval. -/
def Found (layout : Layout) (b : Nat) (found : Option Nat) (low : Nat) : Prop :=
  match found with
  | none => low = layout.executed + 1
  | some batch => low = batch + 1 ∧ layout.executed < batch ∧ layout.firstBlock batch ≤ b

theorem Found.lt {found : Option Nat} {low : Nat} (h : layout.Found b found low) : layout.executed < low := by
  cases found with
  | none => exact h ▸ Nat.lt_succ_self _
  | some batch =>
    have := h.1
    have := h.2.1
    omega

/-- The search ends where the blocks begin to be later than the given one. -/
theorem search_spec {rounds low high : Nat} {found : Option Nat} (hrounds : high + 1 - low < rounds) (hlow : low ≤ high + 1)
    (hhigh : high ≤ layout.committed) (hfound : layout.Found b found low) (hb : b < layout.firstBlock (high + 1)) :
    ∃ found' low', search layout.l1State b rounds low high found = .ok found' ∧ layout.Found b found' low' ∧
      low' ≤ high + 1 ∧ b < layout.firstBlock low' := by
  induction rounds generalizing low high found with
  | zero => omega
  | succ rounds ih =>
    have hpos := hfound.lt
    rw [search]
    split
    next hle =>
      have hmid : low + (high - low) / 2 ≤ layout.committed := by omega
      simp only [l1State, if_pos hmid, ok_bind]
      split
      next hfirst =>
        exact ih (by omega) (by omega) hhigh ⟨rfl, by omega, hfirst⟩ hb
      next hfirst =>
        rw [checkedSub_one (by omega), ok_bind]
        have hsub : low + (high - low) / 2 - 1 + 1 = low + (high - low) / 2 := by omega
        obtain ⟨found', low', hsearch, hfound', hle', hb'⟩ :=
          ih (by omega) (by omega) (by omega) hfound (hsub ▸ Nat.lt_of_not_le hfirst)
        exact ⟨found', low', hsearch, hfound', by omega, hb'⟩
    next hlt =>
      obtain rfl : low = high + 1 := by omega
      exact ⟨found, high + 1, rfl, hfound, Nat.le_refl _, hb⟩

/-- Either the batch before the one with the block is returned, or no batch can be reverted for the block. -/
def Outcome (layout : Layout) (b : Nat) : Except RevertError Nat → Prop
  | .ok k => layout.Reverts b (k + 1)
  | .error e => e ≠ .subtractOverflow ∧ e ≠ .outOfRounds ∧ ∀ batch, ¬ layout.Reverts b batch

theorem outcome_search (hpos : 0 < layout.committed) (hlt : layout.executed < layout.committed)
    (hfirst : b < layout.firstBlock layout.committed) :
    layout.Outcome b (do
      let highBatch ← checkedSub layout.committed 1
      match ← search layout.l1State b layout.committed (layout.executed + 1) highBatch none with
      | some batch => checkedSub batch 1
      | none => .error .withinExecuted) := by
  have hhigh : layout.committed - 1 + 1 = layout.committed := Nat.sub_add_cancel hpos
  obtain ⟨found, low, hsearch, hfound, hle, hb⟩ : ∃ found low,
      search layout.l1State b layout.committed (layout.executed + 1) (layout.committed - 1) none = .ok found ∧
        layout.Found b found low ∧ low ≤ layout.committed - 1 + 1 ∧ b < layout.firstBlock low :=
    search_spec (by omega) (by omega) (by omega) rfl (hhigh.symm ▸ hfirst)
  rw [checkedSub_one hpos, ok_bind, hsearch, ok_bind]
  match found, hfound with
  | some batch, ⟨hlow, hpast, hstart⟩ =>
    subst hlow
    change layout.Outcome b (checkedSub batch 1)
    rw [checkedSub_one (by omega), Outcome, Nat.sub_add_cancel (by omega)]
    exact ⟨by omega, hpast, hstart, (le_lastBlock_iff (by omega)).mpr hb⟩
  | none, hlow =>
    obtain rfl : low = layout.executed + 1 := hlow
    refine ⟨nofun, nofun, fun batch hbatch => ?_⟩
    have hafter := firstBlock_le hbatch.2.1 (hbatch.1.trans (Nat.le_succ _))
    exact absurd (hafter.trans hbatch.2.2.1) hb.not_ge

theorem outcome_derive (layout : Layout) (b : Nat) : layout.Outcome b (deriveLastL1BatchToKeep layout.l1State b) := by
  have htop : layout.l1State.fetchLiveCommittedBatch layout.committed =
      .ok ⟨layout.firstBlock layout.committed, layout.lastBlock layout.committed⟩ := if_pos (Nat.le_refl _)
  unfold deriveLastL1BatchToKeep
  change layout.Outcome b (require (0 < layout.committed) _ >>= fun _ =>
    require (layout.executed < layout.committed) _ >>= fun _ => layout.l1State.fetchLiveCommittedBatch layout.committed >>= _)
  by_cases hpos : 0 < layout.committed
  · by_cases hlt : layout.executed < layout.committed
    · rw [require_pos hpos, ok_bind, require_pos hlt, ok_bind, htop, ok_bind]
      by_cases hlast : b ≤ layout.lastBlock layout.committed
      · rw [require_pos hlast, ok_bind]
        by_cases hfirst : layout.firstBlock layout.committed ≤ b
        · rw [if_pos hfirst]
          change layout.Outcome b (checkedSub layout.committed 1)
          rw [checkedSub_one hpos, Outcome, Nat.sub_add_cancel hpos]
          exact ⟨Nat.le_refl _, hlt, hfirst, hlast⟩
        · rw [if_neg hfirst]
          exact outcome_search hpos hlt (Nat.lt_of_not_le hfirst)
      · rw [require, if_neg hlast]
        refine ⟨by simp, by simp, fun batch hbatch => hlast ?_⟩
        have hend := firstBlock_le (Nat.succ_le_succ hbatch.1) (Nat.le_refl _)
        exact (le_lastBlock_iff (Nat.le_refl _)).mpr (((le_lastBlock_iff hbatch.1).mp hbatch.2.2.2).trans_le hend)
    · rw [require_pos hpos, ok_bind, require, if_neg hlt]
      exact ⟨by simp, by simp, fun batch hbatch => hlt (hbatch.2.1.trans_le hbatch.1)⟩
  · rw [require, if_neg hpos]
    exact ⟨by simp, by simp, fun batch hbatch => hpos ((Nat.zero_le _).trans_lt (hbatch.2.1.trans_le hbatch.1))⟩

end Layout

/-- A batch is kept as the last one if and only if the next one is committed, not executed and contains the
block. Subtractions do not underflow, and the search ends. -/
theorem derive_last_l1_batch_to_keep_iff (layout : Layout) (b k : Nat) :
    (deriveLastL1BatchToKeep layout.l1State b = .ok k ↔ layout.Reverts b (k + 1)) ∧
      deriveLastL1BatchToKeep layout.l1State b ≠ .error .subtractOverflow ∧
      deriveLastL1BatchToKeep layout.l1State b ≠ .error .outOfRounds := by
  match h : deriveLastL1BatchToKeep layout.l1State b, layout.outcome_derive b with
  | .ok k', hk' =>
    refine ⟨⟨fun heq => Except.ok.inj heq ▸ hk', fun hk => ?_⟩, nofun, nofun⟩
    rw [Nat.succ.inj (Nat.le_antisymm (Layout.Reverts.le hk' hk) (Layout.Reverts.le hk hk'))]
  | .error e, ⟨hsub, hrounds, hnone⟩ =>
    exact ⟨⟨nofun, fun hk => absurd hk (hnone _)⟩, fun heq => hsub (Except.error.inj heq),
      fun heq => hrounds (Except.error.inj heq)⟩

/-- Genesis, an executed batch of blocks 1 to 3, and batches of blocks 4 and 5, 6, and 7 to 10. -/
def sampleLayout : Layout := ⟨[1, 3, 2, 1, 4], 4, 1, rfl, by decide, by decide⟩

theorem derive_last_l1_batch_to_keep_iff_sample : sampleLayout.Reverts 5 2 ∧
    deriveLastL1BatchToKeep sampleLayout.l1State 5 = .ok 1 :=
  have hreverts : sampleLayout.Reverts 5 2 := ⟨by decide, by decide, by decide, by decide⟩
  ⟨hreverts, (derive_last_l1_batch_to_keep_iff sampleLayout 5 1).1.mpr hreverts⟩

end L1Revert
