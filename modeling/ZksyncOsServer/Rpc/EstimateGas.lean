import ZksyncOsServer.Lib.Fallible

/-!
# Gas estimation

`rpc/src/eth_call_handler.rs`, `estimate_gas_with_view` for an L2 transaction. A range of gas limits is narrowed
until its width is below 1.5% of its upper end. What a run of the transaction at a gas limit results in is an
arbitrary function of the limit, and the test of the width is over exact numbers.
-/
namespace EstimateGas

open Fallible

inductive RunResult where
  | success (gasUsed gasRefunded : Nat)
  | revert
  | outOfGas
  | rejected
  deriving DecidableEq

/-- The run shows that the gas limit is too low. -/
def RunResult.Fails (result : RunResult) : Prop := result = .revert ∨ result = .outOfGas

def RunResult.Succeeds (result : RunResult) : Prop := ∃ gasUsed gasRefunded, result = .success gasUsed gasRefunded

inductive EthCallError where
  | invalidTransaction
  | revert
  | policyDenied
  | overflow
  | outOfRounds
  deriving DecidableEq

structure GasRange where
  lowest : Nat
  highest : Nat
  deriving DecidableEq

namespace GasRange

variable (this : GasRange)

def isNarrowEnough : Bool := 1000 * (this.highest - this.lowest) < 15 * this.highest

def midpoint : Nat := (this.lowest + this.highest) / 2

def biasedMidpoint : Except EthCallError Nat := do
  require (this.lowest * 3 < 2 ^ 64) .overflow
  return min (this.lowest * 3) this.midpoint

def applyProbe (probe : Nat) : RunResult → Except EthCallError GasRange
  | .outOfGas => .ok { this with lowest := probe }
  | .rejected => .error .invalidTransaction
  | .success .. => .ok { this with highest := probe }
  | .revert => .ok { this with lowest := probe }

end GasRange

variable (runAt : Nat → RunResult)

/-- The loop of the binary search. -/
def search : Nat → GasRange → Nat → Except EthCallError GasRange
  | 0, _, _ => .error .outOfRounds
  | rounds + 1, range, mid =>
    if range.isNarrowEnough then .ok range
    else do
      let range ← range.applyProbe mid (runAt mid)
      search rounds range range.midpoint

def probeOptimistic (range : GasRange) (gasUsed gasRefunded : Nat) : Except EthCallError GasRange := do
  require ((gasUsed + gasRefunded + 2300) * 64 < 2 ^ 64) .overflow
  let optimisticGasLimit := (gasUsed + gasRefunded + 2300) * 64 / 63
  if range.lowest < optimisticGasLimit ∧ optimisticGasLimit < range.highest then
    range.applyProbe optimisticGasLimit (runAt optimisticGasLimit)
  else return range

/-- `estimate_gas_with_view` for a transaction with the given limit; the policy judges the result, if there is one. -/
def estimateGasWithView (gasLimit : Nat) (policy : Option (Nat → Bool)) : Except EthCallError Nat :=
  match runAt gasLimit with
  | .revert => .error .revert
  | .outOfGas => .error .invalidTransaction
  | .rejected => .error .invalidTransaction
  | .success gasUsed gasRefunded => do
    let range ← probeOptimistic runAt ⟨gasUsed - 1, gasLimit⟩ gasUsed gasRefunded
    let range ← search runAt (gasLimit + 1) range (← range.biasedMidpoint)
    require (policy.all fun judge => judge range.highest) .policyDenied
    return range.highest

/-! ### The range over the whole search -/

/-- The transaction fails at the lower end, or uses one more gas at the starting limit, and succeeds at the upper end. -/
structure Bounds (gasUsed : Nat) (range : GasRange) : Prop where
  fails : (runAt range.lowest).Fails ∨ range.lowest + 1 = gasUsed
  succeeds : (runAt range.highest).Succeeds
  lt : range.lowest < range.highest
  minimal : 20999 ≤ range.lowest
  fits : range.highest < 2 ^ 56

variable {runAt} {gasUsed probe : Nat} {range : GasRange}

section
variable (h : Bounds runAt gasUsed range)
include h

theorem Bounds.applyProbe (hlow : range.lowest < probe) (hhigh : probe < range.highest) :
    range.applyProbe probe (runAt probe) = .error .invalidTransaction ∨
      ∃ range', range.applyProbe probe (runAt probe) = .ok range' ∧ Bounds runAt gasUsed range' ∧
        range'.highest - range'.lowest < range.highest - range.lowest := by
  have hminimal := h.minimal
  have hfits := h.fits
  have hraise (hfails : (runAt probe).Fails) : Bounds runAt gasUsed { range with lowest := probe } :=
    ⟨.inl hfails, h.succeeds, hhigh, by dsimp only; omega, hfits⟩
  cases hrun : runAt probe with
  | outOfGas => exact .inr ⟨_, rfl, hraise (.inr hrun), by dsimp only; omega⟩
  | revert => exact .inr ⟨_, rfl, hraise (.inl hrun), by dsimp only; omega⟩
  | rejected => exact .inl rfl
  | success gasUsed' gasRefunded =>
    refine .inr ⟨_, rfl, ⟨h.fails, ⟨gasUsed', gasRefunded, hrun⟩, hlow, hminimal, ?_⟩, ?_⟩ <;> dsimp only <;> omega

theorem Bounds.midpoint (hwide : ¬ range.isNarrowEnough = true) :
    range.lowest < range.midpoint ∧ range.midpoint < range.highest := by
  have hlt := h.lt
  have hminimal := h.minimal
  simp only [GasRange.isNarrowEnough, decide_eq_true_eq] at hwide
  simp only [GasRange.midpoint]
  omega

theorem Bounds.biasedMidpoint : ∃ mid, range.biasedMidpoint = .ok mid ∧
    (¬ range.isNarrowEnough = true → range.lowest < mid ∧ mid < range.highest) := by
  have hlt := h.lt
  have hminimal := h.minimal
  have hfits := h.fits
  refine ⟨min (range.lowest * 3) range.midpoint, ?_, fun hwide => ?_⟩
  · rw [GasRange.biasedMidpoint, require_pos (by omega), ok_bind]
    rfl
  · have hmid := h.midpoint hwide
    omega

/-- The search ends within as many rounds as the range is wide, with an error or a narrow range. -/
theorem Bounds.search {rounds mid : Nat}
    (hmid : ¬ range.isNarrowEnough = true → range.lowest < mid ∧ mid < range.highest)
    (hrounds : range.highest - range.lowest ≤ rounds) :
    search runAt (rounds + 1) range mid = .error .invalidTransaction ∨
      ∃ range', search runAt (rounds + 1) range mid = .ok range' ∧ Bounds runAt gasUsed range' ∧
        range'.isNarrowEnough = true := by
  induction rounds generalizing range mid with
  | zero => exact absurd h.lt (by omega)
  | succ rounds ih =>
    rw [search]
    split
    next hnarrow => exact .inr ⟨range, rfl, h, hnarrow⟩
    next hwide =>
      obtain ⟨hlow, hhigh⟩ := hmid hwide
      rcases h.applyProbe hlow hhigh with herror | ⟨range', hok, hbounds, hwidth⟩
      · rw [herror]
        exact .inl rfl
      · rw [hok, ok_bind]
        exact ih hbounds hbounds.midpoint (by omega)

theorem Bounds.probeOptimistic (gasRefunded : Nat) :
    (probeOptimistic runAt range gasUsed gasRefunded = .error .overflow ∧
      2 ^ 64 ≤ (gasUsed + gasRefunded + 2300) * 64) ∨
    probeOptimistic runAt range gasUsed gasRefunded = .error .invalidTransaction ∨
      ∃ range', probeOptimistic runAt range gasUsed gasRefunded = .ok range' ∧ Bounds runAt gasUsed range' ∧
        range'.highest - range'.lowest ≤ range.highest - range.lowest := by
  rw [EstimateGas.probeOptimistic]
  by_cases hfits : (gasUsed + gasRefunded + 2300) * 64 < 2 ^ 64
  · rw [require_pos hfits, ok_bind]
    refine .inr ?_
    dsimp only
    split
    next hin =>
      rcases h.applyProbe hin.1 hin.2 with herror | ⟨range', hok, hbounds, hwidth⟩
      · exact .inl herror
      · exact .inr ⟨range', hok, hbounds, hwidth.le⟩
    next => exact .inr ⟨range, rfl, h, Nat.le_refl _⟩
  · rw [require, if_neg hfits]
    exact .inl ⟨rfl, Nat.le_of_not_lt hfits⟩

end

/-- The search ends, and nothing overflows if the refund is below `2 ^ 56` like the limit. A result is a limit at which the
transaction succeeds, and less than 1.5% below it is one at which it fails, or one less than the gas used at the
starting limit. -/
theorem gas_estimation_search (runAt : Nat → RunResult) (gasLimit : Nat) (policy : Option (Nat → Bool))
    (hlimit : gasLimit < 2 ^ 56)
    (hused : ∀ g gasUsed gasRefunded, runAt g = .success gasUsed gasRefunded → 21000 ≤ gasUsed ∧ gasUsed ≤ g) :
    estimateGasWithView runAt gasLimit policy ≠ .error .outOfRounds ∧
      ((∀ gasUsed gasRefunded, runAt gasLimit = .success gasUsed gasRefunded → gasRefunded < 2 ^ 56) →
        estimateGasWithView runAt gasLimit policy ≠ .error .overflow) ∧
      ∀ h, estimateGasWithView runAt gasLimit policy = .ok h →
        ∃ gasUsed gasRefunded, runAt gasLimit = .success gasUsed gasRefunded ∧ (runAt h).Succeeds ∧
          (∃ l < h, 1000 * (h - l) < 15 * h ∧ ((runAt l).Fails ∨ l + 1 = gasUsed)) ∧
          ∀ threshold, (∀ g, (runAt g).Succeeds ↔ threshold ≤ g) → gasUsed ≤ threshold →
            threshold ≤ h ∧ 985 * h < 1000 * threshold := by
  rw [estimateGasWithView]
  split
  next => exact ⟨by simp, by simp, by simp⟩
  next => exact ⟨by simp, by simp, by simp⟩
  next => exact ⟨by simp, by simp, by simp⟩
  next gasUsed gasRefunded hrun =>
    obtain ⟨hmin, hmax⟩ := hused _ _ _ hrun
    have hstart : Bounds runAt gasUsed ⟨gasUsed - 1, gasLimit⟩ :=
      ⟨.inr (by dsimp only; omega), ⟨gasUsed, gasRefunded, hrun⟩, by dsimp only; omega, by dsimp only; omega, hlimit⟩
    rcases hstart.probeOptimistic gasRefunded with ⟨herror, hlarge⟩ | herror | ⟨probed, hprobed, hbounds, hwidth⟩
    · rw [herror]
      refine ⟨(by cases ·), fun hrefunded => ?_, fun _ => (by cases ·)⟩
      have hle := hrefunded _ _ hrun
      omega
    · rw [herror]
      exact ⟨(by cases ·), fun _ => (by cases ·), fun _ => (by cases ·)⟩
    obtain ⟨mid, hmid, hinside⟩ := hbounds.biasedMidpoint
    rw [hprobed, ok_bind, hmid, ok_bind]
    rcases hbounds.search hinside (hwidth.trans (Nat.sub_le gasLimit _)) with
      herror | ⟨range, hrange, hfinal, hnarrow⟩
    · rw [herror]
      exact ⟨(by cases ·), fun _ => (by cases ·), fun _ => (by cases ·)⟩
    rw [hrange, ok_bind]
    refine ⟨fun h => ?_, fun _ h => ?_, fun h hh => ?_⟩
    · rw [require] at h
      split at h <;> cases h
    · rw [require] at h
      split at h <;> cases h
    · obtain ⟨_, -, hh⟩ := bind_eq_ok.mp hh
      obtain rfl := pure_eq_ok.mp hh
      have hwidth' : 1000 * (range.highest - range.lowest) < 15 * range.highest := by
        simpa [GasRange.isNarrowEnough] using hnarrow
      refine ⟨gasUsed, gasRefunded, hrun, hfinal.succeeds, ⟨range.lowest, hfinal.lt, hwidth', hfinal.fails⟩, ?_⟩
      intro threshold hthreshold hle
      have hbelow : range.lowest < threshold := by
        rcases hfinal.fails with hfails | huse
        · by_contra hge
          obtain ⟨gasUsed', gasRefunded', hsuccess⟩ := (hthreshold range.lowest).mpr (Nat.le_of_not_lt hge)
          rcases hfails with hfails | hfails <;> cases hsuccess.symm.trans hfails
        · omega
      have hlt := hfinal.lt
      exact ⟨(hthreshold _).mp hfinal.succeeds, by omega⟩

/-- A transaction that uses 30000 gas and needs 50000. -/
def sampleRun (gasLimit : Nat) : RunResult := if 50000 ≤ gasLimit then .success 30000 0 else .outOfGas

theorem gas_estimation_search_sample :
    ∃ h, estimateGasWithView sampleRun 1000000 none = .ok h ∧ 50000 ≤ h ∧ 985 * h < 1000 * 50000 := by
  have hused : ∀ g gasUsed gasRefunded, sampleRun g = .success gasUsed gasRefunded → 21000 ≤ gasUsed ∧ gasUsed ≤ g := by
    intro g gasUsed gasRefunded hrun
    rw [sampleRun] at hrun
    split at hrun
    next hle =>
      cases hrun
      exact ⟨by omega, by omega⟩
    next => cases hrun
  have hthreshold : ∀ g, (sampleRun g).Succeeds ↔ 50000 ≤ g := by
    intro g
    rw [sampleRun, RunResult.Succeeds]
    split <;> simp_all
  obtain ⟨h, hok⟩ := exists_of_isOk (x := estimateGasWithView sampleRun 1000000 none) (by decide +kernel)
  obtain ⟨gasUsed, gasRefunded, hrun, -, -, hall⟩ := (gas_estimation_search sampleRun 1000000 none (by decide) hused).2.2 h hok
  cases hrun
  exact ⟨h, hok, hall 50000 hthreshold (by decide)⟩

end EstimateGas
