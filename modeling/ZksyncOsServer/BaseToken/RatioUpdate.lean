import Mathlib

/-!
# The base token ratio sent to L1

`base_token_adjuster/src/lib.rs`, `maybe_update_l1_ratio`. A ratio whose numerator or denominator does not fit in
`u128` is scaled down by tens, both numbers truncated on their own.
-/
namespace BaseToken

def toU128 (n : ℕ) : Option ℕ := if n < 2 ^ 128 then some n else none

/-- The `while` loop. -/
def scaleDown (numer denom : ℕ) : ℕ × ℕ :=
  if (toU128 numer).isNone ∨ (toU128 denom).isNone then scaleDown (numer / 10) (denom / 10) else (numer, denom)
termination_by numer + denom
decreasing_by
  simp only [toU128] at *
  split_ifs at * <;> simp_all <;> omega

inductive UpdateError where
  | divisionByZero
  | tooLarge
  deriving DecidableEq

def l1Pair (numer denom : ℕ) : Except UpdateError (ℕ × ℕ) :=
  match toU128 numer, toU128 denom with
  | some numer, some denom => .ok (numer, denom)
  | _, _ =>
    let scaled := scaleDown numer denom
    if min scaled.1 scaled.2 < 100 then .error .tooLarge else .ok scaled

structure BaseTokenPriceUpdater where
  hasTokenMultiplierSetter : Bool
  lastL1Ratio : ℚ≥0
  l1UpdateDeviationPercentage : ℕ

/-- `none` when no transaction is sent: no setter address, or a deviation below the threshold. -/
def BaseTokenPriceUpdater.maybeUpdateL1Ratio (this : BaseTokenPriceUpdater) (newRatio : ℚ≥0) :
    Except UpdateError (Option (ℕ × ℕ)) :=
  if !this.hasTokenMultiplierSetter then .ok none
  else if this.lastL1Ratio = 0 then .error .divisionByZero
  else
    let diff := if newRatio > this.lastL1Ratio then newRatio - this.lastL1Ratio else this.lastL1Ratio - newRatio
    if diff / this.lastL1Ratio * 100 < this.l1UpdateDeviationPercentage then .ok none
    else (l1Pair newRatio.num newRatio.den).map some

def Fit (numer denom : ℕ) : Prop := numer < 2 ^ 128 ∧ denom < 2 ^ 128
  deriving Decidable

/-- `k` is the number of divisions by ten after which both numbers fit for the first time. -/
def FirstFit (numer denom k : ℕ) : Prop := ∀ j, Fit (numer / 10 ^ j) (denom / 10 ^ j) ↔ k ≤ j

variable {numer denom : ℕ}

theorem toU128_isNone_iff : (toU128 numer).isNone ∨ (toU128 denom).isNone ↔ ¬Fit numer denom := by
  simp only [toU128, Fit]
  split_ifs <;> simp_all

theorem Fit.div_pow (h : Fit numer denom) (j : ℕ) : Fit (numer / 10 ^ j) (denom / 10 ^ j) :=
  ⟨(Nat.div_le_self ..).trans_lt h.1, (Nat.div_le_self ..).trans_lt h.2⟩

theorem scaleDown_eq (numer denom : ℕ) :
    ∃ k, FirstFit numer denom k ∧ scaleDown numer denom = (numer / 10 ^ k, denom / 10 ^ k) := by
  induction numer, denom using scaleDown.induct with
  | case1 numer denom h ih =>
    obtain ⟨k, hk, heq⟩ := ih
    simp only [FirstFit, Nat.div_div_eq_div_mul, ← pow_succ'] at hk heq
    refine ⟨k + 1, ?_, by rw [scaleDown, if_pos h, heq]⟩
    rintro (_ | j)
    · simpa using toU128_isNone_iff.mp h
    · simpa using hk j
  | case2 numer denom h =>
    have hfit := not_not.mp (mt toU128_isNone_iff.mpr h)
    exact ⟨0, fun j => by simp [hfit.div_pow j], by rw [scaleDown, if_neg h]; simp⟩

/-- Two numbers truncated by the same scale, both at least 100, keep their ratio up to one percent. -/
theorem truncated_ratio_error {scale n d r t : ℕ} (hr : r < scale) (ht : t < scale) (hn : 100 ≤ n) (hd : 100 ≤ d) :
    100 * |((n : ℤ) * (scale * d + t : ℕ) - (scale * n + r : ℕ) * d)| ≤ ((scale * n + r) * d : ℕ) := by
  -- the two truncations pull in opposite directions, so each is bounded alone
  have hsub : ((n : ℤ) * (scale * d + t : ℕ) - (scale * n + r : ℕ) * d) = n * t - r * d := by push_cast; ring
  have hupper : 100 * (n * t) ≤ (scale * n + r) * d := by
    calc 100 * (n * t) = n * (100 * t) := by ring
      _ ≤ n * (scale * d) := Nat.mul_le_mul_left n (by nlinarith)
      _ ≤ (scale * n + r) * d := by nlinarith [Nat.zero_le (r * d)]
  have hlower : 100 * (r * d) ≤ (scale * n + r) * d := by
    calc 100 * (r * d) = 100 * r * d := by ring
      _ ≤ (scale * n + r) * d := Nat.mul_le_mul_right d (by nlinarith)
  rw [hsub]
  zify at hupper hlower
  push_cast
  rcases abs_cases ((n : ℤ) * t - r * d) with h | h <;> nlinarith

theorem l1Pair_of_fit (h : Fit numer denom) : l1Pair numer denom = .ok (numer, denom) := by
  simp only [l1Pair, toU128, if_pos h.1, if_pos h.2]

theorem l1Pair_of_not_fit (h : ¬Fit numer denom) :
    ∃ k, FirstFit numer denom k ∧ l1Pair numer denom =
      if min (numer / 10 ^ k) (denom / 10 ^ k) < 100 then .error .tooLarge
      else .ok (numer / 10 ^ k, denom / 10 ^ k) := by
  obtain ⟨k, hk, heq⟩ := scaleDown_eq numer denom
  refine ⟨k, hk, ?_⟩
  unfold l1Pair
  split
  · next hn hd => exact absurd ⟨(Option.ite_none_right_eq_some.mp hn).1, (Option.ite_none_right_eq_some.mp hd).1⟩ h
  · simp only [heq]

/-- The ratio differs from the one on L1 by the configured percentage. -/
def BaseTokenPriceUpdater.Deviates (this : BaseTokenPriceUpdater) (newRatio : ℚ≥0) : Prop :=
  (this.l1UpdateDeviationPercentage : ℚ) ≤ |(newRatio : ℚ) - this.lastL1Ratio| / this.lastL1Ratio * 100

theorem coe_diff (newRatio lastRatio : ℚ≥0) :
    ((if newRatio > lastRatio then newRatio - lastRatio else lastRatio - newRatio : ℚ≥0) : ℚ) =
      |(newRatio : ℚ) - lastRatio| := by
  split_ifs with h
  · rw [NNRat.coe_sub h.le, abs_of_nonneg (sub_nonneg.mpr (NNRat.coe_le_coe.mpr h.le))]
  · have hle := NNRat.coe_le_coe.mpr (not_lt.mp h)
    rw [NNRat.coe_sub (not_lt.mp h), abs_of_nonpos (sub_nonpos.mpr hle), neg_sub]

theorem maybeUpdateL1Ratio_cases (this : BaseTokenPriceUpdater) (newRatio : ℚ≥0) :
    (this.maybeUpdateL1Ratio newRatio = .ok none ∧ (this.hasTokenMultiplierSetter = true → ¬this.Deviates newRatio)) ∨
      (this.maybeUpdateL1Ratio newRatio = .error .divisionByZero ∧ this.lastL1Ratio = 0) ∨
      this.maybeUpdateL1Ratio newRatio = (l1Pair newRatio.num newRatio.den).map some := by
  unfold BaseTokenPriceUpdater.maybeUpdateL1Ratio
  extract_lets diff
  split_ifs with hsetter hzero hdiff
  · simp_all
  · exact .inr (.inl ⟨rfl, hzero⟩)
  · refine .inl ⟨rfl, fun _ => not_le_of_gt ?_⟩
    rw [← coe_diff newRatio this.lastL1Ratio]
    exact_mod_cast hdiff
  · exact .inr (.inr rfl)

/-- With a setter and a deviation at the threshold, the ratio is sent exactly if it fits, and otherwise scaled
down, with an error of at most one percent, or refused because one of the numbers gets too small. -/
theorem ratio_scaling (this : BaseTokenPriceUpdater) (newRatio : ℚ≥0) :
    (∀ n d, this.maybeUpdateL1Ratio newRatio = .ok (some (n, d)) →
      (Fit newRatio.num newRatio.den → n = newRatio.num ∧ d = newRatio.den) ∧
      (¬Fit newRatio.num newRatio.den → Fit n d ∧ 100 ≤ n ∧ 100 ≤ d ∧
        100 * |((n : ℤ) * newRatio.den - newRatio.num * d)| ≤ newRatio.num * d)) ∧
    (this.maybeUpdateL1Ratio newRatio = .error .tooLarge → ¬Fit newRatio.num newRatio.den ∧
      ∃ k, FirstFit newRatio.num newRatio.den k ∧ min (newRatio.num / 10 ^ k) (newRatio.den / 10 ^ k) < 100) ∧
    (this.hasTokenMultiplierSetter = true → this.lastL1Ratio ≠ 0 → this.Deviates newRatio →
      this.maybeUpdateL1Ratio newRatio = .error .tooLarge ∨
        ∃ n d, this.maybeUpdateL1Ratio newRatio = .ok (some (n, d))) := by
  obtain ⟨h, hdeviates⟩ | ⟨h, hzero⟩ | h := maybeUpdateL1Ratio_cases this newRatio
  · simp +contextual [h, hdeviates]
  · simp [h, hzero]
  rw [h]
  by_cases hfit : Fit newRatio.num newRatio.den
  · rw [l1Pair_of_fit hfit]
    refine ⟨fun n d hnd => ⟨fun _ => ?_, fun hnot => absurd hfit hnot⟩, by simp [Except.map], fun _ _ _ => .inr ⟨_, _, rfl⟩⟩
    cases hnd
    exact ⟨rfl, rfl⟩
  obtain ⟨k, hk, heq⟩ := l1Pair_of_not_fit hfit
  rw [heq]
  split_ifs with hmin
  · exact ⟨fun n d hnd => by simp [Except.map] at hnd, fun _ => ⟨hfit, k, hk, hmin⟩, fun _ _ _ => .inl rfl⟩
  refine ⟨fun n d hnd => ⟨fun hf => absurd hf hfit, fun _ => ?_⟩, by simp [Except.map], fun _ _ _ => .inr ⟨_, _, rfl⟩⟩
  obtain ⟨rfl, rfl⟩ : newRatio.num / 10 ^ k = n ∧ newRatio.den / 10 ^ k = d := by simpa [Except.map] using hnd
  have h100 : 100 ≤ newRatio.num / 10 ^ k ∧ 100 ≤ newRatio.den / 10 ^ k := by omega
  have hpos : 0 < 10 ^ k := by positivity
  have hbound := truncated_ratio_error (Nat.mod_lt newRatio.num hpos) (Nat.mod_lt newRatio.den hpos) h100.1 h100.2
  rw [Nat.div_add_mod, Nat.div_add_mod] at hbound
  exact ⟨(hk k).mpr le_rfl, h100.1, h100.2, by exact_mod_cast hbound⟩

/-- A numerator that fits after two divisions. -/
def largeRatio : ℚ≥0 := ⟨⟨10 ^ 40 + 1, 10 ^ 5, by decide, by decide⟩, by decide⟩

def sampleUpdater : BaseTokenPriceUpdater := ⟨true, 1, 10⟩

theorem ratio_scaling_large :
    sampleUpdater.maybeUpdateL1Ratio largeRatio = .ok (some (10 ^ 38, 10 ^ 3)) ∧
      100 * |((10 ^ 38 : ℕ) : ℤ) * largeRatio.den - largeRatio.num * (10 ^ 3 : ℕ)| ≤ largeRatio.num * (10 ^ 3 : ℕ) := by
  have hsent : sampleUpdater.maybeUpdateL1Ratio largeRatio = .ok (some (10 ^ 38, 10 ^ 3)) := by decide +kernel
  have hfit : ¬Fit largeRatio.num largeRatio.den := by decide +kernel
  have hscaled := ((ratio_scaling sampleUpdater largeRatio).1 _ _ hsent).2 hfit
  exact ⟨hsent, hscaled.2.2.2⟩

end BaseToken
