import ZksyncOsServer.BatchTypes.BatchInfo

/-!
# Fee parameters of produced blocks

`sequencer/src/execution/fee_provider.rs`. The native price follows the price that the configuration asks for,
by at most an eighth in a block; increases are rounded up to one, decreases are not.
-/
namespace FeeProvider

open Fallible
open BatchTypes (PubdataMode)

abbrev U256 := Fin (2 ^ 256)

structure FeeConfig where
  nativePriceUsd : ℚ
  baseFeeOverride : Option Nat
  nativePerGas : Nat
  pubdataPriceOverride : Option Nat
  pubdataPriceCap : Option Nat
  nativePriceOverride : Option Nat

structure TokenPricesForFees where
  baseTokenUsdPrice : ℚ
  slTokenUsdPrice : ℚ

structure FeeParams where
  eip1559Basefee : U256
  nativePrice : U256
  pubdataPrice : U256
  deriving DecidableEq

/-- What a block reads besides the token prices. -/
structure PubdataInputs where
  pubdataPrice : Option U256
  blobFillRatio : Option ℚ

structure Provider where
  feeConfig : FeeConfig
  previousBlockFeeParams : Option FeeParams
  pubdataMode : Option PubdataMode

def clamp (x lo hi : Nat) : Nat := if x < lo then lo else if hi < x then hi else x

/-- `biguint_to_u256_checked`, or the largest number. -/
def cappedU256 (n : Nat) : U256 := if h : n < 2 ^ 256 then ⟨n, h⟩ else ⟨2 ^ 256 - 1, by decide⟩

def desiredNativePrice (config : FeeConfig) (prices : TokenPricesForFees) : Nat :=
  ⌈config.nativePriceUsd / prices.baseTokenUsdPrice⌉₊

def nativePerBlobByte : Nat := 50000000 / ((4096 - 1) * 31)

namespace Provider

variable (this : Provider) (prices : TokenPricesForFees) (inputs : PubdataInputs)

/-- Dividing by a price of zero panics. -/
def calculateNativePrice : Except String Nat :=
  match this.feeConfig.nativePriceOverride with
  | some price => .ok price
  | none => do
    require (prices.baseTokenUsdPrice ≠ 0) "denominator == 0"
    let desired := desiredNativePrice this.feeConfig prices
    return match this.previousBlockFeeParams.map (·.nativePrice.val) with
      | some previous => clamp desired (previous - previous / 8) (previous + max (previous / 8) 1)
      | none => clamp desired desired desired

def calculateBaseFee (nativePrice : Nat) : Nat :=
  this.feeConfig.baseFeeOverride.getD (nativePrice * this.feeConfig.nativePerGas)

/-- The price before it is limited: with blobs their cost in native resources is added, and the empty part of
the blobs is paid for. -/
def desiredPubdataPrice (nativePrice : Nat) : Except String Nat := do
  let price ← ofOption "Pubdata price must be available" inputs.pubdataPrice
  require (prices.baseTokenUsdPrice ≠ 0) "denominator == 0"
  let base := ⌈(price.val : ℚ) * (prices.slTokenUsdPrice / prices.baseTokenUsdPrice)⌉₊
  match ← ofOption "pubdata_mode must be set when producing blocks" this.pubdataMode with
  | .blobs =>
    let fillRatio := inputs.blobFillRatio.getD (1 / 2)
    require (fillRatio ≠ 0) "denominator == 0"
    return ⌊((base + nativePrice * nativePerBlobByte : Nat) : ℚ) / fillRatio⌋₊
  | _ => return base

def calculatePubdataPrice (nativePrice : Nat) : Except String Nat :=
  match this.feeConfig.pubdataPriceOverride with
  | some price => .ok price
  | none => do
    let desired ← this.desiredPubdataPrice prices inputs nativePrice
    let limited := match this.previousBlockFeeParams.map (·.pubdataPrice.val) with
      | some previous => min desired (previous + max (previous / 2) 1)
      | none => desired
    return this.feeConfig.pubdataPriceCap.elim limited (min limited)

def produceFeeParams : Except String FeeParams := do
  let nativePrice ← this.calculateNativePrice prices
  let pubdataPrice ← this.calculatePubdataPrice prices inputs nativePrice
  return ⟨cappedU256 (this.calculateBaseFee nativePrice), cappedU256 nativePrice, cappedU256 pubdataPrice⟩

/-- `on_canonical_state_change`; of the block context only the fees are read. -/
def onCanonicalStateChange (fees : FeeParams) : Provider := { this with previousBlockFeeParams := some fees }

end Provider

/-! ### The native price over many blocks -/

theorem val_cappedU256 (n : Nat) : (cappedU256 n).val = min n (2 ^ 256 - 1) := by
  rw [cappedU256]
  split <;> simp only <;> omega

/-- The price after a block, from the one before it. -/
def nextPrice (desired previous : Nat) : Nat :=
  min (clamp desired (previous - previous / 8) (previous + max (previous / 8) 1)) (2 ^ 256 - 1)

/-- Where the price comes to rest: a price below eight does not decrease. -/
def limitPrice (desired start : Nat) : Nat := max (min desired (2 ^ 256 - 1)) (min start 7)

section Prices

variable {desired previous : Nat} (h : previous < 2 ^ 256)
include h

theorem nextPrice_between : previous ≤ nextPrice desired previous ∧ nextPrice desired previous ≤ desired ∨
    desired ≤ nextPrice desired previous ∧ nextPrice desired previous ≤ previous := by
  simp only [nextPrice, clamp]
  split_ifs <;> omega

theorem nextPrice_change : nextPrice desired previous ≤ previous + max (previous / 8) 1 ∧
    previous ≤ nextPrice desired previous + max (previous / 8) 1 := by
  simp only [nextPrice, clamp]
  split_ifs <;> omega

theorem limitPrice_nextPrice : limitPrice desired (nextPrice desired previous) = limitPrice desired previous := by
  simp only [limitPrice, nextPrice, clamp]
  split_ifs <;> omega

theorem nextPrice_closer (hne : previous ≠ limitPrice desired previous) :
    ((nextPrice desired previous : ℤ) - limitPrice desired previous).natAbs <
      ((previous : ℤ) - limitPrice desired previous).natAbs := by
  simp only [limitPrice, nextPrice, clamp] at *
  split_ifs <;> omega

theorem nextPrice_of_eq (heq : previous = limitPrice desired previous) : nextPrice desired previous = previous := by
  simp only [limitPrice, nextPrice, clamp] at *
  split_ifs <;> omega

end Prices

/-- Every block is produced after the one before it has been fed back. -/
def Produces (this : Provider) (prices : TokenPricesForFees) (inputs : Nat → PubdataInputs) (fees : Nat → FeeParams) : Prop :=
  ∀ n, (this.onCanonicalStateChange (fees n)).produceFeeParams prices (inputs n) = .ok (fees (n + 1))

variable {this : Provider} {prices : TokenPricesForFees} {inputs : Nat → PubdataInputs} {fees : Nat → FeeParams}

theorem Produces.nativePrice (h : Produces this prices inputs fees) (hoverride : this.feeConfig.nativePriceOverride = none)
    (n : Nat) :
    (fees (n + 1)).nativePrice.val = nextPrice (desiredNativePrice this.feeConfig prices) (fees n).nativePrice.val := by
  obtain ⟨nativePrice, hnative, hrest⟩ := bind_eq_ok.mp (h n)
  obtain ⟨pubdataPrice, -, hfees⟩ := bind_eq_ok.mp hrest
  rw [Provider.calculateNativePrice] at hnative
  simp only [Provider.onCanonicalStateChange, hoverride, Option.map_some] at hnative
  obtain ⟨_, -, hnative⟩ := bind_eq_ok.mp hnative
  rw [← pure_eq_ok.mp hfees, ← pure_eq_ok.mp hnative]
  exact val_cappedU256 _

theorem reaches_limit {price : Nat → Nat} {desired : Nat} (hlt : ∀ n, price n < 2 ^ 256)
    (hnext : ∀ n, price (n + 1) = nextPrice desired (price n)) :
    ∃ N, ∀ n, N ≤ n → price n = limitPrice desired (price 0) := by
  have hlimit : ∀ n, limitPrice desired (price n) = limitPrice desired (price 0) := by
    intro n
    induction n with
    | zero => rfl
    | succ n ih => rw [hnext, limitPrice_nextPrice (hlt n), ih]
  have hstay : ∀ n, price n = limitPrice desired (price 0) → price (n + 1) = limitPrice desired (price 0) := by
    intro n hn
    rw [hnext, nextPrice_of_eq (hlt n) (hn.trans (hlimit n).symm), hn]
  -- Until it is there, the price gets closer to the limit with every block.
  have hreach : ∀ distance n, ((price n : ℤ) - limitPrice desired (price 0)).natAbs ≤ distance →
      ∃ N, price N = limitPrice desired (price 0) := by
    intro distance
    induction distance with
    | zero => exact fun n hn => ⟨n, by omega⟩
    | succ distance ih =>
      intro n hn
      by_cases hat : price n = limitPrice desired (price 0)
      · exact ⟨n, hat⟩
      · have hcloser := nextPrice_closer (hlt n) fun heq => hat (heq.trans (hlimit n))
        rw [hlimit, ← hnext] at hcloser
        exact ih (n + 1) (by omega)
  obtain ⟨N, hN⟩ := hreach _ 0 (Nat.le_refl _)
  exact ⟨N, fun n hn => Nat.le_induction hN (fun n _ ih => hstay n ih) n hn⟩

/-- A produced native price lies between the previous one and the desired one and changes by an eighth or by
one at most. It comes to rest at the desired price, unless that is beyond 256 bits or the price has to
decrease below seven. -/
theorem native_price_converges (this : Provider) (prices : TokenPricesForFees) (inputs : Nat → PubdataInputs)
    (fees : Nat → FeeParams) (hoverride : this.feeConfig.nativePriceOverride = none)
    (h : Produces this prices inputs fees) :
    (∀ n, let previous := (fees n).nativePrice.val
      let price := (fees (n + 1)).nativePrice.val
      let desired := desiredNativePrice this.feeConfig prices
      (previous ≤ price ∧ price ≤ desired ∨ desired ≤ price ∧ price ≤ previous) ∧
        price ≤ previous + max (previous / 8) 1 ∧ previous ≤ price + max (previous / 8) 1) ∧
    ∃ N, ∀ n, N ≤ n → (fees n).nativePrice.val =
      max (min (desiredNativePrice this.feeConfig prices) (2 ^ 256 - 1)) (min (fees 0).nativePrice.val 7) := by
  refine ⟨fun n => ?_, reaches_limit (fun n => (fees n).nativePrice.isLt) (h.nativePrice hoverride)⟩
  have hlt := (fees n).nativePrice.isLt
  rw [h.nativePrice hoverride]
  exact ⟨nextPrice_between hlt, nextPrice_change hlt⟩

/-- A provider that asks for a price of one, and its native price of five. -/
def stalled : Provider := ⟨⟨2, none, 1, some 1, none, none⟩, none, none⟩

def stalledFees : FeeParams := ⟨5, 5, 1⟩

theorem produces_stalled : Produces stalled ⟨2, 2⟩ (fun _ => ⟨none, none⟩) fun _ => stalledFees := by
  have hproduce : (stalled.onCanonicalStateChange stalledFees).produceFeeParams ⟨2, 2⟩ ⟨none, none⟩ = .ok stalledFees := by
    decide +kernel
  exact fun _ => hproduce

/-- A provider that asks for a price of eight, and the prices that rise to it from five on. -/
def rising : Provider := { stalled with feeConfig := { stalled.feeConfig with nativePriceUsd := 16 } }

def risingFees (n : Nat) : FeeParams :=
  let price : U256 := if n < 3 then Fin.ofNat _ (5 + n) else 8
  ⟨price, price, 1⟩

theorem produces_rising : Produces rising ⟨2, 2⟩ (fun _ => ⟨none, none⟩) risingFees
  | 0 | 1 | 2 => by decide +kernel
  | n + 3 => by
    have hproduce : (rising.onCanonicalStateChange (risingFees 3)).produceFeeParams ⟨2, 2⟩ ⟨none, none⟩ =
        .ok (risingFees 3) := by
      decide +kernel
    have hrest : ∀ n, risingFees (n + 3) = risingFees 3 := fun n => by simp [risingFees]
    rw [hrest, show n + 3 + 1 = n + 1 + 3 from rfl, hrest]
    exact hproduce

theorem native_price_converges_rising : [0, 1, 2].map (fun n => (risingFees n).nativePrice) = [5, 6, 7] ∧
    ∃ N, ∀ n, N ≤ n → (risingFees n).nativePrice.val = 8 := by
  have hlimit : max (min (desiredNativePrice rising.feeConfig ⟨2, 2⟩) (2 ^ 256 - 1)) (min (risingFees 0).nativePrice.val 7) =
      8 := by decide +kernel
  refine ⟨by decide, ?_⟩
  rw [← hlimit]
  exact (native_price_converges rising ⟨2, 2⟩ (fun _ => ⟨none, none⟩) risingFees rfl produces_rising).2

/-- The price is never the desired one. -/
theorem native_price_stalls : Produces stalled ⟨2, 2⟩ (fun _ => ⟨none, none⟩) (fun _ => stalledFees) ∧
      desiredNativePrice stalled.feeConfig ⟨2, 2⟩ = 1 ∧
      ¬ ∃ N, ∀ n : Nat, N ≤ n → stalledFees.nativePrice.val = desiredNativePrice stalled.feeConfig ⟨2, 2⟩ := by
  have hdesired : desiredNativePrice stalled.feeConfig ⟨2, 2⟩ = 1 := by decide +kernel
  refine ⟨produces_stalled, hdesired, fun ⟨N, hN⟩ => ?_⟩
  exact absurd ((hN N (Nat.le_refl _)).trans hdesired) (by decide)

end FeeProvider
