import Mathlib

/-!
# Searching the first block at which a condition holds

`l1_watcher/src/util.rs`, `find_first_true_block` and `find_l1_block_by_predicate`: probes
that gallop from the tip of the chain, then a binary search of the bracket. The documented
postcondition does not need the condition to be monotonic, and this is what the callers rely
on when a batch is committed more than once.
-/
namespace L1Watcher

def u64Max : Nat := 2 ^ 64 - 1

def gallopInitialDistance : Nat := 1000

/-- The loop that gallops from the tip; `none` stands for more rounds than the fuel allows. -/
def gallop (predicate : Nat → Bool) (latest lo : Nat) : Nat → Nat → Nat → Option (Nat × Nat)
  | 0, _, _ => none
  | fuel + 1, hi, distance =>
    if lo < hi then
      let probe := max (latest - distance) lo
      if predicate probe then
        if probe = lo then some (lo, probe)
        else gallop predicate latest lo fuel probe (min (distance * 2) u64Max)
      else some (probe + 1, hi)
    else some (lo, hi)

/-- The binary search of `[lo, hi]`. -/
def bisect (predicate : Nat → Bool) : Nat → Nat → Nat → Option Nat
  | 0, _, _ => none
  | fuel + 1, lo, hi =>
    if lo < hi then
      let mid := lo + (hi - lo) / 2
      if predicate mid then bisect predicate fuel lo mid else bisect predicate fuel (mid + 1) hi
    else some lo

/-- Rounds that are enough for block numbers of 64 bits. -/
def searchRounds : Nat := 65

def findFirstTrueBlock (startBlockNumber latest : Nat) (predicate : Nat → Bool) : Option Nat := do
  let (lo, hi) ← gallop predicate latest startBlockNumber searchRounds latest gallopInitialDistance
  bisect predicate searchRounds lo hi

/-- What both loops keep: the condition holds at `hi`, and fails right before `lo` unless that
is where the search starts. -/
structure Bracket (predicate : Nat → Bool) (start latest lo hi : Nat) : Prop where
  start_le : start ≤ lo
  le : lo ≤ hi
  le_latest : hi ≤ latest
  holds : predicate hi = true
  boundary : lo = start ∨ predicate (lo - 1) = false

variable {predicate : Nat → Bool} {start latest lo hi : Nat}

section
variable (h : Bracket predicate start latest lo hi)
include h

theorem Bracket.lower {mid : Nat} (hlo : lo ≤ mid) (hhi : mid ≤ hi)
    (hp : predicate mid = true) : Bracket predicate start latest lo mid :=
  ⟨h.start_le, hlo, hhi.trans h.le_latest, hp, h.boundary⟩

theorem Bracket.raise {mid : Nat} (hlo : lo ≤ mid) (hhi : mid ≤ hi)
    (hp : predicate mid = false) : Bracket predicate start latest (mid + 1) hi := by
  have hne : mid ≠ hi := by
    rintro rfl
    simp [h.holds] at hp
  exact ⟨by have := h.start_le; omega, by omega, h.le_latest, h.holds, .inr (by simpa using hp)⟩

theorem Bracket.closed (hge : ¬ lo < hi) : Bracket predicate start latest lo lo := by
  obtain rfl : hi = lo := by have := h.le; omega
  exact h

end

/-- The gallop ends with a bracket, once its distance can reach the start. -/
theorem gallop_spec (h : Bracket predicate start latest start hi) {fuel distance : Nat}
    (hprobe : latest - distance ≤ hi) (hreach : latest - start ≤ distance * 2 ^ fuel)
    (hfits : latest - start ≤ u64Max) :
    ∃ lo' hi', gallop predicate latest start (fuel + 1) hi distance = some (lo', hi') ∧
      Bracket predicate start latest lo' hi' := by
  induction fuel generalizing hi distance with
  | zero =>
    have hstart : max (latest - distance) start = start := by omega
    rw [gallop, hstart]
    by_cases hlt : start < hi
    · cases hp : predicate start with
      | true => exact ⟨start, start, by simp [hlt, hp], h.lower le_rfl hlt.le hp⟩
      | false => exact ⟨start + 1, hi, by simp [hlt, hp], h.raise le_rfl hlt.le hp⟩
    · exact ⟨start, hi, by simp [hlt], h⟩
  | succ fuel ih =>
    rw [gallop]
    by_cases hlt : start < hi
    · rw [if_pos hlt]
      have hlo : start ≤ max (latest - distance) start := le_max_right ..
      have hhi : max (latest - distance) start ≤ hi := max_le hprobe hlt.le
      cases hp : predicate (max (latest - distance) start) with
      | true =>
        have hlower := h.lower hlo hhi hp
        by_cases heq : max (latest - distance) start = start
        · rw [heq] at hp hlower
          exact ⟨start, start, by simp [heq, hp], hlower⟩
        · have hreach' : latest - start ≤ min (distance * 2) u64Max * 2 ^ fuel := by
            rcases Nat.le_total (distance * 2) u64Max with hcap | hcap
            · rw [min_eq_left hcap, Nat.mul_assoc, ← Nat.pow_succ']
              exact hreach
            · rw [min_eq_right hcap]
              exact hfits.trans (Nat.le_mul_of_pos_right _ (Nat.two_pow_pos fuel))
          simpa only [heq, hp, if_true, if_false] using ih hlower (by omega) hreach'
      | false => exact ⟨_, _, by simp [hp], h.raise hlo hhi hp⟩
    · exact ⟨start, hi, by simp [hlt], h⟩

/-- The binary search ends at a block where the bracket has closed. -/
theorem bisect_spec (h : Bracket predicate start latest lo hi) {fuel : Nat} (hfuel : hi - lo < 2 ^ fuel) :
    ∃ r, bisect predicate (fuel + 1) lo hi = some r ∧ Bracket predicate start latest r r := by
  induction fuel generalizing lo hi with
  | zero =>
    have hge : ¬ lo < hi := by simp at hfuel; omega
    exact ⟨lo, by simp [bisect, hge], h.closed hge⟩
  | succ fuel ih =>
    rw [bisect]
    by_cases hlt : lo < hi
    · have hlo : lo ≤ lo + (hi - lo) / 2 := by omega
      have hhi : lo + (hi - lo) / 2 ≤ hi := by omega
      rw [Nat.pow_succ] at hfuel
      cases hp : predicate (lo + (hi - lo) / 2) with
      | true => simpa [hlt, hp] using ih (h.lower hlo hhi hp) (by omega)
      | false => simpa [hlt, hp] using ih (h.raise hlo hhi hp) (by omega)
    · exact ⟨lo, by simp [hlt], h.closed hlt⟩

/-- The postcondition of the search: the condition holds at the block found, and fails at the
block before it unless the search starts there. -/
theorem findFirstTrueBlock_spec (hstart : start ≤ latest) (hlatest : latest ≤ u64Max) (hp : predicate latest = true) :
    ∃ r, findFirstTrueBlock start latest predicate = some r ∧ start ≤ r ∧ r ≤ latest ∧ predicate r = true ∧
      (r = start ∨ predicate (r - 1) = false) := by
  have hinit : Bracket predicate start latest start latest := ⟨le_rfl, hstart, le_rfl, hp, .inl rfl⟩
  have hspan : latest - start ≤ u64Max := (Nat.sub_le ..).trans hlatest
  obtain ⟨lo, hi, hgallop, hbracket⟩ := gallop_spec hinit (Nat.sub_le latest gallopInitialDistance)
    (show latest - start ≤ gallopInitialDistance * 2 ^ 64 by simp only [gallopInitialDistance, u64Max] at *; omega) hspan
  have hwidth : hi - lo < 2 ^ 64 := by
    have := hbracket.le_latest
    simp only [u64Max] at hlatest
    omega
  obtain ⟨r, hbisect, hr⟩ := bisect_spec hbracket hwidth
  refine ⟨r, ?_, hr.start_le, hr.le_latest, hr.holds, hr.boundary⟩
  simp [findFirstTrueBlock, searchRounds, hgallop, hbisect]

/-- The search goes back at least to where the condition began to hold for good. -/
theorem findFirstTrueBlock_le {first : Nat} (hstart : start ≤ first) (hfirst : first ≤ latest)
    (hlatest : latest ≤ u64Max) (hp : ∀ block, first ≤ block → block ≤ latest → predicate block = true) :
    ∃ r, findFirstTrueBlock start latest predicate = some r ∧ start ≤ r ∧ r ≤ first := by
  obtain ⟨r, hr, hle, hmax, -, hboundary⟩ :=
    findFirstTrueBlock_spec (hstart.trans hfirst) hlatest (hp latest hfirst le_rfl)
  refine ⟨r, hr, hle, ?_⟩
  by_contra hlt
  rcases hboundary with rfl | hfalse
  · omega
  · have htrue := hp (r - 1) (by omega) (by omega)
    simp [htrue] at hfalse

/-- The search ends for every condition that holds at the tip, at a block where it holds and right before which
it fails unless the search starts there; of a monotonic condition it finds the first block. -/
theorem galloping_search (start latest : Nat) (predicate : Nat → Bool) (hstart : start ≤ latest)
    (hlatest : latest ≤ u64Max) (hp : predicate latest = true) :
    ∃ r, findFirstTrueBlock start latest predicate = some r ∧ start ≤ r ∧ r ≤ latest ∧ predicate r = true ∧
      (r = start ∨ predicate (r - 1) = false) ∧
      ((∀ a b, start ≤ a → a ≤ b → b ≤ latest → predicate a = true → predicate b = true) →
        ∀ block, start ≤ block → block ≤ latest → predicate block = true → r ≤ block) := by
  obtain ⟨r, hr, hge, hle, hholds, hboundary⟩ := findFirstTrueBlock_spec hstart hlatest hp
  refine ⟨r, hr, hge, hle, hholds, hboundary, fun hmono block hblock hblockLe hpblock => ?_⟩
  obtain ⟨r', hr', -, hle'⟩ := findFirstTrueBlock_le hblock hblockLe hlatest fun b hb hb' => hmono block b hblock hb hb' hpblock
  rwa [Option.some.inj (hr.symm.trans hr')]

/-- A condition that holds at one block before the last one and not in between. -/
theorem galloping_search_with_a_gap :
    ∃ r, findFirstTrueBlock 0 3000 (fun block => block = 5 ∨ block = 3000) = some r ∧ 0 ≤ r ∧ r ≤ 3000 ∧
      decide (r = 5 ∨ r = 3000) = true := by
  obtain ⟨r, hr, hge, hle, hp, -⟩ :=
    galloping_search 0 3000 (fun block => block = 5 ∨ block = 3000) (by decide) (by decide) (by decide)
  exact ⟨r, hr, hge, hle, hp⟩

end L1Watcher
