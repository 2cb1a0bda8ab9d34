import Mathlib

/-!
# Runs of a state machine

A step function applied to a list of events. `Steps` says that every step of a run
meets a condition, `States` that every state of it does, the first one included;
`collect` lists what the steps of a run bring.
-/
namespace Run

variable {σ ε : Type} {step : σ → ε → σ} {I Q : σ → Prop} {P G : σ → ε → Prop} {s : σ} {es : List ε}

/-- Every event of the run meets `P` in the state it happens in. -/
def Steps (step : σ → ε → σ) (P : σ → ε → Prop) : σ → List ε → Prop
  | _, [] => True
  | s, e :: es => P s e ∧ Steps step P (step s e) es

def States (step : σ → ε → σ) (Q : σ → Prop) : σ → List ε → Prop
  | s, [] => Q s
  | s, e :: es => Q s ∧ States step Q (step s e) es

def collect {α : Type} (step : σ → ε → σ) (f : σ → ε → List α) : σ → List ε → List α
  | _, [] => []
  | s, e :: es => f s e ++ collect step f (step s e) es

def decidableSteps (step : σ → ε → σ) (P : σ → ε → Prop) [∀ s e, Decidable (P s e)] :
    (s : σ) → (es : List ε) → Decidable (Steps step P s es)
  | _, [] => inferInstanceAs (Decidable True)
  | s, e :: es =>
    have := decidableSteps step P (step s e) es
    inferInstanceAs (Decidable (_ ∧ _))

instance [∀ s e, Decidable (P s e)] : Decidable (Steps step P s es) := decidableSteps step P s es

def decidableStates (step : σ → ε → σ) (Q : σ → Prop) [DecidablePred Q] :
    (s : σ) → (es : List ε) → Decidable (States step Q s es)
  | s, [] => inferInstanceAs (Decidable (Q s))
  | s, e :: es =>
    have := decidableStates step Q (step s e) es
    inferInstanceAs (Decidable (_ ∧ _))

instance [DecidablePred Q] : Decidable (States step Q s es) := decidableStates step Q s es

theorem States.head (h : States step Q s es) : Q s := by
  cases es with
  | nil => exact h
  | cons e es => exact h.1

theorem States.last (h : States step Q s es) : Q (es.foldl step s) := by
  induction es generalizing s with
  | nil => exact h
  | cons e es ih => exact ih h.2

theorem States.imp {Q' : σ → Prop} (hQ : ∀ s, Q s → Q' s) (h : States step Q s es) : States step Q' s es := by
  induction es generalizing s with
  | nil => exact hQ s h
  | cons e es ih => exact ⟨hQ s h.1, ih h.2⟩

section
variable {α : Type} {f : σ → ε → List α} {J : List α → σ → Prop}
  (hstep : ∀ before s e, J before s → J (before ++ f s e) (step s e))
include hstep

theorem collect_induction_from {before : List α} (hs : J before s) :
    J (before ++ collect step f s es) (es.foldl step s) := by
  induction es generalizing before s with
  | nil => simpa [collect] using hs
  | cons e es ih => simpa [collect] using ih (hstep before s e hs)

/-- What relates a state to what was collected before it, and is kept by every step, holds at the end. -/
theorem collect_induction (hs : J [] s) : J (collect step f s es) (es.foldl step s) :=
  collect_induction_from hstep hs

end

/-- A history to which every step adds what it brings is what the whole run brings. -/
theorem eq_collect {α : Type} {f : σ → ε → List α} {g : σ → List α} (hstep : ∀ s e, g (step s e) = g s ++ f s e)
    (hs : g s = []) : g (es.foldl step s) = collect step f s es :=
  collect_induction (J := fun before s => g s = before) (fun _ s e h => h ▸ hstep s e) hs

theorem steps_of_forall (h : ∀ s e, P s e) : Steps step P s es := by
  induction es generalizing s with
  | nil => trivial
  | cons e es ih => exact ⟨h s e, ih⟩

theorem steps_append {fs : List ε} :
    Steps step P s (es ++ fs) ↔ Steps step P s es ∧ Steps step P (es.foldl step s) fs := by
  induction es generalizing s with
  | nil => simp [Steps]
  | cons e es ih => exact (and_congr_right fun _ => ih).trans and_assoc.symm

theorem Steps.last (hstep : ∀ s e, I s → P s e → I (step s e)) (hs : I s) (h : Steps step P s es) :
    I (es.foldl step s) := by
  induction es generalizing s with
  | nil => exact hs
  | cons e es ih => exact ih (hstep s e hs h.1) h.2

/-- What holds at first and is kept by every allowed step holds all along. -/
theorem Steps.invariant (hstep : ∀ s e, I s → P s e → I (step s e)) (hs : I s) (h : Steps step P s es) :
    States step I s es := by
  induction es generalizing s with
  | nil => exact hs
  | cons e es ih => exact ⟨hs, ih (hstep s e hs h.1) h.2⟩

/-- What allowed steps do as long as an invariant holds that they keep. -/
theorem Steps.imp (hinv : ∀ s e, I s → P s e → I (step s e)) (himp : ∀ s e, I s → P s e → G s e) (hs : I s)
    (h : Steps step P s es) : Steps step G s es := by
  induction es generalizing s with
  | nil => trivial
  | cons e es ih => exact ⟨himp s e hs h.1, ih (hinv s e hs h.1) h.2⟩

/-- What holds at first and is kept by every step holds all along. -/
theorem states_of_invariant (hstep : ∀ s e, I s → I (step s e)) (hs : I s) : States step I s es :=
  Steps.invariant (P := fun _ _ => True) (fun s e h _ => hstep s e h) hs (steps_of_forall fun _ _ => trivial)

/-- If, under an invariant, a step keeps `Q` exactly when it meets `P`, then `Q` holds all
along exactly when every step meets `P`. -/
theorem states_iff_steps (hinv : ∀ s e, I s → G s e → I (step s e))
    (hstep : ∀ s e, I s → Q s → G s e → (Q (step s e) ↔ P s e)) (hI : I s) (hQ : Q s) (hG : Steps step G s es) :
    States step Q s es ↔ Steps step P s es := by
  induction es generalizing s with
  | nil => exact ⟨fun _ => trivial, fun _ => hQ⟩
  | cons e es ih =>
    have hiff := hstep s e hI hQ hG.1
    constructor
    · intro h
      have hP := hiff.mp h.2.head
      exact ⟨hP, (ih (hinv s e hI hG.1) h.2.head hG.2).mp h.2⟩
    · intro h
      have hQ' := hiff.mpr h.1
      exact ⟨hQ, (ih (hinv s e hI hG.1) hQ' hG.2).mpr h.2⟩

/-- Two conditions that agree under an invariant are met by the same runs. -/
theorem steps_congr {P' : σ → ε → Prop} (hinv : ∀ s e, I s → G s e → P s e → I (step s e))
    (hiff : ∀ s e, I s → G s e → (P s e ↔ P' s e)) (hI : I s) (hG : Steps step G s es) :
    Steps step P s es ↔ Steps step P' s es := by
  induction es generalizing s with
  | nil => exact Iff.rfl
  | cons e es ih =>
    constructor
    · intro h
      exact ⟨(hiff s e hI hG.1).mp h.1, (ih (hinv s e hI hG.1 h.1) hG.2).mp h.2⟩
    · intro h
      have hP := (hiff s e hI hG.1).mpr h.1
      exact ⟨hP, (ih (hinv s e hI hG.1 hP) hG.2).mpr h.2⟩

end Run
