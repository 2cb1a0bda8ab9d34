import ZksyncOsServer.Lib.Run

/-!
# Interleaved tasks

Requests that share a state and are served concurrently. A task runs from one
suspension point to the next without interruption; between two such turns any
other task may run, and a suspended task may be dropped.
-/
namespace Tasks

variable {σ κ τ ι ρ : Type}

/-- How a turn of a task ends. -/
inductive Progress (τ ρ : Type) where
  | pending (task : τ)
  | finished (result : ρ)
  deriving DecidableEq

/-- The code of the requests: where each one starts, and what one turn of a task does, given
what the environment answers. -/
structure Program (σ κ τ ι ρ : Type) where
  enter : κ → τ
  resume : ι → τ → σ → σ × Progress τ ρ

structure Pool (σ τ : Type) where
  state : σ
  tasks : List τ

inductive Event (κ ι : Type) where
  | start (request : κ)
  | resume (index : Nat) (input : ι)
  | cancel (index : Nat)

namespace Program

variable (program : Program σ κ τ ι ρ)

def step (pool : Pool σ τ) : Event κ ι → Pool σ τ
  | .start request => { pool with tasks := pool.tasks ++ [program.enter request] }
  | .resume index input =>
    match pool.tasks[index]? with
    | none => pool
    | some task =>
      match program.resume input task pool.state with
      | (state, .pending task) => ⟨state, pool.tasks.set index task⟩
      | (state, .finished _) => ⟨state, pool.tasks.eraseIdx index⟩
  | .cancel index => { pool with tasks := pool.tasks.eraseIdx index }

/-- A condition on the turns of a run. -/
def Turns (P : σ → τ → ι → Prop) (pool : Pool σ τ) : Event κ ι → Prop
  | .resume index input => ∀ task ∈ pool.tasks[index]?, P pool.state task input
  | _ => True

variable {pool : Pool σ τ}

theorem step_resume_none {index : Nat} (h : pool.tasks[index]? = none) (input : ι) :
    program.step pool (.resume index input) = pool := by
  rw [step, h]

theorem state_resume {index : Nat} {task : τ} (h : pool.tasks[index]? = some task) (input : ι) :
    (program.step pool (.resume index input)).state = (program.resume input task pool.state).1 := by
  rw [step, h]
  dsimp only
  rcases program.resume input task pool.state with ⟨state, task' | result⟩
  · rfl
  · rfl

/-- The state changes only by turns of tasks. -/
theorem state_step (pool : Pool σ τ) (event : Event κ ι) : (program.step pool event).state = pool.state ∨
      ∃ index input task, event = .resume index input ∧ pool.tasks[index]? = some task ∧
        (program.step pool event).state = (program.resume input task pool.state).1 := by
  cases event with
  | start request => exact .inl rfl
  | cancel index => exact .inl rfl
  | resume index input =>
    cases htask : pool.tasks[index]? with
    | none => exact .inl (by rw [program.step_resume_none htask])
    | some task => exact .inr ⟨index, input, task, rfl, htask, program.state_resume htask input⟩

theorem states_of_turns {P : σ → τ → ι → Prop} {Q : σ → Prop} {events : List (Event κ ι)}
    (hturn : ∀ state task input, Q state → P state task input → Q (program.resume input task state).1)
    (h : Q pool.state) (hrun : Run.Steps program.step (Turns P) pool events) :
    Run.States program.step (fun pool => Q pool.state) pool events := by
  refine hrun.invariant ?_ h
  intro pool event hQ hP
  obtain hstate | ⟨index, input, task, rfl, htask, hstate⟩ := program.state_step pool event
  · rwa [hstate]
  · rw [hstate]
    exact hturn pool.state task input hQ (hP task htask)

/-- If a turn keeps `Q` exactly when it meets `P`, then `Q` holds in all states of a run exactly
when all its turns meet `P`. -/
theorem states_iff_turns {P : σ → τ → ι → Prop} {Q : σ → Prop} {events : List (Event κ ι)}
    (hturn : ∀ state task input, Q state → (Q (program.resume input task state).1 ↔ P state task input))
    (h : Q pool.state) :
    Run.States program.step (fun pool => Q pool.state) pool events ↔ Run.Steps program.step (Turns P) pool events := by
  have hany : Run.Steps program.step (fun _ _ => True) pool events :=
    Run.steps_of_forall fun _ _ => trivial
  refine Run.states_iff_steps (I := fun _ => True) (fun _ _ _ _ => trivial) ?_ trivial h hany
  intro pool event _ hQ _
  cases event with
  | start request => exact iff_of_true hQ trivial
  | cancel index => exact iff_of_true hQ trivial
  | resume index input =>
    cases htask : pool.tasks[index]? with
    | none =>
      rw [program.step_resume_none htask]
      exact iff_of_true hQ (by simp [Turns, htask])
    | some task =>
      rw [program.state_resume htask, hturn pool.state task input hQ]
      simp [Turns, htask]

instance {P : σ → τ → ι → Prop} [∀ s t i, Decidable (P s t i)] (pool : Pool σ τ) :
    DecidablePred (Turns P pool : Event κ ι → Prop) := fun event => by
  unfold Turns
  split <;> infer_instance

end Program

end Tasks
