import Mathlib

/-!
# Computations that may fail

Inversion of `Except` computations: what a sequence of steps and a traversal of
a list returned when they succeeded, and when a traversal succeeds.
-/
namespace Fallible

variable {ε α β : Type}

/-- A computation of two steps succeeds exactly when both steps do. -/
theorem bind_eq_ok {x : Except ε α} {f : α → Except ε β} {b : β} : x >>= f = .ok b ↔ ∃ a, x = .ok a ∧ f a = .ok b := by
  cases x with
  | error e => simp [bind, Except.bind]
  | ok a => simp [bind, Except.bind]

theorem exists_bind_eq_ok {x : Except ε α} {f : α → Except ε β} :
    (∃ b, x >>= f = .ok b) ↔ ∃ a, x = .ok a ∧ ∃ b, f a = .ok b := by
  simp only [bind_eq_ok]
  exact ⟨fun ⟨b, a, ha, hb⟩ => ⟨a, ha, b, hb⟩, fun ⟨a, ha, b, hb⟩ => ⟨b, a, ha, hb⟩⟩

theorem map_eq_ok {f : α → β} {x : Except ε α} {b : β} : f <$> x = .ok b ↔ ∃ a, x = .ok a ∧ f a = b := by
  cases x with
  | error e => simp [Functor.map, Except.map]
  | ok a => simp [Functor.map, Except.map]

theorem exists_of_isOk {x : Except ε α} (h : x.isOk = true) : ∃ a, x = .ok a := by
  cases x with
  | error e => exact absurd h (by simp [Except.isOk, Except.toBool])
  | ok a => exact ⟨a, rfl⟩

variable {a : α} {e : ε} {l : List α}

theorem toOption_eq_some {x : Except ε α} : x.toOption = some a ↔ x = .ok a := by
  cases x <;> simp [Except.toOption]

@[simp] theorem ok_bind (a : α) (f : α → Except ε β) : (Except.ok a >>= f) = f a := rfl

@[simp] theorem pure_eq_ok {b : α} : (pure a : Except ε α) = .ok b ↔ a = b := by
  simp [pure, Except.pure]

/-- Fails unless the condition holds. -/
def require (p : Prop) [Decidable p] (e : ε) : Except ε Unit := if p then .ok () else .error e

@[simp] theorem require_eq_ok {p : Prop} [Decidable p] {u : Unit} : require p e = .ok u ↔ p := by
  rw [require]
  split <;> simp_all

theorem require_pos {p : Prop} [Decidable p] (h : p) : require p e = .ok () := if_pos h

/-- Fails if there is no value. -/
def ofOption (e : ε) : Option α → Except ε α
  | some a => .ok a
  | none => .error e

@[simp] theorem ofOption_some (e : ε) (a : α) : ofOption e (some a) = .ok a := rfl

@[simp] theorem ofOption_eq_ok {x : Option α} : ofOption e x = .ok a ↔ x = some a := by
  cases x <;> simp [ofOption]

theorem mapM_cons (f : α → Except ε β) (a : α) (l : List α) :
    (a :: l).mapM f = f a >>= fun b => l.mapM f >>= fun r => .ok (b :: r) := by
  rw [List.mapM_cons]
  rfl

/-- A successful traversal returned the results of the elements in order. -/
theorem mapM_eq_ok {f : α → Except ε β} {r : List β} :
    l.mapM f = .ok r ↔ List.Forall₂ (fun a b => f a = .ok b) l r := by
  induction l generalizing r with
  | nil => simp [pure, Except.pure, eq_comm]
  | cons a l ih =>
    rw [mapM_cons, bind_eq_ok]
    simp only [bind_eq_ok, ih, Except.ok.injEq]
    constructor
    · rintro ⟨b, hb, s, hs, rfl⟩
      exact .cons hb hs
    · intro h
      cases h with
      | cons hb hs => exact ⟨_, hb, _, hs, rfl⟩

theorem mapM_eq_map {f : α → Except ε β} {g : α → β} (h : ∀ a ∈ l, f a = .ok (g a)) : l.mapM f = .ok (l.map g) := by
  rw [mapM_eq_ok, List.forall₂_map_right_iff, List.forall₂_same]
  exact h

/-- A traversal whose elements all succeed succeeds, and its results stand in any
relation that theirs do. -/
theorem exists_mapM_forall₂ {f : α → Except ε β} {R : β → α → Prop}
    (h : ∀ a ∈ l, ∃ b, f a = .ok b ∧ R b a) : ∃ r, l.mapM f = .ok r ∧ List.Forall₂ R r l := by
  induction l with
  | nil => exact ⟨[], rfl, .nil⟩
  | cons a l ih =>
    rw [List.forall_mem_cons] at h
    obtain ⟨⟨b, hb, hR⟩, h⟩ := h
    obtain ⟨r, hr, hall⟩ := ih h
    exact ⟨b :: r, by rw [mapM_cons, hb, ok_bind, hr, ok_bind], .cons hR hall⟩

theorem exists_mapM_eq_ok {f : α → Except ε β} (h : ∀ a ∈ l, ∃ b, f a = .ok b) : ∃ r, l.mapM f = .ok r := by
  obtain ⟨r, hr, -⟩ := exists_mapM_forall₂ fun a ha => (h a ha).imp fun b hb => ⟨hb, trivial⟩
  exact ⟨r, hr⟩

theorem mem_of_mapM_eq_ok {f : α → Except ε β} {r : List β} (h : l.mapM f = .ok r) {b : β} :
    b ∈ r ↔ ∃ a ∈ l, f a = .ok b := by
  rw [mapM_eq_ok] at h
  induction h with
  | nil => simp
  | cons hab _ ih =>
    rw [List.mem_cons, ih, List.exists_mem_cons_iff, hab, Except.ok.injEq, eq_comm]

end Fallible
