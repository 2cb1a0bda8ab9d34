import Mathlib

/-!
# Logs with keys

A list in which the last element with a key counts, as in a table that is overwritten
in place. Deleting all keys of a suffix of the log restores the table of the prefix
exactly when prefix and suffix have no key in common.
-/
namespace KeyedLog

open List

variable {α β K : Type} [DecidableEq K] {key : α → K} {l l' : List α} {k : K}

def last (key : α → K) (l : List α) (k : K) : Option α := l.reverse.find? fun a => key a = k

theorem last_append : last key (l ++ l') k = (last key l' k).or (last key l k) := by
  rw [last, reverse_append, find?_append, last, last]

theorem last_eq_none : last key l k = none ↔ ∀ a ∈ l, key a ≠ k := by
  simp [last]

theorem mem_of_last {a : α} (h : last key l k = some a) : a ∈ l ∧ key a = k :=
  ⟨mem_reverse.mp (mem_of_find?_eq_some h), by simpa using find?_some h⟩

theorem exists_last (key : α → K) {a : α} (ha : a ∈ l) : ∃ b, last key l (key a) = some b := by
  cases h : last key l (key a) with
  | some b => exact ⟨b, rfl⟩
  | none => exact absurd rfl (last_eq_none.mp h a ha)

theorem last_map_of_unique (key : α → K) {value : α → β} {a : α} (ha : a ∈ l)
    (hu : ∀ b ∈ l, key b = key a → value b = value a) : (last key l (key a)).map value = some (value a) := by
  obtain ⟨b, hb⟩ := exists_last key ha
  obtain ⟨hmem, hkey⟩ := mem_of_last hb
  rw [hb, Option.map_some, hu b hmem hkey]

def withoutKeys (key : α → K) (l l' : List α) (value : α → β) (k : K) : Option β :=
  if k ∈ l'.map key then none else (last key (l ++ l') k).map value

theorem withoutKeys_eq_iff {value : α → β} :
    (∀ k, withoutKeys key l l' value k = (last key l k).map value) ↔ ∀ a ∈ l, ∀ b ∈ l', key a ≠ key b := by
  constructor
  · intro h a ha b hb heq
    have hk := h (key b)
    rw [withoutKeys, if_pos (mem_map_of_mem hb)] at hk
    have hnone : last key l (key b) = none := by simpa using hk.symm
    exact last_eq_none.mp hnone a ha heq
  · intro h k
    rw [withoutKeys]
    split
    next hk =>
      obtain ⟨b, hb, rfl⟩ := mem_map.mp hk
      rw [last_eq_none.mpr fun a ha => h a ha b hb]
      rfl
    next hk =>
      have hnone : last key l' k = none := by
        rw [last_eq_none]
        rintro b hb rfl
        exact hk (mem_map_of_mem hb)
      rw [last_append, hnone, Option.none_or]

end KeyedLog
