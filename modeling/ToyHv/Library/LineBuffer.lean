import Mathlib.Data.List.TakeWhile
import Mathlib.Logic.Function.Basic

namespace Library

variable {α : Type*}

/-- What a buffer holds in front of its cursor. -/
def lineOf (buf : ℕ → α) (cursor : ℕ) : List α := (List.range cursor).map buf

/-- A string in a buffer of so many places: what comes before the first terminator. -/
def stringOf [DecidableEq α] (terminator : α) (size : ℕ) (buf : ℕ → α) : List α :=
  (lineOf buf size).takeWhile (· ≠ terminator)

variable {buf : ℕ → α} {cursor size : ℕ}

@[simp] theorem length_lineOf (buf : ℕ → α) (cursor : ℕ) : (lineOf buf cursor).length = cursor := by
  simp [lineOf]

theorem lineOf_succ (buf : ℕ → α) (cursor : ℕ) : lineOf buf (cursor + 1) = lineOf buf cursor ++ [buf cursor] := by
  simp [lineOf, List.range_succ]

theorem lineOf_pred (buf : ℕ → α) (cursor : ℕ) : lineOf buf (cursor - 1) = (lineOf buf cursor).dropLast := by
  cases cursor with
  | zero => rfl
  | succ n => rw [lineOf_succ, List.dropLast_concat, Nat.add_sub_cancel]

/-- A store at the cursor does not touch the line. -/
theorem lineOf_update (buf : ℕ → α) (cursor : ℕ) (a : α) :
    lineOf (Function.update buf cursor a) cursor = lineOf buf cursor := by
  apply List.map_congr_left
  intro i inside
  exact Function.update_of_ne (List.mem_range.mp inside).ne _ _

theorem lineOf_store (buf : ℕ → α) (cursor : ℕ) (a : α) :
    lineOf (Function.update buf cursor a) (cursor + 1) = lineOf buf cursor ++ [a] := by
  rw [lineOf_succ, lineOf_update, Function.update_self]

/-- A terminator stored at the cursor, inside the buffer, makes a string of the line. -/
theorem stringOf_terminated [DecidableEq α] {terminator : α} (inside : cursor < size)
    (plain : ∀ a ∈ lineOf buf cursor, a ≠ terminator) :
    stringOf terminator size (Function.update buf cursor terminator) = lineOf buf cursor := by
  obtain ⟨rest, rfl⟩ := Nat.exists_eq_add_of_lt inside
  have front : lineOf (Function.update buf cursor terminator) (cursor + rest + 1) =
      lineOf buf cursor ++ terminator :: (List.range rest).map fun i =>
        Function.update buf cursor terminator (cursor + 1 + i) := by
    have split : cursor + rest + 1 = cursor + 1 + rest := by omega
    rw [split, lineOf, List.range_add, List.map_append, ← lineOf, lineOf_store, List.map_map, List.append_assoc]
    rfl
  rw [stringOf, front, List.takeWhile_append_of_pos (by simpa using plain), List.takeWhile_cons_of_neg (by simp),
    List.append_nil]

end Library
