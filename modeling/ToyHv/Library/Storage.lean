import Mathlib.Logic.Function.Basic
import Mathlib.Data.List.Basic

namespace Library

variable {κ ν : Type} [DecidableEq κ]

/-- What a memory cell holds after writes listed oldest first: the value last written to it,
    or its initial value. -/
def lastWrite (initial : κ → ν) (writes : List (κ × ν)) (key : κ) : ν :=
  match writes.reverse.find? fun write => write.1 = key with
  | some write => write.2
  | none => initial key

@[simp] theorem lastWrite_nil (initial : κ → ν) : lastWrite initial [] = initial := rfl

theorem lastWrite_append (initial : κ → ν) (early late : List (κ × ν)) :
    lastWrite initial (early ++ late) = lastWrite (lastWrite initial early) late := by
  funext key
  unfold lastWrite
  rw [List.reverse_append, List.find?_append]
  cases late.reverse.find? fun write => write.1 = key <;> rfl

theorem lastWrite_singleton (initial : κ → ν) (key : κ) (value : ν) :
    lastWrite initial [(key, value)] = Function.update initial key value := by
  funext other
  unfold lastWrite
  by_cases same : key = other
  · subst same
    simp
  · simp [same, Function.update_of_ne (Ne.symm same)]

end Library
