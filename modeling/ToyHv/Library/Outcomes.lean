import Mathlib.Logic.Basic

namespace Library

universe u

variable {ε : Type*} {α β : Type u} {P Q : α → Prop} {O : β → Prop} {x y : Except ε α} {f : α → Except ε β}

/-- What a computation that may fail returns, if it returns. -/
def Returns (x : Except ε α) (P : α → Prop) : Prop := ∀ a, x = .ok a → P a

theorem Returns.ok {a : α} (holds : P a) : Returns (.ok a : Except ε α) P := by
  rintro _ ⟨⟩
  exact holds

theorem Returns.pure {a : α} (holds : P a) : Returns (Pure.pure a : Except ε α) P := .ok holds

theorem Returns.error {e : ε} : Returns (.error e : Except ε α) P := by
  rintro _ ⟨⟩

theorem Returns.bind (first : Returns x P) (second : ∀ a, P a → Returns (f a) O) : Returns (x >>= f) O := by
  cases x with
  | error e => exact .error
  | ok a => exact second a (first a rfl)

/-- Where nothing depends on what the first part returns. -/
theorem Returns.read (second : ∀ a, Returns (f a) O) : Returns (x >>= f) O :=
  .bind (P := fun _ => True) (fun _ _ => trivial) fun a _ => second a

theorem Returns.ite {c : Prop} [Decidable c] (yes : c → Returns x P) (no : ¬ c → Returns y P) :
    Returns (if c then x else y) P := by
  split
  · exact yes (by assumption)
  · exact no (by assumption)

theorem Returns.mono (returns : Returns x P) (weaker : ∀ a, P a → Q a) : Returns x Q :=
  fun a same => weaker a (returns a same)

/-- A computation answers as another one does: with the same error, or with something that stands for its result. -/
def Refines (x : Except ε α) (y : Except ε β) (R : α → β → Prop) : Prop :=
  match y with
  | .error e => x = .error e
  | .ok b => ∃ a, x = .ok a ∧ R a b

variable {δ : Type u} {R S : α → β → Prop} {z : Except ε β}

theorem Refines.ok {a : α} {b : β} (holds : R a b) : Refines (.ok a : Except ε α) (.ok b) R := ⟨a, rfl, holds⟩

/-- What follows may be the other computation's alone. -/
theorem Refines.follow {U : α → δ → Prop} {f : β → δ} (first : Refines x z R) (later : ∀ a b, R a b → U a (f b)) :
    Refines x (z >>= fun b => .ok (f b)) U := by
  cases z with
  | error e => exact first
  | ok b =>
    obtain ⟨a, same, related⟩ := first
    exact ⟨a, same, later a b related⟩

theorem Refines.mono (refines : Refines x z R) (weaker : ∀ a b, R a b → S a b) : Refines x z S := by
  cases z with
  | error e => exact refines
  | ok b =>
    obtain ⟨a, same, related⟩ := refines
    exact ⟨a, same, weaker a b related⟩

/-- What the refined computation returns comes from what it refines. -/
theorem Refines.returned {a : α} (refines : Refines x z R) (returned : x = .ok a) : ∃ b, z = .ok b ∧ R a b := by
  cases z with
  | error e => cases returned.symm.trans refines
  | ok b =>
    obtain ⟨c, same, related⟩ := refines
    obtain rfl := Except.ok.inj (returned.symm.trans same)
    exact ⟨b, rfl, related⟩

theorem Refines.failed {e : ε} (refines : Refines (.error e) z R) : z = .error e := by
  cases z with
  | error other => exact congrArg Except.error (Except.error.inj refines).symm
  | ok b =>
    obtain ⟨_, failed, _⟩ := refines
    cases failed

end Library
