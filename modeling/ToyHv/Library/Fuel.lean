import Mathlib.Data.Nat.Notation
import ToyHv.Library.Outcomes

namespace Library

universe u

variable {ε : Type*} {stop : ε} {α β : Type u} {x y z : Except ε α} {f g : α → Except ε β}

/-- The second computation is the first one, unless this had to stop for want of turns. -/
def Approximates (stop : ε) (x y : Except ε α) : Prop := x = .error stop ∨ x = y

theorem Approximates.refl (x : Except ε α) : Approximates stop x x := .inr rfl

theorem Approximates.bind (first : Approximates stop x y) (second : ∀ a, Approximates stop (f a) (g a)) :
    Approximates stop (x >>= f) (y >>= g) := by
  rcases first with rfl | rfl
  · exact .inl rfl
  · cases x with
    | error e => exact .refl _
    | ok a => exact second a

theorem Approximates.ite {c : Prop} [Decidable c] {x' y' : Except ε α} (yes : Approximates stop x y)
    (no : Approximates stop x' y') : Approximates stop (if c then x else x') (if c then y else y') := by
  split
  · exact yes
  · exact no

/-- What a computation answers however many turns it is given, from some number on. -/
def Settles (x : ℕ → Except ε α) (answer : Except ε α) : Prop := ∃ enough, ∀ turns, enough ≤ turns → x turns = answer

theorem Settles.unique {x : ℕ → Except ε α} (first : Settles x y) (second : Settles x z) : y = z := by
  obtain ⟨m, first⟩ := first
  obtain ⟨n, second⟩ := second
  exact (first (max m n) (Nat.le_max_left m n)).symm.trans (second (max m n) (Nat.le_max_right m n))

theorem settles {x : ℕ → Except ε α} {enough : ℕ} (grows : ∀ m n, m ≤ n → Approximates stop (x m) (x n))
    (ended : x enough ≠ .error stop) : Settles x (x enough) := by
  refine ⟨enough, fun turns more => ?_⟩
  rcases grows enough turns more with stopped | same
  · exact absurd stopped ended
  · exact same.symm

/-- A computation answers as another one does that is told whether it is served, and may be refused where the other
    one is. -/
def RefinesServed (refusal : ε) (x : Except ε α) (z : Bool → Except ε β) (R : α → β → Prop) : Prop :=
  Approximates refusal (z false) (z true) ∧ (Refines x (z true) R ∨ x = .error refusal ∧ z false = .error refusal)

variable {γ δ : Type u} {refusal : ε} {R S : α → β → Prop} {T : γ → δ → Prop} {w : Except ε β}
  {g' : α → Except ε γ} {k : Bool → β → Except ε δ} {v : Bool → Except ε β}

theorem Refines.served (refines : Refines x w R) : RefinesServed refusal x (fun _ => w) R := ⟨.refl w, .inl refines⟩

theorem RefinesServed.ok {a : α} {b : β} (holds : R a b) :
    RefinesServed refusal (.ok a : Except ε α) (fun _ => .ok b) R := (Refines.ok holds).served

theorem RefinesServed.refused (same : v false = .error refusal) :
    RefinesServed refusal (.error refusal : Except ε α) v R :=
  ⟨.inl same, .inr ⟨rfl, same⟩⟩

theorem RefinesServed.bind (first : RefinesServed refusal x v R)
    (second : ∀ a b, R a b → RefinesServed refusal (g' a) (fun mem => k mem b) T) :
    RefinesServed refusal (x >>= g') (fun mem => v mem >>= k mem) T := by
  change Approximates refusal (v false >>= k false) (v true >>= k true) ∧ (Refines (x >>= g') (v true >>= k true) T ∨
    (x >>= g') = .error refusal ∧ (v false >>= k false) = .error refusal)
  obtain ⟨approximates, refines | ⟨rfl, same⟩⟩ := first
  · cases served : v true with
    | error e =>
      rw [served] at approximates refines
      obtain rfl : x = .error e := refines
      refine ⟨?_, .inl rfl⟩
      rcases approximates with same | same
      · rw [same]
        exact .inl rfl
      · rw [same]
        exact .inr rfl
    | ok b =>
      rw [served] at approximates refines
      obtain ⟨a, rfl, related⟩ := refines
      have later := second a b related
      rcases approximates with same | same
      · rw [same]
        exact ⟨.inl rfl, later.2.imp id fun refused => ⟨refused.1, rfl⟩⟩
      · rw [same]
        exact later
  · rw [same]
    exact ⟨.inl rfl, .inr ⟨rfl, rfl⟩⟩

theorem RefinesServed.mono (refines : RefinesServed refusal x v R) (weaker : ∀ a b, R a b → S a b) :
    RefinesServed refusal x v S :=
  ⟨refines.1, refines.2.imp_left fun refines => refines.mono weaker⟩

/-- What follows may be the other computation's alone. -/
theorem RefinesServed.follow {U : α → δ → Prop} {f : β → δ} (first : RefinesServed refusal x v R)
    (later : ∀ a b, R a b → U a (f b)) : RefinesServed refusal x (fun mem => v mem >>= fun b => .ok (f b)) U := by
  refine ⟨first.1.bind fun b => .refl _, first.2.imp (fun refines => refines.follow later) fun refused => ?_⟩
  refine ⟨refused.1, ?_⟩
  change (v false >>= fun b => .ok (f b)) = .error refusal
  rw [refused.2]
  rfl

theorem RefinesServed.ite {c d : Prop} [Decidable c] [Decidable d] {x' : Except ε α} {v' : Bool → Except ε β}
    (same : c ↔ d) (yes : d → RefinesServed refusal x v R) (no : ¬ d → RefinesServed refusal x' v' R) :
    RefinesServed refusal (if c then x else x') (fun mem => if d then v mem else v' mem) R := by
  by_cases holds : d
  · simp only [if_pos (same.mpr holds), if_pos holds]
    exact yes holds
  · simp only [if_neg fun other => holds (same.mp other), if_neg holds]
    exact no holds

theorem RefinesServed.dite {c d : Prop} [Decidable c] [Decidable d] {x' : Except ε α} {u : d → Bool → Except ε β}
    {u' : ¬ d → Bool → Except ε β} (same : c ↔ d) (yes : ∀ holds, RefinesServed refusal x (u holds) R)
    (no : ∀ fails, RefinesServed refusal x' (u' fails) R) :
    RefinesServed refusal (if c then x else x') (fun mem => if holds : d then u holds mem else u' holds mem) R := by
  by_cases holds : d
  · simp only [if_pos (same.mpr holds), dif_pos holds]
    exact yes holds
  · simp only [if_neg fun other => holds (same.mp other), dif_neg holds]
    exact no holds

/-- Whether it was served, then, is the whole difference. -/
theorem RefinesServed.some (refines : RefinesServed refusal x v R) : ∃ mem, Refines x (v mem) R := by
  rcases refines.2 with refines | ⟨rfl, same⟩
  · exact ⟨true, refines⟩
  · refine ⟨false, ?_⟩
    rw [same]
    exact rfl

end Library
