import Mathlib.Logic.Basic

namespace Library

variable {σ ε : Type*}

/-- A finite run of labelled steps, oldest label first. -/
inductive Run (step : σ → ε → σ → Prop) : σ → List ε → σ → Prop
  | nil (s : σ) : Run step s [] s
  | snoc {s t u : σ} {history : List ε} {e : ε} :
      Run step s history t → step t e u → Run step s (history ++ [e]) u

variable {step stronger : σ → ε → σ → Prop} {s t : σ} {history : List ε}

/-- An invariant may speak of the labels of the steps taken so far. -/
theorem Run.invariant {I : List ε → σ → Prop} (run : Run step s history t) (initial : I [] s)
    (preserved : ∀ history t e u, I history t → step t e u → I (history ++ [e]) u) :
    I history t := by
  induction run with
  | nil => exact initial
  | snoc _ taken ih => exact preserved _ _ _ _ ih taken

theorem Run.mono (run : Run stronger s history t)
    (weaker : ∀ s e t, stronger s e t → step s e t) : Run step s history t := by
  induction run with
  | nil => exact .nil _
  | snoc _ taken ih => exact .snoc ih (weaker _ _ _ taken)

theorem Run.append {u : σ} {later : List ε} (run : Run step s history t) (next : Run step t later u) :
    Run step s (history ++ later) u := by
  induction next with
  | nil =>
    rw [List.append_nil]
    exact run
  | snoc _ taken ih =>
    rw [← List.append_assoc]
    exact .snoc ih taken

/-- Where each step is matched by steps of another system, a run is matched by a run. -/
theorem Run.simulates {τ δ : Type*} {other : τ → δ → τ → Prop} {R : σ → τ → Prop} {a : τ} (run : Run step s history t)
    (related : R s a)
    (matched : ∀ s e t a, R s a → step s e t → ∃ later b, Run other a later b ∧ R t b) :
    ∃ later b, Run other a later b ∧ R t b := by
  induction run with
  | nil => exact ⟨[], a, .nil a, related⟩
  | snoc _ taken ih =>
    obtain ⟨earlier, b, first, now⟩ := ih
    obtain ⟨later, c, second, last⟩ := matched _ _ _ _ now taken
    exact ⟨earlier ++ later, c, first.append second, last⟩

theorem Run.single {e : ε} (taken : step s e t) : Run step s [e] t :=
  .snoc (.nil s) taken

/-- Where a label leads to one state only, so do the labels of a run. -/
theorem Run.unique {u : σ} (run : Run step s history t) (other : Run step s history u)
    (functional : ∀ s e t u, step s e t → step s e u → t = u) : t = u := by
  induction run generalizing u with
  | nil =>
    generalize whole : [] = labels at other
    cases other with
    | nil => rfl
    | snoc _ _ => simp at whole
  | @snoc t v history e _ taken ih =>
    generalize whole : history ++ [e] = labels at other
    cases other with
    | nil => simp at whole
    | snoc earlier last =>
      obtain ⟨rfl, same⟩ := List.append_inj' whole rfl
      obtain rfl := List.head_eq_of_cons_eq same
      obtain rfl := ih earlier
      exact functional _ _ _ _ taken last

end Library
