import Mathlib.Logic.Basic

namespace Library

variable {σ α β : Type*}

def outputs (step : σ → α → σ) (out : σ → α → Option β) : σ → List α → List β
  | _, [] => []
  | s, a :: actions => (out s a).toList ++ outputs step out (step s a) actions

/-- A relation between a run and the one in which only some of its actions are kept. It may speak
    of what the whole run has done so far. -/
structure Unwinding (step : σ → α → σ) (kept : α → Bool) (R : List α → σ → σ → Prop) : Prop where
  keep : ∀ {history s t a}, R history s t → kept a = true → R (history ++ [a]) (step s a) (step t a)
  drop : ∀ {history s t a}, R history s t → kept a = false → R (history ++ [a]) (step s a) t

variable {step : σ → α → σ} {kept : α → Bool} {R : List α → σ → σ → Prop} {s t : σ} {history : List α}

theorem Unwinding.continue (unwinding : Unwinding step kept R) (related : R history s t) (actions : List α) :
    R (history ++ actions) (actions.foldl step s) ((actions.filter kept).foldl step t) := by
  induction actions generalizing history s t with
  | nil =>
    rw [List.append_nil]
    exact related
  | cons a actions ih =>
    rw [← List.singleton_append, ← List.append_assoc]
    cases mine : kept a with
    | true =>
      simp only [List.singleton_append, List.filter_cons, mine, if_true, List.foldl_cons]
      exact ih (unwinding.keep related mine)
    | false =>
      simp only [List.singleton_append, List.filter_cons, mine, Bool.false_eq_true, if_false, List.foldl_cons]
      exact ih (unwinding.drop related mine)

theorem Unwinding.purge (unwinding : Unwinding step kept R) (related : R [] s t) (actions : List α) :
    R actions (actions.foldl step s) ((actions.filter kept).foldl step t) := by
  have later := unwinding.continue related actions
  rwa [List.nil_append] at later

/-- Where the actions left out have no output and the others have the same one in related states,
    leaving them out is not seen. -/
theorem Unwinding.outputs_eq (unwinding : Unwinding step kept R) {out : σ → α → Option β}
    (silent : ∀ s a, kept a = false → out s a = none)
    (agree : ∀ history s t a, R history s t → kept a = true → out s a = out t a)
    (related : R history s t) (actions : List α) :
    outputs step out s actions = outputs step out t (actions.filter kept) := by
  induction actions generalizing history s t with
  | nil => rfl
  | cons a actions ih =>
    cases mine : kept a with
    | true =>
      simp only [List.filter_cons, mine, if_true, outputs]
      rw [agree _ _ _ _ related mine, ih (unwinding.keep related mine)]
    | false =>
      simp only [List.filter_cons, mine, Bool.false_eq_true, if_false, outputs]
      rw [silent s a mine]
      exact ih (unwinding.drop related mine)

end Library
