import Mathlib.Order.Interval.Basic
import Mathlib.Order.SuccPred.Basic
import Mathlib.Data.List.Pairwise
import Mathlib.Data.List.Flatten

namespace Library

variable {α : Type*} [LinearOrder α]

def covered (l : List (NonemptyInterval α)) : Set α := {a | ∃ r ∈ l, a ∈ r}

/-- Every interval ends before each later one starts: sorted, and pairwise disjoint. -/
def Separated (l : List (NonemptyInterval α)) : Prop := l.Pairwise fun r s => r.snd < s.fst

theorem mem_covered {l : List (NonemptyInterval α)} {a : α} : a ∈ covered l ↔ ∃ r ∈ l, a ∈ r := Iff.rfl

@[simp] theorem covered_nil : covered ([] : List (NonemptyInterval α)) = ∅ := by
  simp [covered]

@[simp] theorem mem_covered_cons {r : NonemptyInterval α} {l : List (NonemptyInterval α)} {a : α} :
    a ∈ covered (r :: l) ↔ a ∈ r ∨ a ∈ covered l := by
  simp [covered]

@[simp] theorem mem_covered_append {l k : List (NonemptyInterval α)} {a : α} :
    a ∈ covered (l ++ k) ↔ a ∈ covered l ∨ a ∈ covered k := by
  simp only [mem_covered, List.mem_append, or_and_right, exists_or]

theorem mem_covered_flatMap {l : List (NonemptyInterval α)}
    {f : NonemptyInterval α → List (NonemptyInterval α)} {a : α} :
    a ∈ covered (l.flatMap f) ↔ ∃ r ∈ l, a ∈ covered (f r) := by
  induction l with
  | nil => simp
  | cons r l ih => simp [List.flatMap_cons, ih]

theorem Separated.append {l k : List (NonemptyInterval α)} (hl : Separated l) (hk : Separated k)
    (across : ∀ r ∈ l, ∀ s ∈ k, r.snd < s.fst) : Separated (l ++ k) :=
  List.pairwise_append.mpr ⟨hl, hk, across⟩

/-- Replacing each interval by separated parts of itself keeps the list separated. -/
theorem Separated.flatMap {l : List (NonemptyInterval α)} (h : Separated l)
    {f : NonemptyInterval α → List (NonemptyInterval α)} (parts : ∀ r ∈ l, Separated (f r))
    (within : ∀ r, ∀ p ∈ f r, p ≤ r) : Separated (l.flatMap f) := by
  induction h with
  | nil => exact .nil
  | @cons r l first _ ih =>
    rw [List.flatMap_cons]
    refine (parts r (by simp)).append (ih fun s member => parts s (List.mem_cons_of_mem _ member)) ?_
    intro p hp q hq
    obtain ⟨s, member, hq⟩ := List.mem_flatMap.mp hq
    exact ((within r p hp).2.trans_lt (first s member)).trans_le (within s q hq).1

theorem before_or_after {r s : NonemptyInterval α} (apart : ∀ a ∈ r, a ∉ s) : r.snd < s.fst ∨ s.snd < r.fst := by
  simp only [NonemptyInterval.mem_def] at apart
  by_contra meets
  rw [not_or, not_lt, not_lt] at meets
  have first := apart s.fst
  have other := apart r.fst
  grind [r.fst_le_snd, s.fst_le_snd]

theorem snd_lt_fst_iff {r s : NonemptyInterval α} : r.snd < s.fst ↔ r.fst < s.fst ∧ ∀ a ∈ r, a ∉ s := by
  constructor
  · intro before
    refine ⟨r.fst_le_snd.trans_lt before, fun a inside within => ?_⟩
    exact (inside.2.trans_lt before).not_ge within.1
  · rintro ⟨sorted, apart⟩
    rcases before_or_after apart with before | after
    · exact before
    · exact absurd (sorted.trans_le s.fst_le_snd) after.not_gt

theorem separated_iff {l : List (NonemptyInterval α)} :
    Separated l ↔ l.Pairwise (fun r s => r.fst < s.fst) ∧ l.Pairwise fun r s => ∀ a ∈ r, a ∉ s := by
  rw [← List.pairwise_and_iff]
  apply List.Pairwise.iff
  intro r s
  exact snd_lt_fst_iff

theorem Separated.countP_le_one {l : List (NonemptyInterval α)} (h : Separated l) (a : α) :
    l.countP (fun r => decide (r.fst ≤ a ∧ a ≤ r.snd)) ≤ 1 := by
  induction h with
  | nil => exact Nat.zero_le 1
  | @cons r l first _ ih =>
    rw [List.countP_cons]
    split
    · rename_i inside
      have none : l.countP (fun s => decide (s.fst ≤ a ∧ a ≤ s.snd)) = 0 := by
        rw [List.countP_eq_zero]
        intro s member within
        exact ((of_decide_eq_true inside).2.trans_lt (first s member)).not_ge (of_decide_eq_true within).1
      rw [none]
    · exact ih

theorem Separated.insert {front back : List (NonemptyInterval α)} {r : NonemptyInterval α}
    (h : Separated (front ++ back)) (below : ∀ v ∈ front, v.snd < r.fst) (above : ∀ v ∈ back, r.snd < v.fst) :
    Separated (front ++ r :: back) := by
  obtain ⟨first, second, across⟩ := List.pairwise_append.mp h
  apply Separated.append first (second.cons above)
  intro v earlier s later
  rcases List.mem_cons.mp later with rfl | later
  · exact below v earlier
  · exact across v earlier s later

section Carve

variable [SuccOrder α] [PredOrder α]

/-- What is left of an interval once the points of `cut` are taken out, lowest part first. -/
def carve (cut r : NonemptyInterval α) : List (NonemptyInterval α) :=
  (if h : r.fst < cut.fst then
    [⟨(r.fst, min r.snd (Order.pred cut.fst)), le_min r.fst_le_snd (Order.le_pred_of_lt h)⟩] else []) ++
  if h : cut.snd < r.snd then
    [⟨(max r.fst (Order.succ cut.snd), r.snd), max_le r.fst_le_snd (Order.succ_le_of_lt h)⟩] else []

theorem mem_carve {cut r : NonemptyInterval α} {a : α} :
    a ∈ covered (carve cut r) ↔ a ∈ r ∧ a ∉ cut := by
  have low (h : r.fst < cut.fst) : a ≤ Order.pred cut.fst ↔ a < cut.fst :=
    Order.le_pred_iff_of_not_isMin fun least => (least h.le).not_gt h
  have high (h : cut.snd < r.snd) : Order.succ cut.snd ≤ a ↔ cut.snd < a :=
    Order.succ_le_iff_of_not_isMax fun greatest => (greatest h.le).not_gt h
  have ordered := cut.fst_le_snd
  simp only [carve, mem_covered_append, NonemptyInterval.mem_def]
  split <;> split <;> rename_i hl hh <;>
    simp only [mem_covered_cons, covered_nil, NonemptyInterval.mem_def, le_min_iff, max_le_iff,
      Set.mem_empty_iff_false, or_false, false_or]
  · rw [low hl, high hh]
    grind
  · rw [low hl]
    grind
  · rw [high hh]
    grind
  · grind

theorem carve_separated (cut r : NonemptyInterval α) : Separated (carve cut r) := by
  unfold carve Separated
  split <;> split <;> simp
  rename_i hl hh
  have below : Order.pred cut.fst < cut.fst :=
    Order.pred_lt_of_not_isMin fun least => (least hl.le).not_gt hl
  have above : cut.snd < Order.succ cut.snd :=
    Order.lt_succ_of_not_isMax fun greatest => (greatest hh.le).not_gt hh
  exact .inr (.inr (below.trans_le (cut.fst_le_snd.trans above.le)))

theorem carve_of_after {cut r : NonemptyInterval α} (h : cut.snd < r.fst) : carve cut r = [r] := by
  have above : Order.succ cut.snd ≤ r.fst := Order.succ_le_of_lt h
  simp [carve, h.trans_le r.fst_le_snd, (cut.fst_le_snd.trans h.le).not_gt, max_eq_left above]

theorem carve_of_before {cut r : NonemptyInterval α} (h : r.snd < cut.fst) : carve cut r = [r] := by
  have below : r.snd ≤ Order.pred cut.fst := Order.le_pred_of_lt h
  simp [carve, r.fst_le_snd.trans_lt h, (h.le.trans cut.fst_le_snd).not_gt, min_eq_left below]

theorem carve_of_le {cut r : NonemptyInterval α} (h : r ≤ cut) : carve cut r = [] := by
  simp [carve, h.1.not_gt, h.2.not_gt]

theorem carve_eq_above {cut r p : NonemptyInterval α} (h : cut.fst ≤ r.fst) (above : cut.snd < r.snd)
    (fst : p.fst = max r.fst (Order.succ cut.snd)) (snd : p.snd = r.snd) : carve cut r = [p] := by
  rw [carve, dif_neg h.not_gt, dif_pos above, List.nil_append, List.singleton_inj]
  exact NonemptyInterval.ext (Prod.ext fst.symm snd.symm)

theorem carve_eq_below {cut r p : NonemptyInterval α} (h : r.snd ≤ cut.snd) (below : r.fst < cut.fst)
    (fst : p.fst = r.fst) (snd : p.snd = min r.snd (Order.pred cut.fst)) : carve cut r = [p] := by
  rw [carve, dif_pos below, dif_neg h.not_gt, List.append_nil, List.singleton_inj]
  exact NonemptyInterval.ext (Prod.ext fst.symm snd.symm)

theorem carve_eq_split {cut r p q : NonemptyInterval α} (below : r.fst < cut.fst) (above : cut.snd < r.snd)
    (pfst : p.fst = r.fst) (psnd : p.snd = min r.snd (Order.pred cut.fst))
    (qfst : q.fst = max r.fst (Order.succ cut.snd)) (qsnd : q.snd = r.snd) : carve cut r = [p, q] := by
  rw [carve, dif_pos below, dif_pos above, List.singleton_append]
  exact congrArg₂ (fun x y => [x, y]) (NonemptyInterval.ext (Prod.ext pfst.symm psnd.symm))
    (NonemptyInterval.ext (Prod.ext qfst.symm qsnd.symm))

theorem carve_le {cut r p : NonemptyInterval α} (h : p ∈ carve cut r) : p ≤ r := by
  unfold carve at h
  rw [NonemptyInterval.le_def]
  rcases List.mem_append.mp h with h | h
  · split at h
    · obtain rfl := List.mem_singleton.mp h
      exact ⟨le_rfl, min_le_left _ _⟩
    · cases h
  · split at h
    · obtain rfl := List.mem_singleton.mp h
      exact ⟨le_max_left _ _, le_rfl⟩
    · cases h

theorem carve_ends {cut r p : NonemptyInterval α} (h : p ∈ carve cut r) :
    (p.fst = r.fst ∨ p.fst = Order.succ cut.snd) ∧ (p.snd = r.snd ∨ r.fst < cut.fst ∧ p.snd = Order.pred cut.fst) := by
  unfold carve at h
  rcases List.mem_append.mp h with h | h
  · split at h
    · rename_i below
      obtain rfl := List.mem_singleton.mp h
      exact ⟨.inl rfl, (min_choice _ _).imp_right fun same => ⟨below, same⟩⟩
    · cases h
  · split at h
    · obtain rfl := List.mem_singleton.mp h
      exact ⟨max_choice _ _, .inl rfl⟩
    · cases h

/-- Carving every interval of a list is set difference. -/
theorem covered_carve (cut : NonemptyInterval α) (l : List (NonemptyInterval α)) :
    covered (l.flatMap (carve cut)) = covered l \ {a | a ∈ cut} := by
  ext a
  rw [mem_covered_flatMap]
  constructor
  · rintro ⟨r, member, carved⟩
    obtain ⟨inside, outside⟩ := mem_carve.mp carved
    exact ⟨⟨r, member, inside⟩, outside⟩
  · rintro ⟨⟨r, member, inside⟩, outside⟩
    exact ⟨r, member, mem_carve.mpr ⟨inside, outside⟩⟩

theorem Separated.carve {l : List (NonemptyInterval α)} (h : Separated l) (cut : NonemptyInterval α) :
    Separated (l.flatMap (carve cut)) :=
  h.flatMap (fun r _ => carve_separated cut r) fun _ _ => carve_le

end Carve

end Library
