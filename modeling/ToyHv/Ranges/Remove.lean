import ToyHv.Library.Intervals
import ToyHv.Model.Ranges
import Mathlib.Data.Nat.SuccPred

namespace ToyHv

open Library

def Range.span (r : Range) : NonemptyInterval ℕ :=
  ⟨(r.base.toNat, r.limit.toNat), BitVec.le_def.mp r.ordered⟩

@[simp] theorem Range.span_fst (r : Range) : r.span.fst = r.base.toNat := rfl
@[simp] theorem Range.span_snd (r : Range) : r.span.snd = r.limit.toNat := rfl

def cutOf (base limit : W32) (ordered : base < limit) : NonemptyInterval ℕ :=
  ⟨(base.toNat, limit.toNat), (BitVec.lt_def.mp ordered).le⟩

/-- Entries wholly below the new range, then one that starts above it: no check fires. -/
theorem rangeScan_between {r next : Range} {front back : List Range}
    (below : ∀ v ∈ front, v.limit < r.base) (above : r.limit < next.base) :
    rangeScan r (front ++ next :: back) = .ok (front ++ r :: next :: back) := by
  induction front with
  | nil =>
    have ordered := BitVec.le_def.mp r.ordered
    have miss : ¬ (r.base ≥ next.base ∧ r.limit ≤ next.limit) := by
      simp only [ge_iff_le, BitVec.le_def, BitVec.lt_def] at above ⊢
      omega
    simp [rangeScan, miss, above]
  | cons v front ih =>
    have first := below v (by simp)
    have ordered := BitVec.le_def.mp r.ordered
    have vordered := BitVec.le_def.mp v.ordered
    have miss : ¬ (r.base ≥ v.base ∧ r.limit ≤ v.limit) := by
      simp only [ge_iff_le, BitVec.le_def, BitVec.lt_def] at first ⊢
      omega
    have visited : ¬ v.base > r.limit := by
      simp only [gt_iff_lt, BitVec.lt_def] at first ⊢
      omega
    simp only [List.cons_append, rangeScan, bugOn_false miss, ok_bind, if_neg visited,
      ih fun w member => below w (List.mem_cons_of_mem _ member), pure_ok]

/-- A scan that comes to its end has put the new range somewhere in the list. -/
theorem rangeScan_perm {r : Range} {l l' : List Range} (scanned : rangeScan r l = .ok l') : l'.Perm (r :: l) := by
  induction l generalizing l' with
  | nil =>
    obtain rfl := Except.ok.inj scanned
    exact List.Perm.refl _
  | cons range rest ih =>
    simp only [rangeScan, bind_ok] at scanned
    obtain ⟨_, _, scanned⟩ := scanned
    split at scanned
    · obtain rfl := Except.ok.inj scanned
      exact List.Perm.refl _
    · simp only [bind_ok, pure_ok, Except.ok.injEq] at scanned
      obtain ⟨tail, inner, rfl⟩ := scanned
      exact ((ih inner).cons range).trans (List.Perm.swap r range rest)

/-- The split leaves a low half of one address, which `range_add` refuses. -/
def Range.Sliver (base limit : W32) (r : Range) : Prop :=
  r.base < base ∧ limit < r.limit ∧ ¬ r.base < base - 1

theorem Range.setBase_fst (r : Range) {limit : W32} (above : limit < r.limit) :
    (r.setBase limit above).span.fst = limit.toNat + 1 := by
  change (limit + 1).toNat = _
  bv_omega

theorem Range.setLimit_snd (r : Range) {base : W32} (below : r.base < base) :
    (r.setLimit base below).span.snd = base.toNat - 1 := by
  change (base - 1).toNat = _
  bv_omega

section Loop

variable {base limit : W32} (ordered : base < limit)
include ordered

theorem carve_span_setBase {r : Range} (starts : r.base ≥ base) (overlaps : ¬ r.base > limit)
    (above : limit < r.limit) : carve (cutOf base limit ordered) r.span = [(r.setBase limit above).span] := by
  refine carve_eq_above (BitVec.le_def.mp starts) (BitVec.lt_def.mp above) ?_ rfl
  rw [Range.setBase_fst]
  have le : r.base.toNat ≤ limit.toNat := not_lt.mp fun lt => overlaps (BitVec.lt_def.mpr lt)
  simp only [cutOf, Range.span, Order.succ_eq_add_one]
  omega

theorem carve_span_setLimit {r : Range} (below : r.base < base) (overlaps : ¬ r.limit < base)
    (ends : r.limit ≤ limit) : carve (cutOf base limit ordered) r.span = [(r.setLimit base below).span] := by
  refine carve_eq_below (BitVec.le_def.mp ends) (BitVec.lt_def.mp below) rfl ?_
  rw [Range.setLimit_snd]
  have le : base.toNat ≤ r.limit.toNat := not_lt.mp fun lt => overlaps (BitVec.lt_def.mpr lt)
  simp only [cutOf, Range.span, Order.pred_eq_sub_one]
  omega

theorem carve_span_split {r : Range} (below : r.base < base) (above : limit < r.limit) :
    carve (cutOf base limit ordered) r.span = [(r.setLimit base below).span, (r.setBase limit above).span] := by
  have blt := BitVec.lt_def.mp below
  have alt := BitVec.lt_def.mp above
  have olt := BitVec.lt_def.mp ordered
  refine carve_eq_split blt alt rfl ?_ ?_ rfl
  · rw [Range.setLimit_snd]
    simp only [cutOf, Range.span, Order.pred_eq_sub_one]
    omega
  · rw [Range.setBase_fst]
    simp only [cutOf, Range.span, Order.succ_eq_add_one]
    omega

theorem rangeRemoveLoop_turn {front n : List Range} {range : Range}
    (before : ∀ v ∈ front, v.limit < range.base) (roomy : ¬ range.Sliver base limit) :
    ∃ pieces, rangeRemoveLoop true base limit front (range :: n) =
        rangeRemoveLoop true base limit (front ++ pieces) n ∧
      carve (cutOf base limit ordered) range.span = pieces.map Range.span ∧
      ∀ p ∈ pieces, p.limit ≤ range.limit := by
  by_cases outside : range.base > limit ∨ range.limit < base
  · refine ⟨[range], by simp [rangeRemoveLoop, outside], ?_, by simp⟩
    rcases outside with after | before
    · exact carve_of_after (BitVec.lt_def.mp after)
    · exact carve_of_before (BitVec.lt_def.mp before)
  by_cases inside : range.base ≥ base ∧ range.limit ≤ limit
  · refine ⟨[], by simp [rangeRemoveLoop, outside, inside], ?_, by simp⟩
    exact carve_of_le (NonemptyInterval.le_def.mpr ⟨BitVec.le_def.mp inside.1, BitVec.le_def.mp inside.2⟩)
  rw [not_or] at outside
  by_cases starts : range.base ≥ base
  · have above : limit < range.limit := BitVec.not_le.mp fun le => inside ⟨starts, le⟩
    refine ⟨[range.setBase limit above], ?_, carve_span_setBase ordered starts outside.1 above,
      by simp [Range.setBase]⟩
    rw [rangeRemoveLoop, if_neg (not_or.mpr outside), dif_neg inside, dif_pos starts]
  have below : range.base < base := BitVec.not_le.mp starts
  by_cases ends : range.limit ≤ limit
  · refine ⟨[range.setLimit base below], ?_, carve_span_setLimit ordered below outside.2 ends, ?_⟩
    · rw [rangeRemoveLoop, if_neg (not_or.mpr outside), dif_neg inside, dif_neg starts, dif_pos ends]
    · have reaches := BitVec.not_lt.mp outside.2
      simp only [List.mem_singleton, forall_eq, Range.setLimit]
      bv_omega
  have above : limit < range.limit := BitVec.not_le.mp ends
  have room : range.base < base - 1 := by
    by_contra sliver
    exact roomy ⟨below, above, sliver⟩
  -- the low half goes in right before what is left of the entry
  have added : rangeAdd true (front ++ range.setBase limit above :: n) range.base (base - 1) =
      .ok (front ++ range.setLimit base below :: range.setBase limit above :: n) := by
    rw [rangeAdd, dif_pos room]
    refine rangeScan_between before ?_
    have olt := BitVec.lt_def.mp ordered
    simp only [Range.setBase]
    bv_omega
  refine ⟨[range.setLimit base below, range.setBase limit above], ?_,
    carve_span_split ordered below above, ?_⟩
  · rw [rangeRemoveLoop, if_neg (not_or.mpr outside), dif_neg inside, dif_neg starts, dif_neg ends]
    simp only [added, ok_bind]
    congr 1
    rw [show front ++ range.setLimit base below :: range.setBase limit above :: n =
      (front ++ [range.setLimit base below, range.setBase limit above]) ++ n by simp]
    rw [List.length_append, Nat.add_sub_cancel, List.take_left']
    rfl
  · simp only [List.mem_cons, List.not_mem_nil, or_false, forall_eq_or_imp, forall_eq, Range.setLimit,
      Range.setBase]
    exact ⟨by bv_omega, BitVec.le_refl _⟩

/-- Over a separated list the loop carves the cut out of every entry it has still to
    visit, unless a split would leave a sliver. -/
theorem rangeRemoveLoop_carves (front l : List Range)
    (sep : Separated (l.map Range.span)) (before : ∀ v ∈ front, ∀ r ∈ l, v.limit < r.base)
    (roomy : ∀ r ∈ l, ¬ r.Sliver base limit) :
    ∃ rest, rangeRemoveLoop true base limit front l = .ok (front ++ rest) ∧
      rest.map Range.span = (l.map Range.span).flatMap (carve (cutOf base limit ordered)) := by
  induction l generalizing front with
  | nil => exact ⟨[], by simp [rangeRemoveLoop], rfl⟩
  | cons range n ih =>
    have later : ∀ r ∈ n, range.limit < r.base := by
      intro r member
      exact BitVec.lt_def.mpr (List.rel_of_pairwise_cons sep (List.mem_map_of_mem member))
    obtain ⟨pieces, turn, carved, within⟩ := rangeRemoveLoop_turn ordered (n := n)
      (fun v member => before v member range (by simp)) (roomy range (by simp))
    have passed : ∀ v ∈ front ++ pieces, ∀ r ∈ n, v.limit < r.base := by
      intro v member r following
      rcases List.mem_append.mp member with older | piece
      · exact before v older r (List.mem_cons_of_mem _ following)
      · have le := BitVec.le_def.mp (within v piece)
        exact BitVec.lt_def.mpr (le.trans_lt (BitVec.lt_def.mp (later r following)))
    obtain ⟨rest, done, spans⟩ := ih (front ++ pieces) sep.of_cons passed
      fun r member => roomy r (List.mem_cons_of_mem range member)
    refine ⟨pieces ++ rest, by rw [turn, done, List.append_assoc], ?_⟩
    rw [List.map_append, List.map_cons, List.flatMap_cons, carved, spans]

/-- `range_remove` refines set difference on separated lists: entry by entry it leaves
    what the cut does not cover. -/
theorem rangeRemove_carves {l : List Range} (sep : Separated (l.map Range.span))
    (roomy : ∀ r ∈ l, ¬ r.Sliver base limit) :
    ∃ l', rangeRemove true l base limit = .ok l' ∧
      l'.map Range.span = (l.map Range.span).flatMap (carve (cutOf base limit ordered)) := by
  obtain ⟨rest, done, spans⟩ := rangeRemoveLoop_carves ordered [] l sep (by simp) roomy
  refine ⟨rest, ?_, spans⟩
  have unequal : ¬ base ≥ limit := BitVec.not_le.mpr ordered
  rw [rangeRemove, bugOn_false unequal, ok_bind, done, List.nil_append]

end Loop

theorem rangeAdd_noMem (l : List Range) (base limit : W32) : rangeAdd false l base limit = .error .rangeAlloc := by
  unfold rangeAdd rangeAlloc
  split <;> rfl

theorem rangeRemoveLoop_noMem (base limit : W32) (front l : List Range) :
    rangeRemoveLoop false base limit front l = rangeRemoveLoop true base limit front l ∨
      rangeRemoveLoop false base limit front l = .error .rangeAlloc := by
  induction l generalizing front with
  | nil => exact .inl rfl
  | cons range n ih =>
    simp only [rangeRemoveLoop]
    split
    · exact ih _
    · split
      · exact ih _
      · split
        · exact ih _
        · split
          · exact ih _
          · rw [rangeAdd_noMem]
            exact .inr rfl

/-- The cut lies strictly inside the entry, so that both its ends stay. -/
def Range.Split (base limit : W32) (r : Range) : Prop := r.base < base ∧ limit < r.limit

theorem rangeRemoveLoop_noSplit {mem : Bool} {base limit : W32} {front l : List Range}
    (kept : ∀ r ∈ l, ¬ r.Split base limit) :
    rangeRemoveLoop mem base limit front l = rangeRemoveLoop true base limit front l := by
  induction l generalizing front with
  | nil => rfl
  | cons range n ih =>
    obtain ⟨here, later⟩ := List.forall_mem_cons.mp kept
    simp only [rangeRemoveLoop]
    split
    · exact ih later
    · split
      · exact ih later
      · split
        · exact ih later
        · split
          · exact ih later
          · rename_i starts ends
            exact absurd ⟨BitVec.not_le.mp starts, BitVec.not_le.mp ends⟩ here

theorem rangeRemoveLoop_behind {mem : Bool} {base limit : W32} {front l : List Range}
    (before : ∀ r ∈ l, r.limit < base) : rangeRemoveLoop mem base limit front l = .ok (front ++ l) := by
  induction l generalizing front with
  | nil => simp [rangeRemoveLoop]
  | cons range n ih =>
    obtain ⟨here, later⟩ := List.forall_mem_cons.mp before
    rw [rangeRemoveLoop, if_pos (.inr here), ih later, List.append_assoc, List.singleton_append]

theorem rangeAdd_ok {mem : Bool} {l l' : List Range} {base limit : W32} (added : rangeAdd mem l base limit = .ok l') :
    mem = true ∧ ∃ ordered : base < limit, rangeScan ⟨base, limit, BitVec.le_of_lt ordered⟩ l = .ok l' := by
  unfold rangeAdd rangeAlloc at added
  split at added
  · rename_i ordered
    cases mem with
    | false => cases added
    | true => exact ⟨rfl, ordered, added⟩
  · cases added

/-- Where the loop comes to its end, malloc had memory for every split, and `range_add` took its low half. -/
theorem rangeRemoveLoop_served {mem : Bool} {base limit : W32} {front l l' : List Range} (ordered : base < limit)
    (removed : rangeRemoveLoop mem base limit front l = .ok l') :
    ∀ r ∈ l, r.Split base limit → mem = true ∧ r.base < base - 1 := by
  induction l generalizing front with
  | nil => simp
  | cons range n ih =>
    simp only [rangeRemoveLoop] at removed
    have later : (∃ front', rangeRemoveLoop mem base limit front' n = .ok l') ∧
        (range.Split base limit → mem = true ∧ range.base < base - 1) := by
      split at removed
      · rename_i outside
        refine ⟨⟨_, removed⟩, fun split => ?_⟩
        obtain ⟨below, above⟩ := split
        rcases outside with after | before <;> bv_omega
      · split at removed
        · rename_i inside
          exact ⟨⟨_, removed⟩, fun split => absurd inside.1 (BitVec.not_le.mpr split.1)⟩
        · split at removed
          · rename_i starts
            exact ⟨⟨_, removed⟩, fun split => absurd starts (BitVec.not_le.mpr split.1)⟩
          · split at removed
            · rename_i ends
              exact ⟨⟨_, removed⟩, fun split => absurd ends (BitVec.not_le.mpr split.2)⟩
            · simp only [bind_ok] at removed
              obtain ⟨_, added, removed⟩ := removed
              obtain ⟨served, room, _⟩ := rangeAdd_ok added
              exact ⟨⟨_, removed⟩, fun _ => ⟨served, room⟩⟩
    obtain ⟨⟨_, rest⟩, here⟩ := later
    exact List.forall_mem_cons.mpr ⟨here, ih rest⟩

theorem rangeRemove_noMem (l : List Range) (base limit : W32) :
    rangeRemove false l base limit = rangeRemove true l base limit ∨
      rangeRemove false l base limit = .error .rangeAlloc := by
  unfold rangeRemove
  by_cases refused : base ≥ limit
  · exact .inl (by simp [bugOn, refused, Bind.bind, Except.bind])
  · simp only [bugOn_false refused, ok_bind]
    exact rangeRemoveLoop_noMem base limit [] l

end ToyHv
