import ToyHv.Ranges.Remove

namespace ToyHv
open Library

/-- What the lists of ranges.c are meant to be: strictly sorted by base, and pairwise disjoint. -/
structure RangePartition (l : List Range) : Prop where
  sorted : l.Pairwise fun r s => r.base < s.base
  disjoint : l.Pairwise fun r s => ∀ a ∈ r.span, a ∉ s.span

variable {mem : Bool} {base limit : W32} {l l' : List Range}

theorem rangePartition_iff : RangePartition l ↔ Separated (l.map Range.span) := by
  have bases : l.Pairwise (fun r s => r.base < s.base) ↔ (l.map Range.span).Pairwise fun r s => r.fst < s.fst := by
    rw [List.pairwise_map]
    exact List.Pairwise.iff fun _ _ => BitVec.lt_def
  have apart : l.Pairwise (fun r s => ∀ a ∈ r.span, a ∉ s.span) ↔
      (l.map Range.span).Pairwise fun r s => ∀ a ∈ r, a ∉ s := by
    rw [List.pairwise_map]
  rw [separated_iff, ← bases, ← apart]
  exact ⟨fun partition => ⟨partition.sorted, partition.disjoint⟩, fun both => ⟨both.1, both.2⟩⟩

/-- Every entry that the cut splits has two addresses at least below it, and malloc has memory for one more entry. -/
def CutServed (mem : Bool) (base limit : W32) (l : List Range) : Prop :=
  ∀ r ∈ l, r.Split base limit → mem = true ∧ r.base ≠ base - 1

theorem rangeRemove_served (ordered : base < limit) (removed : rangeRemove mem l base limit = .ok l') :
    CutServed mem base limit l := by
  simp only [rangeRemove, bind_ok] at removed
  obtain ⟨_, _, removed⟩ := removed
  intro r member split
  obtain ⟨served, room⟩ := rangeRemoveLoop_served ordered removed r member split
  exact ⟨served, BitVec.ne_of_lt room⟩

theorem CutServed.roomy (served : CutServed mem base limit l) : ∀ r ∈ l, ¬ r.Sliver base limit := by
  rintro r member ⟨below, above, sliver⟩
  have apart := (served r member ⟨below, above⟩).2
  bv_omega

theorem CutServed.of_roomy (roomy : ∀ r ∈ l, ¬ r.Sliver base limit)
    (serves : mem = true ∨ ∀ r ∈ l, ¬ r.Split base limit) : CutServed mem base limit l := by
  intro r member split
  rcases serves with served | whole
  · refine ⟨served, fun sliver => roomy r member ⟨split.1, split.2, ?_⟩⟩
    rw [sliver]
    exact BitVec.lt_irrefl _
  · exact absurd split (whole r member)

theorem CutServed.same (served : CutServed mem base limit l) :
    rangeRemove mem l base limit = rangeRemove true l base limit := by
  cases mem with
  | true => rfl
  | false =>
    have whole : ∀ r ∈ l, ¬ r.Split base limit := by
      intro r member split
      cases (served r member split).1
    rw [rangeRemove, rangeRemoveLoop_noSplit whole]
    rfl

theorem rangeRemove_carved (ordered : base < limit) (sep : Separated (l.map Range.span))
    (served : CutServed mem base limit l) :
    ∃ l', rangeRemove mem l base limit = .ok l' ∧
      l'.map Range.span = (l.map Range.span).flatMap (carve (cutOf base limit ordered)) := by
  rw [served.same]
  exact rangeRemove_carves ordered sep served.roomy

theorem rangeRemove_spans (sep : Separated (l.map Range.span)) (removed : rangeRemove mem l base limit = .ok l') :
    ∃ ordered, l'.map Range.span = (l.map Range.span).flatMap (carve (cutOf base limit ordered)) := by
  have ordered : base < limit := by
    simp only [rangeRemove, bind_ok, bugOn_ok] at removed
    obtain ⟨_, unequal, _⟩ := removed
    exact BitVec.not_le.mp unequal
  obtain ⟨rest, done, spans⟩ := rangeRemove_carved ordered sep (rangeRemove_served ordered removed)
  obtain rfl := Except.ok.inj (done.symm.trans removed)
  exact ⟨ordered, spans⟩

theorem RangePartition.remove (partition : RangePartition l) (removed : rangeRemove mem l base limit = .ok l') :
    RangePartition l' := by
  have sep := rangePartition_iff.mp partition
  obtain ⟨ordered, spans⟩ := rangeRemove_spans sep removed
  rw [rangePartition_iff, spans]
  exact sep.carve _

/-- `range_remove` comes to its end and leaves such a list of the addresses outside the cut. -/
def RemovesExactly (mem : Bool) (l : List Range) (base limit : W32) : Prop :=
  ∃ l', rangeRemove mem l base limit = .ok l' ∧ RangePartition l' ∧
    covered (l'.map Range.span) = covered (l.map Range.span) \ {a | base.toNat ≤ a ∧ a ≤ limit.toNat}

/-- `range_remove` is set difference just when no piece it would leave below the cut of a split entry
    is a single address. -/
theorem remove_exact_iff (mem : Bool) (partition : RangePartition l) (ordered : base < limit) :
    RemovesExactly mem l base limit ↔ CutServed mem base limit l := by
  constructor
  · rintro ⟨_, removed, _⟩
    exact rangeRemove_served ordered removed
  · intro served
    obtain ⟨rest, removed, spans⟩ := rangeRemove_carved ordered (rangePartition_iff.mp partition) served
    refine ⟨rest, removed, partition.remove removed, ?_⟩
    rw [spans, covered_carve]
    rfl

def lowRange : Range := ⟨0x1000, 0x3fff, by decide⟩

theorem low_partition : RangePartition [lowRange] := ⟨List.pairwise_singleton _ _, List.pairwise_singleton _ _⟩

theorem middle_removed : RemovesExactly true [lowRange] 0x2000 0x2fff := by
  apply (remove_exact_iff true low_partition (by decide)).mpr
  intro r member _
  obtain rfl := List.mem_singleton.mp member
  exact ⟨rfl, by decide⟩

/-- The first address alone would be left below the cut, and `range_add` takes no range of one address. -/
theorem single_address_aborts : ¬ ∀ (l : List Range) (base limit : W32), RangePartition l → base < limit →
    RemovesExactly true l base limit := by
  intro always
  obtain ⟨_, removed, _⟩ := always [lowRange] 0x1001 0x1fff low_partition (by decide)
  have aborted : rangeRemove true [lowRange] 0x1001 0x1fff = .error .rangeBaseLimit := rfl
  cases aborted.symm.trans removed

end ToyHv
