import ToyHv.Library.Runs
import ToyHv.Ranges.Difference

namespace ToyHv
open Library

/-- A call of `range_add` or `range_remove`, with what malloc has for it. -/
inductive RangeCall
  | add (mem : Bool) (base limit : W32)
  | remove (mem : Bool) (base limit : W32)

def RangeCall.run (l : List Range) : RangeCall → Checked (List Range)
  | .add mem base limit => rangeAdd mem l base limit
  | .remove mem base limit => rangeRemove mem l base limit

def RangeStep (l : List Range) (c : RangeCall) (l' : List Range) : Prop := c.run l = .ok l'

/-- An addition of which some address is in the list. -/
def RangeCall.Overlaps (l : List Range) : RangeCall → Prop
  | .add _ base limit => ∃ r ∈ l, ∃ a ∈ r.span, base.toNat ≤ a ∧ a ≤ limit.toNat
  | .remove .. => False

/-- An addition that could come to its end is inside one of the entries, or apart from all of them. -/
def RangeCall.Fits (l : List Range) : RangeCall → Prop
  | .add mem base limit => mem = true → base < limit →
      (∃ r ∈ l, r.base ≤ base ∧ limit ≤ r.limit) ∨ ¬ (RangeCall.add mem base limit).Overlaps l
  | .remove .. => True

variable {r : Range} {l l' : List Range} {c : RangeCall}

theorem rangeScan_uncontained (free : ∀ v ∈ l, ¬ (r.base ≥ v.base ∧ r.limit ≤ v.limit)) :
    ∃ l', rangeScan r l = .ok l' := by
  induction l with
  | nil => exact ⟨[r], rfl⟩
  | cons v l ih =>
    obtain ⟨here, later⟩ := List.forall_mem_cons.mp free
    obtain ⟨rest, scanned⟩ := ih later
    rw [rangeScan, bugOn_false here, ok_bind]
    split
    · exact ⟨_, rfl⟩
    · rw [scanned]
      exact ⟨_, rfl⟩

/-- In a separated list the scan does not stop before the entry that contains the new range. -/
theorem rangeScan_contained {v : Range} (sep : Separated (l.map Range.span)) (member : v ∈ l)
    (base : v.base ≤ r.base) (limit : r.limit ≤ v.limit) : rangeScan r l = .error .rangeAlreadyPresent := by
  induction l with
  | nil => cases member
  | cons w l ih =>
    by_cases inside : r.base ≥ w.base ∧ r.limit ≤ w.limit
    · rw [rangeScan, bugOn, if_pos inside]
      rfl
    rw [rangeScan, bugOn_false inside, ok_bind]
    rcases List.mem_cons.mp member with rfl | later
    · exact absurd ⟨base, limit⟩ inside
    · have before : w.limit < v.base := BitVec.lt_def.mpr (List.rel_of_pairwise_cons sep (List.mem_map_of_mem later))
      have first := w.ordered
      have ordered := r.ordered
      have passed : ¬ w.base > r.limit := by bv_omega
      rw [if_neg passed, ih sep.of_cons later]
      rfl

/-- A range that is apart from all entries goes between those below it and those above it. -/
theorem rangeScan_apart (sep : Separated (l.map Range.span)) (apart : ∀ v ∈ l, ∀ a ∈ r.span, a ∉ v.span)
    (scanned : rangeScan r l = .ok l') :
    ∃ front back, l = front ++ back ∧ l' = front ++ r :: back ∧ (∀ v ∈ front, v.span.snd < r.span.fst) ∧
      ∀ v ∈ back, r.span.snd < v.span.fst := by
  induction l generalizing l' with
  | nil => exact ⟨[], [], rfl, (Except.ok.inj scanned).symm, by simp, by simp⟩
  | cons v l ih =>
    obtain ⟨here, later⟩ := List.forall_mem_cons.mp apart
    simp only [rangeScan, bind_ok] at scanned
    obtain ⟨_, _, scanned⟩ := scanned
    split at scanned
    · rename_i above
      have ahead := BitVec.lt_def.mp above
      refine ⟨[], v :: l, rfl, (Except.ok.inj scanned).symm, by simp, ?_⟩
      intro w member
      rcases List.mem_cons.mp member with rfl | member
      · exact ahead
      · have next := List.rel_of_pairwise_cons sep (List.mem_map_of_mem member)
        exact (ahead.trans_le v.span.fst_le_snd).trans next
    · rename_i reaches
      simp only [bind_ok, pure_ok, Except.ok.injEq] at scanned
      obtain ⟨tail, scanned, rfl⟩ := scanned
      obtain ⟨front, back, rfl, rfl, below, above⟩ := ih sep.of_cons later scanned
      have first : v.span.snd < r.span.fst := by
        rcases before_or_after here with after | before
        · exact absurd (BitVec.lt_def.mpr after) reaches
        · exact before
      exact ⟨v :: front, back, rfl, rfl, List.forall_mem_cons.mpr ⟨first, below⟩, above⟩

/-- An addition that comes to its end keeps the partition just when it is apart from all entries. -/
theorem RangePartition.add_iff {mem : Bool} {base limit : W32} (partition : RangePartition l)
    (added : rangeAdd mem l base limit = .ok l') :
    RangePartition l' ↔ ¬ (RangeCall.add mem base limit).Overlaps l := by
  obtain ⟨_, ordered, scanned⟩ := rangeAdd_ok added
  constructor
  · rintro kept ⟨v, member, a, inside, within⟩
    have apart := ((rangeScan_perm scanned).pairwise_iff fun apart a there here => apart a here there).mp kept.disjoint
    exact List.rel_of_pairwise_cons apart member a within inside
  · intro apart
    have sep := rangePartition_iff.mp partition
    have alone : ∀ v ∈ l, ∀ a, base.toNat ≤ a ∧ a ≤ limit.toNat → a ∉ v.span :=
      fun v member a within inside => apart ⟨v, member, a, inside, within⟩
    obtain ⟨front, back, rfl, rfl, below, above⟩ :=
      rangeScan_apart (r := ⟨base, limit, BitVec.le_of_lt ordered⟩) sep alone scanned
    rw [rangePartition_iff]
    rw [List.map_append] at sep ⊢
    exact sep.insert (List.forall_mem_map.mpr below) (List.forall_mem_map.mpr above)

theorem RangeCall.Fits.rejects (fits : c.Fits l) (partition : RangePartition l) (overlaps : c.Overlaps l) :
    ¬ RangeStep l c l' := by
  intro taken
  cases c with
  | remove => exact overlaps
  | add mem base limit =>
    obtain ⟨served, ordered, scanned⟩ := rangeAdd_ok taken
    rcases fits served ordered with ⟨v, member, below, above⟩ | apart
    · cases (rangeScan_contained (rangePartition_iff.mp partition) member below above).symm.trans scanned
    · exact apart overlaps

theorem RangePartition.step (partition : RangePartition l) (fits : c.Fits l) (taken : RangeStep l c l') :
    RangePartition l' := by
  cases c with
  | remove => exact partition.remove taken
  | add => exact (partition.add_iff taken).mpr fun overlaps => fits.rejects partition overlaps taken

/-- An addition that does not fit comes to its end. -/
theorem RangeCall.accepted (unfit : ¬ c.Fits l) : c.Overlaps l ∧ ∃ l', RangeStep l c l' := by
  cases c with
  | remove => exact absurd trivial unfit
  | add mem base limit =>
    simp only [RangeCall.Fits, Classical.not_imp, not_or, not_not, not_exists, not_and] at unfit
    obtain ⟨rfl, ordered, uncontained, overlaps⟩ := unfit
    obtain ⟨rest, scanned⟩ := rangeScan_uncontained (r := ⟨base, limit, BitVec.le_of_lt ordered⟩)
      fun v member within => uncontained v member within.1 within.2
    refine ⟨overlaps, rest, ?_⟩
    rw [RangeStep, RangeCall.run, rangeAdd, dif_pos ordered]
    exact scanned

/-- In a run of these calls `c` is made on the list `l`: all before it came to their end. -/
def Called (calls : List RangeCall) (l : List Range) (c : RangeCall) : Prop :=
  ∃ history, history ++ [c] <+: calls ∧ Run RangeStep [] history l

theorem fitting_partition {calls history : List RangeCall} (fits : ∀ l c, Called calls l c → c.Fits l)
    (within : history <+: calls) (run : Run RangeStep [] history l) : RangePartition l := by
  induction run with
  | nil => exact ⟨.nil, .nil⟩
  | snoc earlier taken ih =>
    have before := (List.prefix_append _ _).trans within
    exact (ih before).step (fits _ _ ⟨_, within, earlier⟩) taken

end ToyHv
