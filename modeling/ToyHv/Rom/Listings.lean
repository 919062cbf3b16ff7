import ToyHv.Ranges.Partition
import ToyHv.Rom.Getprop

namespace ToyHv
open Library

/-- The base and size of each range of a "reg" or "available" property. -/
def cellPairs : List W32 → List (W32 × W32)
  | base :: size :: cells => (base, size) :: cellPairs cells
  | _ => []

/-- From the base on so many addresses, modulo 2^32. -/
def Described (a : W32) (pair : W32 × W32) : Prop := pair.1 ≤ a ∧ a ≤ pair.1 + pair.2 - 1

instance (a : W32) (pair : W32 × W32) : Decidable (Described a pair) := inferInstanceAs (Decidable (_ ∧ _))

/-- A partition, and so each address is covered, and described by the encoding, once at most. -/
structure ListedOnce (l : List Range) : Prop extends RangePartition l where
  covered_once : ∀ a : W32, l.countP (fun r => r.base ≤ a ∧ a ≤ r.limit) ≤ 1
  counted : rangeCount l = BitVec.ofNat 32 (cellPairs (rangeCells l)).length
  described_once : ∀ a : W32, (cellPairs (rangeCells l)).countP (fun pair => Described a pair) =
    if ∃ r ∈ l, r.base ≤ a ∧ a ≤ r.limit then 1 else 0

variable {l : List Range}

theorem rangeCount_eq (l : List Range) : rangeCount l = BitVec.ofNat 32 l.length := by
  have from_ : ∀ (l : List Range) (c : W32), l.foldl (fun c _ => c + 1) c = c + BitVec.ofNat 32 l.length := by
    intro l
    induction l with
    | nil => simp
    | cons r l ih =>
      intro c
      rw [List.foldl_cons, ih, List.length_cons]
      bv_omega
  rw [rangeCount, from_, zero_add]

theorem cellPairs_rangeCells (l : List Range) :
    cellPairs (rangeCells l) = l.map fun r => (r.base, r.limit - r.base + 1) := by
  induction l with
  | nil => rfl
  | cons r l ih =>
    rw [List.map_cons, ← ih]
    rfl

theorem described_iff (r : Range) (a : W32) :
    Described a (r.base, r.limit - r.base + 1) ↔ r.base ≤ a ∧ a ≤ r.limit := by
  have last : r.base + (r.limit - r.base + 1) - 1 = r.limit := by bv_omega
  rw [Described, last]

theorem RangePartition.listed (partition : RangePartition l) : ListedOnce l := by
  have once : ∀ a : W32, l.countP (fun r => r.base ≤ a ∧ a ≤ r.limit) ≤ 1 := by
    intro a
    have spans : l.countP (fun r => r.base ≤ a ∧ a ≤ r.limit) =
        (l.map Range.span).countP (fun r => r.fst ≤ a.toNat ∧ a.toNat ≤ r.snd) := by
      rw [List.countP_map]
      apply List.countP_congr
      intro r _
      simp only [decide_eq_true_eq, BitVec.le_def]
      exact decide_eq_true_iff.symm
    rw [spans]
    exact (rangePartition_iff.mp partition).countP_le_one a.toNat
  refine ⟨partition, once, ?_, fun a => ?_⟩
  · rw [rangeCount_eq, cellPairs_rangeCells, List.length_map]
  · have same : (cellPairs (rangeCells l)).countP (fun pair => Described a pair) =
        l.countP (fun r => r.base ≤ a ∧ a ≤ r.limit) := by
      rw [cellPairs_rangeCells, List.countP_map]
      apply List.countP_congr
      intro r _
      simp only [Function.comp_apply, described_iff]
    rw [same]
    split
    · rename_i covered
      have some : 0 < l.countP (fun r => r.base ≤ a ∧ a ≤ r.limit) := by simpa using covered
      exact le_antisymm (once a) some
    · rename_i uncovered
      simpa using uncovered

/-- Every list of the run is such a partition, and no addition that overlaps an entry comes to its end. -/
structure RunKeepsPartition (calls : List RangeCall) : Prop where
  reached : ∀ history l, history <+: calls → Run RangeStep [] history l → ListedOnce l
  rejects : ∀ l c, Called calls l c → c.Overlaps l → ∀ l', ¬ RangeStep l c l'

/-- The lists of a run stay partitions just when every addition in it is inside an entry or apart from all. -/
theorem run_keeps_partition_iff (calls : List RangeCall) :
    RunKeepsPartition calls ↔ ∀ l c, Called calls l c → c.Fits l := by
  constructor
  · intro keeps l c called
    by_contra unfit
    obtain ⟨overlaps, l', taken⟩ := RangeCall.accepted unfit
    exact keeps.rejects l c called overlaps l' taken
  · intro fits
    constructor
    · intro history l within run
      exact (fitting_partition fits within run).listed
    · intro l c called overlaps l'
      obtain ⟨history, within, run⟩ := called
      have partition := fitting_partition fits ((List.prefix_append _ _).trans within) run
      exact (fits l c ⟨history, within, run⟩).rejects partition overlaps

/-- A range around an entry is not seen by the test for one inside it. -/
theorem surrounding_range_added : ¬ ∀ calls, RunKeepsPartition calls := by
  intro always
  have inner : RangeStep [] (.add true 0x2000 0x2fff) [⟨0x2000, 0x2fff, by decide⟩] := rfl
  have outer : RangeStep [⟨0x2000, 0x2fff, by decide⟩] (.add true 0x1000 0x3fff)
      [⟨0x2000, 0x2fff, by decide⟩, ⟨0x1000, 0x3fff, by decide⟩] := rfl
  have listed := (always _).reached _ _ List.prefix_rfl ((Run.single inner).snoc outer)
  have sorted := List.rel_of_pairwise_cons listed.sorted (List.mem_singleton_self _)
  exact absurd sorted (by decide)

end ToyHv
