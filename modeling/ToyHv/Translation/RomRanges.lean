import ToyHv.Library.Laminar
import ToyHv.Library.Runs
import ToyHv.Model.MmuRanges

namespace ToyHv

open Library

def MmuRange.span (m : MmuRange) : NonemptyInterval ℕ :=
  ⟨(m.base.toNat, m.limit.toNat), (BitVec.lt_def.mp m.ordered).le⟩

/-- What overlapping entries must share: their displacement and their flags. -/
def MmuRange.key (m : MmuRange) : W32 × W32 := (m.ra - m.base, m.flags)

def MmuRange.Covers (m : MmuRange) (ea : W32) : Prop := m.base ≤ ea ∧ ea ≤ m.limit

theorem MmuRange.covers_iff (m : MmuRange) (ea : W32) : m.Covers ea ↔ ea.toNat ∈ m.span := Iff.rfl

abbrev RomLaminar (l : List MmuRange) : Prop := Laminar MmuRange.span MmuRange.key l

def MmuRange.Admits (m r : MmuRange) : Prop :=
  if r.base ≥ m.base ∧ r.limit ≤ m.limit then r.base - m.base + m.ra = r.ra ∧ r.flags = m.flags
  else ¬ (r.limit ≥ m.base ∧ r.base ≤ m.limit)

theorem MmuRange.Admits.coherent {m r : MmuRange} (h : m.Admits r) :
    Coherent MmuRange.span MmuRange.key m r := by
  unfold MmuRange.Admits at h
  split at h
  · rename_i inside
    refine .inr (.inr ⟨.inr ?_, ?_⟩)
    · exact NonemptyInterval.le_def.mpr ⟨BitVec.le_def.mp inside.1, BitVec.le_def.mp inside.2⟩
    · simp only [MmuRange.key, Prod.mk.injEq]
      exact ⟨by rw [← h.1]; bv_omega, h.2.symm⟩
  · simp only [ge_iff_le, BitVec.le_def, not_and_or, not_le] at h
    rcases h with after | before
    · exact .inr (.inl after)
    · exact .inl before

theorem MmuRange.Admits.start_le {m r : MmuRange} (h : m.Admits r) (visited : ¬ m.base > r.limit) :
    m.span.fst ≤ r.span.fst := by
  have mo := BitVec.lt_def.mp m.ordered
  have ro := BitVec.lt_def.mp r.ordered
  unfold MmuRange.Admits at h
  simp only [gt_iff_lt, ge_iff_le, BitVec.lt_def, BitVec.le_def, not_lt] at h visited
  change m.base.toNat ≤ r.base.toNat
  split at h <;> omega

theorem mmuRangeScan_ok {r : MmuRange} {l l' : List MmuRange} (h : mmuRangeScan r l = .ok l') :
    ∃ pre post, l = pre ++ post ∧ l' = pre ++ r :: post ∧
      (∀ m ∈ pre, m.Admits r ∧ ¬ m.base > r.limit) ∧ ∀ m ∈ post.head?, m.base > r.limit := by
  induction l generalizing l' with
  | nil =>
    cases h
    exact ⟨[], [], rfl, rfl, by simp, by simp⟩
  | cons m rest ih =>
    have admits : m.Admits r ∧ (if m.base > r.limit then pure (r :: m :: rest)
        else do return m :: (← mmuRangeScan r rest)) = Except.ok l' := by
      simp only [mmuRangeScan, MmuRange.Admits] at h ⊢
      split at h
      · rename_i inside
        obtain ⟨_, checked, continued⟩ := bind_ok.mp h
        rw [if_pos inside]
        have compatible := bugOn_ok.mp checked
        rw [not_or, not_not, not_not] at compatible
        exact ⟨compatible, continued⟩
      · rename_i outside
        obtain ⟨_, checked, continued⟩ := bind_ok.mp h
        rw [if_neg outside]
        exact ⟨bugOn_ok.mp checked, continued⟩
    obtain ⟨admits, continued⟩ := admits
    split at continued
    · rename_i beyond
      cases continued
      exact ⟨[], m :: rest, rfl, rfl, by simp, by simpa using beyond⟩
    · rename_i visited
      obtain ⟨scanned, inserted, result⟩ := bind_ok.mp continued
      obtain ⟨pre, post, split, placed, checked, head⟩ := ih inserted
      cases result
      refine ⟨m :: pre, post, by rw [split]; rfl, by rw [placed]; rfl, ?_, head⟩
      exact List.forall_mem_cons.mpr ⟨⟨admits, visited⟩, checked⟩

/-- The scan may stop at the first later range: sortedness covers the ones it has not seen. -/
theorem mmuRangeScan_laminar {r : MmuRange} {l l' : List MmuRange} (laminar : RomLaminar l)
    (h : mmuRangeScan r l = .ok l') : RomLaminar l' := by
  obtain ⟨pre, post, rfl, rfl, checked, head⟩ := mmuRangeScan_ok h
  refine laminar.insert (fun m member => ?_) (fun m member => (checked m member).1.coherent) ?_
  · exact (checked m member).1.start_le (checked m member).2
  · exact starts_after (List.pairwise_append.mp laminar.sorted).2.1 head

theorem mmuRangeScan_mem {r : MmuRange} {l l' : List MmuRange} (h : mmuRangeScan r l = .ok l')
    (m : MmuRange) : m ∈ l' ↔ m = r ∨ m ∈ l := by
  obtain ⟨pre, post, rfl, rfl, _, _⟩ := mmuRangeScan_ok h
  simp only [List.mem_append, List.mem_cons]
  tauto

theorem mmuRangeAdd_ok {mem : Bool} {l l' : List MmuRange} {base limit ra flags : W32}
    (h : mmuRangeAdd mem l base limit ra flags = .ok l') :
    ∃ ordered : base < limit, mmuRangeScan ⟨base, limit, ra, flags, ordered⟩ l = .ok l' := by
  unfold mmuRangeAdd mmuRangeAlloc at h
  split at h
  · rename_i ordered
    cases mem
    · cases h
    · exact ⟨ordered, h⟩
  · cases h

theorem mmuRangeFind_none (l : List MmuRange) (ea : W32) :
    mmuRangeFind l ea = none ↔ ∀ m ∈ l, ¬ m.Covers ea := by
  simp [mmuRangeFind, MmuRange.Covers]

theorem mmuRangeFind_some {l : List MmuRange} {ea : W32} {m : MmuRange} (h : mmuRangeFind l ea = some m) :
    m ∈ l ∧ m.Covers ea := by
  refine ⟨List.mem_of_find?_eq_some h, ?_⟩
  simpa [MmuRange.Covers] using List.find?_some h

theorem translate_eq {l : List MmuRange} (laminar : RomLaminar l) {ea : W32} {m e : MmuRange}
    (hm : m ∈ l) (he : e ∈ l) (cm : m.Covers ea) (ce : e.Covers ea) :
    ea - m.base + m.ra = ea - e.base + e.ra := by
  have same : m.key = e.key := laminar.key_eq hm he ((m.covers_iff ea).mp cm) ((e.covers_iff ea).mp ce)
  have displacement : m.ra - m.base = e.ra - e.base := congrArg Prod.fst same
  calc ea - m.base + m.ra = ea + (m.ra - m.base) := by bv_omega
    _ = ea + (e.ra - e.base) := by rw [displacement]
    _ = ea - e.base + e.ra := by bv_omega

/-- One call of `mmu_range_add`, with malloc's answer to it. -/
structure MmuAddition where
  mem : Bool
  base : W32
  limit : W32
  ra : W32
  flags : W32

def MmuAddition.Covers (c : MmuAddition) (ea : W32) : Prop := c.base ≤ ea ∧ ea ≤ c.limit

def MmuAddition.step (l : List MmuRange) (c : MmuAddition) (l' : List MmuRange) : Prop :=
  mmuRangeAdd c.mem l c.base c.limit c.ra c.flags = .ok l'

/-- The list holds exactly the ranges added so far, and is laminar. -/
structure RomRangesInvariant (calls : List MmuAddition) (l : List MmuRange) : Prop where
  laminar : RomLaminar l
  added : ∀ m ∈ l, ∃ c ∈ calls, c.base = m.base ∧ c.limit = m.limit
  kept : ∀ c ∈ calls, ∃ m ∈ l, m.base = c.base ∧ m.limit = c.limit ∧ m.ra = c.ra

theorem RomRangesInvariant.step {calls : List MmuAddition} {l l' : List MmuRange} {c : MmuAddition}
    (inv : RomRangesInvariant calls l) (taken : c.step l l') : RomRangesInvariant (calls ++ [c]) l' := by
  obtain ⟨ordered, scanned⟩ := mmuRangeAdd_ok taken
  have members := mmuRangeScan_mem scanned
  refine ⟨mmuRangeScan_laminar inv.laminar scanned, fun m member => ?_, fun d member => ?_⟩
  · rcases (members m).mp member with rfl | older
    · exact ⟨c, by simp, rfl, rfl⟩
    · obtain ⟨d, called, same⟩ := inv.added m older
      exact ⟨d, List.mem_append_left _ called, same⟩
  · rcases List.mem_append.mp member with older | new
    · obtain ⟨m, present, same⟩ := inv.kept d older
      exact ⟨m, (members m).mpr (.inr present), same⟩
    · obtain rfl := List.mem_singleton.mp new
      exact ⟨_, (members _).mpr (.inl rfl), rfl, rfl, rfl⟩

theorem rom_ranges_invariant {calls : List MmuAddition} {l : List MmuRange}
    (run : Run (fun l c l' => MmuAddition.step l c l') [] calls l) : RomRangesInvariant calls l :=
  run.invariant ⟨.nil, by simp, by simp⟩ fun _ _ _ _ inv taken => inv.step taken

/-- The ROM's translation table after any additions that do not abort: sorted, nested or
    disjoint, and every accepted range is still translated the way it was asked for. -/
theorem rom_table_honours_additions (calls : List MmuAddition) (l : List MmuRange)
    (run : Run (fun l c l' => MmuAddition.step l c l') [] calls l) :
    l.Pairwise (fun e f => e.base ≤ f.base) ∧
    l.Pairwise (fun e f => (∀ ea, ¬ (e.Covers ea ∧ f.Covers ea)) ∨
      (((f.base ≤ e.base ∧ e.limit ≤ f.limit) ∨ (e.base ≤ f.base ∧ f.limit ≤ e.limit)) ∧
        e.ra - e.base = f.ra - f.base ∧ e.flags = f.flags)) ∧
    ∀ ea, (mmuRangeFind l ea = none ↔ ∀ c ∈ calls, ¬ c.Covers ea) ∧
      ∀ m, mmuRangeFind l ea = some m → ∀ c ∈ calls, c.Covers ea →
        ea - m.base + m.ra = ea - c.base + c.ra := by
  have inv := rom_ranges_invariant run
  refine ⟨inv.laminar.sorted.imp BitVec.le_def.mpr, inv.laminar.coherent.imp fun {e f} agree => ?_,
    fun ea => ⟨?_, fun m found c called covers => ?_⟩⟩
  · rcases agree with before | after | ⟨nested, same⟩
    · left
      rintro ea ⟨⟨_, le⟩, ge, _⟩
      change e.limit.toNat < f.base.toNat at before
      rw [BitVec.le_def] at le ge
      omega
    · left
      rintro ea ⟨⟨ge, _⟩, _, le⟩
      change f.limit.toNat < e.base.toNat at after
      rw [BitVec.le_def] at le ge
      omega
    · exact .inr ⟨nested, Prod.mk.inj same⟩
  · rw [mmuRangeFind_none]
    constructor
    · intro uncovered c called covers
      obtain ⟨m, present, base, limit, _⟩ := inv.kept c called
      exact uncovered m present (by rw [MmuRange.Covers, base, limit]; exact covers)
    · intro uncovered m present covers
      obtain ⟨c, called, base, limit⟩ := inv.added m present
      exact uncovered c called (by rw [MmuAddition.Covers, base, limit]; exact covers)
  · obtain ⟨e, present, base, limit, ra⟩ := inv.kept c called
    obtain ⟨member, mcovers⟩ := mmuRangeFind_some found
    have ecovers : e.Covers ea := by rw [MmuRange.Covers, base, limit]; exact covers
    rw [translate_eq inv.laminar member present mcovers ecovers, base, ra]

theorem nested_ranges_agree : ∃ l m, mmuRangeFind l 0x2000 = some m ∧ (0x2000 : W32) - m.base + m.ra = 0x802000 := by
  have start : MmuAddition.step [] ⟨true, 0, 0xfffff, 0x800000, 0⟩ [⟨0, 0xfffff, 0x800000, 0, by decide⟩] := rfl
  have nested : MmuAddition.step [⟨0, 0xfffff, 0x800000, 0, by decide⟩] ⟨true, 0x1000, 0x2fff, 0x801000, 0⟩
      [⟨0, 0xfffff, 0x800000, 0, by decide⟩, ⟨0x1000, 0x2fff, 0x801000, 0, by decide⟩] := rfl
  have run := Run.snoc (.single start) nested
  have honoured := ((rom_table_honours_additions _ _ run).2.2 0x2000).2 ⟨0, 0xfffff, 0x800000, 0, by decide⟩ rfl
    ⟨true, 0x1000, 0x2fff, 0x801000, 0⟩ (by simp) ⟨by decide, by decide⟩
  exact ⟨[⟨0, 0xfffff, 0x800000, 0, by decide⟩, ⟨0x1000, 0x2fff, 0x801000, 0, by decide⟩], _, rfl,
    honoured.trans (by decide)⟩

end ToyHv
