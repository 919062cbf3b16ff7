import ToyHv.Model.Types

namespace ToyHv

/-- `mmu_range_t`. An entry is only kept once `mmu_range_add` has seen `base < limit`. -/
structure MmuRange where
  base : W32
  limit : W32
  ra : W32
  flags : W32
  ordered : base < limit
  deriving DecidableEq

def mmuRangeAlloc (mem : Bool) (base limit ra flags : W32) (ordered : base < limit) : Option MmuRange :=
  if mem then some ⟨base, limit, ra, flags, ordered⟩ else none

/-- The scan of `mmu_range_add`, from one list position on. -/
def mmuRangeScan (r : MmuRange) : List MmuRange → Checked (List MmuRange)
  | [] => .ok [r]
  | m :: rest => do
    if r.base ≥ m.base ∧ r.limit ≤ m.limit then
      bugOn (r.base - m.base + m.ra ≠ r.ra ∨ r.flags ≠ m.flags) .incompatibleOverlappingRange
    else
      bugOn (r.limit ≥ m.base ∧ r.base ≤ m.limit) .partiallyOverlappingRange
    if m.base > r.limit then
      return r :: m :: rest
    else
      return m :: (← mmuRangeScan r rest)

def mmuRangeAdd (mem : Bool) (mmuRanges : List MmuRange) (base limit ra flags : W32) :
    Checked (List MmuRange) :=
  if ordered : base < limit then
    match mmuRangeAlloc mem base limit ra flags ordered with
    | none => .error .mmuRangeAlloc
    | some r => mmuRangeScan r mmuRanges
  else .error (if mem then .mmuRangeBaseLimit else .mmuRangeAlloc)

def mmuRangeFind (mmuRanges : List MmuRange) (ea : W32) : Option MmuRange :=
  mmuRanges.find? fun m => ea ≥ m.base ∧ ea ≤ m.limit

/-- `rom_fault`: the error and what `*gra` holds afterwards. The flags are not looked at. -/
def romFault (mmuRanges : List MmuRange) (gea gra _flags : W32) : Err × W32 :=
  match mmuRangeFind mmuRanges gea with
  | none => (.notFound, gra)
  | some m => (.none, gea - m.base + m.ra)

end ToyHv
