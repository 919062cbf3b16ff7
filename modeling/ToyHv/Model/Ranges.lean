import ToyHv.Model.Types

namespace ToyHv

/-- `range_t`: never empty. `range_add` asks for two addresses, `range_remove` may leave one. -/
structure Range where
  base : W32
  limit : W32
  ordered : base ≤ limit
  deriving DecidableEq

def Range.setBase (range : Range) (limit : W32) (above : limit < range.limit) : Range :=
  ⟨limit + 1, range.limit, by bv_omega⟩

def Range.setLimit (range : Range) (base : W32) (below : range.base < base) : Range :=
  ⟨range.base, base - 1, by bv_omega⟩

def rangeCount (ranges : List Range) : W32 := ranges.foldl (fun c _ => c + 1) 0

def rangeAlloc (mem : Bool) (base limit : W32) (ordered : base < limit) : Option Range :=
  if mem then some ⟨base, limit, BitVec.le_of_lt ordered⟩ else none

/-- The scan of `range_add`, from one list position on. -/
def rangeScan (r : Range) : List Range → Checked (List Range)
  | [] => .ok [r]
  | range :: rest => do
    bugOn (r.base ≥ range.base ∧ r.limit ≤ range.limit) .rangeAlreadyPresent
    if range.base > r.limit then
      return r :: range :: rest
    else
      return range :: (← rangeScan r rest)

def rangeAdd (mem : Bool) (ranges : List Range) (base limit : W32) : Checked (List Range) :=
  if ordered : base < limit then
    match rangeAlloc mem base limit ordered with
    | none => .error .rangeAlloc
    | some r => rangeScan r ranges
  else .error (if mem then .rangeBaseLimit else .rangeAlloc)

/-- The loop of `range_remove` on entry `range` and its stored successor `n`, with the
    entries now in front of them. A split adds its low half to the whole list: the entry
    it was cut from starts above that half, so the scan stops before `n` at the latest. -/
def rangeRemoveLoop (mem : Bool) (base limit : W32) (front : List Range) :
    List Range → Checked (List Range)
  | [] => .ok front
  | range :: n =>
    if range.base > limit ∨ range.limit < base then
      rangeRemoveLoop mem base limit (front ++ [range]) n
    else if inside : range.base ≥ base ∧ range.limit ≤ limit then
      rangeRemoveLoop mem base limit front n
    else if starts : range.base ≥ base then
      let trimmed := range.setBase limit (BitVec.not_le.mp fun le => inside ⟨starts, le⟩)
      rangeRemoveLoop mem base limit (front ++ [trimmed]) n
    else if ends : range.limit ≤ limit then
      rangeRemoveLoop mem base limit (front ++ [range.setLimit base (BitVec.not_le.mp starts)]) n
    else do
      let trimmed := range.setBase limit (BitVec.not_le.mp ends)
      let ranges ← rangeAdd mem (front ++ trimmed :: n) range.base (base - 1)
      rangeRemoveLoop mem base limit (ranges.take (ranges.length - n.length)) n

def rangeRemove (mem : Bool) (ranges : List Range) (base limit : W32) : Checked (List Range) := do
  bugOn (base ≥ limit) .rangeBaseLimit
  rangeRemoveLoop mem base limit [] ranges

end ToyHv
