import ToyHv.Model.MmuRanges
import ToyHv.Model.Ranges

namespace ToyHv

/-- A `struct list_head *`. Everything that is kept in a list begins with its link. -/
abbrev Ptr := W32

/-- The memory of the lists' structures: which blocks are allocated, their links and what else is in them. -/
structure Heap (β : Type) where
  live : Ptr → Bool
  next : Ptr → Ptr
  prev : Ptr → Ptr
  entry : Ptr → β

variable {β : Type}

/-- A pointer to a block that is not allocated cannot be used. -/
def Heap.use (h : Heap β) (a : Ptr) : Checked Unit := bugOn (h.live a = false) .undefined

def Heap.getNext (h : Heap β) (a : Ptr) : Checked Ptr := do
  h.use a
  return h.next a

def Heap.getPrev (h : Heap β) (a : Ptr) : Checked Ptr := do
  h.use a
  return h.prev a

def Heap.getEntry (h : Heap β) (a : Ptr) : Checked β := do
  h.use a
  return h.entry a

def Heap.setNext (h : Heap β) (a b : Ptr) : Checked (Heap β) := do
  h.use a
  return { h with next := Function.update h.next a b }

def Heap.setPrev (h : Heap β) (a b : Ptr) : Checked (Heap β) := do
  h.use a
  return { h with prev := Function.update h.prev a b }

def Heap.setEntry (h : Heap β) (a : Ptr) (value : β) : Checked (Heap β) := do
  h.use a
  return { h with entry := Function.update h.entry a value }

def Heap.free (h : Heap β) (a : Ptr) : Checked (Heap β) := do
  h.use a
  return { h with live := Function.update h.live a false }

/-- What malloc answers: a block, or NULL. -/
abbrev Malloc (β : Type) := Heap β → Option Ptr

def LIST_POISON1 : Ptr := 0x100
def LIST_POISON2 : Ptr := 0x200

def initListHead (h : Heap β) (ptr : Ptr) : Checked (Heap β) := do
  let h ← h.setNext ptr ptr
  h.setPrev ptr ptr

/-- `__list_add`. -/
def listAddBetween (h : Heap β) (new prev next : Ptr) : Checked (Heap β) := do
  let h ← h.setPrev next new
  let h ← h.setNext new next
  let h ← h.setPrev new prev
  h.setNext prev new

def listAddTail (h : Heap β) (new head : Ptr) : Checked (Heap β) := do
  listAddBetween h new (← h.getPrev head) head

/-- `__list_del`. -/
def listDelBetween (h : Heap β) (prev next : Ptr) : Checked (Heap β) := do
  let h ← h.setPrev next prev
  h.setNext prev next

def listDel (h : Heap β) (entry : Ptr) : Checked (Heap β) := do
  let h ← listDelBetween h (← h.getPrev entry) (← h.getNext entry)
  let h ← h.setNext entry LIST_POISON1
  h.setPrev entry LIST_POISON2

/-- A block with its fields set and its link initialised: the form of `range_alloc` and `mmu_range_alloc`. -/
def listAlloc (malloc : Malloc β) (h : Heap β) (fields : β) : Checked (Option Ptr × Heap β) :=
  match malloc h with
  | none => return (none, h)
  | some r => do
    let h := { h with live := Function.update h.live r true }
    let h ← h.setEntry r fields
    let h ← initListHead h r
    return (some r, h)

/-- The loop of `range_add` and `mmu_range_add` at an entry, and what follows it: `r` goes in front of the first entry
    for which the body says so, or to the end. -/
def listInsert (h : Heap β) (head r : Ptr) (body : β → Checked Bool) : ℕ → Ptr → Checked (Heap β)
  | turns, pos =>
    if pos = head then listAddTail h r head
    else
      match turns with
      | 0 => .error .stillRunning
      | turns + 1 => do
        if ← body (← h.getEntry pos) then listAddTail h r pos
        else listInsert h head r body turns (← h.getNext pos)

/-- What `range_t` holds besides its link. -/
structure RangeFields where
  base : W32
  limit : W32
  deriving DecidableEq

/-- `range_add`, over its list in memory. -/
def Heap.rangeAdd (malloc : Malloc RangeFields) (turns : ℕ) (h : Heap RangeFields) (ranges : Ptr) (base limit : W32) :
    Checked (Heap RangeFields) := do
  let (r, h) ← listAlloc malloc h ⟨base, limit⟩
  match r with
  | none => .error .rangeAlloc
  | some r =>
    bugOn (base ≥ limit) .rangeBaseLimit
    let body := fun range : RangeFields => do
      bugOn (base ≥ range.base ∧ limit ≤ range.limit) .rangeAlreadyPresent
      return (range.base > limit : Bool)
    listInsert h ranges r body turns (← h.getNext ranges)

/-- The body of the loop of `range_remove`. -/
def Heap.rangeRemoveEntry (malloc : Malloc RangeFields) (turns : ℕ) (h : Heap RangeFields) (ranges range : Ptr)
    (base limit : W32) : Checked (Heap RangeFields) := do
  let entry ← h.getEntry range
  if entry.base > limit ∨ entry.limit < base then return h
  else if entry.base ≥ base ∧ entry.limit ≤ limit then
    let h ← listDel h range
    h.free range
  else if entry.base ≥ base then h.setEntry range ⟨limit + 1, entry.limit⟩
  else if entry.limit ≤ limit then h.setEntry range ⟨entry.base, base - 1⟩
  else
    let h ← h.setEntry range ⟨limit + 1, entry.limit⟩
    h.rangeAdd malloc turns ranges entry.base (base - 1)

/-- The loop of `range_remove`, which has read the successor `n` of `range` already. -/
def Heap.rangeRemoveLoop (malloc : Malloc RangeFields) (turns : ℕ) (ranges : Ptr) (base limit : W32) :
    ℕ → Heap RangeFields → Ptr → Ptr → Checked (Heap RangeFields)
  | left, h, range, n =>
    if range = ranges then .ok h
    else
      match left with
      | 0 => .error .stillRunning
      | left + 1 => do
        let h ← h.rangeRemoveEntry malloc turns ranges range base limit
        rangeRemoveLoop malloc turns ranges base limit left h n (← h.getNext n)

def Heap.rangeRemove (malloc : Malloc RangeFields) (turns : ℕ) (h : Heap RangeFields) (ranges : Ptr)
    (base limit : W32) : Checked (Heap RangeFields) := do
  bugOn (base ≥ limit) .rangeBaseLimit
  let range ← h.getNext ranges
  rangeRemoveLoop malloc turns ranges base limit turns h range (← h.getNext range)

/-- What `mmu_range_t` holds besides its link. -/
structure MmuRangeFields where
  base : W32
  limit : W32
  ra : W32
  flags : W32
  deriving DecidableEq

/-- `mmu_range_add`, over its list in memory. -/
def Heap.mmuRangeAdd (malloc : Malloc MmuRangeFields) (turns : ℕ) (h : Heap MmuRangeFields) (mmuRanges : Ptr)
    (base limit ra flags : W32) : Checked (Heap MmuRangeFields) := do
  let (r, h) ← listAlloc malloc h ⟨base, limit, ra, flags⟩
  match r with
  | none => .error .mmuRangeAlloc
  | some r =>
    bugOn (base ≥ limit) .mmuRangeBaseLimit
    let body := fun m : MmuRangeFields => do
      if base ≥ m.base ∧ limit ≤ m.limit then
        bugOn (base - m.base + m.ra ≠ ra ∨ flags ≠ m.flags) .incompatibleOverlappingRange
      else
        bugOn (limit ≥ m.base ∧ base ≤ m.limit) .partiallyOverlappingRange
      return (m.base > limit : Bool)
    listInsert h mmuRanges r body turns (← h.getNext mmuRanges)

/-- `list_for_each_entry` until an entry is found, from a position on: the form of `mmu_range_find` and
    `rom_methods_by_ihandle`. -/
def listFind (h : Heap β) (head : Ptr) (found : β → Bool) : ℕ → Ptr → Checked (Option Ptr)
  | turns, pos =>
    if pos = head then return none
    else
      match turns with
      | 0 => .error .stillRunning
      | turns + 1 => do
        if found (← h.getEntry pos) then return some pos
        else listFind h head found turns (← h.getNext pos)

def Heap.mmuRangeFind (turns : ℕ) (h : Heap MmuRangeFields) (mmuRanges : Ptr) (ea : W32) : Checked (Option Ptr) := do
  listFind h mmuRanges (fun m => ea ≥ m.base ∧ ea ≤ m.limit) turns (← h.getNext mmuRanges)

/-- `rom_fault`, over its list in memory. -/
def Heap.romFault (turns : ℕ) (h : Heap MmuRangeFields) (romMmuRanges : Ptr) (gea gra _flags : W32) :
    Checked (Err × W32) := do
  match ← h.mmuRangeFind turns romMmuRanges gea with
  | none => return (.notFound, gra)
  | some m =>
    let m ← h.getEntry m
    return (.none, gea - m.base + m.ra)

end ToyHv
