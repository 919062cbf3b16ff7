import ToyHv.Library.Alignment

namespace ToyHv

abbrev W8 := BitVec 8
abbrev W32 := BitVec 32

/-- `err_t`, in the order of ERR_LIST. -/
inductive Err
  | none | assert | notReady | badAccess | outOfBounds | ioError | unsupported | noMem | notFound
  | perm | mach | shutdown | continue | pause | posix | notRomCall | invalid
  deriving DecidableEq, Repr

/-- What ends the process: a BUG_ON by its message, or a C expression whose
    behaviour is undefined on the operands it got. `stillRunning` is a loop that has not ended
    in the turns it was given. -/
inductive Abort
  | mmuRangeAlloc | mmuRangeBaseLimit | incompatibleOverlappingRange | partiallyOverlappingRange
  | rangeAlloc | rangeBaseLimit | rangeAlreadyPresent
  | badRa | badAlignment | badAccessSize
  | inconsistentIrDr | invalidAccessSizeAndNulTerm | unsupportedBatHandling | batHit | injectException
  | guestRamTooSmall | mmuNodeMissing | memoryNodeMissing | consoleNodeMissing
  | argOutOfBounds | retOutOfBounds | nonDefaultMode | unexpectedAvailRange
  | badLen | offHi | parentMissing
  | undefined | stillRunning
  deriving DecidableEq, Repr

abbrev Checked (α : Type) := Except Abort α

/-- `BUG_ON(x, ...)` aborts when the condition holds. -/
def bugOn (x : Prop) [Decidable x] (message : Abort) : Checked Unit :=
  if x then .error message else .ok ()

variable {α β : Type}

theorem bugOn_ok {x : Prop} [Decidable x] {message : Abort} {u : Unit} :
    bugOn x message = .ok u ↔ ¬ x := by
  unfold bugOn
  split <;> simp_all

@[simp] theorem bugOn_false {x : Prop} [Decidable x] {message : Abort} (h : ¬ x) :
    bugOn x message = .ok () := bugOn_ok.mpr h

theorem bind_ok {x : Checked α} {f : α → Checked β} {b : β} :
    (x >>= f) = .ok b ↔ ∃ a, x = .ok a ∧ f a = .ok b := by
  cases x with
  | error message => simp [Bind.bind, Except.bind]
  | ok a => simp [Bind.bind, Except.bind]

/-- A computation that aborted did so in its first part or after it. -/
theorem bind_error {x : Checked α} {f : α → Checked β} {message : Abort} :
    (x >>= f) = .error message ↔ x = .error message ∨ ∃ a, x = .ok a ∧ f a = .error message := by
  cases x with
  | error other => simp [Bind.bind, Except.bind]
  | ok a => simp [Bind.bind, Except.bind]

theorem bugOn_error {x : Prop} [Decidable x] {message other : Abort} :
    bugOn x message = .error other ↔ x ∧ message = other := by
  unfold bugOn
  split <;> simp_all

theorem ok_of_isOk {x : Checked α} (ended : x.isOk = true) : ∃ a, x = .ok a := by
  cases x with
  | error message => cases ended
  | ok a => exact ⟨a, rfl⟩

@[simp] theorem ok_bind (a : α) (f : α → Checked β) : (Except.ok a >>= f) = f a := rfl

@[simp] theorem pure_ok (a : α) : (pure a : Checked α) = .ok a := rfl

theorem returned_or {e err : Err} {a a' : α} {rest : Checked (Err × α)}
    (called : (if e ≠ .none then pure (e, a) else rest) = .ok (err, a')) :
    a' = a ∨ e = .none ∧ rest = .ok (err, a') := by
  by_cases done : e = .none
  · rw [if_neg (not_not.mpr done)] at called
    exact .inr ⟨done, called⟩
  · rw [if_pos done] at called
    exact .inl (Prod.mk.inj (Except.ok.inj called)).2.symm

def PAGE_SIZE : W32 := 4096
def PAGE_MASK : W32 := 0xfff

def mb (x : W32) : W32 := 1 * x * 1024 * 1024

def minOf (x y : W32) : W32 := if x < y then x else y

theorem toNat_minOf (x y : W32) : (minOf x y).toNat = min x.toNat y.toNat := by
  unfold minOf
  split
  · rename_i lt
    exact (min_eq_left (BitVec.lt_def.mp lt).le).symm
  · rename_i ge
    exact (min_eq_right (BitVec.le_def.mp (BitVec.not_lt.mp ge))).symm

def alignDown (x a : W32) : W32 := x &&& ~~~(a - 1)

def isAligned (x a : W32) : Prop := x &&& (a - 1) = 0

instance (x a : W32) : Decidable (isAligned x a) := inferInstanceAs (Decidable (_ = _))

def alignUp (x a : W32) : W32 :=
  if isAligned x a then x else (x + (a - 1)) &&& ~~~(a - 1)

open Library

theorem toNat_page_offset (x : W32) : (x &&& PAGE_MASK).toNat = x.toNat % 4096 :=
  toNat_and_low x (k := 12) (by decide)

theorem toNat_page_base (x : W32) : (x &&& ~~~PAGE_MASK).toNat = x.toNat - x.toNat % 4096 :=
  toNat_and_not_low x (k := 12) (by decide)

theorem toNat_alignDown_page (x : W32) : (alignDown x PAGE_SIZE).toNat = x.toNat - x.toNat % 4096 :=
  toNat_page_base x

theorem isAligned_page (x : W32) : isAligned x PAGE_SIZE ↔ x.toNat % 4096 = 0 := by
  rw [← toNat_page_offset, isAligned, ← BitVec.toNat_inj]
  rfl

theorem toNat_alignUp_page (x : W32) (exact : x.toNat + 4095 < 2^32) :
    (alignUp x PAGE_SIZE).toNat = (x.toNat + 4095) / 4096 * 4096 := by
  unfold alignUp
  split
  · rename_i aligned
    rw [isAligned_page] at aligned
    omega
  · have sum : (x + PAGE_MASK).toNat = x.toNat + 4095 := by
      rw [BitVec.toNat_add]
      exact Nat.mod_eq_of_lt exact
    have rounded := toNat_page_base (x + PAGE_MASK)
    rw [sum] at rounded
    change ((x + PAGE_MASK) &&& ~~~PAGE_MASK).toNat = _
    omega

theorem alignUp_page_mod (x : W32) : (alignUp x PAGE_SIZE).toNat % 4096 = 0 := by
  unfold alignUp
  split
  · rename_i aligned
    exact (isAligned_page x).mp aligned
  · have rounded := toNat_page_base (x + PAGE_MASK)
    change ((x + PAGE_MASK) &&& ~~~PAGE_MASK).toNat % 4096 = 0
    omega

end ToyHv
