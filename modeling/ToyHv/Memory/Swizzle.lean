import ToyHv.Memory.Lanes

namespace ToyHv
open Library

variable {p : Pmem} {host other : Host} {start bytes s : W32}

/-- The host address is a byte of guest RAM: its index from `pmem` is below `pmem_bytes`. -/
def InGuestRam (p : Pmem) (x : W32) : Prop := (x - p.pmem).toNat < p.pmemBytes.toNat

/-- `pmem_to` in little-endian mode writes nothing outside guest RAM. -/
def WritesInside (p : Pmem) (start bytes s : W32) : Prop :=
  ∀ (host : Host) (src : Buf) (count : W32) (host' : Host),
    pmemTo true p host start src bytes s = .ok (count, host') → ∀ x, ¬ InGuestRam p x → host' x = host x

/-- `pmem_from_ex` in little-endian mode reads nothing outside guest RAM, if it is not forced to big-endian. -/
def ReadsInside (p : Pmem) (start bytes s : W32) : Prop :=
  ∀ (host other : Host) (buf : Buf) (d : ℕ) (flags : W32), flags &&& PMEM_FROM_FORCE_BE = 0 →
    (∀ x, InGuestRam p x → host x = other x) →
    pmemFromEx true p host buf d start bytes s flags = pmemFromEx true p other buf d start bytes s flags

structure PassesChecks (p : Pmem) (start bytes s : W32) : Prop where
  size : AccessSize s
  whole : cutToRam p start bytes % s = 0

/-- A transfer is aligned, or starts or ends away from the first bytes of the last doubleword of RAM. -/
def SwizzleFits (p : Pmem) (start bytes s : W32) : Prop :=
  start.toNat % s.toNat = 0 ∨ p.pmemBytes.toNat + s.toNat ≤ start.toNat + 8 ∨
    start.toNat + bytes.toNat + 8 ≤ p.pmemBytes.toNat + s.toNat

def elementHa (d s : W32) (i j : ℕ) : W32 := (d + BitVec.ofNat 32 (i + j * s.toNat)) ^^^ munge s

def Touched (d s : W32) (i n : ℕ) (x : W32) : Prop := ∃ j < n, (x - elementHa d s i j).toNat < s.toNat

theorem elementHa_zero (d s : W32) (i : ℕ) : elementHa d s i 0 = (d + BitVec.ofNat 32 i) ^^^ munge s := by
  rw [elementHa, Nat.zero_mul, Nat.add_zero]

theorem elementHa_succ (d s : W32) (i j : ℕ) : elementHa d s i (j + 1) = elementHa d s (i + s.toNat) j := by
  have same : i + (j + 1) * s.toNat = i + s.toNat + j * s.toNat := by ring
  rw [elementHa, elementHa, same]

theorem pmemToLoop_untouched (size : AccessSize s) (d : W32) (src : Buf) (host : Host) {x : W32} (n i : ℕ)
    (untouched : ¬ Touched d s i n x) : pmemToLoop d src s i host n x = host x := by
  induction n generalizing i host with
  | zero => rfl
  | succ n ih =>
    have later : ¬ Touched d s (i + s.toNat) n x := by
      rintro ⟨j, bound, covers⟩
      exact untouched ⟨j + 1, Nat.succ_lt_succ bound, elementHa_succ d s i j ▸ covers⟩
    have first : ¬ (x - ((d + BitVec.ofNat 32 i) ^^^ munge s)).toNat < s.toNat := by
      intro covers
      exact untouched ⟨0, Nat.succ_pos n, elementHa_zero d s i ▸ covers⟩
    rw [pmemToLoop_succ size, ih _ _ later, Host.put, if_neg first]

theorem pmemToLoop_filled (size : AccessSize s) (d : W32) (v : W8) (host : Host) {x : W32} (n i : ℕ)
    (filled : host x = v ∨ Touched d s i n x) : pmemToLoop d (fun _ => v) s i host n x = v := by
  induction n generalizing i host with
  | zero =>
    rcases filled with there | ⟨j, bound, _⟩
    · exact there
    · exact absurd bound (Nat.not_lt_zero j)
  | succ n ih =>
    rw [pmemToLoop_succ size]
    apply ih
    by_cases covers : (x - ((d + BitVec.ofNat 32 i) ^^^ munge s)).toNat < s.toNat
    · exact .inl (if_pos covers)
    · rcases filled with there | ⟨j, bound, element⟩
      · exact .inl ((if_neg covers).trans there)
      · cases j with
        | zero => exact absurd (elementHa_zero d s i ▸ element) covers
        | succ j => exact .inr ⟨j, Nat.lt_of_succ_lt_succ bound, elementHa_succ d s i j ▸ element⟩

theorem touched_byte {d : W32} {i j n k : ℕ} (size : AccessSize s) (bound : j < n) (inside : k < s.toNat) :
    Touched d s i n (elementHa d s i j + BitVec.ofNat 32 k) := by
  refine ⟨j, bound, ?_⟩
  have small : s.toNat ≤ 4 := by rcases size with rfl | rfl | rfl <;> decide
  have offset : elementHa d s i j + BitVec.ofNat 32 k - elementHa d s i j = BitVec.ofNat 32 k := by ring
  rw [offset, BitVec.toNat_ofNat]
  omega

theorem pmemFromLoop_congr (size : AccessSize s) (a : W32) (nulTerm : Bool) (d n i : ℕ) (buf : Buf)
    (same : ∀ x, Touched a s i n x → host x = other x) :
    pmemFromLoop a host s nulTerm d i buf n = pmemFromLoop a other s nulTerm d i buf n := by
  induction n generalizing i buf with
  | zero => rfl
  | succ n ih =>
    have byte : ∀ k < s.toNat, host (((a + BitVec.ofNat 32 i) ^^^ munge s) + BitVec.ofNat 32 k) =
        other (((a + BitVec.ofNat 32 i) ^^^ munge s) + BitVec.ofNat 32 k) := by
      intro k inside
      have touched := same _ (touched_byte size (Nat.succ_pos n) inside)
      rwa [elementHa_zero] at touched
    have stop : (nulTerm = true ∧ s = 1 ∧ host ((a + BitVec.ofNat 32 i) ^^^ 7) = 0) ↔
        (nulTerm = true ∧ s = 1 ∧ other ((a + BitVec.ofNat 32 i) ^^^ 7) = 0) := by
      refine and_congr_right fun _ => and_congr_right fun one => ?_
      have first := byte 0 size.pos
      rw [one, BitVec.add_zero] at first
      exact first ▸ Iff.rfl
    have later : ∀ x, Touched a s (i + s.toNat) n x → host x = other x := by
      rintro x ⟨j, bound, covers⟩
      exact same x ⟨j + 1, Nat.succ_lt_succ bound, (elementHa_succ a s i j).symm ▸ covers⟩
    simp only [pmemFromLoop_succ size, Buf.put_congr byte, stop, ih _ _ later]

theorem pmemFromLoop_before (size : AccessSize s) (a : W32) (host : Host) (d n i : ℕ) (buf : Buf) {x : ℕ}
    (before : x < d + i) : (pmemFromLoop a host s false d i buf n).2 x = buf x := by
  induction n generalizing i buf with
  | zero => rfl
  | succ n ih =>
    simp only [pmemFromLoop_succ size, Bool.false_eq_true, false_and, if_false]
    rw [ih (i + s.toNat) _ (by omega)]
    exact if_neg (by omega)

theorem pmemFromLoop_byte (size : AccessSize s) (a : W32) (host : Host) (d n i : ℕ) (buf : Buf) {j k : ℕ}
    (bound : j < n) (inside : k < s.toNat) :
    (pmemFromLoop a host s false d i buf n).2 (d + i + j * s.toNat + k) =
      host (elementHa a s i j + BitVec.ofNat 32 k) := by
  induction n generalizing i j buf with
  | zero => exact absurd bound (Nat.not_lt_zero j)
  | succ n ih =>
    simp only [pmemFromLoop_succ size, Bool.false_eq_true, false_and, if_false]
    cases j with
    | zero =>
      rw [pmemFromLoop_before size a host d n (i + s.toNat) _ (by omega), elementHa_zero]
      have offset : d + i + 0 * s.toNat + k - (d + i) = k := by omega
      rw [Buf.put, if_pos ⟨by omega, by omega⟩, offset]
    | succ j =>
      have place : d + i + (j + 1) * s.toNat + k = d + (i + s.toNat) + j * s.toNat + k := by ring
      rw [place, elementHa_succ]
      exact ih (i + s.toNat) _ (Nat.lt_of_succ_lt_succ bound)

theorem munge_low (size : AccessSize s) : (munge s).toNat < 8 := by
  rcases size with rfl | rfl | rfl <;> decide

/-- Of the places in a doubleword, those behind its first byte but before the first whole element are
    flipped to where an element goes over the end. -/
theorem flipped_fits (size : AccessSize s) :
    ∀ r < 8, (r ^^^ (munge s).toNat) + s.toNat ≤ 8 ↔ r = 0 ∨ s.toNat ≤ r := by
  rcases size with rfl | rfl | rfl <;> decide

theorem elementHa_index (size : AccessSize s) (p : Pmem) (start : W32) (j : ℕ) :
    elementHa (p.pmem + start) s 0 j - p.pmem = (start + BitVec.ofNat 32 (j * s.toNat)) ^^^ munge s := by
  rw [elementHa, Nat.zero_add, BitVec.add_assoc, xor_add_low _ _ _ p.base_aligned (munge_low size), add_sub_cancel_left]

/-- An element that is in RAM before the swizzle is there after it, unless it starts in the first
    bytes of the last doubleword. -/
theorem element_inside_iff (size : AccessSize s) {j : ℕ}
    (bound : start.toNat + j * s.toNat + s.toNat ≤ p.pmemBytes.toNat) :
    (∀ k < s.toNat, InGuestRam p (elementHa (p.pmem + start) s 0 j + BitVec.ofNat 32 k)) ↔
      ¬ (p.pmemBytes.toNat < start.toNat + j * s.toNat + 8 ∧
        start.toNat + j * s.toNat + 8 < p.pmemBytes.toNat + s.toNat) := by
  have top := p.below_top
  have pages := p.size_aligned
  have small : s.toNat ≤ 4 := by rcases size with rfl | rfl | rfl <;> decide
  have positive := size.pos
  have address : (start + BitVec.ofNat 32 (j * s.toNat)).toNat = start.toNat + j * s.toNat := by
    rw [BitVec.toNat_add, BitVec.toNat_ofNat]
    omega
  have flipped := toNat_xor_low (start + BitVec.ofNat 32 (j * s.toNat)) (munge s) (munge_low size)
  rw [address] at flipped
  have fits := flipped_fits size ((start.toNat + j * s.toNat) % 8) (Nat.mod_lt _ (by decide))
  have within : (start.toNat + j * s.toNat) % 8 ^^^ (munge s).toNat < 2^3 :=
    Nat.xor_lt_two_pow (by omega) (munge_low size)
  have index : ∀ k < s.toNat, (elementHa (p.pmem + start) s 0 j + BitVec.ofNat 32 k - p.pmem).toNat =
      8 * ((start.toNat + j * s.toNat) / 8) + ((start.toNat + j * s.toNat) % 8 ^^^ (munge s).toNat) + k := by
    intro k inside
    have shift : elementHa (p.pmem + start) s 0 j + BitVec.ofNat 32 k - p.pmem =
        elementHa (p.pmem + start) s 0 j - p.pmem + BitVec.ofNat 32 k := by ring
    rw [shift, elementHa_index size, BitVec.toNat_add, BitVec.toNat_ofNat, flipped]
    omega
  constructor
  · intro all
    have last := all (s.toNat - 1) (by omega)
    rw [InGuestRam, index _ (by omega)] at last
    omega
  · intro away k inside
    rw [InGuestRam, index k inside]
    omega

theorem Touched.exists_byte {d x : W32} {i n : ℕ} (touched : Touched d s i n x) :
    ∃ j < n, ∃ k < s.toNat, x = elementHa d s i j + BitVec.ofNat 32 k := by
  obtain ⟨j, bound, covers⟩ := touched
  refine ⟨j, bound, (x - elementHa d s i j).toNat, covers, ?_⟩
  rw [BitVec.ofNat_toNat, BitVec.setWidth_eq]
  ring

/-- Of an unaligned transfer over the place, one element starts in the first bytes of the last doubleword. -/
theorem element_at_end (h : InRam p start bytes s) (misfit : ¬ SwizzleFits p start bytes s) :
    ∃ j < (bytes / s).toNat, p.pmemBytes.toNat < start.toNat + j * s.toNat + 8 ∧
      start.toNat + j * s.toNat + 8 < p.pmemBytes.toNat + s.toNat := by
  have elements := h.elements
  have bound := h.bound
  have pages := p.size_aligned
  simp only [SwizzleFits, not_or] at misfit
  obtain ⟨unaligned, early, late⟩ := misfit
  refine ⟨(p.pmemBytes.toNat + s.toNat - 8 - start.toNat - 1) / s.toNat, ?_⟩
  rcases h.size with rfl | rfl | rfl
  · exact absurd (Nat.mod_one _) unaligned
  · simp only [BitVec.ofNat_eq_ofNat, BitVec.toNat_ofNat, Nat.reducePow, Nat.reduceMod] at *
    omega
  · simp only [BitVec.ofNat_eq_ofNat, BitVec.toNat_ofNat, Nat.reducePow, Nat.reduceMod] at *
    omega

theorem element_away {j : ℕ} (h : InRam p start bytes s) (fits : SwizzleFits p start bytes s)
    (bound : j < (bytes / s).toNat) :
    ¬ (p.pmemBytes.toNat < start.toNat + j * s.toNat + 8 ∧
      start.toNat + j * s.toNat + 8 < p.pmemBytes.toNat + s.toNat) := by
  have elements := h.elements
  have pages := p.size_aligned
  have room := h.bound
  unfold SwizzleFits at fits
  rcases h.size with rfl | rfl | rfl
  · simp only [BitVec.ofNat_eq_ofNat, BitVec.toNat_ofNat, Nat.reducePow, Nat.reduceMod] at *
    omega
  · simp only [BitVec.ofNat_eq_ofNat, BitVec.toNat_ofNat, Nat.reducePow, Nat.reduceMod] at *
    omega
  · simp only [BitVec.ofNat_eq_ofNat, BitVec.toNat_ofNat, Nat.reducePow, Nat.reduceMod] at *
    omega

theorem InRam.element_bound {j : ℕ} (h : InRam p start bytes s) (bound : j < (bytes / s).toNat) :
    start.toNat + j * s.toNat + s.toNat ≤ p.pmemBytes.toNat := by
  have room := h.bound
  have elements := h.elements
  have most := Nat.mul_le_mul_right s.toNat (Nat.succ_le_of_lt bound)
  rw [Nat.succ_mul] at most
  omega

theorem touched_inside (h : InRam p start bytes s) (fits : SwizzleFits p start bytes s) {x : W32}
    (touched : Touched (p.pmem + start) s 0 (bytes / s).toNat x) : InGuestRam p x := by
  obtain ⟨j, bound, k, inside, rfl⟩ := touched.exists_byte
  exact (element_inside_iff h.size (h.element_bound bound)).mpr (element_away h fits bound) k inside

theorem touched_outside (h : InRam p start bytes s) (misfit : ¬ SwizzleFits p start bytes s) :
    ∃ j < (bytes / s).toNat, ∃ k < s.toNat,
      ¬ InGuestRam p (elementHa (p.pmem + start) s 0 j + BitVec.ofNat 32 k) := by
  obtain ⟨j, bound, early, late⟩ := element_at_end h misfit
  have outside := mt (element_inside_iff h.size (h.element_bound bound)).mp (not_not.mpr ⟨early, late⟩)
  simp only [not_forall] at outside
  obtain ⟨k, inside, beyond⟩ := outside
  exact ⟨j, bound, k, inside, beyond⟩

theorem writes_inside_iff (h : InRam p start bytes s) : WritesInside p start bytes s ↔ SwizzleFits p start bytes s := by
  constructor
  · intro inside
    by_contra misfit
    obtain ⟨j, bound, k, covered, beyond⟩ := touched_outside h misfit
    have kept := inside (fun _ => 0) (fun _ => 1) _ _ (pmemTo_little h) _ beyond
    rw [pmemToLoop_filled h.size _ 1 _ _ 0 (.inr (touched_byte h.size bound covered))] at kept
    exact absurd kept (by decide)
  · intro fits host src count host' stored x beyond
    rw [pmemTo_little h] at stored
    obtain ⟨_, rfl⟩ := Prod.mk.inj (Except.ok.inj stored)
    exact pmemToLoop_untouched h.size _ _ _ _ 0 fun touched => beyond (touched_inside h fits touched)

theorem loopResult_buf (bytes : W32) (result : Option ℕ × Buf) : (loopResult bytes result).2 = result.2 := by
  rcases result with ⟨_ | i, buf⟩ <;> rfl

theorem reads_inside_iff (h : InRam p start bytes s) : ReadsInside p start bytes s ↔ SwizzleFits p start bytes s := by
  constructor
  · intro inside
    by_contra misfit
    obtain ⟨j, bound, k, covered, beyond⟩ := touched_outside h misfit
    have plain : decide ((0 : W32) &&& PMEM_FROM_NUL_TERM ≠ 0) = false := by decide
    have agree : ∀ x, InGuestRam p x → (0 : W8) =
        if x = elementHa (p.pmem + start) s 0 j + BitVec.ofNat 32 k then 1 else 0 := by
      intro x there
      rw [if_neg]
      rintro rfl
      exact beyond there
    have same := inside (fun _ => 0) _ (fun _ => 0) 0 0 (by decide) agree
    rw [pmemFromEx_little h (by decide), pmemFromEx_little h (by decide), plain] at same
    have buffers := congrFun (congrArg Prod.snd (Except.ok.inj same)) (0 + 0 + j * s.toNat + k)
    rw [loopResult_buf, loopResult_buf, pmemFromLoop_byte h.size _ _ 0 _ 0 _ bound covered,
      pmemFromLoop_byte h.size _ _ 0 _ 0 _ bound covered, if_pos rfl] at buffers
    exact absurd buffers (by decide)
  · intro fits host other buf d flags munged agree
    rw [pmemFromEx_little h munged, pmemFromEx_little h munged,
      pmemFromLoop_congr h.size _ _ _ _ 0 _ fun x touched => agree x (touched_inside h fits touched)]

theorem PassesChecks.inRam (checked : PassesChecks p start bytes s) (inside : start < p.pmemBytes)
    (small : bytes.toNat ≤ 4096) : InRam p start (cutToRam p start bytes) s := by
  have whole := congrArg BitVec.toNat checked.whole
  rw [BitVec.toNat_umod] at whole
  exact cutToRam_inRam checked.size inside small whole

/-- What is cut off at the end of RAM makes no difference: such a transfer is aligned if its length is. -/
theorem swizzle_cut (checked : PassesChecks p start bytes s) (inside : start < p.pmemBytes)
    (small : bytes.toNat ≤ 4096) :
    SwizzleFits p start (cutToRam p start bytes) s ↔ SwizzleFits p start bytes s := by
  have h := checked.inRam inside small
  have count := toNat_cutToRam inside small
  have whole := h.whole
  have room := h.bound
  have pages := p.size_aligned
  have below := BitVec.lt_def.mp inside
  unfold SwizzleFits
  rcases checked.size with rfl | rfl | rfl
  · exact iff_of_true (.inl (Nat.mod_one _)) (.inl (Nat.mod_one _))
  · simp only [BitVec.ofNat_eq_ofNat, BitVec.toNat_ofNat, Nat.reducePow, Nat.reduceMod] at *
    omega
  · simp only [BitVec.ofNat_eq_ofNat, BitVec.toNat_ofNat, Nat.reducePow, Nat.reduceMod] at *
    omega

/-- A swizzled transfer of up to a page that passes the checks stays inside guest RAM just when it is
    aligned or does not cover the first bytes of the last doubleword. -/
theorem swizzle_inside_iff (p : Pmem) (start bytes s : W32) (inside : start < p.pmemBytes)
    (small : bytes.toNat ≤ PAGE_SIZE.toNat) (checked : PassesChecks p start bytes s) :
    (WritesInside p start bytes s ↔ SwizzleFits p start bytes s) ∧
      (ReadsInside p start bytes s ↔ SwizzleFits p start bytes s) := by
  have h := checked.inRam inside small
  rw [← swizzle_cut checked inside small, ← writes_inside_iff h]
  have stores : ∀ (host : Host) (src : Buf), pmemTo true p host start src bytes s = _ :=
    fun host src => pmemTo_cut true host src s inside small
  have loads : ∀ (host : Host) (buf : Buf) (d : ℕ) (flags : W32),
      pmemFromEx true p host buf d start bytes s flags = _ :=
    fun host buf d flags => pmemFromEx_cut true host buf d flags s inside small
  constructor
  · simp only [WritesInside, stores]
  · rw [writes_inside_iff h, ← reads_inside_iff h]
    simp only [ReadsInside, loads]

def onePage : Pmem := ⟨0, 0x1000, zero_base_aligned, by decide, by decide⟩

theorem unaligned_half_inside : WritesInside onePage 0x0ff1 8 2 ∧ ReadsInside onePage 0x0ff1 8 2 := by
  have exact := swizzle_inside_iff onePage 0x0ff1 8 2 (by decide) (by decide) ⟨.inr (.inl rfl), by decide⟩
  have fits : SwizzleFits onePage 0x0ff1 8 2 := by
    unfold SwizzleFits
    decide
  exact ⟨exact.1.mpr fits, exact.2.mpr fits⟩

/-- A word 5 bytes before the end of RAM is put 3 bytes over it. -/
theorem unaligned_word_outside : ¬ ∀ (p : Pmem) (start bytes s : W32), start < p.pmemBytes →
    bytes.toNat ≤ PAGE_SIZE.toNat → PassesChecks p start bytes s →
      WritesInside p start bytes s ∧ ReadsInside p start bytes s := by
  intro always
  obtain ⟨writes, _⟩ := always onePage 0xffb 4 4 (by decide) (by decide) ⟨.inr (.inr rfl), by decide⟩
  have fits := (writes_inside_iff ⟨.inr (.inr rfl), by decide, by decide⟩).mp writes
  unfold SwizzleFits at fits
  exact absurd fits (by decide)

end ToyHv
