import ToyHv.Memory.Paging
import ToyHv.Translation.Backmap

namespace ToyHv
open Library

variable {m : Machine} {p : Pmem} {host : Host} {ea gra n bytes : W32} {src buf : Buf}

/-- Where in host memory the guest's scalar of `n` bytes at an address is. -/
def scalarHa (little : Bool) (p : Pmem) (gra n : W32) : W32 :=
  if little then (p.pmem + gra) ^^^ munge n else p.pmem + gra

/-- The processor is none that `guest_bat_fault` knows, or a BAT register names the block of the address. -/
def BatAborts (guest : Guest) (ea : W32) : Prop :=
  guest.pvr ≠ PVR_601 ∨
    ∃ i : Fin 8, (i = 0 ∨ i = 2 ∨ i = 4 ∨ i = 6) ∧ ppcMaskOut (guest.ubat i) 0 14 = ppcMaskOut ea 0 14

/-- The translation of an address ends in `guest_bat_fault`, which aborts. -/
structure TranslationAborts (m : Machine) (ea : W32) : Prop where
  on : m.guest.msr &&& MSR_MMU_ON = MSR_MMU_ON
  unmapped : vmmGetPageMapping m m.guest.vmm ea = -1
  tables : m.guest.sdr1 ≠ SDR1_MAGIC_ROM_MODE
  bats : BatAborts m.guest ea

/-- An access of `n` bytes has a translation, or none without an abort, and if it leads to RAM it ends
    in the page it starts in and inside RAM. -/
structure ScalarFits (m : Machine) (ea n : W32) : Prop where
  translates : ¬ TranslationAborts m ea
  whole : ∀ gra, guestBackmap m ea (wordAt m.garbage 0) = .ok (.none, gra) → gra < m.ram.pmemBytes →
    ea.toNat % 4096 + n.toNat ≤ 4096 ∧ gra.toNat + n.toNat ≤ m.ram.pmemBytes.toNat

/-- `guest_from_x` and `guest_to_x` of an object of `n` bytes move all of it or answer ERR_BAD_ACCESS. -/
structure ScalarTotal (m : Machine) (ea n : W32) : Prop where
  load : ∀ buf, (∃ buf', guestFrom m buf ea n n = .ok (.badAccess, buf')) ∨
    ∃ gra, guestBackmap m ea (wordAt m.garbage 0) = .ok (.none, gra) ∧
      guestFrom m buf ea n n = .ok (.none, buf.put 0 n.toNat fun k =>
        m.host (scalarHa (guestIsLittle m.guest) m.ram gra n + BitVec.ofNat 32 k))
  store : ∀ src, (∃ m', guestTo m ea src n n = .ok (.badAccess, m')) ∨
    ∃ gra, guestBackmap m ea (wordAt m.garbage 0) = .ok (.none, gra) ∧
      guestTo m ea src n n = .ok (.none, { m with
        host := m.host.put (scalarHa (guestIsLittle m.guest) m.ram gra n) n.toNat src })

/-- The test for a direct-store segment compares a bit of the highest place with 1. -/
theorem segment_test (x : W32) : ¬ x &&& SR_T = 1 := by
  intro set
  have low : x &&& SR_T &&& 1 = 0 := by
    rw [BitVec.and_assoc, show SR_T &&& 1 = (0 : W32) by decide]
    simp
  rw [set] at low
  exact absurd low (by decide)

theorem guestBatFault_total (guest : Guest) (ea flags : W32) :
    (∃ err, guestBatFault guest ea flags = .ok err) ↔ ¬ BatAborts guest ea := by
  simp only [guestBatFault, bind_ok, bugOn_ok, not_not, if_neg (segment_test _), pure_ok, Except.ok.injEq, BatAborts,
    not_or, not_exists, not_and]
  constructor
  · rintro ⟨_, _, known, _, zero, _, two, _, four, _, six, _⟩
    refine ⟨known, ?_⟩
    rintro i (rfl | rfl | rfl | rfl)
    · exact zero
    · exact two
    · exact four
    · exact six
  · rintro ⟨known, clear⟩
    have zero := clear 0 (.inl rfl)
    have two := clear 2 (.inr (.inl rfl))
    have four := clear 4 (.inr (.inr (.inl rfl)))
    have six := clear 6 (.inr (.inr (.inr rfl)))
    exact ⟨_, (), known, (), zero, (), two, (), four, (), six, rfl⟩

theorem guestBackmap_total : (∃ answer, guestBackmap m ea gra = .ok answer) ↔ ¬ TranslationAborts m ea := by
  simp only [guestBackmap, guestBackmapEx, true_and]
  split
  · rename_i off
    refine iff_of_true ?_ fun aborts => off aborts.on
    split
    · exact ⟨_, rfl⟩
    · exact ⟨_, rfl⟩
  · rename_i on
    split
    · rename_i mapped
      exact iff_of_true ⟨_, rfl⟩ fun aborts => mapped aborts.unmapped
    · rename_i unmapped
      split
      · rename_i magic
        exact iff_of_true ⟨_, rfl⟩ fun aborts => aborts.tables magic
      · rename_i tables
        have bats := guestBatFault_total m.guest ea 0
        constructor
        · rintro ⟨answer, looked⟩ aborts
          simp only [bind_ok] at looked
          obtain ⟨err, bat, _⟩ := looked
          exact bats.mp ⟨err, bat⟩ aborts.bats
        · intro clear
          obtain ⟨err, bat⟩ := bats.mpr fun hit => clear ⟨not_not.mp on, not_not.mp unmapped, tables, hit⟩
          rw [bat]
          simp only [ok_bind, pure_ok]
          split
          · exact ⟨_, rfl⟩
          · exact ⟨_, rfl⟩

theorem scalar_whole (inside : gra < p.pmemBytes) (size : AccessSize n) (some : 0 < bytes.toNat)
    (most : bytes.toNat ≤ n.toNat)
    (whole : (if gra + bytes > p.pmemBytes then p.pmemBytes - gra else bytes) % n = 0) :
    bytes = n ∧ InRam p gra n n := by
  have top := p.below_top
  have below := BitVec.lt_def.mp inside
  have pages := p.size_aligned
  have small : n.toNat ≤ 4 := by rcases size with rfl | rfl | rfl <;> decide
  have sum : (gra + bytes).toNat = gra.toNat + bytes.toNat := by
    rw [BitVec.toNat_add]
    omega
  have left : (p.pmemBytes - gra).toNat = p.pmemBytes.toNat - gra.toNat :=
    BitVec.toNat_sub_of_le (BitVec.le_of_lt inside)
  have remainder := congrArg BitVec.toNat whole
  rw [BitVec.toNat_umod] at remainder
  have divides := Nat.dvd_of_mod_eq_zero remainder
  have fits : ¬ gra + bytes > p.pmemBytes := by
    intro beyond
    have past := BitVec.lt_def.mp beyond
    rw [sum] at past
    rw [if_pos beyond, left] at divides
    have large := Nat.le_of_dvd (by omega) divides
    omega
  rw [if_neg fits] at divides
  have large := Nat.le_of_dvd some divides
  have bound := BitVec.le_def.mp (BitVec.not_lt.mp fits)
  rw [sum] at bound
  exact ⟨BitVec.eq_of_toNat_eq (by omega), size, Nat.mod_self _, by omega⟩

theorem one_element (size : AccessSize n) : (n / n).toNat = 1 := by
  rcases size with rfl | rfl | rfl <;> decide

theorem pmemTo_scalar (little : Bool) (host : Host) (src : Buf) (h : InRam p gra n n) :
    pmemTo little p host gra src n n = .ok (n, host.put (scalarHa little p gra n) n.toNat src) := by
  cases little with
  | false => exact pmemTo_big h
  | true =>
    rw [pmemTo_little h, one_element h.size, pmemToLoop_succ h.size]
    simp only [pmemToLoop, scalarHa, if_true, Nat.zero_add, BitVec.add_zero]

theorem pmemFromEx_scalar (little : Bool) (host : Host) (buf : Buf) (h : InRam p gra n n) :
    pmemFromEx little p host buf 0 gra n n 0 =
      .ok (n, buf.put 0 n.toNat fun k => host (scalarHa little p gra n + BitVec.ofNat 32 k)) := by
  cases little with
  | false => exact pmemFromEx_big h
  | true =>
    have plain : decide ((0 : W32) &&& PMEM_FROM_NUL_TERM ≠ 0) = false := by decide
    rw [pmemFromEx_little h (by decide), plain, one_element h.size, pmemFromLoop_succ h.size]
    simp only [pmemFromLoop, loopResult, scalarHa, if_true, Bool.false_eq_true, false_and, if_false, Nat.zero_add,
      BitVec.add_zero]

theorem AccessSize.ne_zero (size : AccessSize n) : n ≠ 0 := by
  rcases size with rfl | rfl | rfl <;> decide

theorem xferSizeAt_scalar (whole : ea.toNat % 4096 + n.toNat ≤ 4096) : xferSizeAt ea n = n := by
  refine BitVec.eq_of_toNat_eq ?_
  rw [toNat_xferSizeAt]
  omega

theorem guestToLoop_ends {count : W32} {host' : Host}
    (looked : guestBackmap m ea (wordAt m.garbage 0) = .ok (.none, gra))
    (stored : pmemTo (guestIsLittle m.guest) m.ram m.host gra src (xferSizeAt ea n) n = .ok (count, host'))
    (ends : count ≠ xferSizeAt ea n ∨ n - count = 0) :
    guestToLoop m ea src n n = .ok (n - count, { m with host := host' }) := by
  rw [guestToLoop]
  simp only [looked, ok_bind, ne_eq, not_true_eq_false, if_false, stored, dif_pos ends, pure_ok]

theorem guestFromLoop_ends {count : W32} {copied : Buf}
    (looked : guestBackmap m ea (wordAt m.garbage 0) = .ok (.none, gra))
    (loaded : pmemFromEx (guestIsLittle m.guest) m.ram m.host buf 0 gra (xferSizeAt ea n) n 0 = .ok (count, copied))
    (ends : count ≠ xferSizeAt ea n ∨ n - count = 0) :
    guestFromLoop m buf 0 ea n n false = .ok (n - count, copied) := by
  rw [guestFromLoop]
  simp only [looked, ok_bind, ne_eq, not_true_eq_false, Bool.false_eq_true, if_false, loaded, dif_pos ends, pure_ok]

theorem guestTo_of_loop {left : W32} {m' : Machine} (looped : guestToLoop m ea src n n = .ok (left, m')) :
    guestTo m ea src n n = .ok (if left ≠ 0 then .badAccess else .none, m') := by
  rw [guestTo, looped]
  rfl

theorem guestFrom_of_loop {left : W32} {copied : Buf}
    (looped : guestFromLoop m buf 0 ea n n false = .ok (left, copied)) :
    guestFrom m buf ea n n = .ok (if left ≠ 0 then .badAccess else .none, copied) := by
  have some : n - left ≠ n ↔ left ≠ 0 := not_congr sub_eq_self
  simp only [guestFrom, guestFromEx, Bool.false_eq_true, false_and, bugOn_false not_false, ok_bind, looped, pure_ok,
    some]

theorem ScalarFits.frame (fits : ScalarFits m ea n) (host : Host) : ScalarFits { m with host } ea n :=
  ⟨fun aborts => fits.translates ⟨aborts.on, aborts.unmapped, aborts.tables, aborts.bats⟩, fits.whole⟩

theorem ScalarFits.quiet (fits : ScalarFits m ea n) (host : Host) (os : Os) (handles : List Ihandle) (xferBuf : Buf) :
    ScalarFits { m with host, os, rom := { m.rom with knownIhandles := handles, xferBuf } } ea n :=
  ⟨fun aborts => fits.translates ⟨aborts.on, aborts.unmapped, aborts.tables, aborts.bats⟩, fits.whole⟩

theorem ScalarFits.stored (size : AccessSize n) (fits : ScalarFits m ea n)
    (looked : guestBackmap m ea (wordAt m.garbage 0) = .ok (.none, gra)) (inside : gra < m.ram.pmemBytes) (src : Buf) :
    guestTo m ea src n n = .ok (.none, { m with
      host := m.host.put (scalarHa (guestIsLittle m.guest) m.ram gra n) n.toNat src }) := by
  obtain ⟨page, ram⟩ := fits.whole gra looked inside
  have moved := pmemTo_scalar (guestIsLittle m.guest) m.host src ⟨size, Nat.mod_self _, ram⟩
  have turn := guestToLoop_ends (n := n) looked (by rw [xferSizeAt_scalar page]; exact moved) (.inr (sub_self n))
  rw [sub_self] at turn
  exact guestTo_of_loop turn

theorem ScalarFits.loaded (size : AccessSize n) (fits : ScalarFits m ea n)
    (looked : guestBackmap m ea (wordAt m.garbage 0) = .ok (.none, gra)) (inside : gra < m.ram.pmemBytes) (buf : Buf) :
    guestFrom m buf ea n n = .ok (.none, buf.put 0 n.toNat fun k =>
      m.host (scalarHa (guestIsLittle m.guest) m.ram gra n + BitVec.ofNat 32 k)) := by
  obtain ⟨page, ram⟩ := fits.whole gra looked inside
  have moved := pmemFromEx_scalar (guestIsLittle m.guest) m.host buf ⟨size, Nat.mod_self _, ram⟩
  have turn := guestFromLoop_ends (n := n) looked (by rw [xferSizeAt_scalar page]; exact moved) (.inr (sub_self n))
  rw [sub_self] at turn
  exact guestFrom_of_loop turn

theorem ScalarFits.outside (fits : ScalarFits m ea n)
    (nowhere : ¬ ∃ gra, guestBackmap m ea (wordAt m.garbage 0) = .ok (.none, gra) ∧ gra < m.ram.pmemBytes) :
    ∃ err gra, guestBackmap m ea (wordAt m.garbage 0) = .ok (err, gra) ∧ (err ≠ .none ∨ gra ≥ m.ram.pmemBytes) := by
  obtain ⟨⟨err, gra⟩, looked⟩ := guestBackmap_total.mpr fits.translates
  refine ⟨err, gra, looked, ?_⟩
  by_cases found : err = .none
  · subst found
    exact .inr (BitVec.not_lt.mp fun inside => nowhere ⟨gra, looked, inside⟩)
  · exact .inl found

theorem ScalarFits.store_refused (size : AccessSize n) (fits : ScalarFits m ea n)
    (nowhere : ¬ ∃ gra, guestBackmap m ea (wordAt m.garbage 0) = .ok (.none, gra) ∧ gra < m.ram.pmemBytes) (src : Buf) :
    guestTo m ea src n n = .ok (.badAccess, m) := by
  obtain ⟨err, gra, looked, outside⟩ := fits.outside nowhere
  have stored := guestTo_of_loop (guestToLoop_unreached looked outside src n n)
  rw [if_pos size.ne_zero] at stored
  exact stored

theorem ScalarFits.load_refused (size : AccessSize n) (fits : ScalarFits m ea n)
    (nowhere : ¬ ∃ gra, guestBackmap m ea (wordAt m.garbage 0) = .ok (.none, gra) ∧ gra < m.ram.pmemBytes) (buf : Buf) :
    guestFrom m buf ea n n = .ok (.badAccess, buf) := by
  obtain ⟨err, gra, looked, outside⟩ := fits.outside nowhere
  have loaded := guestFrom_of_loop (guestFromLoop_unreached looked outside buf 0 n n false)
  rw [if_pos size.ne_zero] at loaded
  exact loaded

theorem ScalarFits.total (size : AccessSize n) (fits : ScalarFits m ea n) : ScalarTotal m ea n := by
  by_cases there : ∃ gra, guestBackmap m ea (wordAt m.garbage 0) = .ok (.none, gra) ∧ gra < m.ram.pmemBytes
  · obtain ⟨gra, looked, inside⟩ := there
    exact ⟨fun buf => .inr ⟨gra, looked, fits.loaded size looked inside buf⟩,
      fun src => .inr ⟨gra, looked, fits.stored size looked inside src⟩⟩
  · exact ⟨fun buf => .inl ⟨buf, fits.load_refused size there buf⟩,
      fun src => .inl ⟨m, fits.store_refused size there src⟩⟩

theorem guestTo_fits {err : Err} {m' : Machine} (size : AccessSize n) (stored : guestTo m ea src n n = .ok (err, m')) :
    ScalarFits m ea n := by
  simp only [guestTo, bind_ok] at stored
  obtain ⟨_, looped, _⟩ := stored
  rw [guestToLoop] at looped
  simp only [bind_ok] at looped
  obtain ⟨answer, looked, looped⟩ := looped
  refine ⟨guestBackmap_total.mp ⟨answer, looked⟩, fun gra found inside => ?_⟩
  obtain rfl := Except.ok.inj (looked.symm.trans found)
  simp only [ne_eq, not_true_eq_false, if_false, bind_ok] at looped
  obtain ⟨_, moved, _⟩ := looped
  rw [pmemTo, if_neg (BitVec.not_le.mpr inside)] at moved
  simp only [bind_ok, bugOn_ok, not_not] at moved
  obtain ⟨_, whole, _⟩ := moved
  have count := toNat_xferSizeAt ea n
  have pos := size.pos
  obtain ⟨same, scalar⟩ := scalar_whole inside size (by omega) (by omega) whole
  rw [same] at count
  exact ⟨by omega, scalar.bound⟩

/-- A scalar access moves the whole object or answers ERR_BAD_ACCESS just when it does not end in
    `guest_bat_fault` and stays in its page and in RAM. -/
theorem scalar_total_iff (m : Machine) (ea : W32) (size : AccessSize n) : ScalarTotal m ea n ↔ ScalarFits m ea n := by
  constructor
  · intro total
    rcases total.store fun _ => 0 with ⟨m', stored⟩ | ⟨gra, _, stored⟩
    · exact guestTo_fits size stored
    · exact guestTo_fits size stored
  · exact fun fits => fits.total size

theorem real_mode_lookup (little : Bool) (host : Host) (gra : W32) (inside : ea.toNat < 0x2000) :
    guestBackmap (realModeGuest little host) ea gra = .ok (.none, ea) := by
  have off : (0 : W32) &&& MSR_MMU_ON ≠ MSR_MMU_ON := by decide
  have valid : pmemGraValid (realModeGuest little host).ram ea = true :=
    decide_eq_true (BitVec.lt_def.mpr inside)
  exact (if_pos off).trans (if_pos valid)

theorem real_mode_fits (little : Bool) (host : Host) (inside : ea.toNat < 0x2000) :
    ScalarFits (realModeGuest little host) ea n ↔ ea.toNat % 4096 + n.toNat ≤ 4096 ∧ ea.toNat + n.toNat ≤ 0x2000 := by
  have looked := real_mode_lookup little host (wordAt (realModeGuest little host).garbage 0) inside
  constructor
  · exact fun fits => fits.whole ea looked (BitVec.lt_def.mpr inside)
  · refine fun whole => ⟨guestBackmap_total.mp ⟨_, looked⟩, fun gra found _ => ?_⟩
    obtain ⟨_, rfl⟩ := Prod.mk.inj (Except.ok.inj (looked.symm.trans found))
    exact whole

theorem real_mode_word : ScalarTotal (realModeGuest true fun _ => 0) 0xffc 4 :=
  (scalar_total_iff _ _ (.inr (.inr rfl))).mpr ((real_mode_fits _ _ (by decide)).mpr (by decide))

/-- A word over the end of a page aborts. -/
theorem split_word_aborts : ¬ ∀ (m : Machine) (ea n : W32), AccessSize n → ScalarTotal m ea n := by
  intro always
  have size : AccessSize 4 := .inr (.inr rfl)
  rcases (always (realModeGuest false fun _ => 0) 0xffe 4 size).store fun _ => 0 with ⟨_, stored⟩ | ⟨_, _, stored⟩
  · exact absurd ((real_mode_fits _ _ (by decide)).mp (guestTo_fits size stored)) (by decide)
  · exact absurd ((real_mode_fits _ _ (by decide)).mp (guestTo_fits size stored)) (by decide)

end ToyHv
