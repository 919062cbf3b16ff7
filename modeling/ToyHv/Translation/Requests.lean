import ToyHv.Memory.Strings
import ToyHv.Translation.Escape
import ToyHv.Translation.PageWise

namespace ToyHv
open Library

variable {m m' : Machine}

theorem writeSup_frame {reg : SupReg} {value : W32} (coherent : CoherentGuest m)
    (written : writeSup m value reg = .ok m') : m'.rom = m.rom ∧ m'.ram = m.ram := by
  cases reg with
  | msr =>
    obtain ⟨page, same⟩ := (guestSetMsr_ok coherent written).others
    rw [same]
    exact ⟨rfl, rfl⟩
  | sdr1 =>
    simp only [writeSup, Except.ok.injEq] at written
    subst written
    split
    all_goals exact ⟨rfl, rfl⟩
  | pvr | dbat i | srr0 | srr1 | ibat i | sprg i | sr i =>
    simp only [writeSup, Except.ok.injEq] at written
    subst written
    exact ⟨rfl, rfl⟩

theorem execute_frame {insn : Insn} (coherent : CoherentGuest m) (executed : execute m insn = .ok m') :
    m'.rom = m.rom ∧ m'.ram = m.ram := by
  obtain ⟨w, regs, rfl, rfl | ⟨reg, value, written⟩ | rfl | ⟨ea, rfl⟩⟩ := execute_ok executed
  · exact ⟨rfl, rfl⟩
  · have frame := writeSup_frame coherent written
    exact ⟨frame.1, frame.2⟩
  · exact ⟨rfl, rfl⟩
  · exact ⟨rfl, rfl⟩

theorem GuestStep.table {event : GuestEvent} (coherent : CoherentGuest m) (step : GuestStep m event m') :
    m'.ram = m.ram ∧ MayMap m.ram m.rom.romMmuRanges m'.rom.romMmuRanges := by
  cases step with
  | run guest ram table evicted => exact ⟨ram, .inl table⟩
  | fault handled =>
    rcases guestFault_ok handled with rfl | ⟨_, _, _, _, _, _, rfl⟩
    all_goals exact ⟨rfl, .inl rfl⟩
  | emulate emulated =>
    rcases guestEmulate_ok emulated with rfl | ⟨host, pc, rfl⟩ | ⟨insn, executed⟩
    · exact ⟨rfl, .inl rfl⟩
    · exact ⟨rfl, .inl rfl⟩
    · obtain ⟨rom, ram⟩ := execute_frame coherent executed
      exact ⟨ram, .inl (by rw [rom])⟩
  | callMethod handled =>
    obtain ⟨host, rom, rfl, mapped⟩ := romCallmethod_ok handled
    exact ⟨rfl, mapped⟩
  | toggleSs toggled =>
    have stepping : CoherentGuest { m with guest := { m.guest with monMsr := m.guest.monMsr ^^^ MSR_SE } } :=
      ⟨coherent.context, coherent.regs⟩
    obtain ⟨page, same⟩ := (guestSetMsr_ok stepping (guestToggleSs_ok toggled)).others
    rw [same]
    exact ⟨rfl, .inl rfl⟩

theorem MayMap.identity {p : Pmem} {table table' : List MmuRange} (mapped : MayMap p table table')
    (identity : HasIdentity p table) : HasIdentity p table' := by
  rcases mapped with rfl | ⟨mem, e, _, _, _, added⟩
  · exact identity
  · obtain ⟨ordered, scanned⟩ := mmuRangeAdd_ok added
    obtain ⟨r, member, shape⟩ := identity
    exact ⟨r, (mmuRangeScan_mem scanned r).mpr (.inr member), shape⟩

theorem reachable_table {env : InitEnv} {boot : BootEnv} {page : VmmPtr → VmmPage} {host : Host} {os : Os}
    {garbage : Buf} {little : Bool} {ramSize : W32} {s t : Machine} {history : List GuestEvent}
    (inited : guestInit env (Machine.start page host os garbage) little ramSize = .ok (.none, m))
    (booted : romInit boot m = .ok (.none, s)) (run : Run GuestStep s history t) :
    RomLaminar t.rom.romMmuRanges ∧ HasIdentity t.ram t.rom.romMmuRanges := by
  have inv : FastPath t ∧ HasIdentity t.ram t.rom.romMmuRanges := by
    refine run.invariant (I := fun _ t => FastPath t ∧ HasIdentity t.ram t.rom.romMmuRanges) ?_ ?_
    · refine ⟨FastPath.start inited booted, ?_⟩
      obtain ⟨boot⟩ := romInit_ok booted
      have table := MapTable.fresh (romInitRanges_ok boot.setup).2
      rw [← boot.table_eq] at table
      rw [boot.rom_eq.2]
      exact table.identity
    · intro _ t e u ⟨fast, identity⟩ step
      obtain ⟨ram, mapped⟩ := step.table fast.coherent
      rw [ram]
      exact ⟨fast.step step, mapped.identity identity⟩
  exact ⟨inv.1.laminar, inv.2⟩

/-- Where a table puts an address. -/
def Translated (table : List MmuRange) (ea out : W32) : Prop := ∀ gra flags, romFault table ea gra flags = (.none, out)

theorem translated_iff {table : List MmuRange} {ea out : W32} (laminar : RomLaminar table) :
    Translated table ea out ↔ ∃ r ∈ table, r.Covers ea ∧ ea - r.base + r.ra = out := by
  constructor
  · intro translated
    have answer := translated 0 0
    unfold romFault at answer
    split at answer
    · cases answer
    · rename_i r found
      obtain ⟨member, covers⟩ := mmuRangeFind_some found
      exact ⟨r, member, covers, (Prod.mk.inj answer).2⟩
  · rintro ⟨r, member, covers, rfl⟩ gra flags
    cases found : mmuRangeFind table ea with
    | none => exact absurd covers ((mmuRangeFind_none _ _).mp found r member)
    | some s =>
      obtain ⟨present, there⟩ := mmuRangeFind_some found
      simp only [romFault, found, translate_eq laminar present member there covers]

theorem MapRequest.run_none {mem : Bool} {p : Pmem} {rom rom' : Rom} {e : MapRequest}
    (handled : e.run mem p rom = .ok (.none, rom')) : e.Accepted p ∨ e.phys = e.virt := by
  by_cases same : e.phys = e.virt
  · exact .inr same
  · by_cases inside : pmemGraValid p e.phys = true
    · exact .inl ⟨same, inside⟩
    · simp only [run, romMmuMap, bind_ok] at handled
      obtain ⟨_, _, handled⟩ := handled
      rw [if_neg same, if_pos inside] at handled
      cases handled

/-- How many bytes of a request get a range of their own: whole pages, and none for the identity. -/
def MapRequest.ranged (e : MapRequest) : ℕ := if e.phys = e.virt then 0 else (alignDown e.size PAGE_SIZE).toNat

def MapRequest.Honoured (table : List MmuRange) (e : MapRequest) (first : ℕ) : Prop :=
  ∀ k, first ≤ k → k < e.size.toNat → e.virt.toNat + k < 2^32 →
    Translated table (e.virt + BitVec.ofNat 32 k) (e.phys + BitVec.ofNat 32 k)

theorem MapRequest.covers_iff {p : Pmem} {table table' : List MmuRange} {mem : Bool} {e : MapRequest}
    (ordered : e.virt < e.limit)
    (laminar : RomLaminar table) (identity : HasIdentity p table) (displaced : e.phys ≠ e.virt)
    (added : mmuRangeAdd mem table e.virt e.limit e.phys 0 = .ok table') {k : ℕ} (top : e.virt.toNat + k < 2^32) :
    (⟨e.virt, e.limit, e.phys, 0, ordered⟩ : MmuRange).Covers (e.virt + BitVec.ofNat 32 k) ↔ k < e.ranged := by
  obtain ⟨_, scanned⟩ := mmuRangeAdd_ok added
  have member := (mmuRangeScan_mem scanned _).mpr (.inl rfl)
  obtain ⟨r, present, shape⟩ := identity
  have kept := (mmuRangeScan_mem scanned r).mpr (.inr present)
  have still := mmuRangeScan_laminar laminar scanned
  have exact := MapRequest.limit_exact still ⟨r, kept, shape⟩ displaced member rfl rfl rfl
  have address : (e.virt + BitVec.ofNat 32 k).toNat = e.virt.toNat + k := by
    rw [BitVec.toNat_add, BitVec.toNat_ofNat]
    omega
  rw [ranged, if_neg displaced]
  simp only [MmuRange.Covers, BitVec.le_def, address]
  change e.limit.toNat + 1 = e.virt.toNat + _ at exact
  omega

theorem mmuRangeAdd_translates {mem : Bool} {table table' : List MmuRange} {base limit ra flags : W32}
    (laminar : RomLaminar table) (added : mmuRangeAdd mem table base limit ra flags = .ok table') {ea out : W32}
    (before : Translated table ea out) : Translated table' ea out := by
  obtain ⟨_, scanned⟩ := mmuRangeAdd_ok added
  obtain ⟨r, member, covers, same⟩ := (translated_iff laminar).mp before
  have kept := (mmuRangeScan_mem scanned r).mpr (.inr member)
  exact (translated_iff (mmuRangeScan_laminar laminar scanned)).mpr ⟨r, kept, covers, same⟩

theorem MapRequest.translated_iff {p : Pmem} {table table' : List MmuRange} {mem : Bool} {e : MapRequest}
    (laminar : RomLaminar table) (identity : HasIdentity p table) (displaced : e.phys ≠ e.virt)
    (added : mmuRangeAdd mem table e.virt e.limit e.phys 0 = .ok table') {k : ℕ} (top : e.virt.toNat + k < 2^32) :
    Translated table' (e.virt + BitVec.ofNat 32 k) (e.phys + BitVec.ofNat 32 k) ↔
      k < e.ranged ∨ Translated table (e.virt + BitVec.ofNat 32 k) (e.phys + BitVec.ofNat 32 k) := by
  obtain ⟨ordered, scanned⟩ := mmuRangeAdd_ok added
  have covered := covers_iff ordered laminar identity displaced added top
  rw [ToyHv.translated_iff (mmuRangeScan_laminar laminar scanned)]
  constructor
  · rintro ⟨r, member, covers, same⟩
    rcases (mmuRangeScan_mem scanned r).mp member with rfl | older
    · exact .inl (covered.mp covers)
    · exact .inr ((ToyHv.translated_iff laminar).mpr ⟨r, older, covers, same⟩)
  · rintro (new | before)
    · refine ⟨_, (mmuRangeScan_mem scanned _).mpr (.inl rfl), covered.mpr new, ?_⟩
      change e.virt + BitVec.ofNat 32 k - e.virt + e.phys = e.phys + BitVec.ofNat 32 k
      rw [add_sub_cancel_left, add_comm]
    · exact (ToyHv.translated_iff (mmuRangeScan_laminar laminar scanned)).mp
        (mmuRangeAdd_translates laminar added before)

theorem MapRequest.run_honoured {mem : Bool} {p : Pmem} {rom rom' : Rom} {e : MapRequest}
    (laminar : RomLaminar rom.romMmuRanges) (identity : HasIdentity p rom.romMmuRanges)
    (handled : e.run mem p rom = .ok (.none, rom')) :
    (∀ ea out, Translated rom.romMmuRanges ea out → Translated rom'.romMmuRanges ea out) ∧
    (e.Honoured rom'.romMmuRanges 0 ↔ e.Honoured rom.romMmuRanges e.ranged) := by
  rcases e.run_ok handled with ⟨refused, rfl⟩ | ⟨accepted, _, _, ranges, added, rfl⟩
  · have same : e.phys = e.virt := (e.run_none handled).resolve_left refused
    rw [ranged, if_pos same]
    exact ⟨fun _ _ before => before, Iff.rfl⟩
  · refine ⟨fun ea out before => mmuRangeAdd_translates laminar added before, ?_⟩
    constructor
    · intro honoured k first last top
      have after := (translated_iff laminar identity accepted.1 added top).mp (honoured k (Nat.zero_le k) last top)
      exact after.resolve_left (Nat.not_lt.mpr first)
    · intro honoured k _ last top
      apply (translated_iff laminar identity accepted.1 added top).mpr
      rcases Nat.lt_or_ge k e.ranged with new | behind
      · exact .inl new
      · exact .inr (honoured k behind last top)

/-- The request is the one in the argument cells of a "map" call. -/
structure MapRequest.Given (e : MapRequest) (m : Machine) (call : Buf) (cia ciaIn : W32) : Prop where
  named : strcmpEq "map" call = true
  mode : ciaCell m cia ciaIn 2 = .ok (.none, e.mode)
  size : ciaCell m cia ciaIn 3 = .ok (.none, e.size)
  virt : ciaCell m cia ciaIn 4 = .ok (.none, e.virt)
  phys : ciaCell m cia ciaIn 5 = .ok (.none, e.phys)

theorem MapRequest.Given.run {e : MapRequest} {call : Buf} {cia ciaIn : W32} {mem : Bool} {err : Err}
    (given : e.Given m call cia ciaIn) (handled : romMmuCall mem m call cia ciaIn = .ok (err, m')) :
    ∃ rom, e.run mem m.ram m.rom = .ok (err, rom) ∧ m' = { m with rom } := by
  obtain ⟨named, mode, size, virt, phys⟩ := given
  simp only [romMmuCall, named, if_true, mode, size, virt, phys, ok_bind, ne_eq, not_true_eq_false, if_false, bind_ok,
    pure_ok, Except.ok.injEq, Prod.mk.injEq] at handled
  obtain ⟨⟨_, rom⟩, mapped, rfl, rfl⟩ := handled
  exact ⟨rom, mapped, rfl⟩

theorem MapRequest.Given.run_call {e : MapRequest} {call : Buf} {cia ciaIn : W32} {mem : Bool} {err : Err} {rom : Rom}
    (given : e.Given m call cia ciaIn) (handled : e.run mem m.ram m.rom = .ok (err, rom)) :
    romMmuCall mem m call cia ciaIn = .ok (err, { m with rom }) := by
  obtain ⟨named, mode, size, virt, phys⟩ := given
  simp only [romMmuCall, named, if_true, mode, size, virt, phys, ok_bind, ne_eq, not_true_eq_false, if_false]
  exact congrArg (fun x => x >>= fun r => pure (r.1, { m with rom := r.2 })) handled

/-- A successful map request leaves every translation alone, and translates all it was asked for
    exactly when what is behind its whole pages translates that way already. -/
theorem map_request_honoured_iff {env : InitEnv} {boot : BootEnv} {page : VmmPtr → VmmPage} {host : Host} {os : Os}
    {garbage : Buf} {little : Bool} {ramSize : W32} {s t u : Machine} {history : List GuestEvent}
    (inited : guestInit env (Machine.start page host os garbage) little ramSize = .ok (.none, m))
    (booted : romInit boot m = .ok (.none, s)) (run : Run GuestStep s history t)
    {e : MapRequest} {mem : Bool} {call : Buf} {cia ciaIn : W32} (given : e.Given t call cia ciaIn)
    (handled : romMmuCall mem t call cia ciaIn = .ok (.none, u)) :
    (∀ ea out, Translated t.rom.romMmuRanges ea out → Translated u.rom.romMmuRanges ea out) ∧
    (e.Honoured u.rom.romMmuRanges 0 ↔ e.Honoured t.rom.romMmuRanges e.ranged) := by
  obtain ⟨laminar, identity⟩ := reachable_table inited booted run
  obtain ⟨rom, mapped, rfl⟩ := given.run handled
  exact e.run_honoured laminar identity mapped

theorem rom_mode_maps {ea : W32} {n : ℕ} (on : m.guest.msr &&& MSR_MMU_ON = MSR_MMU_ON)
    (magic : m.guest.sdr1 = SDR1_MAGIC_ROM_MODE) (unmapped : ∀ context page, m.mapped context page = none)
    (laminar : RomLaminar m.rom.romMmuRanges) (identity : HasIdentity m.ram m.rom.romMmuRanges)
    (inside : ∀ i < n, ea + BitVec.ofNat 32 i < m.ram.pmemBytes) : Maps m id ea n := by
  have answers : ∀ a gra, guestBackmap m a gra = .ok (romFault m.rom.romMmuRanges a gra 0) := by
    intro a gra
    have missing : vmmGetPageMapping m m.guest.vmm a = -1 := by
      rw [vmmGetPageMapping, unmapped]
      rfl
    simp only [guestBackmap, guestBackmapEx, on, missing, magic, ne_eq, not_true_eq_false, if_false, and_false, if_true]
  refine ⟨fun gra => ⟨_, answers ea gra⟩, ?_, ?_, ?_⟩
  · intro i bound gra
    obtain ⟨r, member, base, limit, ra⟩ := identity
    have covers : r.Covers (ea + BitVec.ofNat 32 i) := by
      have below := BitVec.lt_def.mp (inside i bound)
      refine ⟨by rw [base, BitVec.le_def]; exact Nat.zero_le _, ?_⟩
      rw [limit, BitVec.le_def, BitVec.toNat_sub]
      simp only [BitVec.ofNat_eq_ofNat, BitVec.toNat_ofNat]
      omega
    have translated := (translated_iff laminar).mpr ⟨r, member, covers, rfl⟩
    rw [answers, translated, realOf_id, base, ra, sub_zero, add_zero]
  · intro i _
    rw [isAligned_page, id_eq, toNat_pageOf]
    omega
  · intro i bound
    have below := BitVec.lt_def.mp (inside i bound)
    rw [id_eq, BitVec.lt_def, toNat_pageOf]
    omega

/-- From `plain_boot`, the guest's RAM can come to hold any words, with any handles open. -/
structure PlainBoot.Reached (s : Machine) (words : ℕ → W32) (knownIhandles : List Ihandle) (os : Os) (t : Machine) :
    Prop where
  run : Run GuestStep s [.run] t
  guest : t.guest = s.guest
  ram : t.ram = s.ram
  rom : t.rom = { s.rom with knownIhandles }
  os : t.os = os
  word : ∀ i < 0x800000, guestFromX t (wordAt t.garbage 0) (BitVec.ofNat 32 (4 * i)) = .ok (.none, words i)
  page : ∀ ea : W32, ea.toNat < 0x2000000 → guestPage t ea = some (pageOf ea)
  beyond : ∀ ea : W32, 0x2000000 ≤ ea.toNat → guestPage t ea = none

def Machine.filled (m : Machine) (words : ℕ → W32) (knownIhandles : List Ihandle) (os : Os) : Machine :=
  { m with
    mapped := fun _ _ => none
    host := wordsAt m.ram words
    rom := { m.rom with knownIhandles }
    os }

theorem PlainBoot.filled_run (words : ℕ → W32) (knownIhandles : List Ihandle) (os : Os) :
    Run GuestStep m' [.run] (m'.filled words knownIhandles os) :=
  .single (.run rfl rfl rfl fun _ => .empty)

/-- A guest of `plain_boot` that has lost its pages finds all its RAM through the ROM's table. -/
theorem PlainBoot.maps (plain : PlainBoot m m') (t : Machine) (guest : t.guest = m'.guest) (ram : t.ram = m'.ram)
    (rom : t.rom.romMmuRanges = m'.rom.romMmuRanges) (unmapped : ∀ context page, t.mapped context page = none)
    {ea : W32} {n : ℕ} (bound : ea.toNat + n ≤ 0x2000000) : Maps t id ea n := by
  have on : t.guest.msr &&& MSR_MMU_ON = MSR_MMU_ON := by rw [guest, plain.msr]; decide
  have evicted : ∀ context, Sound (t.mapped context) (m'.mapped context) := by
    intro context page ha cached
    rw [unmapped] at cached
    cases cached
  have table := reachable_table plain.inited plain.booted (.single (.run guest ram rom evicted))
  refine rom_mode_maps on (by rw [guest]; exact plain.sdr1) unmapped table.1 table.2 fun k byte => ?_
  rw [ram, plain.size, BitVec.lt_def, BitVec.toNat_add, BitVec.toNat_ofNat]
  change _ < 0x2000000
  omega

theorem PlainBoot.filled_maps (plain : PlainBoot m m') (words : ℕ → W32) (knownIhandles : List Ihandle) (os : Os)
    {ea : W32} {n : ℕ} (bound : ea.toNat + n ≤ 0x2000000) : Maps (m'.filled words knownIhandles os) id ea n :=
  plain.maps (m'.filled words knownIhandles os) rfl rfl rfl (fun _ _ => rfl) bound

theorem filled_byte (m : Machine) (words : ℕ → W32) (knownIhandles : List Ihandle) (os : Os) {a : ℕ}
    (bound : a < 2^32) :
    (m.filled words knownIhandles os).host (m.ram.pmem + BitVec.ofNat 32 a) = wordBytes (words (a / 4)) (a % 4) :=
  wordsAt_byte m.ram words bound

theorem PlainBoot.reaches (plain : PlainBoot m m') (words : ℕ → W32) (knownIhandles : List Ihandle) (os : Os) :
    PlainBoot.Reached m' words knownIhandles os (m'.filled words knownIhandles os) := by
  have map : ∀ {ea : W32} {n : ℕ}, ea.toNat + n ≤ 0x2000000 → Maps (m'.filled words knownIhandles os) id ea n :=
    plain.filled_maps words knownIhandles os
  refine ⟨filled_run _ _ _, rfl, rfl, rfl, rfl, ?_, ?_, ?_⟩
  · intro i bound
    have start : (BitVec.ofNat 32 (4 * i)).toNat = 4 * i := by
      rw [BitVec.toNat_ofNat]
      omega
    have big : guestIsLittle (m'.filled words knownIhandles os).guest = false := plain.big
    apply guestFromX_big _ big (by omega) (map (n := 4) (by omega))
    intro k byte
    rw [realOf_id, ← BitVec.ofNat_add]
    exact wordsAt_cell m'.ram words byte (by omega)
  · intro ea bound
    have base := toNat_pageOf ea
    have inside : Maps (m'.filled words knownIhandles os) id (pageOf ea) 1 := map (by omega)
    have answer := inside.answers 0 (by decide) 0
    have valid := inside.inside 0 (by decide)
    have same : pageOf (pageOf ea) = pageOf ea := pageOf_of_aligned (pageOf_aligned ea)
    rw [BitVec.add_zero, realOf_id] at answer
    rw [BitVec.add_zero, id_eq, same] at valid
    rw [guestPage, answer]
    simp only [if_pos valid]
  · intro ea bound
    have base := toNat_pageOf ea
    have absent : mmuRangeFind m'.rom.romMmuRanges (pageOf ea) = none := by
      apply (mmuRangeFind_none _ _).mpr
      rw [plain.table]
      intro r member covers
      obtain rfl := List.mem_singleton.mp member
      have last : (pageOf ea).toNat ≤ 0x1ffffff := BitVec.le_def.mp covers.2
      omega
    have answer : guestBackmap (m'.filled words knownIhandles os) (pageOf ea) 0 = .ok (.notFound, 0) := by
      have on : m'.guest.msr &&& MSR_MMU_ON = MSR_MMU_ON := by rw [plain.msr]; decide
      have missing : ∀ vmm, vmmGetPageMapping (m'.filled words knownIhandles os) vmm (pageOf ea) = -1 := fun _ => rfl
      simp only [guestBackmap, guestBackmapEx, missing]
      simp only [Machine.filled, on, plain.sdr1, romFault, absent, ne_eq, not_true_eq_false, if_false, and_false,
        if_true]
    rw [guestPage, answer]

theorem PlainBoot.fetches (plain : PlainBoot m m') (words : ℕ → W32) (knownIhandles : List Ihandle) (os : Os)
    (buf : Buf) {n : ℕ} (short : n < 4096) (text : ∀ i < n, wordBytes (words ((0x1000 + i) / 4)) ((0x1000 + i) % 4) ≠ 0)
    (ended : wordBytes (words ((0x1000 + n) / 4)) ((0x1000 + n) % 4) = 0) :
    ∃ d, guestFromEx (m'.filled words knownIhandles os) buf 0x1000 PAGE_SIZE 1 true = .ok (BitVec.ofNat 32 n, d) ∧
      ∀ i < n, d i = wordBytes (words ((0x1000 + i) / 4)) ((0x1000 + i) % 4) := by
  have map : Maps (m'.filled words knownIhandles os) id 0x1000 PAGE_SIZE.toNat :=
    plain.filled_maps words knownIhandles os (by decide)
  have big : guestIsLittle (m'.filled words knownIhandles os).guest = false := plain.big
  have byte : ∀ i < 4096, guestBytes (m'.filled words knownIhandles os) id 0x1000 i =
      wordBytes (words ((0x1000 + i) / 4)) ((0x1000 + i) % 4) := by
    intro i bound
    rw [guestBytes, big, realOf_id, ← filled_byte m' words knownIhandles os (by omega), BitVec.ofNat_add]
    rfl
  obtain ⟨d, loaded, copied⟩ := guestFromEx_string big buf map short
    (fun i low => by rw [byte i (by omega)]; exact text i low) ((byte n short).trans ended)
  exact ⟨d, loaded, fun i low => (copied i low).trans (byte i (by omega))⟩

theorem PlainBoot.request (plain : PlainBoot m m') (e : MapRequest) :
    ∃ t call cia ciaIn, Run GuestStep m' [.run] t ∧ t.ram = m'.ram ∧ t.rom = m'.rom ∧ e.Given t call cia ciaIn := by
  have reached := plain.reaches
    (fun i => if i = 5 then e.mode else if i = 6 then e.size else if i = 7 then e.virt else e.phys)
    m'.rom.knownIhandles m'.os
  refine ⟨_, fun i => (cString "map").getD i 0, 0, 6, reached.run, reached.ram, reached.rom, ?_⟩
  exact ⟨by decide, reached.word 5 (by decide), reached.word 6 (by decide), reached.word 7 (by decide),
    reached.word 8 (by decide)⟩

theorem PlainBoot.request_page (plain : PlainBoot m m') (size : W32) (page : alignDown size PAGE_SIZE = 0x1000) :
    ∃ t call cia ciaIn u, Run GuestStep m' [.run] t ∧
      (⟨0x1000, 0xf0000000, size, -1⟩ : MapRequest).Given t call cia ciaIn ∧
      romMmuCall true t call cia ciaIn = .ok (.none, u) ∧
      u.rom.romMmuRanges = [⟨0, 0x1ffffff, 0, 0, by decide⟩, ⟨0xf0000000, 0xf0000fff, 0x1000, 0, by decide⟩] := by
  obtain ⟨t, call, cia, ciaIn, run, ram, rom, given⟩ := plain.request ⟨0x1000, 0xf0000000, size, -1⟩
  have valid : pmemGraValid t.ram 0x1000 = true := by
    rw [pmemGraValid, ram, plain.size]
    decide
  have displaced : (0x1000 : W32) ≠ 0xf0000000 := by decide
  have limit : (⟨0x1000, 0xf0000000, size, -1⟩ : MapRequest).limit = 0xf0000fff := by
    simp only [MapRequest.limit, page]
    decide
  have added : mmuRangeAdd true t.rom.romMmuRanges 0xf0000000
      (⟨0x1000, 0xf0000000, size, -1⟩ : MapRequest).limit 0x1000 0 =
      .ok [⟨0, 0x1ffffff, 0, 0, by decide⟩, ⟨0xf0000000, 0xf0000fff, 0x1000, 0, by decide⟩] := by
    rw [rom, plain.table, limit]
    exact plain_table_add 0xf0000fff 0x1000 (by decide)
  have phys : (0x1000 : W32) &&& PAGE_MASK = 0 := by decide
  have virt : (0xf0000000 : W32) &&& PAGE_MASK = 0 := by decide
  have handled := MapRequest.run_accepted (e := ⟨0x1000, 0xf0000000, size, -1⟩) ⟨displaced, valid⟩ rfl phys virt added
  exact ⟨t, call, cia, ciaIn, _, run, given, given.run_call handled, rfl⟩

theorem whole_page_honoured : ∃ u : Machine,
    (⟨0x1000, 0xf0000000, 0x1000, -1⟩ : MapRequest).Honoured u.rom.romMmuRanges 0 := by
  obtain ⟨m, s, plain⟩ := plain_boot
  obtain ⟨t, call, cia, ciaIn, u, run, given, handled, _⟩ := plain.request_page 0x1000 (by decide)
  refine ⟨u, (map_request_honoured_iff plain.inited plain.booted run given handled).2.mpr ?_⟩
  intro k first last
  exact absurd last (Nat.not_lt.mpr first)

/-- A page and a half maps the page only. -/
theorem half_page_not_mapped :
    ¬ ∀ (env : InitEnv) (boot : BootEnv) (page : VmmPtr → VmmPage) (host : Host) (os : Os) (garbage : Buf)
      (little : Bool) (ramSize : W32) (m s t u : Machine) (history : List GuestEvent) (e : MapRequest) (mem : Bool)
      (call : Buf) (cia ciaIn : W32),
      guestInit env (Machine.start page host os garbage) little ramSize = .ok (.none, m) →
      romInit boot m = .ok (.none, s) → Run GuestStep s history t → e.Given t call cia ciaIn →
      isAligned e.phys PAGE_SIZE → isAligned e.virt PAGE_SIZE → 1 ≤ e.size →
      romMmuCall mem t call cia ciaIn = .ok (.none, u) → e.Honoured u.rom.romMmuRanges 0 := by
  intro always
  obtain ⟨m, s, plain⟩ := plain_boot
  obtain ⟨t, call, cia, ciaIn, u, run, given, handled, table⟩ := plain.request_page 0x1800 (by decide)
  have honoured := always _ _ _ _ _ _ _ _ m s t u _ _ true call cia ciaIn plain.inited plain.booted run given
    (by decide) (by decide) (by decide) handled
  have tail := honoured 0x1000 (Nat.zero_le _) (by decide) (by decide) 0 0
  rw [table] at tail
  exact absurd (congrArg Prod.fst tail) (by decide)

end ToyHv
