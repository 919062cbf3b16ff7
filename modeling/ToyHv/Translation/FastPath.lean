import ToyHv.Emulation.Context
import ToyHv.Emulation.Execute
import ToyHv.Library.Cache
import ToyHv.Library.Runs
import ToyHv.Rom.Calls
import ToyHv.Translation.Backmap
import ToyHv.Translation.RomRanges

namespace ToyHv
open Library

structure MmuRange.Paged (r : MmuRange) : Prop where
  base : r.base.toNat % 4096 = 0
  limit : r.limit.toNat % 4096 = 4095
  ra : r.ra.toNat % 4096 = 0

/-- The host page the ROM's table puts behind a guest page, if it is in RAM. -/
def romPage (p : Pmem) (table : List MmuRange) (page : W32) : Option W32 :=
  match romFault table page 0 0 with
  | (.none, gra) => if gra < p.pmemBytes ∧ page.toNat % 4096 = 0 then some (p.pmem + gra) else none
  | _ => none

/-- What may be mapped with translation on: the ROM's pages, while SDR1 asks for them. -/
def translationOf (m : Machine) (page : W32) : Option W32 :=
  if m.guest.sdr1 = SDR1_MAGIC_ROM_MODE then romPage m.ram m.rom.romMmuRanges page else none

/-- The kernel's mappings in the MMU-on context are a cache of the ROM's translation. -/
structure FastPath (m : Machine) : Prop where
  coherent : CoherentGuest m
  context : m.guest.vmm = .mmuOn ↔ m.guest.msr &&& MSR_MMU_ON = MSR_MMU_ON
  laminar : RomLaminar m.rom.romMmuRanges
  paged : ∀ r ∈ m.rom.romMmuRanges, r.Paged
  sound : Sound (m.mapped .mmuOn) (translationOf m)

theorem romPage_eq_some {p : Pmem} {table : List MmuRange} {page ha : W32} :
    romPage p table page = some ha ↔ page.toNat % 4096 = 0 ∧
      ∃ r, mmuRangeFind table page = some r ∧ page - r.base + r.ra < p.pmemBytes ∧
        ha = p.pmem + (page - r.base + r.ra) := by
  unfold romPage romFault
  cases found : mmuRangeFind table page with
  | none => simp
  | some r =>
    simp only [Option.ite_none_right_eq_some, Option.some.injEq, exists_eq_left']
    tauto

theorem pageOf_of_aligned {ea : W32} (aligned : ea.toNat % 4096 = 0) : pageOf ea = ea :=
  BitVec.eq_of_toNat_eq (by rw [pageOf, toNat_page_base, aligned, Nat.sub_zero])

theorem MmuRange.Paged.covers_page {r : MmuRange} (paged : r.Paged) (ea : W32) :
    r.Covers (pageOf ea) ↔ r.Covers ea := by
  have base := paged.base
  have limit := paged.limit
  have page := toNat_page_base ea
  simp only [MmuRange.Covers, BitVec.le_def, pageOf, page]
  omega

theorem romFault_in_page {table : List MmuRange} {ea : W32} (laminar : RomLaminar table)
    (paged : ∀ r ∈ table, r.Paged) {r : MmuRange} (found : mmuRangeFind table (pageOf ea) = some r) (gra flags : W32) :
    romFault table ea gra flags = (.none, pageOf ea - r.base + r.ra + (ea &&& PAGE_MASK)) := by
  obtain ⟨member, covers⟩ := mmuRangeFind_some found
  have here := ((paged r member).covers_page ea).mp covers
  unfold romFault
  cases direct : mmuRangeFind table ea with
  | none => exact absurd here ((mmuRangeFind_none _ _).mp direct r member)
  | some s =>
    obtain ⟨present, there⟩ := mmuRangeFind_some direct
    have split : ea = pageOf ea + (ea &&& PAGE_MASK) := by
      apply BitVec.eq_of_toNat_eq
      rw [BitVec.toNat_add, pageOf, toNat_page_base, toNat_page_offset]
      have top := ea.isLt
      omega
    simp only [Prod.mk.injEq, true_and]
    calc ea - s.base + s.ra = ea - r.base + r.ra := translate_eq laminar present member there here
      _ = (pageOf ea + (ea &&& PAGE_MASK)) - r.base + r.ra := by rw [← split]
      _ = _ := by bv_omega

theorem mmuRangeAdd_keeps {mem : Bool} {p : Pmem} {table table' : List MmuRange} {base limit ra flags : W32}
    (laminar : RomLaminar table) (added : mmuRangeAdd mem table base limit ra flags = .ok table') :
    Sound (romPage p table) (romPage p table') := by
  obtain ⟨ordered, scanned⟩ := mmuRangeAdd_ok added
  have members := mmuRangeScan_mem scanned
  intro page ha answer
  obtain ⟨aligned, r, found, valid, rfl⟩ := romPage_eq_some.mp answer
  obtain ⟨member, covers⟩ := mmuRangeFind_some found
  have kept := (members r).mpr (.inr member)
  refine romPage_eq_some.mpr ⟨aligned, ?_⟩
  cases now : mmuRangeFind table' page with
  | none => exact absurd covers ((mmuRangeFind_none _ _).mp now r kept)
  | some s =>
    obtain ⟨present, there⟩ := mmuRangeFind_some now
    have same := translate_eq (mmuRangeScan_laminar laminar scanned) present kept there covers
    exact ⟨s, rfl, by rw [same]; exact valid, by rw [same]⟩

theorem pmemGra_pmem {p : Pmem} {ra : W32} (inside : ra < p.pmemBytes) (gra : W32) :
    pmemGra p (p.pmem + ra) gra = (.none, ra) := by
  have bound := BitVec.lt_def.mp inside
  have top := p.below_top
  have address : (p.pmem + ra).toNat = p.pmem.toNat + ra.toNat := by
    rw [BitVec.toNat_add]
    omega
  have last : (p.pmem + p.pmemBytes).toNat = p.pmem.toNat + p.pmemBytes.toNat := by
    rw [BitVec.toNat_add]
    omega
  have within : p.pmem + ra ≥ p.pmem ∧ p.pmem + ra < p.pmem + p.pmemBytes :=
    ⟨BitVec.le_def.mpr (by omega), BitVec.lt_def.mpr (by omega)⟩
  rw [pmemGra, if_pos within, add_sub_cancel_left]

theorem page_inside {p : Pmem} {g : W32} (page : g.toNat % 4096 = 0) (inside : g < p.pmemBytes) (ea : W32) :
    g + (ea &&& PAGE_MASK) < p.pmemBytes := by
  have offset := toNat_page_offset ea
  have size := p.size_aligned
  have bound := BitVec.lt_def.mp inside
  have top := p.pmemBytes.isLt
  rw [BitVec.lt_def, BitVec.toNat_add, offset]
  omega

theorem MmuRange.Paged.translates_page {r : MmuRange} (paged : r.Paged) {page : W32} (covers : r.Covers page)
    (aligned : page.toNat % 4096 = 0) : (page - r.base + r.ra).toNat % 4096 = 0 := by
  have base := paged.base
  have ra := paged.ra
  rw [BitVec.toNat_add, BitVec.toNat_sub_of_le covers.1]
  omega

variable {m m' : Machine}

theorem FastPath.answers (inv : FastPath m) (on : m.guest.msr &&& MSR_MMU_ON = MSR_MMU_ON) {ea : W32}
    (cached : vmmGetPageMapping m m.guest.vmm ea ≠ -1) (gra gra' flags : W32) :
    ∃ out, pmemGra m.ram (vmmGetPageMapping m m.guest.vmm ea + (ea &&& PAGE_MASK)) gra = (.none, out) ∧
      guestBackmap m ea gra = .ok (.none, out) ∧ guestBackmapEx m ea gra' false flags = .ok (.none, out) := by
  have context := inv.context.mpr on
  cases entry : m.mapped .mmuOn (pageOf ea) with
  | none => exact absurd (by rw [vmmGetPageMapping, context, entry]; rfl) cached
  | some ha =>
    have mapping : vmmGetPageMapping m m.guest.vmm ea = ha := by
      rw [vmmGetPageMapping, context, entry, Option.getD_some]
    have answer := inv.sound _ _ entry
    rw [translationOf] at answer
    split at answer
    · rename_i magic
      obtain ⟨aligned, r, found, valid, rfl⟩ := romPage_eq_some.mp answer
      have whole := inv.paged r (mmuRangeFind_some found).1
      have page := whole.translates_page (mmuRangeFind_some found).2 aligned
      have slow := romFault_in_page inv.laminar inv.paged found gra' flags
      have fast := pmemGra_pmem (page_inside page valid ea) gra
      rw [← BitVec.add_assoc] at fast
      rw [mapping] at cached
      refine ⟨_, by rw [mapping]; exact fast, ?_, ?_⟩
      · rw [guestBackmap, guestBackmapEx, if_neg (not_not.mpr on)]
        simp only [mapping, true_and, if_pos cached, fast]
      · rw [guestBackmapEx, if_neg (not_not.mpr on)]
        simp only [Bool.false_eq_true, false_and, if_false, if_pos magic, slow]
    · cases answer

/-- What leaves the ROM's translation alone may only drop mappings, or all of them when SDR1
    stops asking for the ROM. -/
theorem FastPath.frame (inv : FastPath m) (coherent : CoherentGuest m')
    (context : m'.guest.vmm = .mmuOn ↔ m'.guest.msr &&& MSR_MMU_ON = MSR_MMU_ON) (ram : m'.ram = m.ram)
    (table : m'.rom.romMmuRanges = m.rom.romMmuRanges)
    (mapped : ∀ page ha, m'.mapped .mmuOn page = some ha →
      m.mapped .mmuOn page = some ha ∧ (m.guest.sdr1 = SDR1_MAGIC_ROM_MODE → m'.guest.sdr1 = SDR1_MAGIC_ROM_MODE)) :
    FastPath m' := by
  refine ⟨coherent, context, by rw [table]; exact inv.laminar, by rw [table]; exact inv.paged, ?_⟩
  intro page ha cached
  obtain ⟨older, magic⟩ := mapped page ha cached
  have answer := inv.sound page ha older
  rw [translationOf] at answer ⊢
  split at answer
  · rename_i was
    rw [if_pos (magic was), ram, table]
    exact answer
  · cases answer

theorem MsrSet.fastPath {msr : W32} (inv : FastPath m) (set : MsrSet m msr m') : FastPath m' := by
  obtain ⟨page, same⟩ := set.others
  refine inv.frame set.coherent ?_ (by rw [same]) (by rw [same]) fun page ha cached => ?_
  · rw [set.guest, ← (msr_mmu_iff set.agree).1, contextOf]
    by_cases on : msr &&& MSR_IR = 0 <;> simp [on]
  · rw [set.mapped] at cached
    exact ⟨cached, fun magic => by rw [set.guest]; exact magic⟩

theorem FastPath.setRegs (inv : FastPath m) (regs : Regs) : FastPath (m.setRegs regs) :=
  inv.frame inv.coherent.setRegs inv.context rfl rfl fun _ _ cached => ⟨cached, id⟩

theorem FastPath.fault {isi accepted : Bool} {err : Err} (inv : FastPath m)
    (handled : guestFault m isi accepted = .ok (err, m')) : FastPath m' := by
  rcases guestFault_ok handled with rfl | ⟨gea, gra, flags, answer, inside, aligned, rfl⟩
  · exact inv
  by_cases on : m.guest.vmm = .mmuOn
  · refine ⟨⟨inv.coherent.context, inv.coherent.regs⟩, inv.context, inv.laminar, inv.paged, ?_⟩
    have page := (isAligned_page gea).mp aligned
    rcases guestBackmapEx_slow answer with ⟨off, _⟩ | ⟨_, magic, translated⟩
    · exact absurd (inv.context.mp on) off
    · have host : translationOf m (pageOf gea) = some (m.ram.pmem + gra) := by
        rw [translationOf, if_pos magic, pageOf_of_aligned page]
        unfold romFault at translated
        split at translated
        · cases translated
        · rename_i r found
          obtain ⟨_, rfl⟩ := Prod.mk.inj translated
          exact romPage_eq_some.mpr ⟨page, r, found, inside, rfl⟩
      have filled := inv.sound.fill host
      rw [on]
      change Sound (Function.update m.mapped .mmuOn _ .mmuOn) _
      rw [Function.update_self]
      exact filled
  · refine inv.frame ⟨inv.coherent.context, inv.coherent.regs⟩ inv.context rfl rfl fun page ha cached => ⟨?_, id⟩
    have other : ∀ pages, Function.update m.mapped m.guest.vmm pages .mmuOn = m.mapped .mmuOn :=
      fun pages => Function.update_of_ne (Ne.symm on) ..
    exact (congrFun (other _) page).symm.trans cached

theorem FastPath.call {mem : Bool} {cia ciaIn ciaOut : W32} {err : Err} (inv : FastPath m)
    (handled : romCallmethod mem m cia ciaIn ciaOut = .ok (err, m')) : FastPath m' := by
  obtain ⟨host, rom, rfl, same | ⟨mem, e, accepted, phys, virt, added⟩⟩ := romCallmethod_ok handled
  · exact inv.frame ⟨inv.coherent.context, inv.coherent.regs⟩ inv.context rfl same fun _ _ cached => ⟨cached, id⟩
  · obtain ⟨ordered, scanned⟩ := mmuRangeAdd_ok added
    have members := mmuRangeScan_mem scanned
    refine ⟨⟨inv.coherent.context, inv.coherent.regs⟩, inv.context, mmuRangeScan_laminar inv.laminar scanned, ?_, ?_⟩
    · intro r member
      rcases (members r).mp member with rfl | older
      · have base := (isAligned_page e.virt).mp virt
        have size := toNat_alignDown_page e.size
        have limit : e.limit.toNat = (e.virt.toNat + (alignDown e.size PAGE_SIZE).toNat + (2^32 - 1)) % 2^32 := by
          rw [MapRequest.limit, BitVec.toNat_sub, BitVec.toNat_add]
          simp only [BitVec.ofNat_eq_ofNat, BitVec.toNat_ofNat]
          omega
        refine ⟨base, ?_, (isAligned_page e.phys).mp phys⟩
        change e.limit.toNat % 4096 = 4095
        omega
      · exact inv.paged r older
    · refine inv.sound.trans ?_
      intro page ha answer
      rw [translationOf] at answer
      split at answer
      · rename_i magic
        exact (if_pos magic).trans (mmuRangeAdd_keeps inv.laminar added page ha answer)
      · cases answer

theorem FastPath.write {reg : SupReg} {value : W32} (inv : FastPath m) (written : writeSup m value reg = .ok m') :
    FastPath m' := by
  cases reg with
  | msr => exact (guestSetMsr_ok inv.coherent written).fastPath inv
  | sdr1 =>
    simp only [writeSup, Except.ok.injEq] at written
    subst written
    split
    · refine inv.frame ⟨inv.coherent.context, inv.coherent.regs⟩ inv.context rfl rfl fun page ha cached => ?_
      simp [guestUnmapAll] at cached
    · rename_i kept
      refine inv.frame ⟨inv.coherent.context, inv.coherent.regs⟩ inv.context rfl rfl fun page ha cached => ⟨cached, ?_⟩
      intro magic
      by_contra leaving
      exact kept ⟨leaving, magic⟩
  | pvr | dbat i | srr0 | srr1 | ibat i | sprg i | sr i =>
    simp only [writeSup, Except.ok.injEq] at written
    subst written
    exact inv.frame ⟨inv.coherent.context, inv.coherent.regs⟩ inv.context rfl rfl fun _ _ cached => ⟨cached, id⟩

theorem FastPath.unmap (inv : FastPath m) (ea : W32) : FastPath (guestUnmap m ea) := by
  refine ⟨⟨inv.coherent.context, inv.coherent.regs⟩, inv.context, inv.laminar, inv.paged, ?_⟩
  have evicted := inv.sound.evict (pageOf ea)
  change Sound (Function.update m.mapped .mmuOn _ .mmuOn) _
  rw [Function.update_self]
  exact evicted

theorem FastPath.unmapAll (inv : FastPath m) : FastPath (guestUnmapAll m) := by
  refine ⟨⟨inv.coherent.context, inv.coherent.regs⟩, inv.context, inv.laminar, inv.paged, ?_⟩
  change Sound (Function.update m.mapped .mmuOn _ .mmuOn) _
  rw [Function.update_self]
  exact .empty

theorem FastPath.execute {insn : Insn} (inv : FastPath m) (executed : execute m insn = .ok m') : FastPath m' := by
  obtain ⟨w, regs, rfl, rfl | ⟨reg, value, written⟩ | rfl | ⟨ea, rfl⟩⟩ := execute_ok executed
  · exact inv.setRegs regs
  · exact (inv.write written).setRegs regs
  · exact inv.unmapAll.setRegs regs
  · exact (inv.unmap ea).setRegs regs

theorem FastPath.emulate {err : Err} (inv : FastPath m) (emulated : guestEmulate m = .ok (err, m')) : FastPath m' := by
  rcases guestEmulate_ok emulated with rfl | ⟨host, pc, rfl⟩ | ⟨insn, executed⟩
  · exact inv
  · have stored : FastPath { m with host } :=
      inv.frame ⟨inv.coherent.context, inv.coherent.regs⟩ inv.context rfl rfl fun _ _ cached => ⟨cached, id⟩
    exact stored.setRegs _
  · exact inv.execute executed

theorem FastPath.start {env : InitEnv} {boot : BootEnv} {page : VmmPtr → VmmPage} {host : Host} {os : Os}
    {garbage : Buf} {little : Bool} {ramSize : W32}
    (inited : guestInit env (Machine.start page host os garbage) little ramSize = .ok (.none, m))
    (booted : romInit boot m = .ok (.none, m')) : FastPath m' := by
  obtain ⟨vmm, regs, msr, unmapped⟩ := guestInit_ok inited
  obtain ⟨boot⟩ := romInit_ok booted
  have fresh := (romInitRanges_ok boot.setup).2
  obtain ⟨ordered, table⟩ := fresh.mmu
  rw [← boot.table_eq] at table
  obtain ⟨host, page, same⟩ := boot.done
  have guest : m'.guest = m.guest := by rw [same]
  have mapped : m'.mapped = m.mapped := by rw [same]
  constructor
  · exact ⟨by rw [guest, vmm]; decide, by rw [guest, vmm, regs]⟩
  · rw [guest, vmm, msr]
    decide
  · rw [table]
    exact ⟨by simp, by simp⟩
  · rw [table]
    intro r member
    obtain rfl := List.mem_singleton.mp member
    have size := m.ram.size_aligned
    have large := fresh.large
    have top := m.ram.pmemBytes.isLt
    refine ⟨rfl, ?_, rfl⟩
    change (m.ram.pmemBytes - 1).toNat % 4096 = 4095
    rw [BitVec.toNat_sub]
    simp only [BitVec.ofNat_eq_ofNat, BitVec.toNat_ofNat]
    omega
  · rw [mapped, unmapped]
    exact .empty

/-- What happens to the guest, one at a time: it runs, a fault or an instruction of it is handled,
    it calls a method of the ROM, or the monitor toggles single-stepping. -/
inductive GuestEvent
  | run
  | fault (isi accepted : Bool)
  | emulate
  | callMethod (mem : Bool) (cia ciaIn ciaOut : W32)
  | toggleSs

/-- Running, and everything else the hypervisor does, leaves `guest_t`, RAM's extent and the ROM's
    table alone. Meanwhile the kernel may evict pages. -/
inductive GuestStep (m : Machine) : GuestEvent → Machine → Prop
  | run {v : Machine} (guest : v.guest = m.guest) (ram : v.ram = m.ram)
      (table : v.rom.romMmuRanges = m.rom.romMmuRanges)
      (evicted : ∀ context, Sound (v.mapped context) (m.mapped context)) : GuestStep m .run v
  | fault {isi accepted : Bool} {err : Err} {v : Machine} (handled : guestFault m isi accepted = .ok (err, v)) :
      GuestStep m (.fault isi accepted) v
  | emulate {err : Err} {v : Machine} (emulated : guestEmulate m = .ok (err, v)) : GuestStep m .emulate v
  | callMethod {mem : Bool} {cia ciaIn ciaOut : W32} {err : Err} {v : Machine}
      (handled : romCallmethod mem m cia ciaIn ciaOut = .ok (err, v)) : GuestStep m (.callMethod mem cia ciaIn ciaOut) v
  | toggleSs {on : Bool} {v : Machine} (toggled : guestToggleSs m = .ok (on, v)) : GuestStep m .toggleSs v

theorem FastPath.step {event : GuestEvent} (inv : FastPath m) (step : GuestStep m event m') : FastPath m' := by
  cases step with
  | run guest ram table evicted =>
    refine inv.frame ⟨by rw [guest]; exact inv.coherent.context, by rw [guest]; exact inv.coherent.regs⟩
      (by rw [guest]; exact inv.context) ram table fun page ha cached => ⟨evicted _ page ha cached, ?_⟩
    rw [guest]
    exact id
  | fault handled => exact inv.fault handled
  | emulate emulated => exact inv.emulate emulated
  | callMethod handled => exact inv.call handled
  | toggleSs toggled =>
    have stepping : FastPath { m with guest := { m.guest with monMsr := m.guest.monMsr ^^^ MSR_SE } } :=
      inv.frame ⟨inv.coherent.context, inv.coherent.regs⟩ inv.context rfl rfl fun _ _ cached => ⟨cached, id⟩
    exact (guestSetMsr_ok stepping.coherent (guestToggleSs_ok toggled)).fastPath stepping

theorem FastPath.reachable {env : InitEnv} {boot : BootEnv} {page : VmmPtr → VmmPage} {host : Host} {os : Os}
    {garbage : Buf} {little : Bool} {ramSize : W32} {s t : Machine} {history : List GuestEvent}
    (inited : guestInit env (Machine.start page host os garbage) little ramSize = .ok (.none, m))
    (booted : romInit boot m = .ok (.none, s)) (run : Run GuestStep s history t) : FastPath t := by
  refine run.invariant (I := fun _ t => FastPath t) (FastPath.start inited booted) ?_
  exact fun _ _ _ _ inv step => inv.step step

/-- In every state the hypervisor reaches, the kernel's mapping of a page answers exactly as the
    slow path does, and nothing stays mapped with translation on once SDR1 left ROM mode. -/
theorem fast_path_agrees {env : InitEnv} {boot : BootEnv} {page : VmmPtr → VmmPage} {host : Host} {os : Os}
    {garbage : Buf} {little : Bool} {ramSize : W32} {m s t : Machine} {history : List GuestEvent}
    (inited : guestInit env (Machine.start page host os garbage) little ramSize = .ok (.none, m))
    (booted : romInit boot m = .ok (.none, s)) (run : Run GuestStep s history t) :
    (∀ ea gra gra' flags, t.guest.msr &&& MSR_MMU_ON = MSR_MMU_ON → vmmGetPageMapping t t.guest.vmm ea ≠ -1 →
      ∃ out, pmemGra t.ram (vmmGetPageMapping t t.guest.vmm ea + (ea &&& PAGE_MASK)) gra = (.none, out) ∧
        guestBackmap t ea gra = .ok (.none, out) ∧ guestBackmapEx t ea gra' false flags = .ok (.none, out)) ∧
    (t.guest.sdr1 ≠ SDR1_MAGIC_ROM_MODE → ∀ page, t.mapped .mmuOn page = none) := by
  have inv := FastPath.reachable inited booted run
  refine ⟨fun ea gra gra' flags on cached => inv.answers on cached gra gra' flags, fun left page => ?_⟩
  cases entry : t.mapped .mmuOn page with
  | none => rfl
  | some ha =>
    have answer := inv.sound page ha entry
    rw [translationOf, if_neg left] at answer
    cases answer

theorem faulted_page_is_fast : ∃ t, vmmGetPageMapping t t.guest.vmm 0x5004 ≠ -1 ∧ ∃ out,
    guestBackmap t 0x5004 0 = .ok (.none, out) ∧ guestBackmapEx t 0x5004 0 false 0 = .ok (.none, out) := by
  obtain ⟨m, s, plain⟩ := plain_boot
  let returnParams : Fin 4 → W32 := fun i => if i = 0 then 0x5000 else DSISR_NOT_PRESENT
  let v : Machine := { s with page := fun _ => { zeroPage with returnParams } }
  have on : s.guest.msr &&& MSR_MMU_ON = MSR_MMU_ON := by rw [plain.msr]; decide
  have found : romFault s.rom.romMmuRanges 0x5000 (wordAt v.garbage 0) 0 = (.none, 0x5000) := by rw [plain.table]; rfl
  have slow : guestBackmapEx v 0x5000 (wordAt v.garbage 0) false 0 = .ok (.none, 0x5000) := by
    rw [guestBackmapEx, if_neg (not_not.mpr on)]
    simp only [Bool.false_eq_true, false_and, if_false, v, if_pos plain.sdr1, found]
  have ha : pmemHa v.ram 0x5000 = .ok 0x5000 := by
    simp only [v, pmemHa, plain.size, plain.pmem]
    rfl
  obtain ⟨t, handled, guest, mapped⟩ : ∃ t, guestFault v false true = .ok (.none, t) ∧ t.guest = s.guest ∧
      t.mapped .mmuOn 0x5000 = some 0x5000 := by
    have gea : (v.page v.guest.vmm).returnParams 0 &&& ~~~PAGE_MASK = 0x5000 :=
      show (0x5000 : W32) &&& ~~~PAGE_MASK = 0x5000 by decide
    have dsisr : (v.page v.guest.vmm).returnParams 1 = DSISR_NOT_PRESENT := rfl
    have permitted : ¬ DSISR_NOT_PRESENT &&& DSISR_BAD_PERM ≠ 0 := by decide
    have absent : DSISR_NOT_PRESENT &&& DSISR_NOT_PRESENT ≠ 0 := by decide
    have load : ¬ DSISR_NOT_PRESENT &&& DSISR_STORE ≠ 0 := by decide
    have flags : ((if false = true then GUEST_FAULT_ON_ISI else 0) ||| 0 : W32) = 0 := rfl
    simp only [guestFault, gea, dsisr, bugOn_false permitted, if_pos absent, if_neg load, flags, slow, ha, ok_bind]
    refine ⟨_, rfl, rfl, ?_⟩
    change Function.update s.mapped s.guest.vmm _ .mmuOn 0x5000 = _
    rw [plain.context, Function.update_self]
    rfl
  have run := Run.snoc (.single (GuestStep.run (m := s) (v := v) rfl rfl rfl fun _ _ _ => id)) (GuestStep.fault handled)
  have cached : vmmGetPageMapping t t.guest.vmm 0x5004 = 0x5000 := by
    rw [guest, plain.context, vmmGetPageMapping]
    change (t.mapped .mmuOn 0x5000).getD (-1) = 0x5000
    rw [mapped]
    rfl
  have there : vmmGetPageMapping t t.guest.vmm 0x5004 ≠ -1 := by rw [cached]; decide
  obtain ⟨out, _, fast, slow⟩ :=
    (fast_path_agrees plain.inited plain.booted run).1 0x5004 0 0 0 (by rw [guest]; exact on) there
  exact ⟨t, there, out, fast, slow⟩

end ToyHv
