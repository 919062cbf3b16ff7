import ToyHv.Model.Pmem

namespace ToyHv

def SDR1_MAGIC_ROM_MODE : W32 := -1
def PVR_601 : W32 := 0x00010001
def HID0_601_RESET_VALUE : W32 := 0x80010080
def HID0_601_LM : W32 := ppcBits 28
def DSISR_NOT_PRESENT : W32 := ppcBits 1
def DSISR_BAD_PERM : W32 := ppcBits 4
def DSISR_STORE : W32 := ppcBits 6
def SR_T : W32 := ppcBits 0
def GUEST_FAULT_ON_ISI : W32 := 0x1
def GUEST_FAULT_ON_STORE : W32 := 0x2

def maskOutOrdered (value : W32) (larger smaller : ℕ) : W32 :=
  (value >>> smaller) &&& ((1#32 <<< (larger + 1 - smaller)) - 1#32)

/-- `PPC_MASK_OUT(value, a, b)`: the field from bit `a` to bit `b`, bit 0 the most significant. -/
def ppcMaskOut (value : W32) (a b : ℕ) : W32 :=
  maskOutOrdered value (max (31 - a) (31 - b)) (min (31 - a) (31 - b))

def srIndex (ea : W32) : W32 := ea >>> 28

def guestSetVmm (m : Machine) (mmuOn : Bool) : Machine :=
  let cur := m.guest.vmm
  let next := if mmuOn then VmmPtr.mmuOn else VmmPtr.mmuOff
  if cur = next then m
  else
    let page :=
      if cur ≠ .null then
        Function.update m.page next { m.page next with vmmProcState := (m.page cur).vmmProcState }
      else m.page
    { m with page, guest := { m.guest with vmm := next, regs := next } }

def guestSetMsr (m : Machine) (msr : W32) : Checked Machine := do
  let ir : Bool := msr &&& MSR_IR ≠ 0
  let dr : Bool := msr &&& MSR_DR ≠ 0
  bugOn ((ir ^^ dr) ≠ false) .inconsistentIrDr
  let m := guestSetVmm m (ir || dr)
  let m := m.setRegs { m.regs with ppcMSR := msr ||| m.guest.monMsr }
  return { m with guest := { m.guest with msr } }

/-- `guest_toggle_ss`: whether single-stepping is now on. -/
def guestToggleSs (m : Machine) : Checked (Bool × Machine) := do
  let m := { m with guest := { m.guest with monMsr := m.guest.monMsr ^^^ MSR_SE } }
  let m ← guestSetMsr m m.guest.msr
  return (m.guest.monMsr &&& MSR_SE ≠ 0, m)

/-- A page of host memory vm_allocate may hand out for a request of so many bytes. -/
abbrev Allocation (bytes : W32) := {ha : W32 // ha.toNat % 8 = 0 ∧ ha.toNat + bytes.toNat < 2^32}

/-- What the kernel answers while `guest_init` runs: the two state pages `vmm_init_vm`
    sets up, if it can, and what vm_allocate has for guest RAM. -/
structure InitEnv where
  offPage : Option VmmPage
  onPage : Option VmmPage
  allocate : (bytes : W32) → Option (Allocation bytes)

def pmemInit (env : InitEnv) (bytes : W32) : Err × Pmem :=
  match env.allocate (alignUp bytes PAGE_SIZE) with
  | some ha => (.none, ⟨ha.val, alignUp bytes PAGE_SIZE, ha.property.1, alignUp_page_mod bytes, ha.property.2⟩)
  | none => (.mach, ⟨0, 0, by decide, by decide, by decide⟩)

/-- `vmm_init_vm` into one of the guest's two contexts. A new context has no mappings. -/
def vmmInitVm (m : Machine) (answer : Option VmmPage) (context : VmmPtr) : Err × Machine :=
  match answer with
  | none => (.mach, m)
  | some page =>
    (.none, { m with
      page := Function.update m.page context page
      mapped := Function.update m.mapped context fun _ => none })

def Guest.zero : Guest :=
  { sdr1 := 0, pvr := 0, srr0 := 0, srr1 := 0, ubat := fun _ => 0, sr := fun _ => 0, sprg := fun _ => 0,
    hid0 := 0, msr := 0, monMsr := 0, vmm := .null, regs := .null }

def Rom.zero : Rom :=
  { knownIhandles := [], mmuIhandle := 0, memoryIhandle := 0, guestMemAvailRanges := [], guestMemRegRanges := [],
    romMmuRanges := [], cifTrampoline := 0, claimArenaStart := 0, claimArenaPtr := 0, claimArenaEnd := 0,
    stackStart := 0, stackEnd := 0, xferBuf := fun _ => 0 }

/-- The hypervisor as the program starts with it. No context exists yet and no RAM is allocated. -/
def Machine.start (page : VmmPtr → VmmPage) (host : Host) (os : Os) (garbage : Buf) : Machine :=
  { guest := Guest.zero, page, mapped := fun _ _ => none, ram := ⟨0, 0, by decide, by decide, by decide⟩, host,
    rom := Rom.zero, os, garbage }

def guestInit (env : InitEnv) (m : Machine) (little : Bool) (ramSize : W32) : Checked (Err × Machine) :=
  match vmmInitVm m env.offPage .mmuOff with
  | (.none, m) =>
    match vmmInitVm m env.onPage .mmuOn with
    | (.none, m) =>
      match pmemInit env ramSize with
      | (.none, ram) => do
        let guest :=
          { m.guest with
            pvr := PVR_601
            sr := fun i => BitVec.ofNat 32 i.val
            hid0 := if little then HID0_601_RESET_VALUE ||| HID0_601_LM else HID0_601_RESET_VALUE
            monMsr := if little then 0 ||| MSR_LE else 0
            sdr1 := SDR1_MAGIC_ROM_MODE }
        let m ← guestSetMsr { m with guest, ram } (MSR_ME ||| MSR_EP ||| MSR_MMU_ON)
        return (.none, m)
      | (err, ram) => return (err, { m with ram })
    | (err, m) => return (err, m)
  | (err, m) => return (err, m)

def pageOf (ea : W32) : W32 := ea &&& ~~~PAGE_MASK

/-- `guest_unmap`. The kernel forgets the page, if it had it. -/
def guestUnmap (m : Machine) (ea : W32) : Machine :=
  { m with mapped := Function.update m.mapped .mmuOn (Function.update (m.mapped .mmuOn) (pageOf ea) none) }

def guestUnmapAll (m : Machine) : Machine :=
  { m with mapped := Function.update m.mapped .mmuOn fun _ => none }

def guestMap (m : Machine) (accepted : Bool) (hostAddress ea : W32) : Checked (Err × Machine) := do
  bugOn (hostAddress &&& PAGE_MASK ≠ 0) .badAlignment
  bugOn (ea &&& PAGE_MASK ≠ 0) .badAlignment
  if accepted then
    let context := m.guest.vmm
    let pages := Function.update (m.mapped context) (pageOf ea) (some hostAddress)
    return (.none, { m with mapped := Function.update m.mapped context pages })
  else
    return (.mach, m)

/-- `guest_bat_fault`. It has no branch that sets `*gra` or looks at the flags. -/
def guestBatFault (guest : Guest) (ea _flags : W32) : Checked Err := do
  bugOn (guest.pvr ≠ PVR_601) .unsupportedBatHandling
  if guest.sr (Fin.ofNat 16 (srIndex ea).toNat) &&& SR_T = 1 then
    return .unsupported
  else
    let blpi := fun i : Fin 8 => ppcMaskOut (guest.ubat i) 0 14
    bugOn (blpi 0 = ppcMaskOut ea 0 14) .batHit
    bugOn (blpi 2 = ppcMaskOut ea 0 14) .batHit
    bugOn (blpi 4 = ppcMaskOut ea 0 14) .batHit
    bugOn (blpi 6 = ppcMaskOut ea 0 14) .batHit
    return .unsupported

/-- kVmmGetPageMapping: the host page last mapped under the page of `ea`, or -1. -/
def vmmGetPageMapping (m : Machine) (context : VmmPtr) (ea : W32) : W32 :=
  (m.mapped context (pageOf ea)).getD (-1)

/-- `guest_backmap_ex`: the error and what `*gra` holds afterwards. -/
def guestBackmapEx (m : Machine) (ea gra : W32) (tryFast : Bool) (flags : W32) : Checked (Err × W32) :=
  let offset := ea &&& PAGE_MASK
  if m.guest.msr &&& MSR_MMU_ON ≠ MSR_MMU_ON then
    if pmemGraValid m.ram ea then .ok (.none, ea) else .ok (.notFound, gra)
  else
    let haBase := vmmGetPageMapping m m.guest.vmm ea
    if tryFast ∧ haBase ≠ -1 then .ok (.none, (pmemGra m.ram (haBase + offset) gra).2)
    else if m.guest.sdr1 = SDR1_MAGIC_ROM_MODE then .ok (romFault m.rom.romMmuRanges ea gra flags)
    else do
      let err ← guestBatFault m.guest ea flags
      if err = .none then return (.none, gra) else return (.notFound, gra)

def guestBackmap (m : Machine) (ea gra : W32) : Checked (Err × W32) := guestBackmapEx m ea gra true 0

def guestFault (m : Machine) (isi accepted : Bool) : Checked (Err × Machine) := do
  let gea := (m.page m.guest.vmm).returnParams 0 &&& ~~~PAGE_MASK
  let dsisr := (m.page m.guest.vmm).returnParams 1
  bugOn (dsisr &&& DSISR_BAD_PERM ≠ 0) .injectException
  if dsisr &&& DSISR_NOT_PRESENT ≠ 0 then
    let flags := (if isi then GUEST_FAULT_ON_ISI else 0) |||
      if dsisr &&& DSISR_STORE ≠ 0 then GUEST_FAULT_ON_STORE else 0
    let (err, gra) ← guestBackmapEx m gea (wordAt m.garbage 0) false flags
    bugOn (err = .perm) .injectException
    if err ≠ .none then
      return (err, m)
    else
      guestMap m accepted (← pmemHa m.ram gra) gea
  else
    return (.unsupported, m)

end ToyHv
