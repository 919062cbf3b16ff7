import ToyHv.Model.MmuRanges
import ToyHv.Model.Ranges

namespace ToyHv

/-- Bytes behind a host pointer that is not into guest RAM, by offset. -/
abbrev Buf := Nat → W8

/-- Host memory, by host address. -/
abbrev Host := W32 → W8

def Buf.put (buf : Buf) (offset n : Nat) (src : Buf) : Buf :=
  fun i => if offset ≤ i ∧ i < offset + n then src (i - offset) else buf i

def Host.put (host : Host) (ha : W32) (n : Nat) (src : Buf) : Host :=
  fun a => if (a - ha).toNat < n then src (a - ha).toNat else host a

/-- The word a big-endian host reads at an offset, and the bytes it stores for one. -/
def wordAt (buf : Buf) (offset : Nat) : W32 :=
  buf offset ++ buf (offset + 1) ++ buf (offset + 2) ++ buf (offset + 3)

def wordBytes (w : W32) : Buf := fun i => (w >>> (8 * (3 - i))).setWidth 8

/-- The guest RAM `pmem_init` allocates: whole pages below the top of the address space.
    vm_allocate aligns them to a page, but nothing relies on more than a doubleword. -/
structure Pmem where
  pmem : W32
  pmemBytes : W32
  base_aligned : pmem.toNat % 8 = 0
  size_aligned : pmemBytes.toNat % 4096 = 0
  below_top : pmem.toNat + pmemBytes.toNat < 2^32

/-- `vmm_state_page_t *`: the two contexts `guest_init` makes, or NULL. -/
inductive VmmPtr | null | mmuOn | mmuOff
  deriving DecidableEq, Repr

/-! A number selects a register by its low bits. -/

instance neZero_four : NeZero 4 := ⟨by decide⟩
instance neZero_eight : NeZero 8 := ⟨by decide⟩
instance neZero_sixteen : NeZero 16 := ⟨by decide⟩
instance neZero_thirtyTwo : NeZero 32 := ⟨by decide⟩

/-- `vmm_regs32_t`. -/
structure Regs where
  ppcPC : W32
  ppcMSR : W32
  ppcGPRs : Fin 32 → W32
  ppcCR : W32
  ppcXER : W32
  ppcLR : W32
  ppcCTR : W32

/-- `vmm_processor_state_t`. -/
structure ProcState where
  ppcRegs : Regs
  ppcFPSCR : BitVec 64

/-- `vmm_state_page_t`. -/
structure VmmPage where
  returnParams : Fin 4 → W32
  vmmProcState : ProcState

/-- `guest_t`. The pointers `vmm_mmu_on` and `vmm_mmu_off` are the constants of `VmmPtr`;
    `regs` names the state page whose register block it points at. -/
structure Guest where
  sdr1 : W32
  pvr : W32
  srr0 : W32
  srr1 : W32
  ubat : Fin 8 → W32
  sr : Fin 16 → W32
  sprg : Fin 4 → W32
  hid0 : W32
  msr : W32
  monMsr : W32
  vmm : VmmPtr
  regs : VmmPtr

/-- `disk_part_t`. -/
structure DiskPart where
  off : W32
  length : W32
  deriving DecidableEq

/-- What an ihandle stands for: `ihandle_type_t` and the fields behind its methods. -/
inductive Device
  | console
  | file (fd : Nat)
  | disk (fd : Nat) (part : DiskPart) (currentOff : W32)
  deriving DecidableEq

/-- `ihandle_header_t` with its container. -/
structure Ihandle where
  value : W32
  device : Device
  deriving DecidableEq

/-- An open file: its position, and its bytes by offset. -/
structure OpenFile where
  position : Nat
  bytes : Nat → W8

/-- A system call that moved bytes of a file. -/
structure Transfer where
  fd : Nat
  off : Nat
  count : Nat
  deriving DecidableEq

/-- The operating system: open files, the results its calls are going to have, the
    transfers made so far and the two directions of the console. -/
structure Os where
  files : Nat → OpenFile
  results : Nat → Int
  calls : Nat
  transfers : List Transfer
  consoleIn : OpenFile
  consoleOut : List W8

/-- The statics of rom.c. -/
structure Rom where
  knownIhandles : List Ihandle
  mmuIhandle : W32
  memoryIhandle : W32
  guestMemAvailRanges : List Range
  guestMemRegRanges : List Range
  romMmuRanges : List MmuRange
  cifTrampoline : W32
  claimArenaStart : W32
  claimArenaPtr : W32
  claimArenaEnd : W32
  stackStart : W32
  stackEnd : W32
  xferBuf : Buf

/-- The whole hypervisor. `mapped` is the kernel's side of the contexts: guest page to
    host page. `garbage` is what uninitialised locals hold. -/
structure Machine where
  guest : Guest
  page : VmmPtr → VmmPage
  mapped : VmmPtr → W32 → Option W32
  ram : Pmem
  host : Host
  rom : Rom
  os : Os
  garbage : Buf

def ppcBits (x : Nat) : W32 := 1#32 <<< (31 - x)

def MSR_ME : W32 := ppcBits 19
def MSR_SE : W32 := ppcBits 21
def MSR_EP : W32 := ppcBits 25
def MSR_IR : W32 := ppcBits 26
def MSR_DR : W32 := ppcBits 27
def MSR_LE : W32 := ppcBits 31
def MSR_MMU_ON : W32 := MSR_IR ||| MSR_DR

def guestIsLittle (guest : Guest) : Bool := guest.monMsr &&& MSR_LE ≠ 0

def Machine.regs (m : Machine) : Regs := (m.page m.guest.regs).vmmProcState.ppcRegs

def VmmPage.setRegs (page : VmmPage) (regs : Regs) : VmmPage :=
  { page with vmmProcState := { page.vmmProcState with ppcRegs := regs } }

def Machine.setRegs (m : Machine) (regs : Regs) : Machine :=
  { m with page := Function.update m.page m.guest.regs ((m.page m.guest.regs).setRegs regs) }

@[simp] theorem Machine.setRegs_regs (m : Machine) (regs : Regs) : (m.setRegs regs).regs = regs := by
  simp [Machine.regs, Machine.setRegs, VmmPage.setRegs]

@[simp] theorem Machine.setRegs_guest (m : Machine) (regs : Regs) : (m.setRegs regs).guest = m.guest := rfl
@[simp] theorem Machine.setRegs_mapped (m : Machine) (regs : Regs) : (m.setRegs regs).mapped = m.mapped := rfl
@[simp] theorem Machine.setRegs_ram (m : Machine) (regs : Regs) : (m.setRegs regs).ram = m.ram := rfl
@[simp] theorem Machine.setRegs_rom (m : Machine) (regs : Regs) : (m.setRegs regs).rom = m.rom := rfl

def Machine.setR (m : Machine) (reg : Fin 32) (value : W32) : Machine :=
  m.setRegs { m.regs with ppcGPRs := Function.update m.regs.ppcGPRs reg value }

def Machine.setPC (m : Machine) (pc : W32) : Machine := m.setRegs { m.regs with ppcPC := pc }

end ToyHv
