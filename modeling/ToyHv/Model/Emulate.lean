import ToyHv.Model.Access

namespace ToyHv

def INST_MTSPR_MASK : W32 := 0xfc0007fe
def INST_MFSPR_MASK : W32 := 0xfc0007fe
def INST_MTMSR_MASK : W32 := 0xfc0007fe
def INST_MFMSR_MASK : W32 := 0xfc0007fe
def INST_MFSR_MASK : W32 := 0xfc0007fe
def INST_MTSR_MASK : W32 := 0xfc0007fe
def INST_RFI_MASK : W32 := 0xfc0007fe
def INST_TLBIE_MASK : W32 := 0xfc0007fe

def INST_MTSPR : W32 := 0x7c0003a6
def INST_MFSPR : W32 := 0x7c0002a6
def INST_MTMSR : W32 := 0x7c000124
def INST_MFMSR : W32 := 0x7c0000a6
def INST_MTSR : W32 := 0x7c0001a4
def INST_MFSR : W32 := 0x7c0004a6
def INST_RFI : W32 := 0x4c000064
def INST_TLBIE : W32 := 0x7c000264
def INST_SYNC : W32 := 0x7c0004ac

def SPRN_SDR1 : ℕ := 25
def SPRN_SRR0 : ℕ := 26
def SPRN_SRR1 : ℕ := 27
def SPRN_SPRG0 : ℕ := 272
def SPRN_SPRG3 : ℕ := 275
def SPRN_PVR : ℕ := 287
def SPRN_IBAT0U : ℕ := 528
def SPRN_IBAT3L : ℕ := 535
def SPRN_DBAT0U : ℕ := 536
def SPRN_DBAT3L : ℕ := 543

def gprField (insn : W32) (a b : ℕ) : Fin 32 := Fin.ofNat 32 (ppcMaskOut insn a b).toNat

def srField (insn : W32) : Fin 16 := Fin.ofNat 16 (ppcMaskOut insn 12 15).toNat

def sprField (insn : W32) : ℕ :=
  let spr := ppcMaskOut insn 11 20
  (((spr &&& 0x1f) <<< 5) ||| ((spr &&& 0x3e0) >>> 5)).toNat

/-- The switch of the mfspr branch. The eight BAT and four SPRG labels are consecutive. -/
def mfsprSwitch (guest : Guest) (spr : ℕ) : Option W32 :=
  if spr = SPRN_PVR then some guest.pvr
  else if spr = SPRN_SRR0 then some guest.srr0
  else if spr = SPRN_SRR1 then some guest.srr1
  else if SPRN_IBAT0U ≤ spr ∧ spr ≤ SPRN_IBAT3L then some (guest.ubat (Fin.ofNat 8 (spr - SPRN_IBAT0U)))
  else if SPRN_DBAT0U ≤ spr ∧ spr ≤ SPRN_DBAT3L then some 0
  else if SPRN_SPRG0 ≤ spr ∧ spr ≤ SPRN_SPRG3 then some (guest.sprg (Fin.ofNat 4 (spr - SPRN_SPRG0)))
  else if spr = SPRN_SDR1 then some guest.sdr1
  else none

/-- The switch of the mtspr branch. -/
def mtsprSwitch (m : Machine) (spr : ℕ) (value : W32) : Option Machine :=
  if spr = SPRN_SRR0 then some { m with guest := { m.guest with srr0 := value } }
  else if spr = SPRN_SRR1 then some { m with guest := { m.guest with srr1 := value } }
  else if SPRN_IBAT0U ≤ spr ∧ spr ≤ SPRN_IBAT3L then
    let ubat := Function.update m.guest.ubat (Fin.ofNat 8 (spr - SPRN_IBAT0U)) value
    some { m with guest := { m.guest with ubat } }
  else if SPRN_SPRG0 ≤ spr ∧ spr ≤ SPRN_SPRG3 then
    let sprg := Function.update m.guest.sprg (Fin.ofNat 4 (spr - SPRN_SPRG0)) value
    some { m with guest := { m.guest with sprg } }
  else if spr = SPRN_SDR1 then
    -- the ROM's mappings do not use the regular SR/HTAB/BAT path
    let m := if value ≠ SDR1_MAGIC_ROM_MODE ∧ m.guest.sdr1 = SDR1_MAGIC_ROM_MODE then guestUnmapAll m else m
    some { m with guest := { m.guest with sdr1 := value } }
  else none

/-- A lock sequence of the NT kernel, which has a mfsprg between a lwarx and a stwcx.: the
    mfsprg, the words after it, the register that holds the lock's address and the bytes skipped. -/
structure LockSeq where
  mfsprg : W32
  insn : List W32
  lock : Fin 32
  skipped : W32

def lockSeq1 : LockSeq := ⟨0x7d7042a6, [0x40820014, 0x7d60512d, 0x4082000c, 0x4c00012c], 10, 10 * 4⟩
def lockSeq2 : LockSeq := ⟨0x7cb042a6, [0x40820024, 0x7ca0192d, 0x4082001c, 0x4c00012c], 3, 5 * 4⟩
def lockSeq34 : LockSeq := ⟨0x7cf042a6, [0x40820014, 0x7ce0492d, 0x4082000c, 0x4c00012c], 9, 5 * 4⟩

def lockSeqFollows (m : Machine) (seq : LockSeq) : Checked Bool := do
  let (_, cmp) ← guestFromEx m m.garbage (m.regs.ppcPC + 4) 16 4 false
  return [wordAt cmp 0, wordAt cmp 4, wordAt cmp 8, wordAt cmp 12] = seq.insn

def skipLockSeq (m : Machine) (seq : LockSeq) : Checked Machine := do
  let (_, m) ← guestToX m (m.regs.ppcGPRs seq.lock) (m.guest.sprg 0)
  return m.setPC (m.regs.ppcPC + seq.skipped)

def lockSeqAt (m : Machine) (insn : W32) : Checked (Option LockSeq) :=
  if insn = lockSeq1.mfsprg then do return if ← lockSeqFollows m lockSeq1 then some lockSeq1 else none
  else if insn = lockSeq2.mfsprg then do return if ← lockSeqFollows m lockSeq2 then some lockSeq2 else none
  else if insn = lockSeq34.mfsprg then do return if ← lockSeqFollows m lockSeq34 then some lockSeq34 else none
  else return none

def emulateDone (m : Machine) (err : Err) (updateInsn : Bool) : Err × Machine :=
  (err, if err = .none ∧ updateInsn then m.setPC (m.regs.ppcPC + 4) else m)

def emulateTlbie (m : Machine) (insn : W32) : Checked (Err × Machine) :=
  if insn &&& INST_TLBIE_MASK = INST_TLBIE then do
    let ea := m.regs.ppcGPRs (gprField insn 16 20)
    let (_, nexti) ← guestFromX m 0 (m.regs.ppcPC + 4)
    return (.none, if nexti = INST_SYNC then guestUnmapAll m else guestUnmap m ea)
  else
    return (.unsupported, m)

/-- The other branches of `guest_emulate`, and what follows them. -/
def emulateChain (err : Err) (m : Machine) (insn : W32) : Checked (Err × Machine) :=
  if insn &&& INST_MFSR_MASK = INST_MFSR then
    return emulateDone (m.setR (gprField insn 6 10) (m.guest.sr (srField insn))) .none true
  else if insn &&& INST_MTSR_MASK = INST_MTSR then
    let sr := Function.update m.guest.sr (srField insn) (m.regs.ppcGPRs (gprField insn 6 10))
    return emulateDone { m with guest := { m.guest with sr } } .none true
  else if insn &&& INST_RFI_MASK = INST_RFI then do
    let m ← guestSetMsr m m.guest.srr1
    return emulateDone (m.setPC m.guest.srr0) .none false
  else if insn &&& INST_MFSPR_MASK = INST_MFSPR then
    match mfsprSwitch m.guest (sprField insn) with
    | some value => return emulateDone (m.setR (gprField insn 6 10) value) .none true
    | none => return (.unsupported, m)
  else if insn &&& INST_MTSPR_MASK = INST_MTSPR then
    match mtsprSwitch m (sprField insn) (m.regs.ppcGPRs (gprField insn 6 10)) with
    | some m => return emulateDone m .none true
    | none => return (.unsupported, m)
  else if insn &&& INST_MFMSR_MASK = INST_MFMSR then
    return emulateDone (m.setR (gprField insn 6 10) m.guest.msr) .none true
  else if insn &&& INST_MTMSR_MASK = INST_MTMSR then do
    let m ← guestSetMsr m (m.regs.ppcGPRs (gprField insn 6 10))
    return emulateDone m .none true
  else
    return emulateDone m err true

/-- `guest_emulate` after the lock sequences. The tlbie branch has no `else`: its outcome goes
    into the chain after it. -/
def guestEmulateInsn (m : Machine) (insn : W32) : Checked (Err × Machine) := do
  let (err, m) ← emulateTlbie m insn
  emulateChain err m insn

def guestEmulate (m : Machine) : Checked (Err × Machine) := do
  let (err, insn) ← guestFromX m (wordAt m.garbage 0) m.regs.ppcPC
  if err ≠ .none then
    return emulateDone m err true
  else
    match ← lockSeqAt m insn with
    | some seq => return (.none, ← skipLockSeq m seq)
    | none => guestEmulateInsn m insn

end ToyHv
