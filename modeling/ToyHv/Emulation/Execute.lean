import ToyHv.Emulation.Decode

namespace ToyHv

def Guest.sup (guest : Guest) : SupReg → W32
  | .pvr => guest.pvr
  | .srr0 => guest.srr0
  | .srr1 => guest.srr1
  | .sdr1 => guest.sdr1
  | .msr => guest.msr
  | .ibat i => guest.ubat i
  | .dbat _ => 0
  | .sprg i => guest.sprg i
  | .sr i => guest.sr i

/-- A write to a supervisor register. MSR may switch contexts and SDR1 may drop the ROM's mappings. -/
def writeSup (m : Machine) (value : W32) : SupReg → Checked Machine
  | .srr0 => .ok { m with guest := { m.guest with srr0 := value } }
  | .srr1 => .ok { m with guest := { m.guest with srr1 := value } }
  | .sdr1 =>
    let m := if value ≠ SDR1_MAGIC_ROM_MODE ∧ m.guest.sdr1 = SDR1_MAGIC_ROM_MODE then guestUnmapAll m else m
    .ok { m with guest := { m.guest with sdr1 := value } }
  | .msr => guestSetMsr m value
  | .ibat i => .ok { m with guest := { m.guest with ubat := Function.update m.guest.ubat i value } }
  | .sprg i => .ok { m with guest := { m.guest with sprg := Function.update m.guest.sprg i value } }
  | .sr i => .ok { m with guest := { m.guest with sr := Function.update m.guest.sr i value } }
  | .pvr | .dbat _ => .ok m

def Machine.advance (m : Machine) : Machine := m.setPC (m.regs.ppcPC + 4)

def execute (m : Machine) : Insn → Checked Machine
  | .read reg d => .ok (m.setR d (m.guest.sup reg)).advance
  | .write reg s => do return (← writeSup m (m.regs.ppcGPRs s) reg).advance
  | .rfi => do
    let m ← guestSetMsr m m.guest.srr1
    return m.setPC m.guest.srr0
  | .tlbie b => do
    let (_, nexti) ← guestFromX m 0 (m.regs.ppcPC + 4)
    return (if nexti = INST_SYNC then guestUnmapAll m else guestUnmap m (m.regs.ppcGPRs b)).advance

theorem setRegs_setRegs (m : Machine) (first second : Regs) : (m.setRegs first).setRegs second = m.setRegs second := by
  simp only [Machine.setRegs, VmmPage.setRegs, Function.update_self, Function.update_idem]

theorem execute_ok {m m' : Machine} {insn : Insn} (executed : execute m insn = .ok m') :
    ∃ w regs, m' = w.setRegs regs ∧
      (w = m ∨ (∃ reg value, writeSup m value reg = .ok w) ∨ w = guestUnmapAll m ∨ ∃ ea, w = guestUnmap m ea) := by
  cases insn with
  | read reg d =>
    simp only [execute, Except.ok.injEq] at executed
    exact ⟨m, _, executed.symm.trans (setRegs_setRegs m _ _), .inl rfl⟩
  | write reg s =>
    simp only [execute, bind_ok, pure_ok, Except.ok.injEq] at executed
    obtain ⟨written, stored, rfl⟩ := executed
    exact ⟨written, _, rfl, .inr (.inl ⟨reg, _, stored⟩)⟩
  | rfi =>
    simp only [execute, bind_ok, pure_ok, Except.ok.injEq] at executed
    obtain ⟨switched, set, rfl⟩ := executed
    exact ⟨switched, _, rfl, .inr (.inl ⟨.msr, _, set⟩)⟩
  | tlbie b =>
    simp only [execute, bind_ok, pure_ok, Except.ok.injEq] at executed
    obtain ⟨⟨err, nexti⟩, _, rfl⟩ := executed
    split
    · exact ⟨guestUnmapAll m, _, rfl, .inr (.inr (.inl rfl))⟩
    · exact ⟨guestUnmap m _, _, rfl, .inr (.inr (.inr ⟨_, rfl⟩))⟩

theorem insn_mfsr (insn : W32) : insn &&& INST_MFSR_MASK = INST_MFSR ↔ opcd insn = 31#6 ∧ xo insn = 595#10 :=
  masked_eq insn INST_MFSR (by decide)

theorem insn_mtsr (insn : W32) : insn &&& INST_MTSR_MASK = INST_MTSR ↔ opcd insn = 31#6 ∧ xo insn = 210#10 :=
  masked_eq insn INST_MTSR (by decide)

theorem insn_rfi (insn : W32) : insn &&& INST_RFI_MASK = INST_RFI ↔ opcd insn = 19#6 ∧ xo insn = 50#10 :=
  masked_eq insn INST_RFI (by decide)

theorem insn_mfspr (insn : W32) : insn &&& INST_MFSPR_MASK = INST_MFSPR ↔ opcd insn = 31#6 ∧ xo insn = 339#10 :=
  masked_eq insn INST_MFSPR (by decide)

theorem insn_mtspr (insn : W32) : insn &&& INST_MTSPR_MASK = INST_MTSPR ↔ opcd insn = 31#6 ∧ xo insn = 467#10 :=
  masked_eq insn INST_MTSPR (by decide)

theorem insn_mfmsr (insn : W32) : insn &&& INST_MFMSR_MASK = INST_MFMSR ↔ opcd insn = 31#6 ∧ xo insn = 83#10 :=
  masked_eq insn INST_MFMSR (by decide)

theorem insn_mtmsr (insn : W32) : insn &&& INST_MTMSR_MASK = INST_MTMSR ↔ opcd insn = 31#6 ∧ xo insn = 146#10 :=
  masked_eq insn INST_MTMSR (by decide)

theorem insn_tlbie (insn : W32) : insn &&& INST_TLBIE_MASK = INST_TLBIE ↔ opcd insn = 31#6 ∧ xo insn = 306#10 :=
  masked_eq insn INST_TLBIE (by decide)

theorem mfsprSwitch_eq (guest : Guest) (spr : ℕ) :
    mfsprSwitch guest spr = (SupReg.ofSpr spr).map guest.sup := by
  by_cases known : (25 ≤ spr ∧ spr ≤ 27) ∨ spr = 287 ∨ (272 ≤ spr ∧ spr ≤ 275) ∨ (528 ≤ spr ∧ spr ≤ 543)
  · rcases known with ⟨low, high⟩ | rfl | ⟨low, high⟩ | ⟨low, high⟩
    · interval_cases spr <;> rfl
    · rfl
    · interval_cases spr <;> rfl
    · interval_cases spr <;> rfl
  · obtain ⟨no25, no26, no27, no287, sprg, ibat, dbat⟩ : spr ≠ 25 ∧ spr ≠ 26 ∧ spr ≠ 27 ∧ spr ≠ 287 ∧
      ¬ (272 ≤ spr ∧ spr ≤ 275) ∧ ¬ (528 ≤ spr ∧ spr ≤ 535) ∧ ¬ (536 ≤ spr ∧ spr ≤ 543) := by omega
    simp [mfsprSwitch, SupReg.ofSpr, SPRN_PVR, SPRN_SRR0, SPRN_SRR1, SPRN_IBAT0U, SPRN_IBAT3L, SPRN_DBAT0U,
      SPRN_DBAT3L, SPRN_SPRG0, SPRN_SPRG3, SPRN_SDR1, no25, no26, no27, no287, sprg, ibat, dbat]

theorem mtsprSwitch_eq (m : Machine) (spr : ℕ) (value : W32) :
    (mtsprSwitch m spr value).map Except.ok =
      ((SupReg.ofSpr spr).filter SupReg.writable).map (writeSup m value) := by
  by_cases known : (25 ≤ spr ∧ spr ≤ 27) ∨ spr = 287 ∨ (272 ≤ spr ∧ spr ≤ 275) ∨ (528 ≤ spr ∧ spr ≤ 543)
  · rcases known with ⟨low, high⟩ | rfl | ⟨low, high⟩ | ⟨low, high⟩
    · interval_cases spr <;> rfl
    · rfl
    · interval_cases spr <;> rfl
    · interval_cases spr <;> rfl
  · obtain ⟨no25, no26, no27, no287, sprg, ibat, dbat⟩ : spr ≠ 25 ∧ spr ≠ 26 ∧ spr ≠ 27 ∧ spr ≠ 287 ∧
      ¬ (272 ≤ spr ∧ spr ≤ 275) ∧ ¬ (528 ≤ spr ∧ spr ≤ 535) ∧ ¬ (536 ≤ spr ∧ spr ≤ 543) := by omega
    simp [mtsprSwitch, SupReg.ofSpr, SPRN_SRR0, SPRN_SRR1, SPRN_IBAT0U, SPRN_IBAT3L, SPRN_SPRG0, SPRN_SPRG3,
      SPRN_SDR1, no25, no26, no27, no287, sprg, ibat, dbat]

theorem guestEmulateInsn_decode (m : Machine) (insn : W32) :
    guestEmulateInsn m insn =
      match decode insn with
      | some decoded => do return (.none, ← execute m decoded)
      | none => .ok (.unsupported, m) := by
  unfold guestEmulateInsn emulateTlbie emulateChain
  simp only [insn_mfsr, insn_mtsr, insn_rfi, insn_mfspr, insn_mtspr, insn_mfmsr, insn_mtmsr, insn_tlbie,
    gprField_d, gprField_b, srField_sr, sprField_spr, mfsprSwitch_eq]
  unfold decode
  by_cases x31 : opcd insn = 31#6
  · by_cases x595 : xo insn = 595#10
    · simp [x31, x595, emulateDone, execute, Machine.advance, Guest.sup]
    by_cases x210 : xo insn = 210#10
    · simp [x31, x210, emulateDone, execute, writeSup, Machine.advance]
    by_cases x339 : xo insn = 339#10
    · cases SupReg.ofSpr (fieldSpr insn).toNat <;> simp [x31, x339, emulateDone, execute, Machine.advance]
    by_cases x467 : xo insn = 467#10
    · have switch := mtsprSwitch_eq m (fieldSpr insn).toNat (m.regs.ppcGPRs (fieldD insn))
      cases named : (SupReg.ofSpr (fieldSpr insn).toNat).filter SupReg.writable with
      | none =>
        rw [named, Option.map_none, Option.map_eq_none_iff] at switch
        simp [x31, x467, switch]
      | some reg =>
        rw [named, Option.map_some, Option.map_eq_some_iff] at switch
        obtain ⟨written, handled, same⟩ := switch
        simp [x31, x467, handled, emulateDone, execute, Machine.advance, ← same]
    by_cases x83 : xo insn = 83#10
    · simp [x31, x83, emulateDone, execute, Machine.advance, Guest.sup]
    by_cases x146 : xo insn = 146#10
    · simp [x31, x146, emulateDone, execute, writeSup, Machine.advance]
    by_cases x306 : xo insn = 306#10
    · simp [x31, x306, emulateDone, execute, Machine.advance]
    simp [x31, x595, x210, x339, x467, x83, x146, x306, emulateDone]
  · by_cases rfi : opcd insn = 19#6 ∧ xo insn = 50#10
    · simp [rfi, emulateDone, execute]
    · simp [x31, rfi, emulateDone]

/-- What a call of the emulator amounts to: nothing, a lock sequence skipped with its word stored,
    or one supervisor instruction. -/
theorem guestEmulate_ok {m m' : Machine} {err : Err} (emulated : guestEmulate m = .ok (err, m')) :
    m' = m ∨ (∃ host pc, m' = { m with host }.setPC pc) ∨ ∃ insn, execute m insn = .ok m' := by
  simp only [guestEmulate, bind_ok] at emulated
  obtain ⟨⟨fetchErr, word⟩, _, emulated⟩ := emulated
  split at emulated
  · rename_i failed
    have failed : fetchErr ≠ .none := failed
    simp only [emulateDone, failed, false_and, if_false, pure_ok, Except.ok.injEq, Prod.mk.injEq] at emulated
    exact .inl emulated.2.symm
  · simp only [bind_ok] at emulated
    obtain ⟨seq, _, emulated⟩ := emulated
    cases seq with
    | some seq =>
      simp only [skipLockSeq, guestToX, bind_ok, pure_ok, Except.ok.injEq, Prod.mk.injEq] at emulated
      obtain ⟨_, ⟨⟨_, stored⟩, took, rfl⟩, _, rfl⟩ := emulated
      obtain ⟨host, rfl⟩ := guestTo_frame took
      exact .inr (.inl ⟨host, _, rfl⟩)
    | none =>
      simp only [guestEmulateInsn_decode] at emulated
      split at emulated
      · rename_i insn _
        simp only [bind_ok, pure_ok, Except.ok.injEq, Prod.mk.injEq] at emulated
        obtain ⟨_, executed, _, rfl⟩ := emulated
        exact .inr (.inr ⟨insn, executed⟩)
      · simp only [Except.ok.injEq, Prod.mk.injEq] at emulated
        exact .inl emulated.2.symm

end ToyHv
