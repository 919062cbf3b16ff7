import ToyHv.Emulation.Context
import ToyHv.Emulation.Execute
import ToyHv.Library.Runs
import ToyHv.Library.Storage
import ToyHv.Memory.RoundTrip

namespace ToyHv
open Library

/-- The processor the guest sees: its supervisor registers as storage, and the rest of its registers. -/
structure Processor where
  sup : SupReg → W32
  gprs : Fin 32 → W32
  pc : W32
  cr : W32
  xer : W32
  lr : W32
  ctr : W32
  fpscr : BitVec 64

def Machine.processor (m : Machine) : Processor :=
  { sup := m.guest.sup, gprs := m.regs.ppcGPRs, pc := m.regs.ppcPC, cr := m.regs.ppcCR, xer := m.regs.ppcXER,
    lr := m.regs.ppcLR, ctr := m.regs.ppcCTR, fpscr := m.fpscr }

def Insn.writes (p : Processor) : Insn → List (SupReg × W32)
  | .write reg s => [(reg, p.gprs s)]
  | .rfi => [(.msr, p.sup .srr1)]
  | .read .. | .tlbie _ => []

def Insn.effect (p : Processor) (insn : Insn) : Processor :=
  { p with
    sup := lastWrite p.sup (insn.writes p)
    gprs := match insn with
      | .read reg d => Function.update p.gprs d (p.sup reg)
      | _ => p.gprs
    pc := if insn = .rfi then p.sup .srr0 else p.pc + 4 }

theorem decode_writable {insn : W32} {reg : SupReg} {s : Fin 32} (decoded : decode insn = some (.write reg s)) :
    reg.writable := by
  unfold decode at decoded
  split_ifs at decoded <;> simp_all
  all_goals
    obtain ⟨rfl, _⟩ := decoded
    rfl

theorem processor_stored {m m' : Machine} {sup : SupReg → W32} (page : m'.page = m.page)
    (regs : m'.guest.regs = m.guest.regs) (stored : m'.guest.sup = sup) :
    m'.processor = { m.processor with sup } := by
  simp only [Machine.processor, Machine.regs, Machine.fpscr, page, regs, stored]

theorem writeSup_stores {m m' : Machine} {reg : SupReg} {value : W32} (coherent : CoherentGuest m)
    (writable : reg.writable) (written : writeSup m value reg = .ok m') :
    CoherentGuest m' ∧ m'.processor = { m.processor with sup := Function.update m.guest.sup reg value } := by
  cases reg with
  | pvr => cases writable
  | dbat i => cases writable
  | msr =>
    have set := guestSetMsr_ok coherent written
    refine ⟨set.coherent, ?_⟩
    have sup : m'.guest.sup = Function.update m.guest.sup .msr value := by
      rw [set.guest]
      funext other
      cases other <;> simp [Guest.sup, Function.update]
    simp only [Machine.processor, sup, set.regs, set.fpscr]
  | sdr1 =>
    simp only [writeSup, Except.ok.injEq] at written
    subst written
    split
    all_goals
      refine ⟨⟨coherent.context, coherent.regs⟩, processor_stored rfl rfl ?_⟩
      funext other
      cases other <;> simp [Guest.sup, Function.update, guestUnmapAll]
  | srr0 | srr1 | ibat i | sprg i | sr i =>
    simp only [writeSup, Except.ok.injEq] at written
    subst written
    refine ⟨⟨coherent.context, coherent.regs⟩, processor_stored rfl rfl ?_⟩
    funext other
    cases other <;> simp [Guest.sup, Function.update]

theorem advance_ok {m : Machine} (coherent : CoherentGuest m) :
    CoherentGuest m.advance ∧ m.advance.processor = { m.processor with pc := m.regs.ppcPC + 4 } := by
  refine ⟨coherent.setRegs, ?_⟩
  simp [Machine.processor, Machine.advance, Machine.setPC]

theorem execute_effect {m m' : Machine} {insn : Insn} (coherent : CoherentGuest m)
    (writable : ∀ reg s, insn = .write reg s → reg.writable) (executed : execute m insn = .ok m') :
    CoherentGuest m' ∧ m'.processor = insn.effect m.processor := by
  cases insn with
  | read reg d =>
    simp only [execute, Except.ok.injEq] at executed
    subst executed
    refine ⟨(advance_ok coherent.setRegs).1, (advance_ok coherent.setRegs).2.trans ?_⟩
    simp [Machine.processor, Insn.effect, Insn.writes]
  | write reg s =>
    simp only [execute, bind_ok, pure_ok, Except.ok.injEq] at executed
    obtain ⟨written, stored, rfl⟩ := executed
    obtain ⟨coherent, processor⟩ := writeSup_stores coherent (writable reg s rfl) stored
    refine ⟨(advance_ok coherent).1, (advance_ok coherent).2.trans ?_⟩
    have pc : written.regs.ppcPC = m.regs.ppcPC := congrArg Processor.pc processor
    rw [processor, pc]
    simp [Machine.processor, Insn.effect, Insn.writes, lastWrite_singleton]
  | rfi =>
    simp only [execute, bind_ok, pure_ok, Except.ok.injEq] at executed
    obtain ⟨switched, set, rfl⟩ := executed
    have stored : writeSup m m.guest.srr1 .msr = .ok switched := set
    obtain ⟨coherent, processor⟩ := writeSup_stores coherent rfl stored
    refine ⟨coherent.setRegs, ?_⟩
    have srr0 : switched.guest.srr0 = m.guest.srr0 := congrFun (congrArg Processor.sup processor) .srr0
    have pc : (switched.setPC switched.guest.srr0).processor =
        { switched.processor with pc := switched.guest.srr0 } := by
      simp [Machine.processor, Machine.setPC]
    rw [pc, processor, srr0]
    simp [Machine.processor, Insn.effect, Insn.writes, lastWrite_singleton, Guest.sup]
  | tlbie b =>
    simp only [execute, bind_ok, pure_ok, Except.ok.injEq] at executed
    obtain ⟨⟨err, nexti⟩, fetched, rfl⟩ := executed
    obtain ⟨mapped, same⟩ : ∃ mapped, (if nexti = INST_SYNC then guestUnmapAll m
        else guestUnmap m (m.regs.ppcGPRs b)) = { m with mapped } := by
      split <;> exact ⟨_, rfl⟩
    rw [same]
    have unmapped : CoherentGuest { m with mapped } := ⟨coherent.context, coherent.regs⟩
    refine ⟨(advance_ok unmapped).1, (advance_ok unmapped).2.trans ?_⟩
    simp only [Insn.effect, Insn.writes, lastWrite_nil]
    rfl

/-- One call of `guest_emulate`: the word at the PC, if it could be fetched, the outcome, and the
    writes to supervisor registers it stands for. -/
structure Emulation where
  insn : Option W32
  err : Err
  writes : List (SupReg × W32)

def Emulation.decoded (e : Emulation) : Option Insn := e.insn.bind decode

/-- A call of `guest_emulate` that did not abort, at no lock sequence. -/
inductive Emulates (m : Machine) (e : Emulation) (m' : Machine) : Prop
  | intro (fetchErr : Err) (word : W32)
      (fetched : guestFromX m (wordAt m.garbage 0) m.regs.ppcPC = .ok (fetchErr, word))
      (insn : e.insn = if fetchErr = .none then some word else none)
      (unlocked : lockSeqAt m word = .ok none)
      (emulated : guestEmulate m = .ok (e.err, m'))
      (writes : e.writes = match e.decoded with
        | some decoded => decoded.writes m.processor
        | none => [])

theorem Emulates.cases {m m' : Machine} {e : Emulation} (coherent : CoherentGuest m) (emulates : Emulates m e m') :
    match e.decoded with
    | some decoded => e.err = .none ∧ CoherentGuest m' ∧ m'.processor = decoded.effect m.processor ∧
        e.writes = decoded.writes m.processor
    | none => e.err ≠ .none ∧ m' = m ∧ e.writes = [] := by
  obtain ⟨fetchErr, word, fetched, insn, unlocked, emulated, writes⟩ := emulates
  simp only [guestEmulate, fetched, ok_bind, unlocked] at emulated
  split at emulated
  · rename_i failed
    have decoded : e.decoded = none := by rw [Emulation.decoded, insn, if_neg failed]; rfl
    rw [decoded] at writes ⊢
    simp only [emulateDone, failed, false_and, if_false, pure_ok, Except.ok.injEq, Prod.mk.injEq] at emulated
    exact ⟨emulated.1 ▸ failed, emulated.2.symm, writes⟩
  · rename_i fetched
    have decoded : e.decoded = decode word := by rw [Emulation.decoded, insn, if_pos (not_not.mp fetched)]; rfl
    rw [guestEmulateInsn_decode] at emulated
    rw [decoded] at writes ⊢
    cases known : decode word with
    | none =>
      rw [known] at emulated writes
      simp only [Except.ok.injEq, Prod.mk.injEq] at emulated
      exact ⟨emulated.1 ▸ by decide, emulated.2.symm, writes⟩
    | some insn =>
      rw [known] at emulated writes
      simp only [bind_ok, pure_ok, Except.ok.injEq, Prod.mk.injEq] at emulated
      obtain ⟨_, executed, done, rfl⟩ := emulated
      have writable : ∀ reg s, insn = .write reg s → reg.writable := by
        rintro reg s rfl
        exact decode_writable known
      obtain ⟨coherent, effect⟩ := execute_effect coherent writable executed
      exact ⟨done.symm, coherent, effect, writes⟩

def writesOf (history : List Emulation) : List (SupReg × W32) := history.flatMap Emulation.writes

theorem storage_invariant {s t : Machine} {history : List Emulation} (coherent : CoherentGuest s)
    (run : Run Emulates s history t) : CoherentGuest t ∧ t.guest.sup = lastWrite s.guest.sup (writesOf history) := by
  refine run.invariant (I := fun history t => CoherentGuest t ∧ t.guest.sup = lastWrite s.guest.sup (writesOf history))
    ⟨coherent, rfl⟩ ?_
  rintro history t e u ⟨coherent, sup⟩ step
  have whole : writesOf (history ++ [e]) = writesOf history ++ e.writes := by simp [writesOf]
  rw [whole, lastWrite_append, ← sup]
  have cases := step.cases coherent
  split at cases
  · obtain ⟨_, coherent, processor, writes⟩ := cases
    exact ⟨coherent, writes ▸ congrArg Processor.sup processor⟩
  · obtain ⟨_, rfl, writes⟩ := cases
    exact ⟨coherent, by rw [writes, lastWrite_nil]⟩

/-- Supervisor registers behave as independent storage over every run of emulated instructions:
    a read delivers what was last written, and nothing but the register an instruction names,
    the PC and the storage changes. -/
theorem emulated_registers_are_storage {s t u : Machine} {history : List Emulation} {e : Emulation}
    (coherent : CoherentGuest s) (run : Run Emulates s history t) (step : Emulates t e u) :
    let stored := lastWrite s.guest.sup (writesOf history)
    (∀ i, stored (.dbat i) = 0) ∧
    match e.decoded with
    | none => e.err ≠ .none ∧ u = t
    | some insn =>
      e.err = .none ∧
      u.regs.ppcGPRs = (match insn with
        | .read reg d => Function.update t.regs.ppcGPRs d (stored reg)
        | _ => t.regs.ppcGPRs) ∧
      u.regs.ppcPC = (if insn = .rfi then stored .srr0 else t.regs.ppcPC + 4) ∧
      u.regs.ppcCR = t.regs.ppcCR ∧ u.regs.ppcLR = t.regs.ppcLR ∧ u.regs.ppcCTR = t.regs.ppcCTR ∧
      u.regs.ppcXER = t.regs.ppcXER ∧ u.fpscr = t.fpscr := by
  obtain ⟨coherent, sup⟩ := storage_invariant coherent run
  refine ⟨fun i => (congrFun sup (.dbat i)).symm, ?_⟩
  have cases := step.cases coherent
  cases decoded : e.decoded with
  | none =>
    rw [decoded] at cases
    exact ⟨cases.1, cases.2.1⟩
  | some insn =>
    rw [decoded] at cases
    obtain ⟨done, _, processor, _⟩ := cases
    have seen : ∀ {α : Type} (part : Processor → α), part u.processor = part (insn.effect t.processor) :=
      fun part => congrArg part processor
    refine ⟨done, (seen Processor.gprs).trans ?_, (seen Processor.pc).trans ?_, seen Processor.cr, seen Processor.lr,
      seen Processor.ctr, seen Processor.xer, seen Processor.fpscr⟩
    · cases insn <;> simp [Insn.effect, Machine.processor, sup]
    · simp [Insn.effect, Machine.processor, sup]

/-- `mtspr srr0, r5`, `mtmsr r6` and `mfspr r3, srr0`. -/
def modeSwitch : List W32 := [0x7cba03a6, 0x7cc00124, 0x7c7a02a6]

/-- A guest without translation in front of these instructions, in ROM mode. Its r6 turns translation on. -/
def switchingGuest : Machine :=
  let m := realModeGuest false fun _ => 0
  { m with
    page := fun _ =>
      zeroPage.setRegs ⟨0, 0, fun r => if r = 5 then 0x1234 else if r = 6 then MSR_MMU_ON else 0, 0, 0, 0, 0⟩
    guest := { m.guest with sdr1 := SDR1_MAGIC_ROM_MODE }
    host := wordsAt m.ram fun i => modeSwitch.getD i 0
    rom := { m.rom with romMmuRanges := [⟨0, 0x1fff, 0, 0, by decide⟩] } }

def storedGuest : Machine :=
  { switchingGuest with guest := { switchingGuest.guest with srr0 := 0x1234 } }.advance

def switchedGuest : Machine :=
  let m := guestSetVmm storedGuest true
  { m.setRegs { m.regs with ppcMSR := MSR_MMU_ON } with guest := { m.guest with msr := MSR_MMU_ON } }.advance

theorem modeSwitch_fetch {m : Machine} (host : m.host = wordsAt m.ram fun i => modeSwitch.getD i 0)
    (big : guestIsLittle m.guest = false) {i : ℕ} (bound : i < 3) (map : Maps m id (BitVec.ofNat 32 (4 * i)) 4) :
    guestFromX m (wordAt m.garbage 0) (BitVec.ofNat 32 (4 * i)) = .ok (.none, modeSwitch.getD i 0) := by
  have start : (BitVec.ofNat 32 (4 * i)).toNat % 4 = 0 := by
    rw [BitVec.toNat_ofNat]
    omega
  apply guestFromX_big _ big start map
  intro k inside
  rw [realOf_id, ← BitVec.ofNat_add, host]
  exact wordsAt_cell m.ram _ inside (by omega)

theorem mfspr_reads_srr0 : ∃ t u, Run Emulates switchingGuest
      [⟨some 0x7cba03a6, .none, [(.srr0, 0x1234)]⟩, ⟨some 0x7cc00124, .none, [(.msr, MSR_MMU_ON)]⟩] t ∧
    t.guest.vmm ≠ switchingGuest.guest.vmm ∧ Emulates t ⟨some 0x7c7a02a6, .none, []⟩ u ∧
    u.regs.ppcGPRs = Function.update t.regs.ppcGPRs 3 0x1234 := by
  have real {m : Machine} (off : m.guest.msr = 0) (ram : m.ram = switchingGuest.ram) {i : ℕ} (bound : i < 3) :
      Maps m id (BitVec.ofNat 32 (4 * i)) 4 := by
    refine (real_mode_translates (by rw [off]; decide) fun k inside => ?_).toMaps
    rw [ram, ← BitVec.ofNat_add, BitVec.lt_def, BitVec.toNat_ofNat]
    change (4 * i + k) % 2^32 < 0x2000
    omega
  have table : Maps switchedGuest id 8 4 := by
    refine ⟨fun gra => ⟨_, rfl⟩, fun i bound gra => ?_, fun i bound => ?_, fun i bound => ?_⟩
    all_goals interval_cases i
    all_goals first | rfl | decide
  have first := modeSwitch_fetch (m := switchingGuest) (i := 0) rfl rfl (by decide) (real rfl rfl (by decide))
  have second := modeSwitch_fetch (m := storedGuest) (i := 1) rfl rfl (by decide)
    (real (m := storedGuest) rfl rfl (by decide))
  have third := modeSwitch_fetch (m := switchedGuest) (i := 2) rfl rfl (by decide) table
  have stores : Emulates switchingGuest ⟨some 0x7cba03a6, .none, [(.srr0, 0x1234)]⟩ storedGuest := by
    refine ⟨.none, _, first, rfl, rfl, ?_, rfl⟩
    have fetched : guestFromX switchingGuest (wordAt switchingGuest.garbage 0) switchingGuest.regs.ppcPC = _ := first
    simp only [guestEmulate, fetched, ok_bind]
    rfl
  have switches : Emulates storedGuest ⟨some 0x7cc00124, .none, [(.msr, MSR_MMU_ON)]⟩ switchedGuest := by
    refine ⟨.none, _, second, rfl, rfl, ?_, rfl⟩
    have fetched : guestFromX storedGuest (wordAt storedGuest.garbage 0) storedGuest.regs.ppcPC = _ := second
    simp only [guestEmulate, fetched, ok_bind]
    rfl
  have reads : Emulates switchedGuest ⟨some 0x7c7a02a6, .none, []⟩ (switchedGuest.setR 3 0x1234).advance := by
    refine ⟨.none, _, third, rfl, rfl, ?_, rfl⟩
    have fetched : guestFromX switchedGuest (wordAt switchedGuest.garbage 0) switchedGuest.regs.ppcPC = _ := third
    simp only [guestEmulate, fetched, ok_bind]
    rfl
  have history : Run Emulates switchingGuest _ switchedGuest := .snoc (.single stores) switches
  have stored := emulated_registers_are_storage ⟨by decide, rfl⟩ history reads
  exact ⟨_, _, history, by decide, reads, stored.2.2.1⟩

end ToyHv
