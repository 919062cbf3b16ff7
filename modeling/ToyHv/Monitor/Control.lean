import ToyHv.Emulation.Context
import ToyHv.Emulation.Execute
import ToyHv.Library.Runs
import ToyHv.Model.Monitor
import ToyHv.Rom.Boot

namespace ToyHv
open Library

/-- IR and DR agree, and choose the context in use with its registers. -/
structure InStep (m : Machine) : Prop where
  agree : m.guest.msr &&& MSR_IR ≠ 0 ↔ m.guest.msr &&& MSR_DR ≠ 0
  on : m.guest.vmm = .mmuOn ↔ m.guest.msr &&& MSR_MMU_ON = MSR_MMU_ON
  off : m.guest.vmm = .mmuOff ↔ m.guest.msr &&& MSR_MMU_ON = 0
  regs : m.guest.regs = m.guest.vmm

variable {m m' : Machine}

theorem InStep.of_guest (inStep : InStep m) (msr : m'.guest.msr = m.guest.msr) (vmm : m'.guest.vmm = m.guest.vmm)
    (regs : m'.guest.regs = m.guest.regs) : InStep m' := by
  constructor
  · rw [msr]
    exact inStep.agree
  · rw [msr, vmm]
    exact inStep.on
  · rw [msr, vmm]
    exact inStep.off
  · rw [regs, vmm]
    exact inStep.regs

theorem InStep.coherent (inStep : InStep m) : CoherentGuest m := by
  refine ⟨fun null => ?_, inStep.regs⟩
  have on := inStep.on
  have off := inStep.off
  rw [null] at on off
  have neither : m.guest.msr &&& MSR_MMU_ON ≠ 0 := fun zero => by cases off.mpr zero
  have both : m.guest.msr &&& MSR_MMU_ON ≠ MSR_MMU_ON := fun all => by cases on.mpr all
  have ir := (msr_mmu_iff inStep.agree).1.not.mpr both
  exact neither ((msr_mmu_iff inStep.agree).2.mp (not_not.mp ir))

theorem MsrSet.inStep {msr : W32} (set : MsrSet m msr m') : InStep m' := by
  have context : m'.guest.vmm = contextOf (msr &&& MSR_IR ≠ 0) := by rw [set.guest]
  have status : m'.guest.msr = msr := by rw [set.guest]
  constructor
  · rw [status]
    exact set.agree
  · rw [context, status, ← (msr_mmu_iff set.agree).1, contextOf]
    by_cases on : msr &&& MSR_IR = 0 <;> simp [on]
  · rw [context, status, ← (msr_mmu_iff set.agree).2, contextOf]
    by_cases on : msr &&& MSR_IR = 0 <;> simp [on]
  · rw [set.guest]

theorem InStep.write {reg : SupReg} {value : W32} (inStep : InStep m) (written : writeSup m value reg = .ok m') :
    InStep m' := by
  cases reg with
  | msr => exact (guestSetMsr_ok inStep.coherent written).inStep
  | sdr1 =>
    simp only [writeSup, Except.ok.injEq] at written
    subst written
    split
    all_goals exact inStep.of_guest rfl rfl rfl
  | pvr | dbat i | srr0 | srr1 | ibat i | sprg i | sr i =>
    simp only [writeSup, Except.ok.injEq] at written
    subst written
    exact inStep.of_guest rfl rfl rfl

theorem InStep.execute {insn : Insn} (inStep : InStep m) (executed : execute m insn = .ok m') : InStep m' := by
  obtain ⟨w, regs, rfl, rfl | ⟨reg, value, written⟩ | rfl | ⟨ea, rfl⟩⟩ := execute_ok executed
  · exact inStep.of_guest rfl rfl rfl
  · exact (inStep.write written).of_guest rfl rfl rfl
  · exact inStep.of_guest rfl rfl rfl
  · exact inStep.of_guest rfl rfl rfl

theorem InStep.emulate {err : Err} (inStep : InStep m) (emulated : guestEmulate m = .ok (err, m')) : InStep m' := by
  rcases guestEmulate_ok emulated with rfl | ⟨host, pc, rfl⟩ | ⟨insn, executed⟩
  · exact inStep
  · exact inStep.of_guest rfl rfl rfl
  · exact inStep.execute executed

theorem InStep.toggleSs {on : Bool} (inStep : InStep m) (toggled : guestToggleSs m = .ok (on, m')) : InStep m' := by
  have stepping : InStep { m with guest := { m.guest with monMsr := m.guest.monMsr ^^^ MSR_SE } } :=
    inStep.of_guest rfl rfl rfl
  exact (guestSetMsr_ok stepping.coherent (guestToggleSs_ok toggled)).inStep

/-- A store through the pointer `picol_reg` has goes past `guest_set_msr`. -/
theorem InStep.set_iff (inStep : InStep m) (r : RegSlot) (value : W32) :
    InStep (r.set m value) ↔ (r = .msr → value &&& MSR_MMU_ON = m.guest.msr &&& MSR_MMU_ON) := by
  by_cases msr : r = .msr
  · subst msr
    simp only [true_imp_iff]
    constructor
    · intro after
      have vmm : (RegSlot.msr.set m value).guest.vmm = m.guest.vmm := rfl
      have status : (RegSlot.msr.set m value).guest.msr = value := rfl
      by_cases on : m.guest.vmm = .mmuOn
      · rw [inStep.on.mp on, ← status]
        exact after.on.mp (vmm.trans on)
      · have off : m.guest.vmm = .mmuOff := by
          have context := inStep.coherent.context
          cases kind : m.guest.vmm with
          | null => exact absurd kind context
          | mmuOn => exact absurd kind on
          | mmuOff => rfl
        rw [inStep.off.mp off, ← status]
        exact after.off.mp (vmm.trans off)
    · intro same
      obtain ⟨ir, dr⟩ := msr_bits_of_mmu_on same
      constructor
      · change value &&& MSR_IR ≠ 0 ↔ value &&& MSR_DR ≠ 0
        rw [ir, dr]
        exact inStep.agree
      · change m.guest.vmm = .mmuOn ↔ value &&& MSR_MMU_ON = MSR_MMU_ON
        rw [same]
        exact inStep.on
      · change m.guest.vmm = .mmuOff ↔ value &&& MSR_MMU_ON = 0
        rw [same]
        exact inStep.off
      · exact inStep.regs
  · have kept : InStep (r.set m value) := by
      cases r with
      | msr => exact absurd rfl msr
      | ctr | xer | cr | fpscr | pc | lr | sdr1 | gpr i => exact inStep.of_guest rfl rfl rfl
    exact ⟨fun _ same => absurd same msr, fun _ => kept⟩

/-- What controls the guest: it runs, an instruction of it is emulated, single-stepping is
    toggled, or the monitor is given a register command while MSR is as noted. -/
inductive ControlEvent
  | run
  | emulate
  | toggleSs
  | reg (argv : List String) (msr : W32)

inductive ControlStep (m : Machine) : ControlEvent → Machine → Prop
  | run {v : Machine} (guest : v.guest = m.guest) : ControlStep m .run v
  | emulate {err : Err} {v : Machine} (emulated : guestEmulate m = .ok (err, v)) : ControlStep m .emulate v
  | toggleSs {on : Bool} {v : Machine} (toggled : guestToggleSs m = .ok (on, v)) : ControlStep m .toggleSs v
  | reg {argv : List String} {result : PicolResult} {v : Machine} (handled : picolReg m argv = .ok (result, v)) :
      ControlStep m (.reg argv m.guest.msr) v

/-- A command that writes MSR leaves IR and DR as they are. -/
def ControlEvent.Keeps : ControlEvent → Prop
  | .reg ["msr", value] msr => ∀ v, picolScan value.toList = some v → v &&& MSR_MMU_ON = msr &&& MSR_MMU_ON
  | _ => True

theorem regSlot_msr {name : String} {r : RegSlot} (found : regSlot name = .ok (some r)) : r = .msr ↔ name = "msr" := by
  unfold regSlot at found
  by_cases msr : name = "msr"
  · subst msr
    simp only [String.reduceEq, if_false, if_true, pure_ok, Except.ok.injEq, Option.some.injEq] at found
    simp [← found]
  · simp only [msr, if_false, iff_false] at found ⊢
    rintro rfl
    split_ifs at found
    all_goals first
      | cases found
      | skip
    split at found
    · split at found
      · cases found
      · split at found
        all_goals cases found
    · cases found

theorem ControlEvent.keeps_reg (name value : String) (msr : W32) :
    (ControlEvent.reg [name, value] msr).Keeps ↔
      (name = "msr" → ∀ v, picolScan value.toList = some v → v &&& MSR_MMU_ON = msr &&& MSR_MMU_ON) := by
  by_cases named : name = "msr"
  · subst named
    simp [Keeps]
  · simp [Keeps, named]

theorem InStep.reg_iff {argv : List String} {result : PicolResult} (inStep : InStep m)
    (handled : picolReg m argv = .ok (result, m')) : InStep m' ↔ (ControlEvent.reg argv m.guest.msr).Keeps := by
  have unchanged : ∀ {keeps : Prop}, m' = m → keeps → (InStep m' ↔ keeps) := by
    rintro keeps rfl holds
    exact ⟨fun _ => holds, fun _ => inStep⟩
  unfold picolReg at handled
  split at handled
  · obtain ⟨slot, _, handled⟩ := bind_ok.mp handled
    split at handled
    all_goals
      simp only [pure_ok, Except.ok.injEq, Prod.mk.injEq] at handled
      exact unchanged handled.2.symm (by simp [ControlEvent.Keeps])
  · rename_i name value
    rw [ControlEvent.keeps_reg]
    obtain ⟨slot, found, handled⟩ := bind_ok.mp handled
    split at handled
    · rename_i r
      split at handled
      · rename_i v scanned
        simp only [pure_ok, Except.ok.injEq, Prod.mk.injEq] at handled
        obtain ⟨_, rfl⟩ := handled
        rw [inStep.set_iff r v, regSlot_msr found, scanned]
        simp
      · rename_i unscanned
        simp only [pure_ok, Except.ok.injEq, Prod.mk.injEq] at handled
        exact unchanged handled.2.symm fun _ v scanned => by rw [unscanned] at scanned; cases scanned
    · simp only [pure_ok, Except.ok.injEq, Prod.mk.injEq] at handled
      refine unchanged handled.2.symm ?_
      rintro rfl
      cases found
  · rename_i short long
    simp only [pure_ok, Except.ok.injEq, Prod.mk.injEq] at handled
    refine unchanged handled.2.symm ?_
    unfold ControlEvent.Keeps
    split
    · rename_i event
      obtain ⟨rfl, _⟩ := ControlEvent.reg.inj event
      exact absurd rfl (long _ _)
    · trivial

theorem InStep.step_iff {e : ControlEvent} (inStep : InStep m) (step : ControlStep m e m') : InStep m' ↔ e.Keeps := by
  cases step with
  | run guest => exact ⟨fun _ => trivial, fun _ => inStep.of_guest (by rw [guest]) (by rw [guest]) (by rw [guest])⟩
  | emulate emulated => exact ⟨fun _ => trivial, fun _ => inStep.emulate emulated⟩
  | toggleSs toggled => exact ⟨fun _ => trivial, fun _ => inStep.toggleSs toggled⟩
  | reg handled => exact inStep.reg_iff handled

/-- From `guest_init` on, as long as the monitor's writes to MSR leave IR and DR alone, MSR and the
    context in use are in step. The first write that does not ends that. -/
theorem msr_context_in_step {env : InitEnv} {page : VmmPtr → VmmPage} {host : Host} {os : Os} {garbage : Buf}
    {little : Bool} {ramSize : W32} {m t : Machine} {history : List ControlEvent}
    (inited : guestInit env (Machine.start page host os garbage) little ramSize = .ok (.none, m))
    (run : Run ControlStep m history t) (keeps : ∀ e ∈ history, e.Keeps) :
    InStep t ∧ ∀ e u, ControlStep t e u → (InStep u ↔ e.Keeps) := by
  have inStep : InStep t := by
    refine run.invariant (I := fun older t => (∀ e ∈ older, e.Keeps) → InStep t) ?_ ?_ keeps
    · intro _
      obtain ⟨vmm, regs, msr, _⟩ := guestInit_ok inited
      constructor
      · rw [msr]
        decide
      · rw [msr, vmm]
        decide
      · rw [msr, vmm]
        decide
      · rw [regs, vmm]
    · intro older t e u ih step keeps
      have before := ih fun d member => keeps d (by simp [member])
      exact (before.step_iff step).mpr (keeps e (by simp))
  exact ⟨inStep, fun e u step => inStep.step_iff step⟩

theorem msr_command (m : Machine) :
    picolReg m ["msr", "0x30"] = .ok (.ok none, { m with guest := { m.guest with msr := 0x30 } }) ∧
    picolReg m ["msr", "0"] = .ok (.ok none, { m with guest := { m.guest with msr := 0 } }) := ⟨rfl, rfl⟩

theorem kept_msr_in_step : ∃ (m t : Machine), Run ControlStep m [.reg ["msr", "0x30"] m.guest.msr] t ∧
    t.guest.msr = 0x30 ∧ InStep t := by
  obtain ⟨m, s, plain⟩ := plain_boot
  have run := Run.single (ControlStep.reg (msr_command m).1)
  have msr := (guestInit_ok plain.inited).2.2.1
  refine ⟨m, _, run, rfl, (msr_context_in_step plain.inited run ?_).1⟩
  intro e member
  obtain rfl := List.mem_singleton.mp member
  rw [ControlEvent.keeps_reg]
  intro _ v scanned
  obtain rfl : (0x30 : W32) = v := Option.some.inj scanned
  rw [msr]
  decide

/-- Clearing MSR from the monitor leaves the guest in the context for translation. -/
theorem msr_command_breaks_step : ¬ ∀ (env : InitEnv) (page : VmmPtr → VmmPage) (host : Host) (os : Os) (garbage : Buf)
    (little : Bool) (ramSize : W32) (m t : Machine) (history : List ControlEvent),
    guestInit env (Machine.start page host os garbage) little ramSize = .ok (.none, m) →
    Run ControlStep m history t → InStep t := by
  intro always
  obtain ⟨m, s, plain⟩ := plain_boot
  have inStep := always _ _ _ _ _ _ _ _ _ _ plain.inited (.single (.reg (msr_command m).2))
  have context : m.guest.vmm = .mmuOn := (guestInit_ok plain.inited).1
  have on : (0 : W32) &&& MSR_MMU_ON = MSR_MMU_ON := inStep.on.mp context
  exact absurd on (by decide)

end ToyHv
