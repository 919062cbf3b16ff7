import ToyHv.Model.Guest

namespace ToyHv

/-- The register block in use is that of the context in use. -/
structure CoherentGuest (m : Machine) : Prop where
  context : m.guest.vmm ≠ .null
  regs : m.guest.regs = m.guest.vmm

def contextOf (mmuOn : Bool) : VmmPtr := if mmuOn then .mmuOn else .mmuOff

def Machine.fpscr (m : Machine) : BitVec 64 := (m.page m.guest.regs).vmmProcState.ppcFPSCR

@[simp] theorem CoherentGuest.setRegs {m : Machine} {regs : Regs} (coherent : CoherentGuest m) :
    CoherentGuest (m.setRegs regs) := ⟨coherent.context, coherent.regs⟩

@[simp] theorem Machine.fpscr_setRegs (m : Machine) (regs : Regs) : (m.setRegs regs).fpscr = m.fpscr := by
  simp [Machine.fpscr, Machine.setRegs, VmmPage.setRegs]

/-- What a write to MSR leaves: the context of its IR and DR with the registers carried over, and
    everything that is not a register as it was. -/
structure MsrSet (m : Machine) (msr : W32) (m' : Machine) : Prop where
  agree : msr &&& MSR_IR ≠ 0 ↔ msr &&& MSR_DR ≠ 0
  guest : m'.guest =
    { m.guest with msr, vmm := contextOf (msr &&& MSR_IR ≠ 0), regs := contextOf (msr &&& MSR_IR ≠ 0) }
  regs : m'.regs = { m.regs with ppcMSR := msr ||| m.guest.monMsr }
  fpscr : m'.fpscr = m.fpscr
  others : ∃ page, m' = { m with guest := m'.guest, page }

theorem MsrSet.coherent {m m' : Machine} {msr : W32} (set : MsrSet m msr m') : CoherentGuest m' := by
  constructor
  · rw [set.guest]
    simp only [contextOf]
    split <;> decide
  · rw [set.guest]

theorem MsrSet.mapped {m m' : Machine} {msr : W32} (set : MsrSet m msr m') : m'.mapped = m.mapped := by
  obtain ⟨page, same⟩ := set.others
  rw [same]

theorem guestSetVmm_ok (m : Machine) (mmuOn : Bool) (coherent : CoherentGuest m) :
    ∃ page, guestSetVmm m mmuOn =
        { m with guest := { m.guest with vmm := contextOf mmuOn, regs := contextOf mmuOn }, page } ∧
      (page (contextOf mmuOn)).vmmProcState = (m.page m.guest.regs).vmmProcState := by
  obtain ⟨context, regs⟩ := coherent
  by_cases same : m.guest.vmm = contextOf mmuOn
  · refine ⟨m.page, ?_, by rw [← same, regs]⟩
    have guest : m.guest = { m.guest with vmm := contextOf mmuOn, regs := contextOf mmuOn } := by
      calc m.guest = { m.guest with vmm := m.guest.vmm, regs := m.guest.regs } := rfl
        _ = _ := by rw [regs, same]
    rw [← guest]
    exact if_pos same
  · refine ⟨_, (if_neg same).trans rfl, ?_⟩
    rw [if_pos context, regs]
    change (Function.update m.page (contextOf mmuOn) _ (contextOf mmuOn)).vmmProcState = _
    rw [Function.update_self]

theorem guestSetMsr_ok {m m' : Machine} {msr : W32} (coherent : CoherentGuest m) (set : guestSetMsr m msr = .ok m') :
    MsrSet m msr m' := by
  simp only [guestSetMsr, bind_ok, bugOn_ok, pure_ok, Except.ok.injEq] at set
  obtain ⟨_, agree, rfl⟩ := set
  have agree : msr &&& MSR_IR ≠ 0 ↔ msr &&& MSR_DR ≠ 0 := by
    by_cases ir : msr &&& MSR_IR = 0 <;> by_cases dr : msr &&& MSR_DR = 0 <;> simp_all
  have either : (decide (msr &&& MSR_IR ≠ 0) || decide (msr &&& MSR_DR ≠ 0)) = decide (msr &&& MSR_IR ≠ 0) := by
    simp only [agree, Bool.or_self]
  obtain ⟨page, switched, state⟩ := guestSetVmm_ok m (msr &&& MSR_IR ≠ 0) coherent
  rw [either, switched]
  constructor
  · exact agree
  · rfl
  · simp only [Machine.regs, Machine.setRegs, VmmPage.setRegs, Function.update_self, state]
  · simp only [Machine.fpscr, Machine.setRegs, VmmPage.setRegs, Function.update_self, state]
  · exact ⟨_, rfl⟩

theorem guestToggleSs_ok {m m' : Machine} {on : Bool} (toggled : guestToggleSs m = .ok (on, m')) :
    guestSetMsr { m with guest := { m.guest with monMsr := m.guest.monMsr ^^^ MSR_SE } } m.guest.msr = .ok m' := by
  simp only [guestToggleSs, bind_ok, pure_ok, Except.ok.injEq, Prod.mk.injEq] at toggled
  obtain ⟨_, set, _, rfl⟩ := toggled
  exact set

theorem msr_mmu_iff {msr : W32} (agree : msr &&& MSR_IR ≠ 0 ↔ msr &&& MSR_DR ≠ 0) :
    (msr &&& MSR_IR ≠ 0 ↔ msr &&& MSR_MMU_ON = MSR_MMU_ON) ∧ (msr &&& MSR_IR = 0 ↔ msr &&& MSR_MMU_ON = 0) := by
  have ir : msr &&& MSR_IR = if msr.getLsbD 5 then MSR_IR else 0 := BitVec.and_twoPow msr 5
  have dr : msr &&& MSR_DR = if msr.getLsbD 4 then MSR_DR else 0 := BitVec.and_twoPow msr 4
  rw [MSR_MMU_ON, BitVec.and_or_distrib_left]
  rw [ir, dr] at agree ⊢
  revert agree
  cases msr.getLsbD 5 <;> cases msr.getLsbD 4 <;> decide

theorem msr_bits_of_mmu_on {msr msr' : W32} (same : msr &&& MSR_MMU_ON = msr' &&& MSR_MMU_ON) :
    msr &&& MSR_IR = msr' &&& MSR_IR ∧ msr &&& MSR_DR = msr' &&& MSR_DR := by
  have ir : ∀ w : W32, w &&& MSR_IR = w &&& MSR_MMU_ON &&& MSR_IR := by
    intro w
    rw [BitVec.and_assoc]
    rfl
  have dr : ∀ w : W32, w &&& MSR_DR = w &&& MSR_MMU_ON &&& MSR_DR := by
    intro w
    rw [BitVec.and_assoc]
    rfl
  exact ⟨by rw [ir msr, ir msr', same], by rw [dr msr, dr msr', same]⟩

theorem guestInit_ok {m : Machine} {env : InitEnv} {page : VmmPtr → VmmPage} {host : Host} {os : Os} {garbage : Buf}
    {little : Bool}
    {ramSize : W32} (inited : guestInit env (Machine.start page host os garbage) little ramSize = .ok (.none, m)) :
    m.guest.vmm = .mmuOn ∧ m.guest.regs = .mmuOn ∧ m.guest.msr = MSR_ME ||| MSR_EP ||| MSR_MMU_ON ∧
      m.mapped .mmuOn = fun _ => none := by
  cases off : env.offPage with
  | none => simp [guestInit, vmmInitVm, off] at inited
  | some offPage =>
    cases on : env.onPage with
    | none => simp [guestInit, vmmInitVm, off, on] at inited
    | some onPage =>
      simp only [guestInit, vmmInitVm, off, on] at inited
      split at inited
      · rename_i ram _
        obtain ⟨m', set, done⟩ := bind_ok.mp inited
        obtain ⟨_, rfl⟩ := Prod.mk.inj (Except.ok.inj done)
        obtain ⟨_, _, same⟩ := bind_ok.mp set
        obtain rfl := Except.ok.inj same
        exact ⟨rfl, rfl, rfl, rfl⟩
      · rename_i failed _
        obtain ⟨rfl, _⟩ := Prod.mk.inj (Except.ok.inj inited)
        exact (failed rfl).elim

end ToyHv
