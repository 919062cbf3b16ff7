import ToyHv.Emulation.Context
import ToyHv.Emulation.Execute
import ToyHv.Library.Cache
import ToyHv.Model.Monitor
import ToyHv.Translation.Backmap
import ToyHv.Vm.Services

namespace ToyHv

open Library

/-- What happens to a virtual machine, one at a time. It runs, it is served after an exit, or the
    monitor's user toggles single-stepping or uses a register. The monitor's other commands are no events. -/
inductive VmEvent
  | run
  | fault (isi accepted : Bool)
  | emulate
  | systemCall (env : CifEnv) (tvSec tvUsec : W32)
  | toggleSs
  | reg (argv : List String)

/-- While the guest runs it stores to pages that are mapped, and the kernel may evict some. A handler that
    aborts, never ends or has undefined behaviour makes no step. -/
inductive VmStep (m : Machine) : VmEvent → Machine → Prop
  | run {v : Machine} (guest : v.guest = m.guest) (ram : v.ram = m.ram) (rom : v.rom = m.rom)
      (evicted : ∀ context, Sound (v.mapped context) (m.mapped context))
      (stored : ∀ x, v.host x ≠ m.host x →
        ∃ page ha, m.mapped m.guest.vmm page = some ha ∧ (x - ha).toNat < 4096) : VmStep m .run v
  | fault {isi accepted : Bool} {err : Err} {v : Machine} (handled : guestFault m isi accepted = .ok (err, v)) :
      VmStep m (.fault isi accepted) v
  | emulate {err : Err} {v : Machine} (emulated : guestEmulate m = .ok (err, v)) : VmStep m .emulate v
  | systemCall {env : CifEnv} {tvSec tvUsec : W32} {err : Err} {v : Machine}
      (called : romCallBy (env.ofTree tvSec tvUsec).handler m = .ok (err, v)) :
      VmStep m (.systemCall env tvSec tvUsec) v
  | toggleSs {on : Bool} {v : Machine} (toggled : guestToggleSs m = .ok (on, v)) : VmStep m .toggleSs v
  | reg {argv : List String} {result : PicolResult} {v : Machine} (handled : picolReg m argv = .ok (result, v)) :
      VmStep m (.reg argv) v

/-- Only registers changed, those of the processor or the guest's own. -/
structure Registers (m m' : Machine) : Prop where
  same : ∃ guest page, m' = { m with guest, page }
  little : guestIsLittle m'.guest = guestIsLittle m.guest

variable {m m' v : Machine}

theorem Registers.refl (m : Machine) : Registers m m := ⟨⟨m.guest, m.page, rfl⟩, rfl⟩

theorem Registers.trans (first : Registers m v) (second : Registers v m') : Registers m m' := by
  obtain ⟨guest, page, rfl⟩ := first.same
  obtain ⟨guest', page', rfl⟩ := second.same
  exact ⟨⟨guest', page', rfl⟩, second.little.trans first.little⟩

theorem Registers.setRegs (m : Machine) (regs : Regs) : Registers m (m.setRegs regs) := ⟨⟨_, _, rfl⟩, rfl⟩

theorem guestSetVmm_registers (m : Machine) (mmuOn : Bool) : Registers m (guestSetVmm m mmuOn) := by
  by_cases same : m.guest.vmm = contextOf mmuOn
  · have kept : guestSetVmm m mmuOn = m := if_pos same
    rw [kept]
    exact .refl m
  · have switched : guestSetVmm m mmuOn = _ := if_neg same
    rw [switched]
    exact ⟨⟨_, _, rfl⟩, rfl⟩

theorem guestSetMsr_registers {msr : W32} (set : guestSetMsr m msr = .ok m') : Registers m m' := by
  simp only [guestSetMsr, bind_ok, pure_ok, Except.ok.injEq] at set
  obtain ⟨_, _, rfl⟩ := set
  have switched := guestSetVmm_registers m (msr &&& MSR_IR ≠ 0 || msr &&& MSR_DR ≠ 0)
  generalize guestSetVmm m _ = v at switched ⊢
  exact switched.trans ⟨⟨_, _, rfl⟩, rfl⟩

theorem guestToggleSs_registers {on : Bool} (toggled : guestToggleSs m = .ok (on, m')) : Registers m m' := by
  simp only [guestToggleSs, bind_ok, pure_ok, Except.ok.injEq, Prod.mk.injEq] at toggled
  obtain ⟨_, set, _, rfl⟩ := toggled
  have stepping : Registers m { m with guest := { m.guest with monMsr := m.guest.monMsr ^^^ MSR_SE } } := by
    refine ⟨⟨_, _, rfl⟩, ?_⟩
    have bit : ∀ w : W32, w &&& MSR_LE = if w.getLsbD 0 then MSR_LE else 0 := fun w => BitVec.and_twoPow w 0
    have apart : MSR_SE.getLsbD 0 = false := by decide
    simp only [guestIsLittle, bit, BitVec.getLsbD_xor, apart, Bool.xor_false]
  exact stepping.trans (guestSetMsr_registers set)

theorem RegSlot.set_registers (m : Machine) (value : W32) (r : RegSlot) : Registers m (r.set m value) := by
  cases r with
  | msr | sdr1 | fpscr => exact ⟨⟨_, _, rfl⟩, rfl⟩
  | ctr | xer | cr | pc | lr | gpr i => exact .setRegs m _

theorem picolReg_registers {argv : List String} {result : PicolResult} (handled : picolReg m argv = .ok (result, m')) :
    Registers m m' := by
  have returns : Returns (picolReg m argv) fun r => Registers m r.2 := by
    unfold picolReg
    split
    · apply Returns.read
      rintro (_ | r)
      · exact .pure (.refl m)
      · exact .pure (.refl m)
    · apply Returns.read
      rintro (_ | r)
      · exact .pure (.refl m)
      · dsimp only
        split
        · exact .pure (r.set_registers m _)
        · exact .pure (.refl m)
    · exact .pure (.refl m)
  exact returns _ handled

/-- What the hypervisor does for a guest, mapping a page apart. -/
structure Harmless (m m' : Machine) : Prop where
  ram : m'.ram = m.ram
  little : guestIsLittle m'.guest = guestIsLittle m.guest
  rom : ∃ ops, Run (RomStep m.ram) m.rom ops m'.rom
  evicted : ∀ context, Sound (m'.mapped context) (m.mapped context)
  outside : ∀ x, ¬ Window (guestIsLittle m.guest) m.ram x → m'.host x = m.host x

theorem Effect.harmless (effect : Effect m m') : Harmless m m' :=
  ⟨effect.ram, by rw [effect.guest], effect.rom, fun _ _ _ cached => by rwa [effect.mapped] at cached, effect.outside⟩

theorem Registers.harmless (registers : Registers m m') : Harmless m m' := by
  obtain ⟨guest, page, rfl⟩ := registers.same
  exact ⟨rfl, registers.little, ⟨[], .nil _⟩, fun _ _ _ => id, fun _ _ => rfl⟩

theorem Harmless.trans (first : Harmless m v) (second : Harmless v m') : Harmless m m' := by
  refine ⟨second.ram.trans first.ram, second.little.trans first.little, ?_,
    fun context => (second.evicted context).trans (first.evicted context), fun x beyond => ?_⟩
  · obtain ⟨ops, run⟩ := first.rom
    obtain ⟨more, next⟩ := second.rom
    rw [first.ram] at next
    exact ⟨ops ++ more, run.append next⟩
  · have later := second.outside x
    rw [first.little, first.ram] at later
    exact (later beyond).trans (first.outside x beyond)

theorem Harmless.of_evicted {mapped : VmmPtr → W32 → Option W32}
    (evicted : ∀ context, Sound (mapped context) (m.mapped context)) : Harmless m { m with mapped } :=
  ⟨rfl, rfl, ⟨[], .nil _⟩, evicted, fun _ _ => rfl⟩

theorem sound_update {context : VmmPtr} {pages : W32 → Option W32} (sound : Sound pages (m.mapped context))
    (other : VmmPtr) : Sound (Function.update m.mapped context pages other) (m.mapped other) := by
  by_cases same : other = context
  · subst same
    rw [Function.update_self]
    exact sound
  · rw [Function.update_of_ne same]
    exact fun _ _ => id

theorem guestUnmap_harmless (m : Machine) (ea : W32) : Harmless m (guestUnmap m ea) :=
  .of_evicted (sound_update (.evict (fun _ _ => id) (pageOf ea)))

theorem guestUnmapAll_harmless (m : Machine) : Harmless m (guestUnmapAll m) :=
  .of_evicted (sound_update .empty)

theorem writeSup_harmless {value : W32} {reg : SupReg} (written : writeSup m value reg = .ok m') : Harmless m m' := by
  cases reg with
  | msr => exact (guestSetMsr_registers written).harmless
  | sdr1 =>
    simp only [writeSup, Except.ok.injEq] at written
    subst written
    have stored : ∀ w : Machine, Registers w { w with guest := { w.guest with sdr1 := value } } :=
      fun w => ⟨⟨_, _, rfl⟩, rfl⟩
    split
    · exact (guestUnmapAll_harmless m).trans (stored (guestUnmapAll m)).harmless
    · exact (stored m).harmless
  | pvr | dbat i | srr0 | srr1 | ibat i | sprg i | sr i =>
    simp only [writeSup, Except.ok.injEq] at written
    subst written
    exact Registers.harmless ⟨⟨_, _, rfl⟩, rfl⟩

theorem execute_harmless {insn : Insn} (executed : execute m insn = .ok m') : Harmless m m' := by
  obtain ⟨w, regs, rfl, rfl | ⟨reg, value, written⟩ | rfl | ⟨ea, rfl⟩⟩ := execute_ok executed
  · exact (Registers.setRegs w regs).harmless
  · exact (writeSup_harmless written).trans (Registers.setRegs w regs).harmless
  · exact (guestUnmapAll_harmless m).trans (Registers.setRegs _ regs).harmless
  · exact (guestUnmap_harmless m ea).trans (Registers.setRegs _ regs).harmless

theorem guestEmulate_harmless {err : Err} (emulated : guestEmulate m = .ok (err, m')) : Harmless m m' := by
  have returns : Returns (guestEmulate m) fun r => Harmless m r.2 := by
    apply Returns.read
    rintro ⟨err, insn⟩
    apply Returns.ite
    · intro failed
      refine .pure ?_
      rw [emulateDone, if_neg fun done => failed done.1]
      exact (Registers.refl m).harmless
    · intro _
      apply Returns.read
      rintro (_ | seq)
      · dsimp only
        rw [guestEmulateInsn_decode]
        cases decode insn with
        | none => exact .ok (Registers.refl m).harmless
        | some decoded => exact .bind (fun v executed => execute_harmless executed) fun v served => .pure served
      · refine .bind (P := Harmless m) ?_ fun v served => .pure served
        refine .bind (guestToX_serves m _ _) fun r kept => .pure ?_
        exact kept.harmless.trans (Registers.setRegs r.2 _).harmless
  exact returns _ emulated

theorem CallEnds.harmless {err : Err} (ends : CallEnds m err m') : Harmless m m' := by
  cases ends with
  | failed _ kept => exact kept.harmless
  | returned _ kept => exact kept.harmless.trans ((Registers.setRegs _ _).trans (Registers.setRegs _ _)).harmless

theorem romCallBy_harmless {env : CifEnv} {tvSec tvUsec : W32} {err : Err}
    (called : romCallBy (env.ofTree tvSec tvUsec).handler m = .ok (err, m')) : Harmless m m' :=
  (romCallBy_ends (ofTree_serves env tvSec tvUsec) m _ called).harmless

/-- What mapping a page of RAM leaves, if it happens. -/
structure Filled (m m' : Machine) : Prop where
  same : ∃ mapped, m' = { m with mapped }
  ram : ∀ context page ha, m'.mapped context page = some ha → m.mapped context page = some ha ∨
    ∃ gra, gra < m.ram.pmemBytes ∧ ha = m.ram.pmem + gra ∧ ha &&& PAGE_MASK = 0

theorem Filled.refl (m : Machine) : Filled m m := ⟨⟨m.mapped, rfl⟩, fun _ _ _ => .inl⟩

theorem guestMap_filled {ha gra : W32} (accepted : Bool) (ea : W32) (inside : gra < m.ram.pmemBytes)
    (same : ha = m.ram.pmem + gra) : Returns (guestMap m accepted ha ea) fun r => Filled m r.2 := by
  rintro ⟨err, v⟩ mapping
  simp only [guestMap, bind_ok, bugOn_ok, not_not] at mapping
  obtain ⟨_, aligned, _, _, mapping⟩ := mapping
  split at mapping
  · simp only [pure_ok, Except.ok.injEq, Prod.mk.injEq] at mapping
    obtain ⟨_, rfl⟩ := mapping
    refine ⟨⟨_, rfl⟩, fun context page other cached => ?_⟩
    by_cases now : context = m.guest.vmm
    · subst now
      simp only [Function.update_self] at cached
      by_cases filled : page = pageOf ea
      · subst filled
        simp only [Function.update_self, Option.some.injEq] at cached
        exact .inr ⟨gra, inside, cached.symm.trans same, cached ▸ aligned⟩
      · exact .inl (by simpa only [Function.update_of_ne filled] using cached)
    · exact .inl (by simpa only [Function.update_of_ne now] using cached)
  · simp only [pure_ok, Except.ok.injEq, Prod.mk.injEq] at mapping
    obtain ⟨_, rfl⟩ := mapping
    exact .refl m

/-- A fault maps a whole page of host memory that begins in RAM, or nothing. -/
theorem guestFault_filled {isi accepted : Bool} {err : Err} (handled : guestFault m isi accepted = .ok (err, m')) :
    Filled m m' := by
  have returns : Returns (guestFault m isi accepted) fun r => Filled m r.2 := by
    refine .read fun _ => .ite (fun _ => .read ?_) fun _ => .pure (.refl m)
    rintro ⟨err, gra⟩
    refine .read fun _ => .ite (fun _ => .pure (.refl m)) fun _ => ?_
    refine .bind (P := fun ha => gra < m.ram.pmemBytes ∧ ha = m.ram.pmem + gra) (fun ha looked => pmemHa_ok looked) ?_
    exact fun ha place => guestMap_filled accepted _ place.1 place.2
  exact returns _ handled

theorem VmStep.rom {e : VmEvent} (step : VmStep m e m') :
    m'.ram = m.ram ∧ ∃ ops, Run (RomStep m.ram) m.rom ops m'.rom := by
  have served : Harmless m m' → m'.ram = m.ram ∧ ∃ ops, Run (RomStep m.ram) m.rom ops m'.rom :=
    fun harmless => ⟨harmless.ram, harmless.rom⟩
  cases step with
  | run _ ram rom =>
    rw [rom]
    exact ⟨ram, [], .nil _⟩
  | fault handled =>
    obtain ⟨mapped, rfl⟩ := (guestFault_filled handled).same
    exact ⟨rfl, [], .nil _⟩
  | emulate emulated => exact served (guestEmulate_harmless emulated)
  | systemCall called => exact served (romCallBy_harmless called)
  | toggleSs toggled => exact served (guestToggleSs_registers toggled).harmless
  | reg handled => exact served (picolReg_registers handled).harmless

/-- All that a run of the machine does to the ROM is done by services. -/
theorem vm_rom {s t : Machine} {history : List VmEvent} (run : Run VmStep s history t) :
    t.ram = s.ram ∧ ∃ ops, Run (RomStep s.ram) s.rom ops t.rom := by
  refine run.invariant (I := fun _ t => t.ram = s.ram ∧ ∃ ops, Run (RomStep s.ram) s.rom ops t.rom) ?_ ?_
  · exact ⟨rfl, [], .nil _⟩
  · rintro _ t e u ⟨ram, ops, before⟩ step
    obtain ⟨same, more, now⟩ := step.rom
    rw [ram] at same now
    exact ⟨same, ops ++ more, before.append now⟩

end ToyHv
