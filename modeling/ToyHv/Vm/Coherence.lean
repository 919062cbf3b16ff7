import ToyHv.Memory.Scalars
import ToyHv.Monitor.Control
import ToyHv.Vm.Bookkeeping

namespace ToyHv

open Library

/-- The host page behind a page without translation. -/
def realPage (p : Pmem) (page : W32) : Option W32 :=
  if page < p.pmemBytes ∧ page.toNat % 4096 = 0 then some (p.pmem + page) else none

/-- What the kernel maps in either context is what the hypervisor would answer. -/
structure GuestView (m : Machine) : Prop extends FastPath m where
  real : Sound (m.mapped .mmuOff) (realPage m.ram)

/-- The user of the monitor writes neither MSR nor SDR1. -/
def VmEvent.Calm : VmEvent → Prop
  | .reg [name, _] => name ≠ "msr" ∧ name ≠ "sdr1"
  | _ => True

variable {m m' s t : Machine}

theorem FastPath.effect (inv : FastPath m) (effect : Effect m m') : FastPath m' := by
  obtain ⟨ops, served⟩ := effect.rom
  obtain ⟨calls, added⟩ := rom_additions served
  obtain ⟨table, grown⟩ := TableState.run ⟨inv.laminar, inv.paged⟩ added
  refine ⟨⟨?_, ?_⟩, ?_, table.laminar, table.paged, ?_⟩
  · rw [effect.guest]
    exact inv.coherent.context
  · rw [effect.guest]
    exact inv.coherent.regs
  · rw [effect.guest]
    exact inv.context
  · rw [effect.mapped]
    refine inv.sound.trans fun page ha answer => ?_
    unfold translationOf at answer ⊢
    rw [effect.guest, effect.ram]
    split at answer
    · rename_i magic
      rw [if_pos magic]
      exact grown page ha answer
    · cases answer

theorem FastPath.called {env : CifEnv} {tvSec tvUsec : W32} {err : Err} (inv : FastPath m)
    (called : romCallBy (env.ofTree tvSec tvUsec).handler m = .ok (err, m')) : FastPath m' := by
  cases romCallBy_ends (ofTree_serves env tvSec tvUsec) m _ called with
  | failed _ kept => exact inv.effect kept
  | returned _ kept => exact ((inv.effect kept).setRegs _).setRegs _

theorem regSlot_sdr1 {name : String} (found : regSlot name = .ok (some .sdr1)) : name = "sdr1" := by
  by_contra other
  unfold regSlot at found
  rw [if_neg other] at found
  split_ifs at found
  all_goals first
    | cases found
    | skip
  split at found
  · split at found
    · cases found
    · split at found
      all_goals cases found
  · cases found

theorem RegSlot.set_guest {r : RegSlot} (msr : r ≠ .msr) (sdr1 : r ≠ .sdr1) (m : Machine) (value : W32) :
    ∃ page, r.set m value = { m with page } := by
  cases r with
  | msr => exact absurd rfl msr
  | sdr1 => exact absurd rfl sdr1
  | ctr | xer | cr | fpscr | pc | lr | gpr i => exact ⟨_, rfl⟩

theorem picolReg_calm {argv : List String} {result : PicolResult} (calm : (VmEvent.reg argv).Calm)
    (handled : picolReg m argv = .ok (result, m')) : ∃ page, m' = { m with page } := by
  unfold picolReg at handled
  split at handled
  · obtain ⟨slot, _, handled⟩ := bind_ok.mp handled
    split at handled
    all_goals
      simp only [pure_ok, Except.ok.injEq, Prod.mk.injEq] at handled
      exact ⟨m.page, handled.2.symm⟩
  · obtain ⟨slot, found, handled⟩ := bind_ok.mp handled
    split at handled
    · rename_i r
      split at handled
      · rename_i v _
        simp only [pure_ok, Except.ok.injEq, Prod.mk.injEq] at handled
        obtain ⟨_, rfl⟩ := handled
        refine RegSlot.set_guest (fun msr => ?_) (fun sdr1 => ?_) m v
        · exact calm.1 ((regSlot_msr found).mp msr)
        · subst sdr1
          exact calm.2 (regSlot_sdr1 found)
      · simp only [pure_ok, Except.ok.injEq, Prod.mk.injEq] at handled
        exact ⟨m.page, handled.2.symm⟩
    · simp only [pure_ok, Except.ok.injEq, Prod.mk.injEq] at handled
      exact ⟨m.page, handled.2.symm⟩
  · simp only [pure_ok, Except.ok.injEq, Prod.mk.injEq] at handled
    exact ⟨m.page, handled.2.symm⟩

theorem FastPath.vm {e : VmEvent} (inv : FastPath m) (calm : e.Calm) (step : VmStep m e m') : FastPath m' := by
  cases step with
  | run guest ram rom evicted _ => exact inv.step (.run guest ram (by rw [rom]) evicted)
  | fault handled => exact inv.fault handled
  | emulate emulated => exact inv.emulate emulated
  | systemCall called => exact inv.called called
  | toggleSs toggled => exact inv.step (.toggleSs toggled)
  | reg handled =>
    obtain ⟨page, rfl⟩ := picolReg_calm calm handled
    exact inv.frame ⟨inv.coherent.context, inv.coherent.regs⟩ inv.context rfl rfl fun _ _ cached => ⟨cached, id⟩

theorem GuestView.harmless (view : GuestView m) (inv : FastPath m') (served : Harmless m m') : GuestView m' := by
  refine ⟨inv, ?_⟩
  rw [served.ram]
  exact (served.evicted .mmuOff).trans view.real

theorem GuestView.fault {isi accepted : Bool} {err : Err} (view : GuestView m)
    (handled : guestFault m isi accepted = .ok (err, m')) : Sound (m'.mapped .mmuOff) (realPage m'.ram) := by
  rcases guestFault_ok handled with rfl | ⟨gea, gra, flags, answer, inside, aligned, rfl⟩
  · exact view.real
  · by_cases off : m.guest.vmm = .mmuOff
    · have untranslated : m.guest.msr &&& MSR_MMU_ON ≠ MSR_MMU_ON := by
        intro on
        have context := view.context.mpr on
        rw [off] at context
        cases context
      rcases guestBackmapEx_slow answer with ⟨_, rfl, _⟩ | ⟨on, _⟩
      · have page := (isAligned_page gra).mp aligned
        have host : realPage m.ram gra = some (m.ram.pmem + gra) := if_pos ⟨inside, page⟩
        have filled := view.real.fill host
        rw [off, pageOf_of_aligned page]
        change Sound (Function.update m.mapped .mmuOff _ .mmuOff) _
        rw [Function.update_self]
        exact filled
      · exact absurd on untranslated
    · change Sound (Function.update m.mapped m.guest.vmm _ .mmuOff) _
      rw [Function.update_of_ne (Ne.symm off)]
      exact view.real

theorem GuestView.step {e : VmEvent} (view : GuestView m) (calm : e.Calm) (step : VmStep m e m') : GuestView m' := by
  have inv := view.toFastPath.vm calm step
  cases step with
  | run guest ram rom evicted _ =>
    refine ⟨inv, ?_⟩
    rw [ram]
    exact (evicted .mmuOff).trans view.real
  | fault handled => exact ⟨inv, view.fault handled⟩
  | emulate emulated => exact view.harmless inv (guestEmulate_harmless emulated)
  | systemCall called => exact view.harmless inv (romCallBy_harmless called)
  | toggleSs toggled => exact view.harmless inv (guestToggleSs_registers toggled).harmless
  | reg handled => exact view.harmless inv (picolReg_registers handled).harmless

/-- A page of RAM that the kernel maps, and the answer to its addresses. -/
structure Answered (m : Machine) (ea ha g : W32) : Prop where
  inside : g < m.ram.pmemBytes
  page : g.toNat % 4096 = 0
  host : ha = m.ram.pmem + g
  looked : ∀ gra, guestBackmap m ea gra = .ok (.none, g + (ea &&& PAGE_MASK))

theorem page_split (ea : W32) : pageOf ea + (ea &&& PAGE_MASK) = ea := by
  apply BitVec.eq_of_toNat_eq
  rw [BitVec.toNat_add, pageOf, toNat_page_base, toNat_page_offset]
  have top := ea.isLt
  omega

theorem ram_page_ne {p : Pmem} {g : W32} (inside : g < p.pmemBytes) : p.pmem + g ≠ -1 := by
  have top := p.below_top
  have below := BitVec.lt_def.mp inside
  intro last
  have sum := congrArg BitVec.toNat last
  rw [BitVec.toNat_add] at sum
  have ones : (-1 : W32).toNat = 4294967295 := rfl
  omega

theorem GuestView.answered (view : GuestView m) {ea ha : W32} (mapped : m.mapped m.guest.vmm (pageOf ea) = some ha) :
    ∃ g, Answered m ea ha g := by
  cases context : m.guest.vmm with
  | null => exact absurd context view.coherent.context
  | mmuOn =>
    have on := view.context.mp context
    rw [context] at mapped
    have answer := view.sound _ _ mapped
    rw [translationOf] at answer
    split at answer
    · obtain ⟨aligned, r, found, valid, rfl⟩ := romPage_eq_some.mp answer
      have page := (view.paged r (mmuRangeFind_some found).1).translates_page (mmuRangeFind_some found).2 aligned
      refine ⟨_, valid, page, rfl, fun gra => ?_⟩
      have mapping : vmmGetPageMapping m m.guest.vmm ea = m.ram.pmem + (pageOf ea - r.base + r.ra) := by
        rw [vmmGetPageMapping, context, mapped, Option.getD_some]
      have fast := pmemGra_pmem (page_inside page valid ea) gra
      rw [← BitVec.add_assoc] at fast
      rw [guestBackmap, guestBackmapEx, if_neg (not_not.mpr on)]
      simp only [mapping, true_and, ne_eq, ram_page_ne valid, not_false_eq_true, if_true, fast]
    · cases answer
  | mmuOff =>
    have off : m.guest.msr &&& MSR_MMU_ON ≠ MSR_MMU_ON := by
      intro on
      have other := view.context.mpr on
      rw [context] at other
      cases other
    rw [context] at mapped
    have answer := view.real _ _ mapped
    rw [realPage] at answer
    split at answer
    · rename_i valid
      obtain rfl := Option.some.inj answer
      refine ⟨_, valid.1, valid.2, rfl, fun gra => ?_⟩
      have inside := page_inside valid.2 valid.1 ea
      rw [page_split] at inside ⊢
      have there : pmemGraValid m.ram ea = true := decide_eq_true inside
      rw [guestBackmap, guestBackmapEx, if_pos off, if_pos there]
    · cases answer

theorem Answered.fits {ea ha g n : W32} (answered : Answered m ea ha g) (page : ea.toNat % 4096 + n.toNat ≤ 4096) :
    ScalarFits m ea n := by
  refine ⟨guestBackmap_total.mp ⟨_, answered.looked 0⟩, fun gra looked inside => ⟨page, ?_⟩⟩
  obtain ⟨_, rfl⟩ := Prod.mk.inj (Except.ok.inj ((answered.looked _).symm.trans looked))
  have offset := toNat_page_offset ea
  have whole := answered.page
  have pages := m.ram.size_aligned
  have below := BitVec.lt_def.mp answered.inside
  rw [BitVec.toNat_add]
  omega

/-- Where the processor finds a scalar of its guest in a mapped page. In little-endian mode it munges addresses. -/
def processorHa (little : Bool) (ha ea n : W32) : W32 :=
  if little then (ha + (ea &&& PAGE_MASK)) ^^^ munge n else ha + (ea &&& PAGE_MASK)

theorem Answered.scalarHa {ea ha g : W32} (answered : Answered m ea ha g) (little : Bool) (n : W32) :
    scalarHa little m.ram (g + (ea &&& PAGE_MASK)) n = processorHa little ha ea n := by
  rw [ToyHv.scalarHa, processorHa, answered.host, BitVec.add_assoc]

theorem GuestView.reachable {env : InitEnv} {boot : BootEnv} {page : VmmPtr → VmmPage} {host : Host} {os : Os}
    {garbage : Buf} {little : Bool} {ramSize : W32} {history : List VmEvent}
    (inited : guestInit env (Machine.start page host os garbage) little ramSize = .ok (.none, m))
    (booted : romInit boot m = .ok (.none, s)) (calm : ∀ e ∈ history, e.Calm) (run : Run VmStep s history t) :
    GuestView t := by
  refine run.invariant (I := fun older t => (∀ e ∈ older, e.Calm) → GuestView t) (fun _ => ⟨.start inited booted, ?_⟩)
    (fun older t e u ih step calm => ?_) calm
  · obtain ⟨prepared⟩ := romInit_ok booted
    obtain ⟨host, page, same⟩ := prepared.done
    have mapped : s.mapped = m.mapped := by rw [same]
    intro page ha cached
    rw [mapped, (guestInit_fresh inited).2] at cached
    cases cached
  · have before := ih fun d member => calm d (by simp [member])
    exact before.step (calm e (by simp)) step

/-- With translation or without, a scalar in a page that the kernel maps for the guest is for the hypervisor where it is
    for the processor: `guest_from_x` loads what the guest sees, and `guest_to_x` stores what it will see. Calls with
    undefined behaviour, such as those that store behind `service` or `xfer_buf`, are no steps, and of the monitor only
    `ss` and the registers are. -/
theorem guest_memory_shared {env : InitEnv} {boot : BootEnv} {page : VmmPtr → VmmPage} {host : Host} {os : Os}
    {garbage : Buf} {little : Bool} {ramSize ea ha n : W32} {history : List VmEvent}
    (inited : guestInit env (Machine.start page host os garbage) little ramSize = .ok (.none, m))
    (booted : romInit boot m = .ok (.none, s)) (calm : ∀ e ∈ history, e.Calm) (run : Run VmStep s history t)
    (mapped : t.mapped t.guest.vmm (pageOf ea) = some ha) (size : AccessSize n)
    (whole : ea.toNat % 4096 + n.toNat ≤ 4096) :
    (∀ buf, guestFrom t buf ea n n = .ok (.none, buf.put 0 n.toNat fun k =>
      t.host (processorHa (guestIsLittle t.guest) ha ea n + BitVec.ofNat 32 k))) ∧
    ∀ src, guestTo t ea src n n = .ok (.none, { t with
      host := t.host.put (processorHa (guestIsLittle t.guest) ha ea n) n.toNat src }) := by
  obtain ⟨g, answered⟩ := (GuestView.reachable inited booted calm run).answered mapped
  have fits := answered.fits whole
  have inside := page_inside answered.page answered.inside ea
  rw [← answered.scalarHa]
  exact ⟨fits.loaded size (answered.looked _) inside, fits.stored size (answered.looked _) inside⟩

theorem plain_page_shared : ∃ t : Machine, t.mapped t.guest.vmm 0x5000 = some 0x5000 ∧
    guestFrom t (fun _ => 0) 0x5004 4 4 = .ok (.none, Buf.put (fun _ => 0) 0 4 fun k =>
      t.host (processorHa (guestIsLittle t.guest) 0x5000 0x5004 4 + BitVec.ofNat 32 k)) := by
  obtain ⟨m, s, plain⟩ := plain_boot
  obtain ⟨t, faulted⟩ := plain.faulted
  have page : pageOf 0x5004 = 0x5000 := by decide
  have calm : ∀ e ∈ [VmEvent.run, .fault false true], e.Calm := by
    intro e member
    rcases List.mem_cons.mp member with rfl | member
    · trivial
    · obtain rfl := List.mem_singleton.mp member
      trivial
  have shared := guest_memory_shared plain.inited plain.booted calm faulted.run (by rw [page]; exact faulted.mapped)
    (.inr (.inr rfl) : AccessSize 4) (show (0x5004 : W32).toNat % 4096 + (4 : W32).toNat ≤ 4096 by decide)
  exact ⟨t, faulted.mapped, shared.1 _⟩

end ToyHv
