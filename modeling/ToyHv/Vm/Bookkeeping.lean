import ToyHv.Rom.Bounds
import ToyHv.Translation.FastPath
import ToyHv.Vm.Isolation

namespace ToyHv

open Library

variable {p : Pmem} {rom rom' a : Rom} {op : RomOp} {m s t u : Machine}

theorem SameClaims.refl (rom : Rom) : SameClaims rom rom := ⟨rfl, rfl, rfl, rfl⟩

theorem SameClaims.trans {v : Rom} (first : SameClaims rom v) (second : SameClaims v rom') : SameClaims rom rom' :=
  ⟨second.avail.trans first.avail, second.arenaStart.trans first.arenaStart, second.arenaPtr.trans first.arenaPtr,
    second.arenaEnd.trans first.arenaEnd⟩

theorem romClaimEx_answer {mem : Bool} {size_ addr size align out : W32}
    (claimed : romClaimEx mem size_ rom addr size align = .ok (out, rom')) :
    out = (romClaimPlace size_ rom addr size align).1.getD (-1) := by
  unfold romClaimEx at claimed
  generalize romClaimPlace size_ rom addr size align = answer at claimed ⊢
  obtain ⟨_ | place, placed⟩ := answer
  · simp only [pure_ok, Except.ok.injEq, Prod.mk.injEq] at claimed
    exact claimed.1.symm
  · simp only [bind_ok, pure_ok, Except.ok.injEq, Prod.mk.injEq] at claimed
    obtain ⟨_, _, same, _⟩ := claimed
    exact same.symm

/-- What a service does to the memory that is claimed is at most one call of `rom_claim_ex`. -/
theorem RomStep.claims (same : SameClaims a rom) (step : RomStep p rom op rom') :
    ∃ claims b, Run (ClaimStep (pmemSize p)) a claims b ∧ SameClaims b rom' := by
  cases step with
  | quiet kept =>
    obtain ⟨knownIhandles, xferBuf, rfl⟩ := kept
    exact ⟨[], a, .nil a, same.trans ⟨rfl, rfl, rfl, rfl⟩⟩
  | @claim mem addr size align out _ claimed =>
    rw [romClaimEx_answer claimed] at claimed
    let claim : Claim := ⟨mem, addr, size, align, rom.claimArenaPtr, (romClaimPlace (pmemSize p) rom addr size align).1⟩
    exact ⟨[claim], _, .single (.intro rom same rfl rfl claimed), .refl _⟩
  | map mapped =>
    rcases MapRequest.run_ok mapped with ⟨_, rfl⟩ | ⟨_, _, _, ranges, _, rfl⟩
    · exact ⟨[], a, .nil a, same⟩
    · exact ⟨[], a, .nil a, same.trans ⟨rfl, rfl, rfl, rfl⟩⟩

/-- The additions a guest can cause: of whole pages that begin in RAM, without flags. -/
structure MmuAddition.Paged (p : Pmem) (c : MmuAddition) : Prop where
  base : c.base &&& PAGE_MASK = 0
  limit : (c.limit + 1) &&& PAGE_MASK = 0
  ra : c.ra &&& PAGE_MASK = 0
  inside : c.ra < p.pmemBytes
  flags : c.flags = 0

/-- What a service does to the translation table is at most one call of `mmu_range_add`. -/
theorem RomStep.additions (step : RomStep p rom op rom') :
    ∃ calls, Run (fun l (c : MmuAddition) l' => c.Paged p ∧ c.step l l') rom.romMmuRanges calls rom'.romMmuRanges := by
  cases step with
  | quiet kept =>
    obtain ⟨knownIhandles, xferBuf, rfl⟩ := kept
    exact ⟨[], .nil _⟩
  | claim claimed =>
    rw [romClaimEx_frame claimed]
    exact ⟨[], .nil _⟩
  | @map mem e err _ mapped =>
    rcases MapRequest.run_ok mapped with ⟨_, rfl⟩ | ⟨accepted, phys, virt, ranges, added, rfl⟩
    · exact ⟨[], .nil _⟩
    · have last : (e.limit + 1) &&& PAGE_MASK = 0 := by
        have base := (isAligned_page e.virt).mp virt
        have size := toNat_alignDown_page e.size
        rw [MapRequest.limit, BitVec.sub_add_cancel]
        refine (isAligned_page _).mpr ?_
        rw [BitVec.toNat_add]
        omega
      have paged : MmuAddition.Paged p ⟨mem, e.virt, e.limit, e.phys, 0⟩ :=
        ⟨virt, last, phys, of_decide_eq_true accepted.2, rfl⟩
      exact ⟨[⟨mem, e.virt, e.limit, e.phys, 0⟩], .single ⟨paged, added⟩⟩

/-- The translation table a guest can bring about. -/
structure TableState (table : List MmuRange) : Prop where
  laminar : RomLaminar table
  paged : ∀ r ∈ table, r.Paged

theorem MmuAddition.Paged.state {c : MmuAddition} {l l' : List MmuRange} (paged : c.Paged p) (added : c.step l l')
    (state : TableState l) : TableState l' ∧ Sound (romPage p l) (romPage p l') := by
  obtain ⟨ordered, scanned⟩ := mmuRangeAdd_ok added
  refine ⟨⟨mmuRangeScan_laminar state.laminar scanned, fun r member => ?_⟩, mmuRangeAdd_keeps state.laminar added⟩
  rcases (mmuRangeScan_mem scanned r).mp member with rfl | older
  · have behind := (isAligned_page (c.limit + 1)).mp paged.limit
    refine ⟨(isAligned_page c.base).mp paged.base, ?_, (isAligned_page c.ra).mp paged.ra⟩
    change c.limit.toNat % 4096 = 4095
    rw [BitVec.toNat_add] at behind
    simp only [BitVec.ofNat_eq_ofNat, BitVec.toNat_ofNat] at behind
    omega
  · exact state.paged r older

theorem TableState.run {l l' : List MmuRange} {calls : List MmuAddition} (state : TableState l)
    (run : Run (fun l (c : MmuAddition) l' => c.Paged p ∧ c.step l l') l calls l') :
    TableState l' ∧ Sound (romPage p l) (romPage p l') := by
  refine run.invariant (I := fun _ l' => TableState l' ∧ Sound (romPage p l) (romPage p l')) ⟨state, fun _ _ => id⟩ ?_
  rintro _ table c table' ⟨now, kept⟩ ⟨paged, added⟩
  obtain ⟨next, grown⟩ := paged.state added now
  exact ⟨next, kept.trans grown⟩

theorem rom_claims {ops : List RomOp} (run : Run (RomStep p) rom ops rom') :
    ∃ claims b, Run (ClaimStep (pmemSize p)) rom claims b ∧ SameClaims b rom' :=
  run.simulates (R := fun rom a => SameClaims a rom) (.refl rom) fun _ _ _ _ same step => step.claims same

theorem rom_additions {ops : List RomOp} (run : Run (RomStep p) rom ops rom') :
    ∃ calls, Run (fun l (c : MmuAddition) l' => c.Paged p ∧ c.step l l') rom.romMmuRanges calls rom'.romMmuRanges := by
  obtain ⟨calls, table, additions, rfl⟩ := run.simulates (R := fun rom table => rom.romMmuRanges = table) rfl
    fun _ _ _ _ same step => by
      subst same
      obtain ⟨calls, added⟩ := step.additions
      exact ⟨calls, _, added, rfl⟩
  exact ⟨calls, additions⟩

theorem ClaimStep.shrinks {size_ : W32} {c : Claim} (state : ClaimState size_ rom) (step : ClaimStep size_ rom c rom') :
    ClaimState size_ rom' ∧
      covered (rom'.guestMemAvailRanges.map Range.span) ⊆ covered (rom.guestMemAvailRanges.map Range.span) := by
  obtain ⟨v, same, _, _, claimed⟩ := step
  have state := state.same same
  refine ⟨state.claim claimed, ?_⟩
  rw [← same.avail]
  rcases romClaimEx_ok claimed with ⟨_, kept⟩ | ⟨out, _, removed⟩
  · rw [kept]
  · obtain ⟨ordered, spans⟩ := rangeRemove_spans state.separated removed
    rw [spans, covered_carve]
    exact Set.sdiff_subset

theorem ClaimState.run {size_ : W32} {claims : List Claim} (state : ClaimState size_ rom)
    (run : Run (ClaimStep size_) rom claims rom') : ClaimState size_ rom' ∧
      covered (rom'.guestMemAvailRanges.map Range.span) ⊆ covered (rom.guestMemAvailRanges.map Range.span) := by
  refine run.invariant (I := fun _ v => ClaimState size_ v ∧
    covered (v.guestMemAvailRanges.map Range.span) ⊆ covered (rom.guestMemAvailRanges.map Range.span))
      ⟨state, subset_rfl⟩ ?_
  rintro _ v c w ⟨now, less⟩ step
  obtain ⟨next, shrunk⟩ := step.shrinks now
  exact ⟨next, shrunk.trans less⟩

theorem Boot.claimState {env : BootEnv} (boot : Boot env m s) : ClaimState (pmemSize s.ram) s.rom := by
  have fresh : ClaimState m.ram.pmemBytes boot.rom₀ := .fresh m.ram.size_aligned (romInitRanges_ok boot.setup).2
  have loaded := (fresh.claim boot.claimLoader).same boot.prepare.toSameClaims
  have placed := (loaded.claim boot.claimTrampoline).same boot.place.toSameClaims
  rw [boot.rom_eq.1, boot.rom_eq.2]
  exact placed.claim boot.claimStack

/-- Whatever happens to a machine in the steps of `VmStep`, the memory that is claimed changes as in a run of
    `rom_claim_ex`, and the ROM's table as in a run of `mmu_range_add` with whole pages that begin in RAM. Calls with
    undefined behaviour, such as those that store behind `service` or `xfer_buf`, are no steps, and of the monitor only
    `ss` and the registers are. -/
theorem vm_refines {history : List VmEvent} (run : Run VmStep s history t) :
    (∃ claims rom, Run (ClaimStep (pmemSize s.ram)) s.rom claims rom ∧ SameClaims rom t.rom) ∧
    ∃ calls, Run (fun l (c : MmuAddition) l' => c.Paged s.ram ∧ c.step l l') s.rom.romMmuRanges calls
      t.rom.romMmuRanges := by
  obtain ⟨_, ops, served⟩ := vm_rom run
  exact ⟨rom_claims served, rom_additions served⟩

theorem claim_refines : ∃ s t, Run VmStep s [.run, .fault false true, .run, .systemCall callingEnv 0 0] t ∧
    (s.rom.guestMemAvailRanges = plainAvailable ∧ t.rom.guestMemAvailRanges = pageTaken) ∧
    ∃ claims rom, Run (ClaimStep (pmemSize s.ram)) s.rom claims rom ∧ SameClaims rom t.rom := by
  obtain ⟨m, s, t, u, plain, run, claimed⟩ := plain_calls
  have next : Run VmStep s [.run, .fault false true, .run, .systemCall callingEnv 0 0] u :=
    .snoc run (.systemCall claimed.called)
  exact ⟨s, u, next, ⟨plain.avail, claimed.avail⟩, (vm_refines next).1⟩

/-- In every run of a booted machine the table stays laminar and the available memory apart and in whole pages. A page
    that the ROM once translates into RAM it translates for ever the same way, and memory once claimed is never
    available again. Calls with undefined behaviour, such as those that store behind `service` or `xfer_buf`, are no
    steps, and of the monitor only `ss` and the registers are. -/
theorem vm_bookkeeping {env : InitEnv} {boot : BootEnv} {page : VmmPtr → VmmPage} {host : Host} {os : Os}
    {garbage : Buf} {little : Bool} {ramSize : W32} {history later : List VmEvent}
    (inited : guestInit env (Machine.start page host os garbage) little ramSize = .ok (.none, m))
    (booted : romInit boot m = .ok (.none, s)) (run : Run VmStep s history t) (next : Run VmStep t later u) :
    TableState t.rom.romMmuRanges ∧ ClaimState (pmemSize s.ram) t.rom ∧
    (∀ page ha, romPage s.ram t.rom.romMmuRanges page = some ha → romPage s.ram u.rom.romMmuRanges page = some ha) ∧
    ∀ a, a ∈ covered (u.rom.guestMemAvailRanges.map Range.span) →
      a ∈ covered (t.rom.guestMemAvailRanges.map Range.span) := by
  have start := FastPath.start inited booted
  obtain ⟨prepared⟩ := romInit_ok booted
  obtain ⟨⟨claims, rom, claimed, same⟩, calls, added⟩ := vm_refines run
  obtain ⟨⟨moreClaims, rom', claimed', same'⟩, moreCalls, added'⟩ := vm_refines next
  have table := (TableState.run ⟨start.laminar, start.paged⟩ added).1
  have free := (prepared.claimState.run claimed).1.same same
  rw [(vm_rom run).1] at claimed' added'
  have shrunk := (free.run claimed').2
  rw [← same'.avail] at shrunk
  exact ⟨table, free, (table.run added').2, fun a => @shrunk a⟩

theorem claim_kept : ∃ s t u, Run VmStep s [.run, .fault false true, .run] t ∧
    Run VmStep t [.systemCall callingEnv 0 0] u ∧
    (t.rom.guestMemAvailRanges = plainAvailable ∧ u.rom.guestMemAvailRanges = pageTaken) ∧
    TableState t.rom.romMmuRanges ∧ ClaimState (pmemSize s.ram) t.rom ∧
    ∀ a, a ∈ covered (u.rom.guestMemAvailRanges.map Range.span) →
      a ∈ covered (t.rom.guestMemAvailRanges.map Range.span) := by
  obtain ⟨m, s, t, u, plain, run, claimed⟩ := plain_calls
  have next : Run VmStep t [.systemCall callingEnv 0 0] u := .single (.systemCall claimed.called)
  obtain ⟨table, claims, _, shrunk⟩ := vm_bookkeeping plain.inited plain.booted run next
  exact ⟨s, t, u, run, next, ⟨claimed.free, claimed.avail⟩, table, claims, shrunk⟩

end ToyHv
