import ToyHv.Memory.RoundTrip
import ToyHv.Rom.Boot
import ToyHv.Rom.Calls
import ToyHv.Translation.Backmap
import ToyHv.Translation.RomRanges

namespace ToyHv
open Library

/-- The 1:1 range of guest RAM that `rom_init` puts into the table. -/
def HasIdentity (p : Pmem) (table : List MmuRange) : Prop :=
  ∃ m ∈ table, m.base = 0 ∧ m.limit = p.pmemBytes - 1 ∧ m.ra = 0

/-- The translation table after `rom_init` and some requests: laminar, with the 1:1 range and the
    accepted requests' ranges in it and no others. -/
structure MapTable (p : Pmem) (history : List MapRequest) (table : List MmuRange) : Prop where
  nonempty : 0 < p.pmemBytes.toNat
  laminar : RomLaminar table
  identity : ∃ m ∈ table, m.base = 0 ∧ m.limit = p.pmemBytes - 1 ∧ m.ra = 0
  added : ∀ m ∈ table, (m.base = 0 ∧ m.limit = p.pmemBytes - 1 ∧ m.ra = 0) ∨
    ∃ e ∈ history, e.Accepted p ∧ m.base = e.virt ∧ m.limit = e.limit ∧ m.ra = e.phys
  kept : ∀ e ∈ history, e.Accepted p → ∃ m ∈ table, m.base = e.virt ∧ m.limit = e.limit ∧ m.ra = e.phys

theorem MapTable.fresh {p : Pmem} {rom : Rom} (fresh : FreshLists p.pmemBytes rom) :
    MapTable p [] rom.romMmuRanges := by
  obtain ⟨ordered, table⟩ := fresh.mmu
  rw [table]
  refine ⟨Nat.zero_lt_of_lt fresh.large, ?_, ⟨_, List.mem_singleton_self _, rfl, rfl, rfl⟩, ?_, by simp⟩
  · exact ⟨by simp, by simp⟩
  · rintro m member
    obtain rfl := List.mem_singleton.mp member
    exact .inl ⟨rfl, rfl, rfl⟩

theorem MapTable.step {p : Pmem} {mem : Bool} {history : List MapRequest} {rom rom' : Rom} {e : MapRequest} {err : Err}
    (table : MapTable p history rom.romMmuRanges) (handled : e.run mem p rom = .ok (err, rom')) :
    MapTable p (history ++ [e]) rom'.romMmuRanges := by
  rcases e.run_ok handled with ⟨refused, rfl⟩ | ⟨accepted, _, _, ranges, added, rfl⟩
  · refine ⟨table.nonempty, table.laminar, table.identity, fun m member => ?_, fun d member => ?_⟩
    · exact (table.added m member).imp_right fun ⟨d, older, same⟩ => ⟨d, List.mem_append_left _ older, same⟩
    · rcases List.mem_append.mp member with older | new
      · exact table.kept d older
      · obtain rfl := List.mem_singleton.mp new
        exact fun accepted => absurd accepted refused
  · obtain ⟨ordered, scanned⟩ := mmuRangeAdd_ok added
    have members := mmuRangeScan_mem scanned
    obtain ⟨identity, present, shape⟩ := table.identity
    refine ⟨table.nonempty, mmuRangeScan_laminar table.laminar scanned,
      ⟨identity, (members _).mpr (.inr present), shape⟩,
      fun m member => ?_, fun d member accepted => ?_⟩
    · rcases (members m).mp member with rfl | older
      · exact .inr ⟨e, by simp, accepted, rfl, rfl, rfl⟩
      · exact (table.added m older).imp_right fun ⟨d, called, same⟩ => ⟨d, List.mem_append_left _ called, same⟩
    · rcases List.mem_append.mp member with older | new
      · obtain ⟨m, present, same⟩ := table.kept d older accepted
        exact ⟨m, (members m).mpr (.inr present), same⟩
      · obtain rfl := List.mem_singleton.mp new
        exact ⟨_, (members _).mpr (.inl rfl), rfl, rfl, rfl⟩

/-- A request's last byte, in exact arithmetic, is inside RAM. -/
def MapRequest.Fits (p : Pmem) (e : MapRequest) : Prop :=
  e.phys.toNat + (alignDown e.size PAGE_SIZE).toNat ≤ p.pmemBytes.toNat

/-- A request's range does not wrap: the one that would is refused for overlapping the 1:1 range. -/
theorem MapRequest.limit_exact {p : Pmem} {table : List MmuRange} {m : MmuRange} {e : MapRequest}
    (laminar : RomLaminar table) (one : HasIdentity p table) (displaced : e.phys ≠ e.virt) (member : m ∈ table)
    (base : m.base = e.virt) (limit : m.limit = e.limit) (ra : m.ra = e.phys) :
    m.limit.toNat + 1 = m.base.toNat + (alignDown e.size PAGE_SIZE).toNat := by
  have ordered := BitVec.lt_def.mp m.ordered
  have top := m.limit.isLt
  have size := toNat_alignDown_page e.size
  have sum : m.limit.toNat = (m.base.toNat + (alignDown e.size PAGE_SIZE).toNat + (2^32 - 1)) % 2^32 := by
    rw [limit, base, MapRequest.limit, BitVec.toNat_sub, BitVec.toNat_add]
    simp only [BitVec.ofNat_eq_ofNat, BitVec.toNat_ofNat]
    omega
  by_cases none : (alignDown e.size PAGE_SIZE).toNat = 0
  · -- the range of no size at address 0 covers everything, the 1:1 range included
    have whole : m.base.toNat = 0 := by omega
    obtain ⟨identity, present, idBase, idLimit, idRa⟩ := one
    have here : m.Covers 0 := ⟨by rw [BitVec.le_def, whole]; simp, by rw [BitVec.le_def]; simp⟩
    have there : identity.Covers 0 := ⟨by rw [idBase]; exact BitVec.le_refl 0, by rw [BitVec.le_def]; simp⟩
    have same := translate_eq laminar member present here there
    rw [idBase, idRa, base, ra] at same
    refine absurd ?_ displaced
    calc e.phys = 0 - e.virt + e.phys + e.virt := by bv_omega
      _ = e.virt := by rw [same]; simp
  · omega

theorem MapTable.exact {p : Pmem} {history : List MapRequest} {table : List MmuRange} (inv : MapTable p history table)
    {m : MmuRange} {e : MapRequest} (member : m ∈ table) (accepted : e.Accepted p) (base : m.base = e.virt)
    (limit : m.limit = e.limit) (ra : m.ra = e.phys) :
    m.limit.toNat + 1 = m.base.toNat + (alignDown e.size PAGE_SIZE).toNat :=
  MapRequest.limit_exact inv.laminar inv.identity accepted.1 member base limit ra

theorem MapTable.translates {p : Pmem} {history : List MapRequest} {table : List MmuRange}
    (inv : MapTable p history table) {m : MmuRange} {gea : W32} (found : mmuRangeFind table gea = some m) :
    (gea - m.base + m.ra).toNat < p.pmemBytes.toNat ∨ ∃ e ∈ history, e.Accepted p ∧ ∃ k,
      k < (alignDown e.size PAGE_SIZE).toNat ∧ (gea - m.base + m.ra).toNat = (e.phys.toNat + k) % 2^32 := by
  obtain ⟨member, covers⟩ := mmuRangeFind_some found
  have low := BitVec.le_def.mp covers.1
  have high := BitVec.le_def.mp covers.2
  have offset : (gea - m.base).toNat = gea.toNat - m.base.toNat := BitVec.toNat_sub_of_le covers.1
  rcases inv.added m member with ⟨base, limit, ra⟩ | ⟨e, called, accepted, base, limit, ra⟩
  · left
    have ordered := BitVec.lt_def.mp m.ordered
    have last : m.limit.toNat = (p.pmemBytes.toNat + (2^32 - 1)) % 2^32 := by
      rw [limit, BitVec.toNat_sub]
      simp only [BitVec.ofNat_eq_ofNat, BitVec.toNat_ofNat]
      omega
    have nonempty := inv.nonempty
    have top := p.pmemBytes.isLt
    have same : gea - m.base + m.ra = gea := by rw [base, ra]; simp
    rw [same]
    omega
  · right
    have exact := inv.exact member accepted base limit ra
    refine ⟨e, called, accepted, gea.toNat - m.base.toNat, by omega, ?_⟩
    rw [BitVec.toNat_add, offset, ra, Nat.add_comm]

/-- One step of the guest and of `rom_mmu_call`: the guest runs, leaving the ROM's lists and the
    extent of RAM alone, and then has a map request handled. -/
inductive MapStep (m : Machine) (e : MapRequest) (m' : Machine) : Prop
  | intro (v : Machine) (mem : Bool) (call : Buf) (cia ciaIn : W32) (err : Err)
      (rom : v.rom = m.rom) (ram : v.ram = m.ram)
      (named : strcmpEq "map" call = true)
      (mode : ciaCell v cia ciaIn 2 = .ok (.none, e.mode)) (size : ciaCell v cia ciaIn 3 = .ok (.none, e.size))
      (virt : ciaCell v cia ciaIn 4 = .ok (.none, e.virt)) (phys : ciaCell v cia ciaIn 5 = .ok (.none, e.phys))
      (handled : romMmuCall mem v call cia ciaIn = .ok (err, m'))

theorem MapStep.run_ok {m m' : Machine} {e : MapRequest} (step : MapStep m e m') :
    m'.ram = m.ram ∧ ∃ mem err, e.run mem m.ram m.rom = .ok (err, m'.rom) := by
  obtain ⟨v, mem, call, cia, ciaIn, err, rom, ram, named, mode, size, virt, phys, handled⟩ := step
  simp only [romMmuCall, named, if_true, mode, size, virt, phys, ok_bind, ne_eq, not_true_eq_false, if_false, bind_ok,
    pure_ok, Except.ok.injEq, Prod.mk.injEq] at handled
  obtain ⟨⟨mapErr, rom'⟩, mapped, _, rfl⟩ := handled
  exact ⟨ram, mem, mapErr, by rw [← rom, ← ram]; exact mapped⟩

theorem map_table {env : BootEnv} {m s t : Machine} {history : List MapRequest}
    (booted : romInit env m = .ok (.none, s)) (run : Run MapStep s history t) :
    MapTable t.ram history t.rom.romMmuRanges := by
  obtain ⟨boot⟩ := romInit_ok booted
  refine run.invariant (I := fun history t => MapTable t.ram history t.rom.romMmuRanges) ?_ ?_
  · rw [boot.table_eq, boot.rom_eq.2]
    exact .fresh (romInitRanges_ok boot.setup).2
  · intro history t e u table step
    obtain ⟨ram, mem, err, handled⟩ := step.run_ok
    rw [ram]
    exact table.step handled

/-- A fault aborts in `pmem_ha` only on an address that translates out of RAM. -/
theorem guestFault_inside {v : Machine} {isi accepted : Bool}
    (inside : ∀ gea gra flags out, romFault v.rom.romMmuRanges gea gra flags = (.none, out) → out < v.ram.pmemBytes) :
    guestFault v isi accepted ≠ .error .badRa := by
  intro aborted
  simp only [guestFault, bind_error, bugOn_error, reduceCtorEq, and_false, false_or] at aborted
  obtain ⟨_, _, aborted⟩ := aborted
  split at aborted
  · simp only [bind_error, bugOn_error, reduceCtorEq, and_false, false_or] at aborted
    rcases aborted with lookup | ⟨⟨err, gra⟩, answer, _, _, aborted⟩
    · rcases guestBackmapEx_error lookup with other | other <;> cases other
    · split at aborted
      · cases aborted
      · rename_i found
        obtain rfl := not_not.mp found
        have valid : gra < v.ram.pmemBytes := by
          rcases guestBackmapEx_slow answer with ⟨_, rfl, valid⟩ | ⟨_, _, translated⟩
          · exact of_decide_eq_true valid
          · exact inside _ _ _ _ translated
        have ha : pmemHa v.ram gra = .ok (v.ram.pmem + gra) := by
          rw [pmemHa, bugOn_false (BitVec.not_le.mpr valid)]
          rfl
        simp only [ha, ok_bind, guestMap, bind_error, bugOn_error, reduceCtorEq, and_false, false_or] at aborted
        obtain ⟨_, _, _, _, aborted⟩ := aborted
        split at aborted <;> cases aborted
  · cases aborted

/-- ROM-mode translation stays in guest RAM, and faults do not abort on it, exactly when every
    accepted request fits. -/
theorem rom_translation_in_ram_iff {env : BootEnv} {m s t : Machine} {history : List MapRequest}
    (booted : romInit env m = .ok (.none, s)) (run : Run MapStep s history t) :
    ((∀ gea gra flags out, romFault t.rom.romMmuRanges gea gra flags = (.none, out) → out < pmemSize t.ram) ∧
      ∀ v : Machine, v.rom = t.rom → v.ram = t.ram → ∀ isi accepted, guestFault v isi accepted ≠ .error .badRa) ↔
    ∀ e ∈ history, e.Accepted t.ram → e.Fits t.ram := by
  have table := map_table booted run
  constructor
  · rintro ⟨inside, _⟩ e called accepted
    by_contra escapes
    rw [MapRequest.Fits, not_le] at escapes
    obtain ⟨r, member, base, limit, ra⟩ := table.kept e called accepted
    have exact := table.exact member accepted base limit ra
    have valid := BitVec.lt_def.mp (of_decide_eq_true accepted.2)
    rw [← ra] at escapes valid
    -- the address that translates to the first byte behind RAM
    have first : (r.base + (t.ram.pmemBytes - r.ra)).toNat = r.base.toNat + (t.ram.pmemBytes.toNat - r.ra.toNat) := by
      have top := r.limit.isLt
      rw [BitVec.toNat_add, BitVec.toNat_sub_of_le (BitVec.le_def.mpr valid.le), Nat.mod_eq_of_lt (by omega)]
    have covers : r.Covers (r.base + (t.ram.pmemBytes - r.ra)) :=
      ⟨BitVec.le_def.mpr (by omega), BitVec.le_def.mpr (by omega)⟩
    cases found : mmuRangeFind t.rom.romMmuRanges (r.base + (t.ram.pmemBytes - r.ra)) with
    | none => exact (mmuRangeFind_none _ _).mp found r member covers
    | some f =>
      obtain ⟨present, there⟩ := mmuRangeFind_some found
      have out := inside (r.base + (t.ram.pmemBytes - r.ra)) 0 0 _ (by rw [romFault, found])
      rw [translate_eq table.laminar present member there covers, pmemSize, add_sub_cancel_left, sub_add_cancel] at out
      exact absurd out (BitVec.lt_irrefl _)
  · intro fits
    have inside : ∀ gea gra flags out, romFault t.rom.romMmuRanges gea gra flags = (.none, out) →
        out < pmemSize t.ram := by
      intro gea gra flags out answer
      unfold romFault at answer
      split at answer
      · cases answer
      · rename_i found
        obtain ⟨_, rfl⟩ := Prod.mk.inj answer
        rw [pmemSize, BitVec.lt_def]
        rcases table.translates found with identity | ⟨e, called, accepted, k, bound, out⟩
        · exact identity
        · have fit := fits e called accepted
          have top := t.ram.pmemBytes.isLt
          rw [MapRequest.Fits] at fit
          omega
    refine ⟨inside, fun v rom ram isi accepted => guestFault_inside ?_⟩
    rw [rom, ram]
    exact inside

/-- Host memory with a request in the argument cells of a call array at guest real address 0. -/
def cellsOf (p : Pmem) (e : MapRequest) : Host := fun a =>
  let x := (a - p.pmem).toNat
  wordBytes (if x / 4 = 5 then e.mode else if x / 4 = 6 then e.size else if x / 4 = 7 then e.virt else e.phys) (x % 4)

theorem cellsOf_apply (p : Pmem) (e : MapRequest) {i k : ℕ} (cell : i < 9) (byte : k < 4) :
    cellsOf p e (p.pmem + BitVec.ofNat 32 (4 * i + k)) =
      wordBytes (if i = 5 then e.mode else if i = 6 then e.size else if i = 7 then e.virt else e.phys) k :=
  wordsAt_cell p (fun i => if i = 5 then e.mode else if i = 6 then e.size else if i = 7 then e.virt else e.phys) byte
    (by omega)

theorem MapStep.of_run {m : Machine} {e : MapRequest} {mem : Bool} {err : Err} {rom : Rom}
    (room : 4096 ≤ m.ram.pmemBytes.toNat) (handled : e.run mem m.ram m.rom = .ok (err, rom)) :
    ∃ t, MapStep m e t ∧ t.rom = rom ∧ t.ram = m.ram := by
  let v : Machine := { m with guest := { m.guest with msr := 0, monMsr := 0 }, host := cellsOf m.ram e }
  have real : v.guest.msr &&& MSR_MMU_ON ≠ MSR_MMU_ON := show (0 : W32) &&& MSR_MMU_ON ≠ MSR_MMU_ON by decide
  have cell : ∀ i < 9, guestFromX v (wordAt v.garbage 0) (BitVec.ofNat 32 (4 * i)) =
      .ok (.none, if i = 5 then e.mode else if i = 6 then e.size else if i = 7 then e.virt else e.phys) := by
    intro i bound
    have big : guestIsLittle v.guest = false := show decide ((0 : W32) &&& MSR_LE ≠ 0) = false by decide
    refine guestFromX_real _ real big (by omega) ?_ fun k byte => cellsOf_apply m.ram e bound byte
    change 4 * i + 4 ≤ m.ram.pmemBytes.toNat
    omega
  have mode : ciaCell v 0 6 2 = .ok (.none, e.mode) := cell 5 (by decide)
  have size : ciaCell v 0 6 3 = .ok (.none, e.size) := cell 6 (by decide)
  have virt : ciaCell v 0 6 4 = .ok (.none, e.virt) := cell 7 (by decide)
  have phys : ciaCell v 0 6 5 = .ok (.none, e.phys) := cell 8 (by decide)
  have named : strcmpEq "map" (fun i => (cString "map").getD i 0) = true := by decide
  refine ⟨{ v with rom }, ⟨v, mem, fun i => (cString "map").getD i 0, 0, 6, err, rfl, rfl, named, mode, size, virt,
    phys, ?_⟩, rfl, rfl⟩
  simp only [romMmuCall, named, if_true, mode, size, virt, phys, ok_bind, ne_eq, not_true_eq_false, if_false]
  exact congrArg (fun x => x >>= fun r => pure (r.1, { v with rom := r.2 })) handled

theorem plain_table_add (limit ra : W32) (ordered : 0xf0000000 < limit) :
    mmuRangeAdd true [⟨0, 0x1ffffff, 0, 0, by decide⟩] 0xf0000000 limit ra 0 =
      .ok [⟨0, 0x1ffffff, 0, 0, by decide⟩, ⟨0xf0000000, limit, ra, 0, ordered⟩] := by
  have outside : ¬ ((0xf0000000 : W32) ≥ 0 ∧ limit ≤ 0x1ffffff) := by bv_omega
  have apart : ¬ (limit ≥ 0 ∧ (0xf0000000 : W32) ≤ 0x1ffffff) := by bv_omega
  have after : ¬ (0 : W32) > limit := by bv_omega
  simp only [mmuRangeAdd, dif_pos ordered, mmuRangeAlloc, if_true, mmuRangeScan, if_neg outside, bugOn_false apart,
    if_neg after, ok_bind, pure_ok]

theorem last_page_maps : ∃ (s t : Machine) (e : MapRequest), Run MapStep s [e] t ∧ e.Accepted t.ram ∧
    ∀ gea gra flags out, romFault t.rom.romMmuRanges gea gra flags = (.none, out) → out < pmemSize t.ram := by
  obtain ⟨m, s, plain⟩ := plain_boot
  have size := plain.size
  have accepted : (⟨0x1fff000, 0xf0000000, 0x1000, -1⟩ : MapRequest).Accepted s.ram :=
    ⟨by decide, by rw [pmemGraValid, size]; decide⟩
  have added := plain_table_add 0xf0000fff 0x1fff000 (by decide)
  rw [← plain.table] at added
  have handled := MapRequest.run_accepted accepted rfl (by decide) (by decide) added
  obtain ⟨t, step, _, same⟩ := MapStep.of_run (by rw [size]; decide) handled
  rw [← same] at accepted
  refine ⟨s, t, _, .single step, accepted, ((rom_translation_in_ram_iff plain.booted (.single step)).mpr ?_).1⟩
  intro d called _
  obtain rfl := List.mem_singleton.mp called
  rw [MapRequest.Fits, same, size]
  decide

/-- Two pages mapped onto the last page of RAM translate the second one out of it. -/
theorem translation_escapes :
    ¬ ∀ (env : BootEnv) (m s t : Machine) (history : List MapRequest), romInit env m = .ok (.none, s) →
      Run MapStep s history t →
      ∀ gea gra flags out, romFault t.rom.romMmuRanges gea gra flags = (.none, out) → out < pmemSize t.ram := by
  intro always
  obtain ⟨m, s, plain⟩ := plain_boot
  have size := plain.size
  have accepted : (⟨0x1fff000, 0xf0000000, 0x2000, -1⟩ : MapRequest).Accepted s.ram :=
    ⟨by decide, by rw [pmemGraValid, size]; decide⟩
  have added := plain_table_add 0xf0001fff 0x1fff000 (by decide)
  rw [← plain.table] at added
  have handled := MapRequest.run_accepted accepted rfl (by decide) (by decide) added
  obtain ⟨t, step, same, ramSame⟩ := MapStep.of_run (by rw [size]; decide) handled
  have inside := always _ m s t _ plain.booted (.single step) 0xf0001000 0 0 0x2000000 (by rw [same]; rfl)
  rw [ramSame, pmemSize, size] at inside
  exact absurd inside (by decide)

end ToyHv
