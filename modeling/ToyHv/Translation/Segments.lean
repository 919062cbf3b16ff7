import ToyHv.Memory.Scalars

namespace ToyHv

/-- One of the registers that `guest_bat_fault` looks at names the block of the address. -/
def BatHit (ubat : Fin 8 → W32) (ea : W32) : Prop :=
  ∃ i : Fin 8, (i = 0 ∨ i = 2 ∨ i = 4 ∨ i = 6) ∧ ppcMaskOut (ubat i) 0 14 = ppcMaskOut ea 0 14

/-- A 601 out of ROM mode, and an address without a mapping in a segment whose T bit is set. -/
structure IoSegment (m : Machine) (ea : W32) : Prop where
  on : m.guest.msr &&& MSR_MMU_ON = MSR_MMU_ON
  known : m.guest.pvr = PVR_601
  tables : m.guest.sdr1 ≠ SDR1_MAGIC_ROM_MODE
  unmapped : vmmGetPageMapping m m.guest.vmm ea = -1
  io : m.guest.sr (Fin.ofNat 16 (srIndex ea).toNat) &&& SR_T ≠ 0

def Machine.setUbat (m : Machine) (ubat : Fin 8 → W32) : Machine := { m with guest := { m.guest with ubat } }

/-- The lookup answers ERR_NOT_FOUND, and does so with these other BAT registers as well. -/
structure BypassesBats (m : Machine) (ea gra : W32) (tryFast : Bool) (flags : W32) (ubat : Fin 8 → W32) : Prop where
  notFound : guestBackmapEx m ea gra tryFast flags = .ok (.notFound, gra)
  same : guestBackmapEx (m.setUbat ubat) ea gra tryFast flags = guestBackmapEx m ea gra tryFast flags

variable {m : Machine} {ea : W32}

theorem IoSegment.setUbat (segment : IoSegment m ea) (ubat : Fin 8 → W32) : IoSegment (m.setUbat ubat) ea :=
  ⟨segment.on, segment.known, segment.tables, segment.unmapped, segment.io⟩

theorem batAborts_iff {guest : Guest} (known : guest.pvr = PVR_601) : BatAborts guest ea ↔ BatHit guest.ubat ea := by
  unfold BatAborts BatHit
  exact or_iff_right fun other => other known

/-- The T bit of the segment makes no difference: what decides are the BAT registers. -/
theorem IoSegment.notFound_iff (segment : IoSegment m ea) (gra : W32) (tryFast : Bool) (flags : W32) :
    guestBackmapEx m ea gra tryFast flags = .ok (.notFound, gra) ↔ ¬ BatHit m.guest.ubat ea := by
  have on := not_not.mpr segment.on
  have slow : ¬ (tryFast = true ∧ vmmGetPageMapping m m.guest.vmm ea ≠ -1) := fun fast => fast.2 segment.unmapped
  have total := guestBatFault_total m.guest ea flags
  rw [batAborts_iff segment.known] at total
  rw [← total]
  simp only [guestBackmapEx, if_neg on, if_neg slow, if_neg segment.tables]
  constructor
  · intro looked
    obtain ⟨err, bat, _⟩ := bind_ok.mp looked
    exact ⟨err, bat⟩
  · rintro ⟨err, bat⟩
    rw [bat, guestBatFault_ok bat]
    rfl

/-- Whatever the state, some content of the registers ends the lookup. -/
theorem no_segment_bypassed (segment : IoSegment m ea) (gra : W32) (tryFast : Bool) (flags : W32) :
    ∃ ubat, guestBackmapEx (m.setUbat ubat) ea gra tryFast flags ≠ .ok (.notFound, gra) := by
  refine ⟨fun _ => ea, fun found => ?_⟩
  exact ((segment.setUbat _).notFound_iff gra tryFast flags).mp found ⟨0, .inl rfl, rfl⟩

/-- An I/O segment is kept from the BAT registers just when none of either content names the block. -/
theorem bypasses_bats_iff (segment : IoSegment m ea) (gra : W32) (tryFast : Bool) (flags : W32) (ubat : Fin 8 → W32) :
    BypassesBats m ea gra tryFast flags ubat ↔ ¬ BatHit m.guest.ubat ea ∧ ¬ BatHit ubat ea := by
  have here := segment.notFound_iff gra tryFast flags
  have there := (segment.setUbat ubat).notFound_iff gra tryFast flags
  rw [← here]
  constructor
  · intro bypasses
    exact ⟨bypasses.notFound, there.mp (bypasses.same.trans bypasses.notFound)⟩
  · rintro ⟨found, clear⟩
    exact ⟨found, (there.mpr clear).trans found.symm⟩

def ioGuest (ubat : Fin 8 → W32) : Machine :=
  { zeroMachine with
    guest := { zeroMachine.guest with msr := MSR_MMU_ON, pvr := PVR_601, sdr1 := 0, sr := fun _ => SR_T, ubat } }

theorem ioGuest_segment (ubat : Fin 8 → W32) (ea : W32) : IoSegment (ioGuest ubat) ea := by
  have on : MSR_MMU_ON &&& MSR_MMU_ON = MSR_MMU_ON := by decide
  have tables : (0 : W32) ≠ SDR1_MAGIC_ROM_MODE := by decide
  have io : SR_T &&& SR_T ≠ 0 := by decide
  exact ⟨on, rfl, tables, rfl, io⟩

theorem other_blocks_bypassed :
    BypassesBats (ioGuest fun _ => 0) 0x80001000 0 true 0 fun _ => 0x90000000 := by
  have first : ppcMaskOut 0 0 14 ≠ ppcMaskOut 0x80001000 0 14 := by decide
  have second : ppcMaskOut 0x90000000 0 14 ≠ ppcMaskOut 0x80001000 0 14 := by decide
  apply (bypasses_bats_iff (ioGuest_segment _ _) 0 true 0 _).mpr
  constructor
  · rintro ⟨_, _, named⟩
    exact first named
  · rintro ⟨_, _, named⟩
    exact second named

theorem io_segment_hits_bat : ¬ ∀ (m : Machine) (ea gra : W32) (tryFast : Bool) (flags : W32) (ubat : Fin 8 → W32),
    IoSegment m ea → BypassesBats m ea gra tryFast flags ubat := by
  intro always
  have segment := ioGuest_segment (fun _ => 0x80000000) 0x80001000
  have bypasses := always _ _ 0 true 0 (fun _ => 0) segment
  exact (segment.notFound_iff 0 true 0).mp bypasses.notFound ⟨0, .inl rfl, by decide⟩

end ToyHv
