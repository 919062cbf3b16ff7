import ToyHv.Model.Guest

namespace ToyHv

/-- The BAT registers never translate anything, they only abort. -/
theorem guestBatFault_ok {guest : Guest} {ea flags : W32} {err : Err}
    (answer : guestBatFault guest ea flags = .ok err) : err = .unsupported := by
  simp only [guestBatFault, bind_ok, bugOn_ok] at answer
  obtain ⟨_, _, answer⟩ := answer
  split at answer
  · simp only [pure_ok, Except.ok.injEq] at answer
    exact answer.symm
  · simp only [bind_ok, pure_ok, Except.ok.injEq] at answer
    obtain ⟨_, _, _, _, _, _, _, _, answer⟩ := answer
    exact answer.symm

theorem guestBatFault_error {guest : Guest} {ea flags : W32} {message : Abort}
    (aborted : guestBatFault guest ea flags = .error message) :
    message = .unsupportedBatHandling ∨ message = .batHit := by
  simp only [guestBatFault, bind_error, bugOn_error] at aborted
  rcases aborted with ⟨_, rfl⟩ | ⟨_, _, aborted⟩
  · exact .inl rfl
  · split at aborted
    · cases aborted
    · right
      simp only [bind_error, bugOn_error, pure_ok, reduceCtorEq, and_false, exists_false, or_false] at aborted
      rcases aborted with ⟨_, rfl⟩ | ⟨_, _, ⟨_, rfl⟩ | ⟨_, _, ⟨_, rfl⟩ | ⟨_, _, _, rfl⟩⟩⟩ <;> rfl

variable {m : Machine} {ea gra flags : W32}

theorem guestBackmapEx_slow {out : W32} (answer : guestBackmapEx m ea gra false flags = .ok (.none, out)) :
    (m.guest.msr &&& MSR_MMU_ON ≠ MSR_MMU_ON ∧ out = ea ∧ pmemGraValid m.ram ea = true) ∨
    (m.guest.msr &&& MSR_MMU_ON = MSR_MMU_ON ∧ m.guest.sdr1 = SDR1_MAGIC_ROM_MODE ∧
      romFault m.rom.romMmuRanges ea gra flags = (.none, out)) := by
  simp only [guestBackmapEx, Bool.false_eq_true, false_and, if_false] at answer
  split at answer
  · rename_i off
    split at answer
    · rename_i valid
      simp only [Except.ok.injEq, Prod.mk.injEq, true_and] at answer
      exact .inl ⟨off, answer.symm, valid⟩
    · cases answer
  · rename_i on
    split at answer
    · rename_i magic
      exact .inr ⟨not_not.mp on, magic, Except.ok.inj answer⟩
    · simp only [bind_ok] at answer
      obtain ⟨err, bat, answer⟩ := answer
      rw [guestBatFault_ok bat] at answer
      cases answer

theorem guestBackmapEx_error {tryFast : Bool} {message : Abort}
    (aborted : guestBackmapEx m ea gra tryFast flags = .error message) :
    message = .unsupportedBatHandling ∨ message = .batHit := by
  simp only [guestBackmapEx] at aborted
  split at aborted
  · split at aborted <;> cases aborted
  · split at aborted
    · cases aborted
    · split at aborted
      · cases aborted
      · simp only [bind_error] at aborted
        rcases aborted with bat | ⟨err, _, aborted⟩
        · exact guestBatFault_error bat
        · split at aborted <;> cases aborted

theorem pmemHa_ok {p : Pmem} {ra ha : W32} (looked : pmemHa p ra = .ok ha) : ra < p.pmemBytes ∧ ha = p.pmem + ra := by
  simp only [pmemHa, bind_ok, bugOn_ok, pure_ok, Except.ok.injEq] at looked
  obtain ⟨_, inside, rfl⟩ := looked
  exact ⟨BitVec.not_le.mp inside, rfl⟩

theorem guestMap_ok {m' : Machine} {accepted : Bool} {ha : W32} {err : Err}
    (mapping : guestMap m accepted ha ea = .ok (err, m')) :
    m' = m ∨ ea &&& PAGE_MASK = 0 ∧
      m' = { m with
        mapped := Function.update m.mapped m.guest.vmm
          (Function.update (m.mapped m.guest.vmm) (pageOf ea) (some ha)) } := by
  simp only [guestMap, bind_ok, bugOn_ok, not_not] at mapping
  obtain ⟨_, _, _, aligned, mapping⟩ := mapping
  split at mapping
  · simp only [pure_ok, Except.ok.injEq, Prod.mk.injEq] at mapping
    exact .inr ⟨aligned, mapping.2.symm⟩
  · simp only [pure_ok, Except.ok.injEq, Prod.mk.injEq] at mapping
    exact .inl mapping.2.symm

theorem guestFault_ok {m' : Machine} {isi accepted : Bool} {err : Err}
    (handled : guestFault m isi accepted = .ok (err, m')) :
    m' = m ∨ ∃ gea gra flags, guestBackmapEx m gea (wordAt m.garbage 0) false flags = .ok (.none, gra) ∧
      gra < m.ram.pmemBytes ∧ gea &&& PAGE_MASK = 0 ∧
      m' = { m with
        mapped := Function.update m.mapped m.guest.vmm
          (Function.update (m.mapped m.guest.vmm) (pageOf gea) (some (m.ram.pmem + gra))) } := by
  simp only [guestFault, bind_ok] at handled
  obtain ⟨_, _, handled⟩ := handled
  split at handled
  · simp only [bind_ok] at handled
    obtain ⟨⟨lookup, gra⟩, answer, _, _, handled⟩ := handled
    split at handled
    · simp only [pure_ok, Except.ok.injEq, Prod.mk.injEq] at handled
      exact .inl handled.2.symm
    · rename_i found
      obtain rfl := not_not.mp found
      simp only [bind_ok] at handled
      obtain ⟨ha, looked, mapping⟩ := handled
      obtain ⟨inside, rfl⟩ := pmemHa_ok looked
      rcases guestMap_ok mapping with unmapped | ⟨aligned, mapped⟩
      · exact .inl unmapped
      · exact .inr ⟨_, gra, _, answer, inside, aligned, mapped⟩
  · simp only [pure_ok, Except.ok.injEq, Prod.mk.injEq] at handled
    exact .inl handled.2.symm

end ToyHv
