import ToyHv.Rom.Boot

namespace ToyHv

/-- A map request as `rom_mmu_call` finds it in its argument cells. -/
structure MapRequest where
  phys : W32
  virt : W32
  size : W32
  mode : W32

/-- The requests that get a range: not for the identity, and from inside RAM. -/
def MapRequest.Accepted (p : Pmem) (e : MapRequest) : Prop := e.phys ≠ e.virt ∧ pmemGraValid p e.phys = true

def MapRequest.limit (e : MapRequest) : W32 := e.virt + alignDown e.size PAGE_SIZE - 1

def MapRequest.run (mem : Bool) (p : Pmem) (rom : Rom) (e : MapRequest) : Checked (Err × Rom) :=
  romMmuMap mem p rom e.phys e.virt e.size e.mode

theorem MapRequest.run_ok {mem : Bool} {p : Pmem} {rom rom' : Rom} {e : MapRequest} {err : Err}
    (handled : e.run mem p rom = .ok (err, rom')) :
    (¬ e.Accepted p ∧ rom' = rom) ∨
    (e.Accepted p ∧ e.phys &&& PAGE_MASK = 0 ∧ e.virt &&& PAGE_MASK = 0 ∧
      ∃ ranges, mmuRangeAdd mem rom.romMmuRanges e.virt e.limit e.phys 0 = .ok ranges ∧
        rom' = { rom with romMmuRanges := ranges }) := by
  simp only [MapRequest.run, romMmuMap, bind_ok] at handled
  obtain ⟨_, _, handled⟩ := handled
  split at handled
  · rename_i identity
    simp only [pure_ok, Except.ok.injEq, Prod.mk.injEq] at handled
    exact .inl ⟨fun accepted => accepted.1 identity, handled.2.symm⟩
  · rename_i displaced
    split at handled
    · rename_i outside
      simp only [pure_ok, Except.ok.injEq, Prod.mk.injEq] at handled
      exact .inl ⟨fun accepted => outside accepted.2, handled.2.symm⟩
    · rename_i inside
      simp only [bind_ok, bugOn_ok, pure_ok, Except.ok.injEq, Prod.mk.injEq] at handled
      obtain ⟨_, phys, _, virt, ranges, added, _, rfl⟩ := handled
      exact .inr ⟨⟨displaced, not_not.mp inside⟩, not_not.mp phys, not_not.mp virt, ranges, added, rfl⟩

theorem MapRequest.run_accepted {mem : Bool} {p : Pmem} {rom : Rom} {e : MapRequest} {ranges : List MmuRange}
    (accepted : e.Accepted p) (mode : e.mode = -1) (phys : e.phys &&& PAGE_MASK = 0) (virt : e.virt &&& PAGE_MASK = 0)
    (added : mmuRangeAdd mem rom.romMmuRanges e.virt e.limit e.phys 0 = .ok ranges) :
    e.run mem p rom = .ok (.none, { rom with romMmuRanges := ranges }) := by
  have standard : ¬ (if (-1 : W32) = -2 then -1 else -1) ≠ (-1 : W32) := by decide
  simp only [MapRequest.limit] at added
  simp only [MapRequest.run, romMmuMap, mode, bugOn_false standard, if_neg accepted.1, accepted.2, phys, virt, added,
    not_true_eq_false, if_false, ne_eq, bugOn_false, ok_bind, pure_ok, not_false_eq_true]

theorem romMmuCall_ok {mem : Bool} {m m' : Machine} {call : Buf} {cia ciaIn : W32} {err : Err}
    (called : romMmuCall mem m call cia ciaIn = .ok (err, m')) :
    m' = m ∨ ∃ (e : MapRequest) (rom : Rom), strcmpEq "map" call = true ∧
      ciaCell m cia ciaIn 2 = .ok (.none, e.mode) ∧ ciaCell m cia ciaIn 3 = .ok (.none, e.size) ∧
      ciaCell m cia ciaIn 4 = .ok (.none, e.virt) ∧ ciaCell m cia ciaIn 5 = .ok (.none, e.phys) ∧
      e.run mem m.ram m.rom = .ok (err, rom) ∧ m' = { m with rom } := by
  unfold romMmuCall at called
  split at called
  · rename_i named
    simp only [bind_ok] at called
    obtain ⟨⟨modeErr, mode⟩, modeCell, called⟩ := called
    rcases returned_or called with same | ⟨rfl, called⟩
    · exact .inl same
    simp only [bind_ok] at called
    obtain ⟨⟨sizeErr, size⟩, sizeCell, called⟩ := called
    rcases returned_or called with same | ⟨rfl, called⟩
    · exact .inl same
    simp only [bind_ok] at called
    obtain ⟨⟨virtErr, virt⟩, virtCell, called⟩ := called
    rcases returned_or called with same | ⟨rfl, called⟩
    · exact .inl same
    simp only [bind_ok] at called
    obtain ⟨⟨physErr, phys⟩, physCell, called⟩ := called
    rcases returned_or called with same | ⟨rfl, called⟩
    · exact .inl same
    simp only [bind_ok, pure_ok, Except.ok.injEq, Prod.mk.injEq] at called
    obtain ⟨⟨mapErr, rom⟩, mapped, rfl, rfl⟩ := called
    exact .inr ⟨⟨phys, virt, size, mode⟩, rom, named, modeCell, sizeCell, virtCell, physCell, mapped, rfl⟩
  · simp only [pure_ok, Except.ok.injEq, Prod.mk.injEq] at called
    exact .inl called.2.symm

/-- What a client call does to the translation table: nothing, or it adds the range of a request. -/
def MayMap (p : Pmem) (table table' : List MmuRange) : Prop :=
  table' = table ∨ ∃ (mem : Bool) (e : MapRequest), e.Accepted p ∧ e.phys &&& PAGE_MASK = 0 ∧
    e.virt &&& PAGE_MASK = 0 ∧ mmuRangeAdd mem table e.virt e.limit e.phys 0 = .ok table'

theorem MapRequest.run_mayMap {mem : Bool} {p : Pmem} {rom rom' : Rom} {e : MapRequest} {err : Err}
    (handled : e.run mem p rom = .ok (err, rom')) : MayMap p rom.romMmuRanges rom'.romMmuRanges := by
  rcases e.run_ok handled with ⟨_, rfl⟩ | ⟨accepted, phys, virt, ranges, added, rfl⟩
  · exact .inl rfl
  · exact .inr ⟨mem, e, accepted, phys, virt, added⟩

theorem romMemCall_ok {mem : Bool} {m m' : Machine} {call : Buf} {cia ciaIn ciaOut : W32} {err : Err}
    (called : romMemCall mem m call cia ciaIn ciaOut = .ok (err, m')) :
    ∃ host rom, m' = { m with host, rom } ∧ rom.romMmuRanges = m.rom.romMmuRanges := by
  unfold romMemCall at called
  split at called
  · simp only [bind_ok] at called
    obtain ⟨⟨alignErr, align⟩, _, called⟩ := called
    rcases returned_or called with rfl | ⟨_, called⟩
    · exact ⟨_, _, rfl, rfl⟩
    simp only [bind_ok] at called
    obtain ⟨⟨sizeErr, size⟩, _, called⟩ := called
    rcases returned_or called with rfl | ⟨_, called⟩
    · exact ⟨_, _, rfl, rfl⟩
    simp only [bind_ok] at called
    obtain ⟨⟨addrErr, addr⟩, _, called⟩ := called
    rcases returned_or called with rfl | ⟨_, called⟩
    · exact ⟨_, _, rfl, rfl⟩
    simp only [bind_ok] at called
    obtain ⟨⟨result, rom⟩, claimed, _, _, stored⟩ := called
    obtain ⟨host, rfl⟩ := guestTo_frame stored
    have table := congrArg Rom.romMmuRanges (romClaimEx_frame claimed)
    exact ⟨host, rom, rfl, table⟩
  · simp only [pure_ok, Except.ok.injEq, Prod.mk.injEq] at called
    exact ⟨m.host, m.rom, called.2.symm, rfl⟩

theorem romCallmethod_ok {mem : Bool} {m m' : Machine} {cia ciaIn ciaOut : W32} {err : Err}
    (called : romCallmethod mem m cia ciaIn ciaOut = .ok (err, m')) :
    ∃ host rom, m' = { m with host, rom } ∧ MayMap m.ram m.rom.romMmuRanges rom.romMmuRanges := by
  simp only [romCallmethod, bind_ok] at called
  obtain ⟨⟨methodErr, methodEa⟩, _, called⟩ := called
  rcases returned_or called with rfl | ⟨_, called⟩
  · exact ⟨_, _, rfl, .inl rfl⟩
  simp only [bind_ok] at called
  obtain ⟨⟨ihandleErr, ihandle⟩, _, called⟩ := called
  rcases returned_or called with rfl | ⟨_, called⟩
  · exact ⟨_, _, rfl, .inl rfl⟩
  simp only [bind_ok] at called
  obtain ⟨⟨count, text⟩, _, _, _, called⟩ := called
  split at called
  · simp only [bind_ok] at called
    obtain ⟨⟨_, answered⟩, handled, _, _, stored⟩ := called
    obtain ⟨host, rfl⟩ := guestTo_frame stored
    obtain ⟨_, rom, rfl, same⟩ := romMemCall_ok handled
    exact ⟨host, rom, rfl, .inl same⟩
  · split at called
    · simp only [bind_ok] at called
      obtain ⟨⟨_, answered⟩, handled, _, _, stored⟩ := called
      obtain ⟨host, rfl⟩ := guestTo_frame stored
      rcases romMmuCall_ok handled with rfl | ⟨e, rom, _, _, _, _, _, mapped, rfl⟩
      · exact ⟨host, _, rfl, .inl rfl⟩
      · have table := e.run_mayMap mapped
        exact ⟨host, rom, rfl, table⟩
    · simp only [pure_ok, ok_bind, bind_ok] at called
      obtain ⟨_, _, stored⟩ := called
      obtain ⟨host, rfl⟩ := guestTo_frame stored
      exact ⟨host, _, rfl, .inl rfl⟩

end ToyHv
