import ToyHv.Rom.Bounds

namespace ToyHv
open Library

/-- The arena and the available memory are as before, so every later run of claims is too. -/
structure RefusalHarmless (size_ : W32) (rom rom' : Rom) : Prop where
  arenaPtr : rom'.claimArenaPtr = rom.claimArenaPtr
  avail : rom'.guestMemAvailRanges = rom.guestMemAvailRanges
  later : ∀ history t, Run (ClaimStep size_) rom' history t ↔ Run (ClaimStep size_) rom history t

def RefusalKeeps (rom : Rom) (size align : W32) : Prop :=
  align = 0 ∨ alignUp rom.claimArenaPtr align ≥ rom.claimArenaEnd ∧ isAligned rom.claimArenaPtr align ∨
    alignUp rom.claimArenaPtr align < rom.claimArenaEnd ∧ alignUp rom.claimArenaPtr align + size = rom.claimArenaPtr

variable {mem : Bool} {size_ addr size align : W32} {rom rom' v w : Rom} {history : List Claim}

theorem alignUp_eq_self (x a : W32) : alignUp x a = x ↔ isAligned x a := by
  unfold alignUp
  split
  · rename_i aligned
    simp only [aligned]
  · rename_i unaligned
    refine iff_of_false (fun same => unaligned ?_) unaligned
    rw [isAligned, ← same, BitVec.and_assoc, BitVec.and_comm (~~~(a - 1))]
    simp

theorem refusedPtr_eq : refusedPtr rom size align = rom.claimArenaPtr ↔ RefusalKeeps rom size align := by
  unfold refusedPtr RefusalKeeps
  split
  · rename_i explicit
    exact iff_of_true rfl (.inl explicit)
  · rename_i arena
    rw [or_iff_right arena]
    split
    · rename_i full
      rw [alignUp_eq_self]
      constructor
      · exact fun aligned => .inl ⟨full, aligned⟩
      · rintro (⟨_, aligned⟩ | ⟨room, _⟩)
        · exact aligned
        · exact absurd room (BitVec.not_lt.mpr full)
    · rename_i room
      constructor
      · exact fun same => .inr ⟨BitVec.not_le.mp room, same⟩
      · rintro (⟨full, _⟩ | ⟨_, same⟩)
        · exact absurd full room
        · exact same

/-- All that a claim which answers -1 can change is the arena's pointer. -/
theorem ClaimState.refusal (state : ClaimState size_ rom) (whole : size_.toNat % 4096 = 0)
    (claimed : romClaimEx mem size_ rom addr size align = .ok (-1, rom')) :
    rom' = { rom with claimArenaPtr := refusedPtr rom size align } := by
  by_cases refused : ClaimRefused size_ rom addr size align
  · rw [romClaimEx_refused refused] at claimed
    exact (congrArg Prod.snd (Except.ok.inj claimed)).symm
  · have placed := romClaimPlace_placed refused
    rcases romClaimEx_ok claimed with ⟨none, _⟩ | ⟨start, found, removed⟩
    · rw [placed] at none
      cases none
    · rw [placed] at found
      obtain rfl := Option.some.inj found
      rw [romClaimEx_placed refused removed] at claimed
      obtain ⟨last, same⟩ := Prod.mk.inj (Except.ok.inj claimed)
      have explicit : align = 0 := by
        by_contra arena
        exact claimStart_ne refused arena last
      -- the last byte of the address space, which no entry reaches
      have before : ∀ r ∈ rom.guestMemAvailRanges, r.limit < alignDown (claimStart rom addr align) PAGE_SIZE := by
        intro r member
        have below := BitVec.lt_def.mp (state.inside r member)
        have page : (alignDown (-1) PAGE_SIZE).toNat = 0xfffff000 := by decide
        have top := size_.isLt
        rw [last]
        exact BitVec.lt_def.mpr (by omega)
      have kept : rom.guestMemAvailRanges = rom'.guestMemAvailRanges := by
        simp only [removePages, rangeRemove, bind_ok, rangeRemoveLoop_behind before, List.nil_append] at removed
        obtain ⟨_, _, same⟩ := removed
        exact Except.ok.inj same
      subst explicit
      rw [← same, ← kept]
      rfl

/-- In every state that claims lead to, a claim that answers -1 is as if it had never been made just
    when it does not move the arena's pointer. -/
theorem refusal_harmless_iff {p : Pmem} {before : Rom}
    (setup : romInitRanges mem (pmemSize p) before = .ok rom) (run : Run (ClaimStep (pmemSize p)) rom history rom')
    (same : SameClaims rom' v) (claimed : romClaimEx mem (pmemSize p) v addr size align = .ok (-1, w)) :
    RefusalHarmless (pmemSize p) v w ↔ RefusalKeeps v size align := by
  have state := (ClaimState.reached setup run).same same
  have moved := state.refusal p.size_aligned claimed
  rw [← refusedPtr_eq]
  constructor
  · intro harmless
    rw [← harmless.arenaPtr, moved]
  · intro kept
    have unchanged : w = v := by rw [moved, kept]
    subst unchanged
    exact ⟨rfl, rfl, fun _ _ => Iff.rfl⟩

theorem explicit_refusal_harmless : ∃ p rom t w, PlainClaims p rom ∧
    Run (ClaimStep (pmemSize p)) rom [⟨true, 0, 0x1000, 0x1000, 0x1000000, some 0x1000000⟩] t ∧
    romClaimEx true (pmemSize p) t 0x2000000 0x1000 0 = .ok (-1, w) ∧ RefusalHarmless (pmemSize p) t w := by
  obtain ⟨p, rom, plain⟩ := plain_claims
  obtain ⟨t, taken, _⟩ := plain.page_taken
  have claimed : romClaimEx true (pmemSize p) t 0x2000000 0x1000 0 = .ok (-1, t) := by
    rw [plain.size]
    rfl
  exact ⟨p, rom, t, t, plain, taken, claimed,
    (refusal_harmless_iff plain.setup taken ⟨rfl, rfl, rfl, rfl⟩ claimed).mpr (.inl rfl)⟩

/-- A refused claim of 32 MiB leaves the arena's pointer behind the arena's end, so that the arena never
    has a page again. -/
theorem refusal_exhausts_arena : ∃ p rom taken spent last, PlainClaims p rom ∧
    romClaimEx true (pmemSize p) rom 0 0x1000 0x1000 = .ok (0x1000000, taken) ∧
    romClaimEx true (pmemSize p) rom 0 0x2000000 0x1000 = .ok (-1, spent) ∧
    romClaimEx true (pmemSize p) spent 0 0x1000 0x1000 = .ok (-1, last) ∧ ¬ RefusalHarmless (pmemSize p) rom spent := by
  obtain ⟨p, rom, plain⟩ := plain_claims
  have up : alignUp rom.claimArenaPtr 0x1000 = 0x1000000 := by
    rw [plain.arenaPtr]
    decide
  have start : claimStart rom 0 0x1000 = 0x1000000 := up
  have free : ¬ ClaimRefused (pmemSize p) rom 0 0x1000 0x1000 := by
    rw [ClaimRefused, if_pos (by decide), up, plain.arenaEnd]
    decide
  have removed : removePages true rom.guestMemAvailRanges (claimStart rom 0 0x1000) 0x1000 = .ok
      [⟨0, 0xffffff, by decide⟩, ⟨0x1001000, 0x1ffffff, by decide⟩] := by
    rw [start, plain.avail]
    rfl
  have taken := romClaimEx_placed free removed
  rw [start] at taken
  have large : ClaimRefused (pmemSize p) rom 0 0x2000000 0x1000 := by
    rw [ClaimRefused, if_pos (by decide), up, plain.arenaEnd]
    decide
  have behind : refusedPtr rom 0x2000000 0x1000 = 0x3000000 := by
    rw [refusedPtr, if_neg (by decide), up, plain.arenaEnd]
    decide
  have later : ClaimRefused (pmemSize p)
      { rom with claimArenaPtr := refusedPtr rom 0x2000000 0x1000 } 0 0x1000 0x1000 := by
    rw [behind, ClaimRefused, if_pos (by decide), plain.arenaEnd]
    exact .inl (by decide : alignUp 0x3000000 0x1000 ≥ (0x2000000 : W32))
  refine ⟨p, rom, _, _, _, plain, taken, romClaimEx_refused large, romClaimEx_refused later, fun harmless => ?_⟩
  have moved := harmless.arenaPtr
  change refusedPtr rom 0x2000000 0x1000 = rom.claimArenaPtr at moved
  rw [behind, plain.arenaPtr] at moved
  exact absurd moved (by decide)

end ToyHv
