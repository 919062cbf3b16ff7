import ToyHv.Rom.WholePages

namespace ToyHv
open Library

def claimStart (rom : Rom) (addr align : W32) : W32 :=
  if align ≠ 0 then alignUp rom.claimArenaPtr align else addr

def ClaimRefused (size_ : W32) (rom : Rom) (addr size align : W32) : Prop :=
  if align ≠ 0 then
    alignUp rom.claimArenaPtr align ≥ rom.claimArenaEnd ∨ alignUp rom.claimArenaPtr align + size > rom.claimArenaEnd
  else addr + size > size_

/-- A request whose additions do not wrap, for one byte at least unless its place is 0 or inside a page,
    and that malloc can serve. -/
structure ClaimExact (mem : Bool) (rom : Rom) (addr size align : W32) : Prop where
  aligns : align ≠ 0 → isAligned rom.claimArenaPtr align ∨ rom.claimArenaPtr.toNat + (align - 1).toNat < 2^32
  sum : (claimStart rom addr align).toNat + size.toNat < 2^32
  pages : size ≠ 0 ∨ claimStart rom addr align = 0 ∨ ¬ isAligned (claimStart rom addr align) PAGE_SIZE
  serves : mem = true ∨ ∀ r ∈ rom.guestMemAvailRanges, ¬ r.Split (alignDown (claimStart rom addr align) PAGE_SIZE)
    (alignUp (claimStart rom addr align + size) PAGE_SIZE - 1)

/-- What a claim that hands out `out` promises. -/
structure ClaimInBounds (size_ : W32) (rom rom' : Rom) (addr size align out : W32) : Prop where
  inside : out.toNat + size.toNat ≤ size_.toNat
  explicit : align = 0 → out = addr
  arena : align ≠ 0 → rom.claimArenaPtr.toNat ≤ out.toNat ∧ (∀ k, align.toNat = 2^k → 2^k ∣ out.toNat) ∧
    out.toNat + size.toNat ≤ rom.claimArenaEnd.toNat ∧ rom'.claimArenaPtr.toNat = out.toNat + size.toNat

structure ClaimBounded (mem : Bool) (size_ : W32) (rom : Rom) (addr size align : W32) : Prop where
  ordered : ∀ out, (romClaimPlace size_ rom addr size align).1 = some out →
    alignDown out PAGE_SIZE < alignUp (out + size) PAGE_SIZE - 1
  answered : ∃ out rom', romClaimEx mem size_ rom addr size align = .ok (out, rom') ∧
    (out ≠ -1 → ClaimInBounds size_ rom rom' addr size align out)

/-- What every claim keeps, whether it wraps or not. -/
structure ClaimState (size_ : W32) (rom : Rom) : Prop where
  separated : Separated (rom.guestMemAvailRanges.map Range.span)
  whole : ∀ r ∈ rom.guestMemAvailRanges, r.WholePages
  inside : ∀ r ∈ rom.guestMemAvailRanges, r.limit < size_
  arenaEnd : rom.claimArenaEnd = size_

variable {mem : Bool} {size_ addr size align out result : W32} {rom rom' v : Rom} {c : Claim} {l l' : List Range}

theorem ClaimState.same (state : ClaimState size_ rom) (same : SameClaims rom v) : ClaimState size_ v := by
  obtain ⟨separated, whole, inside, arenaEnd⟩ := state
  rw [← same.avail] at separated whole inside
  exact ⟨separated, whole, inside, same.arenaEnd.trans arenaEnd⟩

theorem ClaimState.claim (state : ClaimState size_ rom)
    (claimed : romClaimEx mem size_ rom addr size align = .ok (result, rom')) : ClaimState size_ rom' := by
  have whole := romClaimEx_wholePages state.whole claimed
  have finish : rom'.claimArenaEnd = size_ := by
    rw [(romClaimEx_frame claimed)]
    exact state.arenaEnd
  rcases romClaimEx_ok claimed with ⟨_, kept⟩ | ⟨out, _, removed⟩
  · refine ⟨?_, whole, ?_, finish⟩
    · rw [kept]
      exact state.separated
    · rw [kept]
      exact state.inside
  · obtain ⟨ordered, spans⟩ := rangeRemove_spans state.separated removed
    refine ⟨?_, whole, fun r member => ?_, finish⟩
    · rw [spans]
      exact state.separated.carve _
    · have piece : r.span ∈ rom'.guestMemAvailRanges.map Range.span := List.mem_map_of_mem member
      rw [spans] at piece
      obtain ⟨_, older, carved⟩ := List.mem_flatMap.mp piece
      obtain ⟨o, present, rfl⟩ := List.mem_map.mp older
      have below : r.limit.toNat ≤ o.limit.toNat := (carve_le carved).2
      have within := BitVec.lt_def.mp (state.inside o present)
      exact BitVec.lt_def.mpr (by omega)

theorem ClaimState.fresh (whole : size_.toNat % 4096 = 0) (fresh : FreshLists size_ rom) : ClaimState size_ rom := by
  obtain ⟨ordered, all⟩ := fresh.avail
  have large := fresh.large
  have single := Available.fresh whole fresh
  refine ⟨single.separated, fun r member => ?_, fun r member => ?_, fresh.arenaEnd⟩
  · obtain ⟨base, limit⟩ := single.paged r member
    refine ⟨base, ?_⟩
    rw [BitVec.toNat_add]
    simp only [BitVec.ofNat_eq_ofNat, BitVec.toNat_ofNat]
    omega
  · rw [all] at member
    obtain rfl := List.mem_singleton.mp member
    change size_ - 1 < size_
    bv_omega

/-- Every state that the claims of any run lead to, those of `rom_init` included. -/
theorem ClaimState.reached {p : Pmem} {before : Rom} {history : List Claim}
    (setup : romInitRanges mem (pmemSize p) before = .ok rom) (run : Run (ClaimStep (pmemSize p)) rom history v) :
    ClaimState (pmemSize p) v := by
  refine run.invariant (I := fun _ t => ClaimState (pmemSize p) t) ?_ ?_
  · exact .fresh p.size_aligned (romInitRanges_ok setup).2
  · rintro older t c u state ⟨w, same, _, _, claimed⟩
    exact (state.same same).claim claimed

def refusedPtr (rom : Rom) (size align : W32) : W32 :=
  if align = 0 then rom.claimArenaPtr
  else if alignUp rom.claimArenaPtr align ≥ rom.claimArenaEnd then alignUp rom.claimArenaPtr align
  else alignUp rom.claimArenaPtr align + size

theorem romClaimPlace_refused (refused : ClaimRefused size_ rom addr size align) :
    romClaimPlace size_ rom addr size align =
      (none, { rom with claimArenaPtr := refusedPtr rom size align }) := by
  unfold ClaimRefused at refused
  unfold romClaimPlace refusedPtr
  split at refused
  · rename_i arena
    simp only [if_pos arena, if_neg arena]
    split
    · rfl
    · rename_i room
      have full := refused.resolve_left room
      rw [if_pos full]
  · rename_i explicit
    have explicit := not_not.mp explicit
    subst explicit
    simp only [ne_eq, not_true_eq_false, if_false, if_true]
    rw [if_pos refused]

theorem romClaimEx_refused (refused : ClaimRefused size_ rom addr size align) :
    romClaimEx mem size_ rom addr size align = .ok (-1, { rom with claimArenaPtr := refusedPtr rom size align }) := by
  simp only [romClaimEx, romClaimPlace_refused refused, pure_ok]

def claimArena (rom : Rom) (size align : W32) : Rom :=
  if align ≠ 0 then { rom with claimArenaPtr := alignUp rom.claimArenaPtr align + size } else rom

theorem romClaimPlace_placed (accepted : ¬ ClaimRefused size_ rom addr size align) :
    romClaimPlace size_ rom addr size align = (some (claimStart rom addr align), claimArena rom size align) := by
  unfold ClaimRefused at accepted
  unfold romClaimPlace claimStart claimArena
  split at accepted
  · rename_i arena
    obtain ⟨room, fits⟩ := not_or.mp accepted
    simp only [if_pos arena, if_neg room, if_neg fits]
  · rename_i explicit
    simp only [if_neg explicit, if_neg accepted]

theorem alignUp_lt (x a : W32) (wraps : ¬ (isAligned x a ∨ x.toNat + (a - 1).toNat < 2^32)) :
    (alignUp x a).toNat < x.toNat := by
  obtain ⟨unaligned, wraps⟩ := not_or.mp wraps
  rw [alignUp, if_neg unaligned]
  exact roundUp_lt x (a - 1) (not_lt.mp wraps)

theorem dvd_alignUp (x a : W32) {k : ℕ} (power : a.toNat = 2^k) : 2^k ∣ (alignUp x a).toNat := by
  have small : k ≤ 32 := by
    have bound := a.isLt
    rw [power] at bound
    exact ((Nat.pow_lt_pow_iff_right (by decide)).mp bound).le
  have mask : a - 1 = BitVec.ofNat 32 (2^k - 1) := by
    have positive : 0 < 2^k := Nat.two_pow_pos k
    have bound := a.isLt
    refine BitVec.eq_of_toNat_eq ?_
    rw [BitVec.toNat_sub, BitVec.toNat_ofNat, power]
    simp only [BitVec.ofNat_eq_ofNat, BitVec.toNat_ofNat]
    omega
  unfold alignUp
  split
  · rename_i aligned
    have low := toNat_and_low x small
    rw [isAligned, mask] at aligned
    rw [aligned] at low
    exact Nat.dvd_of_mod_eq_zero low.symm
  · rw [mask, toNat_and_not_low _ small]
    exact Nat.dvd_sub_mod _

theorem claimStart_ne (accepted : ¬ ClaimRefused size_ rom addr size align) (arena : align ≠ 0) :
    claimStart rom addr align ≠ -1 := by
  unfold ClaimRefused at accepted
  unfold claimStart
  rw [if_pos arena] at accepted ⊢
  obtain ⟨room, _⟩ := not_or.mp accepted
  intro last
  rw [last] at room
  bv_omega

theorem ClaimState.in_bounds (state : ClaimState size_ rom) (accepted : ¬ ClaimRefused size_ rom addr size align)
    (aligns : align ≠ 0 → isAligned rom.claimArenaPtr align ∨ rom.claimArenaPtr.toNat + (align - 1).toNat < 2^32)
    (sum : (claimStart rom addr align).toNat + size.toNat < 2^32)
    (arenaPtr : rom'.claimArenaPtr = (claimArena rom size align).claimArenaPtr) :
    ClaimInBounds size_ rom rom' addr size align (claimStart rom addr align) := by
  have exact : (claimStart rom addr align + size).toNat = (claimStart rom addr align).toNat + size.toNat := by
    rw [BitVec.toNat_add]
    exact Nat.mod_eq_of_lt sum
  unfold ClaimRefused at accepted
  unfold claimStart claimArena at *
  by_cases arena : align ≠ 0
  · simp only [if_pos arena] at accepted exact arenaPtr ⊢
    obtain ⟨_, fits⟩ := not_or.mp accepted
    have fits := BitVec.le_def.mp (BitVec.not_lt.mp fits)
    rw [exact] at fits
    refine ⟨?_, fun explicit => absurd explicit arena, fun _ => ⟨?_, ?_, fits, ?_⟩⟩
    · rwa [state.arenaEnd] at fits
    · exact le_alignUp _ _ (aligns arena)
    · exact fun k power => dvd_alignUp _ _ power
    · rw [arenaPtr]
      exact exact
  · simp only [if_neg arena] at accepted exact ⊢
    have fits := BitVec.le_def.mp (BitVec.not_lt.mp accepted)
    rw [exact] at fits
    exact ⟨fits, fun _ => rfl, fun other => absurd other arena⟩

theorem pages_ordered (whole : size_.toNat % 4096 = 0) (inside : out.toNat + size.toNat ≤ size_.toNat)
    (pages : size ≠ 0 ∨ out = 0 ∨ ¬ isAligned out PAGE_SIZE) :
    alignDown out PAGE_SIZE < alignUp (out + size) PAGE_SIZE - 1 := by
  by_cases empty : size = 0
  · subst empty
    rw [add_zero]
    rcases pages.resolve_left (not_not.mpr rfl) with rfl | unaligned
    · decide
    · rw [isAligned_page] at unaligned
      have top := size_.isLt
      simp only [BitVec.ofNat_eq_ofNat, BitVec.toNat_ofNat] at inside
      have up := toNat_alignUp_page out (by omega)
      have down := toNat_alignDown_page out
      have last : (alignUp out PAGE_SIZE - 1).toNat = (alignUp out PAGE_SIZE).toNat - 1 := by
        rw [BitVec.toNat_sub]
        simp only [BitVec.ofNat_eq_ofNat, BitVec.toNat_ofNat]
        omega
      exact BitVec.lt_def.mpr (by omega)
  · have some : 1 ≤ size.toNat := Nat.pos_of_ne_zero fun zero => empty (BitVec.eq_of_toNat_eq zero)
    exact (page_cut whole some inside).ordered

theorem pages_of_ordered (ordered : alignDown out PAGE_SIZE < alignUp (out + size) PAGE_SIZE - 1) :
    size ≠ 0 ∨ out = 0 ∨ ¬ isAligned out PAGE_SIZE := by
  by_contra none
  simp only [not_or, not_not] at none
  obtain ⟨rfl, positive, aligned⟩ := none
  rw [add_zero, alignUp, if_pos aligned] at ordered
  rw [isAligned_page] at aligned
  have down := toNat_alignDown_page out
  have ordered := BitVec.lt_def.mp ordered
  bv_omega

/-- A request for the last byte of the address space is served with what -1 stands for. -/
theorem last_byte_ordered (whole : size_.toNat % 4096 = 0) (fits : -1 + size ≤ size_) :
    alignDown (-1) PAGE_SIZE < alignUp (-1 + size) PAGE_SIZE - 1 ↔ size = 1 := by
  constructor
  · intro ordered
    have ordered := BitVec.lt_def.mp ordered
    have down : (alignDown (-1) PAGE_SIZE).toNat = 0xfffff000 := by decide
    have fits := BitVec.le_def.mp fits
    have top := size_.isLt
    have up := toNat_alignUp_page (-1 + size) (by omega)
    have behind : (-1 + size).toNat = 0 := by bv_omega
    bv_omega
  · rintro rfl
    decide

/-- When `rom_claim_ex` keeps its promise. -/
def ClaimSound (mem : Bool) (size_ : W32) (rom : Rom) (addr size align : W32) : Prop :=
  ClaimRefused size_ rom addr size align ∨ ClaimExact mem rom addr size align ∨ align = 0 ∧ addr = -1 ∧ size = 1

theorem ClaimState.removes (state : ClaimState size_ rom)
    (ordered : alignDown out PAGE_SIZE < alignUp (out + size) PAGE_SIZE - 1)
    (serves : mem = true ∨ ∀ r ∈ rom.guestMemAvailRanges,
      ¬ r.Split (alignDown out PAGE_SIZE) (alignUp (out + size) PAGE_SIZE - 1)) :
    ∃ l, removePages mem rom.guestMemAvailRanges out size = .ok l := by
  have roomy := paged_roomy (fun r member => (state.whole r member).base) out (alignUp (out + size) PAGE_SIZE - 1)
  obtain ⟨l, removed, _⟩ := rangeRemove_carved ordered state.separated (CutServed.of_roomy roomy serves)
  exact ⟨l, removed⟩

theorem romClaimEx_placed (accepted : ¬ ClaimRefused size_ rom addr size align)
    (removed : removePages mem rom.guestMemAvailRanges (claimStart rom addr align) size = .ok l) :
    romClaimEx mem size_ rom addr size align =
      .ok (claimStart rom addr align, { claimArena rom size align with guestMemAvailRanges := l }) := by
  have kept : (claimArena rom size align).guestMemAvailRanges = rom.guestMemAvailRanges := by
    unfold claimArena
    split <;> rfl
  unfold removePages at removed
  simp only [romClaimEx, romClaimPlace_placed accepted, kept, removed, ok_bind, pure_ok]

theorem ClaimState.bounded (state : ClaimState size_ rom) (whole : size_.toNat % 4096 = 0)
    (sound : ClaimSound mem size_ rom addr size align) : ClaimBounded mem size_ rom addr size align := by
  by_cases refused : ClaimRefused size_ rom addr size align
  · have none := romClaimPlace_refused refused
    refine ⟨fun out place => ?_, -1, _, romClaimEx_refused refused, fun other => absurd rfl other⟩
    rw [none] at place
    cases place
  · have placed := romClaimPlace_placed refused
    rcases sound.resolve_left refused with exact | ⟨rfl, rfl, rfl⟩
    · have bounds : ClaimInBounds size_ rom (claimArena rom size align) addr size align (claimStart rom addr align) :=
        state.in_bounds refused exact.aligns exact.sum rfl
      have ordered := pages_ordered whole bounds.inside exact.pages
      obtain ⟨l, removed⟩ := state.removes ordered exact.serves
      refine ⟨fun out place => ?_, _, _, romClaimEx_placed refused removed, fun _ => ?_⟩
      · rw [placed] at place
        obtain rfl := Option.some.inj place
        exact ordered
      · exact state.in_bounds refused exact.aligns exact.sum rfl
    · have ordered : alignDown (-1) PAGE_SIZE < alignUp (-1 + 1) PAGE_SIZE - 1 := by decide
      have kept : ∀ r ∈ rom.guestMemAvailRanges,
          ¬ r.Split (alignDown (-1) PAGE_SIZE) (alignUp (-1 + 1) PAGE_SIZE - 1) := by
        intro r _ split
        have last : alignUp (-1 + 1) PAGE_SIZE - 1 = (-1 : W32) := by decide
        have above := split.2
        rw [last] at above
        bv_omega
      obtain ⟨l, removed⟩ := state.removes ordered (.inr kept)
      refine ⟨fun out place => ?_, _, _, romClaimEx_placed refused removed, fun other => absurd rfl other⟩
      rw [placed] at place
      obtain rfl := Option.some.inj place
      exact ordered

theorem claim_bounded_sound (whole : size_.toNat % 4096 = 0)
    (bounded : ClaimBounded mem size_ rom addr size align) : ClaimSound mem size_ rom addr size align := by
  by_cases refused : ClaimRefused size_ rom addr size align
  · exact .inl refused
  refine .inr ?_
  have placed := romClaimPlace_placed refused
  have ordered := bounded.ordered (claimStart rom addr align) (by rw [placed])
  obtain ⟨out, rom', claimed, promise⟩ := bounded.answered
  obtain ⟨same, removed⟩ : out = claimStart rom addr align ∧
      removePages mem rom.guestMemAvailRanges (claimStart rom addr align) size = .ok rom'.guestMemAvailRanges := by
    rcases romClaimEx_ok claimed with ⟨none, _⟩ | ⟨start, found, removed⟩
    · rw [placed] at none
      cases none
    · rw [placed] at found
      obtain rfl := Option.some.inj found
      rw [romClaimEx_placed refused removed] at claimed
      exact ⟨(congrArg Prod.fst (Except.ok.inj claimed)).symm, removed⟩
  by_cases last : claimStart rom addr align = -1
  · have explicit : align = 0 := by
      by_contra arena
      exact claimStart_ne refused arena last
    subst explicit
    have address : addr = -1 := last
    subst address
    have fits : -1 + size ≤ size_ := BitVec.not_lt.mp refused
    exact .inr ⟨rfl, rfl, (last_byte_ordered whole fits).mp ordered⟩
  · have bounds := promise (by rwa [same])
    rw [same] at bounds
    refine .inl ⟨fun arena => ?_, ?_, pages_of_ordered ordered, ?_⟩
    · by_contra wraps
      have back := alignUp_lt _ _ wraps
      have ahead := (bounds.arena arena).1
      rw [claimStart, if_pos arena] at ahead
      omega
    · exact bounds.inside.trans_lt size_.isLt
    · cases mem with
      | true => exact .inl rfl
      | false =>
        right
        intro r member split
        cases (rangeRemove_served ordered removed r member split).1

/-- In every state that claims lead to, a claim stays in bounds and does not abort just when its
    additions do not wrap, its pages are some, and malloc can serve a split, or it is refused. -/
theorem claim_bounded_iff {p : Pmem} {before : Rom} {history : List Claim}
    (setup : romInitRanges mem (pmemSize p) before = .ok rom) (run : Run (ClaimStep (pmemSize p)) rom history rom')
    (same : SameClaims rom' v) (mem : Bool) (addr size align : W32) :
    ClaimBounded mem (pmemSize p) v addr size align ↔ ClaimSound mem (pmemSize p) v addr size align := by
  have state := (ClaimState.reached setup run).same same
  constructor
  · exact claim_bounded_sound p.size_aligned
  · exact state.bounded p.size_aligned

theorem arena_page_bounded : ∃ p rom t, PlainClaims p rom ∧
    Run (ClaimStep (pmemSize p)) rom [⟨true, 0, 0x1000, 0x1000, 0x1000000, some 0x1000000⟩] t ∧
    ClaimBounded true (pmemSize p) t 0 0x1000 0x1000 := by
  obtain ⟨p, rom, plain⟩ := plain_claims
  obtain ⟨t, taken, _, ptr, _⟩ := plain.page_taken
  refine ⟨p, rom, t, plain, taken, ?_⟩
  refine (claim_bounded_iff plain.setup taken ⟨rfl, rfl, rfl, rfl⟩ true 0 0x1000 0x1000).mpr (.inr (.inl ?_))
  have start : claimStart t 0 0x1000 = 0x1001000 := by
    rw [claimStart, ptr]
    decide
  refine ⟨fun _ => ?_, ?_, .inl (by decide), .inl rfl⟩
  · rw [ptr]
    exact .inl (by decide)
  · rw [start]
    decide

/-- A claim of the last page of the address space is granted, 4 GiB behind the end of RAM. -/
theorem wrapped_claim_granted :
    ¬ ∀ (p : Pmem) (before rom v : Rom) (history : List Claim), romInitRanges true (pmemSize p) before = .ok rom →
    Run (ClaimStep (pmemSize p)) rom history v →
    ∀ addr size align, ClaimBounded true (pmemSize p) v addr size align := by
  intro always
  obtain ⟨p, rom, plain⟩ := plain_claims
  have bounded := always p _ rom rom [] plain.setup (.nil rom) 0xfffff000 0x1000 0
  have sound : ClaimSound true (pmemSize p) rom 0xfffff000 0x1000 0 := claim_bounded_sound p.size_aligned bounded
  rcases sound with refused | exact | ⟨_, last, _⟩
  · rw [plain.size] at refused
    exact absurd refused (by decide : ¬ (0xfffff000 + 0x1000 : W32) > 0x2000000)
  · exact absurd exact.sum (by decide : ¬ (0xfffff000 : W32).toNat + (0x1000 : W32).toNat < 2^32)
  · exact absurd last (by decide)

end ToyHv
