import Mathlib.Order.CompletePartialOrder
import Mathlib.Order.Interval.Set.Disjoint
import ToyHv.Library.Runs
import ToyHv.Rom.Boot

namespace ToyHv
open Library

/-- One call of `rom_claim_ex`: malloc's answer, the arguments, where the arena pointer stood and
    the place found, if there was one. -/
structure Claim where
  mem : Bool
  addr : W32
  size : W32
  align : W32
  arenaPtr : W32
  place : Option W32

def regionOf (addr size : W32) : Set ℕ := Set.Ico addr.toNat (addr.toNat + size.toNat)

def Claim.region (c : Claim) : Set ℕ := {a | ∃ out, c.place = some out ∧ a ∈ regionOf out c.size}

/-- The ROM's other services, which leave the available memory and the arena alone, and then a
    claim. -/
inductive ClaimStep (size_ : W32) (rom : Rom) (c : Claim) (rom' : Rom) : Prop
  | intro (v : Rom) (same : SameClaims rom v) (arenaPtr : c.arenaPtr = v.claimArenaPtr)
      (place : c.place = (romClaimPlace size_ v c.addr c.size c.align).1)
      (claimed : romClaimEx c.mem size_ v c.addr c.size c.align = .ok (c.place.getD (-1), rom'))

/-- An arena claim whose two additions, as far as they are made, do not wrap. -/
def Claim.Exact (size_ : W32) (c : Claim) : Prop :=
  c.align ≠ 0 → (isAligned c.arenaPtr c.align ∨ c.arenaPtr.toNat + (c.align - 1).toNat < 2^32) ∧
    (alignUp c.arenaPtr c.align < size_ → (alignUp c.arenaPtr c.align).toNat + c.size.toNat < 2^32)

def Claim.BelowArena (c : Claim) : Prop :=
  c.align ≠ 0 ∨ ∀ out, c.place = some out → out.toNat + c.size.toNat ≤ c.arenaPtr.toNat

theorem le_alignUp (x a : W32) (exact : isAligned x a ∨ x.toNat + (a - 1).toNat < 2^32) :
    x.toNat ≤ (alignUp x a).toNat := by
  unfold alignUp
  split
  · exact le_rfl
  · rename_i unaligned
    exact le_roundUp x (a - 1) (exact.resolve_left unaligned)

theorem romClaimPlace_arena (size_ addr : W32) {size align : W32} {rom : Rom} (arena : align ≠ 0)
    (up : rom.claimArenaPtr.toNat ≤ (alignUp rom.claimArenaPtr align).toNat)
    (exact : alignUp rom.claimArenaPtr align < rom.claimArenaEnd →
      (alignUp rom.claimArenaPtr align).toNat + size.toNat < 2^32) :
    let answer := romClaimPlace size_ rom addr size align
    rom.claimArenaPtr.toNat ≤ answer.2.claimArenaPtr.toNat ∧ answer.2.claimArenaEnd = rom.claimArenaEnd ∧
      ∀ out, answer.1 = some out → rom.claimArenaPtr.toNat ≤ out.toNat ∧
        out.toNat + size.toNat = answer.2.claimArenaPtr.toNat ∧
        answer.2.claimArenaPtr.toNat ≤ rom.claimArenaEnd.toNat := by
  simp only [romClaimPlace, if_pos arena]
  split
  · exact ⟨up, rfl, by simp⟩
  · rename_i room
    have sum : (alignUp rom.claimArenaPtr align + size).toNat =
        (alignUp rom.claimArenaPtr align).toNat + size.toNat := by
      rw [BitVec.toNat_add]
      exact Nat.mod_eq_of_lt (exact (BitVec.not_le.mp room))
    split
    · refine ⟨?_, rfl, by simp⟩
      change _ ≤ (alignUp rom.claimArenaPtr align + size).toNat
      omega
    · rename_i fits
      have fits := BitVec.le_def.mp (BitVec.not_lt.mp fits)
      refine ⟨?_, rfl, fun out same => ?_⟩
      · change _ ≤ (alignUp rom.claimArenaPtr align + size).toNat
        omega
      · obtain rfl := Option.some.inj same
        exact ⟨up, sum.symm, fits⟩

theorem romClaimPlace_explicit {size_ addr size : W32} {rom : Rom} :
    (romClaimPlace size_ rom addr size 0).2 = rom ∧
      ∀ out, (romClaimPlace size_ rom addr size 0).1 = some out → out = addr := by
  have explicit : ¬ (0 : W32) ≠ 0 := by simp
  simp only [romClaimPlace, if_neg explicit]
  split
  · exact ⟨rfl, by simp⟩
  · exact ⟨rfl, fun out same => (Option.some.inj same).symm⟩

theorem romClaimEx_arena {mem : Bool} {size_ addr size align out : W32} {rom rom' : Rom}
    (claimed : romClaimEx mem size_ rom addr size align = .ok (out, rom')) :
    rom'.claimArenaPtr = (romClaimPlace size_ rom addr size align).2.claimArenaPtr ∧
      rom'.claimArenaEnd = (romClaimPlace size_ rom addr size align).2.claimArenaEnd := by
  unfold romClaimEx at claimed
  generalize romClaimPlace size_ rom addr size align = answer at claimed ⊢
  obtain ⟨_ | place, placed⟩ := answer
  · simp only [pure_ok, Except.ok.injEq, Prod.mk.injEq] at claimed
    obtain ⟨_, rfl⟩ := claimed
    exact ⟨rfl, rfl⟩
  · simp only [bind_ok, pure_ok, Except.ok.injEq, Prod.mk.injEq] at claimed
    obtain ⟨_, _, _, rfl⟩ := claimed
    exact ⟨rfl, rfl⟩

/-- The arena's pointer is behind everything that was claimed below it. -/
structure ArenaInv (size_ start : W32) (history : List Claim) (rom : Rom) : Prop where
  arenaEnd : rom.claimArenaEnd = size_
  start : start.toNat ≤ rom.claimArenaPtr.toNat
  behind : ∀ c ∈ history, c.BelowArena → ∀ a ∈ c.region, a < rom.claimArenaPtr.toNat

variable {size_ start : W32} {rom rom' : Rom} {c : Claim} {history : List Claim}

theorem ClaimStep.arena (step : ClaimStep size_ rom c rom') (finish : rom.claimArenaEnd = size_)
    (exact : c.Exact size_) : c.arenaPtr = rom.claimArenaPtr ∧ rom.claimArenaPtr.toNat ≤ rom'.claimArenaPtr.toNat ∧
      rom'.claimArenaEnd = rom.claimArenaEnd ∧
      (c.align ≠ 0 → ∀ a ∈ c.region, rom.claimArenaPtr.toNat ≤ a ∧ a < rom'.claimArenaPtr.toNat ∧
        a < rom.claimArenaEnd.toNat) := by
  obtain ⟨v, same, arenaPtr, place, claimed⟩ := step
  obtain ⟨ptr, arenaEnd⟩ := romClaimEx_arena claimed
  rw [same.arenaPtr] at arenaPtr
  by_cases arena : c.align = 0
  · rw [arena] at ptr arenaEnd
    rw [romClaimPlace_explicit.1] at ptr arenaEnd
    exact ⟨arenaPtr, by rw [ptr, same.arenaPtr], by rw [arenaEnd, same.arenaEnd], fun other => absurd arena other⟩
  · obtain ⟨up, sum⟩ := exact arena
    have up := le_alignUp _ _ up
    rw [arenaPtr, ← same.arenaPtr] at up sum
    rw [← finish, ← same.arenaEnd] at sum
    obtain ⟨grows, last, placed⟩ := romClaimPlace_arena size_ c.addr arena up sum
    refine ⟨arenaPtr, by rw [ptr, ← same.arenaPtr]; exact grows, by rw [arenaEnd, last, same.arenaEnd], ?_⟩
    rintro _ a ⟨out, found, low, high⟩
    obtain ⟨first, behind, inside⟩ := placed out (by rw [← place, found])
    rw [same.arenaPtr] at first
    rw [same.arenaEnd] at inside
    rw [ptr]
    omega

theorem ArenaInv.step (inv : ArenaInv size_ start history rom) (step : ClaimStep size_ rom c rom')
    (exact : c.Exact size_) : ArenaInv size_ start (history ++ [c]) rom' := by
  obtain ⟨arenaPtr, grows, finish, handed⟩ := step.arena inv.arenaEnd exact
  refine ⟨finish.trans inv.arenaEnd, inv.start.trans grows, fun d member below a inside => ?_⟩
  rcases List.mem_append.mp member with older | new
  · exact (inv.behind d older below a inside).trans_le grows
  · obtain rfl := List.mem_singleton.mp new
    by_cases arena : d.align = 0
    · obtain ⟨out, found, _, high⟩ := inside
      have reserved := below.resolve_left (not_not.mpr arena) out found
      rw [arenaPtr] at reserved
      omega
    · exact (handed arena a inside).2.1

theorem ArenaInv.disjoint (inv : ArenaInv size_ start history rom) (step : ClaimStep size_ rom c rom')
    (exact : c.Exact size_) (arena : c.align ≠ 0) {taken : Set ℕ}
    (behind : ∀ a ∈ taken, a < rom.claimArenaPtr.toNat ∨ size_.toNat ≤ a) : Disjoint taken c.region := by
  rw [Set.disjoint_left]
  intro a inside claimed
  obtain ⟨low, _, high⟩ := (step.arena inv.arenaEnd exact).2.2.2 arena a claimed
  rw [inv.arenaEnd] at high
  rcases behind a inside with below | above <;> omega

structure BootArena (size_ : W32) (rom : Rom) : Prop where
  large : 16777216 < size_.toNat
  arenaStart : rom.claimArenaStart = size_ - mb 16
  arenaPtr : rom.claimArenaPtr = size_ - mb 16
  arenaEnd : rom.claimArenaEnd = size_
  stackStart : rom.stackStart = size_ - mb 16 - mb 1
  stackEnd : rom.stackEnd = size_ - mb 16

theorem Boot.arena {env : BootEnv} {m s : Machine} (boot : Boot env m s) : BootArena m.ram.pmemBytes s.rom := by
  have fresh := (romInitRanges_ok boot.setup).2
  have explicit : ∀ {mem : Bool} {addr size out : W32} {rom rom' : Rom},
      romClaimEx mem m.ram.pmemBytes rom addr size 0 = .ok (out, rom') →
      rom'.claimArenaPtr = rom.claimArenaPtr ∧ rom'.claimArenaEnd = rom.claimArenaEnd := by
    intro mem addr size out rom rom' claimed
    have arena := romClaimEx_arena claimed
    rwa [romClaimPlace_explicit.1] at arena
  obtain ⟨loaderPtr, loaderEnd⟩ := explicit boot.claimLoader
  obtain ⟨trampolinePtr, trampolineEnd⟩ := explicit boot.claimTrampoline
  obtain ⟨stackPtr, stackLast⟩ := explicit boot.claimStack
  have loaderStart := congrArg Rom.claimArenaStart (romClaimEx_frame boot.claimLoader)
  have trampolineStart := congrArg Rom.claimArenaStart (romClaimEx_frame boot.claimTrampoline)
  have stackFirst := congrArg Rom.claimArenaStart (romClaimEx_frame boot.claimStack)
  have stackStart := congrArg Rom.stackStart (romClaimEx_frame boot.claimStack)
  have stackEnd := congrArg Rom.stackEnd (romClaimEx_frame boot.claimStack)
  simp only at loaderStart trampolineStart stackFirst stackStart stackEnd
  have arenaStart : boot.trampoline.2.claimArenaStart = m.ram.pmemBytes - mb 16 := by
    rw [trampolineStart, boot.prepare.arenaStart, loaderStart, fresh.arenaStart]
  rw [boot.rom_eq.1]
  refine ⟨fresh.large, ?_, ?_, ?_, ?_, ?_⟩
  · rw [stackFirst, boot.place.arenaStart, arenaStart]
  · rw [stackPtr, boot.place.arenaPtr, trampolinePtr, boot.prepare.arenaPtr, loaderPtr, fresh.arenaPtr]
  · rw [stackLast, boot.place.arenaEnd, trampolineEnd, boot.prepare.arenaEnd, loaderEnd, fresh.arenaEnd]
  · rw [stackStart, boot.stackPlace.1, arenaStart]
  · rw [stackEnd, boot.stackPlace.2, arenaStart]

/-- Where no sum wraps, the arena never hands out what an arena claim got before, nor what was
    claimed below it, the trampoline, the stack and a loader that ends below it included. -/
theorem arena_claims_disjoint {env : BootEnv} {m s : Machine} {rom rom' : Rom} {history : List Claim} {c : Claim}
    (booted : romInit env m = .ok (.none, s)) (run : Run (ClaimStep (pmemSize s.ram)) s.rom history rom)
    (step : ClaimStep (pmemSize s.ram) rom c rom') (exact : ∀ d ∈ history ++ [c], d.Exact (pmemSize s.ram))
    (arena : c.align ≠ 0) :
    (∀ d ∈ history, d.BelowArena → Disjoint d.region c.region) ∧
    Disjoint (regionOf 4 4) c.region ∧
    Disjoint (regionOf s.rom.stackStart (s.rom.stackEnd - s.rom.stackStart)) c.region ∧
    ∀ length data, env.loader = some (length, data) →
      (loaderBase (guestIsLittle m.guest)).toNat + length.toNat ≤ s.rom.claimArenaStart.toNat →
      Disjoint (regionOf (loaderBase (guestIsLittle m.guest)) length) c.region := by
  obtain ⟨boot⟩ := romInit_ok booted
  have initial := boot.arena
  rw [← boot.rom_eq.2] at initial
  have whole := s.ram.size_aligned
  have large := initial.large
  have top := s.ram.pmemBytes.isLt
  have first : (s.ram.pmemBytes - mb 16).toNat = s.ram.pmemBytes.toNat - 16777216 :=
    BitVec.toNat_sub_of_le (BitVec.le_def.mpr large.le)
  have inv : ArenaInv (pmemSize s.ram) (s.ram.pmemBytes - mb 16) history rom := by
    refine run.invariant (I := fun older t => (∀ d ∈ older, d.Exact (pmemSize s.ram)) →
      ArenaInv (pmemSize s.ram) (s.ram.pmemBytes - mb 16) older t) ?_ ?_ fun d member => exact d (by simp [member])
    · exact fun _ => ⟨initial.arenaEnd, by rw [initial.arenaPtr], by simp⟩
    · intro older t d u ih step exact
      exact (ih fun e member => exact e (by simp [member])).step step (exact d (by simp))
  have claimed := exact c (by simp)
  have start := inv.start
  refine ⟨fun d member below => inv.disjoint step claimed arena fun a inside =>
      .inl (inv.behind d member below a inside),
    inv.disjoint step claimed arena ?_, inv.disjoint step claimed arena ?_, fun length data loader bound => ?_⟩
  · rintro a ⟨_, high⟩
    have eight : a < 8 := high
    omega
  · -- a stack that does not fit below the arena lies above the end of RAM
    rintro a ⟨low, high⟩
    rw [initial.stackStart] at low high
    rw [initial.stackEnd] at high
    have span : s.ram.pmemBytes - mb 16 - (s.ram.pmemBytes - mb 16 - mb 1) = mb 1 := by bv_omega
    have megabyte : (mb 1).toNat = 1048576 := by decide
    rw [span, megabyte] at high
    have base : (s.ram.pmemBytes - mb 16 - mb 1).toNat =
        (s.ram.pmemBytes.toNat - 16777216 + (2^32 - 1048576)) % 2^32 := by
      rw [BitVec.toNat_sub, first, megabyte]
      omega
    change a < _ ∨ s.ram.pmemBytes.toNat ≤ a
    omega
  · refine inv.disjoint step claimed arena ?_
    rintro a ⟨_, high⟩
    rw [initial.arenaStart] at bound
    omega

theorem ClaimStep.of_placed {mem : Bool} {addr size align out : W32} {placed : Rom} {ranges : List Range}
    (place : romClaimPlace size_ rom addr size align = (some out, placed))
    (removed : rangeRemove mem placed.guestMemAvailRanges (alignDown out PAGE_SIZE)
      (alignUp (out + size) PAGE_SIZE - 1) = .ok ranges) :
    ClaimStep size_ rom ⟨mem, addr, size, align, rom.claimArenaPtr, some out⟩
      { placed with guestMemAvailRanges := ranges } := by
  refine ⟨rom, ⟨rfl, rfl, rfl, rfl⟩, rfl, by rw [place], ?_⟩
  simp only [romClaimEx, place, removed, ok_bind, pure_ok, Option.getD_some]

theorem ClaimStep.of_arena {ptr finish size align : W32} {avail ranges : List Range} (atPtr : rom.claimArenaPtr = ptr)
    (atEnd : rom.claimArenaEnd = finish) (free : rom.guestMemAvailRanges = avail) (arena : align ≠ 0)
    (aligned : isAligned ptr align) (room : ¬ ptr ≥ finish) (fits : ¬ ptr + size > finish)
    (removed : rangeRemove true avail (alignDown ptr PAGE_SIZE) (alignUp (ptr + size) PAGE_SIZE - 1) = .ok ranges) :
    ClaimStep size_ rom ⟨true, 0, size, align, ptr, some ptr⟩
      { rom with claimArenaPtr := ptr + size, guestMemAvailRanges := ranges } := by
  subst atPtr atEnd free
  have up : alignUp rom.claimArenaPtr align = rom.claimArenaPtr := if_pos aligned
  have place : romClaimPlace size_ rom 0 size align =
      (some rom.claimArenaPtr, { rom with claimArenaPtr := rom.claimArenaPtr + size }) := by
    simp only [romClaimPlace, if_pos arena, up, if_neg room, if_neg fits]
  exact .of_placed place removed

def plainAvailable : List Range :=
  [⟨0x1000, 0x3dffff, by decide⟩, ⟨0x3e1000, 0xefffff, by decide⟩, ⟨0x1000000, 0x1ffffff, by decide⟩]

def pageTaken : List Range :=
  [⟨0x1000, 0x3dffff, by decide⟩, ⟨0x3e1000, 0xefffff, by decide⟩, ⟨0x1001000, 0x1ffffff, by decide⟩]

theorem arena_pages_disjoint :
    Disjoint (Claim.region ⟨true, 0, 0x1000, 0x1000, 0x1000000, some 0x1000000⟩)
      (Claim.region ⟨true, 0, 0x1000, 0x1000, 0x1001000, some 0x1001000⟩) := by
  obtain ⟨m, s, plain⟩ := plain_boot
  have first : ClaimStep (pmemSize s.ram) s.rom ⟨true, 0, 0x1000, 0x1000, 0x1000000, some 0x1000000⟩
      { s.rom with claimArenaPtr := 0x1001000, guestMemAvailRanges := pageTaken } :=
    .of_arena plain.arenaPtr plain.arenaEnd plain.avail (by decide) (by decide) (by decide) (by decide) rfl
  have second : ClaimStep (pmemSize s.ram) { s.rom with claimArenaPtr := 0x1001000, guestMemAvailRanges := pageTaken }
      ⟨true, 0, 0x1000, 0x1000, 0x1001000, some 0x1001000⟩
      { s.rom with
        claimArenaPtr := 0x1002000
        guestMemAvailRanges := [⟨0x1000, 0x3dffff, by decide⟩, ⟨0x3e1000, 0xefffff, by decide⟩,
          ⟨0x1002000, 0x1ffffff, by decide⟩] } :=
    .of_arena rfl plain.arenaEnd rfl (by decide) (by decide) (by decide) (by decide) rfl
  refine (arena_claims_disjoint plain.booted (.single first) second ?_ (by decide)).1 _ (by simp) (.inl (by decide))
  rw [pmemSize, plain.size]
  intro d member
  rcases List.mem_cons.mp member with rfl | member
  · exact fun _ => ⟨.inl (by decide), fun _ => by decide⟩
  · obtain rfl := List.mem_singleton.mp member
    exact fun _ => ⟨.inl (by decide), fun _ => by decide⟩

/-- A page of the arena claimed by its address is handed out again by the arena. -/
theorem arena_hands_out_claimed :
    ¬ ∀ (env : BootEnv) (m s : Machine) (rom rom' : Rom) (history : List Claim) (c : Claim),
    romInit env m = .ok (.none, s) → Run (ClaimStep (pmemSize s.ram)) s.rom history rom →
    ClaimStep (pmemSize s.ram) rom c rom' → c.align ≠ 0 → 0 < c.size → c.place.isSome →
    ∀ d ∈ history, Disjoint d.region c.region := by
  intro always
  obtain ⟨m, s, plain⟩ := plain_boot
  have explicit : ClaimStep (pmemSize s.ram) s.rom ⟨true, 0x1000000, 0x1000, 0, s.rom.claimArenaPtr, some 0x1000000⟩
      { s.rom with guestMemAvailRanges := pageTaken } := by
    refine .of_placed ?_ (by rw [plain.avail]; rfl)
    rw [pmemSize, plain.size]
    rfl
  have arena : ClaimStep (pmemSize s.ram) { s.rom with guestMemAvailRanges := pageTaken }
      ⟨true, 0, 0x1000, 0x1000, 0x1000000, some 0x1000000⟩
      { s.rom with claimArenaPtr := 0x1001000, guestMemAvailRanges := pageTaken } :=
    .of_arena plain.arenaPtr plain.arenaEnd rfl (by decide) (by decide) (by decide) (by decide) rfl
  have apart := always _ m s _ _ _ _ plain.booted (.single explicit) arena (by decide) (by decide) rfl _
    (List.mem_singleton_self _)
  have shared : 0x1000000 ∈ regionOf 0x1000000 0x1000 := ⟨by decide, by decide⟩
  exact Set.disjoint_left.mp apart ⟨_, rfl, shared⟩ ⟨_, rfl, shared⟩

end ToyHv
