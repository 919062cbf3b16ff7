import ToyHv.Memory.Paging
import ToyHv.Model.Rom
import ToyHv.Ranges.Remove

namespace ToyHv

def loaderBase (little : Bool) : W32 := if little then 0x50000 - 0x200 else 0x3e0000

theorem romClaimEx_frame {mem : Bool} {size_ addr size align out : W32} {rom rom' : Rom}
    (claimed : romClaimEx mem size_ rom addr size align = .ok (out, rom')) :
    rom' = { rom with claimArenaPtr := rom'.claimArenaPtr, guestMemAvailRanges := rom'.guestMemAvailRanges } := by
  have place : ∀ answer rom', romClaimPlace size_ rom addr size align = (answer, rom') →
      rom' = { rom with claimArenaPtr := rom'.claimArenaPtr } := by
    intro answer rom' same
    unfold romClaimPlace at same
    simp only at same
    split_ifs at same <;> obtain ⟨_, rfl⟩ := Prod.mk.inj same <;> rfl
  unfold romClaimEx at claimed
  split at claimed
  · rename_i failed
    simp only [pure_ok, Except.ok.injEq, Prod.mk.injEq] at claimed
    obtain ⟨_, rfl⟩ := claimed
    rw [place _ _ failed]
  · rename_i placed
    simp only [bind_ok, pure_ok, Except.ok.injEq, Prod.mk.injEq] at claimed
    obtain ⟨_, _, _, rfl⟩ := claimed
    rw [place _ _ placed]

theorem mmuRangeAdd_nil {mem : Bool} {base limit ra flags : W32} {ranges : List MmuRange}
    (added : mmuRangeAdd mem [] base limit ra flags = .ok ranges) :
    mem = true ∧ ∃ ordered, ranges = [⟨base, limit, ra, flags, ordered⟩] := by
  unfold mmuRangeAdd mmuRangeAlloc at added
  split at added
  · rename_i ordered
    cases mem with
    | false => cases added
    | true => exact ⟨rfl, ordered, (Except.ok.inj added).symm⟩
  · cases added

theorem rangeAdd_nil {mem : Bool} {base limit : W32} {ranges : List Range}
    (added : rangeAdd mem [] base limit = .ok ranges) :
    ∃ ordered, ranges = [⟨base, limit, ordered⟩] := by
  obtain ⟨_, ordered, scanned⟩ := rangeAdd_ok added
  exact ⟨BitVec.le_of_lt ordered, (Except.ok.inj scanned).symm⟩

structure FreshLists (size_ : W32) (rom : Rom) : Prop where
  handles : rom.knownIhandles = []
  large : 16777216 < size_.toNat
  mmu : ∃ ordered, rom.romMmuRanges = [⟨0, size_ - 1, 0, 0, ordered⟩]
  avail : ∃ ordered, rom.guestMemAvailRanges = [⟨0, size_ - 1, ordered⟩]
  arenaStart : rom.claimArenaStart = size_ - mb 16
  arenaPtr : rom.claimArenaPtr = size_ - mb 16
  arenaEnd : rom.claimArenaEnd = size_

theorem romInitRanges_ok {mem : Bool} {size_ : W32} {rom rom' : Rom}
    (setup : romInitRanges mem size_ rom = .ok rom') : mem = true ∧ FreshLists size_ rom' := by
  simp only [romInitRanges, bind_ok, bugOn_ok, pure_ok, Except.ok.injEq] at setup
  obtain ⟨_, large, mmu, mmuAdded, avail, availAdded, reg, _, rfl⟩ := setup
  obtain ⟨mem, mapped⟩ := mmuRangeAdd_nil mmuAdded
  exact ⟨mem, ⟨rfl, BitVec.lt_def.mp (BitVec.not_le.mp large), mapped, rangeAdd_nil availAdded, rfl, rfl, rfl⟩⟩

structure SameClaims (rom rom' : Rom) : Prop where
  avail : rom'.guestMemAvailRanges = rom.guestMemAvailRanges
  arenaStart : rom'.claimArenaStart = rom.claimArenaStart
  arenaPtr : rom'.claimArenaPtr = rom.claimArenaPtr
  arenaEnd : rom'.claimArenaEnd = rom.claimArenaEnd

structure SameLists (rom rom' : Rom) : Prop extends SameClaims rom rom' where
  mmu : rom'.romMmuRanges = rom.romMmuRanges

/-- What a successful `rom_init` has done: set up the lists, claimed the loader, the trampoline
    and the stack, and prepared the processor. -/
structure Boot (env : BootEnv) (m s : Machine) where
  length : W32
  rom₀ : Rom
  loader : W32 × Rom
  rom₁ : Rom
  trampoline : W32 × Rom
  rom₂ : Rom
  stack : W32 × Rom
  file : ∃ data, env.loader = some (length, data)
  setup : romInitRanges env.mem m.ram.pmemBytes m.rom = .ok rom₀
  claimLoader : romClaimEx env.mem m.ram.pmemBytes rom₀ (loaderBase (guestIsLittle m.guest)) length 0 = .ok loader
  prepare : SameLists loader.2 rom₁
  console : ∃ ihandle, rom₁.knownIhandles = loader.2.knownIhandles ++ [⟨ihandle, .console⟩]
  claimTrampoline : romClaimEx env.mem m.ram.pmemBytes rom₁ 4 4 0 = .ok trampoline
  place : SameLists trampoline.2 rom₂
  stackPlace : rom₂.stackStart = trampoline.2.claimArenaStart - mb 1 ∧ rom₂.stackEnd = trampoline.2.claimArenaStart
  handles : rom₂.knownIhandles = trampoline.2.knownIhandles
  claimStack : romClaimEx env.mem m.ram.pmemBytes rom₂ (trampoline.2.claimArenaStart - mb 1)
    (trampoline.2.claimArenaStart - (trampoline.2.claimArenaStart - mb 1)) 0 = .ok stack
  done : ∃ host page, s = { m with host, page, rom := stack.2 }

theorem romInit_ok {env : BootEnv} {m s : Machine} (booted : romInit env m = .ok (.none, s)) :
    Nonempty (Boot env m s) := by
  unfold romInit at booted
  simp only [bind_ok] at booted
  obtain ⟨rom₀, setup, booted⟩ := booted
  cases loader : env.loader with
  | none => simp [loader] at booted
  | some file =>
    obtain ⟨length, data⟩ := file
    simp only [loader, bind_ok] at booted
    obtain ⟨⟨loadedLength, host⟩, stored, booted⟩ := booted
    split at booted
    · simp at booted
    · simp only [bind_ok] at booted
      obtain ⟨claimed, claimLoader, booted⟩ := booted
      cases tree : env.fdt with
      | none => simp [tree] at booted
      | some fdt =>
        simp only [tree, bind_ok, bugOn_ok] at booted
        obtain ⟨_, _, _, _, _, _, booted⟩ := booted
        split at booted
        · simp at booted
        · simp only [bind_ok, pure_ok, Except.ok.injEq, Prod.mk.injEq, true_and] at booted
          obtain ⟨⟨_, host'⟩, _, trampoline, claimTrampoline, stack, claimStack, same⟩ := booted
          refine ⟨⟨length, rom₀, claimed, _, trampoline, _, stack, ⟨data, loader⟩, setup, ?_, ?_, ?_,
            claimTrampoline, ?_, ?_, ?_, claimStack, ?_⟩⟩
          · cases mode : guestIsLittle m.guest <;> simpa [loaderBase, mode, pmemSize] using claimLoader
          · exact ⟨⟨rfl, rfl, rfl, rfl⟩, rfl⟩
          · exact ⟨_, rfl⟩
          · exact ⟨⟨rfl, rfl, rfl, rfl⟩, rfl⟩
          · exact ⟨rfl, rfl⟩
          · rfl
          · exact ⟨_, _, same.symm⟩

theorem Boot.rom_eq {env : BootEnv} {m s : Machine} (boot : Boot env m s) : s.rom = boot.stack.2 ∧ s.ram = m.ram := by
  obtain ⟨host, page, same⟩ := boot.done
  exact ⟨congrArg Machine.rom same, (congrArg Machine.ram same).trans rfl⟩

theorem Boot.table_eq {env : BootEnv} {m s : Machine} (boot : Boot env m s) :
    s.rom.romMmuRanges = boot.rom₀.romMmuRanges := by
  have loader := congrArg Rom.romMmuRanges (romClaimEx_frame boot.claimLoader)
  have trampoline := congrArg Rom.romMmuRanges (romClaimEx_frame boot.claimTrampoline)
  have stack := congrArg Rom.romMmuRanges (romClaimEx_frame boot.claimStack)
  rw [boot.rom_eq.1]
  calc boot.stack.2.romMmuRanges = boot.rom₂.romMmuRanges := stack
    _ = boot.trampoline.2.romMmuRanges := boot.place.mmu
    _ = boot.rom₁.romMmuRanges := trampoline
    _ = boot.loader.2.romMmuRanges := boot.prepare.mmu
    _ = boot.rom₀.romMmuRanges := loader

theorem Boot.handles_eq {env : BootEnv} {m s : Machine} (boot : Boot env m s) :
    ∃ ihandle, s.rom.knownIhandles = [⟨ihandle, .console⟩] := by
  have loader := congrArg Rom.knownIhandles (romClaimEx_frame boot.claimLoader)
  have trampoline := congrArg Rom.knownIhandles (romClaimEx_frame boot.claimTrampoline)
  have stack := congrArg Rom.knownIhandles (romClaimEx_frame boot.claimStack)
  obtain ⟨ihandle, console⟩ := boot.console
  refine ⟨ihandle, ?_⟩
  rw [boot.rom_eq.1]
  calc boot.stack.2.knownIhandles = boot.rom₂.knownIhandles := stack
    _ = boot.trampoline.2.knownIhandles := boot.handles
    _ = boot.rom₁.knownIhandles := trampoline
    _ = boot.loader.2.knownIhandles ++ [⟨ihandle, .console⟩] := console
    _ = boot.rom₀.knownIhandles ++ [⟨ihandle, .console⟩] := congrArg (· ++ _) loader
    _ = [⟨ihandle, .console⟩] := by rw [(romInitRanges_ok boot.setup).2.handles, List.nil_append]

def plainBootEnv : BootEnv :=
  { loader := some (0x1000, fun _ => 0)
    fdt := some ⟨fun path => if path = "mem" then 1 else if path = "mmu" then 2 else 3, BitVec.ofInt 32⟩
    mem := true
    redZone := 224 }

def plainInitEnv : InitEnv :=
  { offPage := some zeroPage
    onPage := some zeroPage
    allocate := fun bytes => some ⟨0, by decide, by simpa using bytes.isLt⟩ }

/-- A big-endian guest with 32 MiB of RAM at host address 0, just initialised and then booted. -/
structure PlainBoot (m s : Machine) : Prop where
  inited : guestInit plainInitEnv zeroMachine false 0x2000000 = .ok (.none, m)
  booted : romInit plainBootEnv m = .ok (.none, s)
  ram : s.ram = m.ram
  pmem : s.ram.pmem = 0
  size : s.ram.pmemBytes = 0x2000000
  avail : s.rom.guestMemAvailRanges =
    [⟨0x1000, 0x3dffff, by decide⟩, ⟨0x3e1000, 0xefffff, by decide⟩, ⟨0x1000000, 0x1ffffff, by decide⟩]
  arenaPtr : s.rom.claimArenaPtr = 0x1000000
  arenaEnd : s.rom.claimArenaEnd = 0x2000000
  table : s.rom.romMmuRanges = [⟨0, 0x1ffffff, 0, 0, by decide⟩]
  msr : s.guest.msr = MSR_ME ||| MSR_EP ||| MSR_MMU_ON
  sdr1 : s.guest.sdr1 = SDR1_MAGIC_ROM_MODE
  context : s.guest.vmm = .mmuOn
  big : guestIsLittle s.guest = false

theorem plain_boot : ∃ m s, PlainBoot m s :=
  ⟨_, _, rfl, rfl, rfl, rfl, rfl, rfl, rfl, rfl, rfl, rfl, rfl, rfl, rfl⟩

end ToyHv
