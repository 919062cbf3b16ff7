import ToyHv.Memory.Words
import ToyHv.Rom.Arena
import ToyHv.Rom.Names
import ToyHv.Translation.Requests
import ToyHv.Vm.Runs

namespace ToyHv

open Library

/-- A run of the machine has stayed among its own memory. -/
structure Isolated (s t : Machine) : Prop where
  ram : t.ram = s.ram
  little : guestIsLittle t.guest = guestIsLittle s.guest
  mapped : ∀ context page ha, t.mapped context page = some ha → ∀ x, (x - ha).toNat < 4096 → InGuestRam s.ram x
  outside : ∀ x, ¬ Window (guestIsLittle s.guest) s.ram x → t.host x = s.host x

variable {m s t u v : Machine} {p : Pmem}

theorem page_in_ram (whole : p.pmem.toNat % 4096 = 0) {gra x : W32} (inside : gra < p.pmemBytes)
    (aligned : (p.pmem + gra) &&& PAGE_MASK = 0) (near : (x - (p.pmem + gra)).toNat < 4096) : InGuestRam p x := by
  have top := p.below_top
  have pages := p.size_aligned
  have below := BitVec.lt_def.mp inside
  have base := (isAligned_page (p.pmem + gra)).mp aligned
  have split : x - p.pmem = gra + (x - (p.pmem + gra)) := by ring
  rw [BitVec.toNat_add] at base
  rw [InGuestRam, split, BitVec.toNat_add]
  omega

theorem Isolated.harmless (isolated : Isolated s t) (served : Harmless t u) : Isolated s u := by
  refine ⟨served.ram.trans isolated.ram, served.little.trans isolated.little, ?_, fun x beyond => ?_⟩
  · exact fun context page ha cached => isolated.mapped context page ha (served.evicted context page ha cached)
  · have same := served.outside x
    rw [isolated.little, isolated.ram] at same
    exact (same beyond).trans (isolated.outside x beyond)

theorem Isolated.filled (isolated : Isolated s t) (whole : s.ram.pmem.toNat % 4096 = 0) (filled : Filled t u) :
    Isolated s u := by
  obtain ⟨mapped, rfl⟩ := filled.same
  refine ⟨isolated.ram, isolated.little, fun context page ha cached => ?_, isolated.outside⟩
  rcases filled.ram context page ha cached with before | ⟨gra, inside, rfl, aligned⟩
  · exact isolated.mapped context page ha before
  · rw [isolated.ram] at inside aligned ⊢
    exact fun x => page_in_ram whole inside aligned

theorem Isolated.step {e : VmEvent} (isolated : Isolated s t) (whole : s.ram.pmem.toNat % 4096 = 0)
    (step : VmStep t e u) : Isolated s u := by
  cases step with
  | run guest ram rom evicted stored =>
    have little : guestIsLittle u.guest = guestIsLittle s.guest := by rw [guest, isolated.little]
    refine ⟨ram.trans isolated.ram, little, fun context page ha cached => ?_, fun x beyond => ?_⟩
    · exact isolated.mapped context page ha (evicted context page ha cached)
    · rw [← isolated.outside x beyond]
      by_contra changed
      obtain ⟨page, ha, cached, near⟩ := stored x changed
      exact beyond (window_of_ram (isolated.mapped _ page ha cached x near))
  | fault handled => exact isolated.filled whole (guestFault_filled handled)
  | emulate emulated => exact isolated.harmless (guestEmulate_harmless emulated)
  | systemCall called => exact isolated.harmless (romCallBy_harmless called)
  | toggleSs toggled => exact isolated.harmless (guestToggleSs_registers toggled).harmless
  | reg handled => exact isolated.harmless (picolReg_registers handled).harmless

/-- A fresh machine has no mappings, in any context. -/
theorem guestInit_fresh {env : InitEnv} {page : VmmPtr → VmmPage} {host : Host} {os : Os} {garbage : Buf}
    {little : Bool} {ramSize : W32}
    (inited : guestInit env (Machine.start page host os garbage) little ramSize = .ok (.none, m)) :
    guestIsLittle m.guest = little ∧ ∀ context page, m.mapped context page = none := by
  cases off : env.offPage with
  | none => simp [guestInit, vmmInitVm, off] at inited
  | some offPage =>
    cases on : env.onPage with
    | none => simp [guestInit, vmmInitVm, off, on] at inited
    | some onPage =>
      simp only [guestInit, vmmInitVm, off, on] at inited
      split at inited
      · obtain ⟨v, set, done⟩ := bind_ok.mp inited
        obtain ⟨_, rfl⟩ := Prod.mk.inj (Except.ok.inj done)
        have kept := guestSetMsr_registers set
        refine ⟨kept.little.trans ?_, fun context page => ?_⟩
        · change decide ((if little = true then 0 ||| MSR_LE else 0) &&& MSR_LE ≠ 0) = little
          cases little <;> decide
        · obtain ⟨guest, pages, rfl⟩ := kept.same
          cases context <;> rfl
      · rename_i failed _
        obtain ⟨rfl, _⟩ := Prod.mk.inj (Except.ok.inj inited)
        exact (failed rfl).elim

theorem plain_trampoline : ∃ m s, PlainBoot m s ∧ s.rom.cifTrampoline = 4 :=
  ⟨_, _, ⟨rfl, rfl, rfl, rfl, rfl, rfl, rfl, rfl, rfl, rfl, rfl, rfl, rfl⟩, rfl⟩

/-- With nothing mapped, every lookup of the plain guest goes to the ROM. -/
theorem PlainBoot.translates (plain : PlainBoot m s) (page : VmmPtr → VmmPage) (ea gra flags : W32) (tryFast : Bool) :
    guestBackmapEx { s with page } ea gra tryFast flags =
      .ok (romFault [⟨0, 0x1ffffff, 0, 0, by decide⟩] ea gra flags) := by
  obtain ⟨boot⟩ := romInit_ok plain.booted
  obtain ⟨host, _, same⟩ := boot.done
  have fresh : s.mapped = m.mapped := by rw [same]
  have missing : vmmGetPageMapping { s with page } s.guest.vmm ea = -1 := by
    rw [vmmGetPageMapping, fresh, (guestInit_fresh plain.inited).2]
    rfl
  have on : s.guest.msr &&& MSR_MMU_ON = MSR_MMU_ON := by rw [plain.msr]; decide
  rw [guestBackmapEx, if_neg (not_not.mpr on)]
  simp only [missing, ne_eq, not_true_eq_false, and_false, if_false, plain.sdr1, if_true, plain.table]

def faultingPage : VmmPage := { zeroPage with returnParams := fun i => if i = 0 then 0x5000 else DSISR_NOT_PRESENT }

/-- A guest has got its page at 0x5000. -/
structure Faulted (s t : Machine) : Prop where
  run : Run VmStep s [.run, .fault false true] t
  guest : t.guest = s.guest
  ram : t.ram = s.ram
  rom : t.rom = s.rom
  mapped : t.mapped t.guest.vmm 0x5000 = some 0x5000

theorem PlainBoot.faulted (plain : PlainBoot m s) : ∃ t, Faulted s t := by
  let v : Machine := { s with page := fun _ => faultingPage }
  have unchanged : ∀ x, v.host x ≠ s.host x →
      ∃ page ha, s.mapped s.guest.vmm page = some ha ∧ (x - ha).toNat < 4096 := fun _ changed => absurd rfl changed
  have runs : VmStep s .run v := .run rfl rfl rfl (fun _ _ _ => id) unchanged
  have gea : (v.page v.guest.vmm).returnParams 0 &&& ~~~PAGE_MASK = 0x5000 :=
    show (0x5000 : W32) &&& ~~~PAGE_MASK = 0x5000 by decide
  have dsisr : (v.page v.guest.vmm).returnParams 1 = DSISR_NOT_PRESENT := rfl
  have permitted : ¬ DSISR_NOT_PRESENT &&& DSISR_BAD_PERM ≠ 0 := by decide
  have absent : DSISR_NOT_PRESENT &&& DSISR_NOT_PRESENT ≠ 0 := by decide
  have slow : ∀ flags, guestBackmapEx v 0x5000 (wordAt v.garbage 0) false flags = .ok (.none, 0x5000) :=
    fun flags => plain.translates _ 0x5000 _ flags false
  have ha : pmemHa v.ram 0x5000 = .ok 0x5000 := by
    simp only [v, pmemHa, plain.size, plain.pmem]
    rfl
  obtain ⟨t, handled, guest, ram, rom, mapped⟩ : ∃ t, guestFault v false true = .ok (.none, t) ∧ t.guest = s.guest ∧
      t.ram = s.ram ∧ t.rom = s.rom ∧ t.mapped s.guest.vmm 0x5000 = some 0x5000 := by
    simp only [guestFault, gea, dsisr, bugOn_false permitted, if_pos absent, slow, ha, ok_bind]
    refine ⟨_, rfl, rfl, rfl, rfl, ?_⟩
    change Function.update s.mapped s.guest.vmm _ s.guest.vmm 0x5000 = _
    rw [Function.update_self]
    rfl
  exact ⟨t, .snoc (.single runs) (.fault handled), guest, ram, rom, by rw [guest]; exact mapped⟩

/-- The array of a claim's call, and behind it the name of the service. -/
def claimWords (i : ℕ) : W32 :=
  if i = 0x1400 then 0x5040 else if i = 0x1401 then 3 else if i = 0x1402 then 1 else if i = 0x1404 then 0x1000
  else if i = 0x1405 then 0x1000 else if i = 0x1410 then 0x636c6169 else if i = 0x1411 then 0x6d000000 else 0

def callingPage : VmmPage := ⟨fun _ => 0, ⟨⟨8, 0, fun _ => 0x5000, 0, 0, 0x1000, 0⟩, 0⟩⟩

/-- The guest has stored a call in its page at 0x5000 and calls the ROM. The kernel has evicted the page. -/
def callingGuest (v : Machine) : Machine :=
  { v with
    page := fun _ => callingPage
    mapped := fun _ _ => none
    host := fun x => if (x - 0x5000).toNat < 4096 then wordsAt v.ram claimWords x else v.host x }

theorem Faulted.calls (faulted : Faulted s v) :
    Run VmStep s [.run, .fault false true, .run] (callingGuest v) := by
  refine .snoc faulted.run (.run rfl rfl rfl (fun _ => .empty) fun x changed => ⟨0x5000, 0x5000, faulted.mapped, ?_⟩)
  by_contra elsewhere
  exact changed (if_neg elsewhere)

theorem PlainBoot.calling_big (plain : PlainBoot m s) (faulted : Faulted s v) :
    guestIsLittle (callingGuest v).guest = false := by
  change guestIsLittle v.guest = false
  rw [faulted.guest, plain.big]

theorem PlainBoot.calling_maps (plain : PlainBoot m s) (faulted : Faulted s v) {ea : W32} {n : ℕ}
    (bound : ea.toNat + n ≤ 0x2000000) : Maps (callingGuest v) id ea n :=
  plain.maps (callingGuest v) faulted.guest faulted.ram (congrArg Rom.romMmuRanges faulted.rom) (fun _ _ => rfl) bound

theorem PlainBoot.calling_byte (plain : PlainBoot m s) (faulted : Faulted s v) {a : ℕ} (low : 0x5000 ≤ a)
    (high : a < 0x6000) :
    (callingGuest v).host (v.ram.pmem + BitVec.ofNat 32 a) = wordBytes (claimWords (a / 4)) (a % 4) := by
  have base : v.ram.pmem = 0 := by rw [faulted.ram, plain.pmem]
  have inside : (v.ram.pmem + BitVec.ofNat 32 a - 0x5000).toNat < 4096 := by
    rw [base, zero_add, BitVec.toNat_sub, BitVec.toNat_ofNat]
    change (2^32 - 0x5000 + a % 2^32) % 2^32 < 4096
    omega
  exact (if_pos inside).trans (wordsAt_byte v.ram claimWords (by omega))

theorem PlainBoot.calling_word (plain : PlainBoot m s) (faulted : Faulted s v) (old : W32) {i : ℕ} (low : 0x1400 ≤ i)
    (high : i < 0x1800) : guestFromX (callingGuest v) old (BitVec.ofNat 32 (4 * i)) = .ok (.none, claimWords i) := by
  have address : (BitVec.ofNat 32 (4 * i)).toNat = 4 * i := by
    rw [BitVec.toNat_ofNat]
    omega
  have big := plain.calling_big faulted
  refine guestFromX_big old big (by omega) (plain.calling_maps faulted (by omega)) fun k byte => ?_
  have word : (4 * i + k) / 4 = i := by omega
  have lane : (4 * i + k) % 4 = k := by omega
  rw [realOf_id, ← BitVec.ofNat_add]
  exact (plain.calling_byte faulted (by omega) (by omega)).trans (by rw [word, lane])

theorem PlainBoot.calling_name (plain : PlainBoot m s) (faulted : Faulted s v) :
    ∃ service, romServiceName (callingGuest v) 0x5040 = .ok service ∧
      ∀ i ≤ 5, service i = (cString "claim").getD i 0 := by
  have big := plain.calling_big faulted
  have map : Maps (callingGuest v) id 0x5040 (32 - 1 : W32).toNat := plain.calling_maps faulted (by decide)
  have letter : ∀ i < 6, wordBytes (claimWords ((0x5040 + i) / 4)) ((0x5040 + i) % 4) = (cString "claim").getD i 0 := by
    decide
  have byte : ∀ i < 6, guestBytes (callingGuest v) id 0x5040 i = (cString "claim").getD i 0 := by
    intro i bound
    rw [guestBytes, big, realOf_id, ← letter i bound, ← plain.calling_byte faulted (by omega) (by omega),
      BitVec.ofNat_add]
    rfl
  have nonzero : ∀ i < 5, (cString "claim").getD i 0 ≠ 0 := by decide
  obtain ⟨d, loaded, copied⟩ := guestFromEx_string big (callingGuest v).garbage map (by decide : 5 < _)
    (fun i low => by rw [byte i (by omega)]; exact nonzero i low) (byte 5 (by decide))
  refine ⟨d.put 5 1 fun _ => 0, ?_, fun i bound => ?_⟩
  · rw [romServiceName, loaded]
    rfl
  · rcases Nat.lt_or_eq_of_le bound with low | rfl
    · rw [Buf.put, if_neg (by omega), copied i low, byte i (by omega)]
    · rfl

theorem PlainBoot.page_claim (plain : PlainBoot m s) : romClaimEx true (pmemSize s.ram) s.rom 0 0x1000 0x1000 =
    .ok (0x1000000, { s.rom with claimArenaPtr := 0x1001000, guestMemAvailRanges := pageTaken }) := by
  have place : romClaimPlace (pmemSize s.ram) s.rom 0 0x1000 0x1000 =
      (some 0x1000000, { s.rom with claimArenaPtr := 0x1001000 }) := by
    simp only [romClaimPlace, plain.arenaPtr, plain.arenaEnd]
    rfl
  have removed : rangeRemove true s.rom.guestMemAvailRanges (alignDown 0x1000000 PAGE_SIZE)
      (alignUp (0x1000000 + 0x1000) PAGE_SIZE - 1) = .ok pageTaken := by
    rw [plain.avail]
    rfl
  simp only [romClaimEx, place, removed, ok_bind, pure_ok]

def callingEnv : CifEnv where
  fuel := 32
  fdt := ⟨0x1000, fun _ => 0⟩
  memoryNode := 0
  mem := true
  opening := ⟨true, true, fun _ => none, fun _ => none, fun _ => none, fun _ => none, none, ⟨0, 0⟩, fun _ => 0⟩
  pathOffset := fun _ => .ok 0
  others := fun _ m _ _ _ => .ok (.unsupported, m)

/-- A call that claims a page of the arena has returned to its caller. -/
structure PageClaimed (c u : Machine) : Prop where
  called : romCallBy (callingEnv.ofTree 0 0).handler c = .ok (.none, u)
  free : c.rom.guestMemAvailRanges = plainAvailable
  r3 : u.regs.ppcGPRs 3 = 0
  pc : u.regs.ppcPC = 0x1000
  avail : u.rom.guestMemAvailRanges = pageTaken
  before : c.host 0x5018 = 0
  stored : u.host 0x5018 = 1

theorem PlainBoot.page_stored (plain : PlainBoot m s) (t : Machine) (guest : t.guest = s.guest) (ram : t.ram = s.ram)
    (rom : t.rom.romMmuRanges = s.rom.romMmuRanges) (unmapped : ∀ context page, t.mapped context page = none)
    (word : W32) :
    guestToX t 0x5018 word = .ok (.none, { t with host := t.host.put 0x5018 4 (wordBytes word) }) := by
  have map : Maps t id 0x5018 4 := plain.maps t guest ram rom unmapped (by decide)
  have looked : guestBackmap t 0x5018 (wordAt t.garbage 0) = .ok (.none, 0x5018) :=
    (map.answers 0 (by decide) _).trans (by rw [realOf_id]; rfl)
  have inside : (0x5018 : W32) < t.ram.pmemBytes := by
    rw [ram, plain.size]
    decide
  have place : scalarHa (guestIsLittle t.guest) t.ram 0x5018 4 = 0x5018 := by
    rw [guest, plain.big, ram, scalarHa, if_neg Bool.false_ne_true, plain.pmem]
    rfl
  have stored := (Writable.of_maps (by decide) map).fits.stored (.inr (.inr rfl)) looked inside (wordBytes word)
  rw [place] at stored
  exact stored

/-- The guest behind `claim`, with the result cell. -/
def claimingGuest (v : Machine) : Machine :=
  { callingGuest v with
    rom := { v.rom with claimArenaPtr := 0x1001000, guestMemAvailRanges := pageTaken }
    host := (callingGuest v).host.put 0x5018 4 (wordBytes 0x1000000) }

theorem PlainBoot.claim_served (plain : PlainBoot m s) (faulted : Faulted s v) :
    romClaim true (callingGuest v) 0x5000 3 1 = .ok (.none, claimingGuest v) := by
  let rom : Rom := { v.rom with claimArenaPtr := 0x1001000, guestMemAvailRanges := pageTaken }
  have word : ∀ i, 0x1400 ≤ i → i < 0x1800 → guestFromX (callingGuest v) (wordAt (callingGuest v).garbage 0)
      (BitVec.ofNat 32 (4 * i)) = .ok (.none, claimWords i) := fun i low high => plain.calling_word faulted _ low high
  have addr : ciaCell (callingGuest v) 0x5000 3 0 = .ok (.none, 0) := word 0x1403 (by decide) (by decide)
  have size : ciaCell (callingGuest v) 0x5000 3 1 = .ok (.none, 0x1000) := word 0x1404 (by decide) (by decide)
  have align : ciaCell (callingGuest v) 0x5000 3 2 = .ok (.none, 0x1000) := word 0x1405 (by decide) (by decide)
  have claimed : romClaimEx true (pmemSize (callingGuest v).ram) (callingGuest v).rom 0 0x1000 0x1000 =
      .ok (0x1000000, rom) := by
    change romClaimEx true (pmemSize v.ram) v.rom 0 0x1000 0x1000 = .ok (0x1000000, { v.rom with
      claimArenaPtr := 0x1001000, guestMemAvailRanges := pageTaken })
    rw [faulted.ram, faulted.rom]
    exact plain.page_claim
  have result : ciaRet 0x5000 3 1 0 = .ok 0x5018 := rfl
  have table : v.rom.romMmuRanges = s.rom.romMmuRanges := congrArg Rom.romMmuRanges faulted.rom
  simp only [romClaim, addr, size, align, result, claimed, ok_bind, ne_eq, not_true_eq_false, if_false]
  exact plain.page_stored { callingGuest v with rom } faulted.guest faulted.ram table (fun _ _ => rfl) 0x1000000

theorem PlainBoot.claimed (plain : PlainBoot m s) (trampoline : s.rom.cifTrampoline = 4) (faulted : Faulted s v) :
    ∃ u, PageClaimed (callingGuest v) u := by
  have pc : (callingGuest v).regs.ppcPC = 8 := rfl
  have cia : (callingGuest v).regs.ppcGPRs 3 = 0x5000 := rfl
  have entry : (callingGuest v).rom.cifTrampoline = 4 := (congrArg Rom.cifTrampoline faulted.rom).trans trampoline
  have map : Maps (callingGuest v) id 8 1 := plain.calling_maps faulted (by decide)
  have here : guestBackmap (callingGuest v) 8 (wordAt (callingGuest v).garbage 0) = .ok (.none, 8) :=
    (map.answers 0 (by decide) _).trans (by rw [realOf_id]; rfl)
  have service : guestFromX (callingGuest v) (wordAt (callingGuest v).garbage 0) (CIA_SERVICE 0x5000) =
      .ok (.none, 0x5040) := plain.calling_word faulted _ (by decide : 0x1400 ≤ 0x1400) (by decide)
  have inCount : guestFromX (callingGuest v) (wordAt (callingGuest v).garbage 0) (CIA_IN 0x5000) = .ok (.none, 3) :=
    plain.calling_word faulted _ (by decide : 0x1400 ≤ 0x1401) (by decide)
  have outCount : guestFromX (callingGuest v) (wordAt (callingGuest v).garbage 0) (CIA_OUT 0x5000) = .ok (.none, 1) :=
    plain.calling_word faulted _ (by decide : 0x1400 ≤ 0x1402) (by decide)
  obtain ⟨name, fetched, letters⟩ := plain.calling_name faulted
  have found : (handlers.find? fun h => strcmpEq h.1 name) = some ("claim", .claim) := by
    rw [handler_named letters (by decide)]
    decide
  have there : ¬ (8 : W32) ≠ 4 + 4 := by decide
  have handled : (callingEnv.ofTree 0 0).handler .claim (callingGuest v) 0x5000 3 1 = .ok (.none, claimingGuest v) :=
    plain.claim_served faulted
  have before : (callingGuest v).host 0x5018 = 0 := by
    have byte := plain.calling_byte faulted (by decide : 0x5000 ≤ 0x5018) (by decide)
    rw [faulted.ram, plain.pmem] at byte
    exact byte
  have free : (callingGuest v).rom.guestMemAvailRanges = plainAvailable := by
    change v.rom.guestMemAvailRanges = plainAvailable
    rw [faulted.rom]
    exact plain.avail
  refine ⟨(romCallDone .none (claimingGuest v)).2, ?_, free, ?_, ?_, rfl, before, rfl⟩
  · simp only [romCallBy, pc, cia, entry, here, service, inCount, outCount, fetched, found, handled, there, ok_bind,
      ne_eq, not_true_eq_false, if_false]
    rfl
  all_goals
    simp only [romCallDone, Machine.setPC, Machine.setR, Machine.setRegs_regs]
    rfl

theorem plain_calls : ∃ m s t u, PlainBoot m s ∧ Run VmStep s [.run, .fault false true, .run] t ∧ PageClaimed t u := by
  obtain ⟨m, s, plain, trampoline⟩ := plain_trampoline
  obtain ⟨v, faulted⟩ := plain.faulted
  obtain ⟨u, claimed⟩ := plain.claimed trampoline faulted
  exact ⟨m, s, callingGuest v, u, plain, faulted.calls, claimed⟩

/-- The ROM serves its guest in its RAM and through its arguments only. Of the processor it sets r3, to 0 or -1, and
    returns to the caller, and that only if no error is left to `main`. A call with undefined behaviour, such as one
    that stores behind `service` or `xfer_buf`, has no outcome here. -/
theorem rom_call_confined {env : CifEnv} {tvSec tvUsec : W32} {err : Err}
    (called : romCallBy (env.ofTree tvSec tvUsec).handler m = .ok (err, t)) :
    t.guest = m.guest ∧ t.mapped = m.mapped ∧ t.ram = m.ram ∧
    (∀ x, ¬ Window (guestIsLittle m.guest) m.ram x → t.host x = m.host x) ∧
    (err ≠ .none → t.page = m.page) ∧
    (err = .none → ∃ r3, (r3 = 0 ∨ r3 = -1) ∧ t.page = ((m.setR 3 r3).setPC m.regs.ppcLR).page) := by
  cases romCallBy_ends (ofTree_serves env tvSec tvUsec) m _ called with
  | failed failed kept =>
    exact ⟨kept.guest, kept.mapped, kept.ram, kept.outside, fun _ => kept.page, fun none => absurd none failed⟩
  | @returned r3 v told kept =>
    refine ⟨kept.guest, kept.mapped, kept.ram, kept.outside, fun some => absurd rfl some, fun _ => ⟨r3, told, ?_⟩⟩
    have lr : (v.setR 3 r3).regs.ppcLR = m.regs.ppcLR := by
      rw [Machine.setR, Machine.setRegs_regs, Machine.regs, Machine.regs, kept.guest, kept.page]
    rw [lr]
    simp only [Machine.setPC, Machine.setR, Machine.setRegs, Machine.regs, kept.guest, kept.page]

theorem claim_call_confined : ∃ m t, romCallBy (callingEnv.ofTree 0 0).handler m = .ok (.none, t) ∧
    (t.regs.ppcGPRs 3 = 0 ∧ t.regs.ppcPC = 0x1000) ∧ (m.host 0x5018 = 0 ∧ t.host 0x5018 = 1) ∧ t.mapped = m.mapped ∧
    ∀ x, ¬ Window (guestIsLittle m.guest) m.ram x → t.host x = m.host x := by
  obtain ⟨_, _, m, t, _, _, claimed⟩ := plain_calls
  obtain ⟨_, mapped, _, outside, _⟩ := rom_call_confined claimed.called
  exact ⟨m, t, claimed.called, ⟨claimed.r3, claimed.pc⟩, ⟨claimed.before, claimed.stored⟩, mapped, outside⟩

/-- Whatever the guest, the kernel and the user of the monitor do in the steps of `VmStep`, only pages of RAM are ever
    mapped, and no host memory outside RAM is stored to, but for the three bytes behind it that a little-endian guest
    reaches. Calls with undefined behaviour, such as those that store behind `service` or `xfer_buf`, are no steps, and
    of the monitor only `ss` and the registers are. -/
theorem vm_isolated {env : InitEnv} {boot : BootEnv} {page : VmmPtr → VmmPage} {host : Host} {os : Os} {garbage : Buf}
    {little : Bool} {ramSize : W32} {history : List VmEvent}
    (inited : guestInit env (Machine.start page host os garbage) little ramSize = .ok (.none, m))
    (booted : romInit boot m = .ok (.none, s)) (whole : m.ram.pmem.toNat % 4096 = 0) (run : Run VmStep s history t) :
    t.ram = m.ram ∧
    (∀ context page ha, t.mapped context page = some ha → ∀ x, (x - ha).toNat < 4096 → InGuestRam m.ram x) ∧
    ∀ x, ¬ Window little m.ram x → t.host x = s.host x := by
  obtain ⟨rfl, unmapped⟩ := guestInit_fresh inited
  obtain ⟨boot⟩ := romInit_ok booted
  obtain ⟨host, page, same⟩ := boot.done
  have ram : s.ram = m.ram := boot.rom_eq.2
  have guest : s.guest = m.guest := by rw [same]
  have mapped : s.mapped = m.mapped := by rw [same]
  have isolated : Isolated s t := by
    refine run.invariant (I := fun _ t => Isolated s t) ⟨rfl, rfl, fun context page ha cached => ?_, fun _ _ => rfl⟩ ?_
    · rw [mapped, unmapped context page] at cached
      cases cached
    · exact fun _ _ _ _ isolated step => isolated.step (by rw [ram]; exact whole) step
  rw [← ram, ← guest]
  exact ⟨isolated.ram, isolated.mapped, isolated.outside⟩

theorem claim_isolated : ∃ s t, Run VmStep s [.run, .fault false true, .run, .systemCall callingEnv 0 0] t ∧
    t.host 0x5018 = 1 ∧ ∀ x, ¬ Window false s.ram x → t.host x = s.host x := by
  obtain ⟨m, s, t, u, plain, run, claimed⟩ := plain_calls
  have whole : m.ram.pmem.toNat % 4096 = 0 := by rw [← plain.ram, plain.pmem]; rfl
  have next : Run VmStep s [.run, .fault false true, .run, .systemCall callingEnv 0 0] u :=
    .snoc run (.systemCall claimed.called)
  refine ⟨s, u, next, claimed.stored, ?_⟩
  rw [plain.ram]
  exact (vm_isolated plain.inited plain.booted whole next).2.2

end ToyHv
