import ToyHv.Memory.RoundTrip
import ToyHv.Memory.Words
import ToyHv.Translation.FastPath

namespace ToyHv

/-- Where in its RAM the guest has the page of an address. -/
def guestPage (m : Machine) (ea : W32) : Option W32 :=
  match guestBackmap m (pageOf ea) 0 with
  | .ok (.none, gra) => if gra < m.ram.pmemBytes then some gra else none
  | _ => none

def guestReal (m : Machine) (ea : W32) : Option W32 := (guestPage m ea).map (· + (ea &&& PAGE_MASK))

def guestByte (m : Machine) (ea : W32) : Option W8 :=
  (guestReal m ea).map (guestView (guestIsLittle m.guest) m.ram m.host)

/-- Whether an address translates, and where to, is up to its page. -/
structure PageWise (m : Machine) : Prop where
  found : ∀ {ea g}, guestPage m ea = some g → isAligned g PAGE_SIZE ∧ g < m.ram.pmemBytes ∧
    ∀ gra, guestBackmap m ea gra = .ok (.none, g + (ea &&& PAGE_MASK))
  missing : ∀ {ea}, guestPage m ea = none → ∀ gra err out, guestBackmap m ea gra = .ok (err, out) →
    err ≠ .none ∨ m.ram.pmemBytes ≤ out

variable {m : Machine} {ea g : W32}

theorem pageOf_aligned (ea : W32) : (pageOf ea).toNat % 4096 = 0 := by
  rw [toNat_pageOf]
  omega

theorem pageOf_add (ea : W32) : pageOf ea + (ea &&& PAGE_MASK) = ea := realOf_id ea

theorem below_ram_iff (p : Pmem) {g : W32} (aligned : g.toNat % 4096 = 0) (ea : W32) :
    g + (ea &&& PAGE_MASK) < p.pmemBytes ↔ g < p.pmemBytes := by
  have offset := toNat_page_offset ea
  have size := p.size_aligned
  have small := g.isLt
  rw [BitVec.lt_def, BitVec.lt_def, BitVec.toNat_add, offset]
  omega

theorem FastPath.backmap_eq (inv : FastPath m) (on : m.guest.msr &&& MSR_MMU_ON = MSR_MMU_ON) (ea gra : W32) :
    guestBackmap m ea gra = guestBackmapEx m ea gra false 0 := by
  by_cases cached : vmmGetPageMapping m m.guest.vmm ea = -1
  · simp only [guestBackmap, guestBackmapEx, if_neg (not_not.mpr on), cached, ne_eq, not_true_eq_false, and_false,
      if_false]
  · obtain ⟨out, _, fast, slow⟩ := inv.answers on cached gra gra 0
    rw [fast, slow]

theorem FastPath.real_mode (real : m.guest.msr &&& MSR_MMU_ON ≠ MSR_MMU_ON) (ea gra : W32) :
    guestBackmap m ea gra = .ok (if pmemGraValid m.ram ea then (.none, ea) else (.notFound, gra)) := by
  rw [guestBackmap, guestBackmapEx, if_pos real]
  split <;> rfl

theorem FastPath.refuses (inv : FastPath m) (on : m.guest.msr &&& MSR_MMU_ON = MSR_MMU_ON)
    (magic : m.guest.sdr1 ≠ SDR1_MAGIC_ROM_MODE) {gra : W32} {answer : Err × W32}
    (found : guestBackmap m ea gra = .ok answer) : answer = (.notFound, gra) := by
  rw [inv.backmap_eq on, guestBackmapEx, if_neg (not_not.mpr on)] at found
  simp only [Bool.false_eq_true, false_and, if_false, if_neg magic, bind_ok] at found
  obtain ⟨err, bat, found⟩ := found
  rw [guestBatFault_ok bat] at found
  exact (Except.ok.inj found).symm

theorem FastPath.rom_pageWise (inv : FastPath m) (on : m.guest.msr &&& MSR_MMU_ON = MSR_MMU_ON)
    (magic : m.guest.sdr1 = SDR1_MAGIC_ROM_MODE) : PageWise m := by
  have table : ∀ ea gra, guestBackmap m ea gra = .ok (romFault m.rom.romMmuRanges ea gra 0) := by
    intro ea gra
    rw [inv.backmap_eq on, guestBackmapEx, if_neg (not_not.mpr on)]
    simp only [Bool.false_eq_true, false_and, if_false, if_pos magic]
  constructor
  · intro ea g page
    simp only [guestPage, table, romFault] at page
    cases found : mmuRangeFind m.rom.romMmuRanges (pageOf ea) with
    | none => simp [found] at page
    | some r =>
      simp only [found, Option.ite_none_right_eq_some, Option.some.injEq] at page
      obtain ⟨inside, rfl⟩ := page
      obtain ⟨member, covers⟩ := mmuRangeFind_some found
      have aligned := (inv.paged r member).translates_page covers (pageOf_aligned ea)
      refine ⟨(isAligned_page _).mpr aligned, inside, fun gra => ?_⟩
      rw [table, romFault_in_page inv.laminar inv.paged found gra 0]
  · intro ea page gra err out answer
    rw [table] at answer
    cases found : mmuRangeFind m.rom.romMmuRanges (pageOf ea) with
    | none =>
      have nowhere := (mmuRangeFind_none _ _).mp found
      have absent : mmuRangeFind m.rom.romMmuRanges ea = none := by
        apply (mmuRangeFind_none _ _).mpr
        intro r member covers
        exact nowhere r member (((inv.paged r member).covers_page ea).mpr covers)
      simp only [romFault, absent, Except.ok.injEq, Prod.mk.injEq] at answer
      left
      rw [← answer.1]
      decide
    | some r =>
      right
      simp only [guestPage, table, romFault, found, ite_eq_right_iff, reduceCtorEq, imp_false] at page
      obtain ⟨member, covers⟩ := mmuRangeFind_some found
      have aligned := (inv.paged r member).translates_page covers (pageOf_aligned ea)
      rw [romFault_in_page inv.laminar inv.paged found gra 0, Except.ok.injEq, Prod.mk.injEq] at answer
      rw [← answer.2, ← BitVec.not_lt]
      exact fun inside => page ((below_ram_iff m.ram aligned ea).mp inside)

theorem FastPath.refused_pageWise (inv : FastPath m) (on : m.guest.msr &&& MSR_MMU_ON = MSR_MMU_ON)
    (magic : m.guest.sdr1 ≠ SDR1_MAGIC_ROM_MODE) : PageWise m := by
  constructor
  · intro ea g page
    rw [guestPage] at page
    split at page
    · rename_i found
      cases inv.refuses on magic found
    · cases page
  · intro ea _ gra err out answer
    cases inv.refuses on magic answer
    exact .inl (by decide)

theorem real_pageWise (off : m.guest.msr &&& MSR_MMU_ON ≠ MSR_MMU_ON) : PageWise m := by
  have real : ∀ ea gra, guestBackmap m ea gra = _ := FastPath.real_mode off
  have valid : ∀ ea, pmemGraValid m.ram ea = true ↔ ea < m.ram.pmemBytes := fun ea => decide_eq_true_iff
  have same : ∀ ea, ea < m.ram.pmemBytes ↔ pageOf ea < m.ram.pmemBytes := by
    intro ea
    rw [← below_ram_iff m.ram (pageOf_aligned ea) ea, pageOf_add]
  constructor
  · intro ea g page
    by_cases inside : pmemGraValid m.ram (pageOf ea) = true
    · simp only [guestPage, real, if_pos inside, Option.ite_none_right_eq_some, Option.some.injEq] at page
      obtain ⟨below, rfl⟩ := page
      refine ⟨(isAligned_page _).mpr (pageOf_aligned ea), below, fun gra => ?_⟩
      rw [real, pageOf_add, if_pos ((valid ea).mpr ((same ea).mpr below))]
    · simp [guestPage, real, inside] at page
  · intro ea page gra err out answer
    by_cases inside : pmemGraValid m.ram (pageOf ea) = true
    · simp only [guestPage, real, if_pos inside, ite_eq_right_iff, reduceCtorEq, imp_false] at page
      exact absurd ((valid _).mp inside) page
    · rw [valid, ← same, ← valid] at inside
      rw [real, if_neg inside, Except.ok.injEq, Prod.mk.injEq] at answer
      left
      rw [← answer.1]
      decide

/-- The hypervisor translates by pages, in every state it reaches. -/
theorem FastPath.pageWise (inv : FastPath m) : PageWise m := by
  by_cases on : m.guest.msr &&& MSR_MMU_ON = MSR_MMU_ON
  · by_cases magic : m.guest.sdr1 = SDR1_MAGIC_ROM_MODE
    · exact inv.rom_pageWise on magic
    · exact inv.refused_pageWise on magic
  · exact real_pageWise on

theorem guestPage_add {k : ℕ} (bound : k < 4096 - ea.toNat % 4096) :
    guestPage m (ea + BitVec.ofNat 32 k) = guestPage m ea := by
  have same := (realOf_add id ea bound).1
  rw [guestPage, guestPage, same]

theorem guestReal_add (page : guestPage m ea = some g) {k : ℕ} (bound : k < 4096 - ea.toNat % 4096) :
    guestReal m (ea + BitVec.ofNat 32 k) = some (realOf (fun _ => g) (ea + BitVec.ofNat 32 k)) := by
  rw [guestReal, guestPage_add bound, page]
  rfl

theorem guestReal_none (page : guestPage m ea = none) : guestReal m ea = none := by
  rw [guestReal, page]
  rfl

theorem PageWise.translates (wise : PageWise m) (page : guestPage m ea = some g) {n : ℕ}
    (within : n ≤ 4096 - ea.toNat % 4096) : Translates m (fun _ => g) ea n := by
  obtain ⟨aligned, inside, answers⟩ := wise.found page
  refine ⟨⟨fun gra => ⟨_, answers gra⟩, ?_, fun _ _ => aligned, fun _ _ => inside⟩, ?_⟩
  · intro i bound gra
    have there : guestPage m (ea + BitVec.ofNat 32 i) = some g := by
      rw [guestPage_add (Nat.lt_of_lt_of_le bound within), page]
    exact (wise.found there).2.2 gra
  · intro i iBound j jBound _
    rw [(realOf_add id ea (Nat.lt_of_lt_of_le iBound within)).1,
      (realOf_add id ea (Nat.lt_of_lt_of_le jBound within)).1]

theorem PageWise.translatable_iff (wise : PageWise m) : Translatable m ea ↔ guestPage m ea ≠ none := by
  cases page : guestPage m ea with
  | none =>
    refine iff_of_false ?_ (not_not.mpr rfl)
    rintro ⟨gra, answer, inside⟩
    rcases wise.missing page _ _ _ answer with failed | beyond
    · exact failed rfl
    · exact BitVec.not_le.mpr inside beyond
  | some g =>
    obtain ⟨aligned, inside, answers⟩ := wise.found page
    exact iff_of_true ⟨_, answers _, (below_ram_iff m.ram ((isAligned_page g).mp aligned) ea).mpr inside⟩ (by simp)

/-- The aborts a lookup can end in, with translation on and out of ROM mode. -/
def BatAbort (m : Machine) (message : Abort) : Prop :=
  m.guest.msr &&& MSR_MMU_ON = MSR_MMU_ON ∧ m.guest.sdr1 ≠ SDR1_MAGIC_ROM_MODE ∧
    (message = .unsupportedBatHandling ∨ message = .batHit)

theorem guestBackmap_error {gra : W32} {message : Abort} (aborted : guestBackmap m ea gra = .error message) :
    BatAbort m message := by
  have bat := guestBackmapEx_error aborted
  simp only [guestBackmap, guestBackmapEx] at aborted
  split at aborted
  · split at aborted <;> cases aborted
  · rename_i on
    split at aborted
    · cases aborted
    · split at aborted
      · cases aborted
      · rename_i magic
        exact ⟨not_not.mp on, magic, bat⟩

theorem FastPath.total (inv : FastPath m) (mapped : guestReal m ea ≠ none) (message : Abort) :
    ¬ BatAbort m message := by
  rintro ⟨on, magic, _⟩
  apply mapped
  apply guestReal_none
  rw [guestPage]
  split
  · rename_i found
    cases inv.refuses on magic found
  · rfl

/-- The same guest, RAM and translation. Memory may differ. -/
structure SameGuest (m v : Machine) : Prop where
  guest : v.guest = m.guest
  ram : v.ram = m.ram
  mapped : v.mapped = m.mapped
  table : v.rom.romMmuRanges = m.rom.romMmuRanges

variable {v w : Machine}

theorem SameGuest.refl (m : Machine) : SameGuest m m := ⟨rfl, rfl, rfl, rfl⟩

theorem SameGuest.trans (first : SameGuest m v) (second : SameGuest v w) : SameGuest m w :=
  ⟨second.guest.trans first.guest, second.ram.trans first.ram, second.mapped.trans first.mapped,
    second.table.trans first.table⟩

theorem SameGuest.symm (same : SameGuest m v) : SameGuest v m :=
  ⟨same.guest.symm, same.ram.symm, same.mapped.symm, same.table.symm⟩

theorem SameGuest.backmap (same : SameGuest m v) (ea gra : W32) : guestBackmap v ea gra = guestBackmap m ea gra := by
  simp only [guestBackmap, guestBackmapEx, vmmGetPageMapping, same.guest, same.ram, same.mapped, same.table]

theorem SameGuest.page (same : SameGuest m v) (ea : W32) : guestPage v ea = guestPage m ea := by
  simp only [guestPage, same.backmap, same.ram]

theorem SameGuest.real (same : SameGuest m v) (ea : W32) : guestReal v ea = guestReal m ea := by
  rw [guestReal, guestReal, same.page]

theorem SameGuest.pageWise (same : SameGuest m v) (wise : PageWise m) : PageWise v := by
  constructor
  · intro ea g page
    rw [same.page] at page
    obtain ⟨aligned, inside, answers⟩ := wise.found page
    refine ⟨aligned, by rw [same.ram]; exact inside, fun gra => ?_⟩
    rw [same.backmap, answers]
  · intro ea page gra err out answer
    rw [same.page] at page
    rw [same.backmap] at answer
    rw [same.ram]
    exact wise.missing page gra err out answer

theorem SameGuest.bat {message : Abort} (same : SameGuest m v) (bat : BatAbort v message) : BatAbort m message := by
  rw [BatAbort, same.guest] at bat
  exact bat

def guestMemory (m : Machine) : W32 → W8 := guestView (guestIsLittle m.guest) m.ram m.host

theorem SameGuest.byte (same : SameGuest m v) {x y : W32} (real : guestReal m x = some y) :
    guestByte v x = some (guestMemory v y) := by
  rw [guestByte, same.real, real]
  rfl

/-- `n` bytes were stored from an address on, one after the other: where two addresses are the same
    place, the later one counts. -/
structure Stored (m v : Machine) (ea : W32) (n : ℕ) (bytes : ℕ → W8) : Prop where
  mapped : ∀ k < n, guestReal m (ea + BitVec.ofNat 32 k) ≠ none
  arrived : ∀ k < n,
    (∀ j, k < j → j < n → guestReal m (ea + BitVec.ofNat 32 j) ≠ guestReal m (ea + BitVec.ofNat 32 k)) →
    guestByte v (ea + BitVec.ofNat 32 k) = some (bytes k)
  others : ∀ x, (∀ k < n, guestReal m (ea + BitVec.ofNat 32 k) ≠ some x) → guestMemory v x = guestMemory m x

theorem Stored.nothing (same : guestMemory v = guestMemory m) (bytes : ℕ → W8) : Stored m v ea 0 bytes :=
  ⟨by simp, by simp, fun x _ => congrFun same x⟩

theorem Stored.of_same {n : ℕ} {bytes : ℕ → W8} (same : SameGuest m v) (memory : guestMemory v = guestMemory m)
    (stored : Stored v w ea n bytes) : Stored m w ea n bytes := by
  constructor
  · intro k bound
    rw [← same.real]
    exact stored.mapped k bound
  · intro k bound last
    apply stored.arrived k bound
    intro j after inside
    rw [same.real, same.real]
    exact last j after inside
  · intro x apart
    rw [← memory]
    exact stored.others x fun k bound => by rw [same.real]; exact apart k bound

theorem Stored.append {c n : ℕ} {bytes : ℕ → W8} (first : Stored m v ea c bytes) (same : SameGuest m v)
    (second : Stored v w (ea + BitVec.ofNat 32 c) n fun k => bytes (c + k)) (still : SameGuest v w) :
    Stored m w ea (c + n) bytes := by
  have there : ∀ k, guestReal v (ea + BitVec.ofNat 32 c + BitVec.ofNat 32 k) =
      guestReal m (ea + BitVec.ofNat 32 (c + k)) := by
    intro k
    rw [add_ofNat, same.real]
  constructor
  · intro k bound
    rcases Nat.lt_or_ge k c with early | late
    · exact first.mapped k early
    · obtain ⟨j, rfl⟩ := Nat.exists_eq_add_of_le late
      rw [← there]
      exact second.mapped j (by omega)
  · intro k bound last
    rcases Nat.lt_or_ge k c with early | late
    · have byte := first.arrived k early fun j after inside => last j after (by omega)
      obtain ⟨x, real⟩ := Option.ne_none_iff_exists'.mp (first.mapped k early)
      rw [same.byte real] at byte
      rw [(same.trans still).byte real, ← byte]
      refine congrArg some (second.others x fun j inside => ?_)
      rw [there, ← real]
      exact last (c + j) (by omega) (by omega)
    · obtain ⟨j, rfl⟩ := Nat.exists_eq_add_of_le late
      have byte := second.arrived j (by omega) fun i after inside => by
        rw [there, there]
        exact last (c + i) (by omega) (by omega)
      rwa [add_ofNat] at byte
  · intro x apart
    rw [second.others x fun k inside => by rw [there]; exact apart (c + k) (by omega)]
    exact first.others x fun k inside => apart k (by omega)

theorem PageWise.missed (wise : PageWise m) (page : guestPage m ea = none) (gra : W32) :
    (∃ err out, guestBackmap m ea gra = .ok (err, out) ∧ (err ≠ .none ∨ out ≥ m.ram.pmemBytes)) ∨
    ∃ message, guestBackmap m ea gra = .error message ∧ BatAbort m message := by
  cases answer : guestBackmap m ea gra with
  | ok found => exact .inl ⟨found.1, found.2, rfl, wise.missing page gra _ _ answer⟩
  | error message => exact .inr ⟨message, rfl, guestBackmap_error answer⟩

theorem PageWise.fetch (wise : PageWise m) (buf : Buf) {n : W32} (more : 0 < n.toNat)
    (within : n.toNat ≤ 4096 - ea.toNat % 4096) :
    (∃ copied, guestFrom m buf ea n 1 = .ok (.none, copied) ∧
      ∀ k < n.toNat, guestByte m (ea + BitVec.ofNat 32 k) = some (copied k)) ∨
    guestPage m ea = none ∧
      ((∃ copied, guestFrom m buf ea n 1 = .ok (.badAccess, copied)) ∨
        ∃ message, guestFrom m buf ea n 1 = .error message ∧ BatAbort m message) := by
  have checked : ¬ (false = true ∧ (1 : W32) ≠ 1) := by simp
  cases page : guestPage m ea with
  | some g =>
    left
    refine ⟨_, guestFrom_view (.inl rfl) buf (Nat.mod_one _) (Nat.mod_one _) (wise.translates page within).toMaps, ?_⟩
    intro k bound
    have inside : 0 ≤ k ∧ k < 0 + n.toNat := by omega
    have one : (1 : W32).toNat = 1 := rfl
    rw [guestByte, guestReal_add page (Nat.lt_of_lt_of_le bound within), Option.map_some, Buf.put, if_pos inside,
      Nat.sub_zero, one, lane_one]
  | none =>
    refine .inr ⟨rfl, ?_⟩
    have some : n ≠ 0 := by
      rintro rfl
      exact absurd more (Nat.lt_irrefl 0)
    have short : (0 : W32) ≠ n := some.symm
    rcases wise.missed page (wordAt m.garbage 0) with ⟨err, out, answer, outside⟩ | ⟨message, aborted, bat⟩
    · left
      refine ⟨buf, ?_⟩
      have looped := guestFromLoop_unreached answer outside buf 0 n 1 false
      simp only [guestFrom, guestFromEx, bugOn_false checked, looped, ok_bind, pure_ok, sub_self, if_pos short]
    · right
      refine ⟨message, ?_, bat⟩
      rw [guestFrom, guestFromEx, bugOn_false checked, ok_bind, guestFromLoop, aborted]
      rfl

theorem PageWise.storeNothing (wise : PageWise m) (data : Buf) (n s : W32) (page : guestPage m ea = none) :
    guestTo m ea data n s = .ok (if n = 0 then .none else .badAccess, m) ∨
      ∃ message, guestTo m ea data n s = .error message ∧ BatAbort m message := by
  rcases wise.missed page (wordAt m.garbage 0) with ⟨err, out, answer, outside⟩ | ⟨message, aborted, bat⟩
  · left
    have looped := guestToLoop_unreached answer outside data n s
    simp only [guestTo, looped, ok_bind, pure_ok, ne_eq, ite_not]
  · right
    refine ⟨message, ?_, bat⟩
    rw [guestTo, guestToLoop, aborted]
    rfl

theorem PageWise.storeElements (wise : PageWise m) (data : Buf) {n s : W32} (size : AccessSize s)
    (aligned : ea.toNat % s.toNat = 0) (whole : n.toNat % s.toNat = 0) (within : n.toNat ≤ 4096 - ea.toNat % 4096) :
    (∃ host', guestTo m ea data n s = .ok (.none, { m with host := host' }) ∧
      Stored m { m with host := host' } ea n.toNat (fun k => data (lane (guestIsLittle m.guest) s.toNat k)) ∧
      guestPage m ea ≠ none) ∨
    guestPage m ea = none ∧
      (guestTo m ea data n s = .ok (if n = 0 then .none else .badAccess, m) ∨
        ∃ message, guestTo m ea data n s = .error message ∧ BatAbort m message) := by
  cases page : guestPage m ea with
  | some g =>
    left
    have map := wise.translates page within
    obtain ⟨host', stored, arrived, others⟩ := guestToLoop_view size data aligned whole map
    refine ⟨host', ?_, ⟨fun k bound => ?_, fun k bound _ => ?_, fun x apart => others x fun k bound same => ?_⟩,
      by simp⟩
    · simp only [guestTo, stored, ok_bind, ne_eq, not_true_eq_false, if_false, pure_ok]
    · rw [guestReal_add page (Nat.lt_of_lt_of_le bound within)]
      simp
    · have there : guestReal { m with host := host' } (ea + BitVec.ofNat 32 k) = some _ :=
        guestReal_add (m := m) page (Nat.lt_of_lt_of_le bound within)
      rw [guestByte, there, Option.map_some]
      exact congrArg some (arrived k bound)
    · apply apart k bound
      rw [guestReal_add page (Nat.lt_of_lt_of_le bound within), same]
  | none => exact .inr ⟨rfl, wise.storeNothing data n s page⟩

theorem PageWise.store (wise : PageWise m) (data : Buf) {n : W32} (within : n.toNat ≤ 4096 - ea.toNat % 4096) :
    (∃ host', guestTo m ea data n 1 = .ok (.none, { m with host := host' }) ∧
      Stored m { m with host := host' } ea n.toNat data ∧ guestPage m ea ≠ none) ∨
    guestPage m ea = none ∧
      (guestTo m ea data n 1 = .ok (if n = 0 then .none else .badAccess, m) ∨
        ∃ message, guestTo m ea data n 1 = .error message ∧ BatAbort m message) := by
  have bytes : (fun k => data (lane (guestIsLittle m.guest) (1 : W32).toNat k)) = data := by
    funext k
    have one : (1 : W32).toNat = 1 := rfl
    rw [one, lane_one]
  have stored := wise.storeElements data (.inl rfl) (Nat.mod_one _) (Nat.mod_one _) within
  rwa [bytes] at stored

theorem PageWise.storeWord (wise : PageWise m) (word : W32) (aligned : ea.toNat % 4 = 0) :
    (∃ host', guestToX m ea word = .ok (.none, { m with host := host' }) ∧ guestPage m ea ≠ none) ∨
    guestPage m ea = none ∧
      (guestToX m ea word = .ok (.badAccess, m) ∨
        ∃ message, guestToX m ea word = .error message ∧ BatAbort m message) := by
  have within : (4 : W32).toNat ≤ 4096 - ea.toNat % 4096 := by
    change 4 ≤ _
    omega
  have stored := wise.storeElements (wordBytes word) (.inr (.inr rfl)) aligned (by decide) within
  refine stored.imp_left ?_
  rintro ⟨host', took, _, page⟩
  exact ⟨host', took, page⟩

end ToyHv
