import ToyHv.Ranges.Difference
import ToyHv.Rom.Arena
import ToyHv.Translation.Backmap

namespace ToyHv
open Library

/-- The whole pages a claim takes out of the available memory: from `ALIGN(out)` to
    `ALIGN_UP(out + size)`. -/
def Claim.rounded (c : Claim) : Set ℕ :=
  {a | ∃ out, c.place = some out ∧ (alignDown out PAGE_SIZE).toNat ≤ a ∧
    a < (alignUp (out + c.size) PAGE_SIZE).toNat}

/-- A request that is granted is for at least one byte, and inside RAM in exact arithmetic. -/
def Granted (size_ size : W32) (place : Option W32) : Prop :=
  ∀ out, place = some out → 1 ≤ size.toNat ∧ out.toNat + size.toNat ≤ size_.toNat

/-- The entries are apart, made of whole pages, and cover what no claim has taken. -/
structure Available (size_ : W32) (history : List Claim) (avail : List Range) : Prop where
  separated : Separated (avail.map Range.span)
  paged : ∀ r ∈ avail, r.base.toNat % 4096 = 0 ∧ r.limit.toNat % 4096 = 4095
  exact : ∀ a < size_.toNat, a ∈ covered (avail.map Range.span) ↔ ∀ c ∈ history, a ∉ c.rounded

theorem mem_covered_spans {l : List Range} {a : ℕ} : a ∈ covered (l.map Range.span) ↔ ∃ r ∈ l, a ∈ r.span := by
  simp [mem_covered]

structure PageCut (out size : W32) : Prop where
  ordered : alignDown out PAGE_SIZE < alignUp (out + size) PAGE_SIZE - 1
  base : (alignDown out PAGE_SIZE).toNat % 4096 = 0
  limit : (alignUp (out + size) PAGE_SIZE - 1).toNat % 4096 = 4095
  behind : (alignUp (out + size) PAGE_SIZE - 1).toNat + 1 = (alignUp (out + size) PAGE_SIZE).toNat

theorem page_cut {size_ out size : W32} (whole : size_.toNat % 4096 = 0) (some : 1 ≤ size.toNat)
    (inside : out.toNat + size.toNat ≤ size_.toNat) : PageCut out size := by
  have top := size_.isLt
  have sum : (out + size).toNat = out.toNat + size.toNat := by
    rw [BitVec.toNat_add]
    omega
  have up := toNat_alignUp_page (out + size) (by omega)
  have down := toNat_alignDown_page out
  have behind : (alignUp (out + size) PAGE_SIZE - 1).toNat + 1 = (alignUp (out + size) PAGE_SIZE).toNat := by
    rw [BitVec.toNat_sub]
    simp only [BitVec.ofNat_eq_ofNat, BitVec.toNat_ofNat]
    omega
  exact ⟨BitVec.lt_def.mpr (by omega), by omega, by omega, behind⟩

variable {size_ out size : W32} {avail avail' : List Range} {history : List Claim} {c : Claim}

/-- A cut that starts at a page leaves no sliver of entries that start at pages. -/
theorem paged_roomy {l : List Range} (starts : ∀ r ∈ l, r.base.toNat % 4096 = 0) (out limit : W32) :
    ∀ r ∈ l, ¬ r.Sliver (alignDown out PAGE_SIZE) limit := by
  rintro r member ⟨below, _, sliver⟩
  have start := starts r member
  have base := toNat_alignDown_page out
  have below := BitVec.lt_def.mp below
  apply sliver
  rw [BitVec.lt_def, BitVec.toNat_sub]
  simp only [BitVec.ofNat_eq_ofNat, BitVec.toNat_ofNat]
  omega

theorem Available.roomy (inv : Available size_ history avail) (out size : W32) :
    ∀ r ∈ avail, ¬ r.Sliver (alignDown out PAGE_SIZE) (alignUp (out + size) PAGE_SIZE - 1) :=
  paged_roomy (fun r member => (inv.paged r member).1) out _

theorem Claim.mem_rounded (place : c.place = some out) (cut : PageCut out c.size) (a : ℕ) :
    a ∈ c.rounded ↔ a ∈ cutOf _ _ cut.ordered := by
  have behind := cut.behind
  constructor
  · rintro ⟨other, found, low, high⟩
    obtain rfl := Option.some.inj (place.symm.trans found)
    exact ⟨low, show a ≤ (alignUp (out + c.size) PAGE_SIZE - 1).toNat by omega⟩
  · rintro ⟨low, high⟩
    have high : a ≤ (alignUp (out + c.size) PAGE_SIZE - 1).toNat := high
    exact ⟨out, place, low, by omega⟩

theorem Available.remove (inv : Available size_ history avail) (place : c.place = some out) (cut : PageCut out c.size)
    (spans : avail'.map Range.span = (avail.map Range.span).flatMap (carve (cutOf _ _ cut.ordered))) :
    Available size_ (history ++ [c]) avail' := by
  refine ⟨?_, fun r member => ?_, fun a inside => ?_⟩
  · rw [spans]
    exact inv.separated.carve _
  · have piece : r.span ∈ (avail.map Range.span).flatMap (carve (cutOf _ _ cut.ordered)) := by
      rw [← spans]
      exact List.mem_map_of_mem member
    obtain ⟨_, older, carved⟩ := List.mem_flatMap.mp piece
    obtain ⟨o, present, rfl⟩ := List.mem_map.mp older
    obtain ⟨start, finish⟩ := inv.paged o present
    have base := cut.base
    have limit := cut.limit
    obtain ⟨fst, snd⟩ := carve_ends carved
    simp only [Range.span_fst, Range.span_snd, cutOf, Order.succ_eq_add_one, Order.pred_eq_sub_one] at fst snd
    omega
  · rw [spans, covered_carve, Set.mem_sdiff, inv.exact a inside]
    simp only [Set.mem_ofPred_eq, List.mem_append, List.mem_singleton, or_imp, forall_and, forall_eq,
      c.mem_rounded place cut]

theorem romClaimPlace_avail (size_ addr size align : W32) (rom : Rom) :
    (romClaimPlace size_ rom addr size align).2.guestMemAvailRanges = rom.guestMemAvailRanges := by
  simp only [romClaimPlace]
  split_ifs <;> rfl

def removePages (mem : Bool) (avail : List Range) (out size : W32) : Checked (List Range) :=
  rangeRemove mem avail (alignDown out PAGE_SIZE) (alignUp (out + size) PAGE_SIZE - 1)

variable {mem : Bool} {addr align result : W32} {rom rom' : Rom} {message : Abort}

theorem romClaimEx_ok (claimed : romClaimEx mem size_ rom addr size align = .ok (result, rom')) :
    ((romClaimPlace size_ rom addr size align).1 = none ∧ rom'.guestMemAvailRanges = rom.guestMemAvailRanges) ∨
    ∃ out, (romClaimPlace size_ rom addr size align).1 = some out ∧
      removePages mem rom.guestMemAvailRanges out size = .ok rom'.guestMemAvailRanges := by
  have same := romClaimPlace_avail size_ addr size align rom
  unfold romClaimEx at claimed
  generalize romClaimPlace size_ rom addr size align = answer at claimed same ⊢
  obtain ⟨_ | out, placed⟩ := answer
  · simp only [pure_ok, Except.ok.injEq, Prod.mk.injEq] at claimed
    obtain ⟨_, rfl⟩ := claimed
    exact .inl ⟨rfl, same⟩
  · simp only [bind_ok, pure_ok, Except.ok.injEq, Prod.mk.injEq] at claimed
    obtain ⟨ranges, removed, _, rfl⟩ := claimed
    rw [same] at removed
    exact .inr ⟨out, rfl, removed⟩

theorem romClaimEx_error (aborted : romClaimEx mem size_ rom addr size align = .error message) :
    ∃ out, (romClaimPlace size_ rom addr size align).1 = some out ∧
      removePages mem rom.guestMemAvailRanges out size = .error message := by
  have same := romClaimPlace_avail size_ addr size align rom
  unfold romClaimEx at aborted
  generalize romClaimPlace size_ rom addr size align = answer at aborted same ⊢
  obtain ⟨_ | out, placed⟩ := answer
  · cases aborted
  · simp only [bind_error, pure_ok, reduceCtorEq, and_false, exists_false, or_false] at aborted
    rw [same] at aborted
    exact ⟨out, rfl, aborted⟩

theorem Available.removes (inv : Available size_ history avail) (cut : PageCut out size) (mem : Bool) :
    (∃ l, removePages mem avail out size = .ok l ∧
      l.map Range.span = (avail.map Range.span).flatMap (carve (cutOf _ _ cut.ordered))) ∨
    mem = false ∧ removePages mem avail out size = .error .rangeAlloc := by
  obtain ⟨l, removed, spans⟩ := rangeRemove_carves cut.ordered inv.separated (inv.roomy _ _)
  cases mem with
  | true => exact .inl ⟨l, removed, spans⟩
  | false =>
    rcases rangeRemove_noMem avail (alignDown out PAGE_SIZE) (alignUp (out + size) PAGE_SIZE - 1) with same | short
    · exact .inl ⟨l, same.trans removed, spans⟩
    · exact .inr ⟨rfl, short⟩

theorem Available.claim_error (inv : Available size_ history rom.guestMemAvailRanges) (whole : size_.toNat % 4096 = 0)
    (granted : Granted size_ size (romClaimPlace size_ rom addr size align).1)
    (aborted : romClaimEx mem size_ rom addr size align = .error message) : mem = false ∧ message = .rangeAlloc := by
  obtain ⟨out, placed, removed⟩ := romClaimEx_error aborted
  obtain ⟨some, inside⟩ := granted out placed
  rcases inv.removes (page_cut whole some inside) mem with ⟨l, done, _⟩ | ⟨none, short⟩
  · rw [done] at removed
    cases removed
  · rw [short] at removed
    exact ⟨none, (Except.error.inj removed).symm⟩

theorem Available.step (inv : Available size_ history rom.guestMemAvailRanges) (whole : size_.toNat % 4096 = 0)
    (granted : Granted size_ c.size c.place) (step : ClaimStep size_ rom c rom') :
    Available size_ (history ++ [c]) rom'.guestMemAvailRanges := by
  obtain ⟨v, same, _, place, claimed⟩ := step
  rw [← same.avail] at inv
  rcases romClaimEx_ok claimed with ⟨none, kept⟩ | ⟨out, placed, removed⟩
  · rw [kept]
    refine ⟨inv.separated, inv.paged, fun a inside => ?_⟩
    rw [← place] at none
    simp [inv.exact a inside, or_imp, forall_and, Claim.rounded, none]
  · rw [← place] at placed
    obtain ⟨some, inside⟩ := granted out placed
    have cut := page_cut whole some inside
    rcases inv.removes cut c.mem with ⟨l, done, spans⟩ | ⟨_, short⟩
    · rw [done] at removed
      obtain rfl := Except.ok.inj removed
      exact inv.remove placed cut spans
    · rw [short] at removed
      cases removed

theorem Available.fresh (whole : size_.toNat % 4096 = 0) (fresh : FreshLists size_ rom) :
    Available size_ [] rom.guestMemAvailRanges := by
  obtain ⟨ordered, all⟩ := fresh.avail
  have large := fresh.large
  have top := size_.isLt
  have last : (size_ - 1).toNat = size_.toNat - 1 := by
    rw [BitVec.toNat_sub]
    simp only [BitVec.ofNat_eq_ofNat, BitVec.toNat_ofNat]
    omega
  rw [all]
  refine ⟨List.pairwise_singleton _ _, fun r member => ?_, fun a inside => ?_⟩
  · obtain rfl := List.mem_singleton.mp member
    exact ⟨rfl, show (size_ - 1).toNat % 4096 = 4095 by omega⟩
  · simp only [mem_covered_spans, List.mem_singleton, exists_eq_left, List.not_mem_nil, false_imp_iff, implies_true,
      iff_true]
    exact ⟨Nat.zero_le a, show a ≤ (size_ - 1).toNat by omega⟩

theorem pmemTo_error {little : Bool} {p : Pmem} {host : Host} {dest bytes s : W32} {src : Buf}
    (aborted : pmemTo little p host dest src bytes s = .error message) :
    message = .badAlignment ∨ message = .badAccessSize := by
  unfold pmemTo at aborted
  split at aborted
  · cases aborted
  · simp only [bind_error, bugOn_error] at aborted
    rcases aborted with ⟨_, rfl⟩ | ⟨_, _, ⟨_, rfl⟩ | ⟨_, _, aborted⟩⟩
    · exact .inl rfl
    · exact .inr rfl
    · split at aborted <;> cases aborted

/-- What a store to guest memory can abort with. -/
def StoreAbort (message : Abort) : Prop :=
  message = .badAlignment ∨ message = .badAccessSize ∨ message = .unsupportedBatHandling ∨ message = .batHit

theorem guestToLoop_error {m : Machine} {dest left s : W32} {src : Buf}
    (aborted : guestToLoop m dest src left s = .error message) : StoreAbort message := by
  induction n : left.toNat using Nat.strong_induction_on generalizing m dest src left with
  | _ n ih =>
  subst n
  rw [guestToLoop] at aborted
  simp only [bind_error] at aborted
  rcases aborted with lookup | ⟨⟨err, gra⟩, _, aborted⟩
  · rcases guestBackmapEx_error lookup with rfl | rfl
    · exact .inr (.inr (.inl rfl))
    · exact .inr (.inr (.inr rfl))
  · split at aborted
    · cases aborted
    · simp only [bind_error] at aborted
      rcases aborted with stored | ⟨⟨xferred, host⟩, _, aborted⟩
      · exact (pmemTo_error stored).imp_right .inl
      · split at aborted
        · cases aborted
        · rename_i unfinished
          exact ih _ (left_decreases unfinished) aborted rfl

theorem guestTo_error {m : Machine} {dest n s : W32} {src : Buf} (aborted : guestTo m dest src n s = .error message) :
    StoreAbort message := by
  simp only [guestTo, bind_error, pure_ok, reduceCtorEq, and_false, exists_false, or_false] at aborted
  exact guestToLoop_error aborted

/-- The two checks of the "available" branch never fire on whole pages. -/
theorem romAvailLoop_error {m : Machine} {ea len : W32} {l : List Range}
    (paged : ∀ r ∈ l, r.base.toNat % 4096 = 0 ∧ r.limit.toNat % 4096 = 4095)
    (aborted : romAvailLoop m ea len l = .error message) : StoreAbort message := by
  induction l generalizing m ea len with
  | nil => cases aborted
  | cons r l ih =>
    obtain ⟨base, limit⟩ := paged r (by simp)
    have ordered := BitVec.le_def.mp r.ordered
    have start : ¬ r.base % PAGE_SIZE ≠ 0 := not_not.mpr (BitVec.eq_of_toNat_eq base)
    have length : ¬ (r.limit - r.base + 1) % PAGE_SIZE ≠ 0 := by
      refine not_not.mpr (BitVec.eq_of_toNat_eq ?_)
      change (r.limit - r.base + 1).toNat % 4096 = 0
      rw [BitVec.toNat_add, BitVec.toNat_sub_of_le r.ordered]
      simp only [BitVec.ofNat_eq_ofNat, BitVec.toNat_ofNat]
      omega
    simp only [romAvailLoop, bugOn_false start, bugOn_false length, ok_bind] at aborted
    split at aborted
    · cases aborted
    · simp only [bind_error] at aborted
      rcases aborted with first | ⟨⟨err, m₁⟩, _, aborted⟩
      · exact guestTo_error first
      · split at aborted
        · cases aborted
        · split at aborted
          · cases aborted
          · simp only [bind_error] at aborted
            rcases aborted with second | ⟨⟨err, m₂⟩, _, aborted⟩
            · exact guestTo_error second
            · split at aborted
              · cases aborted
              · exact ih (fun d member => paged d (List.mem_cons_of_mem _ member)) aborted

/-- The bookkeeping of available memory is exact over every run of claims from the ranges
    `rom_init` sets up, as long as what is granted lies in RAM. -/
theorem available_memory_is_exact {p : Pmem} {mem : Bool} {before rom t : Rom} {history : List Claim}
    (setup : romInitRanges mem (pmemSize p) before = .ok rom) (run : Run (ClaimStep (pmemSize p)) rom history t)
    (granted : ∀ c ∈ history, Granted (pmemSize p) c.size c.place) :
    (∀ v addr size align mem message, SameClaims t v →
      Granted (pmemSize p) size (romClaimPlace (pmemSize p) v addr size align).1 →
      romClaimEx mem (pmemSize p) v addr size align = .error message → mem = false ∧ message = .rangeAlloc) ∧
    t.guestMemAvailRanges.Pairwise (fun r s => r.limit < s.base) ∧
    (∀ r ∈ t.guestMemAvailRanges, isAligned r.base PAGE_SIZE ∧ isAligned (r.limit + 1) PAGE_SIZE) ∧
    (∀ m : Machine, m.rom = t → ∀ lenIn dataEa, romGetpropAvailable m lenIn dataEa ≠ .error .unexpectedAvailRange) ∧
    ∀ a, a < pmemSize p →
      ((∃ r ∈ t.guestMemAvailRanges, r.base ≤ a ∧ a ≤ r.limit) ↔ ∀ c ∈ history, a.toNat ∉ c.rounded) := by
  have whole := p.size_aligned
  have inv : Available (pmemSize p) history t.guestMemAvailRanges := by
    refine run.invariant (I := fun older t => (∀ c ∈ older, Granted (pmemSize p) c.size c.place) →
      Available (pmemSize p) older t.guestMemAvailRanges) ?_ ?_ granted
    · exact fun _ => .fresh whole (romInitRanges_ok setup).2
    · intro older t c u ih step granted
      exact (ih fun d member => granted d (by simp [member])).step whole (granted c (by simp)) step
  refine ⟨fun v addr size align mem message same asked aborted => ?_, ?_, fun r member => ?_, ?_, fun a inside => ?_⟩
  · rw [← same.avail] at inv
    exact inv.claim_error whole asked aborted
  · exact (List.pairwise_map.mp inv.separated).imp BitVec.lt_def.mpr
  · obtain ⟨base, limit⟩ := inv.paged r member
    refine ⟨(isAligned_page _).mpr base, (isAligned_page _).mpr ?_⟩
    rw [BitVec.toNat_add]
    simp only [BitVec.ofNat_eq_ofNat, BitVec.toNat_ofNat]
    omega
  · rintro m rfl lenIn dataEa aborted
    unfold romGetpropAvailable at aborted
    cases dataEa with
    | none => cases aborted
    | some ea =>
      simp only [bind_error, pure_ok, reduceCtorEq, and_false, exists_false, or_false] at aborted
      rcases romAvailLoop_error inv.paged aborted with other | other | other | other <;> cases other
  · exact mem_covered_spans.symm.trans (inv.exact a.toNat (BitVec.lt_def.mp inside))

structure PlainClaims (p : Pmem) (rom : Rom) : Prop where
  size : pmemSize p = 0x2000000
  setup : romInitRanges true (pmemSize p) Rom.zero = .ok rom
  avail : rom.guestMemAvailRanges = [⟨0, 0x1ffffff, by decide⟩]
  arenaPtr : rom.claimArenaPtr = 0x1000000
  arenaEnd : rom.claimArenaEnd = 0x2000000

theorem plain_claims : ∃ p rom, PlainClaims p rom := by
  obtain ⟨p, size⟩ : ∃ p : Pmem, pmemSize p = 0x2000000 := ⟨⟨0, 0x2000000, by decide, by decide, by decide⟩, rfl⟩
  obtain ⟨rom, setup, avail, ptr, finish⟩ : ∃ rom, romInitRanges true (pmemSize p) Rom.zero = .ok rom ∧
      rom.guestMemAvailRanges = [⟨0, 0x1ffffff, by decide⟩] ∧ rom.claimArenaPtr = 0x1000000 ∧
      rom.claimArenaEnd = 0x2000000 := by
    rw [size]
    exact ⟨_, rfl, rfl, rfl, rfl⟩
  exact ⟨p, rom, size, setup, avail, ptr, finish⟩

/-- The first page of the arena is claimed. -/
theorem PlainClaims.page_taken {p : Pmem} {rom : Rom} (plain : PlainClaims p rom) :
    ∃ t, Run (ClaimStep (pmemSize p)) rom [⟨true, 0, 0x1000, 0x1000, 0x1000000, some 0x1000000⟩] t ∧
      t.guestMemAvailRanges = [⟨0, 0xffffff, by decide⟩, ⟨0x1001000, 0x1ffffff, by decide⟩] ∧
      t.claimArenaPtr = 0x1001000 ∧ t.claimArenaEnd = 0x2000000 := by
  have step : ClaimStep (pmemSize p) rom ⟨true, 0, 0x1000, 0x1000, 0x1000000, some 0x1000000⟩
      { rom with
        claimArenaPtr := 0x1001000
        guestMemAvailRanges := [⟨0, 0xffffff, by decide⟩, ⟨0x1001000, 0x1ffffff, by decide⟩] } :=
    .of_arena plain.arenaPtr plain.arenaEnd plain.avail (by decide) (by decide) (by decide) (by decide) (by rfl)
  exact ⟨_, .single step, rfl, rfl, plain.arenaEnd⟩

/-- A claim of half a page takes the page, and the one after it stays available. -/
theorem half_page_claimed : ∃ rom t : Rom, romInitRanges true 0x2000000 Rom.zero = .ok rom ∧
    Run (ClaimStep 0x2000000) rom [⟨true, 0x5000, 0x800, 0, 0x1000000, some 0x5000⟩] t ∧
    (∃ r ∈ t.guestMemAvailRanges, r.base ≤ 0x6000 ∧ 0x6000 ≤ r.limit) ∧
    ¬ ∃ r ∈ t.guestMemAvailRanges, r.base ≤ 0x5fff ∧ 0x5fff ≤ r.limit := by
  obtain ⟨p, rom, plain⟩ := plain_claims
  have setup := plain.setup
  have step : ClaimStep (pmemSize p) rom ⟨true, 0x5000, 0x800, 0, 0x1000000, some 0x5000⟩
      { rom with guestMemAvailRanges := [⟨0, 0x4fff, by decide⟩, ⟨0x6000, 0x1ffffff, by decide⟩] } := by
    rw [← plain.arenaPtr]
    refine .of_placed ?_ (by rw [plain.avail]; rfl)
    rw [plain.size]
    rfl
  have granted : ∀ c ∈ [(⟨true, 0x5000, 0x800, 0, 0x1000000, some 0x5000⟩ : Claim)],
      Granted (pmemSize p) c.size c.place := by
    rw [plain.size]
    rintro c member out found
    obtain rfl := List.mem_singleton.mp member
    obtain rfl := Option.some.inj found
    decide
  have exact := (available_memory_is_exact setup (.single step) granted).2.2.2.2
  rw [plain.size] at setup step exact
  have after : ∀ c ∈ [(⟨true, 0x5000, 0x800, 0, 0x1000000, some 0x5000⟩ : Claim)],
      (0x6000 : W32).toNat ∉ c.rounded := by
    rintro c member ⟨out, found, _, high⟩
    obtain rfl := List.mem_singleton.mp member
    obtain rfl := Option.some.inj found
    exact absurd high (by decide)
  refine ⟨rom, _, setup, .single step, (exact 0x6000 (by decide)).mpr after, fun found => ?_⟩
  exact (exact 0x5fff (by decide)).mp found _ (List.mem_singleton_self _) ⟨_, rfl, by decide, by decide⟩

end ToyHv
