import ToyHv.Memory.Lanes
import ToyHv.Model.Access

namespace ToyHv

def realOf (page : W32 → W32) (ea : W32) : W32 := page (pageOf ea) + (ea &&& PAGE_MASK)

/-- The pages touched by `n` bytes from `ea` on translate to guest real pages inside RAM.
    Looking up `ea` itself does not abort, also when no byte is touched. -/
structure Maps (m : Machine) (page : W32 → W32) (ea : W32) (n : ℕ) : Prop where
  total : ∀ gra, ∃ answer, guestBackmap m ea gra = .ok answer
  answers : ∀ i < n, ∀ gra, guestBackmap m (ea + BitVec.ofNat 32 i) gra =
    .ok (.none, realOf page (ea + BitVec.ofNat 32 i))
  aligned : ∀ i < n, isAligned (page (pageOf (ea + BitVec.ofNat 32 i))) PAGE_SIZE
  inside : ∀ i < n, page (pageOf (ea + BitVec.ofNat 32 i)) < m.ram.pmemBytes

/-- They translate to pairwise distinct pages. -/
structure Translates (m : Machine) (page : W32 → W32) (ea : W32) (n : ℕ) : Prop extends Maps m page ea n where
  distinct : ∀ i < n, ∀ j < n, page (pageOf (ea + BitVec.ofNat 32 i)) = page (pageOf (ea + BitVec.ofNat 32 j)) →
    pageOf (ea + BitVec.ofNat 32 i) = pageOf (ea + BitVec.ofNat 32 j)

theorem toNat_pageOf (ea : W32) : (pageOf ea).toNat = ea.toNat - ea.toNat % 4096 := toNat_page_base ea

theorem realOf_add (page : W32 → W32) (ea : W32) {j : ℕ} (bound : j < 4096 - ea.toNat % 4096) :
    pageOf (ea + BitVec.ofNat 32 j) = pageOf ea ∧
    realOf page (ea + BitVec.ofNat 32 j) = realOf page ea + BitVec.ofNat 32 j := by
  have top := ea.isLt
  have sum : (ea + BitVec.ofNat 32 j).toNat = ea.toNat + j := by
    rw [BitVec.toNat_add, BitVec.toNat_ofNat]
    omega
  have same : pageOf (ea + BitVec.ofNat 32 j) = pageOf ea := by
    apply BitVec.eq_of_toNat_eq
    rw [toNat_pageOf, toNat_pageOf, sum]
    omega
  have offset : (ea + BitVec.ofNat 32 j) &&& PAGE_MASK = (ea &&& PAGE_MASK) + BitVec.ofNat 32 j := by
    apply BitVec.eq_of_toNat_eq
    rw [toNat_page_offset, sum, BitVec.toNat_add, toNat_page_offset, BitVec.toNat_ofNat]
    omega
  exact ⟨same, by rw [realOf, realOf, same, offset, BitVec.add_assoc]⟩

variable {m : Machine} {page : W32 → W32} {ea : W32} {n : ℕ}

theorem Maps.toNat_realOf (map : Maps m page ea n) {i : ℕ} (bound : i < n) :
    (realOf page (ea + BitVec.ofNat 32 i)).toNat =
      (page (pageOf (ea + BitVec.ofNat 32 i))).toNat + (ea + BitVec.ofNat 32 i).toNat % 4096 := by
  have aligned := (isAligned_page _).mp (map.aligned i bound)
  have top := (page (pageOf (ea + BitVec.ofNat 32 i))).isLt
  rw [realOf, BitVec.toNat_add, toNat_page_offset]
  omega

theorem Maps.room (map : Maps m page ea n) {i : ℕ} (bound : i < n) :
    (realOf page (ea + BitVec.ofNat 32 i)).toNat + (4096 - (ea + BitVec.ofNat 32 i).toNat % 4096) ≤
      m.ram.pmemBytes.toNat := by
  have aligned := (isAligned_page _).mp (map.aligned i bound)
  have inside := BitVec.lt_def.mp (map.inside i bound)
  have size := m.ram.size_aligned
  rw [map.toNat_realOf bound]
  omega

theorem add_ofNat (ea : W32) (c i : ℕ) :
    ea + BitVec.ofNat 32 c + BitVec.ofNat 32 i = ea + BitVec.ofNat 32 (c + i) := by
  rw [BitVec.add_assoc, ← BitVec.ofNat_add]

theorem Maps.drop (map : Maps m page ea n) {c : ℕ} (more : c < n) :
    Maps m page (ea + BitVec.ofNat 32 c) (n - c) := by
  constructor
  · exact fun gra => ⟨_, map.answers c more gra⟩
  · intro i bound
    rw [add_ofNat]
    exact map.answers (c + i) (by omega)
  · intro i bound
    rw [add_ofNat]
    exact map.aligned (c + i) (by omega)
  · intro i bound
    rw [add_ofNat]
    exact map.inside (c + i) (by omega)

theorem Maps.frame (map : Maps m page ea n) (host : Host) : Maps { m with host } page ea n :=
  ⟨map.total, map.answers, map.aligned, map.inside⟩

variable {left s : W32}

structure Chunk (m : Machine) (page : W32 → W32) (ea left s : W32) : Prop where
  inRam : InRam m.ram (realOf page ea) (xferSizeAt ea left) s
  aligned : (realOf page ea).toNat % s.toNat = 0
  step : (ea + xferSizeAt ea left).toNat % s.toNat = 0
  rest : (left - xferSizeAt ea left).toNat % s.toNat = 0
  within : (xferSizeAt ea left).toNat ≤ 4096 - ea.toNat % 4096
  bound : (xferSizeAt ea left).toNat ≤ left.toNat
  real : ∀ j < (xferSizeAt ea left).toNat,
    realOf page (ea + BitVec.ofNat 32 j) = realOf page ea + BitVec.ofNat 32 j

theorem AccessSize.values (size : AccessSize s) : s.toNat = 1 ∨ s.toNat = 2 ∨ s.toNat = 4 := by
  rcases size with rfl | rfl | rfl <;> decide

theorem chunk_ok (size : AccessSize s) (aligned : ea.toNat % s.toNat = 0) (whole : left.toNat % s.toNat = 0)
    (more : 0 < left.toNat) (map : Maps m page ea left.toNat) : Chunk m page ea left s := by
  have count := toNat_xferSizeAt ea left
  have room := map.room more
  have base := map.toNat_realOf more
  have pages := (isAligned_page _).mp (map.aligned 0 more)
  rw [BitVec.add_zero] at room base pages
  have small := left.isLt
  have within : (xferSizeAt ea left).toNat ≤ 4096 - ea.toNat % 4096 := by omega
  have bound : (xferSizeAt ea left).toNat ≤ left.toNat := by omega
  have sum : (ea + xferSizeAt ea left).toNat = (ea.toNat + (xferSizeAt ea left).toNat) % 2^32 := BitVec.toNat_add ..
  have difference := BitVec.toNat_sub_of_le (BitVec.le_def.mpr bound)
  have elements : (xferSizeAt ea left).toNat % s.toNat = 0 ∧ (realOf page ea).toNat % s.toNat = 0 ∧
      (ea + xferSizeAt ea left).toNat % s.toNat = 0 ∧ (left - xferSizeAt ea left).toNat % s.toNat = 0 := by
    rcases size.values with value | value | value <;> rw [value] at aligned whole ⊢ <;> omega
  obtain ⟨chunk, real, step, rest⟩ := elements
  exact ⟨⟨size, chunk, by omega⟩, real, step, rest, within, bound, fun j inside => (realOf_add page ea (by omega)).2⟩

theorem Chunk.difference (chunk : Chunk m page ea left s) :
    (left - xferSizeAt ea left).toNat = left.toNat - (xferSizeAt ea left).toNat :=
  BitVec.toNat_sub_of_le (BitVec.le_def.mpr chunk.bound)

theorem Chunk.last (chunk : Chunk m page ea left s) (done : left - xferSizeAt ea left = 0) :
    left.toNat = (xferSizeAt ea left).toNat := by
  have difference := chunk.difference
  have bound := chunk.bound
  rw [done] at difference
  simp only [BitVec.ofNat_eq_ofNat, BitVec.toNat_ofNat] at difference
  omega

theorem Chunk.more (chunk : Chunk m page ea left s) (unfinished : left - xferSizeAt ea left ≠ 0) :
    (xferSizeAt ea left).toNat < left.toNat := by
  rcases Nat.lt_or_ge (xferSizeAt ea left).toNat left.toNat with less | all
  · exact less
  · exact absurd (BitVec.eq_of_toNat_eq (by rw [chunk.difference, Nat.sub_eq_zero_of_le all]; rfl)) unfinished

theorem Chunk.decreases (chunk : Chunk m page ea left s) (more : 0 < left.toNat) :
    (left - xferSizeAt ea left).toNat < left.toNat := by
  have count := toNat_xferSizeAt ea left
  rw [chunk.difference]
  omega

theorem add_toNat (ea c : W32) (i : ℕ) : ea + c + BitVec.ofNat 32 i = ea + BitVec.ofNat 32 (c.toNat + i) := by
  rw [BitVec.ofNat_add, BitVec.ofNat_toNat, BitVec.setWidth_eq, BitVec.add_assoc]

theorem Chunk.drop (chunk : Chunk m page ea left s) (unfinished : left - xferSizeAt ea left ≠ 0)
    (map : Maps m page ea left.toNat) :
    Maps m page (ea + xferSizeAt ea left) (left - xferSizeAt ea left).toNat := by
  have dropped := map.drop (chunk.more unfinished)
  rwa [BitVec.ofNat_toNat, BitVec.setWidth_eq, ← chunk.difference] at dropped

theorem pos_of_ne_zero (some : ¬ left = 0) : 0 < left.toNat := by
  rcases Nat.eq_zero_or_pos left.toNat with zero | pos
  · exact absurd (BitVec.eq_of_toNat_eq zero) some
  · exact pos

theorem xferSizeAt_zero (ea : W32) : xferSizeAt ea 0 = 0 :=
  BitVec.eq_of_toNat_eq (by rw [toNat_xferSizeAt]; simp)

theorem xferSizeAt_ne_zero (ea : W32) (some : left ≠ 0) : (0 : W32) ≠ xferSizeAt ea left := by
  intro nothing
  have count := toNat_xferSizeAt ea left
  have pos := pos_of_ne_zero some
  rw [← nothing] at count
  simp only [BitVec.ofNat_eq_ofNat, BitVec.toNat_ofNat] at count
  omega

theorem guestToLoop_unreached {gra : W32} {err : Err} (looked : guestBackmap m ea (wordAt m.garbage 0) = .ok (err, gra))
    (outside : err ≠ .none ∨ gra ≥ m.ram.pmemBytes) (src : Buf) (left s : W32) :
    guestToLoop m ea src left s = .ok (left, m) := by
  rw [guestToLoop]
  simp only [looked, ok_bind]
  split
  · rfl
  · rename_i found
    have missing : pmemTo (guestIsLittle m.guest) m.ram m.host gra src (xferSizeAt ea left) s = .ok (0, m.host) :=
      if_pos (outside.resolve_left found)
    have stops : (0 : W32) ≠ xferSizeAt ea left ∨ left - 0 = 0 := by
      rcases eq_or_ne left 0 with none | some
      · exact .inr (by rw [none]; rfl)
      · exact .inl (xferSizeAt_ne_zero ea some)
    simp only [missing, ok_bind, dif_pos stops]
    rw [sub_zero]
    rfl

theorem guestFromLoop_unreached {gra : W32} {err : Err}
    (looked : guestBackmap m ea (wordAt m.garbage 0) = .ok (err, gra))
    (outside : err ≠ .none ∨ gra ≥ m.ram.pmemBytes) (buf : Buf) (d : ℕ) (left s : W32) (nulTerm : Bool) :
    guestFromLoop m buf d ea left s nulTerm = .ok (left, buf) := by
  rw [guestFromLoop]
  simp only [looked, ok_bind]
  split
  · rfl
  · rename_i found
    have missing (flags : W32) :
        pmemFromEx (guestIsLittle m.guest) m.ram m.host buf d gra (xferSizeAt ea left) s flags = .ok (0, buf) :=
      if_pos (outside.resolve_left found)
    have stops : (0 : W32) ≠ xferSizeAt ea left ∨ left - 0 = 0 := by
      rcases eq_or_ne left 0 with none | some
      · exact .inr (by rw [none]; rfl)
      · exact .inl (xferSizeAt_ne_zero ea some)
    simp only [missing, ok_bind, dif_pos stops]
    rw [sub_zero]
    rfl

theorem Translates.injective (map : Translates m page ea n) (whole : n ≤ 2^32) {i j : ℕ} (iBound : i < n)
    (jBound : j < n) (same : realOf page (ea + BitVec.ofNat 32 i) = realOf page (ea + BitVec.ofNat 32 j)) :
    i = j := by
  have iAligned := (isAligned_page _).mp (map.aligned i iBound)
  have jAligned := (isAligned_page _).mp (map.aligned j jBound)
  have images := congrArg BitVec.toNat same
  rw [map.toNat_realOf iBound, map.toNat_realOf jBound] at images
  have pages := map.distinct i iBound j jBound (BitVec.eq_of_toNat_eq (by omega))
  have bases := congrArg BitVec.toNat pages
  rw [toNat_pageOf, toNat_pageOf] at bases
  have sum : (ea + BitVec.ofNat 32 i).toNat = (ea + BitVec.ofNat 32 j).toNat := by omega
  rw [BitVec.toNat_add, BitVec.toNat_add, BitVec.toNat_ofNat, BitVec.toNat_ofNat] at sum
  omega

theorem Translates.drop (map : Translates m page ea n) {c : ℕ} (more : c < n) :
    Translates m page (ea + BitVec.ofNat 32 c) (n - c) := by
  refine ⟨map.toMaps.drop more, ?_⟩
  intro i iBound j jBound
  rw [add_ofNat, add_ofNat]
  exact map.distinct (c + i) (by omega) (c + j) (by omega)

theorem Translates.frame (map : Translates m page ea n) (host : Host) : Translates { m with host } page ea n :=
  ⟨map.toMaps.frame host, map.distinct⟩

theorem realOf_id (ea : W32) : realOf id ea = ea := by
  apply BitVec.eq_of_toNat_eq
  have top := ea.isLt
  rw [realOf, id_eq, BitVec.toNat_add, toNat_pageOf, toNat_page_offset]
  omega

theorem real_mode_translates (real : m.guest.msr &&& MSR_MMU_ON ≠ MSR_MMU_ON)
    (inside : ∀ i < n, ea + BitVec.ofNat 32 i < m.ram.pmemBytes) : Translates m id ea n := by
  have answers : ∀ a gra, guestBackmap m a gra =
      .ok (if pmemGraValid m.ram a then (.none, a) else (.notFound, gra)) := by
    intro a gra
    rw [guestBackmap, guestBackmapEx, if_pos real]
    split <;> rfl
  refine ⟨⟨fun gra => ⟨_, answers ea gra⟩, fun i bound gra => ?_, fun i bound => ?_, fun i bound => ?_⟩,
    fun _ _ _ _ same => same⟩
  · have valid : pmemGraValid m.ram (ea + BitVec.ofNat 32 i) = true := decide_eq_true (inside i bound)
    rw [answers, realOf_id, if_pos valid]
  · rw [isAligned_page, id_eq, toNat_pageOf]
    omega
  · have below := BitVec.lt_def.mp (inside i bound)
    rw [id_eq, BitVec.lt_def, toNat_pageOf]
    omega

def zeroPage : VmmPage := ⟨fun _ => 0, ⟨⟨0, 0, fun _ => 0, 0, 0, 0, 0⟩, 0⟩⟩

def zeroMachine : Machine :=
  Machine.start (fun _ => zeroPage) (fun _ => 0)
    ⟨fun _ => ⟨0, fun _ => 0⟩, fun _ => 0, 0, [], ⟨0, fun _ => 0⟩, []⟩ fun _ => 0

def realModeGuest (little : Bool) (host : Host) : Machine :=
  { zeroMachine with
    host
    ram := ⟨0, 0x2000, zero_base_aligned, by decide, by decide⟩
    guest := { Guest.zero with monMsr := if little then MSR_LE else 0, vmm := .mmuOff, regs := .mmuOff } }

theorem realModeGuest_translates (little : Bool) (host : Host) {ea : W32} {n : ℕ} (bound : ea.toNat + n ≤ 0x2000) :
    Translates (realModeGuest little host) id ea n := by
  refine real_mode_translates (show (0 : W32) &&& MSR_MMU_ON ≠ MSR_MMU_ON by decide) fun i inside => ?_
  have sum : (ea + BitVec.ofNat 32 i).toNat = ea.toNat + i := by
    rw [BitVec.toNat_add, BitVec.toNat_ofNat]
    omega
  rw [BitVec.lt_def, sum]
  exact Nat.lt_of_lt_of_le (Nat.add_lt_add_left inside _) bound

end ToyHv
