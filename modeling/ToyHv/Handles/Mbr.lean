import ToyHv.Model.Open

namespace ToyHv

structure FirstSector (os : Os) (fd : ℕ) : Prop where
  sought : 0 ≤ os.results os.calls
  moved : 512 ≤ os.results (os.calls + 1)
  magic : (os.files fd).bytes 0x1fe = 0x55 ∧ (os.files fd).bytes 0x1ff = 0xaa

/-- Where the `index`-th entry of the table starts, in bytes and exact arithmetic, and how long it is. -/
def entryStart (bytes : ℕ → W8) (index : W32) : ℕ := 512 * (le32At bytes (0x1be + 16 * (index.toNat - 1) + 8)).toNat
def entryLength (bytes : ℕ → W8) (index : W32) : ℕ := 512 * (le32At bytes (0x1be + 16 * (index.toNat - 1) + 12)).toNat

/-- The entry's extent lies inside the image and fits `offset_t` and `length_t`. -/
structure EntryFits (bytes : ℕ → W8) (image : ℕ) (index : W32) : Prop where
  inside : entryStart bytes index + entryLength bytes index ≤ image
  start : entryStart bytes index < 2^32
  length : entryLength bytes index < 2^32

structure OpensPart (env : OpenEnv) (path : List W8) (fd : ℕ) (stSize index : W32) : Prop where
  copied : env.dupDev = true
  noFile : (cutAt 0x2c path).2 = none
  number : ∃ p, (cutAt 0x3a (cutAt 0x2c path).1).2 = some p ∧ atoi p = index
  disk : ∃ diskPath, (env.pathOffset (cutAt 0x3a (cutAt 0x2c path).1).1).bind env.diskFile = some diskPath ∧
    env.diskOpen diskPath = some (fd, stSize)

/-- What a lookup promises, by the partition's number. -/
structure PartExact (os : Os) (fd image : ℕ) (index : W32) (part : DiskPart) (blk : Buf) : Prop where
  whole : index = 0 → ∃ os', diskFindPart os fd (BitVec.ofNat 32 image) index part blk = (.none, ⟨0, image⟩, os') ∧
    (image : W32).toNat = image
  entry : 1 ≤ index.toNat → index.toNat ≤ 4 → EntryFits (os.files fd).bytes image index →
    ∃ found os', diskFindPart os fd (BitVec.ofNat 32 image) index part blk = (.none, found, os') ∧
      found.off.toNat = entryStart (os.files fd).bytes index ∧
      found.length.toNat = entryLength (os.files fd).bytes index
  refused : 1 ≤ index.toNat → index.toNat ≤ 4 → ¬ EntryFits (os.files fd).bytes image index →
    (diskFindPart os fd (BitVec.ofNat 32 image) index part blk).1 ≠ .none ∧
    ∀ (env : OpenEnv) path knownIhandles, OpensPart env path fd (BitVec.ofNat 32 image) index →
      env.part = part → env.blk = blk →
      ∃ os', romOpenParsePath env os path knownIhandles = .ok (.none, none, os', knownIhandles)
  behind : 5 ≤ index.toNat → (diskFindPart os fd (BitVec.ofNat 32 image) index part blk).1 = .notFound

variable {os : Os} {fd image : ℕ} {stSize index : W32} {part : DiskPart} {blk : Buf}

theorem le32At_congr {b b' : Buf} {d : ℕ} (same : ∀ k < 4, b (d + k) = b' (d + k)) : le32At b d = le32At b' d := by
  have zero := same 0 (by decide)
  rw [Nat.add_zero] at zero
  rw [le32At, le32At, zero, same 1 (by decide), same 2 (by decide), same 3 (by decide)]

theorem diskSeek_start (fd : ℕ) (sought : 0 ≤ os.results os.calls) :
    ∃ os', diskSeek os fd 0 = (.none, os') ∧ os'.calls = os.calls + 1 ∧ os'.results = os.results ∧
      os'.files fd = ⟨0, (os.files fd).bytes⟩ := by
  simp only [diskSeek, sysLseek, if_neg (not_lt.mpr sought)]
  exact ⟨_, rfl, rfl, rfl, by simp⟩

theorem diskIn_sector (fd : ℕ) (blk : Buf) (moved : 512 ≤ os.results os.calls) :
    ∃ os', diskIn os fd blk SECTOR_SIZE =
      (SECTOR_SIZE, blk.put 0 512 fun k => (os.files fd).bytes ((os.files fd).position + k), os') := by
  have reads : ¬ os.results os.calls < 0 := by omega
  have size : SECTOR_SIZE.toNat = 512 := rfl
  have whole : min (os.results os.calls).toNat SECTOR_SIZE.toNat = 512 := by
    rw [size]
    omega
  simp only [diskIn, sysRead, if_neg reads, whole]
  exact ⟨_, rfl⟩

theorem diskFindPart_sector (stSize : W32) (part : DiskPart) (blk : Buf) (sector : FirstSector os fd)
    (numbered : index ≠ 0) :
    ∃ os', diskFindPart os fd stSize index part blk = if index ≥ 4 then (.notFound, part, os') else
      (.none, ⟨le32At (os.files fd).bytes (0x1be + 16 * (index.toNat - 1) + 8) * SECTOR_SIZE,
        le32At (os.files fd).bytes (0x1be + 16 * (index.toNat - 1) + 12) * SECTOR_SIZE⟩, os') := by
  obtain ⟨os₁, seek, calls, results, file⟩ := diskSeek_start fd sector.sought
  have moved := sector.moved
  rw [← calls, ← results] at moved
  obtain ⟨os₂, read⟩ := diskIn_sector fd blk moved
  rw [file] at read
  simp only [Nat.zero_add] at read
  have inside : ∀ k < 512, blk.put 0 512 (fun k => (os.files fd).bytes k) k = (os.files fd).bytes k := by
    intro k below
    rw [Buf.put, if_pos (by omega), Nat.sub_zero]
  have magic : ¬ (blk.put 0 512 (fun k => (os.files fd).bytes k) 0x1fe ≠ 0x55 ∨
      blk.put 0 512 (fun k => (os.files fd).bytes k) 0x1ff ≠ 0xaa) := by
    rw [inside _ (by decide), inside _ (by decide), sector.magic.1, sector.magic.2]
    simp
  refine ⟨os₂, ?_⟩
  simp only [diskFindPart, if_neg numbered, seek, read, ne_eq, not_true_eq_false, if_false]
  rw [if_neg magic]
  split
  · rfl
  · rename_i low
    have low := BitVec.lt_def.mp (BitVec.not_le.mp low)
    have four : (4 : W32).toNat = 4 := rfl
    rw [four] at low
    rw [le32At_congr (d := 0x1be + 16 * (index.toNat - 1) + 8) fun k _ => inside _ (by omega),
      le32At_congr (d := 0x1be + 16 * (index.toNat - 1) + 12) fun k _ => inside _ (by omega)]

theorem open_without_part {env : OpenEnv} {path : List W8} {knownIhandles : List Ihandle}
    (opens : OpensPart env path fd stSize index)
    (failed : (diskFindPart os fd stSize index env.part env.blk).1 ≠ .none) :
    ∃ os', romOpenParsePath env os path knownIhandles = .ok (.none, none, os', knownIhandles) := by
  obtain ⟨p, number, value⟩ := opens.number
  obtain ⟨diskPath, node, disk⟩ := opens.disk
  refine ⟨(diskFindPart os fd stSize index env.part env.blk).2.2, ?_⟩
  simp only [romOpenParsePath, opens.copied, opens.noFile, node, disk, number, value, if_pos failed, not_true_eq_false,
    if_false, pure_ok]

theorem toNat_sectors (n : W32) (fits : 512 * n.toNat < 2^32) : (n * SECTOR_SIZE).toNat = 512 * n.toNat := by
  have size : SECTOR_SIZE.toNat = 512 := rfl
  rw [BitVec.toNat_mul, size, Nat.mul_comm]
  exact Nat.mod_eq_of_lt fits

theorem part_found (stSize : W32) (part : DiskPart) (blk : Buf) (sector : FirstSector os fd)
    (numbered : 1 ≤ index.toNat) (low : index.toNat ≤ 3) :
    ∃ os', diskFindPart os fd stSize index part blk =
      (.none, ⟨le32At (os.files fd).bytes (0x1be + 16 * (index.toNat - 1) + 8) * SECTOR_SIZE,
        le32At (os.files fd).bytes (0x1be + 16 * (index.toNat - 1) + 12) * SECTOR_SIZE⟩, os') := by
  obtain ⟨os', answer⟩ := diskFindPart_sector stSize part blk sector
    (show index ≠ 0 by rintro rfl; cases numbered)
  have below : ¬ index ≥ 4 := by
    rw [ge_iff_le, BitVec.le_def]
    exact not_le.mpr (Nat.lt_succ_of_le low)
  rw [if_neg below] at answer
  exact ⟨os', answer⟩

theorem part_not_found (stSize : W32) (part : DiskPart) (blk : Buf) (sector : FirstSector os fd)
    (high : 4 ≤ index.toNat) :
    (diskFindPart os fd stSize index part blk).1 = .notFound := by
  obtain ⟨os', answer⟩ := diskFindPart_sector stSize part blk sector
    (show index ≠ 0 by rintro rfl; cases high)
  have behind : index ≥ 4 := BitVec.le_def.mpr high
  rw [if_pos behind] at answer
  rw [answer]

/-- The lookup keeps its promise just when the whole image has a length of 32 bits, the first three
    entries lie in it, and the fourth does not. -/
theorem part_exact_iff (image : ℕ) (index : W32) (part : DiskPart) (blk : Buf) (sector : FirstSector os fd) :
    PartExact os fd image index part blk ↔ (index = 0 → image < 2^32) ∧
      (1 ≤ index.toNat → index.toNat ≤ 3 → EntryFits (os.files fd).bytes image index) ∧
      (index.toNat = 4 → ¬ EntryFits (os.files fd).bytes image index) := by
  constructor
  · intro exact
    refine ⟨fun zero => ?_, fun numbered low => ?_, fun four fits => ?_⟩
    · obtain ⟨_, _, length⟩ := exact.whole zero
      rw [← length]
      exact BitVec.isLt _
    · by_contra outside
      obtain ⟨os', found⟩ := part_found (BitVec.ofNat 32 image) part blk sector numbered low
      refine (exact.refused numbered (by omega) outside).1 ?_
      rw [found]
    · obtain ⟨found, os', answer, _⟩ := exact.entry (by omega) (by omega) fits
      have missed := part_not_found (BitVec.ofNat 32 image) part blk sector four.ge
      rw [answer] at missed
      cases missed
  · rintro ⟨whole, low, last⟩
    refine ⟨fun zero => ?_, fun numbered bound fits => ?_, fun numbered bound outside => ?_, fun behind => ?_⟩
    · subst zero
      refine ⟨os, rfl, ?_⟩
      exact Nat.mod_eq_of_lt (whole rfl)
    · have three : index.toNat ≤ 3 := by
        by_contra four
        exact last (by omega) fits
      obtain ⟨os', found⟩ := part_found (BitVec.ofNat 32 image) part blk sector numbered three
      exact ⟨_, os', found, toNat_sectors _ fits.start, toNat_sectors _ fits.length⟩
    · have four : 4 ≤ index.toNat := by
        by_contra three
        exact outside (low numbered (by omega))
      have failed := part_not_found (BitVec.ofNat 32 image) part blk sector four
      refine ⟨by rw [failed]; decide, fun env path knownIhandles opens stale sectorBuf => ?_⟩
      refine open_without_part opens ?_
      rw [stale, sectorBuf, failed]
      decide
    · exact part_not_found _ part blk sector (by omega)

def mbrBytes (a : ℕ) : W8 :=
  if a = 0x1c6 ∨ a = 0x1f6 then 1
  else if a = 0x1ca ∨ a = 0x1fa then 2
  else if a = 0x1fe then 0x55
  else if a = 0x1ff then 0xaa
  else 0

def mbrOs : Os := ⟨fun _ => ⟨0, mbrBytes⟩, fun _ => 512, 0, [], ⟨0, fun _ => 0⟩, []⟩

theorem mbr_sector : FirstSector mbrOs 3 := ⟨by decide, by decide, by decide⟩

theorem first_partition_exact : PartExact mbrOs 3 0x600 1 ⟨0, 0⟩ fun _ => 0 := by
  refine (part_exact_iff 0x600 1 _ _ mbr_sector).mpr ⟨fun zero => absurd zero (by decide), fun _ _ => ?_, ?_⟩
  · exact ⟨by decide, by decide, by decide⟩
  · exact fun four => absurd four (by decide)

/-- The fourth entry is never found. -/
theorem fourth_partition_missed :
    ¬ ∀ (os : Os) (fd image : ℕ) (index : W32) (part : DiskPart) (blk : Buf), FirstSector os fd →
    PartExact os fd image index part blk := by
  intro always
  have exact := always mbrOs 3 0x600 4 ⟨0, 0⟩ (fun _ => 0) mbr_sector
  obtain ⟨found, os', answer, _⟩ := exact.entry (by decide) (by decide) ⟨by decide, by decide, by decide⟩
  have missed := part_not_found (BitVec.ofNat 32 0x600) ⟨0, 0⟩ (fun _ => 0) mbr_sector (by decide : 4 ≤ (4 : W32).toNat)
  rw [answer] at missed
  cases missed

end ToyHv
