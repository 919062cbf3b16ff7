import ToyHv.Handles.Partition
import ToyHv.Handles.Sharing
import ToyHv.Memory.Transfers

namespace ToyHv

variable {os : Os} {part : DiskPart} {o len : W32} {buf : Buf}

/-- A write at the cursor, a seek back and a read of as many bytes: both move what fits into the
    partition, the read gets what was written, and the rest of the image stays. -/
def DiskRoundTrip (os : Os) (fd : ℕ) (part : DiskPart) (o : W32) (buf : Buf) (len : W32) : Prop :=
  ∃ c currentOff os₁, romDiskWrite os fd part o buf len = (c, currentOff, os₁) ∧
    c.toNat = min len.toNat (part.length.toNat - o.toNat) ∧
    romDiskSeek part currentOff o = (.none, o) ∧
    ∀ into, ∃ cursor os₂, romDiskRead os₁ fd part o into len = (c, into.put 0 c.toNat buf, cursor, os₂) ∧
      cursor.toNat = o.toNat + c.toNat ∧
      ∀ x, ¬ (part.off.toNat + o.toNat ≤ x ∧ x < part.off.toNat + o.toNat + c.toNat) →
        (os₁.files fd).bytes x = (os.files fd).bytes x ∧ (os₂.files fd).bytes x = (os.files fd).bytes x

theorem toNat_room (len : W32) (inside : o ≤ part.length) :
    (DiskHandle.room ⟨part, o⟩ len).toNat = min len.toNat (part.length.toNat - o.toNat) := by
  rw [DiskHandle.room, toNat_minOf, BitVec.toNat_sub_of_le inside]

theorem position_low (part : DiskPart) (o : W32) (exact : part.off.toNat + o.toNat < 2^32) :
    (DiskHandle.position ⟨part, o⟩).toNat = part.off.toNat + o.toNat ∧
      ((DiskHandle.position ⟨part, o⟩).toInt < 0 ↔ 2^31 ≤ part.off.toNat + o.toNat) := by
  have sum : (DiskHandle.position ⟨part, o⟩).toNat = part.off.toNat + o.toNat := by
    rw [DiskHandle.position, BitVec.toNat_add]
    exact Nat.mod_eq_of_lt exact
  refine ⟨sum, ?_⟩
  rw [BitVec.toInt_eq_toNat_cond, sum]
  split <;> omega

theorem fullCount_small {n : W32} (small : n.toNat < 2^31) : fullCount n = n :=
  BitVec.eq_of_toNat_eq (moved_exact small)

theorem toNat_fullCount (n : W32) : (fullCount n).toNat < 2^31 := (countOf_int n le_rfl).2

theorem Buf.put_same (buf : Buf) (start n : ℕ) (src : Buf) :
    ∀ k < n, Buf.put buf start n src (start + k) = src k := by
  intro k inside
  rw [Buf.put, if_pos (by omega), Nat.add_sub_cancel_left]

theorem Buf.put_outside (buf : Buf) {start n x : ℕ} (src : Buf) (outside : ¬ (start ≤ x ∧ x < start + n)) :
    Buf.put buf start n src x = buf x := if_neg outside

theorem round_trip_low (fd : ℕ) (buf : Buf) (full : Full os) (inside : o ≤ part.length)
    (low : part.off.toNat + o.toNat < 2^31)
    (small : min len.toNat (part.length.toNat - o.toNat) < 2^31) : DiskRoundTrip os fd part o buf len := by
  have cursor := BitVec.le_def.mp inside
  obtain ⟨sum, sign⟩ := position_low part o (by omega)
  have positive : ¬ (DiskHandle.position ⟨part, o⟩).toInt < 0 := fun high => absurd (sign.mp high) (by omega)
  have room := toNat_room len inside
  have count : fullCount (DiskHandle.room ⟨part, o⟩ len) = DiskHandle.room ⟨part, o⟩ len :=
    fullCount_small (by omega)
  obtain ⟨os₁, written, full₁, _, bytes₁⟩ := romDiskWrite_full fd full positive buf len
  rw [count] at written
  rw [sum] at bytes₁
  refine ⟨_, _, os₁, written, room, if_neg (BitVec.not_lt.mpr inside), fun into => ?_⟩
  obtain ⟨os₂, fetched, _, _, bytes₂⟩ := romDiskRead_full fd full₁ positive into len
  rw [count, sum] at fetched
  have same : ∀ k < (DiskHandle.room ⟨part, o⟩ len).toNat,
      (os₁.files fd).bytes (part.off.toNat + o.toNat + k) = buf k := by
    rw [bytes₁]
    exact Buf.put_same _ _ _ _
  rw [Buf.put_congr same] at fetched
  refine ⟨_, os₂, fetched, ?_, fun x outside => ?_⟩
  · change (o + DiskHandle.room ⟨part, o⟩ len).toNat = _
    rw [BitVec.toNat_add]
    exact Nat.mod_eq_of_lt (by omega)
  · have kept : (os₁.files fd).bytes x = (os.files fd).bytes x := by
      rw [bytes₁]
      exact Buf.put_outside _ _ outside
    exact ⟨kept, by rw [bytes₂, kept]⟩

theorem round_trip_nothing (fd : ℕ) (buf : Buf) (full : Full os) (inside : o ≤ part.length)
    (fits : part.off.toNat + part.length.toNat < 2^32)
    (nothing : min len.toNat (part.length.toNat - o.toNat) = 0) : DiskRoundTrip os fd part o buf len := by
  by_cases low : part.off.toNat + o.toNat < 2^31
  · exact round_trip_low fd buf full inside low (by omega)
  have cursor := BitVec.le_def.mp inside
  have high := (position_low part o (by omega)).2.mpr (not_lt.mp low)
  obtain ⟨os₁, written, sought₁⟩ := romDiskWrite_refused fd full high buf len
  refine ⟨_, _, os₁, written, nothing.symm, if_neg (BitVec.not_lt.mpr inside), fun into => ?_⟩
  obtain ⟨os₂, fetched, sought₂⟩ := romDiskRead_refused fd sought₁.full high into len
  refine ⟨_, os₂, ?_, rfl, fun x _ => ?_⟩
  · rw [fetched]
    exact congrArg (fun b => (0, b, o, os₂)) (Buf.put_zero into 0 buf).symm
  · rw [sought₂.bytes, sought₁.bytes]
    exact ⟨rfl, rfl⟩

/-- Behind 2 GiB the seek is taken for a failure, and a count of 2 GiB or more for none. -/
theorem round_trip_counts {fd : ℕ} (full : Full os) (inside : o ≤ part.length)
    (fits : part.off.toNat + part.length.toNat < 2^32) (trip : DiskRoundTrip os fd part o buf len) :
    min len.toNat (part.length.toNat - o.toNat) = 0 ∨
      part.off.toNat + o.toNat < 2^31 ∧ min len.toNat (part.length.toNat - o.toNat) < 2^31 := by
  have cursor := BitVec.le_def.mp inside
  obtain ⟨c, currentOff, os₁, written, count, _⟩ := trip
  obtain ⟨_, sign⟩ := position_low part o (by omega)
  by_cases high : (DiskHandle.position ⟨part, o⟩).toInt < 0
  · obtain ⟨_, refused, _⟩ := romDiskWrite_refused fd full high buf len
    obtain ⟨rfl, _⟩ := Prod.mk.inj (written.symm.trans refused)
    exact .inl count.symm
  · obtain ⟨_, moved, _⟩ := romDiskWrite_full fd full high buf len
    obtain ⟨rfl, _⟩ := Prod.mk.inj (written.symm.trans moved)
    have small := toNat_fullCount (DiskHandle.room ⟨part, o⟩ len)
    rw [count] at small
    exact .inr ⟨not_le.mp fun above => high (sign.mpr above), small⟩

/-- What is written through a disk handle is read back just when nothing fits behind the cursor, or
    its place and its length are both below 2 GiB. -/
theorem disk_round_trip_iff (fd : ℕ) (buf : Buf) {image : ℕ} (full : Full os) (cursor : o ≤ part.length)
    (inside : part.off.toNat + part.length.toNat ≤ image) (small : image < 2^32) :
    DiskRoundTrip os fd part o buf len ↔
      min len.toNat (part.length.toNat - o.toNat) = 0 ∨
        part.off.toNat + o.toNat < 2^31 ∧ min len.toNat (part.length.toNat - o.toNat) < 2^31 := by
  have fits := inside.trans_lt small
  constructor
  · exact round_trip_counts full cursor fits
  · rintro (nothing | ⟨low, count⟩)
    · exact round_trip_nothing fd buf full cursor fits nothing
    · exact round_trip_low fd buf full cursor low count

def fullOs : Os := ⟨fun _ => ⟨0, fun _ => 0⟩, fun _ => 2^32, 0, [], ⟨0, fun _ => 0⟩, []⟩

theorem sector_round_trip : DiskRoundTrip fullOs 3 ⟨0x7e00, 0x400⟩ 0x100 (wordBytes 0x01020304) 0x200 :=
  (disk_round_trip_iff 3 _ (fun _ => le_refl _) (by decide) (le_refl _) (by decide)).mpr (.inr (by decide))

/-- A partition at 2 GiB cannot be written. -/
theorem high_partition_unwritten :
    ¬ ∀ (os : Os) (fd : ℕ) (part : DiskPart) (o len : W32) (buf : Buf) (image : ℕ), Full os → o ≤ part.length →
    part.off.toNat + part.length.toNat ≤ image → image < 2^32 → DiskRoundTrip os fd part o buf len := by
  intro always
  have full : Full fullOs := fun _ => le_refl _
  have trip := always fullOs 3 ⟨0x80000000, 0x400⟩ 0 0x200 (fun _ => 0) _ full (by decide) (le_refl _) (by decide)
  rcases round_trip_counts full (by decide) (by decide) trip with nothing | ⟨low, _⟩
  · exact absurd nothing (by decide)
  · exact absurd low (by decide)

end ToyHv
