import ToyHv.Library.Bytes
import ToyHv.Library.Munging
import ToyHv.Model.Pmem

namespace ToyHv

open Library

/-- Guest RAM as a little-endian guest sees it: every byte at its own munged address. -/
def flatView (p : Pmem) (host : Host) : FlatMemory 32 := fun x => host (p.pmem + (x ^^^ 7))

theorem zero_base_aligned : (0 : W32).toNat % 8 = 0 := by decide

/-- Stores of `n` elements into a plain little-endian memory. The value of an element is
    the one the big-endian host reads from the source. -/
def flatTo (dest : W32) (src : Buf) (size i : ℕ) (mem : FlatMemory 32) : ℕ → FlatMemory 32
  | 0 => mem
  | n + 1 =>
    let v := msbValue (fun k => src (i + k)) size
    flatTo dest src size (i + size) (mem.store (dest + BitVec.ofNat 32 i) size v) n

/-- Loads of `n` elements from a plain little-endian memory into a big-endian host buffer.
    A string transfer stops at the offset of a zero byte. -/
def flatFrom (mem : FlatMemory 32) (src : W32) (size : ℕ) (nulTerm : Bool) (d i : ℕ) (buf : Buf) :
    ℕ → Option ℕ × Buf
  | 0 => (none, buf)
  | n + 1 =>
    let v := mem.load (src + BitVec.ofNat 32 i) size
    let buf := buf.put (d + i) size fun k => digit v (size - 1 - k)
    if nulTerm ∧ size = 1 ∧ v = 0 then (some i, buf)
    else flatFrom mem src size nulTerm d (i + size) buf n

def AccessSize (accessSize : W32) : Prop := accessSize = 1 ∨ accessSize = 2 ∨ accessSize = 4

/-- What the loops flip in the address of an element. -/
def munge (accessSize : W32) : W32 := 8 - accessSize

theorem AccessSize.munged {s : W32} (h : AccessSize s) : Munged s.toNat (munge s) := by
  rcases h with rfl | rfl | rfl
  · exact .byte
  · exact .half
  · exact .word

theorem AccessSize.pos {s : W32} (h : AccessSize s) : 0 < s.toNat := by
  rcases h with rfl | rfl | rfl <;> decide

theorem AccessSize.dvd {s : W32} (h : AccessSize s) : s.toNat ∣ 8 := by
  rcases h with rfl | rfl | rfl <;> decide

theorem Buf.put_congr {buf : Buf} {offset n : ℕ} {f g : Buf} (same : ∀ k < n, f k = g k) :
    buf.put offset n f = buf.put offset n g := by
  funext i
  unfold Buf.put
  split
  · rename_i inside
    exact same _ (by omega)
  · rfl

variable (p : Pmem)

theorem Pmem.host_aligned {s : W32} (h : AccessSize s) {a : W32} (aligned : a.toNat % s.toNat = 0) :
    (p.pmem + a).toNat % s.toNat = 0 := by
  have dvd : s.toNat ∣ p.pmem.toNat := h.dvd.trans (Nat.dvd_of_mod_eq_zero p.base_aligned)
  rw [BitVec.toNat_add, Nat.mod_mod_of_dvd _ (h.dvd.trans (by decide)), Nat.add_mod,
    Nat.mod_eq_zero_of_dvd dvd, aligned]
  rfl

/-- An element stored at its munged address is, in the view, stored least significant byte first. -/
theorem flatView_put (host : Host) {s : W32} (h : AccessSize s) {a : W32}
    (aligned : a.toNat % s.toNat = 0) (src : Buf) :
    flatView p (host.put ((p.pmem + a) ^^^ munge s) s.toNat src) =
      (flatView p host).store a s.toNat (msbValue src s.toNat) := by
  funext x
  obtain ⟨touched, offset⟩ := h.munged.sub (p.pmem + x) (p.pmem + a) (p.host_aligned h aligned)
  have shift : p.pmem + x - (p.pmem + a) = x - a := by bv_omega
  rw [shift, xor_seven_add _ _ p.base_aligned] at touched offset
  simp only [flatView, Host.put, FlatMemory.store, touched]
  split
  · rename_i inside
    rw [offset inside, digit_msbValue _ _ _ inside]
  · rfl

theorem host_munged (host : Host) {s : W32} (h : AccessSize s) {a : W32}
    (aligned : a.toNat % s.toNat = 0) {k : ℕ} (bound : k < s.toNat) :
    host (((p.pmem + a) ^^^ munge s) + BitVec.ofNat 32 k) =
      digit ((flatView p host).load a s.toNat) (s.toNat - 1 - k) := by
  rw [FlatMemory.digit_load _ _ _ _ (by omega), h.munged.add _ (p.host_aligned h aligned) _ bound,
    BitVec.add_assoc, xor_seven_add _ _ p.base_aligned]
  rfl

theorem element_aligned {s : W32} (h : AccessSize s) {a : W32} {i : ℕ} (aligned : a.toNat % s.toNat = 0)
    (offset : i % s.toNat = 0) : (a + BitVec.ofNat 32 i).toNat % s.toNat = 0 := by
  have dvd : s.toNat ∣ 2^32 := h.dvd.trans (by decide)
  rw [BitVec.toNat_add, BitVec.toNat_ofNat, Nat.mod_mod_of_dvd _ dvd, Nat.add_mod,
    Nat.mod_mod_of_dvd _ dvd, aligned, offset]
  rfl

/-- The three branches of the loops are one: the size decides what is flipped. -/
theorem pmemToLoop_succ {s : W32} (h : AccessSize s) (d : W32) (src : Buf) (i : ℕ) (host : Host) (n : ℕ) :
    pmemToLoop d src s i host (n + 1) = pmemToLoop d src s (i + s.toNat)
      (host.put ((d + BitVec.ofNat 32 i) ^^^ munge s) s.toNat fun k => src (i + k)) n := by
  rcases h with rfl | rfl | rfl <;> rfl

theorem pmemFromLoop_succ {s : W32} (h : AccessSize s) (a : W32) (host : Host) (nulTerm : Bool) (d i : ℕ)
    (buf : Buf) (n : ℕ) :
    pmemFromLoop a host s nulTerm d i buf (n + 1) =
      let copied := buf.put (d + i) s.toNat fun k =>
        host (((a + BitVec.ofNat 32 i) ^^^ munge s) + BitVec.ofNat 32 k)
      if nulTerm ∧ s = 1 ∧ host ((a + BitVec.ofNat 32 i) ^^^ 7) = 0 then (some i, copied)
      else pmemFromLoop a host s nulTerm d (i + s.toNat) copied n := by
  rcases h with rfl | rfl | rfl
  · have byte : (buf.put (d + i) 1 fun _ => host ((a + BitVec.ofNat 32 i) ^^^ 7)) =
        buf.put (d + i) 1 fun k => host (((a + BitVec.ofNat 32 i) ^^^ 7) + BitVec.ofNat 32 k) := by
      refine Buf.put_congr fun k bound => ?_
      obtain rfl : k = 0 := by omega
      simp
    simp only [pmemFromLoop, munge, if_true, byte, true_and]
    rfl
  · have notByte : (2 : W32) ≠ 1 := by decide
    simp only [pmemFromLoop, notByte, false_and, and_false, if_false, if_true]
    rfl
  · have notByte : (4 : W32) ≠ 1 := by decide
    have notHalf : (4 : W32) ≠ 2 := by decide
    simp only [pmemFromLoop, notByte, notHalf, false_and, and_false, if_false, if_true]
    rfl

/-- The store loop keeps the view in step with a plain little-endian memory. -/
theorem flatView_pmemToLoop {s : W32} (h : AccessSize s) {dest : W32} (aligned : dest.toNat % s.toNat = 0)
    (src : Buf) (host : Host) (n i : ℕ) (offset : i % s.toNat = 0) :
    flatView p (pmemToLoop (p.pmem + dest) src s i host n) =
      flatTo dest src s.toNat i (flatView p host) n := by
  induction n generalizing host i with
  | zero => rfl
  | succ n ih =>
    rw [pmemToLoop_succ h, ih _ (i + s.toNat) (by rw [Nat.add_mod_right]; exact offset), BitVec.add_assoc,
      flatView_put p host h (element_aligned h aligned offset)]
    rfl

theorem flatTo_frame (dest : W32) (src : Buf) (size n i : ℕ) (mem : FlatMemory 32) {x : W32}
    (outside : ∀ j, i ≤ j → j < i + size * n → x ≠ dest + BitVec.ofNat 32 j) :
    flatTo dest src size i mem n x = mem x := by
  induction n generalizing i mem with
  | zero => rfl
  | succ n ih =>
    have whole : size * (n + 1) = size * n + size := Nat.mul_succ size n
    rw [flatTo, ih (i + size) _ fun j low high => outside j (by omega) (by omega)]
    refine if_neg fun inside => outside (i + (x - (dest + BitVec.ofNat 32 i)).toNat) (by omega) (by omega) ?_
    rw [BitVec.ofNat_add, BitVec.ofNat_toNat, BitVec.setWidth_eq]
    bv_omega

theorem pmemFromLoop_flat {s : W32} (h : AccessSize s) {src : W32} (aligned : src.toNat % s.toNat = 0)
    (host : Host) (nulTerm : Bool) (d n i : ℕ) (buf : Buf) (offset : i % s.toNat = 0) :
    pmemFromLoop (p.pmem + src) host s nulTerm d i buf n =
      flatFrom (flatView p host) src s.toNat nulTerm d i buf n := by
  induction n generalizing buf i with
  | zero => rfl
  | succ n ih =>
    have element := element_aligned h aligned offset
    have copied : (buf.put (d + i) s.toNat fun k =>
        host (((p.pmem + (src + BitVec.ofNat 32 i)) ^^^ munge s) + BitVec.ofNat 32 k)) =
        buf.put (d + i) s.toNat fun k =>
          digit ((flatView p host).load (src + BitVec.ofNat 32 i) s.toNat) (s.toNat - 1 - k) :=
      Buf.put_congr fun k bound => host_munged p host h element bound
    have size : s = 1 ↔ s.toNat = 1 := by
      rw [← BitVec.toNat_inj]
      rfl
    have value : s = 1 → (host ((p.pmem + (src + BitVec.ofNat 32 i)) ^^^ 7) = 0 ↔
        (flatView p host).load (src + BitVec.ofNat 32 i) s.toNat = 0) := by
      rintro rfl
      rw [xor_seven_add _ _ p.base_aligned]
      change _ ↔ 0 + (flatView p host (src + BitVec.ofNat 32 i + BitVec.ofNat 32 0)).toNat * 1 = 0
      rw [BitVec.add_zero, ← BitVec.toNat_inj]
      simp [flatView]
    have stop : (nulTerm = true ∧ s = 1 ∧ host ((p.pmem + (src + BitVec.ofNat 32 i)) ^^^ 7) = 0) ↔
        (nulTerm = true ∧ s.toNat = 1 ∧ (flatView p host).load (src + BitVec.ofNat 32 i) s.toNat = 0) := by
      rw [← size]
      exact and_congr_right fun _ => and_congr_right value
    rw [pmemFromLoop_succ h, flatFrom, BitVec.add_assoc]
    simp only [copied, stop]
    rw [ih (i + s.toNat) _ (by rw [Nat.add_mod_right]; exact offset)]

end ToyHv
