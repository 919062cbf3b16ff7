import ToyHv.Memory.Transfers

namespace ToyHv
open Library

def guestView (little : Bool) (p : Pmem) (host : Host) : W32 → W8 :=
  fun x => host (p.pmem + if little then x ^^^ 7 else x)

/-- Which byte of a host buffer is the guest's byte `i`: elements keep their place and a
    little-endian guest has the bytes of each in the opposite order. -/
def lane (little : Bool) (size i : ℕ) : ℕ := if little then i / size * size + (size - 1 - i % size) else i

theorem lane_lane (little : Bool) {size : ℕ} (pos : 0 < size) (i : ℕ) :
    lane little size (lane little size i) = i := by
  cases little with
  | false => rfl
  | true =>
    have low := Nat.mod_lt i pos
    have whole := Nat.div_add_mod' i size
    have quotient : (i / size * size + (size - 1 - i % size)) / size = i / size := by
      rw [Nat.add_comm, Nat.add_mul_div_right _ _ pos, Nat.div_eq_of_lt (by omega), Nat.zero_add]
    have remainder : (i / size * size + (size - 1 - i % size)) % size = size - 1 - i % size := by
      rw [Nat.add_comm, Nat.add_mul_mod_self_right, Nat.mod_eq_of_lt (by omega)]
    simp only [lane, if_true, quotient, remainder]
    omega

theorem lane_lt (little : Bool) {size n i : ℕ} (pos : 0 < size) (whole : n % size = 0) (bound : i < n) :
    lane little size i < n := by
  cases little with
  | false => exact bound
  | true =>
    obtain ⟨k, rfl⟩ := Nat.dvd_of_mod_eq_zero whole
    have low := Nat.mod_lt i pos
    have element : i / size < k := Nat.div_lt_of_lt_mul bound
    have room : (i / size + 1) * size ≤ size * k := by
      rw [Nat.mul_comm size k]
      exact Nat.mul_le_mul_right size element
    simp only [lane, if_true]
    rw [Nat.add_mul] at room
    omega

theorem lane_add (little : Bool) {size c : ℕ} (pos : 0 < size) (whole : c % size = 0) (i : ℕ) :
    lane little size (c + i) = c + lane little size i := by
  cases little with
  | false => rfl
  | true =>
    obtain ⟨k, rfl⟩ := Nat.dvd_of_mod_eq_zero whole
    have quotient : (size * k + i) / size = k + i / size := Nat.mul_add_div pos k i
    have remainder : (size * k + i) % size = i % size := Nat.mul_add_mod size k i
    simp only [lane, if_true, quotient, remainder]
    rw [Nat.add_mul, Nat.mul_comm k size]
    omega

@[simp] theorem lane_one (little : Bool) (i : ℕ) : lane little 1 i = i := by
  cases little <;> simp [lane, Nat.mod_one]

theorem flatTo_apply (dest : W32) (src : Buf) {size : ℕ} (pos : 0 < size) (mem : FlatMemory 32) (n i : ℕ)
    (whole : i % size = 0) (room : i + n * size ≤ 2^32) (x : W32) :
    flatTo dest src size i mem n x =
      if i ≤ (x - dest).toNat ∧ (x - dest).toNat < i + n * size then src (lane true size (x - dest).toNat)
      else mem x := by
  induction n generalizing mem i with
  | zero =>
    have none : ¬ (i ≤ (x - dest).toNat ∧ (x - dest).toNat < i + 0 * size) := by omega
    rw [flatTo, if_neg none]
  | succ n ih =>
    rw [Nat.add_mul] at room
    rw [flatTo, ih _ (i + size) (by rw [Nat.add_mod_right]; exact whole) (by omega), Nat.add_mul]
    have offset : (x - (dest + BitVec.ofNat 32 i)).toNat = ((x - dest).toNat + (2^32 - i)) % 2^32 := by
      rw [← BitVec.sub_sub, BitVec.toNat_sub, BitVec.toNat_ofNat]
      omega
    have small := (x - dest).isLt
    by_cases here : i ≤ (x - dest).toNat ∧ (x - dest).toNat < i + size
    · have later : ¬ (i + size ≤ (x - dest).toNat ∧ (x - dest).toNat < i + size + n * size) := by omega
      have inside : i ≤ (x - dest).toNat ∧ (x - dest).toNat < i + (n * size + 1 * size) := by omega
      have within : (x - (dest + BitVec.ofNat 32 i)).toNat = (x - dest).toNat - i := by omega
      have element : lane true size (x - dest).toNat = i + (size - 1 - ((x - dest).toNat - i)) := by
        have apart : (x - dest).toNat = i + ((x - dest).toNat - i) := by omega
        rw [apart, lane_add true pos whole, lane, if_pos rfl, Nat.div_eq_of_lt (by omega),
          Nat.mod_eq_of_lt (by omega)]
        omega
      rw [if_neg later, if_pos inside, FlatMemory.store, within, if_pos (by omega),
        digit_msbValue _ _ _ (by omega), element]
    · have outside : ¬ (x - (dest + BitVec.ofNat 32 i)).toNat < size := by omega
      rw [FlatMemory.store, if_neg outside]
      congr 1
      apply propext
      omega

theorem flatFrom_apply (mem : FlatMemory 32) (src : W32) {size : ℕ} (pos : 0 < size) (d n i : ℕ) (buf : Buf)
    (whole : i % size = 0) :
    flatFrom mem src size false d i buf n =
      (none, buf.put (d + i) (n * size) fun k => mem (src + BitVec.ofNat 32 (lane true size (i + k)))) := by
  induction n generalizing buf i with
  | zero =>
    rw [flatFrom, Nat.zero_mul, Buf.put_zero]
  | succ n ih =>
    simp only [flatFrom, Bool.false_eq_true, false_and, if_false]
    rw [ih (i + size) _ (by rw [Nat.add_mod_right]; exact whole)]
    refine congrArg (Prod.mk none) ?_
    funext j
    simp only [Buf.put, Nat.add_mul]
    by_cases here : d + i ≤ j ∧ j < d + i + size
    · have later : ¬ (d + (i + size) ≤ j ∧ j < d + (i + size) + n * size) := by omega
      have inside : d + i ≤ j ∧ j < d + i + (n * size + 1 * size) := by omega
      rw [if_neg later, if_pos here, if_pos inside, FlatMemory.digit_load _ _ _ _ (by omega),
        lane_add true pos whole, lane, if_pos rfl, Nat.div_eq_of_lt (by omega), Nat.mod_eq_of_lt (by omega),
        BitVec.add_assoc, ← BitVec.ofNat_add]
      congr 3
      omega
    · rw [if_neg here]
      by_cases later : d + (i + size) ≤ j ∧ j < d + (i + size) + n * size
      · have inside : d + i ≤ j ∧ j < d + i + (n * size + 1 * size) := by omega
        have shift : i + size + (j - (d + (i + size))) = i + (j - (d + i)) := by omega
        rw [if_pos later, if_pos inside, shift]
      · have outside : ¬ (d + i ≤ j ∧ j < d + i + (n * size + 1 * size)) := by omega
        rw [if_neg later, if_neg outside]

variable {p : Pmem} {host : Host} {dest src bytes s : W32} {data buf : Buf}

theorem InRam.elements (h : InRam p dest bytes s) : (bytes / s).toNat * s.toNat = bytes.toNat := by
  rw [BitVec.toNat_udiv]
  exact Nat.div_mul_cancel (Nat.dvd_of_mod_eq_zero h.whole)

theorem pmemTo_zero (little : Bool) (size : AccessSize s) :
    pmemTo little p host dest data 0 s = .ok (0, host) := by
  by_cases outside : dest ≥ p.pmemBytes
  · exact if_pos outside
  · have inside : InRam p dest 0 s := by
      refine ⟨size, Nat.zero_mod _, ?_⟩
      have below := BitVec.lt_def.mp (BitVec.not_le.mp outside)
      exact Nat.le_of_lt below
    cases little with
    | false => rw [pmemTo_big inside]; exact congrArg (fun x => Except.ok (0, x)) (host.put_zero _ _)
    | true => rw [pmemTo_little inside]; simp [pmemToLoop]

theorem pmemFromEx_zero (little : Bool) {d : ℕ} (size : AccessSize s) :
    pmemFromEx little p host buf d src 0 s 0 = .ok (0, buf) := by
  by_cases outside : src ≥ p.pmemBytes
  · exact if_pos outside
  · have inside : InRam p src 0 s := by
      refine ⟨size, Nat.zero_mod _, ?_⟩
      have below := BitVec.lt_def.mp (BitVec.not_le.mp outside)
      exact Nat.le_of_lt below
    cases little with
    | false => rw [pmemFromEx_big inside]; exact congrArg (fun x => Except.ok (0, x)) (buf.put_zero _ _)
    | true => rw [pmemFromEx_little inside (by decide)]; simp [pmemFromLoop, loopResult]

theorem flatView_eq (p : Pmem) (host : Host) : flatView p host = guestView true p host := rfl

theorem pmemTo_view (little : Bool) (host : Host) (data : Buf) (h : InRam p dest bytes s)
    (aligned : dest.toNat % s.toNat = 0) :
    ∃ host', pmemTo little p host dest data bytes s = .ok (bytes, host') ∧
      ∀ x, guestView little p host' x =
        if (x - dest).toNat < bytes.toNat then data (lane little s.toNat (x - dest).toNat)
        else guestView little p host x := by
  cases little with
  | false =>
    refine ⟨_, pmemTo_big h, fun x => ?_⟩
    have shift : p.pmem + x - (p.pmem + dest) = x - dest := by bv_omega
    simp only [guestView, Bool.false_eq_true, if_false, Host.put, shift, lane]
  | true =>
    refine ⟨_, pmemTo_little h, fun x => ?_⟩
    have small := bytes.isLt
    rw [← flatView_eq, flatView_pmemToLoop p h.size aligned data host _ 0 (Nat.zero_mod _),
      flatTo_apply dest data h.size.pos _ _ 0 (Nat.zero_mod _) (by rw [h.elements]; omega), h.elements]
    simp only [Nat.zero_le, true_and, Nat.zero_add]
    rfl

theorem pmemFromEx_view (little : Bool) (host : Host) (buf : Buf) (d : ℕ) (h : InRam p src bytes s)
    (aligned : src.toNat % s.toNat = 0) :
    pmemFromEx little p host buf d src bytes s 0 =
      .ok (bytes, buf.put d bytes.toNat fun k =>
        guestView little p host (src + BitVec.ofNat 32 (lane little s.toNat k))) := by
  cases little with
  | false =>
    rw [pmemFromEx_big h]
    simp only [guestView, Bool.false_eq_true, if_false, lane, BitVec.add_assoc]
  | true =>
    have plain : decide ((0 : W32) &&& PMEM_FROM_NUL_TERM ≠ 0) = false := by decide
    rw [pmemFromEx_little h (by decide), plain, pmemFromLoop_flat p h.size aligned _ _ _ _ _ _ (Nat.zero_mod _),
      flatFrom_apply _ _ h.size.pos _ _ _ _ (Nat.zero_mod _), h.elements, loopResult]
    simp only [Nat.zero_add, Nat.add_zero]
    rfl

end ToyHv
