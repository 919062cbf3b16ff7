import Mathlib.Data.BitVec

namespace Library

theorem xor_below (k x m : ℕ) (h : m < 2^k) : x ^^^ m = 2^k * (x / 2^k) + (x % 2^k ^^^ m) := by
  have high : (x ^^^ m) / 2^k = x / 2^k := by
    rw [Nat.xor_div_two_pow, Nat.div_eq_of_lt h, Nat.xor_zero]
  have low : (x ^^^ m) % 2^k = x % 2^k ^^^ m := by
    rw [Nat.xor_mod_two_pow, Nat.mod_eq_of_lt h]
  rw [← high, ← low, Nat.div_add_mod]

theorem toNat_xor_low (x flip : BitVec 32) (low : flip.toNat < 8) :
    (x ^^^ flip).toNat = 8 * (x.toNat / 8) + (x.toNat % 8 ^^^ flip.toNat) := by
  rw [BitVec.toNat_xor]
  exact xor_below 3 x.toNat flip.toNat low

theorem toNat_xor_flip (x flip : BitVec 32) (low : flip.toNat < 8)
    (mirrored : (x.toNat % 8 ^^^ flip.toNat) + x.toNat % 8 = flip.toNat) :
    (x ^^^ flip).toNat + 2 * (x.toNat % 8) = x.toNat + flip.toNat := by
  have split := toNat_xor_low x flip low
  omega

theorem xor_seven (x : BitVec 32) : (x ^^^ 7).toNat + 2 * (x.toNat % 8) = x.toNat + 7 := by
  have flip : ∀ r < 8, (r ^^^ 7) + r = 7 := by decide
  apply toNat_xor_flip x 7 (by decide)
  exact flip _ (Nat.mod_lt _ (by decide))

theorem xor_six (x : BitVec 32) (even : x.toNat % 2 = 0) :
    (x ^^^ 6).toNat + 2 * (x.toNat % 8) = x.toNat + 6 := by
  have flip : ∀ r < 8, r % 2 = 0 → (r ^^^ 6) + r = 6 := by decide
  apply toNat_xor_flip x 6 (by decide)
  exact flip _ (Nat.mod_lt _ (by decide)) (by omega)

theorem xor_four (x : BitVec 32) (word : x.toNat % 4 = 0) :
    (x ^^^ 4).toNat + 2 * (x.toNat % 8) = x.toNat + 4 := by
  have flip : ∀ r < 8, r % 4 = 0 → (r ^^^ 4) + r = 4 := by decide
  apply toNat_xor_flip x 4 (by decide)
  exact flip _ (Nat.mod_lt _ (by decide)) (by omega)

/-- The access sizes a munged processor uses, with what each flips in an address. -/
inductive Munged : ℕ → BitVec 32 → Prop
  | byte : Munged 1 7
  | half : Munged 2 6
  | word : Munged 4 4

/-- A munged access of an aligned element touches the bytes whose own munged addresses
    are the element's, in the opposite order. -/
theorem Munged.sub {size : ℕ} {flip : BitVec 32} (h : Munged size flip) (y b : BitVec 32)
    (aligned : b.toNat % size = 0) :
    (((y ^^^ 7) - (b ^^^ flip)).toNat < size ↔ (y - b).toNat < size) ∧
    ((y - b).toNat < size → ((y ^^^ 7) - (b ^^^ flip)).toNat = size - 1 - (y - b).toNat) := by
  have hy := xor_seven y
  simp only [BitVec.toNat_sub]
  cases h with
  | byte =>
    have hb := xor_seven b
    omega
  | half =>
    have hb := xor_six b aligned
    omega
  | word =>
    have hb := xor_four b aligned
    omega

theorem Munged.add {size : ℕ} {flip : BitVec 32} (h : Munged size flip) (b : BitVec 32)
    (aligned : b.toNat % size = 0) (k : ℕ) (bound : k < size) :
    (b ^^^ flip) + BitVec.ofNat 32 k = (b + BitVec.ofNat 32 (size - 1 - k)) ^^^ 7 := by
  apply BitVec.eq_of_toNat_eq
  have hy := xor_seven (b + BitVec.ofNat 32 (size - 1 - k))
  simp only [BitVec.toNat_add, BitVec.toNat_ofNat] at hy ⊢
  cases h with
  | byte =>
    have hb := xor_seven b
    omega
  | half =>
    have hb := xor_six b aligned
    omega
  | word =>
    have hb := xor_four b aligned
    omega

/-- A flip of the low bits does not see an aligned base. -/
theorem xor_add_low (b x flip : BitVec 32) (aligned : b.toNat % 8 = 0) (low : flip.toNat < 8) :
    (b + x) ^^^ flip = b + (x ^^^ flip) := by
  apply BitVec.eq_of_toNat_eq
  have hs := toNat_xor_low (b + x) flip low
  have hx := toNat_xor_low x flip low
  have same : (b + x).toNat % 8 = x.toNat % 8 := by
    rw [BitVec.toNat_add]
    omega
  rw [same] at hs
  have within : x.toNat % 8 ^^^ flip.toNat < 2^3 := Nat.xor_lt_two_pow (by omega) low
  rw [BitVec.toNat_add] at *
  omega

theorem xor_seven_add (b x : BitVec 32) (aligned : b.toNat % 8 = 0) : (b + x) ^^^ 7 = b + (x ^^^ 7) :=
  xor_add_low b x 7 aligned (by decide)

end Library
