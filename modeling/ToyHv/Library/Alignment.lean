import Mathlib.Data.BitVec

namespace Library

variable {w : ℕ}

theorem toNat_and_add_and_not (x m : BitVec w) : (x &&& m).toNat + (x &&& ~~~m).toNat = x.toNat := by
  have disjoint : (x &&& m) &&& (x &&& ~~~m) = 0#w := by
    ext i hi
    simp only [BitVec.getElem_and, BitVec.getElem_not, BitVec.getElem_zero]
    cases x[i] <;> cases m[i] <;> rfl
  have whole : (x &&& m) ||| (x &&& ~~~m) = x := by
    ext i hi
    simp only [BitVec.getElem_or, BitVec.getElem_and, BitVec.getElem_not]
    cases x[i] <;> cases m[i] <;> rfl
  rw [← BitVec.toNat_add_of_and_eq_zero disjoint, BitVec.add_eq_or_of_and_eq_zero _ _ disjoint, whole]

theorem le_roundUp (x m : BitVec w) (exact : x.toNat + m.toNat < 2^w) :
    x.toNat ≤ ((x + m) &&& ~~~m).toNat := by
  have split := toNat_and_add_and_not (x + m) m
  have low : ((x + m) &&& m).toNat ≤ m.toNat := by
    rw [BitVec.toNat_and]
    exact Nat.and_le_right
  rw [BitVec.toNat_add, Nat.mod_eq_of_lt exact] at split
  omega

/-- Rounding up past the end of the word lands below. -/
theorem roundUp_lt (x m : BitVec w) (wraps : 2^w ≤ x.toNat + m.toNat) : ((x + m) &&& ~~~m).toNat < x.toNat := by
  have small := m.isLt
  have start := x.isLt
  have low : ((x + m) &&& ~~~m).toNat ≤ (x + m).toNat := by
    rw [BitVec.toNat_and]
    exact Nat.and_le_left
  rw [BitVec.toNat_add, Nat.mod_eq_sub_mod wraps, Nat.mod_eq_of_lt (by omega)] at low
  omega

theorem toNat_and_low (x : BitVec w) {k : ℕ} (fits : k ≤ w) :
    (x &&& BitVec.ofNat w (2^k - 1)).toNat = x.toNat % 2^k := by
  have bound : 2^k - 1 < 2^w := lt_of_lt_of_le (Nat.sub_one_lt (by simp)) (Nat.pow_le_pow_right (by decide) fits)
  rw [BitVec.toNat_and, BitVec.toNat_ofNat, Nat.mod_eq_of_lt bound, Nat.and_two_pow_sub_one_eq_mod]

theorem toNat_and_not_low (x : BitVec w) {k : ℕ} (fits : k ≤ w) :
    (x &&& ~~~BitVec.ofNat w (2^k - 1)).toNat = x.toNat - x.toNat % 2^k := by
  have split := toNat_and_add_and_not x (BitVec.ofNat w (2^k - 1))
  rw [toNat_and_low x fits] at split
  omega

end Library
