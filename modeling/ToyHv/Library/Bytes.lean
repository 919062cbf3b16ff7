import Mathlib.Data.BitVec
import Mathlib.Tactic.Ring
import Mathlib.Tactic.Positivity

namespace Library

/-- The number whose base-256 digits are the first `n` bytes, least significant first. -/
def lsbValue (bytes : ℕ → BitVec 8) : ℕ → ℕ
  | 0 => 0
  | n + 1 => lsbValue bytes n + (bytes n).toNat * 256^n

/-- The same with the most significant byte first. -/
def msbValue (bytes : ℕ → BitVec 8) (n : ℕ) : ℕ := lsbValue (fun i => bytes (n - 1 - i)) n

def digit (v i : ℕ) : BitVec 8 := BitVec.ofNat 8 (v / 256^i)

theorem lsbValue_lt (bytes : ℕ → BitVec 8) (n : ℕ) : lsbValue bytes n < 256^n := by
  induction n with
  | zero => exact Nat.one_pos
  | succ n ih =>
    have bound := (bytes n).isLt
    have top : (bytes n).toNat * 256^n ≤ 255 * 256^n := Nat.mul_le_mul_right _ (by omega)
    rw [lsbValue, Nat.pow_succ]
    omega

theorem digit_lsbValue (bytes : ℕ → BitVec 8) (n i : ℕ) (bound : i < n) :
    digit (lsbValue bytes n) i = bytes i := by
  induction n with
  | zero => omega
  | succ n ih =>
    apply BitVec.eq_of_toNat_eq
    have small := lsbValue_lt bytes n
    rcases Nat.lt_succ_iff_lt_or_eq.mp bound with lower | rfl
    · have same := congrArg BitVec.toNat (ih lower)
      obtain ⟨d, rfl⟩ := Nat.exists_eq_add_of_lt lower
      have factor : (bytes (i + d + 1)).toNat * 256^(i + d + 1) =
          256^i * (256 * ((bytes (i + d + 1)).toNat * 256^d)) := by ring
      rw [digit, BitVec.toNat_ofNat] at same ⊢
      rw [lsbValue, factor, Nat.add_mul_div_left _ _ (by positivity), ← same]
      omega
    · rw [digit, lsbValue, Nat.add_mul_div_right _ _ (by positivity), Nat.div_eq_of_lt small,
        BitVec.toNat_ofNat]
      have := (bytes i).isLt
      omega

theorem digit_msbValue (bytes : ℕ → BitVec 8) (n i : ℕ) (bound : i < n) :
    digit (msbValue bytes n) i = bytes (n - 1 - i) := digit_lsbValue _ n i bound

/-- A plain byte-addressed memory. -/
abbrev FlatMemory (w : ℕ) := BitVec w → BitVec 8

variable {w : ℕ}

/-- Store a number as `size` bytes from an address on, least significant byte first. -/
def FlatMemory.store (mem : FlatMemory w) (a : BitVec w) (size v : ℕ) : FlatMemory w :=
  fun x => if (x - a).toNat < size then digit v (x - a).toNat else mem x

def FlatMemory.load (mem : FlatMemory w) (a : BitVec w) (size : ℕ) : ℕ :=
  lsbValue (fun i => mem (a + BitVec.ofNat w i)) size

theorem FlatMemory.digit_load (mem : FlatMemory w) (a : BitVec w) (size i : ℕ) (bound : i < size) :
    digit (mem.load a size) i = mem (a + BitVec.ofNat w i) := digit_lsbValue _ size i bound

end Library
