import Mathlib.Tactic.IntervalCases
import ToyHv.Model.Emulate

namespace ToyHv

/-- The supervisor registers of the guest. The DBATs exist for reading only. -/
inductive SupReg
  | pvr | srr0 | srr1 | sdr1 | msr
  | ibat (i : Fin 8)
  | dbat (i : Fin 8)
  | sprg (i : Fin 4)
  | sr (i : Fin 16)
  deriving DecidableEq

def SupReg.ofSpr (spr : ℕ) : Option SupReg :=
  if spr = 25 then some .sdr1
  else if spr = 26 then some .srr0
  else if spr = 27 then some .srr1
  else if spr = 287 then some .pvr
  else if sprg : 272 ≤ spr ∧ spr ≤ 275 then some (.sprg ⟨spr - 272, by omega⟩)
  else if ibat : 528 ≤ spr ∧ spr ≤ 535 then some (.ibat ⟨spr - 528, by omega⟩)
  else if dbat : 536 ≤ spr ∧ spr ≤ 543 then some (.dbat ⟨spr - 536, by omega⟩)
  else none

def SupReg.writable : SupReg → Bool
  | .pvr | .dbat _ => false
  | _ => true

/-- What a supervisor instruction says, in the terms of the architecture. -/
inductive Insn
  | read (reg : SupReg) (d : Fin 32)
  | write (reg : SupReg) (s : Fin 32)
  | rfi
  | tlbie (b : Fin 32)
  deriving DecidableEq

def opcd (insn : W32) : BitVec 6 := insn.extractLsb' 26 6
def xo (insn : W32) : BitVec 10 := insn.extractLsb' 1 10
def fieldD (insn : W32) : Fin 32 := (insn.extractLsb' 21 5).toFin
def fieldB (insn : W32) : Fin 32 := (insn.extractLsb' 11 5).toFin
def fieldSr (insn : W32) : Fin 16 := (insn.extractLsb' 16 4).toFin
def fieldSpr (insn : W32) : BitVec 10 := insn.extractLsb' 11 5 ++ insn.extractLsb' 16 5

def decode (insn : W32) : Option Insn :=
  if opcd insn = 31#6 then
    if xo insn = 595#10 then some (.read (.sr (fieldSr insn)) (fieldD insn))
    else if xo insn = 210#10 then some (.write (.sr (fieldSr insn)) (fieldD insn))
    else if xo insn = 339#10 then (SupReg.ofSpr (fieldSpr insn).toNat).map (.read · (fieldD insn))
    else if xo insn = 467#10 then
      ((SupReg.ofSpr (fieldSpr insn).toNat).filter SupReg.writable).map (.write · (fieldD insn))
    else if xo insn = 83#10 then some (.read .msr (fieldD insn))
    else if xo insn = 146#10 then some (.write .msr (fieldD insn))
    else if xo insn = 306#10 then some (.tlbie (fieldB insn))
    else none
  else if opcd insn = 19#6 ∧ xo insn = 50#10 then some .rfi
  else none

example : decode 0x7c7a02a6 = some (.read .srr0 3) := by decide
example : decode 0x7cb143a6 = some (.write (.sprg 1) 5) := by decide

theorem masked_fields (insn : W32) :
    insn &&& (0xfc0007fe : W32) = ((opcd insn).setWidth 32 <<< 26) ||| ((xo insn).setWidth 32 <<< 1) := by
  apply BitVec.eq_of_getLsbD_eq
  intro i bound
  interval_cases i <;> simp [opcd, xo]

theorem masked_eq (insn code : W32) (whole : code &&& 0xfc0007fe = code) :
    insn &&& 0xfc0007fe = code ↔ opcd insn = opcd code ∧ xo insn = xo code := by
  constructor
  · intro same
    have high : opcd insn = opcd (insn &&& 0xfc0007fe) := by
      rw [opcd, opcd, BitVec.extractLsb'_and]
      exact (BitVec.and_allOnes (x := insn.extractLsb' 26 6)).symm
    have low : xo insn = xo (insn &&& 0xfc0007fe) := by
      rw [xo, xo, BitVec.extractLsb'_and]
      exact (BitVec.and_allOnes (x := insn.extractLsb' 1 10)).symm
    rw [high, low, same]
    exact ⟨rfl, rfl⟩
  · rintro ⟨high, low⟩
    rw [masked_fields, high, low, ← masked_fields, whole]

theorem toNat_ppcMaskOut (insn : W32) (a b : ℕ) (order : a ≤ b) (bound : b < 32) (short : b - a < 31) :
    (ppcMaskOut insn a b).toNat = insn.toNat / 2^(31 - b) % 2^(b - a + 1) := by
  have larger : max (31 - a) (31 - b) = 31 - a := by omega
  have smaller : min (31 - a) (31 - b) = 31 - b := by omega
  have width : 31 - a + 1 - (31 - b) = b - a + 1 := by omega
  have power : 2 ^ (b - a + 1) ≤ 2^31 := Nat.pow_le_pow_right (by decide) (by omega)
  have ones : (1#32 <<< (b - a + 1) - 1#32).toNat = 2 ^ (b - a + 1) - 1 := by
    have positive : 0 < 2 ^ (b - a + 1) := Nat.two_pow_pos _
    have shifted : (1#32 <<< (b - a + 1)).toNat = 2 ^ (b - a + 1) := by
      rw [BitVec.toNat_shiftLeft, Nat.shiftLeft_eq]
      simp only [BitVec.toNat_ofNat]
      omega
    rw [BitVec.toNat_sub_of_le (BitVec.le_def.mpr (by rw [shifted]; exact positive)), shifted]
    rfl
  rw [ppcMaskOut, larger, smaller, maskOutOrdered, width, BitVec.toNat_and, ones, BitVec.toNat_ushiftRight,
    Nat.shiftRight_eq_div_pow, Nat.and_two_pow_sub_one_eq_mod]

theorem gprField_d (insn : W32) : gprField insn 6 10 = fieldD insn := by
  apply Fin.ext
  simp only [gprField, fieldD, Fin.ofNat, BitVec.toFin_extractLsb', Nat.shiftRight_eq_div_pow]
  rw [toNat_ppcMaskOut insn 6 10 (by decide) (by decide) (by decide)]
  omega

theorem gprField_b (insn : W32) : gprField insn 16 20 = fieldB insn := by
  apply Fin.ext
  simp only [gprField, fieldB, Fin.ofNat, BitVec.toFin_extractLsb', Nat.shiftRight_eq_div_pow]
  rw [toNat_ppcMaskOut insn 16 20 (by decide) (by decide) (by decide)]
  omega

theorem srField_sr (insn : W32) : srField insn = fieldSr insn := by
  apply Fin.ext
  simp only [srField, fieldSr, Fin.ofNat, BitVec.toFin_extractLsb', Nat.shiftRight_eq_div_pow]
  rw [toNat_ppcMaskOut insn 12 15 (by decide) (by decide) (by decide)]
  omega

theorem sprField_spr (insn : W32) : sprField insn = (fieldSpr insn).toNat := by
  have halves : ppcMaskOut insn 11 20 = (insn.extractLsb' 11 10).setWidth 32 := by
    apply BitVec.eq_of_toNat_eq
    rw [toNat_ppcMaskOut insn 11 20 (by decide) (by decide) (by decide), BitVec.toNat_setWidth,
      BitVec.extractLsb'_toNat, Nat.shiftRight_eq_div_pow]
    omega
  have swapped : ((((insn.extractLsb' 11 10).setWidth 32 &&& 0x1f) <<< 5) |||
      (((insn.extractLsb' 11 10).setWidth 32 &&& 0x3e0) >>> 5) : W32) = (fieldSpr insn).setWidth 32 := by
    apply BitVec.eq_of_getLsbD_eq
    intro i bound
    rw [fieldSpr, BitVec.getLsbD_setWidth, BitVec.getLsbD_append]
    interval_cases i <;> simp
  simp only [sprField]
  rw [halves, swapped, BitVec.toNat_setWidth]
  omega

end ToyHv
