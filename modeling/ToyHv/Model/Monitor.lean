import ToyHv.Model.Emulate

namespace ToyHv

/-- The value of a digit to `picolIsInt`, which lowers capitals first. -/
def picolDigit (c : Char) : Option ℕ :=
  if '0' ≤ c ∧ c ≤ '9' then some (c.toNat - '0'.toNat)
  else if 'a' ≤ c ∧ c ≤ 'z' then some (c.toNat - 'a'.toNat + 10)
  else if 'A' ≤ c ∧ c ≤ 'Z' then some (c.toNat - 'A'.toNat + 10)
  else none

def picolBase : List Char → ℕ
  | '0' :: b :: _ =>
    if b = 'b' ∨ b = 'B' then 2 else if b = 'o' ∨ b = 'O' then 8 else if b = 'x' ∨ b = 'X' then 16 else 10
  | _ => 10

def picolUnsigned : List Char → List Char
  | '-' :: str => str
  | str => str

/-- `picolIsInt`: the base of the number, or 0. -/
def picolIsInt (str : List Char) : ℕ :=
  let cp := picolUnsigned str
  let base := picolBase cp
  let digits := if base ≠ 10 then cp.drop 2 else cp
  if cp ≠ [] ∧ digits.all (fun c => (picolDigit c).any (· < base)) then base else 0

/-- `picolScanInt`. A long has 32 bits, so `strtol` stops at the largest. -/
def picolScanInt (str : List Char) (base : ℕ) : W32 :=
  let cp := picolUnsigned str
  let digits := if base = 10 then cp else cp.drop 2
  let value := digits.foldl (fun value c => value * base + (picolDigit c).getD 0) 0
  let magnitude := min value (2^31 - 1)
  if str.head? = some '-' then - BitVec.ofNat 32 magnitude else BitVec.ofNat 32 magnitude

def picolScan (str : List Char) : Option W32 :=
  if 0 < picolIsInt str then some (picolScanInt str (picolIsInt str)) else none

/-- What `picol_reg` has a pointer to. -/
inductive RegSlot
  | ctr | xer | cr | fpscr | pc | lr | msr | sdr1
  | gpr (i : Fin 32)
  deriving DecidableEq

def RegSlot.get (m : Machine) : RegSlot → W32
  | .ctr => m.regs.ppcCTR
  | .xer => m.regs.ppcXER
  | .cr => m.regs.ppcCR
  | .fpscr => ((m.page m.guest.vmm).vmmProcState.ppcFPSCR).extractLsb' 32 32
  | .pc => m.regs.ppcPC
  | .lr => m.regs.ppcLR
  | .msr => m.guest.msr
  | .sdr1 => m.guest.sdr1
  | .gpr i => m.regs.ppcGPRs i

/-- The first word of the union `ppcFPSCR`. -/
def Machine.setFpscr (m : Machine) (value : W32) : Machine :=
  let page := m.page m.guest.vmm
  let ppcFPSCR := value ++ page.vmmProcState.ppcFPSCR.extractLsb' 0 32
  let vmmProcState := { page.vmmProcState with ppcFPSCR }
  { m with page := Function.update m.page m.guest.vmm { page with vmmProcState } }

def RegSlot.set (m : Machine) (value : W32) : RegSlot → Machine
  | .ctr => m.setRegs { m.regs with ppcCTR := value }
  | .xer => m.setRegs { m.regs with ppcXER := value }
  | .cr => m.setRegs { m.regs with ppcCR := value }
  | .fpscr => m.setFpscr value
  | .pc => m.setPC value
  | .lr => m.setRegs { m.regs with ppcLR := value }
  | .msr => { m with guest := { m.guest with msr := value } }
  | .sdr1 => { m with guest := { m.guest with sdr1 := value } }
  | .gpr i => m.setR i value

/-- The comparisons of `picol_reg`. A number of a register that does not exist is behind the array. -/
def regSlot (name : String) : Checked (Option RegSlot) :=
  if name = "ctr" then return some .ctr
  else if name = "xer" then return some .xer
  else if name = "cr" then return some .cr
  else if name = "fpscr" then return some .fpscr
  else if name = "pc" then return some .pc
  else if name = "lr" then return some .lr
  else if name = "msr" then return some .msr
  else if name = "sdr1" then return some .sdr1
  else
    match name.toList with
    | 'r' :: number =>
      match picolScan number with
      | none => return none
      | some v => if bound : v.toNat < 32 then return some (.gpr ⟨v.toNat, bound⟩) else .error .undefined
    | _ => return none

inductive PicolResult
  | ok (result : Option W32)
  | err
  deriving DecidableEq

/-- `picol_reg` by its arguments: the register, and the value to write if there is one. -/
def picolReg (m : Machine) (argv : List String) : Checked (PicolResult × Machine) :=
  match argv with
  | [name] => do
    match ← regSlot name with
    | some r => return (.ok (some (r.get m)), m)
    | none => return (.err, m)
  | [name, value] => do
    match ← regSlot name with
    | some r =>
      match picolScan value.toList with
      | some v => return (.ok none, r.set m v)
      | none => return (.err, m)
    | none => return (.err, m)
  | _ => return (.err, m)

example : picolScan "0x8000003a".toList = some 0x7fffffff := by decide
example : picolScan "-1".toList = some 0xffffffff := by decide

end ToyHv
