import ToyHv.Model.Cif

namespace ToyHv

def FDT_ERR_NOSPACE : W32 := 3
def FDT_ERR_BADPATH : W32 := 5
def FDT_ERR_BADPHANDLE : W32 := 6

def SLASH : W8 := 0x2f
def AT : W8 := 0x40

/-- The first bytes behind a pointer. -/
def Buf.text (buf : Buf) (n : ℕ) : List W8 := (List.range n).map buf

/-- `_fdt_nodename_eq`: a unit address may be left out of `s`. -/
def _fdtNodenameEq (d : Dtb) (offset : W32) (s : List W8) : Bool :=
  let len := s.length
  let p := fdtOffsetPtr d (offset + FDT_TAGSIZE) (BitVec.ofNat 32 (len + 1))
  if p = 0 then false
  else if (d.bytes p).text len ≠ s then false
  else if d.bytes p len = 0 then true
  else AT ∉ s ∧ d.bytes p len = AT

def fdtSubnodeOffsetLoop (fuel : ℕ) (d : Dtb) (name : List W8) : ℕ → W32 → ℤ → Checked W32
  | 0, _, _ => .error .stillRunning
  | turns + 1, offset, depth => do
    if offset.toInt ≥ 0 ∧ depth ≥ 0 then
      if depth = 1 ∧ _fdtNodenameEq d offset name then return offset
      else
        let (offset, depth) ← fdtNextNode fuel d offset depth
        fdtSubnodeOffsetLoop fuel d name turns offset depth
    else if depth < 0 then return -FDT_ERR_NOTFOUND
    else return offset

def fdtSubnodeOffsetNamelen (fuel : ℕ) (d : Dtb) (offset : W32) (name : List W8) : Checked W32 := do
  if fdtCheckHeader d ≠ 0 then return fdtCheckHeader d
  else fdtSubnodeOffsetLoop fuel d name fuel offset 0

theorem dropWhile_shorter {s : List W8} (more : s.dropWhile (· = SLASH) ≠ []) :
    ((s.dropWhile (· = SLASH)).dropWhile (· ≠ SLASH)).length < s.length := by
  have whole := (List.dropWhile_suffix (l := s) (· = SLASH)).length_le
  cases rest : s.dropWhile (· = SLASH) with
  | nil => exact absurd rest more
  | cons c tail =>
    have first : c ≠ SLASH := by
      have head := List.head_dropWhile_not (fun x => decide (x = SLASH)) more
      simpa [rest] using head
    have shorter := (List.dropWhile_suffix (l := tail) (· ≠ SLASH)).length_le
    rw [rest, List.length_cons] at whole
    simp only [ne_eq, first, not_false_eq_true, decide_true, List.dropWhile_cons_of_pos]
    exact Nat.lt_of_le_of_lt shorter whole

/-- The loop of `fdt_path_offset` over what is left of a path. -/
def fdtPathWalk (fuel : ℕ) (d : Dtb) (offset : W32) (path : List W8) : Checked W32 :=
  if _ : path.dropWhile (· = SLASH) = [] then return offset
  else do
    let p := path.dropWhile (· = SLASH)
    let offset ← fdtSubnodeOffsetNamelen fuel d offset (p.takeWhile (· ≠ SLASH))
    if offset.toInt < 0 then return offset else fdtPathWalk fuel d offset (p.dropWhile (· ≠ SLASH))
termination_by path.length
decreasing_by exact dropWhile_shorter (by assumption)

/-- A C string of host memory. -/
def stringAt (fuel : ℕ) (d : Dtb) (p : W32) : Checked (List W8) :=
  match strlen d.memory p fuel with
  | none => .error .stillRunning
  | some len => return (d.bytes p).text len

def bufOf (s : List W8) : Buf := fun i => s.getD i 0

/-- `fdt_get_alias_namelen`, with 0 for NULL. -/
def fdtGetAliasNamelen (pathOffset : List W8 → Checked W32) (fuel : ℕ) (d : Dtb) (name : List W8) : Checked W32 := do
  let aliasoffset ← pathOffset ("/aliases".toList.map fun c => BitVec.ofNat 8 c.toNat)
  if aliasoffset.toInt < 0 then return 0
  else
    let (prop, _) ← fdtGetPropertyNamelen fuel d aliasoffset (bufOf name) name.length
    return if prop = 0 then 0 else prop + 12

/-- `fdt_path_offset`. A path without a slash in front starts with an alias, which is a path itself. -/
def fdtPathOffset (fuel : ℕ) (d : Dtb) : ℕ → List W8 → Checked W32
  | 0, _ => .error .stillRunning
  | calls + 1, path => do
    if fdtCheckHeader d ≠ 0 then return fdtCheckHeader d
    else if path.head? = some SLASH then fdtPathWalk fuel d 0 path
    else
      let p ← fdtGetAliasNamelen (fdtPathOffset fuel d calls) fuel d (path.takeWhile (· ≠ SLASH))
      if p = 0 then return -FDT_ERR_BADPATH
      else
        let offset ← fdtPathOffset fuel d calls (← stringAt fuel d p)
        fdtPathWalk fuel d offset (path.dropWhile (· ≠ SLASH))

/-- `do { p--; } while (buf[p-1] != '/')`. In front of the buffer there is nothing to read. -/
def fdtStrip (buf : Buf) : ℕ → Checked ℕ
  | 0 | 1 => .error .undefined
  | p + 2 => if buf p = SLASH then return p + 1 else fdtStrip buf (p + 1)

def fdtStripAll (buf : Buf) : ℕ → ℕ → Checked ℕ
  | 0, p => return p
  | levels + 1, p => do fdtStripAll buf levels (← fdtStrip buf p)

/-- `buf`, `p` and `pdepth` of `fdt_get_path`. -/
structure PathBuf where
  buf : Buf
  p : ℕ
  pdepth : ℤ

/-- A turn of the loop of `fdt_get_path` up to its test for the node, with the error there may be. -/
def fdtPathTurn (fuel : ℕ) (d : Dtb) (buflen : ℤ) (offset : W32) (depth : ℤ) (s : PathBuf) :
    Checked (W32 × PathBuf) := do
  let p ← fdtStripAll s.buf (s.pdepth - depth).toNat s.p
  let pdepth := min s.pdepth depth
  if pdepth ≥ depth then
    let (name, namelen) ← fdtGetName fuel d offset
    if name = 0 then return (namelen, ⟨s.buf, p, pdepth⟩)
    else if p + namelen.toInt + 1 ≤ buflen then
      let buf := (s.buf.put p namelen.toNat (d.bytes name)).put (p + namelen.toNat) 1 fun _ => SLASH
      return (0, ⟨buf, p + namelen.toNat + 1, pdepth + 1⟩)
    else return (0, ⟨s.buf, p, pdepth⟩)
  else return (0, ⟨s.buf, p, pdepth⟩)

/-- The end of `fdt_get_path` at the node. The path of the root is "/", not "". -/
def fdtPathDone (depth : ℤ) (s : PathBuf) : W32 × Buf :=
  if s.pdepth < depth + 1 then (-FDT_ERR_NOSPACE, s.buf)
  else
    let p := if s.p > 1 then s.p - 1 else s.p
    (0, s.buf.put p 1 fun _ => 0)

def fdtGetPathLoop (fuel : ℕ) (d : Dtb) (nodeoffset : W32) (buflen : ℤ) :
    ℕ → PathBuf → W32 → ℤ → Checked (W32 × Buf)
  | 0, _, _, _ => .error .stillRunning
  | turns + 1, s, offset, depth => do
    if offset.toInt ≥ 0 ∧ offset.toInt ≤ nodeoffset.toInt then
      let (err, s) ← fdtPathTurn fuel d buflen offset depth s
      if err ≠ 0 then return (err, s.buf)
      else if offset = nodeoffset then return fdtPathDone depth s
      else
        let (offset, depth) ← fdtNextNode fuel d offset depth
        fdtGetPathLoop fuel d nodeoffset buflen turns s offset depth
    else if offset = -FDT_ERR_NOTFOUND ∨ offset.toInt ≥ 0 then return (-FDT_ERR_BADOFFSET, s.buf)
    else if offset = -FDT_ERR_BADOFFSET then return (-FDT_ERR_BADSTRUCTURE, s.buf)
    else return (offset, s.buf)

/-- `fdt_get_path`: the result, and the buffer afterwards. -/
def fdtGetPath (fuel : ℕ) (d : Dtb) (nodeoffset : W32) (buf : Buf) (buflen : ℤ) : Checked (W32 × Buf) := do
  if fdtCheckHeader d ≠ 0 then return (fdtCheckHeader d, buf)
  else if buflen < 2 then return (-FDT_ERR_NOSPACE, buf)
  else fdtGetPathLoop fuel d nodeoffset buflen fuel ⟨buf, 0, 0⟩ 0 0

/-- The loop of `fdt_next_node` where no depth is kept: it passes the ends of nodes. -/
def fdtNextNodeAnyLoop (fuel : ℕ) (d : Dtb) : ℕ → W32 → Checked W32
  | 0, _ => .error .stillRunning
  | turns + 1, offset => do
    let (tag, nextoffset) ← fdtNextTag fuel d offset
    if tag = FDT_BEGIN_NODE then return offset
    else if tag = FDT_END then
      return if nextoffset.toInt ≥ 0 ∨ nextoffset = -FDT_ERR_TRUNCATED then -FDT_ERR_NOTFOUND else nextoffset
    else fdtNextNodeAnyLoop fuel d turns nextoffset

def fdtNextNodeAny (fuel : ℕ) (d : Dtb) (offset : W32) : Checked W32 := do
  if offset.toInt ≥ 0 then
    let nextoffset ← _fdtCheckNodeOffset fuel d offset
    if nextoffset.toInt < 0 then return nextoffset else fdtNextNodeAnyLoop fuel d fuel nextoffset
  else fdtNextNodeAnyLoop fuel d fuel 0

/-- Whether the property of a node has just this value. -/
def fdtHasValue (fuel : ℕ) (d : Dtb) (offset : W32) (propname : Buf) (propval : List W8) : Checked Bool := do
  let (val, len) ← fdtGetprop fuel d offset propname
  return val ≠ 0 ∧ len.toInt = propval.length ∧ (d.bytes val).text propval.length = propval

def fdtNodeOffsetByPropValueLoop (fuel : ℕ) (d : Dtb) (propname : Buf) (propval : List W8) : ℕ → W32 → Checked W32
  | 0, _ => .error .stillRunning
  | turns + 1, offset => do
    if offset.toInt ≥ 0 then
      if ← fdtHasValue fuel d offset propname propval then return offset
      else fdtNodeOffsetByPropValueLoop fuel d propname propval turns (← fdtNextNodeAny fuel d offset)
    else return offset

def fdtNodeOffsetByPropValue (fuel : ℕ) (d : Dtb) (startoffset : W32) (propname : Buf) (propval : List W8) :
    Checked W32 := do
  if fdtCheckHeader d ≠ 0 then return fdtCheckHeader d
  else fdtNodeOffsetByPropValueLoop fuel d propname propval fuel (← fdtNextNodeAny fuel d startoffset)

def linuxPhandle : Buf := bufOf (cString "linux,phandle")

def fdtNodeOffsetByPhandle (fuel : ℕ) (d : Dtb) (phandle : W32) : Checked W32 := do
  if phandle = 0 ∨ phandle = -1 then return -FDT_ERR_BADPHANDLE
  else fdtNodeOffsetByPropValue fuel d (-1) linuxPhandle ((wordBytes phandle).text 4)

def fdtGetPhandle (fuel : ℕ) (d : Dtb) (nodeoffset : W32) : Checked W32 := do
  let (php, len) ← fdtGetprop fuel d nodeoffset linuxPhandle
  return if php = 0 ∨ len ≠ 4 then 0 else d.word php

/-- What `rom_ptopath` and `rom_itopath` do with a node: the error, `result` and the machine. -/
def romStorePath (fuel : ℕ) (d : Dtb) (m : Machine) (node bufEa bufLen : W32) : Checked (Err × W32 × Machine) := do
  let (got, xferBuf) ← fdtGetPath fuel d node m.rom.xferBuf PAGE_SIZE.toNat
  let m := m.setXferBuf xferBuf
  if got.toInt < 0 then return (.none, -1, m)
  else
    match strlen (fun a => xferBuf a.toNat) 0 PAGE_SIZE.toNat with
    | none => .error .undefined
    | some len =>
      let result := BitVec.ofNat 32 len
      if bufLen ≠ 0 then
        let (err, m) ← guestTo m bufEa xferBuf (minOf bufLen (result + 1)) 1
        return (err, result, m)
      else return (.none, result, m)

/-- The form of `rom_ptopath` and `rom_itopath`, by how they find the node. -/
def romTopath (lookup : W32 → Checked W32) (fuel : ℕ) (d : Dtb) (m : Machine) (cia ciaIn ciaOut : W32) :
    Checked (Err × Machine) := do
  let (err, handle) ← ciaCell m cia ciaIn 0
  if err ≠ .none then return (err, m)
  else
    let (err, bufEa) ← ciaCell m cia ciaIn 1
    if err ≠ .none then return (err, m)
    else
      let (err, bufLen) ← ciaCell m cia ciaIn 2
      if err ≠ .none then return (err, m)
      else
        let node ← lookup handle
        let (err, result, m) ←
          if node.toInt < 0 then pure (Err.none, -1, m) else romStorePath fuel d m node bufEa bufLen
        if err ≠ .none then return (err, m) else guestToX m (← ciaRet cia ciaIn ciaOut 0) result

def romPtopath (fuel : ℕ) (d : Dtb) (m : Machine) (cia ciaIn ciaOut : W32) : Checked (Err × Machine) :=
  romTopath (fun ph => return romNodeOffsetByPhandle ph) fuel d m cia ciaIn ciaOut

def romItopath (fuel : ℕ) (d : Dtb) (m : Machine) (cia ciaIn ciaOut : W32) : Checked (Err × Machine) :=
  romTopath (fdtNodeOffsetByPhandle fuel d) fuel d m cia ciaIn ciaOut

def romItopackage (fuel : ℕ) (d : Dtb) (m : Machine) (cia ciaIn ciaOut : W32) : Checked (Err × Machine) := do
  let (err, ih) ← ciaCell m cia ciaIn 0
  if err ≠ .none then return (err, m)
  else
    let node ← fdtNodeOffsetByPhandle fuel d ih
    guestToX m (← ciaRet cia ciaIn ciaOut 0) (if node.toInt < 0 then -1 else romGetPhandle node)

/-- `rom_milliseconds`, with what gettimeofday answers. -/
def romMilliseconds (tvSec tvUsec : W32) (m : Machine) (cia ciaIn ciaOut : W32) : Checked (Err × Machine) := do
  guestToX m (← ciaRet cia ciaIn ciaOut 0) (tvSec * 1000 + BitVec.ofInt 32 (tvUsec.toInt.tdiv 1000))

/-- `fdt_path_offset` with as many calls of itself as a loop has turns. -/
def Dtb.pathOffset (fuel : ℕ) (d : Dtb) (path : List W8) : Checked W32 := fdtPathOffset fuel d fuel path

/-- The handlers over one flattened tree, none left out. -/
def CifEnv.ofTree (env : CifEnv) (tvSec tvUsec : W32) : CifEnv :=
  { env with
    pathOffset := env.fdt.pathOffset env.fuel
    others := fun handler =>
      match handler with
      | .itopackage => romItopackage env.fuel env.fdt
      | .itopath => romItopath env.fuel env.fdt
      | .ptopath => romPtopath env.fuel env.fdt
      | .milliseconds => romMilliseconds tvSec tvUsec
      | _ => env.others handler }

end ToyHv
