import ToyHv.Model.Fdt

namespace ToyHv

/-- `fdt_get_name`: the name, with 0 for NULL, and `*len`. -/
def fdtGetName (fuel : ℕ) (d : Dtb) (nodeoffset : W32) : Checked (W32 × W32) := do
  if fdtCheckHeader d ≠ 0 then return (0, fdtCheckHeader d)
  else
    let err ← _fdtCheckNodeOffset fuel d nodeoffset
    if err.toInt < 0 then return (0, err)
    else
      let name := _fdtOffsetPtr d nodeoffset + 4
      match strlen d.memory name fuel with
      | none => .error .stillRunning
      | some len => return (name, BitVec.ofNat 32 len)

def fdtString (d : Dtb) (stroffset : W32) : W32 := d.fdt + fdtOffDtStrings d + stroffset

def _fdtStringEq (fuel : ℕ) (d : Dtb) (stroffset : W32) (s : Buf) (len : ℕ) : Checked Bool :=
  let p := fdtString d stroffset
  match strlen d.memory p fuel with
  | none => .error .stillRunning
  | some n => return n = len ∧ ∀ i < len, d.bytes p i = s i

/-- The loop of `fdt_get_property_namelen` from `offset`: the property, with 0 for NULL, and `*lenp`. -/
def fdtGetPropertyLoop (fuel : ℕ) (d : Dtb) (name : Buf) (namelen : ℕ) : ℕ → W32 → Checked (W32 × W32)
  | 0, _ => .error .stillRunning
  | turns + 1, offset => do
    let (tag, nextoffset) ← fdtNextTag fuel d offset
    if tag = FDT_END then return (0, if nextoffset.toInt < 0 then nextoffset else -FDT_ERR_BADSTRUCTURE)
    else if tag = FDT_PROP then
      let prop := _fdtOffsetPtr d offset
      if ← _fdtStringEq fuel d (d.word (prop + 8)) name namelen then return (prop, d.word (prop + 4))
      else fdtGetPropertyLoop fuel d name namelen turns nextoffset
    else if tag ≠ FDT_BEGIN_NODE ∧ tag ≠ FDT_END_NODE then fdtGetPropertyLoop fuel d name namelen turns nextoffset
    else return (0, -FDT_ERR_NOTFOUND)

def fdtGetPropertyNamelen (fuel : ℕ) (d : Dtb) (nodeoffset : W32) (name : Buf) (namelen : ℕ) :
    Checked (W32 × W32) := do
  if fdtCheckHeader d ≠ 0 then return (0, fdtCheckHeader d)
  else
    let err ← _fdtCheckNodeOffset fuel d nodeoffset
    if err.toInt < 0 then return (0, err) else fdtGetPropertyLoop fuel d name namelen fuel err

/-- `fdt_getprop`: the value, with 0 for NULL, and `*lenp`. -/
def fdtGetprop (fuel : ℕ) (d : Dtb) (nodeoffset : W32) (name : Buf) : Checked (W32 × W32) := do
  match strlen (fun a => name a.toNat) 0 fuel with
  | none => .error .stillRunning
  | some namelen =>
    let (prop, len) ← fdtGetPropertyNamelen fuel d nodeoffset name namelen
    return (if prop = 0 then 0 else prop + 12, len)

def Dtb.data (d : Dtb) (p : W32) : Option Buf := if p = 0 then none else some (d.bytes p)

def romNodeName (fuel : ℕ) (d : Dtb) (node : W32) : Checked (Option Buf × W32) := do
  if node = 0 then return (some fun i => (cString "/").getD i 0, 1)
  else
    let (name, len) ← fdtGetName fuel d node
    return (d.data name, len)

def romNodeProperty (fuel : ℕ) (d : Dtb) (node : W32) (name : Buf) : Checked (Option Buf × W32) := do
  let (data, len) ← fdtGetprop fuel d node name
  return (d.data data, len)

/-- The end of `rom_getprop_ex`, with `data` and `len` looked up: the error, `*len_out` and the machine. -/
def romGetpropData (m : Machine) (lenIn : W32) (dataEa : Option W32) : Option Buf × W32 → Checked (Err × W32 × Machine)
  | (none, _) => return (.none, -1, m)
  | (some data, len) => do
    match dataEa with
    | none => return (.none, len, m)
    | some ea =>
      let (err, m) ← guestTo m ea data (minOf len lenIn) 1
      return (err, len, m)

/-- The loop of the "reg" branch of `rom_getprop_ex`, from `ea` with `len` bytes to go. -/
def romRegLoop (m : Machine) (ea len : W32) : List Range → Checked (Err × Machine)
  | [] => return (.none, m)
  | r :: ranges => do
    if len < 4 then return (.none, m)
    else
      let (err, m) ← guestTo m ea (wordBytes r.base) 4 1
      if err ≠ .none then return (err, m)
      else if len - 4 < 4 then return (.none, m)
      else
        let (err, m) ← guestTo m (ea + 4) (wordBytes (r.limit - r.base + 1)) 4 1
        if err ≠ .none then return (err, m)
        else romRegLoop m (ea + 4 + 4) (len - 4 - 4) ranges

def romGetpropReg (m : Machine) (lenIn : W32) (dataEa : Option W32) : Checked (Err × W32 × Machine) := do
  let len := BitVec.ofNat 32 m.rom.guestMemRegRanges.length * 4 * 2
  let lenOut := if lenIn = 0 then len else minOf len lenIn
  match dataEa with
  | none => return (.none, lenOut, m)
  | some ea =>
    let (err, m) ← romRegLoop m ea len m.rom.guestMemRegRanges
    return (err, lenOut, m)

/-- `rom_getprop_ex`, with the statics `fdt` and `memory_node`: the error, `*len_out` and the machine. -/
def romGetpropEx (fuel : ℕ) (d : Dtb) (memoryNode : W32) (m : Machine) (node : W32) (name : Buf) (lenIn : W32)
    (dataEa : Option W32) : Checked (Err × W32 × Machine) := do
  if strcmpEq "name" name then romGetpropData m lenIn dataEa (← romNodeName fuel d node)
  else if node = memoryNode ∧ strcmpEq "reg" name then romGetpropReg m lenIn dataEa
  else if node = memoryNode ∧ strcmpEq "available" name then romGetpropAvailable m lenIn dataEa
  else romGetpropData m lenIn dataEa (← romNodeProperty fuel d node name)

/-- What `rom_getprop` and `rom_getproplen` do with the phandle and the name they got. -/
def romGetpropOf (fuel : ℕ) (d : Dtb) (memoryNode : W32) (m : Machine) (phandle : W32) (name : Buf) (lenIn : W32)
    (dataEa : Option W32) : Checked (Err × W32 × Machine) :=
  let node := romNodeOffsetByPhandle phandle
  if node.toInt < 0 then return (.none, -1, m) else romGetpropEx fuel d memoryNode m node name lenIn dataEa

/-- `p[guest_from_ex(p, prop_ea, sizeof(xfer_buf), 1, true)] = '\0'`, which may go behind the buffer. -/
def romPropName (m : Machine) (propEa : W32) : Checked Buf := do
  let (count, p) ← guestFromEx m m.rom.xferBuf propEa PAGE_SIZE 1 true
  bugOn (count ≥ PAGE_SIZE) .undefined
  return p.put count.toNat 1 fun _ => 0

def Machine.setXferBuf (m : Machine) (xferBuf : Buf) : Machine := { m with rom := { m.rom with xferBuf } }

def romGetprop (fuel : ℕ) (d : Dtb) (memoryNode : W32) (m : Machine) (cia ciaIn ciaOut : W32) :
    Checked (Err × Machine) := do
  let (err, phandle) ← ciaCell m cia ciaIn 0
  if err ≠ .none then return (err, m)
  else
    let (err, propEa) ← ciaCell m cia ciaIn 1
    if err ≠ .none then return (err, m)
    else
      let (err, dataEa) ← ciaCell m cia ciaIn 2
      if err ≠ .none then return (err, m)
      else
        let (err, lenIn) ← ciaCell m cia ciaIn 3
        if err ≠ .none then return (err, m)
        else
          let p ← romPropName m propEa
          let (err, lenOut, m) ← romGetpropOf fuel d memoryNode (m.setXferBuf p) phandle p lenIn (some dataEa)
          if err ≠ .none then return (err, m) else guestToX m (← ciaRet cia ciaIn ciaOut 0) lenOut

def romGetproplen (fuel : ℕ) (d : Dtb) (memoryNode : W32) (m : Machine) (cia ciaIn ciaOut : W32) :
    Checked (Err × Machine) := do
  let (err, phandle) ← ciaCell m cia ciaIn 0
  if err ≠ .none then return (err, m)
  else
    let (err, propEa) ← ciaCell m cia ciaIn 1
    if err ≠ .none then return (err, m)
    else
      let p ← romPropName m propEa
      let (err, lenOut, m) ← romGetpropOf fuel d memoryNode (m.setXferBuf p) phandle p 0 none
      if err ≠ .none then return (err, m) else guestToX m (← ciaRet cia ciaIn ciaOut 0) lenOut

end ToyHv
