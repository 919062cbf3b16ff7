import ToyHv.Model.Rom

namespace ToyHv

/-- The flattened tree as `rom_init` read it in: `fdt`, and the host's memory with the blob there. -/
structure Dtb where
  fdt : W32
  memory : Host

/-- The bytes at a host address, and the word there. Everything is big-endian already. -/
def Dtb.bytes (d : Dtb) (p : W32) : Buf := fun i => d.memory (p + BitVec.ofNat 32 i)
def Dtb.word (d : Dtb) (p : W32) : W32 := wordAt (d.bytes p) 0

def FDT_MAGIC : W32 := 0xd00dfeed
def FDT_SW_MAGIC : W32 := ~~~FDT_MAGIC
def FDT_TAGSIZE : W32 := 4

def FDT_BEGIN_NODE : W32 := 1
def FDT_END_NODE : W32 := 2
def FDT_PROP : W32 := 3
def FDT_NOP : W32 := 4
def FDT_END : W32 := 9

def FDT_ERR_NOTFOUND : W32 := 1
def FDT_ERR_BADOFFSET : W32 := 4
def FDT_ERR_BADSTATE : W32 := 7
def FDT_ERR_TRUNCATED : W32 := 8
def FDT_ERR_BADMAGIC : W32 := 9
def FDT_ERR_BADVERSION : W32 := 10
def FDT_ERR_BADSTRUCTURE : W32 := 11
def FDT_ERR_INTERNAL : W32 := 13

def FDT_FIRST_SUPPORTED_VERSION : W32 := 0x10
def FDT_LAST_SUPPORTED_VERSION : W32 := 0x11

def fdtMagic (d : Dtb) : W32 := d.word (d.fdt + 0)
def fdtOffDtStruct (d : Dtb) : W32 := d.word (d.fdt + 8)
def fdtOffDtStrings (d : Dtb) : W32 := d.word (d.fdt + 12)
def fdtVersion (d : Dtb) : W32 := d.word (d.fdt + 20)
def fdtLastCompVersion (d : Dtb) : W32 := d.word (d.fdt + 24)
def fdtSizeDtStruct (d : Dtb) : W32 := d.word (d.fdt + 36)

def fdtTagalign (x : W32) : W32 := (x + FDT_TAGSIZE - 1) &&& ~~~(FDT_TAGSIZE - 1)

def fdtCheckHeader (d : Dtb) : W32 :=
  if fdtMagic d = FDT_MAGIC then
    if fdtVersion d < FDT_FIRST_SUPPORTED_VERSION then -FDT_ERR_BADVERSION
    else if fdtLastCompVersion d > FDT_LAST_SUPPORTED_VERSION then -FDT_ERR_BADVERSION
    else 0
  else if fdtMagic d = FDT_SW_MAGIC then
    if fdtSizeDtStruct d = 0 then -FDT_ERR_BADSTATE else 0
  else -FDT_ERR_BADMAGIC

def _fdtOffsetPtr (d : Dtb) (offset : W32) : W32 := d.fdt + fdtOffDtStruct d + offset

def fdtOffsetPtr (d : Dtb) (offset len : W32) : W32 :=
  if fdtVersion d ≥ 0x11 ∧ (offset + len < offset ∨ offset + len > fdtSizeDtStruct d) then 0
  else
    let p := _fdtOffsetPtr d offset
    if p + len < p then 0 else p

/-- The loop of `fdt_next_tag` over a name: the last pointer, and the offset behind it. -/
def fdtSkipName (d : Dtb) : ℕ → W32 → Checked (W32 × W32)
  | 0, _ => .error .stillRunning
  | fuel + 1, offset => do
    let p := fdtOffsetPtr d offset 1
    bugOn (offset = 0x7fffffff) .undefined
    if p ≠ 0 ∧ d.memory p ≠ 0 then fdtSkipName d fuel (offset + 1) else return (p, offset + 1)

/-- The `switch` of `fdt_next_tag`: the offset behind a token, none where it ends too early. -/
def fdtBehindTag (fuel : ℕ) (d : Dtb) (tag offset : W32) : Checked (Option W32) := do
  if tag = FDT_BEGIN_NODE then
    let (p, offset) ← fdtSkipName d fuel offset
    return if p = 0 then none else some offset
  else if tag = FDT_PROP then
    let lenp := fdtOffsetPtr d offset 4
    return if lenp = 0 then none else some (offset + (12 - FDT_TAGSIZE + d.word lenp))
  else if tag = FDT_END ∨ tag = FDT_END_NODE ∨ tag = FDT_NOP then return some offset
  else return none

/-- `fdt_next_tag`: the tag and `*nextoffset`. -/
def fdtNextTag (fuel : ℕ) (d : Dtb) (startoffset : W32) : Checked (W32 × W32) := do
  let tagp := fdtOffsetPtr d startoffset FDT_TAGSIZE
  if tagp = 0 then return (FDT_END, -FDT_ERR_TRUNCATED)
  else
    let tag := d.word tagp
    match ← fdtBehindTag fuel d tag (startoffset + FDT_TAGSIZE) with
    | none => return (FDT_END, -FDT_ERR_BADSTRUCTURE)
    | some offset =>
      if fdtOffsetPtr d startoffset (offset - startoffset) = 0 then return (FDT_END, -FDT_ERR_BADSTRUCTURE)
      else return (tag, fdtTagalign offset)

def _fdtCheckNodeOffset (fuel : ℕ) (d : Dtb) (offset : W32) : Checked W32 := do
  if offset.toInt < 0 ∨ offset % FDT_TAGSIZE ≠ 0 then return -FDT_ERR_BADOFFSET
  else
    let (tag, offset) ← fdtNextTag fuel d offset
    if tag ≠ FDT_BEGIN_NODE then return -FDT_ERR_BADOFFSET else return offset

/-- The loop of `fdt_next_node` from `nextoffset`: its result and `*depth`. -/
def fdtNextNodeLoop (fuel : ℕ) (d : Dtb) : ℕ → W32 → ℤ → Checked (W32 × ℤ)
  | 0, _, _ => .error .stillRunning
  | turns + 1, offset, depth => do
    let (tag, nextoffset) ← fdtNextTag fuel d offset
    if tag = FDT_BEGIN_NODE then return (offset, depth + 1)
    else if tag = FDT_END_NODE then
      if depth - 1 < 0 then return (nextoffset, depth - 1)
      else fdtNextNodeLoop fuel d turns nextoffset (depth - 1)
    else if tag = FDT_END then
      return (if nextoffset.toInt ≥ 0 then -FDT_ERR_NOTFOUND else nextoffset, depth)
    else fdtNextNodeLoop fuel d turns nextoffset depth

/-- `fdt_next_node`, with a depth to keep. -/
def fdtNextNode (fuel : ℕ) (d : Dtb) (offset : W32) (depth : ℤ) : Checked (W32 × ℤ) := do
  if offset.toInt ≥ 0 then
    let nextoffset ← _fdtCheckNodeOffset fuel d offset
    if nextoffset.toInt < 0 then return (nextoffset, depth)
    else fdtNextNodeLoop fuel d fuel nextoffset depth
  else fdtNextNodeLoop fuel d fuel 0 depth

/-- The loop that `fdt_subnode` and `fdt_sibling` share, down to their own least depth. -/
def fdtScan (fuel : ℕ) (d : Dtb) (least : ℤ) : ℕ → W32 → ℤ → Checked W32
  | 0, _, _ => .error .stillRunning
  | turns + 1, offset, depth => do
    if offset.toInt ≥ 0 ∧ depth ≥ least then
      if depth = 1 then return offset
      else
        let (offset, depth) ← fdtNextNode fuel d offset depth
        fdtScan fuel d least turns offset depth
    else if depth < 0 then return -FDT_ERR_NOTFOUND
    else return offset

def fdtSubnode (fuel : ℕ) (d : Dtb) (offset : W32) : Checked W32 := do
  if fdtCheckHeader d ≠ 0 then return fdtCheckHeader d
  else fdtScan fuel d 0 fuel offset 0

def fdtSibling (fuel : ℕ) (d : Dtb) (offset : W32) : Checked W32 := do
  if fdtCheckHeader d ≠ 0 then return fdtCheckHeader d
  else
    let (offset, depth) ← fdtNextNode fuel d offset 1
    fdtScan fuel d 1 fuel offset depth

/-- The loop of `fdt_supernode_atdepth_offset`: the result, and `*nodedepth` where it is set. -/
def fdtSupernodeLoop (fuel : ℕ) (d : Dtb) (nodeoffset : W32) (supernodedepth : ℤ) :
    ℕ → W32 → ℤ → W32 → Checked (W32 × Option ℤ)
  | 0, _, _, _ => .error .stillRunning
  | turns + 1, offset, depth, supernodeoffset => do
    if offset.toInt ≥ 0 ∧ offset.toInt ≤ nodeoffset.toInt then
      let supernodeoffset := if depth = supernodedepth then offset else supernodeoffset
      if offset = nodeoffset then
        return (if supernodedepth > depth then -FDT_ERR_NOTFOUND else supernodeoffset, some depth)
      else
        let (offset, depth) ← fdtNextNode fuel d offset depth
        fdtSupernodeLoop fuel d nodeoffset supernodedepth turns offset depth supernodeoffset
    else if offset = -FDT_ERR_NOTFOUND ∨ offset.toInt ≥ 0 then return (-FDT_ERR_BADOFFSET, none)
    else if offset = -FDT_ERR_BADOFFSET then return (-FDT_ERR_BADSTRUCTURE, none)
    else return (offset, none)

def fdtSupernodeAtdepthOffset (fuel : ℕ) (d : Dtb) (nodeoffset : W32) (supernodedepth : ℤ) :
    Checked (W32 × Option ℤ) := do
  if fdtCheckHeader d ≠ 0 then return (fdtCheckHeader d, none)
  else if supernodedepth < 0 then return (-FDT_ERR_NOTFOUND, none)
  else fdtSupernodeLoop fuel d nodeoffset supernodedepth fuel 0 0 (-FDT_ERR_INTERNAL)

def fdtNodeDepth (fuel : ℕ) (d : Dtb) (nodeoffset : W32) : Checked ℤ := do
  let (err, nodedepth) ← fdtSupernodeAtdepthOffset fuel d nodeoffset 0
  if err ≠ 0 then return if err.toInt < 0 then err.toInt else (-FDT_ERR_INTERNAL).toInt
  else
    match nodedepth with
    | some nodedepth => return nodedepth
    | none => .error .undefined

def fdtParentOffset (fuel : ℕ) (d : Dtb) (nodeoffset : W32) : Checked W32 := do
  let nodedepth ← fdtNodeDepth fuel d nodeoffset
  if nodedepth < 0 then return BitVec.ofInt 32 nodedepth
  else
    let (offset, _) ← fdtSupernodeAtdepthOffset fuel d nodeoffset (nodedepth - 1)
    return offset

def PHANDLE_MUNGE : W32 := 0x10000000

def romGetPhandle (node : W32) : W32 := node ||| PHANDLE_MUNGE
def ROOT_PHANDLE : W32 := romGetPhandle 0
def romNodeOffsetByPhandle (phandle : W32) : W32 := phandle &&& ~~~PHANDLE_MUNGE

/-- The form of `rom_child`, `rom_peer` and `rom_parent`: a phandle in, a phandle out. Where the
    argument cannot be read the result is `failed`, and the error is lost. -/
def romNavigate (answer : W32 → Checked W32) (failed : W32) (m : Machine) (cia ciaIn ciaOut : W32) :
    Checked (Err × Machine) := do
  let (err, ph) ← ciaCell m cia ciaIn 0
  let out ← if err ≠ .none then pure failed else answer ph
  storeResult m (← ciaRet cia ciaIn ciaOut 0) out

def phandleOrZero (node : W32) : W32 := if node.toInt < 0 then 0 else romGetPhandle node

def romChildOf (fuel : ℕ) (d : Dtb) (ph : W32) : Checked W32 := do
  let node := romNodeOffsetByPhandle ph
  if node.toInt < 0 then return 0
  else
    let node ← fdtSubnode fuel d node
    return phandleOrZero node

def romPeerOf (fuel : ℕ) (d : Dtb) (ph : W32) : Checked W32 := do
  if ph = 0 then return ROOT_PHANDLE
  else
    let node := romNodeOffsetByPhandle ph
    if node.toInt < 0 then return 0
    else
      let node ← fdtSibling fuel d node
      return phandleOrZero node

def romParentOf (fuel : ℕ) (d : Dtb) (ph : W32) : Checked W32 := do
  if ph = ROOT_PHANDLE then return 0
  else
    let node := romNodeOffsetByPhandle ph
    if node.toInt < 0 then return -1
    else
      let node ← fdtParentOffset fuel d node
      bugOn (node.toInt < 0) .parentMissing
      return romGetPhandle node

def romChild (fuel : ℕ) (d : Dtb) (m : Machine) (cia ciaIn ciaOut : W32) : Checked (Err × Machine) :=
  romNavigate (romChildOf fuel d) 0 m cia ciaIn ciaOut

def romPeer (fuel : ℕ) (d : Dtb) (m : Machine) (cia ciaIn ciaOut : W32) : Checked (Err × Machine) :=
  romNavigate (romPeerOf fuel d) 0 m cia ciaIn ciaOut

/-- `rom_parent`. Its result is not initialised where the argument cannot be read. -/
def romParent (fuel : ℕ) (d : Dtb) (m : Machine) (cia ciaIn ciaOut : W32) : Checked (Err × Machine) :=
  romNavigate (romParentOf fuel d) (wordAt m.garbage 0) m cia ciaIn ciaOut

end ToyHv
