import ToyHv.Model.Rom

namespace ToyHv

/-- `lseek` to an offset from the start. Its result is cut to an int. -/
def sysLseek (os : Os) (fd : ℕ) (offset : W32) : ℤ × Os :=
  let called := { os with calls := os.calls + 1 }
  if os.results os.calls < 0 then (-1, called)
  else
    let file := { os.files fd with position := offset.toNat }
    (offset.toInt, { called with files := Function.update os.files fd file })

def sysRead (os : Os) (fd : ℕ) (buf : Buf) (n : W32) : ℤ × Buf × Os :=
  let called := { os with calls := os.calls + 1 }
  if os.results os.calls < 0 then (-1, buf, called)
  else
    let file := os.files fd
    let moved := min (os.results os.calls).toNat n.toNat
    let os :=
      { called with
        files := Function.update os.files fd { file with position := file.position + moved }
        transfers := os.transfers ++ [⟨fd, file.position, moved⟩] }
    ((BitVec.ofNat 32 moved).toInt, buf.put 0 moved fun i => file.bytes (file.position + i), os)

def sysWrite (os : Os) (fd : ℕ) (buf : Buf) (n : W32) : ℤ × Os :=
  let called := { os with calls := os.calls + 1 }
  if os.results os.calls < 0 then (-1, called)
  else
    let file := os.files fd
    let moved := min (os.results os.calls).toNat n.toNat
    let bytes := Buf.put file.bytes file.position moved buf
    let os :=
      { called with
        files := Function.update os.files fd { file with position := file.position + moved, bytes }
        transfers := os.transfers ++ [⟨fd, file.position, moved⟩] }
    ((BitVec.ofNat 32 moved).toInt, os)

def countOf (ret : ℤ) : W32 := if ret < 0 then 0 else BitVec.ofInt 32 ret

def diskSeek (os : Os) (fd : ℕ) (offset : W32) : Err × Os :=
  let (ret, os) := sysLseek os fd offset
  (if ret < 0 then .posix else .none, os)

def diskIn (os : Os) (fd : ℕ) (buf : Buf) (expected : W32) : W32 × Buf × Os :=
  let (ret, buf, os) := sysRead os fd buf expected
  (countOf ret, buf, os)

def diskOut (os : Os) (fd : ℕ) (buf : Buf) (len : W32) : W32 × Os :=
  let (ret, os) := sysWrite os fd buf len
  (countOf ret, os)

def le32At (buf : Buf) (offset : ℕ) : W32 := buf (offset + 3) ++ buf (offset + 2) ++ buf (offset + 1) ++ buf offset

def SECTOR_SIZE : W32 := 512

/-- `disk_find_part`: the error, `*part` and the system afterwards. Partition 0 is the whole disk. -/
def diskFindPart (os : Os) (fd : ℕ) (stSize index : W32) (part : DiskPart) (blk : Buf) : Err × DiskPart × Os :=
  if index = 0 then (.none, ⟨0, stSize⟩, os)
  else
    let (err, os) := diskSeek os fd 0
    if err ≠ .none then (err, part, os)
    else
      let (len, blk, os) := diskIn os fd blk SECTOR_SIZE
      if len ≠ SECTOR_SIZE then (.ioError, part, os)
      else if blk 0x1fe ≠ 0x55 ∨ blk 0x1ff ≠ 0xaa then (.notFound, part, os)
      else if index ≥ 4 then (.notFound, part, os)
      else
        let d := 0x1be + 16 * (index.toNat - 1)
        (.none, ⟨le32At blk (d + 8) * SECTOR_SIZE, le32At blk (d + 12) * SECTOR_SIZE⟩, os)

/-- `rom_disk_seek`: the error, and `current_off` afterwards. -/
def romDiskSeek (part : DiskPart) (currentOff offset : W32) : Err × W32 :=
  if offset > part.length then (.outOfBounds, currentOff) else (.none, offset)

/-- `rom_disk_read`: the count, the buffer, `current_off` and the system afterwards. -/
def romDiskRead (os : Os) (fd : ℕ) (part : DiskPart) (currentOff : W32) (buf : Buf) (len : W32) :
    W32 × Buf × W32 × Os :=
  let (err, os) := diskSeek os fd (part.off + currentOff)
  if err ≠ .none then (0, buf, currentOff, os)
  else
    let (c, buf, os) := diskIn os fd buf (minOf len (part.length - currentOff))
    (c, buf, currentOff + c, os)

def romDiskWrite (os : Os) (fd : ℕ) (part : DiskPart) (currentOff : W32) (buf : Buf) (len : W32) : W32 × W32 × Os :=
  let (err, os) := diskSeek os fd (part.off + currentOff)
  if err ≠ .none then (0, currentOff, os)
  else
    let (c, os) := diskOut os fd buf (minOf len (part.length - currentOff))
    (c, currentOff + c, os)

def romFileSeek (os : Os) (fd : ℕ) (offset : W32) : Err × Os :=
  let (ret, os) := sysLseek os fd offset
  (if ret < 0 then .posix else .none, os)

def romFileRead (os : Os) (fd : ℕ) (buf : Buf) (len : W32) : W32 × Buf × Os :=
  let (ret, buf, os) := sysRead os fd buf len
  (countOf ret, buf, os)

def romFileWrite (os : Os) (fd : ℕ) (buf : Buf) (len : W32) : W32 × Os :=
  let (ret, os) := sysWrite os fd buf len
  (countOf ret, os)

/-- `term_in`, over a socket that stays connected. -/
def termIn (os : Os) (buf : Buf) (expected : W32) : W32 × Buf × Os :=
  let called := { os with calls := os.calls + 1 }
  if os.results os.calls < 0 then (0, buf, called)
  else
    let input := os.consoleIn
    let moved := min (os.results os.calls).toNat expected.toNat
    (BitVec.ofNat 32 moved, buf.put 0 moved fun i => input.bytes (input.position + i),
      { called with consoleIn := { input with position := input.position + moved } })

/-- What `rom_console_write` sends for a byte: the frame characters of code page 437 have no
    counterpart. -/
def consoleText (c : W8) : List W8 :=
  if c = 0x9b then [0x1b, 0x5b]
  else if c = 0xcd then [0x3d]
  else if c = 0xba then [0x7c]
  else if c = 0xbb ∨ c = 0xc8 then [0x5c]
  else if c = 0xbc ∨ c = 0xc9 then [0x2f]
  else [c]

/-- `rom_console_write`. The count is what the loop's decrement left. -/
def romConsoleWrite (os : Os) (buf : Buf) (len : W32) : W32 × Os :=
  (-1, { os with consoleOut := os.consoleOut ++ (List.range len.toNat).flatMap fun i => consoleText (buf i) })

/-- `methods->seek`, unless it is NULL. -/
def Device.seek (os : Os) (offset : W32) : Device → Option (Err × Device × Os)
  | .console => none
  | .file fd =>
    let (err, os) := romFileSeek os fd offset
    some (err, .file fd, os)
  | .disk fd part currentOff =>
    let (err, currentOff) := romDiskSeek part currentOff offset
    some (err, .disk fd part currentOff, os)

def Device.read (os : Os) (buf : Buf) (len : W32) : Device → W32 × Buf × Device × Os
  | .console =>
    let (c, buf, os) := termIn os buf len
    (c, buf, .console, os)
  | .file fd =>
    let (c, buf, os) := romFileRead os fd buf len
    (c, buf, .file fd, os)
  | .disk fd part currentOff =>
    let (c, buf, currentOff, os) := romDiskRead os fd part currentOff buf len
    (c, buf, .disk fd part currentOff, os)

def Device.write (os : Os) (buf : Buf) (len : W32) : Device → W32 × Device × Os
  | .console =>
    let (c, os) := romConsoleWrite os buf len
    (c, .console, os)
  | .file fd =>
    let (c, os) := romFileWrite os fd buf len
    (c, .file fd, os)
  | .disk fd part currentOff =>
    let (c, currentOff, os) := romDiskWrite os fd part currentOff buf len
    (c, .disk fd part currentOff, os)

/-- Whether `methods->close` is not NULL. Closing a file or a disk only drops its handle here. -/
def Device.closes : Device → Bool
  | .console => false
  | .file _ | .disk .. => true

/-- `rom_methods_by_ihandle`: the first handle of that value. -/
def romMethodsByIhandle (knownIhandles : List Ihandle) (ihandle : W32) : Option Device :=
  (knownIhandles.find? fun h => h.value = ihandle).map Ihandle.device

def updateHandle (ihandle : W32) (device : Device) : List Ihandle → List Ihandle
  | [] => []
  | h :: handles => if h.value = ihandle then { h with device } :: handles else h :: updateHandle ihandle device handles

def deleteHandle (knownIhandles : List Ihandle) (ihandle : W32) : List Ihandle :=
  knownIhandles.eraseP fun h => h.value = ihandle

/-- `rom_ihandle_from_disk`, with malloc's answer: the block's address and what its `current_off`
    holds. `strdup` may have no memory. -/
def romIhandleFromDisk (block : Option (W32 × W32)) (dup : Bool) (fd : ℕ) (part : DiskPart)
    (knownIhandles : List Ihandle) : Err × Option W32 × List Ihandle :=
  match block with
  | none => (.noMem, none, knownIhandles)
  | some (d, stale) =>
    if dup then (.none, some d, knownIhandles ++ [⟨d, .disk fd part stale⟩]) else (.noMem, none, knownIhandles)

/-- `rom_ihandle_from_file`, with the answers of open, malloc and strdup. -/
def romIhandleFromFile (fd : Option ℕ) (block : Option W32) (dup : Bool) (knownIhandles : List Ihandle) :
    Err × Option W32 × List Ihandle :=
  match fd, block with
  | none, _ => (.posix, none, knownIhandles)
  | some _, none => (.noMem, none, knownIhandles)
  | some fd, some f =>
    if dup then (.none, some f, knownIhandles ++ [⟨f, .file fd⟩]) else (.noMem, none, knownIhandles)

def Machine.setHandles (m : Machine) (knownIhandles : List Ihandle) : Machine :=
  { m with rom := { m.rom with knownIhandles } }

def romClose (m : Machine) (cia ciaIn : W32) : Checked (Err × Machine) := do
  let (err, ihandle) ← ciaCell m cia ciaIn 0
  if err ≠ .none then return (err, m)
  else
    match romMethodsByIhandle m.rom.knownIhandles ihandle with
    | none => return (err, m)
    | some device =>
      if device.closes then return (err, m.setHandles (deleteHandle m.rom.knownIhandles ihandle)) else return (err, m)

/-- `rom_seek`. The result is uninitialised where the method fails. -/
def romSeek (m : Machine) (cia ciaIn ciaOut : W32) : Checked (Err × Machine) := do
  let (err, ihandle) ← ciaCell m cia ciaIn 0
  if err ≠ .none then return (err, m)
  else
    let (err, offHi) ← ciaCell m cia ciaIn 1
    if err ≠ .none then return (err, m)
    else
      let (err, offLo) ← ciaCell m cia ciaIn 2
      if err ≠ .none then return (err, m)
      else
        bugOn (offHi ≠ 0) .offHi
        match (romMethodsByIhandle m.rom.knownIhandles ihandle).bind (Device.seek m.os offLo) with
        | none => guestToX m (← ciaRet cia ciaIn ciaOut 0) (-1)
        | some (err, device, os) =>
          let m := { m.setHandles (updateHandle ihandle device m.rom.knownIhandles) with os }
          guestToX m (← ciaRet cia ciaIn ciaOut 0) (if err = .none then 0 else wordAt m.garbage 0)

def pfn (x : W32) : W32 := x >>> 12

/-- What one turn of the loops of `rom_read` and `rom_write` moves. -/
def xferAt (dataEa lenIn : W32) : W32 := minOf (minOf lenIn (PAGE_SIZE - (dataEa &&& PAGE_MASK))) PAGE_SIZE

theorem toNat_xferAt (dataEa lenIn : W32) :
    (xferAt dataEa lenIn).toNat = min lenIn.toNat (4096 - dataEa.toNat % 4096) := by
  have offset := toNat_page_offset dataEa
  have room : (PAGE_SIZE - (dataEa &&& PAGE_MASK)).toNat = 4096 - dataEa.toNat % 4096 := by
    rw [BitVec.toNat_sub, offset]
    simp only [PAGE_SIZE, BitVec.ofNat_eq_ofNat, BitVec.toNat_ofNat]
    omega
  have page : PAGE_SIZE.toNat = 4096 := rfl
  rw [xferAt, toNat_minOf, toNat_minOf, room, page]
  omega

theorem xferAt_decreases {dataEa lenIn xferred : W32} (more : ¬ lenIn = 0) (whole : ¬ xferred ≠ xferAt dataEa lenIn) :
    (lenIn - xferred).toNat < lenIn.toNat := by
  have some : lenIn.toNat ≠ 0 := fun zero => more (BitVec.eq_of_toNat_eq zero)
  have size := toNat_xferAt dataEa lenIn
  rw [not_not.mp whole, BitVec.toNat_sub_of_le (BitVec.le_def.mpr (by omega))]
  omega

/-- The loop of `rom_read` with `lenIn` bytes to go: the error, what is left, and the handle's
    device and the machine afterwards. -/
def romReadLoop (m : Machine) (device : Device) (dataEa lenIn : W32) : Checked (Err × W32 × Device × Machine) := do
  if done : lenIn = 0 then
    return (.none, lenIn, device, m)
  else
    bugOn (pfn dataEa ≠ pfn (dataEa + xferAt dataEa lenIn - 1)) .badLen
    let (xferred, xferBuf, device, os) := device.read m.os m.rom.xferBuf (xferAt dataEa lenIn)
    let (err, m) ← guestTo { m with os, rom := { m.rom with xferBuf } } dataEa xferBuf xferred 1
    if err ≠ .none then
      return (err, lenIn, device, m)
    else if partly : xferred ≠ xferAt dataEa lenIn then
      return (.notReady, lenIn - xferred, device, m)
    else
      romReadLoop m device (dataEa + xferAt dataEa lenIn) (lenIn - xferred)
termination_by lenIn.toNat
decreasing_by exact xferAt_decreases done partly

def romWriteLoop (m : Machine) (device : Device) (dataEa lenIn : W32) : Checked (Err × W32 × Device × Machine) := do
  if done : lenIn = 0 then
    return (.none, lenIn, device, m)
  else
    let (err, xferBuf) ← guestFrom m m.rom.xferBuf dataEa (xferAt dataEa lenIn) 1
    let m := { m with rom := { m.rom with xferBuf } }
    if err ≠ .none then
      return (err, lenIn, device, m)
    else
      bugOn (pfn dataEa ≠ pfn (dataEa + xferAt dataEa lenIn - 1)) .badLen
      let (xferred, device, os) := device.write m.os xferBuf (xferAt dataEa lenIn)
      let m := { m with os }
      if partly : xferred ≠ xferAt dataEa lenIn then
        return (.notReady, lenIn - xferred, device, m)
      else
        romWriteLoop m device (dataEa + xferAt dataEa lenIn) (lenIn - xferred)
termination_by lenIn.toNat
decreasing_by exact xferAt_decreases done partly

/-- The labels `partial` and `done` of `rom_read` and `rom_write`: what the guest is told. -/
def lenOut (err : Err) (lenIn left : W32) : W32 :=
  let err := if err = .badAccess ∨ err = .notReady then .none else err
  if err = .none then lenIn - left else lenIn

/-- The form of `rom_read` and `rom_write`. Where the result cell cannot be stored `rom_read` gives up with the
    error, and `rom_write` does not end: `store` is the last step. -/
def romTransfer (loop : Machine → Device → W32 → W32 → Checked (Err × W32 × Device × Machine))
    (store : Machine → W32 → W32 → Checked (Err × Machine)) (m : Machine) (cia ciaIn ciaOut : W32) :
    Checked (Err × Machine) := do
  let (err, ihandle) ← ciaCell m cia ciaIn 0
  if err ≠ .none then return (err, m)
  else
    let (err, dataEa) ← ciaCell m cia ciaIn 1
    if err ≠ .none then return (err, m)
    else
      let (err, lenIn) ← ciaCell m cia ciaIn 2
      if err ≠ .none then return (err, m)
      else
        match romMethodsByIhandle m.rom.knownIhandles ihandle with
        | none => store m (← ciaRet cia ciaIn ciaOut 0) (-1)
        | some device =>
          let (err, left, device, m) ← loop m device dataEa lenIn
          let m := m.setHandles (updateHandle ihandle device m.rom.knownIhandles)
          store m (← ciaRet cia ciaIn ciaOut 0) (lenOut err lenIn left)

def romRead (m : Machine) (cia ciaIn ciaOut : W32) : Checked (Err × Machine) :=
  romTransfer romReadLoop guestToX m cia ciaIn ciaOut

def romWrite (m : Machine) (cia ciaIn ciaOut : W32) : Checked (Err × Machine) :=
  romTransfer romWriteLoop storeResult m cia ciaIn ciaOut

end ToyHv
