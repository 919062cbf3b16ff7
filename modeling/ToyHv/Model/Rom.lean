import ToyHv.Model.Access

namespace ToyHv

/-- How `rom_claim_ex` picks a place: from the arena when an alignment is asked for, else the
    address it is given. A failed arena claim leaves the pointer where it stopped. -/
def romClaimPlace (size_ : W32) (rom : Rom) (addr size align : W32) : Option W32 × Rom :=
  if align ≠ 0 then
    let rom := { rom with claimArenaPtr := alignUp rom.claimArenaPtr align }
    if rom.claimArenaPtr ≥ rom.claimArenaEnd then (none, rom)
    else
      let out := rom.claimArenaPtr
      let rom := { rom with claimArenaPtr := rom.claimArenaPtr + size }
      if rom.claimArenaPtr > rom.claimArenaEnd then (none, rom) else (some out, rom)
  else if addr + size > size_ then (none, rom)
  else (some addr, rom)

/-- `rom_claim_ex`, with malloc's answer. Allocations are tracked at page granularity. -/
def romClaimEx (mem : Bool) (size_ : W32) (rom : Rom) (addr size align : W32) : Checked (W32 × Rom) :=
  match romClaimPlace size_ rom addr size align with
  | (none, rom) => return (-1, rom)
  | (some out, rom) => do
    let ranges ← rangeRemove mem rom.guestMemAvailRanges (alignDown out PAGE_SIZE)
      (alignUp (out + size) PAGE_SIZE - 1)
    return (out, { rom with guestMemAvailRanges := ranges })

def ciaArg (cia ciaIn : W32) (x : ℕ) : Checked W32 := do
  bugOn (BitVec.ofNat 32 x ≥ ciaIn) .argOutOfBounds
  return cia + (3 + BitVec.ofNat 32 x) * 4

def ciaRet (cia ciaIn ciaOut : W32) (x : ℕ) : Checked W32 := do
  bugOn (BitVec.ofNat 32 x ≥ ciaOut) .retOutOfBounds
  return cia + (3 + ciaIn + BitVec.ofNat 32 x) * 4

/-- An argument cell read into an uninitialised local. -/
def ciaCell (m : Machine) (cia ciaIn : W32) (x : ℕ) : Checked (Err × W32) := do
  guestFromX m (wordAt m.garbage 0) (← ciaArg cia ciaIn x)

/-- A C string literal, and `strcmp(s, buf) == 0`. -/
def cString (s : String) : List W8 := s.toList.map (fun c => BitVec.ofNat 8 c.toNat) ++ [0]

def strcmpEq (s : String) (buf : Buf) : Bool := (cString s).zipIdx.all fun c => buf c.2 = c.1

def romMemCall (mem : Bool) (m : Machine) (call : Buf) (cia ciaIn ciaOut : W32) : Checked (Err × Machine) := do
  if strcmpEq "claim" call then
    let (err, align) ← ciaCell m cia ciaIn 2
    if err ≠ .none then return (err, m)
    else
      let (err, size) ← ciaCell m cia ciaIn 3
      if err ≠ .none then return (err, m)
      else
        let (err, addr) ← ciaCell m cia ciaIn 4
        if err ≠ .none then return (err, m)
        else
          let (result, rom) ← romClaimEx mem (pmemSize m.ram) m.rom addr size align
          guestToX { m with rom } (← ciaRet cia ciaIn ciaOut 1) result
  else return (.unsupported, m)

def romMmuMap (mem : Bool) (p : Pmem) (rom : Rom) (phys virt size mode : W32) : Checked (Err × Rom) := do
  -- -2 was seen with veneer.exe and is treated as the default mode
  let mode := if mode = -2 then -1 else mode
  bugOn (mode ≠ -1) .nonDefaultMode
  if phys = virt then return (.none, rom)
  else if ¬ pmemGraValid p phys then return (.badAccess, rom)
  else
    bugOn (phys &&& PAGE_MASK ≠ 0) .badAlignment
    bugOn (virt &&& PAGE_MASK ≠ 0) .badAlignment
    let size := alignDown size PAGE_SIZE
    let romMmuRanges ← mmuRangeAdd mem rom.romMmuRanges virt (virt + size - 1) phys 0
    return (.none, { rom with romMmuRanges })

def romMmuCall (mem : Bool) (m : Machine) (call : Buf) (cia ciaIn : W32) : Checked (Err × Machine) := do
  if strcmpEq "map" call then
    let (err, mode) ← ciaCell m cia ciaIn 2
    if err ≠ .none then return (err, m)
    else
      let (err, size) ← ciaCell m cia ciaIn 3
      if err ≠ .none then return (err, m)
      else
        let (err, virt) ← ciaCell m cia ciaIn 4
        if err ≠ .none then return (err, m)
        else
          let (err, phys) ← ciaCell m cia ciaIn 5
          if err ≠ .none then return (err, m)
          else
            let (err, rom) ← romMmuMap mem m.ram m.rom phys virt size mode
            return (err, { m with rom })
  else return (.unsupported, m)

/-- `rom_callmethod`. The terminator goes where the count says, which may be behind the buffer. -/
def romCallmethod (mem : Bool) (m : Machine) (cia ciaIn ciaOut : W32) : Checked (Err × Machine) := do
  let (err, methodEa) ← ciaCell m cia ciaIn 0
  if err ≠ .none then return (err, m)
  else
    let (err, ihandle) ← ciaCell m cia ciaIn 1
    if err ≠ .none then return (err, m)
    else
      let (count, call) ← guestFromEx m m.rom.xferBuf methodEa (PAGE_SIZE - 1) 1 true
      bugOn (count ≥ PAGE_SIZE) .undefined
      let call := call.put count.toNat 1 fun _ => 0
      let m := { m with rom := { m.rom with xferBuf := call } }
      let (err, m) ←
        if ihandle = m.rom.memoryIhandle then romMemCall mem m call cia ciaIn ciaOut
        else if ihandle = m.rom.mmuIhandle then romMmuCall mem m call cia ciaIn
        else pure (Err.unsupported, m)
      let result := if err = .none then 0 else -1
      guestToX m (← ciaRet cia ciaIn ciaOut 0) result

def romAvailLoop (m : Machine) (ea len : W32) : List Range → Checked (Err × Machine)
  | [] => return (.none, m)
  | r :: ranges => do
    let b := r.base
    let bs := r.limit - r.base + 1
    bugOn (b % PAGE_SIZE ≠ 0) .unexpectedAvailRange
    bugOn (bs % PAGE_SIZE ≠ 0) .unexpectedAvailRange
    if len < 4 then return (.none, m)
    else
      let (err, m) ← guestTo m ea (wordBytes b) 4 1
      if err ≠ .none then return (err, m)
      else if len - 4 < 4 then return (.none, m)
      else
        let (err, m) ← guestTo m (ea + 4) (wordBytes bs) 4 1
        if err ≠ .none then return (err, m)
        else romAvailLoop m (ea + 4 + 4) (len - 4 - 4) ranges

def romGetpropAvailable (m : Machine) (lenIn : W32) (dataEa : Option W32) : Checked (Err × W32 × Machine) := do
  let len := BitVec.ofNat 32 m.rom.guestMemAvailRanges.length * 4 * 2
  let lenOut := if lenIn = 0 then len else minOf len lenIn
  match dataEa with
  | none => return (.none, lenOut, m)
  | some ea =>
    let (err, m) ← romAvailLoop m ea len m.rom.guestMemAvailRanges
    return (err, lenOut, m)

/-- A device tree, by the two functions of libfdt that `rom_init` calls. -/
structure Fdt where
  pathOffset : String → Int
  getPhandle : Int → W32

/-- What `rom_init` gets from outside: the loader's length and contents, if it could be read,
    the device tree, if it could be read, whether malloc has memory and the C red zone. -/
structure BootEnv where
  loader : Option (W32 × Buf)
  fdt : Option Fdt
  mem : Bool
  redZone : W32

def romPathToIhandle (fdt : Fdt) (path : String) : W32 :=
  if fdt.pathOffset path = -1 then -1 else fdt.getPhandle (fdt.pathOffset path)

/-- The lists `rom_init` starts with: guest RAM mapped 1:1, all of it available, and an arena of
    the last 16 MiB. -/
def romInitRanges (mem : Bool) (size_ : W32) (rom : Rom) : Checked Rom := do
  bugOn (size_ ≤ mb 16) .guestRamTooSmall
  let romMmuRanges ← mmuRangeAdd mem [] 0 (size_ - 1) 0 0
  let guestMemAvailRanges ← rangeAdd mem [] 0 (size_ - 1)
  let guestMemRegRanges ← rangeAdd mem [] 0 (size_ - 1)
  return { rom with
    knownIhandles := []
    romMmuRanges
    guestMemAvailRanges
    guestMemRegRanges
    claimArenaStart := size_ - mb 16
    claimArenaPtr := size_ - mb 16
    claimArenaEnd := size_ }

def romInit (env : BootEnv) (m : Machine) : Checked (Err × Machine) := do
  let size_ := pmemSize m.ram
  let rom ← romInitRanges env.mem size_ m.rom
  let m := { m with rom }
  let little := guestIsLittle m.guest
  let loaderEntry : W32 := if little then 0x50000 else 0x3e0000
  let loaderBase : W32 := if little then loaderEntry - 0x200 else loaderEntry
  let hvcall : W32 := 0x44000022
  match env.loader with
  | none => return (.posix, m)
  | some (loaderLength, loaderData) =>
    let (loadedLength, host) ← pmemTo little m.ram m.host loaderBase loaderData loaderLength 1
    let m := { m with host }
    if loaderLength ≠ loadedLength then return (.badAccess, m)
    else
      let (_, rom) ← romClaimEx env.mem size_ m.rom loaderBase loaderLength 0
      let m := { m with rom }
      match env.fdt with
      | none => return (.posix, m)
      | some fdt =>
        bugOn (fdt.pathOffset "mem" = -1) .memoryNodeMissing
        let m := { m with rom := { m.rom with memoryIhandle := fdt.getPhandle (fdt.pathOffset "mem") } }
        let m := { m with rom := { m.rom with mmuIhandle := romPathToIhandle fdt "mmu" } }
        bugOn (m.rom.mmuIhandle = -1) .mmuNodeMissing
        let consoleIhandle := romPathToIhandle fdt "con"
        bugOn (consoleIhandle = -1) .consoleNodeMissing
        if ¬ env.mem then return (.noMem, m)
        else
          let console : Ihandle := ⟨consoleIhandle, .console⟩
          let m := { m with rom := { m.rom with knownIhandles := m.rom.knownIhandles ++ [console] } }
          let m := { m with rom := { m.rom with cifTrampoline := 0x4 } }
          let (_, host) ← pmemTo little m.ram m.host m.rom.cifTrampoline (wordBytes hvcall) 4 4
          let m := { m with host }
          let (_, rom) ← romClaimEx env.mem size_ m.rom m.rom.cifTrampoline 4 0
          let stackStart := rom.claimArenaStart - mb 1
          let m := { m with rom := { rom with stackEnd := rom.claimArenaStart, stackStart } }
          let (_, rom) ← romClaimEx env.mem size_ m.rom m.rom.stackStart (m.rom.stackEnd - m.rom.stackStart) 0
          let m := { m with rom }
          let m := m.setPC loaderEntry
          let m := m.setR 1 (m.rom.stackEnd - env.redZone)
          return (.none, m.setR 5 m.rom.cifTrampoline)

end ToyHv
