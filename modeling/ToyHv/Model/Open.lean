import ToyHv.Model.Handles

namespace ToyHv

/-- `strchr` for a separator, which is cut out: what is before it, and what is behind it. -/
def cutAt (c : W8) (s : List W8) : List W8 × Option (List W8) :=
  if c ∈ s then (s.takeWhile (· ≠ c), some (s.dropWhile (· ≠ c)).tail) else (s, none)

def isDigit (c : W8) : Bool := 0x30 ≤ c ∧ c ≤ 0x39
def isSpace (c : W8) : Bool := c = 0x20 ∨ (0x09 ≤ c ∧ c ≤ 0x0d)

/-- The libc `atoi`, by `strtol` of a long of 32 bits. -/
def atoi (s : List W8) : W32 :=
  let s := s.dropWhile isSpace
  let digits := if s.head? = some 0x2d ∨ s.head? = some 0x2b then s.tail else s
  let value := (digits.takeWhile isDigit).foldl (fun value c => 10 * value + (c.toNat - 0x30)) 0
  if s.head? = some 0x2d then - BitVec.ofNat 32 (min value (2^31)) else BitVec.ofNat 32 (min value (2^31 - 1))

/-- What an open finds outside: the answers of strdup, open, the device tree and `disk_open`, the
    block malloc has for the handle, if any, with what its `current_off` holds, and what the
    locals `part` and `blk` hold. -/
structure OpenEnv where
  dupDev : Bool
  dupPath : Bool
  openFile : List W8 → Option ℕ
  pathOffset : List W8 → Option ℕ
  diskFile : ℕ → Option (List W8)
  diskOpen : List W8 → Option (ℕ × W32)
  block : Option (W32 × W32)
  part : DiskPart
  blk : Buf

/-- `rom_open_parse_path`: the error, `*ihandle` if it is set, the system and the handles afterwards.
    What goes wrong behind `done` is not returned. -/
def romOpenParsePath (env : OpenEnv) (os : Os) (path : List W8) (knownIhandles : List Ihandle) :
    Checked (Err × Option W32 × Os × List Ihandle) :=
  if ¬ env.dupDev then return (.noMem, none, os, knownIhandles)
  else
    let (dev, f) := cutAt 0x2c path
    let (dev, p) := cutAt 0x3a dev
    match f with
    | some f =>
      let (err, ihandle, knownIhandles) :=
        romIhandleFromFile (env.openFile f) (env.block.map Prod.fst) env.dupPath knownIhandles
      return (err, ihandle, os, knownIhandles)
    | none =>
      match (env.pathOffset dev).bind env.diskFile with
      | none => return (.none, none, os, knownIhandles)
      | some diskPath =>
        match env.diskOpen diskPath with
        | none => return (.posix, none, os, knownIhandles)
        | some (fd, stSize) =>
          match p with
          -- atoi(NULL)
          | none => .error .undefined
          | some p =>
            let (err, part, os) := diskFindPart os fd stSize (atoi p) env.part env.blk
            if err ≠ .none then return (.none, none, os, knownIhandles)
            else
              let (_, ihandle, knownIhandles) := romIhandleFromDisk env.block env.dupPath fd part knownIhandles
              return (.none, ihandle, os, knownIhandles)

/-- The label `done`, with the local `disk` if it was ever set. `disk_close` does nothing. -/
def romOpenDone (err : Err) (disk : Option (ℕ × W32)) : Checked Err :=
  if err ≠ .none ∧ disk = none then .error .undefined else .ok .none

/-- `rom_open_parse_path` again, where to look at a local that was never set is undefined. -/
def romOpenParsePathStrict (env : OpenEnv) (os : Os) (path : List W8) (knownIhandles : List Ihandle) :
    Checked (Err × Option W32 × Os × List Ihandle) :=
  if ¬ env.dupDev then return (.noMem, none, os, knownIhandles)
  else
    let (dev, f) := cutAt 0x2c path
    let (dev, p) := cutAt 0x3a dev
    match f with
    | some f =>
      let (err, ihandle, knownIhandles) :=
        romIhandleFromFile (env.openFile f) (env.block.map Prod.fst) env.dupPath knownIhandles
      return (err, ihandle, os, knownIhandles)
    | none =>
      match env.pathOffset dev with
      | none => return (← romOpenDone .notFound none, none, os, knownIhandles)
      | some node =>
        match env.diskFile node with
        | none => return (← romOpenDone .unsupported none, none, os, knownIhandles)
        | some diskPath =>
          match env.diskOpen diskPath with
          | none => return (.posix, none, os, knownIhandles)
          | some disk =>
            match p with
            | none => .error .undefined
            | some p =>
              let (err, part, os) := diskFindPart os disk.1 disk.2 (atoi p) env.part env.blk
              if err ≠ .none then return (← romOpenDone err (some disk), none, os, knownIhandles)
              else
                let (err, ihandle, knownIhandles) := romIhandleFromDisk env.block env.dupPath disk.1 part knownIhandles
                return (← romOpenDone err (some disk), ihandle, os, knownIhandles)

/-- The C string at the start of a buffer of so many bytes. -/
def pathAt (buf : Buf) (n : ℕ) : List W8 := ((List.range n).map buf).takeWhile (· ≠ 0)

/-- `rom_open`. The terminator goes where the count says, which may be behind the buffer. -/
def romOpen (env : OpenEnv) (m : Machine) (cia ciaIn ciaOut : W32) : Checked (Err × Machine) := do
  let (err, pathEa) ← ciaCell m cia ciaIn 0
  if err ≠ .none then return (err, m)
  else
    let (count, d) ← guestFromEx m m.rom.xferBuf pathEa PAGE_SIZE 1 true
    bugOn (count ≥ PAGE_SIZE) .undefined
    let d := d.put count.toNat 1 fun _ => 0
    let m := { m with rom := { m.rom with xferBuf := d } }
    let (_, ihandle, os, knownIhandles) ← romOpenParsePath env m.os (pathAt d count.toNat) m.rom.knownIhandles
    let m := { m.setHandles knownIhandles with os }
    guestToX m (← ciaRet cia ciaIn ciaOut 0) (ihandle.getD 0)

end ToyHv
