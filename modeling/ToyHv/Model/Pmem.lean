import ToyHv.Model.Machine

namespace ToyHv

def pmemHa (p : Pmem) (ra : W32) : Checked W32 := do
  bugOn (ra ≥ p.pmemBytes) .badRa
  return p.pmem + ra

/-- `pmem_gra`: the error and what `*gra` holds afterwards. -/
def pmemGra (p : Pmem) (ha gra : W32) : Err × W32 :=
  if ha ≥ p.pmem ∧ ha < p.pmem + p.pmemBytes then (.none, ha - p.pmem) else (.notFound, gra)

def pmemSize (p : Pmem) : W32 := p.pmemBytes

def pmemGraValid (p : Pmem) (ra : W32) : Bool := ra < p.pmemBytes

/-- The little-endian loop of `pmem_to` with `n` elements to go from offset `i`. The address
    of a doubleword-aligned element is munged as the processor munges it. -/
def pmemToLoop (d : W32) (src : Buf) (accessSize : W32) (i : Nat) (host : Host) : Nat → Host
  | 0 => host
  | n + 1 =>
    let host :=
      if accessSize = 1 then
        host.put ((d + BitVec.ofNat 32 i) ^^^ 7) 1 fun k => src (i + k)
      else if accessSize = 2 then
        host.put ((d + BitVec.ofNat 32 i) ^^^ 6) 2 fun k => src (i + k)
      else if accessSize = 4 then
        host.put ((d + BitVec.ofNat 32 i) ^^^ 4) 4 fun k => src (i + k)
      else host
    pmemToLoop d src accessSize (i + accessSize.toNat) host n

/-- `pmem_to`: the count transferred and host memory afterwards. -/
def pmemTo (little : Bool) (p : Pmem) (host : Host) (dest : W32) (src : Buf) (bytes accessSize : W32) :
    Checked (W32 × Host) :=
  if dest ≥ p.pmemBytes then
    .ok (0, host)
  else do
    let bytes := if dest + bytes > p.pmemBytes then p.pmemBytes - dest else bytes
    bugOn (bytes % accessSize ≠ 0) .badAlignment
    bugOn (accessSize ≠ 1 ∧ accessSize ≠ 2 ∧ accessSize ≠ 4) .badAccessSize
    if little then
      return (bytes, pmemToLoop (p.pmem + dest) src accessSize 0 host (bytes / accessSize).toNat)
    else
      return (bytes, host.put (p.pmem + dest) bytes.toNat src)

/-- The libc `strlen`, over at most `fuel` bytes of host memory. -/
def strlen (host : Host) (a : W32) : Nat → Option Nat
  | 0 => none
  | fuel + 1 => if host a = 0 then some 0 else (strlen host (a + 1) fuel).map (· + 1)

/-- The libc `strlcpy`: at most `size - 1` bytes and a NUL, and the length of the whole
    source. A source without a NUL anywhere in the address space has no length. -/
def strlcpy (buf : Buf) (d : Nat) (host : Host) (src size : W32) : Checked (W32 × Buf) :=
  match strlen host src (2^32) with
  | none => .error .undefined
  | some len =>
    let n := min len (size.toNat - 1)
    let copied := (buf.put d n fun k => host (src + BitVec.ofNat 32 k)).put (d + n) 1 fun _ => 0
    .ok (BitVec.ofNat 32 len, if size = 0 then buf else copied)

/-- The little-endian loop of `pmem_from_ex` with `n` elements to go from offset `i`: the
    early return at a NUL, if there is one, and the destination afterwards. -/
def pmemFromLoop (s : W32) (host : Host) (accessSize : W32) (nulTerm : Bool) (d i : Nat) (buf : Buf) :
    Nat → Option Nat × Buf
  | 0 => (none, buf)
  | n + 1 =>
    if accessSize = 1 then
      let v := host ((s + BitVec.ofNat 32 i) ^^^ 7)
      let buf := buf.put (d + i) 1 fun _ => v
      if nulTerm ∧ v = 0 then (some i, buf)
      else pmemFromLoop s host accessSize nulTerm d (i + accessSize.toNat) buf n
    else if accessSize = 2 then
      let buf := buf.put (d + i) 2 fun k => host (((s + BitVec.ofNat 32 i) ^^^ 6) + BitVec.ofNat 32 k)
      pmemFromLoop s host accessSize nulTerm d (i + accessSize.toNat) buf n
    else if accessSize = 4 then
      let buf := buf.put (d + i) 4 fun k => host (((s + BitVec.ofNat 32 i) ^^^ 4) + BitVec.ofNat 32 k)
      pmemFromLoop s host accessSize nulTerm d (i + accessSize.toNat) buf n
    else pmemFromLoop s host accessSize nulTerm d (i + accessSize.toNat) buf n

def PMEM_FROM_NUL_TERM : W32 := 1 <<< 0
def PMEM_FROM_FORCE_BE : W32 := 1 <<< 1

/-- `pmem_from_ex` to offset `d` of a buffer: the count it returns and the buffer afterwards. -/
def pmemFromEx (little : Bool) (p : Pmem) (host : Host) (buf : Buf) (d : Nat)
    (src bytes accessSize flags : W32) : Checked (W32 × Buf) :=
  let nulTerm : Bool := flags &&& PMEM_FROM_NUL_TERM ≠ 0
  let forceBe : Bool := flags &&& PMEM_FROM_FORCE_BE ≠ 0
  if src ≥ p.pmemBytes then
    .ok (0, buf)
  else do
    let bytes := if src + bytes > p.pmemBytes then p.pmemBytes - src else bytes
    bugOn (bytes % accessSize ≠ 0) .badAlignment
    bugOn (accessSize ≠ 1 ∧ accessSize ≠ 2 ∧ accessSize ≠ 4) .badAccessSize
    if little ∧ ¬ forceBe then
      match pmemFromLoop (p.pmem + src) host accessSize nulTerm d 0 buf (bytes / accessSize).toNat with
      | (some i, buf) => return (BitVec.ofNat 32 i, buf)
      | (none, buf) => return (bytes, buf)
    else if nulTerm then
      strlcpy buf d host (p.pmem + src) bytes
    else
      return (bytes, buf.put d bytes.toNat fun k => host (p.pmem + src + BitVec.ofNat 32 k))

end ToyHv
