import ToyHv.Model.Getprop
import ToyHv.Model.Main
import ToyHv.Model.Open

namespace ToyHv

/-- `d[guest_from_ex(d, dev_ea, sizeof(xfer_buf), 1, true)] = '\0'` and the search for the node. -/
def romFinddevice (pathOffset : List W8 → Checked W32) (m : Machine) (cia ciaIn ciaOut : W32) :
    Checked (Err × Machine) := do
  let (err, devEa) ← ciaCell m cia ciaIn 0
  if err ≠ .none then return (err, m)
  else
    let d ← romPropName m devEa
    let node ← pathOffset (pathAt d PAGE_SIZE.toNat)
    let phandle := if node.toInt < 0 then -1 else romGetPhandle node
    guestToX (m.setXferBuf d) (← ciaRet cia ciaIn ciaOut 0) phandle

def romClaim (mem : Bool) (m : Machine) (cia ciaIn ciaOut : W32) : Checked (Err × Machine) := do
  let (err, addr) ← ciaCell m cia ciaIn 0
  if err ≠ .none then return (err, m)
  else
    let (err, size) ← ciaCell m cia ciaIn 1
    if err ≠ .none then return (err, m)
    else
      let (err, align) ← ciaCell m cia ciaIn 2
      if err ≠ .none then return (err, m)
      else
        let (out, rom) ← romClaimEx mem (pmemSize m.ram) m.rom addr size align
        guestToX { m with rom } (← ciaRet cia ciaIn ciaOut 0) out

abbrev Handler := Machine → W32 → W32 → W32 → Checked (Err × Machine)

/-- What the handlers find outside, and those of them that are not modelled. -/
structure CifEnv where
  fuel : ℕ
  fdt : Dtb
  memoryNode : W32
  mem : Bool
  opening : OpenEnv
  pathOffset : List W8 → Checked W32
  others : CifHandler → Handler

def CifEnv.handler (env : CifEnv) : CifHandler → Handler
  | .child => romChild env.fuel env.fdt
  | .peer => romPeer env.fuel env.fdt
  | .parent => romParent env.fuel env.fdt
  | .finddevice => romFinddevice env.pathOffset
  | .getprop => romGetprop env.fuel env.fdt env.memoryNode
  | .getproplen => romGetproplen env.fuel env.fdt env.memoryNode
  | .openDevice => romOpen env.opening
  | .seek => romSeek
  | .close => fun m cia ciaIn _ => romClose m cia ciaIn
  | .write => romWrite
  | .read => romRead
  | .claim => romClaim env.mem
  | .shutdown => fun m _ _ _ => .ok (.shutdown, m)
  | .callmethod => romCallmethod env.mem
  | other => env.others other

def CIA_SERVICE (cia : W32) : W32 := cia + 0 * 4
def CIA_IN (cia : W32) : W32 := cia + 1 * 4
def CIA_OUT (cia : W32) : W32 := cia + 2 * 4

/-- `service[guest_from_ex(&service, service_ea, sizeof(service) - 1, 1, true)] = '\0'`, on the stack. -/
def romServiceName (m : Machine) (serviceEa : W32) : Checked Buf := do
  let (count, service) ← guestFromEx m m.garbage serviceEa (32 - 1) 1 true
  bugOn (count ≥ 32) .undefined
  return service.put count.toNat 1 fun _ => 0

/-- The label `done` of `rom_call`: what the guest is told. -/
def romCallDone (err : Err) (m : Machine) : Err × Machine :=
  let m := m.setR 3 (if err = .none then 0 else -1)
  (.none, m.setPC m.regs.ppcLR)

/-- `rom_call`, with the handlers' functions. -/
def romCallBy (handler : CifHandler → Handler) (m : Machine) : Checked (Err × Machine) := do
  let (err, pc) ← guestBackmap m m.regs.ppcPC (wordAt m.garbage 0)
  if err ≠ .none then return (.notRomCall, m)
  else if pc ≠ m.rom.cifTrampoline + 4 then return (.notRomCall, m)
  else
    let cia := m.regs.ppcGPRs 3
    let (err, serviceEa) ← guestFromX m (wordAt m.garbage 0) (CIA_SERVICE cia)
    if err ≠ .none then return romCallDone err m
    else
      let (err, inCount) ← guestFromX m (wordAt m.garbage 0) (CIA_IN cia)
      if err ≠ .none then return romCallDone err m
      else
        let (err, outCount) ← guestFromX m (wordAt m.garbage 0) (CIA_OUT cia)
        if err ≠ .none then return romCallDone err m
        else
          let service ← romServiceName m serviceEa
          match handlers.find? fun h => strcmpEq h.1 service with
          | none => return (.unsupported, m)
          | some h =>
            let (err, m) ← handler h.2 m cia inCount outCount
            if err = .shutdown ∨ err = .pause then return (err, m) else return romCallDone err m

end ToyHv
