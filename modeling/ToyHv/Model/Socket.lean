import ToyHv.Model.Types

namespace ToyHv

/-- What write(2) makes of a request: -1, or so many of the bytes it was asked to take. -/
inductive WriteResult
  | failed
  | accepted (count : ℕ)
  deriving DecidableEq

def WriteResult.ret (n : W32) : WriteResult → ℤ
  | .failed => -1
  | .accepted count => (min count n.toNat : ℕ)

structure WriteCall where
  buf : W32
  len : W32
  result : WriteResult

/-- `socket_t`, by the connection there may be. -/
structure Socket where
  fd : Option ℕ

/-- What is left to write: `buf` and `len` of `socket_out`. -/
structure Output where
  buf : W32
  len : W32

/-- A turn of the loop of `socket_out`. The result is an int, and it is the same for -1. -/
def Output.turn (s : Output) (result : WriteResult) : Output :=
  let written := (BitVec.ofInt 32 (result.ret s.len)).toInt
  ⟨s.buf + BitVec.ofInt 32 written, s.len - BitVec.ofInt 32 written⟩

/-- The loop of `socket_out` for as long as there are results: the calls made, and what is left. -/
def socketOutLoop (s : Output) : List WriteResult → List WriteCall × Output
  | [] => ([], s)
  | result :: results =>
    if s.len = 0 then ([], s)
    else
      let (calls, left) := socketOutLoop (s.turn result) results
      (⟨s.buf, s.len, result⟩ :: calls, left)

/-- `socket_handle_connect` without its callback, by what accept finds. -/
def socketHandleConnect (s : Socket) (accept : Option ℕ) : Err × Socket :=
  match s.fd, accept with
  | none, some fd => (.none, ⟨some fd⟩)
  | none, none => (.notReady, s)
  | some _, _ => (.none, s)

def socketOut (s : Socket) (accept : Option ℕ) (buf len : W32) (results : List WriteResult) :
    List WriteCall × Output × Socket :=
  let (err, s) := socketHandleConnect s accept
  if err ≠ .none then ([], ⟨buf, len⟩, s)
  else
    let (calls, left) := socketOutLoop ⟨buf, len⟩ results
    (calls, left, s)

def disconnectBanner : String := "\r\n\nMonitor console closing...\r\n"

/-- `socket_disconnect` with `mon_on_disconnect`, whose banner is at an address: the calls made, and
    the socket, which is closed once all of the banner is written. -/
def socketDisconnect (s : Socket) (banner : W32) (results : List WriteResult) : List WriteCall × Socket :=
  if s.fd = none then ([], s)
  else
    let (calls, left, s) := socketOut s none banner (BitVec.ofNat 32 disconnectBanner.length) results
    (calls, if left.len = 0 then ⟨none⟩ else s)

end ToyHv
