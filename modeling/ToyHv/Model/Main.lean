import Mathlib.Data.List.Basic
import Mathlib.Logic.Function.Basic
import ToyHv.Model.Types

namespace ToyHv

/-- The commands that have `picol_err` behind them. -/
inductive MonCommand
  | quit | cont | pause
  deriving DecidableEq

/-- What a command stores: `picol_quit`, `picol_cont` and `picol_pause`. -/
def MonCommand.err : MonCommand → Err
  | .quit => .shutdown
  | .cont => .continue
  | .pause => .pause

/-- `picol_err` after a script that ran these commands. -/
def picolErrAfter (picolErr : Err) (ran : List MonCommand) : Err := ran.foldl (fun _ command => command.err) picolErr

/-- The statics of mon.c. -/
structure Mon where
  connected : Bool
  ibuf : ℕ → Char
  ibufIndex : ℕ
  picolErr : Err
  activated : Bool
  pendPrompt : Bool

def IBUF_SIZE : ℕ := 4096

/-- What `socket_in` finds for a byte: nobody at the other end, nothing to read, the end, or a
    character. A line that ends is evaluated, and runs some of the commands. -/
inductive SocketRead
  | absent | empty | closed
  | char (c : Char) (ran : List MonCommand)

/-- What happens outside during a `mon_check`. Somebody may connect while the prompt is printed. -/
structure MonInput where
  connects : Bool
  read : SocketRead

def Mon.handleConnect (mon : Mon) : Mon :=
  if mon.connected then mon else { mon with connected := true, pendPrompt := true }

def monPrompt (mon : Mon) (connects : Bool) : Mon :=
  { if connects then mon.handleConnect else mon with ibufIndex := 0 }

/-- The error a script left, which is reported once. -/
def Mon.takeErr (mon : Mon) : Err × Mon := (mon.picolErr, { mon with picolErr := .none })

/-- The end of `mon_check`. A backspace is stored like any other character. -/
def monStore (mon : Mon) (c : Char) : Mon :=
  if mon.ibufIndex = IBUF_SIZE - 1 then mon
  else { mon with ibuf := Function.update mon.ibuf mon.ibufIndex c, ibufIndex := mon.ibufIndex + 1 }

def monChar (mon : Mon) (c : Char) (ran : List MonCommand) : Err × Mon :=
  if c = '\x08' then
    (.none, monStore (if mon.ibufIndex ≠ 0 then { mon with ibufIndex := mon.ibufIndex - 1 } else mon) c)
  else if c = '\n' then
    { mon with
      ibuf := Function.update mon.ibuf mon.ibufIndex '\x00'
      picolErr := picolErrAfter mon.picolErr ran
      pendPrompt := true }.takeErr
  else if c = '\r' then (.none, mon)
  else (.none, monStore mon c)

def monCheck (mon : Mon) (input : MonInput) : Err × Mon :=
  let mon := if mon.pendPrompt then { monPrompt mon input.connects with pendPrompt := false } else mon
  match input.read with
  | .absent => (.none, mon)
  | .empty => (.none, mon.handleConnect)
  | .closed => (.none, { mon.handleConnect with connected := false })
  | .char c ran => monChar mon.handleConnect c ran

/-- `mon_trace`: without an on_trace script nothing happens, else it runs. -/
def monTrace (mon : Mon) (script : Option (List MonCommand)) : Err × Mon :=
  match script with
  | none => (.none, mon)
  | some ran =>
    let (err, mon) := { mon with picolErr := picolErrAfter mon.picolErr ran }.takeErr
    (if err = .continue then .none else err, mon)

/-- The handlers of the client interface. -/
inductive CifHandler
  | child | peer | parent | itopackage | itopath | finddevice | getprop | getproplen | openDevice | seek
  | close | write | read | claim | shutdown | milliseconds | callmethod | ptopath
  deriving DecidableEq

def handlers : List (String × CifHandler) :=
  [("child", .child), ("peer", .peer), ("parent", .parent), ("instance-to-package", .itopackage),
    ("instance-to-path", .itopath), ("finddevice", .finddevice), ("getprop", .getprop), ("getproplen", .getproplen),
    ("open", .openDevice), ("seek", .seek), ("close", .close), ("write", .write), ("read", .read), ("claim", .claim),
    ("exit", .shutdown), ("enter", .shutdown), ("boot", .shutdown), ("chain", .shutdown),
    ("milliseconds", .milliseconds), ("call-method", .callmethod), ("package-to-path", .ptopath)]

/-- What a handler returns, if it is not `rom_shutdown`: no other one names ERR_SHUTDOWN. -/
abbrev HandlerErr := {err : Err // err ≠ .shutdown}

/-- What a system call of the guest is to `rom_call`: none of its own, one whose array cannot be
    read, or one for a service. -/
inductive SystemCall
  | elsewhere | unreadable
  | service (name : String) (answer : HandlerErr)

/-- The error `rom_call` returns. -/
def romCall : SystemCall → Err
  | .elsewhere => .notRomCall
  | .unreadable => .none
  | .service name answer =>
    match handlers.lookup name with
    | none => .unsupported
    | some handler =>
      let err := if handler = .shutdown then .shutdown else answer.val
      if err = .shutdown ∨ err = .pause then err else .none

/-- `vmm_return_code_t`, with how the exit's handler fared. -/
inductive VmmReturn
  | null | bogusContext | stopped
  | pageFault (isi : Bool) (err : Err)
  | alignmentFault
  | programException (err : Err)
  | traceException | altivecAssist | invalidAdSpace
  | systemCall (call : SystemCall)
  | other (code : ℕ)

/-- Where `main` is in its loop. -/
inductive Place
  | guest | trace | check
  /-- in `mon_activate`, before and after somebody connected -/
  | waiting | monitor
  | stop
  deriving DecidableEq

structure Main where
  place : Place
  mon : Mon

def Main.start (startup : List MonCommand) : Main :=
  ⟨.guest, ⟨false, fun _ => '\x00', 0, picolErrAfter .none startup, false, false⟩⟩

/-- The label `unhandled`, up to the wait in `mon_activate`. -/
def Main.unhandled (s : Main) : Main := ⟨.waiting, { s.mon with activated := true }⟩

def Main.exit (s : Main) : VmmReturn → Main
  | .null => { s with place := .trace }
  | .pageFault _ err => if err ≠ .none then s.unhandled else { s with place := .trace }
  | .programException err => if err ≠ .none then s.unhandled else { s with place := .trace }
  | .systemCall call =>
    let err := romCall call
    if err = .shutdown then { s with place := .stop }
    else if err ≠ .none then s.unhandled
    else { s with place := .trace }
  | .bogusContext | .stopped | .alignmentFault | .traceException | .altivecAssist | .invalidAdSpace | .other _ =>
    s.unhandled

/-- What happens next in the loop. -/
inductive MainEvent
  | exit (ret : VmmReturn)
  | trace (script : Option (List MonCommand))
  | check (input : MonInput)
  | accept (accepted : Bool)
  | sync (input : MonInput)

/-- The loop of `main`, from one call of another part to the next. -/
def Main.step (s : Main) : MainEvent → Option Main
  | .exit ret => if s.place = .guest then some (s.exit ret) else none
  | .trace script =>
    if s.place = .trace then
      let (err, mon) := monTrace s.mon script
      some (if err = .shutdown then ⟨.stop, mon⟩
        else if err ≠ .none then Main.unhandled ⟨.trace, mon⟩
        else ⟨.check, mon⟩)
    else none
  | .check input =>
    if s.place = .check then
      let (err, mon) := monCheck s.mon input
      some (if err = .shutdown then ⟨.stop, mon⟩
        else if err ≠ .none ∧ err ≠ .continue then Main.unhandled ⟨.check, mon⟩
        else ⟨.guest, mon⟩)
    else none
  | .accept accepted =>
    if s.place = .waiting then
      some (if accepted ∨ s.mon.connected then ⟨.monitor, { s.mon.handleConnect with pendPrompt := true }⟩ else s)
    else none
  | .sync input =>
    if s.place = .monitor then
      let (err, mon) := monCheck s.mon input
      some (if err = .continue then ⟨.guest, { mon with activated := false }⟩
        -- `main` takes every other error for a stop
        else if err ≠ .none then ⟨.stop, { mon with activated := false }⟩
        else ⟨.monitor, mon⟩)
    else none

def MainStep (s : Main) (e : MainEvent) (t : Main) : Prop := s.step e = some t

end ToyHv
