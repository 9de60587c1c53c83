import GalaxyOS.Syscall.Read
import GalaxyOS.Lib.Fifo
import GalaxyOS.Lib.StopAndWait
import Mathlib.Algebra.Ring.Nat

/-! # The keyboard driver

The interrupt handler of `ps2kb.c` takes one byte from the device: a scan code, which it decodes, or the
answer to a command.  Characters go into the key buffer, from where `ps2kb_read_chars` takes them;
commands wait in a queue, and `ps2kb_loop`, called from the timer interrupt, sends the first of them.

All of this runs with interrupts disabled, so a run of the driver is a sequence of calls.
`Ps2kbHistory` keeps, beside the state of the driver, what it has been seen to do.

What the handler promises is in the three modules behind this one: `keyboardDecoding_iff`,
`keyboardBuffer_iff` and `keyboardCommands_iff`. -/

namespace GalaxyOS

/-! ### Tables -/

/-- The characters of the keys, in the order of their make codes. -/
def scancodelowerTable : List UInt8 :=
  [0, 0, 0, 0, 0, 0, 0, 0, 0, 0, 0, 0, 0, 0x09, 0x60, 0,
   0, 0, 0, 0, 0, 0x71, 0x31, 0, 0, 0, 0x7A, 0x73, 0x61, 0x77, 0x32, 0,
   0, 0x63, 0x78, 0x64, 0x65, 0x34, 0x33, 0, 0, 0x20, 0x76, 0x66, 0x74, 0x72, 0x35, 0,
   0, 0x6E, 0x62, 0x68, 0x67, 0x79, 0x36, 0, 0, 0, 0x6D, 0x6A, 0x75, 0x37, 0x38, 0,
   0, 0x2C, 0x6B, 0x69, 0x6F, 0x30, 0x39, 0, 0, 0x2E, 0x2F, 0x6C, 0x3B, 0x70, 0x2D, 0,
   0, 0, 0x27, 0, 0x5B, 0x3D, 0, 0, 0, 0, 0x0A, 0x5D, 0, 0x5C, 0, 0,
   0, 0, 0, 0, 0, 0, 0x7F, 0, 0, 0x31, 0, 0x34, 0x37, 0, 0, 0,
   0x30, 0x2E, 0x32, 0x35, 0x36, 0x38, 0, 0, 0, 0x2B, 0x33, 0x2D, 0x2A, 0x39, 0, 0]

/-- The characters of the keys with shift. -/
def scancodeupperTable : List UInt8 :=
  [0, 0, 0, 0, 0, 0, 0, 0, 0, 0, 0, 0, 0, 0x09, 0x7E, 0,
   0, 0, 0, 0, 0, 0x51, 0x21, 0, 0, 0, 0x5A, 0x53, 0x41, 0x57, 0x40, 0,
   0, 0x43, 0x58, 0x44, 0x45, 0x24, 0x23, 0, 0, 0x20, 0x56, 0x46, 0x54, 0x52, 0x25, 0,
   0, 0x4E, 0x42, 0x48, 0x47, 0x59, 0x5E, 0, 0, 0, 0x4D, 0x4A, 0x55, 0x26, 0x2A, 0,
   0, 0x3C, 0x4B, 0x49, 0x4F, 0x29, 0x28, 0, 0, 0x3E, 0x3F, 0x4C, 0x3A, 0x50, 0x5F, 0,
   0, 0, 0x22, 0, 0x7B, 0x2B, 0, 0, 0, 0, 0x0A, 0x7D, 0, 0x7C, 0, 0,
   0, 0, 0, 0, 0, 0, 0x7F, 0, 0, 0x31, 0, 0x34, 0x37, 0, 0, 0,
   0x30, 0x2E, 0x32, 0x35, 0x36, 0x38, 0, 0, 0, 0x2B, 0x33, 0x2D, 0x2A, 0x39, 0, 0]

/-- The table of the shifted characters or the other one. -/
def scancodeTable (upper : Bool) : List UInt8 := if upper then scancodeupperTable else scancodelowerTable

theorem scancodeTable_length (upper : Bool) : (scancodeTable upper).length = 128 := by
  cases upper <;> rfl

/-- Reading `scancodeupper[key]` or `scancodelower[key]`; `beyond` is what lies behind the table. -/
def scancode (beyond : Bool → UInt8 → UInt8) (upper : Bool) (key : UInt8) : UInt8 :=
  (scancodeTable upper)[key.toNat]?.getD (beyond upper key)

/-! ### State -/

/-- Both queues have cells. -/
instance queueNeZero : NeZero 1024 := Nat.instNeZeroSucc

/-- The command queue of `ps2kb.c`. -/
structure CommandQueue where
  commandQueue : Fin 1024 → UInt8
  commandQueueStart : Fin 1024
  commandQueueEnd : Fin 1024
  isSendingCommand : Bool

/-- The values 0, 1 and 2 of `state`: no prefix, the prefix 0xF0, the prefix 0xE0. -/
inductive DecoderState where
  | make | release | extended
deriving DecidableEq, Repr

/-- The variables of `ps2kb.c`. -/
structure Ps2kb where
  keydown : UInt8 → Bool
  state : DecoderState
  port : UInt8
  keyboard : Keyboard
  commands : CommandQueue

/-- What the driver is seen to do: the indices it reads its tables at, the characters it stores and
hands out, and what happens to commands. -/
structure Observed where
  lookups : List UInt8
  keys : List (Fifo.Event UInt8)
  commands : List (StopAndWait.Event UInt8)

def Observed.nothing : Observed := ⟨[], [], []⟩

def Observed.append (o o' : Observed) : Observed :=
  ⟨o.lookups ++ o'.lookups, o.keys ++ o'.keys, o.commands ++ o'.commands⟩

/-! ### Commands -/

/-- `ps2kb_send_command`. -/
def ps2kbSendCommand (kb : Ps2kb) (byte : UInt8) : Observed × Ps2kb :=
  let q := kb.commands
  if q.commandQueueEnd + 1 = q.commandQueueStart then (.nothing, kb)
  else
    (⟨[], [], [.queued byte]⟩,
      { kb with commands :=
        { q with
          commandQueue := Function.update q.commandQueue q.commandQueueEnd byte
          commandQueueEnd := q.commandQueueEnd + 1 } })

/-- `ps2kb_resend_command`; `delivered` says whether the controller takes the byte in time.  The ports
differ in the function that sends it. -/
def ps2kbResendCommand (kb : Ps2kb) (delivered : Bool) : Observed × Ps2kb :=
  if kb.port = 1 ∨ kb.port = 2 then
    (⟨[], [], if delivered then [.sent (kb.commands.commandQueue kb.commands.commandQueueStart)] else []⟩,
      { kb with commands := { kb.commands with isSendingCommand := true } })
  else (.nothing, kb)

/-- `ps2kb_succeed_command`. -/
def ps2kbSucceedCommand (kb : Ps2kb) : Ps2kb :=
  { kb with commands :=
    { kb.commands with
      commandQueueStart := kb.commands.commandQueueStart + 1
      isSendingCommand := false } }

/-- `ps2kb_loop`. -/
def ps2kbLoop (kb : Ps2kb) (delivered : Bool) : Observed × Ps2kb :=
  if kb.commands.commandQueueEnd ≠ kb.commands.commandQueueStart ∧ kb.commands.isSendingCommand = false then
    ps2kbResendCommand kb delivered
  else (.nothing, kb)

/-! ### Keys -/

/-- A shift key is down, or caps lock is on. -/
def shifted (keydown : UInt8 → Bool) : Bool := keydown 0x12 || keydown 0x59 || keydown 0x58

/-- Storing a character in the key buffer. -/
def Keyboard.store (kb : Keyboard) (c : UInt8) : Keyboard :=
  { kb with
    keybuf := Function.update kb.keybuf kb.keybufEnd c
    keybufEnd := kb.keybufEnd + 1 }

/-- The keys that are down after a make code; that of caps lock toggles. -/
def press (keydown : UInt8 → Bool) (key : UInt8) : UInt8 → Bool :=
  Function.update keydown key (if key = 0x58 then !keydown key else true)

/-- The keys that are down after a break code. -/
def release (keydown : UInt8 → Bool) (key : UInt8) : UInt8 → Bool :=
  if key = 0x58 then keydown else Function.update keydown key false

/-- `ps2kb_handler` on a make code. -/
def pressKey (beyond : Bool → UInt8 → UInt8) (kb : Ps2kb) (key : UInt8) : Observed × Ps2kb :=
  let keydown := press kb.keydown key
  let c := scancode beyond (shifted keydown) key
  if c = 0 then (⟨[key], [], []⟩, { kb with keydown := keydown })
  else (⟨[key], [.put c], []⟩, { kb with keydown := keydown, keyboard := kb.keyboard.store c })

/-- `ps2kb_handler` on a byte of a key. -/
def scanByte (beyond : Bool → UInt8 → UInt8) (kb : Ps2kb) (key : UInt8) : Observed × Ps2kb :=
  match kb.state with
  | .make =>
      if key = 0xF0 then (.nothing, { kb with state := .release })
      else if key = 0xE0 then (.nothing, { kb with state := .extended })
      else pressKey beyond kb key
  | .release => (.nothing, { kb with keydown := release kb.keydown key, state := .make })
  | .extended => (.nothing, { kb with state := .make })

/-- `ps2kb_handler` on the byte `key`. -/
def ps2kbHandler (beyond : Bool → UInt8 → UInt8) (kb : Ps2kb) (key : UInt8) (delivered : Bool) :
    Observed × Ps2kb :=
  if key = 0xFA then (⟨[], [], [.acked]⟩, ps2kbSucceedCommand kb)
  else if key = 0xFE then
    let (seen, kb') := ps2kbResendCommand kb delivered
    (Observed.append ⟨[], [], [.refused]⟩ seen, kb')
  else scanByte beyond kb key

/-! ### Runs -/

/-- A call of the driver. -/
inductive Ps2kbCall where
  /-- A byte from the device. -/
  | interrupt (key : UInt8) (delivered : Bool)
  | readChars (size : ℕ)
  | sendCommand (byte : UInt8)
  | loop (delivered : Bool)
deriving DecidableEq, Repr

def Ps2kbCall.run (beyond : Bool → UInt8 → UInt8) (kb : Ps2kb) : Ps2kbCall → Observed × Ps2kb
  | .interrupt key delivered => ps2kbHandler beyond kb key delivered
  | .readChars size =>
      let (chars, keyboard) := ps2kbReadChars kb.keyboard size
      (⟨[], [.got size chars], []⟩, { kb with keyboard := keyboard })
  | .sendCommand byte => ps2kbSendCommand kb byte
  | .loop delivered => ps2kbLoop kb delivered

/-- The driver and what it has been seen to do. -/
structure Ps2kbHistory where
  driver : Ps2kb
  seen : Observed

def Ps2kbHistory.step (beyond : Bool → UInt8 → UInt8) (h : Ps2kbHistory) (a : Ps2kbCall) :
    Ps2kbHistory :=
  let (seen, driver) := a.run beyond h.driver
  ⟨driver, h.seen.append seen⟩

/-- The driver before the first call: with two keyboards it takes a command for being sent, so that
none ever is. -/
def freshPs2kb (port : UInt8) : Ps2kbHistory :=
  { driver :=
      { keydown := fun _ => false
        state := .make
        port := port
        keyboard := { keybuf := fun _ => 0, keybufStart := 0, keybufEnd := 0 }
        commands :=
          { commandQueue := fun _ => 0
            commandQueueStart := 0
            commandQueueEnd := 0
            isSendingCommand := decide (port = 3) } }
    seen := .nothing }

end GalaxyOS
