import Orbis.Memory
/-!
# The bus and its devices

The serial line, and the bus that leads to it and to memory.
-/
namespace Orbis

/-!
## The serial line

A subset of the 16550: two queues between the host and the guest, and byte-wide registers behind
which the guest finds them. While the divisor latch is open, the first two registers reach the
divisor instead. The interrupt line is up while received bytes wait, or the transmitter reports that
it is empty, and the guest has enabled that source.
-/

structure Uart where
  received : List Byte
  /-- Bytes from the guest that the host has not taken. -/
  sent : Array Byte
  enables : Byte
  lineControl : Byte
  modemControl : Byte
  divisorLow : Byte
  divisorHigh : Byte
  queuesEnabled : Bool
  /-- Whether the transmitter has emptied since the guest last identified an interrupt. -/
  transmitterEmptied : Bool

namespace Uart

/-- The registers of the serial line by what a guest finds behind them. -/
inductive Register where
  | data | interruptEnable | identification | lineControl | modemControl | lineStatus | unassigned
  deriving DecidableEq

def Register.ofOffset (offset : Word) : Register :=
  match offset.toNat with
  | 0 => data
  | 1 => interruptEnable
  | 2 => identification
  | 3 => lineControl
  | 4 => modemControl
  | 5 => lineStatus
  | _ => unassigned

/-- The serial line out of reset: empty queues and a line of eight data bits. -/
def initial : Uart where
  received := []
  sent := #[]
  enables := 0
  lineControl := 0x03
  modemControl := 0
  divisorLow := 0
  divisorHigh := 0
  queuesEnabled := false
  transmitterEmptied := false

/-- Whether the first two registers reach the divisor. -/
def divisorOpen (u : Uart) : Bool := u.lineControl.getLsbD 7

/-- Whether waiting bytes raise the interrupt line. -/
def dataInterrupt (u : Uart) : Bool := !u.received.isEmpty && u.enables.getLsbD 0

/-- Whether the empty transmitter raises the interrupt line. -/
def transmitterInterrupt (u : Uart) : Bool := u.enables.getLsbD 1 && u.transmitterEmptied

def interrupting (u : Uart) : Bool := u.dataInterrupt || u.transmitterInterrupt

def receive (u : Uart) (bs : List Byte) : Uart := { u with received := u.received ++ bs }

def canRead (u : Uart) : Bool := !u.sent.isEmpty

def read? (u : Uart) : Option Byte × Uart := (u.sent[0]?, { u with sent := u.sent.extract 1 })

def drain (u : Uart) : Array Byte × Uart := (u.sent, { u with sent := #[] })

/-- What the identification register shows: bit 0 is clear while an interrupt is up, whose source
follows, waiting bytes before the empty transmitter. -/
def identification (u : Uart) : Byte :=
  (if u.queuesEnabled then 0xc0 else 0x00) |||
    (if u.dataInterrupt then 0x04 else if u.transmitterInterrupt then 0x02 else 0x01)

/-- What the line status shows: the transmitter is always idle. -/
def lineStatus (u : Uart) : Byte := if u.received.isEmpty then 0x60 else 0x61

/-- The byte that a guest reads from a register, and the state after the read: it takes a byte from
the queue, and identifying an interrupt settles the transmitter's. -/
def load (u : Uart) : Register → Byte × Uart
  | .data =>
    if u.divisorOpen then (u.divisorLow, u)
    else (u.received.headD 0, { u with received := u.received.tail })
  | .interruptEnable => (if u.divisorOpen then u.divisorHigh else u.enables, u)
  | .identification => (u.identification, { u with transmitterEmptied := false })
  | .lineControl => (u.lineControl, u)
  | .modemControl => (u.modemControl, u)
  | .lineStatus => (u.lineStatus, u)
  | .unassigned => (0, u)

/-- The state after a guest writes a byte to a register. A byte is sent at once, so the transmitter
is empty again. -/
def store (u : Uart) (r : Register) (b : Byte) : Uart :=
  match r with
  | .data =>
    if u.divisorOpen then { u with divisorLow := b }
    else { u with sent := u.sent.push b, transmitterEmptied := u.enables.getLsbD 1 }
  | .interruptEnable =>
    if u.divisorOpen then { u with divisorHigh := b } else { u with enables := b }
  | .identification => { u with queuesEnabled := b.getLsbD 0 }
  | .lineControl => { u with lineControl := b }
  | .modemControl => { u with modemControl := b }
  | .lineStatus | .unassigned => u

def loadAt (u : Uart) (w : Width) (offset : Word) : Except Exception (Word × Uart) :=
  match w with
  | .byte => let (b, u) := u.load (.ofOffset offset); .ok (b.setWidth 32, u)
  | _ => .error .busError

/-- A store at an offset; only bytes can be stored. -/
def storeAt (u : Uart) (w : Width) (offset v : Word) : Except Exception Uart :=
  match w with
  | .byte => .ok (u.store (.ofOffset offset) (v.extractLsb' 0 8))
  | _ => .error .busError

end Uart

/-!
## The bus

Physical addresses lead to memory at the bottom of the address space, to the serial line in its
window, or nowhere. An access is carried out by the device that its address leads to; a refused one
has no effect, since it yields no new state.
-/

def Bus.ramSize : Nat := 32 * 1024 * 1024

structure Bus where
  ram : Ram Bus.ramSize
  uart : Uart

namespace Bus

def ramEnd : Word := 0x01ffffff

def uartBase : Word := 0x90000000

def uartEnd : Word := 0x90000100

def uartLine : Nat := 2

inductive Target where
  | ram | uart
  deriving DecidableEq

/-- Memory full of zeros and a serial line out of reset. -/
def initial : Bus := ⟨.zero, .initial⟩

def isRam (a : Word) : Bool := a ≤ ramEnd

/-- The device that an address leads to, and the offset of the address there. -/
def route? (a : Word) : Option (Target × Word) :=
  if isRam a then some (.ram, a)
  else if uartBase ≤ a ∧ a ≤ uartEnd then some (.uart, a - uartBase)
  else none

def load (b : Bus) (w : Width) (a : Word) : Except Exception (Word × Bus) :=
  match route? a with
  | some (.ram, offset) => (b.ram.load w offset).map (·, b)
  | some (.uart, offset) => (b.uart.loadAt w offset).map fun (v, u) => (v, { b with uart := u })
  | none => .error .busError

def store (b : Bus) (w : Width) (a v : Word) : Except Exception Bus :=
  match route? a with
  | some (.ram, offset) => (b.ram.store w offset v).map fun r => { b with ram := r }
  | some (.uart, offset) => (b.uart.storeAt w offset v).map fun u => { b with uart := u }
  | none => .error .busError

/-- The interrupt lines, one bit for each line that is up. -/
def interrupts (b : Bus) : Word := if b.uart.interrupting then 1#32 <<< uartLine else 0

def loadImage (b : Bus) (image : ByteArray) (offset : Word) : Except ImageError Bus :=
  (b.ram.loadImage image offset).map fun r => { b with ram := r }

end Bus

end Orbis
