import Orbis.Configuration
import Orbis.Cpu.Run
/-!
# Simulators

A machine together with the choices of its user: loading images, and running by slices up to a limit
of cycles. A run may end early without having used any cycle, but two such runs never follow each
other, so twice the limit bounds the number of runs.
-/
namespace Orbis

structure Simulator where
  cpu : Cpu
  configuration : Configuration

namespace Simulator

def ofConfiguration (c : Configuration) : Simulator := ⟨.initial, c⟩

/-- Resets the processor, sets the program counter and loads an image at address zero. The first
two happen even if the image is refused. -/
def loadImage (s : Simulator) (image : ByteArray) (pc : Word) :
    Except ImageError Nat × Simulator :=
  let cpu := { s.cpu.reset with pc := pc }
  match cpu.bus.loadImage image 0 with
  | .ok bus => (.ok image.size, { s with cpu := { cpu with bus := bus } })
  | .error e => (.error e, { s with cpu := cpu })

/-- Loads the image that a file holds. Nothing happens if the file cannot be read. -/
def loadFile (s : Simulator) (path : String) (content : Except FileError ByteArray) (pc : Word) :
    Except ImageError Nat × Simulator :=
  match content with
  | .ok image => s.loadImage image pc
  | .error reason => (.error (.unreadable path reason), s)

def setUart (s : Simulator) (u : Uart) : Simulator :=
  { s with cpu := { s.cpu with bus := { s.cpu.bus with uart := u } } }

def uart (s : Simulator) : Uart := s.cpu.bus.uart

def receive (s : Simulator) (keys : List Byte) : Simulator := s.setUart (s.uart.receive keys)

/-- Whether the program has printed bytes that were not taken. -/
def canRead (s : Simulator) : Bool := s.uart.canRead

def read? (s : Simulator) : Option Byte × Simulator :=
  let (b, u) := s.uart.read?
  (b, s.setUart u)

def drain (s : Simulator) : Array Byte × Simulator :=
  let (bs, u) := s.uart.drain
  (bs, s.setUart u)

def run (s : Simulator) (budget : Nat) : Simulator × Outcome :=
  let (cpu, outcome) := s.cpu.run budget
  ({ s with cpu := cpu }, outcome)

def runSlice (s : Simulator) : Simulator × Outcome := s.run s.configuration.sliceBudget

/-- The number of cycles that the machine has begun. -/
def cycles (s : Simulator) : Nat := s.cpu.statistics.cycles

/-- The budget of the next slice when the machine is to stop at a number of cycles. -/
def budgetBefore (s : Simulator) (limit : Nat) : Nat :=
  min s.configuration.sliceBudget (limit - s.cycles)

/-- Makes at most `runs` runs, until the program stops or the limit of cycles is reached. -/
def runBefore (s : Simulator) (limit : Nat) : (runs : Nat) → Simulator × Bool
  | 0 => (s, false)
  | runs + 1 =>
    if s.cycles < limit then
      match s.run (s.budgetBefore limit) with
      | (s, .halted) => (s, true)
      | (s, _) => s.runBefore limit runs
    else (s, false)

/-- Runs slice by slice until the program stops, which is answered by `true`, or a number of cycles
has gone by. -/
def runUntilHalt (s : Simulator) (maxCycles : Nat) : Simulator × Bool :=
  s.runBefore (s.cycles + maxCycles) (2 * maxCycles + 1)

end Simulator

end Orbis
