import Orbis.Mmu
import Orbis.Statistics
/-!
# The state of the core

The parts of the core that keep a state of their own, and the whole.
-/
namespace Orbis

/-!
## The register file

Thirty-two words, indexed by register number. A register holds what was last written to it; `r0` is
no exception.
-/

structure Registers where
  words : Vector Word 32
  deriving DecidableEq

namespace Registers

def zero : Registers := ⟨.replicate 32 0⟩

def read (rs : Registers) (r : Reg) : Word :=
  have : r.toNat < 32 := r.isLt
  rs.words[r.toNat]

def write (rs : Registers) (r : Reg) (v : Word) : Registers := ⟨rs.words.set r.toNat v r.isLt⟩

theorem read_write (rs : Registers) (r s : Reg) (v : Word) :
    (rs.write r v).read s = if r = s then v else rs.read s := by
  simp only [read, write, Vector.getElem_set, ← BitVec.toNat_inj]

/-- The cell of a register in the dump: its name filled up to three columns, and its content. -/
def cell (rs : Registers) (r : Reg) : String :=
  r.name ++ (if r.toNat < 10 then " " else "") ++ "=" ++ Numeral.hexWord (rs.read r) ++ " "

def dump (rs : Registers) : String :=
  String.join ((List.range 8).map fun row =>
    String.join ((List.range 4).map fun column => rs.cell (.ofNat 5 (4 * row + column))) ++ "\n")

end Registers

/-!
## The tick timer

A counter that advances in every cycle and a mode word. In the one supported mode the timer expires
whenever the low 28 bits of the counter reach the period in the mode word, and then marks itself
pending.
-/

structure TickTimer where
  /-- The mode, the enable, the pending mark and the period. -/
  mode : Word
  count : Word
  deriving DecidableEq

namespace TickTimer

def initial : TickTimer := ⟨0, 0⟩

def kind (t : TickTimer) : BitVec 2 := t.mode.extractLsb' 30 2

/-- The mode in which the counter runs on past the period. -/
def continuous : BitVec 2 := 3

def enabled (t : TickTimer) : Bool := t.mode.getLsbD 29

def pendingMask : Word := BitVec.twoPow 32 28

/-- Whether the timer has expired and software has not withdrawn the mark. -/
def pending (t : TickTimer) : Bool := t.mode.getLsbD 28

/-- Whether the timer expires at its present count. -/
def expired (t : TickTimer) : Bool :=
  t.kind == continuous && t.count.extractLsb' 0 28 == t.mode.extractLsb' 0 28 && t.enabled

def advance (t : TickTimer) : TickTimer :=
  let t := { t with count := t.count + 1 }
  if t.expired then { t with mode := t.mode ||| pendingMask } else t

end TickTimer

/-!
## The interrupt controller

The controller sees the interrupt lines only when they are sampled. A change to a state with some
line up makes an interrupt pending, and it stays so until it is taken or all lines are seen down.
-/

structure InterruptController where
  mask : Word
  status : Word
  pending : Bool
  deriving DecidableEq

namespace InterruptController

def initial : InterruptController := ⟨0, 0, false⟩

def sample (p : InterruptController) (lines : Word) : InterruptController :=
  if lines = p.status then p else { p with status := lines, pending := lines != 0 }

/-- Whether an interrupt is to be taken when interrupts are enabled. -/
def due (p : InterruptController) : Bool := p.pending && p.status &&& p.mask != 0

def accept (p : InterruptController) : InterruptController := { p with pending := false }

end InterruptController

/-!
## The processor

The whole state of the machine, and the small steps from which everything else is made: writing the
supervision register, and moving the program counter. A jump takes effect one instruction late, so
while its target is set the next instruction sits in the delay slot of that jump.
-/

/-- What dispatching an exception saves for the return. -/
structure ExceptionContext where
  pc : Word
  /-- The effective address of the last exception that had one. -/
  address : Word
  supervision : Word
  deriving DecidableEq

structure Cpu where
  registers : Registers
  pc : Word
  sr : Word
  context : ExceptionContext
  interrupts : InterruptController
  timer : TickTimer
  /-- The target of the jump in whose delay slot the next instruction sits. -/
  delaySlot : Option Word
  /-- The page last fetched from, if it can be fetched from again. -/
  fetchMemo : Option Memo
  immu : Mmu .instruction
  dmmu : Mmu .data
  bus : Bus
  statistics : Statistics

namespace Cpu

def privilege (c : Cpu) : Privilege := Supervision.privilege c.sr

def flag (c : Cpu) : Bool := Supervision.has c.sr .f

/-- Whether the next instruction sits in a delay slot. -/
def inDelaySlot (c : Cpu) : Bool := c.delaySlot.isSome

/-- Sets the flag, which no other part of the machine depends on. -/
def setFlag (c : Cpu) (on : Bool) : Cpu := { c with sr := Supervision.put c.sr .f on }

def reg (c : Cpu) (r : Reg) : Word := c.registers.read r

def setReg (c : Cpu) (r : Reg) (v : Word) : Cpu := { c with registers := c.registers.write r v }

def forgetFetch (c : Cpu) : Cpu := { c with fetchMemo := none }

/-- Writes the supervision register. Paging follows its enables, and every remembered page is
dropped, since the privilege may have changed. -/
def setSr (c : Cpu) (v : Word) : Cpu :=
  { c with
    sr := v
    immu := c.immu.setEnabled (Supervision.has v .ime)
    dmmu := c.dmmu.setEnabled (Supervision.has v .dme)
    fetchMemo := none }

/-- Resets the processor: registers, context, interrupts, timer and delay slot are cleared and all
page table entries made invalid. Memory, the serial line, the other registers of the memory
management units and the counters stay. -/
def reset (c : Cpu) : Cpu :=
  { c with
    registers := .zero
    pc := 0
    context := ⟨0, 0, 0⟩
    interrupts := .initial
    timer := .initial
    delaySlot := none
    immu := c.immu.reset
    dmmu := c.dmmu.reset }.setSr Supervision.resetValue

def initial : Cpu :=
  { registers := .zero
    pc := 0
    sr := 0
    context := ⟨0, 0, 0⟩
    interrupts := .initial
    timer := .initial
    delaySlot := none
    fetchMemo := none
    immu := .initial
    dmmu := .initial
    bus := .initial
    statistics := .zero : Cpu }.reset

/-- Moves on to the next instruction, or to the target of a jump behind its delay slot. -/
def advance (c : Cpu) : Cpu := { c with pc := c.delaySlot.getD (c.pc + 4), delaySlot := none }

/-- Moves on to the next instruction as the delay slot of a jump. -/
def jump (c : Cpu) (target : Word) : Cpu := { c with pc := c.pc + 4, delaySlot := some target }

/-- Leaves the address behind the delay slot in the link register. -/
def link (c : Cpu) : Cpu := c.setReg .link (c.pc + 8)

/-- The address at a number of words from the present instruction. -/
def relative (c : Cpu) (offset : Word) : Word := c.pc + offset <<< 2

end Cpu

end Orbis
