import Orbis.Alu
import Orbis.Cpu.Spr
import Orbis.Isa.Instruction
/-!
# Execution

How exceptions are entered and left, and what instructions do.
-/
namespace Orbis

/-!
## Exceptions

Dispatching an exception saves where the program was and turns to the handler with paging and
interrupts off; returning undoes this. From a delay slot the saved address is that of the jump, so
that the return executes the jump again, and the saved supervision word says so.
-/

namespace Cpu

/-- Where a program resumes after an exception: at the next instruction, or at the jump in whose
delay slot it sits. -/
def resumption (c : Cpu) : Word := if c.inDelaySlot then c.pc - 4 else c.pc

def savedSr (c : Cpu) : Word :=
  if c.inDelaySlot then c.sr ||| Supervision.Bit.dsx.mask else c.sr

def raise (c : Cpu) (e : Exception) (address : Word) : Cpu :=
  { c with
    pc := e.vector
    context :=
      { pc := c.resumption
        address := if e.hasAddress then address else c.context.address
        supervision := c.savedSr }
    delaySlot := none
    statistics := c.statistics.record e 1 }.setSr Supervision.resetValue

def returnFromException (c : Cpu) : Cpu :=
  { c with pc := c.context.pc, delaySlot := none }.setSr c.context.supervision

end Cpu

/-!
## Instructions at work

What each instruction does to the machine, and how the machine goes on from there. A fault is not
dispatched here: it is reported with its effective address, and the instruction has had no effect on
registers, memory and devices.
-/

/-- How the machine goes on after an instruction. -/
inductive Flow where
  | next
  | halt
  | fault (e : Exception) (address : Word)
  deriving DecidableEq

def LoadOp.extend (op : LoadOp) (v : Word) : Word :=
  match op with
  | lbs => (v.setWidth 8).signExtend 32
  | lhs => (v.setWidth 16).signExtend 32
  | lwz | lbz | lhz => v

namespace Cpu

/-- A load through the data side at the present privilege. -/
def load (c : Cpu) (op : LoadOp) (a : Word) : Except Exception Word × Cpu :=
  match c.dmmu.load c.bus op.width a c.privilege with
  | (.ok (v, bus), dmmu) => (.ok (op.extend v), { c with dmmu := dmmu, bus := bus })
  | (.error e, dmmu) => (.error e, { c with dmmu := dmmu })

/-- A store through the data side at the present privilege. -/
def store (c : Cpu) (op : StoreOp) (a v : Word) : Except Exception Unit × Cpu :=
  match c.dmmu.store c.bus op.width a c.privilege v with
  | (.ok bus, dmmu) => (.ok (), { c with dmmu := dmmu, bus := bus })
  | (.error e, dmmu) => (.error e, { c with dmmu := dmmu })

/-- Whether a timer interrupt is waiting and may be taken. -/
def tickDue (c : Cpu) : Bool := c.timer.pending && Supervision.has c.sr .tee

/-- The address at a signed displacement from a register. -/
def displaced (c : Cpu) (a : Reg) (i : Half) : Word := c.reg a + i.signExtend 32

/-- The address of the special register that an instruction names. -/
def sprAddress (c : Cpu) (a : Reg) (k : Half) : Word := c.reg a ||| k.setWidth 32

def complete (c : Cpu) (d : Reg) (v : Word) : Cpu × Flow := ((c.setReg d v).advance, .next)

/-- The immediate of the instruction that stops the machine, if the privilege allows. -/
def haltImmediate : Half := 1

def execute (c : Cpu) : Instruction → Cpu × Flow
  | .j n => (c.jump (c.relative n), .next)
  | .jal n => (c.link.jump (c.relative n), .next)
  | .bnf n => (if c.flag then c.advance else c.jump (c.relative n), .next)
  | .bf n => (if c.flag then c.jump (c.relative n) else c.advance, .next)
  | .nop k =>
    if k = haltImmediate ∧ c.privilege = .supervisor then (c, .halt) else (c.advance, .next)
  | .movhi d k => c.complete d (k ++ 0#16)
  | .sys _ => ({ c with pc := c.pc + 4 }, .fault .systemCall 0)
  | .trap _ => (c.advance, .halt)
  | .rfe => (c.returnFromException, .next)
  | .jr b => (c.jump (c.reg b), .next)
  | .jalr b => (c.link.jump (c.reg b), .next)
  | .load op d a i =>
    let address := c.displaced a i
    match c.load op address with
    | (.ok v, c) => c.complete d v
    | (.error e, c) => (c, .fault e address)
  | .addi d a i => c.complete d (c.reg a + i.signExtend 32)
  | .andi d a k => c.complete d (c.reg a &&& k.setWidth 32)
  | .ori d a k => c.complete d (c.reg a ||| k.setWidth 32)
  | .xori d a i => c.complete d (c.reg a ^^^ i.signExtend 32)
  | .mfspr d a k => c.complete d (c.spr (c.sprAddress a k))
  | .mtspr a b k =>
    let c := c.setSpr (c.sprAddress a k) (c.reg b)
    if c.tickDue then (c, .fault .tickTimer 0) else (c.advance, .next)
  | .shiftImm op d a l => c.complete d (op.aluOp.eval (c.reg a) (l.setWidth 32))
  | .setFlagImm cond a i =>
    ((c.setFlag (cond.holds (c.reg a) (i.signExtend 32))).advance, .next)
  | .store op a b i =>
    let address := c.displaced a i
    match c.store op address (c.reg b) with
    | (.ok _, c) => (c.advance, .next)
    | (.error e, c) => (c, .fault e address)
  | .alu op d a b => c.complete d (op.eval (c.reg a) (c.reg b))
  | .setFlag cond a b => ((c.setFlag (cond.holds (c.reg a) (c.reg b))).advance, .next)
  | .illegal _ => (c, .fault .illegalInstruction c.pc)

end Cpu

end Orbis
