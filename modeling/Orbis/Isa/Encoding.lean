import Orbis.Isa.Instruction
/-!
# Instruction words

Instructions are read from words and written to them. A word begins with an opcode, and its other
fields follow a layout that the opcode chooses.
-/
namespace Orbis

/-!
## Primary opcodes

The top six bits of an instruction word name its family. Every family has one code and no code has
two families, so `ofCode?` finds a family again from its code.
-/

/-- The families of instructions, as the primary opcode tells them apart. -/
inductive Opcode where
  | j | jal | bnf | bf | nop | movhi | system | rfe | jr | jalr
  | load (op : LoadOp)
  | addi | andi | ori | xori | mfspr | shiftImm | setFlagImm | mtspr
  | store (op : StoreOp)
  | alu | setFlag
  deriving DecidableEq

namespace Opcode

def all : List Opcode :=
  [j, jal, bnf, bf, nop, movhi, system, rfe, jr, jalr] ++ LoadOp.all.map load ++
    [addi, andi, ori, xori, mfspr, shiftImm, setFlagImm, mtspr] ++ StoreOp.all.map store ++
    [alu, setFlag]

def code : Opcode → BitVec 6
  | j => 0x00
  | jal => 0x01
  | bnf => 0x03
  | bf => 0x04
  | nop => 0x05
  | movhi => 0x06
  | system => 0x08
  | rfe => 0x09
  | jr => 0x11
  | jalr => 0x12
  | load .lwz => 0x21
  | load .lbz => 0x23
  | load .lbs => 0x24
  | load .lhz => 0x25
  | load .lhs => 0x26
  | addi => 0x27
  | andi => 0x29
  | ori => 0x2a
  | xori => 0x2b
  | mfspr => 0x2d
  | shiftImm => 0x2e
  | setFlagImm => 0x2f
  | mtspr => 0x30
  | store .sw => 0x35
  | store .sb => 0x36
  | store .sh => 0x37
  | alu => 0x38
  | setFlag => 0x39

def ofCode? (c : BitVec 6) : Option Opcode := all.find? (·.code == c)

theorem ofCode?_code (op : Opcode) : ofCode? op.code = some op := by
  rcases op with _ | _ | _ | _ | _ | _ | _ | _ | _ | _ | (_ | _ | _ | _ | _) | _ | _ | _ | _ | _ |
    _ | _ | _ | (_ | _ | _) | _ | _ <;> decide

end Opcode

/-!
## Fields of instruction words

Where an instruction word keeps its operands, bit 0 being the least significant one. `d` names the
destination register, `a` and `b` the sources. Formats without a destination keep the high part of
their immediate in its place.
-/

namespace Word

def opcode (w : Word) : BitVec 6 := w.extractLsb' 26 6

def rd (w : Word) : Reg := w.extractLsb' 21 5

def ra (w : Word) : Reg := w.extractLsb' 16 5

def rb (w : Word) : Reg := w.extractLsb' 11 5

/-- The comparison selector, in the place of the destination register. -/
def selector (w : Word) : BitVec 5 := w.extractLsb' 21 5

def immediate (w : Word) : Half := w.extractLsb' 0 16

/-- The immediate of stores and special-register writes, split around the source registers. -/
def splitImmediate (w : Word) : Half := w.extractLsb' 21 5 ++ w.extractLsb' 0 11

/-- The offset of jumps and branches, in words and sign-extended. -/
def jumpOffset (w : Word) : Word := (w.extractLsb' 0 26).signExtend 32

def shiftAmount (w : Word) : BitVec 5 := w.extractLsb' 0 5

def shiftKind (w : Word) : BitVec 2 := w.extractLsb' 6 2

/-- The function code of the arithmetic unit, whose halves stand apart. -/
def aluCode (w : Word) : BitVec 8 := w.extractLsb' 6 4 ++ w.extractLsb' 0 4

/-- The high half of the word, which tells system calls from traps. -/
def high (w : Word) : Half := w.extractLsb' 16 16

end Word

/-!
## Encoding and decoding

`Instruction.encode` gives the canonical word of an instruction, in which unused bits are clear but
for the fixed bit of `l.nop`. `Instruction.decode` reads any word. The encoder keeps the low 26 bits
of a jump offset and the low 5 of a shift amount, so decoding undoes encoding exactly where these
operands fit their fields.
-/

/-! ### Layouts, from the most significant field down -/

namespace Format

def jump (op : Opcode) (offset : Word) : Word := op.code ++ offset.setWidth 26

/-- Two registers and an immediate; the first register field also serves as a selector. -/
def immediate (op : Opcode) (d a : BitVec 5) (i : Half) : Word := op.code ++ d ++ a ++ i

/-- Two sources around which the immediate is split. -/
def split (op : Opcode) (a b : Reg) (i : Half) : Word :=
  op.code ++ i.extractLsb' 11 5 ++ a ++ b ++ i.extractLsb' 0 11

/-- Three register fields and a modifier; the first also serves as a selector. -/
def register (op : Opcode) (d a b : BitVec 5) (modifier : BitVec 11) : Word :=
  op.code ++ d ++ a ++ b ++ modifier

def tagged (tag k : Half) : Word := tag ++ k

end Format

namespace Instruction

def nopTag : Half := 0x1500

def sysTag : Half := 0x2000

def trapTag : Half := 0x2100

def encode : Instruction → Word
  | j n => Format.jump .j n
  | jal n => Format.jump .jal n
  | bnf n => Format.jump .bnf n
  | bf n => Format.jump .bf n
  | nop k => Format.tagged nopTag k
  | movhi d k => Format.immediate .movhi d 0 k
  | sys k => Format.tagged sysTag k
  | trap k => Format.tagged trapTag k
  | rfe => Format.immediate .rfe 0 0 0
  | jr b => Format.register .jr 0 0 b 0
  | jalr b => Format.register .jalr 0 0 b 0
  | load op d a i => Format.immediate (.load op) d a i
  | addi d a i => Format.immediate .addi d a i
  | andi d a k => Format.immediate .andi d a k
  | ori d a k => Format.immediate .ori d a k
  | xori d a i => Format.immediate .xori d a i
  | mfspr d a k => Format.immediate .mfspr d a k
  | shiftImm op d a l =>
    Format.immediate .shiftImm d a (0#8 ++ op.code ++ 0#1 ++ l.extractLsb' 0 5)
  | setFlagImm c a i => Format.immediate .setFlagImm c.code a i
  | mtspr a b k => Format.split .mtspr a b k
  | store op a b i => Format.split (.store op) a b i
  | alu op d a b =>
    Format.register .alu d a b (0#1 ++ op.code.extractLsb' 4 4 ++ 0#2 ++ op.code.extractLsb' 0 4)
  | setFlag c a b => Format.register .setFlag c.code a b 0
  | illegal w => w

/-- The system family is told apart by the whole high half. -/
def decodeSystem (w : Word) : Instruction :=
  if w.high = sysTag then sys w.immediate
  else if w.high = trapTag then trap w.immediate
  else illegal w

/-- The instruction of a word whose family is known. -/
def decodeAs (w : Word) : Opcode → Instruction
  | .j => j w.jumpOffset
  | .jal => jal w.jumpOffset
  | .bnf => bnf w.jumpOffset
  | .bf => bf w.jumpOffset
  | .nop => nop w.immediate
  | .movhi => movhi w.rd w.immediate
  | .system => decodeSystem w
  | .rfe => rfe
  | .jr => jr w.rb
  | .jalr => jalr w.rb
  | .load op => load op w.rd w.ra w.immediate
  | .addi => addi w.rd w.ra w.immediate
  | .andi => andi w.rd w.ra w.immediate
  | .ori => ori w.rd w.ra w.immediate
  | .xori => xori w.rd w.ra w.immediate
  | .mfspr => mfspr w.rd w.ra w.immediate
  | .shiftImm =>
    (ShiftOp.ofCode? w.shiftKind).elim (illegal w)
      fun op => shiftImm op w.rd w.ra (w.shiftAmount.setWidth 8)
  | .setFlagImm =>
    (Condition.ofCode? w.selector).elim (illegal w) fun c => setFlagImm c w.ra w.immediate
  | .mtspr => mtspr w.ra w.rb w.splitImmediate
  | .store op => store op w.ra w.rb w.splitImmediate
  | .alu => (AluOp.ofCode? w.aluCode).elim (illegal w) fun op => alu op w.rd w.ra w.rb
  | .setFlag => (Condition.ofCode? w.selector).elim (illegal w) fun c => setFlag c w.ra w.rb

def decode (w : Word) : Instruction :=
  (Opcode.ofCode? w.opcode).elim (illegal w) (decodeAs w)

end Instruction

end Orbis
