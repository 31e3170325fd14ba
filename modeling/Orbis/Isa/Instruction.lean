import Orbis.Numeral
/-!
# The instruction set

Instructions as they are decoded, and what they are put together of: operations and registers.
-/
namespace Orbis

/-!
## Operations

The families of operations that share one instruction format: register operations of the arithmetic
unit, shifts by an immediate, comparisons, loads and stores. Each member has a code and a name, and
the codes of a family are pairwise different, so that a code determines its operation.
-/

/-- Register-to-register operations of the arithmetic unit. -/
inductive AluOp where
  | add | sub | and | or | xor | sll | srl | sra | ff1 | fl1 | mul | div | divu
  deriving DecidableEq

namespace AluOp

def all : List AluOp := [add, sub, and, or, xor, sll, srl, sra, ff1, fl1, mul, div, divu]

def code : AluOp → BitVec 8
  | add => 0x00
  | sub => 0x02
  | and => 0x03
  | or => 0x04
  | xor => 0x05
  | sll => 0x08
  | ff1 => 0x0f
  | srl => 0x18
  | sra => 0x28
  | fl1 => 0x4f
  | mul => 0xc6
  | div => 0xc9
  | divu => 0xca

def ofCode? (c : BitVec 8) : Option AluOp := all.find? (·.code == c)

def isUnary : AluOp → Bool
  | ff1 | fl1 => true
  | _ => false

def mnemonic : AluOp → String
  | add => "l.add"
  | sub => "l.sub"
  | and => "l.and"
  | or => "l.or"
  | xor => "l.xor"
  | sll => "l.sll"
  | srl => "l.srl"
  | sra => "l.sra"
  | ff1 => "l.ff1"
  | fl1 => "l.fl1"
  | mul => "l.mul"
  | div => "l.div"
  | divu => "l.divu"

theorem ofCode?_code (op : AluOp) : ofCode? op.code = some op := by cases op <;> decide

end AluOp

/-- Shifts by an immediate amount. -/
inductive ShiftOp where
  | sll | srl | sra
  deriving DecidableEq

namespace ShiftOp

def all : List ShiftOp := [sll, srl, sra]

def code : ShiftOp → BitVec 2
  | sll => 0
  | srl => 1
  | sra => 2

/-- The shift with a given kind code; code 3 is unassigned. -/
def ofCode? (c : BitVec 2) : Option ShiftOp := all.find? (·.code == c)

/-- The arithmetic-unit operation that shifts in the same way. -/
def aluOp : ShiftOp → AluOp
  | sll => .sll
  | srl => .srl
  | sra => .sra

def mnemonic : ShiftOp → String
  | sll => "l.slli"
  | srl => "l.srli"
  | sra => "l.srai"

theorem ofCode?_code (op : ShiftOp) : ofCode? op.code = some op := by cases op <;> decide

end ShiftOp

/-- Comparisons that set or clear the flag. -/
inductive Condition where
  | eq | ne | gtu | geu | ltu | leu | gts | ges | lts | les
  deriving DecidableEq

namespace Condition

def all : List Condition := [eq, ne, gtu, geu, ltu, leu, gts, ges, lts, les]

def code : Condition → BitVec 5
  | eq => 0x0
  | ne => 0x1
  | gtu => 0x2
  | geu => 0x3
  | ltu => 0x4
  | leu => 0x5
  | gts => 0xa
  | ges => 0xb
  | lts => 0xc
  | les => 0xd

def ofCode? (c : BitVec 5) : Option Condition := all.find? (·.code == c)

/-- The suffix that names a comparison in assembly. -/
def suffix : Condition → String
  | eq => "eq"
  | ne => "ne"
  | gtu => "gtu"
  | geu => "geu"
  | ltu => "ltu"
  | leu => "leu"
  | gts => "gts"
  | ges => "ges"
  | lts => "lts"
  | les => "les"

theorem ofCode?_code (c : Condition) : ofCode? c.code = some c := by cases c <;> decide

end Condition

/-- Widths of memory accesses. -/
inductive Width where
  | byte | half | word
  deriving DecidableEq

namespace Width

/-- The number of bytes that an access of a width touches. -/
def size : Width → Nat
  | byte => 1
  | half => 2
  | word => 4

end Width

/-- Loads, by width and extension. -/
inductive LoadOp where
  | lwz | lbz | lbs | lhz | lhs
  deriving DecidableEq

namespace LoadOp

def all : List LoadOp := [lwz, lbz, lbs, lhz, lhs]

def width : LoadOp → Width
  | lwz => .word
  | lbz | lbs => .byte
  | lhz | lhs => .half

/-- Whether a load extends the sign of what it reads. -/
def isSigned : LoadOp → Bool
  | lbs | lhs => true
  | _ => false

def mnemonic : LoadOp → String
  | lwz => "l.lwz"
  | lbz => "l.lbz"
  | lbs => "l.lbs"
  | lhz => "l.lhz"
  | lhs => "l.lhs"

end LoadOp

/-- Stores, by width. -/
inductive StoreOp where
  | sw | sb | sh
  deriving DecidableEq

namespace StoreOp

def all : List StoreOp := [sw, sb, sh]

def width : StoreOp → Width
  | sw => .word
  | sb => .byte
  | sh => .half

def mnemonic : StoreOp → String
  | sw => "l.sw"
  | sb => "l.sb"
  | sh => "l.sh"

end StoreOp

/-!
## Register numbers

The machine has 32 general-purpose registers, so a register number is exactly a 5-bit field. All of
them, `r0` included, can be written; `r9` is the link register.
-/

/-- The number of a general-purpose register. -/
abbrev Reg := BitVec 5

namespace Reg

def count : Nat := 32

/-- The register that calls leave their return address in. -/
def link : Reg := 9

def ofNat? (n : Nat) : Option Reg := if n < count then some (.ofNat 5 n) else none

def all : List Reg := (List.range count).map (.ofNat 5)

def name (r : Reg) : String := "r" ++ Numeral.decimal r.toNat

end Reg

/-!
## Instructions

A decoded instruction with typed operands. Immediates are kept as bit patterns; whether one is
extended by its sign or by zeros belongs to the instruction that uses it.
-/

/-- A decoded instruction; `illegal` keeps a word that has no meaning. -/
inductive Instruction where
  | j (offset : Word)
  | jal (offset : Word)
  | bnf (offset : Word)
  | bf (offset : Word)
  | nop (k : Half)
  /-- Moves an immediate to the high half of a register. -/
  | movhi (d : Reg) (k : Half)
  | sys (k : Half)
  | trap (k : Half)
  | rfe
  | jr (b : Reg)
  | jalr (b : Reg)
  | load (op : LoadOp) (d a : Reg) (i : Half)
  | addi (d a : Reg) (i : Half)
  | andi (d a : Reg) (k : Half)
  | ori (d a : Reg) (k : Half)
  | xori (d a : Reg) (i : Half)
  | mfspr (d a : Reg) (k : Half)
  | shiftImm (op : ShiftOp) (d a : Reg) (amount : Byte)
  | setFlagImm (c : Condition) (a : Reg) (i : Half)
  | mtspr (a b : Reg) (k : Half)
  | store (op : StoreOp) (a b : Reg) (i : Half)
  | alu (op : AluOp) (d a b : Reg)
  | setFlag (c : Condition) (a b : Reg)
  | illegal (word : Word)
  deriving DecidableEq

end Orbis
