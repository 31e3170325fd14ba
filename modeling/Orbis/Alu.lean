import Orbis.Isa.Instruction
import Orbis.Word
/-!
# Arithmetic

What the register operations compute and what the comparisons decide. Nothing here fails: sums and
products wrap around, a quotient by zero is zero, and shift amounts count modulo 32.
-/
namespace Orbis

/-- The amount that a shift takes from its second operand. -/
def shiftDistance (b : Word) : Nat := (b.extractLsb' 0 5).toNat

/-- One more than the first of some bit positions that is set in a word, or zero if none is. -/
def firstSet (positions : List Nat) (a : Word) : Word :=
  (positions.find? a.getLsbD).elim 0 fun k => .ofNat 32 (k + 1)

namespace AluOp

/-- The result of an operation; the bit scans ignore the second operand. -/
def eval (op : AluOp) (a b : Word) : Word :=
  match op with
  | add => a + b
  | sub => a - b
  | and => a &&& b
  | or => a ||| b
  | xor => a ^^^ b
  | sll => a <<< shiftDistance b
  | srl => a >>> shiftDistance b
  | sra => a.sshiftRight (shiftDistance b)
  | ff1 => firstSet (List.range 32) a
  | fl1 => firstSet (List.range 32).reverse a
  | mul => a * b
  | div => a.sdiv b
  | divu => a / b

end AluOp

/-- The functional units that share the work of the arithmetic unit. -/
inductive AluUnit where
  | arithmetic | logic | shifts
  deriving DecidableEq

/-- The functional unit that carries out an operation. -/
def AluOp.unit : AluOp → AluUnit
  | add | sub | mul | div | divu => .arithmetic
  | and | or | xor | ff1 | fl1 => .logic
  | sll | srl | sra => .shifts

/-- The output of one functional unit, which is zero for operations of the others. -/
def AluUnit.eval (u : AluUnit) (op : AluOp) (a b : Word) : Word :=
  if op.unit = u then op.eval a b else 0

/-- Whether a comparison holds, on unsigned values or on signed ones as its name says. -/
def Condition.holds (c : Condition) (a b : Word) : Bool :=
  match c with
  | eq => a == b
  | ne => a != b
  | gtu => b.ult a
  | geu => b.ule a
  | ltu => a.ult b
  | leu => a.ule b
  | gts => b.slt a
  | ges => b.sle a
  | lts => a.slt b
  | les => a.sle b

end Orbis
