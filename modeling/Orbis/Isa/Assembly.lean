import Orbis.Isa.Encoding
/-!
# Assembly

Instructions as texts, and programs that are put together of them.
-/
namespace Orbis

/-!
## Assembly text

The text of an instruction is its mnemonic and, behind one blank, its operands separated by commas.
Unsigned immediates are hexadecimal, all other numbers decimal.
-/

namespace Instruction

def mnemonic : Instruction → String
  | j _ => "l.j"
  | jal _ => "l.jal"
  | bnf _ => "l.bnf"
  | bf _ => "l.bf"
  | nop _ => "l.nop"
  | movhi _ _ => "l.movhi"
  | sys _ => "l.sys"
  | trap _ => "l.trap"
  | rfe => "l.rfe"
  | jr _ => "l.jr"
  | jalr _ => "l.jalr"
  | load op _ _ _ => op.mnemonic
  | addi _ _ _ => "l.addi"
  | andi _ _ _ => "l.andi"
  | ori _ _ _ => "l.ori"
  | xori _ _ _ => "l.xori"
  | mfspr _ _ _ => "l.mfspr"
  | shiftImm op _ _ _ => op.mnemonic
  | setFlagImm c _ _ => "l.sf" ++ c.suffix ++ "i"
  | mtspr _ _ _ => "l.mtspr"
  | store op _ _ _ => op.mnemonic
  | alu op _ _ _ => op.mnemonic
  | setFlag c _ _ => "l.sf" ++ c.suffix
  | illegal _ => ".word"

/-- A memory operand: a signed displacement and its base register. -/
def displaced (i : Half) (a : Reg) : String := Numeral.signed i.toInt ++ "(" ++ a.name ++ ")"

def operands : Instruction → List String
  | j n | jal n | bnf n | bf n => [Numeral.signed n.toInt]
  | nop k | sys k | trap k => [Numeral.hex k.toNat]
  | movhi d k => [d.name, Numeral.hex k.toNat]
  | rfe => []
  | jr b | jalr b => [b.name]
  | load _ d a i => [d.name, displaced i a]
  | addi d a i | xori d a i => [d.name, a.name, Numeral.signed i.toInt]
  | andi d a k | ori d a k | mfspr d a k => [d.name, a.name, Numeral.hex k.toNat]
  | shiftImm _ d a l => [d.name, a.name, Numeral.decimal l.toNat]
  | setFlagImm _ a i => [a.name, Numeral.signed i.toInt]
  | mtspr a b k => [a.name, b.name, Numeral.hex k.toNat]
  | store _ a b i => [displaced i a, b.name]
  | alu op d a b => if op.isUnary then [d.name, a.name] else [d.name, a.name, b.name]
  | setFlag _ a b => [a.name, b.name]
  | illegal w => [Numeral.hexWord w]

def text (i : Instruction) : String :=
  " ".intercalate (i.mnemonic :: (if i.operands = [] then [] else [",".intercalate i.operands]))

end Instruction

/-!
## Programs

A program is a sequence of words that starts at address 0. It grows at its end only, so a word keeps
the address at which it was placed.
-/

/-- A program under construction. -/
structure Program where
  words : Array Word

namespace Program

def empty : Program := ⟨#[]⟩

/-- The number of words placed so far, padding included. -/
def size (p : Program) : Nat := p.words.size

/-- The address at which the next word will be placed. -/
def position (p : Program) : Word := .ofNat 32 p.size * 4

def data (p : Program) (w : Word) : Program := ⟨p.words.push w⟩

def emit (p : Program) (i : Instruction) : Program := p.data i.encode

/-- The number of words that lie wholly or partly below an address. -/
def wordsBelow (address : Word) : Nat := (address.toNat + 3) / 4

/-- Pads with `l.nop 0` up to an address, rounded up to a word; never shrinks the program. -/
def padTo (p : Program) (address : Word) : Program :=
  ⟨p.words ++ Array.replicate (wordsBelow address - p.size) (Instruction.nop 0).encode⟩

def image (p : Program) : ByteArray :=
  ⟨(p.words.toList.flatMap Word.bytes).toArray.map UInt8.ofBitVec⟩

end Program

end Orbis
