import Orbis.Numeral
import Orbis.Word
/-!
# Exceptions

The exceptions of the machine. Each has a number from 1 to 14, which fixes the address of its
handler. Faults of an access or of the decoder also report an effective address.
-/
namespace Orbis

/-- The architectural exceptions, in the order of their numbers. -/
inductive Exception where
  | reset
  | busError
  | dataPageFault
  | instructionPageFault
  | tickTimer
  | alignment
  | illegalInstruction
  | externalInterrupt
  | dataTlbMiss
  | instructionTlbMiss
  | range
  | systemCall
  | floatingPoint
  | trap
  deriving DecidableEq

namespace Exception

def all : List Exception :=
  [reset, busError, dataPageFault, instructionPageFault, tickTimer, alignment, illegalInstruction,
    externalInterrupt, dataTlbMiss, instructionTlbMiss, range, systemCall, floatingPoint, trap]

def index : Exception → Fin 14
  | reset => 0
  | busError => 1
  | dataPageFault => 2
  | instructionPageFault => 3
  | tickTimer => 4
  | alignment => 5
  | illegalInstruction => 6
  | externalInterrupt => 7
  | dataTlbMiss => 8
  | instructionTlbMiss => 9
  | range => 10
  | systemCall => 11
  | floatingPoint => 12
  | trap => 13

def code (e : Exception) : Nat := e.index + 1

def vector (e : Exception) : Word := .ofNat 32 (e.code * 0x100)

/-- Whether dispatching an exception reports an effective address. -/
def hasAddress : Exception → Bool
  | busError | dataPageFault | instructionPageFault | alignment | illegalInstruction | dataTlbMiss |
    instructionTlbMiss => true
  | _ => false

def name : Exception → String
  | reset => "Reset"
  | busError => "BusError"
  | dataPageFault => "DataPageFault"
  | instructionPageFault => "InstructionPageFault"
  | tickTimer => "TickTimer"
  | alignment => "Alignment"
  | illegalInstruction => "IllegalInstruction"
  | externalInterrupt => "ExternalInterrupt"
  | dataTlbMiss => "DTlbMiss"
  | instructionTlbMiss => "ITlbMiss"
  | range => "Range"
  | systemCall => "SystemCall"
  | floatingPoint => "FloatingPoint"
  | trap => "Trap"

def text (e : Exception) : String := e.name ++ "(" ++ Numeral.hex e.vector.toNat ++ ")"

theorem all_getElem_index (e : Exception) : all[e.index] = e := by cases e <;> rfl

end Exception

end Orbis
