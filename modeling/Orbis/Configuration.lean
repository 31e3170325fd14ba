import Orbis.Document
/-!
# Configuration

What a user can choose: which events of a run are reported, where execution starts, and how many
cycles make a slice.
-/
namespace Orbis

/-- Which events of a run are reported. -/
structure Tracing where
  instructions : Bool
  exceptions : Bool
  deriving DecidableEq

structure Configuration where
  tracing : Tracing
  bootPc : Word
  sliceCycles : Nat
  deriving DecidableEq

namespace Configuration

/-- Nothing is traced, execution starts at the reset vector, and a slice has 20000 cycles. -/
def initial : Configuration := ⟨⟨false, false⟩, 0x100, 20000⟩

def sliceBudget (c : Configuration) : Nat := max c.sliceCycles 1

end Configuration

/-!
## Reading configurations

A configuration is a record of two records, all of whose fields may be left out. Anything that is
not well-formed or not of the right type is refused as a whole.
-/

/-- Reads a field, or takes its default where it is not given. -/
def Document.fieldOr {α : Type} (default : α) (read? : Document → Option α) :
    Option Document → Option α
  | some d => read? d
  | none => some default

def Tracing.ofDocument? (d : Document) : Option Tracing :=
  match d.record? ["trace_instructions", "trace_exceptions"] with
  | some [instructions, exceptions] => do
    let instructions ← Document.fieldOr false Document.bool? instructions
    let exceptions ← Document.fieldOr false Document.bool? exceptions
    return ⟨instructions, exceptions⟩
  | _ => none

namespace Configuration

/-- Reads where execution starts and the length of a slice, leaving the rest as it is. -/
def readSystem? (c : Configuration) (d : Document) : Option Configuration :=
  match d.record? ["boot_pc", "cycles_per_slice"] with
  | some [bootPc, sliceCycles] => do
    let bootPc ← Document.fieldOr c.bootPc (Document.bits? 32) bootPc
    let sliceCycles ← Document.fieldOr c.sliceCycles
      (fun d => (d.bits? 64).map BitVec.toNat) sliceCycles
    return { c with bootPc, sliceCycles }
  | _ => none

def ofDocument? (d : Document) : Option Configuration :=
  match d.record? ["general", "system"] with
  | some [general, system] => do
    let tracing ← Document.fieldOr initial.tracing Tracing.ofDocument? general
    Document.fieldOr { initial with tracing } (readSystem? { initial with tracing }) system
  | _ => none

def ofText? (s : String) : Option Configuration := (Document.ofText? s).bind ofDocument?

end Configuration

end Orbis
