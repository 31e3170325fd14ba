import Orbis.Configuration
import Orbis.Isa.Assembly
import Orbis.Simulator
import Orbis.Statistics
/-!
# Scripting

A simulator as a script drives it. Arguments arrive as documents and are read before a call does
anything, from left to right. A call that fails says why; one whose arguments cannot be read has no
effect.
-/
namespace Orbis.Scripting

inductive CallError where
  /-- An argument is not of the type that is asked for. -/
  | wrongType
  /-- An integer argument is outside the range that is asked for. -/
  | outOfRange
  | noRegister (n : Nat)
  | configuration
  | image (e : ImageError)
  | logFilter
  | cancelled
  deriving DecidableEq

/-- The message of a failed call, where it has one of its own. -/
def CallError.message? : CallError → Option String
  | noRegister n => some ("no register r" ++ Numeral.decimal n)
  | configuration => some "invalid configuration"
  | image e => some e.message
  | _ => none

/-! ### Arguments -/

def fit (width n : Nat) : Except CallError (BitVec width) :=
  (bits? width n).elim (.error .outOfRange) .ok

/-- Reads an integer of a width in bits, and no sign. A truth value counts as an integer. -/
def integer {width : Nat} : Document → Except CallError (BitVec width)
  | .bool b => fit width b.toNat
  | .natural n => fit width n
  | .negative n => if n = 0 then fit width 0 else .error .outOfRange
  | _ => .error .wrongType

def word : Document → Except CallError Word := integer

def count (d : Document) : Except CallError Nat :=
  (integer d : Except CallError (BitVec 64)).map BitVec.toNat

def byte : Document → Except CallError Byte := integer

def optional {α : Type} (read : Document → Except CallError α) :
    Option Document → Except CallError (Option α)
  | none | some .null => .ok none
  | some d => (read d).map some

def text : Document → Except CallError String
  | .string (some s) => .ok s
  | _ => .error .wrongType

def texts : Document → Except CallError (List String)
  | .array items => items.mapM text
  | _ => .error .wrongType

def register (n : Byte) : Except CallError Reg :=
  (Reg.ofNat? n.toNat).elim (.error (.noRegister n.toNat)) .ok

/-! ### Calls -/

/-- Creates a simulator with a configuration, or with the default one. -/
def create (configuration : Option Document) : Except CallError Simulator :=
  match configuration with
  | none | some .null => .ok (.ofConfiguration .initial)
  | some d =>
    (Configuration.ofDocument? d.canonical).elim (.error .configuration) fun c =>
      .ok (.ofConfiguration c)

def loaded : Except ImageError Nat × Simulator → Except CallError Nat × Simulator
  | (.ok n, s) => (.ok n, s)
  | (.error e, s) => (.error (.image e), s)

/-- Loads an image to start at an address, or where the configuration says. -/
def loadImage (s : Simulator) (image : ByteArray) (pc : Option Document) :
    Except CallError Nat × Simulator :=
  match optional word pc with
  | .ok pc => loaded (s.loadImage image (pc.getD s.configuration.bootPc))
  | .error e => (.error e, s)

/-- Loads the image of a file to start at an address, or where the configuration says. -/
def loadFile (s : Simulator) (path : Document) (read : String → Except FileError ByteArray)
    (pc : Option Document) : Except CallError Nat × Simulator :=
  match text path, optional word pc with
  | .ok path, .ok pc => loaded (s.loadFile path (read path) (pc.getD s.configuration.bootPc))
  | .error e, _ | _, .error e => (.error e, s)

/-- Runs for a number of cycles, or for a slice. The answer is whether there is more to run. -/
def run (s : Simulator) (cycles : Option Document) : Except CallError (Bool × Simulator) := do
  let (s, outcome) := match ← optional count cycles with
    | some n => s.run n
    | none => s.runSlice
  return (outcome != .halted, s)

/-- Makes at most `runs` runs, until the program stops or the limit of cycles is reached. After each
run the script may cancel: it is asked with the number of runs that may still follow. -/
def runBefore (s : Simulator) (limit : Nat) (cancels : Nat → Bool) :
    (runs : Nat) → Except CallError Bool × Simulator
  | 0 => (.ok false, s)
  | runs + 1 =>
    if s.cycles < limit then
      match s.run (s.budgetBefore limit) with
      | (s, .halted) => (.ok true, s)
      | (s, _) =>
        if cancels runs then (.error .cancelled, s) else runBefore s limit cancels runs
    else (.ok false, s)

/-- Runs slice by slice until the program stops, a number of cycles has gone by or the script
cancels. The answer is whether the program has stopped. -/
def runUntilHalt (s : Simulator) (maxCycles : Document) (cancels : Nat → Bool) :
    Except CallError Bool × Simulator :=
  match count maxCycles with
  | .ok n => runBefore s (s.cycles + n) cancels (2 * n + 1)
  | .error e => (.error e, s)

def keypress (s : Simulator) (key : Document) : Except CallError Simulator :=
  (byte key).map fun k => s.receive [k]

def reg (s : Simulator) (index : Document) : Except CallError Word := do
  return s.cpu.reg (← register (← byte index))

def setReg (s : Simulator) (index value : Document) : Except CallError Simulator := do
  let n ← byte index
  let v ← word value
  let r ← register n
  return { s with cpu := s.cpu.setReg r v }

def setPc (s : Simulator) (value : Document) : Except CallError Simulator :=
  (word value).map fun v => { s with cpu := { s.cpu with pc := v } }

def spr (s : Simulator) (address : Document) : Except CallError Word := (word address).map s.cpu.spr

def disassemble (w : Document) : Except CallError String :=
  (word w).map fun w => (Instruction.decode w).text

/-- The statistics report on a run that took the host a number of seconds, or chosen sections of
it. -/
def report (s : Statistics) (seconds : Float) (sections : Option Document) :
    Except CallError String :=
  match sections with
  | none => .ok (s.report seconds [])
  | some d => (texts d).map (s.report seconds)

/-! ### Descriptions -/

def describe (s : Simulator) : String :=
  "Simulator(pc=" ++ Numeral.hexWord s.cpu.pc ++ ", cycles=" ++ Numeral.decimal s.cycles ++ ")"

def describeStatistics (s : Statistics) : String :=
  "Stats(cycles=" ++ Numeral.decimal s.cycles ++ ", instructions=" ++
    Numeral.decimal s.instructions ++ ", exceptions=" ++ Numeral.decimal s.exceptions ++ ")"

/-!
## Log filters

A filter is a list of directives between commas. A directive is a level; or one or two of a target
and a span in brackets, to which an equals sign can add a level.
-/

namespace LogFilter

/-- Whether a text is a level, by name in any case or by number. -/
def isLevel (cs : List Char) : Bool :=
  ["trace", "debug", "info", "warn", "error", "off", "0", "1", "2", "3", "4", "5"].contains
    (String.ofList (cs.map Char.toLower))

def isTarget (c : Char) : Bool := c.isAlphanum || c = '_' || c = ':' || c = '-' || 0x7f < c.toNat

def part? : List Char → Option (List Char)
  | '[' :: rest =>
    match rest.dropWhile (· != ']') with
    | ']' :: rest => some rest
    | _ => none
  | c :: rest => if isTarget c then some (rest.dropWhile isTarget) else none
  | [] => none

/-- Whether what follows the parts of a directive is in order. -/
def endsWell : List Char → Bool
  | [] | ['='] => true
  | '=' :: level => isLevel level
  | _ => false

def isDirective (cs : List Char) : Bool :=
  isLevel cs ||
    match part? cs with
    | some rest => endsWell rest || (part? rest).any endsWell
    | none => false

def isFilter (s : String) : Bool :=
  (s.splitOn ",").all fun d => d = "" || isDirective d.toList

/-- Asks for events to be logged, where they may be logged already. The answer is whether this has
made a difference. -/
def initLogging (logging : Bool) (filter : Option Document) : Except CallError Bool := do
  match ← optional text filter with
  | some f => if isFilter f then return !logging else throw .logFilter
  | none => return !logging

end LogFilter

end Orbis.Scripting
