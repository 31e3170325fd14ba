import Orbis.Configuration
import Orbis.Console.Options
import Orbis.Simulator
import Orbis.Statistics
/-!
# The command

The command loads an image and runs it slice by slice. Between two slices it passes keys on to the
machine and shows what the machine has printed. What it does is fixed here but for the files and
keys that it is given.
-/
namespace Orbis.Console

/-- Reasons for which the command cannot start. -/
inductive Failure where
  | configUnreadable (path : String) (reason : FileError)
  | configInvalid
  | imageRefused (e : ImageError)
  deriving DecidableEq

def Failure.message : Failure → String
  | configUnreadable path reason => "could not read config '" ++ path ++ "': " ++ reason.text
  | configInvalid => "invalid configuration"
  | imageRefused e => "unable to load image: " ++ e.message

/-- The configuration that the options ask for, given how files are read. -/
def Options.configuration (o : Options) (read : String → Except FileError ByteArray) :
    Except Failure Configuration := do
  let c ← match o.config with
    | none => pure Configuration.initial
    | some path =>
      match read path >>= decodeText with
      | .error reason => throw (.configUnreadable path reason)
      | .ok text => (Configuration.ofText? text).elim (throw .configInvalid) pure
  return { c with
    bootPc := o.bootPc.getD c.bootPc
    tracing := { c.tracing with instructions := c.tracing.instructions || o.trace } }

/-- The machine that the options ask for, given how files are read. -/
def Options.simulator (o : Options) (read : String → Except FileError ByteArray) :
    Except Failure Simulator := do
  let c ← o.configuration read
  match (Simulator.ofConfiguration c).loadFile o.image (read o.image) c.bootPc with
  | (.ok _, s) => return s
  | (.error e, _) => throw (.imageRefused e)

/-- The budget of the next turn, unless the limit of cycles is reached. -/
def budget? (slice : Nat) (limit : Option Nat) (elapsed : Nat) : Option Nat :=
  match limit with
  | none => some slice
  | some limit => if limit ≤ elapsed then none else some (min slice (limit - elapsed))

/-- The first half of a turn: the machine runs for its budget, if it has one. The answer tells
whether the program has stopped. -/
def advance? (s : Simulator) (limit : Option Nat) : Option (Simulator × Bool) :=
  (budget? s.configuration.sliceBudget limit s.cycles).map fun budget =>
    let (s, outcome) := s.run budget
    (s, outcome = .halted)

/-- The second half of a turn: the machine gets the waiting keys and hands over what it has
printed. -/
def exchange (s : Simulator) (keys : List Byte) : Array Byte × Simulator := (s.receive keys).drain

/-- Takes turns until the program stops or the limit is reached, at most `turns` of them. The keys
are those that wait in each turn, and the output is added to what was printed before. -/
def takeTurns (s : Simulator) (limit : Option Nat) (keys : List (List Byte))
    (printed : Array Byte) : (turns : Nat) → Simulator × Array Byte
  | 0 => (s, printed)
  | turns + 1 =>
    match advance? s limit with
    | none => (s, printed)
    | some (s, halted) =>
      let (output, s) := exchange s (keys.headD [])
      if halted then (s, printed ++ output)
      else takeTurns s limit keys.tail (printed ++ output) turns

/-- What is printed at the end of a run if statistics are asked for. -/
def summary (s : Simulator) (seconds : Float) : String :=
  s.cpu.statistics.report seconds [] ++
    "pc  =" ++ Numeral.hexWord s.cpu.pc ++ "  sr  =" ++ Numeral.hexWord s.cpu.sr ++ "\n" ++
    s.cpu.registers.dump

structure Result where
  code : Nat
  output : String
  errors : Array Byte

def bytesOf (s : String) : Array Byte := s.toUTF8.data.map UInt8.toBitVec

def Failure.report (e : Failure) : String := commandName ++ ": " ++ e.message ++ "\n"

/-- What is written about arguments that cannot be used. -/
def UsageError.report (e : UsageError) : String :=
  "error: " ++ e.message ++ "\n\nFor more information, try '--help'.\n"

def versionLine : String := commandName ++ " " ++ version ++ "\n"

def Options.result (o : Options) (f : Folder) (keys : List (List Byte)) (turnLimit : Nat)
    (seconds : Float) : Result :=
  match o.simulator f.read with
  | .error e => ⟨1, "", bytesOf e.report⟩
  | .ok s =>
    let (s, printed) := takeTurns s o.maxCycles keys #[] turnLimit
    ⟨0, if o.stats then summary s seconds else "", printed⟩

/-- The result of the command with given arguments. -/
def result (arguments : List String) (f : Folder) (keys : List (List Byte)) (turnLimit : Nat)
    (seconds : Float) : Result :=
  match Request.ofArguments arguments with
  | .error e => ⟨2, "", bytesOf e.report⟩
  | .ok .version => ⟨0, versionLine, #[]⟩
  | .ok (.help long) => ⟨0, if long then longHelp else shortHelp, #[]⟩
  | .ok (.run o) => o.result f keys turnLimit seconds

end Orbis.Console
