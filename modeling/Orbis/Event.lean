import Orbis.Isa.Assembly
import Orbis.Simulator
/-!
# Events

What a machine reports about itself beside its state. An event has a level, a message and named
fields; its line shows all three.
-/
namespace Orbis

/-- Levels of events, from the most severe one on. -/
inductive Level where
  | warn | info | debug | trace
  deriving DecidableEq

namespace Level

def rank : Level → Nat
  | warn => 0
  | info => 1
  | debug => 2
  | trace => 3

def name : Level → String
  | warn => "WARN"
  | info => "INFO"
  | debug => "DEBUG"
  | trace => "TRACE"

/-- Whether a filter at this level lets another level pass. -/
def admits (filter l : Level) : Bool := l.rank ≤ filter.rank

end Level

inductive Event where
  /-- A supervision word sets bits that have no effect. -/
  | unsupportedModes (sr : Word)
  | unknownSprRead (group index : Nat)
  /-- A special register that does not exist was written. -/
  | unknownSprWrite (group index : Nat) (value : Word)
  | constantSprWrite (index : Nat) (value : Word)
  | unsupportedTimerMode (mode : Nat)
  /-- A register that a memory management unit does not have was read. -/
  | unknownMmuRead (side : Side) (index : Nat)
  /-- A register that a memory management unit does not have was written. -/
  | unknownMmuWrite (side : Side) (index : Nat) (value : Word)
  /-- An exception was dispatched, to be reported at a given level. -/
  | dispatched (level : Level) (e : Exception) (pc address : Word)
  | issued (pc word : Word)
  | imageLoaded (bytes : Nat) (path : String)

namespace Event

def level : Event → Level
  | dispatched l _ _ _ => l
  | issued _ _ => .trace
  | imageLoaded _ _ => .info
  | _ => .warn

def message : Event → String
  | unsupportedModes _ => "unsupported mode bits set in SR"
  | unknownSprRead _ _ => "read of unknown SPR"
  | unknownSprWrite _ _ _ => "write to unknown SPR ignored"
  | constantSprWrite _ _ => "write to read-only SPR ignored"
  | unsupportedTimerMode _ => "unsupported tick timer mode"
  | unknownMmuRead _ _ => "read of unknown MMU register"
  | unknownMmuWrite _ _ _ => "write to unknown MMU register ignored"
  | dispatched _ _ _ _ => "exception"
  | issued pc word =>
    Numeral.hexWord pc ++ ": " ++ Numeral.hexWord word ++ "  " ++ (Instruction.decode word).text
  | imageLoaded _ _ => "loaded image"

def fields : Event → List (String × String)
  | unsupportedModes sr => [("sr", Numeral.hex sr.toNat)]
  | unknownSprRead group index =>
    [("group", Numeral.decimal group), ("index", Numeral.decimal index)]
  | unknownSprWrite group index value =>
    [("group", Numeral.decimal group), ("index", Numeral.decimal index),
      ("val", Numeral.decimal value.toNat)]
  | constantSprWrite index value =>
    [("index", Numeral.decimal index), ("val", Numeral.decimal value.toNat)]
  | unsupportedTimerMode mode => [("mode", Numeral.decimal mode)]
  | unknownMmuRead side index => [("side", side.name), ("index", Numeral.decimal index)]
  | unknownMmuWrite side index value =>
    [("side", side.name), ("index", Numeral.decimal index),
      ("val", Numeral.decimal value.toNat)]
  | dispatched _ e pc address =>
    [("kind", e.text), ("epcr", Numeral.hexWord pc), ("ea", Numeral.hexWord address)]
  | issued _ _ => []
  | imageLoaded bytes path => [("bytes", Numeral.decimal bytes), ("path", path)]

def line (e : Event) : String :=
  " ".intercalate (e.level.name :: e.message :: e.fields.map fun (n, v) => n ++ "=" ++ v)

end Event

/-!
## The events of a processor

Which events the operations of the processor report, in order. They are read off the state before an
operation, so the operations themselves keep no record.
-/

namespace Supervision

def events (v : Word) : List Event := if v &&& unsupported = 0 then [] else [.unsupportedModes v]

end Supervision

namespace Mmu

def readEvents (side : Side) (index : Nat) : List Event :=
  if (register? index).isSome then [] else [.unknownMmuRead side index]

def writeEvents (side : Side) (index : Nat) (v : Word) : List Event :=
  if (register? index).isSome then [] else [.unknownMmuWrite side index v]

end Mmu

namespace TickTimer

def events (v : Word) : List Event :=
  let mode := (v.extractLsb' 30 2).toNat
  if mode = 1 ∨ mode = 2 then [.unsupportedTimerMode mode] else []

end TickTimer

namespace Spr

def readEvents (a : Word) : List Event :=
  match ofAddress a with
  | .mmu side i => Mmu.readEvents side i
  | .cacheInvalidate | .unknown => [.unknownSprRead (group a) (index a)]
  | _ => []

def writeEvents (a v : Word) : List Event :=
  match ofAddress a with
  | .supervision => Supervision.events v
  | .identification i _ => [.constantSprWrite i v]
  | .mmu side i => Mmu.writeEvents side i v
  | .timerMode => TickTimer.events v
  | .unknown => [.unknownSprWrite (group a) (index a) v]
  | _ => []

end Spr

namespace Cpu

def raiseEvents (c : Cpu) (t : Tracing) (e : Exception) (address : Word) : List Event :=
  [.dispatched (if t.exceptions then .info else .debug) e c.resumption address]

def returnEvents (c : Cpu) : List Event := Supervision.events c.context.supervision

/-- The events of an instruction, apart from its fault. -/
def executeEvents (c : Cpu) : Instruction → List Event
  | .mfspr _ a k => Spr.readEvents (c.sprAddress a k)
  | .mtspr a b k => Spr.writeEvents (c.sprAddress a k) (c.reg b)
  | .rfe => c.returnEvents
  | _ => []

def followEvents (c : Cpu) (t : Tracing) : Flow → List Event
  | .fault e address => c.raiseEvents t e address
  | _ => []

def cycleEvents (c : Cpu) (t : Tracing) : List Event :=
  let rest := let (c, flow) := c.attempt; c.followEvents t flow
  match c.issue with
  | (.ok word, c) =>
    (if t.instructions then [.issued c.pc word] else []) ++ c.executeEvents (.decode word) ++ rest
  | (.error _, _) => rest

/-- Appends the events of a number of cycles to a log. -/
def cyclesEvents (c : Cpu) (t : Tracing) (log : Array Event) : (budget : Nat) → Array Event
  | 0 => log
  | budget + 1 =>
    let log := log ++ c.cycleEvents t
    match c.cycle with
    | (c, none) => c.cyclesEvents t log budget
    | (_, some _) => log

def runEvents (c : Cpu) (t : Tracing) (log : Array Event) (budget : Nat) : Array Event :=
  let c := c.sampleInterrupts
  if c.interruptDue then log ++ c.raiseEvents t .externalInterrupt c.pc
  else c.cyclesEvents t log budget

end Cpu

/-!
## The events of a simulator

Which events loading and running report, in order.
-/

namespace Simulator

def loadFileEvents (path : String) : Except ImageError Nat → List Event
  | .ok bytes => [.imageLoaded bytes path]
  | .error _ => []

def runEvents (s : Simulator) (log : Array Event) (budget : Nat) : Array Event :=
  s.cpu.runEvents s.configuration.tracing log budget

/-- Appends the events of at most `runs` runs before a limit to a log. -/
def runBeforeEvents (s : Simulator) (limit : Nat) (log : Array Event) :
    (runs : Nat) → Array Event
  | 0 => log
  | runs + 1 =>
    if s.cycles < limit then
      let log := s.runEvents log (s.budgetBefore limit)
      match s.run (s.budgetBefore limit) with
      | (_, .halted) => log
      | (s, _) => s.runBeforeEvents limit log runs
    else log

/-- The events of running until the program stops or a number of cycles has gone by. -/
def runUntilHaltEvents (s : Simulator) (maxCycles : Nat) : Array Event :=
  s.runBeforeEvents (s.cycles + maxCycles) #[] (2 * maxCycles + 1)

end Simulator

end Orbis
