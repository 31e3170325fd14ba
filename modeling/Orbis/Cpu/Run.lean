import Orbis.Cpu.Execute
import Orbis.Isa.Encoding
/-!
# Running

A cycle advances the timer, fetches a word and carries out its instruction; the one exception that
this may lead to is dispatched at its end. A run samples the interrupt lines once, then makes cycles
until its budget is used up, an exception was dispatched or the program has stopped.
-/
namespace Orbis

inductive Outcome where
  | completed
  | exception (e : Exception)
  | halted
  deriving DecidableEq

def Outcome.text : Outcome → String
  | completed => "Completed"
  | exception e => e.text
  | halted => "Halted"

namespace Cpu

/-- The physical address of the next instruction. It is taken from the remembered page where that
is possible; otherwise the translated page is remembered if it is memory. -/
def locateFetch (c : Cpu) : Except Exception Word × Cpu :=
  match Memo.address? c.fetchMemo c.pc with
  | some physical =>
    (.ok physical,
      { c with statistics := { c.statistics with fetchFast := c.statistics.fetchFast + 1 } })
  | none =>
    let (located, immu) := c.immu.translate c.pc c.privilege .fetch
    let c :=
      { c with
        immu := immu
        statistics := { c.statistics with fetchSlow := c.statistics.fetchSlow + 1 } }
    match located with
    | .ok physical =>
      (.ok physical,
        if Bus.isRam physical then { c with fetchMemo := some ⟨c.pc.page, physical.page⟩ } else c)
    | .error e => (.error e, c)

def fetch (c : Cpu) : Except Exception Word × Cpu :=
  if Mmu.aligned .word c.pc then
    let (located, c) := c.locateFetch
    match located.bind (c.bus.load .word) with
    | .ok (word, bus) => (.ok word, { c with bus := bus })
    | .error e => (.error e, c)
  else (.error .alignment, c)

/-- Begins a cycle: counts it, advances the timer and, unless the timer interrupts, fetches. -/
def issue (c : Cpu) : Except Exception Word × Cpu :=
  let c :=
    { c with
      timer := c.timer.advance
      statistics := { c.statistics with cycles := c.statistics.cycles + 1 } }
  if c.timer.expired && Supervision.has c.sr .tee then (.error .tickTimer, c) else c.fetch

def countInstruction (c : Cpu) : Cpu :=
  { c with
    statistics := { c.statistics with instructions := c.statistics.instructions + 1 } }

def attempt (c : Cpu) : Cpu × Flow :=
  match c.issue with
  | (.ok word, c) => c.countInstruction.execute (.decode word)
  | (.error e, c) => (c, .fault e c.pc)

/-- Follows up on a cycle: dispatches its exception, and says whether the run ends. -/
def follow (c : Cpu) : Flow → Cpu × Option Outcome
  | .next => (c, none)
  | .halt => (c, some .halted)
  | .fault e address => (c.raise e address, some (.exception e))

def cycle (c : Cpu) : Cpu × Option Outcome :=
  let (c, flow) := c.attempt
  c.follow flow

/-- Makes cycles until one ends the run, at most as many as the budget allows. -/
def cycles (c : Cpu) : (budget : Nat) → Cpu × Outcome
  | 0 => (c, .completed)
  | budget + 1 =>
    match c.cycle with
    | (c, none) => c.cycles budget
    | (c, some outcome) => (c, outcome)

def sampleInterrupts (c : Cpu) : Cpu :=
  { c with interrupts := c.interrupts.sample c.bus.interrupts }

def interruptDue (c : Cpu) : Bool := Supervision.has c.sr .iee && c.interrupts.due

def takeInterrupt (c : Cpu) : Cpu :=
  { c with interrupts := c.interrupts.accept }.raise .externalInterrupt c.pc

/-- Brings the counters up to date at the end of a run. -/
def settle (c : Cpu) (outcome : Outcome) : Cpu :=
  { c with
    statistics :=
      { c.statistics with
        dataHits := c.dmmu.hits
        dataMisses := c.dmmu.misses
        halts := c.statistics.halts + if outcome = .halted then 1 else 0 } }

def run (c : Cpu) (budget : Nat) : Cpu × Outcome :=
  let c := c.sampleInterrupts
  let (c, outcome) :=
    if c.interruptDue then (c.takeInterrupt, .exception .externalInterrupt)
    else c.cycles budget
  (c.settle outcome, outcome)

end Cpu

end Orbis
