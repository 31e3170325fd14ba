import Orbis.Exception
import Orbis.Numeral
/-!
# Statistics

What a machine counts while it runs. Nothing here influences the machine.
-/
namespace Orbis

structure Statistics where
  cycles : Nat
  /-- Instructions issued, whether or not they faulted. -/
  instructions : Nat
  exceptions : Nat
  byException : Vector Nat 14
  halts : Nat
  fetchFast : Nat
  fetchSlow : Nat
  /-- Word loads that the remembered data page served, as of the end of the last run. -/
  dataHits : Nat
  /-- Word loads that were translated, as of the end of the last run. -/
  dataMisses : Nat
  deriving DecidableEq

namespace Statistics

def zero : Statistics where
  cycles := 0
  instructions := 0
  exceptions := 0
  byException := .replicate 14 0
  halts := 0
  fetchFast := 0
  fetchSlow := 0
  dataHits := 0
  dataMisses := 0

def exceptionsOf (s : Statistics) (e : Exception) : Nat := s.byException[e.index]

def record (s : Statistics) (e : Exception) (n : Nat) : Statistics :=
  { s with
    exceptions := s.exceptions + n
    byException := s.byException.set e.index (s.exceptionsOf e + n) }

/-- The exceptions that were dispatched, with their numbers of dispatches, in order. -/
def dispatched (s : Statistics) : List (Exception × Nat) :=
  (Exception.all.map fun e => (e, s.exceptionsOf e)).filter (·.2 ≠ 0)

end Statistics

/-!
## The statistics report

The counters of a machine for the eye, in sections that can be chosen by name.
-/

namespace Statistics

inductive Section where
  | summary | exceptions | memory
  deriving DecidableEq

namespace Section

def all : List Section := [summary, exceptions, memory]

def name : Section → String
  | summary => "summary"
  | exceptions => "exceptions"
  | memory => "memory"

/-- The sections that a list of names chooses, which are all of them if it is empty. -/
def chosen (names : List String) : List Section :=
  all.filter fun s => names.isEmpty || names.contains s.name

end Section

/-- A line of the report whose value starts at a fixed column. -/
def entry (label value : String) : String := String.ofList (label.toList.rightpad 25 ' ') ++ value

def toFloat (n : Nat) : Float := (UInt64.ofNat n).toFloat

/-- How much one counter is of its sum with another, as a percentage. Sums are taken in 64 bits, and
an empty sum counts as one. -/
def share (part other : Nat) : String :=
  let sum : Nat := max (BitVec.ofNat 64 (part + other)).toNat 1
  Numeral.fixed 2 (toFloat part * 100.0 / toFloat sum) ++ "%"

def shared (part other : Nat) : String :=
  Numeral.decimal part ++ " (" ++ share part other ++ ")"

def rate (s : Statistics) (seconds : Float) : Float :=
  if seconds > 0.0 then toFloat s.instructions / seconds else 0.0

def thinRule : String := String.ofList (List.replicate 58 '-')

def thickRule : String := String.ofList (List.replicate 58 '=')

def lines (s : Statistics) (seconds : Float) : Section → List String
  | .summary =>
    [entry "host_seconds" (Numeral.fixed 4 seconds ++ " s"),
      entry "sim_cycles" (Numeral.decimal s.cycles),
      entry "sim_insts" (Numeral.decimal s.instructions),
      entry "sim_mips" (Numeral.fixed 2 (s.rate seconds / 1000000.0)),
      entry "sim_halts" (Numeral.decimal s.halts),
      thinRule]
  | .exceptions =>
    ["EXCEPTIONS", entry "  total" (Numeral.decimal s.exceptions)] ++
      s.dispatched.map (fun (e, n) => entry ("  " ++ e.name) (Numeral.decimal n)) ++
      [thinRule]
  | .memory =>
    ["TRANSLATION",
      entry "  fetch.fast" (shared s.fetchFast s.fetchSlow),
      entry "  fetch.slow" (Numeral.decimal s.fetchSlow),
      entry "  dmmu.fast_hits" (shared s.dataHits s.dataMisses),
      entry "  dmmu.fast_misses" (Numeral.decimal s.dataMisses)]

/-- The report on a run that took the host a number of seconds. -/
def report (s : Statistics) (seconds : Float) (names : List String) : String :=
  String.join
    ((["", thickRule, "OPENRISC SIMULATION STATISTICS", thickRule] ++
      (Section.chosen names).flatMap (s.lines seconds) ++ [thickRule]).map (· ++ "\n"))

end Statistics

end Orbis
