import Orbis.Console.Command
/-!
# The program

Reads the files, passes the terminal on to the console and prints what the command leaves behind.
-/
namespace Orbis.Console

/-- A refusal of the system. Its number may come negated, and its description uncapitalised. -/
def refusal (details : String) (code : UInt32) : FileError :=
  .system details.capitalize code.toBitVec.toInt.natAbs

/-- The reason for which the system did not read a file. -/
def reasonOf : IO.Error → FileError
  | .noFileOrDirectory _ code details | .inappropriateType _ code details
  | .permissionDenied _ code details | .invalidArgument _ code details
  | .resourceExhausted _ code details => refusal details code
  | .otherError code details => refusal details code
  | e => refusal e.toString 0

def readFile (path : String) : IO (Except FileError ByteArray) := do
  try
    return .ok (← IO.FS.readBinFile path)
  catch e =>
    return .error (reasonOf e)

/-- Gathers lines from a terminal until its end. -/
partial def gather (input : IO.FS.Stream) (keys : IO.Ref ByteArray) : IO Unit := do
  let line ← input.getLine
  if !line.isEmpty then
    keys.modify (· ++ line.toUTF8)
    gather input keys

/-- All that is left of an input. -/
partial def drainInput (input : IO.FS.Stream) (found : ByteArray) : IO ByteArray := do
  let chunk ← input.read 4096
  if chunk.isEmpty then return found else drainInput input (found ++ chunk)

/-- Starts to take keys, and returns how to ask for those that wait. A terminal is read beside the
machine, any other input as a whole. -/
def openKeys : IO (IO (List Byte)) := do
  let input ← IO.getStdin
  let keys ← IO.mkRef ByteArray.empty
  if ← input.isTty then
    discard <| IO.asTask (gather input keys) .dedicated
  else
    keys.set (← drainInput input .empty)
  return do
    let waiting ← keys.modifyGet fun bs => (bs, .empty)
    return waiting.toList.map UInt8.toBitVec

/-- Takes turns until the program stops or the limit is reached. -/
partial def loop (s : Simulator) (limit : Option Nat) (keys : IO (List Byte)) : IO Simulator := do
  match advance? s limit with
  | none => return s
  | some (s, halted) =>
    let (output, s) := exchange s (← keys)
    let errors ← IO.getStderr
    errors.write ⟨output.map UInt8.ofBitVec⟩
    errors.flush
    if halted then return s else loop s limit keys

def start (o : Options) : IO UInt32 := do
  let began ← IO.monoNanosNow
  let image ← readFile o.image
  let config ← readFile (o.config.getD "")
  match o.simulator fun path => if o.config = some path then config else image with
  | .error e =>
    IO.eprint e.report
    return 1
  | .ok s =>
    let s ← loop s o.maxCycles (← openKeys)
    if o.stats then
      let nanos := (← IO.monoNanosNow) - began
      IO.print (summary s (nanos.toFloat / 1000000000.0))
    return 0

end Orbis.Console

def main (arguments : List String) : IO UInt32 := do
  match Orbis.Console.Request.ofArguments arguments with
  | .error e =>
    IO.eprint e.report
    return 2
  | .ok .version =>
    IO.print Orbis.Console.versionLine
    return 0
  | .ok (.help long) =>
    IO.print (if long then Orbis.Console.longHelp else Orbis.Console.shortHelp)
    return 0
  | .ok (.run o) => Orbis.Console.start o
