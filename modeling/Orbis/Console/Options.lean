import Orbis.Numeral
/-!
# Options

What the command is called, how it explains itself and how it reads its arguments.
-/
namespace Orbis

/-!
## Version

The name of the command and the version of this library.
-/

def commandName : String := "orsim"

def version : String := "0.3.0"

/-!
## Help

The texts that explain the command, in a short and a long form.
-/

namespace Console

structure HelpEntry where
  usage : String
  meaning : String
  standard : Option String

def imageHelp : HelpEntry :=
  ⟨"  [IMAGE]", "Raw image to load at physical address 0", some "[default: vmlinux.bin]"⟩

/-- The explanations of the options, given that of the option that prints them. -/
def optionHelp (help : String) : List HelpEntry :=
  [⟨"      --boot-pc <BOOT_PC>", "Entry PC; overrides `system.boot_pc` from the config", none⟩,
    ⟨"  -c, --config <CONFIG>", "JSON configuration file with `general` and `system` sections",
      none⟩,
    ⟨"      --max-cycles <MAX_CYCLES>", "Stop after this many simulated cycles", none⟩,
    ⟨"      --stats", "Print statistics and a register dump on exit", none⟩,
    ⟨"      --trace",
      "Trace every executed instruction (at `trace` level; set RUST_LOG to see it)", none⟩,
    ⟨"  -h, --help", help, none⟩,
    ⟨"  -V, --version", "Print version", none⟩]

def usageLine : String := "Usage: " ++ commandName ++ " [OPTIONS] [IMAGE]"

/-- An explanation in one line, in a column of its own. -/
def HelpEntry.line (e : HelpEntry) (width : Nat) : String :=
  String.ofList (e.usage.toList.rightpad width ' ') ++ "  " ++ e.meaning ++
    (e.standard.elim "" (" " ++ ·)) ++ "\n"

def HelpEntry.paragraph (e : HelpEntry) : String :=
  let indent := "          "
  e.usage ++ "\n" ++ indent ++ e.meaning ++ "\n" ++
    (e.standard.elim "" fun s => indent ++ "\n" ++ indent ++ s ++ "\n")

def shortHelp : String :=
  let options := optionHelp "Print help (see more with '--help')"
  let width := (options.map (·.usage.length)).foldl max 0
  "OpenRISC 1000 (ORBIS32) system simulator\n\n" ++ usageLine ++ "\n\nArguments:\n" ++
    imageHelp.line imageHelp.usage.length ++ "\nOptions:\n" ++
    String.join (options.map (·.line width))

def longHelp : String :=
  "Boot a raw big-endian image and attach the terminal to the guest UART.\n\n" ++
    "The image is copied to physical address 0 and execution starts at the boot PC " ++
    "(0x100, the reset vector, unless overridden).\n\nExamples:\n  orsim vmlinux.bin\n" ++
    "  orsim hello.bin --boot-pc 0 --max-cycles 1000000 --stats\n" ++
    "  RUST_LOG=orsim_core=debug orsim vmlinux.bin\n\n" ++ usageLine ++ "\n\nArguments:\n" ++
    imageHelp.paragraph ++ "\nOptions:\n" ++
    "\n".intercalate ((optionHelp "Print help (see a summary with '-h')").map (·.paragraph))

end Console

/-!
## Command-line options

What the arguments of the command ask for, or the first thing that is wrong with them. A value is
checked only when the next argument that means something follows it, so a later argument that is
unknown takes precedence over an earlier value that is wrong.
-/

namespace Console

structure Options where
  image : String
  /-- The address at which execution starts, if not that of the configuration. -/
  bootPc : Option Word
  config : Option String
  maxCycles : Option Nat
  /-- Whether to print statistics and registers at the end. -/
  stats : Bool
  trace : Bool
  deriving DecidableEq

def Options.initial : Options := ⟨"vmlinux.bin", none, none, none, false, false⟩

/-- What the arguments ask for. -/
inductive Request where
  | run (options : Options)
  | help (long : Bool)
  | version
  deriving DecidableEq

/-- Arguments that take a value. -/
inductive Parameter where
  | image | bootPc | config | maxCycles
  deriving DecidableEq

/-- Arguments that take none. -/
inductive Switch where
  | stats | trace | help | version
  deriving DecidableEq

def Parameter.usage : Parameter → String
  | image => "[IMAGE]"
  | bootPc => "--boot-pc <BOOT_PC>"
  | config => "--config <CONFIG>"
  | maxCycles => "--max-cycles <MAX_CYCLES>"

def Switch.usage : Switch → String
  | stats => "--stats"
  | trace => "--trace"
  | help => "--help"
  | version => "--version"

inductive UsageError where
  | unexpectedArgument (argument : String)
  | unexpectedValue (value : String) (switch : Switch)
  | missingValue (parameter : Parameter)
  | invalidValue (value : String) (parameter : Parameter) (reason : String)
  | repeated (usage : String)
  deriving DecidableEq

def UsageError.message : UsageError → String
  | unexpectedArgument a => "unexpected argument '" ++ a ++ "' found"
  | unexpectedValue v s =>
    "unexpected value '" ++ v ++ "' for '" ++ s.usage ++ "' found; no more were expected"
  | missingValue p => "a value is required for '" ++ p.usage ++ "' but none was supplied"
  | invalidValue v p reason => "invalid value '" ++ v ++ "' for '" ++ p.usage ++ "': " ++ reason
  | repeated usage => "the argument '" ++ usage ++ "' cannot be used multiple times"

/-- What has been read of the arguments. -/
structure Reading where
  options : Options
  given : List Parameter
  hasImage : Bool
  /-- A parameter that waits for its value, or to be set to one. -/
  pending : Option (Parameter × Option String)

namespace Reading

def set (r : Reading) (p : Parameter) (v : String) : Except UsageError Reading := do
  if p ∈ r.given then throw (.repeated p.usage)
  let options ← match p with
    | .image => if v = "" then throw (.missingValue p) else pure { r.options with image := v }
    | .config =>
      if v = "" then throw (.missingValue p) else pure { r.options with config := some v }
    | .bootPc =>
      match Numeral.parseAddress v.toList with
      | .ok a => pure { r.options with bootPc := some a }
      | .error e => throw (.invalidValue v p ("invalid address '" ++ v ++ "': " ++ e.text))
    | .maxCycles =>
      match (Numeral.parse 10 v.toList : Except Numeral.ParseError (BitVec 64)) with
      | .ok n => pure { r.options with maxCycles := some n.toNat }
      | .error e => throw (.invalidValue v p e.text)
  return { r with options, given := p :: r.given }

/-- Sets the parameter that waits, if there is one. -/
def settle (r : Reading) : Except UsageError Reading :=
  match r.pending with
  | none => .ok r
  | some (p, none) => .error (.missingValue p)
  | some (p, some v) => { r with pending := none }.set p v

/-- Reads a parameter, whose value is attached or will follow. -/
def parameter (r : Reading) (p : Parameter) (attached : Option String) :
    Except UsageError Reading := do
  let r ← r.settle
  match attached with
  | some v => r.set p v
  | none => return { r with pending := some (p, none) }

/-- The reading with an option switched on, unless it already is. -/
def switchOn (r : Reading) (s : Switch) (on : Bool) (options : Options) :
    Except UsageError (Reading ⊕ Request) :=
  if on then .error (.repeated s.usage) else .ok (.inl { r with options })

/-- Reads a switch, to which no value may be attached. Some end the reading. -/
def switch (r : Reading) (s : Switch) (long : Bool) (attached : Option String) :
    Except UsageError (Reading ⊕ Request) := do
  if let some v := attached then throw (.unexpectedValue v s)
  let r ← r.settle
  match s with
  | .stats => r.switchOn s r.options.stats { r.options with stats := true }
  | .trace => r.switchOn s r.options.trace { r.options with trace := true }
  | .help => return .inr (.help long)
  | .version => return .inr .version

def long (r : Reading) (name : String) (attached : Option String) :
    Except UsageError (Reading ⊕ Request) :=
  match name with
  | "boot-pc" => (r.parameter .bootPc attached).map .inl
  | "config" => (r.parameter .config attached).map .inl
  | "max-cycles" => (r.parameter .maxCycles attached).map .inl
  | "stats" => r.switch .stats true attached
  | "trace" => r.switch .trace true attached
  | "help" => r.switch .help true attached
  | "version" => r.switch .version true attached
  | _ => .error (.unexpectedArgument ("--" ++ name))

/-- The value that follows a letter in the same argument, with or without an equals sign. -/
def attachedTo : List Char → Option String
  | [] => none
  | '=' :: rest => some (String.ofList rest)
  | rest => some (String.ofList rest)

def short (r : Reading) (letter : Char) (rest : List Char) :
    Except UsageError (Reading ⊕ Request) :=
  match letter with
  | 'c' => (r.parameter .config (attachedTo rest)).map .inl
  | 'h' => r.switch .help false none
  | 'V' => r.switch .version false none
  | _ => .error (.unexpectedArgument (String.ofList ['-', letter]))

def positional (r : Reading) (argument : String) : Except UsageError Reading := do
  if r.hasImage then throw (.unexpectedArgument argument)
  let r ← r.settle
  return { r with hasImage := true, pending := some (.image, some argument) }

def plain (r : Reading) (argument : String) : Except UsageError Reading :=
  match r.pending with
  | some (p, none) => .ok { r with pending := some (p, some argument) }
  | _ => r.positional argument

/-- Reads arguments to the end. After two lone dashes none of them is an option. -/
def arguments (r : Reading) (onlyPlain : Bool) : List String → Except UsageError Request
  | [] => do
    let r ← r.settle
    return .run r.options
  | a :: rest => do
    if onlyPlain then (← r.positional a).arguments true rest
    else match a.toList with
      | ['-', '-'] => r.arguments true rest
      | '-' :: '-' :: name =>
        let attached :=
          if name.contains '=' then some (String.ofList (name.dropWhile (· != '=')).tail) else none
        match ← r.long (String.ofList (name.takeWhile (· != '='))) attached with
        | .inl r => r.arguments false rest
        | .inr request => return request
      | '-' :: letter :: more =>
        match ← r.short letter more with
        | .inl r => r.arguments false rest
        | .inr request => return request
      | _ => (← r.plain a).arguments false rest

end Reading

def Request.ofArguments (arguments : List String) : Except UsageError Request :=
  Reading.arguments ⟨.initial, [], false, none⟩ false arguments

end Console

end Orbis
