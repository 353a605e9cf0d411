import MipsAssembler.ByteString.Quoted
import MipsAssembler.Program.Windows

/-!
# Options

The command line of the assembler. A flag is written `-name` or `--name`. A switch may be given a
value after `=`; any other flag takes its value from there or, without `=`, from the argument that
follows, whatever it looks like. The flags end before the first argument that is none, or after
`--`; exactly one argument, the source file, must be left.
-/

namespace MipsAssembler

open ByteString

namespace CommandLine

/-- What the command line asks for. -/
structure Options where
  /-- Where the window of the user's text starts; empty for the standard one. -/
  textStart : ByteString := []
  /-- Where the window of the user's data starts; empty for the standard one. -/
  dataStart : ByteString := []
  /-- The file for the output; empty for the standard output. -/
  output : ByteString := []
  symbols : Bool := false
  split : Bool := false
  hex : Bool := false
  detailed : Bool := false
  dump : Bool := false
  deriving DecidableEq, Repr

/-- What is wrong with a command line. -/
inductive UsageError where
  /-- A request for help, which is none. -/
  | help
  | badSyntax (argument : ByteString)
  | unknownFlag (name : ByteString)
  | badBoolean (value name : ByteString)
  | missingValue (name : ByteString)
  /-- No source file, or more than one. -/
  | wrongCount
  deriving DecidableEq, Repr

/-- The usage text. -/
def usage : ByteString :=
  line "usage: mipsasm [flags] file.asm" ++
    line "  -d\tdetailed op-code analysis" ++
    line "  -ds string" ++
    line "    \tstart address of the static data region" ++
    line "  -dump" ++
    line "    \tdump the resolved program to stderr" ++
    line "  -hex" ++
    line "    \tprint the memory image instead of a listing" ++
    line "  -o string" ++
    line "    \toutput file (default stdout)" ++
    line "  -split" ++
    line "    \tinclude @hi/@lo entries in the symbol table" ++
    line "  -symbols" ++
    line "    \tprint the symbol table" ++
    line "  -ts string" ++
    line "    \tstart address of the text region"

namespace UsageError

/-- The line that says what is wrong; none for help and for a wrong number of files. -/
def message : UsageError → ByteString
  | help | wrongCount => []
  | badSyntax argument => line ("bad flag syntax: " ++ argument)
  | unknownFlag name => line ("flag provided but not defined: -" ++ name)
  | badBoolean value name =>
    line ("invalid boolean value " ++ quote value ++ " for -" ++ name ++ ": parse error")
  | missingValue name => line ("flag needs an argument: -" ++ name)

/-- The exit code. -/
def exitCode : UsageError → Nat
  | help => 0
  | _ => 2

end UsageError

/-! ## Reading arguments -/

/-- What a flag changes: a switch is on or off, any other flag has a text. -/
inductive Flag where
  | switch (set : Bool → Options → Options)
  | setting (set : ByteString → Options → Options)

/-- The flags. -/
def flags : List (ByteString × Flag) :=
  [("ts", .setting fun v o => { o with textStart := v }),
   ("ds", .setting fun v o => { o with dataStart := v }),
   ("o", .setting fun v o => { o with output := v }),
   ("symbols", .switch fun v o => { o with symbols := v }),
   ("split", .switch fun v o => { o with split := v }),
   ("hex", .switch fun v o => { o with hex := v }),
   ("d", .switch fun v o => { o with detailed := v }),
   ("dump", .switch fun v o => { o with dump := v })]

/-- The texts that switch a switch on. -/
def onTexts : List ByteString := ["1", "t", "T", "true", "TRUE", "True"]

/-- The texts that switch a switch off. -/
def offTexts : List ByteString := ["0", "f", "F", "false", "FALSE", "False"]

/-- The names under which help is asked for. -/
def helpNames : List ByteString := ["h", "help"]

/-- Reads the value of a switch. -/
def readBool? (s : ByteString) : Option Bool :=
  if onTexts.contains s then some true else if offTexts.contains s then some false else none

/-- What an argument is. -/
inductive Argument where
  | operand
  /-- The mark that ends the flags. -/
  | terminator
  | malformed
  | flag (name : ByteString) (value : Option ByteString)
  deriving DecidableEq, Repr

/-- The name of a flag and the value after `=`. The name is not empty. -/
def splitValue (s : ByteString) : ByteString × Option ByteString :=
  if s.contains (ascii '=') then (cutAt (· == ascii '=') s).map id some else (s, none)

/-- What an argument is. A single dash is an operand. -/
def classify (s : ByteString) : Argument :=
  let dash := ascii '-'
  match s with
  | first :: second :: rest =>
    if first ≠ dash then .operand
    else if second = dash ∧ rest = [] then .terminator
    else
      let body := if second = dash then rest else second :: rest
      if body.head? = some dash ∨ body.head? = some (ascii '=') then .malformed
      else
        let (name, value) := splitValue body
        .flag name value
  | _ => .operand

/-- Reads flags up to the first argument that is none. -/
def readFlags (o : Options) : List ByteString → Except UsageError (Options × List ByteString)
  | [] => .ok (o, [])
  | argument :: rest =>
    match classify argument with
    | .operand => .ok (o, argument :: rest)
    | .terminator => .ok (o, rest)
    | .malformed => .error (.badSyntax argument)
    | .flag name value =>
      match flags.lookup name, value with
      | some (.switch set), none => readFlags (set true o) rest
      | some (.switch set), some v =>
        match readBool? v with
        | some b => readFlags (set b o) rest
        | none => .error (.badBoolean v name)
      | some (.setting set), some v => readFlags (set v o) rest
      | some (.setting set), none =>
        match rest with
        | v :: rest => readFlags (set v o) rest
        | [] => .error (.missingValue name)
      | none, _ =>
        if helpNames.contains name then .error .help else .error (.unknownFlag name)

/-- Reads a command line: the options and the source file. -/
def readArguments (arguments : List ByteString) : Except UsageError (Options × ByteString) :=
  match readFlags {} arguments with
  | .error e => .error e
  | .ok (o, [file]) => .ok (o, file)
  | .ok _ => .error .wrongCount

/-! ## Windows -/

/-- A start address that is no number of 32 bits. -/
structure BadStart where
  flag : ByteString
  text : ByteString
  error : NumeralError
  deriving DecidableEq, Repr

/-- The wording of the error. -/
def BadStart.message (e : BadStart) : ByteString :=
  let cause : ByteString := match e.error with
    | .malformed => "invalid syntax"
    | .outOfRange => "value out of range"
  "invalid -" ++ e.flag ++ " " ++ quote e.text ++ ": strconv.ParseUint: parsing " ++
    quote e.text ++ ": " ++ cause

/-- Moves the start of a region, if a text is given for it. -/
def moveStart (flag text : ByteString) (r : Region) : Except BadStart Region :=
  if text = [] then .ok r
  else match readNatural 0xFFFFFFFF text with
    | .ok n => .ok { r with start := UInt32.ofNat n }
    | .error error => .error { flag, text, error }

/-- The windows that the options ask for. -/
def Options.windows (o : Options) : Except BadStart Windows := do
  let standard : Windows := {}
  let userText ← moveStart "ts" o.textStart standard.userText
  let userData ← moveStart "ds" o.dataStart standard.userData
  return { standard with userText, userData }

end CommandLine

end MipsAssembler
