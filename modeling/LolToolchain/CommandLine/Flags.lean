import LolToolchain.Numbar.Reading
import LolToolchain.Text.Quoted

/-!
The flags of the command line. A flag starts with one or two dashes; its value follows a `=`, or,
unless the flag is a switch, is the next argument. The first argument that is no flag ends them.
-/
namespace LolToolchain

inductive FlagKind where
  | switch
  | number
  | word
  deriving DecidableEq, Repr, Inhabited

structure FlagInfo where
  name : String
  kind : FlagKind
  help : String
  deriving DecidableEq, Repr, Inhabited

namespace FlagInfo

def all : List FlagInfo := [
  ⟨"d", .switch, "Shorthand for --disasm"⟩,
  ⟨"debug-vm", .switch, "Trace the stack and each instruction to stderr"⟩,
  ⟨"disasm", .switch, "Print the disassembled chunk to stderr before running"⟩,
  ⟨"lsp", .switch, "Start the language server on stdio"⟩,
  ⟨"no-cache", .switch, "Do not read or write the compiled-chunk cache"⟩,
  ⟨"no-optimize", .switch, "Skip the AST optimizer"⟩,
  ⟨"o", .word, "Write the compiled chunk to this file instead of running"⟩,
  ⟨"v", .number, "Log verbosity (0 errors only, higher is chattier)"⟩]

def find? (name : Text) : Option FlagInfo :=
  all.find? fun f => (f.name : Text) == name

/-- The help of a flag. A switch with a name of one letter has it on one line. -/
def describe (f : FlagInfo) : Text :=
  let value : Text := match f.kind with
    | .switch => []
    | .number => " int"
    | .word => " string"
  let line : Text := "  -" ++ (f.name : Text) ++ value
  let gap : Text := if line.length ≤ 4 then "\t" else "\n    \t"
  line ++ gap ++ (f.help : Text) ++ "\n"

end FlagInfo

def usageHead : List String := [
  "Usage: lol [options] <file.lol | file.lolc | ->",
  "",
  "Compiles and runs a LOLCODE program. '-' reads the program from stdin.",
  "",
  "Options:"]

def usageTail : List String := [
  "",
  "Examples:",
  "  lol hello.lol               # Run a program",
  "  lol -d hello.lol            # Show bytecode, then run",
  "  lol -o hello.lolc hello.lol # Compile to a chunk file",
  "  lol hello.lolc              # Run a compiled chunk",
  "  lol -lsp                    # Language server for editors"]

def usage : Text :=
  let line (s : String) : Text := (s : Text) ++ "\n"
  usageHead.flatMap line ++ FlagInfo.all.flatMap FlagInfo.describe ++ usageTail.flatMap line

/-- What a command line asks for. A switch that was not given is `none`; of several settings of one
switch the last counts, and the two names of the listing are one switch. -/
structure Arguments where
  listing : Option Bool := none
  tracing : Option Bool := none
  serve : Bool := false
  noCache : Bool := false
  noOptimize : Bool := false
  output : Text := []
  verbosity : Option Int := none
  rest : List Text := []
  deriving DecidableEq, Repr, Inhabited

inductive FlagFault where
  | help
  | badSyntax (argument : Text)
  | undefined (name : Text)
  | needsArgument (name : Text)
  | badSwitch (value name : Text)
  | badNumber (value name : Text)
  | numberRange (value name : Text)
  deriving DecidableEq, Repr, Inhabited

def FlagFault.message : FlagFault → Text
  | .help => []
  | .badSyntax a => "bad flag syntax: " ++ a ++ "\n"
  | .undefined n => "flag provided but not defined: -" ++ n ++ "\n"
  | .needsArgument n => "flag needs an argument: -" ++ n ++ "\n"
  | .badSwitch v n => "invalid boolean value " ++ v.quoted ++ " for -" ++ n ++ ": parse error\n"
  | .badNumber v n => "invalid value " ++ v.quoted ++ " for flag -" ++ n ++ ": parse error\n"
  | .numberRange v n =>
    "invalid value " ++ v.quoted ++ " for flag -" ++ n ++ ": value out of range\n"

namespace Arguments

def readSwitch? (t : Text) : Option Bool :=
  if ["1", "t", "T", "TRUE", "true", "True"].any fun (s : String) => (s : Text) == t then some true
  else if ["0", "f", "F", "FALSE", "false", "False"].any fun (s : String) => (s : Text) == t then
    some false
  else none

/-- The base that a number starts with, and its digits. A zero in front means eight. -/
def splitBase : Text → Nat × Text
  | 0x30 :: mark :: d :: rest =>
    let lower := mark ||| 0x20
    if lower == 0x62 then (2, d :: rest)
    else if lower == 0x6F then (8, d :: rest)
    else if lower == 0x78 then (16, d :: rest)
    else (8, mark :: d :: rest)
  | 0x30 :: rest => (8, rest)
  | t => (10, t)

/-- Whether each underscore stands between digits, where a base counts as one. -/
def underscoresFit (hex : Bool) : Bool → Bool → Text → Bool
  | _, afterMark, [] => !afterMark
  | afterDigit, afterMark, b :: t =>
    if (digitOf? (if hex then 16 else 10) b).isSome then underscoresFit hex true false t
    else if b == 0x5F then afterDigit && underscoresFit hex false true t
    else !afterMark && underscoresFit hex false false t

/-- Reads digits up to a bound: the first character that is none, or the first value beyond the
bound, ends the reading. -/
def readDigits (base bound : Nat) (n : Nat) : Text → Except Bool Nat
  | [] => .ok n
  | b :: t =>
    if b == 0x5F then readDigits base bound n t
    else match digitOf? base b with
      | none => .error false
      | some d => if bound < n * base + d then .error true else readDigits base bound (n * base + d) t

/-- A whole number with sign and base; the error says whether it is only too large. -/
def readNumber (t : Text) : Except Bool Int := do
  let (negative, body) := takeSign t
  if body.isEmpty then throw false
  let (base, digits) := splitBase body
  let n ← readDigits base 0xFFFFFFFFFFFFFFFF 0 digits
  let hasBase := digits.length + 2 ≤ body.length
  let inner := if hasBase then digits else body
  if body.any (· == 0x5F) && !underscoresFit (base == 16 && hasBase) hasBase false inner then
    throw false
  let value : Int := if negative then -(n : Int) else n
  if (Numbr.ofInt? value).isSome then return value else throw true

def setSwitch (a : Arguments) (name : Text) (b : Bool) : Arguments :=
  if name == "d" || name == "disasm" then { a with listing := some b }
  else if name == "debug-vm" then { a with tracing := some b }
  else if name == "lsp" then { a with serve := b }
  else if name == "no-cache" then { a with noCache := b }
  else { a with noOptimize := b }

def setValue (a : Arguments) (f : FlagInfo) (value : Text) : Except FlagFault Arguments :=
  if f.kind = .number then
    match readNumber value with
    | .ok n => .ok { a with verbosity := some n }
    | .error true => .error (.numberRange value f.name)
    | .error false => .error (.badNumber value f.name)
  else .ok { a with output := value }

/-- The name in an argument, and the value behind its `=`. A `=` in front belongs to the name. -/
def splitValue (t : Text) : Text × Option Text :=
  match t with
  | [] => ([], none)
  | b :: t =>
    match Text.before? [0x3D] t with
    | none => (b :: t, none)
    | some name => (b :: name, some (t.drop (name.length + 1)))

/-- A flag without its dashes; `none` if the argument is no flag. -/
def flagBody? : Text → Option Text
  | 0x2D :: 0x2D :: body => some body
  | 0x2D :: b :: body => some (b :: body)
  | _ => none

def parseFrom (a : Arguments) : List Text → Except FlagFault Arguments
  | [] => .ok a
  | arg :: rest =>
    match flagBody? arg with
    | none => .ok { a with rest := arg :: rest }
    | some body =>
      if arg == "--" then .ok { a with rest }
      else if body.isEmpty || body.head? == some 0x2D || body.head? == some 0x3D then
        .error (.badSyntax arg)
      else
        let (name, value) := splitValue body
        match FlagInfo.find? name with
        | none => .error (if name == "help" || name == "h" then .help else .undefined name)
        | some f =>
          if f.kind = .switch then
            match value with
            | none => parseFrom (a.setSwitch name true) rest
            | some v =>
              match readSwitch? v with
              | some b => parseFrom (a.setSwitch name b) rest
              | none => .error (.badSwitch v name)
          else
            match value, rest with
            | some v, rest => do parseFrom (← a.setValue f v) rest
            | none, v :: rest => do parseFrom (← a.setValue f v) rest
            | none, [] => .error (.needsArgument name)

def parse (args : List Text) : Except FlagFault Arguments :=
  parseFrom {} args

end Arguments
end LolToolchain
