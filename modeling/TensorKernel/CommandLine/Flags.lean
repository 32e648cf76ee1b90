import TensorKernel.Text.Decimal
import TensorKernel.Text.Quoted

/-!
# Flags

The arguments of a command: flags, which may stand anywhere before `--`, and other words, such as file
names. A flag is written with two dashes and its name, and takes its value behind an equals sign or
from the next argument; a switch takes a value only behind an equals sign. Some switches also have a
one-letter form with a single dash, and the dump switches may be written with a single dash. Letters
that start like the flags of a test run are passed over.
-/

namespace TensorKernel.CommandLine

/-- What the flags set. -/
structure Settings where
  /-- Show how to use the command. -/
  help : Bool := false
  /-- Show the version. -/
  version : Bool := false
  /-- Dump the listing. -/
  listing : Bool := false
  /-- Dump the loops. -/
  loops : Bool := false
  /-- Dump the live ranges. -/
  ranges : Bool := false
  /-- Dump the register assignment. -/
  registers : Bool := false
  /-- Dump the save areas. -/
  spills : Bool := false
  /-- Leave loops unified. -/
  noIterations : Bool := false
  /-- Do not save live registers around calls. -/
  noSpills : Bool := false
  /-- The vector extension. -/
  isa : String := "avx2"
  /-- The machine description file, if not empty. -/
  machineFile : String := ""
  /-- The register map file to write, if not empty. -/
  mapFile : String := ""
  /-- The cap on general-purpose registers; zero for none. -/
  gprCap : Int := 0
  /-- The cap on vector registers; zero for none. -/
  vecCap : Int := 0
deriving DecidableEq, Repr, Inhabited

/-- Why the value of a flag is refused. -/
inductive ValueError where
  /-- The text is no truth value. -/
  | bool (text : String)
  /-- The text is no 64-bit integer. -/
  | int (text : String) (cause : Text.IntegerError)
deriving DecidableEq, Repr

/-- The wording for a refused value. -/
def ValueError.message : ValueError → String
  | bool text => "strconv.ParseBool: parsing " ++ Text.quoted text ++ ": invalid syntax"
  | int text .malformed => "strconv.ParseInt: parsing " ++ Text.quoted text ++ ": invalid syntax"
  | int text .outOfRange => "strconv.ParseInt: parsing " ++ Text.quoted text ++ ": value out of range"

/-- Why arguments are refused. -/
inductive UsageError where
  | badSyntax (arg : String)
  | unknownFlag (name : String)
  | unknownLetter (letters : String)
  | needsValue (arg : String)
  | badValue (value flag : String) (cause : ValueError)
  | tooManyFiles (count : Nat)
  /-- A word that the command cannot do anything with. -/
  | unknownWord (word command : String)
  /-- There is nothing to complete. -/
  | nothingToComplete
deriving DecidableEq, Repr

/-- The first byte of a text, as the character with that number. -/
def firstByte (text : String) : Char :=
  match text.toUTF8.toList with
  | [] => '\x00'
  | b :: _ => Char.ofNat b.toNat

/-- The character that stands for an unknown letter. Letters are taken byte by byte, and a byte that is
no character of its own is shown by the first byte of the character with its number. -/
def shownLetter (letters : String) : Char := firstByte (String.singleton (firstByte letters))

/-- The wording for refused arguments. -/
def UsageError.message : UsageError → String
  | badSyntax arg => "bad flag syntax: " ++ arg
  | unknownFlag name => "unknown flag: --" ++ name
  | unknownLetter letters =>
    "unknown shorthand flag: " ++ Text.quotedChar (shownLetter letters) ++ " in -" ++ letters
  | needsValue arg => "flag needs an argument: " ++ arg
  | badValue value flag cause =>
    "invalid argument " ++ Text.quoted value ++ " for " ++ Text.quoted flag ++ " flag: " ++
      cause.message
  | tooManyFiles count => s!"accepts at most 1 arg(s), received {count}"
  | unknownWord word command =>
    "unknown command " ++ Text.quoted word ++ " for " ++ Text.quoted command
  | nothingToComplete => "requires at least 1 arg(s), only received 0"

/-- What the value of a flag is, and what it sets. -/
inductive Effect where
  | switch (set : Settings → Bool → Settings)
  | text (set : Settings → String → Settings)
  | number (set : Settings → Int → Settings)

/-- The name of the value that a flag needs; none for a switch. -/
def Effect.valueName? : Effect → Option String
  | switch _ => none
  | text _ => some "string"
  | number _ => some "int"

/-- A flag. -/
structure Flag where
  /-- The name. -/
  name : String
  /-- What it is for. -/
  purpose : String
  /-- What it sets. -/
  effect : Effect
  /-- The one-letter form, if there is one. -/
  letter : Option Char := none

namespace Flag

/-- The switch that asks for help on a command. -/
def help (command : String) : Flag :=
  ⟨"help", "help for " ++ command, .switch fun s b => { s with help := b }, some 'h'⟩

/-- The flags of the compiler, by name. -/
def all : List Flag := [
  ⟨"dlir", "Dump the Linear IR with physical registers", .switch fun s b => { s with listing := b },
    none⟩,
  ⟨"dlive", "Dump live intervals of the abstract registers", .switch fun s b => { s with ranges := b },
    none⟩,
  ⟨"dloops", "Dump the loop infos", .switch fun s b => { s with loops := b }, none⟩,
  ⟨"dregs", "Dump the abstract to physical register map", .switch fun s b => { s with registers := b },
    none⟩,
  ⟨"dspill", "Dump register spills and callee-saved registers",
    .switch fun s b => { s with spills := b }, none⟩,
  ⟨"gp-regs", "Cap the general-purpose register pool (0 keeps the machine's)",
    .number fun s n => { s with gprCap := n }, none⟩,
  help "ralph-jit",
  ⟨"isa", "x86-64 vector extension: sse41, avx2 or avx512", .text fun s t => { s with isa := t }, none⟩,
  ⟨"machine", "Machine description file (TOML), overrides --isa",
    .text fun s t => { s with machineFile := t }, none⟩,
  ⟨"no-iterations", "Keep loops unified, without first/main/tail iterations",
    .switch fun s b => { s with noIterations := b }, none⟩,
  ⟨"no-spills", "Do not spill live registers around external calls",
    .switch fun s b => { s with noSpills := b }, none⟩,
  ⟨"regmap", "Write the register map (YAML) to this file", .text fun s t => { s with mapFile := t },
    none⟩,
  ⟨"vec-regs", "Cap the vector register pool (0 keeps the machine's)",
    .number fun s n => { s with vecCap := n }, none⟩,
  ⟨"version", "version for ralph-jit", .switch fun s b => { s with version := b }, some 'v'⟩]

/-- The flag as messages show it. -/
def display (f : Flag) : String :=
  match f.letter with
  | some c => "-" ++ String.singleton c ++ ", --" ++ f.name
  | none => "--" ++ f.name

/-- Whether the flag needs no value. -/
def isSwitch (f : Flag) : Bool := f.effect.valueName?.isNone

/-- A truth value. -/
def bool? (text : String) : Option Bool :=
  if text ∈ ["1", "t", "T", "TRUE", "true", "True"] then some true
  else if text ∈ ["0", "f", "F", "FALSE", "false", "False"] then some false
  else none

/-- Set what the flag sets. -/
def apply (f : Flag) (s : Settings) (value : String) : Except UsageError Settings :=
  match f.effect with
  | .switch set =>
    match bool? value with
    | some b => .ok (set s b)
    | none => .error (.badValue value f.display (.bool value))
  | .text set => .ok (set s value)
  | .number set =>
    match Text.literalInt value with
    | .ok n => .ok (set s n)
    | .error cause => .error (.badValue value f.display (.int value cause))

/-- The value that is set if nobody sets one, as far as help shows it. -/
def shownDefault (f : Flag) : String :=
  if f.name = "isa" then " (default " ++ Text.quoted ({} : Settings).isa ++ ")" else ""

/-- How the flag is written, as help shows it. -/
def form (f : Flag) : String :=
  (if f.letter.isSome then "  " else "      ") ++ f.display ++
    (f.effect.valueName?.map (" " ++ ·)).getD ""

/-- The lines of help on flags: their forms, and what they are for in a column behind them. -/
def helpLines (flags : List Flag) : List String :=
  let width := flags.foldl (fun n f => max n f.form.length) 0 + 3
  flags.map fun f =>
    f.form ++ "".pushn ' ' (width - f.form.length) ++ f.purpose ++ f.shownDefault

end Flag

/-- The dump switches, which may be written with a single dash. -/
def dumpSwitches : List String := ["dlir", "dloops", "dlive", "dregs", "dspill"]

/-- Give a dump switch with a single dash its second one. -/
def normalize (arg : String) : String :=
  if dumpSwitches.any fun name => arg = "-" ++ name then "-" ++ arg else arg

/-- Arguments, taken apart. -/
structure Arguments where
  /-- What the flags set. -/
  settings : Settings := {}
  /-- The words that are no flags. -/
  words : List String := []
  /-- The names of the flags that were given. -/
  given : List String := []
  /-- Whether the flags were ended by `--`. -/
  ended : Bool := false
deriving DecidableEq, Repr, Inhabited

namespace Arguments

/-- Give a flag a value. -/
def give (a : Arguments) (flag : Flag) (value : String) : Except UsageError Arguments := do
  return { a with settings := ← flag.apply a.settings value, given := a.given ++ [flag.name] }

/-- The name of a flag, and the value behind an equals sign. -/
def splitValue (cs : List Char) : String × Option String :=
  let name := cs.takeWhile (· ≠ '=')
  match cs.drop name.length with
  | [] => (String.ofList name, none)
  | _ :: value => (String.ofList name, some (String.ofList value))

/-- What the flags of a test run start with. -/
def testMark : List Char := "test.".toList

/-- Follow the letters behind a single dash. -/
def readLetters (flags : List Flag) (a : Arguments) : List Char → Except UsageError Arguments
  | [] => .ok a
  | c :: rest =>
    if testMark.isPrefixOf (c :: rest) then .ok a
    else match flags.find? (·.letter = some c) with
      | none => .error (.unknownLetter (String.ofList (c :: rest)))
      | some flag =>
        match rest with
        | '=' :: v :: value => a.give flag (String.ofList (v :: value))
        | _ => do readLetters flags (← a.give flag "true") rest

/-- Follow arguments for a command with the given flags. -/
def read (flags : List Flag) (a : Arguments) : List String → Except UsageError Arguments
  | [] => .ok a
  | arg :: rest =>
    match arg.toList with
    | ['-', '-'] => .ok { a with words := a.words ++ rest, ended := true }
    | '-' :: '-' :: c :: name =>
      if c = '-' ∨ c = '=' then .error (.badSyntax arg)
      else
        let (name, value) := splitValue (c :: name)
        match flags.find? (·.name = name) with
        | none => .error (.unknownFlag name)
        | some flag =>
          match value with
          | some value => do read flags (← a.give flag value) rest
          | none =>
            if flag.isSwitch then do read flags (← a.give flag "true") rest
            else match rest with
              | [] => .error (.needsValue arg)
              | value :: rest => do read flags (← a.give flag value) rest
    | '-' :: c :: letters => do read flags (← a.readLetters flags (c :: letters)) rest
    | _ => read flags { a with words := a.words ++ [arg] } rest

end Arguments

end TensorKernel.CommandLine
