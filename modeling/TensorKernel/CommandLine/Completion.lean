import TensorKernel.CommandLine.Command

/-!
# Completion

Completion suggests how the last argument of a command may go on. Flags are suggested for an argument
that starts with a dash, unless they were given already or flags have ended; values of flags and file
names are left to the shell. The commands below a command are suggested where one of them may stand.
-/

namespace TensorKernel.CommandLine

/-- What the shell does besides offering the suggestions. -/
inductive Advice where
  /-- It offers file names if there are no suggestions. -/
  | files
  /-- It offers nothing else. -/
  | nothingElse
deriving DecidableEq, Repr

namespace Advice

/-- The number of an advice. -/
def code : Advice → Nat
  | files => 0
  | nothingElse => 4

/-- The name of an advice. -/
def name : Advice → String
  | files => "ShellCompDirectiveDefault"
  | nothingElse => "ShellCompDirectiveNoFileComp"

end Advice

/-- Suggestions for an argument. -/
structure Suggestions where
  /-- How the argument may go on, and what that means. -/
  choices : List (String × String) := []
  /-- What the shell does besides offering them. -/
  advice : Advice := .files
deriving DecidableEq, Repr, Inhabited

/-- The lines of suggestions, with or without descriptions. -/
def Suggestions.lines (s : Suggestions) (described : Bool) : List String :=
  (s.choices.map fun (text, meaning) => if described then text ++ "\t" ++ meaning else text) ++
    [s!":{s.advice.code}"]

/-- What is asked for: a flag, the value of a flag, or another word. -/
structure Question where
  /-- The arguments before the last one, without a flag whose value is asked for. -/
  args : List String
  /-- The text to be completed. -/
  word : String
  /-- The flag whose value is asked for. -/
  flag : Option Flag := none
  /-- Whether the value of an unknown flag is asked for. -/
  unknown : Bool := false

namespace Question

/-- The flag with a name, or with a letter. -/
def flag? (flags : List Flag) (name : String) : Option Flag :=
  match name.toList with
  | [c] => flags.find? (·.letter = some c)
  | _ => flags.find? (·.name = name)

/-- The last of the letters behind a dash, as a name, or the name behind two dashes. -/
def flagName : List Char → String
  | '-' :: '-' :: name => String.ofList name
  | letters => String.ofList (letters.drop (letters.length - 1))

/-- The name of the flag that an argument is, if it has no value yet. -/
def openFlag? (arg : String) : Option String :=
  match arg.toList with
  | ['-', '-'] | ['-'] => none
  | '-' :: cs => if arg.contains '=' then none else some (flagName ('-' :: cs))
  | _ => none

/-- What is asked for by the last argument behind the others. -/
def ofArgs (flags : List Flag) (args : List String) (last : String) : Question :=
  let cs := last.toList
  let name := cs.takeWhile (· ≠ '=')
  let isFlag := last.startsWith "-"
  if isFlag ∧ name.length = cs.length then { args, word := last }
  else
    let word := if isFlag then String.ofList (cs.drop (name.length + 1)) else last
    let own := if isFlag then flagName name else ""
    if own ≠ "" then
      match flag? flags own with
      | some flag => { args, word, flag := some flag }
      | none => { args, word := last, unknown := true }
    else match args.getLast?.bind openFlag? with
      | none => { args, word }
      | some before =>
        match flag? flags before with
        | none => { args, word := last, unknown := true }
        | some flag =>
          if flag.isSwitch ∧ !isFlag then { args, word }
          else { args := args.dropLast, word, flag := some flag }

end Question

/-- The ways of writing a flag that start with a text. -/
def Flag.choices (f : Flag) (start : String) : List (String × String) :=
  let forms := ("--" ++ f.name) :: (f.letter.map fun c => "-" ++ String.singleton c).toList
  (forms.filter (·.startsWith start)).map (·, f.purpose)

namespace Command

/-- The advice where neither a flag nor a command is asked for: the commands that set up completion
take no words. -/
def wordAdvice : Command → Advice
  | compile | complete _ => .files
  | completion | script _ => .nothingElse

/-- The commands below a command. Compiling has completion below it only where that is `offered`. -/
def below (offered : Bool) : Command → List (String × String)
  | compile =>
    if offered then [("completion", "Generate the autocompletion script for the specified shell")]
    else []
  | completion => Shell.all.map fun s => (s.name, s.purpose)
  | _ => []

/-- Whether a text is the start of a flag. -/
def startsFlag (word : String) : Bool := word.startsWith "-" && !word.contains '='

/-- Suggestions for the last argument of a command behind the others. Arguments that are refused have
no suggestions, and nothing goes on behind a request for help or the version. The command that completes
does not look at its arguments. -/
def suggest (offered : Bool) (c : Command) (args : List String) (last : String) : Suggestions :=
  let q := Question.ofArgs c.flags args last
  match c, Arguments.read c.flags {} q.args with
  | complete _, _ => { advice := if startsFlag last then .nothingElse else .files }
  | _, .error _ => {}
  | _, .ok a =>
    if q.unknown ∧ !a.ended then {}
    else if a.given.contains "help" ∨ a.given.contains "version" then { advice := .nothingElse }
    else if q.flag.isSome then { advice := if a.ended then c.wordAdvice else .files }
    else if startsFlag q.word ∧ !a.ended then
      let absent := c.flags.filter fun f => !a.given.contains f.name
      { choices := absent.flatMap (·.choices q.word), advice := .nothingElse }
    else
      let below := if a.words.isEmpty ∧ a.given.isEmpty then c.below offered else []
      { choices := below.filter (·.1.startsWith q.word)
        advice := if below.isEmpty then c.wordAdvice else .nothingElse }

/-- Suggestions for the last of some arguments of the program. If completion is not offered, they are
taken for arguments of compiling. -/
def suggestAny (offered : Bool) (args : List String) (last : String) : Suggestions :=
  if offered then
    let (c, args) := select args
    c.suggest offered args last
  else compile.suggest offered args last

end Command

end TensorKernel.CommandLine
