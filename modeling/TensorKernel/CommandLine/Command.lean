import TensorKernel.CommandLine.Flags

/-!
# Commands

Besides compiling, which needs no word for it, the program can set up and answer the completion of
commands in a shell. The first word that is no flag, nor the value of one, selects the command; it is
then taken out of the arguments. Which flags have values is judged here by the switches that a command
declares itself: an unknown flag is taken to have one.
-/

namespace TensorKernel.CommandLine

/-- A shell whose commands can be completed. -/
inductive Shell where
  | bash
  | fish
  | powershell
  | zsh
deriving DecidableEq, Repr

namespace Shell

/-- All shells, by name. -/
def all : List Shell := [bash, fish, powershell, zsh]

/-- The name of a shell. -/
def name : Shell → String
  | bash => "bash"
  | fish => "fish"
  | powershell => "powershell"
  | zsh => "zsh"

/-- The shell with a name. -/
def ofName? (name : String) : Option Shell := all.find? (·.name = name)

/-- Every shell is found by its name. -/
theorem ofName?_name (s : Shell) : ofName? s.name = some s := by
  cases s <;> rfl

/-- What the command for a shell does. -/
def purpose (s : Shell) : String := "Generate the autocompletion script for " ++ s.name

end Shell

/-- What the program can be asked to do. -/
inductive Command where
  /-- Compile a subgraph. -/
  | compile
  /-- Tell how to set up completion. -/
  | completion
  /-- Write what sets up completion in a shell. -/
  | script (shell : Shell)
  /-- Complete the last argument, with or without descriptions. -/
  | complete (described : Bool)
deriving DecidableEq, Repr

namespace Command

/-- The words that select a command. -/
def path : Command → String
  | compile => "ralph-jit"
  | completion => "ralph-jit completion"
  | script shell => "ralph-jit completion " ++ shell.name
  | complete true => "ralph-jit __complete"
  | complete false => "ralph-jit __completeNoDesc"

/-- The flags of a command, by name. -/
def flags : Command → List Flag
  | compile => Flag.all
  | completion => [.help "completion"]
  | script shell =>
    [.help shell.name, ⟨"no-descriptions", "disable completion descriptions", .switch fun s _ => s, none⟩]
  | complete _ => []

/-- The switches that a command declares itself, which are all but those for help and version. -/
def switches (c : Command) : List String :=
  (c.flags.filter fun f => f.isSwitch ∧ f.letter.isNone).map (·.name)

/-- Whether an argument is taken for a flag whose value is the next argument. -/
def takesNext (switches : List String) (arg : String) : Bool :=
  arg.startsWith "-" && !arg.contains '=' &&
    ((arg.startsWith "--" && !switches.contains (String.ofList (arg.toList.drop 2))) ||
      arg.utf8ByteSize = 2)

/-- The first word that is neither a flag nor the value of one. The search ends at `--`, and at a flag
that would leave nothing behind its value. With `skip` the next argument is a value. -/
def firstWord? (switches : List String) (skip : Bool) : List String → Option String
  | [] => none
  | arg :: rest =>
    if skip then firstWord? switches false rest
    else if arg = "--" then none
    else if takesNext switches arg then
      if rest.length ≤ 1 then none else firstWord? switches true rest
    else if arg ≠ "" ∧ !arg.startsWith "-" then some arg
    else firstWord? switches false rest

/-- The arguments without the first occurrence of a word that is neither a flag nor the value of
one. -/
def withoutWord (switches : List String) (word : String) (skip : Bool) : List String → List String
  | [] => []
  | arg :: rest =>
    if skip then arg :: withoutWord switches word false rest
    else if arg = "--" then arg :: rest
    else if takesNext switches arg then arg :: withoutWord switches word true rest
    else if arg = word then rest
    else arg :: withoutWord switches word false rest

/-- Select a command, and give its arguments. -/
def select (args : List String) : Command × List String :=
  match firstWord? compile.switches false args with
  | some "__complete" => (complete true, withoutWord compile.switches "__complete" false args)
  | some "__completeNoDesc" =>
    (complete false, withoutWord compile.switches "__completeNoDesc" false args)
  | some "completion" =>
    let args := withoutWord compile.switches "completion" false args
    match (firstWord? completion.switches false args).bind Shell.ofName? with
    | some shell => (script shell, withoutWord completion.switches shell.name false args)
    | none => (completion, args)
  | _ => (compile, args)

end Command

end TensorKernel.CommandLine
