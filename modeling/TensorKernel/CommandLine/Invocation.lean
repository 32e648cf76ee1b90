import TensorKernel.CommandLine.Completion

/-!
# Invocations

What the arguments of the program ask for: to be told something, or to compile a file. Help is told if
it is asked for, and also if there is nothing else to do.
-/

namespace TensorKernel.CommandLine

/-- What the program can tell. -/
inductive Topic where
  /-- How to use a command. -/
  | help (command : Command)
  | version
  /-- What sets up completion in a shell. -/
  | script (shell : Shell)
  /-- How the last argument may go on behind the others, and whether completion is offered there. -/
  | suggestions (described offered : Bool) (args : List String) (last : String)
deriving DecidableEq, Repr

/-- What the program is asked to do. -/
inductive Invocation where
  | tell (topic : Topic)
  /-- Compile a file. -/
  | compile (settings : Settings) (file : String)
deriving DecidableEq, Repr

namespace Invocation

/-- What the arguments of a command ask for. -/
def ofCommand (c : Command) (a : Arguments) : Except UsageError Invocation :=
  if a.settings.help then .ok (.tell (.help c))
  else match c, a.words with
    | .script shell, [] => .ok (.tell (.script shell))
    | .script shell, word :: _ => .error (.unknownWord word (Command.script shell).path)
    | .compile, words =>
      if a.settings.version then .ok (.tell .version)
      else match words with
        | [] => .ok (.tell (.help .compile))
        | [file] => .ok (.compile a.settings file)
        | _ => .error (.tooManyFiles words.length)
    | c, _ => .ok (.tell (.help c))

/-- What arguments ask for. Completion is offered if its word is the second argument. -/
def ofArgs (args : List String) : Except UsageError Invocation := do
  let (c, rest) := Command.select (args.map normalize)
  match c with
  | .complete described =>
    match rest.getLast? with
    | some last =>
      return .tell (.suggestions described (args[1]? = some "completion") rest.dropLast last)
    | none => throw .nothingToComplete
  | _ => ofCommand c (← Arguments.read c.flags {} rest)

end Invocation

end TensorKernel.CommandLine
