import TensorKernel.CommandLine.Command

/-!
# Help

What the program says about its commands: what a command does, how it is written, and its flags.
-/

namespace TensorKernel.CommandLine

/-- The version of the program. -/
def versionLine : String := "ralph-jit version 0.1.0"

/-- How to set up completion in a shell. -/
def Shell.instructions (s : Shell) : List String :=
  let script := "ralph-jit completion " ++ s.name
  match s with
  | bash => [
    "Generate the autocompletion script for the bash shell.",
    "",
    "This script depends on the 'bash-completion' package.",
    "If it is not installed already, you can install it via your OS's package manager.",
    "",
    "To load completions in your current shell session:",
    "",
    "\tsource <(" ++ script ++ ")",
    "",
    "To load completions for every new session, execute once:",
    "",
    "#### Linux:",
    "",
    "\t" ++ script ++ " > /etc/bash_completion.d/ralph-jit",
    "",
    "#### macOS:",
    "",
    "\t" ++ script ++ " > $(brew --prefix)/etc/bash_completion.d/ralph-jit",
    "",
    "You will need to start a new shell for this setup to take effect."]
  | fish => [
    "Generate the autocompletion script for the fish shell.",
    "",
    "To load completions in your current shell session:",
    "",
    "\t" ++ script ++ " | source",
    "",
    "To load completions for every new session, execute once:",
    "",
    "\t" ++ script ++ " > ~/.config/fish/completions/ralph-jit.fish",
    "",
    "You will need to start a new shell for this setup to take effect."]
  | powershell => [
    "Generate the autocompletion script for powershell.",
    "",
    "To load completions in your current shell session:",
    "",
    "\t" ++ script ++ " | Out-String | Invoke-Expression",
    "",
    "To load completions for every new session, add the output of the above command",
    "to your powershell profile."]
  | zsh => [
    "Generate the autocompletion script for the zsh shell.",
    "",
    "If shell completion is not already enabled in your environment you will need",
    "to enable it.  You can execute the following once:",
    "",
    "\techo \"autoload -U compinit; compinit\" >> ~/.zshrc",
    "",
    "To load completions in your current shell session:",
    "",
    "\tsource <(" ++ script ++ ")",
    "",
    "To load completions for every new session, execute once:",
    "",
    "#### Linux:",
    "",
    "\t" ++ script ++ " > \"$\x7bfpath[1]\x7d/_ralph-jit\"",
    "",
    "#### macOS:",
    "",
    "\t" ++ script ++ " > $(brew --prefix)/share/zsh/site-functions/_ralph-jit",
    "",
    "You will need to start a new shell for this setup to take effect."]

namespace Command

/-- What a command does. -/
def description : Command → List String
  | compile => [
    "ralph-jit lowers a subgraph description to a Linear IR, splits its",
    "loops into first, main and tail iterations, computes live ranges and",
    "assigns physical registers. The dump flags print each stage."]
  | completion => [
    "Generate the autocompletion script for ralph-jit for the specified shell.",
    "See each sub-command's help for details on how to use the generated script."]
  | script shell => shell.instructions
  | complete _ => []

/-- How a command is written. -/
def usage : Command → String
  | compile => compile.path ++ " [subgraph.yaml] [flags]"
  | completion => completion.path ++ " [command]"
  | script .bash => (script .bash).path
  | script shell => (script shell).path ++ " [flags]"
  | complete described => (complete described).path

/-- A name with what it means, in two columns. -/
def row (name meaning : String) : String :=
  "  " ++ name ++ "".pushn ' ' (12 - name.length) ++ meaning

/-- The lines of help on the commands that a command has below it. -/
def shellLines : Command → List String
  | completion =>
    ["", "Available Commands:"] ++ Shell.all.map fun s => row s.name s.purpose
  | _ => []

/-- The lines of help on a command. -/
def helpLines (c : Command) : List String :=
  c.description ++ ["", "Usage:", "  " ++ c.usage] ++ c.shellLines ++ ["", "Flags:"] ++
    Flag.helpLines c.flags ++
    match c with
    | completion =>
      ["", "Use \"" ++ c.usage ++ " --help\" for more information about a command."]
    | _ => []

end Command

end TensorKernel.CommandLine
