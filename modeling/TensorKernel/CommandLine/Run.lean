import TensorKernel.CommandLine.Files
import TensorKernel.CommandLine.Help
import TensorKernel.CommandLine.Invocation
import TensorKernel.Kernel.Report
import TensorKernel.Machine.Description
import TensorKernel.Register.MapFile
import TensorKernel.Subgraph.Build
import TensorKernel.Subgraph.Document

/-!
# The command

The command compiles a subgraph file for a machine and prints what the dump switches ask for. With a
register map file it also writes the register map. Without dump switches it prints a summary.
-/

namespace TensorKernel.CommandLine

/-- Why the command failed. -/
inductive Failure where
  | usage (cause : UsageError)
  | machineFile (file : String) (cause : FileError)
  | machine (cause : MachineTable.ParseError)
  | unknownIsa (text : String)
  | negativeCaps
  | subgraphFile (file : String) (cause : FileError)
  | subgraph (file : String) (cause : Subgraph.ParseError)
  | build (file : String) (cause : BuildError)
  | compile (file : String) (cause : CompileError)
  | mapFile (file : String) (cause : FileError)
deriving DecidableEq, Repr

namespace Failure

/-- The wording of a failure. -/
def message : Failure → String
  | usage cause => cause.message
  | machineFile file cause =>
    "failed to read machine file " ++ Text.quoted file ++ ": " ++ cause.message
  | machine cause => cause.message
  | unknownIsa text => Isa.unknownMessage text
  | negativeCaps => "register pool caps must not be negative"
  | subgraphFile file cause =>
    "failed to read subgraph " ++ Text.quoted file ++ ": " ++ cause.message
  | subgraph file cause => "in " ++ Text.quoted file ++ ": " ++ cause.message
  | build _ cause => cause.message
  | compile _ cause => cause.message
  | mapFile file cause =>
    "failed to write register map " ++ Text.quoted file ++ ": " ++ cause.message

/-- What is said on the error stream; nothing for wrong arguments. -/
def errorLines (f : Failure) : List String :=
  match f with
  | usage _ => []
  | build file cause => ["ralph-jit: " ++ file ++ ": " ++ cause.message]
  | compile file cause =>
    match cause.cause with
    | .refused (.shortage _) =>
      ["ralph-jit: " ++ file ++ ": subgraph does not fit in the registers of " ++ cause.machine ++
        ": " ++ cause.message]
    | _ => ["ralph-jit: " ++ file ++ ": " ++ cause.message]
  | _ => ["ralph-jit: " ++ f.message]

end Failure

/-- What the command leaves behind. -/
structure Result where
  /-- The lines on the output stream. -/
  out : List String := []
  /-- The lines on the error stream. -/
  err : List String := []
  /-- The failure, if it failed. -/
  failure : Option Failure := none
deriving DecidableEq, Repr, Inhabited

/-- The result of a failure behind some output. -/
def Result.failed (f : Failure) (out : List String := []) : Result :=
  { out, err := f.errorLines, failure := some f }

/-- What the program tells about a topic. It carries no scripts for shells. -/
def Topic.result : Topic → Result
  | help command => { out := command.helpLines }
  | version => { out := [versionLine] }
  | script _ => {}
  | suggestions described offered args last =>
    let s := Command.suggestAny offered args last
    { out := s.lines described, err := ["Completion ended with directive: " ++ s.advice.name] }

/-- A way of reading files by name. -/
abbrev Reader := String → Except FileError String

namespace Settings

/-- The machine before its pools are capped; a description file wins over a vector extension. -/
def baseMachine (s : Settings) (read : Reader) : Except Failure Machine :=
  if s.machineFile ≠ "" then
    match read s.machineFile with
    | .error cause => .error (.machineFile s.machineFile cause)
    | .ok text =>
      match MachineTable.parse text with
      | .ok table => .ok (.table table)
      | .error cause => .error (.machine cause)
  else match Isa.ofName? s.isa with
    | some isa => .ok (.x64 isa)
    | none => .error (.unknownIsa s.isa)

/-- The machine that the settings select. -/
def machine (s : Settings) (read : Reader) : Except Failure Machine := do
  let m ← s.baseMachine read
  if s.gprCap < 0 ∨ s.vecCap < 0 then throw .negativeCaps
  return if s.gprCap > 0 ∨ s.vecCap > 0 then m.limit s.gprCap s.vecCap else m

/-- The subgraph in a file. -/
def subgraph (read : Reader) (file : String) : Except Failure Subgraph := do
  let text ← (read file).mapError (.subgraphFile file)
  (Subgraph.parse text).mapError (.subgraph file)

/-- Compile a file. -/
def compile (s : Settings) (read : Reader) (file : String) : Except Failure Kernel := do
  let m ← s.machine read
  let sg ← subgraph read file
  let p ← sg.build.mapError (.build file)
  match Kernel.compile m ⟨s.noIterations, s.noSpills⟩ p with
  | .ok kernel _ => return kernel
  | .error cause _ => throw (.compile file cause)

/-- What is dumped. -/
def dump (s : Settings) (k : Kernel) : List String :=
  (if s.listing then k.listing else []) ++
  (if s.loops then k.program.loopLines else []) ++
  (if s.ranges then k.rangeLines else []) ++
  (if s.registers then k.registerLines else []) ++
  (if s.spills then k.saveLines else [])

/-- Whether anything is dumped. -/
def dumps (s : Settings) : Bool := s.listing || s.loops || s.ranges || s.registers || s.spills

/-- The summary of a compiled kernel. -/
def summary (k : Kernel) : String :=
  s!"ralph-jit: compiled {k.program.name} for {k.machine.name}: {k.program.length} expressions, " ++
    s!"{k.program.loops.size} loops"

/-- The text of the register map file. -/
def mapText (k : Kernel) : String :=
  String.join (k.allocation.regMap.lines.map (· ++ "\n"))

/-- The result for a compiled kernel, given how writing its register map went. -/
def report (s : Settings) (k : Kernel) (written : Except FileError Unit) : Result :=
  match written with
  | .error cause => .failed (.mapFile s.mapFile cause) (s.dump k)
  | .ok () => { out := s.dump k, err := if s.dumps then [] else [summary k] }

end Settings

/-- Run the command in a directory, and give the directory afterwards. -/
def run (files : Files) (args : List String) : Result × Files :=
  match Invocation.ofArgs args with
  | .error cause => (.failed (.usage cause), files)
  | .ok (.tell topic) => (topic.result, files)
  | .ok (.compile s file) =>
    match s.compile files.read file with
    | .error f => (.failed f, files)
    | .ok k =>
      if s.mapFile = "" then (s.report k (.ok ()), files)
      else match files.write s.mapFile (Settings.mapText k) with
        | .ok files => (s.report k (.ok ()), files)
        | .error cause => (s.report k (.error cause), files)

end TensorKernel.CommandLine
