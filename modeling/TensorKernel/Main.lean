import TensorKernel.CommandLine.Run

/-!
# The program

The outer layer of the command: it reads and writes files and prints the result.
-/

namespace TensorKernel.CommandLine

/-- Read a file. -/
def readInput (path : String) : IO (Except FileError String) := do
  try
    return .ok (← IO.FS.readFile path)
  catch
    | .noFileOrDirectory .. => return .error (.opening path .missing)
    | e => return .error (.other (toString e))

/-- Write a file. -/
def writeOutput (path text : String) : IO (Except FileError Unit) := do
  try
    IO.FS.writeFile path text
    return .ok ()
  catch
    | .noFileOrDirectory .. => return .error (.opening path .missing)
    | e => return .error (.other (toString e))

/-- The result of a compilation. Both files that it may need are read beforehand. -/
def compileFile (s : Settings) (file : String) : IO Result := do
  let description ← readInput s.machineFile
  let subgraph ← readInput file
  let read : Reader := fun name => if name = file then subgraph else description
  match s.compile read file with
  | .error f => return .failed f
  | .ok k =>
    if s.mapFile = "" then return s.report k (.ok ())
    else return s.report k (← writeOutput s.mapFile (Settings.mapText k))

/-- The result of the command. -/
def result (args : List String) : IO Result := do
  match Invocation.ofArgs args with
  | .error cause => return .failed (.usage cause)
  | .ok (.tell topic) => return topic.result
  | .ok (.compile s file) => compileFile s file

end TensorKernel.CommandLine

/-- Run the command and exit with 1 if it failed. -/
def main (args : List String) : IO UInt32 := do
  let r ← TensorKernel.CommandLine.result args
  r.out.forM IO.println
  r.err.forM IO.eprintln
  return if r.failure.isSome then 1 else 0
