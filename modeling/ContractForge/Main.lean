import ContractForge.Session

/-!
# The program

The outer layer: the file that a command reads is loaded, the command is run on
a workspace with that file, and what it prints and writes is passed on. Whole
directories are compiled through `ContractForge.run`, on a workspace that holds
them.
-/

namespace ContractForge

open CommandLine

def inputOf : Command → Option String
  | .compile request => some request.input
  | .parse input | .validate input => some input
  | .version | .overview => none

def outputOf : Command → Option Path
  | .compile request => targetOf request
  | _ => none

/-- A workspace with the given file, or an empty one if the file cannot be read. -/
def loaded (input : String) : IO Workspace := do
  let .ok text ← (IO.FS.readFile input).toBaseIO | return {}
  let .ok workspace := Workspace.write {} (Path.ofText input) text | return {}
  return workspace

/-- Write a file, and make the directories above it. -/
def store (target : Path) (text : String) : IO Unit := do
  IO.FS.createDirAll target.parent.text
  IO.FS.writeFile target.text text

/-- Run a command on the files it names. -/
def perform (command : Command) : IO UInt32 := do
  let workspace ← match inputOf command with
    | some input => loaded input
    | none => pure {}
  match run command workspace with
  | .error failure =>
    IO.eprintln failure.message
    return 1
  | .ok (outcome, written) =>
    IO.print outcome.output
    IO.eprint outcome.errors
    if let some target := outputOf command then
      for (_, text) in workspace.changes written do
        store target text
    return outcome.exitCode.toUInt32

end ContractForge

/-- Read the command line and run the command. -/
def main (arguments : List String) : IO UInt32 := do
  match ContractForge.CommandLine.read arguments with
  | .ok command => ContractForge.perform command
  | .error .helpWanted =>
    IO.print ContractForge.CommandLine.overviewText
    return 0
  | .error .misuse =>
    IO.eprint ContractForge.CommandLine.overviewText
    return 2
