import ContractForge.Batch
import ContractForge.CommandLine

/-!
# Running commands

A command is run on a workspace. It prints, writes files and ends with an exit
code, or it ends early with a failure that is no answer.
-/

namespace ContractForge

open CommandLine

/-- What a run printed and how it ended. -/
structure Outcome where
  exitCode : Nat := 0
  output : String := ""
  errors : String := ""
deriving DecidableEq

inductive RunFailure where
  | file (error : FileError)
  | compilation (error : CompileError)
  | batch (error : BatchError)
  | unnamed (path : Path)
  /-- A double dash stands in the place of a value that is needed. -/
  | dashed

def RunFailure.message : RunFailure → String
  | file error => error.message
  | compilation error => error.message
  | batch .noWorkers => "max_workers must be greater than 0"
  | batch (.unplaced path) => s!"{path} has no place in the output directory"
  | unnamed path => s!"{path.text} has an empty name"
  | dashed => "a double dash is no value"

def printed (text : String) : String :=
  text ++ "\n"

/-- A run that ends with an error message. -/
def failing (message : String) : Outcome :=
  { exitCode := 1, errors := printed s!"Error: {message}" }

def requestedConfiguration (request : CompileRequest) : Configuration :=
  let standard : Configuration := {}
  { version := (request.version.value?.filter (· != "")).getD standard.version
    optimizes := !request.skipsOptimization
    packsStorage := !request.skipsPacking
    checksSecurity := !request.skipsSecurity }

/-- The printed results of many files, in the order of their paths. -/
def batchOutcome (results : BatchResults) : Outcome :=
  let sorted := results.mergeSort fun left right => left.1 ≤ right.1
  sorted.foldl (fun (outcome : Outcome) (path, result) =>
    match result with
    | .error failure =>
      { outcome with
        exitCode := 1
        errors := outcome.errors ++ printed s!"Error: {path}: {failure.message}" }
    | .ok compiled =>
      let warnings := compiled.warnings.map fun warning => printed s!"{path}: {warning}"
      { outcome with
        errors := outcome.errors ++ String.join warnings
        output := outcome.output ++ printed s!"Compiled: {path}" }) {}

/-- Compile all sources below a directory. -/
def runDirectory (request : CompileRequest) (workspace : Workspace) (directory : Path) :
    Except RunFailure (Outcome × Workspace) := do
  if request.toStandardOutput then
    return (failing "--stdout needs a single input file", workspace)
  let sources := (workspace.below directory ".rb").map Path.text
  let workers := request.workers.value?
  if request.workers == .dashed then throw .dashed
  (checkWorkers workers).mapError .batch
  if request.output == .dashed && !sources.isEmpty then throw .dashed
  let target := request.output.value?.map Path.ofText
  let (results, written) ← (compileMany (requestedConfiguration request) workspace sources target
    (some directory) workers).mapError .batch
  return (batchOutcome results, written)

/-- A compilation that succeeded: what it prints, and its warnings. -/
def compiledOutcome (output : String) (compiled : Compiled) : Outcome :=
  { output, errors := String.join (compiled.warnings.map printed) }

/-- An error of a compilation: printed if it is about the source, else the end of the run. -/
def refused (workspace : Workspace) (error : CompileError) :
    Except RunFailure (Outcome × Workspace) :=
  if error.isReported then return (failing error.message, workspace)
  else throw (.compilation error)

/-- The file that the compilation of a single file writes. -/
def targetOf (request : CompileRequest) : Option Path :=
  let given := (request.output.value?.filter (· != "")).map Path.ofText
  given.or ((Path.ofText request.input).withSuffix? generatedSuffix)

def runFile (request : CompileRequest) (workspace : Workspace) (source : Path) :
    Except RunFailure (Outcome × Workspace) := do
  let configuration := requestedConfiguration request
  if request.toStandardOutput then
    let text ← (workspace.read source).mapError .file
    match compile configuration text with
    | .ok compiled => return (compiledOutcome compiled.code compiled, workspace)
    | .error error => refused workspace error
  else
    let some target := targetOf request | throw (.unnamed source)
    match compileFile configuration workspace source (some target) with
    | .ok (compiled, written) =>
      return (compiledOutcome (printed s!"Written: {target.text}") compiled, written)
    | .error (.compilation error) => refused workspace error
    | .error (.file error) => throw (.file error)
    | .error (.unnamed path) => throw (.unnamed path)
    | .error (.taken target _) => throw (.unnamed target)

def runCompile (request : CompileRequest) (workspace : Workspace) :
    Except RunFailure (Outcome × Workspace) := do
  let input := Path.ofText request.input
  match ← (workspace.lookup input).mapError .file with
  | some .directory => runDirectory request workspace input
  | some (.file _) => runFile request workspace input
  | none => return (failing s!"{request.input} is not a valid file or directory", workspace)

/-- Print the syntax tree of a file. -/
def runParse (input : String) (workspace : Workspace) : Except RunFailure Outcome := do
  let text ← (workspace.read (Path.ofText input)).mapError .file
  match parse text with
  | .ok tree => return { output := printed (tree.outline 0) }
  | .error (.invalid error) => return failing error.message
  | .error error => throw (.compilation (.unreadable error))

/-- Print what is wrong with a file. -/
def runValidate (input : String) (workspace : Workspace) : Except RunFailure Outcome := do
  let text ← (workspace.read (Path.ofText input)).mapError .file
  let findings := Check.checkSource text
  let lines := if findings.isEmpty then ["No issues found."]
    else findings.map Diagnostic.text
  return { exitCode := if (Check.errorsAmong findings).isEmpty then 0 else 1
           output := String.join (lines.map printed) }

def programVersion : String := "0.1.0"

def run (command : Command) (workspace : Workspace) : Except RunFailure (Outcome × Workspace) :=
  match command with
  | .compile request => runCompile request workspace
  | .parse input => do return (← runParse input workspace, workspace)
  | .validate input => do return (← runValidate input workspace, workspace)
  | .version => return ({ output := printed s!"solidrail {programVersion}" }, workspace)
  | .overview => return ({ exitCode := 1, output := overviewText }, workspace)

end ContractForge
