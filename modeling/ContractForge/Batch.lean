import ContractForge.Compile
import ContractForge.Workspace

/-!
# Compiling files

A source file is compiled into a file with the generated suffix, beside it or in
an output directory. Many files are compiled each on its own: a failure of one
is its result. A file whose output is taken by an earlier one is not compiled.
-/

namespace ContractForge

/-- Why a file has no compiled code. -/
inductive FileFailure where
  | compilation (error : CompileError)
  | file (error : FileError)
  /-- The path has no name that could get another suffix. -/
  | unnamed (path : Path)
  /-- The output is that of an earlier file. -/
  | taken (target : Path) (earlier : String)

def FileFailure.message : FileFailure → String
  | compilation error => error.message
  | file error => error.message
  | unnamed path => s!"{path.text} has an empty name"
  | taken target earlier => s!"Output {target.text} is already written by {earlier}"

def compileFile (configuration : Configuration) (workspace : Workspace) (source : Path)
    (target : Option Path) : Except FileFailure (Compiled × Workspace) := do
  let some target := target.or (source.withSuffix? generatedSuffix) | throw (.unnamed source)
  let text ← (workspace.read source).mapError .file
  let compiled ← (compile configuration text).mapError .compilation
  let written ← (workspace.write target compiled.code).mapError .file
  return (compiled, written)

/-- The results of compiling many files, by the paths they were given with. -/
abbrev BatchResults := Table (Except FileFailure Compiled)

/-- Why many files cannot be compiled at all. -/
inductive BatchError where
  /-- The number of workers is not positive. -/
  | noWorkers
  /-- A path has no place in the output directory. -/
  | unplaced (path : String)
deriving DecidableEq

/-- Files to compile, each with its output, and the failures of those whose output is taken. -/
structure BatchPlan where
  jobs : List (String × Option Path) := []
  claimed : List (Path × String) := []
  failures : BatchResults := []

def BatchPlan.add (outputDirectory root : Option Path) (plan : BatchPlan) (path : String) :
    Except BatchError BatchPlan :=
  match outputDirectory with
  | none => return { plan with jobs := plan.jobs ++ [(path, none)] }
  | some directory =>
    match outputName? (Path.ofText path) root with
    | none => throw (.unplaced path)
    | some name =>
      let target := name.below directory
      match plan.claimed.lookup target with
      | some earlier =>
        let failure := .error (.taken target earlier)
        return { plan with failures := plan.failures.put path failure }
      | none => return { plan with
          jobs := plan.jobs ++ [(path, some target)]
          claimed := plan.claimed ++ [(target, path)] }

def runJobs (configuration : Configuration) (results : BatchResults) (workspace : Workspace) :
    List (String × Option Path) → BatchResults × Workspace
  | [] => (results, workspace)
  | (path, target) :: rest =>
    match compileFile configuration workspace (Path.ofText path) target with
    | .ok (compiled, written) =>
      runJobs configuration (results.put path (.ok compiled)) written rest
    | .error failure =>
      runJobs configuration (results.put path (.error failure)) workspace rest

/-- A number of workers must be positive. -/
def checkWorkers (workers : Option Int) : Except BatchError Unit :=
  if workers.any (· ≤ 0) then throw .noWorkers else return ()

/-- Compile many files. The number of workers has no influence on the results. -/
def compileMany (configuration : Configuration) (workspace : Workspace) (paths : List String)
    (outputDirectory root : Option Path) (workers : Option Int) :
    Except BatchError (BatchResults × Workspace) := do
  checkWorkers workers
  let plan ← paths.foldlM (BatchPlan.add outputDirectory root) {}
  return runJobs configuration plan.failures workspace plan.jobs

end ContractForge
