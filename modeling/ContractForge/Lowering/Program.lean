import ContractForge.Lowering.Contract
import ContractForge.Path

/-!
# Lowering programs

Every class and module at the top of a program becomes a contract. Requires of
other files become imports of the files generated from them.
-/

namespace ContractForge

open Lower

/-- The import of a required file. A relative require names a file beside this one. -/
def importLine (keyword path : String) : String :=
  let read := Path.ofText path
  let plain := if read.suffix == ".rb" then
      ((read.withSuffix? "").map Path.text).getD path
    else path
  let file := if Text.endsWith plain ".sol" then plain else plain ++ ".sol"
  let isPlaced := ["./", "../", "/"].any fun start => Text.startsWith file start
  let placed := if keyword == "require_relative" && !isPlaced then "./" ++ file else file
  s!"import \"{placed}\";"

def collectImports (program : Node) : Except Malformed (List String) := do
  let lines ← (program.findNodes .importFile).mapM fun node => do
    return importLine node.payload.spliced (← (← node.childAt 0).payload.spelled)
  return lines.eraseDups

/-- Lower the classes and modules of a program in order. -/
def lowerProgram : List Node → Lower (List Contract)
  | [] => return []
  | node :: rest => do
    if node.kind == .classDef || node.kind == .moduleDef then
      let contract ← lowerClass node
      return contract :: (← lowerProgram rest)
    if node.kind != .importFile then
      report (.statementSkipped node.kind.name
        "only classes, modules and requires are allowed at top level" node.line)
    lowerProgram rest

/-- Write the file for a program, for the given compiler versions. -/
def writeProgram (version : String) (program : Node) : Lower String := do
  let contracts ← lowerProgram program.children
  let imports ← part (collectImports program)
  return renderFile version imports contracts

/-- Generate the file for a program, if all of it can be written. -/
def generateProgram (version : String) (program : Node) : Lower String := do
  let text ← writeProgram version program
  requireWritable
  return text

/-- Run a step of lowering with nothing known but a log. -/
def Lower.runWith {α : Type} (log : DiagnosticLog) (step : Lower α) :
    Except LowerError α × DiagnosticLog :=
  let (result, context) := (ExceptT.run step).run { log }
  (result, context.log)

end ContractForge
