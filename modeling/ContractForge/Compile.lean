import ContractForge.Check.Findings
import ContractForge.Listing.Pipeline
import ContractForge.Lowering.Program
import ContractForge.Syntax.Parser.Program

/-!
# Compiling a source

A source is checked, read, lowered, written out and improved; then the generated
code is checked as well.
-/

namespace ContractForge

/-- Why a source cannot be compiled. -/
inductive CompileError where
  /-- The checks on the source found errors. -/
  | invalidSource (findings : List Diagnostic)
  /-- The source cannot be read. -/
  | unreadable (error : ReadError)
  /-- The source has something without a counterpart. -/
  | unsupported (error : LowerError)
  /-- A number in the generated code cannot be read. -/
  | unreadableDigits (error : Text.DigitsError)

def findingLine (finding : Diagnostic) : String :=
  match finding.line.filter (· != 0) with
  | some line => s!"{finding.message} (line {line})"
  | none => finding.message

def CompileError.messages : CompileError → List String
  | invalidSource findings => "Ruby validation failed:" :: findings.map findingLine
  | unreadable error => [error.message]
  | unsupported (.rejected reason place) => [reason.message place]
  | unsupported (.malformed _) => ["Malformed syntax tree"]
  | unreadableDigits error => [error.message]

def CompileError.message (error : CompileError) : String :=
  Text.unlines error.messages

/-- Whether an error is an answer about the source. A numeral that cannot be read and a
malformed tree are not; they end a run. -/
def CompileError.isReported : CompileError → Bool
  | invalidSource _ | unreadable (.invalid _) | unsupported (.rejected _ _) => true
  | _ => false

/-- The generated code of a source, what it was read as, and what was reported. -/
structure Compiled where
  code : String
  tree : Node
  warnings : List String

def compile (configuration : Configuration) (source : String) : Except CompileError Compiled := do
  let errors := Check.errorsAmong (Check.checkSource source)
  if !errors.isEmpty then throw (.invalidSource errors)
  let tree ← (parse source).mapError .unreadable
  let (generated, log) := (generateProgram configuration.version tree).runWith {}
  let written ← generated.mapError .unsupported
  if let some error := Listing.digitsError? configuration written then
    throw (.unreadableDigits error)
  let (code, reports) := Listing.optimize configuration written
  let reported := (log.addAll reports).ofSeverity .warning ++ Check.checkGenerated code
  return { code, tree, warnings := reported.map Diagnostic.text }

end ContractForge
