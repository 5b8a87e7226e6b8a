/-!
# Diagnostics

What is reported beside the generated code: constructs that were skipped or
weakened, statements that were or were not reordered, and the findings of the
checks on source and output.
-/

namespace ContractForge

inductive Severity where
  | error | warning | info
deriving DecidableEq, Repr

def Severity.name : Severity → String
  | error => "error"
  | warning => "warning"
  | info => "info"

structure Diagnostic where
  severity : Severity
  code : String
  message : String
  file : String := ""
  line : Option Int := none
  construct : String := ""
deriving DecidableEq

namespace Diagnostic

/-- Where the diagnostic points to. A line number of zero counts as none. -/
def location (diagnostic : Diagnostic) : String :=
  match diagnostic.line.filter (· != 0) with
  | some line =>
    if diagnostic.file == "" then s!"line {line}" else s!"{diagnostic.file}:{line}"
  | none => diagnostic.file

def text (diagnostic : Diagnostic) : String :=
  let severity := diagnostic.severity.name
  let location := diagnostic.location
  if location == "" then s!"[{severity}] {diagnostic.message} ({diagnostic.code})"
  else s!"[{severity}] {location}: {diagnostic.message} ({diagnostic.code})"

def detailSuffix (detail : String) : String :=
  if detail == "" then "" else s!" ({detail})"

/-- A field is read but never assigned. -/
def undeclaredField (field defaultType : String) (line : Option Int) : Diagnostic :=
  { severity := .warning, code := "W001"
    message := s!"Instance variable \"@{field}\" is never assigned; declared as {defaultType}."
    line, construct := "state variable" }

/-- A statement without a counterpart was dropped. -/
def statementSkipped (construct detail : String) (line : Option Int) : Diagnostic :=
  { severity := .warning, code := "W002"
    message := s!"{construct} was skipped{detailSuffix detail}", line, construct }

/-- State is changed after an external call, and the order was left as it is. -/
def reentrancy (function detail : String) : Diagnostic :=
  { severity := .warning, code := "W003"
    message := s!"Function \"{function}\" mutates state after an external call " ++
      s!"and could not be reordered: {detail}"
    construct := "reentrancy" }

/-- A construct is supported in part or not at all. -/
def unsupported (construct detail : String) (line : Option Int) : Diagnostic :=
  { severity := .warning, code := "W099"
    message := s!"Unsupported construct: {construct}{detailSuffix detail}", line, construct }

/-- External calls were moved behind changes of state. -/
def reordered (function : String) : Diagnostic :=
  { severity := .info, code := "I001"
    message := s!"Moved state updates before external calls in \"{function}\""
    construct := "reentrancy" }

/-- Arithmetic was turned into checked calls. -/
def checkedArithmetic : Diagnostic :=
  { severity := .info, code := "I002"
    message := "State arithmetic rewritten to SafeMath for pre-0.8 compilers"
    construct := "arithmetic" }

end Diagnostic

/-! ### Logs -/

/-- A log of diagnostics, oldest first. Diagnostics without a file get that of the log. -/
structure DiagnosticLog where
  entries : List Diagnostic := []
  verbose : Bool := false
  file : String := ""

namespace DiagnosticLog

def add (log : DiagnosticLog) (diagnostic : Diagnostic) : DiagnosticLog :=
  let placed := if diagnostic.file == "" then { diagnostic with file := log.file } else diagnostic
  { log with entries := log.entries ++ [placed] }

def addAll (log : DiagnosticLog) (diagnostics : List Diagnostic) : DiagnosticLog :=
  diagnostics.foldl add log

/-- Forget all entries. -/
def clear (log : DiagnosticLog) : DiagnosticLog :=
  { log with entries := [] }

def ofSeverity (log : DiagnosticLog) (severity : Severity) : List Diagnostic :=
  log.entries.filter fun diagnostic => diagnostic.severity == severity

/-- A titled section of a report; no entries, no section. -/
def titledSection (title : String) (diagnostics : List Diagnostic) : String :=
  if diagnostics.isEmpty then ""
  else
    let heading := s!"\nsolidrail {title} ({diagnostics.length}):\n"
    heading ++ String.join (diagnostics.map fun diagnostic => s!"  {diagnostic.text}\n")

/-- The printed report: errors, warnings, and notes if the log is verbose. -/
def report (log : DiagnosticLog) : String :=
  let notes := if log.verbose then titledSection "notes" (log.ofSeverity .info) else ""
  titledSection "errors" (log.ofSeverity .error) ++
    titledSection "warnings" (log.ofSeverity .warning) ++ notes

/-- How often each construct occurs. -/
def countByConstruct (diagnostics : List Diagnostic) : List (String × Nat) :=
  let constructs := diagnostics.map fun diagnostic =>
    if diagnostic.construct == "" then "other" else diagnostic.construct
  constructs.eraseDups.map fun construct => (construct, constructs.count construct)

/-- One line that counts errors and warnings by construct, in alphabetical order. -/
def summary (log : DiagnosticLog) : String :=
  let counts := countByConstruct (log.ofSeverity .error ++ log.ofSeverity .warning)
  if counts.isEmpty then "No transpiler warnings."
  else
    let sorted := counts.mergeSort fun left right => left.1 ≤ right.1
    let phrases := sorted.map fun (construct, count) => s!"{count} {construct}"
    "Transpiler warnings: " ++ ", ".intercalate phrases

end DiagnosticLog

end ContractForge
