import ContractForge.Check.Scrub
import ContractForge.Diagnostic
import ContractForge.Text.Search

/-!
# Checks on source and output

A source must define a class with a constructor and must not evaluate code or
start programs. Generated code must name its compiler versions and define a
contract; some globals in it are reported as risky.
-/

namespace ContractForge.Check

open Text

def finding (severity : Severity) (code message construct : String) (line : Option Nat) :
    Diagnostic :=
  { severity, code, message, construct, line := line.map Int.ofNat }

/-! ### Sources -/

/-- Whether a class definition stands at the beginning of a line. -/
def definesClass (rest : List Char) : Bool :=
  let name := (after? "class" (rest.dropWhile isSpace)).bind afterSpaces?
  name.any fun name => name.head?.any Char.isUpper

/-- Whether the definition of a constructor stands here. -/
def definesConstructor (previous : Option Char) (rest : List Char) : Bool :=
  startsWord previous &&
    (((after? "def" rest).bind afterSpaces?).bind (after? "initialize")).any endsWord

/-- Methods that evaluate code. -/
def evaluators : List String :=
  ["eval", "instance_eval", "class_eval", "module_eval", "instance_exec", "class_exec"]

/-- Methods that start programs. -/
def launchers : List String :=
  ["system", "exec", "spawn", "fork"]

/-- Qualified names that start programs. -/
def qualifiedLaunchers : List String :=
  ["IO.popen", "Open3", "Process.spawn"] ++ launchers.map fun name => s!"Kernel.{name}"

/-- The evaluating method that is named here. -/
def evaluatorHere? (previous : Option Char) (rest : List Char) : Option String :=
  evaluators.find? fun name => wordHere name previous rest

/-- Whether a name without receiver can start here. -/
def startsBare (previous : Option Char) : Bool :=
  !previous.any fun c => c == '.' || c == '@' || isWordChar c

/-- Whether a command in percent notation starts here. -/
def isPercentCommand (rest : List Char) : Bool :=
  ((after? "%x" rest).bind List.head?).any "(\x7b[<|!/".toList.contains

/-- The way of starting a program that stands here. -/
def launcherHere? (previous : Option Char) (rest : List Char) : Option String :=
  let qualified := qualifiedLaunchers.find? fun name => wordHere name previous rest
  let bare := launchers.find? fun name =>
    startsBare previous && (after? name rest).any endsWord
  let quoted := if rest.head? == some '\x60' then some "\x60" else none
  let percent := if isPercentCommand rest then some (String.ofList (rest.take 3)) else none
  qualified.or (bare.or (quoted.or percent))

def checkSource (source : String) : List Diagnostic :=
  let code := scrub source.toList
  let missingClass := if atSomeLine definesClass code then []
    else [finding .error "E001" "No contract class found" "class" none]
  let missingConstructor := if anywhere definesConstructor none code then []
    else [finding .error "E002" "Contract should have an initialize method" "initialize" none]
  let evaluations := (findAll evaluatorHere? code).map fun (name, line) =>
    finding .error "E003" s!"Use of {name} is not allowed in smart contracts" "eval" line
  let launches := (findAll launcherHere? code).map fun (_, line) =>
    finding .error "E004" "System calls are not allowed in smart contracts" "system" line
  missingClass ++ missingConstructor ++ evaluations ++ launches

/-! ### Generated code -/

/-- Whether a version pragma stands at the beginning of a line. -/
def isPragma (rest : List Char) : Bool :=
  let version := (after? "pragma" (rest.dropWhile isSpace)).bind afterSpaces?
  (version.bind (after? "solidity")).any endsWord

/-- Whether a contract definition stands at the beginning of a line. -/
def definesContract (rest : List Char) : Bool :=
  let start := rest.dropWhile isSpace
  let plain := ((after? "abstract" start).bind afterSpaces?).getD start
  let name := (after? "contract" plain).bind afterSpaces?
  name.any fun name => name.head?.any isWordChar

/-- The line where a name first stands as a word of its own. -/
def firstLine? (name : String) (code : List Char) : Option Nat :=
  let here := fun previous rest => if wordHere name previous rest then some name else none
  (findAll here code).head?.map Prod.snd

/-- What is wrong or risky about generated code. -/
def checkGenerated (code : String) : List Diagnostic :=
  let chars := code.toList
  let missingPragma := if atSomeLine isPragma chars then []
    else [finding .error "E101" "Missing pragma solidity directive" "pragma" none]
  let missingContract := if atSomeLine definesContract chars then []
    else [finding .error "E102" "No contract definition found" "contract" none]
  let origin := (firstLine? "tx.origin" chars).toList.map fun line =>
    finding .warning "W101" "Use of tx.origin may be unsafe" "tx.origin" (some line)
  let timestamp := (firstLine? "block.timestamp" chars).toList.map fun line =>
    finding .warning "W102" "Use of block.timestamp for randomness is unsafe" "block.timestamp"
      (some line)
  missingPragma ++ missingContract ++ origin ++ timestamp

/-! ### Errors among findings -/

def errorsAmong (findings : List Diagnostic) : List Diagnostic :=
  findings.filter fun finding => finding.severity == .error

/-- The texts of the errors among findings, one for each line; nothing if there is none. -/
def failure? (findings : List Diagnostic) : Option String :=
  match errorsAmong findings with
  | [] => none
  | errors => some (unlines (errors.map Diagnostic.text))

end ContractForge.Check
