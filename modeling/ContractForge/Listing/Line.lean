import ContractForge.Table
import ContractForge.Text.Search

/-!
# Lines of generated code

Generated code is improved line by line after it has been written. This module
recognises the lines that matter: declarations of state variables, headers of
contracts and functions, enumerations and the version pragma. Function bodies
are cut into statements by their indentation.
-/

namespace ContractForge.Listing

open Text

/-! ### State variables -/

/-- A line that declares a state variable. -/
structure Declaration where
  name : String
  type : String
  isConstant : Bool
deriving DecidableEq

/-- Whether a declaration can end like this: at once, or after a value. -/
def endsDeclaration (rest : List Char) : Bool :=
  rest == [';'] ||
    (" = ".toList.isPrefixOf rest && rest.getLast? == some ';' && 5 ≤ rest.length)

/-- The name at the end of a declaration, after a blank. -/
def declaredName? : List Char → Option String
  | ' ' :: chars => do
    let (name, rest) ← name? chars
    if endsDeclaration rest then some (String.ofList name) else none
  | _ => none

def afterVisibility? (chars : List Char) : Option (List Char) :=
  ["public", "private", "internal"].findSome? fun word => after? word chars

/-- The part of a declaration after its type: the name, and whether it is a constant. -/
def declarationEnd? : List Char → Option (String × Bool)
  | ' ' :: chars => do
    let rest ← afterVisibility? chars
    match (after? " constant" rest).bind declaredName? with
    | some name => return (name, true)
    | none => return (← declaredName? rest, false)
  | _ => none

/-- Find the end of the type, given its characters so far, last first. The shortest type that
leaves a declaration is taken. -/
def declarationFrom? (type : List Char) : List Char → Option Declaration
  | [] => none
  | c :: rest =>
    match declarationEnd? (c :: rest) with
    | some (name, isConstant) => some ⟨name, String.ofList type.reverse, isConstant⟩
    | none => declarationFrom? (c :: type) rest

/-- Beginnings of lines that look like declarations but are not. -/
def otherStarts : List String :=
  ["function ", "event ", "return"]

/-- The state variable that a line declares. -/
def declaration? (line : String) : Option Declaration := do
  let chars := line.toList
  if !chars.head?.any isBlankChar then none
  match chars.dropWhile isBlankChar with
  | [] => none
  | c :: rest =>
    if isSpace c then none
    let found ← declarationFrom? [c] rest
    if otherStarts.any fun start => startsWith found.type start then none else some found

/-- The type of each declared state variable. A name that is declared twice has its last
type. -/
def stateVariables (lines : List String) : Table String :=
  (lines.filterMap declaration?).foldl (fun (types : Table String) found =>
    types.put found.name found.type) []

/-- The state variables whose type passes a test. -/
def variablesWith (test : String → Bool) (lines : List String) : List String :=
  (stateVariables lines).filterMap fun (name, type) => if test type then some name else none

/-! ### Headers -/

def isContractHeader (line : String) : Bool :=
  let chars := line.toList
  match after? "contract " ((after? "abstract " chars).getD chars) with
  | none => false
  | some rest => (word? rest).any fun (_, rest) => rest.getLast? == some '{'

structure FunctionHeader where
  indent : String
  name : String
deriving DecidableEq

/-- The name in a function header and what follows it. -/
def functionName? (chars : List Char) : Option (String × List Char) :=
  match after? "function " chars with
  | some rest => (word? rest).map fun (name, rest) => (String.ofList name, rest)
  | none => (after? "constructor" chars).map fun rest => ("constructor", rest)

def functionHeader? (line : String) : Option FunctionHeader := do
  let chars := line.toList
  let (name, rest) ← functionName? (chars.dropWhile isBlankChar)
  match rest with
  | '(' :: rest =>
    if rest.getLast? == some '{' then
      some ⟨String.ofList (chars.takeWhile isBlankChar), name⟩
    else none
  | _ => none

def enumeration? (line : String) : Option String := do
  let rest ← after? "enum " (line.toList.dropWhile isBlankChar)
  let (name, rest) ← word? rest
  if " \x7b".toList.isPrefixOf rest then some (String.ofList name) else none

/-- The version constraint of a pragma line, which may have white space around it. -/
def pragmaConstraint? (line : String) : Option (List Char) := do
  let rest ← after? "pragma solidity " (trimmed line.toList)
  match rest.reverse with
  | ';' :: constraint =>
    if constraint.isEmpty || constraint.contains ';' then none else some constraint.reverse
  | _ => none

/-! ### Functions and statements -/

/-- A function of a listing: its name and the places of its header and its closing brace. -/
structure FunctionSpan where
  name : String
  header : Nat
  closing : Nat
deriving DecidableEq

/-- The functions of a listing from the given place on. A function without a closing brace goes
to the end. -/
def functionSpansFrom (place : Nat) : List String → List FunctionSpan
  | [] => []
  | line :: rest =>
    let others := functionSpansFrom (place + 1) rest
    match functionHeader? line with
    | none => others
    | some header =>
      let closing := header.indent ++ "\x7d"
      let length := (rest.takeWhile (· != closing)).length
      ⟨header.name, place, place + 1 + length⟩ :: others

def functionSpans (lines : List String) : List FunctionSpan :=
  functionSpansFrom 0 lines

/-- Whether a statement starts at a line: it is indented like the body and no deeper. -/
def startsStatement (indent line : String) : Bool :=
  match after? indent line.toList with
  | none => false
  | some [] => true
  | some (c :: _) => !(isBlankChar c || c == '}')

/-- The lines before the first statement, and the statements. -/
def statementParts (indent : String) : List String → List String × List (List String)
  | [] => ([], [])
  | line :: rest =>
    let (leading, groups) := statementParts indent rest
    if startsStatement indent line then ([], (line :: leading) :: groups)
    else (line :: leading, groups)

/-- The lines of a function body, statement by statement. The first line always starts one. -/
def statementGroups (indent : String) : List String → List (List String)
  | [] => []
  | line :: rest =>
    let (leading, groups) := statementParts indent rest
    (line :: leading) :: groups

end ContractForge.Listing
