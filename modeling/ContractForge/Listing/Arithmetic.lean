import ContractForge.Diagnostic
import ContractForge.Listing.Line
import ContractForge.Text.Digits

/-!
# Checked arithmetic

From version 0.8 on, compilers check arithmetic for overflow. For older ones,
compound assignments to unsigned state variables become calls of a library that
checks, and the library is imported and attached to the contracts that need it.
-/

namespace ContractForge.Listing

open Text

/-! ### Versions -/

/-- The digits of the first version number of a constraint: two numbers with a dot between
them. -/
def firstVersion? : List Char → Option (List Char × List Char)
  | [] => none
  | c :: rest =>
    let major := (c :: rest).takeWhile isDigit
    match (c :: rest).dropWhile isDigit with
    | '.' :: after =>
      let minor := after.takeWhile isDigit
      if major.isEmpty || minor.isEmpty then firstVersion? rest else some (major, minor)
    | _ => firstVersion? rest

/-- The digits of the version that the first pragma with a version names. -/
def versionDigits? (lines : List String) : Option (List Char × List Char) :=
  lines.findSome? fun line => (pragmaConstraint? line).bind firstVersion?

/-- The version that the first pragma with a version names. -/
def minimumVersion? (lines : List String) : Option (Nat × Nat) :=
  (versionDigits? lines).map fun (major, minor) => (digitsValue major, digitsValue minor)

/-- The number of digits in a version number that is too long to be read. -/
def excessVersion? (lines : List String) : Option Nat :=
  (versionDigits? lines).bind fun (major, minor) =>
    ([major, minor].find? isTooLong).map List.length

/-- Whether the compiler checks arithmetic. Without a version it is taken to. -/
def checksArithmetic (lines : List String) : Bool :=
  match minimumVersion? lines with
  | none => true
  | some (major, minor) => 0 < major || 8 ≤ minor

/-! ### Unsigned variables -/

/-- Whether only the end of an unsigned type is left: digits, closing parentheses and pairs of
brackets. -/
def endsUnsigned (rest : List Char) : Bool :=
  let brackets := (rest.dropWhile isDigit).dropWhile (· == ')')
  pairsOnly brackets
where
  /-- Nothing but pairs of brackets. -/
  pairsOnly : List Char → Bool
    | [] => true
    | '[' :: ']' :: rest => pairsOnly rest
    | _ => false

/-- Whether the values of a type, those of entries included, are unsigned integers. -/
def holdsUnsigned (type : String) : Bool :=
  anywhere (fun previous chars =>
    startsWord previous && (after? "uint" chars).any endsUnsigned) none type.toList

/-! ### Statements -/

/-- The places after closing brackets before the first semicolon, the last one first, each with
the text up to it; the text read so far comes last first. -/
def bracketEnds (before : List Char) : List Char → List (List Char × List Char)
  | [] => []
  | ';' :: _ => []
  | c :: rest =>
    let ends := bracketEnds (c :: before) rest
    if c == ']' then ends ++ [((c :: before).reverse, rest)] else ends

/-- The ways to read indices after a name, the longest first, and none at all last. -/
def indexSplits (chars : List Char) : List (List Char × List Char) :=
  match chars with
  | '[' :: rest => bracketEnds ['['] rest ++ [([], chars)]
  | _ => [([], chars)]

def checkedFunction? : Char → Option String
  | '+' => some "add"
  | '-' => some "sub"
  | '*' => some "mul"
  | '/' => some "div"
  | '%' => some "mod"
  | _ => none

/-- The library function and the value of a compound assignment, given what follows the
target. -/
def compoundEnd? (rest : List Char) : Option (String × List Char) :=
  match rest with
  | ' ' :: operator :: '=' :: ' ' :: value =>
    match checkedFunction? operator, value.reverse with
    | some function, ';' :: c :: reversed => some (function, (c :: reversed).reverse)
    | _, _ => none
  | _ => none

/-- The library function and the value of a step up or down, given what follows the target. -/
def stepEnd? (rest : List Char) : Option (String × List Char) :=
  if rest == "++;".toList then some ("add", ['1'])
  else if rest == "--;".toList then some ("sub", ['1'])
  else none

/-- A statement that changes a variable: its target, the library function and the value. -/
structure Update where
  indent : String
  root : String
  target : String
  function : String
  value : String
deriving DecidableEq

/-- Read an indented statement that changes a variable, given how it may end. -/
def update? (end? : List Char → Option (String × List Char)) (line : String) :
    Option Update := do
  let chars := line.toList
  if !chars.head?.any isBlankChar then none
  let (root, rest) ← name? (chars.dropWhile isBlankChar)
  let (index, function, value) ← (indexSplits rest).findSome? fun (index, rest) =>
    (end? rest).map fun (function, value) => (index, function, value)
  return { indent := String.ofList (chars.takeWhile isBlankChar)
           root := String.ofList root
           target := String.ofList (root ++ index)
           function, value := String.ofList value }

def Update.checked (update : Update) : String :=
  s!"{update.indent}{update.target} = {update.target}.{update.function}({update.value});"

/-- A line with its arithmetic checked, if it changes one of the unsigned variables. -/
def checkLine (unsigned : List String) (line : String) : String :=
  let ofUnsigned := fun (update : Update) => unsigned.contains update.root
  let compound := (update? compoundEnd? line).filter ofUnsigned
  let step := (update? stepEnd? line).filter ofUnsigned
  match compound, step with
  | some update, _ => update.checked
  | none, some update => update.checked
  | none, none => line

/-! ### The library -/

def libraryImport : String :=
  "import \"@openzeppelin/contracts/utils/math/SafeMath.sol\";"

/-- The line that attaches the library to a contract. -/
def libraryUse : String :=
  "using SafeMath for uint256;"

/-- A line without white space around it. -/
def trimmedLine (line : String) : String :=
  String.ofList (trimmed line.toList)

/-- The lines to insert after a contract header, given the line there now. -/
def libraryLines (header next : String) : List String :=
  let indent := String.ofList (header.toList.takeWhile isSpace) ++ "    "
  let line := indent ++ libraryUse
  if trimmedLine next == libraryUse then []
  else if trimmedLine next == "\x7d" then [line]
  else [line, ""]

/-- Whether a line differs from the checked one before the next contract header. -/
def changesBeforeHeader : List (String × String) → Bool
  | [] => false
  | (line, checked) :: rest =>
    if isContractHeader line then false
    else line != checked || changesBeforeHeader rest

/-- The checked lines, with the library attached to every contract with a changed line. Each
line comes with its checked form. -/
def attachLibrary : List (String × String) → List String
  | [] => []
  | (line, checked) :: rest =>
    if isContractHeader line && changesBeforeHeader rest then
      checked :: libraryLines checked ((rest.head?.map Prod.snd).getD "") ++ attachLibrary rest
    else checked :: attachLibrary rest

/-- Whether some line behind a contract header is changed. -/
def changesContract : List (String × String) → Bool
  | [] => false
  | (line, _) :: rest =>
    if isContractHeader line then rest.any fun (line, checked) => line != checked
    else changesContract rest

/-- Import the library after the pragma: in front of the other imports, or as the only one. -/
def importLibrary : List String → Option (List String)
  | [] => none
  | line :: rest =>
    if (pragmaConstraint? line).isSome then
      match rest with
      | first :: second :: others =>
        if startsWith second "import " then
          some (line :: first :: libraryImport :: second :: others)
        else some (line :: "" :: libraryImport :: rest)
      | _ => some (line :: "" :: libraryImport :: rest)
    else (importLibrary rest).map (line :: ·)

def checkArithmetic (lines : List String) : List String × List Diagnostic :=
  if checksArithmetic lines then (lines, [])
  else
    let unsigned := variablesWith holdsUnsigned lines
    let paired := lines.map fun line => (line, checkLine unsigned line)
    if !changesContract paired then (lines, [])
    else
      let attached := attachLibrary paired
      let complete := if attached.contains libraryImport then attached
        else (importLibrary attached).getD (libraryImport :: attached)
      (complete, [.checkedArithmetic])

end ContractForge.Listing
