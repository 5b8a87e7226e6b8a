import ContractForge.Diagnostic
import ContractForge.Listing.Line

/-!
# Updates before external calls

A contract that calls out before it has updated its tables can be called back
in between. In every function, updates of tables that follow the first external
call are moved in front of it, unless a statement between them can leave the
function, uses the table, or computes what the update needs. Updates that stay
are reported.
-/

namespace ContractForge.Listing

open Text

/-! ### What statements do -/

/-- A statement of a function body: its lines. -/
abbrev Group := List String

/-- Texts that mark a call of another contract. -/
def callMarkers : List String :=
  [".transfer(", ".send(", ".call(", ".call\x7b"]

/-- Whether a statement calls another contract. -/
def isExternalCall (group : Group) : Bool :=
  group.any fun line => callMarkers.any fun marker => occursIn marker.toList line.toList

/-- What follows the operator of an assignment; plain and compound operators count. -/
def afterAssignment? (chars : List Char) : Option (List Char) :=
  [" = ", " -= ", " += ", " *= ", " /= ", " %= ", " **= "].findSome? fun operator =>
    after? operator chars

/-- The text in front of the semicolon that ends a statement. A line break may follow the
semicolon, but none may come before it. -/
def beforeSemicolon? (chars : List Char) : Option (List Char) :=
  let reversed := match chars.reverse with
    | '\n' :: reversed => reversed
    | reversed => reversed
  match reversed with
  | ';' :: reversed => if reversed.contains '\n' then none else some reversed.reverse
  | _ => none

/-- Whether an assignment to an entry ends here, after a closing bracket: with an operator, a
value and a semicolon. -/
def endsEntryAssignment (chars : List Char) : Bool :=
  ((afterAssignment? chars).bind beforeSemicolon?).any fun value => !value.isEmpty

/-- Whether an assignment follows one of the closing brackets before the first semicolon. -/
def assignsEntry : List Char → Bool
  | [] => false
  | ';' :: _ => false
  | ']' :: rest => endsEntryAssignment rest || assignsEntry rest
  | _ :: rest => assignsEntry rest

/-- The variable of which a line deletes or assigns an entry. -/
def entryTarget? (line : String) : Option String :=
  let chars := line.toList.dropWhile isBlankChar
  let deleted := do
    let (name, rest) ← name? (← after? "delete " chars)
    match rest with
    | '[' :: rest => (beforeSemicolon? rest).map fun _ => name
    | _ => none
  let assigned := do
    let (name, rest) ← name? chars
    match rest with
    | '[' :: rest => if assignsEntry rest then some name else none
    | _ => none
  (deleted.or assigned).map String.ofList

def updatedTable? (tables : List String) (group : Group) : Option String :=
  match group with
  | [line] => (entryTarget? line).filter tables.contains
  | _ => none

/-- The tables that are updated inside a compound statement. -/
def nestedUpdates (tables : List String) (group : Group) : List String :=
  (group.tail.filterMap fun line => updatedTable? tables [line]).eraseDups

/-- What follows the closing quote of a string literal, given what follows the opening one. A
backslash escapes any character but a line break. -/
def afterString? : List Char → Option (List Char)
  | [] => none
  | '"' :: rest => some rest
  | '\\' :: escaped :: rest => if escaped == '\n' then none else afterString? rest
  | '\\' :: [] => none
  | _ :: rest => afterString? rest

/-- A line with its string literals emptied. The number says how many characters of a literal
are still to be dropped. -/
def emptyStrings (drop : Nat) : List Char → List Char
  | [] => []
  | c :: rest =>
    match drop with
    | drop + 1 => emptyStrings drop rest
    | 0 =>
      match c, afterString? rest with
      | '"', some after => '"' :: '"' :: emptyStrings (rest.length - after.length) rest
      | _, _ => c :: emptyStrings 0 rest

/-- Whether a word that leaves the function or loop stands here. -/
def exitHere (previous : Option Char) (chars : List Char) : Bool :=
  (["return", "break", "continue"].any fun word => wordHere word previous chars) ||
    (startsWord previous && (after? "revert(" chars).isSome)

/-- Whether a statement can leave the function or loop before its end. -/
def exitsEarly (group : Group) : Bool :=
  group.any fun line => anywhere exitHere none (emptyStrings 0 line.toList)

/-- What follows any number of pairs of brackets. -/
def afterBrackets : List Char → List Char
  | '[' :: ']' :: rest => afterBrackets rest
  | chars => chars

/-- The name in front of an assignment, after a blank. -/
def assignedName : List Char → Option String
  | ' ' :: chars => do
    let (name, rest) ← name? chars
    if " = ".toList.isPrefixOf rest then some (String.ofList name) else none
  | _ => none

/-- The variable that a line declares, after its type and data location. -/
def declaredVariable? (chars : List Char) : Option String := do
  if !chars.head?.any isNameStart then none
  let rest := afterBrackets (chars.dropWhile fun c => isWordChar c || c == '.')
  let located := [" memory", " storage"].findSome? fun word =>
    (after? word rest).bind assignedName
  located.or (assignedName rest)

def lastWord? (chars : List Char) : Option String :=
  match chars.reverse.dropWhile isSpace with
  | [] => none
  | reversed => some (String.ofList (reversed.takeWhile fun c => !isSpace c).reverse)

def tupleVariables? (chars : List Char) : Option (List String) :=
  match chars with
  | '(' :: rest =>
    match rest.dropWhile (· != ')') with
    | ')' :: after =>
      if " = ".toList.isPrefixOf after then
        some ((splitAt ',' (rest.takeWhile (· != ')'))).filterMap lastWord?)
      else none
    | _ => none
  | _ => none

/-- The local variables that a statement declares. -/
def declaredNames (group : Group) : List String :=
  match group with
  | [] => []
  | line :: _ =>
    let chars := line.toList.dropWhile isBlankChar
    match declaredVariable? chars with
    | some name => [name]
    | none => ((tupleVariables? chars).getD []).eraseDups

/-- The names in a statement, each once. -/
def wordsIn (group : Group) : List String :=
  (group.flatMap fun line => (namesIn false line.toList).map String.ofList).eraseDups

/-! ### Moving updates -/

/-- Names with commas between them, in alphabetical order. -/
def sortedNames (names : List String) : String :=
  commaSeparated (names.mergeSort fun left right => left ≤ right)

/-- Why a statement keeps an update of a table behind it. -/
def blockedBy? (table : String) (updateWords : List String) (group : Group) : Option String :=
  let produced := (declaredNames group).filter updateWords.contains
  if exitsEarly group then
    some s!"an intervening statement can return before {table} is updated"
  else if (wordsIn group).contains table then
    if isExternalCall group then some s!"the external call reads {table}"
    else some s!"an intervening statement uses {table}"
  else if produced.isEmpty then none
  else if isExternalCall group then
    some s!"the update of {table} uses the call result {sortedNames produced}"
  else some s!"the update of {table} uses {sortedNames produced} computed after the call"

/-- Why an update cannot move in front of the statements between it and the first call. -/
def blockingReason? (table : String) (between : List Group) (update : Group) : Option String :=
  between.findSome? (blockedBy? table (wordsIn update))

/-- The outcome of moving updates in a function. -/
structure Reordering where
  /-- Updates that were moved in front of the first call, in order. -/
  moved : List Group := []
  /-- The first call and everything that stayed behind it. -/
  stayed : List Group := []
  reasons : List String := []

/-- Move updates among the statements after the first call, given the outcome so far. -/
def moveUpdates (tables : List String) (done : Reordering) : List Group → Reordering
  | [] => done
  | group :: rest =>
    let staying := { done with stayed := done.stayed ++ [group] }
    let next := match updatedTable? tables group with
      | none =>
        match nestedUpdates tables group with
        | [] => staying
        | names =>
          let reason :=
            s!"the update of {commaSeparated names} is inside a conditional or loop"
          { staying with reasons := done.reasons ++ [reason] }
      | some table =>
        match blockingReason? table done.stayed group with
        | some reason => { staying with reasons := done.reasons ++ [reason] }
        | none => { done with moved := done.moved ++ [group] }
    moveUpdates tables next rest

/-- The statements of a function with updates moved in front of the first call, and what was
reported. -/
def reorderGroups (function : String) (tables : List String) (groups : List Group) :
    List Group × List Diagnostic :=
  let before := groups.takeWhile fun group => !isExternalCall group
  match groups.dropWhile fun group => !isExternalCall group with
  | [] => (groups, [])
  | call :: rest =>
    let done := moveUpdates tables { stayed := [call] } rest
    let reports := done.reasons.map (Diagnostic.reentrancy function)
    let note := if done.moved.isEmpty then [] else [Diagnostic.reordered function]
    (before ++ done.moved ++ done.stayed, reports ++ note)

/-! ### Listings -/

def tableVariables (lines : List String) : List String :=
  variablesWith (fun type => startsWith type "mapping(") lines

/-- The listing with the updates of one function moved, and what was reported. -/
def reorderFunction (tables : List String) (lines : List String) (span : FunctionSpan) :
    List String × List Diagnostic :=
  let start := span.header + 1
  let body := (lines.take span.closing).drop start
  match body with
  | [] => (lines, [])
  | first :: _ =>
    let indent := String.ofList (first.toList.takeWhile isSpace)
    let (groups, reports) := reorderGroups span.name tables (statementGroups indent body)
    (lines.take start ++ groups.flatten ++ lines.drop span.closing, reports)

/-- The listing with updates moved in front of external calls, and what was reported, the last
function first. -/
def reorderCalls (lines : List String) : List String × List Diagnostic :=
  let tables := tableVariables lines
  if tables.isEmpty then (lines, [])
  else
    (functionSpans lines).reverse.foldl (fun (lines, reports) span =>
      let (reordered, found) := reorderFunction tables lines span
      (reordered, reports ++ found)) (lines, [])

end ContractForge.Listing
