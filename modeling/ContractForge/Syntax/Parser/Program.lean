import ContractForge.Source.Scan
import ContractForge.Syntax.Parser.Statement

/-!
# Parsing programs

The productions are tied together here: a production that starts over gets the
productions of one level less. Starting over always consumes a token first, so
as many levels as there are tokens are enough.
-/

namespace ContractForge

namespace Parse

/-- The productions with a bound on how often they may start over. -/
def rulesAt : Nat → Rules
  | 0 =>
    { expression := throw .depthExceeded
      expressionStatement := throw .depthExceeded
      keywordNot := throw .depthExceeded
      ternary := throw .depthExceeded
      negation := throw .depthExceeded
      unary := throw .depthExceeded
      body := fun _ => throw .depthExceeded }
  | depth + 1 =>
    let inner := rulesAt depth
    { expression := expression inner
      expressionStatement := expressionStatement inner
      keywordNot := keywordNot inner
      ternary := ternary inner
      negation := negation inner
      unary := unary inner
      body := body (member inner) }

/-- Whether an import stands at the front: its word and a path, which may be in
parentheses. -/
def atImport : Parse Bool := do
  let token ← current
  if token.kind == .identifier && importNames.contains token.value then
    let first := (← peek 1).kind
    if first == .string then return true
    return first == .mark .lparen && (← peek 2).kind == .string &&
      (← peek 3).kind == .mark .rparen
  return false

def importStatement : Parse Node := do
  let keyword ← advance
  let inParentheses ← atMark .lparen
  if inParentheses then
    let _ ← advance
  let path ← expect .string
  if inParentheses then
    let _ ← expect (.mark .rparen)
  return nodeAt keyword .importFile [leaf path .literal] (.text keyword.value)

/-- A statement outside any class. -/
def topLevel (rules : Rules) : Parse (List Node) := do
  if ← atImport then return [← importStatement]
  member rules

def program (rules : Rules) : Parse Node := do
  let start ← current
  skipTerminators
  let statements ← loop (fun statements => do
      if ← at? .endOfInput then
        return .done statements
      let next ← topLevel rules
      endStatement
      return .again (statements ++ next))
    ([] : List Node)
  return nodeAt start .program statements .absent

end Parse

/-- The program that the tokens spell, with a limit on the digits of a number or without one. -/
def parseTokensWithin (limit : Option Nat) (stream : TokenStream) : Except ReadError Node := do
  let state : ParseState :=
    { pending := stream.pending, last := stream.last, digitLimit := limit }
  let rules := Parse.rulesAt (stream.pending.length + 1)
  let (program, _) ← (Parse.program rules).run state
  return program

def parseTokens (stream : TokenStream) : Except ReadError Node :=
  parseTokensWithin (some Text.digitLimit) stream

/-- The program that a source text spells, with a limit on the digits of a number or without
one. -/
def parseWithin (limit : Option Nat) (source : String) : Except ReadError Node := do
  parseTokensWithin limit (← scanWithin limit source)

/-- The program that a source text spells. -/
def parse (source : String) : Except ReadError Node :=
  parseWithin (some Text.digitLimit) source

end ContractForge
