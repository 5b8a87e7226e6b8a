import ContractForge.Syntax.Parser.State
import ContractForge.Syntax.Shape

/-!
# Parsing expressions

Expressions are read level by level, from the loosest binding (`and`, `or`)
to the tightest (calls and indexing). A production that has to start over at an
outer level, such as the contents of a pair of parentheses, asks the `Rules` it is
given; it does so only after it has consumed a token.
-/

namespace ContractForge.Parse

/-- The productions that other productions start over with. -/
structure Rules where
  expression : Parse Node
  expressionStatement : Parse Node
  keywordNot : Parse Node
  ternary : Parse Node
  negation : Parse Node
  unary : Parse Node
  body : List TokenKind → Parse Node

/-- Words that end an expression and start a condition on the statement before them. -/
def modifiers : List TokenKind :=
  [.keyword .ifKw, .keyword .unlessKw, .keyword .whileKw, .keyword .untilKw]

/-- Whether no further expression can start here. -/
def atExpressionEnd : Parse Bool :=
  atAny ([.newline, .mark .semicolon, .endOfInput, .keyword .endKw, .mark .rbrace] ++ modifiers)

/-- Tokens that may start the first argument of a call without parentheses. -/
def startsCommandArgument : TokenKind → Bool
  | .identifier | .constant | .ivar | .integer | .float | .string | .interpolated | .symbol
  | .label => true
  | .keyword word => [.trueKw, .falseKw, .nilKw, .selfKw, .notKw].contains word
  | .mark sign => [.bang, .lbracket, .lparen].contains sign
  | _ => false

/-- Loops that are written as a method call with a block. -/
def blockLoops : List String :=
  ["each", "each_with_index", "times"]

/-! ### Arguments -/

/-- An argument: an expression, possibly negated by a keyword. -/
def argument (rules : Rules) : Parse Node := do
  if ← atKeyword .notKw then rules.keywordNot else rules.ternary

/-- `label: value`, read as a pair whose key is a symbol. -/
def labelPair (rules : Rules) : Parse Node := do
  let label ← advance
  skipNewlines
  let value ← argument rules
  return nodeAt label .pair [leaf label .symbol, value] .absent

def atArgumentsEnd (parenthesized : Bool) : Parse Bool := do
  if parenthesized then atMark .rparen
  else return (← atExpressionEnd) || (← atKeyword .doKw)

/-- Comma-separated arguments. Pairs are gathered into one table at the end. -/
def argumentList (rules : Rules) (parenthesized : Bool) : Parse (List Node) := do
  let start ← current
  let (positional, pairs) ← loop (fun (positional, pairs) => do
      if ← atArgumentsEnd parenthesized then
        return .done (positional, pairs)
      let (positional, pairs) ← (do
        if ← at? .label then
          return (positional, pairs ++ [← labelPair rules])
        let value ← argument rules
        if ← atMark .arrow then
          let arrow ← advance
          let target ← argument rules
          return (positional, pairs ++ [nodeAt arrow .pair [value, target] .absent])
        return (positional ++ [value], pairs))
      if ← atMark .comma then
        let _ ← advance
        skipNewlines
        return .again (positional, pairs)
      return .done (positional, pairs))
    (([], []) : List Node × List Node)
  if pairs.isEmpty then return positional
  return positional ++ [nodeAt start .hash pairs .absent]

def callArguments (rules : Rules) : Parse (List Node) := do
  let _ ← expect (.mark .lparen)
  skipNewlines
  let args ← argumentList rules true
  skipNewlines
  let _ ← expect (.mark .rparen)
  return args

/-! ### Blocks -/

/-- Comma-separated block parameters up to the closing bar. -/
def blockParamList : Parse (List Node) :=
  loop (fun names => do
      if ← atMark .pipe then
        return .done names
      let name ← expect .identifier "expected block parameter"
      declare name.value
      let names := names ++ [leaf name .identifier]
      if ← atMark .comma then
        let _ ← advance
        return .again names
      return .done names)
    ([] : List Node)

/-- Block parameters between bars, if there are any. -/
def blockParams : Parse (List Node) := do
  if ← atMark .pipe then
    let _ ← advance
    let names ← blockParamList
    let _ ← expect (.mark .pipe)
    return names
  return []

def blockAfter (rules : Rules) (opener : Token) (closer : TokenKind) : Parse Node :=
  outsideLoopHeads <| inInnerScope do
    let names ← blockParams
    let body ← rules.body [closer]
    let _ ← expect closer "expected end of block"
    return nodeAt opener .block [nodeAt opener .blockParams names .absent, body] .absent

/-- A block in braces or between `do` and `end`, if one follows. -/
def block? (rules : Rules) : Parse (Option Node) := do
  if ← atBlockDo then
    let opener ← advance
    return some (← blockAfter rules opener (.keyword .endKw))
  if ← atMark .lbrace then
    let opener ← advance
    return some (← blockAfter rules opener (.mark .rbrace))
  return none

/-! ### Calls -/

/-- Finish a call: attach a block if one follows, and read an iteration as a loop. -/
def callTail (rules : Rules) (name : Token) (args : List Node) (receiver : Option Node) :
    Parse Node := do
  let block ← block? rules
  let argsNode := nodeAt name .args args .absent
  match receiver, block with
  | none, none => return nodeAt name .call [argsNode] (.text name.value)
  | none, some block => return nodeAt name .call [argsNode, block] (.text name.value)
  | some receiver, none => return nodeAt name .methodCall [receiver, argsNode] (.text name.value)
  | some receiver, some block =>
    if blockLoops.contains name.value && args.isEmpty then
      return nodeAt name .loop (receiver :: block.children) (.text name.value)
    return nodeAt name .methodCall [receiver, argsNode, block] (.text name.value)

/-! ### Collections -/

/-- The elements of an array after its opening bracket, up to the closing one. -/
def arrayElements (rules : Rules) : Parse (List Node) :=
  loop (fun elements => do
      if ← atMark .rbracket then
        return .done elements
      let element ← argument rules
      let elements := elements ++ [element]
      skipNewlines
      if ← atMark .comma then
        let _ ← advance
        skipNewlines
        return .again elements
      return .done elements)
    ([] : List Node)

/-- One entry of a table literal. -/
def hashPair (rules : Rules) : Parse Node := do
  if ← at? .label then
    labelPair rules
  else
    let key ← rules.ternary
    skipNewlines
    let arrow ← expect (.mark .arrow) "expected '=>' in hash literal"
    skipNewlines
    let value ← rules.ternary
    return nodeAt arrow .pair [key, value] .absent

/-- The entries of a table literal after its opening brace, up to the closing one. -/
def hashPairs (rules : Rules) : Parse (List Node) :=
  loop (fun pairs => do
      if ← atMark .rbrace then
        return .done pairs
      let pair ← hashPair rules
      let pairs := pairs ++ [pair]
      skipNewlines
      if ← atMark .comma then
        let _ ← advance
        skipNewlines
        return .again pairs
      return .done pairs)
    ([] : List Node)

/-! ### Primary expressions -/

/-- The number that a decimal numeral spells, unless it has too many digits. -/
def integerPayload (token : Token) : Parse Payload := do
  let digits := token.value.toList
  if Text.exceeds (← get).digitLimit digits then throw (.tooManyDigits (some digits.length))
  return .integer (Text.digitsValue digits)

/-- A name: a call if arguments or a block follow, a variable if it is known. -/
def identifierExpression (rules : Rules) (token : Token) : Parse Node := do
  if ← atAttached .lparen then
    let args ← callArguments rules
    return ← callTail rules token args none
  if ← isLocal token.value then
    return leaf token .identifier
  let following ← current
  if following.spaced && startsCommandArgument following.kind then
    let args ← argumentList rules false
    return ← callTail rules token args none
  if ← atBlockDo then
    return ← callTail rules token [] none
  return leaf token .identifier

/-- A constant, or a call of a constructor-like name. -/
def constantExpression (rules : Rules) (token : Token) : Parse Node := do
  if ← atAttached .lparen then
    let args ← callArguments rules
    return ← callTail rules token args none
  return leaf token .constant

/-- The contents of a pair of parentheses; nothing between them stands for no value. -/
def parenthesized (rules : Rules) (token : Token) : Parse Node := do
  skipNewlines
  if ← atMark .rparen then
    let _ ← advance
    return nodeAt token .literal [] .absent
  let expression ← rules.expressionStatement
  skipNewlines
  let _ ← expect (.mark .rparen)
  return expression

/-- The smallest expressions: literals, names, and anything in brackets. -/
def primary (rules : Rules) : Parse Node := do
  let token ← current
  match token.kind with
  | .integer => do
    let _ ← advance
    return nodeAt token .literal [] (← integerPayload token)
  | .float => do
    let _ ← advance
    match Decimal.parse? token.value.toList with
    | some value => return nodeAt token .literal [] (.real value)
    | none => throw (.missingExponent token.value)
  | .string => do
    let _ ← advance
    return leaf token .literal
  | .interpolated => do
    let _ ← advance
    return leaf token .interpolated
  | .symbol => do
    let _ ← advance
    return leaf token .symbol
  | .keyword .trueKw => do
    let _ ← advance
    return nodeAt token .literal [] (.boolean true)
  | .keyword .falseKw => do
    let _ ← advance
    return nodeAt token .literal [] (.boolean false)
  | .keyword .nilKw => do
    let _ ← advance
    return nodeAt token .literal [] .absent
  | .keyword .selfKw => do
    let _ ← advance
    return nodeAt token .selfRef [] (.text "self")
  | .ivar => do
    let _ ← advance
    return leaf token .ivar
  | .constant => do
    let _ ← advance
    constantExpression rules token
  | .identifier => do
    let _ ← advance
    identifierExpression rules token
  | .mark .lparen => do
    let _ ← advance
    parenthesized rules token
  | .mark .lbracket => do
    let _ ← advance
    skipNewlines
    let elements ← arrayElements rules
    let _ ← expect (.mark .rbracket)
    return nodeAt token .array elements .absent
  | .mark .lbrace => do
    let _ ← advance
    skipNewlines
    let pairs ← hashPairs rules
    let _ ← expect (.mark .rbrace)
    return nodeAt token .hash pairs .absent
  | .keyword word =>
    match word.rejection? with
    | some reason => failAt token reason
    | none => failAt token s!"Unexpected token {described token}"
  | .endOfInput => failAt token "Unexpected end of input"
  | _ => failAt token s!"Unexpected token {described token}"

/-! ### Postfix expressions -/

def dottedCall (rules : Rules) (receiver : Node) : Parse Node := do
  skipNewlines
  let name ← current
  if name.kind != .identifier && name.kind != .constant then
    fail "Expected method name after \".\""
  let _ ← advance
  let args ← (do if ← atAttached .lparen then callArguments rules else return [])
  callTail rules name args (some receiver)

/-- An index after its opening bracket. -/
def indexing (rules : Rules) (token : Token) (base : Node) : Parse Node := do
  skipNewlines
  let index ← rules.expression
  skipNewlines
  if ← atMark .comma then
    fail "Multiple index arguments are not supported"
  let _ ← expect (.mark .rbracket)
  return nodeAt token .index [base, index] .absent

/-- A constant followed by the name of a constant inside it. -/
def scopedConstant (outer : Node) : Parse Node := do
  let name ← expect .constant
  return { outer with
    payload := .text s!"{outer.payload.spliced}::{name.value}", children := [] }

/-- One more call, index or scope after an expression. -/
def postfixRound (rules : Rules) (expression : Node) : Parse (Round Node Node) := do
  if ← atMark .dot then
    let _ ← advance
    return .again (← dottedCall rules expression)
  if ← atAttached .lbracket then
    let token ← advance
    return .again (← indexing rules token expression)
  if (← atMark .colonColon) && expression.kind == .constant then
    let _ ← advance
    return .again (← scopedConstant expression)
  return .done expression

/-- A primary expression and the calls, indexes and scopes after it. -/
def postfixed (rules : Rules) : Parse Node := do
  loop (postfixRound rules) (← primary rules)

/-! ### Operators -/

/-- Prefix operators that bind tighter than any infix one. -/
def unary (rules : Rules) : Parse Node := do
  if ← atAny [.mark .bang, .mark .tilde] then
    let token ← advance
    let operand ← rules.unary
    return nodeAt token .unary [operand] (.text token.value)
  postfixed rules

/-- Exponentiation, which groups to the right and takes a negative exponent. -/
def exponentiation (rules : Rules) : Parse Node := do
  let left ← unary rules
  if ← atMark .starStar then
    let token ← advance
    let right ← rules.negation
    return nodeAt token .binary [left, right] (.text "**")
  return left

/-- Negation, which binds looser than exponentiation. -/
def negation (rules : Rules) : Parse Node := do
  if ← atMark .minus then
    let token ← advance
    let operand ← rules.negation
    return nodeAt token .unary [operand] (.text "-")
  exponentiation rules

/-- One more operator of a level and the operand on its right. -/
def binaryRound (operand : Parse Node) (operators : List Mark) (left : Node) :
    Parse (Round Node Node) := do
  let token ← current
  match token.kind with
  | .mark sign =>
    if operators.contains sign then
      let _ ← advance
      skipNewlines
      let right ← operand
      return .again (nodeAt token .binary [left, right] (.text token.value))
    return .done left
  | _ => return .done left

/-- Operands joined by the operators of one level, grouped to the left. -/
def binaryLevel (operand : Parse Node) (operators : List Mark) : Parse Node := do
  loop (binaryRound operand operators) (← operand)

/-- The levels of infix operators below exponentiation, the tightest first. -/
def operatorLevels : List (List Mark) :=
  [[.star, .slash, .percent], [.plus, .minus], [.lessLess, .greaterGreater], [.ampersand],
   [.pipe, .caret], [.less, .greater, .lessEq, .greaterEq], [.eqEq, .bangEq], [.ampAmp],
   [.pipePipe]]

def infixExpression (rules : Rules) : Parse Node :=
  operatorLevels.foldl binaryLevel (negation rules)

/-- A choice between two expressions by a condition. -/
def ternary (rules : Rules) : Parse Node := do
  let condition ← infixExpression rules
  if ← atMark .question then
    let token ← advance
    skipNewlines
    let whenTrue ← rules.ternary
    skipNewlines
    let _ ← expect (.mark .colon) "expected ':' in conditional expression"
    skipNewlines
    let whenFalse ← rules.ternary
    return nodeAt token .ternary [condition, whenTrue, whenFalse] .absent
  return condition

def keywordNot (rules : Rules) : Parse Node := do
  if ← atKeyword .notKw then
    let token ← advance
    let operand ← rules.keywordNot
    return nodeAt token .unary [operand] (.text "!")
  ternary rules

/-- An expression: operands joined by `and` and `or`, which bind loosest and alike. -/
def expression (rules : Rules) : Parse Node := do
  let start ← keywordNot rules
  loop (fun left => do
      let token ← current
      if token.kind == .keyword .andKw || token.kind == .keyword .orKw then
        let _ ← advance
        skipNewlines
        let right ← keywordNot rules
        let operator := if token.kind == .keyword .andKw then "&&" else "||"
        return .again (nodeAt token .binary [left, right] (.text operator))
      return .done left)
    start

/-! ### Assignments -/

def assignmentOperator? : TokenKind → Option String
  | .mark .eq => some "="
  | .mark .plusEq => some "+="
  | .mark .minusEq => some "-="
  | .mark .starEq => some "*="
  | .mark .slashEq => some "/="
  | .mark .percentEq => some "%="
  | .mark .starStarEq => some "**="
  | .mark .pipePipeEq => some "||="
  | _ => none

/-- Require that an expression can be assigned to. -/
def checkTarget (start : Token) (target : Node) : Parse Unit := do
  match target.kind with
  | .identifier | .ivar | .index | .constant => return ()
  | .methodCall =>
    if !target.callArgs.isEmpty then
      failAt start "Invalid assignment target (method call)"
  | kind => failAt start s!"Invalid assignment target ({kind.name})"

/-- An expression, or an assignment whose target is that expression. -/
def expressionStatement (rules : Rules) : Parse Node := do
  let start ← current
  let target ← expression rules
  match assignmentOperator? (← current).kind with
  | none => return target
  | some operator => do
    let _ ← advance
    checkTarget start target
    if target.kind == .identifier then
      declare target.payload.spliced
    skipNewlines
    let value ← rules.expressionStatement
    return nodeAt start .assignment [target, value] (.text operator)

end ContractForge.Parse
