import ContractForge.Lowering.Inference

/-!
# Lowering expressions

An expression becomes a text. An operand is put in parentheses if it binds more
loosely than its surroundings allow. Constructs without a counterpart are
rejected; a name that nothing is known about is reported and kept.
-/

namespace ContractForge

open Lower

/-- Functions of the generated language that keep their name. -/
def builtinFunctions : List String :=
  ["keccak256", "sha256", "ripemd160", "ecrecover", "address", "payable", "blockhash", "gasleft",
   "assert", "addmod", "mulmod"]

def statementCalls : List String :=
  ["emit", "raise", "puts", "p", "print", "loop"]

/-- Methods that turn one type into another. -/
def conversionMethods : List String :=
  ["to_i", "to_s", "to_a"]

def callText (function : String) (arguments : List String) : String :=
  s!"{function}({Text.commaSeparated arguments})"

/-- The name of a method or function that is not defined in the contract. -/
def foreignName (name : String) : String :=
  Name.safe (Name.camelCase name)

/-! ### Names and literals -/

def literalText (node : Node) : Lower String :=
  match node.payload with
  | .absent => reject .nilValue node
  | .real value => reject (.floatLiteral (Decimal.shortest value)) node
  | payload => return payload.literalText?.getD ""

/-- A symbol: the member of an enumeration, or a text. -/
def symbolText (context : Context) (symbol : String) : String :=
  match context.enumFor? symbol with
  | some enum => s!"{enum}.{Name.enumMember symbol}"
  | none => Name.quote symbol

/-- The parent's version of the method being lowered. -/
def superName (context : Context) : String :=
  let method := context.method.method
  let name := (context.contract.methods.get? method).getD (Name.camelCase method)
  s!"super.{name}"

/-- What a name that is no local variable stands for, if anything is known about it: the
parent's method, a method without arguments, a field or a global scope. -/
def knownName? (context : Context) (name : String) : Except Malformed (Option String) := do
  if name == "super" then
    return some (callText (superName context) (← context.method.parameters.mapM Payload.spelled))
  match context.contract.methods.get? name with
  | some function => return some s!"{function}()"
  | none =>
    if context.hasField (.text name) then return some (Name.safe name)
    if name == "abi" || globalScopes.contains name then return some name
    return none

/-- What a bare name stands for, if anything is known about it. -/
def resolvedName? (context : Context) (name : Payload) : Except Malformed (Option String) :=
  match context.local? name, name with
  | some found, _ => return some found.name.spliced
  | none, .text name => knownName? context name
  | none, name => return if context.hasField name then some name.spliced else none

def nameText (node : Node) : Lower String := do
  match ← infer fun context => resolvedName? context node.payload with
  | some text => return text
  | none =>
    report (.unsupported "unresolved identifier"
      s!"\"{node.payload.spliced}\" is not a local, field or method" node.line)
    return foreignName (← part node.payload.spelled)

/-! ### Calls -/

def calledFunction (context : Context) (name : String) : Except Malformed String := do
  if name == "require" then return name
  if name == "super" then return superName context
  match context.contract.methods.get? name, name.toList with
  | some function, _ => return function
  | none, [] => throw .missingPart
  | none, first :: _ =>
    if Text.isCapital first || builtinFunctions.contains name then return name
    return foreignName name

/-- A call without receiver, given its arguments. -/
def functionCallText (node : Node) (arguments : List String) : Lower String := do
  if node.payload.isOneOf statementCalls then reject (.statementOnly node.payload.spliced) node
  let name ← part node.payload.spelled
  let function ← infer fun context => calledFunction context name
  if name != "require" || arguments.length != 2 then
    infer fun context => checkSpelled context node.callArgs
  return callText function arguments

/-- What a method call is if its receiver is not lowered: a global member, a call or field of
the contract itself, or the creation of a contract. -/
def directCall? (context : Context) (node receiver : Node) (arguments : List String) :
    Except Malformed (Option String) := do
  if let some member ← globalMember? context node then return some member
  match receiver.kind, node.payload with
  | .selfRef, name =>
    if let some function := name.text?.bind context.contract.methods.get? then
      checkSpelled context node.callArgs
      return some (callText function arguments)
    return if arguments.isEmpty && context.hasField name then some name.safe.spliced else none
  | .constant, .text "new" =>
    let created ← receiver.textPayload
    checkSpelled context node.callArgs
    return some (callText s!"new {Text.lastScope created}" arguments)
  | _, _ => return none

/-- Put an expression into parentheses if it binds more loosely than its parent, or as loosely
on the side where that matters. -/
def enclosed (node : Node) (parent : Int) (strict : Bool) (text : String) : Lower String := do
  let own ← infer fun context => precedence context node
  return if own < parent || (strict && own == parent) then s!"({text})" else text

/-- What an expression with the given text is written as. -/
def writtenAs (node : Node) (text : String) : Lower Payload := do
  return (← infer fun context => unspelled? context node).getD (.text text)

/-- A call on a receiver. The receiver is lowered once for its text and once more where the
call needs it in another form. -/
def memberCallText (node receiver : Node) (arguments : List String)
    (lowerReceiver : Lower String) : Lower String := do
  let text ← enclosed receiver primaryPrecedence false (← lowerReceiver)
  let name ← part node.payload.spelled
  let called (function : String) : Lower String := do
    infer fun context => checkSpelled context node.callArgs
    return callText s!"{text}.{function}" arguments
  let isString : Lower Bool := do
    return (← infer fun context => inferType context receiver) == some .string
  if lengthMethods.contains name && arguments.isEmpty then
    match (← get).length? (← writtenAs receiver text) with
    | some length => return length
    | none => if ← isString then return s!"bytes({text}).length" else return s!"{text}.length"
  else if appendMethods.contains name then called "push"
  else match transferMethods.contains name, arguments with
    | true, [amount] => return s!"payable({← lowerReceiver}).transfer({amount})"
    | _, [] =>
      if name == "nil?" || name == "zero?" then
        let type ← infer fun context => inferType context receiver
        let zero := (type.bind StaticType.zeroValue?).getD "0"
        return s!"{← enclosed receiver equalityPrecedence false (← lowerReceiver)} == {zero}"
      else if name == "empty?" then
        if ← isString then return s!"bytes({← lowerReceiver}).length == 0"
        else return s!"{text}.length == 0"
      else if conversionMethods.contains name then reject (.conversion name) node
      else called (foreignName name)
    | _, _ => called (foreignName name)

/-! ### Operators -/

/-- A binary operator, given how its sides are lowered. -/
def binaryText (operator : Payload) (left right : Node) (lowerLeft lowerRight : Lower String) :
    Lower String := do
  if ← infer fun context => isZeroDefault context operator left right then lowerLeft
  else if ← infer fun context => isArrayAppend context operator left then
    let array ← enclosed left primaryPrecedence false (← lowerLeft)
    return callText s!"{array}.push" [← lowerRight]
  else if ← infer fun context => isTextOperation context ["==", "!="] operator left right then
    let leftText ← lowerLeft
    let rightText ← lowerRight
    return s!"keccak256(bytes({leftText})) {operator.spliced} keccak256(bytes({rightText}))"
  else if ← infer fun context => isTextOperation context ["+"] operator left right then
    return callText "string.concat" [← lowerLeft, ← lowerRight]
  else
    match operator.text?.bind operatorPrecedence.get? with
    | none => throw (.malformed .unknownOperator)
    | some own =>
      let isPower := operator.isText "**"
      let leftText ← enclosed left own isPower (← lowerLeft)
      let rightText ← enclosed right own (!isPower) (← lowerRight)
      return s!"{leftText} {operator.spliced} {rightText}"

/-- An assignment as an expression, given how its sides are lowered. -/
def assignmentText (node : Node) (value : Node) (lowerTarget lowerValue : Lower String) :
    Lower String := do
  if node.payload.isText "||=" then reject .conditionalAssignment node
  let target ← lowerTarget
  if node.payload.isText "**=" then
    return s!"{target} = {target} ** {← enclosed value powerPrecedence true (← lowerValue)}"
  return s!"{target} {node.payload.spliced} {← lowerValue}"

/-! ### Expressions -/

def refuseKeywords (arguments : List Node) : Lower Unit :=
  match arguments.find? fun argument => argument.kind == .hash with
  | some argument => reject .keywordArguments argument
  | none => return ()

mutual

def expression : Node → Lower String
  | ⟨.literal, payload, line, column, _⟩ => literalText ⟨.literal, payload, line, column, []⟩
  | ⟨.interpolated, payload, line, column, children⟩ =>
    reject .interpolation (some ⟨.interpolated, payload, line, column, children⟩)
  | ⟨.symbol, .text symbol, _, _, _⟩ => return symbolText (← get) symbol
  | ⟨.identifier, payload, line, column, _⟩ => nameText ⟨.identifier, payload, line, column, []⟩
  | ⟨.ivar, .text name, _, _, _⟩ => return Name.safe name
  | ⟨.ivar, name, _, _, _⟩ => return name.spliced
  | ⟨.constant, .text name, _, _, _⟩ => return Text.lastScope name
  | ⟨.selfRef, _, _, _, _⟩ => return "address(this)"
  | ⟨.binary, operator, _, _, [left, right]⟩ =>
    binaryText operator left right (expression left) (expression right)
  | ⟨.unary, operator, _, _, operand :: _⟩ => do
    let text ← enclosed operand unaryPrecedence false (← expression operand)
    return s!"{operator.spliced}{text}"
  | ⟨.ternary, _, _, _, [condition, whenTrue, whenFalse]⟩ => do
    let conditionText ← enclosed condition ternaryPrecedence true (← expression condition)
    let trueText ← enclosed whenTrue ternaryPrecedence false (← expression whenTrue)
    let falseText ← enclosed whenFalse ternaryPrecedence false (← expression whenFalse)
    return s!"{conditionText} ? {trueText} : {falseText}"
  | ⟨.assignment, operator, line, column, [target, value]⟩ =>
    assignmentText ⟨.assignment, operator, line, column, []⟩ value (expression target)
      (expression value)
  | ⟨.index, _, _, _, [base, index]⟩ => do
    let baseText ← enclosed base primaryPrecedence false (← expression base)
    return s!"{baseText}[{← expression index}]"
  | ⟨.array, _, _, _, []⟩ => return s!"new {StaticType.defaultArray.render}(0)"
  | ⟨.array, payload, line, column, children⟩ =>
    reject .arrayLiteral (some ⟨.array, payload, line, column, children⟩)
  | ⟨.hash, payload, line, column, children⟩ =>
    reject .hashLiteral (some ⟨.hash, payload, line, column, children⟩)
  | ⟨.call, name, line, column, children⟩ => do
    let node : Node := ⟨.call, name, line, column, children⟩
    if node.callBlock?.isSome then reject (.blockForCall name.spliced) node
    functionCallText node (← argumentsAmong children)
  | ⟨.methodCall, name, line, column, receiver :: others⟩ => do
    let node : Node := ⟨.methodCall, name, line, column, receiver :: others⟩
    if node.callBlock?.isSome then reject (.blockForMethod name.spliced) node
    let arguments ← argumentsAmong (receiver :: others)
    match ← infer fun context => directCall? context node receiver arguments with
    | some text => return text
    | none => memberCallText node receiver arguments (expression receiver)
  | ⟨.binary, _, _, _, _⟩ | ⟨.ternary, _, _, _, _⟩ | ⟨.assignment, _, _, _, _⟩
  | ⟨.index, _, _, _, _⟩ => throw (.malformed .partCount)
  | ⟨.unary, _, _, _, []⟩ | ⟨.methodCall, _, _, _, []⟩ => throw (.malformed .missingPart)
  | ⟨.symbol, _, _, _, _⟩ | ⟨.constant, _, _, _, _⟩ => throw (.malformed .payload)
  | ⟨kind, payload, line, column, children⟩ =>
    reject (.notExpression kind) (some ⟨kind, payload, line, column, children⟩)

def argumentsAmong : List Node → Lower (List String)
  | [] => return []
  | ⟨.args, _, _, _, arguments⟩ :: _ => do
    refuseKeywords arguments
    expressions arguments
  | _ :: others => argumentsAmong others

/-- The texts of several expressions, in order. -/
def expressions : List Node → Lower (List String)
  | [] => return []
  | node :: rest => do return (← expression node) :: (← expressions rest)

end

def arguments (nodes : List Node) : Lower (List String) := do
  refuseKeywords nodes
  expressions nodes

/-- An operand of an operator that binds as tightly as given. -/
def operand (node : Node) (parent : Int) (strict : Bool) : Lower String := do
  enclosed node parent strict (← expression node)

/-- The negation of a condition. A negated condition loses its negation. -/
def negation (node : Node) : Lower String := do
  if node.kind == .unary && node.payload.isText "!" then
    expression (← part (node.childAt 0))
  else return s!"!{← operand node unaryPrecedence false}"

end ContractForge
