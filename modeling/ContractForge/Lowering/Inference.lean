import ContractForge.Lowering.Context
import ContractForge.Lowering.LiteralType

/-!
# Types of expressions

The type of an expression follows from what is known about the names in it. Some
nodes have a type of their own, whatever the names in them stand for; where
nothing is known about a name, it suggests a type. An expression without a type
has no counterpart, or nothing can be said about it.
-/

namespace ContractForge

/-! ### Operators and methods with a meaning of their own -/

def comparisonOperators : List String :=
  ["==", "!=", "<", ">", "<=", ">="]

/-- Methods that give the number of elements. -/
def lengthMethods : List String :=
  ["length", "size", "count"]

/-- Methods that compare with nothing. -/
def emptinessMethods : List String :=
  ["nil?", "zero?", "empty?"]

/-- Methods that add an element to an array. -/
def appendMethods : List String :=
  ["push", "append"]

/-- Methods that send value to an address. -/
def transferMethods : List String :=
  ["transfer", "send"]

/-- Names that stand for the message, block and transaction being executed. -/
def globalScopes : List String :=
  ["msg", "block", "tx"]

def globalMembers : Table StaticType :=
  [("msg.sender", .address), ("msg.value", .uint256), ("tx.origin", .address),
   ("tx.gasprice", .uint256), ("block.timestamp", .uint256), ("block.number", .uint256),
   ("block.coinbase", .address), ("block.chainid", .uint256)]

/-- The global member that a node reads, such as `msg.sender`. A local variable hides the
global scope of its name. -/
def globalMember? (context : Context) (node : Node) : Except Malformed (Option String) := do
  if node.kind != .methodCall || !node.callArgs.isEmpty then return none
  let receiver ← node.childAt 0
  match receiver.kind, receiver.payload with
  | .identifier, .text scope =>
    if globalScopes.contains scope && (context.local? (.text scope)).isNone then
      return some s!"{scope}.{node.payload.spliced}"
    else return none
  | _, _ => return none

/-! ### Types that nodes have on their own -/

/-- The literal that stands behind a default, unless it has no counterpart. -/
def Node.defaultLiteral? (node : Node) : Option Payload :=
  match node.kind, node.payload with
  | .literal, .absent | .literal, .real _ => none
  | .literal, payload => some payload
  | _, _ => none

/-- The type of a node by its own shape, without regard to the names in sight. -/
def intrinsicType (context : Context) (node : Node) : Except Malformed (Option StaticType) := do
  let enums := context.contract.enums
  match node.kind with
  | .literal | .array | .hash | .symbol => node.literalType enums
  | .unary =>
    if node.payload.isText "!" then return some .bool
    else return some ((← node.literalType enums).getD .uint256)
  | .selfRef => return some .address
  | .methodCall =>
    match ← globalMember? context node with
    | some member => return globalMembers.get? member
    | none =>
      if node.payload.isOneOf emptinessMethods then return some .bool
      else if node.payload.isOneOf lengthMethods then return some .uint256
      else return none
  | .identifier => return some (Name.suggestedType (← node.textPayload))
  | .binary =>
    let fallback ← node.childAt 1
    match node.payload.isText "||", fallback.kind, fallback.payload with
    | true, .literal, .boolean _ => return some .bool
    | true, .literal, payload => return payload.literalType
    | _, _, _ =>
      if node.payload.isOneOf ("&&" :: "||" :: comparisonOperators) then return some .bool
      else return some .uint256
  | _ => return none

/-! ### Types in a context -/

/-- A literal as it is written, unless it has no counterpart. -/
def Payload.literalText? : Payload → Option String
  | absent | real _ => none
  | integer value => some (toString value)
  | text value => some (Name.quote value)
  | boolean true => some "true"
  | boolean false => some "false"

/-- Whether a literal is what a variable of the type starts with. Without a type, that of the
literal counts. -/
def Payload.isZeroOf (payload : Payload) (type : Option StaticType) : Bool :=
  match (type.or payload.literalType).bind StaticType.zeroValue? with
  | some zero => payload.literalText? == some zero
  | none => false

/-- The type of a call to a method of the contract, if it is one. -/
def methodType? (context : Context) (name : Payload) : Option (Option StaticType) :=
  match name with
  | .text name =>
    if context.contract.methods.has name then some (context.contract.returnTypes.get? name)
    else none
  | _ => none

/-- The type of a bare name: that of the local variable, the method or the field it stands
for. -/
def nameType (context : Context) (name : Payload) : Except Malformed (Option StaticType) := do
  match context.local? name, methodType? context name, context.fieldType? name with
  | some found, _, _ => return found.type
  | none, some type, _ => return type
  | none, none, some type => return some type
  | none, none, none => return some (Name.suggestedType (← name.asText))

def callType (context : Context) (name : Payload) : Option StaticType :=
  match methodType? context name with
  | some type => type
  | none =>
    if name.isText "address" then some .address
    else if name.isOneOf ["keccak256", "sha256"] then some .bytes32
    else none

/-- The type of a method call that does not create a contract. -/
def methodCallType (context : Context) (node receiver : Node) :
    Except Malformed (Option StaticType) :=
  match receiver.kind == .selfRef, methodType? context node.payload with
  | true, some type => return type
  | _, _ =>
    if node.payload.isOneOf (appendMethods ++ transferMethods) then return none
    else intrinsicType context node

def inferType (context : Context) : Node → Except Malformed (Option StaticType)
  | ⟨.identifier, name, _, _, _⟩ => nameType context name
  | ⟨.ivar, name, _, _, _⟩ =>
    return (context.contract.stateVars.named? name.safe).getD (some .uint256)
  | ⟨.index, _, _, _, base :: _⟩ => do
    return (← inferType context base).bind StaticType.contained?
  | ⟨.call, name, _, _, _⟩ => return callType context name
  | ⟨.methodCall, .text "new", _, _, ⟨.constant, .text name, _, _, _⟩ :: _⟩ =>
    return some (.elementary (Text.lastScope name))
  | ⟨.methodCall, .text "new", _, _, ⟨.constant, _, _, _, _⟩ :: _⟩ => throw .payload
  | ⟨.methodCall, name, line, column, receiver :: others⟩ =>
    methodCallType context ⟨.methodCall, name, line, column, receiver :: others⟩ receiver
  | ⟨.binary, operator, _, _, [left, right]⟩ => do
    if operator.isOneOf comparisonOperators || operator.isText "&&" then return some .bool
    if operator.isText "||" then
      match right.defaultLiteral? with
      | none => return some .bool
      | some literal =>
        let leftType ← inferType context left
        return if literal.isZeroOf leftType then leftType else some .bool
    else
      let leftType ← inferType context left
      if operator.isText "<<" then
        return if leftType.any StaticType.isArray then none else some .uint256
      if operator.isText "+" then
        if leftType == some .string then return some .string
        if (← inferType context right) == some .string then return some .string
      return if leftType.any StaticType.isInteger then leftType else some .uint256
  | ⟨.unary, .text "!", _, _, _⟩ => return some .bool
  | ⟨.unary, .text "-", _, _, _⟩ => return some .int256
  | ⟨.unary, _, _, _, operand :: _⟩ => inferType context operand
  | ⟨.ternary, _, _, _, _ :: whenTrue :: others⟩ => do
    match ← inferType context whenTrue with
    | some type => return some type
    | none => match others with
        | whenFalse :: _ => inferType context whenFalse
        | [] => throw .missingPart
  | ⟨.assignment, _, _, _, _ :: value :: _⟩ => inferType context value
  | ⟨.constant, .text name, _, _, _⟩ =>
    return context.contract.constants.get? (Text.lastScope name)
  | ⟨.array, _, _, _, []⟩ => return some .defaultArray
  | ⟨.array, _, _, _, first :: _⟩ => do return (← inferType context first).map .array
  | ⟨.interpolated, _, _, _, _⟩ => return some .string
  | ⟨.binary, _, _, _, _⟩ => throw .partCount
  | ⟨.index, _, _, _, []⟩ | ⟨.methodCall, _, _, _, []⟩ | ⟨.unary, _, _, _, []⟩
  | ⟨.ternary, _, _, _, _⟩ | ⟨.assignment, _, _, _, _⟩ => throw .missingPart
  | ⟨.constant, _, _, _, _⟩ => throw .payload
  | ⟨kind, payload, line, column, children⟩ =>
    intrinsicType context ⟨kind, payload, line, column, children⟩

/-! ### Operators that depend on types -/

/-- Whether `left || right` gives `left`, because the right side is what `left` is if it was
never set. -/
def isZeroDefault (context : Context) (operator : Payload) (left right : Node) :
    Except Malformed Bool :=
  match operator.isText "||", right.defaultLiteral? with
  | true, some literal => return literal.isZeroOf (← inferType context left)
  | _, _ => return false

/-- Whether `left << right` adds an element to an array. -/
def isArrayAppend (context : Context) (operator : Payload) (left : Node) :
    Except Malformed Bool :=
  if operator.isText "<<" then return (← inferType context left).any StaticType.isArray
  else return false

/-- Whether one of the operators stands between two expressions of which one is a text. -/
def isTextOperation (context : Context) (operators : List String) (operator : Payload)
    (left right : Node) : Except Malformed Bool := do
  if !operator.isOneOf operators then return false
  if (← inferType context left) == some .string then return true
  return (← inferType context right) == some .string

/-- What an expression is written as if that is no text: the name of a field or variable that
has none. It can be shown, but not be joined with other texts. -/
def unspelled? (context : Context) : Node → Except Malformed (Option Payload)
  | ⟨.ivar, .text _, _, _, _⟩ | ⟨.identifier, .text _, _, _, _⟩ => return none
  | ⟨.ivar, name, _, _, _⟩ => return some name
  | ⟨.identifier, name, _, _, _⟩ =>
    match context.local? name with
    | some found => return if found.name.text?.isSome then none else some found.name
    | none => return if context.hasField name then some name else none
  | ⟨.methodCall, .text _, _, _, _⟩ => return none
  | ⟨.methodCall, name, line, column, receiver :: others⟩ =>
    let node : Node := ⟨.methodCall, name, line, column, receiver :: others⟩
    let isField := receiver.kind == .selfRef && node.callArgs.isEmpty && context.hasField name
    return if isField then some name else none
  | ⟨.binary, operator, _, _, [left, right]⟩ => do
    if ← isZeroDefault context operator left right then unspelled? context left else return none
  | _ => return none

/-- Whether the texts of all expressions can be joined. -/
def checkSpelled (context : Context) (nodes : List Node) : Except Malformed Unit := do
  if (← nodes.filterMapM (unspelled? context)).isEmpty then return () else throw .unspelled

/-- How tightly a binary operator binds. -/
def operatorPrecedence : Table Int :=
  [("||", 1), ("&&", 2), ("==", 3), ("!=", 3), ("<", 4), (">", 4), ("<=", 4), (">=", 4),
   ("|", 5), ("^", 6), ("&", 7), ("<<", 8), (">>", 8), ("+", 9), ("-", 9), ("*", 10), ("/", 10),
   ("%", 10), ("**", 11)]

def assignmentPrecedence : Int := -1
def ternaryPrecedence : Int := 0
def equalityPrecedence : Int := 3
def powerPrecedence : Int := 11
def unaryPrecedence : Int := 12
def primaryPrecedence : Int := 13

/-- How tightly the text of an expression binds. -/
def precedence (context : Context) : Node → Except Malformed Int
  | ⟨.binary, operator, _, _, left :: right :: _⟩ => do
    if ← isZeroDefault context operator left right then precedence context left
    else if ← isArrayAppend context operator left then return primaryPrecedence
    else if operator.isOneOf ["==", "!="] then return equalityPrecedence
    else if ← isTextOperation context ["+"] operator left right then return primaryPrecedence
    else return (operator.text?.bind operatorPrecedence.get?).getD primaryPrecedence
  | ⟨.binary, _, _, _, _⟩ => throw .missingPart
  | ⟨.ternary, _, _, _, _⟩ => return ternaryPrecedence
  | ⟨.assignment, _, _, _, _⟩ => return assignmentPrecedence
  | ⟨.unary, _, _, _, _⟩ => return unaryPrecedence
  | ⟨.methodCall, name, _, _, _⟩ =>
    return if name.isOneOf emptinessMethods then equalityPrecedence else primaryPrecedence
  | _ => return primaryPrecedence

end ContractForge
