import ContractForge.Lowering.Expression

/-!
# Lowering statements

A statement becomes a list of statements of the generated language. A bare name
that is assigned for the first time is declared. Bodies of conditionals and
loops are blocks of their own. An event is declared where it is first emitted,
with types and names taken from what it is emitted with.
-/

namespace ContractForge

open Lower

def outputCalls : List String :=
  ["puts", "p", "print", "pp"]

/-! ### Assignments -/

/-- Whether an expression is written as anything at all: a name that is not there is not. -/
def hasText (node : Node) : Lower Bool := do
  return (← infer fun context => unspelled? context node) != some .absent

/-- Declare a local variable by its first assignment. A hoisted variable is declared at the
beginning of the method, and only assigned here. -/
def declaration (node : Node) (name : Payload) (value : Node) : Lower (List Statement) := do
  if !node.payload.isText "=" then
    reject (.compoundOnUndefined node.payload.spliced name.spliced) node
  let text ← expression value
  match ← infer fun context => inferType context value with
  | none => reject (.untypedLocal name.spliced) node
  | some type =>
    let isShown ← hasText value
    let generated := (← declareLocal name type).spliced
    if (← get).isHoisted name then
      modifyMethod fun scope =>
        { scope with hoistedDeclarations := scope.hoistedDeclarations ++ [(generated, type)] }
      return [.set generated text]
    return [if isShown then .declare type generated text else .declareOnly type generated]

/-- Assign an attribute of the contract itself: through its setter, or directly. -/
def attributeAssignment (node target value : Node) : Lower (List Statement) := do
  let receiver ← part (target.childAt 0)
  if receiver.kind != .selfRef || !node.payload.isText "=" then
    reject (.attributeAssignment target.payload.spliced) node
  let name := target.payload.spliced
  let text ← expression value
  let context ← get
  match context.contract.methods.get? s!"{name}=" with
  | some setter => return [.expression (callText setter [text])]
  | none =>
    if context.hasField target.payload then return [.set target.payload.safe.spliced text]
    reject (.unknownAttribute name) node

/-- Whether a node is a bare name that is not a local variable yet. -/
def isNewLocal (context : Context) (node : Node) : Bool :=
  node.kind == .identifier && (context.local? node.payload).isNone

def assignment (node target value : Node) : Lower (List Statement) := do
  if node.payload.isText "||=" then reject .conditionalAssignment node
  if isNewLocal (← get) target then declaration node target.payload value
  else if target.kind == .methodCall then attributeAssignment node target value
  else
    let text ← expression target
    if node.payload.isText "**=" then
      return [.set text s!"{text} ** {← operand value powerPrecedence true}"]
    return [.assign text (some (← expression value)) node.payload.spliced none]

/-! ### Loops -/

/-- The variable that a sequence is read from: the root of an index or call. -/
def rootName? : Node → Option Payload
  | ⟨.identifier, name, _, _, _⟩ | ⟨.ivar, name, _, _, _⟩ => some name
  | ⟨.index, _, _, _, base :: _⟩ => rootName? base
  | ⟨.methodCall, _, _, _, receiver :: _⟩ => rootName? receiver
  | _ => none

def countedLoop (index bound : String) (body before : List Statement) : Statement :=
  .loop (.counted s!"uint256 {index} = 0" s!"{index} < {bound}" s!"{index}++") body before

/-- Take the name of a loop counter: the given one, or one of the usual names. -/
def loopIndex (name : Option Payload) : Lower String := do
  match name with
  | some name => return (← declareLocal name (some .uint256)).spliced
  | none => return (← nextIndexName).spliced

def timesLoop (count : Node) (params : List Payload) (lowerBody : Lower (List Statement)) :
    Lower Statement := do
  let bound ← operand count 5 false
  inBlock do
    let index ← loopIndex params.head?
    return countedLoop index bound (← lowerBody) []

/-- The type of the elements of a sequence. Tables and texts cannot be iterated over. -/
def sequenceElement (node : Node) (type : Option StaticType) : Lower StaticType :=
  match type with
  | some (.mapping _ _) => reject .iterateMapping node
  | some (.elementary "string") => reject .iterateString node
  | some (.array element) => return element
  | _ => return .uint256

/-- The beginning of the name of the variable that holds the length of a sequence. -/
def lengthBase (subject : Node) : Except Malformed String := do
  let root ← (((rootName? subject).filter Payload.isGiven).getD (.text "items")).asText
  return Name.camelCase (Text.dropLeading '_' root) ++ "Length"

/-- A loop over the elements of an array. The length is read once before the loop, and used
wherever the body asks for it. -/
def sequenceLoop (node subject : Node) (params : List Payload)
    (lowerBody : Lower (List Statement)) : Lower Statement := do
  let sequence ← expression subject
  let element ← sequenceElement node (← infer fun context => inferType context subject)
  let length := (← uniqueName (← part (lengthBase subject))).spliced
  let written ← writtenAs subject sequence
  let before := [Statement.declare .uint256 length s!"{sequence}.length"]
  inBlock do
    modify fun context => context.cacheLength written length
    let index ← loopIndex (if node.payload.isText "each_with_index" then params[1]? else none)
    let first ← match params.head? with
      | some param => do
        let name := (← declareLocal param (some element)).spliced
        pure [Statement.declare element name s!"{sequence}[{index}]"]
      | none => pure []
    return countedLoop index length (first ++ (← lowerBody)) before

/-- A loop, given how its body is lowered. -/
def loopStatement (node subject : Node) (params : List Node)
    (lowerBody : Lower (List Statement)) : Lower Statement := do
  if node.payload.isText "while" then
    let condition ← expression subject
    return .loop (.whileTrue condition) (← inBlock lowerBody) []
  if node.payload.isText "until" then
    let condition ← negation subject
    return .loop (.whileTrue condition) (← inBlock lowerBody) []
  let names := params.map Node.payload
  if node.payload.isText "times" then timesLoop subject names lowerBody
  else sequenceLoop node subject names lowerBody

/-! ### Events -/

/-- The name of the event that the arguments of an emit refer to. -/
def eventName? (arguments : List Node) : Except Malformed (Option String) := do
  match arguments.head? with
  | some ⟨.call, name, _, _, _⟩ =>
    let name ← name.spelled
    return if name.toList.head?.any Text.isCapital then some name else none
  | some ⟨.symbol, symbol, _, _, _⟩ => return some (Name.enumMember (← symbol.asText))
  | some ⟨.constant, name, _, _, _⟩ => return some (Text.lastScope (← name.asText))
  | _ => return none

def eventValues (arguments : List Node) : List Node :=
  match arguments with
  | [] => []
  | first :: rest => if first.kind == .call then first.callArgs else rest

/-- The name of an event parameter: that of the variable or method it is read from. -/
def eventParameterName (value : Node) (index : Nat) : Except Malformed String := do
  let source ← match value.kind, value.callArgs with
    | .identifier, _ | .ivar, _ => (Text.dropLeading '_') <$> value.textPayload
    | .methodCall, [] =>
      (Text.dropTrailing fun c => c == '?' || c == '!') <$> value.textPayload
    | _, _ => pure ""
  return if source == "" then s!"arg{index}" else foreignName source

/-- Put the index behind a name until it is none of the used names. Each round makes the name
longer, so that there are at most as many rounds as used names. -/
def distinctFrom (used : List String) (index : Nat) (rounds : Nat) (name : String) : String :=
  match rounds with
  | 0 => name
  | rounds + 1 =>
    if used.contains name then distinctFrom used index rounds s!"{name}{index}" else name

/-- The parameters of an event after those that were found before. -/
def eventParameters (context : Context) (found : List Parameter) :
    List Node → Except Malformed (List Parameter)
  | [] => return found
  | value :: rest => do
    let index := found.length
    let used := found.map Parameter.name
    let name := distinctFrom used index used.length (← eventParameterName value index)
    let type := (← inferType context value).getD .uint256
    eventParameters context (found ++ [⟨name, type⟩]) rest

/-- Declare an event, unless it is declared already. -/
def registerEvent (node : Node) (name : String) (values : List Node) : Lower Unit := do
  match (← get).contract.events.get? name with
  | some event =>
    let declared := event.parameters.length
    if declared != values.length then
      let detail := s!"{name} emitted with {values.length} arguments, declared with {declared}"
      report (.unsupported "event" detail node.line)
  | none =>
    let parameters ← infer fun context => eventParameters context [] values
    modifyContract fun scope =>
      { scope with events := scope.events.put name ⟨name, parameters⟩ }

def emitStatement (node : Node) (parts : List Node) : Lower Statement := do
  if parts.isEmpty then reject .emitWithoutEvent node
  match ← part (eventName? parts) with
  | none => reject .emitWithoutName node
  | some name =>
    let values := eventValues parts
    let texts ← arguments values
    registerEvent node name values
    noteUnwritable fun context => checkSpelled context values
    return .emit name texts

/-! ### Checks and failures -/

/-- The text of a message; a symbol stands for its name. -/
def messageText (node : Node) : Lower String := do
  if node.kind == .symbol then return Name.quote (← part node.textPayload)
  expression node

def requireStatement (node : Node) (parts : List Node) : Lower Statement := do
  match parts with
  | [condition] => return .require (← expression condition) none
  | [condition, message] =>
    let checked ← expression condition
    let text ← messageText message
    return .require checked (if ← hasText message then some text else none)
  | _ => reject .requireArity node

/-- A failure with a message, unless that says nothing. -/
def revertWith (message : Node) : Lower Statement := do
  let text ← messageText message
  let said := (← infer fun context => unspelled? context message).all Payload.isGiven
  return .revert (if said then some text else none)

/-- A failure, with the message or the name of the error. -/
def revertStatement (parts : List Node) : Lower Statement := do
  match parts with
  | [] => return .revert none
  | first :: rest =>
    if first.kind != .constant then return ← revertWith first
    match rest with
    | message :: _ => revertWith message
    | [] => return .revert (Name.quote (Text.lastScope (← part first.textPayload)))

/-! ### Other statements -/

/-- An expression as a statement. In a constructor, the parent's constructor gets the
parameters. -/
def expressionStatement (node : Node) : Lower (List Statement) := do
  let context ← get
  if node.kind == .identifier && node.payload.isText "super" &&
      (context.local? node.payload).isNone && context.method.method == "initialize" then
    modifyMethod fun scope => { scope with baseArguments := some scope.parameters }
    return []
  return [.expression (← expression node)]

/-- A return. The types of returned values are remembered. -/
def returnStatement (value : Option Node) : Lower Statement := do
  match value with
  | none => return .returnValue none
  | some value =>
    let text ← expression value
    if let some type ← infer fun context => inferType context value then
      modifyMethod fun scope => { scope with returnTypes := scope.returnTypes ++ [type] }
    return .returnValue (if ← hasText value then some text else none)

/-- A call as a statement, given how the block of an endless loop is lowered. -/
def callStatement (node : Node) (lowerLoop : Lower (Option (List Statement))) :
    Lower (List Statement) := do
  let name := node.payload
  let parts := node.callArgs
  if name.isText "require" then return [← requireStatement node parts]
  else if name.isText "emit" then return [← emitStatement node parts]
  else if name.isText "raise" then return [← revertStatement parts]
  else if name.isOneOf outputCalls then
    report (.statementSkipped name.spliced "console output" node.line)
    return []
  else if name.isText "loop" && node.callBlock?.isSome then
    return [.loop (.whileTrue "true") ((← lowerLoop).getD []) []]
  else if name.isText "super" && (← get).method.method == "initialize" then
    let texts ← arguments parts
    let baseArguments ← (parts.zip texts).mapM fun (part, text) => writtenAs part text
    modifyMethod fun scope => { scope with baseArguments := some baseArguments }
    return []
  else expressionStatement node

/-- Remember the line of the statement being lowered. -/
def noteLine (line : Option Int) : Lower Unit := do
  if line.isSome then modify fun context => context.atLine line

mutual

def statement : Node → Lower (List Statement)
  | ⟨kind, payload, line, column, children⟩ => do
    let node : Node := ⟨kind, payload, line, column, children⟩
    noteLine line
    match kind with
    | .assignment => match children with
        | [target, value] => assignment node target value
        | _ => throw (.malformed .partCount)
    | .conditional =>
      let (branches, otherwise) ← conditionals (payload.isText "unless") children
      return [.conditional branches otherwise]
    | .loop => match children with
        | [subject, params, ⟨_, _, _, _, body⟩] =>
          return [← loopStatement node subject params.children (statements body)]
        | [subject, ⟨_, _, _, _, body⟩] =>
          return [← loopStatement node subject [] (statements body)]
        | _ => throw (.malformed .partCount)
    | .returnFrom => return [← returnStatement children.head?]
    | .breakLoop => return [.breakLoop]
    | .nextLoop => return [.continueLoop]
    | .call => callStatement node (loopBlock children)
    | .body => statements children
    | .classDef | .moduleDef | .methodDef | .marker | .inclusion | .accessor | .importFile =>
      report (.statementSkipped kind.name "not allowed inside a method body" line)
      return []
    | .program | .params | .param | .args | .block | .blockParams | .pair =>
      reject (.notStatement kind) node
    | _ => expressionStatement node

def statements : List Node → Lower (List Statement)
  | [] => return []
  | node :: rest => do
    let first ← statement node
    return first ++ (← statements rest)

/-- Lower the parts of a conditional: conditions with their bodies, and the body of the
remaining case. The first condition may be negated. -/
def conditionals (negated : Bool) :
    List Node → Lower (List (String × List Statement) × Option (List Statement))
  | condition :: ⟨_, _, _, _, body⟩ :: rest => do
    let text ← if negated then negation condition else expression condition
    let lowered ← inBlock (statements body)
    let (branches, otherwise) ← conditionals false rest
    return ((text, lowered) :: branches, otherwise)
  | [⟨_, _, _, _, body⟩] => return ([], some (← inBlock (statements body)))
  | [] => return ([], none)

/-- Lower the block among the parts of a call, if there is one. -/
def loopBlock : List Node → Lower (Option (List Statement))
  | [] => return none
  | ⟨.block, _, _, _, [_, ⟨_, _, _, _, body⟩]⟩ :: _ => return some (← inBlock (statements body))
  | ⟨.block, _, _, _, _⟩ :: _ => throw (.malformed .partCount)
  | _ :: rest => loopBlock rest

end

end ContractForge
