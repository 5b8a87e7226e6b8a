import ContractForge.Lowering.Field
import ContractForge.Lowering.Statement

/-!
# Lowering methods

A method becomes a function, the method `initialize` the constructor. Parameters
have the type of their default, of the way they are used, or the one their name
suggests. The value of the last expression is returned. A local variable that is
first assigned in a nested block and read after it is declared at the beginning.
-/

namespace ContractForge

open Lower

/-! ### Types of parameters -/

def isBareName (node : Node) (name : Payload) : Bool :=
  node.kind == .identifier && node.payload == name

def arrayMethods : List String :=
  lengthMethods ++ ["each", "each_with_index", "push", "append", "empty?"]

/-- The type of a key, given the type of what is indexed and the keys up to it. -/
def keyTypeAmong (name : Payload) : Option StaticType → List Node → Option StaticType
  | some (.mapping key value), node :: rest =>
    if isBareName node name then some key else keyTypeAmong name (some value) rest
  | _, _ => none

def keyType? (context : Context) (node : Node) (name : Payload) :
    Except Malformed (Option StaticType) := do
  let (root, keys) ← indexChain node
  return if root.kind == .ivar then keyTypeAmong name (context.fieldType? root.payload) keys
    else none

/-- What a node says about the type of a name. -/
def usageTypeAt (context : Context) (name : Payload) (node : Node) :
    Except Malformed (Option StaticType) := do
  let array : Except Malformed (Option StaticType) := do
    return some (.array (Name.suggestedElementType (← name.asText)))
  match node.kind with
  | .loop =>
    if node.payload.isOneOf ["each", "each_with_index", "for", "times"] then
      let parts ← node.loopParts
      if isBareName parts.subject name then
        if node.payload.isText "times" then return some .uint256 else return ← array
    return none
  | .methodCall =>
    if isBareName (← node.childAt 0) name then
      if node.payload.isOneOf arrayMethods then return ← array
      if node.payload.isOneOf transferMethods then return some .address
    return none
  | .index =>
    if isBareName (← node.childAt 0) name then return ← array
    keyType? context node name
  | .assignment =>
    if node.payload.isText "=" then
      let target ← node.childAt 0
      if target.kind == .ivar then
        if isBareName (← node.childAt 1) name then
          return context.fieldType? target.payload
    return none
  | _ => return none

/-- The type of a name by the first node that says something about it. -/
def usageType? (context : Context) (name : Payload) :
    List Node → Except Malformed (Option StaticType)
  | [] => return none
  | node :: rest => do
    match ← usageTypeAt context name node with
    | some type => return some type
    | none => usageType? context name rest

def parameterType (body param : Node) : Lower StaticType := do
  let name ← part param.paramName
  match param.paramDefault? with
  | some default =>
    match ← infer fun context => default.literalType context.contract.enums with
    | some type => return type
    | none => reject (.untypedDefault name.spliced) default
  | none =>
    match ← infer fun context => usageType? context name body.walk with
    | some type => return type
    | none => return Name.suggestedType (← part name.asText)

def parameterTypes (method : Node) : Lower (List (Payload × StaticType)) := do
  let body ← part method.methodBody
  (← part method.methodParams).mapM fun param => do
    let type ← parameterType body param
    return (← part param.paramName, type)

/-- The type of the parameters with a name: that of the last one. -/
def typeNamed? (types : List (Payload × StaticType)) (name : Payload) : Option StaticType :=
  (types.reverse.find? fun (other, _) => other == name).map Prod.snd

/-- The type of the parameters with a name that one of them must have. -/
def typeNamed (types : List (Payload × StaticType)) (name : Payload) :
    Except Malformed StaticType :=
  match typeNamed? types name with
  | some type => .ok type
  | none => .error .missingPart

/-! ### Returned values -/

/-- Whether an expression at the end of a method is returned: it has a value that is known to
be wanted. -/
def returnsValue (context : Context) (node : Node) : Except Malformed Bool := do
  let scope := context.contract
  let hasResult := node.payload.text?.any scope.returnTypes.has
  let typed : Except Malformed Bool := do return (← inferType context node).isSome
  match node.kind, node.payload with
  | .literal, .absent => return false
  | .literal, _ | .symbol, _ | .ivar, _ | .index, _ | .unary, _ | .ternary, _ | .selfRef, _
  | .constant, _ => typed
  | .binary, .text "<<" =>
    match ← inferType context (← node.childAt 0) with
    | none | some (.array _) => return false
    | some _ => typed
  | .binary, _ => typed
  | .identifier, name =>
    if (context.local? name).isSome || context.hasField name || hasResult then typed
    else return false
  | .call, _ => if hasResult then typed else return false
  | .methodCall, name =>
    let wanted ← if (← node.childAt 0).kind == .selfRef then pure hasResult
      else if (← globalMember? context node).isSome then pure true
      else pure (name.isOneOf (lengthMethods ++ emptinessMethods))
    if wanted then typed else return false
  | _, _ => return false

mutual

/-- Make the last statement of a method return its value. A conditional returns from each of
its branches, if it has one for every case. -/
def returning (context : Context) : Node → Except Malformed Node
  | ⟨.conditional, payload, line, column, children⟩ => do
    if children.length % 2 == 0 then return ⟨.conditional, payload, line, column, children⟩
    return ⟨.conditional, payload, line, column, ← returningBranches context children⟩
  | ⟨kind, payload, line, column, children⟩ => do
    let node : Node := ⟨kind, payload, line, column, children⟩
    if ← returnsValue context node then return ⟨.returnFrom, .absent, line, column, [node]⟩
    return node

/-- Make the bodies of a conditional return their values. -/
def returningBranches (context : Context) : List Node → Except Malformed (List Node)
  | condition :: body :: rest => do
    return condition :: (← returningBody context body) :: (← returningBranches context rest)
  | [body] => return [← returningBody context body]
  | [] => return []

/-- Make a body return the value of its last statement. -/
def returningBody (context : Context) : Node → Except Malformed Node
  | ⟨kind, payload, line, column, []⟩ => return ⟨kind, payload, line, column, []⟩
  | ⟨_, _, line, column, statements⟩ =>
    return ⟨.body, .absent, line, column, ← returningLast context statements⟩

/-- Make the last of several statements return its value. -/
def returningLast (context : Context) : List Node → Except Malformed (List Node)
  | [] => return []
  | [last] => return [← returning context last]
  | first :: rest => do return first :: (← returningLast context rest)

end

/-! ### Hoisting -/

def assignedName? (node : Node) : Except Malformed (Option Payload) := do
  if node.kind != .assignment then return none
  let target ← node.childAt 0
  return if target.kind == .identifier then some target.payload else none

/-- The names that occur in several trees. -/
def namesRead (nodes : List Node) : List Payload :=
  (nodes.flatMap Node.walk).filterMap fun node =>
    if node.kind == .identifier then some node.payload else none

/-- The names that are first assigned in a nested block and occur after it, given those that
are assigned already. -/
def hoistedAmong (assigned : List Payload) : List Node → Except Malformed (List Payload)
  | [] => return []
  | node :: rest => do
    match ← assignedName? node with
    | some name => hoistedAmong (name :: assigned) rest
    | none =>
      if node.kind == .conditional || node.kind == .loop || node.kind == .call then
        let names ← node.walk.filterMapM assignedName?
        let inner := names.filter fun name => !assigned.contains name
        let later := namesRead rest
        return inner.filter later.contains ++ (← hoistedAmong (inner ++ assigned) rest)
      else hoistedAmong assigned rest

/-! ### Functions -/

/-- A method of a class: its definition, and what bare marker lines before it say. -/
structure MethodEntry where
  name : String
  node : Node
  /-- The visibility of the section that the method stands in. -/
  visibility : Option String := none
  markers : List String := []

def visibilityWords : List String :=
  ["private", "protected", "public"]

/-- The visibility of a function: by its own markers, by its section, or by an underscore
before its name. -/
def functionVisibility (name : String) (markers : List String) (visibility : Option String) :
    String :=
  match markers.find? visibilityWords.contains, visibility.filter (· != "") with
  | some word, _ => Name.visibilityOf word
  | none, some word => Name.visibilityOf word
  | none, none => if Text.startsWith name "_" then "private" else "public"

/-- Declare the parameters of a method, given their names and types. -/
def declareParameters (method : String) (types : List (Payload × StaticType)) :
    List (Node × Payload × StaticType) → Lower (List Parameter)
  | [] => return []
  | (param, name, ownType) :: rest => do
    if param.paramDefault?.isSome then
      report (.unsupported "default parameter"
        s!"default for \"{name.spliced}\" in {method} is dropped" param.line)
    let type := (typeNamed? types name).getD ownType
    let generated ← declareLocal name (some type)
    modify fun context => context.addParameter generated
    return ⟨generated.spliced, type⟩ :: (← declareParameters method types rest)

/-- Statements that take the place of others in a body, by their place. -/
abbrev Replacements := List (Nat × List Statement)

/-- Lower the statements of a method, from the given place on. The last one returns its value
if it should. -/
def methodStatements (replacements : Replacements) (returnsLast : Bool) (place : Nat) :
    List Node → Lower (List Statement)
  | [] => return []
  | node :: rest => do
    let lowered ← match replacements.lookup place with
      | some replacement => pure replacement
      | none =>
        if rest.isEmpty && returnsLast then do
          statement (← infer fun context => returning context node)
        else statement node
    return lowered ++ (← methodStatements replacements returnsLast (place + 1) rest)

/-- The return type of a method: that of its first return. -/
def returnType (name : String) : Lower (Option StaticType) := do
  match (← get).method.returnTypes with
  | [] => return none
  | type :: others =>
    if others.any fun other => other != type then
      report (.unsupported "return type"
        s!"{name} returns values of different types; using {type.render}" none)
    if type.isMapping then reject (.returnsMapping name) none
    return some type

/-- The arguments of the parent's constructor must be texts. -/
def checkBaseArguments (scope : MethodScope) : Except Malformed Unit := do
  let _ ← (scope.baseArguments.getD []).mapM Payload.spelled

def lowerMethod (entry : MethodEntry) (replacements : Replacements) : Lower Function := do
  let isConstructor := entry.name == "initialize"
  modify fun context => (context.enterMethod entry.name).atLine entry.node.line
  let types ← parameterTypes entry.node
  let params ← part entry.node.methodParams
  let parameters ← declareParameters entry.name types (params.zip types)
  let body ← part entry.node.methodBody
  let hoisted ← part (hoistedAmong (types.map Prod.fst) body.children)
  modifyMethod fun scope => { scope with hoisted := hoisted.filterMap Payload.key? }
  let returnsLast := !isConstructor && !Text.endsWith entry.name "="
  let lowered ← methodStatements replacements returnsLast 0 body.children
  let scope := (← get).method
  if isConstructor && (← get).contract.parents.head?.any (· != "") then
    noteUnwritable fun _ => checkBaseArguments scope
  let declarations := scope.hoistedDeclarations.map fun (name, type) =>
    Statement.declareOnly type name
  let markers := entry.node.methodMarkers ++ entry.markers
  let shared : Function :=
    { name := "constructor", parameters, visibility := ""
      mutability := Name.mutabilityOf markers
      body := declarations ++ lowered
      baseArguments := scope.baseArguments.map (·.map Payload.spliced)
      line := entry.node.line }
  if isConstructor then return shared
  let name := ((← get).contract.methods.get? entry.name).getD (Name.camelCase entry.name)
  let returnType ← returnType entry.name
  if let some type := returnType then
    modifyContract fun known =>
      { known with returnTypes := known.returnTypes.put entry.name type }
  return { shared with
    name, returnType
    visibility := functionVisibility entry.name markers entry.visibility }

end ContractForge
