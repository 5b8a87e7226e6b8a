import ContractForge.Lowering.Function

/-!
# Lowering classes

A class becomes a contract, a module one that can only be inherited from. The
body is read once for its declarations. Then the fields are typed from the way
they are used, and the methods are lowered, each after those it calls, so that
the types of calls are known.
-/

namespace ContractForge

open Lower

/-! ### Reading the body -/

/-- A method definition in a class body, and what bare marker lines before it say. -/
structure MethodMember where
  node : Node
  visibility : Option String
  markers : List String

/-- What the body of a class declares, and the markers that are still in effect. -/
structure ClassMembers where
  contract : Contract
  methods : List MethodMember := []
  /-- Fields that are declared readable, if there is any such declaration. -/
  readers : Option (List Payload) := none
  /-- Fields that are declared writable, with the line of the declaration. -/
  writers : List (Payload × Option Int) := []
  visibility : Option String := none
  pending : List String := []

/-- Declare a constant, or an enumeration if the value is a list of symbols. -/
def declareConstant (contract : Contract) (node target value : Node) : Lower Contract := do
  let name := Text.lastScope (← part target.textPayload)
  if !node.payload.isText "=" then reject (.constantOperator name) node
  if value.kind == .array && !value.children.isEmpty &&
      value.children.all fun child => child.kind == .symbol then
    let symbols ← part (value.children.mapM Node.textPayload)
    modifyContract fun scope => { scope with enums := scope.enums.put name symbols }
    let enumeration := ⟨name, symbols.map Name.enumMember⟩
    return { contract with enumerations := contract.enumerations ++ [enumeration] }
  if value.kind == .array || value.kind == .hash then reject (.constantCollection name) node
  match ← infer fun context => inferType context value with
  | none => reject (.untypedConstant name) node
  | some type =>
    let text ← expression value
    modifyContract fun scope => { scope with constants := scope.constants.put name type }
    let initializer := if ← hasText value then some text else none
    let declared : StateVariable := { name, type, initializer, isConstant := true }
    return { contract with stateVariables := contract.stateVariables ++ [declared] }

def addParent (contract : Contract) (name : String) : Contract :=
  if contract.parents.contains name then contract
  else { contract with parents := contract.parents ++ [name] }

/-- Note the fields that an accessor declaration names. -/
def declareAccessors (members : ClassMembers) (node : Node) : ClassMembers :=
  let fields := node.children.map Node.payload
  let members := if node.payload.isOneOf ["attr_reader", "attr_accessor"] then
      { members with readers := some (members.readers.getD [] ++ fields) }
    else members
  if node.payload.isOneOf ["attr_writer", "attr_accessor"] then
    { members with writers := members.writers ++ fields.map fun field => (field, node.line) }
  else members

/-- Note a bare marker: a visibility holds for the rest of the body, other markers for the next
method. -/
def noteMarker (members : ClassMembers) (marker : Payload) : ClassMembers :=
  match marker.text? with
  | none => members
  | some marker =>
    if visibilityWords.contains marker then { members with visibility := some marker }
    else { members with pending := members.pending ++ [marker] }

def readMember (members : ClassMembers) (node : Node) : Lower ClassMembers := do
  let skip (construct detail : String) : Lower ClassMembers := do
    report (.statementSkipped construct detail node.line)
    return members
  match node.kind with
  | .methodDef =>
    let member : MethodMember := ⟨node, members.visibility, members.pending⟩
    return { members with methods := members.methods ++ [member], pending := [] }
  | .marker => return noteMarker members node.payload
  | .inclusion =>
    let mixin ← part (do (← node.childAt 0).textPayload)
    return { members with contract := addParent members.contract (Text.lastScope mixin) }
  | .accessor => return declareAccessors members node
  | .assignment =>
    let target ← part (node.childAt 0)
    if target.kind != .constant then skip node.kind.name "not allowed in a class body"
    else match node.children with
      | [_, value] =>
        return { members with
          contract := ← declareConstant members.contract node target value }
      | _ => throw (.malformed .partCount)
  | .classDef | .moduleDef => skip s!"nested {node.kind.name}" "declare it at top level"
  | kind => skip kind.name "not allowed in a class body"

def namedMethods (members : List MethodMember) : Except Malformed (List MethodEntry) := do
  let names ← members.mapM fun member => member.node.methodName
  (names.zip members).mapM fun (name, member) => do
    return { name := ← name.spelled, node := member.node
             visibility := member.visibility, markers := member.markers }

/-- Keep the last definition of each method. -/
def dropRedefined : List MethodEntry → Lower (List MethodEntry)
  | [] => return []
  | entry :: rest => do
    if rest.any fun later => later.name == entry.name then
      report (.statementSkipped s!"method {entry.name}" "redefined later in the class"
        entry.node.line)
      dropRedefined rest
    else return entry :: (← dropRedefined rest)

/-! ### Typing fields -/

/-- Reject values that a field cannot start with. -/
def checkInitializer (usage : FieldUsage) : Lower Unit := do
  match usage.initializer with
  | none => return ()
  | some value =>
    match value.kind, value.payload with
    | .literal, .absent => reject (.fieldNil usage.name) value
    | .literal, .real _ => reject (.fieldFloat usage.name) value
    | .hash, _ => if !value.children.isEmpty then reject (.fieldHash usage.name) value
    | .interpolated, _ => reject .interpolation value
    | _, _ => return ()

def valueType? (value : Node) : Lower (Option StaticType) := do
  match value.kind, value.payload with
  | .ivar, name => return (← get).fieldType? name
  | .literal, .absent | .literal, .real _ => return none
  | _, _ => infer fun context => inferType context value

/-- The type of a value that is assigned in a method; the method's parameters have the types
they are declared with. -/
def assignedType? (value : Node) (method : Option Node) : Lower (Option StaticType) := do
  match value.kind, method with
  | .identifier, some method =>
    let names ← part (do (← method.methodParams).mapM Node.paramName)
    if names.contains value.payload then
      return some (← part (typeNamed (← parameterTypes method) value.payload))
    else valueType? value
  | _, _ => valueType? value

def tableKeyType (context : Context) (key : Option Node) : Except Malformed StaticType := do
  match key with
  | none => return .address
  | some key =>
    match ← intrinsicType context key with
    | none | some (.array _) | some (.mapping _ _) => return .address
    | some type => return type

/-- The type of a table: one level for each key, the innermost with the values. -/
def nestedMapping (context : Context) (value : StaticType) (keys : List Node) :
    Nat → Except Malformed StaticType
  | 0 => return value
  | remaining + 1 => do
    let inner ← nestedMapping context value keys.tail remaining
    return .mapping (← tableKeyType context keys.head?) inner

def tableValue (usage : FieldUsage) : Lower StaticType := do
  match usage.indexedValue, usage.compoundIndexed with
  | some value, false =>
    match ← assignedType? value none with
    | none | some (.mapping _ _) => return .uint256
    | some type => return type
  | _, _ => return .uint256

def tableType (usage : FieldUsage) : Lower StaticType := do
  let value ← tableValue usage
  let type ← infer fun context =>
    nestedMapping context value usage.keys (max usage.indexDepth 1)
  if !usage.assigned && usage.initializer.isNone then
    report (.undeclaredField usage.name type.render usage.line)
  return type

/-- The first type that the elements of an array show. -/
def elementTypeAmong (method : Option Node) : List Node → Lower (Option StaticType)
  | [] => return none
  | value :: rest => do
    match ← assignedType? value method with
    | some type => return some type
    | none => elementTypeAmong method rest

def arrayType (usage : FieldUsage) : Lower StaticType := do
  match usage.initializer.filter (fun value => value.kind == .array), usage.initializer with
  | some ⟨_, _, _, _, first :: _⟩, value =>
    match ← infer fun context => first.literalType context.contract.enums with
    | some type => return .array type
    | none => reject (.untypedElements usage.name) value
  | _, _ =>
    match ← elementTypeAmong usage.firstMethod usage.elements with
    | some type => return .array type
    | none => return .array (Name.suggestedElementType (← part usage.label.asText))

def fieldType (usage : FieldUsage) : Lower StaticType := do
  if usage.isMapping then tableType usage
  else if usage.isArray then arrayType usage
  else match usage.initializer, usage.firstValue with
    | some value, _ => return (← assignedType? value none).getD .uint256
    | none, some value => return (← assignedType? value usage.firstMethod).getD .uint256
    | none, none =>
      if usage.assigned then return Name.suggestedType (← part usage.label.asText)
      report (.undeclaredField usage.name StaticType.uint256.render usage.line)
      return .uint256

/-- Whether a field is set to a parameter of the constructor and used as a plain value. -/
def isDeferred (params : List Payload) (usage : FieldUsage) : Bool :=
  usage.initializer.any (fun value =>
    value.kind == .identifier && params.contains value.payload) &&
    !usage.isArray && !usage.isMapping

def registerField (label : Payload) (type : StaticType) : Lower Unit :=
  modifyContract fun scope =>
    { scope with stateVars := scope.stateVars.putNamed label.safe (some type) }

/-- Type all fields. Those that are set to parameters of the constructor come last, so that the
parameters can get their types from other fields. -/
def typeFields (fields : FieldTable) (construction : Option Node) : Lower Unit := do
  let params ← match construction with
    | some method => part (do (← method.methodParams).mapM Node.paramName)
    | none => pure []
  for usage in fields do
    checkInitializer usage
    if !isDeferred params usage then registerField usage.label (← fieldType usage)
  let deferred := fields.filter (isDeferred params)
  match construction, deferred with
  | some method, _ :: _ =>
    let types ← parameterTypes method
    for usage in deferred do
      let source := (usage.initializer.map Node.payload).getD .absent
      registerField usage.label (← part (typeNamed types source))
  | _, _ => return ()

/-! ### State variables -/

/-- Whether a value can stand in the declaration of a state variable. -/
def isInlineLiteral (value : Node) : Except Malformed Bool := do
  match value.kind with
  | .literal | .symbol => return true
  | .unary =>
    if value.payload.isText "-" then return (← value.childAt 0).kind == .literal
    return false
  | _ => return false

/-- The visibility of a field. Once some fields are declared readable, the others are not. -/
def fieldVisibility (readers : Option (List Payload)) (name : String) : String :=
  if Text.startsWith name "_" then "private"
  else match readers with
    | some names => if names.contains (.text name) then "public" else "internal"
    | none => "public"

/-- Declare a field. Its first value stands in the declaration if it can, an array is filled
element by element, and an empty collection needs no statement; the statements that take the
place of the first assignment are given back. -/
def declareField (readers : Option (List Payload)) (usage : FieldUsage) :
    Lower (StateVariable × Option (List Statement)) := do
  let label ← part usage.label.asText
  let name := Name.safe label
  let type ← infer fun context => context.requiredType usage.label
  let declared : StateVariable :=
    { name, type, visibility := fieldVisibility readers label }
  match usage.initializer with
  | none => return (declared, none)
  | some value =>
    if value.kind == .array then
      let texts ← expressions value.children
      return (declared, some (texts.map fun text => .expression s!"{name}.push({text})"))
    if value.kind == .hash then return (declared, some [])
    if ← part (isInlineLiteral value) then
      return ({ declared with initializer := some (← expression value) }, some [])
    return (declared, none)

def declareFields (readers : Option (List Payload)) :
    List FieldUsage → Lower (List StateVariable × Replacements)
  | [] => return ([], [])
  | usage :: rest => do
    let (declared, replacement) ← declareField readers usage
    let (others, replacements) ← declareFields readers rest
    let own := match usage.initializerPlace, replacement with
      | some place, some statements => [(place, statements)]
      | _, _ => []
    return (declared :: others, own ++ replacements)

/-- The setter of a writable field, unless the class defines one. -/
def fieldSetter (field : String) (line : Option Int) : Lower (Option Function) := do
  if (← get).contract.methods.has s!"{field}=" then return none
  let name := Name.safe field
  let type ← infer fun context => context.requiredType (.text field)
  if type.isMapping then
    report (.unsupported "attr_writer" s!"mapping @{field} has no setter" line)
    return none
  let parameter : Parameter := ⟨"_" ++ Name.camelCase (Text.dropLeading '_' field), type⟩
  return some
    { name := Name.camelCase s!"{field}=", parameters := [parameter]
      body := [.set name parameter.name], line }

/-! ### Order of methods -/

def calledName? (node : Node) : Except Malformed (Option String) := do
  match node.kind with
  | .call | .identifier => return node.payload.text?
  | .methodCall =>
    return if (← node.childAt 0).kind == .selfRef then node.payload.text? else none
  | _ => return none

/-- The methods that a method may call, in the order of its body. -/
def callees (methods : List MethodEntry) (entry : MethodEntry) :
    Except Malformed (List MethodEntry) := do
  let names ← (← entry.node.methodBody).walk.filterMapM calledName?
  return names.filterMap fun name =>
    methods.find? fun candidate => candidate.name == name && name != "initialize"

/-- Put a method behind its callees, unless it is in the order or on the way already. The depth
is bounded by the number of methods, since the way never holds a method twice. -/
def placeMethod (methods : List MethodEntry) (way : List String) (order : List MethodEntry)
    (entry : MethodEntry) : Nat → Except Malformed (List MethodEntry)
  | 0 => return order
  | depth + 1 => do
    if order.any (fun placed => placed.name == entry.name) || way.contains entry.name then
      return order
    let called ← callees methods entry
    let placed ← called.foldlM (fun order callee =>
      placeMethod methods (entry.name :: way) order callee depth) order
    return placed ++ [entry]

/-- The methods in an order in which callees come before callers. -/
def buildOrder (methods : List MethodEntry) : Except Malformed (List MethodEntry) :=
  methods.foldlM (fun order entry =>
    placeMethod methods [] order entry (methods.length + 1)) []

/-- The events in the order in which they are first emitted in the source. -/
def orderedEvents (events : Table Event) (methods : List MethodEntry) :
    Except Malformed (List Event) := do
  let bodies ← methods.mapM fun entry => entry.node.methodBody
  let emits := (bodies.flatMap fun body => body.findNodes .call).filter fun node =>
    node.payload.isText "emit"
  let names := (← emits.filterMapM fun node => eventName? node.callArgs).eraseDups
  let others : Table Event := events.filter fun (name, _) => !names.contains name
  return names.filterMap events.get? ++ others.values

/-! ### Contracts -/

/-- Names in alphabetical order. Texts cannot be ordered among other names, nor can names that
are not there. -/
def sortedNames (names : List Payload) : Except Malformed (List Payload) :=
  let isNumber : Payload → Bool
    | .integer _ | .real _ | .boolean _ => true
    | .absent | .text _ => false
  let distinct := names.eraseDups
  if distinct.length ≤ 1 || distinct.all isNumber then return distinct
  else return ((← distinct.mapM Payload.spelled).mergeSort fun left right => left ≤ right).map .text

/-- Add the accessors' fields that no method uses. -/
def withAccessorFields (fields : FieldTable) (members : ClassMembers) (line : Option Int) :
    Except Malformed FieldTable := do
  let add (fields : FieldTable) (usage : FieldUsage) : FieldTable :=
    if (fields.usage? usage.label).isSome then fields else fields ++ [usage]
  let written := members.writers.foldl (fun (fields : FieldTable) (label, line) =>
    add fields { label, line, assigned := true }) fields
  let readable ← sortedNames (members.readers.getD [])
  return readable.foldl (fun (fields : FieldTable) label => add fields { label, line }) written

/-- Lower the methods of a class in the order of their calls. -/
def lowerMethods (replacements : Replacements) :
    List MethodEntry → Lower (Table Function)
  | [] => return []
  | entry :: rest => do
    let own := if entry.name == "initialize" then replacements else []
    let function ← lowerMethod entry own
    return (entry.name, function) :: (← lowerMethods replacements rest)

/-- Put the lowered methods into a contract in the order of the source. -/
def placeFunctions (contract : Contract) (lowered : Table Function) :
    List MethodEntry → Lower Contract
  | [] => return contract
  | entry :: rest => do
    match lowered.get? entry.name with
    | none => throw (.malformed .missingPart)
    | some function =>
      if function.isConstructor then
        if function.baseArguments.isSome && contract.parents.isEmpty then
          report (.unsupported "super"
            s!"{contract.name} has no parent contract; base constructor call dropped"
            function.line)
        placeFunctions { contract with construction := some function } lowered rest
      else
        let functions := contract.functions ++ [function]
        placeFunctions { contract with functions } lowered rest

def lowerClass (node : Node) : Lower Contract := do
  let some path := node.className? | reject .unnamedClass node
  let name := Text.lastScope (← part path.asText)
  modify fun context => context.enterContract.atLine node.line
  let parents ← part (node.classParent?.toList.mapM Payload.asText)
  let empty : Contract :=
    { name
      kind := if node.kind == .moduleDef then .inheritedOnly else .deployable
      parents := parents.map Text.lastScope }
  let body ← part node.classBody
  let members ← body.children.foldlM readMember { contract := empty }
  modifyContract fun scope => { scope with parents := members.contract.parents }
  let methods ← dropRedefined (← part (namedMethods members.methods))
  for entry in methods do
    if entry.name != "initialize" then
      modifyContract fun scope =>
        { scope with methods := scope.methods.put entry.name (foreignName entry.name) }
  let used ← part (analyzeFields (methods.map MethodEntry.node))
  let fields ← part (withAccessorFields used members node.line)
  let construction := methods.find? fun entry => entry.name == "initialize"
  typeFields fields (construction.map MethodEntry.node)
  let (fieldVariables, replacements) ← declareFields members.readers fields
  let lowered ← lowerMethods replacements (← part (buildOrder methods))
  let contract ← placeFunctions members.contract lowered methods
  let setters ← members.writers.filterMapM fun (field, line) => fieldSetter field.spliced line
  let events ← part (orderedEvents (← get).contract.events methods)
  return { contract with
    stateVariables := contract.stateVariables ++ fieldVariables
    functions := contract.functions ++ setters
    events }

end ContractForge
