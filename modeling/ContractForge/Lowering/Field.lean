import ContractForge.Lowering.Inference

/-!
# How fields are used

Fields are not declared in the source. Before any method is lowered, all methods
are searched for what is assigned to each field, how it is indexed, and whether
it is treated as a collection. Fields that the constructor sets come first, the
others in the order in which they are found.
-/

namespace ContractForge

/-- How a field is used in the methods of a class. -/
structure FieldUsage where
  /-- The name of the field, which is a text unless the tree is malformed. -/
  label : Payload
  line : Option Int := none
  /-- The value that the constructor first sets the field to. -/
  initializer : Option Node := none
  /-- The place of that assignment among the statements of the constructor. -/
  initializerPlace : Option Nat := none
  /-- The value first assigned anywhere. -/
  firstValue : Option Node := none
  /-- The method with that assignment. -/
  firstMethod : Option Node := none
  assigned : Bool := false
  /-- The largest number of keys the field is indexed with. -/
  indexDepth : Nat := 0
  /-- The first key found at each depth. -/
  keys : List Node := []
  /-- The first value assigned under a key. -/
  indexedValue : Option Node := none
  /-- An entry is changed by a compound assignment. -/
  compoundIndexed : Bool := false
  /-- Values that are added as elements. -/
  elements : List Node := []
  /-- The field is looped over. -/
  iterated : Bool := false
  /-- The field is asked for its length. -/
  measured : Bool := false

namespace FieldUsage

/-- The name of the field as messages show it. -/
def name (usage : FieldUsage) : String :=
  usage.label.spliced

/-- The field is an array. A length alone does not say so, since texts have one too. -/
def isArray (usage : FieldUsage) : Bool :=
  usage.initializer.any (fun value => value.kind == .array) || !usage.elements.isEmpty ||
    usage.iterated || (usage.measured && 0 < usage.indexDepth)

def isMapping (usage : FieldUsage) : Bool :=
  usage.initializer.any (fun value => value.kind == .hash) ||
    (0 < usage.indexDepth && !usage.isArray)

/-- Note a key chain that the field is indexed with. -/
def withKeys (usage : FieldUsage) (keys : List Node) : FieldUsage :=
  { usage with
    indexDepth := max usage.indexDepth keys.length
    keys := usage.keys ++ keys.drop usage.keys.length }

def withAssignment (usage : FieldUsage) (plain : Bool) (value method : Node) : FieldUsage :=
  if plain && usage.firstValue.isNone then
    { usage with assigned := true, firstValue := some value, firstMethod := some method }
  else { usage with assigned := true }

/-- Note an assignment under a number of keys. -/
def withEntryAssignment (usage : FieldUsage) (plain : Bool) (depth : Nat) (value : Node) :
    FieldUsage :=
  if !plain then { usage with assigned := true, compoundIndexed := true }
  else if usage.indexedValue.isNone && usage.indexDepth ≤ depth then
    { usage with assigned := true, indexedValue := some value }
  else { usage with assigned := true }

def withCall (usage : FieldUsage) (method : Payload) (arguments : List Node) : FieldUsage :=
  if method.isOneOf appendMethods then { usage with elements := usage.elements ++ arguments }
  else if method.isOneOf ["each", "each_with_index"] then { usage with iterated := true }
  else if method.isOneOf ("empty?" :: lengthMethods) then { usage with measured := true }
  else usage

end FieldUsage

/-- An indexed expression as its root and the keys after it. -/
def indexChain : Node → Except Malformed (Node × List Node)
  | ⟨.index, _, _, _, base :: key :: _⟩ => do
    let (root, keys) ← indexChain base
    return (root, keys ++ [key])
  | ⟨.index, _, _, _, _⟩ => throw .missingPart
  | node => return (node, [])

/-- The uses of fields, one for each name, in the order in which the fields are found. -/
abbrev FieldTable := List FieldUsage

namespace FieldTable

def usage? (fields : FieldTable) (label : Payload) : Option FieldUsage :=
  fields.find? fun usage => usage.label == label

/-- Change the use of a field. A field that was not found before is found at the given line. -/
def note (fields : FieldTable) (label : Payload) (line : Option Int)
    (change : FieldUsage → FieldUsage) : FieldTable :=
  match fields with
  | [] => [change { label, line }]
  | usage :: rest =>
    if usage.label == label then change usage :: rest
    else usage :: note rest label line change

/-- Note what a node does to a field, if the other node is one. -/
def noteIfField (fields : FieldTable) (target : Node) (line : Option Int)
    (change : FieldUsage → FieldUsage) : FieldTable :=
  if target.kind == .ivar then fields.note target.payload line change else fields

/-- Note the assignments by which a constructor sets fields. -/
def noteInitializers (fields : FieldTable) (place : Nat) :
    List Node → Except Malformed FieldTable
  | [] => return fields
  | statement :: rest => do
    let isPlain := statement.kind == .assignment && statement.payload.isText "="
    let fields ← if isPlain then do
        let target ← statement.childAt 0
        let known := (fields.usage? target.payload).bind FieldUsage.initializer
        if target.kind == .ivar && known.isNone then
          let value ← statement.childAt 1
          pure (fields.noteIfField target statement.line fun usage =>
            { usage with initializer := some value, initializerPlace := some place })
        else pure fields
      else pure fields
    noteInitializers fields (place + 1) rest

def noteNode (fields : FieldTable) (method node : Node) : Except Malformed FieldTable := do
  match node.kind with
  | .ivar => return fields.noteIfField node node.line id
  | .assignment =>
    let plain := node.payload.isText "="
    match node.children with
    | [target, value] =>
      if target.kind == .index then
        let (root, keys) ← indexChain target
        return fields.noteIfField root node.line fun usage =>
          usage.withEntryAssignment plain keys.length value
      else
        return fields.noteIfField target node.line fun usage =>
          usage.withAssignment plain value method
    | _ => throw .partCount
  | .index =>
    let (root, keys) ← indexChain node
    return fields.noteIfField root node.line fun usage => usage.withKeys keys
  | .binary =>
    if node.payload.isText "<<" then
      let array ← node.childAt 0
      if array.kind == .ivar then
        let element ← node.childAt 1
        return fields.noteIfField array node.line fun usage =>
          { usage with elements := usage.elements ++ [element] }
    return fields
  | .methodCall =>
    return fields.noteIfField (← node.childAt 0) node.line fun usage =>
      usage.withCall node.payload node.callArgs
  | .loop =>
    if node.payload.isOneOf ["each", "each_with_index", "for"] then
      let parts ← node.loopParts
      return fields.noteIfField parts.subject node.line fun usage => { usage with iterated := true }
    else return fields
  | _ => return fields

end FieldTable

/-- The uses of all fields in the given methods. -/
def analyzeFields (methods : List Node) : Except Malformed FieldTable := do
  let initialized ← methods.foldlM (fun (fields : FieldTable) method => do
    if (← method.methodName).isText "initialize" then
      fields.noteInitializers 0 (← method.methodBody).children
    else return fields) []
  methods.foldlM (fun (fields : FieldTable) method => do
    (← method.methodBody).walk.foldlM (fun fields node => fields.noteNode method node) fields)
    initialized

end ContractForge
