import ContractForge.Diagnostic
import ContractForge.Lowering.Error
import ContractForge.Table
import ContractForge.Target.Contract
import ContractForge.Target.Name

/-!
# What is known while a contract is lowered

The context holds what has been declared so far: for the contract, its fields,
constants, methods and events; for the method being lowered, its local names.
Local names live in nested blocks. A block ends with the names known before it,
except for those that are read later and therefore were hoisted.
-/

namespace ContractForge

/-! ### Names -/

/-- The payload as a name that is no word of the generated language. -/
def Payload.safe : Payload → Payload
  | .text name => .text (Name.safe name)
  | other => other

namespace Table

variable {α : Type}

def named? (table : Table α Key) (name : Payload) : Option α :=
  name.key?.bind table.get?

/-- Give a name a value. A name that differs from itself would never be found again. -/
def putNamed (table : Table α Key) (name : Payload) (value : α) : Table α Key :=
  match name.key? with
  | some key => table.put key value
  | none => table

end Table

/-! ### Scopes -/

/-- What is known about the contract being lowered. -/
structure ContractScope where
  /-- The symbols of each enumeration. -/
  enums : Table (List String) := []
  constants : Table StaticType := []
  /-- The type of each field, unless nothing is known about it. -/
  stateVars : Table (Option StaticType) Key := []
  /-- The generated name of each method. -/
  methods : Table String := []
  returnTypes : Table StaticType := []
  events : Table Event := []
  /-- The contracts that the contract inherits from. -/
  parents : List String := []

/-- A local variable: its generated name, and its type unless nothing is known about it. -/
structure LocalVar where
  name : Payload
  type : Option StaticType

/-- The names in sight at a point of a method. -/
structure BlockScope where
  locals : Table LocalVar Key := []
  /-- Generated names that are taken. -/
  declared : List Key := []
  /-- Variables that hold the length of a sequence, by what the sequence is written as. -/
  lengths : Table String Key := []

/-- What is known about the method being lowered. -/
structure MethodScope where
  method : String := ""
  line : Option Int := none
  block : BlockScope := {}
  /-- What the parent's constructor is called with. -/
  baseArguments : Option (List Payload) := none
  /-- The generated names of the parameters. -/
  parameters : List Payload := []
  returnTypes : List StaticType := []
  /-- Locals that are first assigned in a nested block and read after it. -/
  hoisted : List Key := []
  hoistedDeclarations : List (String × StaticType) := []

/-- Everything that is known while a contract is lowered. -/
structure Context where
  contract : ContractScope := {}
  method : MethodScope := {}
  log : DiagnosticLog := {}
  /-- Something that was lowered joins names that are no texts, and cannot be written out. -/
  isUnwritable : Bool := false

namespace Context

def enterContract (context : Context) : Context :=
  { context with contract := {}, method := {} }

def enterMethod (context : Context) (name : String) : Context :=
  { context with method := { method := name } }

def block (context : Context) : BlockScope :=
  context.method.block

/-- Change the names in sight. -/
def withBlock (context : Context) (block : BlockScope) : Context :=
  { context with method := { context.method with block } }

/-- The local variable that a source name stands for. -/
def local? (context : Context) (name : Payload) : Option LocalVar :=
  context.block.locals.named? name

def hasField (context : Context) (name : Payload) : Bool :=
  (context.contract.stateVars.named? name.safe).isSome

def fieldType? (context : Context) (name : Payload) : Option StaticType :=
  (context.contract.stateVars.named? name.safe).join

def requiredType (context : Context) (name : Payload) : Except Malformed StaticType :=
  match context.fieldType? name with
  | some type => .ok type
  | none => .error .missingPart

def length? (context : Context) (sequence : Payload) : Option String :=
  context.block.lengths.named? sequence

/-- Whether a local variable outlives the block it is first assigned in. -/
def isHoisted (context : Context) (name : Payload) : Bool :=
  name.key?.any context.method.hoisted.contains

def enumFor? (context : Context) (symbol : String) : Option String :=
  (context.contract.enums.find? fun (_, symbols) => symbols.contains symbol).map Prod.fst

/-! ### Fresh names -/

/-- The first of the names `base`, `base2`, `base3`, … that is not taken. There are more
candidates than taken names, so one is found. -/
def firstFree (taken : String → Bool) (base : String) : (remaining counter : Nat) → String
  | 0, counter => s!"{base}{counter}"
  | remaining + 1, counter =>
    let candidate := s!"{base}{counter}"
    if taken candidate then firstFree taken base remaining (counter + 1) else candidate

/-- Whether a generated name is a local name or a field already. -/
def isTaken (context : Context) (name : Payload) : Bool :=
  name.key?.any fun key =>
    context.block.declared.contains key || context.contract.stateVars.has key

/-- Mark a generated name as taken. -/
def take (context : Context) (name : Payload) : Context :=
  context.withBlock
    { context.block with declared := name.key?.toList ++ context.block.declared }

def uniqueName (context : Context) (base : Payload) : Payload × Context :=
  let bound := context.block.declared.length + context.contract.stateVars.length
  let isTakenText (candidate : String) : Bool := context.isTaken (.text candidate)
  let name : Payload := if context.isTaken base then
      .text (firstFree isTakenText base.spliced bound 2)
    else base
  (name, context.take name)

/-- Declare a parameter or local variable. A name that hides a field or method gets an
underscore before it. In a malformed tree, a name need not be a text. -/
def declareLocal (context : Context) (name : Payload) (type : Option StaticType) :
    Payload × Context :=
  let safe := name.safe
  let hides := (context.contract.stateVars.named? safe).isSome ||
    safe.isOneOf context.contract.methods.values
  let base := if hides then .text ("_" ++ safe.spliced) else safe
  let (generated, context) := context.uniqueName base
  let locals := context.block.locals.putNamed name ⟨generated, type⟩
  (generated, context.withBlock { context.block with locals })

/-- Names for loop counters, in order of preference. -/
def indexNames : List String :=
  ["i", "j", "k", "m", "n"]

/-- Take a name for a loop counter. -/
def nextIndexName (context : Context) : Payload × Context :=
  let free := (indexNames.map Payload.text).find? fun candidate =>
    !context.isTaken candidate && (context.local? candidate).isNone
  match free with
  | some name => (name, context.take name)
  | none => context.uniqueName (.text "index")

/-- Remember the variable that holds the length of a sequence. -/
def cacheLength (context : Context) (sequence : Payload) (length : String) : Context :=
  context.withBlock
    { context.block with lengths := context.block.lengths.putNamed sequence length }

/-- Mark a local variable as one that outlives the block it is first assigned in. -/
def hoist (context : Context) (name : Payload) : Context :=
  let hoisted := name.key?.toList ++ context.method.hoisted
  { context with method := { context.method with hoisted } }

/-- Set the line of the statement being lowered. -/
def atLine (context : Context) (line : Option Int) : Context :=
  { context with method := { context.method with line } }

/-- Add a parameter of the method being lowered, by its generated name. -/
def addParameter (context : Context) (name : Payload) : Context :=
  { context with method := { context.method with
      parameters := context.method.parameters ++ [name] } }

/-! ### Blocks -/

/-- Leave a block: the names from before it, and the hoisted ones declared in it. -/
def leaveBlock (context : Context) (saved : BlockScope) : Context :=
  let restored := context.method.hoisted.foldl (fun block name =>
    match context.block.locals.get? name with
    | some found =>
      { block with
        locals := block.locals.put name found
        declared := found.name.key?.toList ++ block.declared }
    | none => block) saved
  context.withBlock restored

end Context

/-! ### Lowering steps -/

/-- A step of lowering. What was reported before a failure stays reported. -/
abbrev Lower (α : Type) := ExceptT LowerError (StateM Context) α

namespace Lower

variable {α : Type}

def report (diagnostic : Diagnostic) : Lower Unit :=
  modify fun context => { context with log := context.log.add diagnostic }

/-- The place to name for a node: its own, or the line of the statement being lowered. -/
def placeOf (context : Context) (node : Option Node) : Place :=
  match node.bind Node.line with
  | some line => .node line (node.bind Node.column)
  | none => match context.method.line with
      | some line => .statement line
      | none => .unknown

def reject (reason : Rejection) (node : Option Node) : Lower α := do
  throw (.rejected reason (placeOf (← get) node))

/-- Continue with a part of a tree, or fail because it is not there. -/
def part (result : Except Malformed α) : Lower α :=
  match result with
  | .ok value => pure value
  | .error defect => throw (.malformed defect)

def asks (question : Context → α) : Lower α := do
  return question (← get)

/-- Ask a question about the context that a malformed tree leaves without an answer. -/
def infer (question : Context → Except Malformed α) : Lower α := do
  part (question (← get))

def modifyMethod (change : MethodScope → MethodScope) : Lower Unit :=
  modify fun context => { context with method := change context.method }

def modifyContract (change : ContractScope → ContractScope) : Lower Unit :=
  modify fun context => { context with contract := change context.contract }

def declareLocal (name : Payload) (type : Option StaticType) : Lower Payload :=
  modifyGet fun context => context.declareLocal name type

def uniqueName (base : String) : Lower Payload :=
  modifyGet fun context => context.uniqueName (.text base)

/-- Take a name for a loop counter. -/
def nextIndexName : Lower Payload :=
  modifyGet fun context => context.nextIndexName

/-- Remember that something cannot be written out, if a check says so. -/
def noteUnwritable (check : Context → Except Malformed Unit) : Lower Unit :=
  modify fun context => match check context with
    | .ok _ => context
    | .error _ => { context with isUnwritable := true }

/-- Fail if something that was lowered cannot be written out. -/
def requireWritable : Lower Unit := do
  if (← get).isUnwritable then throw (.malformed .unspelled)

def inBlock (step : Lower α) : Lower α := do
  let saved ← asks Context.block
  let value ← step
  modify fun context => context.leaveBlock saved
  return value

end Lower

end ContractForge
