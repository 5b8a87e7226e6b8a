import ContractForge.Syntax.Node

/-!
# Shapes of nodes

The parts of a node by their meaning. Each kind fixes which children it has and
in which order:

* a class has its name, an optional parent and a body; a module its name and a body;
* a method has its name, its parameters, its body and any number of markers;
* a parameter has its name and an optional default;
* a call has its arguments and an optional block, a method call its receiver first;
* a block has its parameters and a body;
* a conditional has conditions and bodies in pairs, and an optional last body;
* a loop has its subject, its parameters and a body, or a condition and a body.

A tree that was not read from a text may break these rules; asking for a part
that is not there fails.
-/

namespace ContractForge

/-- How a tree breaks the rules of its kinds. -/
inductive Malformed where
  /-- A part that the kind requires is not there. -/
  | missingPart
  /-- The kind has another number of parts. -/
  | partCount
  /-- The payload is no text where a text is needed. -/
  | payload
  /-- The payload is no text and would have to be written out as one. -/
  | unspelled
  /-- The operator is not one of the language. -/
  | unknownOperator
deriving DecidableEq

/-- The text of a payload that is written out. -/
def Payload.spelled (payload : Payload) : Except Malformed String :=
  match payload.text? with
  | some value => .ok value
  | none => .error .unspelled

/-- The text of a payload that is taken apart. -/
def Payload.asText (payload : Payload) : Except Malformed String :=
  match payload.text? with
  | some value => .ok value
  | none => .error .payload

namespace Node

def childAt (node : Node) (place : Nat) : Except Malformed Node :=
  match node.children[place]? with
  | some child => .ok child
  | none => .error .missingPart

def textPayload (node : Node) : Except Malformed String :=
  node.payload.asText

def className? (node : Node) : Option Payload :=
  match node.children with
  | first :: _ =>
    if first.kind == .constant && first.payload.isGiven then some first.payload else none
  | [] => none

def classParent? (node : Node) : Option Payload :=
  match node.kind, node.children with
  | .classDef, [_, ⟨_, .absent, _, _, _⟩, _] => none
  | .classDef, [_, parent, _] => some parent.payload
  | _, _ => none

/-- The body of a class or module: its last part. -/
def classBody (node : Node) : Except Malformed Node :=
  match node.children.getLast? with
  | some body => .ok body
  | none => .error .missingPart

def methodName (node : Node) : Except Malformed Payload := do
  return (← node.childAt 0).payload

def methodParams (node : Node) : Except Malformed (List Node) := do
  return (← node.childAt 1).children

def methodBody (node : Node) : Except Malformed Node :=
  node.childAt 2

/-- The markers that stand before a method on its line. -/
def methodMarkers (node : Node) : List String :=
  (node.children.drop 3).filterMap fun marker => marker.payload.text?

def paramName (node : Node) : Except Malformed Payload := do
  return (← node.childAt 0).payload

def paramDefault? (node : Node) : Option Node :=
  node.children[1]?

def callReceiver? (node : Node) : Except Malformed (Option Node) :=
  if node.kind == .methodCall then some <$> node.childAt 0 else .ok none

def callArgs (node : Node) : List Node :=
  ((node.child? .args).map Node.children).getD []

def callBlock? (node : Node) : Option Node :=
  node.child? .block

/-- Pair up conditions with the bodies that follow them; a last part without a partner
is the body of the remaining case. -/
def pairUp : List Node → List (Node × Node) × Option Node
  | condition :: body :: rest =>
    let (branches, otherwise) := pairUp rest
    ((condition, body) :: branches, otherwise)
  | [otherwise] => ([], some otherwise)
  | [] => ([], none)

/-- The branches of a conditional and the body of its remaining case. -/
def branches (node : Node) : List (Node × Node) × Option Node :=
  pairUp node.children

structure LoopParts where
  subject : Node
  params : List Node
  body : Node

/-- The subject or condition of a loop, its parameters and its body. -/
def loopParts (node : Node) : Except Malformed LoopParts :=
  match node.children with
  | [subject, params, body] => .ok ⟨subject, params.children, body⟩
  | [condition, body] => .ok ⟨condition, [], body⟩
  | _ => .error .partCount

end Node

end ContractForge
