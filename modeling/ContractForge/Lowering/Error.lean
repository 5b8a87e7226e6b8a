import ContractForge.Syntax.Shape

/-!
# Why a program cannot be lowered

A program that can be read may still use what the generated language has no
counterpart for. Each reason has its own constructor; the wording stands in one
place.
-/

namespace ContractForge

/-- A reason to reject a program. -/
inductive Rejection where
  | nilValue
  | floatLiteral (shown : String)
  | interpolation
  | notExpression (kind : Kind)
  | notStatement (kind : Kind)
  | keywordArguments
  | conditionalAssignment
  | arrayLiteral
  | hashLiteral
  | blockForCall (name : String)
  | blockForMethod (name : String)
  | statementOnly (name : String)
  | conversion (name : String)
  | compoundOnUndefined (operator name : String)
  | untypedLocal (name : String)
  | attributeAssignment (name : String)
  | unknownAttribute (name : String)
  | iterateMapping
  | iterateString
  | requireArity
  | emitWithoutEvent
  | emitWithoutName
  | returnsMapping (method : String)
  | untypedDefault (parameter : String)
  | unnamedClass
  | constantOperator (name : String)
  | constantCollection (name : String)
  | untypedConstant (name : String)
  | fieldNil (name : String)
  | fieldFloat (name : String)
  | fieldHash (name : String)
  | untypedElements (name : String)
deriving DecidableEq

/-- What is said about a rejection, without its place. -/
def Rejection.summary : Rejection → String
  | nilValue => "nil has no Solidity equivalent"
  | floatLiteral shown => s!"Float literal {shown} is not supported (use integer units)"
  | interpolation => "String interpolation is not supported"
  | notExpression kind => s!"{kind.name} cannot be used as an expression"
  | notStatement kind => s!"{kind.name} cannot be used as a statement"
  | keywordArguments => "Keyword arguments are not supported"
  | conditionalAssignment => "Conditional assignment (||=) is not supported"
  | arrayLiteral => "Array literals are only supported as state variable initializers"
  | hashLiteral => "Hash literals are only supported as empty state variable initializers"
  | blockForCall name => s!"Blocks passed to {name} are not supported"
  | blockForMethod name => s!"Blocks passed to .{name} are not supported"
  | statementOnly name => s!"{name} cannot be used as an expression"
  | conversion name => s!"Conversion .{name} is not supported"
  | compoundOnUndefined operator name =>
    s!"Compound assignment ({operator}) to undefined local \"{name}\""
  | untypedLocal name => s!"Cannot infer a Solidity type for local \"{name}\""
  | attributeAssignment name => s!"Attribute assignment to .{name} is not supported"
  | unknownAttribute name => s!"Unknown attribute \"{name}\""
  | iterateMapping => "Iterating over a mapping is not supported"
  | iterateString => "Iterating over a string is not supported"
  | requireArity => "require expects a condition and an optional message"
  | emitWithoutEvent => "emit expects an event"
  | emitWithoutName => "emit expects an event name"
  | returnsMapping method => s!"Method \"{method}\" cannot return a mapping"
  | untypedDefault parameter => s!"Default value of parameter \"{parameter}\" has no Solidity type"
  | unnamedClass => "Class has no resolvable name"
  | constantOperator name => s!"Constant {name} can only be assigned with ="
  | constantCollection name => s!"Constant {name} must be a value type"
  | untypedConstant name => s!"Constant {name} has no Solidity type"
  | fieldNil name => s!"@{name} is initialized to nil, which has no Solidity equivalent"
  | fieldFloat name => s!"@{name} is initialized to a float, which is not supported"
  | fieldHash name => s!"Non-empty hash initializer for @{name} is not supported"
  | untypedElements name => s!"Elements of @{name} have no Solidity type"

/-- Where a rejection points to: a node, or the statement that was being lowered. -/
inductive Place where
  | node (line : Int) (column : Option Int)
  | statement (line : Int)
  | unknown
deriving DecidableEq

def Place.suffix : Place → String
  | node line column => s!" at {describePosition line column}"
  | statement line => s!" at line {line}"
  | unknown => ""

def Rejection.message (reason : Rejection) (place : Place) : String :=
  reason.summary ++ place.suffix

inductive LowerError where
  /-- The program uses something without a counterpart. -/
  | rejected (reason : Rejection) (place : Place)
  /-- The tree breaks the rules of its kinds. -/
  | malformed (defect : Malformed)
deriving DecidableEq

end ContractForge
