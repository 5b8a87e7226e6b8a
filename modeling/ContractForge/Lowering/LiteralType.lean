import ContractForge.Syntax.Shape
import ContractForge.Table
import ContractForge.Target.Type

/-!
# Types of literals

Literal values have a type that can be read off the value. A text may also be
the name of a type of the source language, and then stands for its counterpart.
Nothing at all and floating-point numbers have no counterpart.
-/

namespace ContractForge

/-- The counterpart of each type of the source language. -/
def typeNames : Table (Option StaticType) :=
  [("Integer", some .uint256), ("String", some .string), ("Array", some .defaultArray),
   ("Hash", some .defaultMapping), ("Symbol", some .string), ("TrueClass", some .bool),
   ("FalseClass", some .bool), ("Boolean", some .bool), ("NilClass", none), ("Float", none)]

def textType (value : String) : Option StaticType :=
  (typeNames.get? value).getD (some .string)

def Payload.literalType : Payload → Option StaticType
  | absent | real _ => none
  | integer value => some (if value < 0 then .int256 else .uint256)
  | text value => textType value
  | boolean _ => some .bool

inductive LiteralValue where
  | scalar (payload : Payload)
  | sequence (items : List LiteralValue)
  | table (entries : List (LiteralValue × LiteralValue))

instance : Inhabited LiteralValue := ⟨.scalar .absent⟩

/-- Give a key of a table a value. A key that is there already keeps its place. -/
def LiteralValue.putEntry (key : Payload) (value : LiteralValue) :
    List (Payload × LiteralValue) → List (Payload × LiteralValue)
  | [] => [(key, value)]
  | (other, old) :: rest =>
    if other == key then (other, value) :: rest
    else (other, old) :: LiteralValue.putEntry key value rest

/-- A table with the given entries. A collection cannot be a key. -/
def LiteralValue.table? (entries : List (LiteralValue × LiteralValue)) : Option LiteralValue := do
  let scalars ← entries.mapM fun (key, value) => match key with
    | scalar payload => some (payload, value)
    | sequence _ | table _ => none
  let distinct := scalars.foldl (fun found (key, value) => putEntry key value found) []
  return table (distinct.map fun (key, value) => (scalar key, value))

/-- The type of a value. Collections have the type of their first entry. -/
def LiteralValue.literalType : LiteralValue → Option StaticType
  | scalar payload => payload.literalType
  | sequence [] => some .defaultArray
  | sequence (first :: _) => first.literalType.map .array
  | table [] => some .defaultMapping
  | table ((key, value) :: _) => do
    return .mapping (← key.literalType) (← value.literalType)

/-- The type of a symbol: the first enumeration that has it, or that of texts. -/
def symbolType (enums : Table (List String)) (symbol : Payload) : StaticType :=
  match enums.find? fun (_, members) => symbol.isOneOf members with
  | some (name, _) => .enumeration name
  | none => .string

namespace Node

/-- The type of a literal node. Other nodes have none. -/
def literalType (enums : Table (List String)) : Node → Except Malformed (Option StaticType)
  | ⟨.literal, payload, _, _, _⟩ => return payload.literalType
  | ⟨.unary, .text "-", _, _, []⟩ => throw .missingPart
  | ⟨.unary, .text "-", _, _, ⟨.literal, .integer _, _, _, _⟩ :: _⟩ => return some .int256
  | ⟨.interpolated, _, _, _, _⟩ => return some .string
  | ⟨.symbol, symbol, _, _, _⟩ => return symbolType enums symbol
  | ⟨.array, _, _, _, []⟩ => return some .defaultArray
  | ⟨.array, _, _, _, first :: _⟩ => do
    return (← first.literalType enums).map .array
  | ⟨.hash, _, _, _, []⟩ => return some .defaultMapping
  | ⟨.hash, _, _, _, ⟨_, _, _, _, [key, value]⟩ :: _⟩ => do
    let keyType ← key.literalType enums
    let valueType ← value.literalType enums
    return do return .mapping (← keyType) (← valueType)
  | ⟨.hash, _, _, _, _⟩ => throw .partCount
  | _ => return none

end Node

end ContractForge
