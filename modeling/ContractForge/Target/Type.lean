import ContractForge.Text.Digits
import ContractForge.Text.Split

/-!
# Types of the generated language

A type is elementary, an enumeration, an array or a mapping. The width of a type
in storage is read off its text, since declarations are packed after they have
been written.
-/

namespace ContractForge

inductive StaticType where
  | elementary (name : String)
  | enumeration (name : String)
  | array (element : StaticType)
  | mapping (key value : StaticType)
deriving DecidableEq, Repr

namespace StaticType

def uint256 : StaticType := elementary "uint256"
def int256 : StaticType := elementary "int256"
def string : StaticType := elementary "string"
def address : StaticType := elementary "address"
def bool : StaticType := elementary "bool"
def bytes32 : StaticType := elementary "bytes32"

/-- The type of an array about whose elements nothing is known. -/
def defaultArray : StaticType := array uint256

/-- The type of a table about whose entries nothing is known. -/
def defaultMapping : StaticType := mapping address uint256

def render : StaticType → String
  | elementary name | enumeration name => name
  | array element => s!"{element.render}[]"
  | mapping key value => s!"mapping({key.render} => {value.render})"

def name? : StaticType → Option String
  | elementary name | enumeration name => some name
  | array _ | mapping _ _ => none

def isArray : StaticType → Bool
  | array _ => true
  | _ => false

def isMapping : StaticType → Bool
  | mapping _ _ => true
  | _ => false

def isEnumeration : StaticType → Bool
  | enumeration _ => true
  | _ => false

/-- The type of an entry: the value type of a mapping, the element type of an array. -/
def contained? : StaticType → Option StaticType
  | mapping _ value => some value
  | array element => some element
  | _ => none

/-- Whether a local variable or parameter of the type needs a data location. -/
def isReference (type : StaticType) : Bool :=
  type.isArray || type.name?.any fun name => name == "string" || name == "bytes"

def isInteger (type : StaticType) : Bool :=
  type.name?.any fun name => Text.startsWith name "uint" || Text.startsWith name "int"

def renderLocal (type : StaticType) : String :=
  if type.isReference then s!"{type.render} memory" else type.render

/-- The value that a variable of the type starts with, if it can be written. -/
def zeroValue? (type : StaticType) : Option String :=
  if type.isInteger then some "0"
  else match type with
    | enumeration name => some s!"{name}(0)"
    | elementary "bool" => some "false"
    | elementary "string" => some "\"\""
    | elementary "address" => some "address(0)"
    | elementary "bytes" => some "\"\""
    | _ => none

end StaticType

/-! ### Storage widths -/

/-- What follows the name of an integer or byte type. -/
def behindTypeName (chars : List Char) : List Char :=
  let found? := ["uint", "int", "bytes"].find? (·.toList.isPrefixOf chars)
  (found?.map fun name => chars.drop name.length).getD []

/-- The width in bytes of a type, given its characters and the number behind its name. Types of
dynamic size and unknown types take a full slot, the given enumerations one byte, and other
capitalised names, which are contracts, the width of an address. -/
def widthOf (chars : List Char) (enumNames : List String) (count? : Option Nat) : Nat :=
  let text := String.ofList chars
  if chars.getLast? == some ']' || "mapping".toList.isPrefixOf chars then 32
  else if text == "string" || text == "bytes" then 32
  else if text == "bool" then 1
  else if text == "address" || text == "address payable" then 20
  else match count? with
    | some count => if "bytes".toList.isPrefixOf chars then count else count / 8
    | none =>
      if "uint".toList.isPrefixOf chars || "int".toList.isPrefixOf chars then 32
      else if enumNames.contains text then 1
      else if chars.head?.any Text.isCapital then 20
      else 32

/-- Read the width in bytes that a type takes in storage. -/
def readWidth (typeText : String) (enumNames : List String) : Except Text.DigitsError Nat :=
  let chars := Text.trimmed typeText.toList
  (Text.readDigits (behindTypeName chars)).map (widthOf chars enumNames)

/-- The width in bytes of a type, or a full slot if it cannot be read. -/
def storageWidth (typeText : String) (enumNames : List String) : Nat :=
  (readWidth typeText enumNames).toOption.getD 32

/-- Why the width of a type cannot be read. -/
def widthError? (typeText : String) (enumNames : List String) : Option Text.DigitsError :=
  match readWidth typeText enumNames with
  | .ok _ => none
  | .error error => some error

def StaticType.readWidth (type : StaticType) : Except Text.DigitsError Nat :=
  if type.isEnumeration then .ok 1 else ContractForge.readWidth type.render []

end ContractForge
