import ContractForge.Target.Statement

/-!
# Contracts of the generated language

A contract with its enumerations, events, state variables and functions, and how
it is written out.
-/

namespace ContractForge

structure Parameter where
  name : String
  type : StaticType
deriving DecidableEq

structure Event where
  name : String
  parameters : List Parameter := []
deriving DecidableEq

structure Enumeration where
  name : String
  members : List String := []
deriving DecidableEq

structure StateVariable where
  name : String
  type : StaticType
  visibility : String := "public"
  initializer : Option String := none
  isConstant : Bool := false
deriving DecidableEq

structure Function where
  name : String
  parameters : List Parameter := []
  visibility : String := "public"
  mutability : String := ""
  returnType : Option StaticType := none
  body : List Statement := []
  /-- Arguments that a constructor passes to the constructor of its parent. -/
  baseArguments : Option (List String) := none
  line : Option Int := none

/-- Whether a contract can be deployed or only inherited from. -/
inductive ContractKind where
  | deployable | inheritedOnly
deriving DecidableEq

structure Contract where
  name : String
  kind : ContractKind := .deployable
  parents : List String := []
  enumerations : List Enumeration := []
  events : List Event := []
  stateVariables : List StateVariable := []
  construction : Option Function := none
  functions : List Function := []

namespace Contract

def stateVariable? (contract : Contract) (name : String) : Option StateVariable :=
  contract.stateVariables.find? fun declared => declared.name == name

def function? (contract : Contract) (name : String) : Option Function :=
  contract.functions.find? fun function => function.name == name

end Contract

/-! ### Writing -/

/-- A parameter as functions declare it, with a data location if it needs one. -/
def Parameter.render (parameter : Parameter) : String :=
  s!"{parameter.type.renderLocal} {parameter.name}"

def Event.render (event : Event) : String :=
  let parameters := event.parameters.map fun parameter =>
    s!"{parameter.type.render} {parameter.name}"
  s!"event {event.name}({Text.commaSeparated parameters});"

def Enumeration.render (enumeration : Enumeration) : String :=
  s!"enum {enumeration.name} \x7b {Text.commaSeparated enumeration.members} \x7d"

def StateVariable.render (declared : StateVariable) : String :=
  let constant := if declared.isConstant then " constant" else ""
  let value := match declared.initializer with
    | some text => s!" = {text}"
    | none => ""
  s!"{declared.type.render} {declared.visibility}{constant} {declared.name}{value};"

namespace Function

def isConstructor (function : Function) : Bool :=
  function.name == "constructor"

/-- A word with a blank before it, or nothing. -/
def spacedWord (word : String) : String :=
  if word == "" then "" else " " ++ word

/-- The first line of a function, without its brace. A constructor names the parent whose
constructor it calls. -/
def header (function : Function) (parent : Option String) : String :=
  let parameters := Text.commaSeparated (function.parameters.map Parameter.render)
  if function.isConstructor then
    let base := match function.baseArguments, parent.filter (· != "") with
      | some arguments, some parent => s!" {parent}({Text.commaSeparated arguments})"
      | _, _ => ""
    let payable := if function.mutability == "payable" then " payable" else ""
    s!"constructor({parameters}){base}{payable}"
  else
    let returns := match function.returnType with
      | some type => s!" returns ({type.renderLocal})"
      | none => ""
    s!"function {function.name}({parameters}) {function.visibility}" ++
      spacedWord function.mutability ++ returns

def render (function : Function) (level : Int) (parent : Option String) : List String :=
  indented level (function.header parent ++ " \x7b") ::
    Statement.renderAll (level + 1) function.body ++ [indented level "\x7d"]

end Function

namespace Contract

/-- The first line of a contract, without its brace. -/
def header (contract : Contract) : String :=
  let start := if contract.kind == .inheritedOnly then "abstract contract " else "contract "
  let parents := if contract.parents.isEmpty then ""
    else " is " ++ Text.commaSeparated contract.parents
  start ++ contract.name ++ parents

def declarationSection (level : Int) (declarations : List String) : List (List String) :=
  if declarations.isEmpty then [] else [declarations.map (indented level)]

/-- The sections of a contract in the order in which they are written. -/
def sections (contract : Contract) (level : Int) : List (List String) :=
  declarationSection level (contract.enumerations.map Enumeration.render) ++
    declarationSection level (contract.events.map Event.render) ++
    declarationSection level (contract.stateVariables.map StateVariable.render) ++
    (contract.construction.toList.map fun function =>
      function.render level contract.parents.head?) ++
    contract.functions.map fun function => function.render level none

/-- The lines of a contract; a blank line stands between two sections. -/
def render (contract : Contract) : List String :=
  indented 0 (contract.header ++ " \x7b") ::
    [""].intercalate (contract.sections 1) ++ [indented 0 "\x7d"]

end Contract

/-! ### Files -/

/-- The first lines of a generated file: the licence and the compiler versions that can
read it. -/
def fileHeader (version : String) : String :=
  s!"// SPDX-License-Identifier: MIT\npragma solidity {version};"

/-- A generated file: its header, its imports, and its contracts, a blank line apart. -/
def renderFile (version : String) (imports : List String) (contracts : List Contract) : String :=
  let importBlock := if imports.isEmpty then [] else [Text.unlines imports]
  let blocks := [fileHeader version] ++ importBlock ++
    contracts.map fun contract => Text.unlines contract.render
  "\n\n".intercalate blocks ++ "\n"

end ContractForge
