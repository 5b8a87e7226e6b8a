import ContractForge.Target.Type

/-!
# Statements of the generated language

Statements keep their structure until they are written out, while the
expressions inside them are finished texts.
-/

namespace ContractForge

inductive LoopHead where
  | counted (init condition update : String)
  | whileTrue (condition : String)
deriving DecidableEq, Repr

inductive Statement where
  /-- An assignment, or a declaration if a type is given. -/
  | assign (target : String) (value : Option String) (operator : String)
      (declaredType : Option String)
  /-- Conditions with their bodies in order, and the body of the remaining case. -/
  | conditional (branches : List (String × List Statement))
      (otherwise : Option (List Statement))
  /-- A loop and the statements just before it. -/
  | loop (head : LoopHead) (body before : List Statement)
  | require (condition : String) (message : Option String)
  | emit (event : String) (arguments : List String)
  | expression (text : String)
  | returnValue (value : Option String)
  | revert (message : Option String)
  | breakLoop
  | continueLoop

namespace Statement

def set (target value : String) : Statement :=
  assign target (some value) "=" none

/-- The declaration of a local variable with its first value. -/
def declare (type : StaticType) (target value : String) : Statement :=
  assign target (some value) "=" (some type.renderLocal)

/-- The declaration of a local variable without a value. -/
def declareOnly (type : StaticType) (target : String) : Statement :=
  assign target none "=" (some type.renderLocal)

end Statement

/-! ### Layout -/

/-- The blanks before a line at a nesting level; levels below zero have none. -/
def indentation (level : Int) : String :=
  String.ofList (List.replicate (4 * level.toNat) ' ')

def indented (level : Int) (text : String) : String :=
  indentation level ++ text

namespace Statement

def assignText (target : String) (value : Option String) (operator : String)
    (declaredType : Option String) : String :=
  match declaredType.filter (· != ""), value with
  | some type, none => s!"{type} {target};"
  | some type, some value => s!"{type} {target} = {value};"
  | none, some value => s!"{target} {operator} {value};"
  | none, none => s!"{target} {operator} None;"

def headText : LoopHead → String
  | .counted init condition update => s!"for ({init}; {condition}; {update}) \x7b"
  | .whileTrue condition => s!"while ({condition}) \x7b"

mutual

def render (level : Int) : Statement → List String
  | assign target value operator declaredType =>
    [indented level (assignText target value operator declaredType)]
  | conditional branches otherwise =>
    renderBranches level true branches ++ renderOtherwise level otherwise ++
      [indented level "\x7d"]
  | loop head body before =>
    renderAll level before ++ [indented level (headText head)] ++
      renderAll (level + 1) body ++ [indented level "\x7d"]
  | require condition none => [indented level s!"require({condition});"]
  | require condition (some message) => [indented level s!"require({condition}, {message});"]
  | emit event arguments =>
    [indented level s!"emit {event}({Text.commaSeparated arguments});"]
  | expression text => [indented level s!"{text};"]
  | returnValue none => [indented level "return;"]
  | returnValue (some value) => [indented level s!"return {value};"]
  | revert none => [indented level "revert();"]
  | revert (some message) => [indented level s!"revert({message});"]
  | breakLoop => [indented level "break;"]
  | continueLoop => [indented level "continue;"]

def renderAll (level : Int) : List Statement → List String
  | [] => []
  | statement :: rest => statement.render level ++ renderAll level rest

/-- The lines of the conditions and their bodies; all but the first continue the
conditional. -/
def renderBranches (level : Int) (first : Bool) : List (String × List Statement) → List String
  | [] => []
  | (condition, body) :: rest =>
    let opening := if first then s!"if ({condition}) \x7b" else s!"\x7d else if ({condition}) \x7b"
    indented level opening :: renderAll (level + 1) body ++ renderBranches level false rest

/-- The lines of the remaining case. -/
def renderOtherwise (level : Int) : Option (List Statement) → List String
  | none => []
  | some body => indented level "\x7d else \x7b" :: renderAll (level + 1) body

end

end Statement

end ContractForge
