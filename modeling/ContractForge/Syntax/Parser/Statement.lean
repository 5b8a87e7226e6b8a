import ContractForge.Syntax.Parser.Expression

/-!
# Parsing statements and declarations

Statements end with a line or a semicolon. Classes, modules and methods are
statements too; markers such as `private` stand alone or before a method.
-/

namespace ContractForge.Parse

/-- Require that a statement ends here, unless a closing word follows. -/
def endStatement : Parse Unit := do
  if ← atAny [.newline, .mark .semicolon] then
    skipTerminators
  else if ← atAny [.endOfInput, .keyword .endKw, .keyword .elseKw, .keyword .elsifKw,
      .mark .rbrace] then
    return ()
  else
    let token ← current
    failAt token s!"Unexpected {Text.quoted token.value} after statement"

/-! ### Control flow -/

def skipThen : Parse Unit := do
  if ← atKeyword .thenKw then
    let _ ← advance

def skipDo : Parse Unit := do
  if ← atKeyword .doKw then
    let _ ← advance

def branchEnds : List TokenKind :=
  [.keyword .elsifKw, .keyword .elseKw, .keyword .endKw]

/-- A condition and the statements under it. -/
def branch (rules : Rules) : Parse (List Node) := do
  let condition ← expression rules
  skipThen
  let body ← rules.body branchEnds
  return [condition, body]

/-- A conditional after its first word. -/
def conditional (rules : Rules) (keyword : Token) : Parse Node := do
  let first ← branch rules
  let branches ← loop (fun branches => do
      if ← atKeyword .elsifKw then
        if keyword.kind == .keyword .unlessKw then
          fail "unless cannot have elsif branches"
        let _ ← advance
        let next ← branch rules
        return .again (branches ++ next)
      return .done branches)
    first
  let parts ← (do
    if ← atKeyword .elseKw then
      let _ ← advance
      let otherwise ← rules.body [.keyword .endKw]
      return branches ++ [otherwise]
    return branches)
  let _ ← expect (.keyword .endKw) s!"expected 'end' to close {keyword.value}"
  return nodeAt keyword .conditional parts (.text keyword.value)

/-- A loop with a condition, after its first word. -/
def conditionLoop (rules : Rules) (keyword : Token) : Parse Node := do
  let condition ← inLoopHead (expression rules)
  skipDo
  let body ← rules.body [.keyword .endKw]
  let _ ← expect (.keyword .endKw) s!"expected 'end' to close {keyword.value}"
  return nodeAt keyword .loop [condition, body] (.text keyword.value)

/-- The variables of a `for` loop. -/
def loopVariables : Parse (List Node) :=
  loop (fun names => do
      let name ← expect .identifier "expected loop variable"
      declare name.value
      let names := names ++ [leaf name .identifier]
      if ← atMark .comma then
        let _ ← advance
        return .again names
      return .done names)
    ([] : List Node)

/-- A loop over a sequence, after its first word. -/
def sequenceLoop (rules : Rules) (keyword : Token) : Parse Node := do
  let names ← loopVariables
  let _ ← expect (.keyword .inKw)
  let subject ← inLoopHead (expression rules)
  skipDo
  let body ← rules.body [.keyword .endKw]
  let _ ← expect (.keyword .endKw) "expected 'end' to close for"
  return nodeAt keyword .loop [subject, nodeAt keyword .blockParams names .absent, body]
    (.text "for")

def returnStatement (rules : Rules) (keyword : Token) : Parse Node := do
  if ← atExpressionEnd then
    return nodeAt keyword .returnFrom [] .absent
  let value ← expression rules
  return nodeAt keyword .returnFrom [value] .absent

/-- A statement without the conditions that may follow it. -/
def plainStatement (rules : Rules) (token : Token) : Parse Node := do
  match token.kind with
  | .keyword .ifKw | .keyword .unlessKw => do
    let _ ← advance
    conditional rules token
  | .keyword .whileKw | .keyword .untilKw => do
    let _ ← advance
    conditionLoop rules token
  | .keyword .forKw => do
    let _ ← advance
    sequenceLoop rules token
  | .keyword .returnKw => do
    let _ ← advance
    returnStatement rules token
  | .keyword .breakKw => do
    let _ ← advance
    return nodeAt token .breakLoop [] (.text "break")
  | .keyword .nextKw => do
    let _ ← advance
    return nodeAt token .nextLoop [] (.text "next")
  | _ => expressionStatement rules

/-- Conditions and loops that are written behind the statement they govern. -/
def withModifiers (rules : Rules) (token : Token) (statement : Node) : Parse Node :=
  loop (fun statement => do
      if ← atAny modifiers then
        let modifier ← advance
        let condition ← expression rules
        let body := nodeAt modifier .body [statement] .absent
        let kind := if modifier.kind == .keyword .ifKw || modifier.kind == .keyword .unlessKw
          then Kind.conditional else .loop
        return .again (nodeAt token kind [condition, body] (.text modifier.value))
      return .done statement)
    statement

def statement (rules : Rules) : Parse Node := do
  let token ← current
  if let .keyword word := token.kind then
    if let some reason := word.rejection? then
      failAt token reason
  let plain ← plainStatement rules token
  withModifiers rules token plain

/-! ### Methods -/

def parameter (rules : Rules) : Parse Node := do
  let token ← current
  if [TokenKind.mark .star, .mark .starStar, .mark .ampersand].contains token.kind then
    failAt token "Splat and block parameters are not supported"
  if token.kind == .label then
    failAt token "Keyword parameters are not supported"
  let name ← expect .identifier "expected parameter name"
  declare name.value
  if ← atMark .eq then
    let _ ← advance
    let value ← ternary rules
    return nodeAt token .param [leaf name .identifier, value] .absent
  return nodeAt token .param [leaf name .identifier] .absent

/-- Parameters in parentheses, after the opening one. -/
def parenthesizedParameters (rules : Rules) : Parse (List Node) :=
  loop (fun params => do
      if ← atMark .rparen then
        return .done params
      let param ← parameter rules
      let params := params ++ [param]
      skipNewlines
      if ← atMark .comma then
        let _ ← advance
        skipNewlines
        return .again params
      return .done params)
    ([] : List Node)

def bareParameters (rules : Rules) : Parse (List Node) :=
  loop (fun params => do
      let param ← parameter rules
      let params := params ++ [param]
      if ← atMark .comma then
        let _ ← advance
        return .again params
      return .done params)
    ([] : List Node)

def methodParameters (rules : Rules) : Parse (List Node) := do
  if ← atMark .lparen then
    let _ ← advance
    skipNewlines
    let params ← parenthesizedParameters rules
    let _ ← expect (.mark .rparen)
    return params
  if ← at? .identifier then
    return ← bareParameters rules
  return []

/-- Whether an attached `=` makes the method a setter. -/
def atSetterMark : Parse Bool := do
  return (← atAttached .eq) && (← peek 1).kind == .mark .lparen

/-- A method definition with the markers that stood before it. -/
def methodDefinition (rules : Rules) (markers : List Token) : Parse Node := do
  let keyword ← expect (.keyword .defKw)
  if ← atKeyword .selfKw then
    fail "Singleton methods (def self.x) are not supported"
  let nameToken ← current
  if nameToken.kind != .identifier && nameToken.kind != .constant then
    fail "Expected method name"
  let _ ← advance
  let name ← (do
    if ← atSetterMark then
      let _ ← advance
      return nameToken.value ++ "="
    return nameToken.value)
  inFreshScope do
    let paramsToken ← current
    let params ← methodParameters rules
    let body ← rules.body [.keyword .endKw]
    let _ ← expect (.keyword .endKw) s!"expected 'end' to close method {name}"
    let parts := [nodeAt nameToken .identifier [] (.text name),
      nodeAt paramsToken .params params .absent, body]
    return nodeAt keyword .methodDef (parts ++ markers.map fun marker => leaf marker .marker)
      .absent

/-! ### Classes and modules -/

def constantPath : Parse Node := do
  let token ← expect .constant "expected a constant name"
  let name ← loop (fun name => do
      if ← atMark .colonColon then
        let _ ← advance
        let inner ← expect .constant
        return .again (name ++ "::" ++ inner.value)
      return .done name)
    token.value
  return nodeAt token .constant [] (.text name)

/-- Words that mark a method. -/
def markerNames : List String :=
  ["private", "protected", "public", "pure", "view", "payable"]

def accessorNames : List String :=
  ["attr_reader", "attr_writer", "attr_accessor"]

/-- Words that import other files. -/
def importNames : List String :=
  ["require", "require_relative"]

def isMarker (token : Token) : Bool :=
  token.kind == .identifier && markerNames.contains token.value

/-- A marker on a line of its own, or markers before a method. The word may also be
used as an ordinary name, and then nothing is read. -/
def markers? (rules : Rules) : Parse (Option (List Node)) := do
  let state ← get
  let words := state.pending.takeWhile isMarker
  let after ← peek words.length
  if after.kind == .keyword .defKw then
    modify fun state => { state with pending := state.pending.drop words.length }
    return some [← methodDefinition rules words]
  if words.length == 1 && [TokenKind.newline, .mark .semicolon, .keyword .endKw,
      .endOfInput].contains after.kind then
    let token ← advance
    return some [leaf token .marker]
  return none

/-- Included modules, each as a node of its own. -/
def inclusions : Parse (List Node) := do
  let keyword ← advance
  loop (fun nodes => do
      let path ← constantPath
      let nodes := nodes ++ [nodeAt keyword .inclusion [path] .absent]
      if ← atMark .comma then
        let _ ← advance
        return .again nodes
      return .done nodes)
    ([] : List Node)

def accessors : Parse Node := do
  let keyword ← advance
  let symbols ← loop (fun symbols => do
      let token ← expect .symbol s!"{keyword.value} expects symbols"
      let symbols := symbols ++ [leaf token .symbol]
      if ← atMark .comma then
        let _ ← advance
        return .again symbols
      return .done symbols)
    ([] : List Node)
  return nodeAt keyword .accessor symbols (.text keyword.value)

/-- Statements up to one of the closing tokens, which stays pending. -/
def body (member : Parse (List Node)) (closers : List TokenKind) : Parse Node := do
  let start ← current
  skipTerminators
  let statements ← loop (fun statements => do
      if ← atAny closers then
        return .done statements
      if ← at? .endOfInput then
        let expected := " or ".intercalate (closers.map fun kind => Text.quoted kind.lowerName)
        fail s!"Unexpected end of input, expected {expected}"
      let next ← member
      endStatement
      return .again (statements ++ next))
    ([] : List Node)
  return nodeAt start .body statements .absent

/-- The body of a class or module, which sees no names from outside. -/
def declarationBody (rules : Rules) : Parse Node :=
  inFreshScope (rules.body [.keyword .endKw])

def classDefinition (rules : Rules) (keyword : Token) : Parse Node := do
  if ← atMark .lessLess then
    fail "Singleton class blocks (class << self) are not supported"
  if !(← at? .constant) then
    fail "Expected class name"
  let name ← constantPath
  let parent ← (do
    if ← atMark .less then
      let _ ← advance
      return [← constantPath]
    return [])
  let body ← declarationBody rules
  let _ ← expect (.keyword .endKw) "expected end of class"
  return nodeAt keyword .classDef ([name] ++ parent ++ [body]) .absent

def moduleDefinition (rules : Rules) (keyword : Token) : Parse Node := do
  if !(← at? .constant) then
    fail "Expected module name"
  let name ← constantPath
  let body ← declarationBody rules
  let _ ← expect (.keyword .endKw) "expected end of module"
  return nodeAt keyword .moduleDef [name, body] .absent

/-- A statement or declaration. Included modules give one node each. -/
def member (rules : Rules) : Parse (List Node) := do
  let token ← current
  match token.kind with
  | .keyword .classKw => do
    let _ ← advance
    return [← classDefinition rules token]
  | .keyword .moduleKw => do
    let _ ← advance
    return [← moduleDefinition rules token]
  | .keyword .defKw => return [← methodDefinition rules []]
  | .identifier => do
    if !(← isLocal token.value) then
      if markerNames.contains token.value then
        if let some nodes ← markers? rules then
          return nodes
      else if token.value == "include" && (← peek 1).kind == .constant then
        return ← inclusions
      else if accessorNames.contains token.value && (← peek 1).kind == .symbol then
        return [← accessors]
    return [← statement rules]
  | _ => return [← statement rules]

end ContractForge.Parse
