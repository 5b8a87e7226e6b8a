import ContractForge.Syntax.Parser.Program

/-!
# Roles of nodes

A tree need not be one that was read from a text, and then a node may have any
children. The trees of the language are given by a grammar of nodes: a role says
what is wanted at a place of a tree, and `Node.Fits` says which nodes can stand
there, with the roles of their children. Imports have a role of their own, which
only the parts of a program play.
-/

namespace ContractForge

open List

/-- What is wanted at a place of a tree. -/
inductive Role where
  | program
  /-- A place directly under a program: a statement or an import. -/
  | part
  | importFile | statement | body
  /-- A place that wants a value: an expression, an assignment, or an iteration written as a
  call. -/
  | operand
  | constant | identifier | symbol | marker
  | params | param
  | args | block | blockParams | pair
deriving DecidableEq

/-- The operators between two operands. -/
def binarySpellings : List String :=
  ["+", "-", "*", "/", "%", "**", "&", "|", "^", "<<", ">>", "<", ">", "<=", ">=", "==", "!=",
   "&&", "||"]

/-- The operators before an operand. -/
def unarySpellings : List String :=
  ["-", "!", "~"]

def assignmentOperators : List String :=
  ["=", "+=", "-=", "*=", "/=", "%=", "**=", "||="]

def conditionalWords : List String :=
  ["if", "unless"]

def conditionLoopWords : List String :=
  ["while", "until"]

namespace Node

/-- Whether a value can be assigned to the node. -/
def isAssignable (node : Node) : Bool :=
  match node.kind with
  | .identifier | .ivar | .index | .constant => true
  | .methodCall => node.callArgs.isEmpty
  | _ => false

/-- Which nodes can stand at a place that wants the role. -/
inductive Fits : Role → Node → Prop where
  | literal {payload : Payload} : Fits .operand ⟨.literal, payload, row, col, []⟩
  | interpolated : Fits .operand ⟨.interpolated, .text text, row, col, []⟩
  | ivar : Fits .operand ⟨.ivar, .text name, row, col, []⟩
  | selfRef : Fits .operand ⟨.selfRef, .text "self", row, col, []⟩
  | identifier (named : name ≠ "") : Fits .identifier ⟨.identifier, .text name, row, col, []⟩
  | constant (named : name ≠ "") : Fits .constant ⟨.constant, .text name, row, col, []⟩
  | symbol : Fits .symbol ⟨.symbol, .text name, row, col, []⟩
  | marker (isWord : name ∈ Parse.markerNames) : Fits .marker ⟨.marker, .text name, row, col, []⟩
  | ofIdentifier (fits : Fits .identifier node) : Fits .operand node
  | ofConstant (fits : Fits .constant node) : Fits .operand node
  | ofSymbol (fits : Fits .symbol node) : Fits .operand node
  | binary (isOperator : operator ∈ binarySpellings) (leftFits : Fits .operand left)
      (rightFits : Fits .operand right) :
      Fits .operand ⟨.binary, .text operator, row, col, [left, right]⟩
  | unary {operand : Node} (isOperator : operator ∈ unarySpellings)
      (operandFits : Fits .operand operand) :
      Fits .operand ⟨.unary, .text operator, row, col, [operand]⟩
  | ternary (conditionFits : Fits .operand condition) (whenTrueFits : Fits .operand whenTrue)
      (whenFalseFits : Fits .operand whenFalse) :
      Fits .operand ⟨.ternary, .absent, row, col, [condition, whenTrue, whenFalse]⟩
  | index (baseFits : Fits .operand base) (indexFits : Fits .operand index) :
      Fits .operand ⟨.index, .absent, row, col, [base, index]⟩
  | array (elementsFit : ∀ element ∈ elements, Fits .operand element) :
      Fits .operand ⟨.array, .absent, row, col, elements⟩
  | hash (pairsFit : ∀ pair ∈ pairs, Fits .pair pair) :
      Fits .operand ⟨.hash, .absent, row, col, pairs⟩
  | pair (keyFits : Fits .operand key) (valueFits : Fits .operand value) :
      Fits .pair ⟨.pair, .absent, row, col, [key, value]⟩
  | args (valuesFit : ∀ value ∈ values, Fits .operand value) :
      Fits .args ⟨.args, .absent, row, col, values⟩
  | blockParams (namesFit : ∀ name ∈ names, Fits .identifier name) :
      Fits .blockParams ⟨.blockParams, .absent, row, col, names⟩
  | block (paramsFit : Fits .blockParams params) (bodyFits : Fits .body body) :
      Fits .block ⟨.block, .absent, row, col, [params, body]⟩
  | call {block : Option Node} (named : name ≠ "") (argsFit : Fits .args args)
      (blockFits : ∀ node ∈ block, Fits .block node) :
      Fits .operand ⟨.call, .text name, row, col, args :: block.toList⟩
  | methodCall {block : Option Node} (named : name ≠ "") (receiverFits : Fits .operand receiver)
      (argsFit : Fits .args args) (blockFits : ∀ node ∈ block, Fits .block node) :
      Fits .operand ⟨.methodCall, .text name, row, col, receiver :: args :: block.toList⟩
  /-- A loop that is written as a call with a block. -/
  | iteration (isWord : word ∈ Parse.blockLoops) (subjectFits : Fits .operand subject)
      (paramsFit : Fits .blockParams params) (bodyFits : Fits .body body) :
      Fits .operand ⟨.loop, .text word, row, col, [subject, params, body]⟩
  | assignment (isOperator : operator ∈ assignmentOperators) (assignable : target.isAssignable)
      (targetFits : Fits .operand target) (valueFits : Fits .operand value) :
      Fits .operand ⟨.assignment, .text operator, row, col, [target, value]⟩
  | ofOperand (fits : Fits .operand node) : Fits .statement node
  | ofMarker (fits : Fits .marker node) : Fits .statement node
  /-- Conditions and bodies in pairs and an optional last body; one pair after `unless`. -/
  | conditional (isWord : word ∈ conditionalWords) (nonempty : (pairUp parts).1 ≠ [])
      (single : word = "unless" → (pairUp parts).1.length = 1)
      (conditions : ∀ branch ∈ (pairUp parts).1, Fits .operand branch.1)
      (bodies : ∀ branch ∈ (pairUp parts).1, Fits .body branch.2)
      (otherwise : ∀ body ∈ (pairUp parts).2, Fits .body body) :
      Fits .statement ⟨.conditional, .text word, row, col, parts⟩
  | conditionLoop (isWord : word ∈ conditionLoopWords) (conditionFits : Fits .operand condition)
      (bodyFits : Fits .body body) :
      Fits .statement ⟨.loop, .text word, row, col, [condition, body]⟩
  | sequenceLoop (subjectFits : Fits .operand subject) (paramsFit : Fits .blockParams params)
      (bodyFits : Fits .body body) :
      Fits .statement ⟨.loop, .text "for", row, col, [subject, params, body]⟩
  | returnNothing : Fits .statement ⟨.returnFrom, .absent, row, col, []⟩
  | returnFrom (valueFits : Fits .operand value) :
      Fits .statement ⟨.returnFrom, .absent, row, col, [value]⟩
  | breakLoop : Fits .statement ⟨.breakLoop, .text "break", row, col, []⟩
  | nextLoop : Fits .statement ⟨.nextLoop, .text "next", row, col, []⟩
  | classDef {parent : Option Node} (nameFits : Fits .constant name)
      (parentFits : ∀ node ∈ parent, Fits .constant node) (bodyFits : Fits .body body) :
      Fits .statement ⟨.classDef, .absent, row, col, name :: (parent.toList ++ [body])⟩
  | moduleDef (nameFits : Fits .constant name) (bodyFits : Fits .body body) :
      Fits .statement ⟨.moduleDef, .absent, row, col, [name, body]⟩
  | methodDef (nameFits : Fits .identifier name) (paramsFit : Fits .params params)
      (bodyFits : Fits .body body) (markersFit : ∀ marker ∈ markers, Fits .marker marker) :
      Fits .statement ⟨.methodDef, .absent, row, col, name :: params :: body :: markers⟩
  | params (paramsFit : ∀ param ∈ params, Fits .param param) :
      Fits .params ⟨.params, .absent, row, col, params⟩
  | param {default : Option Node} (nameFits : Fits .identifier name)
      (defaultFits : ∀ node ∈ default, Fits .operand node) :
      Fits .param ⟨.param, .absent, row, col, name :: default.toList⟩
  | inclusion (pathFits : Fits .constant path) :
      Fits .statement ⟨.inclusion, .absent, row, col, [path]⟩
  | accessor (isWord : word ∈ Parse.accessorNames)
      (symbolsFit : ∀ symbol ∈ symbols, Fits .symbol symbol) :
      Fits .statement ⟨.accessor, .text word, row, col, symbols⟩
  | body {statements : List Node}
      (statementsFit : ∀ statement ∈ statements, Fits .statement statement) :
      Fits .body ⟨.body, .absent, row, col, statements⟩
  | importFile (isWord : word ∈ Parse.importNames) :
      Fits .importFile ⟨.importFile, .text word, row, col,
        [⟨.literal, .text path, pathLine, pathColumn, []⟩]⟩
  | ofStatement (fits : Fits .statement node) : Fits .part node
  | ofImport (fits : Fits .importFile node) : Fits .part node
  | program (partsFit : ∀ part ∈ parts, Fits .part part) :
      Fits .program ⟨.program, .absent, row, col, parts⟩

/-! ### Children -/

variable {node : Node}

theorem mem_iff_pairUp {parts : List Node} {part : Node} :
    part ∈ parts ↔ (∃ branch ∈ (pairUp parts).1, part = branch.1 ∨ part = branch.2) ∨
      part ∈ (pairUp parts).2 := by
  fun_induction pairUp parts with
  | case1 _ _ _ _ _ split ih =>
    rw [split] at ih
    simp [ih, or_assoc]
  | case2 => simp [eq_comm]
  | case3 => simp

/-- The node has a role that is not one of the parts of a program. -/
def HasInnerRole (node : Node) : Prop :=
  ∃ role, node.Fits role ∧ role ≠ .importFile ∧ role ≠ .part

theorem Fits.inner (fits : node.Fits role)
    (isInner : role ≠ .importFile ∧ role ≠ .part) : node.HasInnerRole :=
  ⟨role, fits, isInner⟩

/-- What can stand under an optional place. -/
theorem hasInnerRole_of_option {found : Option Node}
    (fits : ∀ node ∈ found, node.Fits role) (isInner : role ≠ .importFile ∧ role ≠ .part) :
    ∀ node ∈ found.toList, node.HasInnerRole :=
  fun node mem => (fits node (Option.mem_toList.mp mem)).inner isInner

/-- The children of a node have roles; only those of a program can be imports. -/
theorem Fits.children (fits : node.Fits role) : (∀ child ∈ node.children, child.HasInnerRole) ∨
      node.kind = .program ∧ ∀ child ∈ node.children, child.Fits .part := by
  induction fits with
  | literal | interpolated | ivar | selfRef | identifier | constant | symbol | marker
  | returnNothing | breakLoop | nextLoop => exact .inl (by simp)
  | ofIdentifier _ ih | ofConstant _ ih
  | ofSymbol _ ih | ofOperand _ ih
  | ofMarker _ ih | ofStatement _ ih
  | ofImport _ ih => exact ih
  | binary _ firstFits secondFits | index firstFits secondFits | pair firstFits secondFits
  | block firstFits secondFits | assignment _ _ firstFits secondFits
  | conditionLoop _ firstFits secondFits | moduleDef firstFits secondFits =>
    exact .inl (by simp [firstFits.inner, secondFits.inner])
  | unary _ childFits | returnFrom childFits | inclusion childFits =>
    exact .inl (by simp [childFits.inner])
  | ternary firstFits secondFits thirdFits
  | iteration _ firstFits secondFits thirdFits
  | sequenceLoop firstFits secondFits thirdFits =>
    exact .inl (by simp [firstFits.inner, secondFits.inner, thirdFits.inner])
  | array childrenFit | hash childrenFit | args childrenFit | blockParams childrenFit
  | params childrenFit | accessor _ childrenFit | body childrenFit =>
    exact .inl fun child mem => (childrenFit child mem).inner (by decide)
  | call _ firstFits otherFits | param firstFits otherFits =>
    exact .inl (forall_mem_cons.mpr ⟨firstFits.inner (by decide),
      hasInnerRole_of_option otherFits (by decide)⟩)
  | methodCall _ receiverFits firstFits otherFits =>
    refine .inl (forall_mem_cons.mpr ⟨receiverFits.inner (by decide), ?_⟩)
    exact forall_mem_cons.mpr ⟨firstFits.inner (by decide),
      hasInnerRole_of_option otherFits (by decide)⟩
  | conditional _ _ _ conditions bodies otherwise =>
    refine .inl fun child mem => ?_
    obtain ⟨branch, isBranch, rfl | rfl⟩ | isLast := mem_iff_pairUp.mp mem
    · exact (conditions branch isBranch).inner (by decide)
    · exact (bodies branch isBranch).inner (by decide)
    · exact (otherwise child isLast).inner (by decide)
  | classDef nameFits parentFits bodyFits =>
    refine .inl (forall_mem_cons.mpr ⟨nameFits.inner (by decide), ?_⟩)
    exact forall_mem_append.mpr ⟨hasInnerRole_of_option parentFits (by decide),
      by simp [bodyFits.inner]⟩
  | methodDef nameFits paramsFit bodyFits markersFit =>
    refine .inl fun child mem => ?_
    obtain rfl | rfl | rfl | mem := by simpa using mem
    · exact nameFits.inner (by decide)
    · exact paramsFit.inner (by decide)
    · exact bodyFits.inner (by decide)
    · exact (markersFit child mem).inner (by decide)
  | importFile =>
    refine .inl fun child mem => ?_
    cases mem_singleton.mp mem
    exact Fits.inner .literal (by decide)
  | program partsFit => exact .inr ⟨rfl, partsFit⟩

theorem Fits.kind_ne_importFile (fits : node.Fits role)
    (isInner : role ≠ .importFile ∧ role ≠ .part) : node.kind ≠ .importFile := by
  induction fits with
  | ofIdentifier _ ih | ofConstant _ ih
  | ofSymbol _ ih | ofOperand _ ih
  | ofMarker _ ih => exact ih (by decide)
  | ofStatement | ofImport => exact absurd rfl isInner.2
  | importFile => exact absurd rfl isInner.1
  | _ => simp

/-- Imports stand directly under programs. -/
theorem Fits.program_of_import {node child : Node} (fits : node.Fits role)
    (isChild : child ∈ node.children) (isImport : child.kind = .importFile) :
    node.kind = .program := by
  obtain inner | ⟨isProgram, -⟩ := fits.children
  · obtain ⟨_, childFits, isInner⟩ := inner child isChild
    exact absurd isImport (childFits.kind_ne_importFile isInner)
  · exact isProgram

theorem exists_fits_of_mem_walkFrom (fit : ∀ node ∈ pending, ∃ role, node.Fits role) :
    ∀ node ∈ walkFrom pending, ∃ role, node.Fits role := by
  fun_induction walkFrom pending with
  | case1 => exact fit
  | case2 _ _ ih =>
    obtain ⟨⟨role, fits⟩, others⟩ := forall_mem_cons.mp fit
    refine forall_mem_cons.mpr ⟨⟨role, fits⟩, ih ?_⟩
    refine forall_mem_append.mpr ⟨fun child isChild => ?_, others⟩
    obtain inner | ⟨-, parts⟩ := fits.children
    · obtain ⟨role, childFits, -⟩ := inner child isChild
      exact ⟨role, childFits⟩
    · exact ⟨.part, parts child isChild⟩

theorem Fits.walk (fits : node.Fits role) : ∀ below ∈ node.walk, ∃ role, below.Fits role :=
  exists_fits_of_mem_walkFrom (by simpa using ⟨role, fits⟩)

/-! ### Parts -/

/-- The payload and the parts of a node, as its kind demands them. -/
def Parts (node : Node) : Prop :=
  match node.kind with
  | .literal => node.children = []
  | .interpolated | .ivar | .selfRef | .symbol | .marker | .breakLoop | .nextLoop =>
    ∃ text, node.payload = .text text
  | .identifier | .constant => ∃ name ≠ "", node.payload = .text name
  | .binary => ∃ operator ∈ binarySpellings, ∃ left right, node.payload = .text operator ∧
      node.children = [left, right] ∧ left.Fits .operand ∧ right.Fits .operand
  | .unary => ∃ operator ∈ unarySpellings, ∃ operand, node.payload = .text operator ∧
      node.children = [operand] ∧ operand.Fits .operand
  | .ternary => ∃ condition whenTrue whenFalse, node.children = [condition, whenTrue, whenFalse] ∧
      condition.Fits .operand ∧ whenTrue.Fits .operand ∧ whenFalse.Fits .operand
  | .index => ∃ base index, node.children = [base, index] ∧ base.Fits .operand ∧
      index.Fits .operand
  | .array | .args => ∀ child ∈ node.children, child.Fits .operand
  | .hash => ∀ child ∈ node.children, child.Fits .pair
  | .pair => ∃ key value, node.children = [key, value] ∧ key.Fits .operand ∧ value.Fits .operand
  | .blockParams => ∀ child ∈ node.children, child.Fits .identifier
  | .block => ∃ params body, node.children = [params, body] ∧ params.Fits .blockParams ∧
      body.Fits .body
  | .call => ∃ name ≠ "", ∃ args block, node.payload = .text name ∧
      node.children = args :: Option.toList block ∧ args.Fits .args ∧
      ∀ inner ∈ block, inner.Fits .block
  | .methodCall => ∃ name ≠ "", ∃ receiver args block, node.payload = .text name ∧
      node.children = receiver :: args :: Option.toList block ∧ receiver.Fits .operand ∧
      args.Fits .args ∧ ∀ inner ∈ block, inner.Fits .block
  | .loop => ∃ word, node.payload = .text word ∧
      ((∃ subject params body, node.children = [subject, params, body] ∧ subject.Fits .operand ∧
        params.Fits .blockParams ∧ body.Fits .body) ∨
      ∃ condition body, node.children = [condition, body] ∧ condition.Fits .operand ∧
        body.Fits .body)
  | .assignment => ∃ operator ∈ assignmentOperators, ∃ target value,
      node.payload = .text operator ∧ node.children = [target, value] ∧ target.isAssignable ∧
      target.Fits .operand ∧ value.Fits .operand
  | .conditional => ∃ word ∈ conditionalWords, node.payload = .text word ∧
      (pairUp node.children).1 ≠ [] ∧ (word = "unless" → (pairUp node.children).1.length = 1) ∧
      (∀ branch ∈ (pairUp node.children).1, branch.1.Fits .operand) ∧
      (∀ branch ∈ (pairUp node.children).1, branch.2.Fits .body) ∧
      ∀ body ∈ (pairUp node.children).2, body.Fits .body
  | .returnFrom => ∃ value, node.children = Option.toList value ∧
      ∀ inner ∈ value, inner.Fits .operand
  | .classDef => ∃ name body parent, node.children = name :: (Option.toList parent ++ [body]) ∧
      name.Fits .constant ∧ (∀ inner ∈ parent, inner.Fits .constant) ∧ body.Fits .body
  | .moduleDef => ∃ name body, node.children = [name, body] ∧ name.Fits .constant ∧
      body.Fits .body
  | .methodDef => ∃ name params body markers, node.children = name :: params :: body :: markers ∧
      name.Fits .identifier ∧ params.Fits .params ∧ body.Fits .body
  | .params => ∀ child ∈ node.children, child.Fits .param
  | .param => ∃ name default, node.children = name :: Option.toList default ∧
      name.Fits .identifier ∧ ∀ inner ∈ default, inner.Fits .operand
  | .inclusion => ∃ path, node.children = [path] ∧ path.Fits .constant
  | .accessor => ∀ child ∈ node.children, child.Fits .symbol
  | .body => ∀ child ∈ node.children, child.Fits .statement
  | .importFile => ∃ path pathLine pathColumn,
      node.children = [⟨.literal, .text path, pathLine, pathColumn, []⟩]
  | .program => ∀ child ∈ node.children, child.Fits .part

/-- A node that has a role has the parts of its kind. -/
theorem Fits.parts (fits : node.Fits role) : node.Parts := by
  induction fits with
  | ofIdentifier _ ih | ofConstant _ ih | ofSymbol _ ih | ofOperand _ ih | ofMarker _ ih
  | ofStatement _ ih | ofImport _ ih => exact ih
  | array childrenFit | hash childrenFit | args childrenFit | blockParams childrenFit
  | params childrenFit | accessor _ childrenFit | body childrenFit | program childrenFit =>
    exact childrenFit
  | literal => rfl
  | interpolated | ivar | selfRef | symbol | marker | breakLoop | nextLoop => exact ⟨_, rfl⟩
  | identifier named | constant named => exact ⟨_, named, rfl⟩
  | binary known firstFits secondFits | call known firstFits secondFits =>
    exact ⟨_, known, _, _, rfl, rfl, firstFits, secondFits⟩
  | unary isOperator operandFits => exact ⟨_, isOperator, _, rfl, rfl, operandFits⟩
  | ternary firstFits secondFits thirdFits | classDef firstFits secondFits thirdFits =>
    exact ⟨_, _, _, rfl, firstFits, secondFits, thirdFits⟩
  | index firstFits secondFits | pair firstFits secondFits | block firstFits secondFits
  | moduleDef firstFits secondFits | param firstFits secondFits =>
    exact ⟨_, _, rfl, firstFits, secondFits⟩
  | methodCall named receiverFits argsFit blockFits =>
    exact ⟨_, named, _, _, _, rfl, rfl, receiverFits, argsFit, blockFits⟩
  | iteration _ subjectFits paramsFit bodyFits | sequenceLoop subjectFits paramsFit bodyFits =>
    exact ⟨_, rfl, .inl ⟨_, _, _, rfl, subjectFits, paramsFit, bodyFits⟩⟩
  | assignment isOperator assignable targetFits valueFits =>
    exact ⟨_, isOperator, _, _, rfl, rfl, assignable, targetFits, valueFits⟩
  | conditional isWord nonempty single conditions bodies otherwise =>
    exact ⟨_, isWord, rfl, nonempty, single, conditions, bodies, otherwise⟩
  | conditionLoop _ conditionFits bodyFits =>
    exact ⟨_, rfl, .inr ⟨_, _, rfl, conditionFits, bodyFits⟩⟩
  | returnNothing => exact ⟨none, rfl, by simp⟩
  | returnFrom valueFits => exact ⟨some _, rfl, by simpa using valueFits⟩
  | methodDef nameFits paramsFit bodyFits => exact ⟨_, _, _, _, rfl, nameFits, paramsFit, bodyFits⟩
  | inclusion pathFits => exact ⟨_, rfl, pathFits⟩
  | importFile => exact ⟨_, _, _, rfl⟩

theorem size_lt_of_mem {node child : Node} (isChild : child ∈ node.children) :
    child.size < node.size := by
  obtain ⟨_, _, split⟩ := append_of_mem isChild
  rw [size_eq node, split, sizeAll_append, sizeAll]
  omega

/-- What holds of a node that has a role if it holds of all smaller ones holds of every node that
has a role. By default, the smaller node is a child. -/
@[elab_as_elim]
theorem Fits.bySize {property : Node → Prop} (step : ∀ {role : Role} {node : Node}, node.Fits role →
      (∀ {inner : Role} {below : Node}, below.Fits inner →
        (inside : below.size < node.size := by exact Node.size_lt_of_mem (by simp)) →
        property below) →
      property node) {role : Role} {node : Node} (fits : node.Fits role) : property node :=
  step fits fun {_ below} belowFits _ => belowFits.bySize step
termination_by node.size

end Node

end ContractForge
