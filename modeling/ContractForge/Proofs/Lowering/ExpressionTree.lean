import ContractForge.Lowering.Expression
import ContractForge.Proofs.Grammar.Derivation
import ContractForge.Proofs.Lowering.Step
import ContractForge.Proofs.Text.Search

/-!
# What expressions are lowered to

`treeOf` is the tree that an expression of literals, names and operators stands
for in the generated language: most operators are kept, and those with a meaning
of their own become what is written for them. It says nothing about parentheses
and blanks. `Operative` are the expressions of this kind; their types are always
known (`inferType_of_operative`).
-/

namespace ContractForge

open Lower Grammar Text List

variable {context : Context} {receiver : Node} {name : String}

/-! ### Trees -/

/-- The length of a sequence; a text is measured in bytes. -/
def lengthTree (type : Option StaticType) (sequence : Tree) : Tree :=
  if type == some .string then .member (.call (.word "bytes") [sequence]) "length"
  else .member sequence "length"

/-- What a variable of a type starts with. -/
def zeroTree (type : Option StaticType) : Tree :=
  if type.any StaticType.isInteger then .word "0"
  else match type with
    | some (.enumeration name) => .call (.word name) [.word "0"]
    | some (.elementary "bool") => .word "false"
    | some (.elementary "string") | some (.elementary "bytes") => .emptyText
    | some (.elementary "address") => .call (.word "address") [.word "0"]
    | _ => .word "0"

def digestTree (text : Tree) : Tree :=
  .call (.word "keccak256") [.call (.word "bytes") [text]]

/-- The variable that holds the length of a sequence, by what the sequence is written as. -/
def cachedLength? (context : Context) (sequence : Node) : Option String :=
  match outcome (operand sequence primaryPrecedence false) context with
  | (.ok text, _) => context.length? (.text text)
  | (.error _, _) => none

/-- A binary operator, given the trees of its sides. -/
def binaryTree (context : Context) (operator : Payload) (left right : Node)
    (leftTree rightTree : Tree) : Except Malformed Tree := do
  if ← isZeroDefault context operator left right then return leftTree
  if ← isArrayAppend context operator left then
    return .call (.member leftTree "push") [rightTree]
  if ← isTextOperation context ["==", "!="] operator left right then
    return .binary operator.spliced (digestTree leftTree) (digestTree rightTree)
  if ← isTextOperation context ["+"] operator left right then
    return .call (.member (.word "string") "concat") [leftTree, rightTree]
  return .binary operator.spliced leftTree rightTree

/-- A question about a receiver or its length, given its tree. -/
def queryTree (context : Context) (name : String) (receiver : Node) (tree : Tree) :
    Except Malformed Tree := do
  let type ← inferType context receiver
  if lengthMethods.contains name then
    match cachedLength? context receiver with
    | some length => return .word length
    | none => return lengthTree type tree
  if name == "empty?" then return .binary "==" (lengthTree type tree) (.word "0")
  return .binary "==" tree (zeroTree type)

def treeOf (context : Context) : Node → Except Malformed Tree
  | ⟨.literal, .integer value, _, _, _⟩ => return .word (toString value)
  | ⟨.literal, .boolean value, _, _, _⟩ => return .word (if value then "true" else "false")
  | ⟨.ivar, .text name, _, _, _⟩ => return .word (Name.safe name)
  | ⟨.identifier, name, _, _, _⟩ =>
    match context.local? name with
    | some found => return .word found.name.spliced
    | none => throw .missingPart
  | ⟨.index, _, _, _, [base, index]⟩ => do
    return .index (← treeOf context base) (← treeOf context index)
  | ⟨.unary, operator, _, _, [operand]⟩ => do
    return .unary operator.spliced (← treeOf context operand)
  | ⟨.ternary, _, _, _, [condition, whenTrue, whenFalse]⟩ => do
    return .ternary (← treeOf context condition) (← treeOf context whenTrue)
      (← treeOf context whenFalse)
  | ⟨.binary, operator, _, _, [left, right]⟩ => do
    binaryTree context operator left right (← treeOf context left) (← treeOf context right)
  | ⟨.methodCall, .text name, _, _, receiver :: _⟩ => do
    queryTree context name receiver (← treeOf context receiver)
  | _ => throw .missingPart

/-! ### Expressions of literals, names and operators -/

def StaticType.enumerations : StaticType → List String
  | elementary _ => []
  | enumeration name => [name]
  | array element => element.enumerations
  | mapping key value => key.enumerations ++ value.enumerations

/-- The enumerations in a type, if there is one, have words as names. -/
def WellNamed (type : Option StaticType) : Prop :=
  ∀ known ∈ type, ∀ name ∈ known.enumerations, isWord name = true

/-- The names that the context holds are words. -/
structure Context.WellNamed (context : Context) : Prop where
  locals : ∀ entry ∈ context.block.locals, ∃ name, entry.2.name = .text name ∧ isWord name = true
  localTypes : ∀ entry ∈ context.block.locals, ContractForge.WellNamed entry.2.type
  fieldTypes : ∀ entry ∈ context.contract.stateVars, ContractForge.WellNamed entry.2
  lengths : ∀ entry ∈ context.block.lengths, isWord entry.2 = true

/-- Questions about a receiver or its length. -/
def queries : List String :=
  emptinessMethods ++ lengthMethods

theorem mem_queries_iff :
    name ∈ queries ↔ name = "nil?" ∨ name = "zero?" ∨ name = "empty?" ∨ name = "length" ∨
      name = "size" ∨ name = "count" := by
  simp [queries, emptinessMethods, lengthMethods]

/-- An expression of literals, fields, local variables, entries, operators and questions without
arguments. -/
inductive Operative (context : Context) : Node → Prop where
  | integer (value : Nat) (line column : Option Int) :
      Operative context ⟨.literal, .integer value, line, column, []⟩
  | boolean (value : Bool) (line column : Option Int) :
      Operative context ⟨.literal, .boolean value, line, column, []⟩
  | field {name : String} (word : isWord name = true) (line column : Option Int) :
      Operative context ⟨.ivar, .text name, line, column, []⟩
  | name {name : String} {found : LocalVar} (declared : context.local? (.text name) = some found)
      (line column : Option Int) : Operative context ⟨.identifier, .text name, line, column, []⟩
  | index {base index : Node} (ofBase : Operative context base)
      (ofIndex : Operative context index) (payload : Payload) (line column : Option Int) :
      Operative context ⟨.index, payload, line, column, [base, index]⟩
  | unary {operator : String} {operand : Node} (known : operator ∈ unaryOperators)
      (ofOperand : Operative context operand) (line column : Option Int) :
      Operative context ⟨.unary, .text operator, line, column, [operand]⟩
  | binary {operator : String} {left right : Node} (known : operator ∈ binaryOperators.flatten)
      (ofLeft : Operative context left) (ofRight : Operative context right)
      (line column : Option Int) :
      Operative context ⟨.binary, .text operator, line, column, [left, right]⟩
  | ternary {condition whenTrue whenFalse : Node} (ofCondition : Operative context condition)
      (ofTrue : Operative context whenTrue) (ofFalse : Operative context whenFalse)
      (payload : Payload) (line column : Option Int) :
      Operative context ⟨.ternary, payload, line, column, [condition, whenTrue, whenFalse]⟩
  | query {name : String} {receiver : Node} {others : List Node} (known : name ∈ queries)
      (ofReceiver : Operative context receiver)
      (empty : ∀ other ∈ others, other.kind = .args ∧ other.children = [])
      (line column : Option Int) :
      Operative context ⟨.methodCall, .text name, line, column, receiver :: others⟩

theorem Operative.kind_ne (operative : Operative context node)
    (other : kind ∈ [.selfRef, .constant, .args, .block]) : node.kind ≠ kind := by
  rintro rfl
  cases operative <;> contradiction

/-! ### Types -/

theorem Table.mem_of_get? {α κ : Type} [DecidableEq κ] {table : Table α κ} {key : κ} {value : α}
    (found : table.get? key = some value) : (key, value) ∈ table := by
  induction table with
  | nil => contradiction
  | cons entry _ ih =>
    obtain ⟨_, _⟩ := entry
    rw [Table.get?] at found
    split at found
    · rename_i same
      cases found
      rw [same]
      exact mem_cons_self
    · exact mem_cons_of_mem _ (ih found)

theorem Table.exists_mem_of_named? {α : Type} {table : Table α Key} {name : Payload} {value : α}
    (found : table.named? name = some value) : ∃ key, (key, value) ∈ table := by
  obtain ⟨key, -, atKey⟩ := Option.bind_eq_some_iff.mp found
  exact ⟨key, Table.mem_of_get? atKey⟩

section

theorem wellNamed_none : WellNamed none := by
  intro _ _
  contradiction

theorem wellNamed_elementary (name : String) : WellNamed (some (.elementary name)) := by
  intro known mem
  cases mem
  simp [StaticType.enumerations]

theorem WellNamed.contained (named : WellNamed type) :
    WellNamed (type.bind StaticType.contained?) := by
  intro known mem name inNames
  obtain ⟨outer, isOuter, inside⟩ := Option.bind_eq_some_iff.mp mem
  apply named outer isOuter
  cases outer with
  | elementary _ | enumeration _ => contradiction
  | array _ =>
    cases inside
    exact inNames
  | mapping _ _ =>
    cases inside
    exact mem_append_right _ inNames

theorem Context.WellNamed.local (named : context.WellNamed) {name : Payload}
    (isLocal : context.local? name = some found) :
    (∃ text, found.name = .text text ∧ isWord text) ∧
      ContractForge.WellNamed found.type := by
  obtain ⟨_, mem⟩ := Table.exists_mem_of_named? isLocal
  exact ⟨named.locals _ mem, named.localTypes _ mem⟩

end

/-- Questions are never asked about global names, which local variables hide. -/
theorem globalMember?_of_operative (operative : Operative context receiver) (name : Payload) :
    globalMember? context ⟨.methodCall, name, line, column, receiver :: others⟩ = .ok none := by
  unfold globalMember?
  split
  · rfl
  · cases operative with
    | name declared =>
      simp [Node.childAt, declared, bind, Except.bind, pure, Except.pure]
    | _ => rfl

theorem inferType_query (known : name ∈ queries) (ofReceiver : Operative context receiver) :
    inferType context ⟨.methodCall, .text name, line, column, receiver :: others⟩ =
      .ok (some (if emptinessMethods.contains name then .bool else .uint256)) := by
  have notNew : Payload.text name ≠ .text "new" := by
    rintro ⟨⟩
    contradiction
  have notSelf : (receiver.kind == .selfRef) = false := by
    simpa using ofReceiver.kind_ne (by decide : Kind.selfRef ∈ _)
  have intrinsic : inferType context ⟨.methodCall, .text name, line, column, receiver :: others⟩ =
      intrinsicType context ⟨.methodCall, .text name, line, column, receiver :: others⟩ := by
    rw [inferType]
    · have plain : (Payload.text name).isOneOf (appendMethods ++ transferMethods) = false := by
        rcases mem_queries_iff.mp known with rfl | rfl | rfl | rfl | rfl | rfl <;> decide
      simp [methodCallType, notSelf, plain]
    all_goals exact fun _ _ _ _ isNew => absurd isNew notNew
  rw [intrinsic, intrinsicType]
  simp only [globalMember?_of_operative ofReceiver]
  rcases mem_queries_iff.mp known with rfl | rfl | rfl | rfl | rfl | rfl <;> rfl

/-- The type of an expression is known, and its enumerations have words as names. -/
theorem inferType_of_operative (named : context.WellNamed) (operative : Operative context node) :
    ∃ type, inferType context node = .ok type ∧ WellNamed type := by
  induction operative with
  | integer =>
    refine ⟨_, rfl, ?_⟩
    exact wellNamed_elementary _
  | boolean => exact ⟨_, rfl, wellNamed_elementary "bool"⟩
  | @field name word line column =>
    refine ⟨_, rfl, ?_⟩
    cases known : context.contract.stateVars.named? (Payload.text name).safe with
    | none => exact wellNamed_elementary "uint256"
    | some =>
      obtain ⟨_, mem⟩ := Table.exists_mem_of_named? known
      exact named.fieldTypes _ mem
  | @name name found declared line column =>
    refine ⟨found.type, ?_, (named.local declared).2⟩
    rw [inferType, nameType, declared]
    rfl
  | index _ _ _ _ _ ofBase =>
    obtain ⟨type, inferred, wellNamed⟩ := ofBase
    refine ⟨type.bind StaticType.contained?, ?_, wellNamed.contained⟩
    rw [inferType, inferred]
    rfl
  | unary known _ _ _ ofOperand =>
    fin_cases known
    · exact ⟨_, rfl, wellNamed_elementary "int256"⟩
    · exact ⟨_, rfl, wellNamed_elementary "bool"⟩
    · obtain ⟨type, inferred, wellNamed⟩ := ofOperand
      refine ⟨type, ?_, wellNamed⟩
      rw [inferType, inferred]
      all_goals simp
  | binary _ _ _ _ _ ofLeft ofRight =>
    obtain ⟨_, leftInferred, leftNamed⟩ := ofLeft
    obtain ⟨_, rightInferred, _⟩ := ofRight
    rw [inferType, leftInferred, rightInferred]
    simp only [bind, Except.bind]
    repeat' split
    all_goals first
      | exact ⟨_, rfl, leftNamed⟩
      | exact ⟨_, rfl, wellNamed_elementary _⟩
      | exact ⟨_, rfl, wellNamed_none⟩
  | ternary _ _ _ _ _ _ _ ofTrue ofFalse =>
    obtain ⟨trueType, trueInferred, trueNamed⟩ := ofTrue
    obtain ⟨falseType, falseInferred, falseNamed⟩ := ofFalse
    rw [inferType, trueInferred]
    cases trueType with
    | some type => exact ⟨some type, rfl, trueNamed⟩
    | none => exact ⟨falseType, falseInferred, falseNamed⟩
  | query known ofReceiver _ line column =>
    refine ⟨_, inferType_query known ofReceiver, ?_⟩
    split <;> exact wellNamed_elementary _

/-! ### Operators with a meaning of their own -/

section

variable {context : Context} (named : context.WellNamed) {left right : Node}
  (ofLeft : Operative context left) (ofRight : Operative context right) (op : Payload)
include named ofLeft

theorem isZeroDefault_of_operative (right : Node) :
    ∃ answer, isZeroDefault context op left right = .ok answer := by
  obtain ⟨_, inferred, -⟩ := inferType_of_operative named ofLeft
  unfold isZeroDefault
  split
  · rw [inferred]
    exact ⟨_, rfl⟩
  · exact ⟨_, rfl⟩

theorem isArrayAppend_of_operative : ∃ answer, isArrayAppend context op left = .ok answer := by
  obtain ⟨_, inferred, -⟩ := inferType_of_operative named ofLeft
  unfold isArrayAppend
  split
  · rw [inferred]
    exact ⟨_, rfl⟩
  · exact ⟨_, rfl⟩

include ofRight in
theorem isTextOperation_of_operative (operators : List String) :
    ∃ answer, isTextOperation context operators op left right = .ok answer := by
  obtain ⟨_, leftInferred, -⟩ := inferType_of_operative named ofLeft
  obtain ⟨_, rightInferred, -⟩ := inferType_of_operative named ofRight
  unfold isTextOperation
  simp only [leftInferred, rightInferred, bind, Except.bind, pure, Except.pure]
  repeat' split
  all_goals exact ⟨_, rfl⟩

end

/-- What expressions are written as can be joined with other texts. -/
theorem unspelled?_of_operative (named : context.WellNamed) (operative : Operative context node) :
    unspelled? context node = .ok none := by
  induction operative with
  | @binary op left right known ofLeft ofRight line column leftSpelled _ =>
    obtain ⟨isDefault, answered⟩ :=
      isZeroDefault_of_operative named ofLeft (.text op) right
    rw [unspelled?, answered]
    cases isDefault with
    | false => rfl
    | true => exact leftSpelled
  | _ => rfl

end ContractForge
