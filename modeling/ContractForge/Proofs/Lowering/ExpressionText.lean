import ContractForge.Proofs.Grammar.Lexing
import ContractForge.Proofs.Lowering.ExpressionTree

/-!
# Texts of lowered expressions

The text of an expression of literals, names and operators is read as the tree
that the expression stands for: parentheses stand wherever they are needed.
Whether they are is decided by a precedence that is computed apart from the
text, so each case of the induction shows that the text binds as tightly as its
precedence says (`Renders`).
-/

namespace ContractForge

open Lower Grammar Text

variable {node receiver : Node} {type : Option StaticType} {op name text : String} {tree : Tree}
  {context : Context} (value : Nat)

/-- The expression is lowered to a text of its tree that binds as tightly as its precedence
says. -/
structure Renders (context : Context) (node : Node) (text : String) (tree : Tree) : Prop where
  gives : Gives (expression node) context text context
  stands : treeOf context node = .ok tree
  binds : ∃ own, precedence context node = .ok own ∧ Binds text own tree

/-! ### Operands -/

/-- The level that an operand has to reach, given the level of its operator. -/
def reached (parent : Int) (strict : Bool) : Int :=
  if strict then parent + 1 else parent

theorem reached_primary : reached primaryPrecedence false ≤ primaryLevel := by decide

/-- Parentheses are put around an expression if it needs them. -/
theorem Renders.enclosed (renders : Renders context node text tree)
    (bounded : reached parent strict ≤ primaryLevel) :
    ∃ written, Gives (enclosed node parent strict text) context written context ∧
      Binds written (reached parent strict) tree := by
  obtain ⟨own, known, binds⟩ := renders.binds
  have gives (written : String) (chosen : written =
      if own < parent || (strict && own == parent) then s!"({text})" else text) :
      Gives (ContractForge.enclosed node parent strict text) context written context :=
    (gives_infer_iff.mpr ⟨known, rfl⟩).bind (gives_pure_iff.mpr ⟨chosen, rfl⟩)
  cases loose : own < parent || (strict && own == parent) with
  | true =>
    refine ⟨_, gives ("(" ++ text ++ ")") ?_, binds.enclosed.mono bounded⟩
    rw [loose]
    rfl
  | false =>
    refine ⟨_, gives text (by simp [loose]), binds.mono ?_⟩
    unfold reached
    split <;> grind

theorem Renders.operand (renders : Renders context node text tree)
    (bounded : reached parent strict ≤ primaryLevel) :
    ∃ written, Gives (operand node parent strict) context written context ∧
      Binds written (reached parent strict) tree := by
  obtain ⟨written, gives, binds⟩ := renders.enclosed bounded
  exact ⟨written, renders.gives.bind gives, binds⟩

/-! ### Literals and names -/

theorem isWordChar_of_isDigit (digit : c.isDigit) : isWordChar c := by
  have same : Text.isDigit c := by
    simpa [Char.isDigit, Text.isDigit, Char.le_def] using digit
  simp [isWordChar, isAlphanumeric, same]

theorem isWord_toString : isWord (toString (value : Int)) := by
  have digits : (toString (value : Int)).toList = Nat.toDigits 10 value := Nat.toList_repr
  refine isWord_iff.mpr ⟨?_, ?_⟩
  · rw [digits]
    exact Nat.toDigits_ne_nil
  · intro _ mem
    rw [digits] at mem
    exact isWordChar_of_isDigit (Nat.isDigit_of_mem_toDigits (by decide) (by decide) mem)

theorem isWord_safe (word : isWord name) : isWord (Name.safe name) = true := by
  unfold Name.safe
  split
  · obtain ⟨-, wordChars⟩ := isWord_iff.mp word
    refine isWord_iff.mpr ⟨by simp, ?_⟩
    intro c mem
    rw [String.toList_append, List.mem_append] at mem
    rcases mem with inName | last
    · exact wordChars c inName
    · rw [List.mem_singleton.mp last]
      decide
  · exact word

theorem renders_integer :
    Renders context ⟨.literal, .integer value, line, column, []⟩ (toString (value : Int))
      (.word (toString (value : Int))) where
  gives := by
    exact gives_pure
  stands := rfl
  binds := ⟨_, rfl, .word (isWord_toString value)⟩

theorem renders_boolean (value : Bool) :
    Renders context ⟨.literal, .boolean value, line, column, []⟩ (if value then "true" else "false")
      (.word (if value then "true" else "false")) where
  gives := by
    cases value <;> exact gives_pure
  stands := rfl
  binds := ⟨_, rfl, .word (by cases value <;> decide)⟩

theorem renders_field (word : isWord name) :
    Renders context ⟨.ivar, .text name, line, column, []⟩ (Name.safe name)
      (.word (Name.safe name)) where
  gives := by
    exact gives_pure
  stands := rfl
  binds := ⟨_, rfl, .word (isWord_safe word)⟩

theorem renders_name (named : context.WellNamed)
    (declared : context.local? (.text name) = some found) :
    Renders context ⟨.identifier, .text name, line, column, []⟩ found.name.spliced
      (.word found.name.spliced) where
  gives := by
    have resolved : resolvedName? context (.text name) = .ok (some found.name.spliced) := by
      unfold resolvedName?
      rw [declared]
      rfl
    exact (gives_infer_iff.mpr ⟨resolved, rfl⟩).bind gives_pure
  stands := by
    rw [treeOf, declared]
    rfl
  binds := by
    obtain ⟨⟨_, isText, word⟩, -⟩ := named.local declared
    rw [isText]
    exact ⟨_, rfl, .word word⟩

/-! ### Operators that are kept -/

theorem Renders.index {base index : Node} {baseText text : String}
    (ofBase : Renders context base baseText baseTree) (ofIndex : Renders context index text tree) :
    ∃ written whole, Renders context ⟨.index, payload, line, column, [base, index]⟩ written
      whole := by
  obtain ⟨written, gives, binds⟩ := ofBase.enclosed reached_primary
  obtain ⟨_, -, indexBinds⟩ := ofIndex.binds
  refine ⟨written ++ "[" ++ text ++ "]", _, ?_, ?_, _, rfl, binds.index indexBinds⟩
  · exact ofBase.gives.bind (gives.bind (ofIndex.gives.bind gives_pure))
  · rw [treeOf, ofBase.stands, ofIndex.stands]
    rfl

theorem Renders.unary {operand : Node} (known : op ∈ unaryOperators)
    (ofOperand : Renders context operand text tree) :
    ∃ written whole, Renders context ⟨.unary, .text op, line, column, [operand]⟩ written
      whole := by
  obtain ⟨written, gives, binds⟩ :=
    ofOperand.enclosed (by decide : reached unaryPrecedence false ≤ primaryLevel)
  refine ⟨op ++ written, _, ?_, ?_, _, rfl, .unary known binds⟩
  · exact ofOperand.gives.bind (gives.bind gives_pure)
  · rw [treeOf, ofOperand.stands]
    rfl

theorem Renders.ternary (ofCondition : Renders context condition conditionText conditionTree)
    (ofTrue : Renders context whenTrue trueText trueTree)
    (ofFalse : Renders context whenFalse falseText falseTree) :
    ∃ written whole, Renders context
      ⟨.ternary, payload, line, column, [condition, whenTrue, whenFalse]⟩ written whole := by
  obtain ⟨conditionWritten, conditionGives, conditionBinds⟩ :=
    ofCondition.enclosed (by decide : reached ternaryPrecedence true ≤ primaryLevel)
  obtain ⟨trueWritten, trueGives, trueBinds⟩ :=
    ofTrue.enclosed (by decide : reached ternaryPrecedence false ≤ primaryLevel)
  obtain ⟨falseWritten, falseGives, falseBinds⟩ :=
    ofFalse.enclosed (by decide : reached ternaryPrecedence false ≤ primaryLevel)
  refine ⟨conditionWritten ++ " ? " ++ trueWritten ++ " : " ++ falseWritten, _, ?_, ?_, _, rfl,
    .ternary conditionBinds trueBinds falseBinds⟩
  · exact ofCondition.gives.bind (conditionGives.bind (ofTrue.gives.bind (trueGives.bind
      (ofFalse.gives.bind (falseGives.bind gives_pure)))))
  · rw [treeOf, ofCondition.stands, ofTrue.stands, ofFalse.stands]
    rfl

/-! ### Binary operators -/

/-- The grammar and the lowering agree on how tightly operators bind. -/
theorem exists_level (known : op ∈ binaryOperators.flatten) :
    ∃ level, level? op = some level ∧ operatorPrecedence.get? op = some (level : Int) ∧
      level < unaryLevel := by
  fin_cases known <;> exact ⟨_, rfl, rfl, by decide⟩

theorem isOneOf_of_isTextOperation {op : Payload}
    (isText : isTextOperation context operators op left right = .ok true) :
    op.isOneOf operators := by
  cases listed : op.isOneOf operators with
  | true => rfl
  | false => simp [isTextOperation, listed, pure, Except.pure] at isText

theorem Payload.isOneOf_text_iff : (Payload.text name).isOneOf names ↔ name ∈ names := by
  simp [Payload.isOneOf, Payload.text?]

theorem isOneOf_equality_iff :
    (Payload.text name).isOneOf ["==", "!="] ↔ name = "==" ∨ name = "!=" := by
  simp [Payload.isOneOf_text_iff]

theorem binds_digest (binds : Binds text bound tree) :
    Binds ("keccak256" ++ "(" ++ ("bytes" ++ "(" ++ text ++ ")") ++ ")") primaryLevel
      (digestTree tree) :=
  (Binds.word (by decide)).call ((Binds.word (by decide)).call binds)

section

variable {context : Context} {op : String} {left right : Node} {leftText rightText : String}
  {leftTree rightTree : Tree} (ofLeft : Renders context left leftText leftTree)
  (ofRight : Renders context right rightText rightTree)
include ofLeft ofRight

theorem Renders.zeroDefault (isDefault : isZeroDefault context (.text op) left right = .ok true) :
    Renders context ⟨.binary, .text op, line, column, [left, right]⟩ leftText leftTree where
  gives := by
    exact ofLeft.gives.answeredYes isDefault
  stands := by
    rw [treeOf, ofLeft.stands, ofRight.stands]
    simp only [binaryTree, isDefault]
    rfl
  binds := by
    rw [precedence, isDefault]
    exact ofLeft.binds

variable (notDefault : isZeroDefault context (.text op) left right = .ok false)
include notDefault

theorem Renders.arrayAppend (isAppend : isArrayAppend context (.text op) left = .ok true) :
    ∃ written whole, Renders context ⟨.binary, .text op, line, column, [left, right]⟩ written
      whole := by
  obtain ⟨array, arrayGives, arrayBinds⟩ := ofLeft.enclosed reached_primary
  obtain ⟨_, -, rightBinds⟩ := ofRight.binds
  refine ⟨array ++ "." ++ "push" ++ "(" ++ rightText ++ ")", _, ?_, ?_, primaryPrecedence, ?_,
    (arrayBinds.member (by decide)).call rightBinds⟩
  · refine .answeredNo notDefault (.answeredYes isAppend (ofLeft.gives.bind (arrayGives.bind
      (ofRight.gives.bind (gives_pure_iff.mpr ⟨?_, rfl⟩)))))
    apply String.toList_inj.mp
    simp [callText, Text.commaSeparated]
  · rw [treeOf, ofLeft.stands, ofRight.stands]
    simp only [binaryTree, notDefault, isAppend]
    rfl
  · rw [precedence, notDefault, isAppend]
    rfl

variable (notAppend : isArrayAppend context (.text op) left = .ok false)
include notAppend

theorem Renders.textEquality
    (isText : isTextOperation context ["==", "!="] (.text op) left right = .ok true) :
    ∃ written whole, Renders context ⟨.binary, .text op, line, column, [left, right]⟩ written
      whole := by
  have equality := isOneOf_of_isTextOperation isText
  have level : level? op = some 3 := by
    rcases isOneOf_equality_iff.mp equality with rfl | rfl <;> rfl
  obtain ⟨_, -, leftBinds⟩ := ofLeft.binds
  obtain ⟨_, -, rightBinds⟩ := ofRight.binds
  refine ⟨_, _, ?_, ?_, 3, ?_, .binary level ((binds_digest leftBinds).mono ?_)
    ((binds_digest rightBinds).mono ?_)⟩
  · refine .answeredNo notDefault (.answeredNo notAppend (.answeredYes isText
      (ofLeft.gives.bind (ofRight.gives.bind (gives_pure_iff.mpr ⟨?_, rfl⟩)))))
    apply String.toList_inj.mp
    simp [Payload.spliced]
  · rw [treeOf, ofLeft.stands, ofRight.stands]
    simp only [binaryTree, notDefault, notAppend, isText]
    rfl
  · rw [precedence, notDefault, notAppend]
    simp only [equality]
    rfl
  · split <;> decide
  · split <;> decide

variable
  (notEquality : isTextOperation context ["==", "!="] (.text op) left right = .ok false)
include notEquality

theorem Renders.textSum (isText : isTextOperation context ["+"] (.text op) left right = .ok true) :
    ∃ written whole, Renders context ⟨.binary, .text op, line, column, [left, right]⟩ written
      whole := by
  have sum := isOneOf_of_isTextOperation isText
  have other : (Payload.text op).isOneOf ["==", "!="] = false := by
    rw [List.mem_singleton.mp (Payload.isOneOf_text_iff.mp sum)]
    decide
  obtain ⟨_, -, leftBinds⟩ := ofLeft.binds
  obtain ⟨_, -, rightBinds⟩ := ofRight.binds
  have function := (Binds.word (by decide : isWord "string")).member (by decide : isWord "concat")
  refine ⟨_, _, ?_, ?_, primaryPrecedence, ?_, function.callTwo leftBinds rightBinds⟩
  · refine .answeredNo notDefault (.answeredNo notAppend (.answeredNo notEquality
      (.answeredYes isText (ofLeft.gives.bind (ofRight.gives.bind
        (gives_pure_iff.mpr ⟨?_, rfl⟩))))))
    apply String.toList_inj.mp
    simp [callText, Text.commaSeparated]
  · rw [treeOf, ofLeft.stands, ofRight.stands]
    simp only [binaryTree, notDefault, notAppend, notEquality, isText]
    rfl
  · rw [precedence, notDefault, notAppend]
    simp only [other, isText]
    rfl

theorem Renders.kept (known : op ∈ binaryOperators.flatten)
    (notSum : isTextOperation context ["+"] (.text op) left right = .ok false) :
    ∃ written whole, Renders context ⟨.binary, .text op, line, column, [left, right]⟩ written
      whole := by
  obtain ⟨level, isLevel, ranked, _⟩ := exists_level known
  have bounded (strict : Bool) : reached level strict ≤ primaryLevel := by
    unfold reached
    simp only [unaryLevel, primaryLevel] at *
    split <;> omega
  obtain ⟨_, leftGives, leftBinds⟩ := ofLeft.enclosed (bounded (op == "**"))
  obtain ⟨_, rightGives, rightBinds⟩ := ofRight.enclosed (bounded !(op == "**"))
  refine ⟨_, _, ?_, ?_, level, ?_, .binary isLevel leftBinds rightBinds⟩
  · refine .answeredNo notDefault (.answeredNo notAppend (.answeredNo notEquality
      (.answeredNo notSum ?_)))
    simp only [Payload.text?, Option.bind_some, ranked]
    exact ofLeft.gives.bind (leftGives.bind (ofRight.gives.bind (rightGives.bind gives_pure)))
  · rw [treeOf, ofLeft.stands, ofRight.stands]
    simp only [binaryTree, notDefault, notAppend, notEquality, notSum]
    rfl
  · rw [precedence, notDefault, notAppend]
    simp only [notSum, Payload.text?, Option.bind_some, ranked]
    cases equality : (Payload.text op).isOneOf ["==", "!="] with
    | false => rfl
    | true =>
      rcases isOneOf_equality_iff.mp equality with rfl | rfl <;>
        · cases isLevel
          rfl

end

/-! ### Questions -/

theorem argumentsAmong_of_empty
    (empty : ∀ other ∈ others, other.kind = .args ∧ other.children = []) :
    Gives (argumentsAmong others) context [] context := by
  cases others with
  | nil =>
    exact gives_pure
  | cons first =>
    obtain ⟨isArgs, noChildren⟩ := empty first List.mem_cons_self
    obtain ⟨_, _, _, _, _⟩ := first
    cases isArgs
    cases noChildren
    exact gives_pure.bind gives_pure

/-- A question is a call on its receiver. -/
theorem gives_query (ofReceiver : Operative context receiver)
    (empty : ∀ other ∈ others, other.kind = .args ∧ other.children = [])
    (gives : Gives (memberCallText ⟨.methodCall, .text name, line, column, receiver :: others⟩
      receiver [] (expression receiver)) context written context) :
    Gives (expression ⟨.methodCall, .text name, line, column, receiver :: others⟩) context written
      context := by
  have noBlock :
      (⟨.methodCall, .text name, line, column, receiver :: others⟩ : Node).callBlock? = none := by
    refine List.find?_eq_none.mpr ?_
    rintro part (_ | ⟨_, isOther⟩)
    · simpa using ofReceiver.kind_ne (by decide : Kind.block ∈ _)
    · simp [(empty part isOther).1]
  have among : Gives (argumentsAmong (receiver :: others)) context [] context := by
    rw [argumentsAmong]
    · exact argumentsAmong_of_empty empty
    · rintro payload line column children rfl
      exact ofReceiver.kind_ne (by decide : Kind.args ∈ _) rfl
  have indirect : Gives (infer fun context => directCall? context
      ⟨.methodCall, .text name, line, column, receiver :: others⟩ receiver []) context none
      context := by
    refine gives_infer_iff.mpr ⟨?_, rfl⟩
    have notSelf := ofReceiver.kind_ne (by decide : Kind.selfRef ∈ _)
    have notConstant := ofReceiver.kind_ne (by decide : Kind.constant ∈ _)
    unfold directCall?
    rw [globalMember?_of_operative ofReceiver]
    split
    · contradiction
    · contradiction
    · rfl
  rw [expression, noBlock]
  exact gives_pure.bind (among.bind (indirect.bind gives))

theorem binds_zero (named : WellNamed type) :
    Binds ((type.bind StaticType.zeroValue?).getD "0") primaryLevel (zeroTree type) := by
  have digit : Binds "0" primaryLevel (.word "0") := .word (by decide)
  cases type with
  | none => exact digit
  | some type =>
    simp only [Option.bind_some, StaticType.zeroValue?, zeroTree, Option.any_some]
    by_cases integer : type.isInteger
    · rw [if_pos integer, if_pos integer]
      exact digit
    · rw [if_neg integer, if_neg integer]
      split
      · rename_i name
        have word := named _ rfl name (by simp [StaticType.enumerations])
        have call := (Binds.word word).call digit
        rwa [String.append_assoc, String.append_assoc] at call
      · exact .word (by decide : isWord "false")
      · exact .emptyText
      · exact (Binds.word (by decide : isWord "address")).call digit
      · exact .emptyText
      · split <;> simp_all

def lengthText (type : Option StaticType) (sequence : String) : String :=
  if type == some .string then "bytes" ++ "(" ++ sequence ++ ")" ++ "." ++ "length"
  else sequence ++ "." ++ "length"

/-- Texts stand in parentheses in their lengths, other sequences do not. -/
theorem binds_length (binds : Binds text bound tree)
    (tight : type ≠ some .string → (primaryLevel : Int) ≤ bound) :
    Binds (lengthText type text) primaryLevel (lengthTree type tree) := by
  unfold lengthText lengthTree
  by_cases isText : type = some .string
  · simp only [isText]
    exact ((Binds.word (by decide)).call binds).member (by decide)
  · simp only [isText, beq_iff_eq]
    exact (binds.mono (tight isText)).member (by decide)

theorem gives_isString (inferred : inferType context receiver = .ok type) :
    Gives (do
      let found ← infer fun context => inferType context receiver
      return found == some .string) context (type == some .string) context :=
  Gives.bind (gives_infer_iff.mpr ⟨inferred, rfl⟩) gives_pure

/-- The question is lowered to a text of its tree that binds as tightly as given. -/
def Asks (context : Context) (node receiver : Node) (name : String) (tree : Tree) (bound : Int) :
    Prop :=
  ∃ written queried,
    Gives (memberCallText node receiver [] (expression receiver)) context written context ∧
      queryTree context name receiver tree = .ok queried ∧ Binds written bound queried

section

variable {context : Context} {name : String} {receiver : Node} {text : String} {tree : Tree}
  {type : Option StaticType} (renders : Renders context receiver text tree)
  (inferred : inferType context receiver = .ok type)
include renders inferred

/-- The length of a receiver, which may be at hand in a variable. -/
theorem Renders.length (named : context.WellNamed)
    (spelled : unspelled? context receiver = .ok none) (isLength : name ∈ lengthMethods) :
    Asks context ⟨.methodCall, .text name, line, column, receiver :: others⟩ receiver name tree
      primaryLevel := by
  obtain ⟨sequence, gives, binds⟩ := renders.enclosed reached_primary
  have listed : lengthMethods.contains name := List.contains_iff_mem.mpr isLength
  have cached : cachedLength? context receiver = context.length? (.text sequence) := by
    have whole : outcome (ContractForge.operand receiver primaryPrecedence false) context =
        (.ok sequence, context) := renders.gives.bind gives
    rw [cachedLength?, whole]
  have writtenAs : Gives (writtenAs receiver sequence) context (.text sequence) context :=
    (gives_infer_iff.mpr ⟨spelled, rfl⟩).bind gives_pure
  refine ⟨(context.length? (.text sequence)).getD (lengthText type sequence),
    ((context.length? (.text sequence)).map Tree.word).getD (lengthTree type tree), ?_, ?_, ?_⟩
  · refine renders.gives.bind (gives.bind ((gives_part_iff.mpr ⟨rfl, rfl⟩).bind ?_))
    simp only [listed]
    refine (gives_get_iff.mpr ⟨rfl, rfl⟩).bind (writtenAs.bind ?_)
    cases known : context.length? (.text sequence) with
    | some => exact gives_pure
    | none =>
      refine (gives_isString inferred).bind ?_
      cases isString : type == some .string <;>
        · refine gives_pure_iff.mpr ⟨?_, rfl⟩
          simp [lengthText, isString, String.append_assoc]
  · simp only [queryTree, inferred, listed, cached]
    cases context.length? (.text sequence) <;> rfl
  · cases known : context.length? (.text sequence) with
    | some =>
      obtain ⟨_, mem⟩ := Table.exists_mem_of_named? known
      exact .word (named.lengths _ mem)
    | none => exact binds_length binds fun _ => Int.le_refl _

/-- Whether a receiver is what variables of its type start with. -/
theorem Renders.zero (wellNamed : WellNamed type) (isZero : name = "nil?" ∨ name = "zero?") :
    Asks context ⟨.methodCall, .text name, line, column, receiver :: others⟩ receiver name tree
      equalityPrecedence := by
  obtain ⟨_, gives, -⟩ := renders.enclosed reached_primary
  obtain ⟨_, sideGives, sideBinds⟩ :=
    renders.enclosed (by decide : reached equalityPrecedence false ≤ primaryLevel)
  have noLength : lengthMethods.contains name = false := by
    rcases isZero with rfl | rfl <;> decide
  refine ⟨_, _, ?_, ?_, sideBinds.equality (binds_zero wellNamed) (by decide)⟩
  · have noAppend : appendMethods.contains name = false := by
      rcases isZero with rfl | rfl <;> decide
    have asksZero : (name == "nil?" || name == "zero?") := by
      rcases isZero with rfl | rfl <;> decide
    refine renders.gives.bind (gives.bind ((gives_part_iff.mpr ⟨rfl, rfl⟩).bind ?_))
    simp only [noLength, noAppend, asksZero]
    exact (gives_infer_iff.mpr ⟨inferred, rfl⟩).bind (renders.gives.bind (sideGives.bind
      gives_pure))
  · have notEmpty : (name == "empty?") = false := by
      rcases isZero with rfl | rfl <;> decide
    simp only [queryTree, inferred, noLength, notEmpty]
    rfl

theorem Renders.empty :
    Asks context ⟨.methodCall, .text "empty?", line, column, receiver :: others⟩ receiver "empty?"
      tree equalityPrecedence := by
  obtain ⟨sequence, gives, binds⟩ := renders.enclosed reached_primary
  obtain ⟨_, -, textBinds⟩ := renders.binds
  have digit : Binds "0" primaryLevel (.word "0") := .word (by decide)
  have lengthBinds : Binds (lengthText type (if type == some .string then text else sequence))
      primaryLevel (lengthTree type tree) := by
    by_cases isString : type = some .string
    · rw [if_pos (beq_iff_eq.mpr isString)]
      exact binds_length textBinds fun isOther => absurd isString isOther
    · rw [if_neg (by simpa using isString)]
      exact binds_length binds fun _ => Int.le_refl _
  refine ⟨_, _, ?_, ?_, (lengthBinds.mono (by decide)).equality digit (by decide)⟩
  · refine renders.gives.bind (gives.bind ((gives_part_iff.mpr ⟨rfl, rfl⟩).bind ?_))
    refine (gives_isString inferred).bind ?_
    cases isString : type == some .string with
    | true =>
      refine renders.gives.bind (gives_pure_iff.mpr ⟨?_, rfl⟩)
      simp [lengthText, isString, String.append_assoc]
    | false =>
      refine gives_pure_iff.mpr ⟨?_, rfl⟩
      simp [lengthText, isString, String.append_assoc]
  · simp only [queryTree, inferred]
    rfl

end

theorem Renders.query (named : context.WellNamed) (renders : Renders context receiver text tree)
    (known : name ∈ queries) (ofReceiver : Operative context receiver)
    (empty : ∀ other ∈ others, other.kind = .args ∧ other.children = []) :
    ∃ written queried, Renders context
      ⟨.methodCall, .text name, line, column, receiver :: others⟩ written queried := by
  obtain ⟨_, inferred, wellNamed⟩ := inferType_of_operative named ofReceiver
  have spelled := unspelled?_of_operative named ofReceiver
  -- The three kinds of questions differ in what they are lowered to and in how tightly it binds.
  suffices asked : Asks context ⟨.methodCall, .text name, line, column, receiver :: others⟩ receiver
      name tree (if (Payload.text name).isOneOf emptinessMethods then equalityPrecedence
        else primaryPrecedence) by
    obtain ⟨written, queried, gives, stands, binds⟩ := asked
    refine ⟨written, queried, gives_query ofReceiver empty gives, ?_, _, rfl, binds⟩
    rw [treeOf, renders.stands]
    exact stands
  rcases List.mem_append.mp known with isEmptiness | isLength
  · rw [if_pos (Payload.isOneOf_text_iff.mpr isEmptiness)]
    simp only [emptinessMethods, List.mem_cons, List.not_mem_nil, or_false,
      ← or_assoc] at isEmptiness
    rcases isEmptiness with isZero | rfl
    · exact renders.zero inferred wellNamed isZero
    · exact renders.empty inferred
  · have other : ¬ (Payload.text name).isOneOf emptinessMethods := by
      fin_cases isLength <;> decide
    rw [if_neg other]
    exact renders.length inferred named spelled isLength

/-! ### All expressions -/

theorem Renders.binary (named : context.WellNamed) {op : String}
    {left right : Node} {leftText rightText : String} {leftTree rightTree : Tree}
    (known : op ∈ binaryOperators.flatten) (leftOperative : Operative context left)
    (rightOperative : Operative context right) (ofLeft : Renders context left leftText leftTree)
    (ofRight : Renders context right rightText rightTree) :
    ∃ written tree, Renders context ⟨.binary, .text op, line, column, [left, right]⟩ written
      tree := by
  obtain ⟨isDefault, answeredDefault⟩ :=
    isZeroDefault_of_operative named leftOperative (.text op) right
  obtain ⟨isAppend, answeredAppend⟩ :=
    isArrayAppend_of_operative named leftOperative (.text op)
  obtain ⟨isEquality, answeredEquality⟩ :=
    isTextOperation_of_operative named leftOperative rightOperative (.text op) ["==", "!="]
  obtain ⟨isSum, answeredSum⟩ :=
    isTextOperation_of_operative named leftOperative rightOperative (.text op) ["+"]
  match isDefault, isAppend, isEquality, isSum with
  | true, _, _, _ => exact ⟨_, _, ofLeft.zeroDefault ofRight answeredDefault⟩
  | false, true, _, _ => exact ofLeft.arrayAppend ofRight answeredDefault answeredAppend
  | false, false, true, _ =>
    exact ofLeft.textEquality ofRight answeredDefault answeredAppend answeredEquality
  | false, false, false, true =>
    exact ofLeft.textSum ofRight answeredDefault answeredAppend answeredEquality answeredSum
  | false, false, false, false =>
    exact ofLeft.kept ofRight answeredDefault answeredAppend answeredEquality known answeredSum

/-- Every expression of literals, names and operators is lowered to a text of its tree. -/
theorem renders_of_operative (named : context.WellNamed) (operative : Operative context node) :
    ∃ text tree, Renders context node text tree := by
  induction operative with
  | integer value => exact ⟨_, _, renders_integer value⟩
  | boolean value => exact ⟨_, _, renders_boolean value⟩
  | field word => exact ⟨_, _, renders_field word⟩
  | name declared => exact ⟨_, _, renders_name named declared⟩
  | index _ _ _ _ _ ofBase ofIndex =>
    obtain ⟨_, _, base⟩ := ofBase
    obtain ⟨_, _, index⟩ := ofIndex
    exact base.index index
  | unary known _ _ _ ofOperand =>
    obtain ⟨_, _, operand⟩ := ofOperand
    exact operand.unary known
  | binary known leftOperative rightOperative _ _ ofLeft ofRight =>
    obtain ⟨_, _, left⟩ := ofLeft
    obtain ⟨_, _, right⟩ := ofRight
    exact left.binary named known leftOperative rightOperative right
  | ternary _ _ _ _ _ _ ofCondition ofTrue ofFalse =>
    obtain ⟨_, _, condition⟩ := ofCondition
    obtain ⟨_, _, whenTrue⟩ := ofTrue
    obtain ⟨_, _, whenFalse⟩ := ofFalse
    exact condition.ternary whenTrue whenFalse
  | query known receiverOperative empty _ _ ofReceiver =>
    obtain ⟨_, _, receiver⟩ := ofReceiver
    exact receiver.query named known receiverOperative empty

/-! ### Negations -/

def negationTree (context : Context) : Node → Except Malformed Tree
  | ⟨.unary, .text "!", _, _, [operand]⟩ => treeOf context operand
  | node => do return .unary "!" (← treeOf context node)

/-- What is negated already loses its negation. -/
theorem Operative.negated (operative : Operative context node)
    (negated : (node.kind == .unary && node.payload.isText "!")) :
    ∃ operand line column, node = ⟨.unary, .text "!", line, column, [operand]⟩ ∧
      Operative context operand := by
  cases operative with
  | unary _ ofOperand line column =>
    simp only [beq_self_eq_true, Bool.true_and, Payload.isText, Payload.text?, beq_iff_eq,
      Option.some.injEq] at negated
    subst negated
    exact ⟨_, line, column, rfl, ofOperand⟩
  | _ => contradiction

theorem gives_negation (named : context.WellNamed) (operative : Operative context node) :
    ∃ text tree, Gives (negation node) context text context ∧
      negationTree context node = .ok tree ∧ ∃ bound, Binds text bound tree := by
  by_cases negated : (node.kind == .unary && node.payload.isText "!")
  · obtain ⟨_, _, _, rfl, ofOperand⟩ := operative.negated negated
    obtain ⟨text, tree, renders⟩ := renders_of_operative named ofOperand
    obtain ⟨own, -, binds⟩ := renders.binds
    refine ⟨text, tree, ?_, renders.stands, own, binds⟩
    exact (gives_part_iff.mpr ⟨rfl, rfl⟩).bind renders.gives
  · obtain ⟨_, tree, renders⟩ := renders_of_operative named operative
    obtain ⟨written, gives, binds⟩ :=
      renders.operand (by decide : reached unaryPrecedence false ≤ primaryLevel)
    refine ⟨"!" ++ written, .unary "!" tree, ?_, ?_, _, .unary (by decide) binds⟩
    · rw [negation, if_neg negated]
      exact gives.bind gives_pure
    · unfold negationTree
      split
      · exact absurd rfl negated
      · rw [renders.stands]
        rfl

/-! ### Main result -/

/-- An expression of literals, names and operators can be lowered, and its text is read as its
tree and as no other. The same holds for its negation. -/
theorem expression_readAs {context : Context} (named : context.WellNamed) {node : Node}
    (operative : Operative context node) :
    (∃ text tree, Gives (expression node) context text context ∧
      treeOf context node = .ok tree ∧ ReadAs text tree) ∧
    (∃ text tree, Gives (negation node) context text context ∧
      negationTree context node = .ok tree ∧ ReadAs text tree) := by
  constructor
  · obtain ⟨text, tree, renders⟩ := renders_of_operative named operative
    obtain ⟨own, -, binds⟩ := renders.binds
    exact ⟨text, tree, renders.gives, renders.stands, binds.readAs⟩
  · obtain ⟨text, tree, gives, stands, bound, binds⟩ := gives_negation named operative
    exact ⟨text, tree, gives, stands, binds.readAs⟩

/-- A method with a price as its only local variable. -/
def pricing : Context :=
  { method := { block := { locals := [(.text "price", ⟨.text "price", some .uint256⟩)] } } }

def price : Node :=
  ⟨.identifier, .text "price", none, none, []⟩

/-- The expression `!(price - (price - 1)).zero?`. -/
def hasRebate : Node :=
  let one : Node := ⟨.literal, .integer 1, none, none, []⟩
  let paid : Node := ⟨.binary, .text "-", none, none, [price, one]⟩
  let rebate : Node := ⟨.binary, .text "-", none, none, [price, paid]⟩
  ⟨.unary, .text "!", none, none, [⟨.methodCall, .text "zero?", none, none, [rebate]⟩]⟩

theorem pricing_wellNamed : pricing.WellNamed where
  locals entry mem := by
    rw [List.mem_singleton.mp mem]
    exact ⟨"price", rfl, by decide⟩
  localTypes entry mem := by
    rw [List.mem_singleton.mp mem]
    exact wellNamed_elementary "uint256"
  fieldTypes entry mem := by contradiction
  lengths entry mem := by contradiction

theorem operative_hasRebate : Operative pricing hasRebate := by
  have ofPrice : Operative pricing price := .name rfl none none
  exact .unary (by decide) (.query (by decide) (.binary (by decide) ofPrice
    (.binary (by decide) ofPrice (.integer 1 none none) none none) none none) (by simp) none none)
    none none

theorem hasRebate_readAs :
    pricing.WellNamed ∧ Operative pricing hasRebate ∧
    (∃ text tree, Gives (expression hasRebate) pricing text pricing ∧
      treeOf pricing hasRebate = .ok tree ∧ ReadAs text tree) ∧
    (∃ text tree, Gives (negation hasRebate) pricing text pricing ∧
      negationTree pricing hasRebate = .ok tree ∧ ReadAs text tree) :=
  ⟨pricing_wellNamed, operative_hasRebate, expression_readAs pricing_wellNamed operative_hasRebate⟩

example : (outcome (expression hasRebate) pricing).1 = .ok "!(price - (price - 1) == 0)" := by
  rfl

example : (outcome (negation hasRebate) pricing).1 = .ok "price - (price - 1) == 0" := by
  rfl

end ContractForge
