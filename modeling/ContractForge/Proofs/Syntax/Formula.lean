import ContractForge.Syntax.Parser.Program

/-!
# Formulas and how they are written

A formula is built of integers and fields by operators. Written out, a part stands
in parentheses only where it binds less tightly than its place demands. From loose
to tight, the levels are

1. the choice `?:`, which groups to the right,
2. to 10. `||`, `&&`, equality, comparison, `|` and `^`, `&`, shifts, sums and products,
   all of which group to the left,
11. negation by a minus,
12. powers, whose base stands at the next level and whose exponent at the one before,
13. `!` and `~`,
14. indexing,
15. what is written as one word.
-/

namespace ContractForge

/-! ### Operators -/

/-- The operators between two formulas. -/
inductive Operator where
  | or | and | equal | unequal | less | greater | atMost | atLeast | bitOr | bitXor | bitAnd
  | shiftLeft | shiftRight | plus | minus | times | quotient | modulo | power
deriving DecidableEq

namespace Operator

def mark : Operator → Mark
  | or => .pipePipe | and => .ampAmp | equal => .eqEq | unequal => .bangEq | less => .less
  | greater => .greater | atMost => .lessEq | atLeast => .greaterEq | bitOr => .pipe
  | bitXor => .caret | bitAnd => .ampersand | shiftLeft => .lessLess
  | shiftRight => .greaterGreater | plus => .plus | minus => .minus | times => .star
  | quotient => .slash | modulo => .percent | power => .starStar

def level : Operator → Nat
  | or => 2
  | and => 3
  | equal | unequal => 4
  | less | greater | atMost | atLeast => 5
  | bitOr | bitXor => 6
  | bitAnd => 7
  | shiftLeft | shiftRight => 8
  | plus | minus => 9
  | times | quotient | modulo => 10
  | power => 12

def leftLevel : Operator → Nat
  | power => 13
  | operator => operator.level

def rightLevel : Operator → Nat
  | power => 11
  | operator => operator.level + 1

end Operator

inductive UnaryOperator where
  | minus | not | complement
deriving DecidableEq

namespace UnaryOperator

def mark : UnaryOperator → Mark
  | minus => .minus | not => .bang | complement => .tilde

/-- How tightly the operator binds, which is also the level that the operand needs. -/
def level : UnaryOperator → Nat
  | minus => 11
  | not | complement => 13

end UnaryOperator

/-! ### Formulas -/

inductive Formula where
  | integer (value : Nat)
  | field (name : String)
  | binary (operator : Operator) (left right : Formula)
  | unary (operator : UnaryOperator) (operand : Formula)
  | ternary (condition whenTrue whenFalse : Formula)
  | index (base position : Formula)
deriving DecidableEq

/-- What a token says, wherever it stands. A bracket also says whether it is set apart from what
is before it. -/
structure Word where
  kind : TokenKind
  value : String
  apart : Bool := false
deriving DecidableEq

def Token.word (token : Token) : Word :=
  ⟨token.kind, token.value, token.kind == .mark .lbracket && token.spaced⟩

def Mark.word (mark : Mark) : Word :=
  ⟨.mark mark, mark.spelling, false⟩

namespace Formula

/-- How tightly the formula binds. -/
def level : Formula → Nat
  | integer _ | field _ => 15
  | binary operator _ _ => operator.level
  | unary operator _ => operator.level
  | ternary _ _ _ => 1
  | index _ _ => 14

/-- The words of a part at a place that needs a level. -/
def enclosed (needed level : Nat) (words : List Word) : List Word :=
  if level < needed then Mark.word .lparen :: (words ++ [Mark.word .rparen]) else words

def words : Formula → List Word
  | integer value => [⟨.integer, toString value, false⟩]
  | field name => [⟨.ivar, name, false⟩]
  | binary operator left right =>
    enclosed operator.leftLevel left.level left.words ++
      operator.mark.word :: enclosed operator.rightLevel right.level right.words
  | unary operator operand =>
    operator.mark.word :: enclosed operator.level operand.level operand.words
  | ternary condition whenTrue whenFalse =>
    enclosed 2 condition.level condition.words ++
      Mark.word .question :: (whenTrue.words ++ Mark.word .colon :: whenFalse.words)
  | index base position =>
    enclosed 14 base.level base.words ++
      Mark.word .lbracket :: (position.words ++ [Mark.word .rbracket])

/-- The words of the formula at a place that needs a level. -/
def wordsAt (needed : Nat) (formula : Formula) : List Word :=
  enclosed needed formula.level formula.words

/-- The tree of the formula, without places. -/
def node : Formula → Node
  | integer value => { kind := .literal, payload := .integer value }
  | field name => { kind := .ivar, payload := .text name }
  | binary operator left right =>
    { kind := .binary, payload := .text operator.mark.spelling,
      children := [left.node, right.node] }
  | unary operator operand =>
    { kind := .unary, payload := .text operator.mark.spelling, children := [operand.node] }
  | ternary condition whenTrue whenFalse =>
    { kind := .ternary, children := [condition.node, whenTrue.node, whenFalse.node] }
  | index base position => { kind := .index, children := [base.node, position.node] }

/-- Every integer has as few digits as the limit demands. -/
def Within (limit : Option Nat) : Formula → Prop
  | integer value => Text.exceeds limit (toString value).toList = false
  | field _ => True
  | binary _ left right => left.Within limit ∧ right.Within limit
  | unary _ operand => operand.Within limit
  | ternary condition whenTrue whenFalse =>
    condition.Within limit ∧ whenTrue.Within limit ∧ whenFalse.Within limit
  | index base position => base.Within limit ∧ position.Within limit

end Formula

namespace Node

mutual

/-- The tree without the places of its nodes. -/
def unplaced : Node → Node
  | ⟨kind, payload, _, _, children⟩ => { kind, payload, children := unplacedAll children }

/-- The trees without the places of their nodes. -/
def unplacedAll : List Node → List Node
  | [] => []
  | node :: rest => node.unplaced :: unplacedAll rest

end

end Node

/-! ### Levels and first words -/

/-- The level of the expressions that a token goes on with, if it stands behind one; nothing goes
on at level zero. -/
def Mark.reach : Mark → Nat
  | .question => 1
  | .pipePipe => 2
  | .ampAmp => 3
  | .eqEq | .bangEq => 4
  | .less | .greater | .lessEq | .greaterEq => 5
  | .pipe | .caret => 6
  | .ampersand => 7
  | .lessLess | .greaterGreater => 8
  | .plus | .minus => 9
  | .star | .slash | .percent => 10
  | .starStar => 12
  | .dot | .lbracket | .colonColon => 14
  | _ => 0

def Token.reach (token : Token) : Nat :=
  match token.kind with
  | .mark mark => mark.reach
  | _ => 0

theorem Operator.reach_mark (op : Operator) : op.mark.reach = op.level := by
  cases op <;> rfl

/-- The classes of tokens that formulas of a level start with. -/
def startsAt (level : Nat) : TokenKind → Bool
  | .integer | .ivar | .mark .lparen => true
  | .mark .bang | .mark .tilde => level ≤ 13
  | .mark .minus => level ≤ 11
  | _ => false

theorem startsAt_of_le {kind : TokenKind} (le : first ≤ second)
    (starts : startsAt second kind) : startsAt first kind := by
  unfold startsAt at *
  split at starts <;> simp_all <;> omega

namespace Formula

theorem level_pos (formula : Formula) : 0 < formula.level := by
  cases formula with
  | binary op _ _ => cases op <;> simp [level, Operator.level]
  | unary op _ => cases op <;> simp [level, UnaryOperator.level]
  | _ => simp [level]

theorem level_le (formula : Formula) : formula.level ≤ 15 := by
  cases formula with
  | binary op _ _ => cases op <;> simp [level, Operator.level]
  | unary op _ => cases op <;> simp [level, UnaryOperator.level]
  | _ => simp [level]

/-- A part that stands in parentheses starts with one. -/
theorem head_enclosed (needed : Nat) {level : Nat} {words : List Word}
    (starts : ∃ first rest, words = first :: rest ∧ startsAt level first.kind) :
    ∃ first rest, enclosed needed level words = first :: rest ∧ startsAt needed first.kind := by
  unfold enclosed
  split
  · exact ⟨_, _, rfl, rfl⟩
  · obtain ⟨first, rest, isFirst, starts⟩ := starts
    exact ⟨first, rest, isFirst, startsAt_of_le (by omega) starts⟩

theorem head_words (formula : Formula) :
    ∃ first rest, formula.words = first :: rest ∧ startsAt formula.level first.kind := by
  induction formula with
  | integer _ | field _ => exact ⟨_, _, rfl, rfl⟩
  | binary op _ _ ofLeft _ =>
    obtain ⟨first, _, isFirst, starts⟩ := head_enclosed op.leftLevel ofLeft
    refine ⟨first, _, by rw [words, isFirst, List.cons_append], startsAt_of_le ?_ starts⟩
    cases op <;> simp [level, Operator.level, Operator.leftLevel]
  | unary op _ _ =>
    exact ⟨_, _, rfl, by cases op <;> rfl⟩
  | ternary _ _ _ ofCondition _ _ =>
    obtain ⟨first, _, isFirst, starts⟩ := head_enclosed 2 ofCondition
    exact ⟨first, _, by rw [words, isFirst, List.cons_append],
      startsAt_of_le (by simp [level]) starts⟩
  | index _ _ ofBase _ =>
    obtain ⟨first, _, isFirst, starts⟩ := head_enclosed 14 ofBase
    exact ⟨first, _, by rw [words, isFirst, List.cons_append], starts⟩

/-- A part needs parentheses at a level or at none around it. -/
theorem wordsAt_succ {formula : Formula} (other : formula.level ≠ needed) :
    formula.wordsAt (needed + 1) = formula.wordsAt needed := by
  unfold wordsAt enclosed
  by_cases loose : formula.level < needed
  · rw [if_pos loose, if_pos (by omega)]
  · rw [if_neg loose, if_neg (by omega)]

theorem wordsAt_of_le {formula : Formula} (le : needed ≤ formula.level) :
    formula.wordsAt needed = formula.words :=
  if_neg (by omega)

end Formula

end ContractForge
