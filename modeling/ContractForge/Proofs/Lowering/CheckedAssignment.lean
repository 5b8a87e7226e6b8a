import ContractForge.Lowering.Statement
import ContractForge.Proofs.Listing.Declaration
import ContractForge.Proofs.Listing.Rechecking
import ContractForge.Proofs.Listing.Rendered
import ContractForge.Proofs.Lowering.Step

/-!
# Compound assignments with their arithmetic checked

A compound assignment is lowered to one line, and the line is read again to check its
arithmetic: the longest text in brackets in front of an operator is taken for the index.
`compound_checked` says when the target, the operator and the value that are read are
those that were lowered.
-/

namespace ContractForge

open Lower Text Listing List

/-! ### Lowering -/

/-- A compound assignment is lowered to an assignment with the texts of its sides. -/
theorem gives_compound {context after : Context} (isOperator : node.payload = .text operator)
    (compound : operator ∉ ["=", "**="])
    (gives : Gives (assignment node target value) context lowered after) :
    ∃ targetText valueText middle, Gives (expression target) context targetText middle ∧
      Gives (expression value) middle valueText after ∧
      lowered = [.assign targetText (some valueText) operator none] := by
  have isNot : node.payload.isText "=" = false ∧ node.payload.isText "**=" = false := by
    simpa [isOperator, Payload.isText, Payload.text?] using compound
  unfold assignment at gives
  have gives := gives.notRejected.2.ofGet
  split at gives
  · unfold declaration at gives
    exact absurd (by simp [isNot.1]) gives.notRejected.1
  · split at gives
    · obtain ⟨_, _, -, gives⟩ := gives.ofBind
      exact absurd (by simp [isNot.1]) gives.notRejected.1
    · obtain ⟨targetText, middle, ofTarget, gives⟩ := gives.ofBind
      rw [isNot.2] at gives
      obtain ⟨valueText, ofValue, isLowered⟩ := gives.ofReturn
      refine ⟨targetText, valueText, middle, ofTarget, ofValue, ?_⟩
      rw [isLowered, isOperator]
      rfl

/-! ### Reading the line -/

namespace Listing

/-- The value holds a closing bracket, in front of any semicolon, that a compound operator and a
value follow. What comes before is then taken for the index of the target. -/
def HidesTarget (value : List Char) : Prop :=
  ∃ front rest, value ++ [';'] = front ++ ']' :: rest ∧ ';' ∉ front ∧
    (compoundEnd? rest).isSome = true

/-- What follows the target of a compound assignment. -/
def compoundTail (operator : Char) (value : List Char) : List Char :=
  ' ' :: operator :: '=' :: ' ' :: (value ++ [';'])

variable {operator : Char} {function : String} {value : List Char}

/-- The brackets behind a text come ahead of the bracket that ends it. -/
theorem bracketEnds_append {before front rest : List Char} (inside : ';' ∉ front) :
    ∃ shorter, bracketEnds before (front ++ ']' :: rest) =
      bracketEnds (']' :: (front.reverse ++ before)) rest ++
        (before.reverse ++ front ++ [']'], rest) :: shorter := by
  induction front generalizing before with
  | nil => exact ⟨[], by simp [bracketEnds]⟩
  | cons c front ih =>
    obtain ⟨isEnd, inside⟩ := not_or.mp (mt mem_cons.mpr inside)
    obtain ⟨shorter, isShorter⟩ := @ih (c :: before) inside
    rw [cons_append, bracketEnds_cons (Ne.symm isEnd), isShorter]
    by_cases closing : c = ']'
    · exact ⟨shorter ++ [((c :: before).reverse, front ++ ']' :: rest)], by simp [closing]⟩
    · exact ⟨shorter, by simp [closing]⟩

/-- No compound assignment ends behind a bracket of a value that hides no target. -/
theorem compoundEnd?_eq_none (known : checkedFunction? operator = some function)
    (clear : ¬ HidesTarget value) (before : List Char) :
    ∀ parts ∈ bracketEnds before (compoundTail operator value), compoundEnd? parts.2 = none := by
  have noMark : operator ≠ ']' ∧ operator ≠ ';' := by
    constructor <;> rintro rfl <;> contradiction
  have isBehind : bracketEnds before (compoundTail operator value) =
      bracketEnds (' ' :: '=' :: operator :: ' ' :: before) (value ++ [';']) := by
    simp [compoundTail, bracketEnds_cons, noMark]
  rw [isBehind]
  intro ⟨index, rest⟩ mem
  obtain ⟨front, shape, inside, -⟩ := mem_bracketEnds_iff.mp mem
  by_contra isSome
  exact clear ⟨front, rest, shape, inside, Option.isSome_iff_ne_none.mpr isSome⟩

theorem change?_compound (known : checkedFunction? operator = some function) (given : value ≠ [])
    (clear : chain = [] ∨
      ∃ index, chain = '[' :: (index ++ [']']) ∧ ';' ∉ index ∧ ¬ HidesTarget value) :
    change? (chain ++ compoundTail operator value) = some (chain, function, value) := by
  have ends : compoundEnd? (compoundTail operator value) = some (function, value) :=
    compoundEnd?_eq_some.mpr ⟨operator, rfl, known, given⟩
  unfold change? targetEnd?
  obtain rfl | ⟨index, rfl, inside, clear⟩ := clear
  · have isPlain : indexSplits (compoundTail operator value) =
        [([], compoundTail operator value)] := rfl
    simp [isPlain, ends]
  · obtain ⟨_, isShorter⟩ := @bracketEnds_append ['['] _ (compoundTail operator value) inside
    have isNone := compoundEnd?_eq_none known clear (']' :: (index.reverse ++ ['[']))
    simp only [indexSplits, cons_append, append_assoc, nil_append, isShorter,
      findSome?_append, findSome?_cons, ends]
    rw [findSome?_eq_none_iff.mpr (by simpa using isNone)]
    simp

def IsEntry (field text : String) : Prop :=
  text = field ∨ ∃ index : String, text = s!"{field}[{index}]"

theorem checkLine_compound {line field text value : String}
    (known : checkedFunction? operator = some function) (named : isName field)
    (isEntry : IsEntry field text) (given : value ≠ "")
    (clear : text = field ∨ ';' ∉ text.toList ∧ ¬ HidesTarget value.toList)
    (indented : indent ≠ []) (blank : ∀ c ∈ indent, isBlankChar c)
    (shape : line.toList = indent ++ (text.toList ++ compoundTail operator value.toList))
    (unsigned : List String) :
    checkLine unsigned line = if field ∈ unsigned then
      s!"{String.ofList indent}{text} = {text}.{function}({value});" else line := by
  obtain ⟨starts, areWords⟩ := Bool.and_eq_true_iff.mp named
  obtain ⟨chain, isText, isChain⟩ : ∃ chain, text.toList = field.toList ++ chain ∧ (chain = [] ∨
      ∃ index, chain = '[' :: (index ++ [']']) ∧ ';' ∉ index ∧ ¬ HidesTarget value.toList) := by
    obtain rfl | ⟨_, rfl⟩ := isEntry
    · exact ⟨[], by simp, .inl rfl⟩
    · obtain same | ⟨_, clear⟩ := clear
      · simp [← String.toList_inj] at same
      · simp_all [toString]
  have isNamed : NamedLine line indent field.toList
      (chain ++ compoundTail operator value.toList) := by
    refine ⟨by rw [shape, isText, append_assoc], indented, blank, starts,
      all_eq_true.mp areWords, ?_⟩
    obtain rfl | ⟨_, rfl, -⟩ := isChain
    all_goals rfl
  rw [isNamed.checkLine_eq, change?_compound known (by simpa using given) isChain]
  have isWhole : field ++ String.ofList chain = text := by simp [← String.toList_inj, isText]
  simp [updateOf, Update.checked, isWhole]

end Listing

/-! ### From the source to the checked line -/

/-- A compound assignment is lowered to one assignment. If its target is a field, or an entry of
one, then its line becomes a call of the library with the same target and value if the field is
unsigned, and stays as it is otherwise. The value must not be empty, and no bracket may be taken for
another: there is no semicolon in the index, and the value hides no target. -/
theorem compound_checked {operator : Char} {function : String} {target value : Node}
    {line column : Option Int} {context after : Context} {lowered : List Statement} {level : Int}
    (known : checkedFunction? operator = some function)
    (gives : Gives (statement ⟨.assignment, .text (String.ofList [operator, '=']), line, column,
      [target, value]⟩) context lowered after)
    (nested : 0 < level) (unsigned : List String) :
    ∃ text valueText before middle, Gives (expression target) before text middle ∧
      Gives (expression value) middle valueText after ∧
      lowered = [.assign text (some valueText) (String.ofList [operator, '=']) none] ∧
      ∃ written, Statement.renderAll level lowered = [written] ∧
        ∀ field, isName field = true → IsEntry field text → valueText ≠ "" →
          (text = field ∨ ';' ∉ text.toList ∧ ¬ HidesTarget valueText.toList) →
          checkLine unsigned written = if field ∈ unsigned then
            s!"{indentation level}{text} = {text}.{function}({valueText});" else written := by
  have compound : String.ofList [operator, '='] ∉ ["=", "**="] := by
    intro member
    simp [← String.toList_inj] at member
  unfold statement at gives
  obtain ⟨_, before, -, gives⟩ := gives.ofBind
  obtain ⟨text, valueText, middle, ofTarget, ofValue, rfl⟩ := gives_compound rfl compound gives
  refine ⟨text, valueText, before, middle, ofTarget, ofValue, rfl, _, rfl,
    fun field named isEntry given clear => ?_⟩
  have indented : (indentation level).toList ≠ [] := by
    rw [indentation, String.toList_ofList, Ne, replicate_eq_nil_iff]
    omega
  have blank : ∀ c ∈ (indentation level).toList, isBlankChar c = true := by
    rw [indentation, String.toList_ofList]
    exact isBlankChar_indentation
  have shape : (ContractForge.indented level (Statement.assignText text (some valueText)
      (String.ofList [operator, '=']) none)).toList =
      (indentation level).toList ++ (text.toList ++ compoundTail operator valueText.toList) := by
    simp [ContractForge.indented, Statement.assignText, compoundTail, toString]
  have checked := checkLine_compound known named isEntry given clear indented blank shape unsigned
  rwa [String.ofList_toList] at checked

def fieldEntry (field : String) (number : Int) : Node :=
  ⟨.index, .absent, none, none,
    [⟨.ivar, .text field, none, none, []⟩, ⟨.literal, .integer number, none, none, []⟩]⟩

/-- Two is subtracted from an entry. -/
def payment : Node :=
  ⟨.assignment, .text "-=", none, none,
    [fieldEntry "credits" 1, ⟨.literal, .integer 2, none, none, []⟩]⟩

theorem payment_checked :
    Gives (statement payment) {} [.assign "credits[1]" (some "2") "-=" none] {} ∧
      checkLine ["credits"] "    credits[1] -= 2;" = "    credits[1] = credits[1].sub(2);" := by
  have gives : Gives (statement payment) {} [.assign "credits[1]" (some "2") "-=" none] {} := rfl
  refine ⟨gives, ?_⟩
  obtain ⟨text, valueText, -, -, -, -, same, written, rendered, checked⟩ :=
    @compound_checked '-' "sub" _ _ _ _ _ _ _ 1 rfl gives (by decide) ["credits"]
  obtain ⟨rfl, rfl⟩ : text = "credits[1]" ∧ valueText = "2" := by
    simpa [eq_comm] using same
  obtain rfl : "    credits[1] -= 2;" = written := singleton_inj.mp rendered
  refine checked "credits" (by decide) (.inr ⟨"1", rfl⟩) (by decide) (.inr ⟨by decide, ?_⟩)
  rintro ⟨front, rest, shape, -, -⟩
  have member : ']' ∈ "2".toList ++ [';'] := by rw [shape]; simp
  exact absurd member (by decide)

/-- The index of the target is read up to the last bracket in front of an operator, so the entry
that a nested assignment changes is taken into the target. -/
theorem nested_payment_checked :
    Gives (statement ⟨.assignment, .text "+=", none, none, [fieldEntry "debts" 0, payment]⟩) {}
        [.assign "debts[0]" (some "credits[1] -= 2") "+=" none] {} ∧
      checkLine ["debts"] "    debts[0] += credits[1] -= 2;" =
        "    debts[0] += credits[1] = debts[0] += credits[1].sub(2);" :=
  ⟨rfl, by decide⟩

end ContractForge
