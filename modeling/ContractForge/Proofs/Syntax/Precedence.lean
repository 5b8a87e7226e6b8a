import Mathlib.Tactic.IntervalCases
import ContractForge.Proofs.Syntax.Formula
import ContractForge.Proofs.Syntax.Progress

/-!
# Formulas are read as they are written

The words of a formula, with no parentheses but those that the levels demand, are
read back as its tree. Every level has a production. It reads the words of a formula
that stands there up to a token that does not go on at that level; what a looser
production does with words of a tighter level is nothing but calling the next one.

Levels that group to the left are read by a repetition. The operand that the
repetition starts with may itself be the left end of a longer chain, so what is
proved of the chain's first part leaves open how the repetition goes on (`Opens`).
-/

namespace ContractForge

open List

variable {mark sign : Mark} {after : ParseState} {rules : Rules} {kind : TokenKind} {level : Nat}

def ParseState.facing (state : ParseState) (pending : List Token) : ParseState :=
  { state with pending }

namespace Parse

variable {α β σ : Type} {state : ParseState} {token first closer : Token} {more : List Token}
  {test : Parse Bool} {base position : Node} (value : Nat)

/-! ### Runs -/

theorem run_bind_of_ok {next : α → Parse β} {value : α}
    (ran : step.run state = .ok (value, after)) :
    (step >>= next).run state = (next value).run after := by
  rw [StateT.run_bind, ran]
  rfl

theorem run_advance (next : Token → Parse β) :
    (advance >>= next).run (state.facing (token :: more)) =
      (next token).run (state.facing more) :=
  rfl

theorem run_current (next : Token → Parse β) :
    (current >>= next).run (state.facing (token :: more)) =
      (next token).run (state.facing (token :: more)) :=
  rfl

theorem run_get (next : ParseState → Parse β) : (get >>= next).run state = (next state).run state :=
  rfl

theorem run_yes (answer : test.run state = .ok (true, state)) :
    (test >>= fun answer => if answer then whenYes else whenNo).run state = whenYes.run state :=
  run_bind_of_ok answer

theorem run_no (answer : test.run state = .ok (false, state)) :
    (test >>= fun answer => if answer then whenYes else whenNo).run state = whenNo.run state :=
  run_bind_of_ok answer

theorem at?_eq (same : token.kind = kind) :
    (at? kind).run (state.facing (token :: more)) = .ok (true, state.facing (token :: more)) := by
  show Except.ok (token.kind == kind, state.facing (token :: more)) = _
  rw [beq_iff_eq.mpr same]

theorem at?_ne (other : token.kind ≠ kind) :
    (at? kind).run (state.facing (token :: more)) = .ok (false, state.facing (token :: more)) := by
  show Except.ok (token.kind == kind, state.facing (token :: more)) = _
  rw [beq_eq_false_iff_ne.mpr other]

theorem atMark_eq (same : token.kind = .mark mark) :
    (atMark mark).run (state.facing (token :: more)) = .ok (true, state.facing (token :: more)) :=
  at?_eq same

theorem atMark_ne (other : token.kind ≠ .mark mark) :
    (atMark mark).run (state.facing (token :: more)) = .ok (false, state.facing (token :: more)) :=
  at?_ne other

theorem atAny_mem (isMember : token.kind ∈ kinds) :
    (atAny kinds).run (state.facing (token :: more)) =
      .ok (true, state.facing (token :: more)) := by
  show Except.ok (kinds.contains token.kind, state.facing (token :: more)) = _
  rw [contains_iff_mem.mpr isMember]

theorem atAny_not_mem (notMember : token.kind ∉ kinds) :
    (atAny kinds).run (state.facing (token :: more)) =
      .ok (false, state.facing (token :: more)) := by
  show Except.ok (kinds.contains token.kind, state.facing (token :: more)) = _
  rw [Bool.eq_false_iff.mpr (mt contains_iff_mem.mp notMember)]

theorem atAttached_ne (other : token.kind ≠ .mark mark) :
    (atAttached mark).run (state.facing (token :: more)) =
      .ok (false, state.facing (token :: more)) := by
  show Except.ok (token.kind == .mark mark && !token.spaced, state.facing (token :: more)) = _
  rw [beq_eq_false_iff_ne.mpr other]
  rfl

theorem atAttached_eq (same : token.kind = .mark mark) (attached : token.spaced = false) :
    (atAttached mark).run (state.facing (token :: more)) =
      .ok (true, state.facing (token :: more)) := by
  show Except.ok (token.kind == .mark mark && !token.spaced, state.facing (token :: more)) = _
  rw [beq_iff_eq.mpr same, attached]
  rfl

theorem run_skipNewlines (notNewline : token.kind ≠ .newline) (next : Unit → Parse β) :
    (skipNewlines >>= next).run (state.facing (token :: more)) =
      (next ()).run (state.facing (token :: more)) := by
  show (next ()).run (state.facing ((token :: more).dropWhile _)) = _
  rw [dropWhile_cons_of_neg (by simpa using notNewline)]

theorem run_expect_of_eq (same : token.kind = kind) (next : Token → Parse β) :
    (expect kind detail >>= next).run (state.facing (token :: more)) =
      (next token).run (state.facing more) := by
  have isFront : (state.facing (token :: more)).front.kind = kind := same
  rw [StateT.run_bind, run_expect, if_pos isFront]
  rfl

/-- How a repetition runs: rounds that go on with fewer tokens, and a last one. -/
inductive Loops (round : σ → Parse (Round σ β)) : σ → ParseState → β → ParseState → Prop where
  | done {before after : ParseState} {value : β}
      (ran : (round start).run before = .ok (.done value, after)) :
        Loops round start before value after
  | again {start next : σ} {before between after : ParseState} {value : β}
      (ran : (round start).run before = .ok (.again next, between))
      (fewer : between.pending.length < before.pending.length)
      (rest : Loops round next between value after) : Loops round start before value after

theorem Loops.run {round : σ → Parse (Round σ β)} {value : β}
    (loops : Loops round start before value after) :
    (loop round start).run before = .ok (value, after) := by
  have bounded : ∀ count, before.pending.length < count →
      (repeatAtMost round count start).run before = .ok (value, after) := by
    induction loops with
    | done ran =>
      intro _ few
      obtain ⟨-, rfl⟩ := Nat.exists_eq_add_one_of_ne_zero (Nat.ne_zero_of_lt few)
      exact run_bind_of_ok ran
    | again ran _ _ ih =>
      intro count few
      obtain ⟨count, rfl⟩ := Nat.exists_eq_add_one_of_ne_zero (Nat.ne_zero_of_lt few)
      exact (run_bind_of_ok ran).trans (ih count (by omega))
  exact bounded _ (Nat.lt_succ_self _)

/-! ### Levels -/

/-- The operators of a level between the choice and negation. -/
def operatorsAt (level : Nat) : List Mark :=
  operatorLevels.getD (10 - level) []

def production (rules : Rules) (level : Nat) : Parse Node :=
  if level ≤ 1 then ternary rules
  else if level ≤ 11 then (operatorLevels.take (11 - level)).foldl binaryLevel (negation rules)
  else if level = 12 then exponentiation rules
  else if level = 13 then unary rules
  else if level = 14 then postfixed rules
  else primary rules

/-- What the production of a level repeats, if it repeats anything. -/
def roundAt (rules : Rules) (level : Nat) : Node → Parse (Round Node Node) :=
  if level = 14 then postfixRound rules
  else binaryRound (production rules (level + 1)) (operatorsAt level)

/-- The levels with operators that group to the left. -/
def IsInfix (level : Nat) : Prop :=
  2 ≤ level ∧ level ≤ 10

/-- The levels whose production is a repetition. -/
def IsChain (level : Nat) : Prop :=
  IsInfix level ∨ level = 14

theorem production_chain (rules : Rules) (isChain : IsChain level) :
    production rules level = (production rules (level + 1) >>= loop (roundAt rules level)) := by
  obtain ⟨_, _⟩ | rfl := isChain
  · interval_cases level <;> rfl
  · rfl

theorem roundAt_binary (rules : Rules) (isInfix : IsInfix level) :
    roundAt rules level = binaryRound (production rules (level + 1)) (operatorsAt level) :=
  if_neg (by have := isInfix.2; omega)

theorem mem_operatorsAt (isInfix : IsInfix level) (sign : Mark) :
    sign ∈ operatorsAt level ↔ sign.reach = level := by
  obtain ⟨_, _⟩ := isInfix
  interval_cases level <;> cases sign <;> decide

theorem reach_of_kind (isSign : token.kind = .mark sign) : token.reach = sign.reach := by
  rw [Token.reach, isSign]

theorem kind_ne_of_reach_lt (reaches : token.reach < level) (isReach : level ≤ sign.reach) :
    token.kind ≠ .mark sign := by
  intro isSign
  rw [reach_of_kind isSign] at reaches
  omega

/-- A repetition ends in front of a token that does not go on. -/
theorem roundAt_done (isChain : IsChain level) (reaches : token.reach < level) :
    (roundAt rules level node).run (state.facing (token :: more)) =
      .ok (.done node, state.facing (token :: more)) := by
  obtain isInfix | rfl := isChain
  · rw [roundAt_binary rules isInfix, binaryRound, run_current]
    split
    · rename_i isSign
      rw [if_neg]
      · rfl
      · rw [contains_iff_mem, mem_operatorsAt isInfix, ← reach_of_kind isSign]
        omega
    · rfl
  · show (postfixRound rules node).run _ = _
    rw [postfixRound, run_no (atMark_ne (kind_ne_of_reach_lt reaches (by decide))),
      run_no (atAttached_ne (kind_ne_of_reach_lt reaches (by decide))),
      run_bind_of_ok (atMark_ne (kind_ne_of_reach_lt reaches (by decide)))]
    rfl

theorem roundAt_binary_again (isInfix : IsInfix level)
    (isSign : token.kind = .mark sign) (isOperator : sign.reach = level)
    (notNewline : first.kind ≠ .newline)
    (ran : (production rules (level + 1)).run (state.facing (first :: more)) =
      .ok (right, after)) :
    (roundAt rules level left).run (state.facing (token :: first :: more)) =
      .ok (.again (nodeAt token .binary [left, right] (.text token.value)), after) := by
  have isMember := contains_iff_mem.mpr ((mem_operatorsAt isInfix sign).mpr isOperator)
  rw [roundAt_binary rules isInfix, binaryRound, run_current]
  simp only [isSign]
  rw [if_pos isMember, run_advance, run_skipNewlines notNewline, run_bind_of_ok ran]
  rfl

theorem roundAt_index (isOpener : token.kind = .mark .lbracket) (attached : token.spaced = false)
    (notNewline : first.kind ≠ .newline) (isCloser : closer.kind = .mark .rbracket)
    (ran : rules.expression.run (state.facing (first :: more)) =
      .ok (position, state.facing (closer :: rest))) :
    (roundAt rules 14 base).run (state.facing (token :: first :: more)) =
      .ok (.again (nodeAt token .index [base, position] .absent), state.facing rest) := by
  have indexed : (indexing rules token base).run (state.facing (first :: more)) =
      .ok (nodeAt token .index [base, position] .absent, state.facing rest) := by
    rw [indexing, run_skipNewlines notNewline, run_bind_of_ok ran,
      run_skipNewlines (by simp [isCloser]), run_bind_of_ok (atMark_ne (by simp [isCloser])),
      if_neg (by decide), run_expect_of_eq isCloser]
    rfl
  show (postfixRound rules base).run _ = _
  rw [postfixRound, run_no (atMark_ne (by simp [isOpener])),
    run_yes (atAttached_eq isOpener attached), run_advance, run_bind_of_ok indexed]
  rfl

/-! ### Reading a formula -/

/-- In front of a token that does not go on at the level, the parser reads the tokens as the
formula. -/
def ReadsFormula (parser : Parse Node) (formula : Formula) (tokens : List Token) (level : Nat) :
    Prop :=
  ∀ (state : ParseState) (next : Token) (rest : List Token), formula.Within state.digitLimit →
    next.reach < level → ∃ node, node.unplaced = formula.node ∧
      parser.run (state.facing (tokens ++ next :: rest)) = .ok (node, state.facing (next :: rest))

/-- Whatever the repetition of the level makes of the formula in front of a token that goes on at
that level at most, it makes of the tokens of the formula. -/
def Opens (rules : Rules) (formula : Formula) (tokens : List Token) (level : Nat) : Prop :=
  ∀ (state after : ParseState) (next : Token) (rest : List Token) (goal : Node),
    formula.Within state.digitLimit → next.reach ≤ level →
    (∀ node, node.unplaced = formula.node → ∃ result, result.unplaced = goal ∧
      Loops (roundAt rules level) node (state.facing (next :: rest)) result after) →
    ∃ result, result.unplaced = goal ∧
      (production rules (level + 1) >>= loop (roundAt rules level)).run
        (state.facing (tokens ++ next :: rest)) = .ok (result, after)

section

variable {rules : Rules} {formula : Formula} {tokens : List Token} {level : Nat}

/-- A formula of the next level starts a chain. -/
theorem ReadsFormula.opens
    (reads : ReadsFormula (production rules (level + 1)) formula tokens (level + 1)) :
    Opens rules formula tokens level := by
  intro state _ next rest _ within reaches goesOn
  obtain ⟨node, isFormula, ran⟩ := reads state next rest within (Nat.lt_succ_of_le reaches)
  obtain ⟨result, isGoal, loops⟩ := goesOn node isFormula
  exact ⟨result, isGoal, (run_bind_of_ok ran).trans loops.run⟩

/-- A chain ends in front of a token that does not go on. -/
theorem Opens.reads (isChain : IsChain level) (opens : Opens rules formula tokens level) :
    ReadsFormula (production rules level) formula tokens level := by
  intro state next rest within reaches
  rw [production_chain rules isChain]
  refine opens state _ next rest formula.node within (Nat.le_of_lt reaches) fun node isFormula => ?_
  exact ⟨node, isFormula, .done (roundAt_done isChain reaches)⟩

/-- A production that goes on behind a sign does not go on without it. -/
theorem ReadsFormula.optional {more : Node → Parse Node}
    (reads : ReadsFormula (production rules (level + 1)) formula tokens (level + 1))
    (isReach : level ≤ sign.reach) (same : production rules level = do
      let node ← production rules (level + 1)
      if ← atMark sign then more node else return node) :
    ReadsFormula (production rules level) formula tokens level := by
  intro state next rest within reaches
  obtain ⟨node, isFormula, ran⟩ := reads state next rest within (by omega)
  refine ⟨node, isFormula, ?_⟩
  rw [same, run_bind_of_ok ran, run_no (atMark_ne (kind_ne_of_reach_lt reaches isReach))]
  rfl

theorem ReadsFormula.negation (starts : startsAt 12 token.kind)
    (reads : ReadsFormula (production rules 12) formula (token :: more) 12) :
    ReadsFormula (production rules 11) formula (token :: more) 11 := by
  intro state next rest within _
  obtain ⟨node, isFormula, ran⟩ := reads state next rest within (by omega)
  refine ⟨node, isFormula, ?_⟩
  have notMinus : token.kind ≠ .mark .minus := by
    intro isMinus
    simp [isMinus, startsAt] at starts
  show (Parse.negation rules).run _ = _
  rw [Parse.negation, cons_append, run_no (atMark_ne notMinus)]
  exact ran

theorem ReadsFormula.unary (starts : startsAt 14 token.kind)
    (reads : ReadsFormula (production rules 14) formula (token :: more) 14) :
    ReadsFormula (production rules 13) formula (token :: more) 13 := by
  intro state next rest within _
  obtain ⟨node, isFormula, ran⟩ := reads state next rest within (by omega)
  refine ⟨node, isFormula, ?_⟩
  have notSign : token.kind ∉ [TokenKind.mark .bang, .mark .tilde] := by
    intro isSign
    obtain isBang | isTilde := by simpa using isSign
    · simp [isBang, startsAt] at starts
    · simp [isTilde, startsAt] at starts
  show (Parse.unary rules).run _ = _
  rw [Parse.unary, cons_append, run_no (atAny_not_mem notSign)]
  exact ran

/-- Words of a level are read by the production of the level before it. -/
theorem ReadsFormula.descend (isLevel : 1 ≤ level ∧ level ≤ 14)
    (starts : startsAt (level + 1) token.kind)
    (reads : ReadsFormula (production rules (level + 1)) formula (token :: more) (level + 1)) :
    ReadsFormula (production rules level) formula (token :: more) level := by
  obtain rfl | isChain | rfl | rfl | rfl :
      level = 1 ∨ IsChain level ∨ level = 11 ∨ level = 12 ∨ level = 13 := by
    unfold IsChain IsInfix
    omega
  · exact reads.optional (by decide : 1 ≤ Mark.question.reach) rfl
  · exact reads.opens.reads isChain
  · exact reads.negation starts
  · exact reads.optional (by decide : 12 ≤ Mark.starStar.reach) rfl
  · exact reads.unary starts

end

/-! ### Tokens that spell a formula -/

section

variable {tokens : List Token} {formula : Formula} {level : Nat}

theorem word_eq_mark (isSign : token.word = sign.word) :
    token.kind = .mark sign ∧ token.value = sign.spelling :=
  ⟨congrArg Word.kind isSign, congrArg Word.value isSign⟩

theorem attached_of_word (isOpener : token.word = Mark.word .lbracket) : token.spaced = false := by
  have isApart : (token.kind == .mark .lbracket && token.spaced) = false :=
    congrArg Word.apart isOpener
  simpa [(word_eq_mark isOpener).1] using isApart

/-- Tokens that spell two parts and a word between them. -/
theorem exists_parts {before after : List Word}
    (spelled : tokens.map Token.word = before ++ word :: after) :
    ∃ left sign right, tokens = left ++ sign :: right ∧ left.map Token.word = before ∧
      sign.word = word ∧ right.map Token.word = after := by
  obtain ⟨left, _, rfl, ofLeft, ofOthers⟩ := map_eq_append_iff.mp spelled
  obtain ⟨sign, right, rfl, ofSign, ofRight⟩ := map_eq_cons_iff.mp ofOthers
  exact ⟨left, sign, right, rfl, ofLeft, ofSign, ofRight⟩

theorem exists_first (spelled : tokens.map Token.word = formula.wordsAt level) :
    ∃ first others, tokens = first :: others ∧ startsAt level first.kind := by
  obtain ⟨_, _, isWord, starts⟩ := Formula.head_enclosed level formula.head_words
  obtain ⟨first, others, rfl, ofFirst, -⟩ := map_eq_cons_iff.mp (spelled.trans isWord)
  exact ⟨first, others, rfl, by rwa [← ofFirst] at starts⟩

theorem ne_of_startsAt (starts : startsAt level token.kind) (other : startsAt level kind = false) :
    token.kind ≠ kind := by
  rintro rfl
  rw [other] at starts
  contradiction

end

/-- At a place of the level, all tokens that spell the formula are read as it. -/
def Places (formula : Formula) (level : Nat) : Prop :=
  ∀ (depth : Nat) (tokens : List Token), tokens.map Token.word = formula.wordsAt level →
    tokens.length ≤ depth → ReadsFormula (production (rulesAt depth) level) formula tokens level

/-- All tokens that spell the formula at a place of the level start a chain. -/
def Chains (formula : Formula) (level : Nat) : Prop :=
  ∀ (depth : Nat) (tokens : List Token), tokens.map Token.word = formula.wordsAt level →
    tokens.length ≤ depth → Opens (rulesAt depth) formula tokens level

section

variable {formula : Formula} {level : Nat}

theorem Chains.places (isChain : IsChain level) (chains : Chains formula level) :
    Places formula level :=
  fun depth tokens spelled few => (chains depth tokens spelled few).reads isChain

theorem Places.chains (other : formula.level ≠ level) (places : Places formula (level + 1)) :
    Chains formula level := by
  intro depth tokens spelled few
  rw [← Formula.wordsAt_succ other] at spelled
  exact (places depth tokens spelled few).opens

theorem Places.descend (isLevel : 1 ≤ level ∧ level ≤ 14) (other : formula.level ≠ level)
    (places : Places formula (level + 1)) : Places formula level := by
  intro depth _ spelled few
  rw [← Formula.wordsAt_succ other] at spelled
  obtain ⟨_, _, rfl, starts⟩ := exists_first spelled
  exact (places depth _ spelled few).descend isLevel starts

/-- From a level down to any other, as long as the formula's own is not on the way. -/
theorem Places.descends (isLevel : 1 ≤ level ∧ level + gap ≤ 15)
    (other : ∀ step < gap, formula.level ≠ level + step) (places : Places formula (level + gap)) :
    Places formula level := by
  induction gap with
  | zero => exact places
  | succ gap ih =>
    refine ih (by omega) (fun step small => other step (by omega)) ?_
    exact Places.descend (by omega) (other gap (by omega)) places

end

/-! ### One word, and what stands in parentheses -/

theorem digitsValue_toString : Text.digitsValue (toString value).toList = value := by
  have digits : (toString value).toList = Nat.toDigits 10 value := Nat.toList_repr
  rw [digits]
  exact Nat.ofDigitChars_toDigits (by decide) (by decide)

theorem places_integer : Places (.integer value) 15 := by
  intro depth _ spelled _ state next rest within _
  obtain ⟨token, rfl, isToken⟩ := map_eq_singleton_iff.mp spelled
  have isInteger : token.kind = .integer := congrArg Word.kind isToken
  have isValue : token.value = toString value := congrArg Word.value isToken
  have payload : (integerPayload token).run (state.facing (next :: rest)) =
      .ok (.integer value, state.facing (next :: rest)) := by
    have isShort : Text.exceeds (state.facing (next :: rest)).digitLimit
        (toString value).toList = false := within
    rw [integerPayload, isValue]
    rw [run_get, isShort, digitsValue_toString]
    rfl
  refine ⟨nodeAt token .literal [] (.integer value), rfl, ?_⟩
  show (primary (rulesAt depth)).run (state.facing (token :: next :: rest)) = _
  rw [primary, run_current]
  simp only [isInteger]
  rw [run_advance, run_bind_of_ok payload]
  rfl

theorem places_field : Places (.field name) 15 := by
  intro depth _ spelled _ state next rest _ _
  obtain ⟨token, rfl, isToken⟩ := map_eq_singleton_iff.mp spelled
  have isField : token.kind = .ivar := congrArg Word.kind isToken
  have isName : token.value = name := congrArg Word.value isToken
  refine ⟨leaf token .ivar, ?_, ?_⟩
  · rw [← isName]
    rfl
  · show (primary (rulesAt depth)).run (state.facing (token :: next :: rest)) = _
    rw [primary, run_current]
    simp only [isField]
    rfl

/-- Tokens behind which no expression goes on. -/
def Closes (token : Token) : Prop :=
  token.kind = .mark .rparen ∨ token.kind = .mark .rbracket ∨ token.kind = .newline

theorem Closes.reach (closes : Closes token) : token.reach = 0 := by
  obtain isClosing | isClosing | isClosing := closes <;> rw [Token.reach, isClosing] <;> rfl

section

variable {formula : Formula} {tokens : List Token} {next : Token} {depth : Nat}

section

variable (places : Places formula 1) (spelled : tokens.map Token.word = formula.words)
  (few : tokens.length ≤ depth) (within : formula.Within state.digitLimit) (closes : Closes next)
  (rest : List Token)
include places spelled few within closes rest

/-- A formula up to a token that closes it is read by the production of all expressions. -/
theorem Places.expression :
    ∃ node, node.unplaced = formula.node ∧
      (Parse.expression (rulesAt depth)).run (state.facing (tokens ++ next :: rest)) =
        .ok (node, state.facing (next :: rest)) := by
  rw [← Formula.wordsAt_of_le formula.level_pos] at spelled
  obtain ⟨node, isFormula, ran⟩ := places depth tokens spelled few state next rest within
    (by rw [closes.reach]; decide)
  obtain ⟨first, others, rfl, starts⟩ := exists_first spelled
  refine ⟨node, isFormula, ?_⟩
  have started : (keywordNot (rulesAt depth)).run (state.facing (first :: others ++ next :: rest)) =
      .ok (node, state.facing (next :: rest)) := by
    rw [keywordNot, cons_append, atKeyword, run_no (at?_ne (ne_of_startsAt starts rfl))]
    exact ran
  rw [Parse.expression, run_bind_of_ok started]
  refine Loops.run (.done ?_)
  rw [run_current]
  obtain isClosing | isClosing | isClosing := closes <;> simp [isClosing] <;> rfl

theorem Places.expressionStatement :
    ∃ node, node.unplaced = formula.node ∧
      (Parse.expressionStatement (rulesAt depth)).run (state.facing (tokens ++ next :: rest)) =
        .ok (node, state.facing (next :: rest)) := by
  obtain ⟨node, isFormula, ran⟩ := places.expression spelled few within closes rest
  refine ⟨node, isFormula, ?_⟩
  have noAssignment : assignmentOperator? next.kind = none := by
    obtain isClosing | isClosing | isClosing := closes <;> rw [isClosing] <;> rfl
  obtain ⟨_, _, rfl, -⟩ :=
    exists_first (spelled.trans (Formula.wordsAt_of_le formula.level_pos).symm)
  rw [cons_append] at ran ⊢
  rw [Parse.expressionStatement, run_current, run_bind_of_ok ran, run_current, noAssignment]
  rfl

end

end

/-- In parentheses a formula is read like one word. -/
theorem Places.enclosed (loose : formula.level < 15)
    (places : Places formula 1) : Places formula 15 := by
  intro depth _ spelled few state next rest within _
  rw [Formula.wordsAt, Formula.enclosed, if_pos loose] at spelled
  obtain ⟨opener, _, rfl, ofOpener, ofOthers⟩ := map_eq_cons_iff.mp spelled
  obtain ⟨inner, closer, _, rfl, ofInner, ofCloser, ofBehind⟩ := exists_parts ofOthers
  obtain rfl := map_eq_nil_iff.mp ofBehind
  have isOpener := (word_eq_mark ofOpener).1
  have isCloser := (word_eq_mark ofCloser).1
  obtain ⟨depth, rfl⟩ : ∃ less, depth = less + 1 :=
    Nat.exists_eq_add_one_of_ne_zero (Nat.ne_zero_of_lt few)
  have fewer : inner.length ≤ depth := by
    simp only [length_cons, length_append] at few
    omega
  obtain ⟨node, isFormula, ran⟩ :=
    places.expressionStatement ofInner fewer within (.inl isCloser) (next :: rest)
  obtain ⟨first, more, rfl, starts⟩ :=
    exists_first (ofInner.trans (Formula.wordsAt_of_le formula.level_pos).symm)
  refine ⟨node, isFormula, ?_⟩
  show (primary _).run (state.facing (opener :: (first :: more ++ [closer] ++ next :: rest))) = _
  rw [append_assoc, singleton_append, primary, run_current]
  rw [cons_append] at ran ⊢
  simp only [isOpener]
  rw [run_advance, parenthesized, run_skipNewlines (ne_of_startsAt starts rfl),
    run_no (atMark_ne (ne_of_startsAt starts rfl))]
  show (Parse.expressionStatement (rulesAt depth) >>= _).run _ = _
  rw [run_bind_of_ok ran, run_skipNewlines (by simp [isCloser]), run_expect_of_eq isCloser]
  rfl

end Parse

end ContractForge
