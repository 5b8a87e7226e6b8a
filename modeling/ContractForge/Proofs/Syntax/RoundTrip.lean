import ContractForge.Proofs.Syntax.Precedence

/-!
# Precedence and grouping

Every formula that is written out with as few parentheses as the levels allow is read
back as its own tree (`parseTokensWithin_words`). The induction is on the formula. A
formula is read at its own level by the production that its outermost operator belongs
to, and from there at all other levels.
-/

namespace ContractForge

open List

namespace Parse

/-! ### From a formula's own level to all others -/

/-- The formula is read at every place, and starts chains at every level that has them. -/
structure IsRead (formula : Formula) : Prop where
  places {level : Nat} (isLevel : 1 ≤ level ∧ level ≤ 15) : Places formula level
  chains {level : Nat} (isChain : IsChain level) : Chains formula level

section

variable {formula : Formula}

/-- A formula that is read at its own level is read at every level: unwritten levels pass it on,
and in parentheses it is one word. -/
theorem Places.everywhere (own : Places formula formula.level)
    (isLevel : 1 ≤ level ∧ level ≤ 15) : Places formula level := by
  have below : ∀ {level}, 1 ≤ level → level ≤ formula.level → Places formula level := by
    intro _ _ le
    obtain ⟨_, isGap⟩ := Nat.exists_eq_add_of_le le
    have bound := formula.level_le
    refine Places.descends (by omega) (fun step small => by omega) (isGap ▸ own)
  by_cases le : level ≤ formula.level
  · exact below isLevel.1 le
  · have word : Places formula 15 := Places.enclosed (by omega) (below (by omega) formula.level_pos)
    obtain ⟨_, isGap⟩ := Nat.exists_eq_add_of_le isLevel.2
    exact Places.descends (by omega) (fun step small => by omega) (isGap ▸ word)

theorem IsRead.ofPlaces (notChain : ¬ IsChain formula.level) (own : Places formula formula.level) :
    IsRead formula where
  places isLevel := own.everywhere isLevel
  chains {level} isChain := by
    refine Places.chains (fun same => notChain (same ▸ isChain)) (own.everywhere ?_)
    unfold IsChain IsInfix at isChain
    omega

theorem IsRead.ofChains (isChain : IsChain formula.level) (own : Chains formula formula.level) :
    IsRead formula where
  places isLevel := (own.places isChain).everywhere isLevel
  chains {level} isOther := by
    by_cases same : formula.level = level
    · exact same ▸ own
    · refine Places.chains same ((own.places isChain).everywhere ?_)
      unfold IsChain IsInfix at isOther
      omega

end

/-! ### Operators -/

theorem unplaced_nodeAt :
    (nodeAt token kind children payload).unplaced =
      { kind, payload, children := Node.unplacedAll children } := by
  rw [nodeAt, Node.unplaced]

theorem places_unary {operand : Formula} (ofOperand : Places operand op.level) :
    Places (.unary op operand) op.level := by
  intro depth _ spelled few state next rest within reaches
  obtain ⟨sign, others, rfl, ofSign, ofOthers⟩ :=
    map_eq_cons_iff.mp (spelled.trans (Formula.wordsAt_of_le (Nat.le_refl _)))
  obtain ⟨depth, rfl⟩ := Nat.exists_eq_add_one_of_ne_zero (Nat.ne_zero_of_lt few)
  obtain ⟨isSign, isSpelling⟩ := word_eq_mark ofSign
  obtain ⟨node, isOperand, ran⟩ :=
    ofOperand depth others ofOthers (Nat.le_of_succ_le_succ few) state next rest within reaches
  refine ⟨nodeAt sign .unary [node] (.text op.mark.spelling), ?_, ?_⟩
  · rw [unplaced_nodeAt, Node.unplacedAll, Node.unplacedAll, isOperand, Formula.node]
  · cases op with
    | minus =>
      show (negation _).run (state.facing (sign :: (others ++ next :: rest))) = _
      have isMinus : sign.kind = .mark .minus := isSign
      rw [negation, run_yes (atMark_eq isMinus), run_advance]
      exact run_bind_of_ok ran
    | not | complement =>
      show (unary _).run (state.facing (sign :: (others ++ next :: rest))) = _
      rw [unary, run_yes (atAny_mem (by rw [isSign]; decide)), run_advance, isSpelling]
      exact run_bind_of_ok ran

/-- No operator stands at the level of negation. -/
theorem reach_ne_negation (token : Token) : token.reach ≠ 11 := by
  unfold Token.reach
  split
  · rename_i sign _
    cases sign <;> decide
  · decide

theorem places_power (ofLeft : Places left 13) (ofRight : Places right 11) :
    Places (.binary .power left right) 12 := by
  intro depth _ spelled few state next rest within _
  obtain ⟨before, sign, behind, rfl, ofBefore, ofSign, ofBehind⟩ :=
    exists_parts (spelled.trans (Formula.wordsAt_of_le (Nat.le_refl _)))
  simp only [length_append, length_cons] at few
  obtain ⟨depth, rfl⟩ : ∃ less, depth = less + 1 := ⟨depth - 1, by omega⟩
  have isSign : sign.kind = .mark .starStar := (word_eq_mark ofSign).1
  obtain ⟨exponent, isRight, ranRight⟩ := ofRight depth behind ofBehind (by omega) state next rest
    within.2 (by have := reach_ne_negation next; omega)
  obtain ⟨base, isLeft, ranLeft⟩ := ofLeft (depth + 1) before ofBefore (by omega) state sign
    (behind ++ next :: rest) within.1 (by rw [reach_of_kind isSign]; decide)
  refine ⟨nodeAt sign .binary [base, exponent] (.text "**"), ?_, ?_⟩
  · rw [unplaced_nodeAt, Node.unplacedAll, Node.unplacedAll, Node.unplacedAll, isLeft, isRight]
    rfl
  · rw [append_assoc, cons_append]
    show (production (rulesAt (depth + 1)) 13 >>= _).run _ = _
    rw [run_bind_of_ok ranLeft, run_yes (atMark_eq isSign), run_advance]
    exact run_bind_of_ok ranRight

theorem places_ternary (ofCondition : Places condition 2)
    (ofTrue : Places whenTrue 1) (ofFalse : Places whenFalse 1) :
    Places (.ternary condition whenTrue whenFalse) 1 := by
  intro depth _ spelled few state next rest within reaches
  obtain ⟨before, question, _, rfl, ofBefore, ofQuestion, ofOthers⟩ :=
    exists_parts (spelled.trans (Formula.wordsAt_of_le (Nat.le_refl _)))
  obtain ⟨between, colon, behind, rfl, ofBetween, ofColon, ofBehind⟩ := exists_parts ofOthers
  rw [← Formula.wordsAt_of_le (Formula.level_pos _)] at ofBetween ofBehind
  simp only [length_append, length_cons] at few
  obtain ⟨depth, rfl⟩ : ∃ less, depth = less + 1 := ⟨depth - 1, by omega⟩
  have isQuestion := (word_eq_mark ofQuestion).1
  have isColon := (word_eq_mark ofColon).1
  obtain ⟨choice, isCondition, ranCondition⟩ := ofCondition (depth + 1) before ofBefore (by omega)
    state question (between ++ colon :: (behind ++ next :: rest)) within.1
    (by rw [reach_of_kind isQuestion]; decide)
  obtain ⟨first, isTrue, ranTrue⟩ := ofTrue depth between ofBetween (by omega) state colon
    (behind ++ next :: rest) within.2.1 (by rw [reach_of_kind isColon]; decide)
  obtain ⟨second, isFalse, ranFalse⟩ := ofFalse depth behind ofBehind (by omega) state next rest
    within.2.2 reaches
  obtain ⟨_, _, rfl, startsTrue⟩ := exists_first ofBetween
  obtain ⟨_, _, rfl, startsFalse⟩ := exists_first ofBehind
  refine ⟨nodeAt question .ternary [choice, first, second] .absent, ?_, ?_⟩
  · simp only [unplaced_nodeAt, Node.unplacedAll, isCondition, isTrue, isFalse]
    rfl
  · simp only [append_assoc, cons_append] at ranCondition ranTrue ranFalse ⊢
    show (production (rulesAt (depth + 1)) 2 >>= _).run _ = _
    rw [run_bind_of_ok ranCondition, run_yes (atMark_eq isQuestion), run_advance,
      run_skipNewlines (ne_of_startsAt startsTrue rfl)]
    show (production (rulesAt depth) 1 >>= _).run _ = _
    rw [run_bind_of_ok ranTrue, run_skipNewlines (by simp [isColon]), run_expect_of_eq isColon,
      run_skipNewlines (ne_of_startsAt startsFalse rfl)]
    exact run_bind_of_ok ranFalse

theorem chains_binary (isInfix : IsInfix op.level)
    (ofLeft : Chains left op.level) (ofRight : Places right (op.level + 1)) :
    Chains (.binary op left right) op.level := by
  intro depth _ spelled few state after next rest goal within reaches goesOn
  have sides : op.leftLevel = op.level ∧ op.rightLevel = op.level + 1 := by
    cases op with
    | power => simp [IsInfix, Operator.level] at isInfix
    | _ => exact ⟨rfl, rfl⟩
  obtain ⟨before, sign, behind, rfl, ofBefore, ofSign, ofBehind⟩ :=
    exists_parts (spelled.trans (Formula.wordsAt_of_le (Nat.le_refl _)))
  rw [sides.1] at ofBefore
  rw [sides.2] at ofBehind
  simp only [length_append, length_cons] at few
  obtain ⟨isSign, isSpelling⟩ := word_eq_mark ofSign
  have isLevel : sign.reach = op.level := (reach_of_kind isSign).trans op.reach_mark
  rw [append_assoc, cons_append]
  refine ofLeft depth before ofBefore (by omega) state after sign _ goal within.1
    (Nat.le_of_eq isLevel) ?_
  intro node isLeft
  obtain ⟨operand, isRight, ran⟩ := ofRight depth behind ofBehind (by omega) state next rest
    within.2 (Nat.lt_succ_of_le reaches)
  obtain ⟨_, _, rfl, starts⟩ := exists_first ofBehind
  obtain ⟨result, isGoal, loops⟩ :=
    goesOn (nodeAt sign .binary [node, operand] (.text sign.value)) (by
      simp only [unplaced_nodeAt, Node.unplacedAll, isLeft, isRight, isSpelling, Formula.node])
  refine ⟨result, isGoal, .again ?_ ?_ loops⟩
  · exact roundAt_binary_again isInfix isSign op.reach_mark (ne_of_startsAt starts rfl) ran
  · simp [ParseState.facing]
    omega

theorem chains_index (ofBase : Chains base 14)
    (ofPosition : Places position 1) : Chains (.index base position) 14 := by
  intro depth _ spelled few state after next rest goal within _ goesOn
  obtain ⟨before, opener, _, rfl, ofBefore, ofOpener, ofOthers⟩ :=
    exists_parts (spelled.trans (Formula.wordsAt_of_le (Nat.le_refl _)))
  obtain ⟨inner, _, _, rfl, ofInner, ofCloser, ofBehind⟩ := exists_parts ofOthers
  obtain rfl := map_eq_nil_iff.mp ofBehind
  simp only [length_append, length_cons] at few
  obtain ⟨depth, rfl⟩ : ∃ less, depth = less + 1 := ⟨depth - 1, by omega⟩
  have isOpener := (word_eq_mark ofOpener).1
  have isCloser := (word_eq_mark ofCloser).1
  simp only [append_assoc, cons_append]
  refine ofBase (depth + 1) before ofBefore (by omega) state after opener _ goal within.1
    (by rw [reach_of_kind isOpener]; decide) ?_
  intro node isBase
  obtain ⟨place, isPosition, ran⟩ := ofPosition.expression ofInner
    (show inner.length ≤ depth by omega) within.2 (.inr (.inl isCloser)) (next :: rest)
  obtain ⟨_, _, rfl, starts⟩ :=
    exists_first (ofInner.trans (Formula.wordsAt_of_le position.level_pos).symm)
  obtain ⟨result, isGoal, loops⟩ :=
    goesOn (nodeAt opener .index [node, place] .absent) (by
      simp only [unplaced_nodeAt, Node.unplacedAll, isBase, isPosition, Formula.node])
  refine ⟨result, isGoal, .again ?_ ?_ loops⟩
  · exact roundAt_index isOpener (attached_of_word ofOpener)
      (ne_of_startsAt starts rfl) isCloser ran
  · simp [ParseState.facing]
    omega

/-- Every formula is read at every place. -/
theorem isRead : IsRead formula := by
  induction formula with
  | integer value =>
    exact .ofPlaces (by simp [Formula.level, IsChain, IsInfix]) (places_integer value)
  | field name => exact .ofPlaces (by simp [Formula.level, IsChain, IsInfix]) places_field
  | binary op _ _ ofLeft ofRight =>
    by_cases isInfix : IsInfix op.level
    · have isLevel : op.level ≤ 10 := isInfix.2
      exact .ofChains (.inl isInfix)
        (chains_binary isInfix (ofLeft.chains (.inl isInfix)) (ofRight.places (by omega)))
    · have isPower : op = .power := by
        revert isInfix
        cases op <;> simp [IsInfix, Operator.level]
      subst isPower
      exact .ofPlaces (by simp [Formula.level, Operator.level, IsChain, IsInfix])
        (places_power (ofLeft.places (by decide)) (ofRight.places (by decide)))
  | unary op operand ofOperand =>
    have own : Places (.unary op operand) op.level :=
      places_unary (ofOperand.places (by cases op <;> decide))
    refine .ofPlaces ?_ own
    cases op <;> simp [Formula.level, UnaryOperator.level, IsChain, IsInfix]
  | ternary _ _ _ ofCondition ofTrue ofFalse =>
    exact .ofPlaces (by simp [Formula.level, IsChain, IsInfix])
      (places_ternary (ofCondition.places (by decide)) (ofTrue.places (by decide))
        (ofFalse.places (by decide)))
  | index _ _ ofBase ofPosition =>
    exact .ofChains (.inr rfl) (chains_index (ofBase.chains (.inr rfl))
      (ofPosition.places (by decide)))

/-! ### The whole program -/

theorem startsAt_cases {level : Nat} {kind : TokenKind} (starts : startsAt level kind) :
    kind = .integer ∨ kind = .ivar ∨ kind = .mark .lparen ∨ kind = .mark .bang ∨
      kind = .mark .tilde ∨ kind = .mark .minus := by
  unfold startsAt at starts
  split at starts <;> simp_all

/-- An expression on a line of its own is a statement of the program. -/
theorem topLevel_expression {rules : Rules} {level : Nat} {next : Token} {node : Node}
    {state : ParseState} {token : Token} {more rest : List Token}
    (starts : startsAt level token.kind) (isNewline : next.kind = .newline)
    (ran : (expressionStatement rules).run (state.facing (token :: more)) =
      .ok (node, state.facing (next :: rest))) :
    (topLevel rules).run (state.facing (token :: more)) =
      .ok ([node], state.facing (next :: rest)) := by
  have unmodified : (withModifiers rules token node).run (state.facing (next :: rest)) =
      .ok (node, state.facing (next :: rest)) := by
    refine Loops.run (.done ?_)
    rw [run_no (atAny_not_mem (by rw [isNewline]; decide))]
    rfl
  have stated : (statement rules).run (state.facing (token :: more)) =
      .ok (node, state.facing (next :: rest)) := by
    rw [statement, run_current]
    obtain isFirst | isFirst | isFirst | isFirst | isFirst | isFirst := startsAt_cases starts <;>
      simp only [isFirst, plainStatement] <;> exact (run_bind_of_ok ran).trans unmodified
  have notImport : atImport.run (state.facing (token :: more)) =
      .ok (false, state.facing (token :: more)) := by
    rw [atImport, run_current, if_neg]
    · rfl
    · have notName : token.kind ≠ .identifier := ne_of_startsAt starts rfl
      simp [notName]
  rw [topLevel, run_no notImport, member, run_current]
  obtain isFirst | isFirst | isFirst | isFirst | isFirst | isFirst := startsAt_cases starts <;>
    simp only [isFirst] <;> exact run_bind_of_ok stated

/-- A statement in front of the end of the last line is the whole program. -/
theorem program_single {rules : Rules} {state : ParseState} {token next : Token} {more : List Token}
    {statements : List Node} (isWord : token.kind ∉ [.newline, .mark .semicolon, .endOfInput])
    (isNewline : next.kind = .newline) (isLast : state.last.kind = .endOfInput)
    (ran : (topLevel rules).run (state.facing (token :: more)) =
      .ok (statements, state.facing [next])) :
    (program rules).run (state.facing (token :: more)) =
      .ok (nodeAt token .program statements .absent, state.facing []) := by
  have skipped : skipTerminators.run (state.facing (token :: more)) =
      .ok ((), state.facing (token :: more)) := by
    show Except.ok ((), state.facing ((token :: more).dropWhile _)) = _
    rw [dropWhile_cons_of_neg (by simp_all)]
  have ended : endStatement.run (state.facing [next]) = .ok ((), state.facing []) := by
    rw [endStatement, run_yes (atAny_mem (by rw [isNewline]; decide))]
    show Except.ok ((), state.facing ([next].dropWhile _)) = _
    rw [dropWhile_cons_of_pos (by rw [isNewline]; rfl)]
    rfl
  have atEnd : (at? .endOfInput).run (state.facing []) = .ok (true, state.facing []) := by
    show Except.ok (state.last.kind == .endOfInput, state.facing []) = _
    rw [isLast]
    rfl
  rw [program, run_current, run_bind_of_ok skipped]
  refine run_bind_of_ok (Loops.run ?_)
  refine @Loops.again _ _ _ _ statements _ (state.facing []) _ _ ?_ ?_ (.done ?_)
  · rw [run_no (at?_ne (by simp_all)), run_bind_of_ok ran, run_bind_of_ok ended]
    rfl
  · simp [ParseState.facing]
  · rw [run_yes atEnd]
    rfl

end Parse

open Parse in
/-- The tokens of a formula, up to the end of the line, are read as the program whose one
statement is that formula. -/
theorem parseTokensWithin_words {limit : Option Nat} {formula : Formula} {tokens : List Token}
    {newline last : Token} (within : formula.Within limit)
    (spelled : tokens.map Token.word = formula.words) (isNewline : newline.kind = .newline)
    (isLast : last.kind = .endOfInput) :
    ∃ program, parseTokensWithin limit ⟨tokens ++ [newline], last⟩ = .ok program ∧
      program.unplaced = { kind := .program, children := [formula.node] } := by
  let state : ParseState := { pending := [], last, digitLimit := limit }
  have places : Places formula 1 := isRead.places (by decide)
  have few : tokens.length ≤ (tokens ++ [newline]).length + 1 := by
    rw [length_append]
    omega
  have within : formula.Within state.digitLimit := within
  obtain ⟨node, isFormula, ran⟩ :=
    places.expressionStatement spelled few within (.inr (.inr isNewline)) []
  obtain ⟨first, more, rfl, starts⟩ :=
    exists_first (spelled.trans (Formula.wordsAt_of_le formula.level_pos).symm)
  have isWord : first.kind ∉ [.newline, .mark .semicolon, .endOfInput] := by
    obtain isFirst | isFirst | isFirst | isFirst | isFirst | isFirst := startsAt_cases starts <;>
      rw [isFirst] <;> decide
  have read := program_single isWord isNewline isLast (topLevel_expression starts isNewline ran)
  refine ⟨_, congrArg (Except.map Prod.fst) read, ?_⟩
  rw [unplaced_nodeAt, Node.unplacedAll, Node.unplacedAll, isFormula]

/-- A token that says a word, at the start of the text. -/
def Word.token (word : Word) : Token :=
  { kind := word.kind, value := word.value, line := 1, column := 1, spaced := word.apart }

/-- `-(-1) ** @n[2 ? 3 : 4] ** -5 * (6 - 7 - (8 - 9)) ? !(~@m | 10) : 11 ? 12 : 13` -/
def Formula.mixed : Formula :=
  .ternary
    (.binary .times
      (.unary .minus (.binary .power (.unary .minus (.integer 1))
        (.binary .power (.index (.field "n") (.ternary (.integer 2) (.integer 3) (.integer 4)))
          (.unary .minus (.integer 5)))))
      (.binary .minus (.binary .minus (.integer 6) (.integer 7))
        (.binary .minus (.integer 8) (.integer 9))))
    (.unary .not (.binary .bitOr (.unary .complement (.field "m")) (.integer 10)))
    (.ternary (.integer 11) (.integer 12) (.integer 13))

theorem parseTokensWithin_mixed :
    ∃ program, parseTokensWithin (some Text.digitLimit)
        ⟨Formula.mixed.words.map Word.token ++ [⟨.newline, "\n", 1, 1, false⟩],
          ⟨.endOfInput, "", 2, 1, false⟩⟩ = .ok program ∧
      program.unplaced = { kind := .program, children := [Formula.mixed.node] } :=
  parseTokensWithin_words (by simp [Formula.mixed, Formula.Within]; decide) (by decide) rfl rfl

end ContractForge
