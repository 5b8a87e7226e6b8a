import ContractForge.Proofs.Lowering.Safety

/-!
# Expressions are lowered safely

Every node that has a role has the parts that its lowering asks for. So the type of an
expression, how tightly it binds and what it is written as can always be told, and its
text is found unless it is rejected.
-/

namespace ContractForge

open Lower List

namespace Node

variable {role : Role} {node : Node}

theorem Fits.child (fits : node.Fits role) {child : Node} (isChild : child ∈ node.children) :
    ∃ inner, child.Fits inner := by
  obtain inner | ⟨-, parts⟩ := fits.children
  · obtain ⟨inner, childFits, -⟩ := inner child isChild
    exact ⟨inner, childFits⟩
  · exact ⟨.part, parts child isChild⟩

theorem Fits.argument (fits : node.Fits role) (isArgs : node.kind = .args) :
    ∀ value ∈ node.children, value.Fits .operand := by
  have parts := fits.parts
  rwa [Parts, isArgs] at parts

theorem Fits.callArgs (fits : node.Fits role) : ∀ value ∈ node.callArgs, value.Fits .operand := by
  intro value isValue
  unfold Node.callArgs child? at isValue
  cases found : node.children.find? fun child => child.kind == .args with
  | none => simp [found] at isValue
  | some args =>
    obtain ⟨_, argsFit⟩ := fits.child (mem_of_find?_eq_some found)
    have isArgs : args.kind = .args := by simpa using find?_some found
    rw [found] at isValue
    exact argsFit.argument isArgs value isValue

end Node

/-! ### Types -/

section

variable {role : Role} {node : Node}

theorem answered_literalType (enums : Table (List String)) (fits : node.Fits role) :
    Answered (node.literalType enums) := by
  refine Node.Fits.bySize ?_ fits
  rintro role ⟨kind, payload, line, column, children⟩ fits smaller
  have parts := fits.parts
  cases kind
  case unary =>
    obtain ⟨-, -, -, rfl, rfl, -⟩ := parts
    unfold Node.literalType
    split <;> first | exact answered_pure | simp_all
  case array =>
    cases children with
    | nil => exact answered_pure
    | cons first =>
      have ofFirst := smaller (parts first mem_cons_self)
      exact ofFirst.ends
  case hash =>
    cases children with
    | nil => exact answered_pure
    | cons first rest =>
      have inside : first.size < (⟨.hash, payload, line, column, first :: rest⟩ : Node).size :=
        Node.size_lt_of_mem mem_cons_self
      cases parts first mem_cons_self with
      | pair keyFits valueFits =>
        have ofKey := smaller keyFits (Nat.lt_trans (Node.size_lt_of_mem (by simp)) inside)
        have ofValue := smaller valueFits (Nat.lt_trans (Node.size_lt_of_mem (by simp)) inside)
        exact ofKey.bind fun _ _ => ofValue.ends
  all_goals exact answered_pure

section

variable (context : Context)
include context

theorem answered_globalMember? (fits : node.Fits role) : Answered (globalMember? context node) := by
  unfold globalMember?
  split
  · exact answered_pure
  · rename_i isMember
    have isCall : node.kind = .methodCall := by
      simp only [Bool.or_eq_true, bne_iff_ne, not_or, not_not] at isMember
      exact isMember.1
    have parts := fits.parts
    rw [Node.Parts, isCall] at parts
    obtain ⟨_, -, receiver, _, _, -, isChildren, -⟩ := parts
    have ofReceiver : Answered (node.childAt 0) := answers_childAt (by rw [isChildren]; rfl) trivial
    refine ofReceiver.bind fun receiver _ => ?_
    split
    · exact answers_ite answered_pure answered_pure
    · exact answered_pure

theorem answered_intrinsicType (fits : node.Fits role) : Answered (intrinsicType context node) := by
  have parts := fits.parts
  have ofLiteral := answered_literalType context.contract.enums fits
  obtain ⟨kind, _, line, column, _⟩ := node
  cases kind
  case literal | array | hash | symbol => exact ofLiteral
  case unary =>
    exact answers_ite answered_pure ofLiteral.ends
  case methodCall =>
    refine (answered_globalMember? context fits).bind fun found _ => ?_
    cases found with
    | some => exact answered_pure
    | none =>
      exact answers_ite answered_pure (answers_ite answered_pure answered_pure)
  case identifier =>
    obtain ⟨_, -, rfl⟩ := parts
    exact answered_pure
  case binary =>
    obtain ⟨op, -, left, right, rfl, rfl, -, -⟩ := parts
    have ofFallback : Answered (Node.childAt ⟨.binary, .text op, line, column, [left, right]⟩ 1) :=
      answers_childAt rfl trivial
    refine ofFallback.bind fun fallback _ => ?_
    split
    · exact answered_pure
    · exact answered_pure
    · exact answers_ite answered_pure answered_pure
  all_goals exact answered_pure

theorem answered_nameType (isText : name.IsText) : Answered (nameType context name) := by
  unfold nameType
  split
  · exact answered_pure
  · exact answered_pure
  · exact answered_pure
  · exact (answers_asText isText).ends

/-- Whether a type is known can be told of everything that has a role. -/
theorem answered_inferType (fits : node.Fits role) : Answered (inferType context node) := by
  refine Node.Fits.bySize ?_ fits
  rintro role ⟨kind, _, line, column, children⟩ fits smaller
  have parts := fits.parts
  have intrinsic := answered_intrinsicType context fits
  cases kind
  case identifier =>
    obtain ⟨name, -, rfl⟩ := parts
    exact answered_nameType context ⟨name, rfl⟩
  case index =>
    obtain ⟨_, _, rfl, baseFits, -⟩ := parts
    have ofBase := smaller baseFits
    exact ofBase.ends
  case methodCall =>
    obtain ⟨name, -, receiver, args, block, rfl, rfl, receiverFits, -⟩ := parts
    have ofCall : Answered (methodCallType context ⟨.methodCall, .text name, line, column,
        receiver :: args :: block.toList⟩ receiver) := by
      unfold methodCallType
      split
      · exact answered_pure
      · exact answers_ite answered_pure intrinsic
    by_cases isNew : name = "new" ∧ receiver.kind = .constant
    · have receiverParts := receiverFits.parts
      obtain ⟨_, _, _, _, _⟩ := receiver
      obtain ⟨rfl, rfl⟩ := isNew
      obtain ⟨_, -, rfl⟩ := receiverParts
      exact answered_pure
    · rw [inferType]
      all_goals
        intros
        simp_all
  case binary =>
    obtain ⟨_, -, _, _, rfl, rfl, leftFits, rightFits⟩ := parts
    have ofLeft := smaller leftFits
    have ofRight := smaller rightFits
    refine answers_ite answered_pure (answers_ite ?_ ?_)
    · split
      · exact answered_pure
      · exact ofLeft.ends
    · refine ofLeft.bind fun _ _ => answers_ite answered_pure (answers_ite ?_ ?_)
      · refine answers_ite answered_pure (ofRight.bind fun _ _ => ?_)
        exact answers_ite answered_pure answered_pure
      · exact answered_pure
  case unary =>
    obtain ⟨_, -, _, rfl, rfl, operandFits⟩ := parts
    have ofOperand := smaller operandFits
    unfold inferType
    split <;> first | exact answered_pure | exact ofOperand | simp_all
  case ternary =>
    obtain ⟨_, _, _, rfl, -, trueFits, falseFits⟩ := parts
    have ofTrue := smaller trueFits
    have ofFalse := smaller falseFits
    rw [inferType]
    refine ofTrue.bind fun found _ => ?_
    cases found with
    | some _ => exact answered_pure
    | none => exact ofFalse
  case assignment =>
    obtain ⟨_, -, _, _, rfl, rfl, -, -, valueFits⟩ := parts
    have ofValue := smaller valueFits
    exact ofValue
  case constant =>
    obtain ⟨_, -, rfl⟩ := parts
    exact answered_pure
  case array =>
    cases children with
    | nil => exact answered_pure
    | cons first _ =>
      have ofFirst := smaller (parts first mem_cons_self)
      exact ofFirst.ends
  case ivar | call | interpolated => exact answered_pure
  all_goals exact intrinsic

theorem answered_isZeroDefault
    (leftFits : left.Fits role) : Answered (isZeroDefault context op left right) := by
  unfold isZeroDefault
  split
  · exact (answered_inferType context leftFits).ends
  · exact answered_pure

theorem answered_isArrayAppend (leftFits : left.Fits role)
    : Answered (isArrayAppend context op left) :=
  answers_ite ((answered_inferType context leftFits).ends) answered_pure

theorem answered_isTextOperation (leftFits : left.Fits role) (rightFits : right.Fits other) :
    Answered (isTextOperation context operators op left right) := by
  refine answers_ite answered_pure ((answered_inferType context leftFits).bind fun _ _ => ?_)
  exact answers_ite answered_pure ((answered_inferType context rightFits).ends)

/-- Everything that has a role is written as a text. -/
theorem answers_unspelled? (fits : node.Fits role) :
    Answers (· = none) (unspelled? context node) := by
  refine Node.Fits.bySize ?_ fits
  rintro role ⟨kind, _, _, _, _⟩ fits smaller
  have parts := fits.parts
  cases kind
  case identifier =>
    obtain ⟨_, -, rfl⟩ := parts
    exact answers_pure rfl
  case ivar =>
    obtain ⟨_, rfl⟩ := parts
    exact answers_pure rfl
  case methodCall =>
    obtain ⟨_, -, _, _, _, rfl, rfl, -⟩ := parts
    exact answers_pure rfl
  case binary =>
    obtain ⟨_, -, _, right, rfl, rfl, leftFits, -⟩ := parts
    have ofLeft := smaller leftFits
    refine (answered_isZeroDefault context leftFits).bind fun _ _ => ?_
    exact answers_ite ofLeft (answers_pure rfl)
  all_goals exact answers_pure rfl

theorem answered_checkSpelled (fit : ∀ node ∈ nodes, node.Fits role) :
    Answered (checkSpelled context nodes) := by
  have allSpelled : Answers (fun found => ∀ name ∈ found, False)
      (nodes.filterMapM (unspelled? context)) :=
    composes_answers.filterMapM fun node mem =>
      (answers_unspelled? context (fit node mem)).mono (by simp)
  refine allSpelled.bind fun found isEmpty => ?_
  rw [if_pos (isEmpty_iff.mpr (eq_nil_iff_forall_not_mem.mpr isEmpty))]
  exact answered_pure

/-- How tightly it binds can be told of everything that has a role. -/
theorem answered_precedence (fits : node.Fits role) : Answered (precedence context node) := by
  refine Node.Fits.bySize ?_ fits
  rintro role ⟨kind, _, _, _, _⟩ fits smaller
  have parts := fits.parts
  cases kind
  case binary =>
    obtain ⟨_, -, _, right, rfl, rfl, leftFits, rightFits⟩ := parts
    have ofLeft := smaller leftFits
    refine (answered_isZeroDefault context leftFits).bind fun _ _ => answers_ite ofLeft ?_
    refine (answered_isArrayAppend context leftFits).bind fun _ _ =>
      answers_ite answered_pure (answers_ite answered_pure ?_)
    refine (answered_isTextOperation context leftFits rightFits).bind fun _ _ => ?_
    exact answers_ite answered_pure answered_pure
  all_goals exact answered_pure

end

end

/-! ### Texts -/

section

variable {labels : List Payload} {role : Role} {node receiver : Node} {lowerReceiver : Lower String}

theorem safe_literalText (node : Node) : IsSafe labels (literalText node) := by
  unfold literalText
  split
  · exact safe_reject
  · exact safe_reject
  · exact isSafe_pure

theorem answered_knownName? (steady : context.Steady labels) :
    Answered (knownName? context name) := by
  refine answers_ite ?_ ?_
  · have spelled := answered_mapM fun name mem => answers_spelled (steady.parameters name mem)
    exact spelled.ends
  · split
    · exact answered_pure
    · exact answers_ite answered_pure (answers_ite answered_pure answered_pure)

theorem answered_resolvedName? (steady : context.Steady labels)
    (isText : name.IsText) : Answered (resolvedName? context name) := by
  obtain ⟨name, rfl⟩ := isText
  unfold resolvedName?
  cases context.local? (.text name) with
  | some => exact answered_pure
  | none => exact answered_knownName? steady

theorem safe_nameText (isText : node.payload.IsText) : IsSafe labels (nameText node) := by
  refine Safe.bind (safe_infer (fun _ _ => rfl) fun _ steady =>
    answered_resolvedName? steady isText) fun found _ => ?_
  cases found with
  | some => exact isSafe_pure
  | none =>
    exact safe_report.bind fun _ _ => (safe_part (answers_spelled isText)).ends

theorem answered_calledFunction (named : name ≠ "") : Answered (calledFunction context name) := by
  refine answers_ite answered_pure (answers_ite answered_pure ?_)
  split
  · exact answered_pure
  · rename_i isEmpty
    exact absurd (String.toList_eq_nil_iff.mp isEmpty) named
  · exact answers_ite answered_pure answered_pure

theorem safe_checkSpelled (fit : ∀ node ∈ nodes, node.Fits role) :
    IsSafe labels (infer fun context => checkSpelled context nodes) :=
  safe_infer (fun _ _ => by rw [checkSpelled_following]) fun context _ =>
    answered_checkSpelled context fit

theorem safe_functionCallText (fits : node.Fits role) (named : name ≠ "")
    (isName : node.payload = .text name) (arguments : List String) :
    IsSafe labels (functionCallText node arguments) := by
  unfold functionCallText
  refine safe_guard safe_reject ?_
  have spelled : Answers (· = name) node.payload.spelled := ⟨name, by rw [isName]; rfl, rfl⟩
  refine (safe_part spelled).bind fun _ same => ?_
  subst same
  refine Safe.bind (safe_infer (fun _ _ => rfl) fun context _ =>
    answered_calledFunction named) fun _ _ => ?_
  exact safe_guard (safe_checkSpelled fits.callArgs) isSafe_pure

theorem safe_enclosed (fits : node.Fits role) : IsSafe labels (enclosed node parent strict text) :=
  Safe.bind (safe_infer (fun _ _ => by rw [precedence_following]) fun context _ =>
    answered_precedence context fits) fun _ _ => isSafe_pure

theorem safe_writtenAs (fits : node.Fits role) :
    Safe labels Payload.IsText (writtenAs node text) := by
  refine Safe.bind (safe_infer (fun _ _ => by rw [unspelled?_following]) fun context _ =>
    answers_unspelled? context fits) fun _ isNone => ?_
  subst isNone
  exact safe_pure ⟨text, rfl⟩

theorem safe_inferType (fits : node.Fits role) :
    IsSafe labels (infer fun context => inferType context node) :=
  safe_infer (fun _ _ => by rw [inferType_following]) fun context _ =>
    answered_inferType context fits

theorem answered_directCall? (fits : node.Fits role)
    (receiverFits : receiver.Fits .operand) (arguments : List String) :
    Answered (directCall? context node receiver arguments) := by
  have spelled := answered_checkSpelled context fits.callArgs
  refine (answered_globalMember? context fits).bind fun found _ => ?_
  cases found with
  | some => exact answered_pure
  | none =>
    dsimp only
    split
    · split
      · exact spelled.ends
      · exact answered_pure
    · rename_i isConstant _
      have parts := receiverFits.parts
      rw [Node.Parts, isConstant] at parts
      obtain ⟨created, -, isCreated⟩ := parts
      have ofCreated : Answered receiver.textPayload := answers_asText ⟨created, isCreated⟩
      exact ofCreated.bind fun _ _ => spelled.ends
    · exact answered_pure

theorem safe_memberCallText (fits : node.Fits role) (isText : node.payload.IsText)
    (receiverFits : receiver.Fits .operand) (arguments : List String)
    (ofReceiver : IsSafe labels lowerReceiver) :
    IsSafe labels (memberCallText node receiver arguments lowerReceiver) := by
  have spelled := @safe_checkSpelled labels _ _ fits.callArgs
  have inferred := @safe_inferType labels _ _ receiverFits
  refine ofReceiver.bind fun whole _ => (safe_enclosed receiverFits).bind fun text _ =>
    (safe_part (answers_spelled isText)).bind fun name _ => ?_
  refine safe_ite ?_ (safe_ite spelled.ends ?_)
  · refine safe_read (fun _ _ => rfl) fun context _ =>
      (safe_writtenAs receiverFits).bind fun written _ => ?_
    split
    · exact isSafe_pure
    · exact inferred.ends.bind fun _ _ => safe_ite isSafe_pure isSafe_pure
  · split
    · exact ofReceiver.ends
    · refine safe_ite ?_ (safe_ite ?_ (safe_ite safe_reject spelled.ends))
      · exact inferred.bind fun _ _ => ofReceiver.bind fun _ _ => (safe_enclosed receiverFits).ends
      · exact inferred.ends.bind fun _ _ =>
          safe_ite ofReceiver.ends isSafe_pure
    · exact spelled.ends

/-- Every operator of the grammar has a precedence. -/
theorem exists_precedence (isOperator : op ∈ binarySpellings) :
    ∃ own, operatorPrecedence.get? op = some own := by
  have allKnown : ∀ op ∈ binarySpellings, (operatorPrecedence.get? op).isSome := by
    decide
  exact Option.isSome_iff_exists.mp (allKnown op isOperator)

/-- Operators are lowered or rejected if their sides are. -/
theorem safe_binaryText (isOperator : op ∈ binarySpellings) (leftFits : left.Fits .operand)
    (rightFits : right.Fits .operand) (ofLeft : IsSafe labels lowerLeft)
    (ofRight : IsSafe labels lowerRight) :
    IsSafe labels (binaryText (.text op) left right lowerLeft lowerRight) := by
  have textOperation (operators : List String) : IsSafe labels (infer fun context =>
      isTextOperation context operators (.text op) left right) :=
    safe_infer (fun _ _ => by rw [isTextOperation_following]) fun context _ =>
      answered_isTextOperation context leftFits rightFits
  refine Safe.bind (safe_infer (fun _ _ => by rw [isZeroDefault_following]) fun context _ =>
    answered_isZeroDefault context leftFits) fun _ _ =>
    safe_ite ofLeft ?_
  refine Safe.bind (safe_infer (fun _ _ => by rw [isArrayAppend_following]) fun context _ =>
    answered_isArrayAppend context leftFits) fun _ _ =>
    safe_ite ?_ ?_
  · exact ofLeft.bind fun _ _ => (safe_enclosed leftFits).bind fun _ _ =>
      ofRight.ends
  refine (textOperation _).bind fun _ _ => safe_ite ?_ ((textOperation _).bind fun _ _ =>
    safe_ite ?_ ?_)
  iterate 2
    · exact ofLeft.bind fun _ _ => ofRight.ends
  · obtain ⟨own, isKnown⟩ := exists_precedence isOperator
    have known : (Payload.text op).text?.bind operatorPrecedence.get? = some own := isKnown
    rw [known]
    exact ofLeft.bind fun _ _ => (safe_enclosed leftFits).bind fun _ _ =>
      ofRight.bind fun _ _ => (safe_enclosed rightFits).ends

theorem safe_assignmentText (valueFits : value.Fits .operand) (ofTarget : IsSafe labels lowerTarget)
    (ofValue : IsSafe labels lowerValue) :
    IsSafe labels (assignmentText node value lowerTarget lowerValue) := by
  unfold assignmentText
  refine safe_guard safe_reject (ofTarget.bind fun _ _ => safe_ite ?_ ?_)
  · exact ofValue.bind fun _ _ => (safe_enclosed valueFits).ends
  · exact ofValue.ends

theorem safe_refuseKeywords (arguments : List Node) : IsSafe labels (refuseKeywords arguments) := by
  unfold refuseKeywords
  split
  · exact safe_reject
  · exact isSafe_pure

/-! ### Expressions -/

theorem safe_expressionsOf (ofEach : ∀ node ∈ nodes, IsSafe labels (expression node)) :
    IsSafe labels (expressions nodes) := by
  induction nodes with
  | nil =>
    exact isSafe_pure
  | cons _ _ ih =>
    obtain ⟨ofFirst, ofRest⟩ := forall_mem_cons.mp ofEach
    exact ofFirst.bind fun _ _ => (ih ofRest).ends

theorem safe_argumentsAmong (ofEach : ∀ node ∈ nodes, node.kind = .args → ∀ value ∈ node.children,
      IsSafe labels (expression value)) : IsSafe labels (argumentsAmong nodes) := by
  induction nodes with
  | nil =>
    exact isSafe_pure
  | cons _ _ ih =>
    obtain ⟨ofFirst, ofRest⟩ := forall_mem_cons.mp ofEach
    unfold argumentsAmong
    split
    · contradiction
    · rename_i same
      cases same
      exact (safe_refuseKeywords _).bind fun _ _ => safe_expressionsOf (ofFirst rfl)
    · rename_i same
      cases same
      exact ih ofRest

/-- An expression is lowered to a text or rejected. -/
theorem safe_expression (fits : node.Fits role) : IsSafe labels (expression node) := by
  refine Node.Fits.bySize ?_ fits
  intro _ node fits smaller
  have parts := fits.parts
  have ofArguments : IsSafe labels (argumentsAmong node.children) := by
    refine safe_argumentsAmong fun args isChild isArgs value isValue => ?_
    obtain ⟨_, argsFit⟩ := fits.child isChild
    exact smaller (argsFit.argument isArgs value isValue)
      (Nat.lt_trans (Node.size_lt_of_mem isValue) (Node.size_lt_of_mem isChild))
  obtain ⟨kind, _, _, _, children⟩ := node
  cases kind
  case literal => exact safe_literalText _
  case symbol =>
    obtain ⟨_, rfl⟩ := parts
    exact safe_read (fun _ _ => rfl) fun _ _ => isSafe_pure
  case identifier =>
    obtain ⟨name, -, rfl⟩ := parts
    exact safe_nameText ⟨name, rfl⟩
  case ivar =>
    obtain ⟨_, rfl⟩ := parts
    exact isSafe_pure
  case constant =>
    obtain ⟨_, -, rfl⟩ := parts
    exact isSafe_pure
  case selfRef => exact isSafe_pure
  case binary =>
    obtain ⟨_, isOperator, _, _, rfl, rfl, leftFits, rightFits⟩ := parts
    have ofLeft := smaller leftFits
    have ofRight := smaller rightFits
    exact safe_binaryText isOperator leftFits rightFits ofLeft ofRight
  case unary =>
    obtain ⟨_, -, _, rfl, rfl, operandFits⟩ := parts
    have ofOperand := smaller operandFits
    exact ofOperand.bind fun _ _ => (safe_enclosed operandFits).ends
  case ternary =>
    obtain ⟨_, _, _, rfl, conditionFits, trueFits, falseFits⟩ := parts
    have ofCondition := smaller conditionFits
    have ofTrue := smaller trueFits
    have ofFalse := smaller falseFits
    exact ofCondition.bind fun _ _ => (safe_enclosed conditionFits).bind fun _ _ =>
      ofTrue.bind fun _ _ => (safe_enclosed trueFits).bind fun _ _ =>
      ofFalse.bind fun _ _ => (safe_enclosed falseFits).ends
  case assignment =>
    obtain ⟨_, -, _, _, rfl, rfl, -, targetFits, valueFits⟩ := parts
    have ofTarget := smaller targetFits
    have ofValue := smaller valueFits
    exact safe_assignmentText valueFits ofTarget ofValue
  case index =>
    obtain ⟨_, _, rfl, baseFits, indexFits⟩ := parts
    have ofBase := smaller baseFits
    have ofIndex := smaller indexFits
    exact ofBase.bind fun _ _ => (safe_enclosed baseFits).bind fun _ _ =>
      ofIndex.ends
  case array =>
    cases children with
    | nil => exact isSafe_pure
    | cons => exact safe_reject
  case call =>
    obtain ⟨_, named, _, _, rfl, rfl, -⟩ := parts
    rw [expression]
    refine safe_guard safe_reject ?_
    exact ofArguments.bind fun _ _ => safe_functionCallText fits named rfl _
  case methodCall =>
    obtain ⟨name, -, _, _, _, rfl, rfl, receiverFits, -⟩ := parts
    have ofReceiver := smaller receiverFits
    rw [expression]
    refine safe_guard safe_reject (ofArguments.bind fun arguments _ => ?_)
    refine (safe_infer (fun _ _ => by rw [directCall?_following]) fun context _ =>
      answered_directCall? fits receiverFits arguments).bind fun direct _ => ?_
    cases direct with
    | some => exact isSafe_pure
    | none => exact safe_memberCallText fits ⟨name, rfl⟩ receiverFits arguments ofReceiver
  all_goals exact safe_reject

theorem safe_expressions (fit : ∀ node ∈ nodes, node.Fits role) :
    IsSafe labels (expressions nodes) :=
  safe_expressionsOf fun node mem => safe_expression (fit node mem)

theorem safe_arguments (fit : ∀ node ∈ nodes, node.Fits role) : IsSafe labels (arguments nodes) :=
  (safe_refuseKeywords _).bind fun _ _ => safe_expressions fit

theorem safe_operand (fits : node.Fits role) : IsSafe labels (operand node parent strict) :=
  (safe_expression fits).bind fun _ _ => safe_enclosed fits

theorem safe_negation (fits : node.Fits role) : IsSafe labels (negation node) := by
  unfold negation
  split
  · rename_i isNegation
    have isUnary : node.kind = .unary := by
      simp only [Bool.and_eq_true, beq_iff_eq] at isNegation
      exact isNegation.1
    have parts := fits.parts
    rw [Node.Parts, isUnary] at parts
    obtain ⟨-, -, operand, -, isChildren, operandFits⟩ := parts
    have ofOperand : Answers (Node.Fits .operand) (node.childAt 0) :=
      answers_childAt (by rw [isChildren]; rfl) operandFits
    exact (safe_part ofOperand).bind fun _ operandFits => safe_expression operandFits
  · exact (safe_operand fits).ends

end

end ContractForge
