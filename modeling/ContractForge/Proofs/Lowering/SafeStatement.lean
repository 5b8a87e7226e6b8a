import ContractForge.Proofs.Lowering.SafeExpression

/-!
# Statements are lowered safely

What a statement is made of has the role that its place demands: targets and values are
operands, parameters are names, and the bodies of conditionals, loops and blocks hold
statements again. So every statement is lowered or rejected (`safe_statement`).
-/

namespace ContractForge

open Lower List

variable {arguments : List Node}

section

variable {labels : List Payload} {count : Node}

theorem safe_hasText (fits : node.Fits role) : IsSafe labels (hasText node) :=
  Safe.bind (safe_infer (fun _ _ => by rw [unspelled?_following]) fun context _ =>
    answers_unspelled? context fits) fun _ _ => isSafe_pure

/-! ### Assignments -/

theorem safe_declaration (isText : name.IsText) (valueFits : value.Fits .operand) :
    IsSafe labels (declaration node name value) := by
  unfold declaration
  refine safe_guard safe_reject ((safe_expression valueFits).bind fun text _ => ?_)
  refine (safe_inferType valueFits).bind fun found _ => ?_
  cases found with
  | none => exact safe_reject
  | some =>
    refine (safe_hasText valueFits).bind fun isShown _ => ?_
    refine (safe_declareLocal isText _).bind fun generated _ =>
      safe_read (fun _ _ => rfl) fun context _ => ?_
    refine safe_ite ?_ isSafe_pure
    refine (safe_modifyMethod fun _ steady => ?_).ends
    exact { steady with }

theorem safe_attributeAssignment (targetFits : target.Fits .operand)
    (isCall : target.kind = .methodCall) (valueFits : value.Fits .operand) :
    IsSafe labels (attributeAssignment node target value) := by
  have parts := targetFits.parts
  rw [Node.Parts, isCall] at parts
  obtain ⟨_, -, receiver, _, _, -, isChildren, -⟩ := parts
  have ofReceiver : Answered (target.childAt 0) := answers_childAt (by rw [isChildren]; rfl) trivial
  refine (safe_part ofReceiver).bind fun receiver _ => safe_guard safe_reject ?_
  refine (safe_expression valueFits).bind fun text _ =>
    safe_read (fun _ _ => rfl) fun context _ => ?_
  split
  · exact isSafe_pure
  · exact safe_ite isSafe_pure safe_reject

/-- An assignment to whatever can be an operand is lowered or rejected. -/
theorem safe_assignment (targetFits : target.Fits .operand)
    (valueFits : value.Fits .operand) : IsSafe labels (assignment node target value) := by
  unfold assignment
  refine safe_guard safe_reject (safe_read (fun _ _ => rfl) fun context _ => ?_)
  split
  · rename_i isNew
    simp only [isNewLocal, Bool.and_eq_true, beq_iff_eq] at isNew
    have parts := targetFits.parts
    rw [Node.Parts, isNew.1] at parts
    obtain ⟨name, -, isName⟩ := parts
    exact safe_declaration ⟨name, isName⟩ valueFits
  · split
    · rename_i isCall
      exact safe_attributeAssignment targetFits (beq_iff_eq.mp isCall) valueFits
    · refine (safe_expression targetFits).bind fun text _ => safe_ite ?_ ?_
      · exact (safe_operand valueFits).ends
      · exact (safe_expression valueFits).ends

/-! ### Loops -/

theorem safe_loopIndex {name : Option Payload} (isText : ∀ param ∈ name, param.IsText) :
    IsSafe labels (loopIndex name) := by
  cases name with
  | some param => exact (safe_declareLocal (isText param rfl) _).ends
  | none => exact safe_nextIndexName.ends

theorem safe_timesLoop (countFits : count.Fits .operand)
    (areTexts : ∀ param ∈ params, param.IsText) (ofBody : IsSafe labels lowerBody) :
    IsSafe labels (timesLoop count params lowerBody) := by
  refine (safe_operand countFits).bind fun bound _ => Safe.inBlock ?_
  refine (safe_loopIndex fun param isFirst => ?_).bind fun index _ =>
    ofBody.ends
  exact areTexts param (mem_of_mem_head? isFirst)

theorem safe_sequenceElement : IsSafe labels (sequenceElement node type) := by
  unfold sequenceElement
  split
  · exact safe_reject
  · exact safe_reject
  all_goals exact isSafe_pure

theorem rootName?_isText (fits : node.Fits role) : ∀ name ∈ rootName? node, name.IsText := by
  refine Node.Fits.bySize ?_ fits
  rintro role ⟨kind, _, _, _, _⟩ fits smaller
  have parts := fits.parts
  cases kind
  case identifier =>
    obtain ⟨_, -, rfl⟩ := parts
    simp [rootName?, Payload.IsText]
  case ivar =>
    obtain ⟨_, rfl⟩ := parts
    simp [rootName?, Payload.IsText]
  case index =>
    obtain ⟨_, _, rfl, baseFits, -⟩ := parts
    have ofBase := smaller baseFits
    rwa [rootName?]
  case methodCall =>
    obtain ⟨_, -, _, _, _, rfl, rfl, receiverFits, -⟩ := parts
    have ofReceiver := smaller receiverFits
    rwa [rootName?]
  all_goals simp [rootName?]

theorem answered_lengthBase (fits : node.Fits role) : Answered (lengthBase node) := by
  have isText : (((rootName? node).filter Payload.isGiven).getD (.text "items")).IsText := by
    cases found : (rootName? node).filter Payload.isGiven with
    | none => exact ⟨_, rfl⟩
    | some name =>
      obtain ⟨isRoot, -⟩ := Option.filter_eq_some_iff.mp found
      exact rootName?_isText fits name isRoot
  exact (answers_asText isText).ends

theorem safe_sequenceLoop (subjectFits : subject.Fits .operand)
    (areTexts : ∀ param ∈ params, param.IsText) (ofBody : IsSafe labels lowerBody) :
    IsSafe labels (sequenceLoop node subject params lowerBody) := by
  refine (safe_expression subjectFits).bind fun sequence _ => ?_
  refine (safe_inferType subjectFits).bind fun type _ =>
    safe_sequenceElement.bind fun element _ => ?_
  refine (safe_part (answered_lengthBase subjectFits)).bind fun base _ =>
    safe_uniqueName.bind fun length _ => (safe_writtenAs subjectFits).bind fun written _ => ?_
  refine Safe.inBlock (Safe.bind (safe_modify (fun _ _ => ⟨rfl, rfl⟩) fun _ steady =>
    steady.withBlock _) fun _ _ => ?_)
  refine (safe_loopIndex (Payload.isText_second areTexts)).bind fun index _ => ?_
  cases isFirst : params.head? with
  | none => exact ofBody.ends
  | some param =>
    refine (safe_declareLocal (areTexts param (mem_of_mem_head? isFirst)) _).bind fun _ _ => ?_
    exact ofBody.ends

theorem safe_loopStatement (subjectFits : subject.Fits .operand)
    {params : List Node} (paramsFit : ∀ param ∈ params, param.Fits .identifier)
    (ofBody : IsSafe labels lowerBody) :
    IsSafe labels (loopStatement node subject params lowerBody) := by
  have areTexts : ∀ param ∈ params.map Node.payload, param.IsText := by
    intro _ isParam
    obtain ⟨name, isName, rfl⟩ := mem_map.mp isParam
    cases paramsFit name isName
    exact ⟨_, rfl⟩
  refine safe_ite ?_ (safe_ite ?_ (safe_ite ?_ ?_))
  · exact (safe_expression subjectFits).bind fun _ _ => ofBody.inBlock.ends
  · exact (safe_negation subjectFits).bind fun _ _ => ofBody.inBlock.ends
  · exact safe_timesLoop subjectFits areTexts ofBody
  · exact safe_sequenceLoop subjectFits areTexts ofBody

/-! ### Events -/

theorem answered_eventName?
    (fit : ∀ argument ∈ arguments, argument.Fits .operand) : Answered (eventName? arguments) := by
  cases arguments with
  | nil => exact answered_pure
  | cons first =>
    have parts := (fit first mem_cons_self).parts
    obtain ⟨kind, _, _, _, _⟩ := first
    cases kind
    case call =>
      obtain ⟨_, -, _, _, rfl, -⟩ := parts
      exact answered_pure
    case symbol =>
      obtain ⟨_, rfl⟩ := parts
      exact answered_pure
    case constant =>
      obtain ⟨_, -, rfl⟩ := parts
      exact answered_pure
    all_goals exact answered_pure

theorem eventValues_fit (fit : ∀ argument ∈ arguments, argument.Fits .operand) :
    ∀ value ∈ eventValues arguments, value.Fits .operand := by
  cases arguments with
  | nil => simp [eventValues]
  | cons first rest =>
    obtain ⟨firstFits, restFit⟩ := forall_mem_cons.mp fit
    show ∀ value ∈ (if first.kind == .call then first.callArgs else rest), value.Fits .operand
    split
    · exact firstFits.callArgs
    · exact restFit

theorem answered_eventParameterName (fits : node.Fits role) (index : Nat) :
    Answered (eventParameterName node index) := by
  have parts := fits.parts
  obtain ⟨kind, _, _, _, _⟩ := node
  cases kind
  case identifier =>
    obtain ⟨_, -, rfl⟩ := parts
    exact answered_pure
  case ivar =>
    obtain ⟨_, rfl⟩ := parts
    exact answered_pure
  case methodCall =>
    obtain ⟨_, -, _, _, _, rfl, rfl, -⟩ := parts
    unfold eventParameterName
    split <;> exact answered_pure
  all_goals exact answered_pure

theorem answered_eventParameters (context : Context)
    (fit : ∀ value ∈ values, value.Fits role) (found : List Parameter) :
    Answered (eventParameters context found values) := by
  induction values generalizing found with
  | nil => exact answered_pure
  | cons _ _ ih =>
    obtain ⟨valueFits, restFit⟩ := forall_mem_cons.mp fit
    exact (answered_eventParameterName valueFits _).bind fun _ _ =>
      (answered_inferType context valueFits).bind fun _ _ => ih restFit _

theorem safe_registerEvent (fit : ∀ value ∈ values, value.Fits role)
    (name : String) : IsSafe labels (registerEvent node name values) := by
  refine safe_read (fun _ _ => rfl) fun context _ => ?_
  split
  · exact safe_ite safe_report isSafe_pure
  · refine Safe.bind (safe_infer (fun _ _ => by rw [eventParameters_following]) fun context _ =>
      answered_eventParameters context fit []) fun _ _ => ?_
    exact safe_modify (fun _ _ => ⟨rfl, rfl⟩) fun _ steady =>
      { steady with }

theorem safe_emitStatement (fit : ∀ part ∈ parts, part.Fits .operand) :
    IsSafe labels (emitStatement node parts) := by
  have valuesFit := eventValues_fit fit
  unfold emitStatement
  refine safe_guard safe_reject ((safe_part (answered_eventName? fit)).bind fun found _ => ?_)
  cases found with
  | none => exact safe_reject
  | some name =>
    refine (safe_arguments valuesFit).bind fun texts _ =>
      (safe_registerEvent valuesFit name).bind fun _ _ => ?_
    refine Safe.bind (safe_noteUnwritable (fun _ _ => by rw [checkSpelled_following])
      fun context _ => answered_checkSpelled context valuesFit)
      fun _ _ => isSafe_pure

/-! ### Checks and failures -/

theorem safe_messageText (fits : node.Fits role) : IsSafe labels (messageText node) := by
  unfold messageText
  split
  · rename_i isSymbol
    have parts := fits.parts
    rw [Node.Parts, beq_iff_eq.mp isSymbol] at parts
    obtain ⟨name, isText⟩ := parts
    have spelled : Answered node.textPayload := answers_asText ⟨name, isText⟩
    exact (safe_part spelled).ends
  · exact safe_expression fits

theorem safe_requireStatement (fit : ∀ part ∈ parts, part.Fits .operand) :
    IsSafe labels (requireStatement node parts) := by
  unfold requireStatement
  split
  · exact (safe_expression (fit _ (by simp))).ends
  · rename_i condition message
    have messageFits : message.Fits .operand := fit _ (by simp)
    exact (safe_expression (fit condition (by simp))).bind fun _ _ =>
      (safe_messageText messageFits).bind fun _ _ => (safe_hasText messageFits).ends
  · exact safe_reject

theorem safe_revertWith (fits : node.Fits role) : IsSafe labels (revertWith node) :=
  (safe_messageText fits).bind fun _ _ =>
    Safe.bind (safe_infer (fun _ _ => by rw [unspelled?_following]) fun context _ =>
      answers_unspelled? context fits) fun _ _ => isSafe_pure

theorem safe_revertStatement (fit : ∀ part ∈ parts, part.Fits .operand) :
    IsSafe labels (revertStatement parts) := by
  unfold revertStatement
  split
  · exact isSafe_pure
  · rename_i first rest
    obtain ⟨firstFits, restFit⟩ := forall_mem_cons.mp fit
    split
    · exact safe_revertWith firstFits
    · rename_i isConstant
      cases rest with
      | cons message => exact safe_revertWith (restFit message mem_cons_self)
      | nil =>
        have parts := firstFits.parts
        rw [Node.Parts, bne_iff_ne.not_left.mp isConstant] at parts
        obtain ⟨name, -, isText⟩ := parts
        have spelled : Answered first.textPayload := answers_asText ⟨name, isText⟩
        exact (safe_part spelled).ends

/-! ### Other statements -/

theorem safe_expressionStatement (fits : node.Fits role) :
    IsSafe labels (expressionStatement node) := by
  refine safe_read (fun _ _ => rfl) fun context _ => safe_ite ?_ ?_
  · refine (safe_modifyMethod fun _ steady => ?_).ends
    refine ⟨steady.parameters, ?_, steady.writable, steady.typed⟩
    intro _ isGiven
    cases isGiven
    exact steady.parameters
  · exact (safe_expression fits).ends

theorem safe_returnStatement {value : Option Node} (fit : ∀ inner ∈ value, inner.Fits .operand) :
    IsSafe labels (returnStatement value) := by
  cases value with
  | none => exact isSafe_pure
  | some value =>
    have valueFits := fit value rfl
    refine (safe_expression valueFits).bind fun _ _ =>
      (safe_inferType valueFits).bind fun type _ => ?_
    cases type with
    | none => exact (safe_hasText valueFits).ends
    | some =>
      refine (safe_modifyMethod fun _ steady => ?_).bind fun _ _ =>
        (safe_hasText valueFits).ends
      exact { steady with }

theorem safe_callStatement (fits : node.Fits role)
    (ofLoop : IsSafe labels lowerLoop) : IsSafe labels (callStatement node lowerLoop) := by
  have argumentsFit := fits.callArgs
  refine safe_ite ((safe_requireStatement argumentsFit).ends) ?_
  refine safe_ite ((safe_emitStatement argumentsFit).ends) ?_
  refine safe_ite ((safe_revertStatement argumentsFit).ends) ?_
  refine safe_ite safe_report.ends ?_
  refine safe_ite ofLoop.ends ?_
  refine safe_read (fun _ _ => rfl) fun context _ => safe_ite ?_ (safe_expressionStatement fits)
  refine (safe_arguments argumentsFit).bind fun texts _ => ?_
  have written : Safe labels (fun names => ∀ name ∈ names, name.IsText)
      ((node.callArgs.zip texts).mapM fun entry => writtenAs entry.1 entry.2) :=
    composes_safe.mapM fun entry mem => safe_writtenAs (argumentsFit _ (of_mem_zip mem).1)
  refine written.bind fun names areTexts => ?_
  refine (safe_modifyMethod fun _ steady => ?_).ends
  refine ⟨steady.parameters, ?_, steady.writable, steady.typed⟩
  intro _ isGiven
  cases isGiven
  exact areTexts

theorem safe_noteLine : IsSafe labels (noteLine line) :=
  safe_ite (safe_modify (fun _ _ => ⟨rfl, rfl⟩) fun _ steady =>
    { steady with }) isSafe_pure

/-! ### Bodies -/

theorem safe_statementsOf (ofEach : ∀ node ∈ nodes, IsSafe labels (statement node)) :
    IsSafe labels (statements nodes) := by
  induction nodes with
  | nil =>
    exact isSafe_pure
  | cons _ _ ih =>
    obtain ⟨ofFirst, ofRest⟩ := forall_mem_cons.mp ofEach
    exact ofFirst.bind fun _ _ => (ih ofRest).ends

/-- The statements of a body are safe. -/
def SafeBody (labels : List Payload) (body : Node) : Prop :=
  ∀ node ∈ body.children, IsSafe labels (statement node)

theorem SafeBody.statements (safe : SafeBody labels ⟨kind, payload, line, column, nodes⟩) :
    IsSafe labels (statements nodes) :=
  safe_statementsOf safe

/-- Conditionals are safe if their bodies are, the last of which may have no condition. -/
theorem safe_conditionals (negated : Bool)
    (conditions : ∀ branch ∈ (Node.pairUp parts).1, branch.1.Fits .operand)
    (bodies : ∀ branch ∈ (Node.pairUp parts).1, SafeBody labels branch.2)
    (otherwise : ∀ body ∈ (Node.pairUp parts).2, SafeBody labels body) :
    IsSafe labels (conditionals negated parts) := by
  fun_induction Node.pairUp parts generalizing negated with
  | case1 _ body rest branches _ split ih =>
    obtain ⟨conditionFits, restConditions⟩ := forall_mem_cons.mp conditions
    obtain ⟨ofBody, restBodies⟩ := forall_mem_cons.mp bodies
    rw [split] at ih
    have ofRest := ih false restConditions restBodies otherwise
    obtain ⟨_, _, _, _, nodes⟩ := body
    refine safe_ite ((safe_negation conditionFits).bind fun _ _ => ?_)
      ((safe_expression conditionFits).bind fun _ _ => ?_)
    all_goals exact ofBody.statements.inBlock.bind fun _ _ => ofRest.ends
  | case2 last =>
    obtain ⟨_, _, _, _, _⟩ := last
    exact (otherwise _ rfl).statements.inBlock.ends
  | case3 =>
    exact isSafe_pure

theorem safe_loopBlock
    (ofEach : ∀ node ∈ nodes, node.kind = .block → ∃ params body, node.children = [params, body] ∧
      SafeBody labels body) : IsSafe labels (loopBlock nodes) := by
  induction nodes with
  | nil =>
    exact isSafe_pure
  | cons node _ ih =>
    obtain ⟨ofFirst, ofRest⟩ := forall_mem_cons.mp ofEach
    by_cases isBlock : node.kind = .block
    · obtain ⟨_, body, isChildren, ofBody⟩ := ofFirst isBlock
      obtain ⟨_, _, _, _, _⟩ := node
      obtain ⟨_, _, _, _, _⟩ := body
      cases isBlock
      cases isChildren
      exact ofBody.statements.inBlock.ends
    · obtain ⟨_, _, _, _, _⟩ := node
      rw [loopBlock]
      · exact ih ofRest
      all_goals simp_all

/-- A statement is lowered or rejected. -/
theorem safe_statement (fits : node.Fits role) : IsSafe labels (statement node) := by
  refine Node.Fits.bySize ?_ fits
  intro _ node fits smaller
  have parts := fits.parts
  have ofBody {body : Node} (bodyFits : body.Fits .body) (inside : body.size < node.size) :
      SafeBody labels body := by
    cases bodyFits with
    | body statementsFit =>
      exact fun inner mem => smaller (statementsFit inner mem)
        (Nat.lt_trans (Node.size_lt_of_mem mem) inside)
  obtain ⟨kind, _, line, column, children⟩ := node
  unfold statement
  refine safe_noteLine.bind fun _ _ => ?_
  cases kind
  case assignment =>
    obtain ⟨_, -, _, _, rfl, rfl, -, targetFits, valueFits⟩ := parts
    exact safe_assignment targetFits valueFits
  case conditional =>
    obtain ⟨_, -, rfl, -, -, conditions, bodies, otherwise⟩ := parts
    refine (safe_conditionals _ conditions (fun branch isBranch => ?_) fun body isLast => ?_).ends
    · have isChild := Node.mem_iff_pairUp.mpr (.inl ⟨branch, isBranch, .inr rfl⟩)
      exact ofBody (bodies branch isBranch) (Node.size_lt_of_mem isChild)
    · exact ofBody (otherwise body isLast) (Node.size_lt_of_mem
        (Node.mem_iff_pairUp.mpr (.inr isLast)))
  case loop =>
    obtain ⟨_, rfl, ⟨_, _, body, rfl, subjectFits, paramsFit, bodyFits⟩ |
      ⟨_, body, rfl, conditionFits, bodyFits⟩⟩ := parts
    · have safe := ofBody bodyFits (Node.size_lt_of_mem (by simp))
      obtain ⟨_, _, _, _, _⟩ := body
      cases paramsFit with
      | blockParams namesFit =>
        exact (safe_loopStatement subjectFits namesFit safe.statements).ends
    · have safe := ofBody bodyFits (Node.size_lt_of_mem (by simp))
      obtain ⟨_, _, _, _, _⟩ := body
      exact (safe_loopStatement conditionFits (by simp) safe.statements).ends
  case returnFrom =>
    obtain ⟨_, rfl, valueFits⟩ := parts
    refine (safe_returnStatement ?_).ends
    simpa using valueFits
  case breakLoop | nextLoop => exact isSafe_pure
  case call =>
    obtain ⟨name, -, args, block, rfl, rfl, _, _⟩ := parts
    refine safe_callStatement fits (safe_loopBlock fun inner isChild isBlock => ?_)
    obtain ⟨_, innerFits⟩ := fits.child isChild
    have inside :
        inner.size < (⟨.call, .text name, line, column, args :: block.toList⟩ : Node).size :=
      Node.size_lt_of_mem isChild
    have innerParts := innerFits.parts
    rw [Node.Parts, isBlock] at innerParts
    obtain ⟨params, body, isChildren, -, bodyFits⟩ := innerParts
    refine ⟨params, body, isChildren, ofBody bodyFits
      (Nat.lt_trans (Node.size_lt_of_mem ?_) inside)⟩
    simp [isChildren]
  case body =>
    have fit := parts
    exact safe_statementsOf fun inner mem =>
      smaller (fit inner mem) (Node.size_lt_of_mem mem)
  case classDef | moduleDef | methodDef | marker | inclusion | accessor | importFile =>
    exact safe_report.ends
  case program | params | param | args | block | blockParams | pair => exact safe_reject
  all_goals exact safe_expressionStatement fits

end

end ContractForge
