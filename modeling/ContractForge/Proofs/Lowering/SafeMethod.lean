import ContractForge.Proofs.Lowering.SafeStatement

/-!
# Methods are lowered safely

The types of parameters are found by their names, which all parameters of a method have.
The last statement of a method is one that can stand there also when it is made to
return its value.
-/

namespace ContractForge

open Lower List

variable {params : List Node} {node body method : Node}

/-! ### Types of parameters -/

section

variable {node : Node}

/-- An indexed expression has a root, and its keys are operands. -/
theorem answers_indexChain (fits : node.Fits role) :
    Answers (fun chain => (∃ inner, chain.1.Fits inner) ∧ ∀ key ∈ chain.2, key.Fits .operand)
      (indexChain node) := by
  refine Node.Fits.bySize ?_ fits
  rintro role ⟨kind, _, _, _, _⟩ fits smaller
  have parts := fits.parts
  cases kind
  case index =>
    obtain ⟨_, _, rfl, baseFits, indexFits⟩ := parts
    have ofBase := smaller baseFits
    refine ofBase.bind fun chain holds => answers_pure ⟨holds.1, ?_⟩
    exact forall_mem_append.mpr ⟨holds.2, by simpa using indexFits⟩
  all_goals exact answers_pure ⟨⟨role, fits⟩, by simp⟩

theorem answers_loopParts (fits : node.Fits role) (isLoop : node.kind = .loop) :
    Answers (fun parts => parts.subject.Fits .operand) node.loopParts := by
  have parts := fits.parts
  rw [Node.Parts, isLoop] at parts
  obtain ⟨_, -, ⟨_, _, _, isChildren, subjectFits, -⟩ |
    ⟨_, _, isChildren, conditionFits, -⟩⟩ := parts
  · exact ⟨_, by rw [Node.loopParts, isChildren], subjectFits⟩
  · exact ⟨_, by rw [Node.loopParts, isChildren], conditionFits⟩

theorem answered_usageTypeAt (isText : name.IsText) (fits : node.Fits role) :
    Answered (usageTypeAt context name node) := by
  have ofName := answers_asText isText
  have parts := fits.parts
  have ofLoop := answers_loopParts fits
  obtain ⟨kind, _, _, _, _⟩ := node
  cases kind
  case loop =>
    refine answers_ite ((ofLoop rfl).bind fun parts _ => answers_ite ?_ answered_pure) answered_pure
    exact answers_ite answered_pure ofName.ends
  case methodCall =>
    obtain ⟨_, -, _, _, _, rfl, rfl, -⟩ := parts
    refine answers_ite (answers_ite ofName.ends (answers_ite answered_pure ?_)) ?_
    all_goals exact answered_pure
  case index =>
    obtain ⟨_, _, rfl, -⟩ := parts
    refine answers_ite ofName.ends ?_
    exact (answers_indexChain fits).ends
  case assignment =>
    obtain ⟨_, -, _, _, rfl, rfl, -⟩ := parts
    refine answers_ite (answers_ite (answers_ite answered_pure ?_) ?_) ?_
    all_goals exact answered_pure
  all_goals exact answered_pure

theorem answered_usageType? (isText : name.IsText)
    (fit : ∀ node ∈ nodes, ∃ role, node.Fits role) : Answered (usageType? context name nodes) := by
  induction nodes with
  | nil => exact answered_pure
  | cons _ _ ih =>
    obtain ⟨⟨_, fits⟩, restFit⟩ := forall_mem_cons.mp fit
    refine (answered_usageTypeAt isText fits).bind fun found _ => ?_
    cases found with
    | some => exact answered_pure
    | none => exact ih restFit

end

def Node.IsMethod (node : Node) : Prop :=
  node.kind = .methodDef ∧ ∃ role, node.Fits role

theorem Node.IsMethod.parts (isMethod : method.IsMethod) :
    ∃ name params body markers, method.children = name :: params :: body :: markers ∧
      name.Fits .identifier ∧ params.Fits .params ∧ body.Fits .body := by
  obtain ⟨isDefinition, _, fits⟩ := isMethod
  have parts := fits.parts
  rwa [Node.Parts, isDefinition] at parts

section

variable {method param : Node}

theorem answers_methodName (isMethod : method.IsMethod) :
    Answers Payload.IsText method.methodName := by
  obtain ⟨name, _, _, _, isChildren, nameFits, -⟩ := isMethod.parts
  have isName : Answers (Node.Fits .identifier) (method.childAt 0) :=
    answers_childAt (by rw [isChildren]; rfl) nameFits
  refine isName.bind fun name nameFits => answers_pure ?_
  cases nameFits
  exact ⟨_, rfl⟩

theorem answers_methodParams (isMethod : method.IsMethod) :
    Answers (fun params => ∀ param ∈ params, param.Fits .param) method.methodParams := by
  obtain ⟨_, params, _, _, isChildren, -, paramsFit, -⟩ := isMethod.parts
  have areParams : Answers (Node.Fits .params) (method.childAt 1) :=
    answers_childAt (by rw [isChildren]; rfl) paramsFit
  refine areParams.bind fun params paramsFit => answers_pure ?_
  cases paramsFit with
  | params childrenFit => exact childrenFit

theorem answers_methodBody (isMethod : method.IsMethod) :
    Answers (Node.Fits .body) method.methodBody := by
  obtain ⟨_, _, _, _, isChildren, -, -, bodyFits⟩ := isMethod.parts
  exact answers_childAt (by rw [isChildren]; rfl) bodyFits

theorem Node.Fits.statements (fits : body.Fits .body) :
    ∀ node ∈ body.children, node.Fits .statement := by
  cases fits with
  | body statementsFit => exact statementsFit

theorem answers_paramName (fits : param.Fits .param) : Answers Payload.IsText param.paramName := by
  cases fits with
  | param nameFits =>
    cases nameFits
    exact answers_pure ⟨_, rfl⟩

theorem safe_parameterType (bodyFits : body.Fits .body) (fits : param.Fits .param) :
    IsSafe labels (parameterType body param) := by
  refine (safe_part (answers_paramName fits)).bind fun name isText => ?_
  cases fits with
  | @param inner line column default nameFits defaultFits =>
    cases default with
    | some value =>
      have valueFits := defaultFits value rfl
      refine (safe_infer (fun _ _ => rfl) fun context _ =>
        answered_literalType context.contract.enums valueFits).bind fun found _ => ?_
      cases found with
      | some => exact isSafe_pure
      | none => exact safe_reject
    | none =>
      refine (safe_infer (fun _ _ => by rw [usageType?_following]) fun context _ =>
        answered_usageType? isText bodyFits.walk).bind fun found _ => ?_
      cases found with
      | some => exact isSafe_pure
      | none => exact (safe_part (answers_asText isText)).ends

def paramNames (method : Node) : Except Malformed (List Payload) := do
  (← method.methodParams).mapM Node.paramName

theorem answers_paramNames (isMethod : method.IsMethod) :
    Answers (fun names => ∀ name ∈ names, name.IsText) (paramNames method) :=
  (answers_methodParams isMethod).bind fun _ fit =>
    composes_answers.mapM fun param mem => answers_paramName (fit param mem)

theorem safe_typesOf (bodyFits : body.Fits .body) (fit : ∀ param ∈ params, param.Fits .param)
    (areNames : params.mapM Node.paramName = .ok names) :
    Safe labels (fun types => types.map Prod.fst = names) (params.mapM fun param => do
      let type ← parameterType body param
      return (← part param.paramName, type)) := by
  induction params generalizing names with
  | nil =>
    cases areNames
    exact safe_pure rfl
  | cons param rest ih =>
    obtain ⟨paramFits, restFit⟩ := forall_mem_cons.mp fit
    obtain ⟨name, isName, -⟩ := answers_paramName paramFits
    obtain ⟨_, areOthers, -⟩ : Answers (fun _ => True) (rest.mapM Node.paramName) :=
      (composes_answers.mapM fun param mem => answers_paramName (restFit param mem)).answered
    rw [mapM_cons, isName, areOthers] at areNames
    cases areNames
    have ofName : Answers (· = name) param.paramName := ⟨name, isName, rfl⟩
    have ofParam : Safe labels (fun entry => entry.1 = name) (do
        let type ← parameterType body param
        return (← part param.paramName, type)) :=
      (safe_parameterType bodyFits paramFits).bind fun _ _ =>
        (safe_part ofName).bind fun _ same => safe_pure same
    rw [mapM_cons]
    refine ofParam.bind fun entry isFirst => ?_
    refine (ih restFit areOthers).bind fun types areRest => safe_pure ?_
    rw [map_cons, isFirst, areRest]

theorem safe_parameterTypes (isMethod : method.IsMethod)
    (areNames : paramNames method = .ok names) :
    Safe labels (fun types => types.map Prod.fst = names) (parameterTypes method) := by
  obtain ⟨params, areParams, fit⟩ := answers_methodParams isMethod
  have ofParams : Answers (· = params) method.methodParams := ⟨params, areParams, rfl⟩
  rw [paramNames, areParams] at areNames
  refine (safe_part (answers_methodBody isMethod)).bind fun body bodyFits =>
    (safe_part ofParams).bind fun _ same => ?_
  subst same
  exact safe_typesOf bodyFits fit areNames

theorem Payload.beq_comm (left right : Payload) : (left == right) = (right == left) := by
  show left.isSame right = right.isSame left
  unfold Payload.isSame
  cases left.key? <;> cases right.key? <;> simp [eq_comm]

theorem answered_typeNamed
    (isParameter : (types.map Prod.fst).contains name) : Answered (typeNamed types name) := by
  obtain ⟨other, isOther, same⟩ := contains_iff_exists_mem_beq.mp isParameter
  obtain ⟨entry, isEntry, rfl⟩ := mem_map.mp isOther
  have found : (typeNamed? types name).isSome := by
    rw [typeNamed?, Option.isSome_map, find?_isSome]
    exact ⟨entry, mem_reverse.mpr isEntry, by rwa [Payload.beq_comm] at same⟩
  obtain ⟨type, isFound⟩ := Option.isSome_iff_exists.mp found
  refine ⟨type, ?_, trivial⟩
  rw [typeNamed, isFound]

theorem safe_declareParameters (name : String) (types : List (Payload × StaticType))
    (areTexts : ∀ entry ∈ entries, entry.2.1.IsText) :
    IsSafe labels (declareParameters name types entries) := by
  induction entries with
  | nil => exact isSafe_pure
  | cons entry rest ih =>
    obtain ⟨isText, restTexts⟩ := forall_mem_cons.mp areTexts
    obtain ⟨_, source, ownType⟩ := entry
    rw [declareParameters]
    refine safe_guard safe_report ((safe_declareLocal isText _).bind fun _ isGenerated => ?_)
    refine Safe.bind (safe_modify (fun _ _ => ⟨rfl, rfl⟩) fun _ steady => ?_) fun _ _ =>
      (ih restTexts).ends
    refine ⟨?_, steady.baseArguments, steady.writable, steady.typed⟩
    exact forall_mem_append.mpr ⟨steady.parameters, by simpa using isGenerated⟩

/-! ### Hoisting -/

theorem answered_assignedName? (fits : node.Fits role) : Answered (assignedName? node) := by
  unfold assignedName?
  split
  · exact answered_pure
  · rename_i isAssignment
    have parts := fits.parts
    rw [Node.Parts, bne_iff_ne.not_left.mp isAssignment] at parts
    obtain ⟨_, -, _, _, -, isChildren, -⟩ := parts
    have ofTarget : Answered (node.childAt 0) := answers_childAt (by rw [isChildren]; rfl) trivial
    exact ofTarget.ends

theorem answered_hoistedAmong (fit : ∀ node ∈ nodes, ∃ role, node.Fits role)
    (assigned : List Payload) : Answered (hoistedAmong assigned nodes) := by
  induction nodes generalizing assigned with
  | nil => exact answered_pure
  | cons node rest ih =>
    obtain ⟨⟨_, fits⟩, restFit⟩ := forall_mem_cons.mp fit
    refine (answered_assignedName? fits).bind fun found _ => ?_
    cases found with
    | some _ => exact ih restFit _
    | none =>
      refine answers_ite ?_ (ih restFit _)
      have ofNames : Answered (node.walk.filterMapM assignedName?) := by
        refine answered_filterMapM fun below mem => ?_
        obtain ⟨_, belowFits⟩ := fits.walk below mem
        exact answered_assignedName? belowFits
      exact ofNames.bind fun _ _ => (ih restFit _).ends

/-! ### Returned values -/

/-- Statements that are values are operands. -/
theorem Node.Fits.operand (fits : node.Fits .statement)
    (isValue : node.kind ∈ [.literal, .symbol, .ivar, .index, .unary, .ternary, .selfRef, .constant,
      .binary, .identifier, .call, .methodCall]) : node.Fits .operand := by
  cases fits with
  | ofOperand fits => exact fits
  | ofMarker fits =>
    cases fits
    simp at isValue
  | _ => simp at isValue

theorem answers_returnsValue (context : Context) (fits : node.Fits .statement) :
    Answers (fun wanted => wanted = true → node.Fits .operand) (returnsValue context node) := by
  have typed (isOperand : node.Fits .operand) :
      Answers (fun wanted => wanted = true → node.Fits .operand)
        (do return (← inferType context node).isSome) :=
    (answered_inferType context fits).bind fun _ _ => answers_pure fun _ => isOperand
  have no : Answers (fun wanted => wanted = true → node.Fits .operand)
      (pure false : Except Malformed Bool) := answers_pure (by simp)
  have parts := fits.parts
  have mem := answered_globalMember? context fits
  have isOperand := fits.operand
  obtain ⟨kind, payload, line, column, _⟩ := node
  cases kind
  case literal =>
    cases payload
    all_goals exact typed (isOperand (by simp))
  case symbol | ivar | index | unary | ternary | selfRef | constant =>
    exact typed (isOperand (by simp))
  case binary =>
    obtain ⟨op, -, left, right, rfl, rfl, leftFits, -⟩ := parts
    have asOperand := isOperand (by simp)
    by_cases isShift : op = "<<"
    · subst isShift
      refine (answered_inferType context leftFits).bind fun found _ => ?_
      split
      · exact no
      · exact no
      · exact typed asOperand
    · have plain : returnsValue context ⟨.binary, .text op, line, column, [left, right]⟩ =
          (do return (← inferType context ⟨.binary, .text op, line, column,
            [left, right]⟩).isSome) := by
        unfold returnsValue
        split <;> simp_all
      rw [plain]
      exact typed asOperand
  case identifier => exact answers_ite (typed (isOperand (by simp))) no
  case call => exact answers_ite (typed (isOperand (by simp))) no
  case methodCall =>
    obtain ⟨_, -, _, _, _, rfl, rfl, -⟩ := parts
    have asOperand := isOperand (by simp)
    have ifWanted (wanted : Bool) := @answers_ite _ _ (wanted = true) _ _ _ (typed asOperand) no
    refine Answers.bind (answers_childAt rfl trivial) fun (_ : Node) (_ : True) =>
      mem.bind fun _ _ => ?_
    exact answers_ite (ifWanted _) (answers_ite (ifWanted true) (ifWanted _))
  all_goals exact no

/-- The conditions and bodies of a conditional can stand there. -/
def BranchesFit (parts : List Node) : Prop :=
  (∀ branch ∈ (Node.pairUp parts).1, branch.1.Fits .operand) ∧
    (∀ branch ∈ (Node.pairUp parts).1, branch.2.Fits .body) ∧
    ∀ body ∈ (Node.pairUp parts).2, body.Fits .body

theorem branchesFit_cons :
    BranchesFit (condition :: body :: rest) ↔
      condition.Fits .operand ∧ body.Fits .body ∧ BranchesFit rest := by
  have paired : Node.pairUp (condition :: body :: rest) =
      ((condition, body) :: (Node.pairUp rest).1, (Node.pairUp rest).2) := rfl
  simp only [BranchesFit, paired, forall_mem_cons]
  constructor
  · rintro ⟨⟨conditionFits, conditions⟩, ⟨bodyFits, bodies⟩, otherwise⟩
    exact ⟨conditionFits, bodyFits, conditions, bodies, otherwise⟩
  · rintro ⟨conditionFits, bodyFits, conditions, bodies, otherwise⟩
    exact ⟨⟨conditionFits, conditions⟩, ⟨bodyFits, bodies⟩, otherwise⟩

mutual

/-- A statement that returns its value can stand where the statement stood. -/
theorem answers_returning (context : Context) (node : Node) (fits : node.Fits .statement) :
    Answers (Node.Fits .statement) (returning context node) := by
  have ofValue := answers_returnsValue context fits
  have parts := fits.parts
  obtain ⟨kind, _, _, _, children⟩ := node
  by_cases isConditional : kind = .conditional
  · subst isConditional
    obtain ⟨_, isWord, rfl, nonempty, single, branchesFit⟩ := parts
    refine answers_ite (answers_pure fits) ?_
    refine (answers_returningBranches context children branchesFit).bind fun results holds => ?_
    obtain ⟨⟨conditions, bodies, otherwise⟩, sameLength⟩ := holds
    refine answers_pure (.conditional isWord ?_ (fun isUnless => ?_) conditions bodies otherwise)
    · rw [← length_pos_iff, sameLength, length_pos_iff]
      exact nonempty
    · rw [sameLength]
      exact single isUnless
  · rw [returning]
    · refine ofValue.bind fun wanted isOperand => ?_
      cases wanted with
      | true => exact answers_pure (.returnFrom (isOperand rfl))
      | false => exact answers_pure fits
    · exact isConditional

theorem answers_returningBranches (context : Context) (parts : List Node)
    (fit : BranchesFit parts) :
    Answers (fun results => BranchesFit results ∧
      (Node.pairUp results).1.length = (Node.pairUp parts).1.length)
      (returningBranches context parts) := by
  match parts, fit with
  | condition :: body :: rest, fit =>
    obtain ⟨conditionFits, bodyFits, restFit⟩ := branchesFit_cons.mp fit
    refine (answers_returningBody body bodyFits).bind fun result resultFits => ?_
    refine (answers_returningBranches context rest restFit).bind fun results holds => ?_
    refine answers_pure ⟨branchesFit_cons.mpr ⟨conditionFits, resultFits, holds.1⟩, ?_⟩
    exact congrArg (· + 1) holds.2
  | [body], ⟨_, _, otherwise⟩ =>
    refine (answers_returningBody body (otherwise body rfl)).bind fun result resultFits => ?_
    exact answers_pure ⟨⟨by simp [Node.pairUp], by simp [Node.pairUp],
      by simpa [Node.pairUp] using resultFits⟩, rfl⟩
  | [], fit => exact answers_pure ⟨fit, rfl⟩

theorem answers_returningBody (body : Node) (fits : body.Fits .body) :
    Answers (Node.Fits .body) (returningBody context body) := by
  match body, fits with
  | ⟨kind, payload, line, column, []⟩, fits => exact answers_pure fits
  | ⟨kind, payload, line, column, first :: rest⟩, fits =>
    cases fits with
    | body statementsFit =>
      rw [returningBody]
      · exact (answers_returningLast statementsFit).bind
          fun results resultsFit => answers_pure (.body resultsFit)
      · simp

theorem answers_returningLast (fit : ∀ node ∈ nodes, node.Fits .statement) :
    Answers (fun results => ∀ node ∈ results, node.Fits .statement)
      (returningLast context nodes) := by
  match nodes, fit with
  | [], fit => exact answers_pure fit
  | [last], fit =>
    refine (answers_returning context last (fit last (by simp))).bind fun result resultFits => ?_
    exact answers_pure (by simpa using resultFits)
  | first :: second :: rest, fit =>
    obtain ⟨firstFits, restFit⟩ := forall_mem_cons.mp fit
    refine (answers_returningLast restFit).bind fun results resultsFit => ?_
    exact answers_pure (forall_mem_cons.mpr ⟨firstFits, resultsFit⟩)

end

/-! ### Methods -/

theorem safe_methodStatements (replacements : Replacements) (returnsLast : Bool) (place : Nat)
    (fit : ∀ node ∈ nodes, node.Fits .statement) :
    IsSafe labels (methodStatements replacements returnsLast place nodes) := by
  induction nodes generalizing place with
  | nil => exact isSafe_pure
  | cons node rest ih =>
    obtain ⟨nodeFits, restFit⟩ := forall_mem_cons.mp fit
    have followed {step : Lower (List Statement)} (safe : IsSafe labels step) :
        IsSafe labels (do
          let lowered ← step
          return lowered ++ (← methodStatements replacements returnsLast (place + 1) rest)) :=
      safe.bind fun _ _ => (ih (place + 1) restFit).ends
    rw [methodStatements]
    split
    · exact followed isSafe_pure
    · refine safe_ite ?_ (followed (safe_statement nodeFits))
      exact Safe.bind (safe_infer (fun _ _ => by rw [returning_following]) fun context _ =>
        answers_returning context node nodeFits)
        fun _ returnedFits => followed (safe_statement returnedFits)

theorem safe_returnType (name : String) : IsSafe labels (returnType name) := by
  refine safe_read (fun _ _ => rfl) fun context _ => ?_
  split
  · exact isSafe_pure
  · exact safe_guard safe_report (safe_guard safe_reject isSafe_pure)

theorem answered_checkBaseArguments {context : Context} (steady : context.Steady labels) :
    Answered (checkBaseArguments context.method) := by
  have spelled : Answered ((context.method.baseArguments.getD []).mapM Payload.spelled) := by
    refine answered_mapM fun name mem => answers_spelled ?_
    cases given : context.method.baseArguments with
    | none => simp [given] at mem
    | some names =>
      rw [given] at mem
      exact steady.baseArguments names given name mem
  exact spelled.ends

/-- A method is lowered or rejected. -/
theorem safe_lowerMethod (isMethod : entry.node.IsMethod)
    (replacements : Replacements) : IsSafe labels (lowerMethod entry replacements) := by
  obtain ⟨_, areNames, areTexts⟩ := answers_paramNames isMethod
  refine Safe.bind (safe_modify (fun _ _ => ⟨rfl, rfl⟩) fun _ steady => ?_) fun _ _ => ?_
  · exact ⟨by simp [Context.enterMethod, Context.atLine],
      by simp [Context.enterMethod, Context.atLine],
      steady.writable, steady.typed⟩
  refine (safe_parameterTypes isMethod areNames).bind fun types haveNames => ?_
  refine (safe_part (answers_methodParams isMethod)).bind fun params paramsFit => ?_
  have sourceTexts : ∀ given ∈ params.zip types, given.2.1.IsText := by
    intro _ mem
    refine areTexts _ (haveNames ▸ mem_map_of_mem (of_mem_zip mem).2)
  refine (safe_declareParameters _ _ sourceTexts).bind fun parameters _ => ?_
  refine (safe_part (answers_methodBody isMethod)).bind fun body bodyFits => ?_
  cases bodyFits with
  | body statementsFit =>
    have hoisted := answered_hoistedAmong (fun node mem => ⟨_, statementsFit node mem⟩)
      (types.map Prod.fst)
    refine (safe_part hoisted).bind fun hoisted _ => (safe_modifyMethod fun _ steady => ?_).bind
      fun _ _ => ?_
    · exact { steady with }
    refine (safe_methodStatements _ _ _ statementsFit).bind fun lowered _ => ?_
    refine safe_read (fun _ _ => rfl) fun scope scopeSteady =>
      safe_read (fun _ _ => rfl) fun context _ => ?_
    refine safe_guard (safe_noteUnwritable (fun _ _ => rfl) fun _ _ =>
      answered_checkBaseArguments scopeSteady) ?_
    refine safe_ite isSafe_pure (safe_read (fun _ _ => rfl) fun _ _ => ?_)
    refine (safe_returnType _).bind fun found _ => ?_
    cases found with
    | none => exact isSafe_pure
    | some =>
      refine Safe.bind (safe_modify (fun _ _ => ⟨rfl, rfl⟩) fun _ steady => ?_) fun _ _ =>
        isSafe_pure
      exact { steady with }

end

end ContractForge
