import ContractForge.Lowering.Contract
import ContractForge.Proofs.Lowering.Step

/-!
# Steps that report

Most steps of the lowering read what is known, report diagnostics and take notes, and do
nothing else (`Yields`); what they read does not depend on the history, the diagnostics of
the contracts lowered before. This module goes through them: expressions, statements that
declare and emit nothing and have no bodies, and the types of parameters and fields.
-/

namespace ContractForge

open Lower List

/-- What is left of the contracts lowered before. -/
structure History where
  entries : List Diagnostic
  isUnwritable : Bool

/-- The context with a history before it. -/
def Context.following (context : Context) (history : History) : Context :=
  { context with
    log := { context.log with entries := history.entries ++ context.log.entries }
    isUnwritable := history.isUnwritable || context.isUnwritable }

/-! ### Questions -/

section

-- Questions read the scopes of a context only. Those of the context with the history before it are
-- the same, so that the two sides unfold to one term.
theorem inferType_following : inferType (context.following history) = inferType context := by
  delta inferType
  rfl

theorem isZeroDefault_following :
    isZeroDefault (context.following history) = isZeroDefault context := by
  delta isZeroDefault
  rw [inferType_following]

theorem isArrayAppend_following :
    isArrayAppend (context.following history) = isArrayAppend context := by
  delta isArrayAppend
  rw [inferType_following]

theorem isTextOperation_following :
    isTextOperation (context.following history) = isTextOperation context := by
  delta isTextOperation
  rw [inferType_following]

theorem precedence_following : precedence (context.following history) = precedence context := by
  delta precedence precedence._f
  rw [isZeroDefault_following, isArrayAppend_following, isTextOperation_following]

theorem unspelled?_following : unspelled? (context.following history) = unspelled? context := by
  delta unspelled? unspelled?._f
  rw [isZeroDefault_following]
  rfl

theorem checkSpelled_following :
    checkSpelled (context.following history) = checkSpelled context := by
  delta checkSpelled
  rw [unspelled?_following]

theorem directCall?_following : directCall? (context.following history) = directCall? context := by
  delta directCall?
  rw [checkSpelled_following]
  rfl

theorem eventParameters_following :
    eventParameters (context.following history) = eventParameters context := by
  delta eventParameters eventParameters._f
  rw [inferType_following]

theorem usageType?_following : usageType? (context.following history) = usageType? context := by
  delta usageType?
  rfl

theorem returnsValue_following :
    returnsValue (context.following history) = returnsValue context := by
  delta returnsValue
  rw [inferType_following]
  rfl

theorem returning_following : returning (context.following history) = returning context := by
  delta returning returning._f returningBranches._f returningBody._f returningLast._f
  rw [returnsValue_following]

theorem nestedMapping_following :
    nestedMapping (context.following history) = nestedMapping context := by
  delta nestedMapping
  rfl

end

/-- The contexts differ in nothing but notes: the line, the types of returned values, the arguments
of the parent's constructor, and whether something cannot be written out. -/
structure Context.SameButNotes (context next : Context) : Prop where
  contract : next.contract = context.contract
  block : next.method.block = context.method.block
  hoisted : next.method.hoisted = context.method.hoisted
  declarations : next.method.hoistedDeclarations = context.method.hoistedDeclarations
  log : next.log = context.log

/-- The statement declares and emits nothing, and has no statements in it. -/
def Statement.IsSimple : Statement → Prop
  | .assign _ _ _ declared => declared = none
  | .conditional _ _ | .loop _ _ _ | .emit _ _ => False
  | _ => True

def AreSimple (lowered : List Statement) : Prop :=
  ∀ statement ∈ lowered, statement.IsSimple

theorem areSimple_nil : AreSimple [] :=
  forall_mem_nil _

theorem areSimple_singleton {statement : Statement} (simple : statement.IsSimple) :
    AreSimple [statement] :=
  forall_mem_singleton.mpr simple

/-! ### Rules -/

/-- The step reads the scopes of the context, reports and takes notes, and does nothing else. Its
value has the property. -/
inductive Yields : {α : Type} → (α → Prop) → Lower α → Prop where
  | pure {α : Type} {property : α → Prop} {value : α} (holds : property value) :
      Yields property (pure value)
  | throw {α : Type} {property : α → Prop} (error : LowerError) : Yields property (throw error)
  | bind {α β : Type} {any : α → Prop} {property : β → Prop} {step : Lower α} {next : α → Lower β}
      (first : Yields any step) (second : ∀ value, Yields property (next value)) :
      Yields property (step >>= next)
  | read {α : Type} {property : α → Prop} {next : Context → Lower α}
      (ofNext : ∀ context, Yields property (next context)) : Yields property (get >>= next)
  | report (diagnostic : Diagnostic) : Yields (fun _ => True) (report diagnostic)
  | note {change : Context → Context}
      (notes : ∀ context, Context.SameButNotes context (change context)) :
      Yields (fun _ => True) (modify change : Lower PUnit)

variable {α β : Type} (value method : Node)

/-- The step reads, reports and takes notes, and does nothing else. -/
abbrev Reports (step : Lower α) : Prop :=
  Yields (fun _ => True) step

section

variable {condition : Prop}

theorem reports_pure (value : α) : Reports (pure value) :=
  .pure trivial

theorem reports_part (answer : Except Malformed α) : Reports (part answer) := by
  cases answer with
  | ok value => exact reports_pure value
  | error => exact .throw _

theorem reports_infer {question : Context → Except Malformed α} : Reports (infer question) :=
  .read fun _ => reports_part _

theorem yields_reject (reason : Rejection) (node : Option Node) :
    Yields property (reject reason node) :=
  .read fun _ => .throw _

theorem yields_ite [Decidable condition] {yes no : Lower β}
    (ofYes : Yields property yes) (ofNo : Yields property no) :
    Yields property (if condition then yes else no) := by
  split
  · exact ofYes
  · exact ofNo

/-- A check that may be left out, and what follows it in either case. -/
theorem yields_guard [Decidable condition]
    {next : Unit → Lower β} (ofCheck : Reports check) (ofNext : Yields property (next ())) :
    Yields property (if condition then check >>= next else next ()) :=
  yields_ite (ofCheck.bind fun _ => ofNext) ofNext

theorem Yields.ends {step : Lower α} {change : α → β} (ofStep : Reports step) :
    Reports (step >>= fun value => Pure.pure (change value)) :=
  ofStep.bind fun _ => reports_pure _

theorem Yields.map {change : α → β} (ofStep : Reports step) : Reports (change <$> step) := by
  exact ofStep.ends

theorem reports_mapM {step : α → Lower β} {values : List α}
    (ofStep : ∀ value, Reports (step value)) : Reports (values.mapM step) := by
  induction values with
  | nil =>
    exact reports_pure _
  | cons value _ ih =>
    rw [mapM_cons]
    exact (ofStep value).bind fun _ => ih.ends

end

/-! ### Expressions -/

theorem reports_literalText : Reports (literalText node) := by
  unfold literalText
  split
  · exact yields_reject _ _
  · exact yields_reject _ _
  · exact reports_pure _

theorem reports_nameText : Reports (nameText node) := by
  refine reports_infer.bind fun resolved => ?_
  cases resolved with
  | some => exact reports_pure _
  | none => exact (Yields.report _).bind fun _ => (reports_part _).ends

theorem reports_functionCallText (arguments : List String) :
    Reports (functionCallText node arguments) := by
  unfold functionCallText
  refine yields_guard (yields_reject _ _) ?_
  refine (reports_part _).bind fun name => reports_infer.bind fun function => ?_
  exact yields_guard reports_infer (reports_pure _)

theorem reports_enclosed : Reports (enclosed node parent strict text) :=
  reports_infer.ends

theorem reports_writtenAs : Reports (writtenAs node text) :=
  reports_infer.ends

theorem reports_memberCallText (arguments : List String) (ofReceiver : Reports lowerReceiver) :
    Reports (memberCallText node receiver arguments lowerReceiver) := by
  refine ofReceiver.bind fun whole => reports_enclosed.bind fun text =>
    (reports_part _).bind fun name => ?_
  refine yields_ite ?_ (yields_ite reports_infer.ends ?_)
  · refine .read fun context => ?_
    refine reports_writtenAs.bind fun written => ?_
    split
    · exact reports_pure _
    · exact reports_infer.ends.bind fun _ => yields_ite (reports_pure _) (reports_pure _)
  · split
    · exact ofReceiver.ends
    · refine yields_ite ?_ (yields_ite ?_ (yields_ite (yields_reject _ _) reports_infer.ends))
      · exact reports_infer.bind fun _ => ofReceiver.bind fun _ =>
          reports_enclosed.ends
      · exact reports_infer.ends.bind fun _ =>
          yields_ite ofReceiver.ends (reports_pure _)
    · exact reports_infer.ends

theorem reports_binaryText (ofLeft : Reports lowerLeft)
    (ofRight : Reports lowerRight) : Reports (binaryText op left right lowerLeft lowerRight) := by
  refine reports_infer.bind fun _ => yields_ite ofLeft (reports_infer.bind fun _ =>
    yields_ite ?_ ?_)
  · exact ofLeft.bind fun _ => reports_enclosed.bind fun _ => ofRight.ends
  refine reports_infer.bind fun _ => yields_ite ?_ ?_
  · exact ofLeft.bind fun _ => ofRight.ends
  refine reports_infer.bind fun _ => yields_ite ?_ ?_
  · exact ofLeft.bind fun _ => ofRight.ends
  split
  · exact .throw _
  · exact ofLeft.bind fun _ => reports_enclosed.bind fun _ => ofRight.bind fun _ =>
      reports_enclosed.ends

theorem reports_assignmentText (ofTarget : Reports lowerTarget) (ofValue : Reports lowerValue) :
    Reports (assignmentText node value lowerTarget lowerValue) := by
  unfold assignmentText
  refine yields_guard (yields_reject _ _) (ofTarget.bind fun _ => yields_ite ?_ ?_)
  · exact ofValue.bind fun _ => reports_enclosed.ends
  · exact ofValue.ends

theorem reports_refuseKeywords (arguments : List Node) : Reports (refuseKeywords arguments) := by
  unfold refuseKeywords
  split
  · exact yields_reject _ _
  · exact reports_pure _

mutual

/-- Lowering an expression declares and emits nothing. -/
theorem reports_expression (node : Node) : Reports (expression node) := by
  unfold expression
  split
  · exact reports_literalText
  · exact yields_reject _ _
  · exact .read fun _ => reports_pure _
  · exact reports_nameText
  · exact reports_pure _
  · exact reports_pure _
  · exact reports_pure _
  · exact reports_pure _
  · exact reports_binaryText (reports_expression _) (reports_expression _)
  · exact (reports_expression _).bind fun _ => reports_enclosed.ends
  · exact (reports_expression _).bind fun _ => reports_enclosed.bind fun _ =>
      (reports_expression _).bind fun _ => reports_enclosed.bind fun _ =>
      (reports_expression _).bind fun _ => reports_enclosed.ends
  · exact reports_assignmentText _ (reports_expression _) (reports_expression _)
  · exact (reports_expression _).bind fun _ => reports_enclosed.bind fun _ =>
      (reports_expression _).ends
  · exact reports_pure _
  · exact yields_reject _ _
  · exact yields_reject _ _
  · refine yields_guard (yields_reject _ _) ?_
    exact reports_argumentsAmong.bind fun _ => reports_functionCallText _
  · refine yields_guard (yields_reject _ _) ?_
    refine reports_argumentsAmong.bind fun _ =>
      reports_infer.bind fun direct => ?_
    cases direct with
    | some => exact reports_pure _
    | none => exact reports_memberCallText _ (reports_expression _)
  all_goals first
    | exact .throw _
    | exact yields_reject _ _

theorem reports_argumentsAmong : Reports (argumentsAmong nodes) := by
  unfold argumentsAmong
  split
  · exact reports_pure _
  · exact (reports_refuseKeywords _).bind fun _ => reports_expressions
  · exact reports_argumentsAmong

theorem reports_expressions : Reports (expressions nodes) := by
  unfold expressions
  split
  · exact reports_pure _
  · exact (reports_expression _).bind fun _ => reports_expressions.ends

end

theorem reports_arguments : Reports (arguments nodes) :=
  (reports_refuseKeywords _).bind fun _ => reports_expressions

theorem reports_operand : Reports (operand node parent strict) :=
  (reports_expression _).bind fun _ => reports_enclosed

theorem reports_negation : Reports (negation node) :=
  yields_ite ((reports_part _).bind fun _ => reports_expression _) reports_operand.ends

theorem reports_hasText : Reports (hasText node) :=
  reports_infer.ends

/-! ### Statements without bodies -/

/-- A note of the method. -/
theorem reports_modifyMethod (notes : ∀ context : Context,
      context.SameButNotes { context with method := change context.method }) :
    Reports (modifyMethod change) :=
  .note notes

theorem reports_noteUnwritable : Reports (noteUnwritable check) := by
  refine .note fun context => ?_
  split <;> exact ⟨rfl, rfl, rfl, rfl, rfl⟩

theorem reports_noteLine (line : Option Int) : Reports (noteLine line) :=
  yields_ite (.note fun _ => ⟨rfl, rfl, rfl, rfl, rfl⟩) (reports_pure _)

theorem reports_messageText : Reports (messageText node) :=
  yields_ite ((reports_part _).ends) (reports_expression _)

theorem yields_requireStatement : Yields Statement.IsSimple (requireStatement node parts) := by
  unfold requireStatement
  split
  · exact (reports_expression _).bind fun _ => .pure trivial
  · exact (reports_expression _).bind fun _ => reports_messageText.bind fun _ =>
      reports_hasText.bind fun _ => .pure trivial
  · exact yields_reject _ _

theorem yields_revertWith : Yields Statement.IsSimple (revertWith message) :=
  reports_messageText.bind fun _ => reports_infer.bind fun _ => .pure trivial

theorem yields_revertStatement : Yields Statement.IsSimple (revertStatement parts) := by
  unfold revertStatement
  split
  · exact .pure trivial
  · refine yields_ite yields_revertWith ?_
    split
    · exact yields_revertWith
    · exact (reports_part _).bind fun _ => .pure trivial

theorem yields_expressionStatement : Yields AreSimple (expressionStatement node) := by
  refine .read fun context => yields_ite ?_ ?_
  · exact (reports_modifyMethod fun _ => ⟨rfl, rfl, rfl, rfl, rfl⟩).bind fun _ =>
      .pure areSimple_nil
  · exact (reports_expression _).bind fun _ => .pure (areSimple_singleton trivial)

theorem yields_returnStatement (value : Option Node) :
    Yields Statement.IsSimple (returnStatement value) := by
  unfold returnStatement
  split
  · exact .pure trivial
  · refine (reports_expression _).bind fun _ => reports_infer.bind fun type => ?_
    split
    · exact (reports_modifyMethod fun _ => ⟨rfl, rfl, rfl, rfl, rfl⟩).bind fun _ =>
        reports_hasText.bind fun _ => .pure trivial
    · exact reports_hasText.bind fun _ => .pure trivial

theorem yields_attributeAssignment : Yields AreSimple (attributeAssignment node target value) := by
  refine (reports_part _).bind fun receiver => yields_guard (yields_reject _ _) ?_
  refine (reports_expression _).bind fun text => .read fun context => ?_
  split
  · exact .pure (areSimple_singleton trivial)
  · exact yields_ite (.pure (areSimple_singleton rfl)) (yields_reject _ _)

theorem reports_sequenceElement : Reports (sequenceElement node type) := by
  unfold sequenceElement
  split
  · exact yields_reject _ _
  · exact yields_reject _ _
  all_goals exact reports_pure _

/-! ### Types -/

theorem reports_parameterType : Reports (parameterType body param) := by
  refine (reports_part _).bind fun name => ?_
  split
  · refine reports_infer.bind fun type => ?_
    split
    · exact reports_pure _
    · exact yields_reject _ _
  · refine reports_infer.bind fun type => ?_
    split
    · exact reports_pure _
    · exact (reports_part _).ends

theorem reports_parameterTypes : Reports (parameterTypes method) :=
  (reports_part _).bind fun _ => (reports_part _).bind fun _ => reports_mapM fun _ =>
    reports_parameterType.bind fun _ => (reports_part _).ends

theorem reports_returnType : Reports (returnType name) := by
  refine .read fun context => ?_
  split
  · exact reports_pure _
  · exact yields_guard (.report _) (yields_guard (yields_reject _ _) (reports_pure _))

theorem reports_checkInitializer : Reports (checkInitializer usage) := by
  unfold checkInitializer
  split
  · exact reports_pure _
  · split
    · exact yields_reject _ _
    · exact yields_reject _ _
    · exact yields_ite (yields_reject _ _) (reports_pure _)
    · exact yields_reject _ _
    · exact reports_pure _

theorem reports_valueType? : Reports (valueType? value) := by
  unfold valueType?
  split
  · exact .read fun _ => reports_pure _
  · exact reports_pure _
  · exact reports_pure _
  · exact reports_infer

theorem reports_assignedType? (method : Option Node) : Reports (assignedType? value method) := by
  unfold assignedType?
  split
  · refine (reports_part _).bind fun _ => yields_ite ?_ (reports_valueType? _)
    exact (reports_parameterTypes _).bind fun _ => (reports_part _).ends
  · exact reports_valueType? _

theorem reports_tableValue : Reports (tableValue usage) := by
  unfold tableValue
  split
  · refine (reports_assignedType? _ _).bind fun _ => ?_
    split <;> exact reports_pure _
  · exact reports_pure _

theorem reports_tableType : Reports (tableType usage) :=
  reports_tableValue.bind fun _ => reports_infer.bind fun _ =>
    yields_guard (.report _) (reports_pure _)

theorem reports_elementTypeAmong (method : Option Node) (nodes : List Node) :
    Reports (elementTypeAmong method nodes) := by
  induction nodes with
  | nil => exact reports_pure _
  | cons _ _ ih =>
    refine (reports_assignedType? _ _).bind fun type => ?_
    split
    · exact reports_pure _
    · exact ih

theorem reports_arrayType : Reports (arrayType usage) := by
  unfold arrayType
  split
  · refine reports_infer.bind fun type => ?_
    split
    · exact reports_pure _
    · exact yields_reject _ _
  · refine (reports_elementTypeAmong _ _).bind fun type => ?_
    split
    · exact reports_pure _
    · exact (reports_part _).ends

theorem reports_fieldType : Reports (fieldType usage) := by
  refine yields_ite reports_tableType (yields_ite reports_arrayType ?_)
  split
  · exact (reports_assignedType? _ _).ends
  · exact (reports_assignedType? _ _).ends
  · refine yields_ite ((reports_part _).ends) ?_
    exact (Yields.report _).ends

end ContractForge
