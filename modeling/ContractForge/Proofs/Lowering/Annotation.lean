import ContractForge.Proofs.Lowering.Frame

/-!
# Statements and the variables they mention

The texts in a lowered statement no longer say which of their words are local
variables. `annotate` lowers as `statement` does and keeps, next to each text,
the local variables that the names in its tree stand for; without these mentions
its statements are those of `statement` (`erase_annotate`). `Annotated.uses` are
all mentions with the place that they stand at: what is declared there, and which
parameters are those of the method or of a loop around it.
-/

namespace ContractForge

open Lower

/-! ### Mentions -/

/-- A local variable by the name in the source that stands for it and by its generated name. -/
structure Mention where
  source : Key
  name : String
deriving DecidableEq

/-- The local variable that a name stands for, if it does. -/
def mention? (context : Context) (name : Payload) : Option Mention := do
  let source ← name.key?
  let found ← context.names.locals.get? source
  return ⟨source, found.name.spliced⟩

/-- The local variables that the names in a tree stand for. -/
def mentions (context : Context) (node : Node) : List Mention :=
  (namesRead [node]).filterMap (mention? context)

theorem exists_local_of_mem_mentions (mem : mention ∈ mentions context node) :
    ∃ found, context.names.locals.get? mention.source = some found ∧
      mention.name = found.name.spliced := by
  obtain ⟨_, -, isMention⟩ := List.mem_filterMap.mp mem
  simp only [mention?, Option.bind_eq_bind, Option.bind_eq_some_iff, Option.pure_def,
    Option.some.injEq] at isMention
  obtain ⟨_, -, found, isFound, rfl⟩ := isMention
  exact ⟨found, isFound, rfl⟩

/-! ### Annotated statements -/

/-- A statement with the local variables that its texts mention. -/
inductive Annotated where
  | single (statement : Statement) (mentioned : List Mention)
  | conditional (branches : List ((String × List Mention) × List Annotated))
      (otherwise : Option (List Annotated))
  /-- A loop that runs while its condition holds. -/
  | repeated (condition : String) (mentioned : List Mention) (body : List Annotated)
  /-- A loop that counts, with its parameters and the statements just before it. -/
  | counted (counter limit : String) (parameters mentioned : List Mention)
      (body before : List Annotated)

/-- The branches of a conditional, and what is done otherwise. -/
abbrev AnnotatedBranches :=
  List ((String × List Mention) × List Annotated) × Option (List Annotated)

namespace Annotated

mutual

/-- The statement without its mentions. -/
def erase : Annotated → Statement
  | single statement _ => statement
  | conditional branches otherwise =>
    .conditional (eraseBranches branches) (eraseOtherwise otherwise)
  | repeated condition _ body => .loop (.whileTrue condition) (eraseAll body) []
  | counted counter limit _ _ body before =>
    countedLoop counter limit (eraseAll body) (eraseAll before)

def eraseAll : List Annotated → List Statement
  | [] => []
  | first :: rest => first.erase :: eraseAll rest

def eraseBranches : List ((String × List Mention) × List Annotated) →
    List (String × List Statement)
  | [] => []
  | ((condition, _), body) :: rest => (condition, eraseAll body) :: eraseBranches rest

def eraseOtherwise : Option (List Annotated) → Option (List Statement)
  | none => none
  | some body => some (eraseAll body)

end

@[simp]
theorem eraseAll_append : eraseAll (first ++ second) = eraseAll first ++ eraseAll second := by
  induction first with
  | nil => rfl
  | cons _ _ ih => simp [eraseAll, ih]

theorem eraseAll_map {α : Type} (annotated : α → Annotated) (values : List α) :
    eraseAll (values.map annotated) = values.map fun value => (annotated value).erase := by
  induction values with
  | nil => rfl
  | cons _ _ ih => simp [eraseAll, ih]

end Annotated

/-! ### Uses -/

/-- What can be mentioned at a place of a method. -/
structure Surroundings where
  /-- The names that are declared earlier in the same block or in a block around it. -/
  scope : List String
  /-- The parameters of the method and of the loops around the place. -/
  parameters : List Mention

namespace Surroundings

/-- The place after statements that declare names. -/
def declaring (around : Surroundings) (names : List String) : Surroundings :=
  { around with scope := names ++ around.scope }

/-- The place after some statements of a block. -/
def after (around : Surroundings) (statements : List Annotated) : Surroundings :=
  statements.foldl (fun around statement => around.declaring statement.erase.declares) around

/-- The place at the beginning of a loop. -/
def inLoop (around : Surroundings) (counter : String) (parameters : List Mention) : Surroundings :=
  ⟨counter :: around.scope, parameters ++ around.parameters⟩

end Surroundings

/-- A mention and where it stands. -/
structure Use where
  around : Surroundings
  mention : Mention

namespace Annotated

mutual

/-- The mentions in a statement at a place. -/
def uses (around : Surroundings) : Annotated → List Use
  | single _ mentioned => mentioned.map (Use.mk around)
  | conditional branches otherwise => usesBranches around branches ++ usesOtherwise around otherwise
  | repeated _ mentioned body =>
    mentioned.map (Use.mk around) ++ usesAll around body
  | counted counter _ parameters mentioned body before =>
    let start := around.after before
    usesAll around before ++ mentioned.map (Use.mk start) ++
      usesAll (start.inLoop counter parameters) body

/-- The mentions in the statements of a block. -/
def usesAll (around : Surroundings) : List Annotated → List Use
  | [] => []
  | first :: rest => first.uses around ++ usesAll (around.declaring first.erase.declares) rest

def usesBranches (around : Surroundings) :
    List ((String × List Mention) × List Annotated) → List Use
  | [] => []
  | ((_, mentioned), body) :: rest =>
    mentioned.map (Use.mk around) ++ usesAll around body ++
      usesBranches around rest

def usesOtherwise (around : Surroundings) : Option (List Annotated) → List Use
  | none => []
  | some body => usesAll around body

end

end Annotated

/-! ### Annotated lowering -/

open Annotated

/-- A statement with the variables that the names in its tree stand for. A variable that is
declared by the statement itself does not count, one that is declared above does. -/
def noted (before after : Context) (node : Node) (statement : Statement) : Annotated :=
  .single statement (mentions (if statement.declares.isEmpty then after else before) node)

def annotateSingle (node : Node) : Lower (List Annotated) := do
  let before ← get
  let lowered ← statement node
  let after ← get
  return lowered.map (noted before after node)

/-- A loop parameter, if there is one, and the name that was taken for it. -/
def parameterMention (source : Option Payload) (name : String) : List Mention :=
  (source.bind Payload.key?).toList.map fun source => ⟨source, name⟩

def annotateTimes (count : Node) (params : List Payload) (annotateBody : Lower (List Annotated)) :
    Lower Annotated := do
  let mentioned ← asks fun context => mentions context count
  let limit ← operand count 5 false
  inBlock do
    let counter ← loopIndex params.head?
    return .counted counter limit (parameterMention params.head? counter) mentioned
      (← annotateBody) []

/-- The variable that holds an element, declared at the beginning of a loop. -/
def annotateElement (element : StaticType) (param : Option Payload) (text : String)
    (mentioned : List Mention) : Lower (List Mention × List Annotated) := do
  match param with
  | some param =>
    let name := (← declareLocal param (some element)).spliced
    return (parameterMention param name, [.single (.declare element name text) mentioned])
  | none => return ([], [])

def annotateSequence (node subject : Node) (params : List Payload)
    (annotateBody : Lower (List Annotated)) : Lower Annotated := do
  let mentioned ← asks fun context => mentions context subject
  let sequence ← expression subject
  let element ← sequenceElement node (← infer fun context => inferType context subject)
  let length := (← uniqueName (← part (lengthBase subject))).spliced
  let written ← writtenAs subject sequence
  let before := [Annotated.single (.declare .uint256 length s!"{sequence}.length") mentioned]
  inBlock do
    modify fun context => context.cacheLength written length
    let indexParam := if node.payload.isText "each_with_index" then params[1]? else none
    let index ← loopIndex indexParam
    let (elementParam, first) ←
      annotateElement element params.head? s!"{sequence}[{index}]" mentioned
    return .counted index length (parameterMention indexParam index ++ elementParam) []
      (first ++ (← annotateBody)) before

def annotateLoop (node subject : Node) (params : List Node)
    (annotateBody : Lower (List Annotated)) : Lower Annotated := do
  let mentioned ← asks fun context => mentions context subject
  if node.payload.isText "while" then
    let condition ← expression subject
    return .repeated condition mentioned (← inBlock annotateBody)
  if node.payload.isText "until" then
    let condition ← negation subject
    return .repeated condition mentioned (← inBlock annotateBody)
  let names := params.map Node.payload
  if node.payload.isText "times" then annotateTimes subject names annotateBody
  else annotateSequence node subject names annotateBody

mutual

/-- Lower a statement, and keep what it mentions. -/
def annotate : Node → Lower (List Annotated)
  | ⟨.conditional, payload, line, _, children⟩ => do
    noteLine line
    let (branches, otherwise) ← annotateBranches (payload.isText "unless") children
    return [.conditional branches otherwise]
  | ⟨.loop, payload, line, column, [subject, params, ⟨bodyKind, bodyPayload, bodyLine, bodyColumn,
      body⟩]⟩ => do
      noteLine line
      let node : Node := ⟨.loop, payload, line, column,
        [subject, params, ⟨bodyKind, bodyPayload, bodyLine, bodyColumn, body⟩]⟩
      return [← annotateLoop node subject params.children (annotateAll body)]
  | ⟨.loop, payload, line, column, [subject, ⟨bodyKind, bodyPayload, bodyLine, bodyColumn,
      body⟩]⟩ => do
      noteLine line
      let node : Node := ⟨.loop, payload, line, column,
        [subject, ⟨bodyKind, bodyPayload, bodyLine, bodyColumn, body⟩]⟩
      return [← annotateLoop node subject [] (annotateAll body)]
  | ⟨.body, _, line, _, children⟩ => do
    noteLine line
    annotateAll children
  | ⟨.call, payload, line, column, children⟩ => do
    let node : Node := ⟨.call, payload, line, column, children⟩
    if payload.isText "loop" && node.callBlock?.isSome then
      noteLine line
      return [.repeated "true" [] ((← annotateBlock children).getD [])]
    else annotateSingle node
  | node => annotateSingle node

/-- Lower the statements of a block, and keep what they mention. -/
def annotateAll : List Node → Lower (List Annotated)
  | [] => return []
  | node :: rest => do
    let first ← annotate node
    return first ++ (← annotateAll rest)

def annotateBranches (negated : Bool) : List Node → Lower AnnotatedBranches
  | condition :: ⟨_, _, _, _, body⟩ :: rest => do
    let mentioned ← asks fun context => mentions context condition
    let text ← if negated then negation condition else expression condition
    let annotated ← inBlock (annotateAll body)
    let (branches, otherwise) ← annotateBranches false rest
    return (((text, mentioned), annotated) :: branches, otherwise)
  | [⟨_, _, _, _, body⟩] => return ([], some (← inBlock (annotateAll body)))
  | [] => return ([], none)

def annotateBlock : List Node → Lower (Option (List Annotated))
  | [] => return none
  | ⟨.block, _, _, _, [_, ⟨_, _, _, _, body⟩]⟩ :: _ => return some (← inBlock (annotateAll body))
  | ⟨.block, _, _, _, _⟩ :: _ => throw (.malformed .partCount)
  | _ :: rest => annotateBlock rest

end

/-! ### Without the mentions -/

section

variable {α β : Type}

theorem get_bind_const (step : Lower α) : (get >>= fun _ => step) = step :=
  rfl

theorem map_const_get (value : α) :
    (fun _ : Context => value) <$> (get : Lower Context) = pure value :=
  rfl

theorem asks_bind_const : (asks question >>= fun _ => step) = step :=
  rfl

theorem map_inBlock (change : α → β) : change <$> inBlock step = inBlock (change <$> step) := by
  simp [inBlock]

theorem erase_noted (after : Context) (node : Node) :
    eraseAll (lowered.map (noted before after node)) = lowered := by
  rw [eraseAll_map]
  exact List.map_id _

theorem erase_annotateSingle : eraseAll <$> annotateSingle node = statement node := by
  simp [annotateSingle, erase_noted, get_bind_const, map_const_get]

theorem erase_annotateTimes :
    erase <$> annotateTimes count params annotateBody =
      timesLoop count params (eraseAll <$> annotateBody) := by
  simp [annotateTimes, timesLoop, map_inBlock, asks_bind_const, erase, eraseAll]

theorem erase_annotateSequence :
    erase <$> annotateSequence node subject params annotateBody =
      sequenceLoop node subject params (eraseAll <$> annotateBody) := by
  unfold annotateSequence sequenceLoop annotateElement
  cases params.head? with
  | none | some _ => simp [map_inBlock, asks_bind_const, erase, eraseAll]

theorem erase_annotateLoop :
    erase <$> annotateLoop node subject params annotateBody =
      loopStatement node subject params (eraseAll <$> annotateBody) := by
  unfold annotateLoop loopStatement
  simp only [map_bind]
  split
  · simp [asks_bind_const, erase, ← map_inBlock]
  · split
    · simp [asks_bind_const, erase, ← map_inBlock]
    · split
      · rw [asks_bind_const]
        exact erase_annotateTimes
      · exact erase_annotateSequence

theorem eraseOtherwise_getD : (eraseOtherwise body).getD [] = eraseAll (body.getD []) := by
  cases body <;> rfl

theorem callStatement_of_loop (isLoop : (payload.isText "loop" &&
      (⟨.call, payload, line, column, children⟩ : Node).callBlock?.isSome)) :
    callStatement ⟨.call, payload, line, column, children⟩ lowerLoop = do
      return [.loop (.whileTrue "true") ((← lowerLoop).getD []) []] := by
  have isText : payload.text? = some "loop" := by
    simpa [Payload.isText] using (Bool.and_eq_true_iff.mp isLoop).1
  have other (name : String) (different : name ≠ "loop") : payload.isText name = false := by
    simpa [Payload.isText, isText] using different.symm
  simp [callStatement, isLoop, other, Payload.isOneOf, isText, outputCalls]

mutual

/-- Without the mentions, annotated statements are what statements are lowered to. -/
theorem erase_annotate (node : Node) : eraseAll <$> annotate node = statement node := by
  unfold annotate
  split
  · rename_i payload line column children
    have branches := erase_annotateBranches (payload.isText "unless") children
    simp [statement, ← branches, eraseAll, erase]
  · rename_i payload line column subject params _ _ _ _ body
    simp [statement, ← erase_annotateAll body, ← erase_annotateLoop, eraseAll]
  · rename_i payload line column subject _ _ _ _ body
    simp [statement, ← erase_annotateAll body, ← erase_annotateLoop, eraseAll]
  · rename_i payload line column children
    simp [statement, ← erase_annotateAll children]
  · rename_i payload line column children
    dsimp only
    split
    · rename_i isLoop
      have block := erase_annotateBlock children
      simp [statement, callStatement_of_loop isLoop, ← block, eraseAll, erase, eraseOtherwise_getD]
    · exact erase_annotateSingle
  · exact erase_annotateSingle

theorem erase_annotateAll (nodes : List Node) :
    eraseAll <$> annotateAll nodes = statements nodes := by
  unfold annotateAll statements
  split
  · rfl
  · rename_i node rest
    simp [← erase_annotate node, ← erase_annotateAll rest]

theorem erase_annotateBranches (negated : Bool) (nodes : List Node) :
    (fun found => (eraseBranches found.1, eraseOtherwise found.2)) <$>
      annotateBranches negated nodes = conditionals negated nodes := by
  unfold annotateBranches conditionals
  split
  · rename_i body rest
    cases negated <;>
      simp [← erase_annotateAll body, ← erase_annotateBranches false rest, ← map_inBlock,
        asks_bind_const, eraseBranches]
  · rename_i body
    simp [← erase_annotateAll body, ← map_inBlock, eraseBranches, eraseOtherwise]
  · rfl

theorem erase_annotateBlock (nodes : List Node) :
    eraseOtherwise <$> annotateBlock nodes = loopBlock nodes := by
  unfold annotateBlock
  split
  · rfl
  · rename_i body _
    simp [loopBlock, ← erase_annotateAll body, ← map_inBlock, eraseOtherwise]
  · rw [loopBlock]
    · rfl
    · assumption
  · rename_i rest _ _
    rw [loopBlock]
    · exact erase_annotateBlock rest
    all_goals assumption

end

end

/-! ### Annotated methods -/

/-- Lower the statements of a method from the given place on, and keep what they mention.
Statements that take the place of others were lowered where no local variable is known. -/
def annotateStatements (replacements : Replacements) (returnsLast : Bool) (place : Nat) :
    List Node → Lower (List Annotated)
  | [] => return []
  | node :: rest => do
    let annotated ← match replacements.lookup place with
      | some replacement => pure (replacement.map fun statement => .single statement [])
      | none =>
        if rest.isEmpty && returnsLast then do
          annotate (← infer fun context => returning context node)
        else annotate node
    return annotated ++ (← annotateStatements replacements returnsLast (place + 1) rest)

/-- Declare the parameters of a method and find out which of its variables are hoisted. -/
def enterBody (entry : MethodEntry) :
    Lower (List (Node × Payload × StaticType) × List Parameter × List Node) := do
  modify fun context => (context.enterMethod entry.name).atLine entry.node.line
  let types ← parameterTypes entry.node
  let params ← part entry.node.methodParams
  let parameters ← declareParameters entry.name types (params.zip types)
  let body ← part entry.node.methodBody
  let hoisted ← part (hoistedAmong (types.map Prod.fst) body.children)
  modifyMethod fun scope => { scope with hoisted := hoisted.filterMap Payload.key? }
  return (params.zip types, parameters, body.children)

/-- The declarations at the beginning of a method, as they are at its end. -/
def declarationsAbove (context : Context) : List Annotated :=
  context.method.hoistedDeclarations.map fun (name, type) => .single (.declareOnly type name) []

/-- The parameters of a method as they are mentioned. -/
def parameterMentions (given : List (Node × Payload × StaticType)) (parameters : List Parameter) :
    List Mention :=
  (given.zip parameters).flatMap fun ((_, name, _), parameter) =>
    parameterMention name parameter.name

/-- Lower the body of a method, and keep its parameters and what its statements mention. -/
def annotateMethod (entry : MethodEntry) (replacements : Replacements) :
    Lower (List Mention × List Annotated) := do
  let (given, parameters, children) ← enterBody entry
  let returnsLast := !(entry.name == "initialize") && !Text.endsWith entry.name "="
  let annotated ← annotateStatements replacements returnsLast 0 children
  return (parameterMentions given parameters, declarationsAbove (← get) ++ annotated)

theorem erase_annotateStatements (place : Nat) :
    eraseAll <$> annotateStatements replacements returnsLast place nodes =
      methodStatements replacements returnsLast place nodes := by
  induction nodes generalizing place with
  | nil => rfl
  | cons node rest ih =>
    unfold annotateStatements methodStatements
    rw [← ih (place + 1)]
    cases replacements.lookup place with
    | some _ => simp [eraseAll_map, erase]
    | none =>
      by_cases isLast : (rest.isEmpty && returnsLast)
      · simp only [isLast, ← erase_annotate]
        simp
      · simp only [isLast, ← erase_annotate]
        simp

def HasBody (parameters : List Parameter) (body : List Statement) (function : Function) : Prop :=
  function.parameters = parameters ∧ function.body = body

/-- The steps that a method is lowered in: its parameters are declared, then its statements are
lowered. -/
theorem exists_methodSteps
    (lowered : Gives (lowerMethod entry replacements) before function after) :
    ∃ given body statements start ending, entry.node.methodBody = .ok body ∧
      Gives (enterBody entry) before (given, function.parameters, body.children) start ∧
      Gives (methodStatements replacements
        (!(entry.name == "initialize") && !Text.endsWith entry.name "=") 0 body.children) start
        statements ending ∧
      function.body = (ending.method.hoistedDeclarations.map fun (name, type) =>
        Statement.declareOnly type name) ++ statements := by
  obtain ⟨⟨⟩, _, entered, lowered⟩ := lowered.ofBind
  obtain ⟨types, _, ofTypes, lowered⟩ := lowered.ofBind
  obtain ⟨params, _, ofParams, lowered⟩ := lowered.ofBind
  obtain ⟨parameters, _, ofParameters, lowered⟩ := lowered.ofBind
  obtain ⟨body, _, ofBody, lowered⟩ := lowered.ofBind
  obtain ⟨_, _, ofHoisted, lowered⟩ := lowered.ofBind
  obtain ⟨⟨⟩, start, marked, lowered⟩ := lowered.ofBind
  obtain ⟨statements, ending, ofStatements, lowered⟩ := lowered.ofBind
  have lowered := lowered.ofGet
  -- Nothing that follows changes the parameters or the body.
  have built : HasBody parameters (ending.method.hoistedDeclarations.map
      (fun (name, type) => Statement.declareOnly type name) ++ statements) function := by
    refine ((?_ : Upholds (fun _ => True) (HasBody parameters _) _) ending function after lowered
      trivial).2
    refine maintains_get.bind fun _ => upholds_guard ?_ ?_
    · exact reports_noteUnwritable.upholds ignoresNotes_true
    refine upholds_ite (upholds_pure ⟨rfl, rfl⟩) (maintains_get.bind fun _ => ?_)
    refine (reports_returnType.upholds ignoresNotes_true).bind fun found => ?_
    cases found with
    | none => exact upholds_pure ⟨rfl, rfl⟩
    | some =>
      exact Upholds.bind (maintains_modify fun _ known => known) fun _ => upholds_pure ⟨rfl, rfl⟩
  obtain ⟨rfl, isBody⟩ := built
  refine ⟨params.zip types, body, statements, start, ending, (gives_part_iff.mp ofBody).1, ?_,
    ofStatements, isBody⟩
  exact entered.bind (ofTypes.bind (ofParams.bind (ofParameters.bind (ofBody.bind
    (ofHoisted.bind (marked.bind gives_pure))))))

/-- The body of a method without its mentions is the body that the method is lowered to. -/
theorem exists_annotateMethod
    (lowered : Gives (lowerMethod entry replacements) before function after) :
    ∃ given children annotated start ending,
      Gives (enterBody entry) before (given, function.parameters, children) start ∧
      Gives (annotateStatements replacements
        (!(entry.name == "initialize") && !Text.endsWith entry.name "=") 0 children) start annotated
        ending ∧
      function.body = eraseAll (declarationsAbove ending ++ annotated) := by
  obtain ⟨given, body, _, start, ending, -, entered, ofStatements, isBody⟩ :=
    exists_methodSteps lowered
  rw [← erase_annotateStatements] at ofStatements
  obtain ⟨annotated, ofAnnotated, rfl⟩ := gives_map_iff.mp ofStatements
  refine ⟨given, body.children, annotated, start, ending, entered, ofAnnotated, ?_⟩
  rw [isBody, eraseAll_append, declarationsAbove, eraseAll_map]
  rfl

end ContractForge
