import ContractForge.Proofs.Lowering.SafeMethod
import ContractForge.Proofs.Lowering.Scope

/-!
# Scopes of methods

A method starts with its parameters and with the declarations of its hoisted
variables. From there on its names stay sound, so that for every variable that its
body uses it is known exactly when it is in scope
(`method_use_inScope_iff`): always, unless its name is hoisted and stands for
something that is neither declared at the beginning nor a parameter around.
-/

namespace ContractForge

open Lower Annotated Node List

/-! ### Statements that take the place of others -/

/-- Statements that take the place of others declare nothing. -/
def Replacements.ArePlain (replacements : Replacements) : Prop :=
  ∀ replacement ∈ replacements, ContractForge.ArePlain replacement.2

/-- The variable is declared for the field, in a context with a property. -/
structure FieldUsage.DeclaredAs (usage : FieldUsage) (invariant : Context → Prop)
    (stored : StateVariable) : Prop where
  named : ∃ label, usage.label = .text label ∧ stored.name = Name.safe label
  changes : stored.isConstant = false
  typed : ∃ context, invariant context ∧ context.requiredType usage.label = .ok stored.type

section

variable {invariant : Context → Prop} (ignores : IgnoresNotes invariant)

include ignores

theorem upholds_declareField :
    Upholds invariant (fun found => usage.DeclaredAs invariant found.1 ∧
      ∀ statements ∈ found.2, AreSimple statements) (declareField readers usage) := by
  refine (upholds_part _).andThen fun label isLabel => ?_
  refine (upholds_infer _).andThen fun type typed => ?_
  have named := Payload.eq_of_asText isLabel
  cases usage.initializer with
  | none => exact upholds_pure ⟨⟨⟨label, named, rfl⟩, rfl, typed⟩, by simp⟩
  | some =>
    refine upholds_ite ?_ (upholds_ite ?_ ?_)
    · refine (reports_expressions.upholds ignores).bind fun texts => ?_
      refine upholds_pure ⟨⟨⟨label, named, rfl⟩, rfl, typed⟩, ?_⟩
      intro _ isFound
      cases isFound
      intro _ mem
      obtain ⟨-, -, rfl⟩ := mem_map.mp mem
      trivial
    · exact upholds_pure ⟨⟨⟨label, named, rfl⟩, rfl, typed⟩, by simp [areSimple_nil]⟩
    · refine (maintains_part _).bind fun isInline => upholds_ite ?_ ?_
      · exact ((reports_expression _).upholds ignores).bind fun text =>
          upholds_pure ⟨⟨⟨label, named, rfl⟩, rfl, typed⟩, by simp [areSimple_nil]⟩
      · exact upholds_pure ⟨⟨⟨label, named, rfl⟩, rfl, typed⟩, by simp⟩

theorem upholds_declareFields :
    Upholds invariant (fun found =>
      Forall₂ (FieldUsage.DeclaredAs · invariant) fields found.1 ∧
        ∀ replacement ∈ found.2, AreSimple replacement.2) (declareFields readers fields) := by
  induction fields with
  | nil => exact upholds_pure ⟨.nil, by simp⟩
  | cons usage _ ih =>
    refine (upholds_declareField ignores).andThen fun first ofFirst => ?_
    refine ih.andThen fun others ofOthers => upholds_pure ⟨.cons ofFirst.1 ofOthers.1, ?_⟩
    refine forall_mem_append.mpr ⟨?_, ofOthers.2⟩
    split
    · rename_i statements _ isReplaced
      exact forall_mem_singleton.mpr (ofFirst.2 statements isReplaced)
    · simp

end

theorem tracksAll_plain {statements : List Statement} (plain : ArePlain statements) :
    TracksAll (pure (statements.map fun statement => .single statement [])) := by
  intro _ annotated _ gives
  obtain ⟨rfl, rfl⟩ := gives.ofPure
  have erasedPlain : ∀ annotated ∈ statements.map fun statement => Annotated.single statement [],
      IsPlain annotated.erase := by
    intro _ mem
    obtain ⟨statement, isStatement, rfl⟩ := mem_map.mp mem
    exact plain statement isStatement
  refine ⟨.ofLocals rfl, rfl, fun _ mem => mem, fun declarations around _ sound => ?_⟩
  rw [usesAll_of_plain erasedPlain, after_of_plain erasedPlain]
  exact ⟨by simp [uses], sound⟩

/-- Lowering the statements of a method keeps the names sound. -/
theorem tracks_annotateStatements {replacements : Replacements} (plain : replacements.ArePlain)
    (returnsLast : Bool) (place : Nat) {nodes : List Node}
    (fit : ∀ node ∈ nodes, node.Fits .statement) :
    TracksAll (annotateStatements replacements returnsLast place nodes) := by
  induction nodes generalizing place with
  | nil => exact tracksAll_nil
  | cons node _ ih =>
    obtain ⟨nodeFits, restFit⟩ := forall_mem_cons.mp fit
    have others := ih (place + 1) restFit
    unfold annotateStatements
    split
    · rename_i replacement isReplaced
      obtain ⟨_, _, rfl, -⟩ := lookup_eq_some_iff.mp isReplaced
      exact (tracksAll_plain (plain (place, replacement) (by simp))).append others
    · split
      · intro _ _ _ gives
        obtain ⟨changed, _, ofReturning, givesChanged⟩ := gives.ofBind
        obtain ⟨returned, rfl⟩ := gives_infer_iff.mp ofReturning
        have changedFits := (answers_returning _ node nodeFits).holds returned
        exact (tracks_annotate changed changedFits.wellNamed).append others _ _ _ givesChanged
      · exact (tracks_annotate node nodeFits.wellNamed).append others

/-! ### The beginning of a method -/

/-- The names that are known are those of parameters. -/
structure KnowsParameters (parameters : List Mention) (names : Names) : Prop where
  typed : names.Typed
  areKnown : ∀ parameter ∈ parameters, (names.locals.get? parameter.source).isSome
  known : ∀ source found, names.locals.get? source = some found →
    ∃ name, found.name = .text name ∧ ⟨source, name⟩ ∈ parameters
  taken : ∀ parameter ∈ parameters, Key.text parameter.name ∈ names.declared

theorem KnowsParameters.declare {before after : Names} (knows : KnowsParameters parameters before)
    (declares : before.Declares source name after) :
    KnowsParameters (parameters ++ [⟨source, name⟩]) after where
  typed := declares.grows.typed knows.typed
  areKnown parameter mem := by
    rcases mem_append.mp mem with isOld | isNew
    · exact declares.grows.known _ (knows.areKnown parameter isOld)
    · obtain ⟨_, locals_eq⟩ := declares.locals
      rw [mem_singleton.mp isNew, locals_eq, Table.get?_put_self]
      rfl
  known other found isKnown := by
    obtain wasKnown | ⟨rfl, isName, -⟩ := declares.known isKnown
    · obtain ⟨otherName, isText, mem⟩ := knows.known other found wasKnown
      exact ⟨otherName, isText, mem_append_left _ mem⟩
    · exact ⟨name, isName, by simp⟩
  taken parameter mem := by
    rw [declares.declared]
    rcases mem_append.mp mem with isOld | isNew
    · exact mem_cons_of_mem _ (knows.taken parameter isOld)
    · rw [mem_singleton.mp isNew]
      exact mem_cons_self

theorem knowsParameters_declareParameters (areTexts : ∀ param ∈ given, param.2.1.IsText)
    {before after : Context} (knows : KnowsParameters known before.names)
    (gives : Gives (declareParameters method types given) before parameters after) :
    KnowsParameters (known ++ parameterMentions given parameters) after.names ∧
      (parameterMentions given parameters).map Mention.name = parameters.map Parameter.name := by
  induction given generalizing known before parameters with
  | nil =>
    obtain ⟨rfl, rfl⟩ := gives.ofPure
    simpa [parameterMentions] using knows
  | cons param _ ih =>
    obtain ⟨_, _, ownType⟩ := param
    obtain ⟨text, rfl⟩ := areTexts _ mem_cons_self
    unfold declareParameters at gives
    obtain ⟨start, sameStart, givesStart⟩ := gives.afterGuard (Yields.report _).keeps
    obtain ⟨_, declared, ofName, givesDeclared⟩ := givesStart.ofBind
    obtain ⟨⟨⟩, added, ofAdding, givesAdded⟩ := givesDeclared.ofBind
    obtain ⟨_, ofRest, rfl⟩ := givesAdded.ofReturn
    obtain ⟨name, isName, -, declares⟩ := start.declareLocal_declares text
      ((typeNamed? types (.text text)).getD ownType)
    rw [gives_modifyGet_iff.mp ofName] at isName declares
    cases isName
    have sameAdded : added.names = declared.names := by
      rw [gives_modify_iff.mp ofAdding]
      rfl
    rw [sameStart, ← sameAdded] at declares
    obtain ⟨knowsAll, sameNames⟩ := ih (fun param mem => areTexts param (mem_cons_of_mem _ mem))
      (knows.declare declares) ofRest
    constructor
    · rw [append_assoc] at knowsAll
      exact knowsAll
    · exact congrArg (name :: ·) sameNames

theorem childAt_eq_ok {node child : Node} {place : Nat} (found : node.childAt place = .ok child) :
    node.children[place]? = some child := by
  unfold Node.childAt at found
  split at found
  · rename_i isOther
    cases found
    exact isOther
  · contradiction

theorem upholds_parameterTypes (ignores : IgnoresNotes invariant) (isMethod : method.IsMethod) :
    Upholds invariant (fun types => ∀ param ∈ types, param.1.IsText) (parameterTypes method) := by
  refine (maintains_part _).bind fun body => (upholds_part _).andThen fun params areParams => ?_
  have fit := (answers_methodParams isMethod).holds areParams
  refine composes_upholds.mapM fun param mem => ?_
  refine (reports_parameterType.upholds ignores).bind fun type => ?_
  refine (upholds_part _).andThen fun name isName => upholds_pure ?_
  exact (answers_paramName (fit param mem)).holds isName

theorem knowsParameters_enterBody {entry : MethodEntry} (isMethod : entry.node.IsMethod)
    {before start : Context}
    {given : List (Node × Payload × StaticType)} {parameters : List Parameter}
    {children : List Node}
    (gives : Gives (enterBody entry) before (given, parameters, children) start) :
    KnowsParameters (parameterMentions given parameters) start.names ∧
      (parameterMentions given parameters).map Mention.name = parameters.map Parameter.name ∧
      ∀ child ∈ children, child.Fits .statement := by
  obtain ⟨⟨⟩, first, entered, gives⟩ := gives.ofBind
  obtain ⟨_, _, ofTypes, gives⟩ := gives.ofBind
  obtain ⟨_, third, ofParams, gives⟩ := gives.ofBind
  obtain ⟨_, fourth, ofParameters, gives⟩ := gives.ofBind
  obtain ⟨_, _, ofBody, gives⟩ := gives.ofBind
  obtain ⟨hoisted, sixth, ofHoisted, gives⟩ := gives.ofBind
  obtain ⟨⟨⟩, _, marked, returned⟩ := gives.ofBind
  obtain ⟨isResult, rfl⟩ := returned.ofPure
  cases isResult
  obtain ⟨sameTypes, areTexts⟩ :=
    upholds_parameterTypes (ignoresNotes_names first.names) isMethod _ _ _ ofTypes rfl
  have nothingKnown : KnowsParameters [] third.names := by
    rw [keeps_part _ _ _ ofParams, sameTypes, gives_modify_iff.mp entered]
    exact ⟨by rintro source found ⟨⟩, by simp, by rintro source found ⟨⟩, by simp⟩
  obtain ⟨knows, sameNames⟩ := knowsParameters_declareParameters
    (fun param mem => areTexts _ (of_mem_zip mem).2) nothingKnown ofParameters
  refine ⟨?_, sameNames, ?_⟩
  · -- What is hoisted is found out later, and changes no name.
    have sameFourth : sixth.names = fourth.names := by
      rw [keeps_part _ _ _ ofHoisted, keeps_part _ _ _ ofBody]
    rw [← sameFourth] at knows
    rw [gives_modify_iff.mp marked]
    exact ⟨knows.typed, knows.areKnown, knows.known, knows.taken⟩
  · exact ((answers_methodBody isMethod).holds (gives_part_iff.mp ofBody).1).statements

/-- The names are sound where a method begins. -/
theorem KnowsParameters.sound {parameters : List Mention} {names : Names}
    {declarations : List String} {around : Surroundings} (knows : KnowsParameters parameters names)
    (scope : ∀ name, name ∈ around.scope ↔
      name ∈ declarations ∨ name ∈ parameters.map Mention.name)
    (sameParameters : around.parameters = parameters) : Sound declarations around names where
  settled source found isKnown := by
    obtain ⟨name, isText, mem⟩ := knows.known source found isKnown
    refine ⟨name, isText, knows.taken _ mem, iff_of_true ?_ fun _ => .inr ?_⟩
    · exact (scope name).mpr (.inr (mem_map_of_mem mem))
    · rwa [sameParameters]
  covered name mem := by
    rcases (scope name).mp mem with isAbove | isParameter
    · exact .inr isAbove
    · obtain ⟨parameter, inParameters, rfl⟩ := mem_map.mp isParameter
      exact .inl (knows.taken parameter inParameters)
  above name mem := (scope name).mpr (.inl mem)
  parameters parameter mem := by
    rw [sameParameters] at mem
    exact (scope _).mpr (.inr (mem_map_of_mem mem))

/-- The declarations at the beginning of a method mention nothing. -/
theorem usesAll_declarationsAbove (around : Surroundings) (context : Context) :
    usesAll around (declarationsAbove context) = [] := by
  unfold declarationsAbove
  generalize context.method.hoistedDeclarations = hoisted
  induction hoisted generalizing around with
  | nil => rfl
  | cons _ _ ih => exact ih _

theorem mem_scope_declarationsAbove {around : Surroundings} {context : Context} {name : String} :
    name ∈ (around.after (declarationsAbove context)).scope ↔
      name ∈ context.names.declarations ∨ name ∈ around.scope := by
  rw [Surroundings.mem_scope_after]
  have same : (declarationsAbove context).flatMap (fun statement => statement.erase.declares) =
      context.names.declarations := by
    unfold declarationsAbove Context.names
    generalize context.method.hoistedDeclarations = hoisted
    induction hoisted with
    | nil => rfl
    | cons declaration _ ih =>
      exact congrArg (declaration.1 :: ·) ih
  rw [same]

/-- What is declared where the body of a method begins. -/
def Function.surroundings (function : Function) (parameters : List Mention) : Surroundings :=
  ⟨function.parameters.map Parameter.name, parameters⟩

/-- Of every variable that the body of a method uses, it is known when it is in scope: it is
declared where it is used, unless its name is hoisted and stands for a variable that is neither
declared at the beginning of the body nor a parameter of the method or of a loop around. -/
theorem method_use_inScope_iff {source : String} {program : Node}
    (read : parse source = .ok program) {entry : MethodEntry}
    (inProgram : entry.node ∈ program.walk)
    (isMethod : entry.node.kind = .methodDef) {readers : Option (List Payload)}
    {fields : List FieldUsage} {stored : List StateVariable} {replacements : Replacements}
    {first second : Context}
    (declared : Gives (declareFields readers fields) first (stored, replacements) second)
    {before after : Context} {function : Function}
    (lowered : Gives (lowerMethod entry replacements) before function after) :
    ∃ parameters body ending,
      Gives (annotateMethod entry replacements) before (parameters, body) ending ∧
      eraseAll body = function.body ∧
      ∀ use ∈ usesAll (function.surroundings parameters) body,
        use.InScope ↔ use.Anchored ending.names.hoisted ending.names.declarations := by
  have isMethod : entry.node.IsMethod := ⟨isMethod, exists_fits_of_parse read inProgram⟩
  obtain ⟨-, -, simple⟩ :=
    upholds_declareFields ignoresNotes_true _ _ _ declared trivial
  have plain : replacements.ArePlain := fun replacement member statement inside =>
    isPlain_of_isSimple (simple replacement member statement inside)
  obtain ⟨given, children, annotated, start, ending, entered, ofStatements, isBody⟩ :=
    exists_annotateMethod lowered
  obtain ⟨knows, sameNames, childrenFit⟩ := knowsParameters_enterBody isMethod entered
  refine ⟨parameterMentions given function.parameters, declarationsAbove ending ++ annotated,
    ending, entered.bind (ofStatements.bind ?_), isBody.symm, ?_⟩
  · exact (gives_get_iff.mpr ⟨rfl, rfl⟩).bind (gives_pure_iff.mpr ⟨rfl, rfl⟩)
  · have scope : ∀ name, name ∈ ((function.surroundings (parameterMentions given
        function.parameters)).after (declarationsAbove ending)).scope ↔
          name ∈ ending.names.declarations ∨
            name ∈ (parameterMentions given function.parameters).map Mention.name := by
      intro name
      rw [mem_scope_declarationsAbove, sameNames]
      rfl
    have sound := knows.sound scope (Surroundings.parameters_after _ _)
    have tracks := tracks_annotateStatements plain _ 0 childrenFit _ _ _ ofStatements
    have settled := (tracks.settled _ _ (fun _ member => member) sound).1
    intro use member
    rw [usesAll_append, usesAll_declarationsAbove, nil_append] at member
    rw [tracks.hoisted]
    exact settled use member

/-! ### A parameter that is used behind its loop -/

def methodsIn (source : String) : List Node :=
  match parse source with
  | .ok program => program.findNodes .methodDef
  | .error _ => []

theorem exists_of_mem_methodsIn (mem : node ∈ methodsIn source) :
    ∃ program, parse source = .ok program ∧ node ∈ program.walk ∧ node.kind = .methodDef := by
  unfold methodsIn at mem
  split at mem
  · rename_i program read
    obtain ⟨inProgram, isMethod⟩ := mem_filter.mp mem
    exact ⟨program, read, inProgram, beq_iff_eq.mp isMethod⟩
  · contradiction

/-- The value of a step and the context after it, if it succeeds. -/
def Lower.result? {α : Type} (step : Lower α) (before : Context) : Option (α × Context) :=
  match outcome step before with
  | (.ok value, after) => some (value, after)
  | (.error _, _) => none

theorem gives_of_result? {α : Type} {step : Lower α} {before after : Context} {value : α}
    (found : step.result? before = some (value, after)) : Gives step before value after := by
  unfold Lower.result? at found
  split at found
  · rename_i isOutcome
    cases found
    exact isOutcome
  · contradiction

/-- Whether a method is lowered without any diagnostic, and uses a variable that is not in scope. -/
def MethodEntry.strays (entry : MethodEntry) (context : Context) : Bool :=
  ((lowerMethod entry []).result? context).any fun (function, after) =>
    after.log.entries.isEmpty &&
      ((annotateMethod entry []).result? context).any fun ((parameters, body), _) =>
        (usesAll (function.surroundings parameters) body).any fun use => !decide use.InScope

theorem exists_of_strays (strays : entry.strays context) :
    ∃ function after parameters body ending,
      Gives (lowerMethod entry []) context function after ∧ after.log.entries = [] ∧
      Gives (annotateMethod entry []) context (parameters, body) ending ∧
      ∃ use ∈ usesAll (function.surroundings parameters) body, ¬ use.InScope := by
  obtain ⟨⟨function, after⟩, lowered, strays⟩ := (Option.any_eq_true _ _).mp strays
  obtain ⟨silent, strays⟩ := Bool.and_eq_true_iff.mp strays
  obtain ⟨⟨⟨parameters, body⟩, ending⟩, annotated, strays⟩ := (Option.any_eq_true _ _).mp strays
  obtain ⟨use, isUse, outside⟩ := any_eq_true.mp strays
  exact ⟨function, after, parameters, body, ending, gives_of_result? lowered, by simpa using silent,
    gives_of_result? annotated, use, isUse, by simpa using outside⟩

/-- A method with a variable that is hoisted, and a loop whose parameter has its name. -/
def tallySource : String :=
  "class Tally\n" ++
  "  def add(count)\n" ++
  "    step = 1 if count > 0\n" ++
  "    count.times do |step| @total += step end\n" ++
  "    @total = step\n" ++
  "  end\n" ++
  "end\n"

/-- What is known about the class when its method is lowered. -/
def tally : Context :=
  { contract := { stateVars := [(.text "total", some .uint256)], methods := [("add", "add")] } }

theorem tally_strays :
    ((methodsIn tallySource).any fun node => (⟨"add", node, none, []⟩ : MethodEntry).strays tally) =
      true := by
  decide +kernel

theorem tally_use_inScope_iff :
    ∃ program node function after,
      parse tallySource = .ok program ∧ node ∈ program.walk ∧ node.kind = .methodDef ∧
      Gives (lowerMethod ⟨"add", node, none, []⟩ []) tally function after ∧
      ∃ parameters body ending,
        Gives (annotateMethod ⟨"add", node, none, []⟩ []) tally (parameters, body) ending ∧
        eraseAll body = function.body ∧
        ∀ use ∈ usesAll (function.surroundings parameters) body,
          use.InScope ↔ use.Anchored ending.names.hoisted ending.names.declarations := by
  obtain ⟨node, member, strays⟩ := any_eq_true.mp tally_strays
  obtain ⟨program, read, inProgram, isMethod⟩ := exists_of_mem_methodsIn member
  obtain ⟨function, after, -, -, -, lowered, -⟩ := exists_of_strays strays
  have noFields : Gives (declareFields none []) tally ([], []) tally :=
    gives_pure_iff.mpr ⟨rfl, rfl⟩
  exact ⟨program, node, function, after, read, inProgram, isMethod, lowered,
    method_use_inScope_iff read inProgram isMethod noFields lowered⟩

/-- Behind the loop, the name of the variable stands for the counter of the loop. -/
theorem tally_use_not_inScope :
    ∃ program node function after parameters body ending,
      parse tallySource = .ok program ∧ node ∈ program.walk ∧ node.kind = .methodDef ∧
      Gives (lowerMethod ⟨"add", node, none, []⟩ []) tally function after ∧ after.log.entries = [] ∧
      Gives (annotateMethod ⟨"add", node, none, []⟩ []) tally (parameters, body) ending ∧
      ∃ use ∈ usesAll (function.surroundings parameters) body, ¬ use.InScope := by
  obtain ⟨node, member, strays⟩ := any_eq_true.mp tally_strays
  obtain ⟨program, read, inProgram, isMethod⟩ := exists_of_mem_methodsIn member
  obtain ⟨function, after, parameters, body, ending, lowered, silent, annotated, outside⟩ :=
    exists_of_strays strays
  exact ⟨program, node, function, after, parameters, body, ending, read, inProgram, isMethod,
    lowered, silent, annotated, outside⟩

end ContractForge
