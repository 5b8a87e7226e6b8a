import ContractForge.Proofs.Lowering.Maintenance
import ContractForge.Proofs.Lowering.Naming

/-!
# Which steps keep the names

Expressions and most statements are lowered without declaring anything: the
names that are known and taken before them are known and taken after them. Only
a first assignment declares a variable; it is looked at elsewhere.
-/

namespace ContractForge

open Lower

variable {node target : Node} {α β : Type} {lowered : List Statement} {before after : Context}

/-- The step leaves all names as they are. -/
def Keeps (step : Lower α) : Prop :=
  ∀ before value after, Gives step before value after → after.names = before.names

theorem keeps_part : Keeps (part answer) := by
  intro _ _ _ gives
  rw [(gives_part_iff.mp gives).2]

theorem keeps_infer : Keeps (infer question) := by
  intro _ _ _ gives
  rw [(gives_infer_iff.mp gives).2]

/-- What follows a check that may be left out starts with the same names. -/
theorem Lower.Gives.afterGuard [Decidable condition] (ofCheck : Keeps check)
    (gives : Gives (if condition then check >>= next else next ()) before result after) :
    ∃ middle, middle.names = before.names ∧ Gives (next ()) middle result after := by
  split at gives
  · obtain ⟨⟨⟩, middle, checked, followed⟩ := gives.ofBind
    exact ⟨middle, ofCheck _ _ _ checked, followed⟩
  · exact ⟨before, rfl, gives⟩

theorem ignoresNotes_names (names : Names) : IgnoresNotes fun context => context.names = names where
  log _ _ same := same
  notes context next sameNext same := by
    rw [← same, Context.names, Context.names, Context.block, Context.block, sameNext.block,
      sameNext.hoisted, sameNext.declarations]

/-- Steps that report declare nothing. -/
theorem Yields.keeps (yields : Yields property step) : Keeps step :=
  fun before value after gives =>
    (yields.upholds (ignoresNotes_names before.names) before value after gives rfl).1

/-! ### Statements that declare nothing -/

def Statement.declaredName? : Statement → Option String
  | .assign target _ _ (some _) => some target
  | _ => none

/-- The names that a statement declares for the statements after it. -/
def Statement.declares : Statement → List String
  | .loop _ _ before => before.filterMap declaredName?
  | statement => statement.declaredName?.toList

/-- The step leaves all names as they are, and its value has a property. -/
def Ensures (property : α → Prop) (step : Lower α) : Prop :=
  ∀ before value after, Gives step before value after →
    after.names = before.names ∧ property value

theorem Ensures.ofUpholds
    (upholds : ∀ names, Upholds (fun context => context.names = names) property step) :
    Ensures property step :=
  fun before value after gives => upholds before.names before value after gives rfl

def IsPlain (statement : Statement) : Prop :=
  statement.declares = []

def ArePlain (lowered : List Statement) : Prop :=
  ∀ statement ∈ lowered, IsPlain statement

theorem arePlain_nil : ArePlain [] := by
  intro _ _
  contradiction

theorem arePlain_singleton {statement : Statement} (plain : IsPlain statement) :
    ArePlain [statement] := by
  intro _ mem
  rwa [List.mem_singleton.mp mem]

theorem isPlain_of_isSimple {statement : Statement} (simple : statement.IsSimple) :
    IsPlain statement := by
  cases statement with
  | assign =>
    cases simple
    rfl
  | conditional | loop | emit => contradiction
  | _ => rfl

theorem arePlain_of_areSimple (lowered : List Statement) (context : Context)
    (simple : AreSimple lowered) (same : context.names = names) :
    context.names = names ∧ ArePlain lowered :=
  ⟨same, fun statement mem => isPlain_of_isSimple (simple statement mem)⟩

/-- An event is emitted by a step that keeps what registering it keeps. -/
theorem upholds_emitStatement (ignores : IgnoresNotes invariant)
    (registers : ∀ name values, Maintains invariant (registerEvent node name values))
    (emits : ∀ name arguments, property (.emit name arguments)) :
    Upholds invariant property (emitStatement node parts) := by
  unfold emitStatement
  refine upholds_guard (upholds_reject _ _) ((maintains_part _).bind fun found => ?_)
  cases found with
  | none => exact upholds_reject _ _
  | some =>
    refine (reports_arguments.upholds ignores).bind fun _ => (registers _ _).bind fun _ => ?_
    exact (reports_noteUnwritable.upholds ignores).bind fun _ => upholds_pure (emits _ _)

theorem maintains_registerEvent_names (node : Node) (name : String) (values : List Node) :
    Maintains (fun context => context.names = names) (registerEvent node name values) := by
  refine maintains_get.bind fun context => ?_
  split
  · exact upholds_ite (maintains_report (ignoresNotes_names names).log _) (maintains_pure _)
  · exact (maintains_infer _).bind fun _ => maintains_modify fun _ same => same

theorem upholds_callStatement (node : Node)
    (noLoop : ¬ (node.payload.isText "loop" && node.callBlock?.isSome)) :
    Upholds (fun context => context.names = names) ArePlain (callStatement node lowerLoop) := by
  refine leads_callStatement arePlain_of_areSimple (ignoresNotes_names names) (fun _ => ?_)
    fun isLoop => absurd isLoop noLoop
  exact (upholds_emitStatement (ignoresNotes_names names) (maintains_registerEvent_names _)
    fun _ _ => rfl).andThen fun _ plain => upholds_pure (arePlain_singleton plain)

/-! ### First assignments -/

/-- How a first assignment declares its variable: where it stands, or at the beginning of the
method. -/
inductive DeclaredBy (before : Names) (source : Key) (lowered : List Statement) (after : Names) :
    Prop where
  | here {name : String} {statement : Statement} (notHoisted : source ∉ before.hoisted)
      (declares : before.Declares source name after) (is_lowered : lowered = [statement])
      (names_it : statement.declares = [name])
  | above {name : String} {statement : Statement} {middle : Names}
      (hoisted : source ∈ before.hoisted) (declares : before.Declares source name middle)
      (is_lowered : lowered = [statement]) (plain : IsPlain statement)
      (after_eq : after = { middle with declarations := middle.declarations ++ [name] })

/-- The variable is known then. -/
theorem DeclaredBy.grows {before after : Names}
    (declared : DeclaredBy before source lowered after) :
    before.Grows after ∧ (after.locals.get? source).isSome := by
  have known {middle : Names} {name : String} (declares : before.Declares source name middle) :
      (middle.locals.get? source).isSome := by
    obtain ⟨_, locals_eq⟩ := declares.locals
    simp [locals_eq, Table.get?_put_self]
  cases declared with
  | here _ declares => exact ⟨declares.grows, known declares⟩
  | above _ declares _ _ after_eq =>
    have isKnown := known declares
    rw [after_eq]
    exact ⟨declares.grows.trans (.ofLocals rfl), isKnown⟩

theorem declaredBy_declaration
    (gives : Gives (declaration node (.text source) value) before lowered after) :
    DeclaredBy before.names (.text source) lowered after.names := by
  unfold declaration at gives
  obtain ⟨text, _, ofValue, gives⟩ := gives.notRejected.2.ofBind
  obtain ⟨found, _, ofType, gives⟩ := gives.ofBind
  cases found with
  | none => exact absurd gives not_gives_reject
  | some type =>
    obtain ⟨_, third, ofShown, gives⟩ := gives.ofBind
    obtain ⟨_, fourth, ofDeclaration, gives⟩ := gives.ofBind
    have same : third.names = before.names := by
      rw [reports_hasText.keeps _ _ _ ofShown, keeps_infer _ _ _ ofType,
        (reports_expression _).keeps _ _ _ ofValue]
    obtain ⟨_, isText, -, declares⟩ := third.declareLocal_declares source type
    rw [gives_modifyGet_iff.mp ofDeclaration] at isText declares
    rw [same] at declares
    subst isText
    have gives := gives.ofGet
    have sameHoisted : fourth.method.hoisted = before.names.hoisted := declares.hoisted
    have hoisted_iff : fourth.isHoisted (.text source) ↔
        Key.text source ∈ before.names.hoisted := by
      rw [← sameHoisted]
      simp [Context.isHoisted, Payload.key?]
    split at gives
    · rename_i isHoisted
      obtain ⟨⟨⟩, _, changed, given⟩ := gives.ofBind
      obtain ⟨rfl, rfl⟩ := given.ofPure
      refine .above (hoisted_iff.mp isHoisted) declares rfl rfl ?_
      rw [gives_modify_iff.mp changed]
      simp [Context.names, Context.block, Payload.spliced]
    · rename_i notHoisted
      obtain ⟨rfl, rfl⟩ := gives.ofPure
      refine .here (fun mem => notHoisted (hoisted_iff.mpr mem)) declares rfl ?_
      split <;> rfl

/-! ### Single statements -/

/-- The node has no bodies with statements of their own. -/
def Node.isSingle (node : Node) : Bool :=
  match node.kind with
  | .conditional | .loop | .body => false
  | .call => !(node.payload.isText "loop" && node.callBlock?.isSome)
  | _ => true

theorem ensures_statement (single : node.isSingle) (other : node.kind ≠ .assignment) :
    Ensures ArePlain (statement node) := by
  obtain ⟨kind, _, _, _, _⟩ := node
  refine .ofUpholds fun names => ?_
  have ignores := ignoresNotes_names names
  unfold statement
  refine ((reports_noteLine _).upholds ignores).bind fun _ => ?_
  cases kind
  case assignment | conditional | loop | body => contradiction
  case call =>
    refine upholds_callStatement _ fun isLoop => ?_
    simp [Node.isSingle, isLoop] at single
  case returnFrom => exact (yields_returnStatement _).leadsList arePlain_of_areSimple ignores
  case breakLoop | nextLoop => exact upholds_pure (arePlain_singleton rfl)
  case classDef | moduleDef | methodDef | marker | inclusion | accessor | importFile =>
    exact (maintains_report ignores.log _).bind fun _ => upholds_pure arePlain_nil
  case program | params | param | args | block | blockParams | pair => exact upholds_reject _ _
  all_goals exact yields_expressionStatement.leads arePlain_of_areSimple ignores

/-- The target of an assignment is a text, if it is a bare name. -/
def Node.AssignsText (node : Node) : Prop :=
  ∀ target value, node.children = [target, value] → target.kind = .identifier →
    ∃ name, target.payload = .text name

theorem assignment_cases (isText : target.kind = .identifier → ∃ name, target.payload = .text name)
    (gives : Gives (assignment node target value) before lowered after) :
    (after.names = before.names ∧ ArePlain lowered) ∨
      ∃ source, DeclaredBy before.names source lowered after.names := by
  have ofSimple (lowered : List Statement) (context : Context) (simple : AreSimple lowered)
      (same : context.names = before.names) :
      (context.names = before.names ∧ ArePlain lowered) ∨
        ∃ source, DeclaredBy before.names source lowered context.names :=
    .inl (arePlain_of_areSimple lowered context simple same)
  refine leads_assignment ofSimple (ignoresNotes_names before.names) (fun isName => ?_) before
    lowered after gives rfl
  obtain ⟨name, payload_eq⟩ := isText isName
  intro _ _ _ declared same
  rw [payload_eq] at declared
  rw [← same]
  exact .inr ⟨.text name, declaredBy_declaration declared⟩

/-- What a single statement does to the names: nothing, or it declares a variable. -/
theorem single_cases (single : node.isSingle) (isText : node.AssignsText)
    (gives : Gives (statement node) before lowered after) :
    (after.names = before.names ∧ ArePlain lowered) ∨
      ∃ source, DeclaredBy before.names source lowered after.names := by
  by_cases isAssignment : node.kind = .assignment
  · obtain ⟨_, _, _, _, _⟩ := node
    cases isAssignment
    obtain ⟨⟨⟩, _, ofLine, gives⟩ := gives.ofBind
    rw [← (reports_noteLine _).keeps _ _ _ ofLine]
    dsimp only at gives
    split at gives
    · exact assignment_cases (isText _ _ rfl) gives
    · exact absurd gives not_gives_throw
  · exact .inl (ensures_statement single isAssignment before lowered after gives)

end ContractForge
