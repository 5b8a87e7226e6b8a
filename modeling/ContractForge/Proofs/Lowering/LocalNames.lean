import ContractForge.Proofs.Lowering.Scope

/-!
# Names of local variables

A local variable is told apart from the fields of its contract and, as long as the name
is not one that lowering makes up itself, from the functions of its methods. A `Guard`
says what is told apart, and every name that a statement declares is admitted by it
(`minds_statement`).
-/

namespace ContractForge

open Lower Node List

/-! ### Declared names -/

/-- The variable that the head of a loop declares: what stands between its type and its value. -/
def LoopHead.counter? : LoopHead → Option String
  | .counted init _ _ =>
    some (String.ofList ((init.toList.drop 8).take (init.toList.length - 12)))
  | .whileTrue _ => none

theorem counter?_countedHead :
    (LoopHead.counted s!"uint256 {name} = 0" condition update).counter? = some name := by
  have chars : (s!"uint256 {name} = 0").toList =
      "uint256 ".toList ++ (name.toList ++ " = 0".toList) := by
    simp [toString]
  have between : name.toList.length + 4 + 8 - 12 = name.toList.length := by omega
  rw [LoopHead.counter?, chars]
  simp [between]

namespace Statement

mutual

/-- The local variables that a statement declares, in its bodies as well. -/
def locals : Statement → List String
  | conditional branches otherwise => localsOfBranches branches ++ localsOfOtherwise otherwise
  | loop head body before => localsAmong before ++ head.counter?.toList ++ localsAmong body
  | statement => statement.declaredName?.toList

/-- The local variables that several statements declare. -/
def localsAmong : List Statement → List String
  | [] => []
  | statement :: rest => statement.locals ++ localsAmong rest

/-- The local variables that are declared in the branches of a conditional. -/
def localsOfBranches : List (String × List Statement) → List String
  | [] => []
  | (_, body) :: rest => localsAmong body ++ localsOfBranches rest

/-- The local variables that are declared in the remaining case of a conditional. -/
def localsOfOtherwise : Option (List Statement) → List String
  | none => []
  | some body => localsAmong body

end

theorem localsAmong_append :
    localsAmong (first ++ second) = localsAmong first ++ localsAmong second := by
  induction first with
  | nil => rfl
  | cons _ _ ih =>
    rw [cons_append, localsAmong, localsAmong, ih, append_assoc]

end Statement

open Statement

/-! ### Made-up names -/

/-- Names that lowering makes up: with an underscore before them or a number behind them, for the
counter of a loop, or for the length of a sequence. -/
inductive Invented : String → Prop where
  | underscored (name : String) : Invented ("_" ++ name)
  | numbered (base : String) (counts : 2 ≤ number) : Invented s!"{base}{number}"
  | counter (usual : name ∈ "index" :: Context.indexNames) : Invented name
  | length (base : String) : Invented (base ++ "Length")

/-- What the names in a method are told apart from: fields, and the functions of methods. -/
structure Guard where
  fields : Table (Option StaticType) Key
  methods : Table String

namespace Guard

/-- The name is that of no field, and of a function only if it is made up. -/
def Admits (guard : Guard) (name : String) : Prop :=
  Key.text name ∉ guard.fields.names ∧ (name ∈ guard.methods.values → Invented name)

/-- All names that the statements declare are admitted. -/
def AdmitsAll (guard : Guard) (lowered : List Statement) : Prop :=
  ∀ name ∈ localsAmong lowered, guard.Admits name

theorem admitsAll_nil (guard : Guard) : guard.AdmitsAll [] := by
  simp [AdmitsAll, localsAmong]

theorem admitsAll_append {guard : Guard} {first second : List Statement} :
    guard.AdmitsAll (first ++ second) ↔ guard.AdmitsAll first ∧ guard.AdmitsAll second := by
  rw [AdmitsAll, localsAmong_append]
  exact forall_mem_append

theorem admitsAll_silent {guard : Guard} {statement : Statement} (silent : statement.locals = []) :
    guard.AdmitsAll [statement] := by
  simp [AdmitsAll, localsAmong, silent]

end Guard

/-- Every event stands under its own name, and no two have the same. -/
structure EventsApart (events : Table Event) : Prop where
  named : ∀ entry ∈ events, entry.2.name = entry.1
  distinct : events.names.Nodup

/-- The guard is in force: the contract has its fields and methods, and all variables that are
declared at the beginning of the method are admitted. -/
structure Guard.Holds (guard : Guard) (context : Context) : Prop where
  fields : context.contract.stateVars = guard.fields
  methods : context.contract.methods = guard.methods
  events : EventsApart context.contract.events
  declarations : ∀ declaration ∈ context.method.hoistedDeclarations, guard.Admits declaration.1

theorem ignoresNotes_holds (guard : Guard) : IgnoresNotes guard.Holds where
  log _ _ holds := { holds with }
  notes context next same holds := by
    obtain ⟨fields, methods, events, declarations⟩ := holds
    rw [← same.contract] at fields methods events
    rw [← same.declarations] at declarations
    exact ⟨fields, methods, events, declarations⟩

theorem ignoresLog_holds (guard : Guard) : IgnoresLog guard.Holds :=
  (ignoresNotes_holds guard).log

variable {guard : Guard} {lowered body before : List Statement}

/-! ### Fresh names -/

/-- What a table does not have comes last in it. -/
theorem Table.put_of_notMem_names {α κ : Type} [DecidableEq κ] {table : Table α κ} {key : κ}
    {value : α} (isNew : key ∉ table.names) : table.put key value = table ++ [(key, value)] := by
  induction table with
  | nil => rfl
  | cons _ _ ih =>
    obtain ⟨isOther, notInRest⟩ := not_or.mp (mt mem_cons.mpr isNew)
    simp [Table.put, Ne.symm isOther, ih notInRest]

namespace Guard.Holds

variable {context : Context}

theorem not_mem_fields (holds : guard.Holds context)
    (free : context.isTaken (.text name) = false) : Key.text name ∉ guard.fields.names := by
  intro mem
  rw [← holds.fields] at mem
  simp [Context.isTaken, Payload.key?, Table.has_iff_mem_names.mpr mem] at free

/-- The names in sight do not matter. -/
theorem withBlock (holds : guard.Holds context) (block : BlockScope) :
    guard.Holds (context.withBlock block) :=
  { holds with }

end Guard.Holds

/-- A fresh name is the given one, or made up; no field has it. -/
theorem upholds_uniqueName :
    Upholds guard.Holds (fun found => ∃ name, found = .text name ∧
      Key.text name ∉ guard.fields.names ∧ (name = base ∨ Invented name))
      (Lower.uniqueName base) := by
  intro before _ after gives holds
  obtain ⟨name, isName, free, form⟩ := before.exists_uniqueName base
  have changed := gives_modifyGet_iff.mp gives
  rw [changed] at isName
  have sameAfter : after = (before.uniqueName (.text base)).2 := by rw [changed]
  refine ⟨sameAfter ▸ holds.withBlock _, name, isName, holds.not_mem_fields free, ?_⟩
  refine form.imp_right fun isNumbered => ?_
  obtain ⟨_, counts, rfl⟩ := isNumbered
  exact .numbered base counts

/-- The name that is asked for has an underscore before it if a function has it. -/
theorem Guard.Holds.exists_base (holds : guard.Holds context) :
    ∃ base, (context.declareLocal (.text text) type).1 = (context.uniqueName (.text base)).1 ∧
      (base ∉ guard.methods.values ∨ ∃ name, base = "_" ++ name) := by
  by_cases hides : ((context.contract.stateVars.named? (Payload.text text).safe).isSome ||
      (Payload.text text).safe.isOneOf context.contract.methods.values)
  · refine ⟨"_" ++ Name.safe text, ?_, .inr ⟨_, rfl⟩⟩
    simp only [Context.declareLocal, hides]
    rfl
  · refine ⟨Name.safe text, ?_, .inl fun isFunction => hides ?_⟩
    · simp only [Context.declareLocal, hides]
      rfl
    · rw [holds.methods]
      refine Bool.or_eq_true_iff.mpr (.inr ?_)
      simpa [Payload.safe, Payload.isOneOf, Payload.text?] using isFunction

/-- A variable is declared under a name that is admitted. -/
theorem upholds_declareLocal {source : Payload} (isText : source.IsText) :
    Upholds guard.Holds (fun found => ∃ name, found = .text name ∧ guard.Admits name)
      (Lower.declareLocal source type) := by
  obtain ⟨text, rfl⟩ := isText
  intro before _ after gives holds
  obtain ⟨base, isAsked, apart⟩ := holds.exists_base
  obtain ⟨name, isName, free, form⟩ := before.exists_uniqueName base
  have changed := gives_modifyGet_iff.mp gives
  have sameAfter : after = (before.declareLocal (.text text) type).2 := by rw [changed]
  rw [changed] at isAsked
  refine ⟨sameAfter ▸ (holds.withBlock _).withBlock _, name, isAsked.trans isName,
    holds.not_mem_fields free, fun isFunction => ?_⟩
  obtain rfl | ⟨_, counts, rfl⟩ := form
  · obtain notFunction | ⟨rest, rfl⟩ := apart
    · contradiction
    · exact .underscored rest
  · exact .numbered base counts

/-- The name of a loop counter is made up, and no field has it. -/
theorem upholds_nextIndexName :
    Upholds guard.Holds (fun found => ∃ name, found = .text name ∧ guard.Admits name)
      Lower.nextIndexName := by
  intro before found after gives holds
  have changed := gives_modifyGet_iff.mp gives
  unfold Context.nextIndexName at changed
  dsimp only at changed
  split at changed
  · rename_i isCandidate
    obtain ⟨rfl, rfl⟩ := Prod.mk.inj changed
    obtain ⟨name, isUsual, rfl⟩ := mem_map.mp (mem_of_find?_eq_some isCandidate)
    have free := find?_some isCandidate
    simp only [Bool.and_eq_true, Bool.not_eq_true'] at free
    exact ⟨holds.withBlock _, name, rfl, holds.not_mem_fields free.1,
      fun _ => .counter (mem_cons_of_mem _ isUsual)⟩
  · obtain ⟨kept, name, isName, notField, form⟩ :=
      upholds_uniqueName before found after (gives_modifyGet_iff.mpr changed) holds
    refine ⟨kept, name, isName, notField, fun _ => ?_⟩
    obtain rfl | isInvented := form
    · exact .counter mem_cons_self
    · exact isInvented

/-! ### Other changes of the context -/

theorem maintains_modifyMethod
    (kept : ∀ scope, (change scope).hoistedDeclarations = scope.hoistedDeclarations) :
    Maintains guard.Holds (modifyMethod change) := by
  refine maintains_modify fun context holds => ⟨holds.fields, holds.methods, holds.events, ?_⟩
  rw [kept]
  exact holds.declarations

theorem Upholds.inBlock {α : Type} {property : α → Prop} {step : Lower α}
    (ofStep : Upholds guard.Holds property step) : Upholds guard.Holds property (inBlock step) := by
  have asked : Maintains guard.Holds (asks Context.block) := maintains_get.bind fun _ =>
    maintains_pure _
  refine asked.bind fun saved => ofStep.andThen fun value holds => ?_
  exact Upholds.bind (maintains_modify fun _ known => known.withBlock _) fun _ =>
    upholds_pure holds

theorem EventsApart.put (apart : EventsApart events) (event : Event)
    (isNew : event.name ∉ events.names) : EventsApart (events.put event.name event) := by
  rw [Table.put_of_notMem_names isNew]
  constructor
  · exact forall_mem_append.mpr ⟨apart.named, by simp⟩
  · rw [Table.names, map_append, nodup_append]
    refine ⟨apart.distinct, by simp, ?_⟩
    rintro name mem other isOther rfl
    rw [map_singleton, mem_singleton] at isOther
    subst isOther
    exact isNew mem

theorem maintains_registerEvent (name : String) (values : List Node) :
    Maintains guard.Holds (registerEvent node name values) := by
  intro before _ _ gives holds
  have gives := gives.ofGet
  cases isKnown : before.contract.events.get? name with
  | some =>
    rw [isKnown] at gives
    have reports := maintains_report (ignoresLog_holds guard)
    exact upholds_ite (reports _) (maintains_pure _) _ _ _ gives holds
  | none =>
    rw [isKnown] at gives
    obtain ⟨parameters, _, asked, changed⟩ := gives.ofBind
    rw [gives_modify_iff.mp changed, (gives_infer_iff.mp asked).2]
    have isNew : name ∉ before.contract.events.names := by
      intro mem
      have known := Table.has_iff_mem_names.mpr mem
      rw [Table.has, isKnown] at known
      contradiction
    have apart := holds.events.put ⟨name, parameters⟩ isNew
    exact ⟨⟨holds.fields, holds.methods, apart, holds.declarations⟩, trivial⟩

/-! ### Statements -/

/-- The step keeps the guard in force, and declares admitted names only. -/
abbrev Minds (guard : Guard) (step : Lower (List Statement)) : Prop :=
  Upholds guard.Holds guard.AdmitsAll step

theorem Statement.locals_of_isSimple {statement : Statement} (simple : statement.IsSimple) :
    statement.locals = [] := by
  cases statement with
  | assign =>
    cases simple
    rfl
  | conditional | loop | emit => contradiction
  | _ => rfl

theorem localsAmong_of_areSimple (simple : AreSimple lowered) : localsAmong lowered = [] := by
  induction lowered with
  | nil => rfl
  | cons _ _ ih =>
    obtain ⟨ofFirst, ofRest⟩ := forall_mem_cons.mp simple
    rw [localsAmong, locals_of_isSimple ofFirst, ih ofRest, append_nil]

theorem Guard.admitsAll_of_areSimple (lowered : List Statement) (context : Context)
    (simple : AreSimple lowered) (holds : guard.Holds context) :
    guard.Holds context ∧ guard.AdmitsAll lowered := by
  refine ⟨holds, ?_⟩
  rw [Guard.AdmitsAll, localsAmong_of_areSimple simple]
  exact forall_mem_nil _

section

variable (guard) {name : String}

theorem minds_declaration {name : Payload} (isText : name.IsText) : Minds guard
    (declaration node name value) := by
  have ignores := ignoresNotes_holds guard
  unfold declaration
  refine upholds_guard (upholds_reject _ _) ?_
  refine ((reports_expression _).upholds ignores).bind fun text => ?_
  refine (maintains_infer _).bind fun found => ?_
  cases found with
  | none => exact upholds_reject _ _
  | some =>
    refine (reports_hasText.upholds ignores).bind fun isShown => ?_
    refine (upholds_declareLocal isText).andThen fun generated isAdmitted => ?_
    obtain ⟨name, rfl, admits⟩ := isAdmitted
    refine maintains_get.bind fun context => upholds_ite ?_ (upholds_pure ?_)
    · refine Upholds.bind (maintains_modify fun context holds => ?_) fun _ =>
        upholds_pure (Guard.admitsAll_silent rfl)
      exact ⟨holds.fields, holds.methods, holds.events, forall_mem_append.mpr
        ⟨holds.declarations, forall_mem_singleton.mpr admits⟩⟩
    · intro other isOther
      have isName : other = name := by
        split at isOther <;> simpa [localsAmong, locals, Statement.declare, Statement.declareOnly,
          declaredName?, Payload.spliced] using isOther
      rw [isName]
      exact admits

theorem minds_assignment (named : target.WellNamed) : Minds guard (assignment node target value) :=
  leads_assignment Guard.admitsAll_of_areSimple (ignoresNotes_holds guard) fun isName =>
    minds_declaration guard (named.isText isName)

/-! ### Loops -/

theorem upholds_loopIndex {name : Option Payload} (isText : ∀ param ∈ name, param.IsText) :
    Upholds guard.Holds guard.Admits (loopIndex name) := by
  unfold loopIndex
  split
  · rename_i param
    refine (upholds_declareLocal (isText param rfl)).andThen fun found isAdmitted => ?_
    obtain ⟨_, rfl, admits⟩ := isAdmitted
    exact upholds_pure admits
  · refine upholds_nextIndexName.andThen fun found isAdmitted => ?_
    obtain ⟨_, rfl, admits⟩ := isAdmitted
    exact upholds_pure admits

/-- A counted loop declares its counter, what its body declares, and what stands before it. -/
theorem Guard.admitsAll_countedLoop {guard : Guard} (ofIndex : guard.Admits index)
    (ofBody : guard.AdmitsAll body) (ofBefore : guard.AdmitsAll before) :
    guard.AdmitsAll [countedLoop index bound body before] := by
  intro name mem
  simp only [localsAmong, countedLoop, locals, append_nil, mem_append] at mem
  rcases mem with (inBefore | isCounter) | inBody
  · exact ofBefore name inBefore
  · rw [counter?_countedHead, Option.toList_some, mem_singleton] at isCounter
    rw [isCounter]
    exact ofIndex
  · exact ofBody name inBody

theorem Guard.admitsAll_declare {guard : Guard}
    (admits : guard.Admits name) : guard.AdmitsAll [Statement.declare type name value] := by
  intro other isOther
  have isName : other = name := by
    simpa [localsAmong, locals, Statement.declare, declaredName?] using isOther
  rw [isName]
  exact admits

variable {lowerBody : Lower (List Statement)} (ofBody : Minds guard lowerBody)

include ofBody

theorem minds_timesLoop (count : Node) (areTexts : ∀ param ∈ params, param.IsText) :
    Upholds guard.Holds (fun lowered => guard.AdmitsAll [lowered])
      (timesLoop count params lowerBody) := by
  refine (reports_operand.upholds (ignoresNotes_holds guard)).bind fun bound =>
    Upholds.inBlock ?_
  have isText : ∀ param ∈ params.head?, param.IsText :=
    fun param isFirst => areTexts param (mem_of_head? isFirst)
  refine (upholds_loopIndex guard isText).andThen fun index admits => ?_
  exact ofBody.andThen fun body admitsBody =>
    upholds_pure (Guard.admitsAll_countedLoop admits admitsBody guard.admitsAll_nil)

theorem minds_sequenceLoop (areTexts : ∀ param ∈ params, param.IsText) :
    Upholds guard.Holds (fun lowered => guard.AdmitsAll [lowered])
      (sequenceLoop node subject params lowerBody) := by
  have ignores := ignoresNotes_holds guard
  refine ((reports_expression _).upholds ignores).bind fun sequence => ?_
  refine (maintains_infer _).bind fun type => ?_
  refine (reports_sequenceElement.upholds ignores).bind fun element => ?_
  refine (upholds_part _).andThen fun base isBase => ?_
  refine upholds_uniqueName.andThen fun length isLength => ?_
  obtain ⟨length, rfl, notField, form⟩ := isLength
  have admitsLength : guard.Admits length := by
    refine ⟨notField, fun _ => ?_⟩
    obtain rfl | isInvented := form
    · obtain ⟨_, -, isBase⟩ := ok_of_bind isBase
      cases isBase
      exact .length _
    · exact isInvented
  refine (reports_writtenAs.upholds ignores).bind fun written => Upholds.inBlock ?_
  refine Upholds.bind (maintains_modify fun _ holds => holds.withBlock _) fun _ => ?_
  refine (upholds_loopIndex guard (Payload.isText_second areTexts)).andThen fun index admits => ?_
  have closing {first : List Statement} (admitsFirst : guard.AdmitsAll first) :
      Upholds guard.Holds (fun lowered => guard.AdmitsAll [lowered]) (do
        let body ← lowerBody
        return countedLoop index length (first ++ body)
          [Statement.declare .uint256 length s!"{sequence}.length"]) :=
    ofBody.andThen fun body admitsBody => upholds_pure (Guard.admitsAll_countedLoop admits
      (Guard.admitsAll_append.mpr ⟨admitsFirst, admitsBody⟩) (Guard.admitsAll_declare admitsLength))
  cases isFirst : params.head? with
  | none => exact closing guard.admitsAll_nil
  | some param =>
    refine (upholds_declareLocal (areTexts param (mem_of_head? isFirst))).andThen
      fun found isAdmitted => ?_
    obtain ⟨_, rfl, admitsName⟩ := isAdmitted
    exact closing (Guard.admitsAll_declare admitsName)

theorem minds_loopStatement {params : List Node}
    (areTexts : ∀ param ∈ params, param.payload.IsText) :
    Minds guard (do return [← loopStatement node subject params lowerBody]) := by
  have ignores := ignoresNotes_holds guard
  have namesAreTexts : ∀ name ∈ params.map Node.payload, name.IsText :=
    forall_mem_map.mpr areTexts
  have inLoop {condition : String} {body : List Statement} (admits : guard.AdmitsAll body) :
      guard.AdmitsAll [.loop (.whileTrue condition) body []] := by
    simpa [Guard.AdmitsAll, localsAmong, locals, LoopHead.counter?] using admits
  have ofLoop : Upholds guard.Holds (fun lowered => guard.AdmitsAll [lowered])
      (loopStatement node subject params lowerBody) := by
    refine upholds_ite ?_ (upholds_ite ?_ (upholds_ite ?_ ?_))
    · exact ((reports_expression _).upholds ignores).bind fun _ =>
        ofBody.inBlock.andThen fun _ admits => upholds_pure (inLoop admits)
    · exact (reports_negation.upholds ignores).bind fun _ =>
        ofBody.inBlock.andThen fun _ admits => upholds_pure (inLoop admits)
    · exact minds_timesLoop guard ofBody _ namesAreTexts
    · exact minds_sequenceLoop guard ofBody namesAreTexts
  exact ofLoop.andThen fun _ admits => upholds_pure admits

omit ofBody

/-! ### Statements without bodies -/

theorem minds_emitStatement (parts : List Node) :
    Minds guard (do return [← emitStatement node parts]) := by
  have ofStatement : Upholds guard.Holds (fun lowered => lowered.locals = [])
      (emitStatement node parts) :=
    upholds_emitStatement (ignoresNotes_holds guard) maintains_registerEvent fun _ _ => rfl
  exact ofStatement.andThen fun _ silent => upholds_pure (Guard.admitsAll_silent silent)

theorem minds_callStatement (node : Node)
    (ofLoop : Upholds guard.Holds (fun found => guard.AdmitsAll (found.getD [])) lowerLoop) :
    Minds guard (callStatement node lowerLoop) := by
  refine leads_callStatement Guard.admitsAll_of_areSimple (ignoresNotes_holds guard)
    (fun _ => minds_emitStatement guard _) fun _ => ?_
  refine ofLoop.andThen fun found admits => upholds_pure ?_
  simpa [Guard.AdmitsAll, localsAmong, locals, LoopHead.counter?] using admits

/-! ### All statements -/

mutual

/-- All names that a statement declares are admitted. -/
theorem minds_statement (node : Node) (named : node.WellNamed) : Minds guard (statement node) := by
  unfold statement
  split
  rename_i children
  have ignores := ignoresNotes_holds guard
  refine ((reports_noteLine _).upholds ignores).bind fun _ => ?_
  split
  · split
    · exact minds_assignment guard (named.children _ (by simp))
    · exact upholds_throw _
  · refine (minds_conditionals _ children named.children).andThen fun found admits => ?_
    refine upholds_pure ?_
    simpa [Guard.AdmitsAll, localsAmong, locals] using admits
  · split
    · rename_i body
      have bodyNamed := named.children _ (mem_of_getElem? (i := 2) rfl)
      exact minds_loopStatement guard (minds_statements body bodyNamed.children)
        (named.loopParameters rfl rfl)
    · rename_i body
      have bodyNamed := named.children _ (mem_of_getElem? (i := 1) rfl)
      exact minds_loopStatement guard (minds_statements body bodyNamed.children) (by simp)
    · exact upholds_throw _
  · exact (yields_returnStatement _).leadsList Guard.admitsAll_of_areSimple ignores
  · exact upholds_pure (Guard.admitsAll_silent rfl)
  · exact upholds_pure (Guard.admitsAll_silent rfl)
  · exact minds_callStatement guard _ (minds_loopBlock children named.children)
  · exact minds_statements children named.children
  all_goals first
    | exact (maintains_report ignores.log _).bind fun _ => upholds_pure guard.admitsAll_nil
    | exact upholds_reject _ _
    | exact yields_expressionStatement.leads Guard.admitsAll_of_areSimple ignores

theorem minds_statements (nodes : List Node) (named : AllNamed nodes) :
    Minds guard (statements nodes) := by
  unfold statements
  split
  · exact upholds_pure guard.admitsAll_nil
  · rename_i node rest
    obtain ⟨nodeNamed, restNamed⟩ := allNamed_cons.mp named
    refine (minds_statement node nodeNamed).andThen fun first ofFirst => ?_
    refine (minds_statements rest restNamed).andThen fun others ofOthers => ?_
    exact upholds_pure (Guard.admitsAll_append.mpr ⟨ofFirst, ofOthers⟩)

theorem minds_conditionals (negated : Bool) (nodes : List Node) (named : AllNamed nodes) :
    Upholds guard.Holds (fun found =>
      ∀ name ∈ localsOfBranches found.1 ++ localsOfOtherwise found.2, guard.Admits name)
      (conditionals negated nodes) := by
  have ignores := ignoresNotes_holds guard
  unfold conditionals
  split
  · rename_i body rest
    obtain ⟨-, bodyNamed, restNamed⟩ : _ ∧ Node.WellNamed _ ∧ AllNamed rest := by simpa using named
    refine upholds_ite ((reports_negation.upholds ignores).bind fun _ => ?_)
      (((reports_expression _).upholds ignores).bind fun _ => ?_)
    all_goals
      refine (minds_statements body bodyNamed.children).inBlock.andThen fun lowered admits => ?_
      refine (minds_conditionals false rest restNamed).andThen fun found admitsRest => ?_
      refine upholds_pure ?_
      rw [localsOfBranches, append_assoc]
      exact forall_mem_append.mpr ⟨admits, admitsRest⟩
  · rename_i body
    have bodyNamed := (allNamed_cons.mp named).1
    refine (minds_statements body bodyNamed.children).inBlock.andThen fun lowered admits => ?_
    exact upholds_pure admits
  · exact upholds_pure (by simp [localsOfBranches, localsOfOtherwise])

theorem minds_loopBlock (nodes : List Node) (named : AllNamed nodes) :
    Upholds guard.Holds (fun found => guard.AdmitsAll (found.getD [])) (loopBlock nodes) := by
  unfold loopBlock
  split
  · exact upholds_pure guard.admitsAll_nil
  · rename_i body _
    have blockNamed := (allNamed_cons.mp named).1
    have bodyNamed := blockNamed.children _ (mem_of_getElem? (i := 1) rfl)
    refine (minds_statements body bodyNamed.children).inBlock.andThen fun lowered admits => ?_
    exact upholds_pure admits
  · exact upholds_throw _
  · rename_i rest _ _
    exact minds_loopBlock rest (allNamed_cons.mp named).2

end

end

end ContractForge
