import Mathlib.Data.List.Dedup
import ContractForge.Proofs.Lowering.MethodNames
import ContractForge.Proofs.Lowering.SafeContract

/-!
# Names of the members of a class

What the members of a lowered class are named after: its functions after the methods that
the body defines (`upholds_placeFunctions`), its setters after the writable fields
(`upholds_fieldSetters`), and its fields as the guard of the class knows them
(`Guard.areFields_of_declaredAs`).
-/

namespace ContractForge

open Lower Node Statement List

variable {invariant : Context → Prop} {done : List Node} {guard : Guard}
  {entries : List MethodEntry} {members : ClassMembers} {names : List String}
  {after context : Context}

/-! ### What a class body names -/

/-- The method that a node of a class body defines. -/
def definedName? (node : Node) : Option String :=
  if node.kind == .methodDef then node.children.head?.bind fun name => name.payload.text? else none

/-- The methods that a class body defines, each at its last definition. -/
def definedMethods (body : List Node) : List String :=
  (body.filterMap definedName?).dedup

/-- The definitions of methods in a class body that are not defined again behind. -/
def keptMethods : List Node → List Node
  | [] => []
  | node :: rest =>
    match definedName? node with
    | some name =>
      if name ∈ rest.filterMap definedName? then keptMethods rest else node :: keptMethods rest
    | none => keptMethods rest

/-- Whether a constant with the value is an enumeration. -/
def listsSymbols (value : Node) : Bool :=
  value.kind == .array && !value.children.isEmpty &&
    value.children.all fun child => child.kind == .symbol

/-- The names of constants that a class body assigns to, either those of enumerations, whose values
list symbols, or the others. -/
def assignedConstants (listed : Bool) (body : List Node) : List String :=
  body.filterMap fun node =>
    if node.kind == .assignment && node.children.head?.any (·.kind == .constant) &&
        node.children[1]?.any (listsSymbols · == listed) then
      (node.children.head?.bind fun target => target.payload.text?).map Text.lastScope
    else none

theorem assignedConstants_append (listed : Bool) (front back : List Node) :
    assignedConstants listed (front ++ back) =
      assignedConstants listed front ++ assignedConstants listed back :=
  filterMap_append

/-- What the accessor declarations of a class body name that start with one of the words. -/
def accessorLabels (words : List String) (body : List Node) : List Payload :=
  body.flatMap fun node =>
    if node.kind == .accessor && node.payload.isOneOf words then node.children.map Node.payload
    else []

def writableFields (body : List Node) : List String :=
  body.flatMap fun node =>
    if node.kind == .accessor && node.payload.isOneOf ["attr_writer", "attr_accessor"] then
      node.children.map fun field => field.payload.spliced
    else []

theorem writableFields_eq :
    writableFields body =
      (accessorLabels ["attr_writer", "attr_accessor"] body).map Payload.spliced := by
  rw [accessorLabels, map_flatMap, writableFields]
  refine congrArg (body.flatMap ·) (funext fun node => ?_)
  split <;> simp

/-- What has been read of a class body: its constants, enumerations, methods and accessors. There
are constants among its variables only, and no functions yet. -/
structure Declared (done : List Node) (members : ClassMembers) : Prop where
  constants : ∀ stored ∈ members.contract.stateVariables, stored.isConstant = true
  constantNames : members.contract.stateVariables.map StateVariable.name =
    assignedConstants false done
  enumerations : members.contract.enumerations.map Enumeration.name = assignedConstants true done
  functions : members.contract.functions = []
  construction : members.contract.construction = none
  methods : members.methods.map MethodMember.node = done.filter fun node => node.kind == .methodDef
  writers : members.writers.map Prod.fst = accessorLabels ["attr_writer", "attr_accessor"] done
  readers : members.readers.getD [] = accessorLabels ["attr_reader", "attr_accessor"] done

theorem Declared.start (constants : contract.stateVariables = [])
    (enumerations : contract.enumerations = []) (functions : contract.functions = [])
    (construction : contract.construction = none) : Declared [] { contract } :=
  ⟨by simp [constants], by simp [constants, assignedConstants],
    by simp [enumerations, assignedConstants], functions, construction, rfl, rfl, rfl⟩

/-- Nothing is known about fields, methods and events. -/
structure Context.IsBlank (context : Context) : Prop where
  fields : context.contract.stateVars = []
  methods : context.contract.methods = []
  events : context.contract.events = []
  declarations : context.method.hoistedDeclarations = []

theorem ignoresNotes_isBlank : IgnoresNotes Context.IsBlank where
  log _ _ blank := { blank with }
  notes context next same blank := by
    obtain ⟨fields, methods, events, declarations⟩ := blank
    rw [← same.contract] at fields methods events
    rw [← same.declarations] at declarations
    exact ⟨fields, methods, events, declarations⟩

/-- A constant or an enumeration is declared next to the others. -/
theorem upholds_declareConstant (isAssignment : node.kind = .assignment)
    (children_eq : node.children = [target, value]) (isConstant : target.kind = .constant)
    (constants : ∀ stored ∈ contract.stateVariables, stored.isConstant) :
    Upholds Context.IsBlank (fun result => result.functions = contract.functions ∧
        result.construction = contract.construction ∧
        (∀ stored ∈ result.stateVariables, stored.isConstant) ∧
        result.stateVariables.map StateVariable.name =
          contract.stateVariables.map StateVariable.name ++ assignedConstants false [node] ∧
        result.enumerations.map Enumeration.name =
          contract.enumerations.map Enumeration.name ++ assignedConstants true [node])
      (declareConstant contract node target value) := by
  refine (upholds_part _).andThen fun label isLabel => upholds_guard (upholds_reject _ _) ?_
  have isText : target.payload.text? = some label := by
    rw [Payload.eq_of_asText isLabel]
    rfl
  have declares (listed : Bool) : assignedConstants listed [node] =
      if listsSymbols value == listed then [Text.lastScope label] else [] := by
    cases lists : listsSymbols value <;> cases listed <;>
      simp [assignedConstants, isAssignment, children_eq, isConstant, isText, lists]
  dsimp only
  split
  · rename_i lists
    have isListed : listsSymbols value := lists
    refine (maintains_part _).bind fun symbols => ?_
    refine Upholds.bind (maintains_modify fun context blank => ?_) fun _ =>
      upholds_pure ⟨rfl, rfl, constants, ?_⟩
    · exact { blank with }
    · simp [declares, isListed]
  · rename_i other
    have notListed : listsSymbols value = false := Bool.eq_false_iff.mpr other
    refine upholds_guard (upholds_reject _ _) ((maintains_infer _).bind fun type => ?_)
    split
    · exact upholds_reject _ _
    · refine ((reports_expression _).upholds ignoresNotes_isBlank).bind fun text => ?_
      refine Upholds.bind (maintains_modify fun context blank => ?_) fun _ => ?_
      · exact { blank with }
      · refine (reports_hasText.upholds ignoresNotes_isBlank).bind fun isShown =>
          upholds_pure ⟨rfl, rfl, forall_mem_append.mpr ⟨constants, by simp⟩, ?_⟩
        simp [declares, notListed]

section

variable (declared : Declared done members)
include declared

/-- A node that defines no method, accessor or constant changes none of them. -/
theorem Declared.skip (node : Node) (noMethod : node.kind ≠ .methodDef)
    (noAccessor : node.kind ≠ .accessor)
    (noConstant : ∀ listed, assignedConstants listed [node] = []) :
    Declared (done ++ [node]) members where
  constants := declared.constants
  constantNames := by rw [assignedConstants_append, noConstant, append_nil, declared.constantNames]
  enumerations := by rw [assignedConstants_append, noConstant, append_nil, declared.enumerations]
  functions := declared.functions
  construction := declared.construction
  methods := by simp [declared.methods, noMethod]
  writers := by simp [declared.writers, accessorLabels, noAccessor]
  readers := by simp [declared.readers, accessorLabels, noAccessor]

/-- An accessor declaration may declare fields readable and writable. -/
theorem Declared.accessors (isAccessor : node.kind = .accessor) :
    Declared (done ++ [node]) (declareAccessors members node) := by
  have sameMethods : members.methods.map MethodMember.node =
      (done ++ [node]).filter fun node => node.kind == .methodDef := by
    simp [declared.methods, isAccessor]
  have added (words : List String) : accessorLabels words (done ++ [node]) =
      accessorLabels words done ++
        if node.payload.isOneOf words then node.children.map Node.payload else [] := by
    simp [accessorLabels, isAccessor]
  have writers := declared.writers
  have readers := declared.readers
  unfold declareAccessors
  dsimp only
  split <;> split <;> rename_i writes reads
  all_goals exact { declared with
    constantNames := by simpa [assignedConstants, isAccessor] using declared.constantNames
    enumerations := by simpa [assignedConstants, isAccessor] using declared.enumerations
    methods := sameMethods
    writers := by rw [added]; simp [writes, writers]
    readers := by rw [added]; simp [reads, readers] }

theorem upholds_readMember :
    Upholds Context.IsBlank (Declared (done ++ [node])) (readMember members node) := by
  obtain ⟨kind, payload, line, column, children⟩ := node
  cases kind
  case methodDef =>
    refine upholds_pure { declared with
      constantNames := by simpa [assignedConstants] using declared.constantNames
      enumerations := by simpa [assignedConstants] using declared.enumerations
      methods := ?_, writers := ?_, readers := ?_ }
    · simp [declared.methods]
    · simp [declared.writers, accessorLabels]
    · simp [declared.readers, accessorLabels]
  case marker =>
    refine upholds_pure ?_
    have same := declared.skip ⟨.marker, payload, line, column, children⟩ (by simp) (by simp)
      fun _ => rfl
    unfold noteMarker
    split
    · exact same
    · split
      all_goals exact { same with }
  case inclusion =>
    refine (maintains_part _).bind fun path => upholds_pure ?_
    have same := declared.skip ⟨.inclusion, payload, line, column, children⟩ (by simp) (by simp)
      fun _ => rfl
    unfold addParent
    split
    all_goals exact { same with }
  case accessor =>
    exact upholds_pure (declared.accessors rfl)
  case assignment =>
    refine (upholds_part _).andThen fun target isTarget => ?_
    have isFirst := childAt_eq_ok isTarget
    split
    · rename_i other
      refine (maintains_report ignoresNotes_isBlank.log _).bind fun _ =>
        upholds_pure (declared.skip _ (by simp) (by simp) fun listed => ?_)
      rw [← head?_eq_getElem?] at isFirst
      simp_all [assignedConstants]
    rename_i isConstant
    split
    · rename_i first value children_eq
      rw [children_eq] at isFirst
      obtain rfl : first = target := by simpa using isFirst
      refine (upholds_declareConstant rfl children_eq (by simpa using isConstant)
        declared.constants).andThen
        fun contract facts => ?_
      obtain ⟨sameFunctions, sameConstruction, constants, constantNames, enumerations⟩ := facts
      exact upholds_pure {
        constants
        constantNames := by
          rw [assignedConstants_append, ← declared.constantNames]
          exact constantNames
        enumerations := by
          rw [assignedConstants_append, ← declared.enumerations]
          exact enumerations
        functions := sameFunctions.trans declared.functions
        construction := sameConstruction.trans declared.construction
        methods := by simp [declared.methods]
        writers := by simp [declared.writers, accessorLabels]
        readers := by simp [declared.readers, accessorLabels] }
    · exact upholds_throw _
  all_goals exact (maintains_report ignoresNotes_isBlank.log _).bind fun _ =>
    upholds_pure (declared.skip _ (by simp) (by simp) fun _ => rfl)

theorem upholds_readMembers :
    Upholds Context.IsBlank (Declared (done ++ nodes)) (nodes.foldlM readMember members) := by
  induction nodes generalizing done members with
  | nil =>
    rw [append_nil]
    exact upholds_pure declared
  | cons node _ ih =>
    refine (upholds_readMember declared).andThen fun found foundDeclared => ?_
    have ofRest := ih foundDeclared
    rwa [append_assoc, singleton_append] at ofRest

end

/-! ### Methods -/

theorem mapM_eq_ok {α β : Type} {question : α → Except Malformed β} {values : List α}
    {results : List β} (answered : values.mapM question = .ok results) :
    Forall₂ (fun value result => question value = .ok result) values results := by
  induction values generalizing results with
  | nil =>
    cases answered
    exact .nil
  | cons _ _ ih =>
    rw [mapM_cons] at answered
    obtain ⟨_, isFirst, answered⟩ := ok_of_bind answered
    obtain ⟨_, areOthers, isResult⟩ := ok_of_bind answered
    cases isResult
    exact .cons isFirst (ih areOthers)

def MethodEntry.IsNamed (entry : MethodEntry) : Prop :=
  definedName? entry.node = some entry.name

/-- The entries of methods have the names that the nodes define. -/
theorem isNamed_of_namedMethods {members : List MethodMember}
    (areMethods : ∀ mem ∈ members, mem.node.kind = .methodDef)
    (named : namedMethods members = .ok entries) :
    entries.map MethodEntry.node = members.map MethodMember.node ∧
      ∀ entry ∈ entries, entry.IsNamed := by
  obtain ⟨_, areNames, areEntries⟩ := ok_of_bind named
  have ofNames := mapM_eq_ok areNames
  have ofEntries := mapM_eq_ok areEntries
  clear named areNames areEntries
  induction ofNames generalizing entries with
  | nil =>
    cases ofEntries
    simp
  | cons isName others ih =>
    rename_i mem name rest restNames
    obtain _ | ⟨isEntry, ofRest⟩ := ofEntries
    obtain ⟨isMethod, restMethods⟩ := forall_mem_cons.mp areMethods
    obtain ⟨spelled, isSpelled, isEntry⟩ := ok_of_bind isEntry
    cases isEntry
    obtain ⟨_, isChild, isPayload⟩ := ok_of_bind isName
    cases isPayload
    have isDefined : definedName? mem.node = some spelled := by
      have first := childAt_eq_ok isChild
      rw [← head?_eq_getElem?] at first
      unfold Payload.spelled at isSpelled
      split at isSpelled
      · rename_i text isText
        cases isSpelled
        simp [definedName?, isMethod, first, isText]
      · contradiction
    obtain ⟨sameNodes, areNamed⟩ := ih restMethods ofRest
    exact ⟨by rw [map_cons, map_cons, sameNodes], forall_mem_cons.mpr ⟨isDefined, areNamed⟩⟩

theorem map_name_eq_filterMap (areNamed : ∀ entry ∈ entries, entry.IsNamed) :
    entries.map MethodEntry.name = (entries.map MethodEntry.node).filterMap definedName? := by
  rw [filterMap_map]
  exact (filterMap_eq_map_iff_forall_eq_some.mpr areNamed).symm

/-- Of several definitions of a method the last is kept. -/
theorem upholds_dropRedefined (ofLog : IgnoresLog invariant)
    (areNamed : ∀ entry ∈ entries, entry.IsNamed) :
    Upholds invariant (fun kept => kept ⊆ entries ∧
        kept.map MethodEntry.name = (entries.map MethodEntry.name).dedup ∧
        kept.map MethodEntry.node = keptMethods (entries.map MethodEntry.node))
      (dropRedefined entries) := by
  induction entries with
  | nil => exact upholds_pure ⟨Subset.refl _, rfl, rfl⟩
  | cons entry rest ih =>
    obtain ⟨isNamed, restNamed⟩ := forall_mem_cons.mp areNamed
    have isLater_iff : (rest.any fun later => later.name == entry.name) ↔
        entry.name ∈ rest.map MethodEntry.name := by
      simp
    have keptNodes : keptMethods ((entry :: rest).map MethodEntry.node) =
        if entry.name ∈ rest.map MethodEntry.name then keptMethods (rest.map MethodEntry.node)
        else entry.node :: keptMethods (rest.map MethodEntry.node) := by
      rw [map_cons, keptMethods, isNamed, map_name_eq_filterMap restNamed]
    unfold dropRedefined
    split
    · rename_i isLater
      refine (maintains_report ofLog _).bind fun _ => ?_
      refine (ih restNamed).mono fun kept facts => ?_
      refine ⟨Subset.trans facts.1 (subset_cons_self _ _), ?_, ?_⟩
      · rw [map_cons, dedup_cons_of_mem (isLater_iff.mp isLater)]
        exact facts.2.1
      · rw [keptNodes, if_pos (isLater_iff.mp isLater), facts.2.2]
    · rename_i isLast
      have notLater := mt isLater_iff.mpr isLast
      refine (ih restNamed).andThen fun kept facts => upholds_pure ⟨?_, ?_, ?_⟩
      · exact cons_subset_cons _ facts.1
      · rw [map_cons, map_cons, facts.2.1, dedup_cons_of_notMem notLater]
      · rw [keptNodes, if_neg notLater, map_cons, facts.2.2]

def methodTable (names : List String) : Table String :=
  (names.filter (· != "initialize")).map fun name => (name, foreignName name)

theorem get?_methodTable (isMethod : name ∈ names)
    (isOther : name ≠ "initialize") : (methodTable names).get? name = some (foreignName name) := by
  have mem : name ∈ names.filter (· != "initialize") := by simp [isMethod, isOther]
  unfold methodTable
  generalize names.filter (· != "initialize") = others at mem
  induction others with
  | nil => contradiction
  | cons first _ ih =>
    by_cases same : first = name
    · simp [Table.get?, same]
    · rcases mem_cons.mp mem with isFirst | inRest
      · exact absurd isFirst.symm same
      · simpa [Table.get?, same] using ih inRest

theorem values_methodTable (names : List String) :
    (methodTable names).values = (names.filter (· != "initialize")).map foreignName := by
  simp [methodTable, Table.values]

/-- The generated name of a method is made known. -/
def Context.withMethod (context : Context) (name : String) : Context :=
  if name != "initialize" then
    { context with contract := { context.contract with
        methods := context.contract.methods.put name (foreignName name) } }
  else context

theorem gives_noteMethods (gives : Gives (noteMethods entries) before result after) :
    after = (entries.map MethodEntry.name).foldl Context.withMethod before := by
  induction entries generalizing before with
  | nil => exact gives.ofPure.2
  | cons entry _ ih =>
    rw [noteMethods, forIn_cons] at gives
    obtain ⟨step, middle, ofStep, gives⟩ := gives.ofBind
    have isMiddle : step = .yield PUnit.unit ∧ middle = before.withMethod entry.name := by
      unfold Context.withMethod
      split at ofStep
      · rename_i isOther
        obtain ⟨⟨⟩, _, modified, returned⟩ := ofStep.ofBind
        obtain ⟨rfl, rfl⟩ := returned.ofPure
        rw [if_pos isOther]
        exact ⟨rfl, gives_modify_iff.mp modified⟩
      · rename_i isInitialize
        rw [if_neg isInitialize]
        exact ofStep.ofPure
    obtain ⟨rfl, rfl⟩ := isMiddle
    exact ih gives

/-- The names of methods are put into the table in their order. -/
theorem foldl_withMethod (distinct : names.Nodup)
    (areNew : ∀ name ∈ names, name ∉ context.contract.methods.names) :
    names.foldl Context.withMethod context =
      { context with contract := { context.contract with
          methods := context.contract.methods ++ methodTable names } } := by
  induction names generalizing context with
  | nil => simp [methodTable]
  | cons name rest ih =>
    obtain ⟨isNew, restNew⟩ := forall_mem_cons.mp areNew
    obtain ⟨notLater, restDistinct⟩ := nodup_cons.mp distinct
    rw [foldl_cons]
    by_cases isOther : name = "initialize"
    · have same : context.withMethod name = context := by simp [Context.withMethod, isOther]
      rw [same, ih restDistinct restNew]
      simp [methodTable, isOther]
    · have added : (context.withMethod name).contract.methods =
          context.contract.methods ++ [(name, foreignName name)] := by
        simp [Context.withMethod, isOther, Table.put_of_notMem_names isNew]
      have stillNew : ∀ other ∈ rest,
          other ∉ (context.withMethod name).contract.methods.names := by
        intro other inRest mem
        rw [added, Table.names, map_append] at mem
        rcases mem_append.mp mem with isOld | isAdded
        · exact restNew other inRest isOld
        · rw [map_singleton, mem_singleton] at isAdded
          subst isAdded
          exact notLater inRest
      rw [ih restDistinct stillNew, added]
      simp [Context.withMethod, methodTable, isOther]

/-! ### Fields -/

theorem maintains_forIn {α : Type} {step : α → PUnit → Lower (ForInStep PUnit)} {values : List α}
    (ofStep : ∀ value, Maintains invariant (step value ⟨⟩)) :
    Maintains invariant (forIn values PUnit.unit step) := by
  induction values with
  | nil => exact maintains_pure _
  | cons value _ ih =>
    rw [forIn_cons]
    refine (ofStep value).bind fun found => ?_
    cases found with
    | done => exact maintains_pure _
    | yield => exact ih

/-- Typing the fields changes nothing but what is known about their types. -/
theorem maintains_typeFields (ignores : IgnoresNotes invariant)
    (ofField : ∀ label type, Maintains invariant (registerField label type)) : Maintains invariant
    (typeFields fields construction) := by
  have later (params : List Payload) {rest : Lower PUnit} (ofRest : Maintains invariant rest) :
      Maintains invariant (do
        for usage in fields do
          checkInitializer usage
          if !isDeferred params usage then registerField usage.label (← fieldType usage)
        rest) := by
    refine Upholds.bind (maintains_forIn fun usage => ?_) fun _ => ofRest
    refine (reports_checkInitializer.upholds ignores).bind fun _ => ?_
    split
    · refine (reports_fieldType.upholds ignores).bind fun _ => ?_
      exact (ofField _ _).bind fun _ => maintains_pure _
    · exact maintains_pure _
  unfold typeFields
  split
  · refine (maintains_part _).bind fun params => later params ?_
    dsimp only
    split
    · refine ((reports_parameterTypes _).upholds ignores).bind fun types => ?_
      refine Upholds.bind (maintains_forIn fun usage => ?_) fun _ => maintains_pure _
      exact (maintains_part _).bind fun _ => (ofField _ _).bind fun _ => maintains_pure _
    · exact maintains_pure _
  · exact (maintains_pure _).bind fun params => later params (maintains_pure _)

theorem get?_of_requiredType (isType : context.requiredType (.text name) = .ok type) :
    context.contract.stateVars.get? (.text (Name.safe name)) = some (some type) := by
  unfold Context.requiredType at isType
  split at isType
  · rename_i isFound
    cases isType
    exact Option.join_eq_some_iff.mp isFound
  · contradiction

/-- The variable is a field that the guard knows, with its type. -/
structure Guard.IsField (guard : Guard) (stored : StateVariable) : Prop where
  typed : guard.fields.get? (.text stored.name) = some (some stored.type)
  changes : stored.isConstant = false

theorem Guard.IsField.known {stored : StateVariable} (isField : guard.IsField stored) :
    Key.text stored.name ∈ guard.fields.names := by
  refine Table.has_iff_mem_names.mp ?_
  rw [Table.has, isField.typed]
  rfl

theorem Guard.isField_of_declaredAs {usage : FieldUsage} {stored : StateVariable}
    (declared : usage.DeclaredAs guard.Holds stored) : guard.IsField stored := by
  obtain ⟨label, isText, isName⟩ := declared.named
  obtain ⟨context, holds, isType⟩ := declared.typed
  refine ⟨?_, declared.changes⟩
  rw [isName, ← holds.fields]
  exact get?_of_requiredType (isText ▸ isType)

theorem Guard.areFields_of_declaredAs {fields : List FieldUsage}
    (declared : Forall₂ (FieldUsage.DeclaredAs · guard.Holds) fields stored) :
    ∀ field ∈ stored, guard.IsField field := by
  induction declared with
  | nil => simp
  | cons first _ ih => exact forall_mem_cons.mpr ⟨isField_of_declaredAs first, ih⟩

end ContractForge
