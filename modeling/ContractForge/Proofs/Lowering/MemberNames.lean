import ContractForge.Proofs.Lowering.FieldOrder

/-!
# Names of members

The names of the constants, enumerations, state variables and functions of a contract can
be read off the body of its class. `contract_isHygienic_iff` gives them, says what lowering
sees to for the names inside functions, and what is left over for the names to be hygienic.
-/

namespace ContractForge

open Lower Node Statement List

variable {body : Node} {node : Node} {name field : String} {contract : Contract} {guard : Guard}
  {own setters : List Function}

/-- The names of the functions that methods become. -/
def methodNames (body : List Node) : List String :=
  ((definedMethods body).filter (· != "initialize")).map foreignName

def Contract.storesTable (contract : Contract) (field : String) : Bool :=
  contract.stateVariables.any fun stored =>
    !stored.isConstant && stored.name == Name.safe field && stored.type.isMapping

/-- The writable fields that get a setter: those that are no tables, and for which the class
defines none. -/
def setterFields (body : List Node) (contract : Contract) : List String :=
  (writableFields body).filter fun field =>
    !(definedMethods body).contains s!"{field}=" && !contract.storesTable field

def namesIn (body : List Node) (contract : Contract) : List String :=
  assignedConstants false body ++ (fieldOrder body).map Name.safe ++
    (methodNames body ++ (setterFields body contract).map setterName) ++
    contract.events.map Event.name ++ assignedConstants true body

/-- What the members of a contract are named after. Methods and fields have different names in the
class. No parameter or variable of a method has the name of a field, and if it has that of the
function of a method, its name is made up. -/
structure Contract.NamedAfter (contract : Contract) (body : List Node)
    (own setters : List Function) : Prop where
  functions : contract.functions = own ++ setters
  methods : own.map Function.name = methodNames body
  setters : Forall₂ IsSetterOf (setterFields body contract) setters
  stored : contract.storedNames = assignedConstants false body ++ (fieldOrder body).map Name.safe
  enumerations : contract.enumerations.map Enumeration.name = assignedConstants true body
  events : (contract.events.map Event.name).Nodup
  sources : (definedMethods body).Nodup ∧ (fieldOrder body).Nodup
  inside : ∀ function ∈ contract.construction.toList ++ own, ∀ name ∈ function.ownNames,
    name ∉ (fieldOrder body).map Name.safe ∧ (name ∈ methodNames body → Invented name)

/-- What lowering does not see to: that the names of the members are different, that no parameter or
variable of a method has the name of a constant or setter, nor of the function of a method if
the name is made up, and that the parameters of setters have names of their own. -/
structure Contract.LeavesApart (contract : Contract) (body : List Node) (own : List Function) :
    Prop where
  members : (namesIn body contract).Nodup
  inside : ∀ function ∈ contract.construction.toList ++ own, ∀ name ∈ function.ownNames,
    name ∉ assignedConstants false body ∧ name ∉ (setterFields body contract).map setterName ∧
      (Invented name → name ∉ methodNames body)
  setters : ∀ field ∈ setterFields body contract,
    setterParameter field ∉ contract.storedNames ∧ setterParameter field ∉ contract.functionNames

namespace Contract.NamedAfter

variable {body : List Node} (names : contract.NamedAfter body own setters)
include names

theorem functionNames_eq :
    contract.functionNames = methodNames body ++ (setterFields body contract).map setterName := by
  have ofSetters {fields : List String} (areSetters : Forall₂ IsSetterOf fields setters) :
      setters.map Function.name = fields.map setterName := by
    clear names
    induction areSetters with
    | nil => rfl
    | cons isSetter _ ih => rw [map_cons, map_cons, isSetter.1, ih]
  rw [Contract.functionNames, names.functions, map_append, names.methods, ofSetters names.setters]

theorem isHygienic_iff : contract.IsHygienic ↔ contract.LeavesApart body own := by
  have members : contract.memberNames = namesIn body contract := by
    rw [Contract.memberNames, names.stored, names.functionNames_eq, names.enumerations]
    rfl
  constructor
  · intro hygienic
    refine ⟨members ▸ hygienic.members, fun function isFunction name isOwn => ?_,
      fun field isWritten => ?_⟩
    · have isMember : function ∈ contract.construction.toList ++ contract.functions := by
        rw [names.functions, ← append_assoc]
        exact mem_append_left _ isFunction
      obtain ⟨notStored, notFunction⟩ := hygienic.inside function isMember name isOwn
      rw [names.stored, mem_append, not_or] at notStored
      rw [names.functionNames_eq, mem_append, not_or] at notFunction
      exact ⟨notStored.1, notFunction.2, fun _ => notFunction.1⟩
    · obtain ⟨setter, isSetter, -, ownNames⟩ := exists_of_forall₂ names.setters isWritten
      have isMember : setter ∈ contract.construction.toList ++ contract.functions := by
        rw [names.functions]
        exact mem_append_right _ (mem_append_right _ isSetter)
      exact hygienic.inside setter isMember _ (by simp [ownNames])
  · intro apart
    refine ⟨members ▸ apart.members, fun function isFunction name isOwn => ?_⟩
    rw [names.functions, ← append_assoc] at isFunction
    rcases mem_append.mp isFunction with ofMethod | isSetter
    · obtain ⟨noField, isInvented⟩ := names.inside function ofMethod name isOwn
      obtain ⟨notConstant, notSetter, notInvented⟩ := apart.inside function ofMethod name isOwn
      rw [names.stored, names.functionNames_eq, mem_append, mem_append, not_or, not_or]
      exact ⟨⟨notConstant, noField⟩, fun isMethod => notInvented (isInvented isMethod) isMethod,
        notSetter⟩
    · obtain ⟨field, isWritten, -, ownNames⟩ := exists_of_forall₂ names.setters.flip isSetter
      rw [ownNames, mem_singleton] at isOwn
      rw [isOwn]
      exact apart.setters field isWritten

end Contract.NamedAfter

/-- A method that is named like a setter is no constructor. -/
theorem has_methodTable (names : List String) :
    (methodTable names).has s!"{field}=" = names.contains s!"{field}=" := by
  have isOther : s!"{field}=" ≠ "initialize" := by
    intro same
    have ends := congrArg (fun text : String => text.toList.getLast?) same
    simp [toString] at ends
  rw [Bool.eq_iff_iff, Table.has_iff_mem_names, contains_iff_mem]
  simp only [methodTable, Table.names, map_map, Function.comp_def, map_id', mem_filter]
  exact and_iff_left_of_imp fun _ => bne_iff_ne.mpr isOther

/-- Which fields get a setter shows in the body and the variables of the contract. -/
theorem Guard.sets_eq {fields : List StateVariable} {names : List String}
    (methods : guard.methods = methodTable names)
    (areFields : ∀ stored ∈ fields, guard.IsField stored)
    (areStored : ∀ stored, stored ∈ contract.stateVariables ∧ stored.isConstant = false ↔
      stored ∈ fields) (isField : Name.safe field ∈ fields.map StateVariable.name) :
    guard.sets field = (!names.contains s!"{field}=" && !contract.storesTable field) := by
  obtain ⟨stored, isStored, isName⟩ := mem_map.mp isField
  have isTable : contract.storesTable field = stored.type.isMapping := by
    rw [Bool.eq_iff_iff, Contract.storesTable, any_eq_true]
    constructor
    · rintro ⟨other, isMember, isTable⟩
      simp only [Bool.and_eq_true, Bool.not_eq_true', beq_iff_eq] at isTable
      obtain ⟨⟨changes, sameName⟩, isMapping⟩ := isTable
      have typed := (areFields other ((areStored other).mp ⟨isMember, changes⟩)).typed
      rw [sameName, ← isName, (areFields stored isStored).typed] at typed
      rwa [Option.some.inj (Option.some.inj typed)]
    · intro isMapping
      obtain ⟨isMember, changes⟩ := (areStored stored).mpr isStored
      exact ⟨stored, isMember, by simp [changes, isName, isMapping]⟩
  rw [Guard.sets, methods, has_methodTable, isTable, ← isName, (areFields stored isStored).typed]
  rfl

theorem ClassSteps.exists_namedAfter {after : Context} (steps : ClassSteps node after)
    (bodyFits : steps.body.Fits .body) :
    ∃ own, steps.contract.NamedAfter steps.body.children own steps.setters := by
  have areMembers := steps.read.declared
  obtain ⟨names, changes, guard, methods, areFields, holds, places⟩ :=
    steps.declaresFields bodyFits
  obtain ⟨holds, areSetters⟩ := upholds_fieldSetters _ _ _ _ steps.sets holds
  obtain ⟨own, isOwn, ownNamed, admitsOwn⟩ := places.functions
  rw [areMembers.functions, nil_append] at isOwn
  have stored_eq : steps.contract.stateVariables =
      steps.members.contract.stateVariables ++ steps.stored :=
    congrArg (· ++ steps.stored) places.stateVariables
  have isStored (stored : StateVariable) : stored ∈ steps.contract.stateVariables ∧
      stored.isConstant = false ↔ stored ∈ steps.stored := by
    rw [stored_eq, mem_append]
    have constants := areMembers.constants stored
    have changes := changes stored
    grind
  have notField {name : String} (admits : guard.Admits name) :
      name ∉ (fieldOrder steps.body.children).map Name.safe := by
    rw [← names]
    rintro isField
    obtain ⟨stored, isMember, rfl⟩ := mem_map.mp isField
    exact admits.1 (areFields stored isMember).known
  have admitsAll : ∀ function ∈ steps.contract.construction.toList ++ own,
      ∀ name ∈ function.ownNames, guard.Admits name := by
    refine forall_mem_append.mpr ⟨fun function isFunction => ?_, admitsOwn⟩
    have isConstructor := Option.mem_toList.mp isFunction
    refine (places.construction function isConstructor).resolve_left fun isOld => ?_
    rw [areMembers.construction] at isOld
    contradiction
  refine ⟨own, congrArg (· ++ steps.setters) isOwn, ownNamed, ?_, ?_, ?_,
    holds.events.nodup_orderedEvents steps.areEvents, ⟨nodup_dedup _, nodup_eraseDups⟩,
    fun function isFunction name isName => ?_⟩
  · have sets_eq : (writableFields steps.body.children).filter guard.sets =
        setterFields steps.body.children steps.contract := by
      refine filter_congr fun field isWritable => Guard.sets_eq methods areFields isStored ?_
      rw [names]
      refine mem_map_of_mem (mem_eraseDups.mpr ?_)
      exact mem_append_left _ (mem_append_right _ isWritable)
    rw [← sets_eq, writableFields_eq, ← areMembers.writers, map_map]
    exact areSetters
  · rw [Contract.storedNames, stored_eq, map_append, areMembers.constantNames, names]
  · exact (congrArg _ places.enumerations).trans areMembers.enumerations
  · have admits := admitsAll function isFunction name isName
    refine ⟨notField admits, fun isMethod => admits.2 ?_⟩
    rw [methods, values_methodTable]
    exact isMethod

/-- The members of a contract are named as the class body shows. The names are hygienic exactly if
what lowering does not see to is seen to. -/
theorem contract_isHygienic_iff {source : String} {program : Node}
    (read : parse source = .ok program) {node : Node} (inProgram : node ∈ program.walk)
    (isClass : node.kind = .classDef ∨ node.kind = .moduleDef) {before after : Context}
    {contract : Contract} (lowered : Gives (lowerClass node) before contract after) :
    ∃ body own setters, node.classBody = .ok body ∧
      contract.NamedAfter body.children own setters ∧
      (contract.IsHygienic ↔ contract.LeavesApart body.children own) := by
  obtain ⟨role, fits⟩ := exists_fits_of_parse read inProgram
  obtain ⟨steps, rfl⟩ := exists_classSteps fits isClass lowered
  obtain ⟨body, isBody, bodyFits⟩ := answers_classBody fits isClass
  cases isBody.symm.trans steps.isBody
  obtain ⟨own, names⟩ := steps.exists_namedAfter bodyFits
  exact ⟨steps.body, own, steps.setters, steps.isBody, names, names.isHygienic_iff⟩

theorem teller_isHygienic_iff :
    ∃ program node contract after, parse tellerSource = .ok program ∧ node ∈ program.walk ∧
      (node.kind = .classDef ∨ node.kind = .moduleDef) ∧
      Gives (lowerClass node) {} contract after ∧
      ∃ body own setters, node.classBody = .ok body ∧
        contract.NamedAfter body.children own setters ∧
        (contract.IsHygienic ↔ contract.LeavesApart body.children own) := by
  obtain ⟨program, node, contract, after, read, inProgram, isClass, lowered, -⟩ :=
    exists_of_lowersTo teller_lowersTo
  exact ⟨program, node, contract, after, read, inProgram, isClass, lowered,
    contract_isHygienic_iff read inProgram isClass lowered⟩

/-- The setter of the field gets the name of the function, and nothing is reported. -/
theorem teller_not_isHygienic :
    ∃ program node contract after, parse tellerSource = .ok program ∧ node ∈ program.walk ∧
      (node.kind = .classDef ∨ node.kind = .moduleDef) ∧
      Gives (lowerClass node) {} contract after ∧ after.log.entries = [] ∧
      ¬ contract.IsHygienic := by
  obtain ⟨program, node, contract, after, read, inProgram, isClass, lowered, silent, sameNames⟩ :=
    exists_of_lowersTo teller_lowersTo
  refine ⟨program, node, contract, after, read, inProgram, isClass, lowered, silent, ?_⟩
  intro hygienic
  have distinct : contract.functionNames.Nodup := by
    refine List.Nodup.sublist ?_ hygienic.members
    unfold Contract.memberNames
    rw [append_assoc, append_assoc]
    exact (sublist_append_left _ _).trans (sublist_append_right _ _)
  rw [sameNames] at distinct
  exact absurd distinct (by decide)

end ContractForge
