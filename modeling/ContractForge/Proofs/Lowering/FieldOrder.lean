import ContractForge.Proofs.Lowering.Hygiene

/-!
# The order of fields

A field is noted at the first node that says something about it, which may be an assignment
or a call around the place where the field itself stands. The order is still that of the
places: whatever node notes a field, the field is the first one that is mentioned in it. So
the state variables of a class can be read off its body (`stateVariables_in_order`).
-/

namespace ContractForge

open Lower Node List

variable {change : FieldUsage → FieldUsage} {node first target method : Node} {name : String}
  {body : List Node} {fields : FieldTable} {names : List String}

/-! ### Fields in the source -/

/-- The fields that trees mention, in the order of the walk. -/
def fieldsAmong (nodes : List Node) : List String :=
  (walkFrom nodes).filterMap fun node => if node.kind == .ivar then node.payload.text? else none

def setField? (statement : Node) : Option String :=
  match statement.kind, statement.children with
  | .assignment, target :: _ =>
    if statement.payload.isText "=" && target.kind == .ivar then target.payload.text? else none
  | _, _ => none

def bodyOf (method : Node) : List Node :=
  method.children[2]?.toList

def fieldsSet (method : Node) : List String :=
  if definedName? method = some "initialize" then
    ((bodyOf method).flatMap Node.children).filterMap setField?
  else []

def readableFields (body : List Node) : List String :=
  (accessorLabels ["attr_reader", "attr_accessor"] body).map Payload.spliced

/-- The fields of a class: those that the constructor sets, those that are mentioned in methods,
writable ones, and readable ones in alphabetical order. -/
def fieldOrder (body : List Node) : List String :=
  let methods := keptMethods body
  (methods.flatMap fieldsSet ++ methods.flatMap (fun method => fieldsAmong (bodyOf method)) ++
    writableFields body ++
    (readableFields body).eraseDups.mergeSort fun left right => left ≤ right).eraseDups

theorem fieldsAmong_cons (node : Node) :
    fieldsAmong (node :: pending) =
      (if node.kind == .ivar then node.payload.text? else none).toList ++
        fieldsAmong (node.children ++ pending) := by
  unfold fieldsAmong
  rw [walkFrom_cons, filterMap_cons]
  split <;> rename_i found <;> rw [found] <;> rfl

theorem fieldsAmong_field (isField : node.kind = .ivar) (isText : node.payload = .text name) :
    fieldsAmong (node :: pending) = name :: fieldsAmong (node.children ++ pending) := by
  rw [fieldsAmong_cons, isField, isText]
  rfl

theorem fieldsAmong_other (noField : node.kind ≠ .ivar) :
    fieldsAmong (node :: pending) = fieldsAmong (node.children ++ pending) := by
  rw [fieldsAmong_cons, if_neg (by simpa using noField)]
  rfl

/-- The node mentions the field first. -/
def Mentions (node : Node) (name : String) : Prop :=
  ∀ pending, ∃ more, fieldsAmong (node :: pending) = name :: more

theorem Mentions.ofFirst (mentions : Mentions first name)
    (noField : node.kind ≠ .ivar) (isChildren : node.children = first :: others) :
    Mentions node name := by
  intro pending
  rw [fieldsAmong_other noField, isChildren, cons_append]
  exact mentions (others ++ pending)

theorem mentions_of_fronts (fronts : target.Fronts node)
    (isField : target.kind = .ivar) (isText : target.payload = .text name) :
    Mentions node name := by
  induction fronts with
  | self => exact fun pending => ⟨_, fieldsAmong_field isField isText⟩
  | first noField isChildren _ ih => exact ih.ofFirst noField isChildren

/-! ### Noting fields -/

theorem eraseDups_concat (names : List String) (name : String) :
    (names ++ [name]).eraseDups =
      if name ∈ names then names.eraseDups else names.eraseDups ++ [name] := by
  rw [eraseDups_append]
  split <;> rename_i isKnown <;> simp [List.removeAll, isKnown, eraseDups_cons]

theorem eraseDups_again (names : List String) (name : String) :
    (names ++ [name] ++ name :: rest).eraseDups = (names ++ name :: rest).eraseDups := by
  rw [append_assoc, singleton_append, eraseDups_append, eraseDups_append]
  by_cases isKnown : name ∈ names <;> simp [List.removeAll, isKnown, eraseDups_cons]

theorem beq_text_iff {first second : String} :
    (Payload.text first == Payload.text second) ↔ first = second := by
  constructor
  · intro same
    cases Payload.IsText.eq_of_isSame ⟨_, rfl⟩ ⟨_, rfl⟩ same
    rfl
  · rintro rfl
    exact beq_self_eq_true (Key.text first)

namespace FieldTable

/-- The fields of the table, in their order: those with the given names, each where it comes
first. -/
def Found (fields : FieldTable) (names : List String) : Prop :=
  fields.map FieldUsage.label = names.eraseDups.map Payload.text

variable {fields after : FieldTable} {names : List String}

theorem Found.congr {others : List String} (found : fields.Found names)
    (same : names.eraseDups = others.eraseDups) : fields.Found others := by
  rw [Found, ← same]
  exact found

theorem labels_note (label : Payload) (line : Option Int)
    (keeps : ∀ usage, (change usage).label = usage.label) :
    (fields.note label line change).map FieldUsage.label =
      if (fields.map FieldUsage.label).any (· == label) then fields.map FieldUsage.label
      else fields.map FieldUsage.label ++ [label] := by
  induction fields with
  | nil => simp [note, keeps]
  | cons usage _ ih =>
    by_cases same : (usage.label == label)
    · simp [note, same, keeps]
    · rw [note, if_neg same, map_cons, ih]
      simp only [map_cons, any_cons, same, Bool.false_or]
      split <;> rfl

theorem Found.has_iff (found : fields.Found names) (name : String) :
    (fields.map FieldUsage.label).any (· == Payload.text name) ↔ name ∈ names := by
  rw [found]
  simp [beq_text_iff]

theorem Found.note (found : fields.Found names) (name : String) (line : Option Int)
    {change : FieldUsage → FieldUsage} (keeps : ∀ usage, (change usage).label = usage.label) :
    (fields.note (.text name) line change).Found (names ++ [name]) := by
  rw [Found, labels_note _ _ keeps, eraseDups_concat]
  by_cases isKnown : name ∈ names
  · rw [if_pos ((found.has_iff name).mpr isKnown), if_pos isKnown, found]
  · rw [if_neg (mt (found.has_iff name).mp isKnown), if_neg isKnown, found, map_append]
    rfl

theorem Found.again (found : fields.Found names) {name : String} (isKnown : name ∈ names) :
    fields.Found (names ++ [name]) :=
  found.congr (by rw [eraseDups_concat, if_pos isKnown])

/-- What is noted at a node comes to the same as noting the fields that the node mentions. -/
def FoundAt (fields : FieldTable) (names : List String) (node : Node) : Prop :=
  ∃ own, fields.Found (names ++ own) ∧ ∀ pending,
    (names ++ own ++ fieldsAmong (node.children ++ pending)).eraseDups =
      (names ++ fieldsAmong (node :: pending)).eraseDups

section

variable (found : fields.Found names) {pending statements : List Node}
include found

theorem Found.skip (noField : node.kind ≠ .ivar) : fields.FoundAt names node := by
  refine ⟨[], by rwa [append_nil], fun pending => ?_⟩
  rw [append_nil, fieldsAmong_other noField]

/-- Whatever node notes a field, it mentions the field before all others. -/
theorem Found.notesAt (notes : fields.NotesAt node after) : after.FoundAt names node := by
  obtain ⟨noField, rfl⟩ | ⟨_, _, _, fits, fronts, leads, rfl⟩ := notes
  · exact found.skip noField
  unfold FieldTable.noteIfField
  split
  · rename_i isField
    have parts := fits.parts
    rw [Node.Parts, beq_iff_eq.mp isField] at parts
    obtain ⟨name, isText⟩ := parts
    rw [isText]
    refine ⟨[name], found.note name node.line fun usage => (leads usage).1, fun pending => ?_⟩
    cases fronts with
    | self =>
      rw [fieldsAmong_field (beq_iff_eq.mp isField) isText, append_assoc, singleton_append]
    | first noField isChildren fronts =>
      have mentions := (mentions_of_fronts fronts (beq_iff_eq.mp isField) isText).ofFirst noField
        isChildren
      obtain ⟨_, isMore⟩ := mentions pending
      rw [isMore, ← fieldsAmong_other noField, isMore, eraseDups_again]
  · rename_i noField
    cases fronts with
    | self => exact found.skip (by simpa using noField)
    | first noField => exact found.skip noField

/-- Noting all nodes of trees finds the fields in the order in which they are mentioned. -/
theorem Found.noteNodes (isMethod : method.IsMethod)
    (fit : ∀ node ∈ walkFrom pending, ∃ role, node.Fits role)
    (noted : (walkFrom pending).foldlM (fun fields node => fields.noteNode method node) fields =
      .ok after)
    : after.Found (names ++ fieldsAmong pending) := by
  fun_induction walkFrom pending generalizing fields names with
  | case1 =>
    cases noted
    simpa [fieldsAmong, walkFrom] using found
  | case2 _ pending ih =>
    obtain ⟨_, ofNode, noted⟩ := ok_of_bind noted
    obtain ⟨⟨_, fits⟩, others⟩ := forall_mem_cons.mp fit
    obtain ⟨_, foundOwn, same⟩ := found.notesAt ((answers_noteNode isMethod fits).holds ofNode)
    exact (ih foundOwn others noted).congr (same pending)

theorem Found.noteInitializers (place : Nat)
    (fit : ∀ statement ∈ statements, statement.Fits .statement)
    (noted : fields.noteInitializers place statements = .ok after) :
    after.Found (names ++ statements.filterMap setField?) := by
  induction statements generalizing fields names place with
  | nil =>
    cases noted
    simpa using found
  | cons statement rest ih =>
    obtain ⟨statementFits, restFit⟩ := forall_mem_cons.mp fit
    obtain ⟨kind, payload, line, column, children⟩ := statement
    unfold FieldTable.noteInitializers at noted
    by_cases isPlain : (kind == .assignment && payload.isText "=")
    · simp only [isPlain] at noted
      obtain ⟨isAssignment, isSet⟩ := Bool.and_eq_true_iff.mp isPlain
      cases eq_of_beq isAssignment
      obtain ⟨_, -, target, value, _, rfl, -, targetFits, -⟩ := statementFits.parts
      obtain ⟨_, isFirst, noted⟩ := ok_of_bind noted
      cases isFirst
      by_cases isField : target.kind = .ivar
      · have parts := targetFits.parts
        rw [Node.Parts, isField] at parts
        obtain ⟨name, isText⟩ := parts
        have isName : setField? ⟨.assignment, payload, line, column, [target, value]⟩ =
            some name := by
          simp [setField?, isSet, isField, isText, Payload.text?]
        have later {middle : FieldTable} (foundName : middle.Found (names ++ [name]))
            (noted : middle.noteInitializers (place + 1) rest = .ok after) :
            after.Found (names ++ (⟨.assignment, payload, line, column, [target, value]⟩ ::
              rest).filterMap setField?) := by
          rw [filterMap_cons_some isName, ← singleton_append, ← append_assoc]
          exact ih foundName _ restFit noted
        split at noted
        · refine later ?_ noted
          rw [FieldTable.noteIfField, if_pos (by simpa using isField), isText]
          exact found.note name _ fun _ => rfl
        · rename_i isKnown
          refine later (found.again ((found.has_iff name).mp ?_)) noted
          cases isUsage : fields.usage? target.payload with
          | none => simp [isField, isUsage] at isKnown
          | some usage =>
            have same := find?_some isUsage
            rw [isText] at same
            rw [any_map]
            exact any_eq_true.mpr ⟨usage, mem_of_find?_eq_some isUsage, same⟩
      · rw [if_neg (by simp [isField])] at noted
        rw [filterMap_cons_none (by simp [setField?, isField])]
        exact ih found _ restFit noted
    · have noField : setField? ⟨kind, payload, line, column, children⟩ = none := by
        unfold setField?
        split
        · rename_i isAssignment _
          cases isAssignment
          simp only [beq_self_eq_true, Bool.true_and] at isPlain
          simp [isPlain]
        · rfl
      rw [filterMap_cons_none noField]
      simp only [isPlain] at noted
      exact ih found _ restFit noted

theorem Found.addAll {α : Type} (usageOf : α → FieldUsage) (nameOf : α → String) {values : List α}
    (isLabel : ∀ value ∈ values, (usageOf value).label = .text (nameOf value)) :
    FieldTable.Found (values.foldl (fun (fields : FieldTable) value =>
      if (fields.usage? (usageOf value).label).isSome then fields
      else fields ++ [usageOf value]) fields) (names ++ values.map nameOf) := by
  induction values generalizing fields names with
  | nil => simpa using found
  | cons value _ ih =>
    obtain ⟨isFirst, restLabels⟩ := forall_mem_cons.mp isLabel
    have added : FieldTable.Found (if (fields.usage? (usageOf value).label).isSome then fields
        else fields ++ [usageOf value]) (names ++ [nameOf value]) := by
      have isThere : (fields.usage? (usageOf value).label).isSome ↔
          nameOf value ∈ names := by
        rw [← found.has_iff, isFirst, FieldTable.usage?, find?_isSome, any_map, any_eq_true]
        rfl
      rw [Found, eraseDups_concat]
      by_cases isKnown : nameOf value ∈ names
      · rw [if_pos (isThere.mpr isKnown), if_pos isKnown, found]
      · rw [if_neg (mt isThere.mp isKnown), if_neg isKnown, map_append, found, map_append]
        simp [isFirst]
    have later := ih added restLabels
    rwa [append_assoc, singleton_append, ← map_cons] at later

end

end FieldTable

open FieldTable

/-! ### Fields of a class -/

/-- What every step of a fold adds, for all values together. -/
theorem foldlM_collect {α β γ : Type} {step : β → α → Except Malformed β} {own : α → List γ}
    {motive : List γ → β → Prop} {values : List α}
    (ofStep : ∀ done value state next, value ∈ values → motive done state →
      step state value = .ok next → motive (done ++ own value) next)
    {done : List γ} {start result : β} (holds : motive done start)
    (isResult : values.foldlM step start = .ok result) :
    motive (done ++ values.flatMap own) result := by
  induction values generalizing done start with
  | nil =>
    cases isResult
    simpa using holds
  | cons value _ ih =>
    obtain ⟨next, ofValue, isResult⟩ := ok_of_bind isResult
    have stepped := ofStep done value start next mem_cons_self holds ofValue
    rw [flatMap_cons, ← append_assoc]
    exact ih (fun done value state next mem =>
      ofStep done value state next (mem_cons_of_mem _ mem)) stepped isResult

theorem found_of_analyzeFields
    (areMethods : ∀ method ∈ methods, method.IsMethod) (isUsed : analyzeFields methods = .ok used) :
    used.Found (methods.flatMap fieldsSet ++ methods.flatMap fun method =>
      fieldsAmong (bodyOf method)) := by
  obtain ⟨initialized, isInitialized, isUsed⟩ := ok_of_bind isUsed
  have foundSet : initialized.Found ([] ++ methods.flatMap fieldsSet) := by
    refine foldlM_collect (motive := fun names fields => Found fields names) ?_ ?_ isInitialized
    · intro _ method _ _ isMember found noted
      obtain ⟨isMethod, -⟩ := areMethods method isMember
      obtain ⟨_, _, body, _, isChildren, -, -, bodyFits⟩ :=
        (areMethods method isMember).parts
      obtain ⟨first, isFirst, noted⟩ := ok_of_bind noted
      have isDefined : definedName? method = first.text? := by
        simp only [methodName, childAt, isChildren] at isFirst
        cases isFirst
        simp [definedName?, isMethod, isChildren]
      split at noted
      · rename_i isInitialize
        obtain ⟨_, isFound', noted⟩ := ok_of_bind noted
        simp only [methodBody, childAt, isChildren] at isFound'
        cases isFound'
        have isSet : fieldsSet method = body.children.filterMap setField? := by
          rw [fieldsSet, isDefined, if_pos (by simpa [Payload.isText] using isInitialize), bodyOf,
            isChildren]
          simp
        rw [isSet]
        cases bodyFits with
        | body statementsFit => exact found.noteInitializers 0 statementsFit noted
      · rename_i isOther
        cases noted
        rw [fieldsSet, isDefined, if_neg (by simpa [Payload.isText] using isOther), append_nil]
        exact found
    · rfl
  refine foldlM_collect (motive := fun names fields => Found fields names) ?_ foundSet isUsed
  intro _ method _ _ isMember found noted
  obtain ⟨_, _, body, _, isChildren, -, -, bodyFits⟩ :=
    (areMethods method isMember).parts
  obtain ⟨_, isInner, noted⟩ := ok_of_bind noted
  simp only [methodBody, childAt, isChildren] at isInner
  cases isInner
  have isBody : bodyOf method = [body] := by simp [bodyOf, isChildren]
  rw [isBody]
  exact found.noteNodes (areMethods method isMember)
    (exists_fits_of_mem_walkFrom (by simpa using ⟨_, bodyFits⟩)) noted

theorem eraseDups_map_text (texts : List String) :
    (texts.map Payload.text).eraseDups = texts.eraseDups.map Payload.text := by
  match texts with
  | [] => rfl
  | first :: rest =>
    have others : (rest.map Payload.text).filter (fun other => !other == Payload.text first) =
        (rest.filter fun other => !other == first).map Payload.text := by
      rw [filter_map]
      refine congrArg (List.map _) (filter_congr fun other _ => ?_)
      have same : (Payload.text other == Payload.text first) = (other == first) :=
        Bool.eq_iff_iff.mpr (beq_text_iff.trans beq_iff_eq.symm)
      rw [Function.comp_apply, same]
    rw [map_cons, eraseDups_cons, eraseDups_cons, map_cons, others, eraseDups_map_text]
termination_by texts.length
decreasing_by exact Nat.lt_succ_of_le (length_filter_le _ _)

theorem sortedNames_texts (texts : List String) :
    sortedNames (texts.map Payload.text) =
      .ok ((texts.eraseDups.mergeSort fun left right => left ≤ right).map Payload.text) := by
  have spelled (names : List String) :
      (names.map Payload.text).mapM Payload.spelled = .ok names := by
    induction names with
    | nil => rfl
    | cons _ _ ih =>
      rw [map_cons, mapM_cons, ih]
      rfl
  unfold sortedNames
  dsimp only
  rw [eraseDups_map_text]
  split
  · rename_i isShort
    match isTexts : texts.eraseDups with
    | [] | [name] => simp [pure, Except.pure]
    | _ :: _ :: _ => simp [isTexts] at isShort
  · rw [spelled]
    rfl

/-- The fields of accessors come behind all others, the readable ones in alphabetical order. -/
theorem found_of_withAccessorFields (found : used.Found names) {members : ClassMembers}
    (declared : Declared body members)
    (areTexts : ∀ words, ∀ label ∈ accessorLabels words body, label.IsText) {line : Option Int}
    (areFields : withAccessorFields used members line = .ok fields) :
    fields.Found (names ++ writableFields body ++
      (readableFields body).eraseDups.mergeSort fun left right => left ≤ right) := by
  have isLabel : ∀ writer ∈ members.writers, writer.1 = .text writer.1.spliced := by
    intro _ isWriter
    have isMember := mem_map_of_mem (f := Prod.fst) isWriter
    rw [declared.writers] at isMember
    obtain ⟨_, isText⟩ := areTexts _ _ isMember
    rw [isText]
    rfl
  have isWritable : members.writers.map (fun writer => writer.1.spliced) = writableFields body := by
    rw [writableFields_eq, ← declared.writers, map_map]
    rfl
  have isReadable : members.readers.getD [] = (readableFields body).map Payload.text := by
    rw [declared.readers, readableFields, map_map]
    refine (map_id _).symm.trans (map_congr_left fun label isLabel => ?_)
    obtain ⟨_, rfl⟩ := areTexts _ _ isLabel
    rfl
  have written := found.addAll
    (fun writer : Payload × Option Int => { label := writer.1, line := writer.2, assigned := true })
    (fun writer => writer.1.spliced) isLabel
  rw [isWritable] at written
  unfold withAccessorFields at areFields
  rw [isReadable, sortedNames_texts] at areFields
  cases areFields
  rw [foldl_map]
  generalize (readableFields body).eraseDups.mergeSort (fun left right => left ≤ right) = sorted
  have read := written.addAll (fun name : String => { label := .text name, line }) id
    (fun name (_ : name ∈ sorted) => rfl)
  rwa [map_id] at read

/-! ### State variables -/

theorem names_of_declaredAs {fields : List FieldUsage}
    (declared : Forall₂ (FieldUsage.DeclaredAs · invariant) fields stored)
    (areLabels : fields.map FieldUsage.label = names.map Payload.text) :
    stored.map StateVariable.name = names.map Name.safe ∧
      ∀ field ∈ stored, field.isConstant = false := by
  induction declared generalizing names with
  | nil =>
    cases names with
    | nil => exact ⟨rfl, by simp⟩
    | cons => contradiction
  | cons first _ ih =>
    cases names with
    | nil => contradiction
    | cons =>
      obtain ⟨isLabel, restLabels⟩ := List.cons.inj areLabels
      obtain ⟨_, isText, isName⟩ := first.named
      cases isLabel.symm.trans isText
      obtain ⟨sameNames, change⟩ := ih restLabels
      rw [map_cons, map_cons, isName, sameNames]
      exact ⟨rfl, forall_mem_cons.mpr ⟨first.changes, change⟩⟩

theorem isText_of_mem_accessorLabels {body : Node} (fits : body.Fits .body) (words : List String) :
    ∀ label ∈ accessorLabels words body.children, label.IsText := by
  intro _ isLabel
  obtain ⟨node, isNode, isLabel⟩ := mem_flatMap.mp isLabel
  split at isLabel
  · rename_i isAccessor
    obtain ⟨child, isChild, rfl⟩ := mem_map.mp isLabel
    cases fits with
    | body statementsFit =>
      have parts := (statementsFit node isNode).parts
      rw [Node.Parts, beq_iff_eq.mp (Bool.and_eq_true_iff.mp isAccessor).1] at parts
      exact (parts child isChild).wordText
  · contradiction

/-- The fields of a class are declared under their names behind the constants, and each has the type
that is known where setters are made. -/
theorem ClassSteps.declaresFields {after : Context} (steps : ClassSteps node after)
    (bodyFits : steps.body.Fits .body) :
    steps.stored.map StateVariable.name = (fieldOrder steps.body.children).map Name.safe ∧
      (∀ stored ∈ steps.stored, stored.isConstant = false) ∧
      ∃ guard : Guard, guard.methods = methodTable (definedMethods steps.body.children) ∧
        (∀ stored ∈ steps.stored, guard.IsField stored) ∧ guard.Holds steps.placing ∧
        guard.Places (definedMethods steps.body.children) steps.members.contract steps.placed := by
  have areMethods := forall_mem_map.mpr steps.read.areMethods
  have found := found_of_withAccessorFields (found_of_analyzeFields areMethods steps.isUsed)
    steps.read.declared (isText_of_mem_accessorLabels bodyFits) steps.areFields
  rw [steps.read.kept] at found
  obtain ⟨holds, declared, simple⟩ := upholds_declareFields (ignoresNotes_holds _) _ _ _
    steps.declares steps.prepared.holds
  obtain ⟨names, areFields⟩ := names_of_declaredAs declared found
  obtain ⟨holds, places⟩ := places_of_lowerMethods steps.read.areMethods steps.isOrder simple
    (fun entry isEntry => get?_methodTable (mem_map_of_mem isEntry)) holds steps.lowers steps.places
  have declaredFields := Guard.areFields_of_declaredAs declared
  rw [steps.read.names] at holds places declaredFields
  exact ⟨names, areFields, _, rfl, declaredFields, holds, places⟩

/-- The state variables of a class that are no constants are its fields, each once: those that the
constructor sets, the others in the order in which the methods mention them, and the ones that
only accessors name. -/
theorem stateVariables_in_order {source : String} {program : Node}
    (read : parse source = .ok program) {node : Node} (inProgram : node ∈ program.walk)
    (isClass : node.kind = .classDef ∨ node.kind = .moduleDef) {before after : Context}
    {contract : Contract} (lowered : Gives (lowerClass node) before contract after) :
    ∃ body, node.classBody = .ok body ∧
      (contract.stateVariables.filter fun stored => !stored.isConstant).map StateVariable.name =
        (fieldOrder body.children).map Name.safe ∧
      (fieldOrder body.children).Nodup ∧
      ∀ method ∈ keptMethods body.children, ∀ name ∈ fieldsAmong (bodyOf method),
        ∃ stored ∈ contract.stateVariables,
          stored.isConstant = false ∧ stored.name = Name.safe name := by
  obtain ⟨role, fits⟩ := exists_fits_of_parse read inProgram
  obtain ⟨steps, rfl⟩ := exists_classSteps fits isClass lowered
  obtain ⟨body, isBody, bodyFits⟩ := answers_classBody fits isClass
  cases isBody.symm.trans steps.isBody
  obtain ⟨names, areFields, _, -, -, -, places⟩ := steps.declaresFields bodyFits
  have areStored : (steps.contract.stateVariables.filter fun stored => !stored.isConstant) =
      steps.stored := by
    change (steps.placed.stateVariables ++ steps.stored).filter _ = _
    have noConstants :
        steps.placed.stateVariables.filter (fun stored => !stored.isConstant) = [] := by
      rw [places.stateVariables, filter_eq_nil_iff]
      intro stored isStored
      simp [steps.read.declared.constants stored isStored]
    have allFields : steps.stored.filter (fun stored => !stored.isConstant) = steps.stored := by
      rw [filter_eq_self]
      intro stored isStored
      simp [areFields stored isStored]
    rw [filter_append, noConstants, allFields, nil_append]
  refine ⟨steps.body, isBody, ?_, nodup_eraseDups, fun method isMethod name isName => ?_⟩
  · rw [areStored]
    exact names
  · have inOrder : name ∈ fieldOrder steps.body.children := by
      refine mem_eraseDups.mpr (mem_append_left _ (mem_append_left _ ?_))
      exact mem_append_right _ (mem_flatMap.mpr ⟨method, isMethod, isName⟩)
    have isSafe : Name.safe name ∈ steps.stored.map StateVariable.name := by
      rw [names]
      exact mem_map_of_mem inOrder
    obtain ⟨stored, isStored, sameName⟩ := mem_map.mp isSafe
    exact ⟨stored, mem_append_right _ isStored, areFields stored isStored, sameName⟩

/-- A class with fields of a method, of the constructor and of an accessor. -/
def accountSource : String :=
  "class Account\n" ++
  "  attr_accessor :label\n" ++
  "  def deposit(amount)\n" ++
  "    @total += amount\n" ++
  "  end\n" ++
  "  def initialize\n" ++
  "    @owner = 1\n" ++
  "  end\n" ++
  "end\n"

theorem account_stateVariables_in_order :
    ∃ program node contract after body, parse accountSource = .ok program ∧ node ∈ program.walk ∧
      Gives (lowerClass node) {} contract after ∧ node.classBody = .ok body ∧
      (contract.stateVariables.filter fun stored => !stored.isConstant).map StateVariable.name =
        (fieldOrder body.children).map Name.safe := by
  obtain ⟨program, node, contract, after, read, inProgram, isClass, lowered, -⟩ :=
    @exists_of_lowersTo accountSource ["deposit", "setLabel"] (by decide +kernel)
  obtain ⟨body, isBody, names, -⟩ := stateVariables_in_order read inProgram isClass lowered
  exact ⟨program, node, contract, after, body, read, inProgram, lowered, isBody, names⟩

end ContractForge
