import ContractForge.Proofs.Lowering.SafeMethod

/-!
# Fields are typed safely

What is noted about a field are nodes that have a role, so its type can be told. Every
field that is found gets a type: the ones that are set to parameters of the constructor
after the others.
-/

namespace ContractForge

open Lower List

variable {method node target : Node} {label : Payload} {usage : FieldUsage}
  {keys statements : List Node} {fields : FieldTable}

/-! ### Uses of fields -/

/-- The name of the field is a text, and everything that is noted has its role. -/
structure FieldUsage.Sound (usage : FieldUsage) : Prop where
  label : usage.label.IsText
  initializer : ∀ value ∈ usage.initializer, value.Fits .operand
  firstValue : ∀ value ∈ usage.firstValue, value.Fits .operand
  firstMethod : ∀ method ∈ usage.firstMethod, method.IsMethod
  keys : ∀ key ∈ usage.keys, key.Fits .operand
  indexedValue : ∀ value ∈ usage.indexedValue, value.Fits .operand
  elements : ∀ element ∈ usage.elements, element.Fits .operand

namespace FieldUsage

variable {usage : FieldUsage} {keys arguments : List Node}

/-- A field about which nothing is noted yet. -/
theorem sound_of_label (isText : label.IsText) (line : Option Int) (assigned : Bool) :
    FieldUsage.Sound { label, line, assigned } :=
  ⟨isText, by simp, by simp, by simp, by simp, by simp, by simp⟩

/-- The other use is of the same field, and sound if this one is. -/
def LeadsTo (usage other : FieldUsage) : Prop :=
  other.label = usage.label ∧ (usage.Sound → other.Sound)

theorem leadsTo_withKeys (fit : ∀ key ∈ keys, key.Fits .operand) :
    usage.LeadsTo (usage.withKeys keys) :=
  ⟨rfl, fun sound => { sound with
    keys := forall_mem_append.mpr ⟨sound.keys, fun key mem => fit key (mem_of_mem_drop mem)⟩ }⟩

theorem leadsTo_withAssignment (valueFits : value.Fits .operand)
    (isMethod : method.IsMethod) : usage.LeadsTo (usage.withAssignment plain value method) := by
  unfold FieldUsage.withAssignment
  split
  · exact ⟨rfl, fun sound => { sound with
      firstValue := by simpa using valueFits
      firstMethod := by simpa using isMethod }⟩
  · exact ⟨rfl, fun sound => { sound with }⟩

theorem leadsTo_withEntryAssignment (valueFits : value.Fits .operand) :
    usage.LeadsTo (usage.withEntryAssignment plain depth value) := by
  unfold FieldUsage.withEntryAssignment
  split
  · exact ⟨rfl, fun sound => { sound with }⟩
  · split
    · exact ⟨rfl, fun sound => { sound with indexedValue := by simpa using valueFits }⟩
    · exact ⟨rfl, fun sound => { sound with }⟩

theorem leadsTo_withCall (method : Payload) (fit : ∀ argument ∈ arguments, argument.Fits .operand) :
    usage.LeadsTo (usage.withCall method arguments) := by
  unfold FieldUsage.withCall
  split
  · exact ⟨rfl, fun sound => { sound with
      elements := forall_mem_append.mpr ⟨sound.elements, fit⟩ }⟩
  · split
    · exact ⟨rfl, fun sound => { sound with }⟩
    · split
      · exact ⟨rfl, fun sound => { sound with }⟩
      · exact ⟨rfl, id⟩

end FieldUsage

/-- The node stands at the front of another one, or is that node. -/
inductive Node.Fronts (target : Node) : Node → Prop where
  | self : Fronts target target
  | first {node child : Node} {others : List Node} (noField : node.kind ≠ .ivar)
      (isChildren : node.children = child :: others) (fronts : Fronts target child) :
      Fronts target node

/-- What is indexed stands in front of its keys. -/
theorem fronts_of_indexChain (chain : indexChain node = .ok (root, keys)) : root.Fronts node := by
  fun_induction indexChain node generalizing keys with
  | case1 _ _ _ _ _ _ ih =>
    obtain ⟨⟨_, _⟩, ofBase, isResult⟩ := ok_of_bind chain
    cases isResult
    exact .first (by simp) rfl (ih ofBase)
  | case2 => contradiction
  | case3 =>
    cases chain
    exact .self

def FieldTable.Sound (fields : FieldTable) : Prop :=
  ∀ usage ∈ fields, usage.Sound

namespace FieldTable

variable {fields after : FieldTable}

theorem Sound.note (sound : fields.Sound) {label : Payload} (isText : label.IsText)
    (line : Option Int) {change : FieldUsage → FieldUsage}
    (ofChange : ∀ usage, usage.Sound → (change usage).Sound) :
    (fields.note label line change).Sound := by
  induction fields with
  | nil =>
    exact forall_mem_singleton.mpr (ofChange _ (FieldUsage.sound_of_label isText line false))
  | cons usage _ ih =>
    obtain ⟨ofFirst, ofRest⟩ := forall_mem_cons.mp sound
    unfold FieldTable.note
    split
    · exact forall_mem_cons.mpr ⟨ofChange usage ofFirst, ofRest⟩
    · exact forall_mem_cons.mpr ⟨ofFirst, ih ofRest⟩

theorem Sound.noteIfField (sound : fields.Sound) (fits : target.Fits role) (line : Option Int)
    (ofChange : ∀ usage : FieldUsage, usage.LeadsTo (change usage)) :
    (fields.noteIfField target line change).Sound := by
  unfold FieldTable.noteIfField
  split
  · rename_i isField
    have parts := fits.parts
    rw [Node.Parts, beq_iff_eq.mp isField] at parts
    obtain ⟨name, isText⟩ := parts
    exact sound.note ⟨name, isText⟩ line fun usage => (ofChange usage).2
  · exact sound

theorem answers_noteInitializers (sound : fields.Sound) (place : Nat)
    (fit : ∀ statement ∈ statements, statement.Fits .statement) :
    Answers Sound (fields.noteInitializers place statements) := by
  induction statements generalizing fields place with
  | nil => exact answers_pure sound
  | cons statement _ ih =>
    obtain ⟨statementFits, restFit⟩ := forall_mem_cons.mp fit
    unfold noteInitializers
    dsimp only
    split
    · rename_i isPlain
      have isAssignment : statement.kind = .assignment := by
        simp only [Bool.and_eq_true, beq_iff_eq] at isPlain
        exact isPlain.1
      have parts := statementFits.parts
      rw [Node.Parts, isAssignment] at parts
      obtain ⟨-, -, target, value, -, isChildren, -, targetFits, valueFits⟩ := parts
      have ofTarget : Answers (Node.Fits .operand) (statement.childAt 0) :=
        answers_childAt (by rw [isChildren]; rfl) targetFits
      have ofValue : Answers (Node.Fits .operand) (statement.childAt 1) :=
        answers_childAt (by rw [isChildren]; rfl) valueFits
      refine ofTarget.bind fun target targetFits => ?_
      split
      · refine ofValue.bind fun value valueFits => ih ?_ _ restFit
        exact sound.noteIfField targetFits _ fun usage =>
          ⟨rfl, fun ofUsage => { ofUsage with initializer := by simpa using valueFits }⟩
      · exact ih sound _ restFit
    · exact ih sound _ restFit

/-- What is noted at a node: nothing, or what the node says about one at its front. -/
def NotesAt (fields : FieldTable) (node : Node) (after : FieldTable) : Prop :=
  node.kind ≠ .ivar ∧ after = fields ∨ ∃ target role change, Node.Fits role target ∧
    target.Fronts node ∧ (∀ usage : FieldUsage, usage.LeadsTo (change usage)) ∧
    after = fields.noteIfField target node.line change

theorem answers_noteNode (isMethod : method.IsMethod) (fits : node.Fits role) :
    Answers (fields.NotesAt node) (fields.noteNode method node) := by
  have parts := fits.parts
  have ofChain := answers_indexChain fits
  have argumentsFit := fits.callArgs
  obtain ⟨kind, payload, line, column, children⟩ := node
  have noted {target : Node} {inner : Role} (targetFits : target.Fits inner)
      (fronts : target.Fronts ⟨kind, payload, line, column, children⟩)
      {change : FieldUsage → FieldUsage}
      (leads : ∀ usage : FieldUsage, usage.LeadsTo (change usage)) :
      fields.NotesAt ⟨kind, payload, line, column, children⟩
        (fields.noteIfField target line change) :=
    Or.inr ⟨target, inner, change, targetFits, fronts, leads, rfl⟩
  cases kind
  case ivar => exact answers_pure (noted fits .self fun _ => ⟨rfl, id⟩)
  case assignment =>
    obtain ⟨_, -, _, _, rfl, rfl, -, targetFits, valueFits⟩ := parts
    refine answers_ite ?_ (answers_pure ?_)
    · obtain ⟨⟨_, _⟩, chain, ⟨_, rootFits⟩, -⟩ := answers_indexChain targetFits
      rw [chain]
      exact answers_pure (noted rootFits (.first (by simp) rfl (fronts_of_indexChain chain))
        fun _ => FieldUsage.leadsTo_withEntryAssignment valueFits)
    · exact noted targetFits (.first (by simp) rfl .self) fun _ =>
        FieldUsage.leadsTo_withAssignment valueFits isMethod
  case index =>
    obtain ⟨⟨_, _⟩, chain, ⟨_, rootFits⟩, keysFit⟩ := ofChain
    have isNoted := noted rootFits (fronts_of_indexChain chain) fun _ =>
      FieldUsage.leadsTo_withKeys keysFit
    refine ⟨_, ?_, isNoted⟩
    simp only [noteNode, chain]
    rfl
  case binary =>
    obtain ⟨op, -, left, right, rfl, rfl, leftFits, rightFits⟩ := parts
    have unnoted : fields.NotesAt ⟨.binary, .text op, line, column, [left, right]⟩ fields :=
      Or.inl ⟨by simp, rfl⟩
    refine answers_ite (answers_ite (answers_pure ?_) (answers_pure unnoted)) (answers_pure unnoted)
    exact noted leftFits (.first (by simp) rfl .self) fun usage => ⟨rfl, fun sound => { sound with
      elements := forall_mem_append.mpr ⟨sound.elements, by simpa using rightFits⟩ }⟩
  case methodCall =>
    obtain ⟨_, -, _, _, _, rfl, rfl, receiverFits, -⟩ := parts
    exact answers_pure (noted receiverFits (.first (by simp) rfl .self) fun _ =>
      FieldUsage.leadsTo_withCall _ argumentsFit)
  case loop =>
    refine answers_ite ?_ (answers_pure (Or.inl ⟨by simp, rfl⟩))
    obtain ⟨_, rfl, ⟨_, _, _, rfl, subjectFits, -⟩ |
      ⟨_, _, rfl, subjectFits, -⟩⟩ := parts
    all_goals exact answers_pure (noted subjectFits (.first (by simp) rfl .self) fun _ =>
      ⟨rfl, fun sound => { sound with }⟩)
  all_goals exact answers_pure (Or.inl ⟨by simp, rfl⟩)

theorem NotesAt.sound (notes : fields.NotesAt node after) (sound : fields.Sound) : after.Sound := by
  obtain ⟨-, rfl⟩ | ⟨_, _, _, targetFits, -, leads, rfl⟩ := notes
  · exact sound
  · exact sound.noteIfField targetFits _ leads

end FieldTable

theorem answers_analyzeFields (areMethods : ∀ method ∈ methods, method.IsMethod) :
    Answers FieldTable.Sound (analyzeFields methods) := by
  have initialized : Answers FieldTable.Sound
    (methods.foldlM (fun (fields : FieldTable) method => do
      if (← method.methodName).isText "initialize" then
        fields.noteInitializers 0 (← method.methodBody).children
      else return fields) []) := by
    refine composes_answers.foldlM (by simp [FieldTable.Sound])
      fun fields sound method isMember => ?_
    have isMethod := areMethods method isMember
    refine (answers_methodName isMethod).bind fun name _ => answers_ite ?_ (answers_pure sound)
    refine (answers_methodBody isMethod).bind fun body bodyFits => ?_
    cases bodyFits with
    | body statementsFit => exact FieldTable.answers_noteInitializers sound 0 statementsFit
  refine initialized.bind fun fields sound => ?_
  refine composes_answers.foldlM sound fun fields sound method isMember => ?_
  have isMethod := areMethods method isMember
  refine (answers_methodBody isMethod).bind fun body bodyFits => ?_
  refine composes_answers.foldlM sound fun fields sound node isNode => ?_
  obtain ⟨_, fits⟩ := bodyFits.walk node isNode
  exact (FieldTable.answers_noteNode isMethod fits).mono fun _ notes => notes.sound sound

/-! ### Types of fields -/

section

variable {keys : List Node} (context : Context)

theorem safe_checkInitializer (usage : FieldUsage) : IsSafe labels (checkInitializer usage) := by
  unfold checkInitializer
  split
  · exact isSafe_pure
  · split
    · exact safe_reject
    · exact safe_reject
    · exact safe_ite safe_reject isSafe_pure
    · exact safe_reject
    · exact isSafe_pure

theorem safe_valueType? (valueFits : value.Fits .operand) : IsSafe labels (valueType? value) := by
  unfold valueType?
  split
  · exact safe_read (fun _ _ => rfl) fun _ _ => isSafe_pure
  · exact isSafe_pure
  · exact isSafe_pure
  · exact safe_inferType valueFits

theorem safe_assignedType? (valueFits : value.Fits .operand) {method : Option Node}
    (isMethod : ∀ inner ∈ method, inner.IsMethod) : IsSafe labels (assignedType? value method) := by
  unfold assignedType?
  split
  · rename_i method _
    have isMethod := isMethod method rfl
    obtain ⟨names, areNames, -⟩ := answers_paramNames isMethod
    have ofNames : Answers (· = names) (paramNames method) := ⟨names, areNames, rfl⟩
    refine (safe_part ofNames).bind fun _ same => ?_
    subst same
    split
    · refine (safe_parameterTypes isMethod areNames).bind fun types same => ?_
      exact (safe_part (answered_typeNamed (by rwa [same]))).ends
    · exact safe_valueType? valueFits
  · exact safe_valueType? valueFits

theorem answered_tableKeyType
    (fits : ∀ inner ∈ key, inner.Fits .operand) : Answered (tableKeyType context key) := by
  cases key with
  | none => exact answered_pure
  | some key =>
    refine (answered_intrinsicType context (fits key rfl)).bind fun found _ => ?_
    split <;> exact answered_pure

theorem answered_nestedMapping (fit : ∀ key ∈ keys, key.Fits .operand) :
    Answered (nestedMapping context value keys depth) := by
  induction depth generalizing keys with
  | zero => exact answered_pure
  | succ _ ih =>
    have ofKey :=
      answered_tableKeyType context fun key isFirst => fit key (mem_of_mem_head? isFirst)
    exact (ih fun key mem => fit key (mem_of_mem_tail mem)).bind fun _ _ => ofKey.ends

theorem safe_tableValue (sound : usage.Sound) : IsSafe labels (tableValue usage) := by
  unfold tableValue
  split
  · rename_i value isValue _
    refine (safe_assignedType? (sound.indexedValue value isValue) (by simp)).bind fun _ _ => ?_
    split <;> exact isSafe_pure
  · exact isSafe_pure

theorem safe_tableType (sound : usage.Sound) : IsSafe labels (tableType usage) := by
  refine (safe_tableValue sound).bind fun value _ => ?_
  have ofType : IsSafe labels (infer fun context =>
      nestedMapping context value usage.keys (max usage.indexDepth 1)) :=
    safe_infer (fun _ _ => by rw [nestedMapping_following]) fun context _ =>
      answered_nestedMapping context sound.keys
  exact ofType.bind fun _ _ => safe_guard safe_report isSafe_pure

theorem safe_elementTypeAmong {method : Option Node} (isMethod : ∀ inner ∈ method, inner.IsMethod)
    (fit : ∀ value ∈ values, value.Fits .operand) :
    IsSafe labels (elementTypeAmong method values) := by
  induction values with
  | nil => exact isSafe_pure
  | cons _ _ ih =>
    obtain ⟨valueFits, restFit⟩ := forall_mem_cons.mp fit
    refine (safe_assignedType? valueFits isMethod).bind fun found _ => ?_
    cases found with
    | some => exact isSafe_pure
    | none => exact ih restFit

theorem safe_arrayType (sound : usage.Sound) : IsSafe labels (arrayType usage) := by
  unfold arrayType
  split
  · rename_i first _ isArray
    obtain ⟨isInitializer, isList⟩ := Option.filter_eq_some_iff.mp isArray
    have parts := (sound.initializer _ isInitializer).parts
    rw [Node.Parts, beq_iff_eq.mp isList] at parts
    have ofFirst : IsSafe labels (infer fun context => first.literalType context.contract.enums) :=
      safe_infer (fun _ _ => rfl) fun context _ =>
        answered_literalType _ (parts first mem_cons_self)
    refine ofFirst.bind fun found _ => ?_
    cases found with
    | some => exact isSafe_pure
    | none => exact safe_reject
  · refine (safe_elementTypeAmong sound.firstMethod sound.elements).bind fun found _ => ?_
    cases found with
    | some => exact isSafe_pure
    | none => exact (safe_part (answers_asText sound.label)).ends

theorem safe_fieldType (sound : usage.Sound) : IsSafe labels (fieldType usage) := by
  refine safe_ite (safe_tableType sound) (safe_ite (safe_arrayType sound) ?_)
  split
  · rename_i value isInitializer
    exact (safe_assignedType? (sound.initializer value isInitializer) (by simp)).ends
  · rename_i value _ isFirst
    exact (safe_assignedType? (sound.firstValue value isFirst) sound.firstMethod).ends
  · refine safe_ite ?_ safe_report.ends
    exact (safe_part (answers_asText sound.label)).ends

end

/-! ### Typing all fields -/

theorem Context.Steady.subset {context : Context}
    (steady : context.Steady known) (below : ∀ label ∈ labels, label ∈ known) :
    context.Steady labels :=
  { steady with typed := fun label mem => steady.typed label (below label mem) }

/-- A field that gets a type has one from then on, and fields that had a type still do. -/
theorem settles_registerField (isText : label.IsText) :
    Settles (Context.Steady known) (registerField label type) fun _ =>
      Context.Steady (known ++ [label]) := by
  obtain ⟨name, rfl⟩ := isText
  refine settles_modify (fun _ _ _ => ⟨rfl, rfl⟩) fun context steady => ?_
  refine ⟨steady.parameters, steady.baseArguments, steady.writable, fun other mem => ?_⟩
  by_cases same : other.safe.key? = (Payload.text name).safe.key?
  · refine ⟨type, ?_⟩
    rw [Context.fieldType?, Table.named?, same]
    exact congrArg Option.join (Table.get?_put_self _ _ _)
  · have earlier : other ∈ known := by
      rcases mem_append.mp mem with earlier | isLabel
      · exact earlier
      · exact absurd (by rw [mem_singleton.mp isLabel]) same
    obtain ⟨type, isType⟩ := steady.typed other earlier
    refine ⟨type, ?_⟩
    rw [← isType, Context.fieldType?, Context.fieldType?, Table.named?, Table.named?]
    cases isKey : other.safe.key? with
    | none => rfl
    | some =>
      refine congrArg Option.join (Table.get?_put_of_ne _ _ ?_)
      rintro rfl
      exact same isKey

/-- The fields that are not set to parameters of the constructor get their types first. -/
theorem settles_typePlain (sound : fields.Sound) :
    Settles (Context.Steady []) (forIn fields PUnit.unit fun usage _ => do
      checkInitializer usage
      if !isDeferred params usage then
        registerField usage.label (← fieldType usage)
        pure (.yield PUnit.unit)
      else pure (.yield PUnit.unit)) fun _ =>
        Context.Steady ((fields.filter (!isDeferred params ·)).map FieldUsage.label) := by
  refine settles_forIn (fun done =>
    Context.Steady ((done.filter (!isDeferred params ·)).map FieldUsage.label)) ?_ []
  intro _ usage isUsage
  have ofUsage := sound usage isUsage
  refine Safe.andThen (safe_checkInitializer usage) fun _ _ => ?_
  by_cases isLate : isDeferred params usage
  · simp only [isLate, Bool.not_true, Bool.false_eq_true, filter_append,
      filter_cons_of_neg, filter_nil, append_nil, not_false_eq_true]
    exact settles_pure fun _ steady => ⟨rfl, steady⟩
  · simp only [isLate, Bool.not_false, filter_append, filter_cons_of_pos, map_append]
    refine Safe.andThen (safe_fieldType ofUsage) fun type _ => ?_
    refine (settles_registerField ofUsage.label).bind fun _ => ?_
    exact settles_pure fun _ steady => ⟨rfl, steady⟩

/-- A field that is set to a parameter of the constructor finds its type among theirs. -/
theorem answered_typeNamed_of_isDeferred (isLate : isDeferred (types.map Prod.fst) usage) :
    Answered (typeNamed types ((usage.initializer.map Node.payload).getD .absent)) := by
  simp only [isDeferred, Bool.and_eq_true] at isLate
  obtain ⟨⟨isParameter, -⟩, -⟩ := isLate
  obtain ⟨_, isValue, holds⟩ := (Option.any_eq_true _ _).mp isParameter
  simp only [Bool.and_eq_true] at holds
  rw [isValue]
  exact answered_typeNamed holds.2

/-- Then the others get the types of the parameters. -/
theorem settles_typeDeferred {late : List FieldUsage} (sound : ∀ usage ∈ late, usage.Sound)
    (areLate : ∀ usage ∈ late, isDeferred (types.map Prod.fst) usage) :
    Settles (Context.Steady known) (forIn late PUnit.unit fun usage _ => do
      let source := (usage.initializer.map Node.payload).getD .absent
      registerField usage.label (← part (typeNamed types source))
      pure (.yield PUnit.unit)) fun _ =>
        Context.Steady (known ++ late.map FieldUsage.label) := by
  refine Settles.mono (settles_forIn (fun done =>
    Context.Steady (known ++ done.map FieldUsage.label)) ?_ []) (fun _ steady => ?_)
    fun _ _ steady => steady
  · intro _ usage isUsage
    refine Safe.andThen (safe_part (answered_typeNamed_of_isDeferred (areLate usage isUsage)))
      fun type _ => ?_
    refine (settles_registerField (sound usage isUsage).label).bind fun _ => ?_
    exact settles_pure fun _ steady => ⟨rfl, by simpa using steady⟩
  · simpa using steady

/-- All fields get types. -/
theorem settles_typeFields (sound : fields.Sound)
    (isMethod : ∀ method ∈ construction, method.IsMethod) :
    Settles (Context.Steady []) (typeFields fields construction) fun _ =>
      Context.Steady (fields.map FieldUsage.label) := by
  cases construction with
  | none =>
    have areParams : Safe [] (· = []) (pure [] : Lower (List Payload)) := safe_pure rfl
    refine areParams.andThen fun params same => ?_
    subst same
    refine (settles_typePlain sound).bind fun _ => settles_pure fun _ steady => ?_
    have isPlain : fields.filter (!isDeferred [] ·) = fields :=
      filter_eq_self.mpr fun usage _ => by simp [isDeferred]
    rwa [isPlain] at steady
  | some method =>
    have isMethod := isMethod method rfl
    obtain ⟨params, areParams, -⟩ := answers_paramNames isMethod
    have ofParams : Answers (params = ·) (paramNames method) := ⟨params, areParams, rfl⟩
    refine Safe.andThen (safe_part ofParams) fun _ same => ?_
    subst same
    refine (settles_typePlain sound).bind fun _ => ?_
    have covered : ∀ label ∈ fields.map FieldUsage.label,
        label ∈ (fields.filter (!isDeferred params ·)).map FieldUsage.label ++
          (fields.filter (isDeferred params)).map FieldUsage.label := by
      intro _ mem
      obtain ⟨usage, isUsage, rfl⟩ := mem_map.mp mem
      cases isLate : isDeferred params usage with
      | false => exact mem_append_left _ (mem_map_of_mem (mem_filter.mpr
          ⟨isUsage, by rw [isLate]; rfl⟩))
      | true => exact mem_append_right _ (mem_map_of_mem (mem_filter.mpr ⟨isUsage, isLate⟩))
    have isSound : ∀ usage ∈ fields.filter (isDeferred params), usage.Sound :=
      fun usage mem => sound usage (mem_of_mem_filter mem)
    have areLate : ∀ usage ∈ fields.filter (isDeferred params), isDeferred params usage :=
      fun usage mem => (mem_filter.mp mem).2
    generalize fields.filter (isDeferred params) = late at *
    cases late with
    | nil => exact settles_pure fun _ steady => steady.subset (by simpa using covered)
    | cons =>
      refine (safe_parameterTypes isMethod areParams).andThen fun types same => ?_
      subst same
      refine (settles_typeDeferred isSound areLate).bind fun _ => ?_
      exact settles_pure fun _ steady => steady.subset covered

/-! ### State variables -/

section

theorem answered_isInlineLiteral (fits : value.Fits role) : Answered (isInlineLiteral value) := by
  have parts := fits.parts
  obtain ⟨kind, _, _, _, _⟩ := value
  cases kind
  case unary =>
    obtain ⟨_, -, _, rfl, rfl, _⟩ := parts
    exact answers_ite answered_pure answered_pure
  all_goals exact answered_pure

theorem safe_requiredType (isTyped : label ∈ labels) :
    IsSafe labels (infer fun context => context.requiredType label) := by
  refine safe_infer (fun _ _ => rfl) fun context steady => ?_
  obtain ⟨type, isType⟩ := steady.typed label isTyped
  exact ⟨type, by rw [Context.requiredType, isType], trivial⟩

theorem safe_declareField (sound : usage.Sound) (isTyped : usage.label ∈ labels) :
    IsSafe labels (declareField readers usage) := by
  refine (safe_part (answers_asText sound.label)).bind fun label _ => ?_
  refine (safe_requiredType isTyped).bind fun type _ => ?_
  split
  · exact isSafe_pure
  · rename_i value isInitializer
    have valueFits := sound.initializer value isInitializer
    split
    · rename_i isArray
      have parts := valueFits.parts
      rw [Node.Parts, beq_iff_eq.mp isArray] at parts
      exact (safe_expressions parts).ends
    · refine safe_ite isSafe_pure ?_
      refine (safe_part (answered_isInlineLiteral valueFits)).bind fun isInline _ => ?_
      refine safe_ite ?_ isSafe_pure
      exact (safe_expression valueFits).ends

/-- Fields that have types can be declared. -/
theorem safe_declareFields {fields : List FieldUsage}
    (sound : ∀ usage ∈ fields, usage.Sound) (areTyped : ∀ usage ∈ fields, usage.label ∈ labels) :
    IsSafe labels (declareFields readers fields) := by
  induction fields with
  | nil => exact isSafe_pure
  | cons _ _ ih =>
    obtain ⟨ofUsage, ofRest⟩ := forall_mem_cons.mp sound
    obtain ⟨isTyped, restTyped⟩ := forall_mem_cons.mp areTyped
    refine (safe_declareField ofUsage isTyped).bind fun _ _ => ?_
    exact (ih ofRest restTyped).ends

theorem safe_fieldSetter (line : Option Int) (isTyped : .text field ∈ labels) :
    IsSafe labels (fieldSetter field line) := by
  refine safe_read (fun _ _ => rfl) fun context _ => safe_ite isSafe_pure ?_
  refine (safe_requiredType isTyped).bind fun type _ => ?_
  exact safe_ite safe_report.ends isSafe_pure

end

end ContractForge
